import TurtleCompiler.Proofs.Procedure

/-!
There is one state that a lowering starts from, and what holds of it is found by evaluation.
-/

namespace TurtleCompiler

namespace Table

variable {t : Table} {id : SymbolId}

instance : Decidable (t.Has id) := inferInstanceAs (Decidable (_ < _))

instance : Decidable (t.IsVar id) := inferInstanceAs (Decidable (_ ∧ _))

instance : Decidable (t.IsUsed id) := inferInstanceAs (Decidable (_ < _))

instance : Decidable (t.IsOpen id) := inferInstanceAs (Decidable (∃ frame ∈ frames t.scopes, _))

instance : Decidable (t.IsClosed id) := inferInstanceAs (Decidable (_ ∈ _))

instance {p : SymbolId → Prop} [DecidablePred p] : Decidable (∀ id, t.Has id → p id) :=
  decidable_of_iff (∀ i < t.symbols.size, p ⟨i⟩)
  ⟨fun h id hid => h id.index hid, fun h i hi => h ⟨i⟩ hi⟩

instance : Decidable t.Sound :=
  decidable_of_iff
    ((∀ frame ∈ frames t.scopes, frame.2.keys.Nodup ∧ Dotless frame.1 ∧
        ∀ e ∈ frame.2.entries, t.Has e.2 ∧ (t.symbol e.2).name.toUpper = e.1 ∧
        (t.symbol e.2).scope = frame.1) ∧
      ((frames t.scopes).map (·.1.toUpper)).Nodup ∧
      (∀ cls ∈ [SymbolClass.var, .routine], (t.byClass cls).keys.Nodup ∧
        ∀ e ∈ (t.byClass cls).entries, t.Has e.2 ∧ (t.symbol e.2).cls = cls ∧
        (t.symbol e.2).fullName.toUpper = e.1) ∧
      ∀ id, t.Has id →
        (t.IsClosed id → ∀ frame ∈ frames t.scopes, (t.symbol id).scope.toUpper ≠
          frame.1.toUpper) ∧
        (t.IsOpen id ∨ t.IsClosed id) ∧
        ((t.symbol id).fullName = qualify (t.symbol id).scope (t.symbol id).name ∧
          Dotless (t.symbol id).scope ∧ Dotless (t.symbol id).name) ∧
        ∀ id', t.Has id' → (t.symbol id).fullName.toUpper =
        (t.symbol id').fullName.toUpper → id = id')
    (by
      constructor
      · rintro ⟨hframes, hpaths, hclosed, hsymbols⟩
        have hclosed (cls : SymbolClass) := hclosed cls (by cases cls <;> simp)
        refine ⟨fun hf _ _ he => (hframes _ hf).2.2 _ he, fun hf => (hframes _ hf).1, hpaths,
          fun hf => (hframes _ hf).2.1, fun {cls} _ _ he => (hclosed cls).2 _ he,
          fun cls => (hclosed cls).1, ?_, fun hid => (hsymbols _ hid).2.1,
          fun hid => (hsymbols _ hid).2.2.1, fun hid hid' => (hsymbols _ hid).2.2.2 _ hid'⟩
        exact fun hid hf => (hsymbols _ ((hclosed _).2 _ hid).1).1 hid _ hf
      · intro h
        exact ⟨fun _ hf => ⟨h.keys hf, h.dotless hf, fun _ he => h.entry hf he⟩, h.paths,
          fun cls _ => ⟨h.closedKeys cls, fun _ he => h.closedEntry he⟩,
          fun _ hid => ⟨fun hclosed _ hf => h.apart hclosed hf, h.placed hid, h.named hid,
            fun _ hid' => h.unique hid hid'⟩⟩)

instance : Decidable t.Live :=
  decidable_of_iff
    (t.Sound ∧ (∀ path ∈ ((frames t.scopes).map Prod.fst).getLast?, path = "") ∧
      ∀ id, t.Has id →
        (∀ r ∈ (t.symbol id).routine?, (t.symbol id).scope = "" ∧ r.hooks.before = [] ∧
        (r.hooks.after = [] ∨ r.hooks.after = [storeFirst] ∧
          (t.symbol id).name.toUpper = "TYPEIN")) ∧
      (∀ m ∈ t.dependencies id, t.IsVar m ∧ (t.IsUsed id → t.IsUsed m)) ∧
      ∀ target ∈ t.alias? id, Dotless target ∧ target.toUpper ≠ "TYPEIN" ∧
        t.dependencies id = [] ∧ ∀ j, t.Has j → (t.symbol j).name.toUpper = target.toUpper →
        t.alias? j = none)
    (by
      constructor
      · rintro ⟨hsound, houter, h⟩
        refine ⟨hsound, houter, fun r hr => ((h _ (has_of_routine? hr)).1 r hr).1,
          fun hm => ((h _ (has_of_mem_dependencies hm)).2.1 _ hm).1,
          fun hid hm => ((h _ hid.has).2.1 _ hm).2 hid,
          fun r hr => ((h _ (has_of_routine? hr)).1 r hr).2, fun {id target} halias => ?_⟩
        obtain ⟨hdot, hne, hdeps, hchain⟩ := (h _ (has_of_alias? halias)).2.2 target halias
        refine ⟨hdot, hne, hdeps, fun {j} hj => ?_⟩
        by_cases hhas : t.Has j
        · exact hchain j hhas hj
        · simp [alias?, symbol_of_not_has hhas, blankSymbol, Symbol.routine?]
      · intro h
        exact ⟨h.sound, h.outer, fun id hid => ⟨fun r hr => ⟨h.top r hr, h.hooks r hr⟩,
          fun m hm => ⟨h.isVar hm, fun hid => h.isUsed hid hm⟩, fun target halias => by
            obtain ⟨hdot, hne, hdeps, hchain⟩ := h.aliases halias
            exact ⟨hdot, hne, hdeps, fun j _ hj => hchain hj⟩⟩⟩)

end Table

def Entry.template? : Entry → Option Template
  | .node _ => none
  | .template line => some line

namespace Lowering

def IsStart (entry : SymbolId) (t : Table) : Prop :=
  (frames t.scopes).map Prod.fst = [""] ∧ (t.symbol entry).line.isSome ∧
    (∃ r ∈ (t.symbol entry).routine?, r.code = none ∧ r.aliasOf = none) ∧
    ∀ id, t.Has id → (t.IsUsed id → id = entry) ∧
      (∀ r ∈ (t.symbol id).routine?,
        ((t.symbol id).line.isSome ∨ (t.symbol id).flags.library) ∧
        ∀ d ∈ r.code, d.symbol = id ∧ ∀ e ∈ d.body, ∃ line ∈ e.template?,
          ∀ x ∈ operand? (line.render (Definition.context t (t.symbol id) r)),
            ∃ m ∈ r.params ++ r.uses, (t.symbol m).fullName = x) ∧
      (t.IsClosed id → ∃ frame ∈ frames t.scopes, ∃ owner ∈ frame.2.entries,
        frame.1 = "" ∧
        -- as lists, which is what the kernel is fast on
        (t.symbol id).scope.toUpper.toList = '@' :: owner.1.toList ∧
          ((t.symbol owner.2).line.isSome ∨ (t.symbol owner.2).flags.library))

instance (entry : SymbolId) (t : Table) : Decidable (IsStart entry t) := by
  unfold IsStart
  infer_instance

def setup? : Option (SymbolId × Table) :=
  match setup {} with
  | .ok entry w => some (entry, w.table)
  | .error .. => none

structure Start where
  entry : SymbolId
  table : Table
  setup : setup? = some (entry, table)
  live : table.Live
  isStart : IsStart entry table

theorem isSome_setup? : setup?.isSome := by decide +kernel

def start : Start where
  entry := (setup?.get isSome_setup?).1
  table := (setup?.get isSome_setup?).2
  setup := (Option.some_get isSome_setup?).symm
  live := by decide +kernel
  isStart := by decide +kernel

variable {entry : SymbolId} {w : Workspace}

theorem eq_start (h : Lowering.setup {} = .ok entry w) :
    entry = start.entry ∧ w.table = start.table := by
  have hsetup : setup? = some (entry, w.table) := by simp [setup?, h]
  simpa using hsetup.symm.trans start.setup

theorem ok_of_isStart (hlive : w.table.Live) (h : IsStart entry w.table) :
    ({ toWorkspace := w, entry } : Lowering).Ok [] := by
  obtain ⟨-, hline, hentry, h⟩ := h
  refine ⟨⟨hlive, fun r hr d hd => ?_, fun hid _ => .inl ((h _ hid.has).1 hid)⟩, by simp,
    ⟨hline, hentry⟩, fun r hr hnone hlibrary => ?_, fun hid => ?_⟩
  · obtain ⟨hsymbol, hbody⟩ := ((h _ (Table.has_of_routine? hr)).2.1 r hr).2 d hd
    refine ⟨hsymbol, fun e he => ?_⟩
    obtain ⟨line, hline, hoperand⟩ := hbody e he
    cases e with
    | node n => simp [Entry.template?] at hline
    | template line' =>
      obtain rfl : line' = line := by simpa [Entry.template?] using hline
      exact hoperand
  · have hdefined := ((h _ (Table.has_of_routine? hr)).2.1 r hr).1
    simp [hnone, hlibrary] at hdefined
  · obtain ⟨frame, hframe, owner, howner, hpath, hscope, hdefined⟩ :=
      (h _ (hlive.sound.closedEntry hid).1).2.2 hid
    refine ⟨frame, hframe, owner, howner, hpath, ?_, hdefined⟩
    exact String.toList_injective (by simpa using hscope)

theorem ok_setup (h : setup {} = .ok entry w) :
    ({ toWorkspace := w, entry } : Lowering).Ok [] ∧ w.table.AtTop := by
  obtain ⟨rfl, htable⟩ := eq_start h
  rw [htable]
  exact ⟨ok_of_isStart (htable ▸ start.live) (htable ▸ start.isStart), start.isStart.1⟩

end Lowering

theorem lowered_of_lower {text : String} {u : Unit} {w : Workspace}
    (h : lower (.ofText text) {} = .ok u w) :
    ∃ entry, w.table.Lowered entry [] ∧ ¬ w.table.IsVar entry ∧ w.table.scopes = [] := by
  obtain ⟨entry, w₀, s, hsetup, hrun, rfl⟩ := Lowering.within_eq_ok h
  obtain ⟨hok, hpaths⟩ := Lowering.ok_setup hsetup
  obtain ⟨_, s₁, hlower, hfinish⟩ := bind_eq_ok.1 hrun
  obtain ⟨hlowered, hentry, hscopes, -⟩ :=
    (Source.ok_lower_parse hok hpaths hlower).1.finish hfinish
  exact ⟨_, hlowered, hentry, hscopes⟩

end TurtleCompiler
