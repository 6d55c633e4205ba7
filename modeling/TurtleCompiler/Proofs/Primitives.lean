import TurtleCompiler.Proofs.Operations
import TurtleCompiler.Proofs.Passage

/-!
The primitives stay what they are from the beginning.
-/

namespace TurtleCompiler

def Symbol.guise (s : Symbol) : Option String × Flags × Hooks :=
  match s.routine? with
  | some r => (r.aliasOf, r.flags, r.hooks)
  | none => (none, {}, {})

theorem Symbol.guise_of_routine? {s : Symbol} {r : Routine} (h : s.routine? = some r) :
    s.guise = (r.aliasOf, r.flags, r.hooks) := by
  rw [guise, h]

theorem Symbol.guise_merge (line : Option Nat) {f : Fields}
    (hf : f = { type := f.type, params := f.params }) (s : Symbol) :
    (s.merge line f).2.guise = s.guise := by
  rw [hf]
  obtain ⟨name, line', usage, scope, fullName, v | r⟩ := s
  · unfold merge
    dsimp only
    split <;> rfl
  · simp [merge, guise, routine?, Routine.apply, Flags.union]

namespace Table

variable {t t' t'' : Table} {id j : SymbolId} {name : String}

theorem Anchors.callTo (h : t.Anchors name id) (halias : (t.symbol id).guise.1 = none)
    {args : List Arg} {e : Expr} (he : Expr.callTo t name args = .ok e) :
    e = .call id args (t.symbol id).type? := by
  obtain ⟨r, hr⟩ := Symbol.exists_routine h.cls
  have halias : r.aliasOf = none := by rwa [Symbol.guise_of_routine? hr] at halias
  obtain ⟨callee, hcallee, rfl⟩ := Expr.callTo_eq_ok.1 he
  have hself : t.resolveAlias id = some id := by simp [resolveAlias, followAlias, hr, halias]
  rw [h.resolve, Option.bind_some, hself] at hcallee
  rw [Option.some.inj hcallee]

structure Abides (t t' : Table) : Prop where
  has : ∀ {id}, t.Has id → t'.Has id
  name : ∀ {id}, t.Has id → (t'.symbol id).name = (t.symbol id).name
  guise : ∀ id, (t'.symbol id).guise = (t.symbol id).guise
  anchors : ∀ {name id}, t.Anchors name id → t'.Anchors name id

namespace Abides

theorem refl (t : Table) : t.Abides t := ⟨fun h => h, fun _ => rfl, fun _ => rfl, fun h => h⟩

theorem trans (h : t.Abides t') (h' : t'.Abides t'') : t.Abides t'' :=
  ⟨fun hid => h'.has (h.has hid), fun hid => (h'.name (h.has hid)).trans (h.name hid),
    fun id => (h'.guise id).trans (h.guise id), fun hid => h'.anchors (h.anchors hid)⟩

theorem of_edits (he : t.Edits t') (h : ∀ id, (t'.symbol id).guise = (t.symbol id).guise) :
    t.Abides t' :=
  ⟨he.has.2, fun _ => (he.symbol _).name, h, fun hid => hid.edits he⟩

theorem counts (hc : t.Counts t') : t.Abides t' :=
  of_edits hc.toEdits fun id => by simp only [Symbol.guise, hc.routine?]

theorem modifySymbol {f : Symbol → Symbol} (hf : (t.symbol id).Grows (f (t.symbol id)))
    (h : (f (t.symbol id)).guise = (t.symbol id).guise) : t.Abides (t.modifySymbol id f) :=
  of_edits (edits_modifySymbol hf) (symbol_modifySymbol_congr Symbol.guise h)

theorem setValue {v : Value} (hset : Table.setValue id v t = .ok ⟨⟩ t') : t.Abides t' := by
  obtain ⟨-, rfl⟩ := setValue_eq_ok hset
  refine modifySymbol (Symbol.grows_setValue v _) ?_
  obtain ⟨_, _, _, _, _, _ | _⟩ := t.symbol id <;> rfl

theorem setCode {d : Definition} (hset : Table.setCode id d t = .ok ⟨⟩ t') : t.Abides t' := by
  obtain ⟨-, rfl⟩ := setCode_eq_ok hset
  refine modifySymbol (Symbol.grows_setCode d _) ?_
  obtain ⟨_, _, _, _, _, _ | _⟩ := t.symbol id <;> rfl

theorem declare
    (hentry : ∀ {scope}, scope ∈ t.scopes →
      ∀ {key id}, (key, id) ∈ scope.names.entries → t.Has id)
    {reach : Reach} {cls : SymbolClass} {line : Option Nat} {f : Fields}
    (hf : f = { type := f.type, params := f.params })
    (hcls : cls = .var ∨ reach ≠ .innermost)
    (hd : Table.declare reach name cls line f t = .ok id t') : t.Abides t' := by
  have husage : f.usage = none := congrArg Fields.usage hf
  rcases declare_eq_ok hd with ⟨-, -, rfl⟩ | ⟨hid, hscopes, -, kind, hkind, rfl⟩
  · exact modifySymbol (Symbol.grows_merge line husage _) (Symbol.guise_merge line hf _)
  · obtain ⟨scope, hscope, hget⟩ := exists_scope hid hscopes
    -- a routine is declared only where nothing has its name, so it hides no other
    have hfree : ∀ r, kind = .routine r → ∀ s ∈ t.scopes, s.names.get? name = none := by
      rintro r rfl
      obtain ⟨-, ⟨⟩⟩ | ⟨rfl, -⟩ := ofFields_eq_ok hkind
      rwa [declared_eq_resolve (by simpa using hcls), Table.resolve_none, findSome?_frames,
        List.findSome?_eq_none_iff] at hid
    rw [husage, Option.getD_none]
    refine ⟨fun h => has_insertAt.2 (.inl h),
      fun h => by rw [symbol_insertAt_of_has h], fun j => ?_,
      fun h => h.insertAt hentry hscope hget hfree⟩
    rw [symbol_insertAt]
    split
    · rename_i hj
      rw [symbol_of_not_has (Nat.not_lt.2 (Nat.le_of_eq hj.symm))]
      rw [hf] at hkind
      obtain ⟨-, rfl⟩ | ⟨-, rfl⟩ := ofFields_eq_ok hkind <;> rfl
    · rfl

theorem push (hscopes : t.scopes ≠ []) (inner : String) : t.Abides (t.push inner) :=
  ⟨fun h => h, fun _ => rfl, fun _ => rfl, fun h => h.push hscopes inner⟩

theorem pop {scope : Scope} {scopes : List Scope} (ht : t.Steady)
    (hscopes : t.scopes = scope :: scopes) :
    t.Abides (scope.names.ids.foldl Table.close { t with scopes }) := by
  have hsymbols := (symbols_foldl_close scope.names.ids { t with scopes }).1
  have hsymbol := symbol_eq_of_symbols (t := t) hsymbols
  exact ⟨by simp [Has, hsymbols], fun _ => by rw [hsymbol], fun _ => by rw [hsymbol],
    fun h => h.pop ht hscopes⟩

theorem isPrint (h : t.Abides t') (id : SymbolId) : t'.isPrint id = t.isPrint id := by
  have hguise (t : Table) : t.isPrint id =
      ((t.symbol id).guise.2.1.reverseArgs && (t.symbol id).guise.2.2 =
        { target := some "WRITE" }) := by
    unfold Table.isPrint Symbol.guise
    cases (t.symbol id).routine? <;> rfl
  rw [hguise, hguise, h.guise]

end Abides

end Table

namespace Lowering

variable {s s' : Lowering} {name : String} {line : Nat} {params : List String} {id : SymbolId}

theorem Declares.abides {ids : List SymbolId} (h : Declares line s params ids s')
    (hs : s.table.Steady) : s.table.Abides s'.table := by
  induction h with
  | nil => exact .refl _
  | cons hd _ ih =>
    exact .trans (.declare hs.entry rfl (.inl rfl) hd) (ih (hs.declare rfl (.inl rfl) hd))

theorem abides_openProcedure (hs : s.table.Steady)
    (h : openProcedure name line params s = .ok id s') : s.table.Abides s'.table := by
  obtain ⟨t₁, ids, s₂, s₃, j, t₄, hd, hparams, huse, hd', rfl⟩ := openProcedure_eq_ok h
  have ht₁ := hs.declare rfl (.inr ⟨rfl, by simp⟩) hd
  have hscopes : t₁.scopes ≠ [] := by
    intro he
    have hresolve : t₁.resolve name none none = some id := Table.resolve_none_declare (by simp) hd
    simp [Table.resolve_none, he, frames] at hresolve
  have hs₂ := (hparams.steady (ht₁.push hscopes name)).1
  have hcounts := counts_params huse
  have h₁ : s.table.Abides t₁ := .declare hs.entry rfl (.inr (by simp)) hd
  have h₂ : (t₁.push name).Abides s₂.table := hparams.abides (ht₁.push hscopes name)
  refine h₁.trans
    ((Table.Abides.push hscopes name).trans (h₂.trans ((Table.Abides.counts hcounts).trans ?_)))
  exact .declare (fun hscope _ _ hid => hcounts.has.2 (hs₂.entry (hcounts.scopes ▸ hscope) hid))
    rfl (.inr (by simp)) hd'

theorem Action.abides_take {a : Action} {u : Unit} (hs : s.table.Steady) (h : a.take s = .ok u s') :
    s.table.Abides s'.table := by
  refine (Action.keeps_take (P := fun t => t.Steady ∧ s.table.Abides t) ?_ ?_ ?_ ?_ ?_
    ⟨hs, .refl _⟩ h).2
  · rintro reach name cls line type id t t' hcls ⟨ht, habides⟩ hd
    refine ⟨ht.declare rfl (hcls.imp_right ?_) hd,
      habides.trans (.declare ht.entry rfl (hcls.imp_right And.right) hd)⟩
    rintro ⟨rfl, hreach⟩
    exact ⟨rfl, hreach⟩
  · exact fun ⟨ht, habides⟩ hc =>
      ⟨ht.countUsage hc, habides.trans (.counts (.countUsage hc))⟩
  · exact fun ⟨ht, habides⟩ hset =>
      ⟨steady_setValue ht hset, habides.trans (.setValue hset)⟩
  · exact fun ⟨ht, habides⟩ hopen =>
      ⟨steady_openProcedure ht hopen, habides.trans (abides_openProcedure ht hopen)⟩
  · intro id d t t' scope scopes ⟨ht, habides⟩ hset hscopes
    have ht' := steady_setCode ht hset
    exact ⟨ht'.pop hscopes,
      habides.trans ((Table.Abides.setCode hset).trans (.pop ht' hscopes))⟩

theorem abides_actions {actions : List Action} {u : Unit} (hs : s.table.Steady)
    (h : actions.forM Action.take s = .ok u s') : s.table.Abides s'.table := by
  induction actions generalizing s with
  | nil =>
    obtain ⟨-, rfl⟩ := pure_eq_ok.1 h
    exact .refl _
  | cons a actions ih =>
    obtain ⟨_, s₁, ha, h⟩ := bind_eq_ok.1 h
    exact (a.abides_take hs ha).trans (ih (a.steady_take hs ha) h)

theorem anchors_setup {entry : SymbolId} {w : Workspace} (h : setup {} = .ok entry w)
    (hid : w.table.IsRoutine name id) : w.table.Anchors name id := by
  obtain ⟨hok, hpaths⟩ := ok_setup h
  obtain ⟨names, hscopes⟩ := exists_outer hpaths
  obtain ⟨frame, hframe, hpath, hentry⟩ := hok.live.mem_outer hid (by simp [hpaths])
  have hsound : w.table.Sound := hok.live.sound
  obtain ⟨-, hname, hscope⟩ := hsound.entry hframe hentry
  have hget := NameMap.get?_of_mem (hsound.keys hframe) hentry
  obtain rfl : frame = ("", names) := by simpa [hscopes, frames, scopePath] using hframe
  refine ⟨hid.1, hid.2.1, ?_, ?_, ?_, by simp [hscopes]⟩
  · rw [(hsound.named hid.1).1, hscope, qualify, if_pos rfl, hname]
  · simpa [hscopes] using hget
  · rintro scope hs j hj -
    obtain rfl : scope = ⟨"", names⟩ := by simpa [hscopes] using hs
    exact Option.mem_unique hj hget

end Lowering

end TurtleCompiler
