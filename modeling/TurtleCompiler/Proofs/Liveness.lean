import TurtleCompiler.Proofs.SymbolTable

/-!
Uses of symbols. Whatever is used has what it depends on used as well, and each use has a cause.
-/

namespace TurtleCompiler

def storeFirst : Template := ⟨[.text "STOR ".toList, .hole (.callArgument 0)]⟩

namespace Symbol

variable {f : Fields} {s : Symbol}

theorem usage_merge (line : Option Nat) (h : f.usage = none) (s : Symbol) :
    (s.merge line f).2.usage = s.usage := by
  unfold merge
  split <;> split <;> simp [declareAgain, h]

theorem usage_setValue (v : Value) (s : Symbol) : (s.setValue v).usage = s.usage := by
  unfold setValue
  split <;> rfl

theorem routine?_merge (line : Option Nat) (h : s.cls = .var ∨ f = {}) :
    (s.merge line f).2.routine? = s.routine? := by
  obtain ⟨name, line', usage, scope, fullName, v | r⟩ := s
  · unfold merge
    dsimp only
    split <;> rfl
  · obtain rfl : f = {} := by simpa [cls] using h
    obtain ⟨params, aliasOf, uses, flags, type, hooks, code⟩ := r
    simp [merge, routine?, Routine.apply, Flags.union]

theorem routine?_merge_some {line : Option Nat} {r : Routine} (hf : f.value = none)
    (h : s.routine? = some r) : (s.merge line f).2.routine? = some (r.apply f) := by
  obtain ⟨name, line', usage, scope, fullName, v | r'⟩ := s
  · simp [routine?] at h
  · obtain rfl : r' = r := by simpa [routine?] using h
    simp [merge, routine?, hf]

theorem cls_of_routine? {r : Routine} (h : s.routine? = some r) : s.cls = .routine := by
  obtain ⟨name, line, usage, scope, fullName, v | r⟩ := s
  · simp [routine?] at h
  · rfl

theorem exists_routine (h : s.cls = .routine) : ∃ r, s.routine? = some r := by
  obtain ⟨name, line, usage, scope, fullName, v | r⟩ := s
  · simp [cls] at h
  · exact ⟨r, rfl⟩

end Symbol

namespace Table

variable {t t' t'' : Table} {id a b : SymbolId} {name : String} {ms : List SymbolId}
  {line : Option Nat} {reach : Reach}

def IsVar (t : Table) (id : SymbolId) : Prop := t.Has id ∧ (t.symbol id).cls = .var

def IsUsed (t : Table) (id : SymbolId) : Prop := 0 < (t.symbol id).usage

def alias? (t : Table) (id : SymbolId) : Option String := (t.symbol id).routine?.bind (·.aliasOf)

theorem IsUsed.has (h : t.IsUsed id) : t.Has id := by
  by_contra hid
  simp [IsUsed, symbol_of_not_has hid, blankSymbol] at h

theorem has_of_mem_dependencies {m : SymbolId} (h : m ∈ t.dependencies id) : t.Has id := by
  by_contra hid
  simp [dependencies, symbol_of_not_has hid, blankSymbol, Symbol.routine?] at h

theorem has_of_alias? {target : String} (h : t.alias? id = some target) : t.Has id := by
  by_contra hid
  simp [alias?, symbol_of_not_has hid, blankSymbol, Symbol.routine?] at h

theorem IsVar.routine? (h : t.IsVar id) : (t.symbol id).routine? = none := by
  have hcls := h.2
  unfold Symbol.cls at hcls
  unfold Symbol.routine?
  split at hcls <;> simp_all

theorem IsVar.dependencies (h : t.IsVar id) : t.dependencies id = [] := by
  simp [Table.dependencies, h.routine?]

structure Extends (ms : List SymbolId) (t t' : Table) : Prop where
  sound : t.Sound → t'.Sound
  paths : (frames t'.scopes).map (·.1) = (frames t.scopes).map (·.1)
  entries : ∀ {frame}, frame ∈ frames t.scopes →
    ∃ frame' ∈ frames t'.scopes, frame'.1 = frame.1 ∧ frame.2.entries <+: frame'.2.entries
  byClass : t'.byClass = t.byClass
  has : ∀ {id}, t.Has id → t'.Has id
  grows : ∀ {id}, t.Has id → (t.symbol id).Grows (t'.symbol id)
  routine : ∀ {id}, t.Has id → (t'.symbol id).routine? = (t.symbol id).routine?
  blank : ∀ {id}, ¬ t.Has id → ∀ r ∈ (t'.symbol id).routine?, r = {} ∧
    (t'.symbol id).scope = ""
  used : ∀ {id}, t'.IsUsed id → t.IsUsed id ∨ (∀ m ∈ t'.dependencies id, t'.IsUsed m) ∧
    (t'.alias? id = none → ∃ m ∈ ms, id = m ∨ id ∈ t'.dependencies m)

namespace Extends

theorem refl (t : Table) : t.Extends [] t :=
  ⟨id, rfl, fun h => ⟨_, h, rfl, List.prefix_rfl⟩, rfl, id, fun _ => .refl _, fun _ => rfl,
    fun h => by simp [symbol_of_not_has h, blankSymbol, Symbol.routine?], .inl⟩

section

variable (h : t.Extends ms t')

include h

theorem isUsed (hid : t.IsUsed id) : t'.IsUsed id :=
  Nat.lt_of_lt_of_le hid (h.grows hid.has).usage

theorem isVar (hid : t.IsVar id) : t'.IsVar id :=
  ⟨h.has hid.1, (h.grows hid.1).cls.trans hid.2⟩

theorem dependencies (hid : t.Has id) : t'.dependencies id = t.dependencies id := by
  simp [Table.dependencies, h.routine hid]

theorem alias? (hid : t.Has id) : t'.alias? id = t.alias? id := by
  simp [Table.alias?, h.routine hid]

theorem dependencies_of_not_has (hid : ¬ t.Has id) : t'.dependencies id = [] := by
  have hblank := h.blank hid
  cases hr : (t'.symbol id).routine? with
  | none => simp [Table.dependencies, hr]
  | some r => simp [Table.dependencies, hr, (hblank r hr).1]

theorem alias?_of_not_has (hid : ¬ t.Has id) : t'.alias? id = none := by
  have hblank := h.blank hid
  cases hr : (t'.symbol id).routine? with
  | none => simp [Table.alias?, hr]
  | some r => simp [Table.alias?, hr, (hblank r hr).1]

end

variable {ms' : List SymbolId}

theorem mono (h : t.Extends ms t') (hms : ms ⊆ ms') : t.Extends ms' t' :=
  { h with
    used := fun hid => (h.used hid).imp id fun ⟨hdeps, hcause⟩ =>
      ⟨hdeps, fun halias => (hcause halias).imp fun _ ⟨hm, hid⟩ => ⟨hms hm, hid⟩⟩ }

theorem trans (h : t.Extends ms t') (h' : t'.Extends ms' t'') : t.Extends (ms ++ ms') t'' where
  sound := h'.sound ∘ h.sound
  paths := h'.paths.trans h.paths
  entries hframe := by
    obtain ⟨frame', hframe', hpath, hentries⟩ := h.entries hframe
    obtain ⟨frame'', hframe'', hpath', hentries'⟩ := h'.entries hframe'
    exact ⟨frame'', hframe'', hpath'.trans hpath, hentries.trans hentries'⟩
  byClass := h'.byClass.trans h.byClass
  has hid := h'.has (h.has hid)
  grows hid := (h.grows hid).trans (h'.grows (h.has hid))
  routine hid := (h'.routine (h.has hid)).trans (h.routine hid)
  blank {id} hid r hr := by
    by_cases hid' : t'.Has id
    · rw [h'.routine hid'] at hr
      rw [(h'.grows hid').scope]
      exact h.blank hid r hr
    · exact h'.blank hid' r hr
  used {id} hid := by
    rcases h'.used hid with hid' | ⟨hdeps, hcause⟩
    · rcases h.used hid' with hid | ⟨hdeps, hcause⟩
      · exact .inl hid
      · rw [h'.dependencies hid'.has, h'.alias? hid'.has]
        refine .inr ⟨fun m hm => h'.isUsed (hdeps m hm), fun halias => ?_⟩
        obtain ⟨m, hm, hid⟩ := hcause halias
        refine ⟨m, List.mem_append_left _ hm, hid.imp_right fun hid => ?_⟩
        rwa [h'.dependencies (has_of_mem_dependencies hid)]
    · refine .inr ⟨hdeps, fun halias => ?_⟩
      obtain ⟨m, hm, hid⟩ := hcause halias
      exact ⟨m, List.mem_append_right _ hm, hid⟩

end Extends

structure Live (t : Table) : Prop where
  sound : t.Sound
  outer : ∀ path ∈ ((frames t.scopes).map (·.1)).getLast?, path = ""
  top : ∀ {id}, ∀ r ∈ (t.symbol id).routine?, (t.symbol id).scope = ""
  isVar : ∀ {id m}, m ∈ t.dependencies id → t.IsVar m
  isUsed : ∀ {id m}, t.IsUsed id → m ∈ t.dependencies id → t.IsUsed m
  hooks : ∀ {id}, ∀ r ∈ (t.symbol id).routine?, r.hooks.before = [] ∧
    (r.hooks.after = [] ∨ r.hooks.after = [storeFirst] ∧ (t.symbol id).name.toUpper = "TYPEIN")
  aliases : ∀ {id target}, t.alias? id = some target → Dotless target ∧
    target.toUpper ≠ "TYPEIN" ∧ t.dependencies id = [] ∧
    ∀ {j}, (t.symbol j).name.toUpper = target.toUpper → t.alias? j = none

theorem Live.extends (h : t.Live) (he : t.Extends ms t') : t'.Live where
  sound := he.sound h.sound
  outer := he.paths ▸ h.outer
  top {id} r hr := by
    by_cases hid : t.Has id
    · rw [he.routine hid] at hr
      rw [(he.grows hid).scope]
      exact h.top r hr
    · exact (he.blank hid r hr).2
  isVar {id m} hm := by
    by_cases hid : t.Has id
    · rw [he.dependencies hid] at hm
      exact he.isVar (h.isVar hm)
    · simp [he.dependencies_of_not_has hid] at hm
  isUsed {id m} hid hm := by
    rcases he.used hid with hid | ⟨hdeps, -⟩
    · rw [he.dependencies hid.has] at hm
      exact he.isUsed (h.isUsed hid hm)
    · exact hdeps m hm
  hooks {id} r hr := by
    by_cases hid : t.Has id
    · rw [he.routine hid] at hr
      rw [(he.grows hid).name]
      exact h.hooks r hr
    · simp [(he.blank hid r hr).1]
  aliases {id target} halias := by
    by_cases hid : t.Has id
    · rw [he.alias? hid] at halias
      obtain ⟨hdot, hne, hdeps, hchain⟩ := h.aliases halias
      refine ⟨hdot, hne, (he.dependencies hid).trans hdeps, fun {j} hj => ?_⟩
      by_cases hj' : t.Has j
      · rw [(he.grows hj').name] at hj
        exact (he.alias? hj').trans (hchain hj)
      · exact he.alias?_of_not_has hj'
    · simp [he.alias?_of_not_has hid] at halias

theorem extends_modifySymbol {f : Symbol → Symbol} (hf : (t.symbol id).Grows (f (t.symbol id)))
    (hroutine : (f (t.symbol id)).routine? = (t.symbol id).routine?)
    (husage : (f (t.symbol id)).usage = (t.symbol id).usage) :
    t.Extends [] (t.modifySymbol id f) := by
  have he := edits_modifySymbol hf
  refine ⟨fun h => h.edits he, rfl, fun h => ⟨_, h, rfl, List.prefix_rfl⟩, rfl, he.has.2,
    fun _ => he.symbol _, fun _ => symbol_modifySymbol_congr Symbol.routine? hroutine _,
    fun {j} hj => ?_, fun {j} hj => .inl ?_⟩
  · rw [symbol_of_not_has (mt he.has.1 hj)]
    simp [blankSymbol, Symbol.routine?]
  · rwa [IsUsed, symbol_modifySymbol_congr Symbol.usage husage] at hj

theorem extends_insertAt {k : Nat} {frame : String × NameMap} {kind : Kind}
    (hk : (frames t.scopes)[k]? = some frame) (hname : Dotless name)
    (hnew : frame.2.get? name = none)
    (hkind : ∀ r, kind = .routine r → r = {} ∧ frame.1 = "") :
    t.Extends [] (t.insertAt k frame.1 name line 0 kind) where
  sound h := h.insertAt hk hname hnew
  paths := by
    rw [frames_insertAt]
    apply List.ext_getElem?
    intro i
    simp only [List.getElem?_map, List.getElem?_modify]
    split <;> cases (frames t.scopes)[i]? <;> rfl
  entries {f} hf := by
    rw [frames_insertAt]
    rcases mem_modify_of_mem hf with hf | ⟨hf, hf'⟩
    · exact ⟨f, hf, rfl, List.prefix_rfl⟩
    · obtain rfl : frame = f := by simpa [hk] using hf
      refine ⟨_, hf', rfl, ?_⟩
      rw [NameMap.entries_insert_of_get? hnew]
      exact List.prefix_append _ _
  byClass := rfl
  has hid := has_insertAt.2 (.inl hid)
  grows hid := by
    rw [symbol_insertAt_of_has hid]
    exact .refl _
  routine hid := by rw [symbol_insertAt_of_has hid]
  blank {id} hid r hr := by
    rw [symbol_insertAt] at hr ⊢
    split at hr
    · rename_i hindex
      rw [if_pos hindex]
      cases kind with
      | var v => simp [Symbol.routine?] at hr
      | routine r' =>
        obtain rfl : r' = r := by simpa [Symbol.routine?] using hr
        exact hkind r' rfl
    · simp [symbol_of_not_has hid, blankSymbol, Symbol.routine?] at hr
  used {id} hid := by
    rw [IsUsed, symbol_insertAt] at hid
    split at hid
    · simp at hid
    · exact .inl hid

theorem Edits.resolve (h : t.Edits t') (name : String) (scope : Option String)
    (cls : Option SymbolClass) : t'.resolve name scope cls = t.resolve name scope cls := by
  simp only [Table.resolve, h.scopes, (h.symbol _).cls, Table.lookup, h.byClass]

theorem Sound.declared (h : t.Sound) (hid : t.declared reach name = some id) :
    t.Has id ∧ (t.symbol id).name.toUpper = name.toUpper := by
  cases reach with
  | anywhere | outermost => exact ⟨(h.resolve_none hid).1, (h.resolve_none hid).2.1⟩
  | innermost =>
    obtain ⟨scope, hscope, hget⟩ := Option.bind_eq_some_iff.1 hid
    have hframe : (frames t.scopes)[0]? = some (scopePath t.scopes, scope.names) := by
      rw [List.head?_eq_getElem?] at hscope
      simp [getElem?_frames, hscope]
    have hentry := h.entry (List.mem_of_getElem? hframe) (NameMap.mem_of_get? hget)
    exact ⟨hentry.1, hentry.2.1⟩

theorem exists_scope (hid : t.declared reach name = none) (hscopes : t.scopes ≠ []) :
    ∃ scope, t.scopes[t.frame reach]? = some scope ∧ scope.names.get? name = none := by
  have hlt : t.frame reach < t.scopes.length := by
    have := List.length_pos_iff.2 hscopes
    cases reach <;> simp only [frame] <;> omega
  refine ⟨_, List.getElem?_eq_getElem hlt, ?_⟩
  cases reach with
  | anywhere | outermost =>
    rw [Table.declared, Table.resolve_none, findSome?_frames, List.findSome?_eq_none_iff] at hid
    exact hid _ (List.getElem_mem hlt)
  | innermost =>
    simpa [Table.declared, List.head?_eq_getElem?, frame, List.length_pos_iff.2 hscopes] using hid

theorem exists_frame (hid : t.declared reach name = none) (hscopes : t.scopes ≠ []) :
    ∃ names, (frames t.scopes)[t.frame reach]? =
      some (scopePath (t.scopes.drop (t.frame reach)), names) ∧ names.get? name = none := by
  obtain ⟨scope, hscope, hget⟩ := exists_scope hid hscopes
  exact ⟨scope.names, by simp [getElem?_frames, hscope], hget⟩

section Declare

variable {reach : Reach} {cls : SymbolClass} {line : Option Nat} {f : Fields} {α β : Type}

theorem ofFields_eq_ok {kind : Kind} (h : Kind.ofFields name f cls = .ok kind) :
    cls = .var ∧ kind = .var { value := f.value, type := f.type } ∨
      cls = .routine ∧ kind = .routine (Routine.apply {} f) := by
  cases cls <;> simp only [Kind.ofFields] at h <;> split at h <;> simp at h <;> subst h <;> simp

theorem declared_eq_resolve (hreach : reach ≠ .innermost) (name : String) :
    t.declared reach name = t.resolve name none none := by
  cases reach with
  | innermost => exact absurd rfl hreach
  | anywhere | outermost => rfl

theorem extends_declare (hname : Dotless name) (hf : f.usage = none)
    (hcls : cls = .var ∨ f = {} ∧
      (t.scopes ≠ [] → scopePath (t.scopes.drop (t.frame reach)) = ""))
    (hd : declare reach name cls line f t = .ok id t') : t.Extends [] t' := by
  rcases declare_eq_ok hd with ⟨hid, hc, rfl⟩ | ⟨hid, hscopes, -, kind, hkind, rfl⟩
  · refine extends_modifySymbol (Symbol.grows_merge line hf _) ?_ (Symbol.usage_merge line hf _)
    refine Symbol.routine?_merge line (hcls.imp (fun hvar => hc.trans hvar) And.left)
  · obtain ⟨names, hframe, hget⟩ := exists_frame hid hscopes
    rw [hf, Option.getD_none]
    refine extends_insertAt hframe hname hget fun r hr => ?_
    obtain ⟨-, rfl⟩ | ⟨rfl, rfl⟩ := ofFields_eq_ok hkind
    · cases hr
    · obtain ⟨rfl, hpath⟩ := hcls.resolve_left (by simp)
      exact ⟨(Kind.routine.inj hr).symm, hpath hscopes⟩

theorem Live.path_outermost (h : t.Live) (hscopes : t.scopes ≠ []) :
    scopePath (t.scopes.drop (t.frame .outermost)) = "" := by
  have hlt : t.scopes.length - 1 < t.scopes.length := by
    have := List.length_pos_iff.2 hscopes
    omega
  refine h.outer _ (Option.mem_def.2 ?_)
  rw [List.getLast?_eq_getElem?, List.getElem?_map, List.length_map, length_frames, getElem?_frames]
  simp [frame, hlt]

theorem Live.extends_declare (h : t.Live) (hname : Dotless name)
    (hd : declare .outermost name .routine line {} t = .ok id t') : t.Extends [] t' :=
  Table.extends_declare hname rfl (.inr ⟨rfl, h.path_outermost⟩) hd

theorem cls_merge (s : Symbol) : (s.merge line f).2.cls = s.cls := by
  obtain ⟨name, line', usage, scope, fullName, v | r⟩ := s <;> unfold Symbol.merge <;>
    dsimp only <;> split <;> rfl

theorem name_merge (s : Symbol) : (s.merge line f).2.name = s.name := by
  unfold Symbol.merge
  split <;> split <;> rfl

theorem line_merge {s : Symbol} (h : line.isSome) : (s.merge line f).2.line.isSome := by
  have hline : (s.line <|> line).isSome := by cases s.line <;> simp [h]
  unfold Symbol.merge
  split <;> split <;> exact hline

theorem cls_ofFields {kind : Kind} {usage : Nat} {path fullName : String}
    (h : Kind.ofFields name f cls = .ok kind) :
    (⟨name, line, usage, path, fullName, kind⟩ : Symbol).cls = cls := by
  obtain ⟨rfl, rfl⟩ | ⟨rfl, rfl⟩ := ofFields_eq_ok h <;> rfl

theorem symbol_declare (hd : declare reach name cls line f t = .ok id t') (j : SymbolId) :
    t'.symbol j = t.symbol j ∨ (t.symbol j).cls = cls ∧
      t'.symbol j = ((t.symbol j).merge line f).2 ∨
      ¬ t.Has j ∧ ∃ path fullName kind, Kind.ofFields name f cls = .ok kind ∧
        t'.symbol j = ⟨name, line, f.usage.getD 0, path, fullName, kind⟩ := by
  rcases declare_eq_ok hd with ⟨-, hcls, rfl⟩ | ⟨-, -, rfl, kind, hkind, rfl⟩
  · exact symbol_modifySymbol_of
      (r := fun s s' => s' = s ∨ s.cls = cls ∧ s' = (s.merge line f).2 ∨ _)
      (fun _ => .inl rfl) (.inr (.inl ⟨hcls, rfl⟩)) j
  · rw [symbol_insertAt]
    split
    · rename_i hj
      exact .inr (.inr ⟨Nat.not_lt.2 (Nat.le_of_eq hj.symm), _, _, kind, hkind, rfl⟩)
    · exact .inl rfl

theorem routine?_declare (hd : declare reach name .var line f t = .ok id t') (j : SymbolId) :
    (t'.symbol j).routine? = (t.symbol j).routine? := by
  rcases symbol_declare hd j with hj | ⟨hcls, hj⟩ | ⟨hnew, _, _, kind, hkind, hj⟩ <;>
    rw [hj]
  · exact Symbol.routine?_merge line (.inl hcls)
  · obtain ⟨-, rfl⟩ | ⟨⟨⟩, -⟩ := ofFields_eq_ok hkind
    rw [symbol_of_not_has hnew]
    rfl

theorem Sound.declare_has (h : t.Sound) (hd : declare reach name cls line f t = .ok id t') :
    t'.Has id ∧ (t'.symbol id).cls = cls ∧ (t'.symbol id).name.toUpper = name.toUpper ∧
      (line.isSome → (t'.symbol id).line.isSome) := by
  rcases declare_eq_ok hd with ⟨hid, hc, rfl⟩ | ⟨hid, hscopes, rfl, kind, hkind, rfl⟩
  · obtain ⟨hhas, hname⟩ := h.declared hid
    refine ⟨by simpa [Has, modifySymbol] using hhas, ?_⟩
    rw [symbol_modifySymbol hhas, if_pos rfl, cls_merge, name_merge]
    exact ⟨hc, hname, line_merge⟩
  · refine ⟨has_insertAt.2 (.inr rfl), ?_⟩
    rw [symbol_insertAt, if_pos rfl]
    exact ⟨cls_ofFields hkind, rfl, id⟩

theorem Sound.isVar_declare (h : t.Sound) (hd : declare reach name .var line f t = .ok id t') :
    t'.IsVar id :=
  ⟨(h.declare_has hd).1, (h.declare_has hd).2.1⟩

theorem findSome?_modify {l : List α} {k : Nat} {x : α} {f : α → α}
    {g : α → Option β} {b : β} (hnone : ∀ y ∈ l, g y = none) (hk : l[k]? = some x)
    (hb : g (f x) = some b) : (l.modify k f).findSome? g = some b := by
  induction l generalizing k with
  | nil => simp at hk
  | cons y l ih =>
    rw [List.forall_mem_cons] at hnone
    cases k with
    | zero =>
      obtain rfl : y = x := by simpa using hk
      simp [hb]
    | succ k => simp [hnone.1, ih hnone.2 (by simpa using hk)]

theorem findSome?_modify_eq {l : List α} {k : Nat} {f : α → α} {g g' : α → Option β}
    (hg : ∀ x ∈ l, g' x = g x) (hk : ∀ x ∈ l[k]?, g' (f x) = g x) :
    (l.modify k f).findSome? g' = l.findSome? g := by
  induction l generalizing k with
  | nil => simp
  | cons y l ih =>
    rw [List.forall_mem_cons] at hg
    cases k with
    | zero =>
      have htail : l.findSome? g' = l.findSome? g := by
        rw [← List.head?_filterMap, ← List.head?_filterMap, List.filterMap_congr hg.2]
      rw [List.modify_zero_cons, List.findSome?_cons, List.findSome?_cons, hk y rfl, htail]
    | succ k =>
      rw [List.modify_succ_cons, List.findSome?_cons, List.findSome?_cons, hg.1,
        ih hg.2 (by simpa using hk)]

theorem resolve_none_declare (hreach : reach ≠ .innermost)
    (hd : declare reach name cls line f t = .ok id t') : t'.resolve name none none = some id := by
  have hdeclared : t.declared reach name = t.resolve name none none :=
    declared_eq_resolve hreach name
  rcases declare_eq_ok hd with ⟨hid, -, rfl⟩ | ⟨hid, hscopes, rfl, kind, -, rfl⟩
  · rw [Table.resolve_none]
    exact (Table.resolve_none t name).symm.trans (hdeclared.symm.trans hid)
  · obtain ⟨names, hframe, hget⟩ := exists_frame hid hscopes
    rw [hdeclared, Table.resolve_none, List.findSome?_eq_none_iff] at hid
    rw [Table.resolve_none, frames_insertAt]
    exact findSome?_modify hid hframe (NameMap.get?_insert names name _)

theorem Sound.resolve_declare (h : t.Sound) (hd : declare .anywhere name cls line f t = .ok id t') :
    t'.resolve name none (some cls) = some id := by
  rw [← (h.declare_has hd).2.1]
  exact resolve_some_of_resolve_none (resolve_none_declare (by simp) hd)

end Declare

def useAll (t : Table) (ids : List SymbolId) : Table := ids.foldl (·.modifySymbol · Symbol.use) t

theorem useAll_append (t : Table) (ids ids' : List SymbolId) :
    t.useAll (ids ++ ids') = (t.useAll ids).useAll ids' :=
  List.foldl_append

section UseAll

variable {ids : List SymbolId} {j : SymbolId}

section

variable (hids : ∀ id ∈ ids, t.Has id)

include hids

theorem edits_useAll : t.Edits (t.useAll ids) := by
  induction ids generalizing t with
  | nil => exact .refl t
  | cons id ids ih =>
    simp only [List.mem_cons, forall_eq_or_imp] at hids
    have he := edits_modifySymbol (t := t) (Symbol.grows_use (t.symbol id))
    exact he.trans (ih fun id hid => he.has.2 (hids.2 id hid))

theorem symbol_useAll (j : SymbolId) :
    (t.useAll ids).symbol j = { t.symbol j with usage := (t.symbol j).usage + ids.count j } := by
  induction ids generalizing t with
  | nil => rfl
  | cons id ids ih =>
    simp only [List.mem_cons, forall_eq_or_imp] at hids
    have he := edits_modifySymbol (t := t) (Symbol.grows_use (t.symbol id))
    change ((t.modifySymbol id Symbol.use).useAll ids).symbol j = _
    rw [ih fun id hid => he.has.2 (hids.2 id hid), symbol_modifySymbol hids.1]
    by_cases hj : j = id
    · subst hj
      simp only [if_pos, Symbol.use, List.count_cons_self, Symbol.mk.injEq, true_and, and_true]
      omega
    · simp [hj, List.count_cons_of_ne (Ne.symm hj)]

theorem routine?_useAll (j : SymbolId) :
    ((t.useAll ids).symbol j).routine? = (t.symbol j).routine? := by
  simp [symbol_useAll hids, Symbol.routine?]

theorem dependencies_useAll (j : SymbolId) : (t.useAll ids).dependencies j = t.dependencies j := by
  simp [dependencies, routine?_useAll hids]

theorem alias?_useAll (j : SymbolId) : (t.useAll ids).alias? j = t.alias? j := by
  simp [alias?, routine?_useAll hids]

theorem isUsed_useAll : (t.useAll ids).IsUsed j ↔ t.IsUsed j ∨ j ∈ ids := by
  rw [IsUsed, symbol_useAll hids, ← List.count_pos_iff]
  simp only [IsUsed]
  omega

theorem isVar_useAll : (t.useAll ids).IsVar j ↔ t.IsVar j := by
  have he := edits_useAll hids
  rw [IsVar, IsVar, he.has, (he.symbol j).cls]

theorem extends_useAll (hdeps : ∀ id ∈ ids, t.dependencies id ⊆ ids)
    (hcause : ∀ id ∈ ids, t.alias? id = none → ∃ m ∈ ms, id = m ∨
      id ∈ t.dependencies m) :
    t.Extends ms (t.useAll ids) := by
  have he := edits_useAll hids
  refine ⟨fun h => h.edits he, by rw [he.scopes],
    fun h => ⟨_, he.scopes ▸ h, rfl, List.prefix_rfl⟩, he.byClass,
    he.has.2, fun _ => he.symbol _, fun _ => routine?_useAll hids _, fun {j} hj => ?_,
    fun {j} hj => ?_⟩
  · rw [symbol_of_not_has (mt he.has.1 hj)]
    simp [blankSymbol, Symbol.routine?]
  · refine ((isUsed_useAll hids).1 hj).imp_right fun hj => ?_
    simp only [dependencies_useAll hids, alias?_useAll hids, isUsed_useAll hids]
    exact ⟨fun m hm => .inr (hdeps j hj hm), hcause j hj⟩

end

end UseAll

theorem countUsesOf_var (hid : t.IsVar id) (n : Nat) :
    countUsesOf (n + 1) id t = .ok ⟨⟩ (t.useAll [id]) := by
  have hroutine : ((t.modifySymbol id Symbol.use).symbol id).routine? = none := by
    rw [← hid.routine?, symbol_modifySymbol hid.1, if_pos rfl]
    rfl
  simp only [countUsesOf, bind_eq_ok, modify_eq_ok, get_eq_ok]
  refine ⟨⟨⟩, _, rfl, _, _, ⟨rfl, rfl⟩, ?_⟩
  simp only [hroutine, Option.bind_none, dependencies]
  rfl

theorem forM_countUsesOf {ids : List SymbolId} (hids : ∀ id ∈ ids, t.IsVar id) (n : Nat) :
    ids.forM (countUsesOf (n + 1)) t = .ok ⟨⟩ (t.useAll ids) := by
  induction ids generalizing t with
  | nil => rfl
  | cons id ids ih =>
    simp only [List.mem_cons, forall_eq_or_imp] at hids
    have hone : ∀ j ∈ [id], t.Has j := by simpa using hids.1.1
    refine (bind_of_ok (countUsesOf_var hids.1 n) fun _ => ids.forM (countUsesOf (n + 1))).trans ?_
    exact ih fun j hj => (isVar_useAll hone).2 (hids.2 j hj)

theorem countUse_eq_ok (hvars : ∀ {j m}, m ∈ t.dependencies j → t.IsVar m)
    (htarget : ∀ {target callee}, t.alias? id = some target →
      t.resolve target none (some .routine) = some callee →
      t.Has callee) (hid : t.Has id) (h : countUse id t = .ok ⟨⟩ t') :
    t.alias? id = none ∧ t' = t.useAll (id :: t.dependencies id) ∨
      ∃ target callee, t.alias? id = some target ∧
        t.resolve target none (some .routine) = some callee ∧
        t' = t.useAll (id :: callee :: t.dependencies callee) := by
  obtain ⟨n, hn⟩ : ∃ n, t.symbols.size = n + 1 :=
    ⟨_, (Nat.succ_pred_eq_of_pos (Nat.zero_lt_of_lt hid)).symm⟩
  have hone : ∀ j ∈ [id], t.Has j := by simpa using hid
  simp only [countUse, get_bind] at h
  simp only [countUsesOf, bind_eq_ok, modify_eq_ok, get_eq_ok] at h
  obtain ⟨_, t₁, rfl, _, _, ⟨rfl, rfl⟩, h⟩ := h
  have huse : t.modifySymbol id Symbol.use = t.useAll [id] := rfl
  have halias : ((t.useAll [id]).symbol id).routine?.bind (·.aliasOf) = t.alias? id :=
    alias?_useAll hone id
  simp only [huse, halias, dependencies_useAll hone, (edits_useAll hone).resolve] at h
  cases hname : t.alias? id with
  | none =>
    have hforM : (t.dependencies id).forM (countUsesOf (n + 1)) (t.useAll [id]) = .ok ⟨⟩ _ :=
      forM_countUsesOf (fun j hj => (isVar_useAll hone).2 (hvars hj)) n
    simp only [hname, hn, hforM, EStateM.Result.ok.injEq, true_and] at h
    exact .inl ⟨rfl, h.symm⟩
  | some target =>
    cases hcallee : t.resolve target none (some .routine) with
    | none => simp [hname, hcallee] at h
    | some callee =>
      have htwo : ∀ j ∈ [id, callee], t.Has j := by simp [hid, htarget hname hcallee]
      have hforM : (t.dependencies callee).forM (countUsesOf (n + 1)) (t.useAll [id, callee]) =
          .ok ⟨⟩ _ :=
        forM_countUsesOf (fun j hj => (isVar_useAll htwo).2 (hvars hj)) n
      simp only [hname, hcallee, hn, bind_eq_ok, modify_eq_ok] at h
      obtain ⟨_, _, rfl, h⟩ := h
      cases h.symm.trans hforM
      exact .inr ⟨target, callee, rfl, hcallee, rfl⟩

theorem Live.countUse_eq_ok (ht : t.Live) (hid : t.Has id) (h : countUse id t = .ok ⟨⟩ t') :
    t.alias? id = none ∧ t' = t.useAll (id :: t.dependencies id) ∨
      ∃ target callee, t.alias? id = some target ∧
        t.resolve target none (some .routine) = some callee ∧
        t' = t.useAll (id :: callee :: t.dependencies callee) :=
  Table.countUse_eq_ok ht.isVar
    (fun halias hcallee => (ht.sound.resolve_some (ht.aliases halias).1 hcallee).1) hid h

theorem countUsage_eq_ok {cls : Option SymbolClass} (h : countUsage name cls t = .ok id t') :
    t.resolve name none cls = some id ∧ countUse id t = .ok ⟨⟩ t' := by
  simp only [countUsage, get_bind] at h
  cases hid : t.resolve name none cls with
  | none => simp [hid] at h
  | some j =>
    simp only [hid, bind_eq_ok, pure_eq_ok] at h
    obtain ⟨_, _, h, rfl, rfl⟩ := h
    exact ⟨rfl, h⟩

theorem IsVar.alias? (h : t.IsVar id) : t.alias? id = none := by
  simp [Table.alias?, h.routine?]

theorem IsVar.countUse (hid : t.IsVar id) : countUse id t = .ok ⟨⟩ (t.useAll [id]) := by
  simp only [Table.countUse, bind_eq_ok, get_eq_ok]
  exact ⟨t, t, ⟨rfl, rfl⟩, countUsesOf_var hid _⟩

theorem IsVar.useAll (hid : t.IsVar id) (hc : Table.countUse id t = .ok ⟨⟩ t') :
    t' = t.useAll [id] := by
  cases hc.symm.trans hid.countUse
  rfl

theorem extends_use_var (hid : t.IsVar id) : t.Extends [id] (t.useAll [id]) :=
  extends_useAll (by simpa using hid.1) (by simp [hid.dependencies]) (by simp)

def IsRoutine (t : Table) (name : String) (id : SymbolId) : Prop :=
  t.Has id ∧ (t.symbol id).cls = .routine ∧ (t.symbol id).name.toUpper = name.toUpper

def Denotes (t : Table) (name : String) (callee : SymbolId) : Prop :=
  ∃ id, t.IsRoutine name id ∧
    (t.alias? id = none ∧ callee = id ∨ ∃ target, t.alias? id = some target ∧
      t.IsRoutine target callee)

theorem Live.isRoutine_unique (h : t.Live) (ha : t.IsRoutine name a)
    (hb : t.IsRoutine name b) : a = b := by
  have hfull {c : SymbolId} (hc : t.IsRoutine name c) :
      (t.symbol c).fullName.toUpper = name.toUpper := by
    obtain ⟨r, hr⟩ := Symbol.exists_routine hc.2.1
    rw [(h.sound.named hc.1).1, h.top r hr, qualify, if_pos rfl, hc.2.2]
  exact h.sound.unique ha.1 hb.1 ((hfull ha).trans (hfull hb).symm)

theorem Live.denotes_unique (h : t.Live) (ha : t.Denotes name a)
    (hb : t.Denotes name b) : a = b := by
  obtain ⟨i, hi, ha⟩ := ha
  obtain ⟨j, hj, hb⟩ := hb
  obtain rfl := h.isRoutine_unique hi hj
  rcases ha with ⟨hi', rfl⟩ | ⟨target, hi', ha⟩ <;>
    rcases hb with ⟨hj', rfl⟩ | ⟨target', hj', hb⟩
  · rfl
  · simp [hi'] at hj'
  · simp [hi'] at hj'
  · obtain rfl : target = target' := by simpa [hi'] using hj'
    exact h.isRoutine_unique ha hb

theorem Extends.isRoutine (h : t.Extends ms t') (hid : t.IsRoutine name id) :
    t'.IsRoutine name id :=
  ⟨h.has hid.1, (h.grows hid.1).cls.trans hid.2.1, by rw [(h.grows hid.1).name, hid.2.2]⟩

theorem Extends.denotes (h : t.Extends ms t') (hid : t.Denotes name id) : t'.Denotes name id := by
  obtain ⟨j, hj, hid⟩ := hid
  refine ⟨j, h.isRoutine hj, ?_⟩
  rw [h.alias? hj.1]
  exact hid.imp_right fun ⟨target, halias, hid⟩ => ⟨target, halias, h.isRoutine hid⟩

theorem Live.denotes_of_resolve (h : t.Live) (hname : Dotless name)
    (hid : (t.resolve name none (some .routine)).bind t.resolveAlias = some id) :
    t.Denotes name id := by
  obtain ⟨j, hj, hid⟩ := Option.bind_eq_some_iff.1 hid
  have hj' : t.IsRoutine name j := h.sound.resolve_some hname hj
  refine ⟨j, hj', ?_⟩
  obtain ⟨r, hr⟩ := Symbol.exists_routine hj'.2.1
  rw [resolveAlias, followAlias, hr] at hid
  cases halias : r.aliasOf with
  | none =>
    have hjd : j = id := by simpa [halias] using hid
    exact .inl ⟨by simp [alias?, hr, halias], hjd.symm⟩
  | some target =>
    have halias' : t.alias? j = some target := by simp [alias?, hr, halias]
    obtain ⟨hdot, -, -, hchain⟩ := h.aliases halias'
    cases hcallee : t.resolve target none (some .routine) with
    | none => simp [halias, hcallee] at hid
    | some callee =>
      have hcallee' : t.IsRoutine target callee := h.sound.resolve_some hdot hcallee
      obtain ⟨r', hr'⟩ := Symbol.exists_routine hcallee'.2.1
      have hnone : r'.aliasOf = none := by simpa [alias?, hr'] using hchain hcallee'.2.2
      have hid : t.followAlias t.symbols.size callee =
        some id := by simpa [halias, hcallee] using hid
      cases hsize : t.symbols.size with
      | zero => simp [hsize, followAlias] at hid
      | succ n =>
        obtain rfl : callee = id := by simpa [hsize, followAlias, hr', hnone] using hid
        exact .inr ⟨target, halias', hcallee'⟩

theorem Live.useAll_callee (h : t.Live) {callee : SymbolId} (hcallee : t.Has callee)
    (front : List SymbolId) (hfront : ∀ id ∈ front, ∃ target, t.alias? id = some target) :
    t.Extends [callee] (t.useAll (front ++ callee :: t.dependencies callee)) ∧
      (t.useAll (front ++ callee :: t.dependencies callee)).IsUsed callee := by
  have hids : ∀ id ∈ front ++ callee :: t.dependencies callee, t.Has id := by
    simp only [List.mem_append, List.mem_cons]
    rintro id (hid | rfl | hid)
    · obtain ⟨target, halias⟩ := hfront id hid
      exact has_of_alias? halias
    · exact hcallee
    · exact (h.isVar hid).1
  refine ⟨extends_useAll hids ?_ ?_, (isUsed_useAll hids).2 (.inr (by simp))⟩
  · simp only [List.mem_append, List.mem_cons]
    rintro id (hid | rfl | hid)
    · obtain ⟨target, halias⟩ := hfront id hid
      simp [(h.aliases halias).2.2.1]
    · exact fun m hm => by simp [hm]
    · simp [(h.isVar hid).dependencies]
  · simp only [List.mem_append, List.mem_cons]
    rintro id (hid | rfl | hid) halias
    · obtain ⟨target, halias'⟩ := hfront id hid
      simp [halias'] at halias
    · simp
    · simp [hid]

theorem Live.use_callee (h : t.Live) (hname : Dotless name)
    (hc : countUsage name (some .routine) t = .ok id t') :
    ∃ callee, t.Denotes name callee ∧ t.Extends [callee] t' ∧ t'.IsUsed callee := by
  obtain ⟨hid, hc⟩ := countUsage_eq_ok hc
  have hid' : t.IsRoutine name id := h.sound.resolve_some hname hid
  rcases h.countUse_eq_ok hid'.1
    hc with ⟨halias, rfl⟩ | ⟨target, callee, halias, hcallee, rfl⟩
  · exact ⟨id, ⟨id, hid', .inl ⟨halias, rfl⟩⟩, h.useAll_callee hid'.1 [] (by simp)⟩
  · have hcallee' : t.IsRoutine target callee := h.sound.resolve_some (h.aliases halias).1 hcallee
    exact ⟨callee, ⟨id, hid', .inr ⟨target, halias, hcallee'⟩⟩,
      h.useAll_callee hcallee'.1 [id] (by simp [halias])⟩

theorem Live.hooks_of_denotes (h : t.Live) (hid : t.Denotes name id) :
    ∃ r ∈ (t.symbol id).routine?, r.aliasOf = none ∧ r.hooks.before = [] ∧
      (r.hooks.after = [] ∨ r.hooks.after = [storeFirst] ∧ name.toUpper = "TYPEIN") := by
  obtain ⟨j, hj, ⟨halias, rfl⟩ | ⟨target, halias, hid⟩⟩ := hid
  · obtain ⟨r, hr⟩ := Symbol.exists_routine hj.2.1
    rw [← hj.2.2]
    exact ⟨r, hr, by simpa [alias?, hr] using halias, h.hooks r hr⟩
  · obtain ⟨r, hr⟩ := Symbol.exists_routine hid.2.1
    obtain ⟨hbefore, hafter⟩ := h.hooks r hr
    obtain ⟨-, hne, -, hchain⟩ := h.aliases halias
    refine ⟨r, hr, by simpa [alias?, hr] using hchain hid.2.2, hbefore,
      .inl (hafter.resolve_right fun hafter => ?_)⟩
    exact hne (hid.2.2.symm.trans hafter.2)

theorem Live.use_declared (h : t.Live) (hname : Dotless name) {f : Fields} (hf : f.usage = none)
    (hd : declare .anywhere name .var line f t = .ok id t') {j : SymbolId}
    (hc : countUsage name (some .var) t' = .ok j t'') :
    t.Extends [id] t'' ∧ t''.IsVar id ∧ t''.IsUsed id := by
  have he := Table.extends_declare hname hf (.inl rfl) hd
  have hid := h.sound.isVar_declare hd
  obtain ⟨hj, hc⟩ := countUsage_eq_ok hc
  obtain rfl : id = j := by simpa [h.sound.resolve_declare hd] using hj
  obtain rfl := hid.useAll hc
  have hone : ∀ j ∈ [id], t'.Has j := by simpa using hid.1
  exact ⟨he.trans (extends_use_var hid), (isVar_useAll hone).2 hid,
    (isUsed_useAll hone).2 (by simp)⟩

end Table

end TurtleCompiler
