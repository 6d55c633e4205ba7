import TurtleCompiler.Proofs.CodeViews
import TurtleCompiler.Proofs.EntryBlock
import TurtleCompiler.Proofs.Shape

/-!
The blocks of a listing. A routine is written when it is linked for the first time, under whatever
name, unless the machine has it.
-/

namespace TurtleCompiler

def Routine.written (r : Routine) : Routine :=
  { r with flags := { r.flags with generated := true } }

namespace Symbol

@[simp] theorem routine?_markGenerated (s : Symbol) :
    s.markGenerated.routine? = s.routine?.map Routine.written :=
  routine?_modifyRoutine _ s

theorem markGenerated_markGenerated (s : Symbol) :
    s.markGenerated.markGenerated = s.markGenerated := by
  obtain ⟨name, line, usage, scope, fullName, _ | _⟩ := s <;> rfl

end Symbol

namespace Table

variable {t : Table} {id target : SymbolId}

def markAll (t : Table) (ids : List SymbolId) : Table :=
  ids.foldl (·.modifySymbol · Symbol.markGenerated) t

theorem symbol_mark (t : Table) (id j : SymbolId) :
    (t.modifySymbol id Symbol.markGenerated).symbol j =
    if j = id then (t.symbol j).markGenerated else t.symbol j := by
  by_cases hid : t.Has id
  · exact symbol_modifySymbol hid _ j
  · rw [modifySymbol_of_not_has hid]
    split
    · subst_vars
      rw [symbol_of_not_has hid]
      rfl
    · rfl

theorem symbol_markAll (t : Table) (ids : List SymbolId) (j : SymbolId) : (t.markAll ids).symbol j =
    if j ∈ ids then (t.symbol j).markGenerated else t.symbol j := by
  induction ids generalizing t with
  | nil => rfl
  | cons id ids ih =>
    change ((t.modifySymbol id Symbol.markGenerated).markAll ids).symbol j = _
    rw [ih, symbol_mark]
    by_cases hj : j = id <;> by_cases hmem : j ∈ ids <;>
      simp [hj, hmem, Symbol.markGenerated_markGenerated]

section MarkAll

variable (t : Table) (ids : List SymbolId) (id : SymbolId)

@[simp] theorem name_markAll : ((t.markAll ids).symbol id).name = (t.symbol id).name := by
  rw [symbol_markAll]
  split <;> simp [(Symbol.grows_markGenerated _).name]

theorem routine?_markAll : ((t.markAll ids).symbol id).routine? =
    (t.symbol id).routine?.map fun r => if id ∈ ids then r.written else r := by
  rw [symbol_markAll]
  split <;> simp

theorem read_markAll {α : Type} {g : Routine → α} (hg : ∀ r, g r.written = g r) :
    ((t.markAll ids).symbol id).routine?.map g = (t.symbol id).routine?.map g := by
  rw [routine?_markAll, Option.map_map]
  refine congrArg (Option.map · _) (funext fun r => ?_)
  simp only [Function.comp_apply]
  split
  · exact hg r
  · rfl

theorem sameNames_markAll : (t.markAll ids).SameNames t := by
  have hrest : (t.markAll ids).symbols.size = t.symbols.size ∧
      (t.markAll ids).scopes = t.scopes ∧ (t.markAll ids).byClass = t.byClass := by
    induction ids generalizing t with
    | nil => exact ⟨rfl, rfl, rfl⟩
    | cons id ids ih =>
      have hmark := ih (t.modifySymbol id Symbol.markGenerated)
      exact ⟨hmark.1.trans (by simp [modifySymbol]), hmark.2⟩
  exact ⟨hrest.1, by rw [hrest.2.1], hrest.2.2, fun id => read_markAll t ids id fun _ => rfl⟩

theorem sameCode_markAll : (t.markAll ids).SameCode {} t where
  name id := by rw [name_markAll]
  fullName id := by
    rw [symbol_markAll]
    split <;> simp [(Symbol.grows_markGenerated _).fullName]
  usage id := by
    rw [symbol_markAll]
    split <;> simp [Symbol.markGenerated, Symbol.usage_modifyRoutine]
  routine id := read_markAll t ids id fun _ => rfl

end MarkAll

def code? (t : Table) (id : SymbolId) : Option Definition := (t.symbol id).routine?.bind (·.code)

def blockOf? (t : Table) (id : SymbolId) : Option Block := (t.code? id).bind (·.block? t)

theorem code?_markAll (t : Table) (ids : List SymbolId) (id : SymbolId) :
    (t.markAll ids).code? id = t.code? id := by
  have hcode := t.read_markAll ids id (g := (·.code)) fun _ => rfl
  simpa [code?, Option.bind_map, Function.comp_def] using
    congrArg (Option.bind · fun code => code) hcode

theorem blockOf?_markAll (t : Table) (ids : List SymbolId) (id : SymbolId) :
    (t.markAll ids).blockOf? id = t.blockOf? id := by
  have hblock (d : Definition) : d.block? (t.markAll ids) = d.block? t := by
    simpa [Block.view_of_char] using d.block?_sameCode (t.sameCode_markAll ids)
  simp only [blockOf?, code?_markAll, hblock]

theorem linkTarget?_markAll (t : Table) (ids : List SymbolId) (id : SymbolId) :
    (t.markAll ids).linkTarget? id = t.linkTarget? id := (t.sameNames_markAll ids).linkTarget? id

def IsPending (t : Table) (id : SymbolId) : Prop :=
  ∃ r ∈ (t.symbol id).routine?, r.flags.generated = false ∧ r.flags.internal = false

theorem isPending_markAll {ids : List SymbolId} :
    (t.markAll ids).IsPending id ↔ t.IsPending id ∧ id ∉ ids := by
  rw [IsPending, routine?_markAll]
  by_cases hid : id ∈ ids <;> simp [IsPending, hid, Routine.written]

theorem exists_routine_of_followAlias {n : Nat} (h : t.followAlias n id = some target) :
    ∃ r, (t.symbol target).routine? = some r ∧ r.aliasOf = none := by
  induction n generalizing id with
  | zero => simp [followAlias] at h
  | succ n ih =>
    simp only [followAlias, Option.bind_eq_bind, Option.bind_eq_some_iff] at h
    obtain ⟨r, hr, h⟩ := h
    cases halias : r.aliasOf with
    | none =>
      obtain rfl : id = target := by simpa [halias] using h
      exact ⟨r, hr, halias⟩
    | some name =>
      simp only [halias, Option.bind_eq_some_iff] at h
      obtain ⟨j, -, hj⟩ := h
      exact ih hj

theorem alias?_of_followAlias {n : Nat} (h : t.followAlias n id = some target) :
    t.alias? target = none := by
  obtain ⟨r, hr, halias⟩ := exists_routine_of_followAlias h
  simp [alias?, hr, halias]

theorem alias?_of_linkTarget? (h : t.linkTarget? id = some target) : t.alias? target = none := by
  unfold linkTarget? at h
  split at h
  · exact alias?_of_followAlias h
  · rename_i halias
    obtain rfl := Option.some.inj h
    exact Option.not_isSome_iff_eq_none.1 halias

theorem markGenerated_eq (t : Table) (id target : SymbolId) :
    ∃ ids, t.markGenerated id target = t.markAll (target :: ids) ∧
    ∀ j ∈ ids, t.alias? j ≠ none := by
  unfold markGenerated
  split
  · rename_i halias
    exact ⟨[id], rfl, by simpa [alias?, Option.isSome_iff_ne_none] using halias⟩
  · exact ⟨[], rfl, by simp⟩

end Table

section Link

variable {w w' : Workspace}

theorem linkRoutine_cases {id : SymbolId} {b? : Option Block} (h : linkRoutine id w = .ok b? w') :
    ∃ target, w.table.linkTarget? id = some target ∧
      (∃ r ∈ (w.table.symbol target).routine?, r.flags.library ∨ r.code.isSome) ∧
      (¬ w.table.IsPending target ∧ b? = none ∧ w'.table = w.table ∨
        w.table.IsPending target ∧ b? = w.table.blockOf? target ∧
          w'.table = w.table.markGenerated id target) := by
  obtain ⟨target, r, htarget, hr, hdefined, hlinked⟩ := linkRoutine_eq_ok h
  refine ⟨target, htarget, ⟨r, hr, hdefined⟩, ?_⟩
  split at hlinked
  · rename_i hpending
    refine .inr ⟨⟨r, hr, by simpa using hpending⟩, ?_, hlinked.2⟩
    simp [hlinked.1, Table.blockOf?, Table.code?, hr]
  · rename_i hpending
    refine .inl ⟨?_, hlinked⟩
    rintro ⟨r', hr', hgenerated, hinternal⟩
    obtain rfl : r = r' := by simpa [hr] using hr'
    simp [hgenerated, hinternal] at hpending

theorem mapM_linkRoutine_cases {ids : List SymbolId} {bs : List (Option Block)}
    (h : ids.mapM linkRoutine w = .ok bs w') :
    ∃ targets : List SymbolId, targets.Nodup ∧
      bs.filterMap id = targets.filterMap w.table.blockOf? ∧
      (∀ x, x ∈ targets ↔ w.table.IsPending x ∧
        ∃ i ∈ ids, w.table.linkTarget? i = some x) ∧
      ∀ i ∈ ids, ∃ x, w.table.linkTarget? i = some x ∧
        ∃ r ∈ (w.table.symbol x).routine?, r.flags.library ∨ r.code.isSome := by
  induction ids generalizing w bs with
  | nil =>
    simp only [List.mapM_nil, pure_eq_ok] at h
    exact ⟨[], .nil, by simp [← h.1], by simp, by simp⟩
  | cons i ids ih =>
    obtain ⟨b?, w₁, hi, bs, hids, rfl⟩ := mapM_cons_eq_ok.1 h
    obtain ⟨target, htarget, hdefined,
      ⟨hpending, rfl, htable⟩ | ⟨hpending, rfl, htable⟩⟩ := linkRoutine_cases hi
    · obtain ⟨targets, hnodup, hblocks, hmem, hall⟩ := ih hids
      rw [htable] at hblocks hmem hall
      refine ⟨targets, hnodup, hblocks, fun x => ?_, ?_⟩
      · rw [hmem, List.exists_mem_cons_iff, htarget]
        refine and_congr_right fun hx => (or_iff_right ?_).symm
        rintro hx'
        exact hpending (Option.some.inj hx' ▸ hx)
      · rw [List.forall_mem_cons]
        exact ⟨⟨target, htarget, hdefined⟩, hall⟩
    · obtain ⟨marks, hmarks, halias⟩ := w.table.markGenerated_eq i target
      obtain ⟨targets, hnodup, hblocks, hmem, hall⟩ := ih hids
      rw [htable, hmarks] at hblocks hmem hall
      simp only [Table.isPending_markAll, Table.linkTarget?_markAll] at hmem
      refine ⟨target :: targets, List.nodup_cons.2 ⟨?_, hnodup⟩, ?_, fun x => ?_, ?_⟩
      · simp [hmem]
      · have hblock : (w.table.markAll (target :: marks)).blockOf? = w.table.blockOf? :=
          funext (w.table.blockOf?_markAll _)
        rw [List.filterMap_cons, List.filterMap_cons, hblocks, hblock]
        rfl
      · rw [List.mem_cons, hmem, List.exists_mem_cons_iff, htarget]
        constructor
        · rintro (rfl | ⟨⟨hx, -⟩, hids⟩)
          · exact ⟨hpending, .inl rfl⟩
          · exact ⟨hx, .inr hids⟩
        · rintro ⟨hx, htarget' | ⟨j, hj, hjx⟩⟩
          · exact .inl (Option.some.inj htarget').symm
          · refine or_iff_not_imp_left.2 fun hne => ⟨⟨hx, ?_⟩, j, hj, hjx⟩
            rw [List.mem_cons, not_or]
            exact ⟨hne, fun hmark => halias x hmark (Table.alias?_of_linkTarget? hjx)⟩
      · rw [List.forall_mem_cons]
        refine ⟨⟨target, htarget, hdefined⟩, fun j hj => ?_⟩
        obtain ⟨x, hx, r, hr, hdefined⟩ := hall j hj
        rw [Table.linkTarget?_markAll] at hx
        rw [Table.routine?_markAll, Option.mem_def, Option.map_eq_some_iff] at hr
        obtain ⟨r', hr', rfl⟩ := hr
        refine ⟨x, hx, r', hr', ?_⟩
        split at hdefined <;> exact hdefined

end Link

end TurtleCompiler
