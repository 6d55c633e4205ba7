import TurtleCompiler.Link
import TurtleCompiler.Proofs.Parallel

/-!
What is found in a table, and what a use of a symbol uses, depends on its shape only: on the names
in its scopes, and on what its routines are.
-/

namespace TurtleCompiler

def Routine.outline (r : Routine) : Routine :=
  { r with code := r.code.map fun d => ⟨d.symbol, []⟩ }

theorem Routine.outline_eq_iff {r r' : Routine} : r.outline = r'.outline ↔
    r.params = r'.params ∧ r.aliasOf = r'.aliasOf ∧ r.uses = r'.uses ∧ r.flags = r'.flags ∧
      r.type = r'.type ∧ r.hooks = r'.hooks ∧
      r.code.map (·.symbol) = r'.code.map (·.symbol) := by
  cases hcode : r.code <;> cases hcode' : r'.code <;> simp [outline, hcode, hcode']

namespace Table

structure SameNames (t t' : Table) : Prop where
  size : t.symbols.size = t'.symbols.size
  names : t.scopes.map (·.names) = t'.scopes.map (·.names)
  byClass : t.byClass = t'.byClass
  aliasOf : ∀ id, (t.symbol id).routine?.map (·.aliasOf) =
    (t'.symbol id).routine?.map (·.aliasOf)

structure SameShape (t t' : Table) : Prop extends SameNames t t' where
  routine : ∀ id, (t.symbol id).routine?.map Routine.outline =
    (t'.symbol id).routine?.map Routine.outline
  aliasOf :=
    fun id => by simpa [Routine.outline,
      Function.comp_def] using congrArg (Option.map (·.aliasOf)) (routine id)

namespace SameNames

variable {t t' : Table} {name name' : String} (h : t.SameNames t')

include h

theorem cls (id : SymbolId) : (t.symbol id).cls = (t'.symbol id).cls := by
  have hsome : (t.symbol id).routine?.isSome = (t'.symbol id).routine?.isSome := by
    simpa using congrArg Option.isSome (h.aliasOf id)
  have hcls (s : Symbol) : s.cls = if s.routine?.isSome then .routine else .var := by
    obtain ⟨_, _, _, _, _, _ | _⟩ := s <;> rfl
  rw [hcls, hcls, hsome]

theorem alias? (id : SymbolId) :
    (t.symbol id).routine?.bind (·.aliasOf) = (t'.symbol id).routine?.bind (·.aliasOf) := by
  have halias := h.aliasOf id
  cases hr : (t.symbol id).routine? <;> cases hr' : (t'.symbol id).routine? <;> simp_all

section Names

variable (hname : name.toUpper = name'.toUpper)

include hname

theorem resolve (cls : Option SymbolClass) :
    t.resolve name none cls = t'.resolve name' none cls := by
  have hget (m : NameMap) : m.get? name = m.get? name' := by rw [NameMap.get?, NameMap.get?, hname]
  have hfind (scopes : List Scope) (p : SymbolId → Bool) :
      (scopes.findSome? fun s => (s.names.get? name').filter p) =
      (scopes.map (·.names)).findSome? fun names => (names.get? name').filter p := by
    rw [List.findSome?_map]
    rfl
  simp only [Table.resolve, Option.all_none, if_true, hget, h.cls, hfind, h.names,
    lookup, h.byClass]

theorem declared (reach : Reach) : t.declared reach name = t'.declared reach name' := by
  cases reach with
  | anywhere | outermost => exact h.resolve hname none
  | innermost =>
    have hget (m : NameMap) : m.get? name =
      m.get? name' := by rw [NameMap.get?, NameMap.get?, hname]
    have hhead (scopes : List Scope) :
        scopes.head?.bind (·.names.get? name') =
        (scopes.map (·.names)).head?.bind (·.get? name') := by
      cases scopes <;> rfl
    simp only [Table.declared, hget, hhead, h.names]

end Names

theorem followAlias (n : Nat) (id : SymbolId) : t.followAlias n id = t'.followAlias n id := by
  induction n generalizing id with
  | zero => rfl
  | succ n ih =>
    have halias := h.aliasOf id
    simp only [Table.followAlias, h.resolve rfl, ih]
    cases hr : (t.symbol id).routine? <;> cases hr' : (t'.symbol id).routine? <;> simp_all

theorem resolveAlias (id : SymbolId) : t.resolveAlias id = t'.resolveAlias id := by
  rw [Table.resolveAlias, Table.resolveAlias, h.size, h.followAlias]

theorem linkTarget? (id : SymbolId) : t.linkTarget? id = t'.linkTarget? id := by
  simp only [Table.linkTarget?, h.alias?, h.resolveAlias]

end SameNames

namespace SameShape

variable {t t' : Table} (h : t.SameShape t')

include h

theorem read {α : Type} {g : Routine → α} (hg : ∀ r, g r.outline = g r) (id : SymbolId) :
    (t.symbol id).routine?.map g = (t'.symbol id).routine?.map g := by
  simpa [hg, Function.comp_def] using congrArg (Option.map g) (h.routine id)

theorem dependencies (id : SymbolId) : t.dependencies id = t'.dependencies id := by
  have hread := h.read (g := fun r => r.params ++ r.uses) (fun _ => rfl) id
  rw [Table.dependencies, Table.dependencies]
  cases hr : (t.symbol id).routine? <;> cases hr' : (t'.symbol id).routine? <;> simp_all

theorem flags (id : SymbolId) : (t.symbol id).flags = (t'.symbol id).flags := by
  rw [Symbol.flags, Symbol.flags, h.read fun _ => rfl]

end SameShape

section Counting

variable {P : Pairing Table} (hshape : ∀ {t t'}, P.state t t' → t.SameShape t')
  (huse : ∀ {t t'} i, P.state t t' →
    P.state (t.modifySymbol i Symbol.use) (t'.modifySymbol i Symbol.use))

include hshape huse

theorem parallel_countUsesOf (herror : ∀ e, P.error e e) (n : Nat) (i : SymbolId) :
    Parallel P Eq (countUsesOf n i) (countUsesOf n i) := by
  induction n generalizing i with
  | zero => exact .of_pure rfl
  | succ n ih =>
    refine (Parallel.of_modify (huse i)).bind_eq fun _ => Parallel.of_get.bind fun {t t'} h => ?_
    have hsame := hshape h
    rw [hsame.alias?]
    split
    · rw [hsame.dependencies]
      exact .forM fun j _ => ih j
    · rw [hsame.resolve rfl]
      split
      · exact .of_throw (herror _)
      · rw [hsame.dependencies]
        exact (Parallel.of_modify (huse _)).bind_eq fun _ => .forM fun j _ => ih j

theorem parallel_countUse (herror : ∀ e, P.error e e) (i : SymbolId) :
    Parallel P Eq (countUse i) (countUse i) := by
  refine Parallel.of_get.bind fun {t t'} h => ?_
  rw [(hshape h).size]
  exact parallel_countUsesOf hshape huse herror _ i

theorem parallel_countUsage {name name' : String} (hname : name.toUpper = name'.toUpper)
    (herror : ∀ e, P.error e e)
    (hunknown : P.error (.defect (.unknownUsage name)) (.defect (.unknownUsage name')))
    (cls : Option SymbolClass) : Parallel P Eq (countUsage name cls) (countUsage name' cls) := by
  refine Parallel.of_get.bind fun {t t'} h => ?_
  rw [(hshape h).resolve hname]
  split
  · exact .of_throw hunknown
  · exact (parallel_countUse hshape huse herror _).bind_eq fun _ => .of_pure rfl

end Counting

end Table

end TurtleCompiler
