import TurtleCompiler.Proofs.Reachable
import Mathlib.Order.Defs.Unbundled

/-!
What stays as it is, whatever is done to a table and whether it succeeds or fails.
-/

namespace TurtleCompiler

def stateAfter (x : EStateM ε σ α) (s : σ) : σ :=
  match x s with
  | .ok _ s' => s'
  | .error _ s' => s'

def Advances (r : σ → σ → Prop) (x : EStateM ε σ α) (s : σ) : Prop := r s (stateAfter x s)

namespace Advances

variable {ε ε' σ α β : Type} {r : σ → σ → Prop} [IsPreorder σ r] {x : EStateM ε σ α}
  {s : σ} {f : α → EStateM ε σ β}

omit [IsPreorder σ r] in
theorem of_ok (h : Advances r x s) {a : α} {s' : σ} (hx : x s = .ok a s') : r s s' := by
  unfold Advances stateAfter at h
  rwa [hx] at h

theorem of_pure {a : α} : Advances r (pure a : EStateM ε σ α) s := refl_of r s

theorem of_throw {e : ε} : Advances r (throw e : EStateM ε σ α) s := refl_of r s

theorem of_get : Advances r (get : EStateM ε σ σ) s := refl_of r s

omit [IsPreorder σ r] in
theorem of_modify {f : σ → σ} (h : r s (f s)) :
    Advances r (modify f : EStateM ε σ PUnit) s := h

theorem bind (hx : Advances r x s) (hf : ∀ a s', x s = .ok a s' → Advances r (f a) s') :
    Advances r (x >>= f) s := by
  unfold Advances stateAfter at *
  simp only [Bind.bind, EStateM.bind]
  cases h : x s with
  | ok a s' =>
    rw [h] at hx
    exact trans_of r hx (hf a s' h)
  | error e s' => simpa [h] using hx

theorem throw_bind {e : ε} : Advances r ((throw e : EStateM ε σ α) >>= f) s :=
  of_throw.bind fun _ _ h => absurd h throw_ne_ok

omit [IsPreorder σ r] in
theorem map {f : α → β} (hx : Advances r x s) : Advances r (f <$> x) s := by
  unfold Advances stateAfter at *
  simp only [Functor.map, EStateM.map]
  cases h : x s <;> simpa [h] using hx

omit [IsPreorder σ r] in
theorem discard (hx : Advances r x s) : Advances r (Functor.discard x) s := hx.map

omit [IsPreorder σ r] in
theorem adaptExcept {g : ε → ε'} (hx : Advances r x s) :
    Advances r (EStateM.adaptExcept g x) s := by
  unfold Advances stateAfter at *
  simp only [EStateM.adaptExcept]
  cases h : x s <;> simpa [h] using hx

theorem mapM (h : ∀ a s, Advances r (f a) s) (as : List α) : Advances r (as.mapM f) s := by
  induction as generalizing s with
  | nil => exact of_pure
  | cons a as ih =>
    rw [List.mapM_cons]
    exact (h a s).bind fun _ _ _ => ih.bind fun _ _ _ => of_pure

theorem forM {f : α → EStateM ε σ PUnit} (h : ∀ a s, Advances r (f a) s) (as : List α) :
    Advances r (as.forM f) s := by
  induction as generalizing s with
  | nil => exact of_pure
  | cons a as ih => exact (h a s).bind fun _ _ _ => ih

end Advances

structure Flags.Within (a b : Flags) : Prop where
  library : a.library → b.library
  internal : a.internal → b.internal
  generated : a.generated → b.generated
  graphics : a.graphics → b.graphics
  reverseArgs : a.reverseArgs → b.reverseArgs

theorem Flags.Within.refl (a : Flags) : a.Within a := ⟨id, id, id, id, id⟩

theorem Flags.Within.trans {a b c : Flags} (h : a.Within b) (h' : b.Within c) : a.Within c :=
  ⟨h'.library ∘ h.library, h'.internal ∘ h.internal, h'.generated ∘ h.generated,
    h'.graphics ∘ h.graphics, h'.reverseArgs ∘ h.reverseArgs⟩

theorem Flags.within_union (a b : Flags) : a.Within (a.union b) := by
  constructor <;> simp +contextual [Flags.union]

namespace Symbol

variable {s s' s'' : Symbol}

def value? (s : Symbol) : Option Value := s.var?.bind (·.value)

structure Stands (s s' : Symbol) : Prop where
  name : s'.name = s.name
  cls : s'.cls = s.cls
  scope : s'.scope = s.scope
  fullName : s'.fullName = s.fullName
  line : ∀ line ∈ s.line, s'.line = some line
  value : s.line.isSome → ∀ v ∈ s.value?, s'.value? = some v
  flags : s.flags.Within s'.flags

structure Lasts (s s' : Symbol) : Prop extends s.Stands s' where
  recorded : ∀ v ∈ s.value?, s'.value? = some v
  value := fun _ => recorded

instance : IsPreorder Symbol Stands where
  refl _ := ⟨rfl, rfl, rfl, rfl, fun _ h => h, fun _ _ h => h, .refl _⟩
  trans _ _ _ h h' := {
    name := h'.name.trans h.name
    cls := h'.cls.trans h.cls
    scope := h'.scope.trans h.scope
    fullName := h'.fullName.trans h.fullName
    line := fun line hline => h'.line line (h.line line hline)
    value := fun hline v hv => by
      obtain ⟨line, hline'⟩ := Option.isSome_iff_exists.1 hline
      exact h'.value (by simp [h.line line hline']) v (h.value hline v hv)
    flags := h.flags.trans h'.flags }

instance : IsPreorder Symbol Lasts where
  refl s := { toStands := refl_of Stands s, recorded := fun _ h => h }
  trans _ _ _ h h' := {
    toStands := trans_of Stands h.toStands h'.toStands
    recorded := fun v hv => h'.recorded v (h.recorded v hv) }

theorem lasts_use (s : Symbol) : s.Lasts s.use :=
  { name := rfl, cls := rfl, scope := rfl, fullName := rfl, line := fun _ h => h,
    recorded := fun _ h => h, flags := .refl _ }

theorem line_declareAgain (line : Option Nat) (f : Fields) :
    ∀ l ∈ s.line, (s.declareAgain line f).line = some l := by
  intro l hl
  simp [declareAgain, Option.mem_def.1 hl]

theorem stands_merge (line : Option Nat) (f : Fields) (s : Symbol) :
    s.Stands (s.merge line f).2 := by
  have hline := s.line_declareAgain line f
  obtain ⟨name, line', usage, scope, fullName, v | r⟩ := s
  · simp only [merge]
    split
    · exact ⟨rfl, rfl, rfl, rfl, hline, fun _ _ h => h, .refl _⟩
    · refine ⟨rfl, rfl, rfl, rfl, hline, fun hl w hw => ?_, .refl _⟩
      have hw' : v.value = some w := hw
      simp_all [value?, var?, updateVariable]
  · simp only [merge]
    split
    · exact ⟨rfl, rfl, rfl, rfl, hline, fun _ _ h => h, .refl _⟩
    · exact ⟨rfl, rfl, rfl, rfl, hline, fun _ _ h => h, Flags.within_union _ _⟩

theorem lasts_merge (line : Option Nat) {f : Fields} (hf : f.value = none) (s : Symbol) :
    s.Lasts (s.merge line f).2 := by
  refine { toStands := s.stands_merge line f, recorded := fun w hw => ?_ }
  obtain ⟨name, line', usage, scope, fullName, v | r⟩ := s
  · have hw' : v.value = some w := hw
    simp only [merge]
    split
    · exact hw
    · simp [value?, var?, updateVariable, hf, hw']
  · simp [value?, var?] at hw

theorem lasts_setValue (v : Value) (h : s.value? = none) : s.Lasts (s.setValue v) := by
  obtain ⟨name, line, usage, scope, fullName, x | r⟩ := s
  · exact { name := rfl, cls := rfl, scope := rfl, fullName := rfl, line := fun _ h => h
            flags := .refl _, recorded := fun w hw => by simp [h] at hw }
  · exact refl_of Lasts _

theorem lasts_setCode (d : Definition) (s : Symbol) : s.Lasts (s.setCode d) := by
  obtain ⟨name, line, usage, scope, fullName, x | r⟩ := s
  · exact refl_of Lasts _
  · exact { name := rfl, cls := rfl, scope := rfl, fullName := rfl, line := fun _ h => h
            recorded := fun _ h => h, flags := .refl _ }

end Symbol

namespace Table

variable {t t' : Table} {r : Symbol → Symbol → Prop} {id : SymbolId}

def Retains (r : Symbol → Symbol → Prop) (t t' : Table) : Prop :=
  ∀ id, t.Has id → t'.Has id ∧ r (t.symbol id) (t'.symbol id)

section Retains

variable [IsPreorder Symbol r] {line : Option Nat}

instance : IsPreorder Table (Retains r) where
  refl _ _ hid := ⟨hid, refl_of r _⟩
  trans _ _ _ h h' id hid :=
    ⟨(h' id (h id hid).1).1, trans_of r (h id hid).2 (h' id (h id hid).1).2⟩

theorem retains_of_symbols (h : t'.symbols = t.symbols) : Retains r t t' := by
  intro id hid
  rw [Has, h, symbol_eq_of_symbols h]
  exact ⟨hid, refl_of r _⟩

theorem retains_modifySymbol {f : Symbol → Symbol} (h : r (t.symbol id) (f (t.symbol id))) :
    Retains r t (t.modifySymbol id f) := by
  intro j hj
  exact ⟨by simpa [Has, modifySymbol] using hj, symbol_modifySymbol_of (refl_of r) h j⟩

theorem retains_push (t : Table) (s : Symbol) (scopes : List Scope) :
    Retains r t { t with symbols := t.symbols.push s, scopes } := by
  intro id hid
  refine ⟨Nat.lt_trans hid (by simp), ?_⟩
  rw [symbol_push, if_neg (Nat.ne_of_lt hid)]
  exact refl_of r _

theorem advances_insertNew (reach : Reach) (name : String) (cls : SymbolClass) (line : Option Nat)
    (f : Fields) : Advances (Retains r) (insertNew reach name cls line f) t := by
  refine Advances.of_get.bind fun t₁ _ h => ?_
  obtain ⟨rfl, rfl⟩ := get_eq_ok.1 h
  dsimp only
  split
  · exact .of_throw
  · exact Advances.bind (retains_push t _ _) fun _ _ _ => .of_pure

theorem advances_updateExisting {f : Fields} (h : ∀ s : Symbol, r s (s.merge line f).2)
    (id : SymbolId) (name : String) (cls : SymbolClass) :
    Advances (Retains r) (updateExisting id name cls line f) t := by
  refine Advances.of_get.bind fun t₁ _ ht => ?_
  obtain ⟨rfl, rfl⟩ := get_eq_ok.1 ht
  dsimp only
  split
  · exact .throw_bind
  · refine Advances.bind (.of_modify (retains_modifySymbol (h _))) fun _ _ _ => ?_
    split
    · exact .of_pure
    · exact .of_throw

theorem advances_declare {f : Fields} (h : ∀ s : Symbol, r s (s.merge line f).2) (reach : Reach)
    (name : String) (cls : SymbolClass) :
    Advances (Retains r) (declare reach name cls line f) t := by
  refine Advances.of_get.bind fun t₁ _ ht => ?_
  obtain ⟨rfl, rfl⟩ := get_eq_ok.1 ht
  dsimp only
  split
  · exact .throw_bind
  · split
    · exact advances_updateExisting h _ name cls
    · exact advances_insertNew reach name cls line f

theorem advances_pop : Advances (Retains r) pop t := by
  refine Advances.of_get.bind fun t₁ _ h => ?_
  obtain ⟨rfl, rfl⟩ := get_eq_ok.1 h
  split
  · exact .of_throw
  · exact Advances.bind (.of_modify (retains_of_symbols (symbols_foldl_close _ _).1)) fun _ _ _ =>
      .of_pure

end Retains

theorem retains_use (t : Table) (id : SymbolId) :
    Retains Symbol.Lasts t (t.modifySymbol id Symbol.use) :=
  retains_modifySymbol (Symbol.lasts_use _)

section Uses

variable {R : Table → Table → Prop} [IsPreorder Table R]
  (h : ∀ t id, R t (t.modifySymbol id Symbol.use))

include h

theorem advances_countUsesOf (n : Nat) (id : SymbolId) : Advances R (countUsesOf n id) t := by
  induction n generalizing t id with
  | zero => exact .of_pure
  | succ n ih =>
    refine Advances.bind (.of_modify (h _ _)) fun _ _ _ => Advances.of_get.bind fun _ _ _ => ?_
    split
    · exact .forM (fun id _ => ih id) _
    · split
      · exact .of_throw
      · exact Advances.bind (.of_modify (h _ _)) fun _ _ _ => .forM (fun id _ => ih id) _

theorem advances_countUse (id : SymbolId) : Advances R (countUse id) t :=
  Advances.of_get.bind fun _ _ _ => advances_countUsesOf h _ id

theorem advances_countUsage (name : String) (cls : Option SymbolClass) :
    Advances R (countUsage name cls) t := by
  refine Advances.of_get.bind fun _ _ _ => ?_
  split
  · exact .of_throw
  · exact (advances_countUse h _).bind fun _ _ _ => .of_pure

end Uses

inductive Operation where
  | push (name : String)
  | pop
  | declare (reach : Reach) (name : String) (cls : SymbolClass) (line : Option Nat) (f : Fields)
  | countUsage (name : String) (cls : Option SymbolClass)

def Operation.perform : Operation → TableM Unit
  | .push name => modify (·.push name)
  | .pop => discard Table.pop
  | .declare reach name cls line f => discard (Table.declare reach name cls line f)
  | .countUsage name cls => discard (Table.countUsage name cls)

def performAll (t : Table) (ops : List Operation) : Table :=
  ops.foldl (fun t op => stateAfter op.perform t) t

theorem Operation.advances_perform (op : Operation) :
    Advances (Retains Symbol.Stands) op.perform t := by
  cases op with
  | push name => exact .of_modify (retains_of_symbols rfl)
  | pop => exact advances_pop.discard
  | declare reach name cls line f =>
    exact (advances_declare (Symbol.stands_merge line f) reach name cls).discard
  | countUsage name cls =>
    exact (advances_countUsage (fun _ _ => retains_modifySymbol (Symbol.lasts_use _).toStands)
      name cls).discard

theorem retains_performAll (t : Table) (ops : List Operation) :
    Retains Symbol.Stands t (t.performAll ops) := by
  induction ops generalizing t with
  | nil => exact refl_of (Retains _) t
  | cons op ops ih => exact trans_of (Retains _) op.advances_perform (ih _)

theorem advances_setValue (v : Value) (h : t.value? id = none) :
    Advances (Retains Symbol.Lasts) (setValue id v) t := by
  refine Advances.of_get.bind fun t₁ _ ht => ?_
  obtain ⟨rfl, rfl⟩ := get_eq_ok.1 ht
  dsimp only
  split
  · exact .throw_bind
  · exact .of_modify (retains_modifySymbol (Symbol.lasts_setValue v h))

theorem advances_setCode (id : SymbolId) (d : Definition) :
    Advances (Retains Symbol.Lasts) (setCode id d) t := by
  refine Advances.of_get.bind fun _ _ _ => ?_
  dsimp only
  split
  · exact .throw_bind
  · exact .of_modify (retains_modifySymbol (Symbol.lasts_setCode d _))

end Table

namespace Lowering

variable {s : Lowering} {name : String} {line : Nat}

def OnTable (R : Table → Table → Prop) (s s' : Lowering) : Prop := R s.table s'.table

instance {R : Table → Table → Prop} [IsPreorder Table R] : IsPreorder Lowering (OnTable R) where
  refl s := refl_of R s.table
  trans _ _ _ h h' := trans_of R h h'

abbrev Retains : Lowering → Lowering → Prop := OnTable (Table.Retains Symbol.Lasts)

theorem advances_ofTable {α : Type} {R : Table → Table → Prop} {x : TableM α}
    (h : Advances R x s.table) : Advances (OnTable R) (liftM x : LowerM α) s := by
  change Advances (OnTable R) (LowerM.ofWork (Work.ofTable x)) s
  unfold Advances stateAfter OnTable at *
  simp only [LowerM.ofWork, Work.ofTable]
  cases hx : x s.table <;> simpa [hx] using h

theorem table_closeScope (s : Lowering) :
    (stateAfter (liftM Workspace.closeScope : LowerM Scope) s).table =
    stateAfter Table.pop s.table := by
  obtain ⟨⟨⟨symbols, _ | ⟨scope, scopes⟩, vars, routines⟩, log⟩, labels, entry,
    mainBody, openRoutine⟩ := s <;> rfl

structure Permits (R : Table → Table → Prop) : Prop where
  declare : ∀ t reach name cls line, Advances R (Table.declare reach name cls line {}) t
  use : ∀ t id, R t (t.modifySymbol id Symbol.use)
  setCode : ∀ t id d, Advances R (Table.setCode id d) t
  pop : ∀ t, Advances R Table.pop t
  assignment : ∀ s name op rhs line, Advances (OnTable R) (Lowering.assignment name op rhs line) s
  openProcedure : ∀ s name line params,
    Advances (OnTable R) (Lowering.openProcedure name line params) s

def takeAll (s : Lowering) (actions : List Action) : Lowering :=
  actions.foldl (fun s a => stateAfter a.take s) s

section Permits

variable {R : Table → Table → Prop} [IsPreorder Table R]

theorem advances_of_table {f : Lowering → Lowering} (h : (f s).table = s.table) :
    Advances (OnTable R) (modify f : LowerM PUnit) s := by
  refine .of_modify ?_
  rw [OnTable, h]
  exact refl_of R _

theorem advances_ofExcept {α : Type} (x : Except Error α) :
    Advances (OnTable R) (LowerM.ofExcept x) s := by
  cases x with
  | ok a => exact .of_pure
  | error e => exact .of_throw

theorem advances_assignedType (compound : Option ArithOp) (rhs : DataType) :
    Advances (OnTable R) (assignedType name compound rhs line) s := by
  unfold assignedType
  dsimp only
  split
  · exact .of_pure
  · exact Advances.of_get.bind fun _ _ _ => (advances_ofExcept _).bind fun _ _ _ =>
      (advances_ofExcept _).bind fun _ _ _ => .of_pure

namespace Permits

variable (h : Permits R)

include h

theorem admits : Admits (fun _ => True) fun _ x => ∀ s, Advances (OnTable R) x s where
  of_pure _ _ := .of_pure
  of_throw _ _ := .of_throw
  of_get _ := .of_get
  bind hx hf s := (hx s).bind fun a s' _ => hf a s'
  newLabel s := refl_of R s.table
  declare _ _ _ _ := advances_ofTable (h.declare ..)
  declareAt _ _ _ _ _ _ _ := (advances_ofTable (h.declare ..)).adaptExcept
  countUsage name cls _ := advances_ofTable (Table.advances_countUsage h.use name cls)

omit [IsPreorder Table R] in
theorem advances_closeScope : Advances (OnTable R)
    (liftM Workspace.closeScope : LowerM Scope) s := by
  rw [Advances, OnTable, table_closeScope]
  exact h.pop s.table

theorem advances_finish : Advances (OnTable R) finish s := by
  refine Advances.of_get.bind fun _ _ _ => ?_
  dsimp only
  split
  · exact .throw_bind
  · exact (advances_ofTable (h.setCode ..)).bind fun _ _ _ =>
      h.advances_closeScope.bind fun _ _ _ => .of_pure

theorem advances_take (a : Action) : Advances (OnTable R) a.take s :=
  a.admits_take h.admits (fun _ _ => advances_of_table rfl)
    (fun name op rhs line s => h.assignment s name op rhs line)
    (fun name line params s => h.openProcedure s name line params)
    (fun _ _ _ => (advances_ofTable (h.setCode ..)).bind fun _ _ _ =>
      h.advances_closeScope.bind fun _ _ _ => advances_of_table rfl)
    (fun _ => h.advances_finish) s

theorem onTable_takeAll (s : Lowering) (actions : List Action) :
    OnTable R s (s.takeAll actions) := by
  induction actions generalizing s with
  | nil => exact refl_of R s.table
  | cons a actions ih => exact trans_of (OnTable R) (h.advances_take a) (ih _)

end Permits

end Permits

theorem advances_declare {f : Fields} (hf : f.value = none) (reach : Reach) (cls : SymbolClass)
    (line : Option Nat) : Advances Retains
    (Table.declare reach name cls line f : LowerM SymbolId) s :=
  advances_ofTable (Table.advances_declare (Symbol.lasts_merge line hf) reach name cls)

theorem advances_assignment (op : String) (rhs : Expr) :
    Advances Retains (assignment name op rhs line) s := by
  unfold assignment
  extract_lets compound
  split
  · exact Advances.bind .of_throw fun _ _ h => absurd h throw_ne_ok
  refine (advances_assignedType _ _).bind fun type _ _ =>
    (advances_declare (f := { type := some type }) rfl _ _ _).bind fun id s₁ _ =>
    Advances.of_get.bind fun s₂ _ hget => ?_
  obtain ⟨rfl, rfl⟩ := get_eq_ok.1 hget
  split
  · rename_i hnone
    have hset (v : Value) : Advances Retains (Table.setValue id v : LowerM Unit) s₁ :=
      advances_ofTable (Table.advances_setValue v (Option.isNone_iff_eq_none.1 hnone))
    split
    · exact (hset _).bind fun _ _ _ => .of_pure
    · exact (hset _).bind fun _ _ _ => .of_pure
  · exact .of_pure

theorem advances_openScope : Advances Retains (liftM (Workspace.openScope name) : LowerM Unit) s :=
  Table.retains_of_symbols (by rfl)

theorem advances_openProcedure (params : List String) :
    Advances Retains (openProcedure name line params) s := by
  refine (advances_declare rfl _ _ _).bind fun id _ _ => advances_openScope.bind fun _ _ _ =>
    (Advances.mapM (fun _ _ => advances_declare rfl _ _ _) params).bind fun ids _ _ =>
    Advances.of_get.bind fun _ _ _ => ?_
  have hend (s : Lowering) : Advances Retains (enterBody name id ids) s :=
    (advances_declare rfl _ _ _).bind fun _ _ _ =>
    (advances_of_table rfl).bind fun _ _ _ => .of_pure
  dsimp only
  split
  · refine Advances.bind
      (.forM (fun id _ => advances_ofTable (Table.advances_countUse Table.retains_use id)) _)
      fun _ _ _ => ?_
    exact hend _
  · exact hend _

theorem permits_retains : Permits (Table.Retains Symbol.Lasts) where
  declare _ reach name cls line :=
    Table.advances_declare (Symbol.lasts_merge line rfl) reach name cls
  use := Table.retains_use
  setCode _ := Table.advances_setCode
  pop _ := Table.advances_pop
  assignment _ _ op rhs _ := advances_assignment op rhs
  openProcedure _ _ _ params := advances_openProcedure params

end Lowering

/-- Whatever operations a table goes through, failed ones included, a handle keeps denoting its
symbol, with its name, class and scope, its line and its flags, and with its value once it has a
line as well. In whatever actions of a lowering, the value of a variable stays in any case. -/
theorem declarations_stand :
    (∀ (t : Table) (ops : List Table.Operation) (id : SymbolId), t.Has id →
      (t.performAll ops).Has id ∧ (t.symbol id).Stands ((t.performAll ops).symbol id)) ∧
    ∀ (s : Lowering) (actions : List Lowering.Action) (id : SymbolId), s.table.Has id →
      (s.takeAll actions).table.Has id ∧
      (s.table.symbol id).Lasts ((s.takeAll actions).table.symbol id) :=
  ⟨Table.retains_performAll, Lowering.permits_retains.onTable_takeAll⟩

def declaredTable : Table := Table.performAll {} [
  .push "",
  .declare .anywhere "X" .var (some 3) { value := some (.int 1) },
  .declare .anywhere "Y" .var none {}]

def laterOperations : List Table.Operation := [
  .declare .anywhere "x" .var (some 9) { value := some (.int 2), type := some .int },
  .push "F",
  .declare .outermost "X" .routine (some 4) {},
  .declare .innermost "Y" .var (some 5) { params := some [] },
  .pop,
  .countUsage "Z" none,
  .countUsage "X" (some .var),
  .pop,
  .pop]

def laterActions : List Lowering.Action := [
  .assignment "X" "=" (.const (.int 7)) 8,
  .beginProcedure "X" 9 [],
  .beginProcedure "F" 9 ["X"],
  .assignment "Y" "=" (.const (.int 7)) 9,
  .finish]

theorem declarations_stand_later :
    declaredTable.Has ⟨0⟩ ∧ (declaredTable.symbol ⟨0⟩).line = some 3 ∧
      (declaredTable.value? ⟨0⟩).isSome ∧
        ((declaredTable.performAll laterOperations).Has ⟨0⟩ ∧
        (declaredTable.symbol ⟨0⟩).Stands
        ((declaredTable.performAll laterOperations).symbol ⟨0⟩)) ∧
      ∀ s : Lowering, s.table = declaredTable → (s.takeAll laterActions).table.Has ⟨0⟩ ∧
        (declaredTable.symbol ⟨0⟩).Lasts ((s.takeAll laterActions).table.symbol ⟨0⟩) := by
  have hid : declaredTable.Has ⟨0⟩ := by decide +kernel
  refine ⟨hid, by decide +kernel, by decide +kernel,
    declarations_stand.1 declaredTable laterOperations ⟨0⟩ hid, fun s hs => ?_⟩
  rw [← hs] at hid ⊢
  exact declarations_stand.2 s laterActions ⟨0⟩ hid

end TurtleCompiler
