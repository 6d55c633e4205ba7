import TurtleCompiler.Lowering.Actions
import TurtleCompiler.Proofs.SymbolTable

/-!
What the actions of a lowering do when they succeed.
-/

namespace TurtleCompiler

def Label.numbered (n : Nat) : Label := ⟨"_@trgt_" ++ n.repr⟩

def Table.IsFree (t : Table) (name : String) : Prop :=
  ∀ id, t.resolve name none none = some id → (t.symbol id).line = none ∧
  (t.symbol id).flags.library = false

namespace Lowering

def setTable (s : Lowering) (t : Table) : Lowering := { s with table := t }

@[simp] theorem table_setTable (s : Lowering) (t : Table) : (s.setTable t).table = t := rfl

@[simp] theorem labels_setTable (s : Lowering) (t : Table) : (s.setTable t).labels = s.labels := rfl

@[simp] theorem openRoutine_setTable (s : Lowering) (t : Table) :
    (s.setTable t).openRoutine = s.openRoutine := rfl

def addLabel (s : Lowering) : Lowering :=
  { s with labels := s.labels + 1, log := s.log.push (.labelMade (s.labels + 1)) }

@[simp] theorem table_addLabel (s : Lowering) : s.addLabel.table = s.table := rfl

@[simp] theorem labels_addLabel (s : Lowering) : s.addLabel.labels = s.labels + 1 := rfl

end Lowering

section Runs

variable {α : Type} {s s' : Lowering} {a : α} {x : TableM α}

@[simp] theorem ofTable_eq_ok : (liftM x : LowerM α) s = .ok a s' ↔
    ∃ t, x s.table = .ok a t ∧ s.setTable t = s' := by
  change LowerM.ofWork (Work.ofTable x) s = _ ↔ _
  simp only [LowerM.ofWork, Work.ofTable]
  cases x s.table <;> simp [Lowering.setTable]

theorem ofTable_eq_error {e : Error} (h : (liftM x : LowerM α) s = .error e s') :
    x s.table = .error e s'.table := by
  change LowerM.ofWork (Work.ofTable x) s = _ at h
  simp only [LowerM.ofWork, Work.ofTable] at h
  cases hx : x s.table <;> simp only [hx, EStateM.Result.error.injEq, reduceCtorEq] at h
  obtain ⟨rfl, rfl⟩ := h
  rfl

@[simp] theorem ofExcept_eq_ok {x : Except Error α} :
    LowerM.ofExcept x s = .ok a s' ↔ x = .ok a ∧ s = s' := by
  cases x <;> simp [LowerM.ofExcept]

end Runs

variable {line : Nat} {l r e : Expr}

theorem checkNumeric_eq_ok {type : DataType} {u : Unit} :
    checkNumeric line type = .ok u ↔ type.isNumeric := by
  simp [checkNumeric]

theorem DataType.isNumeric_unify (a b : DataType) : (a.unify b).isNumeric := by
  cases a <;> cases b <;> rfl

theorem Expr.arithmetic_eq_ok {op : ArithOp} (h : Expr.arithmetic op l r line = .ok e) :
    l.dataType.isNumeric ∧ r.dataType.isNumeric ∧
      ∃ value, e = .arith op l r (l.dataType.unify r.dataType) value ∧
      (value = none ∧ (l.isConst && r.isConst) = false ∨
        ∃ x y v, l.value? = some x ∧ r.value? = some y ∧ fold line op x y = .ok v ∧
        value = some v) := by
  simp only [Expr.arithmetic, except_bind_eq_ok, checkNumeric_eq_ok] at h
  obtain ⟨_, hl, _, hr, h⟩ := h
  refine ⟨hl, hr, ?_⟩
  simp only [isConst]
  cases hx : l.value? with
  | none => simpa [hx, pure, Except.pure, bind, Except.bind, eq_comm] using h
  | some x =>
    cases hy : r.value? with
    | none => simpa [hx, hy, pure, Except.pure, bind, Except.bind, eq_comm] using h
    | some y =>
      cases hv : fold line op x y with
      | error => simp [hx, hy, hv, bind, Except.bind, Functor.map, Except.map] at h
      | ok v =>
        simpa [hx, hy, hv, bind, Except.bind, Functor.map, Except.map, pure, Except.pure,
          eq_comm] using h

theorem Cond.comparison_eq_ok {op : RelOp} {c : Cond} (h : Cond.comparison op l r line = .ok c) :
    (l.dataType ≠ .bool ∧ r.dataType ≠ .bool) ∧ c = .compare op l r := by
  simp only [Cond.comparison, Cond.rejectBool, bind, Except.bind, pure, Except.pure,
    throw, throwThe, MonadExceptOf.throw] at h
  repeat' split at h
  all_goals simp_all

theorem Cond.ofExpr_eq_ok {c : Cond} : Cond.ofExpr line e = .ok c ↔ e = .cond c := by
  cases e <;> simp [Cond.ofExpr]

theorem Expr.callTo_eq_ok {t : Table} {name : String} {args : List Arg} :
    Expr.callTo t name args = .ok e ↔ ∃ callee,
      (t.resolve name none (some .routine)).bind t.resolveAlias = some callee ∧
        e = .call callee args (t.symbol callee).type? := by
  simp only [Expr.callTo]
  cases (t.resolve name none (some .routine)).bind t.resolveAlias <;> simp [eq_comm]

namespace Table

def value? (t : Table) (id : SymbolId) : Option Value := (t.symbol id).var?.bind (·.value)

variable {t t' : Table} {id : SymbolId}

theorem setValue_eq_ok {v : Value} (h : setValue id v t = .ok ⟨⟩ t') :
    (t.symbol id).cls = .var ∧ t' = t.modifySymbol id (·.setValue v) := by
  simp only [setValue, get_bind] at h
  split at h
  · simp [bind_eq_ok] at h
  · exact ⟨not_not.1 ‹_›, (modify_eq_ok.1 h).symm⟩

theorem setCode_eq_ok {d : Definition} (h : setCode id d t = .ok ⟨⟩ t') :
    (t.symbol id).cls = .routine ∧ t' = t.modifySymbol id (·.setCode d) := by
  simp only [setCode, get_bind] at h
  split at h
  · simp [bind_eq_ok] at h
  · exact ⟨not_not.1 ‹_›, (modify_eq_ok.1 h).symm⟩

end Table

namespace Lowering

variable {s s' : Lowering} {name op text : String} {line : Nat} {l r e e' : Expr} {node : Node}
  {compound : Option ArithOp} {rhs type : DataType} {args : List Expr}
  {yes body : List Node} {u : Unit} {params : List String} {id : SymbolId}

theorem newLabel_eq_ok {l : Label} :
    newLabel s = .ok l s' ↔ .numbered (s.labels + 1) = l ∧ s.addLabel = s' := by
  change EStateM.Result.ok (Label.numbered (s.labels + 1)) s.addLabel = _ ↔ _
  simp

theorem callTo_eq_ok {args : List Arg} :
    callTo name args s = .ok e s' ↔ Expr.callTo s.table name args = .ok e ∧ s = s' := by
  simp [callTo, bind_eq_ok, and_comm]

theorem number_eq_ok (h : number text line s = .ok e s') :
    s = s' ∧ ∃ v, e = .const v ∧
      (if '.' ∈ text.toList then (Numeral.float? text.toList).map Value.float
      else (Numeral.int64? text.toList).map Value.int) = some v := by
  simp only [number] at h
  generalize (if '.' ∈ text.toList then (Numeral.float? text.toList).map Value.float
    else (Numeral.int64? text.toList).map Value.int) = value at h
  cases value with
  | none => exact absurd h throw_ne_ok
  | some v =>
    obtain ⟨rfl, rfl⟩ := pure_eq_ok.1 h
    exact ⟨rfl, v, rfl, rfl⟩

theorem reference_eq_ok (h : reference name line s = .ok e s') : ∃ id t₁ j t₂,
    Table.declare .anywhere name .var none {} s.table = .ok id t₁ ∧
      Table.countUsage name (some .var) t₁ = .ok j t₂ ∧ e = .ofVariable t₂ id ∧
      s' = s.setTable t₂ := by
  simp only [reference, bind_eq_ok, adaptExcept_eq_ok, ofTable_eq_ok, get_eq_ok, pure_eq_ok] at h
  obtain ⟨id, _, ⟨t₁, hd, rfl⟩, j, _, ⟨t₂, hc, rfl⟩, _, _, ⟨rfl, rfl⟩,
    rfl, rfl⟩ := h
  exact ⟨id, t₁, j, t₂, hd, hc, rfl, rfl⟩

theorem random_eq_ok (h : random s = .ok e s') : ∃ j t,
    Table.countUsage "RANDOM" (some .routine) s.table = .ok j t ∧
      Expr.callTo t "RANDOM" [] = .ok e ∧ s' = s.setTable t := by
  simp only [random, bind_eq_ok, ofTable_eq_ok, callTo_eq_ok] at h
  obtain ⟨j, _, ⟨t, hc, rfl⟩, he, rfl⟩ := h
  exact ⟨j, t, hc, he, rfl⟩

theorem arithmetic_eq_ok (h : arithmetic op l r line s = .ok e s') :
    s = s' ∧ ∃ op', ArithOp.ofText? op = some op' ∧ Expr.arithmetic op' l r line = .ok e := by
  unfold arithmetic at h
  cases hop : ArithOp.ofText? op with
  | none => simp [hop] at h
  | some op' =>
    rw [hop] at h
    obtain ⟨he, rfl⟩ := ofExcept_eq_ok.1 h
    exact ⟨rfl, op', rfl, he⟩

theorem negate_eq_ok (h : negate e line s = .ok e' s') :
    s = s' ∧ Expr.arithmetic .mul (.const (.int (-1))) e line = .ok e' := by
  obtain ⟨he, rfl⟩ := ofExcept_eq_ok.1 h
  exact ⟨rfl, he⟩

theorem positive_eq_ok (h : positive e line s = .ok e' s') :
    s = s' ∧ e' = e ∧ e.dataType.isNumeric := by
  simp only [positive, bind_eq_ok, ofExcept_eq_ok, checkNumeric_eq_ok, pure_eq_ok] at h
  obtain ⟨_, _, ⟨hnumeric, rfl⟩, rfl, rfl⟩ := h
  exact ⟨rfl, rfl, hnumeric⟩

theorem comparison_eq_ok (h : comparison op l r line s = .ok e s') :
    s = s' ∧ (l.dataType ≠ .bool ∧ r.dataType ≠ .bool) ∧
      ∃ op', RelOp.ofText? op = some op' ∧ e = .cond (.compare op' l r) := by
  unfold comparison at h
  cases hop : RelOp.ofText? op with
  | none => simp [hop] at h
  | some op' =>
    rw [hop] at h
    obtain ⟨c, hrun, rfl⟩ := map_eq_ok.1 h
    obtain ⟨hc, rfl⟩ := ofExcept_eq_ok.1 hrun
    obtain ⟨htypes, rfl⟩ := Cond.comparison_eq_ok hc
    exact ⟨rfl, htypes, op', rfl, rfl⟩

theorem combination_eq_ok (h : combination op l r line s = .ok e s') :
    s' = s.addLabel ∧ ∃ op' c c', LogicOp.ofText? op = some op' ∧ l = .cond c ∧
      r = .cond c' ∧ e = .cond (.logic op' c c' (.numbered (s.labels + 1))) := by
  unfold combination at h
  cases hop : LogicOp.ofText? op with
  | none => simp [hop] at h
  | some op' =>
    simp only [hop, bind_eq_ok, newLabel_eq_ok, map_eq_ok, ofExcept_eq_ok, Cond.combination,
      except_bind_eq_ok, Cond.ofExpr_eq_ok] at h
    obtain ⟨_, _, ⟨rfl, rfl⟩, _, ⟨⟨c, rfl, c', rfl, hc⟩, rfl⟩, rfl⟩ := h
    obtain rfl := Except.ok.inj hc
    exact ⟨rfl, op', c, c', rfl, rfl, rfl, rfl⟩

theorem negation_eq_ok (h : negation e line s = .ok e' s') :
    s = s' ∧ ∃ c, e = .cond c ∧ e' = .cond (.not c) := by
  simp only [negation, map_eq_ok, ofExcept_eq_ok, Cond.negation, except_bind_eq_ok,
    Cond.ofExpr_eq_ok] at h
  obtain ⟨_, ⟨⟨c, rfl, hc⟩, rfl⟩, rfl⟩ := h
  obtain rfl := Except.ok.inj hc
  exact ⟨rfl, c, rfl, rfl⟩

theorem assignedType_eq_ok (h : assignedType name compound rhs line s = .ok type s') :
    s = s' ∧ (compound = none → type = rhs) := by
  simp only [assignedType] at h
  split at h
  · obtain ⟨rfl, rfl⟩ := pure_eq_ok.1 h
    exact ⟨rfl, fun _ => rfl⟩
  · rename_i hsome
    simp only [bind_eq_ok, get_eq_ok, ofExcept_eq_ok, pure_eq_ok] at h
    obtain ⟨_, _, ⟨rfl, rfl⟩, _, _, ⟨-, rfl⟩, _, _, ⟨-, rfl⟩, -, rfl⟩ := h
    refine ⟨rfl, ?_⟩
    rintro rfl
    simp at hsome

theorem isNumeric_assignedType (hrhs : rhs.isNumeric)
    (h : assignedType name compound rhs line s = .ok type s') : type.isNumeric := by
  cases compound with
  | none =>
    rw [(assignedType_eq_ok h).2 rfl]
    exact hrhs
  | some op =>
    simp only [assignedType, Option.isNone_some, Bool.false_eq_true, if_false, bind_eq_ok,
      get_eq_ok, ofExcept_eq_ok, pure_eq_ok] at h
    obtain ⟨_, _, ⟨rfl, rfl⟩, _, _, ⟨-, rfl⟩, _, _, ⟨-, rfl⟩, rfl, -⟩ := h
    exact DataType.isNumeric_unify _ _

theorem assignment_eq_ok {rhs : Expr} (h : assignment name op rhs line s = .ok node s') :
    ∃ compound type id t₁ t₂,
      (op = "=" ∧ compound = none ∨ op ≠ "=" ∧ compoundOp? op = compound ∧
        compound ≠ none) ∧
      assignedType name compound rhs.dataType line s = .ok type s ∧
      Table.declare .anywhere name .var (some line) { type := some type } s.table = .ok id t₁ ∧
      s' = s.setTable t₂ ∧
      ((∃ v, t₁.value? id = none ∧ rhs.value? = some v ∧
          (s.setTable t₁).isParameter id = false ∧
          Table.setValue id (v.widen type) t₁ = .ok ⟨⟩ t₂ ∧ node = .noOp) ∨
        t₁.value? id = none ∧
          (rhs.value? = none ∨ (s.setTable t₁).isParameter id = true) ∧
          Table.setValue id type.zero t₁ = .ok ⟨⟩ t₂ ∧ node = .assign compound id rhs ∨
        t₁.value? id ≠ none ∧ t₂ = t₁ ∧ node = .assign compound id rhs) := by
  unfold assignment at h
  generalize hcompound : (if op = "=" then none else compoundOp? op) = compound at h
  dsimp only at h
  cases hop : decide (op ≠ "=") && compound.isNone with
  | true => simp only [hop, if_true, bind_eq_ok, throw_ne_ok, false_and, exists_false] at h
  | false =>
    simp only [hop, Bool.false_eq_true, if_false, bind_eq_ok, ofTable_eq_ok, get_eq_ok] at h
    obtain ⟨type, _, hrun, id, _, ⟨t₁, hd, rfl⟩, _, _, ⟨rfl, rfl⟩, h⟩ := h
    obtain ⟨rfl, -⟩ := assignedType_eq_ok hrun
    have hop' : op = "=" ∧ compound = none ∨ op ≠ "=" ∧ compoundOp? op = compound ∧
        compound ≠ none := by
      by_cases heq : op = "=" <;> simp_all [Option.isSome_iff_ne_none]
    have hfold : ((t₁.symbol id).var?.bind fun x => x.value) = t₁.value? id := rfl
    simp only [table_setTable, hfold] at h
    cases hvalue : t₁.value? id with
    | some v =>
      simp only [hvalue, Option.isNone_some, Bool.false_eq_true, if_false, pure_eq_ok] at h
      obtain ⟨rfl, rfl⟩ := h
      exact ⟨compound, type, id, t₁, t₁, hop', hrun, hd, rfl,
        .inr (.inr ⟨by simp [hvalue], rfl, rfl⟩)⟩
    | none =>
      simp only [hvalue, Option.isNone_none, if_true] at h
      cases hrhs : rhs.value? with
      | none =>
        simp only [hrhs, bind_eq_ok, ofTable_eq_ok, pure_eq_ok] at h
        obtain ⟨_, _, ⟨t₂, hset, rfl⟩, rfl, rfl⟩ := h
        exact ⟨compound, type, id, t₁, t₂, hop', hrun, hd, rfl,
          .inr (.inl ⟨hvalue, .inl rfl, hset, rfl⟩)⟩
      | some v =>
        cases hparam : (s.setTable t₁).isParameter id with
        | true =>
          simp only [hrhs, hparam, bind_eq_ok, ofTable_eq_ok, pure_eq_ok] at h
          obtain ⟨_, _, ⟨t₂, hset, rfl⟩, rfl, rfl⟩ := h
          exact ⟨compound, type, id, t₁, t₂, hop', hrun, hd, rfl,
            .inr (.inl ⟨hvalue, .inr hparam, hset, rfl⟩)⟩
        | false =>
          simp only [hrhs, hparam, bind_eq_ok, ofTable_eq_ok, pure_eq_ok] at h
          obtain ⟨_, _, ⟨t₂, hset, rfl⟩, rfl, rfl⟩ := h
          exact ⟨compound, type, id, t₁, t₂, hop', hrun, hd, rfl,
            .inl ⟨v, hvalue, rfl, hparam, hset, rfl⟩⟩

theorem call_eq_ok (h : call name args line s = .ok node s') : ∃ i t₁ j t₂ e,
    Table.declare .outermost name .routine none {} s.table = .ok i t₁ ∧
      Table.countUsage name (some .routine) t₁ = .ok j t₂ ∧
      Expr.callTo t₂ name (args.reverse.map .input) = .ok e ∧ node = .expr e ∧
      s' = s.setTable t₂ := by
  simp only [call, bind_eq_ok, adaptExcept_eq_ok, ofTable_eq_ok, map_eq_ok, callTo_eq_ok] at h
  obtain ⟨i, _, ⟨t₁, hd, rfl⟩, j, _, ⟨t₂, hc, rfl⟩, e, ⟨he, rfl⟩, rfl⟩ := h
  exact ⟨i, t₁, j, t₂, e, hd, hc, he, rfl, rfl⟩

theorem print_eq_ok (h : print args s = .ok node s') : ∃ j t e,
    Table.countUsage "PRINT" (some .routine) s.table = .ok j t ∧
      Expr.callTo t "PRINT" ((.const (.int (Int64.ofNat args.length)) :: args.reverse).map .input) =
      .ok e ∧ node = .expr e ∧ s' = s.setTable t := by
  simp only [print, bind_eq_ok, ofTable_eq_ok, map_eq_ok, callTo_eq_ok] at h
  obtain ⟨j, _, ⟨t, hc, rfl⟩, e, ⟨he, rfl⟩, rfl⟩ := h
  exact ⟨j, t, e, hc, he, rfl, rfl⟩

theorem typein_eq_ok (h : typein name line s = .ok node s') : ∃ i t₁ id t₂ j t₃ e,
    Table.countUsage "TYPEIN" (some .routine) s.table = .ok i t₁ ∧
      Table.declare .anywhere name .var (some line) {} t₁ = .ok id t₂ ∧
      Table.countUsage name (some .var) t₂ = .ok j t₃ ∧
      Expr.callTo t₃ "TYPEIN" [.output (.ofVariable t₃ id)] = .ok e ∧ node = .expr e ∧
      s' = s.setTable t₃ := by
  simp only [typein, bind_eq_ok, ofTable_eq_ok, get_eq_ok, map_eq_ok, callTo_eq_ok] at h
  obtain ⟨i, _, ⟨t₁, hi, rfl⟩, id, _, ⟨t₂, hd, rfl⟩, j, _, ⟨t₃, hc, rfl⟩, _, _,
    ⟨rfl, rfl⟩, e, ⟨he, rfl⟩, rfl⟩ := h
  exact ⟨i, t₁, id, t₂, j, t₃, e, hi, hd, hc, he, rfl, rfl⟩

theorem ifStatement_none_eq_ok (h : ifStatement e yes none line s = .ok node s') :
    ∃ c, e = .cond c ∧ s' = s.addLabel ∧
      node = .block (.branch c { onFalse := some (.numbered (s.labels + 1)) } :: yes ++
        [.label (.numbered (s.labels + 1))]) := by
  simp only [ifStatement, bind_eq_ok, ofExcept_eq_ok, Cond.ofExpr_eq_ok, newLabel_eq_ok,
    pure_eq_ok] at h
  obtain ⟨c, _, ⟨rfl, rfl⟩, _, _, ⟨rfl, rfl⟩, rfl, rfl⟩ := h
  exact ⟨c, rfl, rfl, rfl⟩

theorem ifStatement_some_eq_ok {no : List Node}
    (h : ifStatement e yes (some no) line s = .ok node s') :
    ∃ c, e = .cond c ∧ s' = s.addLabel.addLabel ∧
      node = .block (.branch c { onFalse := some (.numbered (s.labels + 1)) } :: yes ++
        [.jump (.numbered (s.labels + 2)), .label (.numbered (s.labels + 1))] ++ no ++
        [.label (.numbered (s.labels + 2))]) := by
  simp only [ifStatement, bind_eq_ok, ofExcept_eq_ok, Cond.ofExpr_eq_ok, newLabel_eq_ok,
    pure_eq_ok] at h
  obtain ⟨c, _, ⟨rfl, rfl⟩, _, _, ⟨rfl, rfl⟩, _, _, ⟨rfl, rfl⟩, rfl, rfl⟩ := h
  exact ⟨c, rfl, rfl, rfl⟩

theorem whileStatement_eq_ok (h : whileStatement e body line s = .ok node s') :
    ∃ c, e = .cond c ∧ s' = s.addLabel.addLabel ∧
      node = .block ([.label (.numbered (s.labels + 1)),
        .branch c { onFalse := some (.numbered (s.labels + 2)) }] ++ body ++
        [.jump (.numbered (s.labels + 1)), .label (.numbered (s.labels + 2))]) := by
  simp only [whileStatement, bind_eq_ok, ofExcept_eq_ok, Cond.ofExpr_eq_ok, newLabel_eq_ok,
    pure_eq_ok] at h
  obtain ⟨c, _, ⟨rfl, rfl⟩, _, _, ⟨rfl, rfl⟩, _, _, ⟨rfl, rfl⟩, rfl, rfl⟩ := h
  exact ⟨c, rfl, rfl, rfl⟩

def openScope (s : Lowering) (name : String) : Lowering :=
  { s with table := s.table.push name, log := s.log.push (.scopeOpened name) }

theorem openScope_eq_ok : (liftM (Workspace.openScope name) : LowerM Unit) s = .ok u s' ↔
    s.openScope name = s' := by
  change EStateM.Result.ok () (s.openScope name) = _ ↔ _
  simp

inductive Declares (line : Nat) : Lowering → List String → List SymbolId → Lowering → Prop
  | nil {s : Lowering} : Declares line s [] [] s
  | cons {s s' : Lowering} {param : String} {params : List String} {id : SymbolId}
      {ids : List SymbolId} {t : Table} :
      Table.declare .innermost param .var (some line) {} s.table = .ok id t →
      Declares line (s.setTable t) params ids s' →
      Declares line s (param :: params) (id :: ids) s'

def declareParams (line : Nat) (params : List String) : LowerM (List SymbolId) :=
  params.mapM fun param => (Table.declare .innermost param .var (some line) {} : LowerM SymbolId)

theorem declares_of_mapM {ids : List SymbolId} (h : declareParams line params s = .ok ids s') :
    Declares line s params ids s' := by
  induction params generalizing s ids with
  | nil =>
    obtain ⟨rfl, rfl⟩ := pure_eq_ok.1 h
    exact .nil
  | cons param params ih =>
    simp only [declareParams, List.mapM_cons, bind_eq_ok, ofTable_eq_ok, pure_eq_ok] at h
    obtain ⟨id, _, ⟨t, hd, rfl⟩, ids, _, hids, rfl, rfl⟩ := h
    exact .cons hd (ih hids)

def enterBody (name : String) (symbol : SymbolId) (ids : List SymbolId) : LowerM SymbolId := do
  let _ ← Table.declare .anywhere name .routine none { params := some ids }
  modify fun t => { t with openRoutine := some symbol }
  return symbol

def openProcedure (name : String) (line : Nat) (params : List String) : LowerM SymbolId := do
  let symbol ← Table.declare .anywhere name .routine (some line) {}
  Workspace.openScope name
  let ids ← params.mapM fun param =>
    (Table.declare .innermost param .var (some line) {} : LowerM SymbolId)
  if 0 < ((← get).table.symbol symbol).usage then
    ids.forM fun id => (Table.countUse id : LowerM Unit)
  let _ ← Table.declare .anywhere name .routine none { params := some ids }
  modify fun t => { t with openRoutine := some symbol }
  return symbol

theorem beginProcedure_eq_ok (h : beginProcedure name line params s = .ok id s') :
    s.table.IsFree name ∧ openProcedure name line params s = .ok id s' := by
  unfold beginProcedure at h
  obtain ⟨_, _, hget, h⟩ := bind_eq_ok.1 h
  obtain ⟨rfl, rfl⟩ := get_eq_ok.1 hget
  cases hresolve : s.table.resolve name none none with
  | none =>
    simp only [hresolve] at h
    exact ⟨by simp [Table.IsFree, hresolve], h⟩
  | some j =>
    simp only [hresolve] at h
    cases hdefined : (s.table.symbol j).line.isSome || (s.table.symbol j).flags.library with
    | true => simp only [hdefined, if_true, bind_eq_ok, throw_ne_ok, false_and, exists_false] at h
    | false =>
      simp only [hdefined, Bool.false_eq_true, if_false] at h
      exact ⟨by simpa [Table.IsFree, hresolve] using hdefined, h⟩

theorem openProcedure_eq_ok (h : openProcedure name line params s = .ok id s') :
    ∃ t₁ ids s₂ s₃ j t₄, Table.declare .anywhere name .routine (some line) {} s.table =
      .ok id t₁ ∧ Declares line ((s.setTable t₁).openScope name) params ids s₂ ∧
      (0 < (s₂.table.symbol id).usage ∧
        (ids.forM fun id => (Table.countUse id : LowerM Unit)) s₂ = .ok ⟨⟩ s₃ ∨
        (s₂.table.symbol id).usage = 0 ∧ s₃ = s₂) ∧
      Table.declare .anywhere name .routine none { params := some ids } s₃.table = .ok j t₄ ∧
      s' = { s₃.setTable t₄ with openRoutine := some id } := by
  simp only [openProcedure, bind_eq_ok, ofTable_eq_ok, openScope_eq_ok, get_eq_ok] at h
  obtain ⟨id', _, ⟨t₁, hd, rfl⟩, _, _, rfl, ids, s₂, hparams, _, _,
    ⟨rfl, rfl⟩, h⟩ := h
  by_cases husage : 0 < (s₂.table.symbol id').usage
  · simp only [husage, if_true, bind_eq_ok, ofTable_eq_ok, modify_eq_ok, pure_eq_ok] at h
    obtain ⟨_, s₃, huse, j, _, ⟨t₄, hd', rfl⟩, _, _, rfl, rfl, rfl⟩ := h
    exact ⟨t₁, ids, s₂, s₃, j, t₄, hd, declares_of_mapM hparams,
      .inl ⟨husage, huse⟩, hd', rfl⟩
  · simp only [husage, if_false, bind_eq_ok, ofTable_eq_ok, modify_eq_ok, pure_eq_ok] at h
    obtain ⟨j, _, ⟨t₄, hd', rfl⟩, _, _, rfl, rfl, rfl⟩ := h
    exact ⟨t₁, ids, s₂, s₂, j, t₄, hd, declares_of_mapM hparams,
      .inr ⟨Nat.eq_zero_of_not_pos husage, rfl⟩, hd', rfl⟩

def closeScope (s : Lowering) (scope : Scope) (scopes : List Scope) : Lowering :=
  { s with
    table := scope.names.ids.foldl Table.close { s.table with scopes }
    log := s.log.push (.scopeClosed scope.name) }

@[simp] theorem symbols_closeScope (s : Lowering) (scope : Scope) (scopes : List Scope) :
    (s.closeScope scope scopes).table.symbols = s.table.symbols :=
  (Table.symbols_foldl_close scope.names.ids _).1

@[simp] theorem scopes_closeScope (s : Lowering) (scope : Scope) (scopes : List Scope) :
    (s.closeScope scope scopes).table.scopes = scopes :=
  (Table.symbols_foldl_close scope.names.ids _).2

theorem closeScope_eq_ok {scope : Scope}
    (h : (liftM Workspace.closeScope : LowerM Scope) s = .ok scope s') :
    ∃ scopes, s.table.scopes = scope :: scopes ∧ s' = s.closeScope scope scopes := by
  obtain ⟨⟨⟨symbols, _ | ⟨first, rest⟩, vars, routines⟩, log⟩, labels, entry,
    mainBody, openRoutine⟩ := s
  · cases h
  · cases h
    exact ⟨rest, rfl, rfl⟩

theorem endProcedure_eq_ok (h : endProcedure id body s = .ok u s') :
    ∃ t scope scopes, Table.setCode id (.ofNodes id body) s.table = .ok ⟨⟩ t ∧
      t.scopes = scope :: scopes ∧
      s' = { (s.setTable t).closeScope scope scopes with openRoutine := none } := by
  simp only [endProcedure, bind_eq_ok, ofTable_eq_ok, modify_eq_ok] at h
  obtain ⟨_, _, ⟨t, hset, rfl⟩, scope, _, hclose, rfl⟩ := h
  obtain ⟨scopes, hscopes, rfl⟩ := closeScope_eq_ok hclose
  exact ⟨t, scope, scopes, hset, hscopes, rfl⟩

theorem finish_eq_ok (h : finish s = .ok u s') :
    s.table.scopes.length = 1 ∧ ∃ t scope scopes,
      Table.setCode s.entry (.ofNodes s.entry s.mainBody) s.table = .ok ⟨⟩ t ∧
      t.scopes = scope :: scopes ∧ s' = (s.setTable t).closeScope scope scopes := by
  simp only [finish, get_bind] at h
  split at h
  · simp only [bind_eq_ok, throw_ne_ok, false_and, exists_false] at h
  · rename_i hdepth
    simp only [bind_eq_ok, ofTable_eq_ok, pure_eq_ok] at h
    obtain ⟨_, _, ⟨t, hset, rfl⟩, scope, _, hclose, -, rfl⟩ := h
    obtain ⟨scopes, hscopes, rfl⟩ := closeScope_eq_ok hclose
    exact ⟨not_not.1 hdepth, t, scope, scopes, hset, hscopes, rfl⟩

theorem within_eq_ok {x : LowerM α} {a : α} {w w' : Workspace} (h : within x w = .ok a w') :
    ∃ entry w₀ s, setup w = .ok entry w₀ ∧ x { toWorkspace := w₀, entry } = .ok a s ∧
    s.toWorkspace = w' := by
  unfold within at h
  obtain ⟨entry, w₀, hsetup, h⟩ := bind_eq_ok.1 h
  refine ⟨entry, w₀, ?_⟩
  generalize x { toWorkspace := w₀, entry } = result at h ⊢
  cases result with
  | error e s => simp at h
  | ok b s =>
    simp only [EStateM.Result.ok.injEq] at h
    exact ⟨s, hsetup, by rw [h.1], h.2⟩

end Lowering

end TurtleCompiler
