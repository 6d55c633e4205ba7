import TurtleCompiler.Proofs.Actions
import TurtleCompiler.Proofs.ReadConstants

/-!
Constants and code. The constant that a tree was given when it was made is the value that its code
pushes, whatever the variables hold, if the numbers in the code can be known from their texts.
-/

namespace TurtleCompiler

/-- A machine that computes on a stack, with variables that it only reads. Where constants have a
result, so have its operations, and the same one; elsewhere they may have any, or none. -/
structure Calculator where
  compute : ArithOp → Value → Value → Option Value
  quotient : Value → Value → Value
  compute_of_fold : ∀ {line op x y v}, fold line op x y = .ok v → compute op x y = some v

namespace Calculator

variable (c : Calculator)

def results (x y : Value) : Operation → Option (List Value)
  | .add => (c.compute .add x y).map ([·])
  | .sub => (c.compute .sub x y).map ([·])
  | .mul => (c.compute .mul x y).map ([·])
  | .div => (c.compute .div x y).map ([·])
  | .idiv => (c.compute .mod x y).map ([c.quotient x y, ·])
  | .pow => (c.compute .pow x y).map ([·])
  | .pop => some [x]

def exec (store : String → Value) : Instr → List Value → Option (List Value)
  | .push v, stack => some (v :: stack)
  | .load x, stack => some (store x :: stack)
  | .operate .pop, _ :: stack => some stack
  | .operate op, y :: x :: stack => (c.results x y op).map (· ++ stack)
  | _, _ => none

def run (store : String → Value) (code : List Instr) (stack : List Value) : Option (List Value) :=
  code.foldlM (fun stack i => c.exec store i stack) stack

variable {c} {store : String → Value} {stack : List Value}

theorem run_append (a b : List Instr) :
    c.run store (a ++ b) stack = (c.run store a stack).bind (c.run store b) :=
  List.foldlM_append

theorem run_arith (op : ArithOp) (x y : Value) :
    c.run store op.code (y :: x :: stack) = (c.compute op x y).map (· :: stack) := by
  cases op with
  | mod =>
    -- the quotient lies above the remainder, and is dropped
    cases h : c.compute .mod x y <;>
      simp [run, ArithOp.code, ArithOp.operations, exec, results, h]
  | _ =>
    simp only [run, ArithOp.code, ArithOp.operations, List.map_cons, List.map_nil, List.foldlM_cons,
      List.foldlM_nil, exec, results, Option.map_map]
    simp [Function.comp_def]

def folding : Calculator where
  compute op x y := (fold 0 op x y).toOption
  quotient _ _ := .int 0
  compute_of_fold h := by simp [fold_line h 0, Except.toOption]

end Calculator

namespace Expr

def valueIn (c : Calculator) (t : Table) (store : String → Value) : Expr → Option Value
  | .const v => some v
  | .var symbol _ => some (store (t.symbol symbol).fullName)
  | .arith op l r _ _ => do c.compute op (← l.valueIn c t store) (← r.valueIn c t store)
  | .call .. | .cond _ => none

inductive IsArithmetic : Expr → Prop
  | const (h : v.dataType.isNumeric) : IsArithmetic (.const v)
  | var : IsArithmetic (.var symbol type)
  | arithmetic (hl : IsArithmetic l) (hr : IsArithmetic r)
      (h : Expr.arithmetic op l r line = .ok e) : IsArithmetic e

theorem IsArithmetic.negate {e e' : Expr} {line : Nat} {s s' : Lowering} (he : e.IsArithmetic)
    (h : Lowering.negate e line s = .ok e' s') : e'.IsArithmetic :=
  .arithmetic (.const rfl) he (Lowering.negate_eq_ok h).2

namespace IsArithmetic

variable {c : Calculator} {t : Table} {store : String → Value} {e : Expr}

theorem valueIn_of_value? (he : e.IsArithmetic) {v : Value} (hv : e.value? = some v) :
    e.valueIn c t store = some v := by
  induction he generalizing v with
  | const => exact hv
  | var => simp [value?] at hv
  | arithmetic _ _ h ihl ihr =>
    obtain ⟨-, -, value, rfl, ⟨rfl, -⟩ | ⟨x, y, w, hx, hy, hfold, rfl⟩⟩ :=
      Expr.arithmetic_eq_ok h
    · simp [value?] at hv
    · obtain rfl : w = v := Option.some.inj hv
      simp [valueIn, ihl hx, ihr hy, c.compute_of_fold hfold]

theorem run_code (he : e.IsArithmetic) (stack : List Value) :
    c.run store (e.code t) stack = (e.valueIn c t store).map (· :: stack) := by
  induction he generalizing stack with
  | const | var => rfl
  | @arithmetic l r op line e _ _ h ihl ihr =>
    obtain ⟨-, -, value, rfl, -⟩ := Expr.arithmetic_eq_ok h
    rw [Expr.code, Calculator.run_append, Calculator.run_append, ihl]
    cases hx : l.valueIn c t store with
    | none => simp [valueIn, hx]
    | some x =>
      cases hy : r.valueIn c t store with
      | none => simp [valueIn, hx, hy, ihr]
      | some y => simp [valueIn, hx, hy, ihr, Calculator.run_arith]

theorem isSome_valueIn (he : e.IsArithmetic) (hc : ∀ op x y, (c.compute op x y).isSome) :
    (e.valueIn c t store).isSome := by
  induction he with
  | const | var => rfl
  | arithmetic _ _ h ihl ihr =>
    obtain ⟨-, -, value, rfl, -⟩ := Expr.arithmetic_eq_ok h
    obtain ⟨x, hx⟩ := Option.isSome_iff_exists.1 ihl
    obtain ⟨y, hy⟩ := Option.isSome_iff_exists.1 ihr
    simp [valueIn, hx, hy, hc]

end IsArithmetic

end Expr

/-- The text of the code of an arithmetic tree, run by a machine that reads its numbers back, pushes
one value, which is that of the tree, whatever the variables hold. A constant is that value on every
machine and for all variables. -/
theorem run_code_pushes_value (c : Calculator) (t : Table) {e : Expr} (he : e.IsArithmetic)
    {read : String → Value} (hread : ∀ v ∈ constantsIn (e.code t), read v.text = v)
    (store : String → Value) (stack : List Value) :
    c.run store ((e.code t).map (.reread read)) stack = (e.valueIn c t store).map (· :: stack) ∧
      ((∀ op x y, (c.compute op x y).isSome) →
        ∃ v, c.run store ((e.code t).map (.reread read)) stack = some (v :: stack)) ∧
      ∀ v, e.value? = some v → e.valueIn c t store = some v ∧
        c.run store ((e.code t).map (.reread read)) stack = some (v :: stack) := by
  have hrun : c.run store ((e.code t).map (.reread read)) stack =
      (e.valueIn c t store).map (· :: stack) := by
    rw [reread_eq_self hread, he.run_code]
  refine ⟨hrun, fun hc => ?_, fun v hv => ?_⟩
  · have hsome : (e.valueIn c t store).isSome := he.isSome_valueIn hc
    obtain ⟨v, hv⟩ := Option.isSome_iff_exists.1 hsome
    exact ⟨v, by rw [hrun, hv]; rfl⟩
  · have hvalue : e.valueIn c t store = some v := he.valueIn_of_value? hv
    exact ⟨hvalue, by rw [hrun, hvalue]; rfl⟩

def remainderTree : Expr := .arith .mod (.const (.int 7)) (.const (.int (-2))) .int
    (some (.int (-1)))

def negatedTree : Expr := .arith .mul (.const (.int (-1))) remainderTree .int (some (.int 1))

def sumTree : Expr := .arith .add (.var ⟨0⟩ .int) negatedTree .int none

theorem isArithmetic_negatedTree : negatedTree.IsArithmetic := by
  have hmake : Expr.arithmetic .mod (.const (.int 7)) (.const (.int (-2))) 1 =
    .ok remainderTree := rfl
  have hnegate : Lowering.negate remainderTree 1 { entry := ⟨0⟩ } =
    .ok negatedTree { entry := ⟨0⟩ } := rfl
  exact (Expr.IsArithmetic.arithmetic (.const rfl) (.const rfl) hmake).negate hnegate

theorem run_code_pushes_value_sum :
    ∃ read : String → Value, sumTree.value? = none ∧
      Calculator.folding.run (fun _ => .int 5) ((sumTree.code {}).map (.reread read)) [.int 0] =
        some [.int 6, .int 0] ∧
      ∀ store, Calculator.folding.run store ((negatedTree.code {}).map (.reread read)) [] =
      some [.int 1] := by
  have hmake : Expr.arithmetic .add (.var ⟨0⟩ .int) negatedTree 1 = .ok sumTree := rfl
  have hsum : sumTree.IsArithmetic := .arithmetic .var isArithmetic_negatedTree hmake
  obtain ⟨read, hread⟩ := Value.exists_reader
  have hints {vs : List Value} (hvs : ∀ v ∈ vs, v.dataType = .int) :
      ∀ v ∈ vs, read v.text = v := by
    intro v hv
    cases v <;> cases hvs _ hv
    exact hread _ trivial
  refine ⟨read, rfl, ?_, fun store => ?_⟩
  · exact (run_code_pushes_value .folding {} hsum (hints (by decide)) _ _).1.trans rfl
  · exact ((run_code_pushes_value .folding {} isArithmetic_negatedTree
      (hints (by decide)) store []).2.2 (.int 1) rfl).2

def floatSumTree : Expr :=
  .arith .add (.const (.float 1e16)) (.const (.int 1)) .float (some (.float (1e16 + 1)))

def intSumTree : Expr :=
  .arith .add (.const (.int 10000000000000000)) (.const (.int 1)) .int
  (some (.int 10000000000000001))

/-- From `10 ^ 16` on, a whole float is written like an integer. A sum with such a float and a sum
of integers have the same text and different values, and whatever runs that text misses one of them.
-/
theorem large_floats_written_as_integers :
    ¬ ∃ run : List String → Option Value, ∀ (e : Expr) (v : Value), e.IsArithmetic →
      e.value? = some v → run ((e.code {}).map Instr.text) = some v := by
  rintro ⟨run, hrun⟩
  have hfloat : Expr.arithmetic .add (.const (.float 1e16)) (.const (.int 1)) 1 =
      .ok floatSumTree := by
    rfl
  have hint : Expr.arithmetic .add (.const (.int 10000000000000000)) (.const (.int 1)) 1 =
    .ok intSumTree := rfl
  have htext : (floatSumTree.code {}).map Instr.text = (intSumTree.code {}).map Instr.text := by
    decide +kernel
  have hrun' := hrun floatSumTree _ (.arithmetic (.const rfl) (.const rfl) hfloat) rfl
  rw [htext, hrun intSumTree _ (.arithmetic (.const rfl) (.const rfl) hint) rfl] at hrun'
  cases hrun'

end TurtleCompiler
