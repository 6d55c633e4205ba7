import TurtleCompiler.Proofs.Folding

/-!
Types and constants of trees. The constant of a tree has its type, but that an integer tree with a
quotient or a power in it may be a float.
-/

namespace TurtleCompiler

theorem dataType_foldInt {line : Nat} {l r : Int} {op : ArithOp} {v : Value}
    (h : foldInt line l r op = .ok v) :
    v.dataType = .int ∨ v.dataType = .float ∧ (op = .div ∨ op = .pow) := by
  have hchecked {x : Int} (h : checked line x = .ok v) : v.dataType = .int := by
    unfold checked at h
    split at h
    · exact Except.ok.inj h ▸ rfl
    · simp at h
  cases op with
  | add | sub | mul => exact .inl (hchecked h)
  | div =>
    simp only [foldInt] at h
    split at h
    · simp at h
    · exact .inr ⟨Except.ok.inj h ▸ rfl, .inl rfl⟩
  | mod =>
    simp only [foldInt] at h
    split at h
    · simp at h
    split at h
    · simp at h
    · exact .inl (hchecked h)
  | pow =>
    simp only [foldInt, foldPower] at h
    repeat' split at h
    · exact .inr ⟨Except.ok.inj h ▸ rfl, .inr rfl⟩
    · simp at h
    · simp at h
    all_goals exact .inl (hchecked h)

theorem dataType_foldFloat {line : Nat} {l r : Float} {op : ArithOp} {v : Value}
    (h : foldFloat line l r op = .ok v) : v.dataType = .float := by
  have hfinite {x : Float} (h : finite line x = .ok v) : v.dataType = .float := by
    unfold finite at h
    split at h
    · exact Except.ok.inj h ▸ rfl
    · simp at h
  cases op with
  | add | sub | mul | pow => exact hfinite h
  | div | mod =>
    simp only [foldFloat] at h
    split at h
    · simp at h
    · exact hfinite h

theorem dataType_fold {line : Nat} {op : ArithOp} {x y v : Value} (h : fold line op x y = .ok v) :
    x.dataType = .int ∧ y.dataType = .int ∧
      (v.dataType = .int ∨ v.dataType = .float ∧ (op = .div ∨ op = .pow)) ∨
      (x.dataType = .float ∨ y.dataType = .float) ∧ v.dataType = .float := by
  cases x with
  | int l =>
    cases y with
    | int r => exact .inl ⟨rfl, rfl, dataType_foldInt h⟩
    | float r => exact .inr ⟨.inr rfl, dataType_foldFloat h⟩
    | bool | str => simp [fold, Value.toFloat?] at h
  | float l =>
    cases y with
    | int | float => exact .inr ⟨.inl rfl, dataType_foldFloat h⟩
    | bool | str => simp [fold, Value.toFloat?] at h
  | bool | str => simp [fold, Value.toFloat?] at h

namespace DataType

variable {a b : DataType}

theorem unify_eq_float : a.unify b = .float ↔ a = .float ∨ b = .float := by
  cases a <;> cases b <;> decide

theorem unify_eq_int : a.unify b = .int ↔ a ≠ .float ∧ b ≠ .float := by
  cases a <;> cases b <;> decide

end DataType

namespace Expr

inductive IsMade : Expr → Prop
  | const : IsMade (.const v)
  | var : IsMade (.var symbol type)
  | call : IsMade (.call callee args type)
  | cond : IsMade (.cond c)
  | arithmetic (hl : IsMade l) (hr : IsMade r) (h : Expr.arithmetic op l r line = .ok e) : IsMade e

def operators : Expr → List ArithOp
  | .arith op l r _ _ => op :: (l.operators ++ r.operators)
  | .const _ | .var .. | .call .. | .cond _ => []

def MayFloat (e : Expr) : Prop := .div ∈ e.operators ∨ .pow ∈ e.operators

theorem mayFloat_arith {op : ArithOp} {l r : Expr} {type : DataType} {value : Option Value} :
    (arith op l r type value).MayFloat ↔ op = .div ∨ op = .pow ∨ l.MayFloat ∨
    r.MayFloat := by
  simp only [MayFloat, operators, List.mem_cons, List.mem_append, @eq_comm _ _ op]
  tauto

theorem IsMade.dataType_value {e : Expr} (he : e.IsMade) {v : Value} (hv : e.value? = some v) :
    v.dataType = e.dataType ∨ e.dataType = .int ∧ v.dataType = .float ∧ e.MayFloat := by
  induction he generalizing v with
  | const => exact .inl (Option.some.inj hv ▸ rfl)
  | var | call => simp [value?] at hv
  | cond =>
    obtain ⟨b, -, rfl⟩ := Option.map_eq_some_iff.1 hv
    exact .inl rfl
  | @arithmetic l r op line e _ _ h ihl ihr =>
    obtain ⟨hl, hr, value, rfl, ⟨rfl, -⟩ | ⟨x, y, w, hx, hy, hfold, rfl⟩⟩ :=
      Expr.arithmetic_eq_ok h
    · simp [value?] at hv
    obtain rfl : w = v := Option.some.inj hv
    have hx := ihl hx
    have hy := ihr hy
    rw [mayFloat_arith, dataType]
    by_cases hfloat : l.dataType = .float ∨ r.dataType = .float
    · have hunify : l.dataType.unify r.dataType = .float := DataType.unify_eq_float.2 hfloat
      rcases dataType_fold hfold with ⟨hxint, hyint, -⟩ | ⟨-, hw⟩
      · -- a float operand has no integer constant
        grind
      · exact .inl (hw.trans hunify.symm)
    · obtain ⟨hlint, hrint⟩ :
          l.dataType ≠ .float ∧ r.dataType ≠ .float := not_or.1 hfloat
      have hunify : l.dataType.unify r.dataType = .int := DataType.unify_eq_int.2 ⟨hlint, hrint⟩
      rcases dataType_fold hfold with ⟨-, -, hw | ⟨hw, hop⟩⟩ | ⟨hxy, hw⟩
      · exact .inl (hw.trans hunify.symm)
      · exact .inr ⟨hunify, hw, or_assoc.1 (.inl hop)⟩
      · -- an integer operand that has a float constant was computed as one
        have hmay : l.MayFloat ∨ r.MayFloat := by grind
        exact .inr ⟨hunify, hw, .inr (.inr hmay)⟩

theorem IsMade.isFoldable {e : Expr} (he : e.IsMade) : e.IsFoldable := by
  intro hnumeric v hv
  rcases he.dataType_value hv with htype | ⟨-, htype, -⟩
  · rw [← htype] at hnumeric
    cases v <;> simp_all [Value.dataType, DataType.isNumeric, Value.toFloat?]
  · cases v <;> simp_all [Value.dataType, Value.toFloat?]

end Expr

/-- Only an integer tree may have a constant of another type, which is then a float, and the tree
has a quotient or a power in it. Hence arithmetic on two trees fails with a type error of its line
or not at all; it never finds constants that it has no result for. -/
theorem value_of_static_type :
    (∀ e : Expr, e.IsMade → ∀ v, e.value? = some v →
      (e.dataType = .float → v.dataType = .float) ∧
      (e.dataType = .bool ↔ v.dataType = .bool) ∧ (e.dataType = .str ↔ v.dataType = .str) ∧
      (e.dataType = .int → v.dataType = .int ∨ v.dataType = .float ∧
        (.div ∈ e.operators ∨ .pow ∈ e.operators))) ∧
    ∀ l r : Expr, l.IsMade → r.IsMade →
      ∀ op line error, Expr.arithmetic op l r line = .error error →
      error.IsTypeAt line ∧ ∀ fault, error ≠ .defect fault := by
  refine ⟨fun e he v hv => ?_, fun l r hl hr op line error h => ?_⟩
  · rcases he.dataType_value hv with htype | ⟨hint, hfloat, hmay⟩
    · rw [htype]
      exact ⟨id, Iff.rfl, Iff.rfl, .inl⟩
    · rw [hint, hfloat]
      exact ⟨by decide, by decide, by decide, fun _ => .inr ⟨rfl, hmay⟩⟩
  · obtain ⟨fault, rfl⟩ := Expr.isTypeAt_arithmetic hl.isFoldable hr.isFoldable h
    exact ⟨⟨fault, rfl⟩, by simp⟩

theorem value_of_static_type_quotient :
    ∃ e v, Expr.arithmetic .div (.const (.int 7)) (.const (.int 2)) 1 = .ok e ∧
      e.value? = some v ∧ e.dataType = .int ∧
      (v.dataType = .int ∨ v.dataType = .float ∧
        (.div ∈ e.operators ∨ .pow ∈ e.operators)) ∧
      ∃ error, Expr.arithmetic .mod e (.const (.int 0)) 3 = .error error ∧
      error.IsTypeAt 3 := by
  obtain ⟨e, hmake, htype, v, hvalue, error, herror⟩ :
      ∃ e, Expr.arithmetic .div (.const (.int 7)) (.const (.int 2)) 1 = .ok e ∧
        e.dataType = .int ∧ ∃ v, e.value? = some v ∧
        ∃ error, Expr.arithmetic .mod e (.const (.int 0)) 3 = .error error :=
    ⟨_, rfl, rfl, _, rfl, _, rfl⟩
  have he : e.IsMade := .arithmetic .const .const hmake
  exact ⟨e, v, hmake, hvalue, htype, (value_of_static_type.1 e he v hvalue).2.2.2 htype,
    error, herror, (value_of_static_type.2 e _ he .const .mod 3 error herror).1⟩

end TurtleCompiler
