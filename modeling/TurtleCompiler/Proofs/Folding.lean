import TurtleCompiler.Proofs.Outcome

/-!
Types and constants. Arithmetic on constants and every check of types fail with errors of the source
only, on the line that is checked.
-/

namespace TurtleCompiler

theorem except_bind_eq_error {x : Except ε α} {f : α → Except ε β} {e : ε} :
    (x >>= f) = .error e ↔ x = .error e ∨ ∃ a, x = .ok a ∧ f a = .error e := by
  cases x <;> simp [bind, Except.bind]

def Error.IsTypeAt (line : Nat) (e : Error) : Prop := ∃ fault, e = .type line fault

variable {line : Nat} {e error : Error}

theorem Error.IsTypeAt.isOfSource (h : e.IsTypeAt line) : e.IsOfSource := by
  obtain ⟨fault, rfl⟩ := h
  trivial

def IsNumber (line : Nat) : Except Error Value → Prop
  | .ok v => v.toFloat?.isSome
  | .error e => e.IsTypeAt line

theorem isNumber_checked (line : Nat) (v : Int) : IsNumber line (checked line v) := by
  unfold checked
  split
  · exact rfl
  · exact ⟨_, rfl⟩

theorem isNumber_finite (line : Nat) (v : Float) : IsNumber line (finite line v) := by
  unfold finite
  split
  · exact rfl
  · exact ⟨_, rfl⟩

theorem isNumber_foldPower (line : Nat) (l : Int) (e : Nat) :
    IsNumber line (foldPower line l e) := by
  unfold foldPower
  split
  · exact ⟨_, rfl⟩
  split
  · split
    · exact ⟨_, rfl⟩
    · exact isNumber_checked line _
  · exact isNumber_checked line _

theorem isNumber_foldInt (line : Nat) (l r : Int) (op : ArithOp) :
    IsNumber line (foldInt line l r op) := by
  cases op with
  | add | sub | mul => exact isNumber_checked line _
  | div =>
    simp only [foldInt]
    split
    · exact ⟨_, rfl⟩
    · exact rfl
  | mod =>
    simp only [foldInt]
    split
    · exact ⟨_, rfl⟩
    split
    · exact ⟨_, rfl⟩
    · exact isNumber_checked line _
  | pow =>
    simp only [foldInt]
    split
    · exact rfl
    · exact isNumber_foldPower line l _

theorem isNumber_foldFloat (line : Nat) (l r : Float) (op : ArithOp) :
    IsNumber line (foldFloat line l r op) := by
  cases op with
  | add | sub | mul | pow => exact isNumber_finite line _
  | div | mod =>
    simp only [foldFloat]
    split
    · exact ⟨_, rfl⟩
    · exact isNumber_finite line _

theorem isNumber_fold (line : Nat) (op : ArithOp) {x y : Value} (hx : x.toFloat?.isSome)
    (hy : y.toFloat?.isSome) : IsNumber line (fold line op x y) := by
  cases x with
  | int l =>
    cases y with
    | int r => exact isNumber_foldInt line _ _ op
    | float r => exact isNumber_foldFloat line _ _ op
    | bool | str => simp [Value.toFloat?] at hy
  | float l =>
    cases y with
    | int | float => exact isNumber_foldFloat line _ _ op
    | bool | str => simp [Value.toFloat?] at hy
  | bool | str => simp [Value.toFloat?] at hx

namespace Expr

def IsFoldable (e : Expr) : Prop := e.dataType.isNumeric → ∀ v ∈ e.value?, v.toFloat?.isSome

theorem isFoldable_const (v : Value) : (const v).IsFoldable := by
  intro hnumeric w hw
  obtain rfl : v = w := by simpa [value?] using hw
  cases v <;> simp_all [dataType, Value.dataType, DataType.isNumeric, Value.toFloat?]

theorem isFoldable_cond (c : Cond) : (cond c).IsFoldable := by
  simp [IsFoldable, dataType, DataType.isNumeric]

theorem isFoldable_of_value? {e : Expr} (h : e.value? = none) : e.IsFoldable := by
  simp [IsFoldable, h]

variable {e : Error} {line : Nat} {op : ArithOp} {l r : Expr}

theorem isTypeAt_checkNumeric {type : DataType} (h : checkNumeric line type = .error e) :
    e.IsTypeAt line := by
  unfold checkNumeric at h
  split at h <;> simp at h
  exact ⟨_, h.symm⟩

theorem arithmetic_eq_error (h : Expr.arithmetic op l r line = .error e) :
    e.IsTypeAt line ∨ l.dataType.isNumeric ∧ r.dataType.isNumeric ∧
      ∃ x ∈ l.value?, ∃ y ∈ r.value?, fold line op x y = .error e := by
  simp only [Expr.arithmetic, except_bind_eq_error, checkNumeric_eq_ok] at h
  rcases h with h | ⟨_, hl, h | ⟨_, hr, h⟩⟩
  · exact .inl (isTypeAt_checkNumeric h)
  · exact .inl (isTypeAt_checkNumeric h)
  · split at h
    · rename_i x y hx hy
      refine .inr ⟨hl, hr, x, hx, y, hy, ?_⟩
      cases hv : fold line op x y with
      | ok v => simp [hv, Functor.map, Except.map, bind, Except.bind, pure, Except.pure] at h
      | error e' => simpa [hv, Functor.map, Except.map, bind, Except.bind] using h
    · simp [pure, Except.pure, bind, Except.bind] at h

theorem isTypeAt_arithmetic (hl : l.IsFoldable) (hr : r.IsFoldable)
    (h : Expr.arithmetic op l r line = .error e) : e.IsTypeAt line := by
  rcases arithmetic_eq_error h with h | ⟨hl', hr', x, hx, y, hy, h⟩
  · exact h
  · have hfold := isNumber_fold line op (hl hl' x hx) (hr hr' y hy)
    rwa [h] at hfold

theorem isFoldable_arithmetic {e : Expr} (hl : l.IsFoldable) (hr : r.IsFoldable)
    (h : Expr.arithmetic op l r line = .ok e) : e.IsFoldable := by
  obtain ⟨hl', hr', value, rfl, ⟨rfl, -⟩ | ⟨x, y, v, hx, hy, hv, rfl⟩⟩ :=
    Expr.arithmetic_eq_ok h
  · exact isFoldable_of_value? rfl
  · intro _ w hw
    obtain rfl : v = w := by simpa [value?] using hw
    have hfold := isNumber_fold line op (hl hl' x hx) (hr hr' y hy)
    rwa [hv] at hfold

end Expr

theorem Cond.isTypeAt_ofExpr {e : Expr} (h : Cond.ofExpr line e = .error error) :
    error.IsTypeAt line := by
  cases e <;> simp [Cond.ofExpr] at h <;> exact ⟨_, h.symm⟩

theorem Cond.isTypeAt_rejectBool {type : DataType} (h : Cond.rejectBool line type = .error e) :
    e.IsTypeAt line := by
  unfold Cond.rejectBool at h
  split at h <;> simp at h
  exact ⟨_, h.symm⟩

theorem Cond.isTypeAt_comparison {op : RelOp} {l r : Expr}
    (h : Cond.comparison op l r line = .error e) : e.IsTypeAt line := by
  simp only [Cond.comparison, except_bind_eq_error] at h
  rcases h with h | ⟨_, -, h | ⟨_, -, h⟩⟩
  · exact isTypeAt_rejectBool h
  · exact isTypeAt_rejectBool h
  · simp only [bind, Except.bind, pure, Except.pure, throw, throwThe, MonadExceptOf.throw] at h
    repeat' split at h
    all_goals simp at h
    all_goals exact ⟨_, h.symm⟩

theorem Cond.isTypeAt_combination {op : LogicOp} {l r : Expr} {skip : Label}
    (h : Cond.combination op l r skip line = .error e) : e.IsTypeAt line := by
  simp only [Cond.combination, except_bind_eq_error] at h
  rcases h with h | ⟨_, -, h | ⟨_, -, h⟩⟩
  · exact isTypeAt_ofExpr h
  · exact isTypeAt_ofExpr h
  · simp [pure, Except.pure] at h

theorem Cond.isTypeAt_negation {e : Expr} (h : Cond.negation e line = .error error) :
    error.IsTypeAt line := by
  simp only [Cond.negation, except_bind_eq_error] at h
  rcases h with h | ⟨_, -, h⟩
  · exact isTypeAt_ofExpr h
  · simp [pure, Except.pure] at h

end TurtleCompiler
