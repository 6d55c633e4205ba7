import TurtleCompiler.Proofs.NearestFloat
import TurtleCompiler.Proofs.Origins

/-!
Constants without a finite value. What nobody checks are the floats of literals and the powers of
integers with negative exponents.
-/

namespace TurtleCompiler

open Float.Model UnpackedFloat

def Below (b : Int) : UnpackedFloat → Prop
  | .zero _ => True
  | .finite _ _ e _ => e ≤ b
  | .infinity _ | .notANumber => False

theorem isFinite_unpack {b : BitVec Format.binary64.numBits} (h : unpackExponent b ≠ -1#11) :
    (unpack .binary64 b).isFinite := by
  unfold UnpackedFloat.unpack
  dsimp only
  rw [if_neg h]
  split_ifs <;> rfl

theorem isFinite_pack {u : UnpackedFloat} (h : Below 971 u) : (Float.Model.pack u).isFinite := by
  cases u with
  | zero s => cases s <;> rfl
  | infinity | notANumber => exact h.elim
  | finite s m e hpos =>
    have he : e ≤ 971 := h
    have hbias : (e + (Format.binary64.exponentBias : Nat) + (52 : Nat)).toNat =
        (e + 1075).toNat := by
      have : ((Format.binary64.exponentBias : Nat) : Int) = 1023 := by decide
      omega
    have hexp : BitVec.ofNat 11 (e + 1075).toNat ≠ -1#11 := by
      intro h
      have hnat := congrArg BitVec.toNat h
      rw [BitVec.toNat_ofNat, Nat.mod_eq_of_lt (by omega)] at hnat
      have : (-1#11).toNat = 2047 := by decide
      omega
    change (unpack .binary64 (UnpackedFloat.pack .binary64 _)).isFinite = true
    unfold UnpackedFloat.pack
    dsimp only
    rw [hbias, if_neg (by omega)]
    split
    · refine isFinite_unpack ?_
      rwa [unpackExponent_packComponents]
    · refine isFinite_unpack ?_
      rw [unpackExponent_packComponents]
      decide

theorem mantissa_shiftRight_le (em : ExtendedMantissa) (k : Nat) :
    (em >>> k).mantissa ≤ em.mantissa := by
  change (k.repeat ExtendedMantissa.shiftRightOne em).mantissa ≤ _
  induction k with
  | zero => exact Nat.le_refl _
  | succ k ih => exact (Nat.div_le_self _ _).trans ih

theorem shiftToTargetExponent_le {m b : Nat} (hm : m < 2 ^ b) (hb : 0 < b) (e : Int)
    (accuracy : Accuracy) :
    (shiftToTargetExponent .binary64 m e accuracy).1.mantissa ≤ m ∧
      (shiftToTargetExponent .binary64 m e accuracy).2 ≤ max e (max (b + e - 53) (-1074)) := by
  have hlog : m.log2 + 1 ≤ b := by
    rcases m.eq_zero_or_pos with rfl | hpos
    · exact hb
    · exact (Nat.log2_lt hpos.ne').2 hm
  have hbits : ((Format.binary64.mantissaBits : Nat) : Int) = 53 := by decide
  have hmin : Format.binary64.minExponent = -1074 := by decide
  unfold shiftToTargetExponent shiftToExponent
  dsimp only
  constructor
  · refine (mantissa_shiftRight_le _ _).trans (Nat.le_of_eq ?_)
    unfold ExtendedMantissa.ofMantissaAndAccuracy
    split <;> rfl
  · rw [Format.targetExponent, totalExponent, hbits, hmin]
    omega

theorem roundedMantissa_le (em : ExtendedMantissa) : em.roundedMantissa ≤ em.mantissa + 1 := by
  unfold ExtendedMantissa.roundedMantissa Accuracy.roundToNearestEven
  split <;> omega

theorem below_roundWithAccuracy (s : UnpackedFloat.Sign) {m : Nat} {e : Int} (hm : m < 2 ^ 200)
    (he : e ≤ 200) (accuracy : Accuracy) :
    Below 971 (roundWithAccuracy .binary64 s m e accuracy) := by
  obtain ⟨hm₁, he₁⟩ := shiftToTargetExponent_le hm (by decide) e accuracy
  unfold roundWithAccuracy
  generalize shiftToTargetExponent .binary64 m e accuracy = first at hm₁ he₁
  obtain ⟨em₁, e₁⟩ := first
  dsimp only at hm₁ he₁
  have hround := roundedMantissa_le em₁
  obtain ⟨-, he₂⟩ :=
    shiftToTargetExponent_le (m := em₁.roundedMantissa) (b := 201) (by omega)
    (by decide) e₁ .exact
  dsimp only at he₂ ⊢
  split
  · trivial
  · change _ ≤ (971 : Int)
    omega

theorem natAbs_nearestInt (z : Int) : (nearestInt z).natAbs = nearest z.natAbs := by
  rcases eq_or_ne z 0 with rfl | hz
  · rfl
  · rw [nearestInt, Int.natAbs_mul, Int.natAbs_sign_of_ne_zero hz, Int.natAbs_natCast, Nat.one_mul]

theorem unpack_ofInt_cases (v : Int64) :
    v.toInt = 0 ∧ (∃ s, (Float.ofInt v.toInt).toModel.unpack = .zero s) ∨
    ∃ s m k hm, (Float.ofInt v.toInt).toModel.unpack = .finite s m ((k : Nat) - 52) hm ∧
    m.log2 = 52 ∧ k ≤ 64 := by
  have hmin := v.le_toInt
  have hmax := v.toInt_lt
  have hnearest : (nearestInt v.toInt).natAbs ≤ 2 ^ 64 := by
    rw [natAbs_nearestInt]
    have hle : nearest v.toInt.natAbs ≤ nearest (2 ^ 63) := nearest_mono (by omega)
    exact hle.trans (nearest_bounds (b := 63) (by decide) (by decide)).2
  have hscaled {n m k : Nat} (h : Scaled n m k) (hn : n ≤ 2 ^ 64) : m.log2 = 52 ∧ k ≤ 64 := by
    refine ⟨(Nat.log2_eq_iff (by have := h.low; omega)).2 ⟨h.low, h.high⟩, ?_⟩
    have hle : 2 ^ 52 * 2 ^ k ≤ 2 ^ 52 * 2 ^ 64 := by
      calc 2 ^ 52 * 2 ^ k ≤ m * 2 ^ k := Nat.mul_le_mul_right _ h.low
        _ = n * 2 ^ 52 := h.value.symm
        _ ≤ 2 ^ 52 * 2 ^ 64 := by omega
    exact (Nat.pow_le_pow_iff_right (by decide)).1 (Nat.le_of_mul_le_mul_left hle (by decide))
  have hinteger := isInteger_ofInt v
  generalize hz : nearestInt v.toInt = z at hinteger hnearest
  generalize (Float.ofInt v.toInt).toModel.unpack = u at hinteger
  cases hinteger with
  | zero =>
    refine .inl ⟨?_, _, rfl⟩
    have hzero : nearest v.toInt.natAbs = 0 := by rw [← natAbs_nearestInt, hz, Int.natAbs_zero]
    by_contra hne
    have hpos : v.toInt.natAbs ≠ 0 := by omega
    have := (nearest_bounds (Nat.log2_self_le hpos) Nat.lt_log2_self).1
    have := Nat.two_pow_pos v.toInt.natAbs.log2
    omega
  | positive h | negative h => exact .inr ⟨_, _, _, _, rfl, hscaled h (by omega)⟩

theorem isFinite_quotient (l : Int64) {r : Int64} (hr : r.toInt ≠ 0) :
    (Float.ofInt l.toInt / Float.ofInt r.toInt).isFinite := by
  change (Float.Model.pack (div .binary64 (Float.ofInt l.toInt).toModel.unpack
    (Float.ofInt r.toInt).toModel.unpack)).isFinite = true
  refine isFinite_pack ?_
  obtain ⟨s', m', k', hm', hv, hlog', hk'⟩ :=
    (unpack_ofInt_cases r).resolve_left fun h => hr h.1
  rcases unpack_ofInt_cases l with ⟨-, s, hu⟩ | ⟨s, m, k, hm, hu, hlog, hk⟩
  · rw [hu, hv]
    trivial
  · have hbits : ((Format.binary64.mantissaBits : Nat) : Int) = 53 := by decide
    have hmin : Format.binary64.minExponent = -1074 := by decide
    have hlt : m < 2 ^ 53 := (Nat.log2_lt hm.ne').1 (by omega)
    rw [hu, hv, UnpackedFloat.div, divCore, Format.targetExponent, totalExponent, totalExponent,
      hlog, hlog', hbits, hmin]
    refine below_roundWithAccuracy _ ?_ (by omega) _
    refine Nat.lt_of_le_of_lt (Nat.div_le_self _ _) ?_
    rw [Nat.shiftLeft_eq]
    calc m * 2 ^ _ < 2 ^ 53 * 2 ^ 53 :=
      Nat.mul_lt_mul_of_lt_of_le hlt (Nat.pow_le_pow_right (by decide) (by omega)) (by decide)
      _ ≤ 2 ^ 200 := by decide

def Value.IsFinite : Value → Prop
  | .float x => x.isFinite
  | .int _ | .bool _ | .str _ => True

def isReciprocal : ArithOp → Option Value → Option Value → Bool
  | .pow, some (.int _), some (.int r) => r.toInt < 0
  | _, _, _ => false

section Fold

variable {line : Nat} {v : Value} {op : ArithOp}

theorem isFinite_of_checked {x : Int} (h : checked line x = .ok v) : v.IsFinite := by
  unfold checked at h
  split at h
  · cases h
    trivial
  · cases h

theorem isFinite_of_finite {x : Float} (h : finite line x = .ok v) : v.IsFinite := by
  unfold finite at h
  split at h
  · cases h
    assumption
  · cases h

theorem isFinite_of_foldPower {l : Int} {e : Nat} (h : foldPower line l e = .ok v) :
    v.IsFinite := by
  unfold foldPower at h
  split_ifs at h <;> exact isFinite_of_checked h

theorem isFinite_of_foldFloat {x y : Float} (h : foldFloat line x y op = .ok v) : v.IsFinite := by
  cases op with
  | add | sub | mul | pow => exact isFinite_of_finite h
  | div | mod =>
    simp only [foldFloat] at h
    split at h
    · cases h
    · exact isFinite_of_finite h

theorem isFinite_of_fold {x y : Value} (h : fold line op x y = .ok v) :
    v.IsFinite ∨ isReciprocal op (some x) (some y) := by
  unfold fold at h
  split at h
  · rename_i l r
    cases op with
    | add | sub | mul => exact .inl (isFinite_of_checked h)
    | div =>
      simp only [foldInt] at h
      split at h
      · cases h
      · cases h
        exact .inl (isFinite_quotient l ‹_›)
    | mod =>
      simp only [foldInt] at h
      split_ifs at h
      exact .inl (isFinite_of_checked h)
    | pow =>
      simp only [foldInt] at h
      split_ifs at h with hr
      · exact .inr (decide_eq_true hr)
      · exact .inl (isFinite_of_foldPower h)
  · split at h
    · exact .inl (isFinite_of_foldFloat h)
    · cases h

end Fold

namespace Expr

def unchecked : Expr → List Value
  | .const v => [v]
  | .arith op l r _ value =>
    l.unchecked ++ r.unchecked ++ if isReciprocal op l.value? r.value? then value.toList else []
  | .var .. | .call .. | .cond _ => []

inductive Built : Expr → Prop
  | number : Lowering.number text line s = .ok e s' → Built e
  | binary : Built l → Built r → Lowering.arithmetic op l r line s = .ok e s' → Built e
  | negate : Built e → Lowering.negate e line s = .ok e' s' → Built e'

theorem unchecked_subset : (e : Expr) → e.unchecked ⊆ e.constants
  | .const _ => List.Subset.refl _
  | .arith op l r _ value => by
    intro v hv
    simp only [unchecked, constants, List.mem_append] at hv ⊢
    refine hv.imp (Or.imp (l.unchecked_subset ·) (r.unchecked_subset ·)) fun hv => ?_
    split at hv
    · exact hv
    · exact absurd hv List.not_mem_nil
  | .var .. | .call .. | .cond _ => List.nil_subset _

theorem isFinite_or_unchecked_arithmetic {op : ArithOp} {l r e : Expr} {line : Nat}
    (hl : ∀ v ∈ l.constants, v.IsFinite ∨ v ∈ l.unchecked)
    (hr : ∀ v ∈ r.constants, v.IsFinite ∨ v ∈ r.unchecked)
    (h : Expr.arithmetic op l r line = .ok e) :
    ∀ v ∈ e.constants, v.IsFinite ∨ v ∈ e.unchecked := by
  obtain ⟨-, -, value, rfl, hvalue⟩ := Expr.arithmetic_eq_ok h
  intro v hv
  simp only [constants, unchecked, List.mem_append] at hv ⊢
  rcases hv with (hv | hv) | hv
  · exact (hl v hv).imp_right fun hv => .inl (.inl hv)
  · exact (hr v hv).imp_right fun hv => .inl (.inr hv)
  · obtain ⟨rfl, -⟩ | ⟨x, y, w, hx, hy, hfold, rfl⟩ := hvalue
    · simp at hv
    · obtain rfl : v = w := by simpa using hv
      rw [hx, hy]
      refine (isFinite_of_fold hfold).imp_right fun hop => .inr ?_
      rwa [if_pos hop]

variable {e : Expr}

theorem Built.isFinite_or_unchecked (h : e.Built) :
    ∀ v ∈ e.constants, v.IsFinite ∨ v ∈ e.unchecked := by
  induction h with
  | number h =>
    obtain ⟨-, v, rfl, -⟩ := Lowering.number_eq_ok h
    exact fun _ => .inr
  | binary _ _ h ihl ihr =>
    obtain ⟨-, op, -, h⟩ := Lowering.arithmetic_eq_ok h
    exact isFinite_or_unchecked_arithmetic ihl ihr h
  | negate _ h ih =>
    exact isFinite_or_unchecked_arithmetic (fun _ => .inr) ih (Lowering.negate_eq_ok h).2

theorem value?_mem_constants (h : e.Built) : ∀ v ∈ e.value?, v ∈ e.constants := by
  cases h with
  | number h =>
    obtain ⟨-, v, rfl, -⟩ := Lowering.number_eq_ok h
    simp [value?]
  | binary _ _ h =>
    obtain ⟨-, op, -, h⟩ := Lowering.arithmetic_eq_ok h
    obtain ⟨-, -, value, rfl, -⟩ := Expr.arithmetic_eq_ok h
    simp +contextual [value?]
  | negate _ h =>
    obtain ⟨-, -, value, rfl, -⟩ := Expr.arithmetic_eq_ok (Lowering.negate_eq_ok h).2
    simp +contextual [value?]

end Expr

/-- The value of an expression is among its constants. They are all finite if and only if those are
that nobody checks. -/
theorem finite_constants_iff {e : Expr} (h : e.Built) : (∀ v ∈ e.value?, v ∈ e.constants) ∧
    ((∀ v ∈ e.constants, v.IsFinite) ↔ ∀ v ∈ e.unchecked, v.IsFinite) := by
  refine ⟨e.value?_mem_constants h, fun hall v hv => hall v (e.unchecked_subset hv),
    fun hall v hv => ?_⟩
  exact (h.isFinite_or_unchecked v hv).elim id (hall v)

theorem finite_constants_iff_quotient :
    ∃ e : Expr, e.Built ∧ (∃ x, e.value? = some (.float x)) ∧
    ∀ v ∈ e.constants, v.IsFinite := by
  let s : Lowering := { entry := ⟨0⟩ }
  have hl : Lowering.number "7" 1 s = .ok (.const (.int 7)) s := rfl
  have hr : Lowering.number "2" 1 s = .ok (.const (.int 2)) s := rfl
  let half : Expr :=
    .arith .div (.const (.int 7)) (.const (.int 2)) .int
    (some (.float (Float.ofInt 7 / Float.ofInt 2)))
  have hhalf : Lowering.arithmetic "/" (.const (.int 7)) (.const (.int 2)) 1 s = .ok half s := rfl
  let minus : Expr := .arith .mul (.const (.int (-1))) half .int
    (some (.float (Float.ofInt (-1) * (Float.ofInt 7 / Float.ofInt 2))))
  have hminus : Lowering.negate half 1 s = .ok minus s := rfl
  have hbuilt : minus.Built := .negate (.binary (.number hl) (.number hr) hhalf) hminus
  have hunchecked : minus.unchecked = [.int (-1), .int 7, .int 2] := rfl
  refine ⟨minus, hbuilt, ⟨_, rfl⟩, (finite_constants_iff hbuilt).2.2 ?_⟩
  simp [hunchecked, Value.IsFinite]

def hugeText : String := String.ofList ('1' :: List.replicate 309 '0' ++ ".0".toList)

theorem number_of_decimal {text : String} {d : Decimal} (hpoint : '.' ∈ text.toList)
    (hsign : Numeral.sign text.toList = (false, text.toList))
    (hd : Numeral.decimal? text.toList = some d) (line : Nat)
    (s : Lowering) : Lowering.number text line s = .ok (.const (.float (Numeral.nearest d))) s := by
  have hfloat : Numeral.float? text.toList = some (Numeral.nearest d) := by
    simp only [Numeral.float?, hsign, hd]
    rfl
  simp only [Lowering.number, if_pos hpoint, hfloat]
  rfl

/-- A literal beyond the range of floats is taken for infinity. -/
theorem literal_beyond_range : ∃ e : Expr, e.Built ∧ ∃ v ∈ e.value?, ¬ v.IsFinite := by
  have htext : hugeText.toList = '1' :: List.replicate 309 '0' ++ ".0".toList :=
    String.toList_ofList ..
  have hpoint : '.' ∈ hugeText.toList := htext ▸ List.mem_append_right _ (by decide)
  have hsign : Numeral.sign hugeText.toList = (false, hugeText.toList) := by
    rw [htext]
    rfl
  have hdecimal : Numeral.decimal? hugeText.toList = some ⟨10 ^ 310, -1⟩ := by
    rw [htext]
    decide +kernel
  have hinfinite : (Numeral.nearest ⟨10 ^ 310, -1⟩).isFinite = false := by decide +kernel
  refine ⟨_, .number (number_of_decimal hpoint hsign hdecimal 1 { entry := ⟨0⟩ }), _, rfl,
    ?_⟩
  rw [Value.IsFinite, hinfinite]
  decide

end TurtleCompiler
