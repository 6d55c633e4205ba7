import Mathlib.Algebra.Order.Ring.Int
import TurtleCompiler.Fold

/-!
Arithmetic on integer constants. Whatever comes out as an integer is exact. Where nothing comes out,
64 bits do not hold the result, with two exceptions: the least integer has no remainder by minus
one, and there is no power with an exponent of more than 32 bits, not even of a base that has only
small powers.
-/

namespace TurtleCompiler

def FitsInt64 (x : Int) : Prop := Int64.minValue.toInt ≤ x ∧ x ≤ Int64.maxValue.toInt

variable {x l : Int} {v : Int64} {line e : Nat}

theorem fitsInt64_iff : FitsInt64 x ↔ -2 ^ 63 ≤ x ∧ x < 2 ^ 63 := by
  have hmin : Int64.minValue.toInt = -2 ^ 63 := by decide
  have hmax : Int64.maxValue.toInt = 2 ^ 63 - 1 := by decide
  rw [FitsInt64, hmin, hmax]
  omega

theorem fitsInt64_toInt (v : Int64) : FitsInt64 v.toInt := ⟨v.minValue_le_toInt, v.toInt_le⟩

theorem toInt64?_eq_some : toInt64? x = some v ↔ v.toInt = x := by
  constructor
  · intro h
    unfold toInt64? at h
    split at h
    · rename_i hx
      obtain ⟨hmin, hmax⟩ := fitsInt64_iff.1 hx
      rw [← Option.some.inj h, Int64.toInt_ofInt_of_le hmin hmax]
    · simp at h
  · rintro rfl
    exact (if_pos (fitsInt64_toInt v)).trans (congrArg some v.ofInt_toInt)

theorem checked_eq_ok : checked line x = .ok (.int v) ↔ v.toInt = x := by
  rw [← toInt64?_eq_some, checked]
  split <;> simp [*]

structure IsFlooredRemainder (l r m : Int) : Prop where
  quotient : ∃ q, l = q * r + m
  sign : m = 0 ∨ m.sign = r.sign
  natAbs_lt : m.natAbs < r.natAbs

section Remainder

variable {l r : Int}

theorem natAbs_tmod_lt (hr : r ≠ 0) : (l.tmod r).natAbs < r.natAbs := by
  rw [Int.natAbs_tmod]
  exact Nat.mod_lt _ (Int.natAbs_pos.2 hr)

theorem isFlooredRemainder_intRemainder (hr : r ≠ 0) :
    IsFlooredRemainder l r (intRemainder l r) := by
  have hdiv : l.tdiv r * r + l.tmod r = l := Int.tdiv_mul_add_tmod l r
  have hlt : (l.tmod r).natAbs < r.natAbs := natAbs_tmod_lt hr
  unfold intRemainder
  dsimp only
  split
  · -- the quotient was rounded up, so it is one too many
    rename_i hsign
    refine ⟨⟨l.tdiv r - 1, by rw [Int.sub_mul]; omega⟩, .inr ?_, by omega⟩
    rcases Int.lt_or_gt_of_ne hr with hneg | hpos
    · rw [Int.sign_eq_neg_one_of_neg hneg, Int.sign_eq_neg_one_of_neg (by omega)]
    · rw [Int.sign_eq_one_of_pos hpos, Int.sign_eq_one_of_pos (by omega)]
  · rename_i hsign
    refine ⟨⟨l.tdiv r, hdiv.symm⟩, ?_, hlt⟩
    rcases Int.lt_or_gt_of_ne hr with hneg | hpos
    · rw [Int.sign_eq_neg_one_of_neg hneg, Int.sign_eq_neg_one_iff_neg]
      omega
    · rw [Int.sign_eq_one_of_pos hpos, Int.sign_eq_one_iff_pos]
      omega

theorem FitsInt64.of_natAbs_lt {m : Int} (hr : FitsInt64 r) (h : m.natAbs < r.natAbs) :
    FitsInt64 m := by
  rw [fitsInt64_iff] at *
  omega

end Remainder

theorem pow_parity (hl : l.natAbs < 2) (e : Nat) :
    l ^ (if e ≤ 2 then e else 2 - e % 2) = l ^ e := by
  split
  · rfl
  · rename_i he
    have hcases : l = 0 ∨ l = 1 ∨ l = -1 := by omega
    rcases hcases with rfl | rfl | rfl
    · rw [zero_pow (by omega), zero_pow (by omega)]
    · rw [one_pow, one_pow]
    · rcases Nat.mod_two_eq_zero_or_one e with heven | hodd
      · rw [heven, (Nat.even_iff.2 heven).neg_one_pow]
        rfl
      · rw [hodd, (Nat.odd_iff.2 hodd).neg_one_pow]
        rfl

theorem foldPower_exact (h : foldPower line l e = .ok (.int v)) : v.toInt = l ^ e := by
  unfold foldPower at h
  split at h
  · simp at h
  split at h
  · split at h
    · simp at h
    · exact checked_eq_ok.1 h
  · rename_i hl
    exact (checked_eq_ok.1 h).trans (pow_parity (Nat.not_le.1 hl) e)

def ArithOp.IsExact (l r v : Int) : ArithOp → Prop
  | .add => v = l + r
  | .sub => v = l - r
  | .mul => v = l * r
  | .div => False
  | .mod => IsFlooredRemainder l r v
  | .pow => 0 ≤ r ∧ v = l ^ r.toNat

/-- An operation on two integers that gives an integer gives the exact one. Of the two steps to a
remainder, neither overflows, whatever the operands are. -/
theorem fold_int_exact (l r : Int64) :
    (∀ line op v, fold line op (.int l) (.int r) = .ok (.int v) →
      op.IsExact l.toInt r.toInt v.toInt ∧ FitsInt64 v.toInt) ∧
    (r ≠ 0 → FitsInt64 (l.toInt.tmod r.toInt) ∧
      FitsInt64 (intRemainder l.toInt r.toInt)) := by
  refine ⟨fun line op v h => ⟨?_, fitsInt64_toInt v⟩, fun hr => ?_⟩
  · replace h : foldInt line l.toInt r.toInt op = .ok (.int v) := h
    cases op with
    | add | sub | mul => exact checked_eq_ok.1 h
    | div =>
      simp only [foldInt] at h
      split at h <;> simp at h
    | mod =>
      simp only [foldInt] at h
      split at h
      · simp at h
      split at h
      · simp at h
      rename_i hr _
      exact checked_eq_ok.1 h ▸ isFlooredRemainder_intRemainder hr
    | pow =>
      simp only [foldInt] at h
      split at h
      · simp at h
      · exact ⟨by omega, foldPower_exact h⟩
  · have hr' : r.toInt ≠ 0 := fun h => hr (Int64.toInt_inj.1 h)
    have hfits := fitsInt64_toInt r
    exact ⟨hfits.of_natAbs_lt (natAbs_tmod_lt hr'),
      hfits.of_natAbs_lt (isFlooredRemainder_intRemainder hr').natAbs_lt⟩

theorem fold_int_exact_limits :
    fold 1 .mod (.int Int64.minValue) (.int Int64.maxValue) = .ok (.int 9223372036854775806) ∧
      ArithOp.IsExact Int64.minValue.toInt Int64.maxValue.toInt 9223372036854775806 .mod ∧
      fold 1 .pow (.int (-2)) (.int 63) = .ok (.int Int64.minValue) ∧
      ArithOp.IsExact (-2) 63 Int64.minValue.toInt .pow ∧
      FitsInt64 (Int64.minValue.toInt.tmod Int64.maxValue.toInt) ∧
      FitsInt64 (intRemainder Int64.minValue.toInt Int64.maxValue.toInt) := by
  have hmod : fold 1 .mod (.int Int64.minValue) (.int Int64.maxValue) =
    .ok (.int 9223372036854775806) := by rfl
  have hpow : fold 1 .pow (.int (-2)) (.int 63) = .ok (.int Int64.minValue) := by rfl
  have hsteps := (fold_int_exact Int64.minValue Int64.maxValue).2 (by decide)
  exact ⟨hmod, ((fold_int_exact _ _).1 1 .mod _ hmod).1, hpow,
    ((fold_int_exact (-2) 63).1 1 .pow _ hpow).1, hsteps⟩

theorem toInt64?_eq_none : toInt64? x = none ↔ ¬ FitsInt64 x := by
  simp [toInt64?, FitsInt64]

theorem checked_eq_error {e : Error} :
    checked line x = .error e ↔ e = overflow line ∧ ¬ FitsInt64 x := by
  rw [← toInt64?_eq_none, checked]
  split <;> simp [*, eq_comm]

theorem not_fitsInt64_pow (hl : 2 ≤ l.natAbs) (he : 64 ≤ e) : ¬ FitsInt64 (l ^ e) := by
  have hpow : 2 ^ 64 ≤ (l ^ e).natAbs := by
    rw [Int.natAbs_pow]
    calc 2 ^ 64 ≤ 2 ^ e := Nat.pow_le_pow_right (by decide) he
      _ ≤ l.natAbs ^ e := Nat.pow_le_pow_left hl e
  rw [fitsInt64_iff]
  omega

theorem foldPower_eq_error {error : Error} :
    foldPower line l e = .error error ↔
      error = overflow line ∧
      (¬ FitsInt64 (l ^ e) ∨ l.natAbs ≤ 1 ∧ UInt32.size ≤ e) := by
  have hsize : 64 ≤ UInt32.size := by decide
  unfold foldPower
  by_cases he : UInt32.size ≤ e
  · have hcause : ¬ FitsInt64 (l ^ e) ∨ l.natAbs ≤ 1 ∧ UInt32.size ≤ e := by
      rcases Nat.lt_or_ge l.natAbs 2 with hl | hl
      · exact .inr ⟨Nat.le_of_lt_succ hl, he⟩
      · exact .inl (not_fitsInt64_pow hl (Nat.le_trans hsize he))
    rw [if_pos he, and_iff_left hcause]
    simp [eq_comm]
  · have hcause : ¬ FitsInt64 (l ^ e) ∨ l.natAbs ≤ 1 ∧ UInt32.size ≤ e ↔
      ¬ FitsInt64 (l ^ e) := by simp [he]
    rw [if_neg he, hcause]
    split
    · rename_i hl
      split
      · rename_i hlarge
        simp [not_fitsInt64_pow hl hlarge, eq_comm]
      · exact checked_eq_error
    · rename_i hl
      rw [← pow_parity (Nat.not_le.1 hl) e]
      exact checked_eq_error

theorem IsFlooredRemainder.eq {r m m' : Int} (h : IsFlooredRemainder l r m)
    (h' : IsFlooredRemainder l r m') : m = m' := by
  obtain ⟨⟨q, hq⟩, hsign, hlt⟩ := h
  obtain ⟨⟨q', hq'⟩, hsign', hlt'⟩ := h'
  have hdvd :
      r ∣ m - m' := ⟨q' - q, by rw [Int.mul_sub, Int.mul_comm r, Int.mul_comm r]; omega⟩
  have hnear : (m - m').natAbs < r.natAbs := by
    rcases Int.lt_trichotomy r 0 with hr | rfl | hr
    · rw [Int.sign_eq_neg_one_of_neg hr, Int.sign_eq_neg_one_iff_neg] at hsign hsign'
      omega
    · simp at hlt
    · rw [Int.sign_eq_one_of_pos hr, Int.sign_eq_one_iff_pos] at hsign hsign'
      omega
  have hzero : m - m' = 0 := Int.eq_zero_of_dvd_of_natAbs_lt_natAbs hdvd hnear
  omega

/-- The operations with an exact result among the integers fail just where 64 bits do not hold it,
but for two kinds of operands: the least integer is not divided by minus one, though nothing
remains; and no power with an exponent of more than 32 bits is computed, though those of a base up
to one in magnitude would fit. -/
theorem fold_int_error_iff (l r : Int64) (op : ArithOp) (hdiv : op ≠ .div)
    (hmod : op = .mod → r ≠ 0) (hpow : op = .pow → 0 ≤ r.toInt) :
    ∃ v, (∀ w, op.IsExact l.toInt r.toInt w ↔ w = v) ∧
      ∀ line e, fold line op (.int l) (.int r) = .error e ↔
      e = overflow line ∧ (¬ FitsInt64 v ∨ op = .mod ∧ l = Int64.minValue ∧ r = -1 ∨
        op = .pow ∧ l.toInt.natAbs ≤ 1 ∧ UInt32.size ≤ r.toInt.toNat) := by
  have hfold (line : Nat) : fold line op (.int l) (.int r) = foldInt line l.toInt r.toInt op := rfl
  cases op with
  | div => exact absurd rfl hdiv
  | add | sub | mul =>
    exact ⟨_, fun w => Iff.rfl, fun line e => by rw [hfold, foldInt, checked_eq_error]; simp⟩
  | mod =>
    have hr : r.toInt ≠ 0 := fun h => hmod rfl (Int64.toInt_inj.1 h)
    have hexact := isFlooredRemainder_intRemainder (l := l.toInt) hr
    have hfits : FitsInt64 (intRemainder l.toInt r.toInt) :=
      (fitsInt64_toInt r).of_natAbs_lt hexact.natAbs_lt
    refine ⟨_, fun w => ⟨fun hw => hw.eq hexact, fun hw => hw ▸ hexact⟩, fun line e => ?_⟩
    have hleast : (l.toInt = Int64.minValue.toInt ∧ r.toInt = -1) ↔
        l = Int64.minValue ∧ r = -1 := by
      rw [← Int64.toInt_inj, ← Int64.toInt_inj]
      rfl
    rw [hfold]
    simp only [foldInt, hr, if_false, hleast]
    split
    · rename_i hcase
      simp [hcase, eq_comm]
    · rename_i hcase
      rw [checked_eq_error]
      simp [hfits, hcase]
  | pow =>
    refine ⟨_, fun w => and_iff_right (hpow rfl), fun line e => ?_⟩
    rw [hfold]
    simp only [foldInt, Int.not_lt.2 (hpow rfl), if_false]
    rw [foldPower_eq_error]
    simp

theorem fold_int_error_iff_limits :
    (∀ line, fold line .pow (.int 2) (.int 63) = .error (overflow line)) ∧
      ∀ line e, fold line .pow (.int (-2)) (.int 63) ≠ .error e := by
  obtain ⟨v, hv, herror⟩ := fold_int_error_iff 2 63 .pow (by decide) (by decide) (by decide)
  obtain ⟨v', hv', herror'⟩ :=
    fold_int_error_iff (-2) 63 .pow (by decide) (by decide) (by decide)
  obtain rfl : 2 ^ 63 = v := (hv _).1 ⟨by decide, by decide⟩
  obtain rfl : -2 ^ 63 = v' := (hv' _).1 ⟨by decide, by decide⟩
  refine ⟨fun line => (herror line _).2 ⟨rfl, .inl (by rw [fitsInt64_iff]; decide)⟩,
    fun line e h => ?_⟩
  obtain ⟨-, hcause⟩ := (herror' line e).1 h
  revert hcause
  rw [fitsInt64_iff]
  decide

/-- Overflow is reported of two operations whose results are one and zero. -/
theorem overflow_of_small_results :
    fold 1 .pow (.int 1) (.int 4294967296) = .error (overflow 1) ∧
      ArithOp.IsExact 1 4294967296 1 .pow ∧
      fold 1 .mod (.int Int64.minValue) (.int (-1)) = .error (overflow 1) ∧
      ArithOp.IsExact Int64.minValue.toInt (-1) 0 .mod ∧ FitsInt64 1 ∧ FitsInt64 0 := by
  refine ⟨rfl, ⟨by decide, (one_pow _).symm⟩, rfl,
    ⟨⟨-Int64.minValue.toInt, by decide⟩, .inl rfl, by decide⟩, ?_, ?_⟩ <;>
    rw [fitsInt64_iff] <;> decide

end TurtleCompiler
