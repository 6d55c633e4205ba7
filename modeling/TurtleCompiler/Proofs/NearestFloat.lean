import TurtleCompiler.Proofs.CanonicalFloats

/-!
The float nearest to an integer. A number of more than 53 binary digits loses the last ones, and
what is left is rounded to the nearest, of two to the even one.
-/

namespace TurtleCompiler

open Float.Model UnpackedFloat

def halfEven (n d : Nat) : Nat :=
  if 2 * (n % d) < d then n / d else if d < 2 * (n % d) then n / d + 1 else n / d + n / d % 2

section HalfEven

variable {n n' d : Nat}

theorem div_le_halfEven : n / d ≤ halfEven n d := by
  unfold halfEven
  split_ifs <;> omega

theorem halfEven_le : halfEven n d ≤ n / d + 1 := by
  unfold halfEven
  split_ifs <;> omega

theorem halfEven_of_dvd (hd : 0 < d) (h : d ∣ n) : halfEven n d = n / d := by
  rw [halfEven, Nat.mod_eq_zero_of_dvd h, if_pos (by omega)]

theorem halfEven_mul_right {c : Nat} (hc : 0 < c) : halfEven (n * c) (d * c) = halfEven n d := by
  have hlt {a b : Nat} : a * c < b * c ↔ a < b := Nat.mul_lt_mul_right hc
  simp only [halfEven, Nat.mul_mod_mul_right, Nat.mul_div_mul_right _ _ hc, ← Nat.mul_assoc, hlt]

theorem halfEven_mono (h : n ≤ n') : halfEven n d ≤ halfEven n' d := by
  rcases Nat.lt_or_eq_of_le (Nat.div_le_div_right (c := d) h) with hlt | heq
  · calc halfEven n d ≤ n / d + 1 := halfEven_le
      _ ≤ n' / d := hlt
      _ ≤ halfEven n' d := div_le_halfEven
  · -- with the same quotient, the greater number has the greater remainder
    have hn := Nat.div_add_mod n d
    have hn' := Nat.div_add_mod n' d
    have hmod : n % d ≤ n' % d := by
      rw [heq] at hn
      omega
    unfold halfEven
    rw [heq]
    split_ifs <;> omega

end HalfEven

theorem shiftRight_eq (m k : Nat) :
    (⟨m, false, false⟩ : ExtendedMantissa) >>> k =
      ⟨m / 2 ^ k, decide (2 ^ k ≤ 2 * (m % 2 ^ k)),
        decide (m % 2 ^ k ≠ 0 ∧ 2 * (m % 2 ^ k) ≠ 2 ^ k)⟩ := by
  change k.repeat ExtendedMantissa.shiftRightOne ⟨m, false, false⟩ = _
  induction k with
  | zero => simp [Nat.repeat, Nat.mod_one]
  | succ k ih =>
    have hlt : m % 2 ^ k < 2 ^ k := Nat.mod_lt _ (Nat.two_pow_pos k)
    have hsplit : m % 2 ^ (k + 1) = m % 2 ^ k + 2 ^ k * (m / 2 ^ k % 2) := Nat.mod_pow_succ
    have hdiv : m / 2 ^ k / 2 = m / 2 ^ (k + 1) := by rw [Nat.div_div_eq_div_mul, Nat.pow_succ]
    rw [Nat.repeat, ih, ExtendedMantissa.shiftRightOne, ExtendedMantissa.mk.injEq,
      hsplit, Nat.pow_succ]
    refine ⟨hdiv, ?_, ?_⟩
    · rcases Nat.mod_two_eq_zero_or_one (m / 2 ^ k) with hbit | hbit <;> simp only [hbit] <;> grind
    · rcases Nat.mod_two_eq_zero_or_one (m / 2 ^ k) with hbit | hbit <;> simp only [hbit] <;> grind

theorem roundedMantissa_shiftRight (m k : Nat) :
    ((⟨m, false, false⟩ : ExtendedMantissa) >>> k).roundedMantissa = halfEven m (2 ^ k) := by
  rw [shiftRight_eq, ExtendedMantissa.roundedMantissa, halfEven]
  rcases Nat.lt_trichotomy (2 * (m % 2 ^ k)) (2 ^ k) with hlt | heq | hgt
  · by_cases hzero : m % 2 ^ k = 0
    · simp [hzero, ExtendedMantissa.accuracy, Accuracy.roundToNearestEven]
    · simp [Nat.not_le.2 hlt, hlt, hlt.ne, hzero, ExtendedMantissa.accuracy,
        Accuracy.roundToNearestEven]
  · simp [heq, ExtendedMantissa.accuracy, Accuracy.roundToNearestEven]
  · have hne : m % 2 ^ k ≠ 0 := by omega
    simp [hgt.le, hgt.ne', Nat.not_lt.2 hgt.le, hgt, hne, ExtendedMantissa.accuracy,
      Accuracy.roundToNearestEven]

variable {e : Int}

theorem shiftToTargetExponent_eq {m k : Nat} (hlow : 2 ^ (k + 52) ≤ m) (hhigh : m < 2 ^ (k + 53))
    (he : -1074 ≤ e + k) : shiftToTargetExponent .binary64 m e .exact =
    ((⟨m, false, false⟩ : ExtendedMantissa) >>> k, e + k) := by
  have hpos : m ≠ 0 := by have := Nat.two_pow_pos (k + 52); omega
  have hlog : m.log2 = k + 52 := (Nat.log2_eq_iff hpos).2 ⟨hlow, hhigh⟩
  have hbits : ((Format.binary64.mantissaBits : Nat) : Int) = 53 := by decide
  have hmin : Format.binary64.minExponent = -1074 := by decide
  have htarget : Format.binary64.targetExponent (totalExponent m e) = e + k := by
    rw [Format.targetExponent, totalExponent, hlog, hbits, hmin]
    omega
  have hshift : (e + (k : Int) - e).toNat = k := by omega
  unfold shiftToTargetExponent shiftToExponent
  dsimp only
  rw [htarget, hshift]
  rfl

theorem roundWithAccuracy_exact (s : Sign) {m k : Nat} (hlow : 2 ^ (k + 52) ≤ m)
    (hhigh : m < 2 ^ (k + 53)) (he : -1074 ≤ e + k) :
    ∃ r j hpos, roundWithAccuracy .binary64 s m e .exact =
      .finite s r (e + k + (j : Nat)) hpos ∧ 2 ^ 52 ≤ r ∧ r < 2 ^ 53 ∧ j ≤ 1 ∧
      r * 2 ^ j = halfEven m (2 ^ k) := by
  have hpos : 0 < 2 ^ k := Nat.two_pow_pos k
  have hquotient : 2 ^ 52 ≤ m / 2 ^ k ∧ m / 2 ^ k < 2 ^ 53 := by
    rw [Nat.le_div_iff_mul_le hpos, Nat.div_lt_iff_lt_mul hpos, ← Nat.pow_add, ← Nat.pow_add,
      Nat.add_comm 52, Nat.add_comm 53]
    exact ⟨hlow, hhigh⟩
  have hround : 2 ^ 52 ≤ halfEven m (2 ^ k) := hquotient.1.trans div_le_halfEven
  have hround' : halfEven m (2 ^ k) ≤ 2 ^ 53 := halfEven_le.trans hquotient.2
  unfold roundWithAccuracy
  rw [shiftToTargetExponent_eq hlow hhigh he]
  dsimp only
  rw [roundedMantissa_shiftRight]
  generalize halfEven m (2 ^ k) = r at hround hround'
  rcases Nat.lt_or_eq_of_le hround' with hlt | rfl
  · refine ⟨r, 0, by omega, ?_, hround, hlt, by omega, by simp⟩
    rw [shiftToTargetExponent_eq (k := 0) hround hlt (by omega), shiftRight_eq]
    have hne : r ≠ 0 := by omega
    simp [hne]
  · refine ⟨2 ^ 52, 1, by omega, ?_, by omega, by omega, le_rfl, by omega⟩
    rw [shiftToTargetExponent_eq (k := 1) (by omega) (by omega) (by omega), shiftRight_eq]
    simp

def nearest (n : Nat) : Nat := halfEven n (2 ^ (n.log2 - 52)) * 2 ^ (n.log2 - 52)

theorem nearest_of_lt {n : Nat} (h : n < 2 ^ 53) : nearest n = n := by
  have hlog : n.log2 - 52 = 0 := by
    rcases n.eq_zero_or_pos with rfl | hpos
    · rfl
    · have := (Nat.log2_lt hpos.ne').2 h
      omega
  rw [nearest, hlog, halfEven_of_dvd (by omega) ⟨n, by omega⟩]
  omega

theorem nearest_bounds {n b : Nat} (hlow : 2 ^ b ≤ n) (hhigh : n < 2 ^ (b + 1)) :
    2 ^ b ≤ nearest n ∧ nearest n ≤ 2 ^ (b + 1) := by
  have hlog :
      n.log2 = b := (Nat.log2_eq_iff (by have := Nat.two_pow_pos b; omega)).2 ⟨hlow, hhigh⟩
  rcases Nat.lt_or_ge b 53 with hb | hb
  · rw [nearest_of_lt (hhigh.trans_le (Nat.pow_le_pow_right (by decide) hb))]
    omega
  · obtain ⟨k, rfl⟩ : ∃ k, b = 52 + k := ⟨b - 52, by omega⟩
    have hpos : 0 < 2 ^ k := Nat.two_pow_pos k
    rw [nearest, hlog, Nat.add_sub_cancel_left]
    rw [Nat.add_right_comm] at hhigh ⊢
    rw [Nat.pow_add] at hlow hhigh
    rw [Nat.pow_add, Nat.pow_add 2 (52 + 1)]
    refine ⟨Nat.mul_le_mul_right _ ?_, Nat.mul_le_mul_right _ ?_⟩
    · exact ((Nat.le_div_iff_mul_le hpos).2 hlow).trans div_le_halfEven
    · exact halfEven_le.trans ((Nat.div_lt_iff_lt_mul hpos).2 hhigh)

theorem nearest_mono {n n' : Nat} (h : n ≤ n') : nearest n ≤ nearest n' := by
  rcases n.eq_zero_or_pos with rfl | hpos
  · rw [nearest_of_lt (by decide)]
    exact Nat.zero_le _
  have hpos' : n' ≠ 0 := by omega
  rcases Nat.lt_or_eq_of_le
    ((Nat.le_log2 hpos').2 ((Nat.log2_self_le hpos.ne').trans h)) with hlt | heq
  · -- a power of two stands between them
    calc nearest n ≤ 2 ^ (n.log2 + 1) :=
      (nearest_bounds (Nat.log2_self_le hpos.ne') Nat.lt_log2_self).2
      _ ≤ 2 ^ n'.log2 := Nat.pow_le_pow_right (by decide) hlt
      _ ≤ nearest n' := (nearest_bounds (Nat.log2_self_le hpos') Nat.lt_log2_self).1
  · rw [nearest, nearest, heq]
    exact Nat.mul_le_mul_right _ (halfEven_mono h)

def nearestInt (z : Int) : Int := z.sign * nearest z.natAbs

theorem nearestInt_natCast (n : Nat) : nearestInt n = nearest n := by
  rcases n.eq_zero_or_pos with rfl | hpos
  · rfl
  · rw [nearestInt, Int.sign_natCast_of_ne_zero hpos.ne', Int.one_mul, Int.natAbs_natCast]

theorem nearestInt_neg (z : Int) : nearestInt (-z) = -nearestInt z := by
  rw [nearestInt, nearestInt, Int.sign_neg, Int.natAbs_neg, Int.neg_mul]

theorem nearestInt_of_natAbs_le {z : Int} (h : z.natAbs ≤ 2 ^ 53) : nearestInt z = z := by
  have hnearest : nearest z.natAbs = z.natAbs := by
    rcases Nat.lt_or_eq_of_le h with hlt | heq
    · exact nearest_of_lt hlt
    · rw [heq]
      decide
  rw [nearestInt, hnearest]
  exact Int.sign_mul_natAbs z

theorem nearestInt_mono {a b : Int} (h : a ≤ b) : nearestInt a ≤ nearestInt b := by
  have hpos (n : Nat) : (0 : Int) ≤ nearest n := Int.natCast_nonneg _
  obtain ⟨n, rfl | rfl⟩ := a.eq_nat_or_neg <;> obtain ⟨n', rfl | rfl⟩ := b.eq_nat_or_neg <;>
    simp only [nearestInt_neg, nearestInt_natCast]
  · exact Int.ofNat_le.2 (nearest_mono (Int.ofNat_le.1 h))
  · obtain ⟨rfl, rfl⟩ : n = 0 ∧ n' = 0 := by omega
    decide
  · exact Int.le_trans (Int.neg_nonpos_of_nonneg (hpos n)) (hpos n')
  · have hle : nearest n' ≤ nearest n := nearest_mono (by omega)
    omega

structure Scaled (n m k : Nat) : Prop where
  low : 2 ^ 52 ≤ m
  high : m < 2 ^ 53
  value : n * 2 ^ 52 = m * 2 ^ k

namespace Scaled

variable {n n' m m' k k' : Nat}

theorem pos (h : Scaled n m k) : 0 < n := by
  have hpos :
      0 < m * 2 ^ k := Nat.mul_pos (Nat.lt_of_lt_of_le (by decide) h.low) (Nat.two_pow_pos k)
  have hvalue := h.value
  omega

theorem canonical (h : Scaled n m k) (hk : k ≤ 1023) {s : Sign} {hm : 0 < m} :
    Canonical (.finite s m ((k : Nat) - 52) hm) :=
  ⟨h.high, by omega, by omega, .inl h.low⟩

theorem lt (h : Scaled n m k) (h' : Scaled n' m' k')
    (hlt : k < k' ∨ k = k' ∧ m < m') : n < n' := by
  refine Nat.lt_of_mul_lt_mul_right (a := 2 ^ 52) ?_
  rw [h.value, h'.value]
  rcases hlt with hk | ⟨rfl, hm⟩
  · calc m * 2 ^ k < 2 ^ 53 * 2 ^ k := Nat.mul_lt_mul_of_pos_right h.high (Nat.two_pow_pos k)
      _ = 2 ^ 52 * 2 ^ (k + 1) := by rw [← Nat.pow_add, ← Nat.pow_add]; congr 1; omega
      _ ≤ m' * 2 ^ k' := Nat.mul_le_mul h'.low (Nat.pow_le_pow_right (by decide) hk)
  · exact Nat.mul_lt_mul_of_pos_right hm (Nat.two_pow_pos k)

theorem compare_eq (h : Scaled n m k) (h' : Scaled n' m' k') :
    (compare ((k : Int) - 52) (k' - 52)).then (compare m m') = compare n n' := by
  have hexp : compare ((k : Int) - 52) (k' - 52) =
    compare k k' := by simp [compare, compareOfLessAndEq]
  rw [hexp]
  rcases Nat.lt_trichotomy k k' with hk | rfl | hk
  · rw [compare_lt_iff_lt.2 hk, compare_lt_iff_lt.2 (h.lt h' (.inl hk))]
    rfl
  · rcases Nat.lt_trichotomy m m' with hm | rfl | hm
    · rw [compare_lt_iff_lt.2 hm, compare_lt_iff_lt.2 (h.lt h' (.inr ⟨rfl, hm⟩)),
        compare_eq_iff_eq.2 rfl]
      rfl
    · rw [Nat.mul_right_cancel (by decide) (h.value.trans h'.value.symm)]
      simp
    · rw [compare_gt_iff_gt.2 hm, compare_gt_iff_gt.2 (h'.lt h (.inr ⟨rfl, hm⟩)),
        compare_eq_iff_eq.2 rfl]
      rfl
  · rw [compare_gt_iff_gt.2 hk, compare_gt_iff_gt.2 (h'.lt h (.inl hk))]
    rfl

end Scaled

inductive IsInteger : Int → UnpackedFloat → Prop
  | zero : IsInteger 0 (.zero s)
  | positive (h : Scaled n m k) : IsInteger (n : Nat) (.finite .positive m ((k : Nat) - 52) hm)
  | negative (h : Scaled n m k) : IsInteger (-(n : Nat)) (.finite .negative m ((k : Nat) - 52) hm)

namespace IsInteger

theorem neg {a : Int} {u : UnpackedFloat} (h : IsInteger a u) : IsInteger (-a) u.neg := by
  cases h with
  | zero => exact .zero
  | positive h => exact .negative h
  | negative h =>
    rw [Int.neg_neg]
    exact .positive h

theorem compare_eq {a b : Int} {u v : UnpackedFloat} (hu : IsInteger a u) (hv : IsInteger b v) :
    u.compare v = some (compare a b) := by
  have hlt {a b : Int} (h : a < b) : compare a b = .lt := compare_lt_iff_lt.2 h
  have hgt {a b : Int} (h : b < a) : compare a b = .gt := compare_gt_iff_gt.2 h
  have hcast {n n' : Nat} : compare (n : Int) n' = compare n n' := by
    simp [compare, compareOfLessAndEq]
  have hneg {n n' : Nat} : compare (-n : Int) (-n') = (compare n n').swap := by
    rw [← Std.OrientedOrd.eq_swap]
    simp [compare, compareOfLessAndEq, eq_comm]
  cases hu with
  | zero =>
    cases hv with
    | zero => rfl
    | positive h' => rw [hlt (by have := h'.pos; omega), UnpackedFloat.compare]
    | negative h' => rw [hgt (by have := h'.pos; omega), UnpackedFloat.compare]
  | positive h =>
    have hpos := h.pos
    cases hv with
    | zero | negative => rw [hgt (by omega), UnpackedFloat.compare]
    | positive h' => rw [hcast, ← h.compare_eq h', UnpackedFloat.compare]
  | negative h =>
    have hpos := h.pos
    cases hv with
    | zero | positive => rw [hlt (by omega), UnpackedFloat.compare]
    | negative h' => rw [hneg, ← h.compare_eq h', UnpackedFloat.compare]

end IsInteger

theorem roundWithAccuracy_scaled (s : Sign) {m : Nat} (k : Nat) (hlow : 2 ^ 52 ≤ m)
    (hhigh : m < 2 ^ 53) (he : -1074 ≤ e + k) :
    roundWithAccuracy .binary64 s (m * 2 ^ k) e .exact = .finite s m (e + k) (by omega) := by
  have hpos : 0 < 2 ^ k := Nat.two_pow_pos k
  have hlow' : 2 ^ (k + 52) ≤ m * 2 ^ k := by
    rw [Nat.add_comm, Nat.pow_add]
    exact Nat.mul_le_mul_right _ hlow
  have hhigh' : m * 2 ^ k < 2 ^ (k + 53) := by
    rw [Nat.add_comm, Nat.pow_add]
    exact Nat.mul_lt_mul_of_pos_right hhigh hpos
  obtain ⟨r, j, hr, heq, hrlow, hrhigh, hj, hround⟩ := roundWithAccuracy_exact s hlow' hhigh' he
  rw [halfEven_of_dvd hpos (Nat.dvd_mul_left _ _), Nat.mul_div_cancel _ hpos] at hround
  obtain rfl : j = 0 := by
    by_contra h
    obtain rfl : j = 1 := by omega
    omega
  obtain rfl : r = m := by omega
  rw [heq, UnpackedFloat.finite.injEq]
  exact ⟨rfl, rfl, by omega⟩

theorem round_small {n : Nat} (hpos : 0 < n) (hlt : n < 2 ^ 53) :
    ∃ m k hm, round .binary64 .positive n 0 = .finite .positive m ((k : Nat) - 52) hm ∧
    k ≤ 52 ∧ Scaled n m k := by
  have hlog : n.log2 ≤ 52 := Nat.le_of_lt_succ ((Nat.log2_lt hpos.ne').2 hlt)
  obtain ⟨k, hk⟩ : ∃ k, n.log2 + k = 52 := ⟨52 - n.log2, by omega⟩
  have hlow : 2 ^ 52 ≤ n * 2 ^ k := by
    rw [← hk, Nat.pow_add]
    exact Nat.mul_le_mul_right _ (Nat.log2_self_le hpos.ne')
  have hhigh : n * 2 ^ k < 2 ^ 53 := by
    have hdigits : n.log2 + 1 + k = 53 := by omega
    rw [← hdigits, Nat.pow_add]
    exact Nat.mul_lt_mul_of_pos_right Nat.lt_log2_self (Nat.two_pow_pos k)
  have htarget : Format.binary64.targetExponent (totalExponent n 0) = -k := by
    have hbits : ((Format.binary64.mantissaBits : Nat) : Int) = 53 := by decide
    have hmin : Format.binary64.minExponent = -1074 := by decide
    rw [Format.targetExponent, totalExponent, hbits, hmin]
    omega
  have hshift : (0 - -(k : Int)).toNat = k := by omega
  refine ⟨n * 2 ^ k, n.log2, by omega, ?_, hlog, hlow, hhigh, ?_⟩
  · unfold UnpackedFloat.round decreaseExponent
    dsimp only
    rw [htarget, hshift, Nat.shiftLeft_eq]
    have hround := roundWithAccuracy_scaled .positive 0 (e := 0 - (k : Int)) hlow hhigh (by omega)
    rw [Nat.pow_zero, Nat.mul_one] at hround
    rw [hround, UnpackedFloat.finite.injEq]
    exact ⟨rfl, rfl, by omega⟩
  · rw [Nat.mul_assoc, ← Nat.pow_add, Nat.add_comm k, hk]

theorem unpack_mul_one {n : Nat} (hpos : 0 < n) (hlt : n < 2 ^ 53) :
    ∃ m k hm, (n.toUInt64.toFloat * Float.ofBits 0x3FF0000000000000).toModel.unpack =
      .finite .positive m ((k : Nat) - 52) hm ∧ Scaled n m k := by
  obtain ⟨m, k, hm, hround, hk, hscaled⟩ := round_small hpos hlt
  have hconvert : n.toUInt64.toFloat.toModel.unpack = .finite .positive m (k - 52) hm := by
    have hnat : n.toUInt64.toNat = n := UInt64.toNat_ofNat_of_lt (by change n < 2 ^ 64; omega)
    have hcompare : compare (n : Int) 0 = .gt := compare_gt_iff_gt.2 (by omega)
    have hnormalize : normalize .binary64 n 0 .positive = .finite .positive m (k - 52) hm := by
      rw [UnpackedFloat.normalize, hcompare]
      exact hround
    change (Float.Model.pack (normalize .binary64 (n.toUInt64.toNat : Nat) 0 .positive)).unpack = _
    rw [hnat, hnormalize]
    exact unpack_pack (hscaled.canonical (by omega))
  have hone : (Float.ofBits 0x3FF0000000000000).toModel.unpack =
    .finite .positive (2 ^ 52) (-52) (by decide) := by rfl
  have hmul :
      mul .binary64 (.finite .positive m (k - 52) hm)
      (.finite .positive (2 ^ 52) (-52) (by decide)) = .finite .positive m (k - 52) hm := by
    rw [UnpackedFloat.mul, roundWithAccuracy_scaled _ 52 hscaled.low hscaled.high (by omega),
      UnpackedFloat.finite.injEq]
    exact ⟨rfl, rfl, by omega⟩
  refine ⟨m, k, hm, ?_, hscaled⟩
  change (Float.Model.pack (mul .binary64 _ _)).unpack = _
  rw [hconvert, hone, hmul]
  exact unpack_pack (hscaled.canonical (by omega))

theorem unpack_ofScientific {n : Nat} (hlow : 2 ^ 53 ≤ n) (hhigh : n < 2 ^ 64) :
    ∃ m k hm, (Float.Model.ofScientific n 0).unpack = .finite .positive m ((k : Nat) - 52) hm ∧
      Scaled (nearest n) m k := by
  have hpos : n ≠ 0 := by omega
  have hlog : 53 ≤ n.log2 := (Nat.le_log2 hpos).2 hlow
  have hlog' : n.log2 < 64 := (Nat.log2_lt hpos).2 hhigh
  have hlow' : 2 ^ (n.log2 + 1 + 52) ≤ n * 2 ^ 53 := by
    rw [Nat.add_assoc, Nat.pow_add]
    exact Nat.mul_le_mul_right _ (Nat.log2_self_le hpos)
  have hhigh' : n * 2 ^ 53 < 2 ^ (n.log2 + 1 + 53) := by
    rw [Nat.pow_add]
    exact Nat.mul_lt_mul_of_pos_right Nat.lt_log2_self (by decide)
  obtain ⟨m, j, hm, hround, hmlow, hmhigh, hj, hvalue⟩ :=
    roundWithAccuracy_exact .positive (e := -53) hlow' hhigh' (by omega)
  have hscaled : Scaled (nearest n) m (n.log2 + j) := by
    have hdivisor : 2 ^ (n.log2 + 1) = 2 ^ (n.log2 - 52) * 2 ^ 53 := by
      rw [← Nat.pow_add]
      congr 1
      omega
    have hexp : n.log2 + j = j + (n.log2 - 52) + 52 := by omega
    refine ⟨hmlow, hmhigh, ?_⟩
    rw [hdivisor, halfEven_mul_right (by decide)] at hvalue
    rw [nearest, ← hvalue, hexp, Nat.pow_add, Nat.pow_add, Nat.mul_assoc, Nat.mul_assoc,
      Nat.mul_assoc]
  have hscientific : ofScientific .binary64 n 0 =
      roundWithAccuracy .binary64 .positive (n * 2 ^ 53) (-53) .exact := by
    have hmin : ¬ (0 : Int) < -(2 ^ 11 + (n.log2 : Int)) := by omega
    rw [UnpackedFloat.ofScientific, dif_neg hpos, if_neg (by decide), if_neg hmin,
      if_pos (by decide), UnpackedFloat.mul, Nat.shiftLeft_eq]
    change roundWithAccuracy .binary64 .positive (n * 2 ^ 53 * 1) (-53) .exact = _
    rw [Nat.mul_one]
  have hfinite : ofScientific .binary64 n 0 = .finite .positive m ((n.log2 + j : Nat) - 52) hm := by
    rw [hscientific, hround, UnpackedFloat.finite.injEq]
    exact ⟨rfl, rfl, by omega⟩
  refine ⟨m, n.log2 + j, hm, ?_, hscaled⟩
  change (Float.Model.pack (ofScientific .binary64 n 0)).unpack = _
  rw [hfinite]
  exact unpack_pack (hscaled.canonical (by omega))

theorem isInteger_ofNat {n : Nat} (hn : n < 2 ^ 64) :
    IsInteger (nearest n) (Float.ofNat n).toModel.unpack := by
  rcases n.eq_zero_or_pos with rfl | hpos
  · exact .zero
  have hof : Float.ofNat n = if n < 2 ^ 53 then n.toUInt64.toFloat * Float.ofBits 0x3FF0000000000000
      else .ofModel (Float.Model.ofScientific n 0) := by
    simp [Float.ofNat, OfScientific.ofScientific, Float.ofScientific,
      Float.exactlyRepresentablePowersOfTen]
  rw [hof]
  split
  · rename_i hlt
    obtain ⟨m, k, hm, hunpack, hscaled⟩ := unpack_mul_one hpos hlt
    rw [hunpack, nearest_of_lt hlt]
    exact .positive hscaled
  · rename_i hlt
    obtain ⟨m, k, hm, hunpack, hscaled⟩ := unpack_ofScientific (Nat.not_lt.1 hlt) hn
    rw [hunpack]
    exact .positive hscaled

theorem isInteger_ofInt (v : Int64) :
    IsInteger (nearestInt v.toInt) (Float.ofInt v.toInt).toModel.unpack := by
  have hmin := v.le_toInt
  have hmax := v.toInt_lt
  generalize v.toInt = z at *
  cases z with
  | ofNat n =>
    change IsInteger (nearestInt (n : Nat)) (Float.ofNat n).toModel.unpack
    rw [nearestInt_natCast]
    exact isInteger_ofNat (by change ((n : Nat) : Int) < _ at hmax; omega)
  | negSucc n =>
    have hinteger : IsInteger (nearest (n + 1)) (Float.ofNat (n + 1)).toModel.unpack :=
      isInteger_ofNat (by omega)
    rw [Int.negSucc_eq, nearestInt_neg, ← Int.natCast_succ, nearestInt_natCast]
    change IsInteger _ (Float.Model.pack (Float.ofNat (n + 1)).toModel.unpack.neg).unpack
    rw [unpack_pack (canonical_unpack _).neg]
    exact hinteger.neg

end TurtleCompiler
