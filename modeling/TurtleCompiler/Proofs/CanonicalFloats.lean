import Mathlib
import TurtleCompiler.Fold

/-!
Floats as they are taken apart. A finite float has one form, with a mantissa of 53 binary digits or
with the least exponent, and floats are compared in that form.
-/

namespace TurtleCompiler

open Float.Model UnpackedFloat

def Canonical : UnpackedFloat → Prop
  | .finite _ m e _ => m < 2 ^ 53 ∧ -1074 ≤ e ∧ e ≤ 971 ∧ (2 ^ 52 ≤ m ∨ e = -1074)
  | .infinity _ | .notANumber | .zero _ => True

variable {u : UnpackedFloat}

theorem Canonical.neg (h : Canonical u) : Canonical u.neg := by
  cases u <;> exact h

theorem ofBitVec_toBitVec (s : Sign) : Sign.ofBitVec s.toBitVec = s := by
  cases s <;> rfl

theorem unpackSign_packComponents {spec : Format} {s : Sign} {e : BitVec spec.exponentBits}
    {m : BitVec spec.mantissaBitsWithoutImplicit} :
    unpackSign (packComponents spec s e m) = s.toBitVec := by
  ext i hi
  obtain rfl : i = 0 := by omega
  delta unpackSign
  simp [packComponents, BitVec.getLsbD_eq_getElem, BitVec.getLsbD_append, BitVec.getElem_append]

theorem toNat_one_append (m : BitVec 52) : (1#1 ++ m).toNat = 2 ^ 52 + m.toNat := by
  rw [BitVec.toNat_append, Nat.shiftLeft_eq, Nat.mul_comm]
  exact (Nat.two_pow_add_eq_or_of_lt m.isLt 1).symm

theorem canonical_unpack (x : Float.Model) : Canonical x.unpack := by
  have hbias : ((Format.binary64.exponentBias : Nat) : Int) + (52 : Nat) = 1075 := by decide
  obtain ⟨b, hb⟩ : ∃ b : BitVec Format.binary64.numBits, x.toBits.toBitVec = b := ⟨_, rfl⟩
  have hexp : (unpackExponent b).toNat < 2 ^ 11 := (unpackExponent b).isLt
  have hmant : (unpackMantissa b).toNat < 2 ^ 52 := (unpackMantissa b).isLt
  unfold Float.Model.unpack UnpackedFloat.unpack
  dsimp only
  rw [hb, hbias]
  by_cases hones : unpackExponent b = -1#11
  · rw [if_pos hones]
    by_cases hzero : unpackMantissa b = 0#52
    · rw [if_pos hzero]
      trivial
    · rw [if_neg hzero]
      trivial
  rw [if_neg hones]
  by_cases hnormal : unpackExponent b = 0#11
  · rw [if_pos hnormal, hnormal]
    by_cases hzero : unpackMantissa b = 0#52
    · rw [dif_pos hzero]
      trivial
    · rw [dif_neg hzero]
      exact ⟨by omega, by simp, by simp, .inr (by simp)⟩
  · have hpos : (unpackExponent b).toNat ≠ 0 := fun h => hnormal (BitVec.eq_of_toNat_eq h)
    have hmax : (unpackExponent b).toNat ≠ 2047 := fun h => hones (BitVec.eq_of_toNat_eq h)
    rw [if_neg hnormal, Canonical, toNat_one_append]
    omega

theorem unpack_normal (s : Sign) {e : BitVec 11} (m : BitVec 52) (hzero : e ≠ 0#11)
    (hones : e ≠ -1#11) :
    unpack .binary64 (packComponents .binary64 s e m) =
      .finite s (2 ^ 52 + m.toNat) (e.toNat - 1075) (by omega) := by
  have hbias : ((Format.binary64.exponentBias : Nat) : Int) + (52 : Nat) = 1075 := by decide
  obtain ⟨b, hb⟩ : ∃ b, packComponents .binary64 s e m = b := ⟨_, rfl⟩
  have hsign : unpackSign b = s.toBitVec := hb ▸ unpackSign_packComponents
  have hexp : unpackExponent b = e := hb ▸ unpackExponent_packComponents
  have hmant : unpackMantissa b = m := hb ▸ unpackMantissa_packComponents
  rw [hb]
  -- the form mentions the parts also in the proof that its mantissa is positive
  subst hexp hmant
  unfold UnpackedFloat.unpack
  dsimp only
  rw [if_neg hones, if_neg hzero, UnpackedFloat.finite.injEq, hsign, ofBitVec_toBitVec,
    toNat_one_append, hbias]
  exact ⟨rfl, rfl, rfl⟩

theorem unpack_subnormal (s : Sign) {m : BitVec 52} (hzero : m ≠ 0#52) :
    unpack .binary64 (packComponents .binary64 s 0#11 m) =
      .finite s m.toNat (-1074) (Nat.pos_of_ne_zero fun h => hzero (BitVec.eq_of_toNat_eq h)) := by
  have hbias : ((0#11).toNat : Int) - ((Format.binary64.exponentBias : Nat) + (52 : Nat)) + 1 =
    -1074 := by decide
  have hones : 0#11 ≠ -1#11 := by decide
  obtain ⟨b, hb⟩ : ∃ b, packComponents .binary64 s 0#11 m = b := ⟨_, rfl⟩
  have hsign : unpackSign b = s.toBitVec := hb ▸ unpackSign_packComponents
  have hexp : unpackExponent b = 0#11 := hb ▸ unpackExponent_packComponents
  have hmant : unpackMantissa b = m := hb ▸ unpackMantissa_packComponents
  rw [hb]
  subst hmant
  unfold UnpackedFloat.unpack
  dsimp only
  rw [hexp, if_neg hones, if_pos rfl, dif_neg hzero, UnpackedFloat.finite.injEq, hsign,
    ofBitVec_toBitVec, hbias]
  exact ⟨rfl, rfl, rfl⟩

theorem unpack_pack (h : Canonical u) : (Float.Model.pack u).unpack = u := by
  cases u with
  | notANumber => rfl
  | infinity s => cases s <;> rfl
  | zero s => cases s <;> rfl
  | finite s m e hpos =>
    obtain ⟨hm, hmin, hmax, hform⟩ := h
    have hbias : (e + (Format.binary64.exponentBias : Nat) + (52 : Nat)).toNat =
        (e + 1075).toNat := by
      have : ((Format.binary64.exponentBias : Nat) : Int) = 1023 := by decide
      omega
    change unpack .binary64 (UnpackedFloat.pack .binary64 _) = _
    unfold UnpackedFloat.pack
    dsimp only
    rw [hbias, if_neg (by omega)]
    by_cases hlog : m.log2 + 1 = Format.binary64.mantissaBits
    · rw [if_pos hlog]
      have hlow : 2 ^ 52 ≤ m := (Nat.le_log2 hpos.ne').1 (Nat.le_of_eq (Nat.succ.inj hlog.symm))
      have hexp : (BitVec.ofNat 11 (e + 1075).toNat).toNat = (e + 1075).toNat :=
        Nat.mod_eq_of_lt (by omega)
      have hmant : 2 ^ 52 + (BitVec.ofNat 52 m).toNat = m := by
        rw [BitVec.toNat_ofNat]
        omega
      have hne {k : Nat} (hk : k = 0 ∨ k = 2047) :
          BitVec.ofNat 11 (e + 1075).toNat ≠ BitVec.ofNat 11 k := by
        intro h
        have hnat := congrArg BitVec.toNat h
        rw [hexp, BitVec.toNat_ofNat] at hnat
        omega
      refine (unpack_normal s _ (hne (.inl rfl)) (hne (.inr rfl))).trans ?_
      rw [UnpackedFloat.finite.injEq]
      exact ⟨rfl, by omega, by omega⟩
    · rw [if_neg hlog]
      have hlow : m < 2 ^ 52 := by
        by_contra h
        exact hlog (congrArg Nat.succ ((Nat.log2_eq_iff hpos.ne').2 ⟨Nat.not_lt.1 h, hm⟩))
      have hmant : (BitVec.ofNat 52 m).toNat = m := Nat.mod_eq_of_lt hlow
      have hzero : BitVec.ofNat 52 m ≠ 0#52 := fun h => by
        rw [h] at hmant
        exact hpos.ne hmant
      refine (unpack_subnormal s hzero).trans ?_
      rw [UnpackedFloat.finite.injEq]
      exact ⟨rfl, by omega, by omega⟩

theorem float_lt_iff {x y : Float} :
    x < y ↔ x.toModel.unpack.compare y.toModel.unpack = some .lt := by
  change decide (x.toModel < y.toModel) = true ↔ _
  rw [decide_eq_true_iff]
  change (x.toModel.unpack.compare y.toModel.unpack == some .lt) = true ↔ _
  exact beq_iff_eq

theorem float_beq_iff {x y : Float} :
    (x == y) = true ↔ x.toModel.unpack.compare y.toModel.unpack = some .eq := by
  change (x.toModel.unpack.compare y.toModel.unpack == some .eq) = true ↔ _
  exact beq_iff_eq

end TurtleCompiler
