import Mathlib
import TurtleCompiler.Value

/-!
Which values can be known from their texts. A float is written as a decimal that rounds to it and to
no other float; with a point in its text the decimal is known, and so is the float. Without a point
a float is written like an integer, and a truth value always is.
-/

namespace TurtleCompiler

theorem zpow_eq_div {a : ℚ} (z : Int) : a ^ z = a ^ z.toNat / a ^ (-z).toNat := by
  obtain ⟨n, rfl | rfl⟩ := z.eq_nat_or_neg <;> simp

structure Binary.IsNormal (m : Nat) (q : Int) : Prop where
  lt : m < 2 ^ 53
  le : -1074 ≤ q
  full : 2 ^ 52 ≤ m ∨ q = -1074

namespace Decimal

variable {m m' n : Nat} {q q' k : Int} {d d' : Decimal}

def value (d : Decimal) : ℚ := d.digits * 10 ^ d.exponent

def lowEnd (m : Nat) (q : Int) : Nat := 4 * m - if m = 2 ^ 52 ∧ -1074 < q then 1 else 2

structure RoundsTo (d : Decimal) (m : Nat) (q : Int) : Prop where
  low_le : (lowEnd m q : ℚ) * 2 ^ (q - 2) ≤ d.value
  le_high : d.value ≤ (4 * m + 2 : Nat) * 2 ^ (q - 2)
  ne_ends : m % 2 = 1 → (lowEnd m q : ℚ) * 2 ^ (q - 2) ≠ d.value ∧
    d.value ≠ (4 * m + 2 : Nat) * 2 ^ (q - 2)

theorem cast_scaled (a : Nat) (z k : Int) :
    (a * (pow2 z.toNat * pow10 (-k).toNat) : Nat) / (2 ^ (-z).toNat * 10 ^ (-k).toNat : ℚ) =
    a * 2 ^ z := by
  simp only [zpow_eq_div z, pow2, pow10, Nat.pow_eq]
  push_cast
  field_simp

theorem cast_stepped (a : Nat) (z k : Int) :
    (a * (pow10 k.toNat * pow2 (-z).toNat) : Nat) / (2 ^ (-z).toNat * 10 ^ (-k).toNat : ℚ) =
    a * 10 ^ k := by
  simp only [zpow_eq_div k, pow2, pow10, Nat.pow_eq]
  push_cast
  field_simp

theorem roundsTo_of_rounds (h : rounds m q k n) : (⟨n, k⟩ : Decimal).RoundsTo m q := by
  obtain ⟨scale, hscale⟩ : ∃ scale, pow2 (q - 2).toNat * pow10 (-k).toNat =
    scale := ⟨_, rfl⟩
  obtain ⟨point, hpoint⟩ : ∃ point, n * (pow10 k.toNat * pow2 (2 - q).toNat) =
    point := ⟨_, rfl⟩
  have hends : lowEnd m q * scale ≤ point ∧ point ≤ (4 * m + 2) * scale ∧
      (m % 2 = 1 → lowEnd m q * scale ≠ point ∧ point ≠ (4 * m + 2) * scale) := by
    unfold rounds at h
    simp only [hscale, hpoint] at h
    change (if _ then decide (lowEnd m q * scale ≤ point) && _ else
      decide (lowEnd m q * scale < point) && _) = true at h
    split at h <;> simp only [Bool.and_eq_true, decide_eq_true_eq] at h <;> omega
  -- over a common denominator both sides are whole numbers
  have hpos : (0 : ℚ) < 2 ^ (-(q - 2)).toNat * 10 ^ (-k).toNat := by positivity
  have hvalue : (⟨n, k⟩ : Decimal).value =
      point / (2 ^ (-(q - 2)).toNat * 10 ^ (-k).toNat) := by
    rw [← hpoint, ← neg_sub q 2, cast_stepped n (q - 2) k, value]
  have hquarters (a : Nat) : (a : ℚ) * 2 ^ (q - 2) =
      (a * scale : Nat) / (2 ^ (-(q - 2)).toNat * 10 ^ (-k).toNat) := by
    rw [← hscale, cast_scaled a (q - 2) k]
  obtain ⟨hlow, hhigh, hodd⟩ := hends
  refine ⟨?_, ?_, fun h => ?_⟩ <;>
    simp only [hvalue, hquarters, ne_eq, div_left_inj' hpos.ne', div_le_div_iff_of_pos_right hpos,
    Nat.cast_le, Nat.cast_inj]
  exacts [hlow, hhigh, hodd h]

theorem roundsTo_onGrid? (h : onGrid? m q k = some n) : (⟨n, k⟩ : Decimal).RoundsTo m q := by
  unfold onGrid? at h
  dsimp only at h
  refine roundsTo_of_rounds ?_
  split at h
  · split at h <;> cases h <;> assumption
  · cases h; assumption
  · cases h; assumption
  · cases h

theorem roundsTo_of_value (h : d.value = m * 2 ^ q) : d.RoundsTo m q := by
  have hunit : (m : ℚ) * 2 ^ q = (4 * m : Nat) * 2 ^ (q - 2) := by
    rw [zpow_sub₀ (by norm_num)]
    push_cast
    ring
  have hpos : (0 : ℚ) < 2 ^ (q - 2) := by positivity
  refine ⟨?_, ?_, fun _ => ?_⟩ <;>
    simp only [h, hunit, lowEnd, ne_eq, mul_le_mul_iff_left₀ hpos, mul_left_inj' hpos.ne',
      Nat.cast_le, Nat.cast_inj]
  · omega
  · omega
  · exact ⟨by split_ifs <;> omega, by omega⟩

theorem roundsTo_onCoarsestGrid (m : Nat) (q : Int) (tries : Nat) (k : Int) :
    (onCoarsestGrid m q tries k).RoundsTo m q := by
  induction tries generalizing k with
  | zero =>
    refine roundsTo_of_value ?_
    obtain ⟨n, rfl | rfl⟩ := q.eq_nat_or_neg
    · simp [onCoarsestGrid, value, pow2]
    · have hten : (10 : ℚ) ^ n = 2 ^ n * 5 ^ n := by rw [← mul_pow]; norm_num
      simp [onCoarsestGrid, value, pow2]
      rw [hten]
      field_simp
  | succ tries ih =>
    rw [onCoarsestGrid]
    split
    · exact roundsTo_onGrid? ‹_›
    · exact ih _

theorem roundsTo_shortest (m : Nat) (q : Int) : (shortest m q).RoundsTo m q := by
  rw [shortest]
  split
  · subst_vars
    exact roundsTo_of_value (by simp [value])
  · exact roundsTo_onCoarsestGrid ..

theorem RoundsTo.not_lt (h : d.RoundsTo m q) (h' : d.RoundsTo m' q') (hm : Binary.IsNormal m q)
    (hm' : Binary.IsNormal m' q') : ¬ (q < q' ∨ q = q' ∧ m < m') := by
  intro hlt
  have hpos : (0 : ℚ) < 2 ^ (q - 2) := by positivity
  have hunit : (2 : ℚ) ^ (q' - 2) = (2 ^ (q' - q).toNat : Nat) * 2 ^ (q - 2) := by
    have he : q' - 2 = ((q' - q).toNat : Int) + (q - 2) := by omega
    rw [he, zpow_add₀ (by norm_num), zpow_natCast, Nat.cast_pow, Nat.cast_ofNat]
  have hbegin : (lowEnd m' q' : ℚ) * 2 ^ (q' - 2) =
      (lowEnd m' q' * 2 ^ (q' - q).toNat : Nat) * 2 ^ (q - 2) := by
    rw [hunit, ← mul_assoc, ← Nat.cast_mul]
  have hlow := hbegin ▸ h'.low_le
  have hle : lowEnd m' q' * 2 ^ (q' - q).toNat ≤ 4 * m + 2 :=
    Nat.cast_le.1 ((mul_le_mul_iff_left₀ hpos).1 (hlow.trans h.le_high))
  have hmeet (heq : lowEnd m' q' * 2 ^ (q' - q).toNat = 4 * m + 2) :
      m % 2 ≠ 1 ∧ m' % 2 ≠ 1 := by
    rw [heq] at hlow hbegin
    have hval := le_antisymm h.le_high hlow
    exact ⟨fun hodd => (h.ne_ends hodd).2 hval,
      fun hodd => (h'.ne_ends hodd).1 (hbegin.trans hval.symm)⟩
  have hlt53 := hm.lt
  have hfull := hm'.full
  have hqle := hm.le
  rcases hlt with hlt | ⟨rfl, hlt⟩
  · have htwo : 2 ≤ 2 ^ (q' - q).toNat := Nat.le_self_pow (by omega) 2
    have hdouble := Nat.mul_le_mul_left (lowEnd m' q') htwo
    have hlowest : 2 ^ 54 - 1 ≤ lowEnd m' q' := by
      unfold lowEnd
      split_ifs <;> omega
    omega
  · have hlowest : 4 * m' - 2 ≤ lowEnd m' q := by
      unfold lowEnd
      split_ifs <;> omega
    simp only [sub_self, Int.toNat_zero, pow_zero, mul_one] at hle hmeet
    omega

theorem RoundsTo.unique (h : d.RoundsTo m q) (h' : d.RoundsTo m' q') (hm : Binary.IsNormal m q)
    (hm' : Binary.IsNormal m' q') : m = m' ∧ q = q' := by
  have hnot := h.not_lt h' hm hm'
  have hnot' := h'.not_lt h hm' hm
  omega

theorem isDigit_of_mem {c : Char} {zeros : Nat}
    (h : c ∈ List.replicate zeros '0' ∨ c ∈ Nat.toDigits 10 n) : c.isDigit := by
  rcases h with h | h
  · rw [List.eq_of_mem_replicate h]
    decide
  · exact Nat.isDigit_of_mem_toDigits (by decide) (by decide) h

theorem positional_of_nonneg (h : 0 ≤ d.exponent) : ∀ c ∈ d.positional.toList, c.isDigit := by
  intro c hc
  rw [positional, if_pos h, String.toList_ofList, List.mem_append] at hc
  exact isDigit_of_mem hc.symm

theorem positional_of_neg (h : d.exponent < 0) :
    ∃ whole fraction, d.positional.toList = whole ++ '.' :: fraction ∧
    whole ≠ [] ∧ (∀ c ∈ whole ++ fraction, c.isDigit) ∧
    fraction.length = (-d.exponent).toNat ∧ Numeral.value (whole ++ fraction) = d.digits := by
  obtain ⟨padded, hpadded⟩ :
    ∃ padded, List.replicate ((-d.exponent).toNat + 1 - (Nat.toDigits 10 d.digits).length) '0' ++
    Nat.toDigits 10 d.digits = padded := ⟨_, rfl⟩
  have hlength : (-d.exponent).toNat + 1 ≤ padded.length := by
    rw [← hpadded, List.length_append, List.length_replicate]
    omega
  refine ⟨padded.take (padded.length - (-d.exponent).toNat),
    padded.drop (padded.length - (-d.exponent).toNat), ?_, ?_, ?_, ?_, ?_⟩
  · rw [positional, if_neg (by omega), String.toList_ofList, hpadded]
  · rw [Ne, List.take_eq_nil_iff]
    rintro (hzero | rfl)
    · omega
    · simp at hlength
  · rw [List.take_append_drop, ← hpadded]
    exact fun c hc => isDigit_of_mem (List.mem_append.1 hc)
  · rw [List.length_drop]
    omega
  · rw [List.take_append_drop, ← hpadded]
    change Nat.ofDigitChars 10 _ 0 = _
    rw [Nat.ofDigitChars_append, Nat.ofDigitChars_replicate_zero, Nat.mul_zero,
      Nat.ofDigitChars_ten_toDigits]

theorem positional_inj (hpoint : '.' ∈ d.positional.toList)
    (h : d.positional = d'.positional) : d = d' := by
  have hneg {d : Decimal} (hpoint : '.' ∈ d.positional.toList) : d.exponent < 0 := by
    by_contra hnonneg
    exact absurd (positional_of_nonneg (not_lt.1 hnonneg) _ hpoint) (by decide)
  obtain ⟨whole, fraction, htext, -, hdigits, hlength, hvalue⟩ :=
    positional_of_neg (hneg hpoint)
  obtain ⟨whole', fraction', htext', -, hdigits', hlength', hvalue'⟩ :=
    positional_of_neg (hneg (h ▸ hpoint))
  have hno {cs : List Char} (hcs : ∀ c ∈ cs, c.isDigit) :
      '.' ∉ cs := fun hmem => absurd (hcs _ hmem) (by decide)
  rw [h, htext',
    List.append_cons_inj_of_notMem (hno fun c hc => hdigits' c (List.mem_append_left _ hc))
    (hno fun c hc => hdigits' c (List.mem_append_right _ hc))] at htext
  obtain ⟨rfl, -, rfl⟩ := htext
  have hexp : d.exponent = d'.exponent := by
    have := hneg hpoint
    have := hneg (h ▸ hpoint)
    omega
  cases d
  cases d'
  exact congrArg₂ mk (hvalue.symm.trans hvalue') hexp

theorem mem_positional {c : Char} (h : c ∈ d.positional.toList) : c.isDigit ∨ c = '.' := by
  by_cases hexp : 0 ≤ d.exponent
  · exact .inl (positional_of_nonneg hexp c h)
  · obtain ⟨whole, fraction, htext, -, hdigits, -, -⟩ := positional_of_neg (not_le.1 hexp)
    have := hdigits c
    rw [htext] at h
    simp only [List.mem_append, List.mem_cons] at h this
    tauto

theorem positional_ten_mul (n : Nat) :
    (⟨10 * n, -1⟩ : Decimal).positional = n.repr ++ ".0" := by
  rcases n.eq_zero_or_pos with rfl | hn
  · decide
  · have hdigits : Nat.toDigits 10 (10 * n) = Nat.toDigits 10 n ++ ['0'] :=
      (Nat.toDigits_append_toDigits (d := 0) (by decide) hn (by decide)).symm
    have hpad : 1 - (Nat.toDigits 10 n).length = 0 :=
      Nat.sub_eq_zero_of_le (List.length_pos_of_ne_nil Nat.toDigits_ne_nil)
    have hneg : ¬ (0 : Int) ≤ -1 := by decide
    rw [String.ext_iff, String.toList_append, Nat.toList_repr, positional, if_neg hneg,
      String.toList_ofList]
    simp [hdigits, hpad]

end Decimal

namespace Binary

variable {x y : Float} {negative : Bool} {m n : Nat} {q : Int}

theorem cast_wholePart? (h : wholePart? m q = some n) : (n : ℚ) = m * 2 ^ q := by
  rw [zpow_eq_div]
  unfold wholePart? at h
  split_ifs at h with hq hdvd <;> cases h
  · simp [pow2, Int.toNat_of_nonpos (neg_nonpos.2 hq)]
  · rw [Nat.cast_div (Nat.dvd_of_mod_eq_zero hdvd) (by simp [pow2]),
      Int.toNat_of_nonpos (not_le.1 hq).le]
    simp [pow2, div_eq_mul_inv]

theorem isNormal_ofFloat (h : ofFloat x = .finite negative m q) : IsNormal m q := by
  have hfraction : x.toBits.toNat % pow2 52 < 2 ^ 52 := Nat.mod_lt _ (by decide)
  have hpow : pow2 52 = 2 ^ 52 := rfl
  unfold ofFloat at h
  dsimp only at h
  split_ifs at h <;> cases h
  · exact ⟨by omega, le_refl _, .inr rfl⟩
  · exact ⟨by omega, by omega, .inl (by omega)⟩

theorem ofFloat_inj (h : ofFloat x = .finite negative m q)
    (h' : ofFloat y = .finite negative m q) : x = y := by
  have hbits := x.toBits.toNat_lt
  have hbits' := y.toBits.toNat_lt
  rw [← Float.toBits_inj, ← UInt64.toNat_inj]
  have hp52 : pow2 52 = 2 ^ 52 := rfl
  have hp11 : pow2 11 = 2 ^ 11 := rfl
  have hp63 : pow2 63 = 2 ^ 63 := rfl
  unfold ofFloat at h h'
  simp only [hp52, hp11, hp63] at h h'
  split_ifs at h h' <;> cases h <;> simp only [finite.injEq] at h' <;> grind

end Binary

variable {x y : Float} {negative : Bool} {m : Nat} {q : Int} {v v' : Value}

theorem floatText_finite (h : Binary.ofFloat x = .finite negative m q) :
    ∃ d : Decimal, d.RoundsTo m q ∧
    floatText x = (if negative then "-" else "") ++ d.positional := by
  unfold floatText
  rw [h]
  dsimp only
  cases hwhole : (Binary.wholePart? m q).filter (· < pow10 16) with
  | none => exact ⟨_, Decimal.roundsTo_shortest m q, by cases negative <;> simp⟩
  | some n =>
    obtain ⟨hn, -⟩ := Option.filter_eq_some_iff.1 hwhole
    refine ⟨⟨10 * n, -1⟩, Decimal.roundsTo_of_value ?_, ?_⟩
    · rw [Decimal.value, ← Binary.cast_wholePart? hn]
      push_cast
      ring
    · rw [Decimal.positional_ten_mul]
      cases negative <;> simp

theorem exists_finite_of_point (h : '.' ∈ (floatText x).toList) :
    ∃ negative m q, Binary.ofFloat x = .finite negative m q := by
  unfold floatText at h
  split at h
  · simp at h
  · split at h <;> simp at h
  · exact ⟨_, _, _, ‹_›⟩

theorem floatText_inj (hpoint : '.' ∈ (floatText x).toList)
    (h : floatText x = floatText y) : x = y := by
  obtain ⟨negative, m, q, hx⟩ := exists_finite_of_point hpoint
  obtain ⟨negative', m', q', hy⟩ := exists_finite_of_point (h ▸ hpoint)
  obtain ⟨d, hd, htext⟩ := floatText_finite hx
  obtain ⟨d', hd', htext'⟩ := floatText_finite hy
  have hsign (d d' : Decimal) : "-" ++ d.positional ≠ d'.positional := by
    intro heq
    have hmem : '-' ∈ d'.positional.toList := by
      rw [← heq]
      simp
    exact absurd (Decimal.mem_positional hmem) (by decide)
  have hboth : negative = negative' ∧ d.positional = d'.positional := by
    rw [htext, htext'] at h
    cases negative <;> cases negative' <;>
      simp only [Bool.false_eq_true, if_true, if_false, String.empty_append] at h
    · exact ⟨rfl, h⟩
    · exact absurd h.symm (hsign d' d)
    · exact absurd h (hsign d d')
    · exact ⟨rfl, (String.append_right_inj "-").1 h⟩
  obtain ⟨rfl, hpositional⟩ := hboth
  obtain rfl :=
    Decimal.positional_inj (by rw [htext] at hpoint; cases negative <;> simpa using hpoint)
    hpositional
  obtain ⟨rfl, rfl⟩ := hd.unique hd' (Binary.isNormal_ofFloat hx) (Binary.isNormal_ofFloat hy)
  exact Binary.ofFloat_inj hx hy

theorem mem_floatText {c : Char} (hpoint : '.' ∈ (floatText x).toList)
    (hc : c ∈ (floatText x).toList) : c.isDigit ∨ c = '.' ∨ c = '-' := by
  obtain ⟨negative, m, q, hx⟩ := exists_finite_of_point hpoint
  obtain ⟨d, -, htext⟩ := floatText_finite hx
  have := Decimal.mem_positional (d := d) (c := c)
  rw [htext] at hc
  cases negative <;> simp at hc <;> tauto

theorem mem_intText {c : Char} {z : Int} (hc : c ∈ (toString z).toList) :
    c.isDigit ∨ c = '-' := by
  have hdigits (n : Nat) (hmem : c ∈ n.repr.toList) : c.isDigit :=
    Nat.isDigit_of_mem_toDigits (by decide) (by decide) (Nat.toList_repr ▸ hmem)
  rw [Int.toString_eq_repr, Int.repr_eq_if] at hc
  split at hc
  · exact .inl (hdigits _ hc)
  · rw [String.toList_append, List.mem_append] at hc
    rcases hc with hc | hc
    · exact .inr (by simpa using hc)
    · exact .inl (hdigits _ hc)

namespace Value

def plain : Value → Value
  | .bool b => .int (if b then 0 else 1)
  | v => v

/-- A value that is known from its text: a float is told from an integer by its point, a string from
a number by its quote. -/
def IsLegible : Value → Prop
  | .int _ | .bool _ => True
  | .float x => '.' ∈ (floatText x).toList
  | .str s => s.toList.head? = some '\'' ∨ s.toList.head? = some '"'

instance : DecidablePred IsLegible
  | .int _ | .bool _ => .isTrue trivial
  | .float x => inferInstanceAs (Decidable ('.' ∈ (floatText x).toList))
  | .str s => inferInstanceAs (Decidable (s.toList.head? = some '\'' ∨ s.toList.head? = some '"'))

theorem text_plain (v : Value) : v.plain.text = v.text := by
  cases v with
  | bool b => cases b <;> decide
  | int | float | str => rfl

theorem mem_text {c : Char} (h : v.IsLegible) (hstr : v.dataType ≠ .str)
    (hc : c ∈ v.text.toList) : c.isDigit ∨ c = '.' ∨ c = '-' := by
  cases v with
  | int z => exact (mem_intText hc).imp_right .inr
  | float x => exact mem_floatText h hc
  | bool b => cases b <;> simp [text] at hc <;> simp [hc]
  | str s => exact absurd rfl hstr

theorem text_ne_of_quote {s : String} (h : v.IsLegible) (hstr : v.dataType ≠ .str)
    (hs : (str s).IsLegible) : v.text ≠ s := by
  rintro rfl
  rcases hs with hs | hs <;> exact absurd (mem_text h hstr (List.mem_of_head? hs)) (by decide)

theorem eq_of_text_eq (h : v.IsLegible) (h' : v'.IsLegible) (hbool : v.dataType ≠ .bool)
    (hbool' : v'.dataType ≠ .bool) (htext : v.text = v'.text) : v = v' := by
  cases v with
  | bool b => exact absurd rfl hbool
  | int z =>
    cases v' with
    | bool b => exact absurd rfl hbool'
    | int z' =>
      change toString z.toInt = toString z'.toInt at htext
      rw [Int.toString_eq_repr, Int.toString_eq_repr, Int.repr_inj, Int64.toInt_inj] at htext
      rw [htext]
    | float x =>
      exact absurd (mem_intText (htext ▸ h' : '.' ∈ (text (int z)).toList)) (by decide)
    | str s => exact absurd htext (text_ne_of_quote h nofun h')
  | float x =>
    cases v' with
    | bool b => exact absurd rfl hbool'
    | int z => exact absurd (mem_intText (htext ▸ h : '.' ∈ (text (int z)).toList)) (by decide)
    | float y => rw [floatText_inj h htext]
    | str s => exact absurd htext (text_ne_of_quote h nofun h')
  | str s =>
    by_cases hstr : v'.dataType = .str
    · cases v' <;> cases hstr
      exact congrArg str htext
    · exact absurd htext.symm (text_ne_of_quote h' hstr h)

theorem plain_eq_of_text_eq (h : v.IsLegible) (h' : v'.IsLegible) (htext : v.text = v'.text) :
    v.plain = v'.plain := by
  have hplain (v : Value) : v.plain.dataType ≠ .bool := by cases v <;> exact nofun
  have hlegible {v : Value} (h : v.IsLegible) : v.plain.IsLegible := by cases v <;> trivial
  exact eq_of_text_eq (hlegible h) (hlegible h') (hplain v) (hplain v')
    (by rw [text_plain, text_plain, htext])

open Classical in
theorem exists_reader :
    ∃ read : String → Value, ∀ v : Value, v.IsLegible → read v.text = v.plain := by
  refine ⟨fun s =>
    if h : ∃ v : Value, v.IsLegible ∧ v.text = s then h.choose.plain else .str s,
    fun v hv => ?_⟩
  have hex : ∃ w : Value, w.IsLegible ∧ w.text = v.text := ⟨v, hv, rfl⟩
  refine (dif_pos hex).trans ?_
  exact plain_eq_of_text_eq hex.choose_spec.1 hv hex.choose_spec.2

end Value

end TurtleCompiler
