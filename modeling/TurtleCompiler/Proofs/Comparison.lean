import TurtleCompiler.Proofs.Actions
import TurtleCompiler.Proofs.NearestFloat

/-!
Comparisons of integer constants. They are made between floats, so two integers with the same
nearest float are taken for equal; all others are compared rightly.
-/

namespace TurtleCompiler

def RelOp.Relates (a b : Int) : RelOp → Prop
  | .less => a < b
  | .lessEq => a ≤ b
  | .greater => b < a
  | .greaterEq => b ≤ a
  | .equal => a = b
  | .notEqual => a ≠ b

instance (a b : Int) : (op : RelOp) → Decidable (op.Relates a b)
  | .less | .greater => Int.decLt ..
  | .lessEq | .greaterEq => Int.decLe ..
  | .equal => Int.instDecidableEq ..
  | .notEqual => inferInstanceAs (Decidable (a ≠ b))

theorem RelOp.holds_compare (op : RelOp) (a b : Int) :
    op.holds (compare a b) = true ↔ op.Relates a b := by
  rcases Int.lt_trichotomy a b with h | rfl | h
  · rw [compare_lt_iff_lt.2 h]
    cases op <;> simp [holds, Relates] <;> omega
  · rw [compare_eq_iff_eq.2 rfl]
    cases op <;> simp [holds, Relates]
  · rw [compare_gt_iff_gt.2 h]
    cases op <;> simp [holds, Relates] <;> omega

theorem RelOp.relates_nearestInt (op : RelOp) {a b : Int}
    (h : a = b ∨ nearestInt a ≠ nearestInt b) :
    op.Relates (nearestInt a) (nearestInt b) ↔ op.Relates a b := by
  have hle : a ≤ b → nearestInt a ≤ nearestInt b := nearestInt_mono
  have hge : b ≤ a → nearestInt b ≤ nearestInt a := nearestInt_mono
  have heq : a = b → nearestInt a = nearestInt b := fun h => h ▸ rfl
  cases op <;> simp only [Relates] <;> omega

theorem order?_int (l r : Int64) :
    (Value.int l).order? (.int r) = some (compare (nearestInt l.toInt) (nearestInt r.toInt)) := by
  have hlr := (isInteger_ofInt l).compare_eq (isInteger_ofInt r)
  have hrl := (isInteger_ofInt r).compare_eq (isInteger_ofInt l)
  rw [Std.OrientedOrd.eq_swap] at hrl
  change (if Float.ofInt l.toInt < Float.ofInt r.toInt then some Ordering.lt
    else if Float.ofInt l.toInt == Float.ofInt r.toInt then some Ordering.eq
    else if Float.ofInt r.toInt < Float.ofInt l.toInt then some Ordering.gt else none) = _
  simp only [float_lt_iff, float_beq_iff, hlr, hrl]
  cases compare (nearestInt l.toInt) (nearestInt r.toInt) <;> rfl

/-- Comparisons of integers, and what is made of them. -/
inductive Formula where
  | compare (op : RelOp) (l r : Int64)
  | not (f : Formula)
  | logic (op : LogicOp) (f g : Formula)

namespace Formula

def Holds (read : Int → Int) : Formula → Prop
  | .compare op l r => op.Relates (read l.toInt) (read r.toInt)
  | .not f => ¬ f.Holds read
  | .logic .and f g => f.Holds read ∧ g.Holds read
  | .logic .or f g => f.Holds read ∨ g.Holds read

instance (read : Int → Int) : (f : Formula) → Decidable (f.Holds read)
  | .compare op _ _ => inferInstanceAs (Decidable (op.Relates _ _))
  | .not f => @instDecidableNot _ (instDecidableHolds read f)
  | .logic .and f g => @instDecidableAnd _ _ (instDecidableHolds read f) (instDecidableHolds read g)
  | .logic .or f g => @instDecidableOr _ _ (instDecidableHolds read f) (instDecidableHolds read g)

/-- No comparison is of two integers that rounding makes equal. -/
def IsSeparate : Formula → Prop
  | .compare _ l r => l = r ∨ nearestInt l.toInt ≠ nearestInt r.toInt
  | .not f => f.IsSeparate
  | .logic _ f g => f.IsSeparate ∧ g.IsSeparate

/-- The conditions that spell a formula. An integer is any expression with a constant that is one.
-/
inductive Spells : Formula → Cond → Prop
  | compare (hl : l.value? = some (.int x)) (hr : r.value? = some (.int y))
    (h : Cond.comparison op l r line = .ok c) : Spells (.compare op x y) c
  | not (hf : Spells f c) (h : Cond.negation (.cond c) line = .ok c') : Spells (.not f) c'
  | logic (hf : Spells f c) (hg : Spells g c')
    (h : Cond.combination op (.cond c) (.cond c') skip line = .ok c'') : Spells (.logic op f g) c''

variable {f : Formula}

theorem holds_nearestInt (h : f.IsSeparate) : f.Holds nearestInt ↔ f.Holds id := by
  induction f with
  | compare op l r => exact op.relates_nearestInt (h.imp_left (congrArg Int64.toInt))
  | not f ih => exact not_congr (ih h)
  | logic op f g ihf ihg =>
    cases op with
    | and => exact and_congr (ihf h.1) (ihg h.2)
    | or => exact or_congr (ihf h.1) (ihg h.2)

theorem Spells.value? {c : Cond} (h : f.Spells c) :
    ∃ b, c.value? = some b ∧ (b = true ↔ f.Holds nearestInt) := by
  induction h with
  | @compare op l r line c x y hl hr h =>
    obtain ⟨-, rfl⟩ := Cond.comparison_eq_ok h
    refine ⟨op.holds (Ord.compare (nearestInt x.toInt) (nearestInt y.toInt)), ?_,
      op.holds_compare _ _⟩
    simp [Cond.value?, hl, hr, order?_int]
  | not _ h ih =>
    obtain ⟨b, hb, hread⟩ := ih
    obtain rfl := Except.ok.inj h
    exact ⟨!b, by simp [Cond.value?, hb], by simp [Holds, ← hread]⟩
  | @logic f c g c' op skip line c'' _ _ h ihf ihg =>
    obtain ⟨b, hb, hread⟩ := ihf
    obtain ⟨b', hb', hread'⟩ := ihg
    obtain rfl := Except.ok.inj h
    refine ⟨op.apply b b', by simp [Cond.value?, hb, hb'], ?_⟩
    cases op <;> simp [LogicOp.apply, Holds, hread, hread']

theorem exists_spells (f : Formula) : ∃ c, f.Spells c := by
  induction f with
  | compare op l r =>
    have hmake : Cond.comparison op (.const (.int l)) (.const (.int r)) 0 =
        .ok (.compare op (.const (.int l)) (.const (.int r))) := rfl
    exact ⟨_, .compare rfl rfl hmake⟩
  | not f ih =>
    obtain ⟨c, hc⟩ := ih
    have hmake : Cond.negation (.cond c) 0 = .ok (.not c) := rfl
    exact ⟨_, .not hc hmake⟩
  | logic op f g ihf ihg =>
    obtain ⟨c, hc⟩ := ihf
    obtain ⟨c', hc'⟩ := ihg
    have hmake : Cond.combination op (.cond c) (.cond c') ⟨""⟩ 0 =
      .ok (.logic op c c' ⟨""⟩) := rfl
    exact ⟨_, .logic hc hc' hmake⟩

end Formula

/-- Two integers compare as the floats nearest to them. So they are compared rightly if they are the
same or have different nearest floats, and up to `2 ^ 53` in magnitude every integer is its own. The
same is true of all formulas, and each can be spelled. -/
theorem comparison_of_nearest (op : RelOp) (l r : Int64) (line : Nat) :
    (∃ c b, Cond.comparison op (.const (.int l)) (.const (.int r)) line = .ok c ∧
      c.value? = some b ∧ (b = true ↔ op.Relates (nearestInt l.toInt) (nearestInt r.toInt)) ∧
      (l = r ∨ nearestInt l.toInt ≠ nearestInt r.toInt →
        (b = true ↔ op.Relates l.toInt r.toInt))) ∧
    (∀ z : Int, z.natAbs ≤ 2 ^ 53 → nearestInt z = z) ∧
    ∀ f : Formula, (∃ c, f.Spells c) ∧ ∀ c, f.Spells c → ∃ b, c.value? = some b ∧
      (b = true ↔ f.Holds nearestInt) ∧ (f.IsSeparate → (b = true ↔ f.Holds id)) := by
  have hformula {f : Formula} {c : Cond} (h : f.Spells c) :
      ∃ b, c.value? = some b ∧ (b = true ↔ f.Holds nearestInt) ∧
      (f.IsSeparate → (b = true ↔ f.Holds id)) := by
    obtain ⟨b, hb, hread⟩ := h.value?
    exact ⟨b, hb, hread, fun hseparate => hread.trans (Formula.holds_nearestInt hseparate)⟩
  refine ⟨?_, fun z => nearestInt_of_natAbs_le,
    fun f => ⟨f.exists_spells, fun c h => hformula h⟩⟩
  have hmake : Cond.comparison op (.const (.int l)) (.const (.int r)) line =
      .ok (.compare op (.const (.int l)) (.const (.int r))) := rfl
  obtain ⟨b, hb, hread, hexact⟩ := hformula (.compare rfl rfl hmake)
  exact ⟨_, b, hmake, hb, hread, hexact⟩

theorem comparison_of_nearest_apart :
    ∃ f c, f = Formula.logic .and (.compare .less 1 2)
      (.not (.compare .less 9007199254740994 9007199254740992)) ∧
      f.Spells c ∧ f.IsSeparate ∧ c.value? = some true := by
  have hseparate : Formula.IsSeparate
      (.logic .and (.compare .less 1 2)
        (.not (.compare .less 9007199254740994 9007199254740992))) :=
    ⟨.inr (by decide), .inr (by decide)⟩
  obtain ⟨⟨c, hc⟩, hvalue⟩ :=
    (comparison_of_nearest .less 1 2 1).2.2 (.logic .and (.compare .less 1 2)
    (.not (.compare .less 9007199254740994 9007199254740992)))
  obtain ⟨b, hb, -, hexact⟩ := hvalue c hc
  obtain rfl : b = true := (hexact hseparate).2 ⟨by decide, by decide⟩
  exact ⟨_, c, rfl, hc, hseparate, hb⟩

/-- Two neighbours above `2 ^ 53` are found to be equal, though their difference is found to be one.
-/
theorem equal_of_neighbours :
    (∃ c, Cond.comparison .equal (.const (.int 9007199254740993))
      (.const (.int 9007199254740992)) 1 = .ok c ∧ c.value? = some true) ∧
      fold 1 .sub (.int 9007199254740993) (.int 9007199254740992) = .ok (.int 1) ∧
      ¬ RelOp.Relates 9007199254740993 9007199254740992 .equal := by
  exact ⟨⟨_, rfl, by decide +kernel⟩, rfl, by decide⟩

end TurtleCompiler
