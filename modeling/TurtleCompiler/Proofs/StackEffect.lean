import TurtleCompiler.Proofs.Processor

/-!
What code does to the height of a stack. The code of a value leaves one more than there were. The
code of a condition that goes nowhere leaves one if its evaluation comes to a literal in the last
place, and otherwise none: a comparison drops what it computes.
-/

namespace TurtleCompiler

def Instr.effect? : Instr → Option (Nat × Nat)
  | .push _ | .load _ => some (0, 1)
  | .operate .idiv => some (2, 2)
  | .operate .pop => some (1, 0)
  | .operate _ => some (2, 1)
  | .compareZero => some (1, 1)
  | .call name => if name = "RANDOM" then some (0, 1) else none
  | .store _ | .jump .. | .label _ | .verbatim _ => none

variable {i : Instr}

theorem Instr.isPlain_of_effect? {effect : Nat × Nat} (h : i.effect? = some effect) :
    i.isPlain := by
  cases i <;> simp_all [effect?, isPlain]

theorem Targets.place_empty (code next : List Instr) (b : Bool) :
    ({} : Targets).place code next b = .before next := by
  cases b <;> rfl

namespace Machine

variable {σ β : Type} {m : Machine σ} {stack : σ → List β} {base : Nat} {code : List Instr}
  {c c' : Control × σ}

structure Stacks (m : Machine σ) (stack : σ → List β) : Prop where
  exec : ∀ {i takes leaves}, i.effect? = some (takes, leaves) →
    ∀ {s taken rest}, stack s = taken ++ rest →
    taken.length = takes → ∃ s' left, m.exec i s = some s' ∧ stack s' = left ++ rest ∧
    left.length = leaves

def above (m : Machine σ) (stack : σ → List β) (base : Nat) : Machine σ where
  exec i s :=
    match i.effect? with
    | some (takes, _) => if base + takes ≤ (stack s).length then m.exec i s else none
    | none => none
  order := m.order

theorem exec_of_above {s s' : σ} (h : (m.above stack base).exec i s = some s') :
    m.exec i s = some s' := by
  simp only [above] at h
  split at h
  · split at h
    · exact h
    · cases h
  · cases h

theorem step_of_above (h : (m.above stack base).step code c = some c') :
    m.step code c = some c' := by
  obtain ⟨_ | l, s⟩ := c
  · rename_i rest
    cases rest with
    | nil => cases h
    | cons i rest =>
      by_cases hi : i.isPlain
      · rw [step_of_isPlain hi] at h ⊢
        obtain ⟨s', hs', rfl⟩ := Option.map_eq_some_iff.1 h
        rw [exec_of_above hs']
        rfl
      · cases i with
        | jump | label => exact h
        | _ => exact absurd rfl hi
  · cases h

theorem Reaches.of_above (h : (m.above stack base).Reaches code c c') : m.Reaches code c c' :=
  Relation.ReflTransGen.mono (fun _ _ => step_of_above) _ _ h

theorem Through.unique {s s' s'' : σ} (h : m.Through code s s')
    (h' : m.Through code s s'') : s' = s'' :=
  (Prod.mk.inj (h.eq_of_step_eq_none h' rfl rfl)).2

namespace Stacks

variable (hm : m.Stacks stack) {s : σ} {rest : List β}

include hm

theorem reaches_above {takes leaves : Nat} {taken : List β} (hi : i.effect? = some (takes, leaves))
    (hs : stack s = taken ++ rest) (htaken : taken.length = takes) (hbase : base ≤ rest.length)
    (next : List Instr) :
    ∃ s' left, (m.above stack base).Reaches code (.before (i :: next), s) (.before next, s') ∧
      stack s' = left ++ rest ∧ left.length = leaves := by
  obtain ⟨s', left, hexec, hs', hleft⟩ := hm.exec hi hs htaken
  refine ⟨s', left, .single ?_, hs', hleft⟩
  have hroom : base + takes ≤ (stack s).length := by
    rw [hs, List.length_append, htaken]
    omega
  simp [step_of_isPlain (Instr.isPlain_of_effect? hi), above, hi, hroom, hexec]

theorem reaches_push (hi : i.effect? = some (0, 1)) (hbase : base ≤ (stack s).length)
    (next : List Instr) : ∃ s' v, (m.above stack base).Reaches code (.before (i :: next), s)
    (.before next, s') ∧ stack s' = v :: stack s := by
  obtain ⟨s', left, hrun, hs', hleft⟩ :=
    hm.reaches_above hi (List.nil_append _).symm rfl hbase next
  obtain ⟨v, rfl⟩ := List.length_eq_one_iff.1 hleft
  exact ⟨s', v, hrun, hs'⟩

theorem reaches_pop {v : β} (hs : stack s = v :: rest) (hbase : base ≤ rest.length)
    (next : List Instr) : ∃ s', (m.above stack base).Reaches code
    (.before (.operate .pop :: next), s) (.before next, s') ∧ stack s' = rest := by
  obtain ⟨s', left, hrun, hs', hleft⟩ :=
    hm.reaches_above (i := .operate .pop) rfl (show _ = [v] ++ rest from hs) rfl hbase next
  obtain rfl := List.length_eq_zero_iff.1 hleft
  exact ⟨s', hrun, hs'⟩

theorem reaches_binary (op : Operation) (hop : (Instr.operate op).effect? = some (2, 1)) {x y : β}
    (hs : stack s = y :: x :: rest) (hbase : base ≤ rest.length) (next : List Instr) :
    ∃ s' v,
      (m.above stack base).Reaches code (.before (.operate op :: next), s) (.before next, s') ∧
      stack s' = v :: rest := by
  obtain ⟨s', left, hrun, hs', hleft⟩ :=
    hm.reaches_above hop (show _ = [y, x] ++ rest from hs) rfl hbase next
  obtain ⟨v, rfl⟩ := List.length_eq_one_iff.1 hleft
  exact ⟨s', v, hrun, hs'⟩

theorem reaches_arith (op : ArithOp) {x y : β} (hs : stack s = y :: x :: rest)
    (hbase : base ≤ rest.length) (next : List Instr) :
    ∃ s' v,
      (m.above stack base).Reaches code (.before (op.code ++ next), s) (.before next, s') ∧
      stack s' = v :: rest := by
  cases op with
  | add | sub | mul | div | pow => exact hm.reaches_binary _ rfl hs hbase next
  | mod =>
    obtain ⟨s₁, left, hdivide, hs₁, hleft⟩ :=
      hm.reaches_above (i := .operate .idiv) rfl (show _ = [y, x] ++ rest from hs) rfl hbase
      (.operate .pop :: next)
    obtain ⟨q, v, rfl⟩ := List.length_eq_two.1 hleft
    obtain ⟨s', hpop, hs'⟩ := hm.reaches_pop hs₁ (Nat.le_succ_of_le hbase) next
    exact ⟨s', v, hdivide.trans hpop, hs'⟩

end Stacks

end Machine

section Values

variable {σ β : Type} {m : Machine σ} {stack : σ → List β} {base : Nat} {t : Table}
  (hm : m.Stacks stack) (code : List Instr) {s : σ}

include hm

theorem reaches_literal_value (b : Bool) (hbase : base ≤ (stack s).length) (next : List Instr) :
    ∃ s' v, (m.above stack base).Reaches code (.before (literalCode b {} ++ next), s)
      (.before next, s') ∧ stack s' = v :: stack s := by
  obtain ⟨s₁, v, hpush, hs₁⟩ :=
    hm.reaches_push (i := .push (.bool b)) rfl hbase (.compareZero :: next)
  obtain ⟨s', left, hcompare, hs', hleft⟩ :=
    hm.reaches_above (i := .compareZero) rfl (show _ = [v] ++ stack s from hs₁) rfl hbase next
  obtain ⟨w, rfl⟩ := List.length_eq_one_iff.1 hleft
  exact ⟨s', w, hpush.trans hcompare, hs'⟩

theorem Expr.reaches_above {e : Expr} (he : e.isSimple t) (hbase : base ≤ (stack s).length)
    (next : List Instr) :
    ∃ s' v,
      (m.above stack base).Reaches code (.before (e.code t ++ next), s) (.before next, s') ∧
      stack s' = v :: stack s := by
  induction e using Expr.induction generalizing s next with
  | const v => exact hm.reaches_push (i := .push v) rfl hbase next
  | var symbol type => exact hm.reaches_push (i := .load _) rfl hbase next
  | arith op l r type value ihl ihr =>
    simp only [Expr.isSimple, Bool.and_eq_true] at he
    simp only [Expr.code, List.append_assoc]
    obtain ⟨s₁, x, hl, hs₁⟩ := ihl he.1 hbase (r.code t ++ (op.code ++ next))
    have hbase₁ : base ≤ (stack s₁).length := hs₁ ▸ Nat.le_succ_of_le hbase
    obtain ⟨s₂, y, hr, hs₂⟩ := ihr he.2 hbase₁ (op.code ++ next)
    obtain ⟨s₃, v, hop, hs₃⟩ := hm.reaches_arith op (hs₂.trans (by rw [hs₁])) hbase next
    exact ⟨s₃, v, hl.trans (hr.trans hop), hs₃⟩
  | call callee args type =>
    simp only [Expr.isSimple, Bool.and_eq_true, List.isEmpty_iff] at he
    obtain ⟨rfl, hrandom⟩ := he
    rw [Expr.code_call_random hrandom]
    exact hm.reaches_push (i := .call "RANDOM") rfl hbase next
  | cond c =>
    cases c with
    | literal b => exact reaches_literal_value hm code b hbase next
    | _ => simp [Expr.isSimple] at he

theorem reaches_comparisonCode {l r : Expr} (hl : l.isSimple t) (hr : r.isSimple t)
    (hbase : base ≤ (stack s).length) (next : List Instr) :
    ∃ s', (m.above stack base).Reaches code (.before (comparisonCode t l r ++ next), s)
      (.before next, s') ∧ stack s' = stack s := by
  simp only [comparisonCode, List.append_assoc]
  obtain ⟨s₁, x, hrunl, hs₁⟩ := Expr.reaches_above hm code hl hbase
    (r.code t ++ ([.operate .sub, .operate .pop] ++ next))
  have hbase₁ : base ≤ (stack s₁).length := hs₁ ▸ Nat.le_succ_of_le hbase
  obtain ⟨s₂, y, hrunr, hs₂⟩ :=
    Expr.reaches_above hm code hr hbase₁ ([.operate .sub, .operate .pop] ++ next)
  obtain ⟨s₃, v, hsub, hs₃⟩ :=
    hm.reaches_binary .sub rfl (hs₂.trans (by rw [hs₁])) hbase (.operate .pop :: next)
  obtain ⟨s₄, hpop, hs₄⟩ := hm.reaches_pop hs₃ hbase next
  exact ⟨s₄, hrunl.trans (hrunr.trans (hsub.trans hpop)), hs₄⟩

theorem Cond.exists_evaluates_above {c : Cond} (hc : c.isSimple t)
    (hbase : base ≤ (stack s).length) :
    ∃ vs b s', c.Evaluates (m.above stack base) t s vs b s' ∧ stack s' = stack s := by
  induction c using Cond.induction generalizing s with
  | literal b => exact ⟨[], b, s, .literal, rfl⟩
  | compare op l r =>
    simp only [Cond.isSimple, Bool.and_eq_true] at hc
    obtain ⟨s', hrun, hs'⟩ :=
      reaches_comparisonCode hm (comparisonCode t l r) hc.1 hc.2 hbase []
    rw [List.append_nil] at hrun
    exact ⟨[(l, r)], _, s', .compare hrun, hs'⟩
  | not c ih =>
    obtain ⟨vs, b, s', hrun, hs'⟩ := ih hc hbase
    exact ⟨vs, !b, s', hrun.not, hs'⟩
  | logic op l r skip ihl ihr =>
    simp only [Cond.isSimple, Bool.and_eq_true] at hc
    obtain ⟨vs, b, s₁, hl, hs₁⟩ := ihl hc.1 hbase
    cases hb : op.decidedBy b with
    | true => exact ⟨vs, b, s₁, hl.decided hb, hs₁⟩
    | false =>
      obtain ⟨vs', b', s', hr, hs'⟩ := ihr hc.2 (hs₁ ▸ hbase)
      exact ⟨vs ++ vs', b', s', hl.undecided hb hr, hs'.trans hs₁⟩

end Values

section Evaluates

variable {σ β : Type} {m : Machine σ} {stack : σ → List β} {base : Nat} {t : Table}
  {c : Cond} {s s' s'' : σ} {vs vs' : List (TurtleCompiler.Expr × TurtleCompiler.Expr)}
  {b b' : Bool}

theorem Cond.Evaluates.of_above (h : c.Evaluates (m.above stack base) t s vs b s') :
    c.Evaluates m t s vs b s' := by
  induction h with
  | literal => exact .literal
  | compare hs => exact .compare (Machine.Reaches.of_above hs)
  | not _ ih => exact ih.not
  | decided _ hb ih => exact ih.decided hb
  | undecided _ hb _ ihl ihr => exact ihl.undecided hb ihr

theorem Cond.Evaluates.unique (h : c.Evaluates m t s vs b s') (h' : c.Evaluates m t s vs' b' s'') :
    b = b' ∧ s' = s'' := by
  induction h generalizing vs' b' s'' with
  | literal =>
    cases h'
    exact ⟨rfl, rfl⟩
  | compare hs =>
    cases h' with
    | compare hs' =>
      obtain rfl := hs.unique hs'
      exact ⟨rfl, rfl⟩
  | not _ ih =>
    cases h' with
    | not h' =>
      obtain ⟨rfl, rfl⟩ := ih h'
      exact ⟨rfl, rfl⟩
  | decided _ hb ih =>
    cases h' with
    | decided h' _ => exact ih h'
    | undecided h' hb' _ =>
      obtain ⟨rfl, rfl⟩ := ih h'
      simp [hb] at hb'
  | undecided _ hb _ ihl ihr =>
    cases h' with
    | decided h' hb' =>
      obtain ⟨rfl, rfl⟩ := ihl h'
      simp [hb] at hb'
    | undecided h' _ hr' =>
      obtain ⟨rfl, rfl⟩ := ihl h'
      exact ihr hr'

end Evaluates

/-- How many values a condition leaves that goes nowhere. Evaluation that comes to a literal in the
last place leaves it; none is left by a comparison, nor if a left operand settles the outcome. -/
inductive Cond.Leaves {σ : Type} (m : Machine σ) (t : Table) : Cond → σ → Nat → Prop
  | literal : Leaves m t (.literal b) s 1
  | compare : Leaves m t (.compare op l r) s 0
  | not : Leaves m t c s n → Leaves m t (.not c) s n
  | decided : l.Evaluates m t s vs b s' → op.decidedBy b = true →
      Leaves m t (.logic op l r skip) s 0
  | undecided : l.Evaluates m t s vs b s' → op.decidedBy b = false → Leaves m t r s' n →
      Leaves m t (.logic op l r skip) s n

def Expr.Leaves {σ : Type} (m : Machine σ) (t : Table) : Expr → σ → Nat → Prop
  | .cond c, s, n => c.Leaves m t s n
  | _, _, n => n = 1

section Leaves

variable {σ β : Type} {m : Machine σ} {stack : σ → List β} {base : Nat} {code : List Instr}
  {t : Table} {s : σ}

theorem Cond.Leaves.unique {c : Cond} {n n' : Nat} (h : c.Leaves m t s n)
    (h' : c.Leaves m t s n') : n = n' := by
  induction h generalizing n' with
  | literal | compare =>
    cases h'
    rfl
  | not _ ih =>
    cases h' with
    | not h' => exact ih h'
  | decided hl hb =>
    cases h' with
    | decided => rfl
    | undecided hl' hb' _ =>
      obtain ⟨rfl, rfl⟩ := hl.unique hl'
      simp [hb] at hb'
  | undecided hl hb _ ih =>
    cases h' with
    | decided hl' hb' =>
      obtain ⟨rfl, rfl⟩ := hl.unique hl'
      simp [hb] at hb'
    | undecided hl' _ hr' =>
      obtain ⟨rfl, rfl⟩ := hl.unique hl'
      exact ih hr'

theorem Expr.Leaves.unique {e : Expr} {n n' : Nat} (h : e.Leaves m t s n)
    (h' : e.Leaves m t s n') : n = n' := by
  cases e with
  | cond c => exact Cond.Leaves.unique h h'
  | _ => exact h.trans h'.symm

theorem Cond.reaches_above (hm : m.Stacks stack) (hcode : (labelsIn code).Nodup) {c : Cond}
    (hc : c.isSimple t) (hbase : base ≤ (stack s).length) {next : List Instr}
    (hat : c.code t {} ++ next <:+ code) :
    ∃ s' vs,
      (m.above stack base).Reaches code (.before (c.code t {} ++ next), s) (.before next, s') ∧
      stack s' = vs ++ stack s ∧ c.Leaves m t s vs.length := by
  induction c using Cond.induction generalizing s next with
  | literal b =>
    obtain ⟨s', v, hrun, hs'⟩ := reaches_literal_value hm code b hbase next
    exact ⟨s', [v], hrun, hs', .literal⟩
  | compare op l r =>
    simp only [Cond.isSimple, Bool.and_eq_true] at hc
    obtain ⟨s', hrun, hs'⟩ := reaches_comparisonCode hm code hc.1 hc.2 hbase next
    refine ⟨s', [], ?_, hs', .compare⟩
    simpa [Cond.code_compare, RelOp.code] using hrun
  | not c ih =>
    obtain ⟨s', vs, hrun, hs', hvs⟩ := ih hc hbase hat
    exact ⟨s', vs, hrun, hs', hvs.not⟩
  | logic op l r skip ihl ihr =>
    simp only [Cond.isSimple, Bool.and_eq_true] at hc
    rw [Cond.code_logic, List.append_assoc, List.append_assoc] at hat ⊢
    obtain ⟨_, b, s₁, hl, hs₁⟩ := Cond.exists_evaluates_above hm hc.1 hbase
    have hleft := hl.reaches hcode (Targets.left_ne {} skip op) hat
    cases hb : op.decidedBy b with
    | true =>
      -- the right operand is skipped, with what it would leave
      have hdecided := hleft.trans (Machine.reaches_decided hb hcode
        (((List.suffix_append _ _).trans (List.suffix_append _ _)).trans hat) s₁)
      rw [Targets.place_empty] at hdecided
      exact ⟨s₁, [], hdecided, hs₁, .decided hl.of_above hb⟩
    | false =>
      rw [Targets.place_left_undecided hb] at hleft
      obtain ⟨s', vs, hright, hs', hvs⟩ :=
        ihr hc.2 (hs₁ ▸ hbase) ((List.suffix_append _ _).trans hat)
      have hskip : (m.above stack base).Reaches code _ _ :=
        Machine.reaches_past_skip op {} skip next b s'
      rw [Targets.place_empty, Targets.place_empty] at hskip
      exact ⟨s', vs, hleft.trans (hright.trans hskip), hs₁ ▸ hs',
        .undecided hl.of_above hb hvs⟩

end Leaves

end TurtleCompiler
