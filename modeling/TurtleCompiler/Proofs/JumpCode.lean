import TurtleCompiler.Proofs.Machine

/-!
Conditions and their jump code. A condition is evaluated from the left, and only as far as its
outcome is open.
-/

namespace TurtleCompiler

@[elab_as_elim]
theorem Cond.induction {motive : Cond → Prop} (literal : ∀ b, motive (.literal b))
    (compare : ∀ op l r, motive (.compare op l r)) (not : ∀ c, motive c → motive (.not c))
    (logic : ∀ op l r skip, motive l → motive r → motive (.logic op l r skip)) :
    ∀ c, motive c
  | .literal b => literal b
  | .compare op l r => compare op l r
  | .not c => not c (c.induction literal compare not logic)
  | .logic op l r skip =>
    logic op l r skip (l.induction literal compare not logic)
    (r.induction literal compare not logic)

namespace LogicOp

def decidedBy : LogicOp → Bool → Bool
  | .and, b => !b
  | .or, b => b

end LogicOp

def comparisonCode (t : Table) (l r : Expr) : List Instr :=
  l.code t ++ r.code t ++ [.operate .sub, .operate .pop]

namespace Machine

variable {σ : Type}

def Through (m : Machine σ) (code : List Instr) (s s' : σ) : Prop :=
  m.Reaches code (.before code, s) (.before [], s')

def Total (m : Machine σ) : Prop := ∀ i s, ∃ s', m.exec i s = some s'

end Machine

/-- Short-circuit evaluation, with the comparisons that are made on the way. A comparison comes out
as the machine finds it when it has run the operands. -/
inductive Cond.Evaluates {σ : Type} (m : Machine σ) (t : Table) :
    Cond → σ → List (Expr × Expr) → Bool → σ → Prop
  | literal : Evaluates m t (.literal b) s [] b s
  | compare : m.Through (comparisonCode t l r) s s' →
      Evaluates m t (.compare op l r) s [(l, r)] (op.holds (m.order s')) s'
  | not : Evaluates m t c s vs b s' → Evaluates m t (.not c) s vs (!b) s'
  | decided : Evaluates m t l s vs b s' → op.decidedBy b = true →
      Evaluates m t (.logic op l r skip) s vs b s'
  | undecided : Evaluates m t l s vs b s' → op.decidedBy b = false →
      Evaluates m t r s' vs' b' s'' → Evaluates m t (.logic op l r skip) s (vs ++ vs') b' s''

variable {b : Bool}

namespace Targets

def place (t : Targets) (code rest : List Instr) (b : Bool) : Control :=
  match if b then t.onTrue else t.onFalse with
  | some l => .goto code l
  | none => .before rest

def exit (t : Targets) (b : Bool) : Control :=
  match if b then t.onTrue else t.onFalse with
  | some l => .away l
  | none => .before []

@[simp] theorem place_swap (t : Targets) (code rest : List Instr) (b : Bool) :
    t.swap.place code rest b = t.place code rest (!b) := by
  cases b <;> rfl

theorem swap_ne {t : Targets} (h : t ≠ {}) : t.swap ≠ {} := by
  obtain ⟨onTrue, onFalse⟩ := t
  intro he
  simp only [swap, mk.injEq] at he
  exact h (by simp [he])

theorem left_ne (t : Targets) (skip : Label) (op : LogicOp) : t.left skip op ≠ {} := by
  cases op <;> simp [left]

theorem place_left_undecided {op : LogicOp} (h : op.decidedBy b = false) (t : Targets)
    (skip : Label) (code rest : List Instr) :
    (t.left skip op).place code rest b = .before rest := by
  cases op <;> cases b <;> simp_all [LogicOp.decidedBy, left, place]

theorem exit_injective {t : Targets} (h : t.onTrue ≠ t.onFalse) : Function.Injective t.exit := by
  obtain ⟨onTrue, onFalse⟩ := t
  intro b b' hb
  cases b <;> cases b' <;> cases onTrue <;> cases onFalse <;> simp_all [exit]

end Targets

namespace RelOp

theorem any_jumps (op : RelOp) (o : Ordering) : (op.jumps.any (·.taken o)) = op.holds o := by
  cases op <;> cases o <;> rfl

theorem any_jumpsOtherwise (op : RelOp) (o : Ordering) :
    (op.jumpsOtherwise.any (·.taken o)) = !op.holds o := by
  cases op <;> cases o <;> rfl

end RelOp

namespace Machine

variable {σ : Type} {m : Machine σ} {code rest r part : List Instr}
  {targets : Targets} {s s' : σ}

theorem reaches_jumps (js : List Jump) (l : Label) (rest : List Instr) (s : σ) :
    m.Reaches code (.before (js.map (.jump · l) ++ rest), s)
      (if js.any (·.taken (m.order s)) then .goto code l else .before rest, s) := by
  induction js with
  | nil => exact .refl
  | cons j js ih =>
    by_cases h : j.taken (m.order s)
    · exact .single (by simp [step, h])
    · refine .head (b := (.before (js.map (.jump · l) ++ rest), s)) (by simp [step, h]) ?_
      simpa [h] using ih

theorem reaches_relOp (op : RelOp) (targets : Targets) (rest : List Instr) (s : σ) :
    m.Reaches code (.before (op.code targets ++ rest), s)
      (targets.place code rest (op.holds (m.order s)), s) := by
  obtain ⟨_ | onTrue, _ | onFalse⟩ := targets
  · have : (Targets.mk none none).place code rest (op.holds (m.order s)) = .before rest := by
      simp [Targets.place]
    rw [this]
    exact .refl
  · have h : m.Reaches code _ _ := reaches_jumps op.jumpsOtherwise onFalse rest s
    rw [RelOp.any_jumpsOtherwise] at h
    cases hb : op.holds (m.order s) <;> simpa [RelOp.code, Targets.place, hb] using h
  · have h : m.Reaches code _ _ := reaches_jumps op.jumps onTrue rest s
    rw [RelOp.any_jumps] at h
    cases hb : op.holds (m.order s) <;> simpa [RelOp.code, Targets.place, hb] using h
  · have h : m.Reaches code _ _ := reaches_jumps op.jumps onTrue (.jump .always onFalse :: rest) s
    rw [RelOp.any_jumps] at h
    cases hb : op.holds (m.order s)
    · refine .trans (by simpa [RelOp.code, hb] using h) (.single ?_)
      simp [step, Jump.taken, Targets.place]
    · simpa [RelOp.code, Targets.place, hb] using h

theorem reaches_literal (h : targets ≠ {}) (b : Bool) (rest : List Instr) (s : σ) :
    m.Reaches code (.before (literalCode b targets ++ rest), s) (targets.place code rest b, s) := by
  have hcode : literalCode b targets =
      ((if b then targets.onTrue else targets.onFalse).map (.jump .always ·)).toList := by
    obtain ⟨_ | onTrue, _ | onFalse⟩ := targets
    · exact absurd rfl h
    all_goals rfl
  rw [hcode, Targets.place]
  cases if b then targets.onTrue else targets.onFalse with
  | none => exact .refl
  | some l => exact .single (by simp [step, Jump.taken])

theorem reaches_decided {op : LogicOp} (hb : op.decidedBy b = true) (hcode : (labelsIn code).Nodup)
    {skip : Label} (hat : (if targets.skips op then [.label skip] else []) ++ rest <:+ code)
    (s : σ) : m.Reaches code ((targets.left skip op).place code r b, s)
    (targets.place code rest b, s) := by
  obtain ⟨onTrue, onFalse⟩ := targets
  have hskip (h : .label skip :: rest <:+ code) :
      m.Reaches code (.goto code skip, s) (.before rest, s) := by
    rw [Control.goto_eq_before hcode h]
    exact .single rfl
  cases op <;> cases b <;> simp only [LogicOp.decidedBy, Bool.not_true, Bool.false_eq_true] at hb
  · cases onFalse with
    | none => exact hskip hat
    | some l => exact .refl
  · cases onTrue with
    | none => exact hskip hat
    | some l => exact .refl

theorem reaches_past_skip (op : LogicOp) (targets : Targets) (skip : Label)
    (rest : List Instr) (b : Bool) (s : σ) :
    m.Reaches code
      (targets.place code ((if targets.skips op then [.label skip] else []) ++ rest) b, s)
      (targets.place code rest b, s) := by
  simp only [Targets.place]
  cases if b then targets.onTrue else targets.onFalse with
  | some l => exact .refl
  | none =>
    cases targets.skips op with
    | false => exact .refl
    | true => exact .single rfl

theorem Reaches.embed (hcode : (labelsIn code).Nodup) (hpart : part ++ rest <:+ code)
    {r' : List Instr} (h : m.Reaches part (.before r, s) (.before r', s')) :
    m.Reaches code (.before (r ++ rest), s) (.before (r' ++ rest), s') := by
  generalize hc : (Control.before r, s) = c at h
  induction h using Relation.ReflTransGen.head_induction_on generalizing r s with
  | refl =>
    obtain ⟨rfl, rfl⟩ : r = r' ∧ s = s' := by simpa using hc
    exact .refl
  | @head c d hs h ih =>
    subst hc
    obtain ⟨place, s₁⟩ := d
    replace hs : m.step part (.before r, s) = some (place, s₁) := hs
    cases place with
    | away l =>
      obtain h | ⟨e, he, -⟩ := Relation.ReflTransGen.cases_head h
      · simp at h
      · simp [step] at he
    | before r₁ =>
      refine .head (b := (.before (r₁ ++ rest), s₁)) ?_ (ih rfl)
      cases r with
      | nil => simp [step] at hs
      | cons i r =>
        by_cases hi : i.isPlain
        · rw [step_of_isPlain hi] at hs
          rw [List.cons_append, step_of_isPlain hi]
          obtain ⟨s₂, hs₂, he⟩ := Option.map_eq_some_iff.1 hs
          simp_all
        · cases i with
          | label l => simp_all [step]
          | jump j l =>
            simp only [step, Option.some.injEq, Prod.mk.injEq] at hs
            obtain ⟨hr, rfl⟩ := hs
            by_cases hj : j.taken (m.order s)
            · -- control goes to a label of the part, which is the only one of its name
              rw [if_pos hj] at hr
              obtain ⟨r₂, rfl, hr₂⟩ := Control.suffix_of_goto_eq_before hr
              have : .label l :: (r₂ ++ rest) <:+ code := by
                refine .trans ?_ hpart
                obtain ⟨a, ha⟩ := hr₂
                exact ⟨a, by simp [← ha]⟩
              simp [step, hj, Control.goto_eq_before hcode this]
            · rw [if_neg hj] at hr
              simp only [Control.before.injEq] at hr
              simp [step, hj, hr]
          | _ => simp [Instr.isPlain] at hi

theorem Through.reaches (h : m.Through part s s') (hcode : (labelsIn code).Nodup)
    (hpart : part ++ rest <:+ code) :
    m.Reaches code (.before (part ++ rest), s) (.before rest, s') :=
  Reaches.embed hcode hpart h

theorem Through.append {a b : List Instr} {s'' : σ} (h : m.Through a s s')
    (h' : m.Through b s' s'') (hcode : (labelsIn (a ++ b)).Nodup) : m.Through (a ++ b) s s'' := by
  have ha : m.Reaches (a ++ b) (.before (a ++ b), s) (.before b, s') :=
    h.reaches hcode List.suffix_rfl
  have hb : m.Reaches (a ++ b) (.before (b ++ []), s') (.before [], s'') :=
    h'.reaches hcode (by simp)
  rw [List.append_nil] at hb
  exact ha.trans hb

end Machine

theorem Cond.code_compare (t : Table) (targets : Targets) (op : RelOp) (l r : Expr) :
    (Cond.compare op l r).code t targets = comparisonCode t l r ++ op.code targets := rfl

theorem Cond.code_logic (t : Table) (targets : Targets) (op : LogicOp) (l r : Cond) (skip : Label) :
    (Cond.logic op l r skip).code t targets =
      l.code t (targets.left skip op) ++ r.code t targets ++ if targets.skips op then
      [.label skip] else [] :=
  rfl

variable {σ : Type} {t : Table} {code : List Instr} {targets : Targets} {callee : SymbolId}

theorem Cond.Evaluates.reaches {m : Machine σ} (hcode : (labelsIn code).Nodup)
    {c : Cond} {s s' : σ} {vs : List (Expr × Expr)} (h : c.Evaluates m t s vs b s')
    (hreal : targets ≠ {}) {rest : List Instr} (hat : c.code t targets ++ rest <:+ code) :
    m.Reaches code (.before (c.code t targets ++ rest), s) (targets.place code rest b, s') := by
  induction h generalizing targets rest with
  | literal => exact Machine.reaches_literal hreal _ _ _
  | compare hs =>
    rw [Cond.code_compare, List.append_assoc] at hat ⊢
    exact (hs.reaches hcode hat).trans (Machine.reaches_relOp _ targets rest _)
  | not _ ih =>
    have := ih (Targets.swap_ne hreal) hat
    simpa [Cond.code] using this
  | decided _ hb ih =>
    rw [Cond.code_logic, List.append_assoc, List.append_assoc] at hat ⊢
    refine (ih (targets.left_ne _ _) hat).trans (Machine.reaches_decided hb hcode ?_ _)
    exact ((List.suffix_append _ _).trans (List.suffix_append _ _)).trans hat
  | undecided _ hb _ ihl ihr =>
    rw [Cond.code_logic, List.append_assoc, List.append_assoc] at hat ⊢
    refine (ihl (targets.left_ne _ _) hat).trans ?_
    rw [Targets.place_left_undecided hb]
    exact (ihr hreal ((List.suffix_append _ _).trans hat)).trans (Machine.reaches_past_skip ..)

mutual

def Expr.labels : Expr → List Label
  | .const _ | .var .. => []
  | .arith _ l r _ _ => l.labels ++ r.labels
  | .call _ args _ => labelsOfArgs args
  | .cond c => c.labels

def labelsOfArgs : List Arg → List Label
  | [] => []
  | a :: args => a.labels ++ labelsOfArgs args

def Arg.labels : Arg → List Label
  | .input e => e.labels
  | .output _ => []

def Cond.labels : Cond → List Label
  | .literal _ => []
  | .compare _ l r => l.labels ++ r.labels
  | .not c => c.labels
  | .logic _ l r skip => l.labels ++ r.labels ++ [skip]

end

@[simp] theorem labelsIn_operations (ops : List Operation) : labelsIn (ops.map .operate) = [] := by
  simp [labelsIn, Instr.label?]

@[simp] theorem labelsIn_jumps (js : List Jump) (l : Label) :
    labelsIn (js.map (.jump · l)) = [] := by
  simp [labelsIn, Instr.label?]

@[simp] theorem RelOp.labelsIn_code (op : RelOp) (targets : Targets) :
    labelsIn (op.code targets) = [] := by
  obtain ⟨_ | onTrue, _ | onFalse⟩ := targets <;> simp [RelOp.code]

@[simp] theorem labelsIn_literalCode (b : Bool) (targets : Targets) :
    labelsIn (literalCode b targets) = [] := by
  obtain ⟨_ | onTrue, _ | onFalse⟩ := targets <;> cases b <;> rfl

def callTail (t : Table) (callee : SymbolId) (args : List Arg) (r : Routine) : List Instr :=
  r.hooks.before.map (fun template => .verbatim (template.render (callContext t callee args))) ++
    [.call (r.hooks.target.getD (t.symbol callee).name)] ++
    r.hooks.after.map fun template => .verbatim (template.render (callContext t callee args))

theorem Expr.code_call_none (h : (t.symbol callee).routine? = none) (args : List Arg)
    (type : Option DataType) : (Expr.call callee args type).code t = [] := by
  simp [Expr.code, h]

theorem Expr.code_call_some {r : Routine} (h : (t.symbol callee).routine? = some r)
    (args : List Arg) (type : Option DataType) :
    (Expr.call callee args type).code t =
      (if r.flags.reverseArgs then (codeOfArgs t args).reverse else codeOfArgs t args).flatten ++
        callTail t callee args r := by
  simp [Expr.code, h, callTail]

theorem isPlain_callTail (t : Table) (callee : SymbolId) (args : List Arg) (r : Routine) :
    ∀ i ∈ callTail t callee args r, i.isPlain := by
  intro i hi
  simp only [callTail, List.mem_append, List.mem_map, List.mem_singleton] at hi
  rcases hi with (⟨_, _, rfl⟩ | rfl) | ⟨_, _, rfl⟩ <;> rfl

theorem labelsIn_eq_nil (h : ∀ i ∈ code, i.isPlain) : labelsIn code = [] := by
  simp only [labelsIn, List.filterMap_eq_nil_iff]
  intro i hi
  have := h i hi
  cases i <;> simp_all [Instr.isPlain, Instr.label?]

theorem count_labelsIn_reverse (l : Label) (cs : List (List Instr)) (b : Bool) :
    (labelsIn (if b then cs.reverse else cs).flatten).count l = (labelsIn cs.flatten).count l := by
  cases b with
  | false => rfl
  | true => exact (((List.reverse_perm cs).flatten).filterMap _).count_eq l

mutual

theorem Expr.count_labelsIn_code (t : Table) (x : Label) :
    (e : Expr) → (labelsIn (e.code t)).count x ≤ e.labels.count x
  | .const _ => by rw [Expr.code]; exact Nat.zero_le _
  | .var .. => by rw [Expr.code]; exact Nat.zero_le _
  | .arith op l r _ _ => by
    have hl := l.count_labelsIn_code t x
    have hr := r.count_labelsIn_code t x
    simp only [Expr.code, ArithOp.code, Expr.labels, labelsIn_append, labelsIn_operations,
      List.append_nil, List.count_append]
    omega
  | .call callee args type => by
    have h := count_labelsIn_codeOfArgs t x args
    cases hr : (t.symbol callee).routine? with
    | none => simp [Expr.code_call_none hr]
    | some r =>
      rw [Expr.code_call_some hr, labelsIn_append,
        labelsIn_eq_nil (isPlain_callTail t callee args r), List.append_nil, count_labelsIn_reverse]
      exact h
  | .cond c => c.count_labelsIn_code t x {}

theorem count_labelsIn_codeOfArgs (t : Table) (x : Label) :
    (args : List Arg) →
    (labelsIn (codeOfArgs t args).flatten).count x ≤ (labelsOfArgs args).count x
  | [] => by simp [codeOfArgs]
  | a :: args => by
    have ha := a.count_labelsIn_code t x
    have hargs := count_labelsIn_codeOfArgs t x args
    simp only [codeOfArgs, labelsOfArgs, List.flatten_cons, labelsIn_append, List.count_append]
    omega

theorem Arg.count_labelsIn_code (t : Table) (x : Label) :
    (a : Arg) → (labelsIn (a.code t)).count x ≤ a.labels.count x
  | .input e => e.count_labelsIn_code t x
  | .output _ => by simp [Arg.code]

theorem Cond.count_labelsIn_code (t : Table) (x : Label) :
    (c : Cond) → (targets : Targets) →
    (labelsIn (c.code t targets)).count x ≤ c.labels.count x
  | .literal b, targets => by simp [Cond.code]
  | .compare op l r, targets => by
    have hl := l.count_labelsIn_code t x
    have hr := r.count_labelsIn_code t x
    simp only [Cond.code, Cond.labels, labelsIn_append, RelOp.labelsIn_code, List.append_nil,
      List.count_append]
    have : labelsIn [.operate .sub, .operate .pop] = [] := rfl
    simp only [this, List.count_nil]
    omega
  | .not c, targets => c.count_labelsIn_code t x targets.swap
  | .logic op l r skip, targets => by
    have hl := l.count_labelsIn_code t x (targets.left skip op)
    have hr := r.count_labelsIn_code t x targets
    have hs :
        (labelsIn (if targets.skips op then [.label skip] else [])).count x ≤ [skip].count x := by
      cases targets.skips op <;> simp [labelsIn, Instr.label?]
    simp only [Cond.code_logic, Cond.labels, labelsIn_append, List.count_append]
    omega

end

namespace Machine

variable {σ : Type} {m : Machine σ} {code : List Instr}

theorem Total.reaches_plain (hm : m.Total) (plain : List Instr) (h : ∀ i ∈ plain, i.isPlain)
    (rest : List Instr) (s : σ) :
    ∃ s', m.Reaches code (.before (plain ++ rest), s) (.before rest, s') := by
  induction plain generalizing s with
  | nil => exact ⟨s, .refl⟩
  | cons i plain ih =>
    obtain ⟨s₁, hs₁⟩ := hm i s
    obtain ⟨s', hs'⟩ := ih (fun j hj => h j (List.mem_cons_of_mem _ hj)) s₁
    exact ⟨s', .head (by simp [step_of_isPlain (h i List.mem_cons_self), hs₁]) hs'⟩

theorem reaches_flatten {cs : List (List Instr)}
    (h : ∀ c ∈ cs, ∀ s rest, c ++ rest <:+ code →
      ∃ s', m.Reaches code (.before (c ++ rest), s) (.before rest, s'))
    (s : σ) (rest : List Instr) (hat : cs.flatten ++ rest <:+ code) :
    ∃ s', m.Reaches code (.before (cs.flatten ++ rest), s) (.before rest, s') := by
  induction cs generalizing s with
  | nil => exact ⟨s, .refl⟩
  | cons c cs ih =>
    rw [List.flatten_cons, List.append_assoc] at hat ⊢
    obtain ⟨s₁, hs₁⟩ := h c List.mem_cons_self s _ hat
    obtain ⟨s', hs'⟩ :=
      ih (fun c hc => h c (List.mem_cons_of_mem _ hc)) s₁ ((List.suffix_append _ _).trans hat)
    exact ⟨s', hs₁.trans hs'⟩

end Machine

section Total

variable {σ : Type} {m : Machine σ} {code : List Instr}

mutual

theorem Expr.reaches_end (hm : m.Total) (hcode : (labelsIn code).Nodup) (t : Table) :
    (e : Expr) → (s : σ) → (rest : List Instr) → e.code t ++ rest <:+ code →
      ∃ s', m.Reaches code (.before (e.code t ++ rest), s) (.before rest, s')
  | .const v, s, rest, _ => hm.reaches_plain [.push v] (by simp [Instr.isPlain]) rest s
  | .var symbol _, s, rest, _ =>
    hm.reaches_plain [.load (t.symbol symbol).fullName] (by simp [Instr.isPlain]) rest s
  | .arith op l r _ _, s, rest, hat => by
    simp only [Expr.code, List.append_assoc] at hat ⊢
    obtain ⟨s₁, hs₁⟩ := l.reaches_end hm hcode t s _ hat
    obtain ⟨s₂, hs₂⟩ := r.reaches_end hm hcode t s₁ _ ((List.suffix_append _ _).trans hat)
    obtain ⟨s₃, hs₃⟩ :=
      hm.reaches_plain op.code (by simp [ArithOp.code, Instr.isPlain]) rest s₂
    exact ⟨s₃, hs₁.trans (hs₂.trans hs₃)⟩
  | .call callee args type, s, rest, hat => by
    cases hr : (t.symbol callee).routine? with
    | none =>
      rw [Expr.code_call_none hr] at hat ⊢
      exact ⟨s, .refl⟩
    | some r =>
      rw [Expr.code_call_some hr, List.append_assoc] at hat ⊢
      have hargs : ∀ c ∈
          (if r.flags.reverseArgs then (codeOfArgs t args).reverse else codeOfArgs t args),
          c ∈ codeOfArgs t args := by
        cases r.flags.reverseArgs <;> simp
      obtain ⟨s₁, hs₁⟩ := Machine.reaches_flatten
        (fun c hc => reaches_end_of_mem_codeOfArgs hm hcode t args c (hargs c hc)) s _ hat
      obtain ⟨s₂, hs₂⟩ := hm.reaches_plain _ (isPlain_callTail t callee args r) rest s₁
      exact ⟨s₂, hs₁.trans hs₂⟩
  | .cond c, s, rest, hat => by
    obtain ⟨b, s', hs'⟩ := c.reaches_place hm hcode t {} s rest hat
    refine ⟨s', ?_⟩
    cases b <;> exact hs'

theorem reaches_end_of_mem_codeOfArgs (hm : m.Total) (hcode : (labelsIn code).Nodup) (t : Table) :
    (args : List Arg) → ∀ c ∈ codeOfArgs t args, ∀ (s : σ)
      (rest : List Instr), c ++ rest <:+ code →
      ∃ s', m.Reaches code (.before (c ++ rest), s) (.before rest, s')
  | [], c, hc => by simp [codeOfArgs] at hc
  | a :: args, c, hc => by
    simp only [codeOfArgs, List.mem_cons] at hc
    rcases hc with rfl | hc
    · exact a.reaches_end hm hcode t
    · exact reaches_end_of_mem_codeOfArgs hm hcode t args c hc

theorem Arg.reaches_end (hm : m.Total) (hcode : (labelsIn code).Nodup) (t : Table) :
    (a : Arg) → ∀ (s : σ) (rest : List Instr), a.code t ++ rest <:+ code →
      ∃ s', m.Reaches code (.before (a.code t ++ rest), s) (.before rest, s')
  | .input e => e.reaches_end hm hcode t
  | .output _ => fun s _ _ => ⟨s, .refl⟩

theorem Cond.reaches_place (hm : m.Total) (hcode : (labelsIn code).Nodup) (t : Table) :
    (c : Cond) → (targets : Targets) → (s : σ) → (rest : List Instr) →
      c.code t targets ++ rest <:+ code →
      ∃ b s',
      m.Reaches code (.before (c.code t targets ++ rest), s) (targets.place code rest b, s')
  | .literal b, targets, s, rest, hat => by
    by_cases h : targets = {}
    · subst h
      obtain ⟨s', hs'⟩ :=
        hm.reaches_plain [.push (.bool b), .compareZero] (by simp [Instr.isPlain]) rest s
      exact ⟨true, s', hs'⟩
    · exact ⟨b, s, Machine.reaches_literal h b rest s⟩
  | .compare op l r, targets, s, rest, hat => by
    simp only [Cond.code, List.append_assoc] at hat ⊢
    obtain ⟨s₁, hs₁⟩ := l.reaches_end hm hcode t s _ hat
    obtain ⟨s₂, hs₂⟩ := r.reaches_end hm hcode t s₁ _ ((List.suffix_append _ _).trans hat)
    obtain ⟨s₃, hs₃⟩ := hm.reaches_plain [.operate .sub, .operate .pop]
      (by simp [Instr.isPlain]) (op.code targets ++ rest) s₂
    exact ⟨_, s₃,
      hs₁.trans (hs₂.trans (hs₃.trans (Machine.reaches_relOp op targets rest s₃)))⟩
  | .not c, targets, s, rest, hat => by
    obtain ⟨b, s', hs'⟩ := c.reaches_place hm hcode t targets.swap s rest hat
    exact ⟨!b, s', by simpa [Cond.code] using hs'⟩
  | .logic op l r skip, targets, s, rest, hat => by
    rw [Cond.code_logic, List.append_assoc, List.append_assoc] at hat ⊢
    obtain ⟨b, s₁, hs₁⟩ := l.reaches_place hm hcode t (targets.left skip op) s _ hat
    cases hb : op.decidedBy b with
    | true =>
      refine ⟨b, s₁, hs₁.trans (Machine.reaches_decided hb hcode ?_ s₁)⟩
      exact ((List.suffix_append _ _).trans (List.suffix_append _ _)).trans hat
    | false =>
      rw [Targets.place_left_undecided hb] at hs₁
      obtain ⟨b', s₂, hs₂⟩ :=
        r.reaches_place hm hcode t targets s₁ _ ((List.suffix_append _ _).trans hat)
      exact ⟨b', s₂, hs₁.trans (hs₂.trans (Machine.reaches_past_skip ..))⟩

end

end Total

def comparisonsCode (t : Table) (vs : List (Expr × Expr)) : List Instr :=
  vs.flatMap fun v => comparisonCode t v.1 v.2

theorem count_labelsIn_comparisonCode (t : Table) (x : Label) (l r : Expr) :
    (labelsIn (comparisonCode t l r)).count x ≤ (l.labels ++ r.labels).count x := by
  have h := (Cond.compare .less l r).count_labelsIn_code t x {}
  rw [Cond.code_compare, labelsIn_append, RelOp.labelsIn_code, List.append_nil] at h
  exact h

theorem nodup_labelsIn {labels : List Label} (hlabels : labels.Nodup)
    (h : ∀ x, (labelsIn code).count x ≤ labels.count x) : (labelsIn code).Nodup := by
  rw [List.nodup_iff_count] at hlabels ⊢
  exact fun x => Nat.le_trans (h x) (hlabels x)

namespace Cond.Evaluates

variable {σ : Type} {m : Machine σ} {t : Table} {c : Cond} {s s' : σ}
  {vs : List (Expr × Expr)} {b : Bool}

theorem count_labelsIn (h : c.Evaluates m t s vs b s') (x : Label) :
    (labelsIn (comparisonsCode t vs)).count x ≤ c.labels.count x := by
  induction h with
  | literal => simp [comparisonsCode]
  | compare => simpa [comparisonsCode, Cond.labels] using count_labelsIn_comparisonCode t x _ _
  | not _ ih => exact ih
  | decided _ _ ih =>
    simp only [Cond.labels, List.count_append]
    omega
  | undecided _ _ _ ihl ihr =>
    simp only [comparisonsCode, List.flatMap_append, labelsIn_append, Cond.labels,
      List.count_append] at *
    omega

theorem through (h : c.Evaluates m t s vs b s') (hlabels : c.labels.Nodup) :
    m.Through (comparisonsCode t vs) s s' := by
  induction h with
  | literal => exact .refl
  | compare hs => simpa [comparisonsCode] using hs
  | not _ ih => exact ih hlabels
  | decided _ _ ih =>
    simp only [Cond.labels, List.append_assoc] at hlabels
    exact ih (List.nodup_append.1 hlabels).1
  | undecided hl hb hr ihl ihr =>
    have hvs := nodup_labelsIn hlabels (hl.undecided hb hr).count_labelsIn
    simp only [Cond.labels] at hlabels
    have hlr := List.nodup_append.1 (List.nodup_append.1 hlabels).1
    simp only [comparisonsCode, List.flatMap_append] at hvs ⊢
    exact (ihl hlr.1).append (ihr hlr.2.1) hvs

end Cond.Evaluates

theorem Cond.exists_evaluates {m : Machine σ} (hm : m.Total) (t : Table) (c : Cond)
    (hlabels : c.labels.Nodup) (s : σ) : ∃ vs b s', c.Evaluates m t s vs b s' := by
  induction c using Cond.induction generalizing s with
  | literal b => exact ⟨[], b, s, .literal⟩
  | compare op l r =>
    have hcode := nodup_labelsIn hlabels (count_labelsIn_comparisonCode t · l r)
    obtain ⟨_, s', hs'⟩ := (Cond.compare op l r).reaches_place hm hcode t {} s [] (by
      rw [Cond.code_compare]; simp [RelOp.code])
    refine ⟨[(l, r)], _, s', .compare ?_⟩
    simpa [Machine.Through, Cond.code_compare, RelOp.code, Targets.place] using hs'
  | not c ih =>
    obtain ⟨vs, b, s', h⟩ := ih hlabels s
    exact ⟨vs, !b, s', h.not⟩
  | logic op l r skip ihl ihr =>
    simp only [Cond.labels] at hlabels
    have hlr := List.nodup_append.1 (List.nodup_append.1 hlabels).1
    obtain ⟨vs, b, s₁, hl⟩ := ihl hlr.1 s
    cases hb : op.decidedBy b with
    | true => exact ⟨vs, b, s₁, hl.decided hb⟩
    | false =>
      obtain ⟨vs', b', s', hr⟩ := ihr hlr.2.1 s₁
      exact ⟨vs ++ vs', b', s', hl.undecided hb hr⟩

theorem Targets.place_eq_exit
    (h : ∀ l ∈ labelsIn code, targets.onTrue ≠ some l ∧ targets.onFalse ≠ some l) :
    targets.place code [] b = targets.exit b := by
  cases htarget : if b then targets.onTrue else targets.onFalse with
  | none => simp [place, exit, htarget]
  | some l =>
    have hl : l ∉ labelsIn code := by
      intro hl
      cases b <;> simp_all
    simp [place, exit, htarget, Control.goto_eq_away hl]

theorem Targets.step_exit (m : Machine σ) (code : List Instr) (targets : Targets)
    (b : Bool) (s : σ) : m.step code (targets.exit b, s) = none := by
  simp only [exit]
  cases if b then targets.onTrue else targets.onFalse <;> rfl

/-- Evaluation has an outcome, and the code of the condition leaves where that sends it, having run
the operands that evaluation came by. The machine is any: each comparison can come out in each of
the three ways, and equal comparisons differently at different times. -/
theorem Cond.code_leaves_at_exit {σ : Type} {m : Machine σ} (hm : m.Total) (t : Table) (c : Cond)
    (targets : Targets) (hreal : targets ≠ {}) (hlabels : c.labels.Nodup)
    (hfresh : ∀ l ∈ c.labels, targets.onTrue ≠ some l ∧ targets.onFalse ≠ some l)
    (s : σ) :
    (∃ vs b s', c.Evaluates m t s vs b s') ∧
      ∀ vs b s', c.Evaluates m t s vs b s' →
        m.Reaches (c.code t targets) (.before (c.code t targets), s) (targets.exit b, s') ∧
        m.Through (comparisonsCode t vs) s s' ∧
        (targets.onTrue ≠ targets.onFalse → ∀ b',
          (∃ s'',
            m.Reaches (c.code t targets) (.before (c.code t targets), s) (targets.exit b', s'')) ↔
            b' = b) := by
  refine ⟨c.exists_evaluates hm t hlabels s, fun vs b s' h => ?_⟩
  have hcode : (labelsIn (c.code t targets)).Nodup :=
    nodup_labelsIn hlabels (c.count_labelsIn_code t · targets)
  have hplace : targets.place (c.code t targets) [] b = targets.exit b := by
    refine Targets.place_eq_exit fun l hl => hfresh l ?_
    have := c.count_labelsIn_code t l targets
    exact List.count_pos_iff.1 (Nat.lt_of_lt_of_le (List.count_pos_iff.2 hl) this)
  have hrun :
      m.Reaches (c.code t targets) (.before (c.code t targets), s) (targets.exit b, s') := by
    have hat : c.code t targets ++ [] <:+ c.code t targets := by simp
    have := h.reaches hcode hreal hat
    rwa [List.append_nil, hplace] at this
  refine ⟨hrun, h.through hlabels,
    fun hne b' => ⟨fun ⟨s'', h''⟩ => ?_, fun hb => hb ▸ ⟨s', hrun⟩⟩⟩
  have he := h''.eq_of_step_eq_none hrun (targets.step_exit ..) (targets.step_exit ..)
  exact Targets.exit_injective hne (Prod.mk.inj he).1

namespace Machine

def recorder (outcome : List Instr → Ordering) : Machine (List Instr) where
  exec i done := some (done ++ [i])
  order := outcome

theorem recorder_total (outcome : List Instr → Ordering) : (recorder outcome).Total :=
  fun i done => ⟨done ++ [i], rfl⟩

end Machine

theorem Cond.code_leaves_at_exit_nested :
    let one : Expr := .const (.int 1)
    let c : Cond := .not (.logic .and (.compare .less one one)
      (.logic .or (.compare .equal one one) (.literal true) ⟨"b"⟩) ⟨"a"⟩)
    let m := Machine.recorder fun done => if done.length ≤ 4 then .lt else .gt
    m.Reaches (c.code {} ⟨none, some ⟨"x"⟩⟩)
      (.before (c.code {} ⟨none, some ⟨"x"⟩⟩), [])
      (.away ⟨"x"⟩, comparisonsCode {} [(one, one), (one, one)]) := by
  intro one c m
  have first : m.Through (comparisonCode {} one one) [] (comparisonCode {} one one) :=
    .head rfl (.head rfl (.head rfl (.head rfl .refl)))
  have second : m.Through (comparisonCode {} one one) (comparisonCode {} one one)
      (comparisonsCode {} [(one, one), (one, one)]) :=
    .head rfl (.head rfl (.head rfl (.head rfl .refl)))
  have h : c.Evaluates m {} [] [(one, one), (one, one)] false
      (comparisonsCode {} [(one, one), (one, one)]) :=
    .not (.undecided (.compare first) rfl (.undecided (.compare second) rfl .literal))
  exact ((Cond.code_leaves_at_exit (Machine.recorder_total _) {} c
    ⟨none, some ⟨"x"⟩⟩ (by decide) (by decide) (by decide) []).2 _ _ _ h).1

end TurtleCompiler
