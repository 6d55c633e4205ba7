import TurtleCompiler.Proofs.Actions
import TurtleCompiler.Proofs.Command

/-!
The statements that a lowering builds. All labels are new, so no two places of the code share one.
-/

namespace TurtleCompiler

theorem Label.numbered_injective : Function.Injective Label.numbered := by
  intro m n h
  have htext : "_@trgt_" ++ m.repr = "_@trgt_" ++ n.repr := congrArg Label.name h
  have hrepr : m.repr.toList = n.repr.toList := by simpa using congrArg String.toList htext
  have hdigits : Nat.toDigits 10 m = Nat.toDigits 10 n := by simpa [Nat.repr] using hrepr
  simpa using congrArg (Nat.ofDigitChars 10 · 0) hdigits

structure Fresh (n n' : Nat) (ls : List Label) : Prop where
  le : n ≤ n'
  nodup : ls.Nodup
  exists_of_mem : ∀ l ∈ ls, ∃ k, n < k ∧ k ≤ n' ∧ l = .numbered k

namespace Fresh

variable {n n₁ n₂ : Nat} {a b : List Label}

theorem nil (h : n ≤ n₁) : Fresh n n₁ [] := ⟨h, .nil, by simp⟩

theorem singleton (n : Nat) : Fresh n (n + 1) [.numbered (n + 1)] :=
  ⟨Nat.le_succ n, by simp, by simpa using ⟨n + 1, by omega, Nat.le_refl _, rfl⟩⟩

theorem append (ha : Fresh n n₁ a) (hb : Fresh n₁ n₂ b) : Fresh n n₂ (a ++ b) where
  le := Nat.le_trans ha.le hb.le
  nodup := by
    refine List.nodup_append.2 ⟨ha.nodup, hb.nodup, ?_⟩
    rintro l hl _ hl' rfl
    obtain ⟨k, -, hk, rfl⟩ := ha.exists_of_mem l hl
    obtain ⟨k', hk', -, he⟩ := hb.exists_of_mem _ hl'
    cases Label.numbered_injective he
    omega
  exists_of_mem := by
    intro l hl
    rcases List.mem_append.1 hl with hl | hl
    · obtain ⟨k, hk, hk', rfl⟩ := ha.exists_of_mem l hl
      exact ⟨k, hk, Nat.le_trans hk' hb.le, rfl⟩
    · obtain ⟨k, hk, hk', rfl⟩ := hb.exists_of_mem l hl
      exact ⟨k, Nat.lt_of_le_of_lt ha.le hk, hk', rfl⟩

theorem of_count_le (ha : Fresh n n₁ a) (h : ∀ x, b.count x ≤ a.count x) :
    Fresh n n₁ b where
  le := ha.le
  nodup := List.nodup_iff_count.2 fun x => Nat.le_trans (h x) (List.nodup_iff_count.1 ha.nodup x)
  exists_of_mem := by
    intro l hl
    have hcount := Nat.lt_of_lt_of_le (List.count_pos_iff.2 hl) (h l)
    exact ha.exists_of_mem l (List.count_pos_iff.1 hcount)

end Fresh

inductive Cond.Built : Nat → Cond → Nat → Prop
  | boolean : Lowering.boolean text = .cond c → Built n c n
  | comparison : Lowering.comparison op l r line L = .ok (.cond c) L' → Built n c n
  | negation : Built n c n' → Lowering.negation (.cond c) line L =
      .ok (.cond c') L' → Built n c' n'
  | combination : Built n l n₁ → Built n₁ r n₂ → n₂ ≤ L.labels →
      Lowering.combination op (.cond l) (.cond r) line L = .ok (.cond c) L' → Built n c L'.labels

inductive Command.Built : Nat → Command → List Node → Nat → Prop
  | nil : Built n skip [] n
  | seq : Built n a ns n₁ → Built n₁ b ns' n₂ → Built n (seq a b) (ns ++ ns') n₂
  | elided : Lowering.assignment name op rhs line L = .ok .noOp L' → Built n skip [.noOp] n
  | assignment : Lowering.assignment name op rhs line L = .ok (.assign o x e) L' →
      Built n (assign o x e) [.assign o x e] n
  | print : Lowering.print args L = .ok (.expr (printCall callee args type)) L' →
      Built n (print callee args type) [.expr (printCall callee args type)] n
  | ifThen : c.Built n n₁ → Built n₁ yes ns n₂ → n₂ ≤ L.labels →
      Lowering.ifStatement (.cond c) ns none line L = .ok node L' →
      Built n (ifThen c yes) [node] L'.labels
  | ifElse : c.Built n n₁ → Built n₁ yes ns n₂ → Built n₂ no ns' n₃ →
      n₃ ≤ L.labels → Lowering.ifStatement (.cond c) ns (some ns') line L = .ok node L' →
      Built n (ifElse c yes no) [node] L'.labels
  | whileDo : c.Built n n₁ → Built n₁ body ns n₂ → n₂ ≤ L.labels →
      Lowering.whileStatement (.cond c) ns line L = .ok node L' →
      Built n (whileDo c body) [node] L'.labels

theorem Cond.Built.fresh {n n' : Nat} {c : Cond} (h : c.Built n n') {t : Table}
    (hc : c.isSimple t) : Fresh n n' c.labels := by
  induction h with
  | boolean he =>
    cases he
    exact .nil (Nat.le_refl _)
  | @comparison op l r line L c L' n he =>
    obtain ⟨-, -, op', -, hc'⟩ := Lowering.comparison_eq_ok he
    cases hc'
    simp only [Cond.isSimple, Bool.and_eq_true] at hc
    simpa [Cond.labels, Expr.labels_eq_nil hc.1, Expr.labels_eq_nil hc.2] using
      Fresh.nil (Nat.le_refl n)
  | negation _ he ih =>
    cases he
    exact ih hc
  | combination _ _ hle he ihl ihr =>
    obtain ⟨rfl, op', _, _, -, hl, hr, hc'⟩ := Lowering.combination_eq_ok he
    cases hl
    cases hr
    cases hc'
    simp only [Cond.isSimple, Bool.and_eq_true] at hc
    exact ((ihl hc.1).append ((ihr hc.2).append (.nil hle))).append (.singleton _) |>.of_count_le
      (by simp [Cond.labels])

theorem codeOfNodes_append (t : Table) (a b : List Node) :
    codeOfNodes t (a ++ b) = codeOfNodes t a ++ codeOfNodes t b := by
  induction a with
  | nil => simp [codeOfNodes]
  | cons n a ih => simp [codeOfNodes, ih]

namespace Command.Built

variable {n n' : Nat} {c : Command} {ns : List Node}

theorem compiled (h : c.Built n ns n') (t : Table) : c.Compiled t (codeOfNodes t ns) := by
  induction h with
  | nil => exact .skip
  | seq _ _ iha ihb =>
    rw [codeOfNodes_append]
    exact .seq iha ihb
  | elided => exact .skip
  | assignment => simpa [codeOfNodes] using Compiled.assign
  | print => simpa [codeOfNodes, Node.code] using Compiled.print
  | ifThen _ _ _ he ih =>
    obtain ⟨_, hcond, -, rfl⟩ := Lowering.ifStatement_none_eq_ok he
    cases hcond
    simpa [codeOfNodes, codeOfNodes_append, Node.code] using Compiled.ifThen ih
  | ifElse _ _ _ _ he ihyes ihno =>
    obtain ⟨_, hcond, -, rfl⟩ := Lowering.ifStatement_some_eq_ok he
    cases hcond
    simpa [codeOfNodes, codeOfNodes_append, Node.code, Node.jump, Cond.code, literalCode] using
      Compiled.ifElse ihyes ihno
  | whileDo _ _ _ he ih =>
    obtain ⟨_, hcond, -, rfl⟩ := Lowering.whileStatement_eq_ok he
    cases hcond
    simpa [codeOfNodes, codeOfNodes_append, Node.code, Node.jump, Cond.code, literalCode] using
      Compiled.whileDo ih

theorem fresh (h : c.Built n ns n') {t : Table} (hc : c.isSimple t) :
    Fresh n n' (labelsIn (codeOfNodes t ns)) := by
  induction h with
  | @nil n | @elided _ _ _ _ _ _ n =>
    simpa [codeOfNodes, Node.code] using Fresh.nil (Nat.le_refl n)
  | seq _ _ iha ihb =>
    simp only [isSimple, Bool.and_eq_true] at hc
    rw [codeOfNodes_append, labelsIn_append]
    exact (iha hc.1).append (ihb hc.2)
  | @assignment _ _ _ _ _ o x e _ n he =>
    refine (Fresh.nil (Nat.le_refl n)).of_count_le fun l => ?_
    have hlabels := e.count_labelsIn_code t l
    rw [Expr.labels_eq_nil hc] at hlabels
    cases o <;> simpa [codeOfNodes, Node.code, ArithOp.code] using hlabels
  | @print args _ callee type _ n he =>
    simp only [isSimple, Bool.and_eq_true, List.all_eq_true] at hc
    refine (Fresh.nil (Nat.le_refl n)).of_count_le fun l => ?_
    have hlabels := (printCall callee args type).count_labelsIn_code t l
    rw [labels_printCall hc.1.2] at hlabels
    simpa [codeOfNodes, Node.code] using hlabels
  | ifThen hcond _ hle he ih =>
    obtain ⟨_, he, rfl, rfl⟩ := Lowering.ifStatement_none_eq_ok he
    cases he
    simp only [isSimple, Bool.and_eq_true] at hc
    refine ((((hcond.fresh hc.1).append (ih hc.2)).append (.nil hle)).append
      (.singleton _)).of_count_le ?_
    intro l
    have := Cond.count_labelsIn_code t l
    simp [codeOfNodes, codeOfNodes_append, Node.code, List.count_cons]
    grind
  | ifElse hcond _ _ hle he ihyes ihno =>
    obtain ⟨_, he, rfl, rfl⟩ := Lowering.ifStatement_some_eq_ok he
    cases he
    simp only [isSimple, Bool.and_eq_true] at hc
    refine ((((hcond.fresh hc.1.1).append ((ihyes hc.1.2).append (ihno hc.2))).append
      (.nil hle)).append ((Fresh.singleton _).append (.singleton _))).of_count_le ?_
    intro l
    have := Cond.count_labelsIn_code t l
    simp [codeOfNodes, codeOfNodes_append, Node.code, Node.jump, Cond.code, List.count_cons]
    grind
  | whileDo hcond _ hle he ih =>
    obtain ⟨_, he, rfl, rfl⟩ := Lowering.whileStatement_eq_ok he
    cases he
    simp only [isSimple, Bool.and_eq_true] at hc
    refine ((((hcond.fresh hc.1).append (ih hc.2)).append (.nil hle)).append
      ((Fresh.singleton _).append (.singleton _))).of_count_le ?_
    intro l
    have := Cond.count_labelsIn_code t l
    simp [codeOfNodes, codeOfNodes_append, Node.code, Node.jump, Cond.code, List.count_cons]
    grind

/-- A statement runs to its end just when the machine gets through its code with the stack as it
was, and with another stack it never does. -/
theorem runs_iff_through (h : c.Built n ns n') (p : Processor) {t : Table}
    (hc : c.isSimple t) (s : Env) (stack : List Value) (o : Ordering) :
    (∀ s', c.Runs p t s s' ↔
      ∃ o', p.machine.Through (codeOfNodes t ns) ⟨s, stack, o⟩ ⟨s', stack, o'⟩) ∧
      ∀ d, p.machine.Through (codeOfNodes t ns) ⟨s, stack, o⟩ d → d.stack = stack := by
  have hcode := (h.fresh hc).nodup
  refine ⟨fun s' => ⟨fun hrun => hrun.through (h.compiled t) hcode hc stack o, ?_⟩, ?_⟩
  · rintro ⟨o', hthrough⟩
    exact ((h.compiled t).runs hcode hc hthrough).2
  · intro d hthrough
    exact ((h.compiled t).runs hcode hc hthrough).1

theorem runs_iff_through_loop :
    let t : Table := { symbols := #[⟨"X", none, 0, "", "X", .var {}⟩] }
    let s : Env := ⟨fun _ => .int 0, 0, []⟩
    ∃ (c : Command) (ns : List Node) (n' : Nat) (o' : Ordering), c.Built 0 ns n' ∧
      c.isSimple t ∧ Processor.folding.machine.Through (codeOfNodes t ns)
        ⟨s, [], .eq⟩ ⟨(s.assign "X" (.int 1)).assign "X" (.int 3), [], o'⟩ := by
  intro t s
  let L (labels : Nat) : Lowering := { table := ({} : Table).push "", entry := ⟨0⟩, labels }
  let x : Expr := .var ⟨0⟩ .int
  let num (n : Int64) : Expr := .const (.int n)
  let plus (n : Int64) : Expr := .arith .add x (num n) .int none
  let less (n : Int64) : Cond := .compare .less x (num n)
  let equal : Cond := .compare .equal x (num 5)
  let cond : Cond := .logic .and (less 3) (.not equal) (.numbered 1)
  have hless (n : Nat) (k : Int64) : (less k).Built n n :=
    .comparison
    (show Lowering.comparison "<" x (num k) 1 (L 0) = .ok (.cond (less k)) (L 0) from rfl)
  have hequal : equal.Built 0 0 :=
    .comparison (show Lowering.comparison "==" x (num 5) 1 (L 0) = .ok (.cond equal) (L 0) from rfl)
  have hnot : (Cond.not equal).Built 0 0 :=
    .negation hequal (show Lowering.negation _ 1 (L 0) = .ok _ _ from rfl)
  have hop : LogicOp.ofText? "AND" = some .and := by decide +kernel
  have hand : Lowering.combination "AND" (.cond (less 3)) (.cond (.not equal)) 1 (L 0) =
      .ok (.cond cond) { L 1 with log := #[.labelMade 1] } := by
    simp only [Lowering.combination, hop]
    rfl
  have hcond : cond.Built 0 1 := .combination (hless 0 3) hnot (Nat.le_refl 0) hand
  have hplus (k : Int64) :
      (assign none ⟨0⟩ (plus k)).Built 1 [.assign none ⟨0⟩ (plus k)] 1 :=
    .assignment (show Lowering.assignment "X" "=" (plus k) 1 (L 1) = .ok _ _ from rfl)
  have hbody := ifElse (hless 1 1) (hplus 1) (hplus 2) (Nat.le_refl 1)
    (show Lowering.ifStatement _ _ _ 1 (L 1) = .ok _ _ from rfl)
  have hloop := whileDo hcond hbody (Nat.le_refl 3)
    (show Lowering.whileStatement _ _ 1 (L 3) = .ok _ _ from rfl)
  let body :
      Command := .ifElse (less 1) (.assign none ⟨0⟩ (plus 1)) (.assign none ⟨0⟩ (plus 2))
  have hsimple : isSimple t (.whileDo cond body) := by decide
  have hrun :
      Runs .folding t (.whileDo cond body) s ((s.assign "X" (.int 1)).assign "X" (.int 3)) :=
    .whileDo rfl (.ifElse rfl .assign) (.whileDo rfl (.orElse rfl .assign) (.whileNot (by rfl)))
  obtain ⟨o', h⟩ := ((runs_iff_through hloop .folding hsimple s [] .eq).1 _).1 hrun
  exact ⟨_, _, _, o', hloop, hsimple, h⟩

end Command.Built

end TurtleCompiler
