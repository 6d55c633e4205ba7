import TurtleCompiler.Proofs.Rules
import TurtleCompiler.Proofs.Structured

/-!
Every label of a tree that a lowering makes is new, and the tree itself has the labels that it jumps
to.
-/

namespace TurtleCompiler

def Instr.target? : Instr → Option Label
  | .jump _ l => some l
  | _ => none

def targetsIn (code : List Instr) : List Label := code.filterMap Instr.target?

@[simp] theorem targetsIn_nil : targetsIn [] = [] := rfl

@[simp] theorem targetsIn_append (a b : List Instr) :
    targetsIn (a ++ b) = targetsIn a ++ targetsIn b := by
  simp [targetsIn]

theorem targetsIn_eq_nil {code : List Instr} (h : ∀ i ∈ code, i.isPlain) :
    targetsIn code = [] := by
  simp only [targetsIn, List.filterMap_eq_nil_iff]
  intro i hi
  have := h i hi
  cases i <;> simp_all [Instr.isPlain, Instr.target?]

@[simp] theorem ArithOp.targetsIn_code (op : ArithOp) : targetsIn op.code = [] := by
  refine targetsIn_eq_nil ?_
  simp [ArithOp.code, Instr.isPlain]

def Targets.Has (targets : Targets) (l : Label) : Prop :=
  targets.onTrue = some l ∨ targets.onFalse = some l

variable {targets : Targets} {l : Label}

theorem Targets.has_swap : targets.swap.Has l ↔ targets.Has l := or_comm

theorem Targets.has_left {skip : Label} {op : LogicOp} (h : (targets.left skip op).Has l) :
    targets.Has l ∨ targets.skips op ∧ l = skip := by
  obtain ⟨onTrue, onFalse⟩ := targets
  cases op with
  | and => cases onFalse <;> simp_all [Targets.Has, left, skips, eq_comm]
  | or => cases onTrue <;> simp_all [Targets.Has, left, skips, eq_comm]

theorem has_of_mem_relOp {op : RelOp} (h : l ∈ targetsIn (op.code targets)) : targets.Has l := by
  have hjumps {js : List Jump} {l' : Label} (h : l ∈ targetsIn (js.map (.jump · l'))) :
      l' = l := by
    simp only [targetsIn, List.mem_filterMap, List.mem_map] at h
    obtain ⟨_, ⟨j, -, rfl⟩, h⟩ := h
    exact Option.some.inj h
  obtain ⟨_ | onTrue, _ | onFalse⟩ := targets
  · simp [RelOp.code] at h
  · exact .inr (congrArg some (hjumps h))
  · exact .inl (congrArg some (hjumps h))
  · rw [RelOp.code, targetsIn_append, List.mem_append] at h
    rcases h with h | h
    · exact .inl (congrArg some (hjumps h))
    · have halways : l ∈ targetsIn ([.always].map (.jump · onFalse)) := h
      exact .inr (congrArg some (hjumps halways))

theorem has_of_mem_literal {b : Bool} (h : l ∈ targetsIn (literalCode b targets)) :
    targets.Has l := by
  obtain ⟨_ | onTrue, _ | onFalse⟩ := targets <;> cases b <;>
    simp_all [literalCode, targetsIn, Targets.Has, Instr.target?]

mutual

theorem Expr.mem_labelsIn_code (t : Table) (x : Label) :
    (e : Expr) → x ∈ targetsIn (e.code t) → x ∈ labelsIn (e.code t)
  | .const _, h => by simp [Expr.code, targetsIn, Instr.target?] at h
  | .var .., h => by simp [Expr.code, targetsIn, Instr.target?] at h
  | .arith op l r _ _, h => by
    simp only [Expr.code, targetsIn_append, ArithOp.targetsIn_code, List.append_nil,
      List.mem_append] at h
    simp only [Expr.code, labelsIn_append, List.mem_append]
    exact .inl (h.imp (l.mem_labelsIn_code t x) (r.mem_labelsIn_code t x))
  | .call callee args type, h => by
    cases hr : (t.symbol callee).routine? with
    | none => simp [Expr.code_call_none hr] at h
    | some r =>
      have hreverse {cs : List (List Instr)} {b : Bool} {i : Instr} :
          i ∈ (if b then cs.reverse else cs).flatten ↔ i ∈ cs.flatten := by
        cases b <;> simp
      rw [Expr.code_call_some hr, targetsIn_append,
        targetsIn_eq_nil (isPlain_callTail t callee args r),
        List.append_nil, targetsIn, List.mem_filterMap] at h
      simp only [hreverse] at h
      have hargs := mem_labelsIn_codeOfArgs t x args (List.mem_filterMap.2 h)
      rw [labelsIn, List.mem_filterMap] at hargs
      rw [Expr.code_call_some hr, labelsIn_append, List.mem_append]
      refine .inl (List.mem_filterMap.2 ?_)
      simpa only [hreverse] using hargs
  | .cond c, h => by
    rcases c.mem_labelsIn_code t x {} h with h | h
    · exact h
    · simp [Targets.Has] at h

theorem mem_labelsIn_codeOfArgs (t : Table) (x : Label) :
    (args : List Arg) → x ∈ targetsIn (codeOfArgs t args).flatten →
    x ∈ labelsIn (codeOfArgs t args).flatten
  | [], h => by simp [codeOfArgs] at h
  | a :: args, h => by
    simp only [codeOfArgs, List.flatten_cons, targetsIn_append, List.mem_append] at h
    simp only [codeOfArgs, List.flatten_cons, labelsIn_append, List.mem_append]
    exact h.imp (a.mem_labelsIn_code t x) (mem_labelsIn_codeOfArgs t x args)

theorem Arg.mem_labelsIn_code (t : Table) (x : Label) :
    (a : Arg) → x ∈ targetsIn (a.code t) → x ∈ labelsIn (a.code t)
  | .input e, h => e.mem_labelsIn_code t x h
  | .output _, h => by simp [Arg.code] at h

theorem Cond.mem_labelsIn_code (t : Table) (x : Label) : (c : Cond) → (targets : Targets) →
    x ∈ targetsIn (c.code t targets) → x ∈ labelsIn (c.code t targets) ∨ targets.Has x
  | .literal b, targets, h => .inr (has_of_mem_literal h)
  | .compare op l r, targets, h => by
    have hplain : targetsIn [.operate .sub, .operate .pop] = [] := rfl
    simp only [Cond.code, targetsIn_append, hplain, List.append_nil, List.mem_append] at h
    simp only [Cond.code, labelsIn_append, List.mem_append]
    rcases h with (h | h) | h
    · exact .inl (.inl (.inl (.inl (l.mem_labelsIn_code t x h))))
    · exact .inl (.inl (.inl (.inr (r.mem_labelsIn_code t x h))))
    · exact .inr (has_of_mem_relOp h)
  | .not c, targets, h => (c.mem_labelsIn_code t x targets.swap h).imp_right Targets.has_swap.1
  | .logic op l r skip, targets, h => by
    have hskip : targetsIn (if targets.skips op then [.label skip] else []) = [] := by
      cases targets.skips op <;> rfl
    simp only [Cond.code, targetsIn_append, hskip, List.append_nil, List.mem_append] at h
    simp only [Cond.code, labelsIn_append, List.mem_append]
    rcases h with h | h
    · rcases l.mem_labelsIn_code t x (targets.left skip op) h with h | h
      · exact .inl (.inl (.inl h))
      · rcases Targets.has_left h with h | ⟨hskips, rfl⟩
        · exact .inr h
        · exact .inl (.inr (by simp [hskips]))
    · exact (r.mem_labelsIn_code t x targets h).imp_left fun h => .inl (.inr h)

end

mutual

def Node.labels : Node → List Label
  | .expr e | .assign _ _ e => e.labels
  | .branch c _ => c.labels
  | .label l => [l]
  | .block nodes => labelsOfNodes nodes
  | .noOp => []

def labelsOfNodes : List Node → List Label
  | [] => []
  | n :: nodes => n.labels ++ labelsOfNodes nodes

end

mutual

def Node.targets : Node → List Label
  | .branch _ targets => targets.onTrue.toList ++ targets.onFalse.toList
  | .block nodes => targetsOfNodes nodes
  | .expr _ | .assign .. | .label _ | .noOp => []

def targetsOfNodes : List Node → List Label
  | [] => []
  | n :: nodes => n.targets ++ targetsOfNodes nodes

end

mutual

def Node.marks : Node → List Label
  | .label l => [l]
  | .block nodes => marksOfNodes nodes
  | .expr _ | .assign .. | .branch .. | .noOp => []

def marksOfNodes : List Node → List Label
  | [] => []
  | n :: nodes => n.marks ++ marksOfNodes nodes

end

section Append

variable (a b : List Node)

theorem labelsOfNodes_append : labelsOfNodes (a ++ b) = labelsOfNodes a ++ labelsOfNodes b := by
  induction a with
  | nil => rfl
  | cons n a ih => simp [labelsOfNodes, ih]

theorem targetsOfNodes_append : targetsOfNodes (a ++ b) = targetsOfNodes a ++ targetsOfNodes b := by
  induction a with
  | nil => rfl
  | cons n a ih => simp [targetsOfNodes, ih]

theorem marksOfNodes_append : marksOfNodes (a ++ b) = marksOfNodes a ++ marksOfNodes b := by
  induction a with
  | nil => rfl
  | cons n a ih => simp [marksOfNodes, ih]

end Append

mutual

theorem Node.count_labelsIn_code (t : Table) (x : Label) :
    (n : Node) → (labelsIn (n.code t)).count x ≤ n.labels.count x
  | .expr e => e.count_labelsIn_code t x
  | .assign op target rhs => by
    have hrhs := rhs.count_labelsIn_code t x
    cases op <;> simpa [Node.code, Node.labels, ArithOp.code] using hrhs
  | .branch c targets => c.count_labelsIn_code t x targets
  | .label l => by simp [Node.code, Node.labels]
  | .block nodes => count_labelsIn_codeOfNodes t x nodes
  | .noOp => by simp [Node.code]

theorem count_labelsIn_codeOfNodes (t : Table) (x : Label) :
    (nodes : List Node) →
    (labelsIn (codeOfNodes t nodes)).count x ≤ (labelsOfNodes nodes).count x
  | [] => by simp [codeOfNodes]
  | n :: nodes => by
    have hn := n.count_labelsIn_code t x
    have hnodes := count_labelsIn_codeOfNodes t x nodes
    simp only [codeOfNodes, labelsOfNodes, labelsIn_append, List.count_append]
    omega

end

mutual

theorem Node.mem_labelsIn_of_mem_marks (t : Table) (x : Label) :
    (n : Node) → x ∈ n.marks → x ∈ labelsIn (n.code t)
  | .label l, h => by simpa [Node.code, Node.marks] using h
  | .block nodes, h => mem_labelsIn_of_mem_marksOfNodes t x nodes h
  | .expr _, h | .assign .., h | .branch .., h | .noOp, h => by simp [Node.marks] at h

theorem mem_labelsIn_of_mem_marksOfNodes (t : Table) (x : Label) :
    (nodes : List Node) → x ∈ marksOfNodes nodes → x ∈ labelsIn (codeOfNodes t nodes)
  | [], h => by simp [marksOfNodes] at h
  | n :: nodes, h => by
    simp only [marksOfNodes, List.mem_append] at h
    simp only [codeOfNodes, labelsIn_append, List.mem_append]
    exact h.imp (n.mem_labelsIn_of_mem_marks t x) (mem_labelsIn_of_mem_marksOfNodes t x nodes)

end

mutual

theorem Node.mem_targetsIn_code (t : Table) (x : Label) :
    (n : Node) → x ∈ targetsIn (n.code t) → x ∈ labelsIn (n.code t) ∨ x ∈ n.targets
  | .expr e, h => .inl (e.mem_labelsIn_code t x h)
  | .assign op target rhs, h => by
    have hload : targetsIn [.load (t.symbol target).fullName] = [] := rfl
    have hstore : targetsIn [.store (t.symbol target).fullName] = [] := rfl
    cases op with
    | none =>
      simp only [Node.code, targetsIn_append, hstore, List.append_nil] at h
      simp only [Node.code, labelsIn_append, List.mem_append]
      exact .inl (.inl (rhs.mem_labelsIn_code t x h))
    | some op =>
      rw [Node.code, List.cons_append, List.cons_append, ← List.singleton_append] at h ⊢
      simp only [targetsIn_append, hload, hstore, ArithOp.targetsIn_code, List.append_nil,
        List.nil_append] at h
      simp only [labelsIn_append, List.mem_append]
      exact .inl (.inr (.inl (.inl (rhs.mem_labelsIn_code t x h))))
  | .branch c targets, h => by
    refine (c.mem_labelsIn_code t x targets h).imp_right fun h => ?_
    simpa [Node.targets, Targets.Has] using h
  | .label l, h => by simp [Node.code, targetsIn, Instr.target?] at h
  | .block nodes, h => mem_targetsIn_codeOfNodes t x nodes h
  | .noOp, h => by simp [Node.code] at h

theorem mem_targetsIn_codeOfNodes (t : Table) (x : Label) : (nodes : List Node) →
    x ∈ targetsIn (codeOfNodes t nodes) → x ∈ labelsIn (codeOfNodes t nodes) ∨
    x ∈ targetsOfNodes nodes
  | [], h => by simp [codeOfNodes] at h
  | n :: nodes, h => by
    simp only [codeOfNodes, targetsIn_append, List.mem_append] at h
    simp only [codeOfNodes, labelsIn_append, targetsOfNodes, List.mem_append]
    rcases h with h | h
    · exact (n.mem_targetsIn_code t x h).imp .inl .inl
    · exact (mem_targetsIn_codeOfNodes t x nodes h).imp .inr .inr

end

structure Node.Made (n : Nat) (nodes : List Node) (n' : Nat) : Prop where
  fresh : Fresh n n' (labelsOfNodes nodes)
  closed : ∀ l ∈ targetsOfNodes nodes, l ∈ marksOfNodes nodes

theorem Node.Made.mem_labelsIn {n n' : Nat} {nodes : List Node}
    (h : Node.Made n nodes n') (t : Table) :
    ∀ l ∈ targetsIn (codeOfNodes t nodes), l ∈ labelsIn (codeOfNodes t nodes) := by
  intro l hl
  rcases mem_targetsIn_codeOfNodes t l nodes hl with hl | hl
  · exact hl
  · exact mem_labelsIn_of_mem_marksOfNodes t l nodes (h.closed l hl)

theorem Node.Made.single {n n' : Nat} {node : Node} (h : Fresh n n' node.labels)
    (htargets : node.targets = []) : Node.Made n [node] n' := by
  refine ⟨by simpa [labelsOfNodes] using h, ?_⟩
  simp [targetsOfNodes, htargets]

namespace Node.Made

variable {n n₁ n' : Nat} {a b : List Node}

theorem nil (n : Nat) : Node.Made n [] n := ⟨.nil (Nat.le_refl n), by simp [targetsOfNodes]⟩

theorem append (ha : Node.Made n a n₁) (hb : Node.Made n₁ b n') : Node.Made n (a ++ b) n' := by
  refine ⟨?_, ?_⟩
  · rw [labelsOfNodes_append]
    exact ha.fresh.append hb.fresh
  · rw [targetsOfNodes_append, marksOfNodes_append, List.forall_mem_append]
    exact ⟨fun l hl => List.mem_append_left _ (ha.closed l hl),
      fun l hl => List.mem_append_right _ (hb.closed l hl)⟩

end Node.Made

theorem labelsOfArgs_input (es : List Expr) :
    labelsOfArgs (es.map .input) = es.flatMap Expr.labels := by
  induction es with
  | nil => rfl
  | cons e es ih => simp [labelsOfArgs, Arg.labels, ih]

theorem Expr.labels_arithmetic {op : ArithOp} {l r e : Expr} {line : Nat}
    (h : Expr.arithmetic op l r line = .ok e) : e.labels = l.labels ++ r.labels := by
  obtain ⟨-, -, value, rfl, -⟩ := Expr.arithmetic_eq_ok h
  rfl

theorem Expr.labels_callTo {t : Table} {name : String} {args : List Arg} {e : Expr}
    (h : Expr.callTo t name args = .ok e) : e.labels = labelsOfArgs args := by
  obtain ⟨callee, -, rfl⟩ := Expr.callTo_eq_ok.1 h
  rfl

namespace Source

variable {s s' : Lowering}

theorem Expr.Becomes.fresh {e : Expr} {e' : TurtleCompiler.Expr} (h : e.Becomes s e' s') :
    Fresh s.labels s'.labels e'.labels := by
  induction h with
  | number | string | boolean => exact .nil (Nat.le_refl _)
  | var h =>
    obtain ⟨id, t₁, j, t₂, -, -, rfl, rfl⟩ := Lowering.reference_eq_ok h
    exact .nil (Nat.le_refl _)
  | random h =>
    obtain ⟨j, t, -, he, rfl⟩ := Lowering.random_eq_ok h
    rw [TurtleCompiler.Expr.labels_callTo he]
    exact .nil (Nat.le_refl _)
  | plus _ _ ih | not _ ih => exact ih
  | minus _ harith ih =>
    rw [TurtleCompiler.Expr.labels_arithmetic harith]
    exact ih
  | arith _ _ _ harith ihl ihr =>
    rw [TurtleCompiler.Expr.labels_arithmetic harith]
    exact ihl.append ihr
  | compare _ _ _ ihl ihr => exact ihl.append ihr
  | logic _ _ _ ihl ihr => exact (ihl.append ihr).append (.singleton _)

theorem EachBecomes.fresh {es : List Expr} {es' : List TurtleCompiler.Expr}
    (h : EachBecomes es s es' s') :
    Fresh s.labels s'.labels (es'.flatMap TurtleCompiler.Expr.labels) := by
  induction h with
  | nil => exact .nil (Nat.le_refl _)
  | cons he _ ih => exact he.fresh.append ih

theorem made_call {n n' : Nat} {t : Table} {name : String} {es : List TurtleCompiler.Expr}
    {e : TurtleCompiler.Expr} {args : List Arg}
    (hes : Fresh n n' (es.flatMap TurtleCompiler.Expr.labels))
    (hargs : ∀ x, (labelsOfArgs args).count x ≤ (es.flatMap TurtleCompiler.Expr.labels).count x)
    (he : Expr.callTo t name args = .ok e) : Node.Made n [.expr e] n' := by
  refine .single ?_ rfl
  rw [Node.labels, TurtleCompiler.Expr.labels_callTo he]
  exact hes.of_count_le hargs

theorem count_flatMap_reverse (es : List TurtleCompiler.Expr) (x : Label) :
    (es.reverse.flatMap TurtleCompiler.Expr.labels).count x =
    (es.flatMap TurtleCompiler.Expr.labels).count x :=
  ((List.reverse_perm es).flatMap_right _).count_eq x

mutual

theorem Stmt.Becomes.made {st : Stmt} {s s' : Lowering} {n : Node} : st.Becomes s n s' →
    Node.Made s.labels [n] s'.labels
  | .expr he => .single he.fresh rfl
  | .assign hrhs h => by
    obtain ⟨compound, type, id, t₁, t₂, -, -, -, rfl, hcases⟩ := Lowering.assignment_eq_ok h
    rcases hcases with ⟨v, -, -, -, -, rfl⟩ | ⟨-, -, -, rfl⟩ | ⟨-, -, rfl⟩
    · exact .single (.nil hrhs.fresh.le) rfl
    · exact .single hrhs.fresh rfl
    · exact .single hrhs.fresh rfl
  | .call hargs h => by
    obtain ⟨i, t₁, j, t₂, e, -, -, he, rfl, rfl⟩ := Lowering.call_eq_ok h
    refine made_call hargs.fresh (fun x => ?_) he
    rw [labelsOfArgs_input, count_flatMap_reverse]
  | .print hargs h => by
    obtain ⟨j, t, e, -, he, rfl, rfl⟩ := Lowering.print_eq_ok h
    refine made_call hargs.fresh (fun x => ?_) he
    rw [labelsOfArgs_input, List.flatMap_cons, TurtleCompiler.Expr.labels, List.nil_append,
      count_flatMap_reverse]
  | .typein h => by
    obtain ⟨i, t₁, id, t₂, j, t₃, e, -, -, -, he, rfl, rfl⟩ := Lowering.typein_eq_ok h
    refine .single ?_ rfl
    rw [Node.labels, TurtleCompiler.Expr.labels_callTo he]
    exact .nil (Nat.le_refl _)
  | .ifThen htest hyes => by
    have hyes := hyes.made
    refine ⟨((htest.fresh.append hyes.fresh).append (.singleton _)).of_count_le fun x => ?_,
      fun l hl => ?_⟩
    · simp [labelsOfNodes, labelsOfNodes_append, Node.labels, TurtleCompiler.Expr.labels]
    · simp only [targetsOfNodes, targetsOfNodes_append, Node.targets, List.mem_append,
        List.cons_append] at hl
      simp only [marksOfNodes, marksOfNodes_append, Node.marks, List.mem_append, List.cons_append]
      have := hyes.closed l
      grind
  | .ifElse htest hyes hno => by
    have hyes := hyes.made
    have hno := hno.made
    have hfresh :=
      ((htest.fresh.append (hyes.fresh.append hno.fresh)).append (.singleton _)).append
      (.singleton _)
    refine ⟨hfresh.of_count_le fun x => ?_, fun l hl => ?_⟩
    · simp only [labelsOfNodes, labelsOfNodes_append, Node.labels, Node.jump, Cond.labels,
        TurtleCompiler.Expr.labels, List.cons_append, List.nil_append, List.append_nil,
        List.count_append, List.count_cons, List.count_nil, Nat.add_assoc, Nat.reduceAdd]
      omega
    · simp only [targetsOfNodes, targetsOfNodes_append, Node.targets, Node.jump, List.mem_append,
        List.cons_append] at hl
      simp only [marksOfNodes, marksOfNodes_append, Node.marks, Node.jump, List.mem_append,
        List.cons_append]
      have := hyes.closed l
      have := hno.closed l
      grind
  | .whileDo htest hbody => by
    have hbody := hbody.made
    have hfresh := ((htest.fresh.append hbody.fresh).append (.singleton _)).append (.singleton _)
    refine ⟨hfresh.of_count_le fun x => ?_, fun l hl => ?_⟩
    · simp only [labelsOfNodes, labelsOfNodes_append, Node.labels, Node.jump, Cond.labels,
        TurtleCompiler.Expr.labels, List.cons_append, List.nil_append, List.append_nil,
        List.count_append, List.count_cons, List.count_nil, Nat.add_assoc, Nat.reduceAdd]
      omega
    · simp only [targetsOfNodes, targetsOfNodes_append, Node.targets, Node.jump, List.mem_append,
        List.cons_append] at hl
      simp only [marksOfNodes, marksOfNodes_append, Node.marks, Node.jump, List.cons_append]
      have := hbody.closed l
      grind

theorem AllBecome.made {ss : List Stmt} {s s' : Lowering} {ns : List Node} :
    AllBecome ss s ns s' → Node.Made s.labels ns s'.labels
  | .nil => .nil _
  | .cons hn hns => hn.made.append hns.made

end

end Source

end TurtleCompiler
