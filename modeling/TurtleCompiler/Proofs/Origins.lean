import TurtleCompiler.Proofs.Footprint
import TurtleCompiler.Proofs.JumpCode

/-!
Where the code of a tree comes from.
-/

namespace TurtleCompiler

mutual

@[simp] def Expr.constants : Expr → List Value
  | .const v => [v]
  | .var .. => []
  | .arith _ l r _ value => l.constants ++ r.constants ++ value.toList
  | .call _ args _ => constantsOfArgs args
  | .cond c => c.constants

@[simp] def constantsOfArgs : List Arg → List Value
  | [] => []
  | a :: args => a.constants ++ constantsOfArgs args

@[simp] def Arg.constants : Arg → List Value
  | .input e | .output e => e.constants

@[simp] def Cond.constants : Cond → List Value
  | .literal _ => []
  | .compare _ l r => l.constants ++ r.constants
  | .not c => c.constants
  | .logic _ l r _ => l.constants ++ r.constants

end

mutual

@[simp] def Node.constants : Node → List Value
  | .expr e | .assign _ _ e => e.constants
  | .branch c _ => c.constants
  | .label _ | .noOp => []
  | .block nodes => constantsOfNodes nodes

@[simp] def constantsOfNodes : List Node → List Value
  | [] => []
  | n :: nodes => n.constants ++ constantsOfNodes nodes

end

inductive Instr.From (t : Table) (as : List Access) (cs : List Value) : Instr → Prop
  | push (h : ∀ s, v = .str s → v ∈ cs) : From t as cs (.push v)
  | operate : From t as cs (.operate op)
  | compareZero : From t as cs .compareZero
  | jump : From t as cs (.jump j l)
  | label : From t as cs (.label l)
  | load (h : .read x ∈ as ∨ .write x ∈ as) : From t as cs (.load (t.symbol x).fullName)
  | store (h : .write x ∈ as) : From t as cs (.store (t.symbol x).fullName)
  | call (hmem : .call callee args ∈ as) (hargs : accessesOfArgs args ⊆ as)
      (hr : r ∈ (t.symbol callee).routine?) (hi : i ∈ callTail t callee args r) : From t as cs i

variable {t : Table} {as bs : List Access} {cs ds : List Value} {i : Instr}

theorem Instr.From.mono (h : i.From t as cs) (has : as ⊆ bs) (hcs : cs ⊆ ds) :
    i.From t bs ds := by
  cases h with
  | push h => exact .push fun s hs => hcs (h s hs)
  | operate => exact .operate
  | compareZero => exact .compareZero
  | jump => exact .jump
  | label => exact .label
  | load h => exact .load (h.imp (has ·) (has ·))
  | store h => exact .store (has h)
  | call hmem hargs hr hi => exact .call (has hmem) (fun a ha => has (hargs ha)) hr hi

theorem ArithOp.from_code (op : ArithOp) : ∀ i ∈ op.code, i.From t as cs := by
  simp [ArithOp.code, Instr.From.operate]

theorem RelOp.from_code (op : RelOp) (targets : Targets) :
    ∀ i ∈ op.code targets, i.From t as cs := by
  obtain ⟨_ | onTrue, _ | onFalse⟩ := targets <;>
    simp only [RelOp.code, List.forall_mem_append, List.forall_mem_map,
      List.forall_mem_singleton] <;>
    simp [Instr.From.jump]

theorem from_literal (b : Bool) (targets : Targets) :
    ∀ i ∈ literalCode b targets, i.From t as cs := by
  have hpush : (Instr.push (.bool b)).From t as cs := .push (by simp)
  obtain ⟨_ | onTrue, _ | onFalse⟩ := targets <;> cases b <;>
    simp [literalCode, hpush, Instr.From.compareZero, Instr.From.jump]

mutual

theorem Expr.from_code (t : Table) :
    (e : Expr) → ∀ i ∈ e.code t, i.From t e.accesses e.constants
  | .const v => List.forall_mem_singleton.2 (.push (by simp))
  | .var .. => List.forall_mem_singleton.2 (.load (by simp))
  | .arith op l r _ _ => by
    simp only [Expr.code, List.forall_mem_append]
    refine ⟨⟨fun i hi => ?_, fun i hi => ?_⟩, op.from_code⟩
    · exact (l.from_code t i hi).mono (by simp) (by simp)
    · exact (r.from_code t i hi).mono (by simp) (by simp)
  | .call callee args type => by
    cases hr : (t.symbol callee).routine? with
    | none => simp [Expr.code_call_none hr]
    | some r =>
      rw [Expr.code_call_some hr, List.forall_mem_append]
      refine ⟨fun i hi => ?_, fun i hi => .call (by simp) (by simp) hr hi⟩
      have hargs : i ∈ (codeOfArgs t args).flatten := by
        cases hreverse : r.flags.reverseArgs <;> simpa [hreverse] using hi
      exact (from_codeOfArgs t args i hargs).mono (by simp) (by simp)
  | .cond c => c.from_code t {}

theorem from_codeOfArgs (t : Table) : (args : List Arg) →
    ∀ i ∈ (codeOfArgs t args).flatten, i.From t (accessesOfArgs args) (constantsOfArgs args)
  | [] => by simp [codeOfArgs]
  | a :: args => by
    simp only [codeOfArgs, List.flatten_cons, List.forall_mem_append]
    refine ⟨fun i hi => ?_, fun i hi => ?_⟩
    · exact (a.from_code t i hi).mono (by simp) (by simp)
    · exact (from_codeOfArgs t args i hi).mono (by simp) (by simp)

theorem Arg.from_code (t : Table) :
    (a : Arg) → ∀ i ∈ a.code t, i.From t a.accesses a.constants
  | .input e => e.from_code t
  | .output _ => by simp [Arg.code]

theorem Cond.from_code (t : Table) : (c : Cond) → (targets : Targets) →
    ∀ i ∈ c.code t targets, i.From t c.accesses c.constants
  | .literal b, targets => from_literal b targets
  | .compare op l r, targets => by
    simp only [Cond.code, List.forall_mem_append]
    refine ⟨⟨⟨fun i hi => ?_, fun i hi => ?_⟩, by simp [Instr.From.operate]⟩,
      op.from_code targets⟩
    · exact (l.from_code t i hi).mono (by simp) (by simp)
    · exact (r.from_code t i hi).mono (by simp) (by simp)
  | .not c, targets => c.from_code t targets.swap
  | .logic op l r skip, targets => by
    simp only [Cond.code, List.forall_mem_append]
    refine ⟨⟨fun i hi => ?_, fun i hi => ?_⟩, ?_⟩
    · exact (l.from_code t (targets.left skip op) i hi).mono (by simp) (by simp)
    · exact (r.from_code t targets i hi).mono (by simp) (by simp)
    · cases targets.skips op <;> simp [Instr.From.label]

end

mutual

theorem Node.from_code (t : Table) :
    (n : Node) → ∀ i ∈ n.code t, i.From t n.accesses n.constants
  | .expr e => e.from_code t
  | .assign none target rhs => by
    simp only [Node.code, List.forall_mem_append, List.forall_mem_singleton]
    exact ⟨fun i hi => (rhs.from_code t i hi).mono (by simp) (by simp), .store (by simp)⟩
  | .assign (some op) target rhs => by
    simp only [Node.code, List.forall_mem_append, List.forall_mem_cons]
    refine ⟨⟨⟨.load (by simp), fun i hi => ?_⟩, op.from_code⟩,
      .store (by simp), by simp⟩
    exact (rhs.from_code t i hi).mono (by simp) (by simp)
  | .branch c targets => c.from_code t targets
  | .label l => List.forall_mem_singleton.2 .label
  | .block nodes => from_codeOfNodes t nodes
  | .noOp => by simp [Node.code]

theorem from_codeOfNodes (t : Table) : (nodes : List Node) →
    ∀ i ∈ codeOfNodes t nodes, i.From t (accessesOfNodes nodes) (constantsOfNodes nodes)
  | [] => by simp [codeOfNodes]
  | n :: nodes => by
    simp only [codeOfNodes, List.forall_mem_append]
    refine ⟨fun i hi => ?_, fun i hi => ?_⟩
    · exact (n.from_code t i hi).mono (by simp) (by simp)
    · exact (from_codeOfNodes t nodes i hi).mono (by simp) (by simp)

end

theorem render_storeFirst (callee id : SymbolId) (type : DataType) :
    storeFirst.render (callContext t callee [.output (.var id type)]) =
    (Instr.store (t.symbol id).fullName).text := by
  simp [storeFirst, Template.render, Part.render, Placeholder.fill?, callContext, Arg.variableName?,
    Arg.expr, Instr.text]

theorem Access.Fits.callTail {callee : SymbolId} {args : List Arg} {r : Routine}
    (h : (Access.call callee args).Fits t) (hr : r ∈ (t.symbol callee).routine?)
    (hi : i ∈ callTail t callee args r) :
    t.IsUsed callee ∧ r.aliasOf = none ∧
      (i = .call (r.hooks.target.getD (t.symbol callee).name) ∨
      ∃ id type, args = [.output (.var id type)] ∧
      i = .verbatim (Instr.store (t.symbol id).fullName).text) := by
  obtain ⟨hused, r', hr', halias, hbefore, hafter⟩ := h
  obtain rfl := Option.mem_unique hr hr'
  refine ⟨hused, halias, ?_⟩
  simp only [TurtleCompiler.callTail, hbefore, List.map_nil, List.nil_append, List.singleton_append,
    List.mem_cons] at hi
  refine hi.imp_right fun hi => ?_
  rcases hafter with hafter | ⟨hafter, id, type, rfl⟩
  · simp [hafter] at hi
  · refine ⟨id, type, rfl, ?_⟩
    simpa [hafter, render_storeFirst] using hi

end TurtleCompiler
