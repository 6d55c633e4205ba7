import TurtleCompiler.Proofs.JumpCode
import TurtleCompiler.Proofs.SourceViews

/-!
What is seen of code. It depends on the names in the table, and on how the routines are called.
-/

namespace TurtleCompiler

@[simp] theorem View.name_append (v : View) (a b : String) :
    v.name (a ++ b) = v.name a ++ v.name b := by
  apply String.toList_injective
  simp [name]

def Instr.view (v : View) : Instr → Instr
  | .load name => .load (v.name name)
  | .store name => .store (v.name name)
  | .call name => .call (v.name name)
  | .verbatim text => .verbatim (v.name text)
  | i => i

def Block.view (v : View) (b : Block) : Block where
  name := v.name b.name
  params := b.params.map v.name
  code := b.code.map (Instr.view v)

def Template.Context.view (v : View) (ctx : Template.Context) : Template.Context where
  name := ctx.name.map v.name
  argument n := (ctx.argument n).map v.name
  callArgument n := (ctx.callArgument n).map v.name
  callArgumentCount := ctx.callArgumentCount

section Plain

variable {v : View} (hchar : v.char = id)

include hchar

theorem View.name_of_char (s : String) : v.name s = s := by
  simp [name, hchar]

theorem Block.view_of_char : Block.view v = id := by
  have hname : v.name = id := funext (View.name_of_char hchar)
  have hinstr : Instr.view v = id := by
    funext i
    cases i <;> simp [Instr.view, hname]
  funext b
  simp [view, hname, hinstr]

end Plain

section Templates

variable {v : View} {ctx ctx' : Template.Context} (h : ctx.view v = ctx'.view v)

include h

theorem fill?_of_view (p : Placeholder) : (p.fill? ctx).map v.name = (p.fill? ctx').map v.name := by
  simp only [Template.Context.view, Template.Context.mk.injEq] at h
  obtain ⟨hname, harg, hcall, hcount⟩ := h
  cases p with
  | name => exact hname
  | argument n => exact congrFun harg n
  | callArgument n => exact congrFun hcall n
  | callArgumentCount => rw [Placeholder.fill?, Placeholder.fill?, hcount]

theorem Part.name_render (p : Part) : v.name (p.render ctx) = v.name (p.render ctx') := by
  cases p with
  | text cs => rfl
  | hole p =>
    have hfill := fill?_of_view h p
    rw [render, render]
    cases hp : p.fill? ctx <;> cases hp' : p.fill? ctx' <;> simp_all

theorem Template.name_render (t : Template) : v.name (t.render ctx) = v.name (t.render ctx') := by
  unfold Template.render
  induction t.parts with
  | nil => rfl
  | cons p parts ih =>
    simp only [List.map_cons, String.join_cons, View.name_append, p.name_render h, ih]

end Templates

def Routine.calling (r : Routine) : List SymbolId × Hooks × Bool × Bool :=
  (r.params, r.hooks, r.flags.reverseArgs, r.flags.internal)

structure Table.SameCode (v : View) (t t' : Table) : Prop where
  name : ∀ id, v.name (t.symbol id).name = v.name (t'.symbol id).name
  fullName : ∀ id, v.name (t.symbol id).fullName = v.name (t'.symbol id).fullName
  usage : ∀ id, (t.symbol id).usage = (t'.symbol id).usage
  routine : ∀ id, (t.symbol id).routine?.map Routine.calling =
    (t'.symbol id).routine?.map Routine.calling

variable {v : View} {t t' : Table}

section SameCode

variable (h : t.SameCode v t') {id : SymbolId} {r r' : Routine}

include h

theorem Table.SameCode.routine_none (hr : (t.symbol id).routine? = none) :
    (t'.symbol id).routine? = none := by
  have := h.routine id
  rwa [hr, Option.map_none, eq_comm, Option.map_eq_none_iff] at this

theorem Table.SameCode.routine_some (hr : (t.symbol id).routine? = some r) :
    ∃ r', (t'.symbol id).routine? = some r' ∧ r'.calling = r.calling := by
  have := h.routine id
  rwa [hr, Option.map_some, eq_comm, Option.map_eq_some_iff] at this

theorem callContext_sameCode (callee : SymbolId) (args : List Arg) :
    (callContext t callee args).view v = (callContext t' callee args).view v := by
  have hvariable (a : Arg) : (a.variableName? t).map v.name = (a.variableName? t').map v.name := by
    unfold Arg.variableName?
    split
    · simp [h.fullName]
    · rfl
  have hargument (n : Nat) : (args[n]?.bind (·.variableName? t)).map v.name =
      (args[n]?.bind (·.variableName? t')).map v.name := by
    cases args[n]? with
    | none => rfl
    | some a => exact hvariable a
  simp [Template.Context.view, callContext, hargument, h.name]

theorem context_sameCode (id : SymbolId) (hparams : r'.params = r.params) :
    (Definition.context t (t.symbol id) r).view v =
    (Definition.context t' (t'.symbol id) r').view v := by
  simp [Template.Context.view, Definition.context, hparams, h.name, Function.comp_def, h.fullName]

theorem callTail_sameCode (callee : SymbolId) (args : List Arg) (hhooks : r'.hooks = r.hooks) :
    (callTail t callee args r).map (Instr.view v) = (callTail t' callee args r').map
    (Instr.view v) := by
  have hline (line : Template) := line.name_render (callContext_sameCode h callee args)
  have htarget : v.name (r.hooks.target.getD (t.symbol callee).name) =
      v.name (r.hooks.target.getD (t'.symbol callee).name) := by
    cases r.hooks.target with
    | none => exact h.name callee
    | some target => rfl
  simp [callTail, Instr.view, Function.comp_def, hhooks, hline, htarget]

end SameCode

mutual

theorem Expr.code_sameCode (h : t.SameCode v t') : (e : Expr) →
    (e.code t).map (Instr.view v) = (e.code t').map (Instr.view v)
  | .const _ => by simp only [Expr.code]
  | .var symbol _ => by simp [Expr.code, Instr.view, h.fullName]
  | .arith op l r _ _ => by simp only [Expr.code, List.map_append, l.code_sameCode h,
      r.code_sameCode h]
  | .call callee args type => by
    have hargs := codeOfArgs_sameCode h args
    cases hr : (t.symbol callee).routine? with
    | none => rw [Expr.code_call_none hr, Expr.code_call_none (h.routine_none hr)]
    | some r =>
      obtain ⟨r', hr', hcalling⟩ := h.routine_some hr
      simp only [Routine.calling, Prod.mk.injEq] at hcalling
      rw [Expr.code_call_some hr, Expr.code_call_some hr', List.map_append, List.map_append,
        callTail_sameCode h callee args hcalling.2.1, hcalling.2.2.1, List.map_flatten,
        List.map_flatten]
      split <;> simp only [List.map_reverse, hargs]
  | .cond c => by simp only [Expr.code, c.code_sameCode h]

theorem codeOfArgs_sameCode (h : t.SameCode v t') : (args : List Arg) →
    (codeOfArgs t args).map (List.map (Instr.view v)) = (codeOfArgs t' args).map
    (List.map (Instr.view v))
  | [] => by simp only [codeOfArgs]
  | a :: args => by simp only [codeOfArgs, List.map_cons, a.code_sameCode h,
      codeOfArgs_sameCode h args]

theorem Arg.code_sameCode (h : t.SameCode v t') : (a : Arg) →
    (a.code t).map (Instr.view v) = (a.code t').map (Instr.view v)
  | .input e => by simp only [Arg.code, e.code_sameCode h]
  | .output _ => by simp only [Arg.code]

theorem Cond.code_sameCode (h : t.SameCode v t') : (c : Cond) → ∀ targets,
    (c.code t targets).map (Instr.view v) = (c.code t' targets).map (Instr.view v)
  | .literal _, _ => by simp only [Cond.code]
  | .compare op l r,
      _ => by simp only [Cond.code, List.map_append, l.code_sameCode h, r.code_sameCode h]
  | .not c, _ => by simp only [Cond.code, c.code_sameCode h]
  | .logic op l r skip,
      _ => by simp only [Cond.code, List.map_append, l.code_sameCode h, r.code_sameCode h]

end

mutual

theorem Node.code_sameCode (h : t.SameCode v t') : (n : Node) →
    (n.code t).map (Instr.view v) = (n.code t').map (Instr.view v)
  | .expr e => by simp only [Node.code, e.code_sameCode h]
  | .assign none target rhs => by
    simp only [Node.code, List.map_append, List.map_cons, List.map_nil, Instr.view,
      rhs.code_sameCode h, h.fullName]
  | .assign (some op) target rhs => by
    simp only [Node.code, List.map_append, List.map_cons, List.map_nil, Instr.view,
      rhs.code_sameCode h, h.fullName]
  | .branch c targets => by simp only [Node.code, c.code_sameCode h]
  | .label _ => by simp only [Node.code]
  | .block nodes => by simp only [Node.code, codeOfNodes_sameCode h nodes]
  | .noOp => by simp only [Node.code]

theorem codeOfNodes_sameCode (h : t.SameCode v t') : (nodes : List Node) →
    (codeOfNodes t nodes).map (Instr.view v) = (codeOfNodes t' nodes).map (Instr.view v)
  | [] => by simp only [codeOfNodes]
  | n :: nodes => by simp only [codeOfNodes, List.map_append, n.code_sameCode h,
      codeOfNodes_sameCode h nodes]

end

theorem Definition.block?_sameCode (h : t.SameCode v t') (d : Definition) :
    (d.block? t).map (Block.view v) = (d.block? t').map (Block.view v) := by
  cases hr : (t.symbol d.symbol).routine? with
  | none => simp [block?, hr, h.routine_none hr]
  | some r =>
    obtain ⟨r', hr', hcalling⟩ := h.routine_some hr
    simp only [Routine.calling, Prod.mk.injEq] at hcalling
    have hentry (e : Entry) : (entryCode t (context t (t.symbol d.symbol) r) e).map (Instr.view v) =
        (entryCode t' (context t' (t'.symbol d.symbol) r') e).map (Instr.view v) := by
      cases e with
      | node n => exact n.code_sameCode h
      | template line =>
        simp [entryCode, Instr.view, line.name_render (context_sameCode h d.symbol hcalling.1)]
    simp only [block?, hr, hr', hcalling.2.2.2, h.usage, Option.bind_eq_bind,
      Option.bind_some, guard]
    split
    · simp [Block.view, hcalling.1, h.name, Function.comp_def, h.fullName,
        List.map_flatMap, hentry]
    · rfl

end TurtleCompiler
