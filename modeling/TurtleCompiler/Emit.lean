import TurtleCompiler.Event
import TurtleCompiler.Instr
import TurtleCompiler.Symbol.Table

/-!
From trees to instructions. The code of a condition jumps to its targets or falls through; the code
of any other expression leaves its value on the stack.
-/

namespace TurtleCompiler

def ArithOp.code (op : ArithOp) : List Instr := op.operations.map .operate

def RelOp.code (op : RelOp) : Targets → List Instr
  | ⟨some onTrue, some onFalse⟩ => op.jumps.map (.jump · onTrue) ++ [.jump .always onFalse]
  | ⟨some onTrue, none⟩ => op.jumps.map (.jump · onTrue)
  | ⟨none, some onFalse⟩ => op.jumpsOtherwise.map (.jump · onFalse)
  | ⟨none, none⟩ => []

def literalCode (b : Bool) : Targets → List Instr
  | ⟨none, none⟩ => [.push (.bool b), .compareZero]
  | ⟨onTrue, onFalse⟩ => ((if b then onTrue else onFalse).map (.jump .always ·)).toList

namespace Targets

def swap (t : Targets) : Targets := ⟨t.onFalse, t.onTrue⟩

/-- Where the left operand goes: it decides the result of `and` if it is false, that of `or` if it
is true. -/
def left (t : Targets) (skip : Label) : LogicOp → Targets
  | .and => ⟨none, some (t.onFalse.getD skip)⟩
  | .or => ⟨some (t.onTrue.getD skip), none⟩

def skips (t : Targets) : LogicOp → Bool
  | .and => t.onFalse.isNone
  | .or => t.onTrue.isNone

end Targets

def Arg.variableName? (t : Table) (a : Arg) : Option String :=
  match a.expr with
  | .var symbol _ => some (t.symbol symbol).fullName
  | _ => none

def callContext (t : Table) (callee : SymbolId) (args : List Arg) : Template.Context where
  name := some (t.symbol callee).name
  callArgument n := args[n]?.bind (·.variableName? t)
  callArgumentCount := some args.length

mutual

def Expr.code (t : Table) : Expr → List Instr
  | .const v => [.push v]
  | .var symbol _ => [.load (t.symbol symbol).fullName]
  | .arith op l r _ _ => l.code t ++ r.code t ++ op.code
  | .call callee args _ =>
    let symbol := t.symbol callee
    let pushed := codeOfArgs t args
    match symbol.routine? with
    | none => []
    | some r =>
      let ctx := callContext t callee args
      (if r.flags.reverseArgs then pushed.reverse else pushed).flatten ++
        r.hooks.before.map (fun template => .verbatim (template.render ctx)) ++
        [.call (r.hooks.target.getD symbol.name)] ++
        r.hooks.after.map fun template => .verbatim (template.render ctx)
  | .cond c => c.code t {}

def codeOfArgs (t : Table) : List Arg → List (List Instr)
  | [] => []
  | a :: args => a.code t :: codeOfArgs t args

def Arg.code (t : Table) : Arg → List Instr
  | .input e => e.code t
  | .output _ => []

def Cond.code (t : Table) (targets : Targets) : Cond → List Instr
  | .literal b => literalCode b targets
  | .compare op l r => l.code t ++ r.code t ++ [.operate .sub, .operate .pop] ++ op.code targets
  | .not c => c.code t targets.swap
  | .logic op l r skip =>
    l.code t (targets.left skip op) ++ r.code t targets ++ if targets.skips op then
    [.label skip] else []

end

mutual

def Node.code (t : Table) : Node → List Instr
  | .expr e => e.code t
  | .assign none target rhs => rhs.code t ++ [.store (t.symbol target).fullName]
  | .assign (some op) target rhs =>
    .load (t.symbol target).fullName :: rhs.code t ++ op.code ++ [.store (t.symbol target).fullName]
  | .branch c targets => c.code t targets
  | .label l => [.label l]
  | .block nodes => codeOfNodes t nodes
  | .noOp => []

def codeOfNodes (t : Table) : List Node → List Instr
  | [] => []
  | n :: nodes => n.code t ++ codeOfNodes t nodes

end

namespace Definition

def context (t : Table) (s : Symbol) (r : Routine) : Template.Context where
  name := some s.name
  argument n := r.params[n]?.map fun param => (t.symbol param).fullName

def entryCode (t : Table) (ctx : Template.Context) : Entry → List Instr
  | .node n => n.code t
  | .template template => [.verbatim (template.render ctx)]

def block? (t : Table) (d : Definition) : Option Block := do
  let s := t.symbol d.symbol
  let r ← s.routine?
  guard (!r.flags.internal && s.usage ≠ 0)
  return {
    name := s.name
    params := r.params.map fun param => (t.symbol param).fullName
    code := d.body.flatMap (entryCode t (context t s r)) }

def remark? (t : Table) (d : Definition) : Option Event := do
  let s := t.symbol d.symbol
  let r ← s.routine?
  guard (!r.flags.internal && s.usage = 0 && !r.flags.library)
  return .functionSkipped s.name (s.line.getD 0)

end Definition

end TurtleCompiler
