import TurtleCompiler.Source.Tree
import TurtleCompiler.Lowering.Actions

/-!
Lowering a source tree: operands before the operation on them, a header before its body, and each
phrase after what the scanner noted up to its completion.
-/

namespace TurtleCompiler.Source

def Expr.lower : Expr → LowerM TurtleCompiler.Expr
  | .number text site => do
    Lowering.enter site.notes
    Lowering.number text site.line
  | .string text => return Lowering.string text
  | .boolean text => return Lowering.boolean text
  | .var name site => do
    Lowering.enter site.notes
    Lowering.reference name site.line
  | .random => Lowering.random
  | .plus e site => do
    let e ← e.lower
    Lowering.enter site.notes
    Lowering.positive e site.line
  | .minus e site => do
    let e ← e.lower
    Lowering.enter site.notes
    Lowering.negate e site.line
  | .not e site => do
    let e ← e.lower
    Lowering.enter site.notes
    Lowering.negation e site.line
  | .arith op l r site => do
    let l ← l.lower
    let r ← r.lower
    Lowering.enter site.notes
    Lowering.arithmetic op l r site.line
  | .compare op l r site => do
    let l ← l.lower
    let r ← r.lower
    Lowering.enter site.notes
    Lowering.comparison op l r site.line
  | .logic op l r site => do
    let l ← l.lower
    let r ← r.lower
    Lowering.enter site.notes
    Lowering.combination op l r site.line

mutual

def Stmt.lower : Stmt → LowerM Node
  | .expr e => .expr <$> e.lower
  | .assign name op rhs site => do
    let rhs ← rhs.lower
    Lowering.enter site.notes
    Lowering.assignment name op rhs site.line
  | .call name args site => do
    let args ← args.mapM Expr.lower
    Lowering.enter site.notes
    Lowering.call name args site.line
  | .print first more site => do
    let first ← first.lower
    let more ← more.mapM Expr.lower
    Lowering.enter site.notes
    Lowering.print (first :: more)
  | .typein name site => do
    Lowering.enter site.notes
    Lowering.typein name site.line
  | .ifThen cond yes site => do
    let cond ← cond.lower
    let yes ← lowerAll yes
    Lowering.enter site.notes
    Lowering.ifStatement cond yes none site.line
  | .ifElse cond yes no site => do
    let cond ← cond.lower
    let yes ← lowerAll yes
    let no ← lowerAll no
    Lowering.enter site.notes
    Lowering.ifStatement cond yes (some no) site.line
  | .whileDo cond body site => do
    let cond ← cond.lower
    let body ← lowerAll body
    Lowering.enter site.notes
    Lowering.whileStatement cond body site.line

def lowerAll : List Stmt → LowerM (List Node)
  | [] => return []
  | s :: ss => do
    let n ← s.lower
    let ns ← lowerAll ss
    return n :: ns

end

def Header.lower (h : Header) : LowerM SymbolId := do
  Lowering.enter h.site.notes
  Lowering.beginProcedure h.name h.site.line h.params

def Phrase.lower : Phrase → LowerM Unit
  | .expr e => discard e.lower
  | .stmt s => discard s.lower
  | .header h => discard h.lower

/-- A syntax fault is recorded and returned; anything else ends the lowering. -/
def Item.lower : Item → LowerM (Option Error)
  | .statement s => do
    Lowering.addTopLevel (← s.lower)
    return none
  | .definition header body site => do
    let symbol ← header.lower
    let body ← lowerAll body
    Lowering.enter site.notes
    Lowering.endProcedure symbol body
    return none
  | .broken done fault => do
    done.forM Phrase.lower
    match fault with
    | .lexical e notes =>
      Lowering.enter notes
      throw e
    | .grammatical fault site =>
      Lowering.enter site.notes
      Workspace.note (.syntaxFault fault)
      return some (.unparsed site.line fault)

def Program.lower (p : Program) : LowerM Unit := do
  let faults ← p.items.mapM Item.lower
  Lowering.enter p.site.notes
  if p.items.isEmpty then
    Workspace.note (.syntaxFault .emptyProgram)
    throw (.unparsed p.site.line .emptyProgram)
  match faults.findSome? id with
  | some e => throw e
  | none => return ()

end TurtleCompiler.Source
