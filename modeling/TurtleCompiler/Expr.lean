import TurtleCompiler.Fold
import TurtleCompiler.Symbol.Id
import TurtleCompiler.Template

/-!
The trees that code is made from: expressions, conditions and statements. What builds an expression
checks types and computes constants; a condition is an expression that code can branch on.
-/

namespace TurtleCompiler

structure Label where
  name : String
  deriving DecidableEq

def Label.text (l : Label) : String := ":" ++ l.name

mutual

inductive Expr where
  | const (v : Value)
  | var (symbol : SymbolId) (type : DataType)
  | arith (op : ArithOp) (l r : Expr) (type : DataType) (value : Option Value)
  | call (callee : SymbolId) (args : List Arg) (type : Option DataType)
  | cond (c : Cond)

/-- An argument of a call, in the order in which arguments are pushed. Nothing is pushed for an
output: the callee stores into it. -/
inductive Arg where
  | input (e : Expr)
  | output (e : Expr)

/-- The label of a logic node stands after its right operand, if its left operand has to skip that.
-/
inductive Cond where
  | literal (b : Bool)
  | compare (op : RelOp) (l r : Expr)
  | not (c : Cond)
  | logic (op : LogicOp) (l r : Cond) (skip : Label)

end

def Arg.expr : Arg → Expr
  | .input e | .output e => e

def Value.order? (l r : Value) : Option Ordering :=
  match l.contents?, r.contents? with
  | some a, some b => some (compareOfLessAndEq a b)
  | _, _ => do
    let x ← l.toFloat?
    let y ← r.toFloat?
    if x < y then some .lt else if x == y then some .eq else if y < x then some .gt else none

mutual

def Expr.value? : Expr → Option Value
  | .const v => some v
  | .arith _ _ _ _ value => value
  | .cond c => c.value?.map .bool
  | .var .. | .call .. => none

def Cond.value? : Cond → Option Bool
  | .literal b => some b
  | .compare op l r => do
    let x ← l.value?
    let y ← r.value?
    return op.holds (← x.order? y)
  | .not c => c.value?.map (!·)
  | .logic op l r _ => do
    let x ← l.value?
    let y ← r.value?
    return op.apply x y

end

namespace Expr

def dataType : Expr → DataType
  | .const v => v.dataType
  | .var _ type => type
  | .arith _ _ _ type _ => type
  | .call _ _ type => type.getD .float
  | .cond _ => .bool

def isConst (e : Expr) : Bool := e.value?.isSome

end Expr

def checkNumeric (line : Nat) (t : DataType) : Except Error Unit :=
  if t.isNumeric then .ok () else .error (.type line (.invalid t))

/-- The type of the node follows from the types of its operands, so a quotient of integers that
folds to a float is still an integer node. -/
def Expr.arithmetic (op : ArithOp) (l r : Expr) (line : Nat) : Except Error Expr := do
  checkNumeric line l.dataType
  checkNumeric line r.dataType
  let value ←
    match l.value?, r.value? with
    | some x, some y => some <$> fold line op x y
    | _, _ => pure none
  return .arith op l r (l.dataType.unify r.dataType) value

namespace Cond

def rejectBool (line : Nat) (t : DataType) : Except Error Unit :=
  if t = .bool then .error (.type line (.invalid .bool)) else .ok ()

def comparison (op : RelOp) (l r : Expr) (line : Nat) : Except Error Cond := do
  rejectBool line l.dataType
  rejectBool line r.dataType
  if l.dataType = .str ∨ r.dataType = .str then
    if l.dataType ≠ r.dataType then throw (.type line .stringWithOther)
    if !op.isEquality then throw (.type line .stringOrder)
  return .compare op l r

def ofExpr (line : Nat) : Expr → Except Error Cond
  | .cond c => .ok c
  | e => .error (.type line (.invalid e.dataType))

def negation (e : Expr) (line : Nat) : Except Error Cond :=
  return .not (← ofExpr line e)

def combination (op : LogicOp) (l r : Expr) (skip : Label) (line : Nat) : Except Error Cond := do
  let l ← ofExpr line l
  let r ← ofExpr line r
  return .logic op l r skip

end Cond

structure Targets where
  onTrue : Option Label := none
  onFalse : Option Label := none
  deriving DecidableEq

inductive Node where
  | expr (e : Expr)
  | assign (op : Option ArithOp) (target : SymbolId) (rhs : Expr)
  | branch (c : Cond) (targets : Targets)
  | label (l : Label)
  | block (nodes : List Node)
  | noOp

def Node.jump (l : Label) : Node := .branch (.literal true) { onTrue := some l }

inductive Entry where
  | node (n : Node)
  | template (t : Template)

structure Definition where
  symbol : SymbolId
  body : List Entry

def Definition.ofNodes (symbol : SymbolId) (nodes : List Node) : Definition :=
  ⟨symbol, nodes.map .node⟩

end TurtleCompiler
