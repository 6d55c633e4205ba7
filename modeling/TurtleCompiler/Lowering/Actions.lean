import TurtleCompiler.Lowering.Basic

/-!
What each construct of the language does: the symbols it declares and uses, and the tree it becomes.
-/

namespace TurtleCompiler

def Expr.ofVariable (t : Table) (id : SymbolId) : Expr :=
  .var id ((t.symbol id).type?.getD .float)

def Expr.callTo (t : Table) (name : String) (args : List Arg) : Except Error Expr :=
  match (t.resolve name none (some .routine)).bind t.resolveAlias with
  | some callee => .ok (.call callee args (t.symbol callee).type?)
  | none => .error (.link (.unresolved name))

def compoundOp? (op : String) : Option ArithOp :=
  if op.toList.getLast? = some '=' then ArithOp.ofText? (String.ofList op.toList.dropLast) else none

namespace Lowering

def callTo (name : String) (args : List Arg) : LowerM Expr := do
  LowerM.ofExcept (Expr.callTo (← get).table name args)

def number (text : String) (line : Nat) : LowerM Expr :=
  let value :=
    if '.' ∈ text.toList then (Numeral.float? text.toList).map Value.float
    else (Numeral.int64? text.toList).map Value.int
  match value with
  | some v => return .const v
  | none => throw (.invalidNumber line text)

def string (text : String) : Expr := .const (.str text)

def boolean (text : String) : Expr :=
  .cond (.literal (text.toUpper = "TRUE" || text.toUpper = "YES"))

def reference (name : String) (line : Nat) : LowerM Expr := do
  let symbol ← EStateM.adaptExcept (Error.atLine line) (Table.declare .anywhere name .var none {})
  let _ ← Table.countUsage name (some .var)
  return .ofVariable (← get).table symbol

def random : LowerM Expr := do
  let _ ← Table.countUsage "RANDOM" (some .routine)
  callTo "RANDOM" []

def arithmetic (op : String) (l r : Expr) (line : Nat) : LowerM Expr :=
  match ArithOp.ofText? op with
  | some op => LowerM.ofExcept (Expr.arithmetic op l r line)
  | none => throw (.defect (.unknownOperator op))

def negate (e : Expr) (line : Nat) : LowerM Expr :=
  LowerM.ofExcept (Expr.arithmetic .mul (.const (.int (-1))) e line)

def positive (e : Expr) (line : Nat) : LowerM Expr := do
  LowerM.ofExcept (checkNumeric line e.dataType)
  return e

def comparison (op : String) (l r : Expr) (line : Nat) : LowerM Expr :=
  match RelOp.ofText? op with
  | some op => .cond <$> LowerM.ofExcept (Cond.comparison op l r line)
  | none => throw (.defect (.unknownOperator op))

def combination (op : String) (l r : Expr) (line : Nat) : LowerM Expr :=
  match LogicOp.ofText? op with
  | some op => do
    let skip ← newLabel
    .cond <$> LowerM.ofExcept (Cond.combination op l r skip line)
  | none => throw (.defect (.unknownOperator op))

def negation (e : Expr) (line : Nat) : LowerM Expr :=
  .cond <$> LowerM.ofExcept (Cond.negation e line)

def isParameter (t : Lowering) (id : SymbolId) : Bool :=
  ((t.openRoutine.bind fun r => (t.table.symbol r).routine?).map (·.params)).any (id ∈ ·)

def assignedType (name : String) (compound : Option ArithOp) (rhs : DataType) (line : Nat) :
    LowerM DataType := do
  if compound.isNone then return rhs
  let table := (← get).table
  let current :=
    ((table.resolve name none (some .var)).bind fun id => (table.symbol id).type?).getD .float
  LowerM.ofExcept (checkNumeric line current)
  LowerM.ofExcept (checkNumeric line rhs)
  return current.unify rhs

/-- The first constant assigned to a variable is its initial value, and needs no code. -/
def assignment (name op : String) (rhs : Expr) (line : Nat) : LowerM Node := do
  let compound := if op = "=" then none else compoundOp? op
  if op ≠ "=" && compound.isNone then throw (.defect (.unknownAssignment op))
  let type ← assignedType name compound rhs.dataType line
  let symbol ← Table.declare .anywhere name .var (some line) { type := some type }
  let t ← get
  if ((t.table.symbol symbol).var?.bind (·.value)).isNone then
    match rhs.value?, t.isParameter symbol with
    | some value, false =>
      Table.setValue symbol (value.widen type)
      return .noOp
    | _, _ => Table.setValue symbol type.zero
  return .assign compound symbol rhs

/-- A procedure may be called before it is defined. Arguments are pushed from the last to the first.
-/
def call (name : String) (args : List Expr) (line : Nat) : LowerM Node := do
  let _ ← EStateM.adaptExcept (Error.atLine line) (Table.declare .outermost name .routine none {})
  let _ ← Table.countUsage name (some .routine)
  .expr <$> callTo name (args.reverse.map .input)

def print (args : List Expr) : LowerM Node := do
  let _ ← Table.countUsage "PRINT" (some .routine)
  .expr <$> callTo "PRINT" ((.const (.int (Int64.ofNat args.length)) :: args.reverse).map .input)

def typein (name : String) (line : Nat) : LowerM Node := do
  let _ ← Table.countUsage "TYPEIN" (some .routine)
  let target ← Table.declare .anywhere name .var (some line) {}
  let _ ← Table.countUsage name (some .var)
  .expr <$> callTo "TYPEIN" [.output (.ofVariable (← get).table target)]

def ifStatement (cond : Expr) (yes : List Node) (no : Option (List Node)) (line : Nat) :
    LowerM Node := do
  let c ← LowerM.ofExcept (Cond.ofExpr line cond)
  let onFalse ← newLabel
  let start := .branch c { onFalse := some onFalse } :: yes
  match no with
  | none => return .block (start ++ [.label onFalse])
  | some no =>
    let join ← newLabel
    return .block (start ++ [.jump join, .label onFalse] ++ no ++ [.label join])

def whileStatement (cond : Expr) (body : List Node) (line : Nat) : LowerM Node := do
  let c ← LowerM.ofExcept (Cond.ofExpr line cond)
  let start ← newLabel
  let next ← newLabel
  return .block
    ([.label start, .branch c { onFalse := some next }] ++ body ++ [.jump start, .label next])

end Lowering

end TurtleCompiler
