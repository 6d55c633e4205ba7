import TurtleCompiler.Decimal.Reading

/-!
Literals known at compile time and the four types they have.
-/

namespace TurtleCompiler

inductive DataType where
  | int
  | float
  | bool
  | str
  deriving DecidableEq

/-- A string keeps the quotes it was written with. -/
inductive Value where
  | int (v : Int64)
  | float (v : Float)
  | bool (v : Bool)
  | str (s : String)

namespace DataType

def name : DataType → String
  | .int => "int"
  | .float => "float"
  | .bool => "bool"
  | .str => "str"

def isNumeric : DataType → Bool
  | .int | .float => true
  | .bool | .str => false

def zero : DataType → Value
  | .int => .int 0
  | .float => .float 0.0
  | .bool => .bool false
  | .str => .str "''"

def unify : DataType → DataType → DataType
  | .float, _ => .float
  | _, .float => .float
  | _, _ => .int

end DataType

/-- A whole float below `10 ^ 16` has one place after the point; any other has the fewest digits
that read back, and never an exponent. -/
def floatText (x : Float) : String :=
  match Binary.ofFloat x with
  | .nan => "NaN"
  | .infinite negative => if negative then "-inf" else "inf"
  | .finite negative m q =>
    let magnitude :=
      match (Binary.wholePart? m q).filter (· < pow10 16) with
      | some n => n.repr ++ ".0"
      | none => (Decimal.shortest m q).positional
    if negative then "-" ++ magnitude else magnitude

namespace Value

def dataType : Value → DataType
  | .int _ => .int
  | .float _ => .float
  | .bool _ => .bool
  | .str _ => .str

/-- The text of a value in a listing. The machine takes a zero for true. -/
def text : Value → String
  | .int v => toString v.toInt
  | .float v => floatText v
  | .bool v => if v then "0" else "1"
  | .str s => s

def widen : Value → DataType → Value
  | .int v, .float => .float (Float.ofInt v.toInt)
  | v, _ => v

def toFloat? : Value → Option Float
  | .int v => some (Float.ofInt v.toInt)
  | .float v => some v
  | .bool _ | .str _ => none

def contents? : Value → Option (List Char)
  | .str s => some (if 2 ≤ s.length then s.toList.tail.dropLast else s.toList)
  | .int _ | .float _ | .bool _ => none

end Value

end TurtleCompiler
