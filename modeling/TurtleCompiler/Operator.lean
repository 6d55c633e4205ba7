/-!
The operators of the language and their spelling in a source.
-/

namespace TurtleCompiler

inductive ArithOp where
  | add
  | sub
  | mul
  | div
  | mod
  | pow
  deriving DecidableEq

inductive RelOp where
  | less
  | lessEq
  | greater
  | greaterEq
  | equal
  | notEqual
  deriving DecidableEq

inductive LogicOp where
  | and
  | or
  deriving DecidableEq

def ArithOp.ofText? : String → Option ArithOp
  | "+" => some .add
  | "-" => some .sub
  | "*" => some .mul
  | "/" => some .div
  | "%" => some .mod
  | "^" => some .pow
  | _ => none

namespace RelOp

def ofText? : String → Option RelOp
  | "<" => some .less
  | "<=" => some .lessEq
  | ">" => some .greater
  | ">=" => some .greaterEq
  | "==" => some .equal
  | "<>" => some .notEqual
  | _ => none

def isEquality : RelOp → Bool
  | .equal | .notEqual => true
  | .less | .lessEq | .greater | .greaterEq => false

def holds : RelOp → Ordering → Bool
  | .less, o => o.isLT
  | .lessEq, o => o.isLE
  | .greater, o => o.isGT
  | .greaterEq, o => o.isGE
  | .equal, o => o.isEq
  | .notEqual, o => o.isNe

end RelOp

namespace LogicOp

def ofText? (text : String) : Option LogicOp :=
  match text.toUpper with
  | "AND" => some .and
  | "OR" => some .or
  | _ => none

def apply : LogicOp → Bool → Bool → Bool
  | .and, l, r => l && r
  | .or, l, r => l || r

end LogicOp

end TurtleCompiler
