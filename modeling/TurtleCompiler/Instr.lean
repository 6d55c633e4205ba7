import TurtleCompiler.Expr

/-!
Instructions of the stack machine, and blocks of them.
-/

namespace TurtleCompiler

inductive Operation where
  | add
  | sub
  | mul
  | div
  | idiv
  | pow
  | pop
  deriving DecidableEq

inductive Jump where
  | always
  | less
  | more
  | zero
  | nonzero
  deriving DecidableEq

inductive Instr where
  | push (v : Value)
  | load (name : String)
  | store (name : String)
  | operate (op : Operation)
  | compareZero
  | jump (j : Jump) (target : Label)
  | label (l : Label)
  | call (name : String)
  | verbatim (text : String)

def Operation.mnemonic : Operation → String
  | .add => "ADD"
  | .sub => "SUB"
  | .mul => "MUL"
  | .div => "DIV"
  | .idiv => "IDIV"
  | .pow => "POW"
  | .pop => "POP"

def Jump.mnemonic : Jump → String
  | .always => "JP"
  | .less => "JLESS"
  | .more => "JMORE"
  | .zero => "JZ"
  | .nonzero => "JNZ"

def Instr.text : Instr → String
  | .push v => "PUSH " ++ v.text
  | .load name => "LOAD " ++ name
  | .store name => "STOR " ++ name
  | .operate op => op.mnemonic
  | .compareZero => "CMP 0"
  | .jump j target => j.mnemonic ++ " " ++ target.text
  | .label l => l.text
  | .call name => "CALL " ++ name
  | .verbatim text => text

/-- An integer division leaves the remainder below the quotient. -/
def ArithOp.operations : ArithOp → List Operation
  | .add => [.add]
  | .sub => [.sub]
  | .mul => [.mul]
  | .div => [.div]
  | .mod => [.idiv, .pop]
  | .pow => [.pow]

namespace RelOp

def jumps : RelOp → List Jump
  | .less => [.less]
  | .lessEq => [.less, .zero]
  | .greater => [.more]
  | .greaterEq => [.more, .zero]
  | .equal => [.zero]
  | .notEqual => [.nonzero]

def jumpsOtherwise : RelOp → List Jump
  | .less => [.more, .zero]
  | .lessEq => [.more]
  | .greater => [.less, .zero]
  | .greaterEq => [.less]
  | .equal => [.nonzero]
  | .notEqual => [.zero]

end RelOp

def entryName : String := "__main__"

structure Block where
  name : String
  params : List String
  code : List Instr

namespace Block

def lastLine (b : Block) : String := if b.name = entryName then "HALT" else "RET"

def lines (b : Block) : List String :=
  ["", "DEF " ++ b.name ++ ":"] ++ b.params.map (Instr.text ∘ .store) ++
  b.code.map Instr.text ++ [b.lastLine]

end Block

end TurtleCompiler
