/-!
Tokens and their classes. Keywords are recognised in any case of their letters.
-/

namespace TurtleCompiler

inductive Lexeme where
  | identifier
  | colonIdentifier
  | number
  | string
  | boolean
  | ifKey
  | thenKey
  | elseKey
  | whileKey
  | toKey
  | endKey
  | notKey
  | printKey
  | typeinKey
  | randomKey
  | assignOp
  | relOp
  | logicOp
  | addOp
  | mulOp
  | powOp
  | openParen
  | closeParen
  deriving DecidableEq

structure Token where
  lexeme : Lexeme
  text : String
  line : Nat
  deriving DecidableEq

namespace Lexeme

def name : Lexeme → String
  | .identifier => "ID"
  | .colonIdentifier => "COLON_ID"
  | .number => "NUMBER"
  | .string => "STRING"
  | .boolean => "BOOLEAN"
  | .ifKey => "IF"
  | .thenKey => "THEN"
  | .elseKey => "ELSE"
  | .whileKey => "WHILE"
  | .toKey => "TO"
  | .endKey => "END"
  | .notKey => "NOT"
  | .printKey => "PRINT"
  | .typeinKey => "TYPEIN"
  | .randomKey => "RANDOM"
  | .assignOp => "ASSIGN_OP"
  | .relOp => "REL_OP"
  | .logicOp => "LOGIC_OP"
  | .addOp => "ADD_OP"
  | .mulOp => "MUL_OP"
  | .powOp => "PWR_OP"
  | .openParen => "OPEN_PAR"
  | .closeParen => "CLOSE_PAR"

def ofWord (word : String) : Lexeme :=
  match word.toUpper with
  | "IF" => .ifKey
  | "THEN" => .thenKey
  | "ELSE" => .elseKey
  | "WHILE" => .whileKey
  | "TO" => .toKey
  | "END" => .endKey
  | "NOT" => .notKey
  | "PRINT" => .printKey
  | "TYPEIN" => .typeinKey
  | "RANDOM" => .randomKey
  | "TRUE" | "FALSE" | "YES" | "NO" => .boolean
  | "AND" | "OR" => .logicOp
  | _ => .identifier

def isReserved : Lexeme → Bool
  | .identifier => false
  | _ => true

end Lexeme

end TurtleCompiler
