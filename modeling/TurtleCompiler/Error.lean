import TurtleCompiler.Token
import TurtleCompiler.Value

/-!
Everything a compilation can fail with, as causes; the wording stands in one place for each.
-/

namespace TurtleCompiler

inductive SyntaxFault where
  | unexpectedEnd
  | unexpectedToken (text : String) (lexeme : Lexeme)
  | nestedDefinition
  | emptyProgram
  deriving DecidableEq

inductive TypeFault where
  | invalid (t : DataType)
  | stringWithOther
  | stringOrder
  | overflow
  | divisionByZero
  | notFinite
  deriving DecidableEq

inductive LinkFault where
  | unresolved (name : String)
  | undefined (name : String)
  deriving DecidableEq

inductive Defect where
  | malformedTemplate (source : String)
  | noScopeToClose
  | noScopeToDeclare (name : String)
  | functionFieldsForVariable (name : String)
  | valueForFunction (name : String)
  | notVariable (name : String)
  | notFunction (name : String)
  | unknownUsage (name : String)
  | unknownUse (function name : String)
  | unbalancedScopes (depth : Nat)
  | unknownAssignment (op : String)
  | unknownOperator (op : String)
  | unfoldable (l r : DataType)
  deriving DecidableEq

inductive Error where
  | illegalCharacter (line : Nat) (ch : Char)
  | reservedIdentifier (line : Nat) (word : String)
  | invalidNumber (line : Nat) (text : String)
  | unparsed (line : Nat) (fault : SyntaxFault)
  | redeclaration (line : Nat) (name : String) (previous : Option Nat)
  | link (fault : LinkFault)
  | type (line : Nat) (fault : TypeFault)
  | defect (fault : Defect)
  deriving DecidableEq

inductive Family where
  | lexical
  | grammatical
  | link
  | internal
  deriving DecidableEq

def SyntaxFault.message : SyntaxFault → String
  | .unexpectedEnd => "Unexpected end of file while parsing"
  | .unexpectedToken text lexeme => "Invalid Token: " ++ text ++ " (" ++ lexeme.name ++ ")"
  | .nestedDefinition => "procedures can only be defined at top level"
  | .emptyProgram => "Syntax error at EOF."

def TypeFault.message : TypeFault → String
  | .invalid t => "Invalid data type:'" ++ t.name ++ "'"
  | .stringWithOther => "Cannot compare STRING to other data type"
  | .stringOrder => "Can only compare STRING equality"
  | .overflow => "Integer overflow in constant expression"
  | .divisionByZero => "Division by zero in constant expression"
  | .notFinite => "Constant expression has no finite value"

def LinkFault.message : LinkFault → String
  | .unresolved name => "Cannot resolve function '" ++ name ++ "'."
  | .undefined name => "Undefined function: '" ++ name ++ "'."

def Defect.message : Defect → String
  | .malformedTemplate source => "Malformed template: '" ++ source ++ "'"
  | .noScopeToClose => "Popping scope from empty stack."
  | .noScopeToDeclare name => "No scope to declare '" ++ name ++ "'."
  | .functionFieldsForVariable name => "Function fields given for variable '" ++ name ++ "'."
  | .valueForFunction name => "Value given for function '" ++ name ++ "'."
  | .notVariable name => "'" ++ name ++ "' is not a variable."
  | .notFunction name => "'" ++ name ++ "' is not a function."
  | .unknownUsage name => "Increasing unknown symbol usage: " ++ name
  | .unknownUse function name =>
    "Library function '" ++ function ++ "' uses unknown symbol '" ++ name ++ "'."
  | .unbalancedScopes depth => "Unbalanced scopes at end of input: " ++ depth.repr
  | .unknownAssignment op => "Unknown assignment '" ++ op ++ "'."
  | .unknownOperator op => "Unknown operator '" ++ op ++ "'."
  | .unfoldable l r => "Cannot fold '" ++ l.name ++ "' and '" ++ r.name ++ "'."

def Family.name : Family → String
  | .lexical => "Lexical"
  | .grammatical => "Syntax"
  | .link => "Link"
  | .internal => "Internal"

namespace Error

def message : Error → String
  | .illegalCharacter line ch => "Illegal character:" ++ line.repr ++ ":" ++ ch.toString
  | .reservedIdentifier line word => "Invalid identifier:" ++ line.repr ++ ":" ++ word
  | .invalidNumber line text => "Invalid number:" ++ line.repr ++ ":" ++ text
  | .unparsed line fault => "SyntaxError:" ++ line.repr ++ ":" ++ fault.message
  | .redeclaration line name previous =>
    "SymbolRedeclaration:" ++ line.repr ++ ":Redefining symbol " ++ name ++ " defined at " ++
      previous.elim "-1" Nat.repr
  | .link fault => "Linker Error: " ++ fault.message
  | .type line fault => "InvalidExpressionType:" ++ line.repr ++ ":" ++ fault.message
  | .defect fault => "InternalError:" ++ fault.message

def family : Error → Family
  | .illegalCharacter .. | .reservedIdentifier .. | .invalidNumber .. => .lexical
  | .unparsed .. | .redeclaration .. => .grammatical
  | .link _ => .link
  | .type .. | .defect _ => .internal

def atLine (line : Nat) : Error → Error
  | .redeclaration _ name previous => .redeclaration line name previous
  | e => e

end Error

end TurtleCompiler
