import TurtleCompiler.Error

/-!
The log of a compilation: what happened, how much it matters, and how it reads.
-/

namespace TurtleCompiler

inductive Level where
  | error
  | warn
  | info
  | debug
  | trace
  deriving DecidableEq

namespace Level

def name : Level → String
  | .error => "ERROR"
  | .warn => "WARN"
  | .info => "INFO"
  | .debug => "DEBUG"
  | .trace => "TRACE"

def rank : Level → Nat
  | .error => 0
  | .warn => 1
  | .info => 2
  | .debug => 3
  | .trace => 4

end Level

inductive Event where
  | token (t : Token)
  | comment (line : Nat) (text : String)
  | syntaxFault (fault : SyntaxFault)
  | scopeOpened (name : String)
  | scopeClosed (name : String)
  | labelMade (n : Nat)
  | functionsSelected (n : Nat)
  | dataSection
  | codeSection
  | functionEmitted (name : String)
  | functionSkipped (name : String) (line : Nat)
  | functionUnused (name : String) (line : Nat)
  | compilationFailed (family : Family)
  deriving DecidableEq

namespace Event

def level : Event → Level
  | .token _ | .comment .. => .trace
  | .syntaxFault _ => .error
  | .functionSkipped .. => .info
  | .functionUnused .. => .warn
  | .scopeOpened _ | .scopeClosed _ | .labelMade _ | .functionsSelected
      _ | .dataSection | .codeSection
  | .functionEmitted _ | .compilationFailed _ => .debug

def message : Event → String
  | .token t => t.lexeme.name ++ ":" ++ t.line.repr ++ ":'" ++ t.text ++ "'"
  | .comment line text => "comment:" ++ line.repr ++ ":'" ++ text ++ "'"
  | .syntaxFault fault => fault.message
  | .scopeOpened name => "push scope '" ++ name ++ "'"
  | .scopeClosed name => "pop scope '" ++ name ++ "'"
  | .labelMade n => "New label: " ++ n.repr
  | .functionsSelected n => "Selected functions: " ++ n.repr
  | .dataSection => "DATA section."
  | .codeSection => "CODE section."
  | .functionEmitted name => "Function: " ++ name
  | .functionSkipped name line => "Skipping unused symbol:'" ++ name ++ "':" ++ line.repr
  | .functionUnused name line => "Function " ++ name ++ " defined but not used:" ++ line.repr
  | .compilationFailed family => "compilation failed (" ++ family.name ++ ")"

end Event

def Level.select (level : Level) (log : List Event) : List Event :=
  log.filter fun e => e.level.rank ≤ level.rank

end TurtleCompiler
