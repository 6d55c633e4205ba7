import TurtleCompiler.Error

/-!
Instruction templates: text with holes such as `{name}` or `{argv[0]}`, which are filled in from
where the instruction is used. A hole that nothing fills is written as it stands.
-/

namespace TurtleCompiler

inductive Placeholder where
  | name
  | argument (n : Nat)
  | callArgument (n : Nat)
  | callArgumentCount
  deriving DecidableEq

inductive Part where
  | text (cs : List Char)
  | hole (p : Placeholder)
  deriving DecidableEq

structure Template where
  parts : List Part
  deriving DecidableEq

structure Template.Context where
  name : Option String := none
  argument : Nat → Option String := fun _ => none
  callArgument : Nat → Option String := fun _ => none
  callArgumentCount : Option Nat := none

namespace Placeholder

def source : Placeholder → String
  | .name => "name"
  | .argument n => "argv[" ++ n.repr ++ "]"
  | .callArgument n => "params[" ++ n.repr ++ "].name"
  | .callArgumentCount => "params_len"

def indexBetween? (opening closing : String) (cs : List Char) : Option Nat := do
  Numeral.index? (← closing.toList.isSuffixOf? (← opening.toList.isPrefixOf? cs))

def ofSource? (cs : List Char) : Option Placeholder :=
  if cs = "name".toList then some .name
  else if cs = "params_len".toList then some .callArgumentCount
  else
    (indexBetween? "argv[" "]" cs).map .argument <|>
      (indexBetween? "params[" "].name" cs).map .callArgument

def fill? (ctx : Template.Context) : Placeholder → Option String
  | .name => ctx.name
  | .argument n => ctx.argument n
  | .callArgument n => ctx.callArgument n
  | .callArgumentCount => ctx.callArgumentCount.map Nat.repr

end Placeholder

def Part.render (ctx : Template.Context) : Part → String
  | .text cs => String.ofList cs
  | .hole p => (p.fill? ctx).getD ("\x7b" ++ p.source ++ "\x7d")

namespace Template

inductive Mode where
  | text (seen : List Char)
  | hole (seen : List Char)

def textPart (seen : List Char) : List Part :=
  if seen.isEmpty then [] else [.text seen]

/-- A closing brace ends a hole. Outside one it is text, but for the text after the last hole. -/
def read : Mode → List Char → Option (List Part)
  | .text seen, [] => if '\x7d' ∈ seen then none else some (textPart seen)
  | .text seen, c :: cs =>
    if c = '\x7b' then (textPart seen ++ ·) <$> read (.hole []) cs
    else read (.text (seen ++ [c])) cs
  | .hole _, [] => none
  | .hole seen, c :: cs =>
    if c = '\x7d' then do
      let p ← Placeholder.ofSource? seen
      let parts ← read (.text []) cs
      return .hole p :: parts
    else read (.hole (seen ++ [c])) cs

def parse (source : String) : Except Error Template :=
  match read (.text []) source.toList with
  | some parts => .ok ⟨parts⟩
  | none => .error (.defect (.malformedTemplate source))

def render (t : Template) (ctx : Context) : String :=
  String.join (t.parts.map (·.render ctx))

end Template

end TurtleCompiler
