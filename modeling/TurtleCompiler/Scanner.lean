import TurtleCompiler.Event

/-!
The scanner: from the front of a text it takes the longest token there is, after blanks and
comments. Lines are counted without a bound, which is the same as in 32 bits below `2 ^ 32`.
-/

namespace TurtleCompiler

def isWordStart (c : Char) : Bool := c == '_' || c.isAlpha

def isWordChar (c : Char) : Bool := c == '_' || c.isAlphanum

inductive Munch where
  | token (lexeme : Lexeme) (text rest : List Char)
  | reserved (word rest : List Char)
  | illegal (ch : Char)

namespace Munch

def pair? : Char → Char → Option Lexeme
  | '=', '=' | '<', '>' | '<', '=' | '>', '=' => some .relOp
  | '+', '=' | '-', '=' | '*', '=' | '/', '=' => some .assignOp
  | _, _ => none

def single? : Char → Option Lexeme
  | '=' => some .assignOp
  | '<' | '>' => some .relOp
  | '+' | '-' => some .addOp
  | '*' | '/' | '%' => some .mulOp
  | '^' => some .powOp
  | '(' => some .openParen
  | ')' => some .closeParen
  | _ => none

def word (c : Char) (cs : List Char) : Munch :=
  let text := c :: cs.takeWhile isWordChar
  .token (.ofWord (String.ofList text)) text (cs.dropWhile isWordChar)

def colonWord : List Char → Munch
  | [] => .illegal ':'
  | c :: cs =>
    let name := c :: cs.takeWhile isWordChar
    let rest := cs.dropWhile isWordChar
    if !isWordStart c then .illegal ':'
    else if (Lexeme.ofWord (String.ofList name)).isReserved then .reserved name rest
    else .token .colonIdentifier (':' :: name) rest

def number (c : Char) (cs : List Char) : Munch :=
  let whole := c :: cs.takeWhile Char.isDigit
  match cs.dropWhile Char.isDigit with
  | '.' :: cs =>
    .token .number (whole ++ '.' :: cs.takeWhile Char.isDigit) (cs.dropWhile Char.isDigit)
  | cs => .token .number whole cs

def string (quote : Char) (cs : List Char) : Munch :=
  match cs.dropWhile (· != quote) with
  | [] => .illegal quote
  | _ :: rest => .token .string (quote :: cs.takeWhile (· != quote) ++ [quote]) rest

def sign (c : Char) (cs : List Char) : Munch :=
  match cs.head?.bind (pair? c), single? c with
  | some lexeme, _ => .token lexeme (c :: cs.take 1) (cs.drop 1)
  | none, some lexeme => .token lexeme [c] cs
  | none, none => .illegal c

def ofText (c : Char) (cs : List Char) : Munch :=
  if isWordStart c then word c cs
  else if c == ':' then colonWord cs
  else if c.isDigit then number c cs
  else if c == '\'' || c == '"' then string c cs
  else sign c cs

end Munch

structure Input where
  rest : List Char
  line : Nat := 1

structure Step where
  result : Except Error (Option Token)
  after : Input
  notes : List Event

namespace Input

def skip (comment : Option (List Char)) (line : Nat) : List Char → List Event × Input
  | [] =>
    match comment with
    | none => ([], ⟨[], line⟩)
    | some text => ([.comment line (String.ofList text.reverse)], ⟨[], line⟩)
  | c :: cs =>
    match comment with
    | none =>
      if c == ' ' || c == '\t' || c == '\r' then skip none line cs
      else if c == '\n' then skip none (line + 1) cs
      else if c == '#' then skip (some [c]) line cs
      else ([], ⟨c :: cs, line⟩)
    | some text =>
      if c == '\n' then
        let (notes, after) := skip none (line + 1) cs
        (.comment line (String.ofList text.reverse) :: notes, after)
      else skip (some (c :: text)) line cs

/-- The next token, or `none` at the end. A reserved word after a colon is passed over; an illegal
character is not. -/
def next (input : Input) : Step :=
  let (notes, input) := skip none input.line input.rest
  match input.rest with
  | [] => ⟨.ok none, input, notes⟩
  | c :: cs =>
    match Munch.ofText c cs with
    | .token lexeme text rest =>
      let token := ⟨lexeme, String.ofList text, input.line⟩
      ⟨.ok (some token), ⟨rest, input.line + text.count '\n'⟩, notes ++ [.token token]⟩
    | .reserved word rest =>
      ⟨.error (.reservedIdentifier input.line (String.ofList word)),
        ⟨rest, input.line⟩, notes⟩
    | .illegal ch => ⟨.error (.illegalCharacter input.line ch), input, notes⟩

end Input

structure Scanner where
  input : Input
  ahead : List Token := []
  notes : List Event := []

namespace Scanner

def ofText (text : String) : Scanner := { input := ⟨text.toList, 1⟩ }

def scan : EStateM Error Scanner (Option Token) := fun s =>
  let step := s.input.next
  let s := { s with input := step.after, notes := s.notes ++ step.notes }
  match step.result with
  | .ok token => .ok token s
  | .error e => .error e s

def fill : Nat → EStateM Error Scanner Unit
  | 0 => pure ()
  | n + 1 => do
    match ← scan with
    | some token =>
      modify fun s => { s with ahead := s.ahead ++ [token] }
      fill n
    | none => pure ()

def peek (n : Nat) : EStateM Error Scanner (Option Token) := do
  fill (n + 1 - (← get).ahead.length)
  return (← get).ahead[n]?

def advance : EStateM Error Scanner (Option Token) := do
  match (← get).ahead with
  | [] => scan
  | token :: ahead =>
    modify fun s => { s with ahead }
    return some token

def line (s : Scanner) : Nat :=
  match s.ahead with
  | [] => s.input.line
  | token :: _ => token.line

end Scanner

end TurtleCompiler
