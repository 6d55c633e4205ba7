import TurtleCompiler.Scanner

/-!
A source as the parser takes it: a list of tokens and how it ends. The parser looks at a token as
soon as it has taken the one before, so each token carries what the scanner noted while it looked
for the next.
-/

namespace TurtleCompiler

structure Feed where
  /-- What the scanner noted up to and including the next token, and nobody has entered in a log
  yet. -/
  notes : List Event
  tokens : List (Token × List Event)
  ending : Except Error Nat

namespace Feed

/-- Scans at most `n` tokens; a text has no more tokens than characters. -/
def scan : Nat → Input → Feed
  | 0, input => ⟨[], [], .ok input.line⟩
  | n + 1, input =>
    let step := input.next
    match step.result with
    | .ok (some token) =>
      let feed := scan n step.after
      ⟨step.notes, (token, feed.notes) :: feed.tokens, feed.ending⟩
    | .ok none => ⟨step.notes, [], .ok step.after.line⟩
    | .error e => ⟨step.notes, [], .error e⟩

def ofText (text : String) : Feed :=
  scan (text.length + 1) ⟨text.toList, 1⟩

def ofTokens (tokens : List Token) (endLine : Nat) : Feed :=
  ⟨[], tokens.map (·, []), .ok endLine⟩

def advance (feed : Feed) : Feed :=
  match feed.tokens with
  | [] => feed
  | (_, notes) :: tokens => { feed with notes := feed.notes ++ notes, tokens }

end Feed

def tokenize (text : String) : Except Error (List Token) :=
  let feed := Feed.ofText text
  feed.ending.map fun _ => feed.tokens.map (·.1)

end TurtleCompiler
