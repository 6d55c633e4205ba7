import TurtleCompiler.Feed
import TurtleCompiler.Source.Tree

/-!
The parser: statements by their first token, expressions by precedence climbing. It depends on
tokens alone, and reads on after a fault by dropping the token that it could not take.
-/

namespace TurtleCompiler.Source

structure Failure where
  done : List Phrase
  fault : Fault
  rest : Feed

def Failure.after (done : List Phrase) (f : Failure) : Failure :=
  { f with done := done ++ f.done }

def following (done : List Phrase) (r : Except Failure α) : Except Failure α :=
  r.mapError (·.after done)

def site (feed : Feed) (line : Nat) : Site := ⟨line, feed.notes⟩

def settled (feed : Feed) : Feed := { feed with notes := [] }

def unexpected (feed : Feed) : Failure :=
  match feed.tokens with
  | (t, _) :: _ =>
    ⟨[], .grammatical (.unexpectedToken t.text t.lexeme) (site feed t.line), feed⟩
  | [] =>
    match feed.ending with
    | .ok line => ⟨[], .grammatical .unexpectedEnd (site feed line), feed⟩
    | .error e => ⟨[], .lexical e feed.notes, feed⟩

/-- The result of a phrase that may end where the tokens end, but not where they cannot be scanned.
-/
def atEnd (feed : Feed) (a : α) : Except Failure (α × Feed) :=
  match feed.ending with
  | .ok _ => .ok (a, feed)
  | .error _ => .error (unexpected feed)

def take (lexeme : Lexeme) (feed : Feed) : Except Failure (Token × Feed) :=
  match feed.tokens with
  | (t, _) :: _ => if t.lexeme = lexeme then .ok (t, feed.advance) else .error (unexpected feed)
  | [] => .error (unexpected feed)

/-- Takes a token that completes a phrase: the phrase is complete before the token after it is
looked at. -/
def close (lexeme : Lexeme) (feed : Feed) : Except Failure (Token × List Event × Feed) :=
  match feed.tokens with
  | (t, _) :: _ =>
    if t.lexeme = lexeme then .ok (t, feed.notes, (settled feed).advance) else
    .error (unexpected feed)
  | [] => .error (unexpected feed)

def startsExpr : Lexeme → Bool
  | .number | .string | .colonIdentifier | .boolean | .randomKey | .openParen | .addOp | .notKey =>
    true
  | _ => false

def bindingPower : Lexeme → Option (Nat × Nat)
  | .logicOp => some (1, 2)
  | .relOp => some (5, 6)
  | .addOp => some (7, 8)
  | .mulOp => some (9, 10)
  | .powOp => some (12, 11)
  | _ => none

def notPower : Nat := 3

def signPower : Nat := 13

def Expr.ofOperator (op : Token) (l r : Expr) (site : Site) : Expr :=
  match op.lexeme with
  | .logicOp => .logic op.text l r site
  | .relOp => .compare op.text l r site
  | _ => .arith op.text l r site

def Expr.ofSign (op : Token) (e : Expr) (site : Site) : Expr :=
  if op.text = "-" then .minus e site else .plus e site

def variableName (t : Token) : String := String.ofList (t.text.toList.drop 1)

mutual

/-- An expression whose operators bind at least as strongly as `power`. Every level of the recursion
takes a token, so `fuel` above the number of tokens is never used up. -/
def exprAbove (fuel power : Nat) (feed : Feed) : Except Failure (Expr × Feed) :=
  match fuel with
  | 0 => .error (unexpected feed)
  | fuel + 1 =>
    match feed.tokens with
    | [] => .error (unexpected feed)
    | (t, _) :: _ =>
      match t.lexeme with
      | .number => operators fuel power (.number t.text (site feed t.line)) (settled feed).advance
      | .string => operators fuel power (.string t.text) feed.advance
      | .boolean => operators fuel power (.boolean t.text) feed.advance
      | .colonIdentifier =>
        operators fuel power (.var (variableName t) (site feed t.line)) (settled feed).advance
      | .randomKey => operators fuel power .random feed.advance
      | .openParen => do
        let (e, feed) ← exprAbove fuel 0 feed.advance
        let (_, feed) ← following [.expr e] (take .closeParen feed)
        operators fuel power e feed
      | .notKey => do
        let (e, feed) ← exprAbove fuel notPower feed.advance
        operators fuel power (.not e (site feed t.line)) (settled feed)
      | .addOp => do
        let (e, feed) ← exprAbove fuel signPower feed.advance
        operators fuel power (.ofSign t e (site feed t.line)) (settled feed)
      | _ => .error (unexpected feed)

def operators (fuel power : Nat) (l : Expr) (feed : Feed) : Except Failure (Expr × Feed) :=
  match fuel with
  | 0 => following [.expr l] (.error (unexpected feed))
  | fuel + 1 =>
    match feed.tokens with
    | [] => following [.expr l] (atEnd feed l)
    | (t, _) :: _ =>
      match bindingPower t.lexeme with
      | none => .ok (l, feed)
      | some (left, right) =>
        if left < power then .ok (l, feed)
        else do
          let (r, feed) ← following [.expr l] (exprAbove fuel right feed.advance)
          operators fuel power (.ofOperator t l r (site feed t.line)) (settled feed)

end

def expr (feed : Feed) : Except Failure (Expr × Feed) :=
  exprAbove (feed.tokens.length + 1) 0 feed

def arguments (fuel : Nat) (feed : Feed) : Except Failure (List Expr × Feed) :=
  match fuel with
  | 0 => .error (unexpected feed)
  | fuel + 1 =>
    match feed.tokens with
    | [] => atEnd feed []
    | (t, _) :: _ =>
      if startsExpr t.lexeme then do
        let (e, feed) ← expr feed
        let (es, feed) ← following [.expr e] (arguments fuel feed)
        return (e :: es, feed)
      else .ok ([], feed)

def parameters (fuel : Nat) (feed : Feed) : Except Failure (List String × Feed) :=
  match fuel with
  | 0 => .error (unexpected feed)
  | fuel + 1 =>
    match feed.tokens with
    | [] => atEnd feed []
    | (t, _) :: _ =>
      if t.lexeme = .colonIdentifier then do
        let (names, feed) ← parameters fuel feed.advance
        return (variableName t :: names, feed)
      else .ok ([], feed)

def block (statement : Feed → Except Failure (Stmt × Feed)) (fuel : Nat) (feed : Feed) :
    Except Failure (List Stmt × Feed) :=
  match fuel with
  | 0 => .error (unexpected feed)
  | fuel + 1 =>
    match feed.tokens with
    | [] => atEnd feed []
    | (t, _) :: _ =>
      if t.lexeme = .endKey || t.lexeme = .elseKey then .ok ([], feed)
      else do
        let (s, feed) ← statement feed
        let (ss, feed) ← following [.stmt s] (block statement fuel feed)
        return (s :: ss, feed)

def body (statement : Feed → Except Failure (Stmt × Feed)) (feed : Feed) :
    Except Failure (List Stmt × Feed) :=
  block statement (feed.tokens.length + 1) feed

def print (t : Token) (feed : Feed) : Except Failure (Stmt × Feed) := do
  let (first, feed) ← expr feed.advance
  let (more, feed) ← following [.expr first] (arguments (feed.tokens.length + 1) feed)
  return (.print first more (site feed t.line), settled feed)

def typein (feed : Feed) : Except Failure (Stmt × Feed) := do
  let (t, notes, feed) ← close .identifier feed.advance
  return (.typein t.text ⟨t.line, notes⟩, feed)

def assignOrCall (t : Token) (feed : Feed) : Except Failure (Stmt × Feed) := do
  let feed := feed.advance
  match feed.tokens.head? with
  | some (op, _) =>
    if op.lexeme = .assignOp then
      let (rhs, feed) ← expr feed.advance
      return (.assign t.text op.text rhs (site feed t.line), settled feed)
    else
      let (args, feed) ← arguments (feed.tokens.length + 1) feed
      return (.call t.text args (site feed t.line), settled feed)
  | none =>
    let (_, feed) ← atEnd feed ()
    return (.call t.text [] (site feed t.line), settled feed)

/-- The statements of one nesting level take those of the next as a parameter. -/
def ifStatement (statement : Feed → Except Failure (Stmt × Feed)) (t : Token) (feed : Feed) :
    Except Failure (Stmt × Feed) := do
  let (cond, feed) ← expr feed.advance
  let (_, feed) ← following [.expr cond] (take .thenKey feed)
  let (yes, feed) ← following [.expr cond] (body statement feed)
  let done := .expr cond :: yes.map .stmt
  if feed.tokens.head?.any (·.1.lexeme = .elseKey) then
    let (no, feed) ← following done (body statement feed.advance)
    let (_, notes, feed) ← following (done ++ no.map .stmt) (close .endKey feed)
    return (.ifElse cond yes no ⟨t.line, notes⟩, feed)
  else
    let (_, notes, feed) ← following done (close .endKey feed)
    return (.ifThen cond yes ⟨t.line, notes⟩, feed)

def whileStatement (statement : Feed → Except Failure (Stmt × Feed)) (t : Token) (feed : Feed) :
    Except Failure (Stmt × Feed) := do
  let (cond, feed) ← expr feed.advance
  let (stmts, feed) ← following [.expr cond] (body statement feed)
  let (_, notes, feed) ← following (.expr cond :: stmts.map .stmt) (close .endKey feed)
  return (.whileDo cond stmts ⟨t.line, notes⟩, feed)

def statement : Nat → Feed → Except Failure (Stmt × Feed)
  | 0, feed => .error (unexpected feed)
  | fuel + 1, feed =>
    match feed.tokens with
    | [] => .error (unexpected feed)
    | (t, _) :: _ =>
      match t.lexeme with
      | .ifKey => ifStatement (statement fuel) t feed
      | .whileKey => whileStatement (statement fuel) t feed
      | .printKey => print t feed
      | .typeinKey => typein feed
      | .identifier => assignOrCall t feed
      | .toKey => .error ⟨[], .grammatical .nestedDefinition (site feed t.line), feed⟩
      | lexeme =>
        if startsExpr lexeme then do
          let (e, feed) ← expr feed
          return (.expr e, feed)
        else .error (unexpected feed)

def definition (feed : Feed) : Except Failure (Item × Feed) := do
  let (name, feed) ← take .identifier feed.advance
  let (params, feed) ← parameters (feed.tokens.length + 1) feed
  let header : Header := ⟨name.text, params, site feed name.line⟩
  let (stmts, feed) ← following [.header header]
    (body (statement (feed.tokens.length + 1)) (settled feed))
  let (t, notes, feed) ← following (.header header :: stmts.map .stmt) (close .endKey feed)
  return (.definition header stmts ⟨t.line, notes⟩, feed)

def item (feed : Feed) : Except Failure (Item × Feed) :=
  if feed.tokens.head?.any (·.1.lexeme = .toKey) then definition feed
  else do
    let (s, feed) ← statement (feed.tokens.length + 1) feed
    return (.statement s, feed)

def items (fuel : Nat) (feed : Feed) : Program :=
  match fuel with
  | 0 => ⟨[], site feed 0⟩
  | fuel + 1 =>
    match feed.tokens with
    | [] =>
      match feed.ending with
      | .ok line => ⟨[], site feed line⟩
      | .error e => ⟨[.broken [] (.lexical e feed.notes)], ⟨0, []⟩⟩
    | _ :: _ =>
      match item feed with
      | .ok (i, rest) =>
        let program := items fuel rest
        { program with items := i :: program.items }
      | .error ⟨done, .lexical e notes, _⟩ =>
        ⟨[.broken done (.lexical e notes)], ⟨0, []⟩⟩
      | .error ⟨done, .grammatical fault site, rest⟩ =>
        let program := items fuel (settled rest).advance
        { program with items := .broken done (.grammatical fault site) :: program.items }

def parse (feed : Feed) : Program :=
  items (feed.tokens.length + 1) feed

end TurtleCompiler.Source
