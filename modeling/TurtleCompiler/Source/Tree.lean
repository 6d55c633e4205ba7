import TurtleCompiler.Event

/-!
The tree of a source. An operator keeps its spelling: what it means is decided when the tree is
lowered. A statement that breaks off leaves behind the phrases that were complete by then, for they
have been understood and count.
-/

namespace TurtleCompiler.Source

/-- Where a phrase became complete: its line, and what the scanner noted since the phrase before. -/
structure Site where
  line : Nat
  notes : List Event
  deriving DecidableEq

inductive Expr where
  | number (text : String) (site : Site)
  | string (text : String)
  | boolean (text : String)
  | var (name : String) (site : Site)
  | random
  | plus (e : Expr) (site : Site)
  | minus (e : Expr) (site : Site)
  | not (e : Expr) (site : Site)
  | arith (op : String) (l r : Expr) (site : Site)
  | compare (op : String) (l r : Expr) (site : Site)
  | logic (op : String) (l r : Expr) (site : Site)

inductive Stmt where
  | expr (e : Expr)
  | assign (name op : String) (rhs : Expr) (site : Site)
  | call (name : String) (args : List Expr) (site : Site)
  | print (first : Expr) (more : List Expr) (site : Site)
  | typein (name : String) (site : Site)
  | ifThen (cond : Expr) (yes : List Stmt) (site : Site)
  | ifElse (cond : Expr) (yes no : List Stmt) (site : Site)
  | whileDo (cond : Expr) (body : List Stmt) (site : Site)

structure Header where
  name : String
  params : List String
  site : Site

inductive Phrase where
  | expr (e : Expr)
  | stmt (s : Stmt)
  | header (h : Header)

inductive Fault where
  | lexical (error : Error) (notes : List Event)
  | grammatical (fault : SyntaxFault) (site : Site)

inductive Item where
  | statement (s : Stmt)
  | definition (header : Header) (body : List Stmt) (site : Site)
  | broken (done : List Phrase) (fault : Fault)

structure Program where
  items : List Item
  site : Site

end TurtleCompiler.Source
