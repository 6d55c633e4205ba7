import TurtleCompiler.Workspace

/-!
The catalogue of primitives that every program can call, and how they get into a symbol table.
-/

namespace TurtleCompiler

def headingName : String := "_@ang"

structure Primitive where
  name : String
  flags : Flags := { library := true }
  params : List String := []
  uses : List String := []
  aliasOf : Option String := none
  target : Option String := none
  before : List String := []
  after : List String := []
  code : List String := []
  type : Option DataType := none

def graphicsFlags : Flags := { library := true, graphics := true }

def Primitive.shorthand (name full : String) : Primitive :=
  { name, flags := graphicsFlags, aliasOf := some full }

def catalogue : List Primitive := [
  { name := "PRINT"
    flags := { library := true, internal := true, reverseArgs := true }
    target := some "WRITE" },
  { name := "TYPEIN"
    flags := { library := true, internal := true }
    target := some "READ"
    after := ["STOR \x7bparams[0].name\x7d"] },
  { name := "RANDOM"
    type := some .int
    code := ["RAND", "PUSH 10", "MUL", "TRUNC"] },
  { name := "FORWARD"
    flags := graphicsFlags
    params := ["length"]
    uses := [headingName]
    code := ["LOAD _@ang", "LOAD \x7bargv[0]\x7d", "CALL MOVE"] },
  { name := "BACKWARD"
    flags := graphicsFlags
    params := ["length"]
    uses := [headingName]
    code := ["LOAD _@ang", "PUSH 180", "ADD", "LOAD \x7bargv[0]\x7d", "CALL MOVE"] },
  { name := "RIGHT"
    flags := graphicsFlags
    params := ["angle"]
    uses := [headingName]
    code := ["LOAD _@ang", "LOAD \x7bargv[0]\x7d", "SUB", "STOR _@ang"] },
  { name := "LEFT"
    flags := graphicsFlags
    params := ["angle"]
    uses := [headingName]
    code := ["LOAD _@ang", "LOAD \x7bargv[0]\x7d", "ADD", "STOR _@ang"] },
  { name := "PENUP"
    flags := graphicsFlags
    code := ["UNSET 0"] },
  { name := "PENDOWN"
    flags := graphicsFlags
    code := ["SET 0"] },
  { name := "HEADING"
    flags := graphicsFlags
    uses := [headingName]
    code := ["LOAD _@ang"] },
  { name := "SETXY"
    flags := graphicsFlags
    params := ["x", "y"]
    code := ["LOAD \x7bargv[0]\x7d", "LOAD \x7bargv[1]\x7d", "MVTO"] },
  { name := "WIPECLEAN"
    flags := graphicsFlags
    target := some "CLRSCR" },
  .shorthand "FO" "FORWARD",
  .shorthand "BW" "BACKWARD",
  .shorthand "RT" "RIGHT",
  .shorthand "LT" "LEFT",
  .shorthand "PU" "PENUP",
  .shorthand "PD" "PENDOWN",
  .shorthand "WC" "WIPECLEAN"]

namespace Primitive

def templates (sources : List String) : Work (List Template) :=
  sources.mapM fun source => Work.ofExcept (Template.parse source)

def hooks (p : Primitive) : Work Hooks := do
  let before ← templates p.before
  let after ← templates p.after
  return { target := p.target, before, after }

def used (p : Primitive) (name : String) : Work SymbolId := do
  match (← get).table.resolve name none (some .var) with
  | some id => return id
  | none => throw (.defect (.unknownUse p.name name))

def install (p : Primitive) : Work Unit := do
  let hooks ← p.hooks
  let symbol ← Table.declare .anywhere p.name .routine none
    { type := p.type, aliasOf := p.aliasOf, flags := p.flags, hooks := some hooks }
  Workspace.openScope p.name
  let params ← p.params.mapM fun param =>
    (Table.declare .innermost param .var none {} : Work SymbolId)
  let _ ← Workspace.closeScope
  let uses ← p.uses.mapM p.used
  let _ ← Table.declare .anywhere p.name .routine none
    { params := some params, uses := some uses }
  let code ← templates p.code
  Table.setCode symbol ⟨symbol, code.map .template⟩

end Primitive

def installLibrary : Work Unit := do
  let _ ← Table.declare .anywhere headingName .var none {}
  catalogue.forM Primitive.install

end TurtleCompiler
