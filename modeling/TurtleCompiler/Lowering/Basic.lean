import TurtleCompiler.Instr
import TurtleCompiler.Library

/-!
The state in which a source tree is lowered to trees that code is made from: its scopes, labels and
statements. Labels are counted without a bound, which is the same as in 32 bits below `2 ^ 32`.
-/

namespace TurtleCompiler

structure Lowering extends Workspace where
  labels : Nat := 0
  entry : SymbolId
  mainBody : List Node := []
  openRoutine : Option SymbolId := none

abbrev LowerM := EStateM Error Lowering

def LowerM.ofWork (x : Work α) : LowerM α := fun t =>
  match x t.toWorkspace with
  | .ok a w => .ok a { t with toWorkspace := w }
  | .error e w => .error e { t with toWorkspace := w }

instance : MonadLift Work LowerM := ⟨LowerM.ofWork⟩

def LowerM.ofExcept : Except Error α → LowerM α
  | .ok a => pure a
  | .error e => throw e

namespace Lowering

def setup : Work SymbolId := do
  Workspace.openScope ""
  let entry ← Table.declare .anywhere entryName .routine (some 0) { usage := some 1 }
  installLibrary
  return entry

def within (x : LowerM α) : Work α := do
  let entry ← setup
  fun w =>
    match x { toWorkspace := w, entry } with
    | .ok a t => .ok a t.toWorkspace
    | .error e t => .error e t.toWorkspace

def enter (notes : List Event) : LowerM Unit :=
  modify fun t => { t with log := t.log ++ notes }

def newLabel : LowerM Label := do
  modify fun t => { t with labels := t.labels + 1 }
  let n := (← get).labels
  Workspace.note (.labelMade n)
  return ⟨"_@trgt_" ++ n.repr⟩

def addTopLevel (n : Node) : LowerM Unit :=
  modify fun t => { t with mainBody := t.mainBody ++ [n] }

def finish : LowerM Unit := do
  let t ← get
  if t.table.depth ≠ 1 then throw (.defect (.unbalancedScopes t.table.depth))
  Table.setCode t.entry (.ofNodes t.entry t.mainBody)
  let _ ← Workspace.closeScope

/-- Begins a procedure. A name that was only called so far gets its definition; any other that
exists clashes. -/
def beginProcedure (name : String) (line : Nat) (params : List String) : LowerM SymbolId := do
  let table := (← get).table
  if let some id := table.resolve name none none then
    let existing := table.symbol id
    if existing.line.isSome || existing.flags.library then
      throw (.redeclaration line name existing.line)
  let symbol ← Table.declare .anywhere name .routine (some line) {}
  Workspace.openScope name
  let ids ← params.mapM fun param =>
    (Table.declare .innermost param .var (some line) {} : LowerM SymbolId)
  -- earlier calls counted a procedure without parameters
  if 0 < ((← get).table.symbol symbol).usage then
    ids.forM fun id => (Table.countUse id : LowerM Unit)
  let _ ← Table.declare .anywhere name .routine none { params := some ids }
  modify fun t => { t with openRoutine := some symbol }
  return symbol

def endProcedure (symbol : SymbolId) (body : List Node) : LowerM Unit := do
  Table.setCode symbol (.ofNodes symbol body)
  let _ ← Workspace.closeScope
  modify fun t => { t with openRoutine := none }

end Lowering

end TurtleCompiler
