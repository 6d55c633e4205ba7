import TurtleCompiler.Event
import TurtleCompiler.Symbol.Table

/-!
A symbol table together with the log of what is done to it.
-/

namespace TurtleCompiler

structure Workspace where
  table : Table := {}
  log : Array Event := #[]

abbrev Work := EStateM Error Workspace

def Work.ofTable (x : TableM α) : Work α := fun w =>
  match x w.table with
  | .ok a table => .ok a { w with table }
  | .error e table => .error e { w with table }

instance : MonadLift TableM Work := ⟨Work.ofTable⟩

def Work.ofExcept : Except Error α → Work α
  | .ok a => pure a
  | .error e => throw e

namespace Workspace

def note (e : Event) : Work Unit :=
  modify fun w => { w with log := w.log.push e }

def openScope (name : String) : Work Unit := do
  note (.scopeOpened name)
  modify fun w => { w with table := w.table.push name }

def closeScope : Work Scope := do
  let scope ← Table.pop
  note (.scopeClosed scope.name)
  return scope

end Workspace

end TurtleCompiler
