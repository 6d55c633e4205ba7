import TurtleCompiler.Symbol.Id

/-!
Symbols by name, whatever the case of its letters, in the order in which the names were first put
in.
-/

namespace TurtleCompiler

/-- Keys are in upper case, and no two entries have the same one. -/
structure NameMap where
  entries : List (String × SymbolId) := []

namespace NameMap

def get? (m : NameMap) (name : String) : Option SymbolId :=
  m.entries.lookup name.toUpper

def put (key : String) (id : SymbolId) : List (String × SymbolId) → List (String × SymbolId)
  | [] => [(key, id)]
  | entry :: entries => if entry.1 = key then (key, id) :: entries else entry :: put key id entries

def insert (m : NameMap) (name : String) (id : SymbolId) : NameMap :=
  ⟨put name.toUpper id m.entries⟩

def ids (m : NameMap) : List SymbolId := m.entries.map (·.2)

end NameMap

end TurtleCompiler
