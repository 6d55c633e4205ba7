/-!
Handles of symbols.
-/

namespace TurtleCompiler

/-- The position of a symbol among all symbols of its table, which only grow in number. -/
structure SymbolId where
  index : Nat
  deriving DecidableEq

def SymbolId.text (id : SymbolId) : String := "#" ++ id.index.repr

end TurtleCompiler
