import TurtleCompiler.Link
import TurtleCompiler.Source.Parser
import TurtleCompiler.Lowering.Program

/-!
The compiler from end to end.
-/

namespace TurtleCompiler

def lower (feed : Feed) : Work Unit :=
  Lowering.within do
    (Source.parse feed).lower
    Lowering.finish

def compileFeed (feed : Feed) : Work Listing := do
  lower feed
  link

structure Report where
  result : Except Error Listing
  log : List Event

def Report.ofWork (x : Work Listing) : Report :=
  match x {} with
  | .ok listing w => ⟨.ok listing, w.log.toList⟩
  | .error e w => ⟨.error e, w.log.toList⟩

def compileWithLog (source : String) : Report := .ofWork (compileFeed (.ofText source))

def compile (source : String) : Except Error Listing := (compileWithLog source).result

end TurtleCompiler
