import TurtleCompiler.Instr

/-!
Finished listings and their text.
-/

namespace TurtleCompiler

structure Listing where
  canvas : Bool
  data : List (String × Value)
  blocks : List Block

namespace Listing

def dataLine (name : String) (value : Value) : String :=
  name ++ String.ofList (List.replicate (8 - name.length) ' ') ++ " " ++ value.text

def dataLines (l : Listing) : List String :=
  if l.data.isEmpty then [] else ["", ".DATA"] ++ l.data.map fun (name, value) =>
  dataLine name value

def lines (l : Listing) : List String :=
  [".START " ++ entryName] ++
    (if l.canvas then ["", ".INIT 200 200 400 400"] else []) ++
    l.dataLines ++ ["", ".CODE"] ++ l.blocks.flatMap Block.lines

def isFlushLeft (line : String) : Bool :=
  line.isEmpty || line.startsWith "." || line.startsWith ":" || line.startsWith "DEF"

def indent (line : String) : String :=
  if isFlushLeft line then line else "  " ++ line

def render (l : Listing) : String :=
  String.join (l.lines.map fun line => indent line ++ "\n")

end Listing

end TurtleCompiler
