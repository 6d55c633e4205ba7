import TurtleCompiler.CommandLine

/-!
The program: it reads a source, and writes the listing or why there is none.
-/

namespace TurtleCompiler

partial def readAll (stream : IO.FS.Stream) (read : ByteArray) : IO ByteArray := do
  let more ← stream.read 65536
  if more.isEmpty then return read else readAll stream (read ++ more)

def reason : IO.Error → String
  | .noFileOrDirectory .. => "No such file or directory (os error 2)"
  | e => toString e

def readSource (o : Options) : IO (Except Outcome String) := do
  let name := o.filename.getD "stdin"
  try
    let bytes ←
      match o.filename with
      | some path => IO.FS.readBinFile path
      | none => readAll (← IO.getStdin) ByteArray.empty
    match String.fromUTF8? bytes with
    | some source => return .ok source
    | none => return .error (.ofUnusable "read" name "stream did not contain valid UTF-8")
  catch e => return .error (.ofUnusable "read" name (reason e))

def writeFile (o : Options) (outcome : Outcome) : IO Outcome := do
  match o.output, outcome.file with
  | some path, some text =>
    try
      IO.FS.writeFile path text
      return outcome
    catch e => return { Outcome.ofUnusable "write" path (reason e) with log := outcome.log }
  | _, _ => return outcome

def run (o : Options) : IO Outcome := do
  match ← readSource o with
  | .ok source => writeFile o (.ofSource o source)
  | .error outcome => return outcome

end TurtleCompiler

open TurtleCompiler

def main (args : List String) : IO UInt32 := do
  match Options.read {} false args with
  | none =>
    IO.eprintln "usage: [-d]... [-o OUTPUT] [FILENAME]"
    return 2
  | some o =>
    let outcome ← run o
    for e in outcome.log do
      IO.eprintln (e.level.name ++ " " ++ e.message)
    IO.print outcome.stdout
    IO.eprint outcome.stderr
    return UInt32.ofNat outcome.exit
