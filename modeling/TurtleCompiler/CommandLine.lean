import TurtleCompiler.Compile

/-!
The command line: what is asked for, and what comes of it. Reading and writing files is left to the
program.
-/

namespace TurtleCompiler

structure Options where
  debug : Nat := 0
  output : Option String := none
  filename : Option String := none
  deriving DecidableEq

structure Outcome where
  exit : Nat
  stdout : String := ""
  stderr : String := ""
  log : List Event := []
  file : Option String := none

namespace Options

def readLetters (o : Options) : List Char → Option (Options × Bool)
  | [] => some (o, false)
  | 'd' :: cs => { o with debug := o.debug + 1 }.readLetters cs
  | ['o'] => some (o, true)
  | 'o' :: '=' :: cs => some ({ o with output := some (String.ofList cs) }, false)
  | 'o' :: cs => some ({ o with output := some (String.ofList cs) }, false)
  | _ => none

def readFilename (o : Options) (name : String) : Option Options :=
  if o.filename.isSome then none else some { o with filename := some name }

def read (o : Options) (outputNext : Bool) : List String → Option Options
  | [] => if outputNext then none else some o
  | arg :: args =>
    if outputNext then { o with output := some arg }.read false args
    else
      match arg.toList with
      | ['-', '-'] => args.foldlM readFilename o
      | '-' :: '-' :: name =>
        if name = "debug".toList then { o with debug := o.debug + 1 }.read false args
        else if name = "output".toList then o.read true args
        else do
          let file ← "output=".toList.isPrefixOf? name
          { o with output := some (String.ofList file) }.read false args
      | '-' :: c :: cs => do
        let (o, outputNext) ← o.readLetters (c :: cs)
        o.read outputNext args
      | _ => do (← o.readFilename arg).read false args

def level (o : Options) : Level :=
  match o.debug with
  | 0 => .warn
  | 1 => .info
  | 2 => .debug
  | _ => .trace

end Options

namespace Outcome

def banner : String := "#--------------------------"

def ofUnusable (action name reason : String) : Outcome where
  exit := 1
  stderr := "Error: failed to " ++ action ++ " " ++ name ++ "\n\nCaused by:\n    " ++ reason ++ "\n"

def ofSource (o : Options) (source : String) : Outcome :=
  let report := compileWithLog source
  match report.result with
  | .ok listing =>
    let text := banner ++ "\n" ++ listing.render
    let log := o.level.select report.log
    if o.output.isSome then { exit := 0, log, file := some text } else
    { exit := 0, log, stdout := text }
  | .error e =>
    { exit := 1
      stderr := e.message ++ "\n"
      log := o.level.select (report.log ++ [.compilationFailed e.family]) }

end Outcome

end TurtleCompiler
