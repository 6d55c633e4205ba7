import TurtleCompiler.Expr

/-!
Symbols: variables and routines, where they belong, and how often they are used. Uses and lines are
counted without a bound. What counts them in 32 bits agrees as long as they stay below `2 ^ 32`.
-/

namespace TurtleCompiler

inductive SymbolClass where
  | var
  | routine
  deriving DecidableEq

def SymbolClass.name : SymbolClass → String
  | .var => "VARIABLE"
  | .routine => "FUNCTION"

structure Flags where
  library : Bool := false
  internal : Bool := false
  generated : Bool := false
  graphics : Bool := false
  reverseArgs : Bool := false
  deriving DecidableEq

def Flags.union (a b : Flags) : Flags where
  library := a.library || b.library
  internal := a.internal || b.internal
  generated := a.generated || b.generated
  graphics := a.graphics || b.graphics
  reverseArgs := a.reverseArgs || b.reverseArgs

structure Hooks where
  target : Option String := none
  before : List Template := []
  after : List Template := []
  deriving DecidableEq

structure Variable where
  value : Option Value := none
  type : Option DataType := none

structure Routine where
  params : List SymbolId := []
  aliasOf : Option String := none
  uses : List SymbolId := []
  flags : Flags := {}
  type : Option DataType := none
  hooks : Hooks := {}
  code : Option Definition := none

inductive Kind where
  | var (v : Variable)
  | routine (r : Routine)

structure Symbol where
  name : String
  line : Option Nat
  usage : Nat
  scope : String
  fullName : String
  kind : Kind

structure Fields where
  usage : Option Nat := none
  type : Option DataType := none
  value : Option Value := none
  params : Option (List SymbolId) := none
  aliasOf : Option String := none
  uses : Option (List SymbolId) := none
  flags : Flags := {}
  hooks : Option Hooks := none

def Fields.hasRoutineFields (f : Fields) : Bool :=
  f.params.isSome || f.aliasOf.isSome || f.uses.isSome || f.flags ≠ {} || f.hooks.isSome

def Routine.apply (r : Routine) (f : Fields) : Routine :=
  { r with
    params := f.params.getD r.params
    aliasOf := f.aliasOf <|> r.aliasOf
    uses := f.uses.getD r.uses
    hooks := f.hooks.getD r.hooks
    type := f.type <|> r.type
    flags := r.flags.union f.flags }

namespace Symbol

def cls (s : Symbol) : SymbolClass :=
  match s.kind with
  | .var _ => .var
  | .routine _ => .routine

def var? (s : Symbol) : Option Variable :=
  match s.kind with
  | .var v => some v
  | .routine _ => none

def routine? (s : Symbol) : Option Routine :=
  match s.kind with
  | .var _ => none
  | .routine r => some r

def flags (s : Symbol) : Flags := (s.routine?.map (·.flags)).getD {}

def type? (s : Symbol) : Option DataType :=
  match s.kind with
  | .var v => v.type
  | .routine r => r.type

def use (s : Symbol) : Symbol := { s with usage := s.usage + 1 }

def setValue (v : Value) (s : Symbol) : Symbol :=
  match s.kind with
  | .var x => { s with kind := .var { x with value := some v } }
  | .routine _ => s

def modifyRoutine (f : Routine → Routine) (s : Symbol) : Symbol :=
  match s.kind with
  | .var _ => s
  | .routine r => { s with kind := .routine (f r) }

def setCode (d : Definition) : Symbol → Symbol := modifyRoutine ({ · with code := some d })

def markGenerated : Symbol → Symbol :=
  modifyRoutine fun r => { r with flags := { r.flags with generated := true } }

/-- What a declaration changes before it looks at the class of the symbol: a line once present
stays. -/
def declareAgain (line : Option Nat) (f : Fields) (s : Symbol) : Symbol :=
  { s with line := s.line <|> line, usage := f.usage.getD s.usage }

def updateVariable (s : Symbol) (v : Variable) (f : Fields) : Variable where
  value := if s.line.isSome && v.value.isSome then v.value else f.value <|> v.value
  type := f.type <|> v.type

/-- A further declaration of a symbol. One that says what its class does not have still counts for
the line and the usage. -/
def merge (line : Option Nat) (f : Fields) (s : Symbol) : Except Error Unit × Symbol :=
  match s.kind with
  | .var v =>
    if f.hasRoutineFields then
      (.error (.defect (.functionFieldsForVariable s.name)), s.declareAgain line f)
    else (.ok (), { s.declareAgain line f with kind := .var (s.updateVariable v f) })
  | .routine r =>
    if f.value.isSome then (.error (.defect (.valueForFunction s.name)), s.declareAgain line f)
    else (.ok (), { s.declareAgain line f with kind := .routine (r.apply f) })

end Symbol

def Kind.ofFields (name : String) (f : Fields) : SymbolClass → Except Error Kind
  | .var =>
    if f.hasRoutineFields then .error (.defect (.functionFieldsForVariable name))
    else .ok (.var { value := f.value, type := f.type })
  | .routine =>
    if f.value.isSome then .error (.defect (.valueForFunction name))
    else .ok (.routine (Routine.apply {} f))

end TurtleCompiler
