import TurtleCompiler.Symbol.Basic
import TurtleCompiler.Symbol.NameMap

/-!
The symbol table: all symbols, the open scopes over them, and the symbols of closed scopes by full
name. An operation that fails keeps what it had changed by then.
-/

namespace TurtleCompiler

structure Scope where
  name : String
  names : NameMap := {}

structure Table where
  symbols : Array Symbol := #[]
  scopes : List Scope := []
  vars : NameMap := {}
  routines : NameMap := {}

abbrev TableM := EStateM Error Table

inductive Reach where
  | anywhere
  | innermost
  | outermost
  deriving DecidableEq

def scopePath (scopes : List Scope) : String :=
  String.intercalate "." (((scopes.reverse.map (·.name)).filter (· ≠ "")).map ("@" ++ ·))

def qualify (scope name : String) : String :=
  if scope = "" then name else scope ++ "." ++ name

def blankSymbol : Symbol := ⟨"", none, 0, "", "", .var {}⟩

namespace Table

/-- The symbol of a handle. A table gives out handles of its own symbols only. -/
def symbol (t : Table) (id : SymbolId) : Symbol := t.symbols.getD id.index blankSymbol

def modifySymbol (t : Table) (id : SymbolId) (f : Symbol → Symbol) : Table :=
  { t with symbols := t.symbols.modify id.index f }

def depth (t : Table) : Nat := t.scopes.length

def currentScope (t : Table) : String := scopePath t.scopes

def byClass (t : Table) : SymbolClass → NameMap
  | .var => t.vars
  | .routine => t.routines

def lookup (t : Table) (cls : SymbolClass) (fullName : String) : Option SymbolId :=
  (t.byClass cls).get? fullName

/-- The innermost symbol of this name, of the given scope and class if there are any. Without a
scope, a class makes the symbols of closed scopes visible too, by their full names. -/
def resolve (t : Table) (name : String) (scope : Option String) (cls : Option SymbolClass) :
    Option SymbolId :=
  let visible (s : Scope) : Option SymbolId :=
    if scope.all (· = s.name) then
      (s.names.get? name).filter fun id => cls.all (· = (t.symbol id).cls)
    else none
  match t.scopes.findSome? visible, scope, cls with
  | some id, _, _ => some id
  | none, none, some cls => t.lookup cls name
  | none, _, _ => none

def push (t : Table) (name : String) : Table :=
  { t with scopes := ⟨name, {}⟩ :: t.scopes }

def close (t : Table) (id : SymbolId) : Table :=
  match (t.symbol id).cls with
  | .var => { t with vars := t.vars.insert (t.symbol id).fullName id }
  | .routine => { t with routines := t.routines.insert (t.symbol id).fullName id }

def pop : TableM Scope := do
  match (← get).scopes with
  | [] => throw (.defect .noScopeToClose)
  | scope :: scopes =>
    modify fun t => scope.names.ids.foldl close { t with scopes }
    return scope

def frame (t : Table) : Reach → Nat
  | .anywhere | .innermost => 0
  | .outermost => t.scopes.length - 1

def insertNew (reach : Reach) (name : String) (cls : SymbolClass) (line : Option Nat) (f : Fields) :
    TableM SymbolId := do
  let t ← get
  let scope := scopePath (t.scopes.drop (t.frame reach))
  match Kind.ofFields name f cls with
  | .error e => throw e
  | .ok kind =>
    let id : SymbolId := ⟨t.symbols.size⟩
    set { t with
      symbols := t.symbols.push ⟨name, line, f.usage.getD 0, scope, qualify scope name, kind⟩
      scopes := t.scopes.modify (t.frame reach) fun s =>
        { s with names := s.names.insert name id } }
    return id

def updateExisting (id : SymbolId) (name : String) (cls : SymbolClass) (line : Option Nat)
    (f : Fields) : TableM SymbolId := do
  let s := (← get).symbol id
  if s.cls ≠ cls then throw (.redeclaration (line.getD 0) name s.line)
  let (result, s) := s.merge line f
  modify (·.modifySymbol id fun _ => s)
  match result with
  | .ok () => return id
  | .error e => throw e

def declared (t : Table) (reach : Reach) (name : String) : Option SymbolId :=
  match reach with
  | .innermost => t.scopes.head?.bind (·.names.get? name)
  | .anywhere | .outermost => t.resolve name none none

def declare (reach : Reach) (name : String) (cls : SymbolClass) (line : Option Nat) (f : Fields) :
    TableM SymbolId := do
  let t ← get
  if t.scopes.isEmpty then throw (.defect (.noScopeToDeclare name))
  match t.declared reach name with
  | some id => updateExisting id name cls line f
  | none => insertNew reach name cls line f

def setValue (id : SymbolId) (v : Value) : TableM Unit := do
  let s := (← get).symbol id
  if s.cls ≠ .var then throw (.defect (.notVariable s.name))
  modify (·.modifySymbol id (·.setValue v))

def setCode (id : SymbolId) (d : Definition) : TableM Unit := do
  let s := (← get).symbol id
  if s.cls ≠ .routine then throw (.defect (.notFunction s.name))
  modify (·.modifySymbol id (·.setCode d))

def followAlias (t : Table) : Nat → SymbolId → Option SymbolId
  | 0, _ => none
  | n + 1, id => do
    match (← (t.symbol id).routine?).aliasOf with
    | some name => t.followAlias n (← t.resolve name none (some .routine))
    | none => return id

/-- The routine that a chain of aliases ends with. A chain longer than the number of symbols has no
end. -/
def resolveAlias (t : Table) (id : SymbolId) : Option SymbolId :=
  t.followAlias (t.symbols.size + 1) id

def dependencies (t : Table) (id : SymbolId) : List SymbolId :=
  match (t.symbol id).routine? with
  | some r => r.params ++ r.uses
  | none => []

def countUsesOf : Nat → SymbolId → TableM Unit
  | 0, _ => pure ()
  | depth + 1, id => do
    modify (·.modifySymbol id Symbol.use)
    let t ← get
    match (t.symbol id).routine?.bind (·.aliasOf) with
    | none => (t.dependencies id).forM (countUsesOf depth)
    | some name =>
      match t.resolve name none (some .routine) with
      | none => throw (.defect (.unknownUsage name))
      | some target =>
        modify (·.modifySymbol target Symbol.use)
        (t.dependencies target).forM (countUsesOf depth)

/-- A chain of dependencies without a cycle is no longer than the number of symbols. -/
def countUse (id : SymbolId) : TableM Unit := do
  countUsesOf ((← get).symbols.size + 1) id

def countUsage (name : String) (cls : Option SymbolClass) : TableM SymbolId := do
  match (← get).resolve name none cls with
  | none => throw (.defect (.unknownUsage name))
  | some id =>
    countUse id
    return id

end Table

end TurtleCompiler
