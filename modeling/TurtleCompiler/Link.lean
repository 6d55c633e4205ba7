import TurtleCompiler.Emit
import TurtleCompiler.Listing
import TurtleCompiler.Workspace

/-!
Linking: the listing of what is used, from the symbols of closed scopes.
-/

namespace TurtleCompiler

def Table.used (t : Table) (cls : SymbolClass) : List SymbolId :=
  (t.byClass cls).ids.filter fun id => 0 < (t.symbol id).usage

def Symbol.initialValue (s : Symbol) : Value :=
  (s.var?.bind fun v => v.value <|> v.type.map DataType.zero).getD (.int 0)

def Table.linkTarget? (t : Table) (id : SymbolId) : Option SymbolId :=
  if ((t.symbol id).routine?.bind (·.aliasOf)).isSome then t.resolveAlias id else some id

def Table.markGenerated (t : Table) (id target : SymbolId) : Table :=
  let marked := t.modifySymbol target Symbol.markGenerated
  if ((t.symbol id).routine?.bind (·.aliasOf)).isSome then
  marked.modifySymbol id Symbol.markGenerated else marked

def Definition.emit (d : Definition) : Work (Option Block) := do
  let t := (← get).table
  if let some remark := d.remark? t then Workspace.note remark
  return d.block? t

def linkRoutine (id : SymbolId) : Work (Option Block) := do
  let t := (← get).table
  let name := (t.symbol id).name
  let undefined : Error := .link (.undefined name)
  match t.linkTarget? id with
  | none => throw undefined
  | some target =>
    match (t.symbol target).routine? with
    | none => throw undefined
    | some r =>
      if !r.flags.library && r.code.isNone then throw undefined
      if !r.flags.generated && !r.flags.internal then
        Workspace.note (.functionEmitted name)
        let block ← r.code.elim (pure none) Definition.emit
        modify fun w => { w with table := w.table.markGenerated id target }
        return block
      else
        if !r.flags.library then
          Workspace.note (.functionUnused name ((t.symbol target).line.getD 0))
        return none

def link : Work Listing := do
  let t := (← get).table
  let routines := t.used .routine
  Workspace.note (.functionsSelected routines.length)
  let vars := t.used .var
  if !vars.isEmpty then Workspace.note .dataSection
  Workspace.note .codeSection
  let blocks ← routines.mapM linkRoutine
  return {
    canvas := routines.any fun id => (t.symbol id).flags.graphics
    data := vars.map fun id => ((t.symbol id).fullName, (t.symbol id).initialValue)
    blocks := blocks.filterMap id }

end TurtleCompiler
