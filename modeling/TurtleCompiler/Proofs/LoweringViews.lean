import TurtleCompiler.Proofs.TableViews

/-!
Nothing in a lowering depends on the case of letters or on which line it is on.
-/

namespace TurtleCompiler

def Workspace.view (v : View) (w : Workspace) : Workspace := ⟨w.table.view v, #[]⟩

instance : HasView Workspace := ⟨Workspace.view⟩

def Lowering.view (v : View) (s : Lowering) : Lowering :=
  { s with toWorkspace := s.toWorkspace.view v }

instance : HasView Lowering := ⟨Lowering.view⟩

variable {v : View}

theorem Workspace.view_eq_iff {w w' : Workspace} :
    w.view v = w'.view v ↔ w.table.view v = w'.table.view v := by
  simp [view]

theorem Lowering.view_eq_iff {s s' : Lowering} : s.view v = s'.view v ↔
    s.table.view v = s'.table.view v ∧ s.labels = s'.labels ∧ s.entry = s'.entry ∧
      s.mainBody = s'.mainBody ∧ s.openRoutine = s'.openRoutine := by
  simp [view, Workspace.view]

namespace Alike

variable {α β : Type} {v : View} {u : α → β} {x x' : TableM α}

theorem ofTableWork (h : Alike v u x x') : Alike v u (liftM x : Work α) (liftM x') :=
  Parallel.ofTableWork Workspace.view_eq_iff (fun he => he) h

theorem ofWork {x x' : Work α} (h : Alike v u x x') :
    Alike v u (liftM x : LowerM α) (liftM x') := by
  refine Parallel.ofWork (fun {s s'} hs => ?_) (fun {s s' w w'} hs hw => ?_) (fun he => he) h
  · exact Workspace.view_eq_iff.2 (Lowering.view_eq_iff.1 hs).1
  · exact Lowering.view_eq_iff.2 ⟨Workspace.view_eq_iff.1 hw, (Lowering.view_eq_iff.1 hs).2⟩

theorem ofTable (h : Alike v u x x') :
    Alike v u (liftM x : LowerM α) (liftM x') := h.ofTableWork.ofWork

theorem ofExcept {x x' : Except Error α} (h : LooksAlike v x x') :
    Alike v id (LowerM.ofExcept x) (LowerM.ofExcept x') := by
  obtain ⟨a, rfl, rfl⟩ | ⟨e, e', rfl, rfl, he⟩ := h.ends
  · exact .of_pure rfl
  · exact .of_throw he

end Alike

section Checks

variable {v : View} {line line' : Nat} (hline : v.line line = v.line line')

include hline

theorem looksAlike_type (fault : TypeFault) :
    LooksAlike v (.error (.type line fault) : Except Error α) (.error (.type line' fault)) :=
  .of_error (congrArg (Error.type · fault) hline)

theorem looksAlike_checkNumeric (type : DataType) :
    LooksAlike v (checkNumeric line type) (checkNumeric line' type) :=
  .ite rfl (looksAlike_type hline _)

theorem looksAlike_checked (n : Int) : LooksAlike v (checked line n) (checked line' n) := by
  unfold checked
  split
  · rfl
  · exact looksAlike_type hline _

theorem looksAlike_foldPower (l : Int) (e : Nat) :
    LooksAlike v (foldPower line l e) (foldPower line' l e) :=
  .ite (looksAlike_type hline _)
    (.ite (.ite (looksAlike_type hline _) (looksAlike_checked hline _))
      (looksAlike_checked hline _))

theorem looksAlike_foldInt (l r : Int) (op : ArithOp) :
    LooksAlike v (foldInt line l r op) (foldInt line' l r op) := by
  cases op with
  | add | sub | mul => exact looksAlike_checked hline _
  | div => exact .ite (looksAlike_type hline _) rfl
  | mod =>
    exact .ite (looksAlike_type hline _)
      (.ite (looksAlike_type hline _) (looksAlike_checked hline _))
  | pow => exact .ite rfl (looksAlike_foldPower hline _ _)

theorem looksAlike_finite (x : Float) :
    LooksAlike v (finite line x) (finite line' x) := .ite rfl (looksAlike_type hline _)

theorem looksAlike_foldFloat (l r : Float) (op : ArithOp) :
    LooksAlike v (foldFloat line l r op) (foldFloat line' l r op) := by
  cases op with
  | add | sub | mul | pow => exact looksAlike_finite hline _
  | div | mod => exact .ite (looksAlike_type hline _) (looksAlike_finite hline _)

theorem looksAlike_fold (op : ArithOp) (l r : Value) :
    LooksAlike v (fold line op l r) (fold line' op l r) := by
  unfold fold
  split
  · exact looksAlike_foldInt hline _ _ _
  · split
    · exact looksAlike_foldFloat hline _ _ _
    · rfl

theorem looksAlike_arithmetic (op : ArithOp) (l r : Expr) :
    LooksAlike v (Expr.arithmetic op l r line) (Expr.arithmetic op l r line') := by
  refine (looksAlike_checkNumeric hline _).bind fun _ =>
    (looksAlike_checkNumeric hline _).bind fun _ => ?_
  dsimp only
  split
  · exact ((looksAlike_fold hline op _ _).map some).bind fun _ => rfl
  · rfl

theorem looksAlike_rejectBool (type : DataType) :
    LooksAlike v (Cond.rejectBool line type) (Cond.rejectBool line' type) :=
  .ite (looksAlike_type hline _) rfl

theorem looksAlike_comparison (op : RelOp) (l r : Expr) :
    LooksAlike v (Cond.comparison op l r line) (Cond.comparison op l r line') := by
  refine (looksAlike_rejectBool hline _).bind fun _ =>
    (looksAlike_rejectBool hline _).bind fun _ => ?_
  dsimp only
  split
  · split
    · exact looksAlike_type hline _
    · split
      · exact looksAlike_type hline _
      · rfl
  · rfl

theorem looksAlike_ofExpr (e : Expr) : LooksAlike v (Cond.ofExpr line e) (Cond.ofExpr line' e) := by
  cases e with
  | cond c => rfl
  | _ => exact looksAlike_type hline _

end Checks

namespace Workspace

variable {v : View} {name name' : String}

theorem alike_note (e e' : Event) : Alike v id (note e) (note e') := .of_modify fun h => h

theorem alike_openScope (hname : v.name name = v.name name') :
    Alike v id (openScope name) (openScope name') :=
  (alike_note _ _).bind_eq fun _ => .of_modify fun h =>
  view_eq_iff.2 (Table.view_push (view_eq_iff.1 h) hname)

theorem alike_closeScope : Alike v (Scope.view v) closeScope closeScope :=
  Table.alike_pop.ofTableWork.bind fun h => (alike_note _ _).bind_eq fun _ => .of_pure h

end Workspace

namespace Lowering

variable {v : View} {line line' : Nat} (hline : v.line line = v.line line') {name name' : String}
  (hname : v.name name = v.name name') {s s' : Lowering}

theorem table_of_view (h : s.view v = s'.view v) : s.table.view v = s'.table.view v :=
  (view_eq_iff.1 h).1

theorem alike_enter (notes notes' : List Event) :
    Alike v id (enter notes) (enter notes') := .of_modify fun h => h

theorem alike_newLabel : Alike v id newLabel newLabel := by
  refine (Parallel.of_modify fun {s s'} h => ?_).bind_eq fun _ =>
    Parallel.of_get.bind fun {s s'} h => ?_
  · obtain ⟨htable, hlabels, hrest⟩ := view_eq_iff.1 h
    exact view_eq_iff.2 ⟨htable, by simp [hlabels], hrest⟩
  · dsimp only
    rw [(view_eq_iff.1 h).2.1]
    exact (Workspace.alike_note _ _).ofWork.bind_eq fun _ => .of_pure rfl

theorem alike_addTopLevel (n : Node) : Alike v id (addTopLevel n) (addTopLevel n) :=
  .of_modify fun {s s'} h => by
    obtain ⟨htable, hlabels, hentry, hbody, hopen⟩ := view_eq_iff.1 h
    exact view_eq_iff.2 ⟨htable, hlabels, hentry, by simp [hbody], hopen⟩

section Names

include hname

theorem looksAlike_callTo {t t' : Table} (h : t.view v = t'.view v) (args : List Arg) :
    LooksAlike v (Expr.callTo t name args) (Expr.callTo t' name' args) := by
  have halias : t.resolveAlias = t'.resolveAlias := funext (Table.sameShape_of_view h).resolveAlias
  unfold Expr.callTo
  rw [Table.resolve_of_view h hname, halias]
  split
  · rw [Table.type?_of_view h]
    rfl
  · exact .of_error (congrArg (Error.link ∘ LinkFault.unresolved) hname)

theorem alike_callTo (args : List Arg) : Alike v id (callTo name args) (callTo name' args) :=
  Parallel.of_get.bind fun h => Alike.ofExcept (looksAlike_callTo hname (table_of_view h) args)

end Names

theorem ofVariable_of_view {t t' : Table} (h : t.view v = t'.view v) (i : SymbolId) :
    Expr.ofVariable t i = Expr.ofVariable t' i := by
  rw [Expr.ofVariable, Expr.ofVariable, Table.type?_of_view h]

theorem alike_random : Alike v id random random :=
  (Table.alike_countUsage rfl _).ofTable.bind_eq fun _ => alike_callTo rfl _

section Lines

include hline

theorem alike_number (text : String) : Alike v id (number text line) (number text line') := by
  unfold number
  dsimp only
  split
  · exact .of_pure rfl
  · exact .of_throw (congrArg (Error.invalidNumber · text) hline)

theorem alike_arithmetic (op : String) (l r : Expr) :
    Alike v id (arithmetic op l r line) (arithmetic op l r line') := by
  unfold arithmetic
  split
  · exact .ofExcept (looksAlike_arithmetic hline _ l r)
  · exact .of_throw rfl

theorem alike_negate (e : Expr) : Alike v id (negate e line) (negate e line') :=
  .ofExcept (looksAlike_arithmetic hline _ _ e)

theorem alike_positive (e : Expr) : Alike v id (positive e line) (positive e line') :=
  (Alike.ofExcept (looksAlike_checkNumeric hline _)).bind_eq fun _ => .of_pure rfl

theorem alike_comparison (op : String) (l r : Expr) :
    Alike v id (comparison op l r line) (comparison op l r line') := by
  unfold comparison
  split
  · exact (Alike.ofExcept (looksAlike_comparison hline _ l r)).map_eq _
  · exact .of_throw rfl

theorem alike_combination {op op' : String} (hop : v.name op = v.name op') (l r : Expr) :
    Alike v id (combination op l r line) (combination op' l r line') := by
  have htext : LogicOp.ofText? op = LogicOp.ofText? op' := by
    rw [LogicOp.ofText?, LogicOp.ofText?, View.toUpper_of_name hop]
  unfold combination
  rw [htext]
  split
  · refine alike_newLabel.bind_eq fun skip => (Alike.ofExcept ?_).map_eq _
    exact (looksAlike_ofExpr hline l).bind fun _ => (looksAlike_ofExpr hline r).bind fun _ => rfl
  · exact .of_throw (by simp [Error.view, Defect.view, hop])

theorem alike_negation (e : Expr) : Alike v id (negation e line) (negation e line') :=
  (Alike.ofExcept ((looksAlike_ofExpr hline e).bind fun _ => rfl)).map_eq _

theorem alike_ifStatement (cond : Expr) (yes : List Node) (no : Option (List Node)) :
    Alike v id (ifStatement cond yes no line) (ifStatement cond yes no line') := by
  refine (Alike.ofExcept (looksAlike_ofExpr hline cond)).bind_eq fun c =>
    alike_newLabel.bind_eq fun _ => ?_
  cases no with
  | none => exact .of_pure rfl
  | some no => exact alike_newLabel.bind_eq fun _ => .of_pure rfl

theorem alike_whileStatement (cond : Expr) (body : List Node) :
    Alike v id (whileStatement cond body line) (whileStatement cond body line') :=
  (Alike.ofExcept (looksAlike_ofExpr hline cond)).bind_eq fun _ =>
    alike_newLabel.bind_eq fun _ => alike_newLabel.bind_eq fun _ => .of_pure rfl

end Lines

theorem isParameter_of_view (h : s.view v = s'.view v) : s.isParameter = s'.isParameter := by
  obtain ⟨htable, -, -, -, hopen⟩ := view_eq_iff.1 h
  funext i
  simp only [isParameter, hopen, Table.routine?_of_view htable]

theorem some_line (hline : v.line line = v.line line') :
    (some line).map v.line = (some line').map v.line :=
  congrArg some hline

section Symbols

include hline hname

theorem alike_reference : Alike v id (reference name line) (reference name' line') := by
  refine ((Table.alike_declare hname .var rfl {} .anywhere).ofTable.atLine hline).bind_eq fun i =>
    ?_
  refine (Table.alike_countUsage hname (some .var)).ofTable.bind_eq fun _ =>
    Parallel.of_get.bind fun {s s'} h => ?_
  rw [ofVariable_of_view (table_of_view h)]
  exact .of_pure rfl

theorem alike_assignedType (compound : Option ArithOp) (rhs : DataType) :
    Alike v id (assignedType name compound rhs line) (assignedType name' compound rhs line') := by
  refine .ite (fun _ => .of_pure rfl) fun _ => Parallel.of_get.bind fun {s s'} h => ?_
  have htable := table_of_view h
  simp only [Table.resolve_of_view htable hname, Table.type?_of_view htable]
  refine (Alike.ofExcept (looksAlike_checkNumeric hline _)).bind_eq fun _ => ?_
  exact (Alike.ofExcept (looksAlike_checkNumeric hline _)).bind_eq fun _ => .of_pure rfl

theorem alike_assignment (op : String) (rhs : Expr) :
    Alike v id (assignment name op rhs line) (assignment name' op rhs line') := by
  unfold assignment
  dsimp only
  refine .ite (fun _ => .throw_bind rfl _ _) fun _ => ?_
  refine (alike_assignedType hline hname _ _).bind_eq fun type => ?_
  refine (Table.alike_declare hname .var (some_line hline) _ .anywhere).ofTable.bind_eq fun i => ?_
  refine Parallel.of_get.bind fun {s s'} h => ?_
  rw [Table.var?_of_view (table_of_view h), isParameter_of_view h]
  refine .ite (fun _ => ?_) fun _ => .of_pure rfl
  split <;> exact (Table.alike_setValue i _).ofTable.bind_eq fun _ => .of_pure rfl

theorem alike_call (args : List Expr) :
    Alike v id (call name args line) (call name' args line') := by
  refine ((Table.alike_declare hname .routine rfl {} .outermost).ofTable.atLine hline).bind_eq
    fun _ => ?_
  exact (Table.alike_countUsage hname _).ofTable.bind_eq fun _ => (alike_callTo hname _).map_eq _

theorem alike_typein : Alike v id (typein name line) (typein name' line') := by
  refine (Table.alike_countUsage rfl _).ofTable.bind_eq fun _ => ?_
  refine (Table.alike_declare hname .var (some_line hline) {} .anywhere).ofTable.bind_eq
    fun target => ?_
  refine (Table.alike_countUsage hname _).ofTable.bind_eq fun _ =>
    Parallel.of_get.bind fun {s s'} h => ?_
  rw [ofVariable_of_view (table_of_view h)]
  exact (alike_callTo rfl _).map_eq _

end Symbols

theorem alike_print (args : List Expr) : Alike v id (print args) (print args) :=
  (Table.alike_countUsage rfl _).ofTable.bind_eq fun _ => (alike_callTo rfl _).map_eq _

theorem alike_openBody (hname : v.name name = v.name name') (i : SymbolId) (ids : List SymbolId) :
    Alike v id (do
      let _ ← Table.declare .anywhere name .routine none { params := some ids }
      modify fun t : Lowering => { t with openRoutine := some i }
      return i : LowerM SymbolId) (do
      let _ ← Table.declare .anywhere name' .routine none { params := some ids }
      modify fun t => { t with openRoutine := some i }
      return i) := by
  refine (Table.alike_declare hname .routine rfl _ .anywhere).ofTable.bind_eq fun _ => ?_
  refine (Parallel.of_modify fun {s s'} h => ?_).bind_eq fun _ => .of_pure rfl
  obtain ⟨htable, hlabels, hentry, hbody, -⟩ := view_eq_iff.1 h
  exact view_eq_iff.2 ⟨htable, hlabels, hentry, hbody, rfl⟩

theorem alike_beginProcedure (hline : v.line line = v.line line')
    (hname : v.name name = v.name name') (params : List String) : Alike v id
    (beginProcedure name line params) (beginProcedure name' line' (params.map v.name)) := by
  refine Parallel.of_get.bind fun {s s'} h => ?_
  have htable := table_of_view h
  have hsome := some_line hline
  dsimp only
  rw [Table.resolve_of_view htable hname]
  cases s'.table.resolve name' none none
  case' some i =>
    have hold := Symbol.line_of_view (Table.symbol_of_view htable i)
    have hthrow : (Error.redeclaration line name (s.table.symbol i).line).view v =
        (Error.redeclaration line' name' (s'.table.symbol i).line).view
        v := by simp [Error.view, hold, hline, hname]
    dsimp only
    rw [View.isSome_of_line hold, Table.flags_of_view htable]
    refine .ite (fun _ => .throw_bind hthrow _ _) fun _ => ?_
  all_goals
    refine (Table.alike_declare hname .routine hsome {} .anywhere).ofTable.bind_eq fun i => ?_
    refine (Workspace.alike_openScope hname).ofWork.bind_eq fun _ => ?_
    have hparams : Alike v id (declareParams line params)
        (declareParams line' (params.map v.name)) :=
      .mapM_eq fun param _ =>
      (Table.alike_declare (v.name_name param).symm .var hsome {} .innermost).ofTable
    refine hparams.bind_eq fun ids => Parallel.of_get.bind fun {s s'} h => ?_
    rw [Symbol.usage_of_view (Table.symbol_of_view (table_of_view h) i)]
    have hopen := alike_openBody hname i ids
    exact .ite
      (fun _ => (Parallel.forM fun j _ => (Table.alike_countUse j).ofTable).bind_eq fun _ => hopen)
      fun _ => hopen

theorem alike_endProcedure (i : SymbolId) (body : List Node) :
    Alike v id (endProcedure i body) (endProcedure i body) := by
  refine (Table.alike_setCode _ _).ofTable.bind_eq fun _ =>
    Workspace.alike_closeScope.ofWork.bind fun _ => ?_
  refine .of_modify fun {s s'} h => ?_
  obtain ⟨htable, hlabels, hentry, hbody, -⟩ := view_eq_iff.1 h
  exact view_eq_iff.2 ⟨htable, hlabels, hentry, hbody, rfl⟩

theorem alike_finish : Alike v id finish finish := by
  refine Parallel.of_get.bind fun {s s'} h => ?_
  obtain ⟨htable, -, hentry, hbody, -⟩ := view_eq_iff.1 h
  dsimp only
  rw [Table.depth, Table.length_of_view htable, hentry, hbody]
  refine .ite (fun _ => .throw_bind rfl _ _) fun _ => ?_
  exact (Table.alike_setCode _ _).ofTable.bind_eq fun _ =>
    Workspace.alike_closeScope.ofWork.bind fun _ => .of_pure rfl

end Lowering

def View.KeepsStrings (v : View) : Prop := ∀ s, v.string s = s

theorem View.KeepsStrings.text (hv : v.KeepsStrings) (lexeme : Lexeme) (text : String) :
    v.text lexeme (v.text lexeme text) = v.text lexeme text := by
  cases lexeme with
  | string => simp [View.text, hv text]
  | number | assignOp | relOp | addOp | mulOp | powOp | openParen | closeParen => rfl
  | _ => exact v.name_name text

theorem SyntaxFault.view_view (hv : v.KeepsStrings) (fault : SyntaxFault) :
    (fault.view v).view v = fault.view v := by
  cases fault <;> simp [SyntaxFault.view, hv.text]

theorem Error.view_view (hv : v.KeepsStrings) (e : Error) : (e.view v).view v = e.view v := by
  cases e with
  | unparsed line fault => simp [Error.view, v.line_line, fault.view_view hv]
  | link fault => cases fault <;> simp [Error.view, LinkFault.view]
  | defect fault => cases fault <;> simp [Error.view, Defect.view]
  | redeclaration line name previous => simp [Error.view, v.line_line, Function.comp_def]
  | _ => simp [Error.view, v.line_line]

namespace Source

open Lowering (alike_enter)

variable {v : View}

theorem Site.line_view (v : View) (site : Site) :
    v.line site.line = v.line (site.view v).line := (v.line_line _).symm

theorem Expr.alike_lower (hv : v.KeepsStrings) (e : Expr) :
    Alike v id e.lower (e.view v).lower := by
  induction e with
  | number text site =>
    exact (alike_enter _ _).bind_eq fun _ => Lowering.alike_number (site.line_view v) text
  | string text => exact .of_pure (by simp [hv text])
  | boolean text => exact .of_pure (by simp [Lowering.boolean])
  | var name site =>
    exact (alike_enter _ _).bind_eq fun _ =>
      Lowering.alike_reference (site.line_view v) (v.name_name name).symm
  | random => exact Lowering.alike_random
  | plus e site ih =>
    exact ih.bind_eq fun e => (alike_enter _ _).bind_eq fun _ =>
      Lowering.alike_positive (site.line_view v) e
  | minus e site ih =>
    exact ih.bind_eq fun e => (alike_enter _ _).bind_eq fun _ =>
      Lowering.alike_negate (site.line_view v) e
  | not e site ih =>
    exact ih.bind_eq fun e => (alike_enter _ _).bind_eq fun _ =>
      Lowering.alike_negation (site.line_view v) e
  | arith op l r site ihl ihr =>
    exact ihl.bind_eq fun l => ihr.bind_eq fun r => (alike_enter _ _).bind_eq fun _ =>
      Lowering.alike_arithmetic (site.line_view v) op l r
  | compare op l r site ihl ihr =>
    exact ihl.bind_eq fun l => ihr.bind_eq fun r => (alike_enter _ _).bind_eq fun _ =>
      Lowering.alike_comparison (site.line_view v) op l r
  | logic op l r site ihl ihr =>
    exact ihl.bind_eq fun l => ihr.bind_eq fun r => (alike_enter _ _).bind_eq fun _ =>
      Lowering.alike_combination (site.line_view v) (v.name_name op).symm l r

mutual

theorem Stmt.alike_lower (hv : v.KeepsStrings) : ∀ s : Stmt, Alike v id s.lower (s.view v).lower
  | .expr e => (e.alike_lower hv).map_eq _
  | .assign name op rhs site => (rhs.alike_lower hv).bind_eq fun rhs =>
    (alike_enter _ _).bind_eq fun _ =>
      Lowering.alike_assignment (site.line_view v) (v.name_name name).symm op rhs
  | .call name _ site => (Alike.mapM_eq fun e _ => e.alike_lower hv).bind_eq fun args =>
    (alike_enter _ _).bind_eq fun _ =>
      Lowering.alike_call (site.line_view v) (v.name_name name).symm args
  | .print first _ _ => (first.alike_lower hv).bind_eq fun _ =>
    (Alike.mapM_eq fun e _ => e.alike_lower hv).bind_eq
      fun _ => (alike_enter _ _).bind_eq fun _ => Lowering.alike_print _
  | .typein name site => (alike_enter _ _).bind_eq fun _ =>
      Lowering.alike_typein (site.line_view v) (v.name_name name).symm
  | .ifThen cond yes site => (cond.alike_lower hv).bind_eq fun cond =>
    (alike_lowerAll hv yes).bind_eq fun yes =>
      (alike_enter _ _).bind_eq fun _ => Lowering.alike_ifStatement (site.line_view v) cond yes none
  | .ifElse cond yes no site => (cond.alike_lower hv).bind_eq fun cond =>
    (alike_lowerAll hv yes).bind_eq fun yes =>
      (alike_lowerAll hv no).bind_eq fun no => (alike_enter _ _).bind_eq fun _ =>
        Lowering.alike_ifStatement (site.line_view v) cond yes (some no)
  | .whileDo cond body site => (cond.alike_lower hv).bind_eq fun cond =>
    (alike_lowerAll hv body).bind_eq fun body =>
      (alike_enter _ _).bind_eq fun _ => Lowering.alike_whileStatement (site.line_view v) cond body

theorem alike_lowerAll (hv : v.KeepsStrings) :
    ∀ ss : List Stmt, Alike v id (lowerAll ss) (lowerAll (viewAll v ss))
  | [] => .of_pure rfl
  | s :: ss => (s.alike_lower hv).bind_eq fun _ =>
    (alike_lowerAll hv ss).bind_eq fun _ => .of_pure rfl

end

theorem Header.alike_lower (h : Header) : Alike v id h.lower (h.view v).lower :=
  (alike_enter _ _).bind_eq fun _ =>
    Lowering.alike_beginProcedure (h.site.line_view v) (v.name_name h.name).symm h.params

theorem Phrase.alike_lower (hv : v.KeepsStrings) (p : Phrase) :
    Alike v id p.lower (p.view v).lower := by
  cases p with
  | expr e => exact (e.alike_lower hv).map_eq _
  | stmt s => exact (s.alike_lower hv).map_eq _
  | header h => exact h.alike_lower.map_eq _

theorem Item.alike_lower (hv : v.KeepsStrings) (i : Item) :
    Alike v (Option.map (Error.view v)) i.lower (i.view v).lower := by
  cases i with
  | statement s =>
    exact (s.alike_lower hv).bind_eq fun n =>
      (Lowering.alike_addTopLevel n).bind_eq fun _ => .of_pure rfl
  | definition header body site =>
    exact header.alike_lower.bind_eq fun i => (alike_lowerAll hv body).bind_eq fun body =>
      (alike_enter _ _).bind_eq fun _ =>
      (Lowering.alike_endProcedure i body).bind_eq fun _ => .of_pure rfl
  | broken done fault =>
    have hdone :
        Alike v id (done.forM Phrase.lower) ((done.map (Phrase.view v)).forM Phrase.lower) := by
      rw [List.forM_eq_forM, List.forM_map]
      exact .forM fun p _ => p.alike_lower hv
    refine hdone.bind_eq fun _ => ?_
    cases fault with
    | lexical e notes => exact (alike_enter _ _).bind_eq fun _ => .of_throw (e.view_view hv).symm
    | grammatical fault site =>
      refine (alike_enter _ _).bind_eq fun _ =>
        (Workspace.alike_note _ _).ofWork.bind_eq fun _ => .of_pure ?_
      exact congrArg some (Error.view_view hv (.unparsed site.line fault)).symm

theorem Program.alike_lower (hv : v.KeepsStrings) (p : Program) :
    Alike v id p.lower (p.view v).lower := by
  refine (Alike.mapM fun i _ => i.alike_lower hv).bind fun {faults faults'} hfaults => ?_
  refine (alike_enter _ _).bind_eq fun _ => ?_
  rw [show (p.view v).items.isEmpty = p.items.isEmpty by simp [Program.view]]
  have hempty : (Error.unparsed p.site.line .emptyProgram).view v =
      (Error.unparsed (p.view v).site.line .emptyProgram).view v :=
    (Error.view_view hv _).symm
  refine .ite (fun _ => (Workspace.alike_note _ _).ofWork.bind_eq fun _ => .throw_bind hempty _ _)
    fun _ => ?_
  have hfirst : (faults.findSome? id).map (Error.view v) =
      (faults'.findSome? id).map (Error.view v) := by
    simpa [List.findSome?_map, List.map_findSome?, Function.comp_def] using
      congrArg (List.findSome? id) hfaults
  cases hf : faults.findSome? id <;> cases hf' : faults'.findSome? id <;> rw [hf, hf'] at hfirst
  · exact .of_pure rfl
  · simp at hfirst
  · simp at hfirst
  · exact .of_throw (Option.some.inj hfirst)

end Source

end TurtleCompiler
