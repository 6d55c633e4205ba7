import TurtleCompiler.Proofs.Blocks

/-!
Tables that look alike. A table finds names whatever the case of their letters, and it asks whether
a symbol has a line and never which one.
-/

namespace TurtleCompiler

namespace View

variable {v : View} {a b : String} {line line' : Option Nat}

@[simp] theorem name_name (v : View) (s : String) : v.name (v.name s) = v.name s := by
  apply String.toList_injective
  simp [name, v.char_char]

@[simp] theorem name_eq_empty {s : String} : v.name s = "" ↔ s = "" := by
  simp [name]

@[simp] theorem toUpper_name (v : View) (s : String) : (v.name s).toUpper = s.toUpper := by
  apply String.toList_injective
  simp [name, toList_toUpper, v.toUpper_char]

theorem toUpper_of_name (h : v.name a = v.name b) : a.toUpper = b.toUpper := by
  rw [← v.toUpper_name a, h, v.toUpper_name]

theorem insert_of_name (h : v.name a = v.name b) (m : NameMap) (id : SymbolId) :
    m.insert a id = m.insert b id := by
  rw [NameMap.insert, NameMap.insert, toUpper_of_name h]

theorem eq_empty_of_name (h : v.name a = v.name b) : a = "" ↔ b = "" := by
  rw [← name_eq_empty (v := v), h, name_eq_empty]

theorem name_intercalate (v : View) (sep : String) (ss : List String) :
    v.name (String.intercalate sep ss) = String.intercalate (v.name sep) (ss.map v.name) := by
  induction ss with
  | nil => simp [name]
  | cons s ss ih =>
    cases ss with
    | nil => simp
    | cons s' ss => simp only [String.intercalate_cons_cons, name_append, ih, List.map_cons]

theorem name_qualify {scope scope' name name' : String} (hscope : v.name scope = v.name scope')
    (hname : v.name name = v.name name') :
    v.name (qualify scope name) = v.name (qualify scope' name') := by
  unfold qualify
  split
  · rw [if_pos ((eq_empty_of_name hscope).1 ‹_›), hname]
  · rw [if_neg fun h => ‹¬ scope = ""› ((eq_empty_of_name hscope).2 h)]
    simp only [name_append, hscope, hname]

theorem isSome_of_line (h : line.map v.line = line'.map v.line) : line.isSome = line'.isSome := by
  simpa using congrArg Option.isSome h

theorem line_orElse {a a' b b' : Option Nat} (ha : a.map v.line = a'.map v.line)
    (hb : b.map v.line = b'.map v.line) : (a <|> b).map v.line = (a' <|> b').map v.line := by
  cases a <;> cases a' <;> simp_all

theorem line_getD (h : line.map v.line = line'.map v.line) :
    v.line (line.getD 0) = v.line (line'.getD 0) := by
  cases line <;> cases line' <;> simp_all

end View

variable {v : View}

theorem Error.view_atLine {e e' : Error} (h : e.view v = e'.view v) {line line' : Nat}
    (hline : v.line line = v.line line') : (e.atLine line).view v = (e'.atLine line').view v := by
  cases e <;> cases e' <;> simp_all [Error.view, Error.atLine]

def LooksAlike (v : View) (x x' : Except Error α) : Prop :=
  x.mapError (Error.view v) = x'.mapError (Error.view v)

namespace LooksAlike

variable {v : View}

theorem ends {x x' : Except Error α} (h : LooksAlike v x x') :
    (∃ a, x = .ok a ∧ x' = .ok a) ∨ ∃ e e', x = .error e ∧ x' = .error e' ∧
    e.view v = e'.view v := by
  cases x <;> cases x' <;> simp_all [LooksAlike]

theorem of_error {e e' : Error} (h : e.view v = e'.view v) :
    LooksAlike v (.error e : Except Error α) (.error e') :=
  congrArg Except.error h

theorem bind {x x' : Except Error α} {k k' : α → Except Error β} (hx : LooksAlike v x x')
    (hk : ∀ a, LooksAlike v (k a) (k' a)) : LooksAlike v (x >>= k) (x' >>= k') := by
  obtain ⟨a, rfl, rfl⟩ | ⟨e, e', rfl, rfl, he⟩ := hx.ends
  · exact hk a
  · exact of_error he

theorem map {x x' : Except Error α} (hx : LooksAlike v x x') (f : α → β) :
    LooksAlike v (f <$> x) (f <$> x') := by
  rw [← bind_pure_comp, ← bind_pure_comp]
  exact hx.bind fun _ => rfl

theorem ite {p : Prop} [Decidable p] {x x' y y' : Except Error α} (hx : LooksAlike v x x')
    (hy : LooksAlike v y y') : LooksAlike v (if p then x else y) (if p then x' else y') := by
  split
  · exact hx
  · exact hy

end LooksAlike

class HasView (σ : Type) where
  view : View → σ → σ

abbrev View.pairing (v : View) (σ : Type) [HasView σ] : Pairing σ where
  state s s' := HasView.view v s = HasView.view v s'
  error e e' := e.view v = e'.view v

abbrev SameEnd [HasView σ] (v : View) (u : α → β) (x x' : EStateM.Result Error σ α) : Prop :=
  Together (v.pairing σ) (fun a a' => u a = u a') x x'

abbrev Alike [HasView σ] (v : View) (u : α → β) (x x' : EStateM Error σ α) : Prop :=
  Parallel (v.pairing σ) (fun a a' => u a = u a') x x'

namespace Alike

variable {σ α β γ ι ι' : Type} [HasView σ] {v : View} {u : α → β}
  {x x' : EStateM Error σ α} {g : ι → ι'}
  {f : ι → EStateM Error σ α} {f' : ι' → EStateM Error σ α} {as : List ι}

theorem map_eq (hx : Alike v id x x') (f : α → γ) : Alike v id (f <$> x) (f <$> x') :=
  hx.map fun h => congrArg f h

theorem atLine (hx : Alike v u x x') {line line' : Nat} (hline : v.line line = v.line line') :
    Alike v u (EStateM.adaptExcept (Error.atLine line) x)
    (EStateM.adaptExcept (Error.atLine line') x') :=
  hx.adaptExcept fun he => Error.view_atLine he hline

theorem mapM (h : ∀ a ∈ as, Alike v u (f a) (f' (g a))) :
    Alike v (List.map u) (as.mapM f) ((as.map g).mapM f') := by
  rw [List.mapM_map]
  refine (Parallel.mapM h).mono fun hall => ?_
  induction hall with
  | nil => rfl
  | cons hb _ ih => rw [List.map_cons, List.map_cons, hb, ih]

theorem mapM_eq (h : ∀ a ∈ as, Alike v id (f a) (f' (g a))) :
    Alike v id (as.mapM f) ((as.map g).mapM f') := by
  have hmap := mapM h
  rwa [List.map_id_fun] at hmap

end Alike

namespace Symbol

variable {v : View} {s s' : Symbol} {line line' : Option Nat}

def view (v : View) (s : Symbol) : Symbol where
  name := v.name s.name
  line := s.line.map v.line
  usage := s.usage
  scope := v.name s.scope
  fullName := v.name s.fullName
  kind := s.kind

theorem view_eq_iff : s.view v = s'.view v ↔ v.name s.name = v.name s'.name ∧
    s.line.map v.line = s'.line.map v.line ∧ s.usage = s'.usage ∧
    v.name s.scope = v.name s'.scope ∧ v.name s.fullName = v.name s'.fullName ∧
    s.kind = s'.kind := by
  simp [view]

section

variable (h : s.view v = s'.view v)

include h

theorem name_of_view : v.name s.name = v.name s'.name := (view_eq_iff.1 h).1

theorem line_of_view : s.line.map v.line = s'.line.map v.line := (view_eq_iff.1 h).2.1

theorem usage_of_view : s.usage = s'.usage := (view_eq_iff.1 h).2.2.1

theorem fullName_of_view : v.name s.fullName = v.name s'.fullName :=
  (view_eq_iff.1 h).2.2.2.2.1

theorem kind_of_view : s.kind = s'.kind := (view_eq_iff.1 h).2.2.2.2.2

theorem routine?_of_view : s.routine? = s'.routine? := by
  rw [routine?, routine?, kind_of_view h]

theorem cls_of_view : s.cls = s'.cls := by
  rw [cls, cls, kind_of_view h]

end

theorem view_withKind (kind : Kind) (h : s.view v = s'.view v) :
    ({ s with kind } : Symbol).view v = ({ s' with kind } : Symbol).view v := by
  obtain ⟨hname, hline, husage, hscope, hfull, -⟩ := view_eq_iff.1 h
  exact view_eq_iff.2 ⟨hname, hline, husage, hscope, hfull, rfl⟩

theorem view_modifyRoutine (f : Routine → Routine) (h : s.view v = s'.view v) :
    (s.modifyRoutine f).view v = (s'.modifyRoutine f).view v := by
  unfold modifyRoutine
  rw [kind_of_view h]
  split
  · exact h
  · exact view_withKind _ h

theorem view_setValue (value : Value) (h : s.view v = s'.view v) :
    (s.setValue value).view v = (s'.setValue value).view v := by
  unfold setValue
  rw [kind_of_view h]
  split
  · exact view_withKind _ h
  · exact h

theorem view_use (h : s.view v = s'.view v) : s.use.view v = s'.use.view v := by
  obtain ⟨hname, hline, husage, hrest⟩ := view_eq_iff.1 h
  exact view_eq_iff.2 ⟨hname, hline, congrArg (· + 1) husage, hrest⟩

theorem view_declareAgain (hline : line.map v.line = line'.map v.line) (f : Fields)
    (h : s.view v = s'.view v) :
    (s.declareAgain line f).view v = (s'.declareAgain line' f).view v := by
  obtain ⟨hname, hold, husage, hrest⟩ := view_eq_iff.1 h
  exact view_eq_iff.2
    ⟨hname, View.line_orElse hold hline, by simp [declareAgain, husage], hrest⟩

theorem updateVariable_of_view (h : s.view v = s'.view v) (x : Variable) (f : Fields) :
    s.updateVariable x f = s'.updateVariable x f := by
  simp only [updateVariable, View.isSome_of_line (line_of_view h)]

theorem view_merge (hline : line.map v.line = line'.map v.line) (f : Fields)
    (h : s.view v = s'.view v) :
    LooksAlike v (s.merge line f).1 (s'.merge line' f).1 ∧
      (s.merge line f).2.view v = (s'.merge line' f).2.view v := by
  have hagain := view_declareAgain hline f h
  have hname := name_of_view h
  unfold merge
  rw [kind_of_view h]
  cases s'.kind with
  | var x =>
    dsimp only
    split
    · exact ⟨.of_error (by simp [Error.view, Defect.view, hname]), hagain⟩
    · rw [updateVariable_of_view h]
      exact ⟨rfl, view_withKind _ hagain⟩
  | routine r =>
    dsimp only
    split
    · exact ⟨.of_error (by simp [Error.view, Defect.view, hname]), hagain⟩
    · exact ⟨rfl, view_withKind _ hagain⟩

end Symbol

theorem looksAlike_ofFields {name name' : String} (hname : v.name name = v.name name') (f : Fields)
    (cls : SymbolClass) : LooksAlike v (Kind.ofFields name f cls) (Kind.ofFields name' f cls) := by
  cases cls <;> exact .ite (.of_error (by simp [Error.view, Defect.view, hname])) rfl

def Scope.view (v : View) (s : Scope) : Scope := ⟨v.name s.name, s.names⟩

theorem Scope.view_modify {scopes scopes' : List Scope}
    (h : scopes.map (Scope.view v) = scopes'.map (Scope.view v))
    (k : Nat) (f : NameMap → NameMap) :
    (scopes.modify k fun s => { s with names := f s.names }).map (Scope.view v) =
      (scopes'.modify k fun s => { s with names := f s.names }).map (Scope.view v) := by
  have hmodify (scopes : List Scope) :
      (scopes.modify k fun s => { s with names := f s.names }).map (Scope.view v) =
      (scopes.map (Scope.view v)).modify k fun s => { s with names := f s.names } := by
    induction scopes generalizing k with
    | nil => simp
    | cons s scopes ih => cases k <;> simp [ih, Scope.view]
  rw [hmodify, h, ← hmodify]

theorem name_scopePath (v : View) (scopes : List Scope) : v.name (scopePath scopes) =
    String.intercalate (v.name ".")
    ((((scopes.map (Scope.view v)).reverse.map (·.name)).filter (· ≠ "")).map
      (v.name "@" ++ ·)) := by
  have hfilter : ((scopes.map (Scope.view v)).reverse.map (·.name)).filter (· ≠ "") =
      ((scopes.reverse.map (·.name)).filter (· ≠ "")).map v.name := by
    simp [List.filter_map, Function.comp_def, Scope.view, ← List.map_reverse]
  rw [scopePath, View.name_intercalate, hfilter]
  simp [Function.comp_def]

namespace Table

variable {v : View} {t t' : Table} {name name' : String}

def view (v : View) (t : Table) : Table :=
  { t with symbols := t.symbols.map (Symbol.view v), scopes := t.scopes.map (Scope.view v) }

instance : HasView Table := ⟨view⟩

theorem view_eq_iff : t.view v = t'.view v ↔
    t.symbols.map (Symbol.view v) = t'.symbols.map (Symbol.view v) ∧
    t.scopes.map (Scope.view v) = t'.scopes.map (Scope.view v) ∧ t.vars = t'.vars ∧
    t.routines = t'.routines := by
  simp [view]

theorem symbol_view (v : View) (t : Table) (id : SymbolId) :
    (t.view v).symbol id = (t.symbol id).view v := by
  simp only [symbol, view, Array.getD_eq_getD_getElem?, Array.getElem?_map]
  cases t.symbols[id.index]? with
  | none => simp [blankSymbol, Symbol.view, View.name]
  | some s => rfl

section Readers

variable (h : t.view v = t'.view v)

include h

theorem symbol_of_view (id : SymbolId) : (t.symbol id).view v = (t'.symbol id).view v := by
  rw [← symbol_view, h, symbol_view]

theorem size_of_view : t.symbols.size = t'.symbols.size := by
  simpa [view] using congrArg (·.symbols.size) h

theorem scopes_of_view : t.scopes.map (Scope.view v) = t'.scopes.map (Scope.view v) :=
  (view_eq_iff.1 h).2.1

theorem names_of_view : t.scopes.map (·.names) = t'.scopes.map (·.names) := by
  simpa [Function.comp_def, Scope.view] using congrArg (List.map (·.names)) (scopes_of_view h)

theorem length_of_view : t.scopes.length = t'.scopes.length := by
  simpa using congrArg List.length (scopes_of_view h)

theorem byClass_of_view : t.byClass = t'.byClass := by
  obtain ⟨-, -, hvars, hroutines⟩ := view_eq_iff.1 h
  funext cls
  cases cls
  · exact hvars
  · exact hroutines

theorem routine?_of_view (id : SymbolId) : (t.symbol id).routine? = (t'.symbol id).routine? :=
  Symbol.routine?_of_view (symbol_of_view h id)

theorem sameShape_of_view : t.SameShape t' where
  size := size_of_view h
  names := names_of_view h
  byClass := byClass_of_view h
  routine id := by rw [routine?_of_view h]

theorem sameCode_of_view : t.SameCode v t' where
  name id := Symbol.name_of_view (symbol_of_view h id)
  fullName id := Symbol.fullName_of_view (symbol_of_view h id)
  usage id := Symbol.usage_of_view (symbol_of_view h id)
  routine id := by rw [routine?_of_view h]

theorem cls_of_view (id : SymbolId) :
    (t.symbol id).cls = (t'.symbol id).cls := (sameShape_of_view h).cls id

theorem resolve_of_view (hname : v.name name = v.name name') (cls : Option SymbolClass) :
    t.resolve name none cls = t'.resolve name' none cls :=
    (sameShape_of_view h).resolve (View.toUpper_of_name hname) cls

theorem type?_of_view (id : SymbolId) : (t.symbol id).type? = (t'.symbol id).type? := by
  rw [Symbol.type?, Symbol.type?, Symbol.kind_of_view (symbol_of_view h id)]

theorem var?_of_view (id : SymbolId) : (t.symbol id).var? = (t'.symbol id).var? := by
  rw [Symbol.var?, Symbol.var?, Symbol.kind_of_view (symbol_of_view h id)]

theorem flags_of_view (id : SymbolId) :
    (t.symbol id).flags = (t'.symbol id).flags := (sameShape_of_view h).flags id

theorem used_of_view (cls : SymbolClass) : t.used cls = t'.used cls := by
  simp only [used, byClass_of_view h, Symbol.usage_of_view (symbol_of_view h _)]

theorem scopePath_of_view (k : Nat) :
    v.name (scopePath (t.scopes.drop k)) = v.name (scopePath (t'.scopes.drop k)) := by
  rw [name_scopePath, name_scopePath, List.map_drop, scopes_of_view h, List.map_drop]

theorem view_modifySymbol (id : SymbolId) {f f' : Symbol → Symbol}
    (hf : ∀ {s s' : Symbol}, s.view v = s'.view v → (f s).view v = (f' s').view v) :
    (t.modifySymbol id f).view v = (t'.modifySymbol id f').view v := by
  obtain ⟨hsymbols, hrest⟩ := view_eq_iff.1 h
  refine view_eq_iff.2 ⟨?_, hrest⟩
  apply Array.ext_getElem?
  intro i
  have hi : t.symbols[i]?.map (Symbol.view v) = t'.symbols[i]?.map (Symbol.view v) := by
    simpa using congrArg (·[i]?) hsymbols
  simp only [modifySymbol, Array.getElem?_map, Array.getElem?_modify]
  split
  · cases hs : t.symbols[i]? <;> cases hs' : t'.symbols[i]? <;> rw [hs, hs'] at hi
    · rfl
    · simp at hi
    · simp at hi
    · exact congrArg some (hf (Option.some.inj hi))
  · exact hi

theorem view_markGenerated (id target : SymbolId) :
    (t.markGenerated id target).view v = (t'.markGenerated id target).view v := by
  have hmark {s s' : Symbol} (hs : s.view v = s'.view v) :
      s.markGenerated.view v = s'.markGenerated.view v :=
    Symbol.view_modifyRoutine _ hs
  have hmarked := view_modifySymbol h target hmark
  simp only [markGenerated, routine?_of_view h]
  split
  · exact view_modifySymbol hmarked id hmark
  · exact hmarked

theorem view_push (hname : v.name name = v.name name') :
    (t.push name).view v = (t'.push name').view v := by
  obtain ⟨hsymbols, hscopes, hrest⟩ := view_eq_iff.1 h
  exact view_eq_iff.2 ⟨hsymbols, by simp [push, Scope.view, hname, hscopes], hrest⟩

theorem view_close (i : SymbolId) : (t.close i).view v = (t'.close i).view v := by
  have hfull := Symbol.fullName_of_view (symbol_of_view h i)
  obtain ⟨hsymbols, hscopes, hvars, hroutines⟩ := view_eq_iff.1 h
  unfold close
  rw [cls_of_view h]
  split
  · exact view_eq_iff.2 ⟨hsymbols,
      hscopes, by rw [hvars, View.insert_of_name hfull], hroutines⟩
  · exact view_eq_iff.2 ⟨hsymbols, hscopes,
      hvars, by rw [hroutines, View.insert_of_name hfull]⟩

theorem view_foldl_close (ids : List SymbolId) :
    (ids.foldl close t).view v = (ids.foldl close t').view v := by
  induction ids generalizing t t' with
  | nil => exact h
  | cons i ids ih => exact ih (view_close h i)

end Readers

section Operations

variable (i : SymbolId) (hname : v.name name = v.name name') (cls : SymbolClass)
  {line line' : Option Nat} (hline : line.map v.line = line'.map v.line) (f : Fields)

include hname hline

theorem alike_updateExisting :
    Alike v id (updateExisting i name cls line f) (updateExisting i name' cls line' f) := by
  refine Parallel.of_get.bind fun {t t'} h => ?_
  have hs := symbol_of_view h i
  have hmerge := Symbol.view_merge hline f hs
  dsimp only
  rw [Symbol.cls_of_view hs]
  generalize (t.symbol i).merge line f = m at hmerge
  generalize (t'.symbol i).merge line' f = m' at hmerge
  obtain ⟨result, s⟩ := m
  obtain ⟨result', s'⟩ := m'
  obtain ⟨hresult, hsymbol⟩ := hmerge
  refine .ite (fun _ => .throw_bind ?_ _ _) fun _ => ?_
  · simp [Error.view, Symbol.line_of_view hs, hname, View.line_getD hline]
  · refine (Parallel.of_modify fun ht => view_modifySymbol ht i fun _ => hsymbol).bind_eq fun _ =>
      ?_
    obtain ⟨_, rfl, rfl⟩ | ⟨e, e', rfl, rfl, he⟩ := LooksAlike.ends hresult
    · exact .of_pure rfl
    · exact .of_throw he

theorem alike_insertNew (reach : Reach) :
    Alike v id (insertNew reach name cls line f) (insertNew reach name' cls line' f) := by
  refine Parallel.of_get.bind fun {t t'} h => ?_
  have hframe :
      t.frame reach = t'.frame reach := by cases reach <;> simp only [frame, length_of_view h]
  have hscope := scopePath_of_view h (t'.frame reach)
  dsimp only
  rw [hframe, size_of_view h]
  obtain ⟨kind, hk, hk'⟩ | ⟨e, e', hk, hk', he⟩ := (looksAlike_ofFields hname f cls).ends
  · rw [hk, hk']
    refine (Parallel.of_set ?_).bind_eq fun _ => .of_pure rfl
    obtain ⟨hsymbols, hscopes, hrest⟩ := view_eq_iff.1 h
    refine view_eq_iff.2 ⟨?_, ?_, hrest⟩
    · simp [hsymbols, Symbol.view, hline, hname, hscope, View.name_qualify hscope hname]
    · simp only [View.insert_of_name hname]
      exact Scope.view_modify hscopes _ (·.insert name' _)
  · rw [hk, hk']
    exact .of_throw he

theorem alike_declare (reach : Reach) :
    Alike v id (declare reach name cls line f) (declare reach name' cls line' f) := by
  refine Parallel.of_get.bind fun {t t'} h => ?_
  have hempty : t.scopes.isEmpty = t'.scopes.isEmpty := by
    simpa using congrArg List.isEmpty (scopes_of_view h)
  dsimp only
  rw [hempty, (sameShape_of_view h).declared (View.toUpper_of_name hname)]
  refine .ite (fun _ => .throw_bind (by simp [Error.view, Defect.view, hname]) _ _) fun _ => ?_
  cases t'.declared reach name' with
  | some j => exact alike_updateExisting j hname cls hline f
  | none => exact alike_insertNew hname cls hline f reach

end Operations

theorem alike_setValue (i : SymbolId) (value : Value) :
    Alike v id (setValue i value) (setValue i value) := by
  refine Parallel.of_get.bind fun {t t'} h => ?_
  have hs := symbol_of_view h i
  dsimp only
  rw [Symbol.cls_of_view hs]
  refine .ite (fun _ => .throw_bind (by simp [Error.view, Defect.view, Symbol.name_of_view hs]) _ _)
    fun _ => ?_
  exact .of_modify fun ht => view_modifySymbol ht i (Symbol.view_setValue value)

theorem alike_setCode (i : SymbolId) (d : Definition) : Alike v id (setCode i d) (setCode i d) := by
  refine Parallel.of_get.bind fun {t t'} h => ?_
  have hs := symbol_of_view h i
  dsimp only
  rw [Symbol.cls_of_view hs]
  refine .ite (fun _ => .throw_bind (by simp [Error.view, Defect.view, Symbol.name_of_view hs]) _ _)
    fun _ => ?_
  exact .of_modify fun ht => view_modifySymbol ht i (Symbol.view_modifyRoutine _)

theorem view_use (i : SymbolId) (h : t.view v = t'.view v) :
    (t.modifySymbol i Symbol.use).view v = (t'.modifySymbol i Symbol.use).view v :=
  view_modifySymbol h i Symbol.view_use

theorem alike_countUse (i : SymbolId) : Alike v id (countUse i) (countUse i) :=
  parallel_countUse sameShape_of_view view_use (fun _ => rfl) i

theorem alike_countUsage (hname : v.name name = v.name name') (cls : Option SymbolClass) :
    Alike v id (countUsage name cls) (countUsage name' cls) :=
  parallel_countUsage sameShape_of_view view_use (View.toUpper_of_name hname) (fun _ => rfl)
    (by simp [Error.view, Defect.view, hname]) cls

theorem alike_pop : Alike v (Scope.view v) pop pop := by
  refine Parallel.of_get.bind fun {t t'} h => ?_
  have hscopes := scopes_of_view h
  cases hs : t.scopes <;> cases hs' : t'.scopes <;> rw [hs, hs'] at hscopes
  · exact .of_throw rfl
  · simp at hscopes
  · simp at hscopes
  · rename_i scope scopes scope' scopes'
    obtain ⟨hscope, hrest⟩ := List.cons.inj hscopes
    have hnames : scope.names = scope'.names := by
      simpa [Scope.view] using congrArg Scope.names hscope
    refine (Parallel.of_modify fun {t t'} ht => ?_).bind_eq fun _ => .of_pure hscope
    obtain ⟨hsymbols, -, hclosed⟩ := view_eq_iff.1 ht
    have hrest : ({ t with scopes } : Table).view v =
        ({ t' with scopes := scopes' } : Table).view v :=
      view_eq_iff.2 ⟨hsymbols, hrest, hclosed⟩
    rw [hnames]
    exact view_foldl_close hrest _

end Table

end TurtleCompiler
