import TurtleCompiler.Lowering.Program
import TurtleCompiler.Proofs.Folding
import TurtleCompiler.Proofs.Naming

/-!
What a lowering fails with: errors in what the source means, on the line that the action was given
or on none.
-/

namespace TurtleCompiler

def Error.IsSemantic : Error → Prop
  | .illegalCharacter .. | .reservedIdentifier .. | .unparsed .. => False
  | .invalidNumber .. | .redeclaration .. | .link _ | .type .. | .defect _ => True

def Error.line? : Error → Option Nat
  | .illegalCharacter line _ | .reservedIdentifier line _ | .invalidNumber line _ | .unparsed line _
  | .redeclaration line _ _ | .type line _ => some line
  | .link _ | .defect _ => none

def Error.Points (p : Nat → Prop) (e : Error) : Prop := ∀ line ∈ e.line?, p line

structure Error.Concerns (p : Nat → Prop) (e : Error) : Prop where
  semantic : e.IsSemantic
  points : e.Points p

namespace Error

variable {p : Nat → Prop} {line : Nat} {e : Error}

theorem points_of_line? (h : e.line? = none) : e.Points p := by simp [Points, h]

theorem concerns_of_line? (h : e.line? = none) : e.Concerns p := by
  refine ⟨?_, points_of_line? h⟩
  cases e <;> trivial

theorem IsTypeAt.concerns (h : e.IsTypeAt line) (hline : p line) : e.Concerns p := by
  obtain ⟨fault, rfl⟩ := h
  exact ⟨trivial, by simpa [Points, line?] using hline⟩

end Error

def Blames (q : Error → Prop) (x : EStateM Error σ α) : Prop :=
  ∀ ⦃s e s'⦄, x s = .error e s' → q e

variable {e : Error}

namespace Blames

variable {σ α β : Type} {q q' : Error → Prop} {x : EStateM Error σ α}
  {f : α → EStateM Error σ β} {as : List α}

theorem mono (h : Blames q x) (hq : ∀ e, q e → q' e) :
    Blames q' x := fun _ e _ he => hq e (h he)

theorem of_pure {a : α} : Blames q (pure a : EStateM Error σ α) :=
  fun _ _ _ h => absurd h pure_ne_error

theorem of_throw (h : q e) : Blames q (throw e : EStateM Error σ α) := by
  intro s e' s' he
  obtain ⟨rfl, -⟩ := throw_eq_error.1 he
  exact h

theorem of_get : Blames q (get : EStateM Error σ σ) := fun _ _ _ h => absurd h get_ne_error

theorem of_modify {f : σ → σ} :
    Blames q (modify f : EStateM Error σ PUnit) := fun _ _ _ h => absurd h modify_ne_error

theorem bind (hx : Blames q x) (hf : ∀ a, Blames q (f a)) : Blames q (x >>= f) := by
  intro s e s' h
  rcases bind_eq_error.1 h with h | ⟨a, s₁, -, h⟩
  · exact hx h
  · exact hf a h

theorem throw_bind (h : q e) : Blames q (throw e >>= f) := by
  intro s e' s' he
  rcases bind_eq_error.1 he with he | ⟨a, s₁, he, -⟩
  · exact of_throw h he
  · exact absurd he throw_ne_ok

theorem map {f : α → β} (hx : Blames q x) : Blames q (f <$> x) := by
  intro s e s' h
  simp only [Functor.map, EStateM.map] at h
  cases hs : x s with
  | ok a s₁ => simp [hs] at h
  | error e₁ s₁ =>
    obtain ⟨rfl, rfl⟩ : e₁ = e ∧ s₁ = s' := by simpa [hs] using h
    exact hx hs

theorem adaptExcept {g : Error → Error} (hx : Blames (fun e => q (g e)) x) :
    Blames q (EStateM.adaptExcept g x) := by
  intro s e s' h
  simp only [EStateM.adaptExcept] at h
  cases hs : x s with
  | ok a s₁ => simp [hs] at h
  | error e₁ s₁ =>
    obtain ⟨rfl, rfl⟩ : g e₁ = e ∧ s₁ = s' := by simpa [hs] using h
    exact hx hs

theorem mapM (h : ∀ a ∈ as, Blames q (f a)) : Blames q (as.mapM f) := by
  induction as with
  | nil => exact of_pure
  | cons a as ih =>
    rw [List.forall_mem_cons] at h
    rw [List.mapM_cons]
    exact h.1.bind fun _ => (ih h.2).bind fun _ => of_pure

theorem forM {f : α → EStateM Error σ PUnit} (h : ∀ a ∈ as, Blames q (f a)) :
    Blames q (as.forM f) := by
  induction as with
  | nil => exact of_pure
  | cons a as ih =>
    rw [List.forall_mem_cons] at h
    exact h.1.bind fun _ => ih h.2

theorem ofTable {x : TableM α} (h : Blames q x) : Blames q (liftM x : LowerM α) := by
  intro s e s' he
  exact h (ofTable_eq_error he)

end Blames

theorem Kind.ofFields_eq_error {name : String} {f : Fields} {cls : SymbolClass}
    (h : Kind.ofFields name f cls = .error e) : e.line? = none := by
  cases cls <;> simp only [Kind.ofFields] at h <;> split at h <;> cases h <;> rfl

theorem Symbol.merge_eq_error {s : Symbol} {line : Option Nat} {f : Fields}
    (h : (s.merge line f).1 = .error e) : e.line? = none := by
  obtain ⟨name, line', usage, scope, fullName, v | r⟩ := s <;> simp only [merge] at h <;>
    split at h <;> cases h <;> rfl

namespace Table

variable {t t' : Table} {p : Nat → Prop} {name : String} {cls : SymbolClass} {reach : Reach}
  {line : Option Nat}

theorem declared_of_isEmpty (h : t.scopes.isEmpty) (reach : Reach) (name : String) :
    t.declared reach name = none := by
  obtain ⟨symbols, _ | ⟨scope, scopes⟩, vars, routines⟩ := t
  · cases reach <;> rfl
  · simp at h

theorem declare_cases_of_error {f : Fields} (h : declare reach name cls line f t = .error e t') :
    (∃ id ∈ t.declared reach name, (t.symbol id).cls = cls ∧
        ((t.symbol id).merge line f).1 = .error e ∧
        t' = t.modifySymbol id fun _ => ((t.symbol id).merge line f).2) ∨
      t' = t ∧
        (t.declared reach name = none ∧ e.line? = none ∨
          ∃ id ∈ t.declared reach name, (t.symbol id).cls ≠ cls ∧
        e = .redeclaration (line.getD 0) name (t.symbol id).line) := by
  simp only [declare, get_bind] at h
  split at h
  · cases h
    exact .inr ⟨rfl, .inl ⟨declared_of_isEmpty ‹_› .., rfl⟩⟩
  cases hid : t.declared reach name with
  | none =>
    simp only [hid, insertNew, get_bind] at h
    cases hkind : Kind.ofFields name f cls <;> rw [hkind] at h <;> cases h
    exact .inr ⟨rfl, .inl ⟨rfl, Kind.ofFields_eq_error hkind⟩⟩
  | some id =>
    simp only [hid, updateExisting, get_bind] at h
    split at h
    · rename_i hcls
      cases h
      exact .inr ⟨rfl, .inr ⟨id, rfl, hcls, rfl⟩⟩
    · rename_i hcls
      simp only [bind_eq_error, modify_ne_error, false_or, modify_eq_ok] at h
      obtain ⟨_, _, rfl, h⟩ := h
      cases hmerge : ((t.symbol id).merge line f).1 <;> rw [hmerge] at h <;> cases h
      exact .inl ⟨id, rfl, not_not.1 hcls, hmerge, rfl⟩

theorem declare_eq_error {f : Fields} (h : declare reach name cls line f t = .error e t') :
    e.line? = none ∨ ∃ id ∈ t.declared reach name, (t.symbol id).cls ≠ cls ∧
      e = .redeclaration (line.getD 0) name (t.symbol id).line := by
  rcases declare_cases_of_error h with ⟨id, -, -, hmerge, -⟩ | ⟨-, ⟨-, h⟩ | h⟩
  · exact .inl (Symbol.merge_eq_error hmerge)
  · exact .inl h
  · exact .inr h

theorem blames_declare (hline : p (line.getD 0)) (reach : Reach) (f : Fields) :
    Blames (Error.Concerns p) (declare reach name cls line f) := by
  intro t e t' h
  rcases declare_eq_error h with h | ⟨id, -, -, rfl⟩
  · exact Error.concerns_of_line? h
  · exact ⟨trivial, by simpa [Error.Points, Error.line?] using hline⟩

theorem blames_countUsesOf (n : Nat) (id : SymbolId) :
    Blames (·.line? = none) (countUsesOf n id) := by
  induction n generalizing id with
  | zero => exact .of_pure
  | succ n ih =>
    refine Blames.of_modify.bind fun _ => Blames.of_get.bind fun _ => ?_
    split
    · exact .forM fun id _ => ih id
    · split
      · exact .of_throw rfl
      · exact Blames.of_modify.bind fun _ => .forM fun id _ => ih id

theorem blames_countUse (id : SymbolId) : Blames (·.line? = none) (countUse id) :=
  Blames.of_get.bind fun _ => blames_countUsesOf _ id

theorem blames_countUsage (cls : Option SymbolClass) :
    Blames (·.line? = none) (countUsage name cls) := by
  refine Blames.of_get.bind fun _ => ?_
  split
  · exact .of_throw rfl
  · exact (blames_countUse _).bind fun _ => .of_pure

theorem blames_setValue (id : SymbolId) (v : Value) : Blames (·.line? = none) (setValue id v) := by
  refine Blames.of_get.bind fun _ => ?_
  dsimp only
  split
  · exact .throw_bind rfl
  · exact .of_modify

theorem blames_setCode (id : SymbolId) (d : Definition) :
    Blames (·.line? = none) (setCode id d) := by
  refine Blames.of_get.bind fun _ => ?_
  dsimp only
  split
  · exact .throw_bind rfl
  · exact .of_modify

end Table

namespace Lowering

variable {p : Nat → Prop} {name : String} {line : Nat}

theorem concerns_fold (hline : p line) {op : ArithOp} {x y : Value}
    (h : fold line op x y = .error e) : e.Concerns p := by
  have hnumber {r : Except Error Value} (hr : IsNumber line r) (h : r = .error e) :
      e.Concerns p := by
    rw [h] at hr
    exact hr.concerns hline
  unfold fold at h
  split at h
  · exact hnumber (isNumber_foldInt ..) h
  · split at h
    · exact hnumber (isNumber_foldFloat ..) h
    · cases h
      exact Error.concerns_of_line? rfl

structure Admits (p : Nat → Prop) (P : (α : Type) → LowerM α → Prop) : Prop where
  of_pure {α : Type} (a : α) : P α (pure a)
  of_throw {α : Type} {e : Error} (he : e.Concerns p) : P α (throw e)
  of_get : P Lowering get
  bind {α β : Type} {x : LowerM α} {f : α → LowerM β} (hx : P α x)
    (hf : ∀ a, P β (f a)) : P β (x >>= f)
  newLabel : P Label newLabel
  declare (name : String) {line : Nat} (hline : p line) :
    P SymbolId (Table.declare .anywhere name .var (some line) {})
  declareAt (name : String) {line : Nat} (hline : p line) {reach : Reach}
    (hreach : reach ≠ .innermost) (cls : SymbolClass) :
    P SymbolId
    (EStateM.adaptExcept (Error.atLine line)
      (Table.declare reach name cls none {} : LowerM SymbolId))
  countUsage (name : String) (cls : Option SymbolClass) :
    P SymbolId (Table.countUsage name cls : LowerM SymbolId)

section Admits

variable {P : (α : Type) → LowerM α → Prop} (h : Admits p P) {α : Type} {x : Except Error α}

include h

theorem Admits.map {β : Type} {x : LowerM α} (hx : P α x) (f : α → β) : P β (f <$> x) := by
  rw [map_eq_pure_bind]
  exact h.bind hx fun _ => h.of_pure _

theorem Admits.ofExcept (hx : ∀ e, x = .error e → e.Concerns p) : P α (LowerM.ofExcept x) := by
  cases x with
  | ok a => exact h.of_pure a
  | error e => exact h.of_throw (hx e rfl)

theorem Admits.callTo (args : List Arg) : P Expr (Lowering.callTo name args) := by
  refine h.bind h.of_get fun s => h.ofExcept fun e he => Error.concerns_of_line? ?_
  unfold Expr.callTo at he
  split at he <;> cases he
  rfl

theorem Admits.random : P Expr random := h.bind (h.countUsage ..) fun _ => h.callTo _

theorem Admits.print (args : List Expr) : P Node (Lowering.print args) :=
  h.bind (h.countUsage ..) fun _ => h.map (h.callTo _) _

variable (hline : p line)

include hline

theorem Admits.ofCheck (hx : ∀ e, x = .error e → e.IsTypeAt line) : P α (LowerM.ofExcept x) :=
  h.ofExcept fun e he => (hx e he).concerns hline

theorem Admits.number (text : String) : P Expr (Lowering.number text line) := by
  unfold Lowering.number
  dsimp only
  split
  · exact h.of_pure _
  · exact h.of_throw ⟨trivial, by simpa [Error.Points, Error.line?] using hline⟩

theorem Admits.reference : P Expr (Lowering.reference name line) :=
  h.bind (h.declareAt name hline (by simp) _) fun _ => h.bind (h.countUsage ..) fun _ =>
  h.bind h.of_get fun _ => h.of_pure _

theorem Admits.ofArithmetic (op : ArithOp) (l r : Expr) :
    P Expr (LowerM.ofExcept (Expr.arithmetic op l r line)) := by
  refine h.ofExcept fun e he => ?_
  rcases Expr.arithmetic_eq_error he with he | ⟨-, -, x, -, y, -, he⟩
  · exact he.concerns hline
  · exact concerns_fold hline he

theorem Admits.arithmetic (op : String) (l r : Expr) :
    P Expr (Lowering.arithmetic op l r line) := by
  unfold Lowering.arithmetic
  split
  · exact h.ofArithmetic hline _ l r
  · exact h.of_throw (Error.concerns_of_line? rfl)

theorem Admits.positive (e : Expr) : P Expr (Lowering.positive e line) :=
  h.bind (h.ofCheck hline fun _ => Expr.isTypeAt_checkNumeric) fun _ => h.of_pure _

theorem Admits.comparison (op : String) (l r : Expr) :
    P Expr (Lowering.comparison op l r line) := by
  unfold Lowering.comparison
  split
  · exact h.map (h.ofCheck hline fun _ => Cond.isTypeAt_comparison) _
  · exact h.of_throw (Error.concerns_of_line? rfl)

theorem Admits.combination (op : String) (l r : Expr) :
    P Expr (Lowering.combination op l r line) := by
  unfold Lowering.combination
  split
  · exact h.bind h.newLabel fun _ => h.map (h.ofCheck hline fun _ => Cond.isTypeAt_combination) _
  · exact h.of_throw (Error.concerns_of_line? rfl)

theorem Admits.negation (e : Expr) : P Expr (Lowering.negation e line) :=
  h.map (h.ofCheck hline fun _ => Cond.isTypeAt_negation) _

theorem Admits.assignedType (compound : Option ArithOp) (rhs : DataType) :
    P DataType (Lowering.assignedType name compound rhs line) := by
  unfold Lowering.assignedType
  dsimp only
  split
  · exact h.of_pure _
  · exact h.bind h.of_get fun _ =>
        h.bind (h.ofCheck hline fun _ => Expr.isTypeAt_checkNumeric) fun _ =>
      h.bind (h.ofCheck hline fun _ => Expr.isTypeAt_checkNumeric) fun _ => h.of_pure _

theorem Admits.assignment
    (hdeclare : ∀ type,
      P SymbolId (Table.declare .anywhere name .var (some line) { type := some type }))
    (hset : ∀ id v, P Unit (Table.setValue id v : LowerM Unit)) (op : String) (rhs : Expr) :
    P Node (Lowering.assignment name op rhs line) := by
  unfold Lowering.assignment
  extract_lets compound
  split
  · exact h.of_throw (Error.concerns_of_line? rfl)
  refine h.bind (h.assignedType hline _ _) fun type => h.bind (hdeclare type) fun id =>
    h.bind h.of_get fun _ => ?_
  split
  · split <;> exact h.bind (hset ..) fun _ => h.of_pure _
  · exact h.of_pure _

theorem Admits.call (args : List Expr) : P Node (Lowering.call name args line) :=
  h.bind (h.declareAt name hline (by simp) _) fun _ => h.bind (h.countUsage ..) fun _ =>
  h.map (h.callTo _) _

theorem Admits.typein : P Node (Lowering.typein name line) :=
  h.bind (h.countUsage ..) fun _ => h.bind (h.declare name hline) fun _ =>
    h.bind (h.countUsage ..) fun _ => h.bind h.of_get fun _ => h.map (h.callTo _) _

theorem Admits.ifStatement (cond : Expr) (yes : List Node) (no : Option (List Node)) :
    P Node (Lowering.ifStatement cond yes no line) := by
  refine h.bind (h.ofCheck hline fun _ => Cond.isTypeAt_ofExpr) fun _ =>
    h.bind h.newLabel fun _ => ?_
  split
  · exact h.of_pure _
  · exact h.bind h.newLabel fun _ => h.of_pure _

theorem Admits.whileStatement (cond : Expr) (body : List Node) :
    P Node (Lowering.whileStatement cond body line) :=
  h.bind (h.ofCheck hline fun _ => Cond.isTypeAt_ofExpr) fun _ => h.bind h.newLabel fun _ =>
    h.bind h.newLabel fun _ => h.of_pure _

theorem Admits.beginProcedure {params : List String}
    (hopen : P SymbolId (openProcedure name line params)) :
    P SymbolId (Lowering.beginProcedure name line params) := by
  refine h.bind h.of_get fun _ => ?_
  dsimp only
  split
  · split
    · exact h.of_throw ⟨trivial, by simpa [Error.Points, Error.line?] using hline⟩
    · exact hopen
  · exact hopen

end Admits

theorem blames_lineless {α : Type} {x : TableM α} (h : Blames (·.line? = none) x) :
    Blames (Error.Concerns p) (liftM x : LowerM α) :=
  (Blames.ofTable h).mono fun _ => Error.concerns_of_line?

theorem blames_declare_atLine (hline : p line) (reach : Reach) (cls : SymbolClass) (f : Fields) :
    Blames (Error.Concerns p)
      (EStateM.adaptExcept (Error.atLine line)
        (Table.declare reach name cls none f : LowerM SymbolId)) := by
  refine .adaptExcept (.ofTable fun t e t' h => ?_)
  rcases Table.declare_eq_error h with h | ⟨id, -, -, rfl⟩
  · cases e with
    | link | defect => exact Error.concerns_of_line? rfl
    | _ => simp [Error.line?] at h
  · exact ⟨trivial, by simpa [Error.Points, Error.line?, Error.atLine] using hline⟩

theorem admits_blames : Admits p fun _ => Blames (Error.Concerns p) where
  of_pure _ := .of_pure
  of_throw := .of_throw
  of_get := .of_get
  bind := .bind
  newLabel _ _ _ h := by cases h
  declare _ _ hline := .ofTable (Table.blames_declare hline _ _)
  declareAt _ _ hline _ _ cls := blames_declare_atLine hline _ cls _
  countUsage _ cls := blames_lineless (Table.blames_countUsage cls)

theorem blames_assignment (hline : p line) (op : String) (rhs : Expr) :
    Blames (Error.Concerns p) (assignment name op rhs line) :=
  admits_blames.assignment hline (fun _ => .ofTable (Table.blames_declare hline _ _))
    (fun id v => blames_lineless (Table.blames_setValue id v)) op rhs

theorem blames_closeScope : Blames (Error.Concerns p)
    (liftM Workspace.closeScope : LowerM Scope) := by
  rintro ⟨⟨⟨symbols, _ | ⟨scope, scopes⟩, vars, routines⟩, log⟩, labels, entry,
    mainBody, openRoutine⟩ e s' h
  · cases h
    exact Error.concerns_of_line? rfl
  · cases h

theorem blames_endProcedure (id : SymbolId) (body : List Node) :
    Blames (Error.Concerns p) (endProcedure id body) :=
  (blames_lineless (Table.blames_setCode id _)).bind fun _ =>
  blames_closeScope.bind fun _ => .of_modify

theorem blames_openProcedure (hline : p line) (hzero : p 0) (params : List String) :
    Blames (Error.Concerns p) (openProcedure name line params) := by
  have hend (ids : List SymbolId) (id : SymbolId) : 
      Blames (Error.Concerns p) (enterBody name id ids) :=
    (Blames.ofTable (Table.blames_declare hzero _ _)).bind fun _ =>
    Blames.of_modify.bind fun _ => .of_pure
  refine (Blames.ofTable (Table.blames_declare hline _ _)).bind fun _ =>
    Blames.bind (fun _ _ _ h => by cases h) fun _ => ?_
  refine (Blames.mapM fun _ _ => .ofTable (Table.blames_declare hline _ _)).bind fun ids =>
    Blames.of_get.bind fun _ => ?_
  dsimp only
  split
  · exact (Blames.forM fun id _ => blames_lineless (Table.blames_countUse id)).bind fun _ =>
      hend ids _
  · exact hend ids _

theorem blames_beginProcedure (hline : p line) (hzero : p 0) (params : List String) :
    Blames (Error.Concerns p) (beginProcedure name line params) :=
  admits_blames.beginProcedure hline (blames_openProcedure hline hzero params)

theorem blames_finish : Blames (Error.Concerns p) finish := by
  refine Blames.of_get.bind fun t => ?_
  dsimp only
  split
  · exact .throw_bind (Error.concerns_of_line? rfl)
  · exact (blames_lineless (Table.blames_setCode _ _)).bind fun _ =>
      blames_closeScope.bind fun _ => .of_pure

end Lowering

namespace Source

open Lowering

variable {p : Nat → Prop}

theorem OnLine.line {line : Nat} (h : OnLine (fun t => p t.line) line) : p line := by
  obtain ⟨t, ht, rfl⟩ := h
  exact ht

theorem Written.line {lexemes : List Lexeme} {text : String} {line : Nat}
    (h : Written (fun t => p t.line) lexemes text line) : p line := h.onLine.line

theorem blames_enter (notes : List Event) :
    Blames (Error.Concerns p) (Lowering.enter notes) := .of_modify

theorem Expr.blames_lower {e : Expr} (h : e.ComesFrom fun t => p t.line) :
    Blames (Error.Concerns p) e.lower := by
  induction e with
  | number text site => exact (blames_enter _).bind fun _ => admits_blames.number h.line text
  | string text => exact .of_pure
  | boolean text => exact .of_pure
  | var name site => exact (blames_enter _).bind fun _ => admits_blames.reference h.1.line
  | random => exact admits_blames.random
  | plus e site ih =>
    exact (ih h.2).bind fun _ => (blames_enter _).bind fun _ => admits_blames.positive h.1.line _
  | minus e site ih =>
    exact (ih h.2).bind fun _ => (blames_enter _).bind fun _ =>
      admits_blames.ofArithmetic h.1.line _ _ _
  | not e site ih =>
    exact (ih h.2).bind fun _ => (blames_enter _).bind fun _ => admits_blames.negation h.1.line _
  | arith op l r site ihl ihr =>
    exact (ihl h.2.1).bind fun _ => (ihr h.2.2).bind fun _ => (blames_enter _).bind fun _ =>
      admits_blames.arithmetic h.1.line op _ _
  | compare op l r site ihl ihr =>
    exact (ihl h.2.1).bind fun _ => (ihr h.2.2).bind fun _ => (blames_enter _).bind fun _ =>
      admits_blames.comparison h.1.line op _ _
  | logic op l r site ihl ihr =>
    exact (ihl h.2.1).bind fun _ => (ihr h.2.2).bind fun _ => (blames_enter _).bind fun _ =>
      admits_blames.combination h.1.line op _ _

mutual

theorem Stmt.blames_lower : (s : Stmt) → (s.ComesFrom fun t => p t.line) →
    Blames (Error.Concerns p) s.lower
  | .expr _, h => (Expr.blames_lower h).map
  | .assign _ op _ _, h => (Expr.blames_lower h.2.2).bind fun _ => (blames_enter _).bind fun _ =>
      blames_assignment h.2.1.line op _
  | .call .., h => (Blames.mapM fun e he => Expr.blames_lower (h.2 e he)).bind fun _ =>
    (blames_enter _).bind fun _ =>
      admits_blames.call h.1.line _
  | .print .., h => (Expr.blames_lower h.2.1).bind fun _ =>
      (Blames.mapM fun e he => Expr.blames_lower (h.2.2 e he)).bind fun _ =>
        (blames_enter _).bind fun _ => admits_blames.print _
  | .typein .., h => (blames_enter _).bind fun _ => admits_blames.typein (Written.line h)
  | .ifThen _ yes _, h => (Expr.blames_lower h.2.1).bind fun _ =>
    (blames_lowerAll yes h.2.2).bind fun _ =>
      (blames_enter _).bind fun _ => admits_blames.ifStatement h.1.line _ _ _
  | .ifElse _ yes no _, h => (Expr.blames_lower h.2.1).bind fun _ =>
    (blames_lowerAll yes h.2.2.1).bind fun _ =>
      (blames_lowerAll no h.2.2.2).bind fun _ => (blames_enter _).bind fun _ =>
      admits_blames.ifStatement h.1.line _ _ _
  | .whileDo _ body _, h => (Expr.blames_lower h.2.1).bind fun _ =>
    (blames_lowerAll body h.2.2).bind fun _ =>
      (blames_enter _).bind fun _ => admits_blames.whileStatement h.1.line _ _

theorem blames_lowerAll : (ss : List Stmt) → AllComeFrom (fun t => p t.line) ss →
    Blames (Error.Concerns p) (lowerAll ss)
  | [], _ => .of_pure
  | s :: ss, h => (s.blames_lower h.1).bind fun _ => (blames_lowerAll ss h.2).bind fun _ => .of_pure

end

section Semantic

theorem onLine_any (line : Nat) :
    OnLine (fun _ => True) line := ⟨⟨.number, "", line⟩, trivial, rfl⟩

theorem written_any {lexeme : Lexeme} {lexemes : List Lexeme} (text : String) (line : Nat) :
    Written (fun _ => True) (lexeme :: lexemes) text line :=
    ⟨⟨lexeme, text, line⟩, trivial, by simp, rfl, rfl⟩

theorem Expr.comesFrom_any (e : Expr) : e.ComesFrom fun _ => True := by
  induction e with
  | boolean | random => trivial
  | string text => exact ⟨0, written_any _ _⟩
  | number _ site => exact onLine_any _
  | var name site =>
    exact ⟨onLine_any _, ⟨.colonIdentifier, ":" ++ name, 0⟩, trivial,
      rfl, by simp [variableName]⟩
  | plus e site ih | minus e site ih | not e site ih => exact ⟨onLine_any _, ih⟩
  | arith op l r site ihl ihr | compare op l r site ihl ihr | logic op l r site ihl ihr =>
    exact ⟨written_any _ _, ihl, ihr⟩

mutual

theorem Stmt.comesFrom_any : (s : Stmt) → s.ComesFrom fun _ => True
  | .expr e => e.comesFrom_any
  | .assign .. => ⟨⟨0, written_any _ _⟩, written_any _ _, Expr.comesFrom_any _⟩
  | .call .. => ⟨written_any _ _, fun e _ => e.comesFrom_any⟩
  | .print .. => ⟨onLine_any _, Expr.comesFrom_any _, fun e _ => e.comesFrom_any⟩
  | .typein .. => written_any _ _
  | .ifThen _ yes _ => ⟨onLine_any _, Expr.comesFrom_any _, allComeFrom_any yes⟩
  | .ifElse _ yes no _ =>
    ⟨onLine_any _, Expr.comesFrom_any _, allComeFrom_any yes, allComeFrom_any no⟩
  | .whileDo _ body _ => ⟨onLine_any _, Expr.comesFrom_any _, allComeFrom_any body⟩

theorem allComeFrom_any : (ss : List Stmt) → AllComeFrom (fun _ => True) ss
  | [] => trivial
  | s :: ss => ⟨s.comesFrom_any, allComeFrom_any ss⟩

end

theorem semantic_of_any {x : LowerM α} (h : Blames (Error.Concerns fun _ => True) x) :
    Blames Error.IsSemantic x :=
  h.mono fun _ he => he.semantic

theorem Header.semantic_lower (h : Header) : Blames Error.IsSemantic h.lower :=
  semantic_of_any ((blames_enter _).bind fun _ => blames_beginProcedure trivial trivial _)

theorem Phrase.semantic_lower (phrase : Phrase) : Blames Error.IsSemantic phrase.lower := by
  cases phrase with
  | expr e => exact (semantic_of_any (Expr.blames_lower e.comesFrom_any)).map
  | stmt s => exact (semantic_of_any (s.blames_lower s.comesFrom_any)).map
  | header h => exact h.semantic_lower.map

theorem Item.semantic_lower {i : Item} (hi : i.isComplete) : Blames Error.IsSemantic i.lower := by
  cases i with
  | statement s =>
    exact (semantic_of_any (s.blames_lower s.comesFrom_any)).bind fun _ =>
      Blames.of_modify.bind fun _ => .of_pure
  | definition header body site =>
    refine header.semantic_lower.bind fun _ =>
      (semantic_of_any (blames_lowerAll body (allComeFrom_any body))).bind fun _ => ?_
    refine Blames.of_modify.bind fun _ => ?_
    exact (semantic_of_any (blames_endProcedure _ _)).bind fun _ => .of_pure
  | broken => simp [Item.isComplete] at hi

theorem semantic_grammatical (done : List Phrase) (fault : SyntaxFault) (site : Site) :
    Blames Error.IsSemantic (Item.broken done (.grammatical fault site)).lower := by
  refine (Blames.forM fun phrase _ => phrase.semantic_lower).bind fun _ =>
    Blames.of_modify.bind fun _ => ?_
  exact Blames.bind (fun _ _ _ h => by cases h) fun _ => .of_pure

end Semantic

end Source

end TurtleCompiler
