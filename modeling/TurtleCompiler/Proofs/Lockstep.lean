import Mathlib.Data.Option.Basic
import TurtleCompiler.Proofs.Footprint
import TurtleCompiler.Proofs.Twins

/-!
One tree lowered in two states. The states may differ in their labels and in what is lowered by
then, but not in what is checked.
-/

namespace TurtleCompiler

inductive SameVerdict (q : α → α' → Prop) : Except Error α → Except Error α' → Prop
  | ok {a : α} {a' : α'} : q a a' → SameVerdict q (.ok a) (.ok a')
  | error {e e' : Error} : SameVerdict q (.error e) (.error e')

theorem SameVerdict.same (x : Except Error α) : SameVerdict Eq x x := by
  cases x with
  | error e => exact .error
  | ok a => exact .ok rfl

theorem SameVerdict.bind_eq {r : β → β' → Prop} (x : Except Error α)
    {k : α → Except Error β} {k' : α → Except Error β'}
    (hk : ∀ a, SameVerdict r (k a) (k' a)) : SameVerdict r (x >>= k) (x >>= k') := by
  cases x with
  | error e => exact .error
  | ok a => exact hk a

theorem SameVerdict.bind {q : α → α' → Prop} {r : β → β' → Prop} {x : Except Error α}
    {x' : Except Error α'} {k : α → Except Error β} {k' : α' → Except Error β'}
    (h : SameVerdict q x x') (hk : ∀ {a a'}, q a a' → SameVerdict r (k a) (k' a')) :
    SameVerdict r (x >>= k) (x' >>= k') := by
  cases h with
  | error => exact .error
  | ok h => exact hk h

def Cond.Like (c c' : Cond) : Prop := c.value? = c'.value?

inductive Expr.Like : Expr → Expr → Prop
  | refl (e : Expr) : Like e e
  | arith {op : ArithOp} {l l' r r' : Expr} {type : DataType} {value : Option Value} :
      Like (.arith op l r type value) (.arith op l' r' type value)
  | call {callee : SymbolId} {args args' : List Arg} {type : Option DataType} :
      Like (.call callee args type) (.call callee args' type)
  | cond {c c' : Cond} : c.Like c' → Like (.cond c) (.cond c')

section Checks

variable {l l' r r' e e' : Expr} {line : Nat}

theorem Expr.Like.dataType (h : e.Like e') : e.dataType = e'.dataType := by cases h <;> rfl

theorem Expr.Like.value? (h : e.Like e') : e.value? = e'.value? := by
  cases h with
  | refl | arith | call => simp only [Expr.value?]
  | cond h => simp only [Expr.value?, show _ = _ from h]

theorem sameVerdict_arithmetic (hl : l.Like l') (hr : r.Like r') (op : ArithOp) (line : Nat) :
    SameVerdict Expr.Like (Expr.arithmetic op l r line) (Expr.arithmetic op l' r' line) := by
  simp only [Expr.arithmetic, hl.dataType, hr.dataType, hl.value?, hr.value?]
  refine .bind_eq _ fun _ => .bind_eq _ fun _ => ?_
  split <;> exact .bind_eq _ fun _ => .ok Expr.Like.arith

theorem sameVerdict_comparison (hl : l.Like l') (hr : r.Like r') (op : RelOp) (line : Nat) :
    SameVerdict Cond.Like (Cond.comparison op l r line) (Cond.comparison op l' r' line) := by
  have hlike : (Cond.compare op l r).Like (.compare op l' r') := by
    simp only [Cond.Like, Cond.value?, hl.value?, hr.value?]
  simp only [Cond.comparison, hl.dataType, hr.dataType]
  refine .bind_eq _ fun _ => .bind_eq _ fun _ => ?_
  split
  · split
    · exact .error
    · split
      · exact .error
      · exact .ok hlike
  · exact .ok hlike

theorem sameVerdict_ofExpr (h : e.Like e') (line : Nat) :
    SameVerdict Cond.Like (Cond.ofExpr line e) (Cond.ofExpr line e') := by
  cases h with
  | refl =>
    cases hc : Cond.ofExpr line e with
    | error => exact .error
    | ok c => exact .ok rfl
  | arith | call => exact .error
  | cond h => exact .ok h

theorem sameVerdict_negation (h : e.Like e') (line : Nat) :
    SameVerdict Cond.Like (Cond.negation e line) (Cond.negation e' line) :=
  (sameVerdict_ofExpr h line).bind fun {c c'} hc =>
  .ok (by simp only [Cond.Like, Cond.value?, show _ = _ from hc])

theorem sameVerdict_combination (hl : l.Like l') (hr : r.Like r') (op : LogicOp)
    (skip skip' : Label) (line : Nat) : SameVerdict Cond.Like (Cond.combination op l r skip line)
    (Cond.combination op l' r' skip' line) :=
  (sameVerdict_ofExpr hl line).bind fun {c c'} hc =>
    (sameVerdict_ofExpr hr line).bind fun {d d'} hd =>
    .ok
    (by simp only [Cond.Like, Cond.value?, show c.value? = _ from hc, show d.value? = _ from hd])

end Checks

def Workspace.beside (Q : Table → Table → Prop) : Pairing Workspace where
  state w w' := Q w.table w'.table

def Lowering.beside (Q : Table → Table → Prop) : Pairing Lowering where
  state s s' := Q s.table s'.table ∧ s.entry = s'.entry ∧ s.openRoutine = s'.openRoutine

abbrev anything (_ : α) (_ : α') : Prop := True

namespace Workspace

variable {Q : Table → Table → Prop}

theorem parallel_note (e e' : Event) :
    Parallel (beside Q) Eq (note e) (note e') := .of_modify fun h => h

end Workspace

namespace Lowering

variable {α α' : Type} {q : α → α' → Prop} {Q : Table → Table → Prop} {name : String}
  {line : Nat} {l l' r r' e e' : Expr}

theorem parallel_ofWork {x : Work α} {x' : Work α'} (h : Parallel (Workspace.beside Q) q x x') :
    Parallel (beside Q) q (liftM x : LowerM α) (liftM x') :=
  .ofWork (fun hs => hs.1) (fun hs hw => ⟨hw, hs.2⟩) (fun _ => trivial) h

theorem parallel_ofTable {x : TableM α} {x' : TableM α'} (h : Parallel { state := Q } q x x') :
    Parallel (beside Q) q (liftM x : LowerM α) (liftM x') :=
  parallel_ofWork (.ofTableWork Iff.rfl (fun _ => trivial) h)

theorem parallel_ofExcept {x : Except Error α} {x' : Except Error α'} (h : SameVerdict q x x') :
    Parallel (beside Q) q (LowerM.ofExcept x) (LowerM.ofExcept x') := by
  cases h with
  | ok h => exact .of_pure h
  | error => exact .of_throw trivial

theorem parallel_enter (notes : List Event) :
    Parallel (beside Q) Eq (enter notes) (enter notes) := .of_modify fun h => h

theorem parallel_newLabel : Parallel (beside Q) anything newLabel newLabel := by
  refine Parallel.bind_eq (.of_modify fun h => h) fun _ => Parallel.of_get.bind fun {s s'} _ => ?_
  exact (parallel_ofWork (Workspace.parallel_note _ _)).bind_eq fun _ => .of_pure trivial

theorem parallel_addTopLevel (n n' : Node) :
    Parallel (beside Q) Eq (addTopLevel n) (addTopLevel n') :=
  .of_modify fun h => h

theorem parallel_number (text : String) :
    Parallel (beside Q) Expr.Like (number text line) (number text line) := by
  unfold number
  dsimp only
  split
  · exact .of_pure (.refl _)
  · exact .of_throw trivial

section Operations

variable (hl : l.Like l') (hr : r.Like r') (he : e.Like e')

include hl hr in
theorem parallel_arithmetic (op : String) :
    Parallel (beside Q) Expr.Like (arithmetic op l r line) (arithmetic op l' r' line) := by
  unfold arithmetic
  split
  · exact parallel_ofExcept (sameVerdict_arithmetic hl hr _ _)
  · exact .of_throw trivial

include he in
theorem parallel_negate : Parallel (beside Q) Expr.Like (negate e line) (negate e' line) :=
  parallel_ofExcept (sameVerdict_arithmetic (.refl _) he _ _)

include he in
theorem parallel_positive : Parallel (beside Q) Expr.Like (positive e line) (positive e' line) := by
  unfold positive
  rw [he.dataType]
  exact (parallel_ofExcept (.same _)).bind_eq fun _ => .of_pure he

include hl hr in
theorem parallel_comparison (op : String) :
    Parallel (beside Q) Expr.Like (comparison op l r line) (comparison op l' r' line) := by
  unfold comparison
  split
  · exact (parallel_ofExcept (sameVerdict_comparison hl hr _ _)).map .cond
  · exact .of_throw trivial

include hl hr in
theorem parallel_combination (op : String) :
    Parallel (beside Q) Expr.Like (combination op l r line) (combination op l' r' line) := by
  unfold combination
  split
  · exact parallel_newLabel.bind fun _ =>
      (parallel_ofExcept (sameVerdict_combination hl hr _ _ _ _)).map .cond
  · exact .of_throw trivial

include he in
theorem parallel_negation : Parallel (beside Q) Expr.Like (negation e line) (negation e' line) :=
  (parallel_ofExcept (sameVerdict_negation he line)).map .cond

include he in
theorem parallel_ifStatement {yes yes' : List Node} {no no' : Option (List Node)}
    (hno : no.isSome = no'.isSome) :
    Parallel (beside Q) anything (ifStatement e yes no line) (ifStatement e' yes' no' line) := by
  refine (parallel_ofExcept (sameVerdict_ofExpr he line)).bind fun _ =>
    parallel_newLabel.bind fun _ => ?_
  cases no <;> cases no' <;> simp at hno
  · exact .of_pure trivial
  · exact parallel_newLabel.bind fun _ => .of_pure trivial

include he in
theorem parallel_whileStatement (body body' : List Node) :
    Parallel (beside Q) anything (whileStatement e body line) (whileStatement e' body' line) :=
  (parallel_ofExcept (sameVerdict_ofExpr he line)).bind fun _ =>
    parallel_newLabel.bind fun _ => parallel_newLabel.bind fun _ => .of_pure trivial

end Operations

end Lowering

namespace Source

open Lowering (parallel_enter)

theorem Expr.parallel_lower {Q : Table → Table → Prop} (e : Expr)
    (href : ∀ name ∈ e.names, ∀ line,
      Parallel (Lowering.beside Q) Expr.Like (Lowering.reference name line)
      (Lowering.reference name line))
    (hrandom : Parallel (Lowering.beside Q) Expr.Like Lowering.random Lowering.random) :
    Parallel (Lowering.beside Q) Expr.Like e.lower e.lower := by
  induction e with
  | number text site => exact (parallel_enter _).bind_eq fun _ => Lowering.parallel_number text
  | string text | boolean text => exact .of_pure (.refl _)
  | var name site => exact (parallel_enter _).bind_eq fun _ => href name (by simp [names]) _
  | random => exact hrandom
  | plus e site ih =>
    exact (ih href).bind fun he => (parallel_enter _).bind_eq fun _ => Lowering.parallel_positive he
  | minus e site ih =>
    exact (ih href).bind fun he => (parallel_enter _).bind_eq fun _ => Lowering.parallel_negate he
  | not e site ih =>
    exact (ih href).bind fun he => (parallel_enter _).bind_eq fun _ => Lowering.parallel_negation he
  | arith op l r site ihl ihr =>
    simp only [names, List.forall_mem_append] at href
    exact (ihl href.1).bind fun hl => (ihr href.2).bind fun hr =>
        (parallel_enter _).bind_eq fun _ =>
      Lowering.parallel_arithmetic hl hr op
  | compare op l r site ihl ihr =>
    simp only [names, List.forall_mem_append] at href
    exact (ihl href.1).bind fun hl => (ihr href.2).bind fun hr =>
        (parallel_enter _).bind_eq fun _ =>
      Lowering.parallel_comparison hl hr op
  | logic op l r site ihl ihr =>
    simp only [names, List.forall_mem_append] at href
    exact (ihl href.1).bind fun hl => (ihr href.2).bind fun hr =>
        (parallel_enter _).bind_eq fun _ =>
      Lowering.parallel_combination hl hr op

end Source

section Twins

open Table (Twin KeepsPace twins)

variable {ρ : SymbolId → Nat → Nat → Prop} {name : String} {line : Nat} {rhs rhs' : Expr}

theorem Table.Twin.ofVariable {t t' : Table} (h : t.Twin ρ t') (id : SymbolId) :
    Expr.ofVariable t id = Expr.ofVariable t' id := by
  rw [Expr.ofVariable, Expr.ofVariable, (h.symbol id).type?]

namespace Lowering

theorem parallel_declare {cls : SymbolClass} {line : Option Nat} {f : Fields} (hf : f.usage = none)
    (reach : Reach) (name : String) :
      Parallel (beside (Twin ρ)) Eq (liftM (Table.declare reach name cls line f) : LowerM SymbolId)
      (liftM (Table.declare reach name cls line f)) :=
  parallel_ofTable (Table.parallel_declare hf reach name)

theorem parallel_callTo (name : String) (args args' : List Arg) :
    Parallel (beside (Twin ρ)) Expr.Like (callTo name args) (callTo name args') := by
  refine Parallel.of_get.bind fun {s s'} h => parallel_ofExcept ?_
  have hsame := h.1.sameShape
  have halias : s.table.resolveAlias = s'.table.resolveAlias := funext hsame.resolveAlias
  unfold Expr.callTo
  rw [hsame.resolve rfl, halias]
  split
  · rw [(h.1.symbol _).type?]
    exact .ok .call
  · exact .error

theorem parallel_closeScope :
    Parallel (beside (Twin ρ)) Eq (liftM Workspace.closeScope : LowerM Scope)
    (liftM Workspace.closeScope) := by
  have hpop :
      Parallel (Workspace.beside (Twin ρ)) Eq (liftM Table.pop : Work Scope) (liftM Table.pop) :=
    .ofTableWork Iff.rfl (fun _ => trivial) Table.parallel_pop
  exact parallel_ofWork
    (hpop.bind_eq fun _ => (Workspace.parallel_note _ _).bind_eq fun _ => .of_pure rfl)

theorem parallel_assignedType (compound : Option ArithOp) (type : DataType) :
    Parallel (beside (Twin ρ)) Eq (assignedType name compound type line)
    (assignedType name compound type line) := by
  refine .ite (fun _ => .of_pure rfl) fun _ => Parallel.of_get.bind fun {s s'} h => ?_
  have htype : (fun id => (s.table.symbol id).type?) = fun id => (s'.table.symbol id).type? :=
    funext fun id => (h.1.symbol id).type?
  dsimp only
  rw [h.1.sameShape.resolve rfl, htype]
  exact (parallel_ofExcept (.same _)).bind_eq fun _ =>
    (parallel_ofExcept (.same _)).bind_eq fun _ => .of_pure rfl

theorem isParameter_of_twin {s s' : Lowering} (h : (beside (Twin ρ)).state s s') :
    s.isParameter = s'.isParameter := by
  obtain ⟨htable, -, hopen⟩ := h
  funext id
  unfold isParameter
  rw [hopen]
  cases s'.openRoutine with
  | none => rfl
  | some r =>
    exact congrArg (Option.any (id ∈ ·))
      (htable.sameShape.read (g := (·.params)) (fun _ => rfl) r)

theorem parallel_assignment (h : rhs.Like rhs') (op : String) :
    Parallel (beside (Twin ρ)) anything (assignment name op rhs line)
    (assignment name op rhs' line) := by
  unfold assignment
  rw [h.dataType, h.value?]
  refine .ite (fun _ => .throw_bind trivial _ _) fun _ => ?_
  refine (parallel_assignedType _ _).bind_eq fun type =>
    (parallel_declare rfl _ _).bind_eq fun id => ?_
  refine Parallel.of_get.bind fun {s s'} h => ?_
  rw [(h.1.symbol id).var?, isParameter_of_twin h]
  refine .ite (fun _ => ?_) fun _ => .of_pure trivial
  split <;> exact (parallel_ofTable (Table.parallel_setValue id _)).bind_eq fun _ =>
    .of_pure trivial

section Counting

variable (hρ : KeepsPace ρ)

include hρ

theorem parallel_countUsage (name : String) (cls : Option SymbolClass) :
    Parallel (beside (Twin ρ)) Eq (liftM (Table.countUsage name cls) : LowerM SymbolId)
      (liftM (Table.countUsage name cls)) :=
  parallel_ofTable
    (Table.parallel_countUsage (P := twins ρ) Twin.sameShape (fun i h => h.use hρ i) rfl
    (fun _ => trivial) trivial cls)

theorem parallel_reference : Parallel (beside (Twin ρ)) Expr.Like (reference name line)
    (reference name line) := by
  refine ((parallel_declare rfl _ _).adaptExcept fun _ => trivial).bind_eq fun id => ?_
  refine (parallel_countUsage hρ _ _).bind_eq fun _ => Parallel.of_get.bind fun {s s'} h => ?_
  rw [h.1.ofVariable]
  exact .of_pure (.refl _)

theorem parallel_random : Parallel (beside (Twin ρ)) Expr.Like random random :=
  (parallel_countUsage hρ _ _).bind_eq fun _ => parallel_callTo _ _ _

theorem parallel_call (args args' : List Expr) :
    Parallel (beside (Twin ρ)) anything (call name args line) (call name args' line) :=
  ((parallel_declare rfl _ _).adaptExcept fun _ => trivial).bind_eq fun _ =>
    (parallel_countUsage hρ _ _).bind_eq fun _ => (parallel_callTo _ _ _).map fun _ => trivial

theorem parallel_print (args args' : List Expr) :
    Parallel (beside (Twin ρ)) anything (print args) (print args') :=
  (parallel_countUsage hρ _ _).bind_eq fun _ => (parallel_callTo _ _ _).map fun _ => trivial

theorem parallel_typein : Parallel (beside (Twin ρ)) anything (typein name line)
    (typein name line) := by
  refine (parallel_countUsage hρ _ _).bind_eq fun _ =>
    (parallel_declare (f := {}) rfl _ _).bind_eq fun _ => ?_
  refine (parallel_countUsage hρ _ _).bind_eq fun _ => Parallel.of_get.bind fun {s s'} _ => ?_
  exact (parallel_callTo _ _ _).map fun _ => trivial

end Counting

theorem parallel_setCode (id : SymbolId) (body body' : List Node) :
    Parallel (beside (Twin ρ)) Eq (liftM (Table.setCode id (.ofNodes id body)) : LowerM Unit)
      (liftM (Table.setCode id (.ofNodes id body'))) := by
  have hsymbol : (Definition.ofNodes id body).symbol = (Definition.ofNodes id body').symbol := rfl
  exact parallel_ofTable (Table.parallel_setCode hsymbol id)

theorem parallel_endProcedure (id : SymbolId) (body body' : List Node) :
    Parallel (beside (Twin ρ)) Eq (endProcedure id body) (endProcedure id body') :=
  (parallel_setCode id body body').bind_eq fun _ => parallel_closeScope.bind_eq fun _ =>
    .of_modify fun h => ⟨h.1, h.2.1, rfl⟩

theorem parallel_finish : Parallel (beside (Twin ρ)) Eq finish finish := by
  refine Parallel.of_get.bind fun {s s'} h => ?_
  obtain ⟨htable, hentry, -⟩ := h
  rw [Table.depth, Table.depth, htable.scopes, hentry]
  refine .ite (fun _ => .throw_bind trivial _ _) fun _ => ?_
  exact (parallel_setCode _ _ _).bind_eq fun _ => parallel_closeScope.bind_eq fun _ => .of_pure rfl

end Lowering

namespace Source

open Lowering (parallel_enter)

theorem Expr.lockstep (hρ : KeepsPace ρ) (e : Expr) :
    Parallel (Lowering.beside (Twin ρ)) Expr.Like e.lower e.lower :=
  e.parallel_lower (fun _ _ _ => Lowering.parallel_reference hρ) (Lowering.parallel_random hρ)

mutual

theorem Stmt.lockstep (hρ : KeepsPace ρ) :
    ∀ s : Stmt, Parallel (Lowering.beside (Twin ρ)) anything s.lower s.lower
  | .expr e => (e.lockstep hρ).map fun _ => trivial
  | .assign _ op rhs _ => (rhs.lockstep hρ).bind fun h => (parallel_enter _).bind_eq fun _ =>
      Lowering.parallel_assignment h op
  | .call _ _ _ => (Parallel.mapM fun e _ => e.lockstep hρ).bind fun _ =>
    (parallel_enter _).bind_eq fun _ =>
      Lowering.parallel_call hρ _ _
  | .print first _ _ => (first.lockstep hρ).bind fun _ =>
    (Parallel.mapM fun e _ => e.lockstep hρ).bind fun _ =>
      (parallel_enter _).bind_eq fun _ => Lowering.parallel_print hρ _ _
  | .typein _ _ => (parallel_enter _).bind_eq fun _ => Lowering.parallel_typein hρ
  | .ifThen cond yes _ => (cond.lockstep hρ).bind fun h =>
    (lockstep_lowerAll hρ yes).bind fun _ =>
      (parallel_enter _).bind_eq fun _ => Lowering.parallel_ifStatement h rfl
  | .ifElse cond yes no _ => (cond.lockstep hρ).bind fun h =>
    (lockstep_lowerAll hρ yes).bind fun _ =>
      (lockstep_lowerAll hρ no).bind fun _ => (parallel_enter _).bind_eq fun _ =>
      Lowering.parallel_ifStatement h rfl
  | .whileDo cond body _ => (cond.lockstep hρ).bind fun h =>
    (lockstep_lowerAll hρ body).bind fun _ =>
      (parallel_enter _).bind_eq fun _ => Lowering.parallel_whileStatement h _ _

theorem lockstep_lowerAll (hρ : KeepsPace ρ) :
    ∀ ss : List Stmt, Parallel (Lowering.beside (Twin ρ)) anything (lowerAll ss) (lowerAll ss)
  | [] => .of_pure trivial
  | s :: ss => (s.lockstep hρ).bind fun _ => (lockstep_lowerAll hρ ss).bind fun _ =>
    .of_pure trivial

end

end Source

section Link

def bothUsed (_ : SymbolId) (u u' : Nat) : Prop := 0 < u ↔ 0 < u'

variable {t t' : Table} {d d' : Definition}

theorem Table.Twin.used (h : t.Twin bothUsed t') (cls : SymbolClass) :
    t.used cls = t'.used cls := by
  rw [Table.used, Table.used, h.byClass]
  exact List.filter_congr fun id _ => decide_eq_decide.2 (h.usage id)

def Block.key (b : Block) : String := b.name.toUpper

theorem Definition.block?_of_twin (h : t.Twin bothUsed t') (hd : d.symbol = d'.symbol) :
    (d.block? t).map Block.key = (d'.block? t').map Block.key := by
  have hinternal := h.sameShape.read (g := (·.flags.internal)) (fun _ => rfl) d'.symbol
  have husage : (t.symbol d'.symbol).usage = 0 ↔ (t'.symbol d'.symbol).usage = 0 := by
    simpa [bothUsed, Nat.pos_iff_ne_zero, not_iff_not] using h.usage d'.symbol
  rw [block?, block?, hd]
  cases hr : (t.symbol d'.symbol).routine? <;>
    cases hr' : (t'.symbol d'.symbol).routine? <;> simp_all
  simp [Block.key, (h.symbol d'.symbol).toUpper_name]

theorem Definition.parallel_emit (hd : d.symbol = d'.symbol) :
    Parallel (Workspace.beside (Twin bothUsed)) (fun b b' => b.map Block.key = b'.map Block.key)
    d.emit d'.emit := by
  refine Parallel.of_get.bind fun {w w'} h => ?_
  have hblock := block?_of_twin h hd
  dsimp only
  -- a remark goes to the log only
  cases d.remark? w.table <;> cases d'.remark? w'.table <;> exact ⟨fun h => .ok hblock h⟩

theorem parallel_linkRoutine (id : SymbolId) :
    Parallel (Workspace.beside (Twin bothUsed)) (fun b b' => b.map Block.key = b'.map Block.key)
      (linkRoutine id) (linkRoutine id) := by
  refine Parallel.of_get.bind fun {w w'} h => ?_
  have htable : w.table.Twin bothUsed w'.table := h
  dsimp only
  rw [htable.sameShape.linkTarget?]
  cases w'.table.linkTarget? id with
  | none => exact .of_throw trivial
  | some target =>
    have houtline := htable.sameShape.routine target
    dsimp only
    cases hr : (w.table.symbol target).routine? <;>
      cases hr' : (w'.table.symbol target).routine? <;> rw [hr, hr'] at houtline
    · exact .of_throw trivial
    · simp at houtline
    · simp at houtline
    · rename_i r r'
      obtain ⟨-, -, -, hflags, -, -, hcode⟩ :=
        Routine.outline_eq_iff.1 (Option.some.inj houtline)
      dsimp only
      rw [hflags, ← Option.isNone_map (f := Definition.symbol), hcode, Option.isNone_map]
      refine .ite (fun _ => .throw_bind trivial _ _) fun _ => .ite (fun _ => ?_) fun _ => ?_
      · have hemit :
            Parallel (Workspace.beside (Twin bothUsed))
            (fun b b' => b.map Block.key = b'.map Block.key)
            (r.code.elim (pure none) Definition.emit)
            (r'.code.elim (pure none) Definition.emit) := by
          cases hc : r.code <;> cases hc' : r'.code <;> rw [hc, hc'] at hcode
          · exact .of_pure rfl
          · simp at hcode
          · simp at hcode
          · exact Definition.parallel_emit (by simpa using hcode)
        refine (Workspace.parallel_note _ _).bind_eq fun _ => hemit.bind fun hblock => ?_
        exact Parallel.bind_eq (.of_modify fun {w w'} h => Twin.markGenerated h id target) fun _ =>
          .of_pure hblock
      · exact .ite (fun _ => (Workspace.parallel_note _ _).bind_eq fun _ => .of_pure rfl) fun _ =>
          .of_pure rfl

structure Listing.Like (l l' : Listing) : Prop where
  data : l.data = l'.data
  blocks : l.blocks.map Block.key = l'.blocks.map Block.key

theorem together_link {w w' : Workspace} (h : w.table.Twin bothUsed w'.table)
    (hvars : ∀ id ∈ w.table.vars.ids, (w.table.symbol id).cls = .var) :
    Together (Workspace.beside (Twin bothUsed)) Listing.Like (link w) (link w') := by
  have hget :
      Together (Workspace.beside (Twin bothUsed)) (fun a a' => a = w ∧ a' = w')
      ((get : Work Workspace) w) ((get : Work Workspace) w') := .ok ⟨rfl, rfl⟩ h
  refine hget.bind fun {a a'} hw => ?_
  obtain ⟨rfl, rfl⟩ := hw
  have hdata :
      ((a.table.used .var).map fun id =>
        ((a.table.symbol id).fullName, (a.table.symbol id).initialValue)) =
      (a.table.used .var).map fun id =>
      ((a'.table.symbol id).fullName, (a'.table.symbol id).initialValue) := by
    refine List.map_congr_left fun id hid => ?_
    rw [(h.symbol id).fullName (hvars id (List.mem_of_mem_filter hid)), Symbol.initialValue,
      Symbol.initialValue, (h.symbol id).var?]
  have hblocks (ids : List SymbolId) : Parallel (Workspace.beside (Twin bothUsed))
      (List.Forall₂ fun b b' => b.map Block.key = b'.map Block.key) (ids.mapM linkRoutine)
      (ids.mapM linkRoutine) :=
    .mapM fun i _ => parallel_linkRoutine i
  have hkeys {bs bs' : List (Option Block)}
      (hbs : List.Forall₂ (fun b b' => b.map Block.key = b'.map Block.key) bs bs') :
      (bs.filterMap id).map Block.key = (bs'.filterMap id).map Block.key := by
    have hmap : bs.map (Option.map Block.key) = bs'.map (Option.map Block.key) := by
      rwa [← List.forall₂_eq_eq_eq, List.forall₂_map_left_iff, List.forall₂_map_right_iff]
    simpa [List.filterMap_map, List.map_filterMap] using congrArg (List.filterMap id) hmap
  dsimp only
  rw [← h.used .var, ← h.used .routine, hdata]
  refine (Workspace.parallel_note _ _).bind_eq fun _ => .ite (fun _ => ?_) fun _ => ?_
  · exact (Workspace.parallel_note _ _).bind_eq fun _ =>
        (Workspace.parallel_note _ _).bind_eq fun _ =>
      (hblocks _).bind fun hbs => .of_pure ⟨rfl, hkeys hbs⟩
  · exact (Workspace.parallel_note _ _).bind_eq fun _ => (hblocks _).bind fun hbs =>
      .of_pure ⟨rfl, hkeys hbs⟩

end Link

end Twins

end TurtleCompiler
