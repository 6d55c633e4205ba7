import TurtleCompiler.Proofs.Folding
import TurtleCompiler.Proofs.OpenScopes
import TurtleCompiler.Proofs.Spelling

/-!
Lowering after a fault. A statement that broke off may leave the scope of its procedure open, and
what follows is lowered all the same.
-/

namespace TurtleCompiler

namespace Lowering

variable {s s' s'' : Lowering} {names names' params : List String} {name op text : String}
  {line : Nat} {l r e : Expr} {id : SymbolId} {args : List Expr} {body : List Node}

structure Proceeds (names : List String) (s s' : Lowering) : Prop where
  rooted : s'.table.Rooted
  follows : s.table.Follows names s'.table

theorem Proceeds.trans (h : s.Proceeds names s') (h' : s'.Proceeds names' s'') :
    s.Proceeds (names ++ names') s'' :=
  ⟨h'.rooted, h.follows.trans h'.follows⟩

theorem Proceeds.refines (h : s.table.Rooted) {t : Table} (ht : s.table.Refines t) :
    s.Proceeds [] (s.setTable t) :=
  ⟨h.refines ht, ht.follows⟩

theorem proceeds_of_table (h : s.table.Rooted) (ht : s'.table = s.table) : s.Proceeds [] s' :=
  ⟨ht ▸ h, ht ▸ .refl _⟩

def Grounded (names : List String) (x : LowerM α) (p : α → Prop) : Prop :=
  ∀ s : Lowering, s.table.Rooted → Yields x s fun a s' => s.Proceeds names s' ∧ p a

section Grounded

variable {α β : Type} {x : LowerM α} {f : α → LowerM β} {p : α → Prop} {q : β → Prop}

theorem Grounded.bind (hx : Grounded names x p) (hf : ∀ {a}, p a → Grounded names' (f a) q) :
    Grounded (names ++ names') (x >>= f) q :=
  fun s h =>
  .bind ((hx s h).mono fun ⟨h₁, ha⟩ => (hf ha _ h₁.rooted).mono fun ⟨h₂, hb⟩ =>
    ⟨h₁.trans h₂, hb⟩)

theorem Grounded.and_then (hx : Grounded [] x p) (hf : ∀ {a}, p a → Grounded names (f a) q) :
    Grounded names (x >>= f) q :=
  hx.bind hf

theorem Grounded.and_last (hx : Grounded names x p) (hf : ∀ {a}, p a → Grounded [] (f a) q) :
    Grounded names (x >>= f) q := by
  simpa using hx.bind hf

theorem Grounded.map {g : α → β} (hx : Grounded names x p) (hg : ∀ {a}, p a → q (g a)) :
    Grounded names (g <$> x) q :=
  fun s h => .map ((hx s h).mono fun ⟨h₁, ha⟩ => ⟨h₁, hg ha⟩)

theorem grounded_pure {a : α} (ha : p a) :
    Grounded [] (pure a) p := fun _ h => .of_pure ⟨proceeds_of_table h rfl, ha⟩

theorem grounded_ofExcept {r : Except Error α} (herror : ∀ {e}, r = .error e → e.IsTypeAt line)
    (hok : ∀ {a}, r = .ok a → p a) : Grounded [] (LowerM.ofExcept r) p :=
  fun _ h => .ofExcept (fun he => (herror he).isOfSource) fun ha =>
  ⟨proceeds_of_table h rfl, hok ha⟩

theorem Grounded.mapM {g : β → LowerM α} {as : List β}
    (h : ∀ a ∈ as, Grounded [] (g a) p) : Grounded [] (as.mapM g) fun bs => ∀ b ∈ bs, p b :=
  fun s hs =>
    .mono
    (.mapM (I := fun s' => s.Proceeds [] s')
      (fun a ha _ h₁ => (h a ha _ h₁.rooted).mono fun ⟨h₂, hb⟩ =>
    ⟨hb, h₁.trans h₂⟩) (proceeds_of_table hs rfl)) And.symm

end Grounded

theorem grounded_enter (notes : List Event) : Grounded [] (enter notes) fun _ => True :=
  fun _ h => .of_modify ⟨proceeds_of_table h rfl, trivial⟩

theorem grounded_newLabel : Grounded [] newLabel fun _ => True :=
  fun s h => ⟨proceeds_of_table h (table_addLabel s), trivial⟩

theorem yields_callTo (h : s.table.Rooted)
    (hid : s.table.resolve name none (some .routine) = some id)
    (hroutine : s.table.IsRoutine name id) (args : List Arg) :
    Yields (callTo name args) s fun e s' => s.Proceeds [] s' ∧ e.IsFoldable := by
  obtain ⟨callee, hcallee⟩ := Option.isSome_iff_exists.1 (h.resolveAlias hroutine)
  have he : Expr.callTo s.table name args = .ok (.call callee args (s.table.symbol callee).type?) :=
    Expr.callTo_eq_ok.2 ⟨callee, by simp [hid, hcallee], rfl⟩
  refine .bind (.of_get ?_)
  rw [he]
  exact ⟨proceeds_of_table h rfl, Expr.isFoldable_of_value? rfl⟩

theorem grounded_number : Grounded [] (number text line) Expr.IsFoldable := by
  unfold number
  dsimp only
  split
  · exact grounded_pure (Expr.isFoldable_const _)
  · exact fun _ _ => .of_throw trivial

theorem grounded_reference : Grounded [] (reference name line) Expr.IsFoldable := by
  refine fun s h =>
    .bind
    (.atLine (.ofTable ((h.declare (.blank .var) _ _ _).mono fun ⟨h₁, hf, _, hid⟩ => ?_))
      line)
  refine .bind (.ofTable ((h₁.countUsage (hid (by simp))).mono fun hr => ?_))
  exact .bind
    (.of_get
      (.of_pure ⟨⟨h₁.refines hr, hf.trans hr.follows⟩, Expr.isFoldable_of_value? rfl⟩))

section Primitives

variable (hname : name ∈ catalogue.map (·.name))

include hname

theorem grounded_usePrimitive :
    Grounded [] (liftM (Table.countUsage name (some .routine)) : LowerM SymbolId) fun _ =>
    True := by
  obtain ⟨p, hp, rfl⟩ := List.mem_map.1 hname
  intro s h
  obtain ⟨id, hid, -⟩ := h.resolve (h.library p hp)
  exact .ofTable ((h.countUsage hid).mono fun hr => ⟨.refines h hr, trivial⟩)

theorem grounded_callPrimitive (args : List Arg) :
    Grounded [] (callTo name args) Expr.IsFoldable := by
  obtain ⟨p, hp, rfl⟩ := List.mem_map.1 hname
  intro s h
  obtain ⟨id, hid, hroutine⟩ := h.resolve (h.library p hp)
  exact yields_callTo h hid hroutine args

end Primitives

theorem grounded_random : Grounded [] random Expr.IsFoldable := by
  have hname : "RANDOM" ∈ catalogue.map (·.name) := by simp [catalogue]
  exact (grounded_usePrimitive hname).and_then fun _ => grounded_callPrimitive hname _

theorem grounded_arithmetic (hop : (ArithOp.ofText? op).isSome) (hl : l.IsFoldable)
    (hr : r.IsFoldable) : Grounded [] (arithmetic op l r line) Expr.IsFoldable := by
  obtain ⟨op', hop'⟩ := Option.isSome_iff_exists.1 hop
  unfold arithmetic
  rw [hop']
  exact grounded_ofExcept (Expr.isTypeAt_arithmetic hl hr) (Expr.isFoldable_arithmetic hl hr)

theorem grounded_negate (he : e.IsFoldable) : Grounded [] (negate e line) Expr.IsFoldable :=
  grounded_ofExcept (Expr.isTypeAt_arithmetic (Expr.isFoldable_const _) he)
    (Expr.isFoldable_arithmetic (Expr.isFoldable_const _) he)

theorem grounded_checkNumeric {type : DataType} :
    Grounded [] (LowerM.ofExcept (checkNumeric line type)) fun _ => True :=
  grounded_ofExcept Expr.isTypeAt_checkNumeric fun _ => trivial

theorem grounded_ofExpr : Grounded [] (LowerM.ofExcept (Cond.ofExpr line e)) fun _ => True :=
  grounded_ofExcept Cond.isTypeAt_ofExpr fun _ => trivial

theorem grounded_positive (he : e.IsFoldable) : Grounded [] (positive e line) Expr.IsFoldable :=
  grounded_checkNumeric.and_then fun _ => grounded_pure he

theorem grounded_comparison (hop : (RelOp.ofText? op).isSome) :
    Grounded [] (comparison op l r line) Expr.IsFoldable := by
  obtain ⟨op', hop'⟩ := Option.isSome_iff_exists.1 hop
  unfold comparison
  rw [hop']
  exact (grounded_ofExcept Cond.isTypeAt_comparison fun _ => trivial).map fun _ =>
    Expr.isFoldable_cond _

theorem grounded_combination (hop : (LogicOp.ofText? op).isSome) :
    Grounded [] (combination op l r line) Expr.IsFoldable := by
  obtain ⟨op', hop'⟩ := Option.isSome_iff_exists.1 hop
  unfold combination
  rw [hop']
  exact grounded_newLabel.and_then fun _ =>
    (grounded_ofExcept Cond.isTypeAt_combination fun _ => trivial).map fun _ =>
    Expr.isFoldable_cond _

theorem grounded_negation : Grounded [] (negation e line) Expr.IsFoldable :=
  (grounded_ofExcept Cond.isTypeAt_negation fun _ => trivial).map fun _ => Expr.isFoldable_cond _

theorem grounded_assignedType {compound : Option ArithOp} {rhs : DataType} :
    Grounded [] (assignedType name compound rhs line) fun _ => True := by
  unfold assignedType
  dsimp only
  split
  · exact grounded_pure trivial
  · exact fun s h =>
        .bind
        (.of_get ((grounded_checkNumeric.and_then fun _ => grounded_checkNumeric.and_then fun _ =>
      grounded_pure trivial) s h))

theorem grounded_assignment (hop : Source.IsAssignment op) {rhs : Expr} :
    Grounded [] (assignment name op rhs line) fun _ => True := by
  have hassign : (op ≠ "=" && (if op = "=" then none else compoundOp? op).isNone) = false := by
    rcases hop with rfl | hop
    · simp
    · by_cases heq : op = "=" <;> simp [heq, hop]
  unfold assignment
  dsimp only
  rw [hassign]
  refine grounded_assignedType.and_then fun _ s h => ?_
  refine .bind
    (.ofTable
      ((h.declare (.type _) _ _ _).mono fun {id t₁} ⟨h₁, hf, hid, _⟩ => .bind (.of_get ?_)))
  have hset (v : Value) (node : Node) :
      Yields (do Table.setValue id v; return node : LowerM Node) (s.setTable t₁) fun _ s' =>
      s.Proceeds [] s' ∧ True := by
    refine .bind (.ofTable ((Table.yields_setValue hid.cls v).mono fun hr => .of_pure ?_))
    exact ⟨⟨h₁.refines hr, hf.trans hr.follows⟩, trivial⟩
  split
  · split
    · exact hset _ _
    · exact hset _ _
  · exact .of_pure ⟨⟨h₁, hf⟩, trivial⟩

theorem grounded_call : Grounded [name] (call name args line) fun _ => True := by
  refine fun s h => .bind (.atLine (.ofTable ((h.declare (.blank .routine) _ _ _).mono
    fun {id t₁} ⟨h₁, hf, hid, hres⟩ => ?_)) line)
  have hid' := hres (by simp)
  refine .bind (.ofTable ((h₁.countUsage hid').mono fun {_ t₂} hr => .map ?_))
  have hroutine : t₂.IsRoutine name id := hr.follows.isRoutine ⟨hid.has, hid.cls, hid.name⟩
  have hid₂ : t₂.resolve name none (some .routine) = some id :=
    (hr.toEdits.resolve ..).trans hid'
  have hused : s.Proceeds [name] ((s.setTable t₁).setTable t₂) :=
    ⟨h₁.refines hr, hf.trans hr.follows⟩
  exact (yields_callTo hused.rooted hid₂ hroutine _).mono fun ⟨h₂, _⟩ =>
    ⟨hused.trans h₂, trivial⟩

theorem grounded_print : Grounded [] (print args) fun _ => True := by
  have hname : "PRINT" ∈ catalogue.map (·.name) := by simp [catalogue]
  exact (grounded_usePrimitive hname).and_then fun _ =>
    (grounded_callPrimitive hname _).map fun _ => trivial

theorem grounded_typein : Grounded [] (typein name line) fun _ => True := by
  have hname : "TYPEIN" ∈ catalogue.map (·.name) := by simp [catalogue]
  refine (grounded_usePrimitive hname).and_then fun _ s h => .bind (.ofTable ?_)
  refine (h.declare (.blank .var) _ _ _).mono fun {_ t₁} ⟨h₁, hf, _, hid⟩ => ?_
  refine .bind
    (.ofTable ((h₁.countUsage (hid (by simp))).mono fun {_ t₂} hr => .bind (.of_get (.map ?_))))
  have hused : s.Proceeds [] ((s.setTable t₁).setTable t₂) :=
    ⟨h₁.refines hr, hf.trans hr.follows⟩
  exact (grounded_callPrimitive hname _ _ hused.rooted).mono fun ⟨h₂, _⟩ =>
    ⟨hused.trans h₂, trivial⟩

theorem grounded_ifStatement {yes : List Node} {no : Option (List Node)} :
    Grounded [] (ifStatement e yes no line) fun _ => True := by
  refine grounded_ofExpr.and_then fun _ => grounded_newLabel.and_then fun _ => ?_
  split
  · exact grounded_pure trivial
  · exact grounded_newLabel.and_then fun _ => grounded_pure trivial

theorem grounded_whileStatement : Grounded [] (whileStatement e body line) fun _ => True :=
  grounded_ofExpr.and_then fun _ => grounded_newLabel.and_then fun _ =>
    grounded_newLabel.and_then fun _ => grounded_pure trivial

theorem proceeds_openScope (h : s.table.Rooted) (name : String) :
    s.Proceeds [] (s.openScope name) := by
  refine ⟨h.of_symbols rfl ?_ fun scope hscope => ?_, ?_⟩
  · change (⟨name, {}⟩ :: s.table.scopes).getLast? = _
    rw [List.getLast?_cons_of_ne_nil h.scopes]
  · rcases List.mem_cons.1 hscope with rfl | hscope
    · exact .inr rfl
    · exact .inl hscope
  · exact ⟨Nat.le_succ _, id, fun _ => .refl _, fun hid hid' => absurd hid' hid⟩

theorem yields_openScope {q : Unit → Lowering → Prop} (h : q ⟨⟩ (s.openScope name)) :
    Yields (liftM (Workspace.openScope name) : LowerM Unit) s q := h

theorem grounded_params (params : List String) :
    Grounded [] (declareParams line params) fun ids => ∀ id ∈ ids, True :=
  .mapM fun _ _ _ h =>
  .ofTable
  ((h.declare (.blank .var) _ _ _).mono fun ⟨h₁, hf, _⟩ => ⟨⟨h₁, hf⟩, trivial⟩)

theorem yields_useParams (h : s.table.Rooted) (ids : List SymbolId) :
    Yields (ids.forM fun id => (Table.countUse id : LowerM Unit)) s fun _ s' => s.Proceeds [] s' :=
  .forM
    (fun id _ _ h₁ => .ofTable
      ((h₁.rooted.countUse id).mono fun hr => h₁.trans (.refines h₁.rooted hr)))
    (proceeds_of_table h rfl)

theorem yields_openProcedure (h : s.table.Rooted) :
    Yields (openProcedure name line params) s fun id s' =>
      s.Proceeds [name] s' ∧ s'.table.IsRoutine name id ∧ 2 ≤ s'.table.scopes.length := by
  refine .bind
    (.ofTable ((h.declare (.blank .routine) _ _ _).mono fun {id t₁} ⟨h₁, hf, hid, _⟩ => ?_))
  have hdeclared : s.Proceeds [name] (s.setTable t₁) := ⟨h₁, hf⟩
  have hopened := proceeds_openScope hdeclared.rooted name
  have hend {s₂ : Lowering} (h₂ : ((s.setTable t₁).openScope name).Proceeds [] s₂)
      (ids : List SymbolId) :
      Yields (do
        let _ ← Table.declare .anywhere name .routine none { params := some ids }
        modify fun t => { t with openRoutine := some id }
        return id : LowerM SymbolId) s₂ fun id s' =>
          s.Proceeds [name] s' ∧ s'.table.IsRoutine name id ∧ 2 ≤ s'.table.scopes.length := by
    refine .bind
      (.ofTable ((h₂.rooted.declare (.params _) _ _ _).mono fun ⟨h₃, hf₃, _⟩ => ?_))
    refine .bind
      (.of_modify (.of_pure ⟨⟨h₃, ?_⟩, hf₃.isRoutine (h₂.follows.isRoutine ?_), ?_⟩))
    · refine (((hdeclared.trans hopened).trans h₂).follows.trans hf₃).mono ?_
      simp [Table.newRoutines]
    · exact ⟨hid.has, hid.cls, hid.name⟩
    · exact Nat.le_trans (Nat.succ_le_succ (List.length_pos_iff.2 h₁.scopes))
        (Nat.le_trans h₂.follows.depth hf₃.depth)
  refine .bind
    (yields_openScope
      (.bind
        ((grounded_params params _ hopened.rooted).mono fun ⟨h₂, _⟩ => .bind (.of_get ?_))))
  dsimp only
  split
  · exact .bind ((yields_useParams h₂.rooted _).mono fun h₃ => hend (h₂.trans h₃) _)
  · exact hend h₂ _

theorem yields_beginProcedure (h : s.table.Rooted) :
    Yields (beginProcedure name line params) s fun id s' =>
      s.Proceeds [name] s' ∧ s'.table.IsRoutine name id ∧ 2 ≤ s'.table.scopes.length := by
  refine .bind (.of_get ?_)
  dsimp only
  split
  · split
    · exact .bind (.of_throw trivial)
    · exact yields_openProcedure h
  · exact yields_openProcedure h

theorem yields_closeScope {scope : Scope} {scopes : List Scope}
    (hscopes : s.table.scopes = scope :: scopes) {q : Scope → Lowering → Prop}
    (h : q scope (s.closeScope scope scopes)) :
    Yields (liftM Workspace.closeScope : LowerM Scope) s q := by
  obtain ⟨⟨⟨symbols, _, vars, routines⟩, log⟩, labels, entry, mainBody, openRoutine⟩ :=
    s
  subst hscopes
  exact h

theorem yields_endProcedure (h : s.table.Rooted) (hid : s.table.IsRoutine name id)
    (hdepth : 2 ≤ s.table.scopes.length) :
    Yields (endProcedure id body) s fun _ s' => s'.table.Rooted := by
  refine .bind (.ofTable ((Table.yields_setCode hid.2.1 _).mono fun {_ t} hr => ?_))
  have h₁ := h.refines hr
  cases hscopes : t.scopes with
  | nil => exact absurd hscopes h₁.scopes
  | cons scope scopes =>
    have hne : scopes ≠ [] := by
      rintro rfl
      simp [← hr.scopes, hscopes] at hdepth
    refine .bind (yields_closeScope hscopes (.of_modify ?_))
    refine h₁.of_symbols (symbols_closeScope ..) ?_ ?_
    · rw [scopes_closeScope, hscopes, List.getLast?_cons_of_ne_nil hne]
    · rw [scopes_closeScope, hscopes]
      exact fun _ hscope => .inl (List.mem_cons_of_mem _ hscope)

end Lowering

namespace Source

open Lowering

mutual

def Stmt.calls : Stmt → List String
  | .call name _ _ => [name]
  | .expr _ | .assign .. | .print .. | .typein .. => []
  | .ifThen _ yes _ => callsOfAll yes
  | .ifElse _ yes no _ => callsOfAll yes ++ callsOfAll no
  | .whileDo _ body _ => callsOfAll body

def callsOfAll : List Stmt → List String
  | [] => []
  | s :: ss => s.calls ++ callsOfAll ss

end

variable {s : Lowering}

theorem Expr.grounded_lower {e : Expr} (he : e.ComesFrom Token.IsSpelled) :
    Grounded [] e.lower TurtleCompiler.Expr.IsFoldable := by
  induction e with
  | number text site => exact (grounded_enter _).and_then fun _ => grounded_number
  | string text => exact grounded_pure (TurtleCompiler.Expr.isFoldable_const _)
  | boolean text => exact grounded_pure (TurtleCompiler.Expr.isFoldable_cond _)
  | var name site => exact (grounded_enter _).and_then fun _ => grounded_reference
  | random => exact grounded_random
  | plus e site ih =>
    exact (ih he.2).and_then fun he => (grounded_enter _).and_then fun _ => grounded_positive he
  | minus e site ih =>
    exact (ih he.2).and_then fun he => (grounded_enter _).and_then fun _ => grounded_negate he
  | not e site ih =>
    exact (ih he.2).and_then fun _ => (grounded_enter _).and_then fun _ => grounded_negation
  | arith op l r site ihl ihr =>
    exact (ihl he.2.1).and_then fun hl => (ihr he.2.2).and_then fun hr =>
        (grounded_enter _).and_then fun _ =>
      grounded_arithmetic he.1.isArith hl hr
  | compare op l r site ihl ihr =>
    exact (ihl he.2.1).and_then fun _ => (ihr he.2.2).and_then fun _ =>
        (grounded_enter _).and_then fun _ =>
      grounded_comparison he.1.isSpelled
  | logic op l r site ihl ihr =>
    exact (ihl he.2.1).and_then fun _ => (ihr he.2.2).and_then fun _ =>
        (grounded_enter _).and_then fun _ =>
      grounded_combination he.1.isSpelled

theorem grounded_lowerExprs {es : List Expr} (hes : ∀ e ∈ es, e.ComesFrom Token.IsSpelled) :
    Grounded [] (es.mapM Expr.lower) fun es' => ∀ e ∈ es', e.IsFoldable :=
  .mapM fun e he => Expr.grounded_lower (hes e he)

mutual

theorem Stmt.grounded_lower : (st : Stmt) → st.ComesFrom Token.IsSpelled →
    Grounded st.calls st.lower fun _ => True
  | .expr e, hst => (e.grounded_lower hst).map fun _ => trivial
  | .assign _ _ rhs _, ⟨⟨_, hop⟩, _, hrhs⟩ => (rhs.grounded_lower hrhs).and_then fun _ =>
    (grounded_enter _).and_then fun _ =>
      grounded_assignment hop.isSpelled
  | .call _ _ _, hst => (grounded_lowerExprs hst.2).and_then fun _ =>
    (grounded_enter _).and_then fun _ => grounded_call
  | .print first _ _, hst => (first.grounded_lower hst.2.1).and_then fun _ =>
    (grounded_lowerExprs hst.2.2).and_then fun _ =>
      (grounded_enter _).and_then fun _ => grounded_print
  | .typein _ _, _ => (grounded_enter _).and_then fun _ => grounded_typein
  | .ifThen cond yes _, hst => (cond.grounded_lower hst.2.1).and_then fun _ =>
    (grounded_lowerAll yes hst.2.2).and_last fun _ =>
      (grounded_enter _).and_then fun _ => grounded_ifStatement
  | .ifElse cond yes no _, hst => (cond.grounded_lower hst.2.1).and_then fun _ =>
    (grounded_lowerAll yes hst.2.2.1).bind fun _ =>
      (grounded_lowerAll no hst.2.2.2).and_last fun _ => (grounded_enter _).and_then fun _ =>
      grounded_ifStatement
  | .whileDo cond body _, hst => (cond.grounded_lower hst.2.1).and_then fun _ =>
    (grounded_lowerAll body hst.2.2).and_last fun _ =>
      (grounded_enter _).and_then fun _ => grounded_whileStatement

theorem grounded_lowerAll : (ss : List Stmt) → AllComeFrom Token.IsSpelled ss →
    Grounded (callsOfAll ss) (lowerAll ss) fun _ => True
  | [], _ => grounded_pure trivial
  | st :: ss, hss => (st.grounded_lower hss.1).bind fun _ =>
    (grounded_lowerAll ss hss.2).and_last fun _ => grounded_pure trivial

end

theorem Header.yields_lower (h : s.table.Rooted) (header : Header) :
    Yields header.lower s fun id s' => s.Proceeds [header.name] s' ∧
    s'.table.IsRoutine header.name id ∧ 2 ≤ s'.table.scopes.length :=
  .bind ((grounded_enter _ s h).mono fun ⟨h₁, _⟩ => (yields_beginProcedure h₁.rooted).mono
    fun ⟨h₂, hid, hdepth⟩ => ⟨h₁.trans h₂, hid, hdepth⟩)

theorem Phrase.yields_lower {p : Phrase} (hp : p.ComesFrom Token.IsSpelled) (h : s.table.Rooted) :
    Yields p.lower s fun _ s' => s'.table.Rooted := by
  cases p with
  | expr e => exact .map ((e.grounded_lower hp s h).mono fun h₁ => h₁.1.rooted)
  | stmt st => exact .map ((st.grounded_lower hp s h).mono fun h₁ => h₁.1.rooted)
  | header header => exact .map ((header.yields_lower h).mono fun h₁ => h₁.1.rooted)

theorem Item.yields_lower {i : Item} (hi : i.ComesFrom Token.IsSpelled EndsInSource)
    (h : s.table.Rooted) : Yields i.lower s fun fault s' => (∀ e ∈ fault, e.IsOfSource) ∧
    s'.table.Rooted := by
  cases i with
  | statement st =>
    exact .bind ((st.grounded_lower hi s h).mono fun h₁ =>
      .bind (.of_modify (.of_pure ⟨by simp, h₁.1.rooted⟩)))
  | definition header body site =>
    refine .bind ((header.yields_lower h).mono fun ⟨h₁, hid, hdepth⟩ => ?_)
    refine .bind ((grounded_lowerAll body hi.2.1 _ h₁.rooted).mono fun ⟨h₂, _⟩ => ?_)
    refine .bind ((grounded_enter _ _ h₂.rooted).mono fun ⟨h₃, _⟩ => ?_)
    have hfollows := (h₂.trans h₃).follows
    refine .bind ((yields_endProcedure h₃.rooted (hfollows.isRoutine hid) ?_).mono fun h₄ => ?_)
    · exact Nat.le_trans hdepth hfollows.depth
    · exact .of_pure ⟨by simp, h₄⟩
  | broken done fault =>
    refine .bind
      (.mono
        (.forM (I := fun s => s.table.Rooted)
          (fun p hp _ h₁ => p.yields_lower (hi.1 p hp) h₁) h)
      fun h₁ => ?_)
    cases fault with
    | lexical e notes =>
      exact .bind ((grounded_enter notes _ h₁).mono fun _ => .of_throw (hi.2 rfl))
    | grammatical fault site =>
      refine .bind ((grounded_enter _ _ h₁).mono fun ⟨h₂, _⟩ => ?_)
      exact .bind (show Yields _ _ _ from ⟨by simp [Error.IsOfSource], h₂.rooted⟩)

theorem Program.yields_lower {p : Program}
    (hp : ∀ i ∈ p.items, i.ComesFrom Token.IsSpelled EndsInSource) (h : s.table.Rooted) :
    Yields p.lower s fun _ s' => s'.table.Rooted := by
  refine .bind
    (.mono (.mapM (I := fun s => s.table.Rooted) (p := fun fault => ∀ e ∈ fault, e.IsOfSource)
    (fun i hi _ h₁ => i.yields_lower (hp i hi) h₁) h) fun {faults _} ⟨hfaults, h₁⟩ => ?_)
  refine .bind ((grounded_enter _ _ h₁).mono fun ⟨h₂, _⟩ => ?_)
  dsimp only
  split
  · exact trivial
  · split
    · rename_i e hfault
      obtain ⟨fault, hmem, he⟩ := List.exists_of_findSome?_eq_some hfault
      exact .of_throw (hfaults fault hmem e he)
    · exact .of_pure h₂.rooted

end Source

end TurtleCompiler
