import TurtleCompiler.Proofs.LabelLines
import TurtleCompiler.Proofs.LazyScanning
import TurtleCompiler.Proofs.Passage

/-!
Line breaks in a listing: only the strings of a source bring them in.
-/

namespace TurtleCompiler

variable {p : String → Prop}

section Names

open Table

variable {t t' : Table} {id : SymbolId} {name : String}

theorem Table.IsTidy.edits (h : t.IsTidy) (he : t.Edits t') : t'.IsTidy where
  name id := (he.symbol id).name ▸ h.name id
  fullName id := (he.symbol id).fullName ▸ h.fullName id
  scopes := he.scopes ▸ h.scopes

theorem Table.IsTidy.of_symbols (h : t.IsTidy) (hsymbols : t'.symbols = t.symbols)
    (hscopes : ∀ scope ∈ t'.scopes, IsOneLine scope.name) : t'.IsTidy :=
  ⟨symbol_eq_of_symbols hsymbols ▸ h.name,
    symbol_eq_of_symbols hsymbols ▸ h.fullName, hscopes⟩

theorem Table.IsTidy.qualify (h : t.IsTidy) (n : Nat) (hname : IsOneLine name) :
    IsOneLine (qualify (scopePath (t.scopes.drop n)) name) := by
  have hpath : IsOneLine (scopePath (t.scopes.drop n)) := by
    refine isOneLine_intercalate (by decide) fun s hs => ?_
    simp only [List.mem_map, List.mem_filter, List.mem_reverse] at hs
    obtain ⟨_, ⟨⟨scope, hscope, rfl⟩, -⟩, rfl⟩ := hs
    exact isOneLine_append.2 ⟨by decide, h.scopes scope (List.mem_of_mem_drop hscope)⟩
  unfold TurtleCompiler.qualify
  split
  · exact hname
  · exact isOneLine_append.2 ⟨isOneLine_append.2 ⟨hpath, by decide⟩, hname⟩

theorem Table.IsTidy.declare (h : t.IsTidy) {reach : Reach} {cls : SymbolClass}
    {line : Option Nat} {f : Fields} (hname : IsOneLine name) (hf : f.usage = none)
    (hd : declare reach name cls line f t = .ok id t') : t'.IsTidy := by
  rcases declare_eq_ok hd with ⟨-, -, rfl⟩ | ⟨-, -, -, kind, -, rfl⟩
  · exact h.edits (edits_merge t id line hf)
  · refine ⟨fun j => ?_, fun j => ?_, fun scope hscope => ?_⟩
    · rw [symbol_insertAt]
      split
      · exact hname
      · exact h.name j
    · rw [symbol_insertAt]
      split
      · exact h.qualify _ hname
      · exact h.fullName j
    · rcases mem_modify hscope with hscope | ⟨s, hs, rfl⟩
      · exact h.scopes scope hscope
      · exact h.scopes s (List.mem_of_getElem? hs)

theorem Table.IsTidy.heedsAll {ms : List Source.Mention} (h : t.IsTidy) (hall : HeedsAll ms t t')
    (hnames : ∀ m ∈ ms, ∀ x ∈ m.name?, IsName x) : t'.IsTidy := by
  induction ms generalizing t with
  | nil =>
    obtain rfl : t' = t := hall
    exact h
  | cons m ms ih =>
    obtain ⟨t₁, hm, hall⟩ := hall
    rw [List.forall_mem_cons] at hnames
    refine ih ?_ hall hnames.2
    cases hm with
    | read hd hc =>
      exact (h.declare (hnames.1 _ rfl).isOneLine rfl hd).edits (Counts.countUsage hc).toEdits
    | write husage hvalue hd hset =>
      have hdeclare := h.declare (hnames.1 _ rfl).isOneLine husage hd
      rcases hset with rfl | ⟨v, -, hset⟩
      · exact hdeclare
      · exact hdeclare.edits (edits_setValue hset)
    | call hd hc =>
      exact (h.declare (hnames.1 _ rfl).isOneLine rfl hd).edits (Counts.countUsage hc).toEdits
    | primitive _ hc => exact h.edits (Counts.countUsage hc).toEdits

end Names

variable {t : Table}

namespace Lowering

variable {s s' : Lowering} {name : String} {line : Nat} {params : List String} {id : SymbolId}

theorem Declares.isTidy {ids : List SymbolId} (hrun : Declares line s params ids s')
    (h : s.table.IsTidy) (hparams : ∀ x ∈ params, IsName x) : s'.table.IsTidy := by
  induction hrun with
  | nil => exact h
  | cons hd _ ih =>
    rw [List.forall_mem_cons] at hparams
    exact ih (h.declare hparams.1.isOneLine rfl hd) hparams.2

theorem isTidy_beginProcedure (h : s.table.IsTidy) (hname : IsName name)
    (hparams : ∀ x ∈ params, IsName x) (hb : beginProcedure name line params s = .ok id s') :
    s'.table.IsTidy := by
  obtain ⟨t₁, ids, s₂, s₃, j, t₄, hd, hrun, huse, hd', rfl⟩ :=
    openProcedure_eq_ok (beginProcedure_eq_ok hb).2
  have h₁ := h.declare hname.isOneLine rfl hd
  have hopen : ((s.setTable t₁).openScope name).table.IsTidy :=
    h₁.of_symbols rfl (List.forall_mem_cons.2 ⟨hname.isOneLine, h₁.scopes⟩)
  have h₂ := hrun.isTidy hopen hparams
  exact (h₂.edits (counts_params huse).toEdits).declare hname.isOneLine rfl hd'

theorem isTidy_closeScope {body : List Node} {scope : Scope} {scopes : List Scope}
    (h : s.table.IsTidy) (hset : Table.setCode id (.ofNodes id body) s.table = .ok ⟨⟩ t)
    (hscopes : t.scopes = scope :: scopes) :
    ((s.setTable t).closeScope scope scopes).table.IsTidy ∧
      ((s.setTable t).closeScope scope scopes).table.value? = s.table.value? := by
  obtain ⟨hcls, rfl⟩ := Table.setCode_eq_ok hset
  obtain ⟨r, hr⟩ := Symbol.exists_routine hcls
  have hedits :=
    Table.edits_modifySymbol (Symbol.grows_setCode (.ofNodes id body) (s.table.symbol id))
  refine ⟨(h.edits hedits).of_symbols (symbols_closeScope ..) ?_, ?_⟩
  · rw [scopes_closeScope]
    exact fun inner hinner => (h.edits hedits).scopes inner
      (hscopes ▸ List.mem_cons_of_mem _ hinner)
  · refine (Table.Quiet.of_symbols (symbols_closeScope ..)).value.trans
      (Table.value?_modifySymbol ?_)
    have hcode : ((s.table.symbol id).setCode (.ofNodes id body)).routine? =
        some { r with code := some (.ofNodes id body) } := by
      simp [Symbol.setCode, Symbol.routine?_modifyRoutine, hr]
    rw [Table.value?, Symbol.var?_of_routine? hr, Symbol.var?_of_routine? hcode]

end Lowering

variable {e : Expr}

section Constants

def Prints (p : String → Prop) (vs : List Value) : Prop := ∀ s, Value.str s ∈ vs → p s

theorem prints_append {vs ws : List Value} :
    Prints p (vs ++ ws) ↔ Prints p vs ∧ Prints p ws := by
  simp [Prints, or_imp, forall_and]

theorem prints_nil : Prints p [] := by simp [Prints]

theorem prints_of_isNumber {v : Value} (h : v.toFloat?.isSome) : Prints p [v] := by
  intro s hs
  obtain rfl := List.mem_singleton.1 hs
  simp [Value.toFloat?] at h

variable {op : ArithOp}

theorem prints_of_fold {line : Nat} {x y v : Value} (h : fold line op x y = .ok v) :
    Prints p [v] := by
  have hnumber {r : Except Error Value} (hr : IsNumber line r) (h : r = .ok v) :
      v.toFloat?.isSome := by
    rw [h] at hr
    exact hr
  unfold fold at h
  refine prints_of_isNumber ?_
  split at h
  · exact hnumber (isNumber_foldInt ..) h
  · split at h
    · exact hnumber (isNumber_foldFloat ..) h
    · simp at h

theorem Prints.arithmetic {l r : Expr} {line : Nat} (hl : Prints p l.constants)
    (hr : Prints p r.constants) (h : Expr.arithmetic op l r line = .ok e) :
    Prints p e.constants := by
  obtain ⟨-, -, value, rfl, ⟨rfl, -⟩ | ⟨x, y, v, -, -, hv, rfl⟩⟩ :=
    Expr.arithmetic_eq_ok h
  · exact prints_append.2 ⟨prints_append.2 ⟨hl, hr⟩, prints_nil⟩
  · exact prints_append.2 ⟨prints_append.2 ⟨hl, hr⟩, prints_of_fold hv⟩

theorem Prints.value? (h : Prints p e.constants) : Prints p e.value?.toList := by
  cases e with
  | const v => exact h
  | var | call => exact prints_nil
  | arith op l r type value => exact (prints_append.1 h).2
  | cond c =>
    intro s hs
    simp [Expr.value?] at hs

theorem constantsOfArgs_input (es : List Expr) :
    constantsOfArgs (es.map .input) = es.flatMap Expr.constants := by
  induction es with
  | nil => rfl
  | cons e es ih => simp [ih]

theorem constantsOfNodes_append (a b : List Node) :
    constantsOfNodes (a ++ b) = constantsOfNodes a ++ constantsOfNodes b := by
  induction a with
  | nil => rfl
  | cons n a ih => simp [ih]

theorem prints_callTo {name : String} {args : List Arg} (h : Expr.callTo t name args = .ok e)
    (hargs : Prints p (constantsOfArgs args)) : Prints p e.constants := by
  obtain ⟨callee, -, rfl⟩ := Expr.callTo_eq_ok.1 h
  exact hargs

theorem prints_inputs {es : List Expr} (h : Prints p (es.flatMap Expr.constants)) :
    Prints p (constantsOfArgs (es.reverse.map .input)) := by
  rw [constantsOfArgs_input]
  intro s hs
  exact h s (by simpa using hs)

def Token.Shows (p : String → Prop) (t : Token) : Prop := t.lexeme = .string → p t.text

def Table.Holds (p : String → Prop) (t : Table) : Prop := ∀ id, Prints p (t.value? id).toList

end Constants

namespace Source

variable {s s' : Lowering} {t t' : Table}

theorem Expr.Becomes.prints {e' : TurtleCompiler.Expr} (h : e.Becomes s e' s')
    (hfrom : e.ComesFrom (Token.Shows p)) : Prints p e'.constants := by
  induction h with
  | number hv =>
    refine prints_of_isNumber ?_
    split at hv <;> obtain ⟨_, -, rfl⟩ := Option.map_eq_some_iff.1 hv <;> rfl
  | string =>
    intro x hx
    obtain rfl : x = _ := by simpa [Lowering.string] using hx
    obtain ⟨_, t, ht, hlexeme, rfl, -⟩ := hfrom
    exact ht (List.mem_singleton.1 hlexeme)
  | boolean => simp [Lowering.boolean, Prints]
  | var h =>
    obtain ⟨id, t₁, j, t₂, -, -, rfl, -⟩ := Lowering.reference_eq_ok h
    exact prints_nil
  | random h =>
    obtain ⟨j, t, -, hcall, -⟩ := Lowering.random_eq_ok h
    exact prints_callTo hcall prints_nil
  | plus _ _ ih | not _ ih => exact ih hfrom.2
  | minus _ harith ih =>
    exact (prints_of_isNumber (v := .int (-1)) rfl).arithmetic (ih hfrom.2) harith
  | arith _ _ _ harith ihl ihr => exact (ihl hfrom.2.1).arithmetic (ihr hfrom.2.2) harith
  | compare _ _ _ ihl ihr | logic _ _ _ ihl ihr =>
    exact prints_append.2 ⟨ihl hfrom.2.1, ihr hfrom.2.2⟩

theorem EachBecomes.prints {es : List Expr} {es' : List TurtleCompiler.Expr}
    (h : EachBecomes es s es' s') (hfrom : ∀ e ∈ es, e.ComesFrom (Token.Shows p)) :
    Prints p (es'.flatMap TurtleCompiler.Expr.constants) := by
  induction h with
  | nil => exact prints_nil
  | cons he _ ih =>
    rw [List.forall_mem_cons] at hfrom
    exact prints_append.2 ⟨he.prints hfrom.1, ih hfrom.2⟩

theorem holds_of_steps {names : List String} (h : t.Holds p) (hs : Table.Steps names False t t') :
    t'.Holds p := by
  rw [Table.Holds, hs.value?]
  exact h

theorem holds_of_heeds {ms : List Mention} (h : t.Holds p) (hall : Table.HeedsAll ms t t')
    (hwrite : ∀ x, .write x ∉ ms) : t'.Holds p :=
  holds_of_steps h (hall.steps (var?_mem (List.Subset.refl _)) fun x hx => hwrite x hx)

theorem prints_assignment {name op : String} {line : Nat} {rhs : TurtleCompiler.Expr} {n : Node}
    (h : Lowering.assignment name op rhs line s = .ok n s') (hzero : p "''") (hs : s.table.Holds p)
    (hrhs : Prints p rhs.constants) : s'.table.Holds p ∧ Prints p n.constants := by
  obtain ⟨compound, type, id, t₁, t₂, -, -, hd, rfl, hcases⟩ := Lowering.assignment_eq_ok h
  have h₁ : t₁.Holds p := by
    rw [Table.Holds, Table.value?_declare rfl hd]
    exact hs
  have hset {v : Value} (hv : Prints p [v]) (h : Table.setValue id v t₁ = .ok ⟨⟩ t₂) :
      t₂.Holds p := by
    intro j
    by_cases hid : t₁.Has id
    · rw [Table.value?_setValue ⟨hid, (Table.setValue_eq_ok h).1⟩ h]
      split
      · exact hv
      · exact h₁ j
    · rw [(Table.setValue_eq_ok h).2, Table.modifySymbol_of_not_has hid]
      exact h₁ j
  rcases hcases with ⟨v, -, hv, -, hv', rfl⟩ | ⟨-, -, hv', rfl⟩ | ⟨-, rfl, rfl⟩
  · refine ⟨hset (fun x hx => ?_) hv', prints_nil⟩
    have hvalue := hrhs.value?
    cases v <;> cases type <;> simp_all [Value.widen, Prints]
  · refine ⟨hset (fun x hx => ?_) hv', hrhs⟩
    cases type <;> simp_all [DataType.zero]
  · exact ⟨h₁, hrhs⟩

mutual

theorem Stmt.Becomes.prints (hzero : p "''") {st : Stmt} {s s' : Lowering} {n : Node} :
    st.Becomes s n s' → st.ComesFrom (Token.Shows p) → s.table.Holds p → s'.table.Holds p ∧
    Prints p n.constants
  | .expr he, hfrom, hs => ⟨holds_of_steps hs he.steps, he.prints hfrom⟩
  | .assign hrhs h, hfrom, hs =>
    prints_assignment h hzero (holds_of_steps hs hrhs.steps :) (hrhs.prints hfrom.2.2)
  | .call hargs h, hfrom, hs => by
    refine ⟨holds_of_heeds (holds_of_steps hs hargs.steps :) (.single (Lowering.heeds_call h :))
      (by simp), ?_⟩
    obtain ⟨_, _, _, _, e, -, -, he, rfl, -⟩ := Lowering.call_eq_ok h
    exact prints_callTo he (prints_inputs (hargs.prints hfrom.2))
  | .print hargs h, hfrom, hs => by
    refine ⟨holds_of_heeds (holds_of_steps hs hargs.steps :) (.single (Lowering.heeds_print h :))
      (by simp), ?_⟩
    obtain ⟨_, _, e, -, he, rfl, -⟩ := Lowering.print_eq_ok h
    exact prints_callTo he
      (prints_append.2 ⟨prints_of_isNumber rfl,
        prints_inputs (hargs.prints (List.forall_mem_cons.2 hfrom.2))⟩)
  | .typein h, _, hs => by
    refine ⟨holds_of_heeds hs (Lowering.heeds_typein h :) (by simp), ?_⟩
    obtain ⟨_, _, _, _, _, _, e, -, -, -, he, rfl, -⟩ := Lowering.typein_eq_ok h
    exact prints_callTo he prints_nil
  | .ifThen htest hyes, hfrom, hs => by
    obtain ⟨hs₁, hyes⟩ := hyes.prints hzero hfrom.2.2 (holds_of_steps hs htest.steps)
    refine ⟨hs₁, ?_⟩
    simpa [constantsOfNodes_append] using prints_append.2 ⟨htest.prints hfrom.2.1, hyes⟩
  | .ifElse htest hyes hno, hfrom, hs => by
    obtain ⟨hs₁, hyes⟩ := hyes.prints hzero hfrom.2.2.1 (holds_of_steps hs htest.steps)
    obtain ⟨hs₂, hno⟩ := hno.prints hzero hfrom.2.2.2 hs₁
    refine ⟨hs₂, ?_⟩
    simpa [constantsOfNodes_append, Node.jump] using
      prints_append.2 ⟨htest.prints hfrom.2.1, prints_append.2 ⟨hyes, hno⟩⟩
  | .whileDo htest hbody, hfrom, hs => by
    obtain ⟨hs₁, hbody⟩ := hbody.prints hzero hfrom.2.2 (holds_of_steps hs htest.steps)
    refine ⟨hs₁, ?_⟩
    simpa [constantsOfNodes_append, Node.jump] using
      prints_append.2 ⟨htest.prints hfrom.2.1, hbody⟩

theorem AllBecome.prints (hzero : p "''") {ss : List Stmt} {s s' : Lowering} {ns : List Node} :
    AllBecome ss s ns s' → AllComeFrom (Token.Shows p) ss → s.table.Holds p →
    s'.table.Holds p ∧ Prints p (constantsOfNodes ns)
  | .nil, _, hs => ⟨hs, prints_nil⟩
  | .cons hn hns, hfrom, hs => by
    obtain ⟨hs₁, hn⟩ := hn.prints hzero hfrom.1 hs
    obtain ⟨hs₂, hns⟩ := hns.prints hzero hfrom.2 hs₁
    exact ⟨hs₂, prints_append.2 ⟨hn, hns⟩⟩

end

end Source

structure Lowering.Prints (p : String → Prop) (s : Lowering) : Prop where
  tidy : s.table.IsTidy
  holds : s.table.Holds p
  bodies : ∀ o, TurtleCompiler.Prints p (constantsOfNodes (s.bodies o))

namespace Source

variable {s s' : Lowering}

theorem Item.Becomes.prints (hzero : p "''") {i : Item} (h : i.Becomes s s')
    (hnames : ∀ x ∈ i.names, IsName x) (hs : s.Ok []) (hpaths : s.table.AtTop)
    (hfrom : i.ComesFrom (Token.Shows p) fun _ => True) (hp : s.Prints p) : s'.Prints p := by
  cases i with
  | statement st =>
    obtain ⟨hn⟩ := h
    obtain ⟨hholds, hconstants⟩ := hn.prints hzero hfrom hp.holds
    refine ⟨hp.tidy.heedsAll hn.heeds fun m hm x hx => ?_, hholds, fun o => ?_⟩
    · exact hnames x (st.name?_mentions (List.mem_filterMap.2 ⟨m, hm, hx⟩))
    · have hadds := hn.adds hnames hs.live
      cases o with
      | none =>
        change TurtleCompiler.Prints p (constantsOfNodes (_ ++ [_]))
        rw [constantsOfNodes_append, prints_append, hadds.mainBody]
        exact ⟨hp.bodies none, by simpa using hconstants⟩
      | some id =>
        have hbody := hp.bodies (some id)
        rw [← hadds.bodies] at hbody
        exact hbody
  | definition header body site =>
    obtain ⟨b, e, id, ids, nodes, r, h⟩ := Item.stages hnames hs hpaths h
    simp only [Item.names, List.forall_mem_cons, List.forall_mem_append] at hnames
    obtain ⟨hname, hparams, hbody⟩ := hnames
    have hquiet : s.table.Quiet b.table :=
      (hs.adds ((Lowering.Adds.refl s).noted header.site.notes)).quiet_beginProcedure hpaths
      hname h.begins
    have htidy : b.table.IsTidy :=
      Lowering.isTidy_beginProcedure (s := s.noted header.site.notes) hp.tidy hname hparams h.begins
    have htidy' : e.table.IsTidy := htidy.heedsAll h.becomes.heeds fun m hm x hx =>
      hbody x (name?_mentionsOfAll body (List.mem_filterMap.2 ⟨m, hm, hx⟩))
    have hholds : b.table.Holds p := by
      rw [Table.Holds, hquiet.value]
      exact hp.holds
    obtain ⟨hholds', hconstants⟩ := h.becomes.prints hzero hfrom.2.1 hholds
    obtain ⟨t, scope, scopes, hset, hscopes, hs'⟩ := Lowering.endProcedure_eq_ok h.ends
    obtain ⟨htidy'', hvalue⟩ :=
      Lowering.isTidy_closeScope (s := e.noted site.notes) htidy' hset hscopes
    refine ⟨hs' ▸ htidy'', ?_, fun o => ?_⟩
    · rw [hs', Table.Holds, hvalue]
      exact hholds'
    · rw [Lowering.bodies_gives h.rest.1 h.gives', h.adds.bodies,
        Lowering.bodies_gives h.mainBody h.gives]
      by_cases ho : o = some id
      · subst ho
        simpa using hconstants
      · rw [Function.update_of_ne ho, Function.update_of_ne ho]
        exact hp.bodies o
  | broken => cases h

end Source

namespace Lowering

def IsBare (t : Table) : Prop :=
  (∀ scope ∈ t.scopes, IsOneLine scope.name) ∧ ∀ id, t.Has id →
    IsOneLine (t.symbol id).name ∧ IsOneLine (t.symbol id).fullName ∧ (t.value? id).isNone

instance (t : Table) : Decidable (IsBare t) := by
  unfold IsBare
  infer_instance

def bareStart : { s : Start // IsBare s.table } := ⟨start, by decide +kernel⟩

theorem prints_setup {entry : SymbolId} {w : Workspace} (h : setup {} = .ok entry w) :
    ({ toWorkspace := w, entry } : Lowering).Prints p := by
  obtain ⟨rfl, htable⟩ := eq_start h
  have hbare : IsBare w.table := htable ▸ bareStart.2
  have hcatalogue : IsCatalogue w.table := htable ▸ cataloguedStart.2.2
  refine ⟨⟨fun id => ?_, fun id => ?_, hbare.1⟩, fun id => ?_, fun o => ?_⟩
  · by_cases hid : w.table.Has id
    · exact (hbare.2 id hid).1
    · rw [Table.symbol_of_not_has hid]
      decide
  · by_cases hid : w.table.Has id
    · exact (hbare.2 id hid).2.1
    · rw [Table.symbol_of_not_has hid]
      decide
  · have hnone : w.table.value? id = none := by
      by_cases hid : w.table.Has id
      · exact Option.isNone_iff_eq_none.1 (hbare.2 id hid).2.2
      · exact Table.value?_of_not_has hid
    simp [hnone, TurtleCompiler.Prints]
  · cases o with
    | none => exact prints_nil
    | some id =>
      change TurtleCompiler.Prints p (constantsOfNodes (w.table.bodyOf id))
      rw [hcatalogue.bodyOf]
      exact prints_nil

end Lowering

theorem prints_of_lower {text : String} {u : Unit} {w : Workspace} (hzero : p "''")
    (htokens : ∀ t ∈ (Feed.ofText text).tokens, t.1.Shows p)
    (h : lower (.ofText text) {} = .ok u w) : w.table.IsTidy ∧ w.table.Holds p ∧
    ∀ id, Prints p (constantsOfNodes (w.table.bodyOf id)) := by
  obtain ⟨entry, w₀, s, hsetup, hrun, rfl⟩ := Lowering.within_eq_ok h
  obtain ⟨hok, hpaths⟩ := Lowering.ok_setup hsetup
  obtain ⟨_, s₁, hlower, hfinish⟩ := bind_eq_ok.1 hrun
  have hfrom := Source.comesFrom_parse (E := fun _ => True) htokens trivial
  obtain ⟨⟨hok₁, -⟩, hprints⟩ :=
    Source.Program.induction (R := fun _ s => s.Prints p) Source.isName_of_parse hok hpaths
    (Lowering.prints_setup hsetup)
    (fun hi hnames hs hpaths hp _ h => h.prints hzero hnames hs hpaths (hfrom _ hi) hp)
    (fun notes hp =>
      ⟨hp.tidy, hp.holds, ((Lowering.Adds.refl _).noted notes).bodies ▸ hp.bodies⟩) hlower
  obtain ⟨-, -, -, r, -, hgives⟩ := hok₁.finish hfinish
  obtain ⟨-, t, scope, scopes, hset, hscopes, rfl⟩ := Lowering.finish_eq_ok hfinish
  obtain ⟨htidy, hvalue⟩ := Lowering.isTidy_closeScope hprints.tidy hset hscopes
  refine ⟨htidy, ?_, fun id => ?_⟩
  · rw [Table.Holds, hvalue]
    exact hprints.holds
  · rw [hgives.bodyOf]
    by_cases hid : id = s₁.entry
    · subst hid
      rw [Function.update_self, Option.elim_some, Definition.nodes_ofNodes]
      exact hprints.bodies none
    · rw [Function.update_of_ne hid]
      exact hprints.bodies (some id)

section Listings

theorem Value.text_cases {v : Value} (h : Prints p [v]) :
    IsOneLine v.text ∨ ∃ s, p s ∧ ¬ IsOneLine s ∧ v = .str s := by
  cases v with
  | int v => exact .inl (isOneLine_int v.toInt)
  | float v => exact .inl (isOneLine_floatText v)
  | bool b => exact .inl (by cases b <;> decide)
  | str s => exact (em (IsOneLine s)).imp_right fun hmulti => ⟨s, h s (by simp), hmulti, rfl⟩

theorem Table.Ready.text_cases {id entry : SymbolId} {b : Block} {i : Instr} (h : t.Ready entry)
    (ht : t.IsTidy) (hp : Prints p (constantsOfNodes (t.bodyOf id))) (hb : t.blockOf? id = some b)
    (hi : i ∈ b.code) : IsOneLine i.text ∨ ∃ s, p s ∧ ¬ IsOneLine s ∧
    i = .push (.str s) := by
  obtain ⟨n, hlabelled⟩ := h.labelled
  have hlabel (l : Label) (hl : l ∈ labelsIn b.code) : IsOneLine l.name := by
    have hcount := Nat.lt_of_lt_of_le (List.count_pos_iff.2 hl) (h.count_labelsIn hb l)
    obtain ⟨k, -, -, rfl⟩ :=
      (hlabelled.made id).fresh.exists_of_mem l (List.count_pos_iff.1 hcount)
    exact isOneLine_append.2 ⟨by decide, isOneLine_repr k⟩
  obtain ⟨-, -, -, ⟨hcode, hfits⟩ | ⟨-, hquiet⟩⟩ := h.block_cases hb
  · cases from_codeOfNodes t _ i (hcode ▸ hi) with
    | @push v hv =>
      have hprints : Prints p [v] := by
        intro s hs
        obtain rfl := List.mem_singleton.1 hs
        exact hp s (hv s rfl)
      exact (Value.text_cases hprints).imp (fun htext => isOneLine_append.2 ⟨by decide, htext⟩)
        fun ⟨s, hs, hmulti, heq⟩ => ⟨s, hs, hmulti, by rw [heq]⟩
    | @operate op => exact .inl (by cases op <;> decide)
    | compareZero => exact .inl (by decide)
    | @jump j l =>
      have hl := hlabel l (h.mem_labelsIn hb l (List.mem_filterMap.2 ⟨_, hi, rfl⟩))
      refine .inl
        (isOneLine_append.2 ⟨isOneLine_append.2 ⟨by cases j <;> decide, by decide⟩, ?_⟩)
      exact isOneLine_append.2 ⟨by decide, hl⟩
    | @label l =>
      exact .inl
        (isOneLine_append.2 ⟨by decide, hlabel l (List.mem_filterMap.2 ⟨_, hi, rfl⟩)⟩)
    | load | store => exact .inl (isOneLine_append.2 ⟨by decide, ht.fullName _⟩)
    | call hmem _ hr hcall =>
      obtain ⟨-, -, rfl | ⟨x, type, -, rfl⟩⟩ := (hfits _ hmem).callTail hr hcall
      · refine .inl (isOneLine_append.2 ⟨by decide, ?_⟩)
        rcases h.routines _ _ hr with hplain | hprimitive
        · rw [hplain.hooks]
          exact ht.name _
        · cases htarget : Hooks.target _ with
          | none => exact ht.name _
          | some x =>
            have hmachine := hprimitive.target x htarget
            simp only [List.mem_cons, List.not_mem_nil, or_false] at hmachine
            rw [Option.getD_some]
            rcases hmachine with rfl | rfl | rfl <;> decide
      · exact .inl (isOneLine_append.2 ⟨by decide, ht.fullName x⟩)
  · exact .inl ((hquiet i hi).2.2 ht)

theorem Table.Holds.initialValue (h : t.Holds p) (hzero : p "''") (id : SymbolId) :
    Prints p [(t.symbol id).initialValue] := by
  have hvalue := h id
  unfold Symbol.initialValue
  cases hx : (t.symbol id).var? with
  | none => exact prints_of_isNumber rfl
  | some x =>
    cases hv : x.value with
    | some v => simpa [Table.value?, hx, hv] using hvalue
    | none =>
      cases htype : x.type with
      | none => exact prints_of_isNumber (by simp [hv, htype, Value.toFloat?])
      | some type => cases type <;> simp_all [Prints, DataType.zero]

structure Listing.Prints (p : String → Prop) (l : Listing) : Prop where
  data : ∀ entry ∈ l.data, IsOneLine entry.1 ∧ TurtleCompiler.Prints p [entry.2]
  blocks : ∀ b ∈ l.blocks, IsOneLine b.name ∧ (∀ x ∈ b.params, IsOneLine x) ∧
    ∀ i ∈ b.code, IsOneLine i.text ∨ ∃ s, p s ∧ ¬ IsOneLine s ∧ i = .push (.str s)

theorem prints_of_compile {source : String} {listing : Listing} (h : compile source = .ok listing)
    (hzero : p "''") (htokens : ∀ t ∈ (Feed.ofText source).tokens, t.1.Shows p) :
    listing.Prints p := by
  obtain ⟨w, w', hlower, hlink⟩ := compile_eq_ok h
  obtain ⟨entry, hready⟩ := ready_of_lower hlower
  obtain ⟨htidy, hholds, hbodies⟩ := prints_of_lower hzero htokens hlower
  refine ⟨?_, fun b hb => ?_⟩
  · rw [(link_eq_ok hlink).1, List.forall_mem_map]
    exact fun id _ => ⟨htidy.fullName id, hholds.initialValue hzero id⟩
  · obtain ⟨targets, -, hblocks, -⟩ := hready.link hlink
    rw [hblocks, List.mem_filterMap] at hb
    obtain ⟨id, -, hid⟩ := hb
    obtain ⟨d, -, hblock⟩ := Table.exists_code_of_blockOf? hid
    obtain ⟨r, -, -, -, heq⟩ := Definition.block?_cases hblock
    refine ⟨heq ▸ htidy.name _, fun x hx => ?_,
      fun i hi => hready.text_cases htidy (hbodies id) hid hi⟩
    obtain ⟨param, -, rfl⟩ := List.mem_map.1 (heq ▸ hx)
    exact htidy.fullName param

theorem Listing.Prints.dataLine {l : Listing} (h : l.Prints p) {line : String}
    (hline : line ∈ l.dataLines) :
    IsOneLine line ∨ ∃ s, p s ∧ ¬ IsOneLine s ∧
      ∃ name, (name, .str s) ∈ l.data ∧ line = Listing.dataLine name (.str s) := by
  unfold Listing.dataLines at hline
  split at hline
  · simp at hline
  · simp only [List.mem_append, List.mem_cons, List.not_mem_nil, or_false, List.mem_map] at hline
    rcases hline with (rfl | rfl) | ⟨⟨name, value⟩, hentry, rfl⟩
    · exact .inl (by decide)
    · exact .inl (by decide)
    · obtain ⟨hname, hvalue⟩ := h.data _ hentry
      rcases Value.text_cases hvalue with htext | ⟨s, hs, hmulti, heq⟩
      · have hblanks :
            IsOneLine (String.ofList (List.replicate (8 - name.length) ' ')) := by simp [IsOneLine]
        exact .inl
          (isOneLine_append.2
            ⟨isOneLine_append.2 ⟨isOneLine_append.2 ⟨hname, hblanks⟩, by decide⟩,
              htext⟩)
      · exact .inr ⟨s, hs, hmulti, name, heq ▸ hentry, by rw [← heq]⟩

theorem Listing.Prints.line {l : Listing} (h : l.Prints p) {line : String}
    (hline : line ∈ l.lines) :
    IsOneLine line ∨ ∃ s, p s ∧ ¬ IsOneLine s ∧
      ((∃ b ∈ l.blocks, Instr.push (.str s) ∈ b.code ∧ line = "PUSH " ++ s) ∨
      ∃ name, (name, .str s) ∈ l.data ∧ line = Listing.dataLine name (.str s)) := by
  simp only [Listing.lines, List.mem_append, List.mem_cons, List.not_mem_nil, or_false,
    List.mem_flatMap] at hline
  rcases hline with (((rfl | hline) | hline) | rfl | rfl) | ⟨b, hb, hline⟩
  · exact .inl (by decide)
  · refine .inl ?_
    split at hline <;> simp at hline
    rcases hline with rfl | rfl <;> decide
  · refine (h.dataLine hline).imp_right ?_
    rintro ⟨s, hs, hmulti, hdata⟩
    exact ⟨s, hs, hmulti, .inr hdata⟩
  · exact .inl (by decide)
  · exact .inl (by decide)
  · obtain ⟨hname, hparams, hcode⟩ := h.blocks b hb
    simp only [Block.lines, List.mem_append, List.mem_cons, List.not_mem_nil, or_false,
      List.mem_map] at hline
    rcases hline with (((rfl | rfl) | ⟨x, hx, rfl⟩) | ⟨i, hi, rfl⟩) | rfl
    · exact .inl (by decide)
    · exact .inl (isOneLine_append.2 ⟨isOneLine_append.2 ⟨by decide, hname⟩, by decide⟩)
    · exact .inl (isOneLine_append.2 ⟨by decide, hparams x hx⟩)
    · refine (hcode i hi).imp_right ?_
      rintro ⟨s, hs, hmulti, heq⟩
      refine ⟨s, hs, hmulti, .inl ⟨b, hb, heq ▸ hi, ?_⟩⟩
      rw [heq]
      rfl
    · refine .inl ?_
      unfold Block.lastLine
      split <;> decide

end Listings

section Text

theorem not_mem_of_mem_splitOn {x : Char} {l piece : List Char} (h : piece ∈ l.splitOn x) :
    x ∉ piece := by
  induction l generalizing piece with
  | nil => simp_all
  | cons c l ih =>
    rw [List.splitOn_cons_eq_if_modifyHead] at h
    split at h
    · rcases List.mem_cons.1 h with rfl | h
      · simp
      · exact ih h
    · rename_i hc
      cases hsplit : l.splitOn x with
      | nil => simp [hsplit] at h
      | cons first rest =>
        rw [hsplit, List.forall_mem_cons] at ih
        rw [hsplit, List.modifyHead_cons, List.mem_cons] at h
        rcases h with rfl | h
        · have hne : c ≠ x := by simpa using hc
          simpa using ⟨hne.symm, ih.1⟩
        · exact ih.2 piece h

theorem Listing.isOneLine_indent {line : String} : IsOneLine (indent line) ↔ IsOneLine line := by
  unfold indent
  split
  · rfl
  · rw [isOneLine_append]
    exact and_iff_right (by decide)

theorem Listing.toList_render (l : Listing) :
    l.render.toList =
    ['\n'].intercalate (l.lines.map (fun line => (indent line).toList) ++ [[]]) := by
  unfold render
  induction l.lines with
  | nil => simp
  | cons line lines ih =>
    rw [List.map_cons, String.join_cons, String.toList_append, ih, List.map_cons, List.cons_append,
      List.intercalate_cons_of_ne_nil (by simp), String.toList_append]
    simp

theorem Listing.splitOn_render (l : Listing) :
    l.render.toList.splitOn '\n' = l.lines.map (fun line => (indent line).toList) ++ [[]] ↔
      ∀ line ∈ l.lines, IsOneLine line := by
  constructor
  · intro hsplit line hline
    rw [← isOneLine_indent]
    refine not_mem_of_mem_splitOn (l := l.render.toList) ?_
    rw [hsplit]
    exact List.mem_append_left _ (List.mem_map_of_mem hline)
  · intro hlines
    rw [toList_render, List.splitOn_intercalate _ _ (by simp)]
    simp only [List.forall_mem_append, List.forall_mem_map, List.forall_mem_singleton]
    exact ⟨fun line hline => isOneLine_indent.2 (hlines line hline), by simp⟩

end Text

/-- An entry with a line break shows a string literal of the source, which is pushed, or is the
initial value of a variable. The text of a listing has a line for each entry, the entry with its
indentation, just when there is no such entry. -/
theorem line_breaks_of_compile {source : String} {listing : Listing}
    (h : compile source = .ok listing) :
    ∃ tokens, tokenize source = .ok tokens ∧
      (∀ line ∈ listing.lines, '\n' ∈ line.toList → ∃ t ∈ tokens, t.lexeme = .string ∧
        '\n' ∈ t.text.toList ∧
          ((∃ b ∈ listing.blocks, Instr.push (.str t.text) ∈ b.code ∧
            line = "PUSH " ++ t.text) ∨
          ∃ name, (name, .str t.text) ∈ listing.data ∧
          line = Listing.dataLine name (.str t.text))) ∧
      (listing.render.toList.splitOn '\n' =
        listing.lines.map (fun line => (Listing.indent line).toList) ++ [[]] ↔
        ∀ line ∈ listing.lines, '\n' ∉ line.toList) := by
  cases hend : (Feed.ofText source).ending with
  | error e =>
    obtain ⟨e', he', -⟩ := compile_of_failure hend
    simp [h] at he'
  | ok last =>
    refine ⟨(Feed.ofText source).tokens.map (·.1), by simp [tokenize, hend, Except.map],
      fun line hline hbreak => ?_, listing.splitOn_render⟩
    -- a string of the listing is the zero of its type, which has one line, or the text of a token
    have hprints : listing.Prints fun x =>
        IsOneLine x ∨ ∃ entry ∈ (Feed.ofText source).tokens, entry.1.lexeme = .string ∧
        entry.1.text = x :=
      prints_of_compile h (.inl (by decide)) fun t ht hlexeme => .inr ⟨t, ht, hlexeme, rfl⟩
    obtain honeLine | ⟨s, hs, hmulti, hshown⟩ := hprints.line hline
    · exact absurd hbreak honeLine
    · obtain ⟨entry, hentry, hlexeme, rfl⟩ := hs.resolve_left hmulti
      exact ⟨entry.1, List.mem_map_of_mem hentry, hlexeme, not_not.1 hmulti, hshown⟩

theorem line_breaks_of_compile_greeting : ∃ listing,
    compile "T = 'one\ntwo' PRINT :T PRINT \"x\ny\" 'z'" = .ok listing ∧
    listing.lines.filter (fun line => '\n' ∈ line.toList) =
    ["T        'one\ntwo'", "PUSH \"x\ny\""] ∧
      ∃ tokens, tokenize "T = 'one\ntwo' PRINT :T PRINT \"x\ny\" 'z'" = .ok tokens ∧
      (∀ line ∈ listing.lines, '\n' ∈ line.toList → ∃ t ∈ tokens, t.lexeme = .string ∧
        '\n' ∈ t.text.toList ∧
          ((∃ b ∈ listing.blocks, Instr.push (.str t.text) ∈ b.code ∧
            line = "PUSH " ++ t.text) ∨
          ∃ name, (name, .str t.text) ∈ listing.data ∧
          line = Listing.dataLine name (.str t.text))) ∧
      (listing.render.toList.splitOn '\n' =
        listing.lines.map (fun line => (Listing.indent line).toList) ++ [[]] ↔
        ∀ line ∈ listing.lines, '\n' ∉ line.toList) := by
  obtain ⟨listing, h, hlines⟩ := exists_listing "T = 'one\ntwo' PRINT :T PRINT \"x\ny\" 'z'"
    (fun listing => listing.lines.filter (fun line => '\n' ∈ line.toList) =
      ["T        'one\ntwo'", "PUSH \"x\ny\""])
    (by decide +kernel)
  exact ⟨listing, h, hlines, line_breaks_of_compile h⟩

/-- A string that goes on after a line break puts what looks like an instruction into the text. -/
theorem string_breaks_line : ∃ listing, compile "PRINT \"a\n  HALT\"" = .ok listing ∧
    "PUSH \"a\n  HALT\"" ∈ listing.lines ∧ listing.lines.length = 9 ∧
    (listing.render.toList.splitOn '\n').length = 11 ∧
    listing.render.toList.splitOn '\n' ≠
    listing.lines.map (fun line => (Listing.indent line).toList) ++ [[]] :=
  exists_listing _ _ (by decide +kernel)

end TurtleCompiler
