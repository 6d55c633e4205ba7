import TurtleCompiler.Proofs.StraightLine

/-!
What the code of a source without branches and loops prints. All variables of such a source hold
numbers, and start with zero unless the first assignment in the text gives them a constant.
-/

namespace TurtleCompiler

open Source

def Value.IsZero (v : Value) : Prop := ∃ type : DataType, type.isNumeric ∧ v = type.zero

namespace Symbol

variable {s : Symbol}

def IsNumeric (s : Symbol) : Prop := ∀ v ∈ s.var?, ∀ type ∈ v.type, type.isNumeric

theorem IsNumeric.of_kind {s' : Symbol} (h : s.IsNumeric) (hkind : s'.kind = s.kind) :
    s'.IsNumeric := by
  unfold IsNumeric var?
  rw [hkind]
  exact h

theorem IsNumeric.merge (h : s.IsNumeric) (line : Option Nat) {f : Fields}
    (hf : ∀ type ∈ f.type, type.isNumeric) : (s.merge line f).2.IsNumeric := by
  obtain ⟨name, line', usage, scope, fullName, v | r⟩ := s
  · unfold Symbol.merge
    dsimp only
    split
    · exact h
    · rintro v' hv' type htype
      obtain rfl := Option.some.inj hv'
      rw [Option.mem_def, updateVariable, Option.orElse_eq_orElse, Option.orElse_eq_some] at htype
      rcases htype with htype | ⟨-, htype⟩
      · exact hf type htype
      · exact h v rfl type htype
  · unfold Symbol.merge
    dsimp only
    split <;> rintro v ⟨⟩

theorem IsNumeric.setValue (h : s.IsNumeric) (v : Value) : (s.setValue v).IsNumeric := by
  obtain ⟨name, line, usage, scope, fullName, x | r⟩ := s
  · rintro x' hx' type htype
    obtain rfl := Option.some.inj hx'
    exact h x rfl type htype
  · exact h

theorem IsNumeric.isNumeric_type (h : s.IsNumeric) (hs : s.cls = .var) :
    (s.type?.getD .float).isNumeric := by
  obtain ⟨name, line, usage, scope, fullName, ⟨value, _ | type⟩ | r⟩ := s
  · rfl
  · exact h _ rfl type rfl
  · simp [cls] at hs

theorem IsNumeric.isZero_initialValue (h : s.IsNumeric)
    (hv : ∀ v ∈ s.var?.bind (·.value), v.IsZero) : s.initialValue.IsZero := by
  obtain ⟨name, line, usage, scope, fullName, ⟨_ | v, _ | type⟩ | r⟩ := s
  · exact ⟨.int, rfl, rfl⟩
  · exact ⟨type, h _ rfl type rfl, rfl⟩
  · exact hv v rfl
  · exact hv v rfl
  · exact ⟨.int, rfl, rfl⟩

end Symbol

namespace Table

variable {t t' : Table} {id : SymbolId} {name : String} {elided elided' : List String}
  {as : List SymbolId}

structure Numeric (t : Table) (elided : List String) : Prop where
  type : ∀ id, (t.symbol id).IsNumeric
  zero : ∀ {id v}, t.value? id = some v → (t.symbol id).name.toUpper ∉ elided → v.IsZero

theorem isNumeric_declare {reach : Reach} {cls : SymbolClass} {line : Option Nat} {f : Fields}
    (h : ∀ id, (t.symbol id).IsNumeric) (hf : ∀ type ∈ f.type, type.isNumeric)
    (hd : declare reach name cls line f t = .ok id t') (i : SymbolId) :
    (t'.symbol i).IsNumeric := by
  rcases symbol_declare hd i with hi | ⟨-, hi⟩ | ⟨-, _, _, kind, hkind, hi⟩ <;> rw [hi]
  · exact h i
  · exact (h i).merge line hf
  · obtain ⟨-, rfl⟩ | ⟨-, rfl⟩ := ofFields_eq_ok hkind
    · rintro v hv type htype
      obtain rfl := Option.some.inj hv
      exact hf type htype
    · rintro v ⟨⟩

theorem Counts.isNumeric (h : t.Counts t') (ht : ∀ id, (t.symbol id).IsNumeric) (id : SymbolId) :
    (t'.symbol id).IsNumeric :=
  (ht id).of_kind (h.kind id)

theorem Heeds.isNumeric {m : Mention} (h : Heeds m t t') (hm : ∀ x, m ≠ .write x)
    (ht : ∀ id, (t.symbol id).IsNumeric) : ∀ id, (t'.symbol id).IsNumeric := by
  cases h with
  | read hd hc | call hd hc =>
    exact (Counts.countUsage hc).isNumeric (isNumeric_declare ht (by simp) hd)
  | write => exact absurd rfl (hm _)
  | primitive _ hc => exact (Counts.countUsage hc).isNumeric ht

theorem HeedsAll.isNumeric {ms : List Mention} (h : HeedsAll ms t t') (hms : ∀ x, .write x ∉ ms)
    (ht : ∀ id, (t.symbol id).IsNumeric) : ∀ id, (t'.symbol id).IsNumeric := by
  induction ms generalizing t with
  | nil =>
    obtain rfl : t' = t := h
    exact ht
  | cons m ms ih =>
    obtain ⟨t₁, hm, h⟩ := h
    refine ih h (fun x hx => hms x (List.mem_cons_of_mem _ hx)) (hm.isNumeric ?_ ht)
    rintro x rfl
    exact hms x List.mem_cons_self

namespace Numeric

variable (h : t.Numeric elided)

include h

theorem mono (hsubset : elided ⊆ elided') : t.Numeric elided' :=
  ⟨h.type, fun hv hname => h.zero hv fun hmem => hname (hsubset hmem)⟩

theorem leads (hleads : t.Leads t') (htype : ∀ id, (t'.symbol id).IsNumeric)
    (hvalue : t'.value? = t.value?) : t'.Numeric elided := by
  refine ⟨htype, fun {id v} hv hname => ?_⟩
  rw [hvalue] at hv
  have hid : t.Has id := by
    by_contra hid
    simp [value?_of_not_has hid] at hv
  rw [(hleads.grows hid).name] at hname
  exact h.zero hv hname

theorem setValue {v : Value} (hid : t.IsVar id) (hset : Table.setValue id v t = .ok ⟨⟩ t')
    (hv : (t.symbol id).name.toUpper ∉ elided → v.IsZero) : t'.Numeric elided := by
  have hvalue := value?_setValue hid hset
  obtain ⟨-, rfl⟩ := setValue_eq_ok hset
  refine ⟨fun i => ?_, fun {i w} hw hname => ?_⟩
  · rw [symbol_modifySymbol hid.1]
    split
    · exact (h.type i).setValue v
    · exact h.type i
  · have hgrows := (edits_setValue hset).symbol i
    rw [hgrows.name] at hname
    rw [hvalue] at hw
    split at hw
    · subst_vars
      obtain rfl := Option.some.inj hw
      exact hv hname
    · exact h.zero hw hname

end Numeric

structure Supplied (t : Table) : Prop where
  typein : ∃ id, t.Denotes "TYPEIN" id ∧ t.isTypein id
  random : ∃ id, t.Denotes "RANDOM" id ∧
    ∃ r ∈ (t.symbol id).routine?, (r.type.getD .float).isNumeric

theorem Leads.isTypein (h : t.Leads t') (hid : t.Has id) : t'.isTypein id = t.isTypein id := by
  have hmap (t : Table) : t.isTypein id =
      ((t.symbol id).routine?.map fun r => (r.flags, r.hooks)).any fun r =>
      r.2 = { target := some "READ", after := [storeFirst] } := by
    simp [Table.isTypein, Option.any_map]
  rw [hmap, hmap, h.routine hid]

theorem Supplied.extends (h : t.Supplied) (hext : t.Extends as t') : t'.Supplied where
  typein := by
    obtain ⟨id, hid, htypein⟩ := h.typein
    refine ⟨id, hext.denotes hid, ?_⟩
    unfold isTypein at htypein ⊢
    rwa [hext.routine hid.has]
  random := by
    obtain ⟨id, hid, htype⟩ := h.random
    refine ⟨id, hext.denotes hid, ?_⟩
    rwa [hext.routine hid.has]

end Table

namespace Lowering

variable {s s' : Lowering} {home : String → String} {seen elided : List String} {as : List Access}

structure Straight (s : Lowering) (home : String → String) (seen elided : List String) : Prop
    extends s.Scoped home seen where
  supplied : s.table.Supplied
  numeric : s.table.Numeric elided

theorem Straight.uses {ms : List Mention} (h : s.Straight home seen elided) (ha : s.Adds as s')
    (hh : Table.HeedsAll ms s.table s'.table) (hms : ∀ x, .write x ∉ ms) :
    s'.Straight home seen elided ∧ s.table.Leads s'.table := by
  have hsteps : Table.Steps (ms.filterMap Mention.var?) False s.table s'.table :=
    hh.steps (fun m hm x hx => List.mem_filterMap.2 ⟨m, hm, hx⟩) hms
  obtain ⟨hscoped, hleads⟩ := h.toScoped.steps ha hsteps
  exact ⟨⟨hscoped, h.supplied.extends ha.table,
    h.numeric.leads hleads (hh.isNumeric hms h.numeric.type) hsteps.value?⟩, hleads⟩

end Lowering

namespace Source

variable {p : Processor} {home : String → String} {s s' s₁ : Lowering}
  {seen elided : List String} {e' : TurtleCompiler.Expr}

theorem Expr.Becomes.straight {e : Expr} (h : e.Becomes s e' s')
    (hnames : ∀ x ∈ e.names, IsName x) (hs : s.Straight home seen elided) :
    s'.Straight home seen elided ∧ s.table.Leads s'.table :=
  hs.uses (h.adds hnames hs.live).1 h.heeds e.write_not_mem

theorem straight_noted (hs : s.Straight home seen elided) (notes : List Event) :
    (s.noted notes).Straight home seen elided :=
  ⟨scoped_noted hs.toScoped notes, hs.supplied, hs.numeric⟩

theorem Expr.Becomes.isNumeric {e : Expr} (h : e.Becomes s e' s') (he : e.isNumeric)
    (hnames : ∀ x ∈ e.names, IsName x) (hs : s.Straight home seen elided) :
    e'.dataType.isNumeric := by
  obtain ⟨hs', -⟩ := h.straight hnames hs
  cases h with
  | number hv =>
    split at hv
    all_goals
      obtain ⟨x, -, rfl⟩ := Option.map_eq_some_iff.1 hv
      rfl
  | var h =>
    obtain ⟨id, t₁, j, t₂, hd, hc, rfl, rfl⟩ := Lowering.reference_eq_ok h
    obtain ⟨hid, -⟩ := hs.homes.use hs.live (hnames _ (List.mem_singleton_self _)).dotless hd hc
    exact (hs'.numeric.type id).isNumeric_type hid.1.2
  | random h =>
    obtain ⟨j, t, hc, hcall, rfl⟩ := Lowering.random_eq_ok h
    obtain ⟨id, hid, r, hr, htype⟩ := hs'.supplied.random
    obtain rfl := callee_eq hs'.live (by decide) hid hcall
    rwa [TurtleCompiler.Expr.dataType, Symbol.type?_of_routine? hr]
  | plus _ htype => exact htype
  | minus _ harith | arith _ _ _ harith =>
    obtain ⟨-, -, value, rfl, -⟩ := Expr.arithmetic_eq_ok harith
    exact DataType.isNumeric_unify _ _
  | string | boolean | not | compare | logic => simp [Expr.isNumeric] at he

section Statements

variable {name op : String} {line : Nat} {n : Node} {site : Site}

theorem numeric_assignment {rhs : TurtleCompiler.Expr} (hs : s.Straight home seen elided)
    (hname : Dotless name) (hrhs : rhs.dataType.isNumeric)
    (h : Lowering.assignment name op rhs line s = .ok n s') :
    s'.table.Numeric elided ∨ n = .noOp ∧ s'.table.Numeric (elided ++ [name.toUpper]) := by
  obtain ⟨compound, type, id, t₁, t₂, -, hrun, hd, rfl, hcases⟩ :=
    Lowering.assignment_eq_ok h
  have htype := Lowering.isNumeric_assignedType hrhs hrun
  have hid := hs.homes.isAt_declare hs.live.sound hname rfl hd
  have hvalue := Table.value?_declare rfl hd
  have hleads : s.table.Leads t₁ :=
    .of_extends (Table.extends_declare hname rfl (.inl rfl) hd) fun hv => by rwa [hvalue]
  have hnumeric :=
    hs.numeric.leads hleads (Table.isNumeric_declare hs.numeric.type (by simpa using htype) hd)
    hvalue
  rcases hcases with ⟨v, -, -, -, hset, rfl⟩ | ⟨-, -, hset, -⟩ | ⟨-, rfl, -⟩
  · -- the constant need not be zero
    refine .inr
      ⟨rfl, (hnumeric.mono (List.subset_append_left _ _)).setValue hid.1 hset fun hmem => ?_⟩
    simp [hid.2.2] at hmem
  · exact .inl (hnumeric.setValue hid.1 hset fun _ => ⟨type, htype, rfl⟩)
  · exact .inl hnumeric

structure Renders (p : Processor) (home : String → String) (s : Lowering) (mv : Move) (n : Node)
    (s' : Lowering) (seen elided : List String) : Prop where
  state : s'.Straight home seen elided
  leads : s.table.Leads s'.table
  node : ∀ {t}, s'.table.Leads t → mv.Matches p home t n

theorem matches_assign {marked : Bool} {x : String} {o : Option ArithOp} {rhs : Expr} {t : Table}
    (h : Translates p home s (.assign marked x o rhs) [n] s' seen) (ht : s'.table.Leads t) :
    (Move.assign marked x o rhs).Matches p home t n := by
  obtain ⟨d, hd, hmatches⟩ := h.built
  generalize s.labels = k, s'.labels = k' at hd
  cases hmatches ht with
  | elided hconst hplain =>
    cases hd with
    | elided => exact .elided hconst hplain
  | assign hid hrhs =>
    cases hd with
    | assignment => exact .assign hid hrhs

theorem matches_print {args : List Expr} {t : Table}
    (h : Translates p home s (.print args) [n] s' seen)
    (ht : s'.table.Leads t) : (Move.print args).Matches p home t n := by
  obtain ⟨d, hd, hmatches⟩ := h.built
  generalize s.labels = k, s'.labels = k' at hd
  cases hmatches ht with
  | print hprint hlength hargs =>
    cases hd with
    | print => exact .print hprint hlength hargs

theorem renders_assign {rhs : Expr} {mv : Move}
    (hmove : (Stmt.assign name op rhs site).move? seen = some mv)
    (hnames : ∀ x ∈ (Stmt.assign name op rhs site).names, IsName x)
    (hs : s.Straight home seen elided) (h : (Stmt.assign name op rhs site).Becomes s n s') :
    Renders p home s mv n s' (seen ++ [name.toUpper]) (elided ++ mv.marked?.toList) := by
  simp only [Stmt.move?, Option.ite_none_right_eq_some, Option.some.injEq] at hmove
  obtain ⟨hrhs, rfl⟩ := hmove
  have htranslates := h.translates (p := p) (Expr.isValue_of_isNumeric hrhs) hnames hs.toScoped
  refine ⟨⟨htranslates.state, hs.supplied.extends (h.adds hnames hs.live).table, ?_⟩,
    htranslates.leads, matches_assign htranslates⟩
  have hmatches := matches_assign htranslates (.refl _)
  obtain - | ⟨hlower, h⟩ := h
  simp only [Stmt.names, List.forall_mem_cons] at hnames
  have hs₁ := straight_noted (hlower.straight hnames.2 hs).1 site.notes
  -- only what is marked becomes a node without code
  generalize (decide (name.toUpper ∉ seen) && rhs.isConstant) = marked at hmatches ⊢
  rcases numeric_assignment hs₁ hnames.1.dotless (hlower.isNumeric hrhs hnames.2 hs)
    h with hnumeric | ⟨rfl, hnumeric⟩
  · exact hnumeric.mono (List.subset_append_left _ _)
  · cases hmatches with
    | elided => exact hnumeric

theorem renders_print {first : Expr} {more : List Expr} {mv : Move}
    (hmove : (Stmt.print first more site).move? seen = some mv)
    (hnames : ∀ x ∈ (Stmt.print first more site).names, IsName x)
    (hs : s.Straight home seen elided) (h : (Stmt.print first more site).Becomes s n s') :
    Renders p home s mv n s' seen (elided ++ mv.marked?.toList) := by
  simp only [Stmt.move?, Option.ite_none_right_eq_some, Option.some.injEq] at hmove
  obtain ⟨hargs, rfl⟩ := hmove
  have htranslates := h.translates (p := p) hargs hnames hs.toScoped
  have hwrite : ∀ x, .write x ∉ (Stmt.print first more site).mentions := by
    simp [Stmt.mentions, Expr.write_not_mem]
  obtain ⟨hs', hleads⟩ := hs.uses (h.adds hnames hs.live) h.heeds hwrite
  rw [Move.marked?, Option.toList_none, List.append_nil]
  exact ⟨hs', hleads, matches_print htranslates⟩

theorem renders_typein (hname : IsName name) (hs : s.Straight home seen elided)
    (h : (Stmt.typein name site).Becomes s n s') :
    Renders p home s (.read name.toUpper) n s' seen elided := by
  have hadds := h.adds (by simpa [Stmt.names] using hname) hs.live
  obtain ⟨hs', hleads⟩ := hs.uses hadds h.heeds (by simp [Stmt.mentions])
  refine ⟨hs', hleads, fun ht => ?_⟩
  obtain - | - | - | - | h := h
  obtain ⟨i, t₁, id, t₂, j, t₃, e, hi, hd, hc, hcall, rfl, rfl⟩ := Lowering.typein_eq_ok h
  obtain ⟨callee, -, hext, -⟩ := hs.live.use_callee (by decide) hi
  have hhomes := hs.homes.edits (Table.Counts.countUsage hi).toEdits
  obtain ⟨hid, hused⟩ := hhomes.use (hs.live.extends hext) hname.dotless hd hc
  obtain ⟨callee', hcallee, htypein⟩ := hs'.supplied.typein
  obtain rfl := callee_eq hs'.live (by decide) hcallee hcall
  rw [← ht.isTypein hcallee.has] at htypein
  exact .read htypein (ht.isAt hid) (ht.isUsed hused)

theorem Stmt.renders {st : Stmt} {mv : Move} (hmove : st.move? seen = some mv)
    (hnames : ∀ x ∈ st.names, IsName x) (hs : s.Straight home seen elided)
    (h : st.Becomes s n s') : Renders p home s mv n s' (seen ++ st.assigns)
    (elided ++ mv.marked?.toList) := by
  cases st with
  | assign => exact renders_assign hmove hnames hs h
  | print =>
    rw [assigns, List.append_nil]
    exact renders_print hmove hnames hs h
  | typein =>
    obtain rfl := Option.some.inj hmove
    rw [assigns, Move.marked?, Option.toList_none, List.append_nil, List.append_nil]
    exact renders_typein (by simpa [names] using hnames) hs h
  | expr | call | ifThen | ifElse | whileDo => simp [move?] at hmove

end Statements

theorem pending_cons (mv : Move) (mvs : List Move) :
    pending (mv :: mvs) = mv.marked?.toList ++ pending mvs := by
  cases h : mv.marked? <;> simp [pending, h]

theorem renders_items {stmts : List Stmt} {mvs : List Move} {faults : List (Option Error)}
    (hmoves : moves? seen stmts = some mvs) (hnames : ∀ x ∈ namesOfAll stmts, IsName x)
    (hs : s.Straight home seen elided) (hb : s.table.StartsAt s.entry)
    (h : (stmts.map Item.statement).mapM Item.lower s = .ok faults s') :
    s'.entry = s.entry ∧ s'.table.StartsAt s.entry ∧ s.table.Leads s'.table ∧
      s'.table.Numeric (elided ++ pending mvs) ∧ ∃ ns, s'.mainBody = s.mainBody ++ ns ∧
        ∀ {t}, s'.table.Leads t → List.Forall₂ (Move.Matches p home t) mvs ns := by
  induction stmts generalizing s seen elided mvs faults with
  | nil =>
    obtain rfl := Option.some.inj hmoves
    simp only [List.map_nil, List.mapM_nil, pure_eq_ok] at h
    obtain ⟨-, rfl⟩ := h
    exact ⟨rfl, hb, .refl _, by simpa [pending] using hs.numeric, [], (List.append_nil _).symm,
      fun _ => .nil⟩
  | cons st stmts ih =>
    simp only [List.map_cons, List.mapM_cons, Item.lower, Lowering.addTopLevel, bind_eq_ok,
      modify_eq_ok, pure_eq_ok] at h
    obtain ⟨_, _, ⟨n, s₁, hn, _, _, rfl, rfl, rfl⟩, faults, _, hrest, -, rfl⟩ := h
    simp only [moves?, Option.bind_eq_bind, Option.bind_eq_some_iff, Option.pure_def,
      Option.some.injEq] at hmoves
    obtain ⟨mv, hmv, mvs, hmvs, rfl⟩ := hmoves
    simp only [namesOfAll, List.forall_mem_append] at hnames
    have hadds := (st.becomes hn).adds hnames.1 hs.live
    have hfirst : Renders p home s mv n s₁ _ _ := Stmt.renders hmv hnames.1 hs (st.becomes hn)
    have hentry : s₁.entry = s.entry := hadds.entry
    have hs₁ :
        ({ s₁ with mainBody := s₁.mainBody ++ [n] } : Lowering).Straight home
        (seen ++ st.assigns) (elided ++ mv.marked?.toList) := by
      obtain ⟨⟨hlive, hhomes, hparams, hprint, hrandom, hassigned⟩, hsupplied, hnumeric⟩ :=
        hfirst.state
      exact ⟨⟨hlive, hhomes, hparams, hprint, hrandom, hassigned⟩, hsupplied, hnumeric⟩
    obtain ⟨hentry', hbegins, hleads, hnumeric, ns, hbody, hnodes⟩ :=
      ih hmvs hnames.2 hs₁ (hentry ▸ hb.extends hadds.table) hrest
    rw [List.append_assoc, ← pending_cons] at hnumeric
    refine ⟨hentry'.trans hentry, hentry ▸ hbegins, hfirst.leads.trans hleads,
      hnumeric, n :: ns, ?_, fun ht => .cons (hfirst.node (hleads.trans ht)) (hnodes ht)⟩
    rw [hbody, hadds.mainBody, List.append_assoc]
    rfl

end Source

namespace Lowering

def IsSupplied (t : Table) : Prop :=
  (∀ id, t.Has id → ((t.symbol id).var?.bind (·.type)).isNone) ∧
    (∃ i < t.symbols.size, (t.IsRoutine "TYPEIN" ⟨i⟩ ∧ t.alias? ⟨i⟩ = none) ∧
      t.isTypein ⟨i⟩) ∧
    ∃ i < t.symbols.size, (t.IsRoutine "RANDOM" ⟨i⟩ ∧ t.alias? ⟨i⟩ = none) ∧
      ∃ r ∈ (t.symbol ⟨i⟩).routine?, (r.type.getD .float).isNumeric

instance (t : Table) : Decidable (IsSupplied t) := by
  unfold IsSupplied Table.IsRoutine
  infer_instance

theorem isSupplied_start : IsSupplied start.table := by decide +kernel

theorem straight_setup {entry : SymbolId} {w : Workspace} (h : setup {} = .ok entry w) :
    ({ toWorkspace := w, entry } : Lowering).Straight (fun _ => "") [] [] := by
  obtain ⟨-, htable⟩ := eq_start h
  have hfresh : IsFresh w.table := htable ▸ freshStart.2.1
  have hsupplied : IsSupplied w.table := htable ▸ isSupplied_start
  obtain ⟨hnone, ⟨i, -, ⟨htypein, halias⟩, hi⟩, j, -, ⟨hrandom, halias'⟩, hj⟩ :=
    hsupplied
  refine ⟨(scoped_setup h).1,
    ⟨⟨_, ⟨_, htypein, .inl ⟨halias, rfl⟩⟩, hi⟩,
      ⟨_, ⟨_, hrandom, .inl ⟨halias', rfl⟩⟩, hj⟩⟩,
    fun id => ?_, fun {id v} hv _ => ?_⟩
  · intro v hv type htype
    by_cases hid : w.table.Has id
    · have hnone := hnone id hid
      simp [Option.mem_def.1 hv, Option.mem_def.1 htype] at hnone
    · obtain rfl :
          {} = v := by simpa [Table.symbol_of_not_has hid, blankSymbol, Symbol.var?] using hv
      simp at htype
  · by_cases hid : w.table.Has id
    · simpa [hv] using hfresh.1 id hid
    · simp [Table.value?_of_not_has hid] at hv

end Lowering

namespace Source

variable {p : Processor} {home : String → String} {t : Table}

theorem moves_of_compile {source : String} {listing : Listing} {stmts : List Stmt} {mvs : List Move}
    (h : compile source = .ok listing)
    (hparse : (parse (.ofText source)).items = stmts.map .statement)
    (hmoves : moves? [] stmts = some mvs) (p : Processor) :
    ∃ (t : Table) (ns : List Node) (rest : List Block), t.Fills listing ∧
      listing.blocks = ⟨entryName, [], codeOfNodes t ns⟩ :: rest ∧
      List.Forall₂ (Move.Matches p (fun _ => "") t) mvs ns ∧
      ∀ {x id}, t.IsGlobal x id → x ∉ pending mvs → (t.symbol id).initialValue.IsZero := by
  obtain ⟨entry, w, faults, s, t, hsetup, hnames, hitems, hleads, hvar, ht, hblocks⟩ :=
    lowered_of_compile h hparse
  obtain ⟨hentry, hbegins, -, hnumeric, ns, hbody, hmatches⟩ :=
    renders_items (p := p) hmoves hnames (Lowering.straight_setup hsetup)
    (Lowering.scoped_setup hsetup).2 hitems
  obtain ⟨rest, hblocks⟩ := hblocks (hentry ▸ hbegins)
  have hbody : s.mainBody = ns := hbody
  refine ⟨t, ns, rest, ht, hbody ▸ hblocks, hmatches hleads,
    fun {x id} hid hx => ?_⟩
  -- after the last statement no variable changes
  rw [List.nil_append] at hnumeric
  have htype : (t.symbol id).IsNumeric := by
    rw [Symbol.IsNumeric, hvar]
    exact hnumeric.type id
  refine htype.isZero_initialValue fun v hv => ?_
  rw [hvar] at hv
  have hhas : s.table.Has id := by
    by_contra hhas
    simp [Table.symbol_of_not_has hhas, blankSymbol, Symbol.var?] at hv
  have hname : (s.table.symbol id).name.toUpper = x := by rw [← (hleads.grows hhas).name, hid.2.2]
  exact hnumeric.zero hv (hname ▸ hx)

def IsKnown (home : String → String) (t : Table) (x : String) : Prop :=
  ∃ id, t.IsAt home x id ∧ t.IsUsed id

namespace Move.Matches

variable {mv : Move} {n : Node}

theorem used (h : mv.Matches p home t n) : ∀ x ∈ mv.reads, IsKnown home t x := by
  cases h with
  | elided hrhs => simp [reads, Expr.closed_of_isConstant hrhs]
  | assign _ he => exact List.forall_mem_map.2 he.used
  | print _ _ hargs => exact List.forall_mem_map.2 (used_means hargs)
  | read => simp [reads]

theorem isMarked {init : String → Value} (h : mv.Matches p home t n) (ht : t.Sound)
    (hinit : ∀ {x id v}, t.IsAt home x id → t.IsUsed id → t.value? id = some v →
      init x = p.constant v) : mv.IsMarked p (IsKnown home t) init := by
  cases h with
  | @elided op x rhs _ hplain =>
    cases op with
    | some => trivial
    | none =>
      obtain ⟨id, v, hid, hv, heval⟩ := hplain rfl
      refine ⟨p.constant v, heval, ?_⟩
      rintro ⟨j, hj, hused⟩
      obtain rfl := ht.isAt_unique hid hj
      exact hinit hid hused hv
  | assign | print | read => trivial

end Move.Matches

end Source

def Listing.zeros (l : Listing) (x : String) : Value :=
  match l.initial x with
  | .float _ => .float 0.0
  | _ => .int 0

theorem Listing.zeros_eq {l : Listing} {x : String} (h : (l.initial x).IsZero) (p : Processor) :
    l.zeros x = p.constant (l.initial x) := by
  obtain ⟨type, htype, hx⟩ := h
  cases type with
  | int | float =>
    rw [zeros, hx]
    rfl
  | bool | str => simp [DataType.isNumeric] at htype

/-- Whatever the input is, the text of the first block, run by a machine that reads the constants
back, takes as much input as the source, and prints what the source prints when the marked
assignments are skipped. So it prints what the source prints if all variables are zero to start
with, as long as each marked assignment is the first move that has to do with its variable. -/
theorem straight_line_output {source : String} {listing : Listing} {stmts : List Stmt}
    {mvs : List Move} (h : compile source = .ok listing)
    (hparse : (parse (.ofText source)).items = stmts.map .statement)
    (hmoves : moves? [] stmts = some mvs) (p : Processor) :
    ∃ main rest, listing.blocks = main :: rest ∧ main.name = entryName ∧ main.params = [] ∧
      ∀ read, p.Reads read (listing.constants main) →
        ∀ (input : Nat → Value) (store : String → Value) (o : Ordering),
        (∀ e ∈ listing.data, store e.1 = p.constant (read e.2.text)) →
        ∃ s k, (p.terminal input).Reaches (main.code.map (.reread read))
            (.before (main.code.map (.reread read)), ⟨⟨store, 0, []⟩, [], o⟩, 0)
            (.before [], s, k) ∧
          (∃ m, performAll p input true mvs
              (.initial fun x => p.constant (listing.initial x), 0) = some (m, k) ∧
            m.printed = s.env.printed) ∧
          (areFirst mvs → ∃ m, performAll p input false mvs (.initial listing.zeros, 0) =
            some (m, k) ∧ m.printed = s.env.printed) := by
  obtain ⟨t, ns, rest, ht, hblocks, hmatches, hzero⟩ :=
    moves_of_compile h hparse hmoves p
  refine ⟨_, rest, hblocks, rfl, rfl, fun read hread input store o hstore => ?_⟩
  have hsame := ht.same_initial fun e he => (hstore e he).trans (hread.store he)
  obtain ⟨m, k, s, o', hrun, hs, hreaches⟩ :=
    @reaches_moves (codeOfNodes t ns) p input _ t _ _ mvs ns hmatches ht.sound hsame [] o 0 []
  rw [List.append_nil] at hreaches
  refine ⟨_, k, (Machine.through_reread (Processor.converse_reread hread.code)).2 hreaches,
    ⟨m, hrun, hs.printed⟩, fun hfirst => ?_⟩
  have hused :=
    ((List.forall₂_and_left _ _).1 (hmatches.imp fun _ _ hmv => ⟨hmv.used, hmv⟩)).1
  have hmarked : ∀ mv ∈ mvs,
      mv.IsMarked p (IsKnown (fun _ => "") t) fun x => p.constant (listing.initial x) := by
    refine ((List.forall₂_and_left _ _).1
      (hmatches.imp fun _ _ hmv => ⟨hmv.isMarked ht.sound fun hid hused hv => ?_, hmv⟩)).1
    rw [ht.initial_eq hid hused, Symbol.initialValue_of_value? hv]
  -- at the start both executions have zero for what is not marked
  have hbeside :
      Beside (IsKnown (fun _ => "") t) (fun x => p.constant (listing.initial x)) (pending mvs)
      (.initial fun x => p.constant (listing.initial x)) (.initial listing.zeros) := by
    refine ⟨rfl, rfl, ?_, fun _ _ => rfl, fun _ => rfl⟩
    rintro x ⟨id, hid, hused⟩ hx
    have hinitial := ht.initial_eq hid hused
    exact congrArg some (Listing.zeros_eq (hinitial ▸ hzero hid hx) p).symm
  obtain ⟨m', hrun', hprinted⟩ := performAll_beside hbeside hfirst hmarked hused hrun
  exact ⟨m', hrun', hprinted.trans hs.printed⟩

def multiplyingText : String := "X = 2 TYPEIN Y Z = :X * :Y X += 1 PRINT :X :Z"

theorem straight_line_output_product :
    ∃ (listing : Listing) (stmts : List Stmt) (mvs : List Move) (main : Block) (rest : List Block)
      (read : String → Value),
      compile multiplyingText = .ok listing ∧
      (parse (.ofText multiplyingText)).items = stmts.map .statement ∧
      moves? [] stmts = some mvs ∧ areFirst mvs ∧
      listing.blocks = main :: rest ∧ Processor.folding.Reads read (listing.constants main) ∧
      ∀ (input : Nat → Value) (store : String → Value) (o : Ordering),
        (∀ e ∈ listing.data, store e.1 = Processor.folding.constant (read e.2.text)) →
        ∃ s k m, (Processor.folding.terminal input).Reaches (main.code.map (.reread read))
            (.before (main.code.map (.reread read)), ⟨⟨store, 0, []⟩, [], o⟩, 0)
            (.before [], s, k) ∧
          performAll .folding input false mvs (.initial listing.zeros, 0) = some (m, k) ∧
          m.printed = s.env.printed := by
  obtain ⟨stmts, hparse, mvs, hmoves, hfirst⟩ := exists_statements multiplyingText
    (fun stmts => ∃ mvs ∈ moves? [] stmts, areFirst mvs) (by decide +kernel)
  obtain ⟨listing, h, hlegible⟩ := exists_listing multiplyingText
    (fun listing => ∀ b ∈ listing.blocks, ∀ v ∈ listing.constants b, v.IsLegible)
    (by decide +kernel)
  obtain ⟨main, rest, hblocks, -, -, houtput⟩ := straight_line_output h hparse hmoves .folding
  obtain ⟨read, hread⟩ := Processor.folding.exists_reads fun _ => rfl
  have hread := hread _ (hlegible main (hblocks ▸ List.mem_cons_self))
  refine ⟨listing, stmts, mvs, main, rest, read, h, hparse, hmoves, hfirst, hblocks, hread,
    fun input store o hstore => ?_⟩
  obtain ⟨s, k, hreaches, -, hsource⟩ := houtput read hread input store o hstore
  obtain ⟨m, hrun, hprinted⟩ := hsource hfirst
  exact ⟨s, k, m, hreaches, hrun, hprinted⟩

/-- A constant that is assigned after an input is there before it. The source prints 5, and the code
prints the input. -/
theorem elided_assignment_after_input :
    ∃ (listing : Listing) (stmts : List Stmt) (mvs : List Move) (main : Block) (rest : List Block)
      (store : String → Value), compile "TYPEIN X X = 5 PRINT :X" = .ok listing ∧
      (parse (.ofText "TYPEIN X X = 5 PRINT :X")).items = stmts.map .statement ∧
      moves? [] stmts = some mvs ∧ listing.blocks = main :: rest ∧
      (∀ e ∈ listing.data, store e.1 = e.2) ∧
      ¬ ∃ s k m, (Processor.folding.terminal fun _ => .int 7).Reaches main.code
          (.before main.code, ⟨⟨store, 0, []⟩, [], .eq⟩, 0) (.before [], s, k) ∧
        performAll .folding (fun _ => .int 7) false mvs (.initial listing.zeros, 0) =
        some (m, k) ∧ m.printed = s.env.printed := by
  obtain ⟨listing, h, hupper, main, hmain, hstop, hprinted, stmts, hstmts, mvs, hmoves, r, hrun,
      hsource⟩ :=
    exists_listing "TYPEIN X X = 5 PRINT :X"
      (fun listing => listing.IsUpper ∧ ∃ main ∈ listing.blocks.head?,
          ((Processor.folding.terminal fun _ => .int 7).step main.code
            (runFor ((Processor.folding.terminal fun _ => .int 7).step main.code) 20
              (.before main.code, ⟨⟨listing.initial, 0, []⟩, [], .eq⟩, 0))).isNone ∧
          (runFor ((Processor.folding.terminal fun _ => .int 7).step main.code) 20
            (.before main.code, ⟨⟨listing.initial, 0, []⟩, [], .eq⟩, 0)).2.1.env.printed.map
            Value.text = ["7"] ∧
          ∃ stmts ∈ (parse (.ofText "TYPEIN X X = 5 PRINT :X")).items.mapM Item.statement?,
            ∃ mvs ∈ moves? [] stmts,
              ∃ r ∈ performAll .folding (fun _ => .int 7) false mvs (.initial listing.zeros, 0),
                r.1.printed.map Value.text = ["5"])
      (by decide +kernel)
  obtain ⟨rest, hblocks⟩ := List.head?_eq_some_iff.1 hmain
  refine ⟨listing, stmts, mvs, main, rest, listing.initial, h, eq_map_statement hstmts, hmoves,
    hblocks, hupper.initial_eq, ?_⟩
  rintro ⟨s, k, m, hreaches, hm, hsame⟩
  have hend := Part.mem_unique
    (StateTransition.mem_eval.2 ⟨reaches_runFor 20, Option.isNone_iff_eq_none.1 hstop⟩)
    (StateTransition.mem_eval.2 ⟨hreaches, rfl⟩)
  rw [hend, ← hsame] at hprinted
  rw [Option.mem_unique hrun hm, hprinted] at hsource
  exact absurd hsource (by decide)

end TurtleCompiler
