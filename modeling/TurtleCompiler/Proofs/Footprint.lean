import TurtleCompiler.Proofs.Liveness
import TurtleCompiler.Proofs.Rules

/-!
A lowering uses every symbol that its trees read or call, and nothing else but what those depend on.
-/

namespace TurtleCompiler

inductive Access where
  | read (id : SymbolId)
  | write (id : SymbolId)
  | call (callee : SymbolId) (args : List Arg)

namespace Access

def mention? : Access → Option SymbolId
  | .read id => some id
  | .write _ => none
  | .call callee _ => some callee

def Fits (t : Table) : Access → Prop
  | .read id => t.IsVar id ∧ t.IsUsed id
  | .write id => t.IsVar id
  | .call callee args => t.IsUsed callee ∧
      ∃ r ∈ (t.symbol callee).routine?, r.aliasOf = none ∧ r.hooks.before = [] ∧
      (r.hooks.after = [] ∨ r.hooks.after = [storeFirst] ∧
        ∃ id type, args = [.output (.var id type)])

end Access

mutual

@[simp] def Expr.accesses : Expr → List Access
  | .const _ => []
  | .var id _ => [.read id]
  | .arith _ l r _ _ => l.accesses ++ r.accesses
  | .call callee args _ => .call callee args :: accessesOfArgs args
  | .cond c => c.accesses

@[simp] def accessesOfArgs : List Arg → List Access
  | [] => []
  | a :: args => a.accesses ++ accessesOfArgs args

@[simp] def Arg.accesses : Arg → List Access
  | .input e | .output e => e.accesses

@[simp] def Cond.accesses : Cond → List Access
  | .literal _ => []
  | .compare _ l r => l.accesses ++ r.accesses
  | .not c => c.accesses
  | .logic _ l r _ => l.accesses ++ r.accesses

end

mutual

@[simp] def Node.accesses : Node → List Access
  | .expr e => e.accesses
  | .assign _ target rhs => .write target :: rhs.accesses
  | .branch c _ => c.accesses
  | .label _ | .noOp => []
  | .block nodes => accessesOfNodes nodes

@[simp] def accessesOfNodes : List Node → List Access
  | [] => []
  | n :: nodes => n.accesses ++ accessesOfNodes nodes

end

theorem accessesOfArgs_input (es : List Expr) :
    accessesOfArgs (es.map .input) = es.flatMap Expr.accesses := by
  induction es with
  | nil => rfl
  | cons e es ih => simp [ih]

theorem accessesOfNodes_append (a b : List Node) :
    accessesOfNodes (a ++ b) = accessesOfNodes a ++ accessesOfNodes b := by
  induction a with
  | nil => rfl
  | cons n a ih => simp [ih]

variable {t : Table}

theorem Access.Fits.extends {t' : Table} {ms : List SymbolId} {a : Access} (h : a.Fits t)
    (he : t.Extends ms t') : a.Fits t' := by
  cases a with
  | read id => exact ⟨he.isVar h.1, he.isUsed h.2⟩
  | write id => exact he.isVar h
  | call callee args =>
    obtain ⟨hused, r, hr, hhooks⟩ := h
    exact ⟨he.isUsed hused, r, (he.routine hused.has).trans hr, hhooks⟩

structure Lowering.Adds (s : Lowering) (as : List Access) (s' : Lowering) : Prop where
  table : s.table.Extends (as.filterMap Access.mention?) s'.table
  fits : ∀ a ∈ as, a.Fits s'.table
  entry : s'.entry = s.entry
  mainBody : s'.mainBody = s.mainBody
  openRoutine : s'.openRoutine = s.openRoutine

namespace Lowering.Adds

variable {s s' s'' : Lowering} {as bs : List Access}

theorem refl (s : Lowering) : s.Adds [] s := ⟨.refl _, by simp, rfl, rfl, rfl⟩

theorem trans (h : s.Adds as s') (h' : s'.Adds bs s'') : s.Adds (as ++ bs) s'' where
  table := by
    rw [List.filterMap_append]
    exact h.table.trans h'.table
  fits a ha := by
    rcases List.mem_append.1 ha with ha | ha
    · exact (h.fits a ha).extends h'.table
    · exact h'.fits a ha
  entry := h'.entry.trans h.entry
  mainBody := h'.mainBody.trans h.mainBody
  openRoutine := h'.openRoutine.trans h.openRoutine

theorem congr (h : s.Adds as s') (hab : ∀ a, a ∈ as ↔ a ∈ bs) : s.Adds bs s' :=
  { h with
    table := h.table.mono fun m hm => by simpa only [List.mem_filterMap, hab] using hm
    fits := fun a ha => h.fits a ((hab a).2 ha) }

theorem live (h : s.Adds as s') (ht : s.table.Live) : s'.table.Live := ht.extends h.table

theorem setTable (h : s.table.Extends (as.filterMap Access.mention?) t)
    (hfits : ∀ a ∈ as, a.Fits t) : s.Adds as (s.setTable t) := ⟨h, hfits, rfl, rfl, rfl⟩

theorem addLabel (h : s.Adds as s') : s.Adds as s'.addLabel :=
  ⟨h.table, h.fits, h.entry, h.mainBody, h.openRoutine⟩

theorem noted (h : s.Adds as s') (notes : List Event) : s.Adds as (s'.noted notes) :=
  ⟨h.table, h.fits, h.entry, h.mainBody, h.openRoutine⟩

end Lowering.Adds

theorem IsName.dotless {s : String} (h : IsName s) : Dotless s := by
  intro hdot
  have := h.word _ hdot
  revert this
  decide

theorem IsName.toUpper_ne {s : String} (h : IsName s) : s.toUpper ≠ "TYPEIN" := by
  intro hs
  have := h.identifier
  simp [Lexeme.ofWord, hs] at this

namespace Table.Live

variable {t t₁ t₂ : Table} {name : String} {id : SymbolId} {args : List Arg} {e : Expr}

theorem call (h : t.Live) (hname : Dotless name)
    (hc : countUsage name (some .routine) t = .ok id t₁)
    {ms : List SymbolId} (he : t₁.Extends ms t₂) (hargs : name.toUpper = "TYPEIN" →
      ∃ id type, args = [.output (.var id type)]) (hcall : Expr.callTo t₂ name args = .ok e) :
    ∃ callee, e = .call callee args (t₂.symbol callee).type? ∧ t.Extends [callee] t₁ ∧
      (Access.call callee args).Fits t₂ := by
  obtain ⟨callee, hcallee, hext, hused⟩ := h.use_callee hname hc
  have h₂ := (h.extends hext).extends he
  obtain ⟨callee', hresolve, rfl⟩ := Expr.callTo_eq_ok.1 hcall
  have hcallee₂ := he.denotes (hext.denotes hcallee)
  obtain rfl := h₂.denotes_unique hcallee₂ (h₂.denotes_of_resolve hname hresolve)
  obtain ⟨r, hr, halias, hbefore, hafter⟩ := h₂.hooks_of_denotes hcallee₂
  exact ⟨callee, rfl, hext, he.isUsed hused, r, hr, halias, hbefore,
    hafter.imp_right fun ⟨ha, hn⟩ => ⟨ha, hargs hn⟩⟩

end Table.Live

namespace Lowering

variable {s s' s₀ : Lowering} {name op : String} {line : Nat} {l r e e' : Expr} {node : Node}
  {args : List Expr}

theorem adds_reference (ht : s.table.Live) (hname : Dotless name)
    (h : reference name line s = .ok e s') : s.Adds e.accesses s' ∧ e.isConst = false := by
  obtain ⟨id, t₁, j, t₂, hd, hc, rfl, rfl⟩ := reference_eq_ok h
  obtain ⟨hext, hvar, hused⟩ := ht.use_declared hname rfl hd hc
  exact ⟨.setTable hext (by simpa [Expr.ofVariable] using ⟨hvar, hused⟩), rfl⟩

theorem adds_random (ht : s.table.Live) (h : random s = .ok e s') :
    s.Adds e.accesses s' ∧ e.isConst = false := by
  obtain ⟨j, t, hc, he, rfl⟩ := random_eq_ok h
  obtain ⟨callee, rfl, hext, hfits⟩ :=
    ht.call (by decide) hc (.refl t) (fun h => absurd h (by decide +kernel)) he
  exact ⟨.setTable hext (by simpa using hfits), rfl⟩

theorem Adds.call {args : List Arg} {callee : SymbolId} {type : Option DataType}
    (h : s.Adds (accessesOfArgs args) s') (hext : s'.table.Extends [callee] t)
    (hfits : (Access.call callee args).Fits t) :
    s.Adds (Node.expr (.call callee args type)).accesses (s'.setTable t) := by
  have hcall : s'.Adds [.call callee args] (s'.setTable t) := .setTable hext (by simpa using hfits)
  refine (h.trans hcall).congr fun a => ?_
  simp [or_comm]

theorem adds_print (hargs : s₀.Adds (args.flatMap Expr.accesses) s) (ht : s.table.Live)
    (h : print args s = .ok node s') : s₀.Adds node.accesses s' := by
  obtain ⟨j, t, e, hc, he, rfl, rfl⟩ := print_eq_ok h
  obtain ⟨callee, rfl, hext, hfits⟩ :=
    ht.call (by decide) hc (.refl t) (fun h => absurd h (by decide +kernel)) he
  refine Adds.call (hargs.congr fun a => ?_) hext hfits
  rw [accessesOfArgs_input]
  simp

theorem adds_call (hargs : s₀.Adds (args.flatMap Expr.accesses) s) (ht : s.table.Live)
    (hname : IsName name) (h : call name args line s = .ok node s') :
    s₀.Adds node.accesses s' := by
  obtain ⟨i, t₁, j, t₂, e, hd, hc, he, rfl, rfl⟩ := call_eq_ok h
  have hext : s.table.Extends [] t₁ := ht.extends_declare hname.dotless hd
  obtain ⟨callee, rfl, hext', hfits⟩ := (ht.extends hext).call hname.dotless hc (.refl t₂)
    (fun h => absurd h hname.toUpper_ne) he
  refine Adds.call (hargs.congr fun a => ?_) (hext.trans hext') hfits
  rw [accessesOfArgs_input]
  simp

theorem adds_typein (ht : s.table.Live) (hname : Dotless name)
    (h : typein name line s = .ok node s') : s.Adds node.accesses s' := by
  obtain ⟨i, t₁, id, t₂, j, t₃, e, hi, hd, hc, he, rfl, rfl⟩ := typein_eq_ok h
  obtain ⟨callee, -, hext, -⟩ := ht.use_callee (by decide) hi
  obtain ⟨hext', hvar, hused⟩ := (ht.extends hext).use_declared hname rfl hd hc
  obtain ⟨callee', rfl, hext, hfits⟩ :=
    ht.call (by decide) hi hext' (fun _ => ⟨id, _, rfl⟩) he
  refine .setTable (hext.trans hext') ?_
  simpa [Expr.ofVariable] using ⟨hfits, hvar, hused⟩

theorem extends_setValue {t' : Table} {id : SymbolId} {v : Value}
    (h : Table.setValue id v t = .ok ⟨⟩ t') : t.Extends [] t' := by
  obtain ⟨-, rfl⟩ := Table.setValue_eq_ok h
  refine Table.extends_modifySymbol (Symbol.grows_setValue v _) ?_ ?_ <;>
    · unfold Symbol.setValue
      split <;> simp_all [Symbol.routine?]

theorem adds_assignment {rhs : Expr} (hrhs : s₀.Adds rhs.accesses s)
    (hconst : rhs.isConst → rhs.accesses = []) (ht : s.table.Live) (hname : Dotless name)
    (h : assignment name op rhs line s = .ok node s') : s₀.Adds node.accesses s' := by
  obtain ⟨compound, type, id, t₁, t₂, -, -, hd, rfl, hcases⟩ := assignment_eq_ok h
  have hext : s.table.Extends [] t₁ := Table.extends_declare hname rfl (.inl rfl) hd
  have hid := ht.sound.isVar_declare hd
  rcases hcases with ⟨v, -, hv, -, hset, rfl⟩ | ⟨-, -, hset, rfl⟩ | ⟨-, rfl, rfl⟩
  · have hext' := hext.trans (extends_setValue hset)
    have hadds : s.Adds [] (s.setTable t₂) := .setTable hext' (by simp)
    refine (hrhs.trans hadds).congr fun a => ?_
    simp [hconst (by simp [Expr.isConst, hv])]
  · have hext' := extends_setValue hset
    have hadds : s.Adds [.write id] (s.setTable t₂) :=
      .setTable (hext.trans hext') (by simpa [Access.Fits] using hext'.isVar hid)
    refine (hrhs.trans hadds).congr fun a => ?_
    simp [or_comm]
  · have hadds : s.Adds [.write id] (s.setTable t₂) :=
      .setTable hext (by simpa [Access.Fits] using hid)
    refine (hrhs.trans hadds).congr fun a => ?_
    simp [or_comm]

theorem adds_enter {notes : List Event} {u : Unit} (h : enter notes s = .ok u s') :
    s.Adds [] s' := by
  obtain rfl := enter_eq_ok.1 h
  exact (Adds.refl s).noted notes

end Lowering

theorem Expr.isConst_arithmetic {op : ArithOp} {l r e : Expr} {line : Nat}
    (h : Expr.arithmetic op l r line = .ok e) :
    e.accesses = l.accesses ++ r.accesses ∧ (e.isConst → l.isConst ∧ r.isConst) := by
  obtain ⟨-, -, value, rfl, ⟨rfl, -⟩ | ⟨x, y, v, hx, hy, -, rfl⟩⟩ :=
    Expr.arithmetic_eq_ok h
  · exact ⟨rfl, by simp [isConst, value?]⟩
  · exact ⟨rfl, by simp [isConst, hx, hy]⟩

theorem Expr.isConst_compare {op : RelOp} {l r : Expr} (h : (Expr.cond (.compare op l r)).isConst) :
    l.isConst ∧ r.isConst := by
  simp only [isConst, value?, Cond.value?] at h ⊢
  cases hl : l.value? <;> cases hr : r.value? <;> simp_all

theorem Expr.isConst_logic {op : LogicOp} {l r : Cond} {skip : Label}
    (h : (Expr.cond (.logic op l r skip)).isConst) :
    (Expr.cond l).isConst ∧ (Expr.cond r).isConst := by
  simp only [isConst, value?, Cond.value?] at h ⊢
  cases hl : l.value? <;> cases hr : r.value? <;> simp_all

namespace Source

variable {s s' : Lowering}

theorem Expr.Becomes.adds {e : Expr} {e' : TurtleCompiler.Expr} (h : e.Becomes s e' s')
    (hnames : ∀ x ∈ e.names, IsName x) (ht : s.table.Live) :
    s.Adds e'.accesses s' ∧ (e'.isConst → e'.accesses = []) := by
  induction h with
  | number => exact ⟨(Lowering.Adds.refl _).noted _, fun _ => rfl⟩
  | string | boolean => exact ⟨.refl _, fun _ => rfl⟩
  | var h =>
    obtain ⟨hadds, hconst⟩ :=
      Lowering.adds_reference (by exact ht) (hnames _ (List.mem_singleton_self _)).dotless h
    exact ⟨((Lowering.Adds.refl _).noted _).trans hadds, by simp [hconst]⟩
  | random h =>
    obtain ⟨hadds, hconst⟩ := Lowering.adds_random ht h
    exact ⟨hadds, by simp [hconst]⟩
  | plus _ _ ih => exact ⟨(ih hnames ht).1.noted _, (ih hnames ht).2⟩
  | minus _ harith ih =>
    obtain ⟨hacc, hisConst⟩ := Expr.isConst_arithmetic harith
    obtain ⟨hadds, hconst⟩ := ih hnames ht
    rw [hacc]
    exact ⟨hadds.noted _, fun he' => by simp [hconst (hisConst he').2]⟩
  | not _ ih =>
    obtain ⟨hadds, hconst⟩ := ih hnames ht
    refine ⟨hadds.noted _, fun he' => hconst ?_⟩
    simpa [TurtleCompiler.Expr.isConst, TurtleCompiler.Expr.value?, Cond.value?] using he'
  | arith _ _ _ harith ihl ihr =>
    obtain ⟨hacc, hisConst⟩ := Expr.isConst_arithmetic harith
    simp only [names, List.forall_mem_append] at hnames
    obtain ⟨hadds, hconst⟩ := ihl hnames.1 ht
    obtain ⟨hadds', hconst'⟩ := ihr hnames.2 (hadds.live ht)
    rw [hacc]
    exact ⟨(hadds.trans hadds').noted _,
      fun he' => by simp [hconst (hisConst he').1, hconst' (hisConst he').2]⟩
  | compare _ _ _ ihl ihr =>
    simp only [names, List.forall_mem_append] at hnames
    obtain ⟨hadds, hconst⟩ := ihl hnames.1 ht
    obtain ⟨hadds', hconst'⟩ := ihr hnames.2 (hadds.live ht)
    refine ⟨(hadds.trans hadds').noted _, fun he' => ?_⟩
    obtain ⟨hl, hr⟩ := Expr.isConst_compare he'
    simp [hconst hl, hconst' hr]
  | logic _ _ _ ihl ihr =>
    simp only [names, List.forall_mem_append] at hnames
    obtain ⟨hadds, hconst⟩ := ihl hnames.1 ht
    obtain ⟨hadds', hconst'⟩ := ihr hnames.2 (hadds.live ht)
    refine ⟨((hadds.trans hadds').noted _).addLabel, fun he' => ?_⟩
    obtain ⟨hl, hr⟩ := Expr.isConst_logic he'
    have hl' := hconst hl
    have hr' := hconst' hr
    simp_all

theorem EachBecomes.adds {es : List Expr} {es' : List TurtleCompiler.Expr}
    (h : EachBecomes es s es' s') (hnames : ∀ x ∈ es.flatMap Expr.names, IsName x)
    (ht : s.table.Live) : s.Adds (es'.flatMap TurtleCompiler.Expr.accesses) s' := by
  induction h with
  | nil => exact .refl _
  | cons he _ ih =>
    simp only [List.flatMap_cons, List.forall_mem_append] at hnames
    have hadds := (he.adds hnames.1 ht).1
    exact hadds.trans (ih hnames.2 (hadds.live ht))

mutual

theorem Stmt.Becomes.adds {st : Stmt} {s s' : Lowering} {n : Node} : st.Becomes s n s' →
    (∀ x ∈ st.names, IsName x) → s.table.Live → s.Adds n.accesses s'
  | .expr he, hnames, ht => (he.adds hnames ht).1
  | .assign hrhs h, hnames, ht => by
    simp only [Stmt.names, List.forall_mem_cons] at hnames
    obtain ⟨hadds, hconst⟩ := hrhs.adds hnames.2 ht
    exact Lowering.adds_assignment (hadds.noted _) hconst (hadds.live ht) hnames.1.dotless h
  | .call hargs h, hnames, ht => by
    simp only [Stmt.names, List.forall_mem_cons] at hnames
    have hadds := hargs.adds hnames.2 ht
    exact Lowering.adds_call (hadds.noted _) (hadds.live ht) hnames.1 h
  | .print hargs h, hnames, ht => by
    have hadds := hargs.adds hnames ht
    exact Lowering.adds_print (hadds.noted _) (hadds.live ht) h
  | .typein h, hnames, ht =>
    ((Lowering.Adds.refl _).noted _).trans
      (Lowering.adds_typein ht (hnames _ (List.mem_singleton_self _)).dotless h)
  | .ifThen htest hyes, hnames, ht => by
    simp only [Stmt.names, List.forall_mem_append] at hnames
    have hadds := (htest.adds hnames.1 ht).1
    have hadds' := hadds.trans (hyes.adds hnames.2 (hadds.live ht))
    simpa [accessesOfNodes_append] using (hadds'.noted _).addLabel
  | .ifElse htest hyes hno, hnames, ht => by
    simp only [Stmt.names, List.forall_mem_append] at hnames
    have hadds := (htest.adds hnames.1 ht).1
    have hadds' := hadds.trans (hyes.adds hnames.2.1 (hadds.live ht))
    have hadds'' := hadds'.trans (hno.adds hnames.2.2 (hadds'.live ht))
    simpa [accessesOfNodes_append, Node.jump] using (hadds''.noted _).addLabel.addLabel
  | .whileDo htest hbody, hnames, ht => by
    simp only [Stmt.names, List.forall_mem_append] at hnames
    have hadds := (htest.adds hnames.1 ht).1
    have hadds' := hadds.trans (hbody.adds hnames.2 (hadds.live ht))
    simpa [accessesOfNodes_append, Node.jump] using (hadds'.noted _).addLabel.addLabel

theorem AllBecome.adds {ss : List Stmt} {s s' : Lowering} {ns : List Node} :
    AllBecome ss s ns s' → (∀ x ∈ namesOfAll ss, IsName x) → s.table.Live →
    s.Adds (accessesOfNodes ns) s'
  | .nil, _, _ => .refl _
  | .cons hn hns, hnames, ht => by
    simp only [namesOfAll, List.forall_mem_append] at hnames
    have hadds := hn.adds hnames.1 ht
    exact hadds.trans (hns.adds hnames.2 (hadds.live ht))

end

end Source

end TurtleCompiler
