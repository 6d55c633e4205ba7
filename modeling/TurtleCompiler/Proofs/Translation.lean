import TurtleCompiler.Proofs.Matching
import TurtleCompiler.Proofs.StaticTypes
import TurtleCompiler.Proofs.Structured

/-!
The statements of a piece of a source are lowered to commands that match them. A marked assignment
is one that the lowering leaves out.
-/

namespace TurtleCompiler

variable {op : ArithOp} {line : Nat}

theorem fold_eq_int {x y : Value} {n : Int64} (h : fold line op x y = .ok (.int n)) :
    ∃ i j, x = .int i ∧ y = .int j := by
  unfold fold at h
  split at h
  · exact ⟨_, _, rfl, rfl⟩
  · split at h
    · cases op <;> simp only [foldFloat, finite] at h <;> repeat' split at h
      all_goals simp at h
    · simp at h

theorem widen_fold {x y v : Value} {a b : DataType} (h : fold line op x y = .ok v)
    (hx : x.widen a = x) (hy : y.widen b = y) : v.widen (a.unify b) = v := by
  cases v with
  | float | bool | str => rfl
  | int n =>
    obtain ⟨i, j, rfl, rfl⟩ := fold_eq_int h
    have ha : a ≠ .float := by
      rintro rfl
      simp [Value.widen] at hx
    have hb : b ≠ .float := by
      rintro rfl
      simp [Value.widen] at hy
    have hunify : a.unify b = .int := by cases a <;> cases b <;> simp_all [DataType.unify]
    rw [hunify]
    rfl

theorem Processor.compute_constant (p : Processor) {x y v : Value} (h : fold line op x y = .ok v) :
    p.compute op (p.constant x) (p.constant y) = p.constant v := by
  have hx : x.dataType ≠ .bool := by cases x <;> simp_all [fold, Value.toFloat?, Value.dataType]
  have hy :
      y.dataType ≠
      .bool := by cases x <;> cases y <;> simp_all [fold, Value.toFloat?, Value.dataType]
  have hv : v.dataType ≠ .bool := by
    rcases dataType_fold h with ⟨-, -, hv | ⟨hv, -⟩⟩ | ⟨-, hv⟩ <;> rw [hv] <;> decide
  rw [p.constant_eq hx, p.constant_eq hy, p.constant_eq hv, p.compute_of_fold h]

namespace Source

variable {p : Processor} {home : String → String} {s s' s₁ : Lowering}
  {seen : List String} {e : Expr} {e' : TurtleCompiler.Expr} {es : List Expr}
  {es' : List TurtleCompiler.Expr}

theorem Expr.Becomes.scoped (h : e.Becomes s e' s') (hnames : ∀ x ∈ e.names, IsName x)
    (hs : s.Scoped home seen) : s'.Scoped home seen ∧ s.table.Leads s'.table :=
  hs.steps (h.adds hnames hs.live).1 h.steps

theorem scoped_noted (hs : s.Scoped home seen) (notes : List Event) :
    (s.noted notes).Scoped home seen :=
  hs.of_table ((Lowering.Adds.refl s).noted notes) rfl

theorem scoped_addLabel (hs : s.Scoped home seen) : s.addLabel.Scoped home seen :=
  hs.of_table (Lowering.Adds.refl s).addLabel rfl

theorem Expr.Becomes.isValue (h : e.Becomes s e' s') (htype : e'.dataType ≠ .bool) :
    e.isValue := by
  cases h with
  | not | compare | logic => exact absurd rfl htype
  | _ => rfl

theorem ne_bool_of_isNumeric {type : DataType} (h : type.isNumeric) : type ≠ .bool := by
  rintro rfl
  simp [DataType.isNumeric] at h

theorem callee_eq {name : String} {id : SymbolId} {args : List Arg} {e : TurtleCompiler.Expr}
    {t : Table} (ht : t.Live) (hname : Dotless name) (hid : t.Denotes name id)
    (h : TurtleCompiler.Expr.callTo t name args = .ok e) :
    e = .call id args (t.symbol id).type? := by
  obtain ⟨callee, hcallee, rfl⟩ := Expr.callTo_eq_ok.1 h
  rw [ht.denotes_unique hid (ht.denotes_of_resolve hname hcallee)]

structure Expr.Lowers (p : Processor) (home : String → String) (s : Lowering) (e : Expr)
    (e' : TurtleCompiler.Expr) (s' : Lowering) : Prop where
  labels : s'.labels = s.labels
  isConst : e'.isConst = e.isConstant
  value : ∀ {v}, e'.value? = some v → v.widen e'.dataType = v ∧
    ∀ m, e.eval p m = some (p.constant v, m)
  means : ∀ {t}, s'.table.Leads t → e.Means p home t e'

namespace Expr.Lowers

variable {e l r : Expr} {e' l' r' : TurtleCompiler.Expr} {site : Site}

theorem noted (h : e.Lowers p home s e' s') (notes : List Event) :
    e.Lowers p home s e' (s'.noted notes) :=
  ⟨h.labels, h.isConst, h.value, h.means⟩

theorem plus (h : e.Lowers p home s e' s') : (Expr.plus e site).Lowers p home s e' s' where
  labels := h.labels
  isConst := h.isConst
  value := h.value
  means ht := (h.means ht).plus

theorem minus {e'' : TurtleCompiler.Expr} (h : e.Lowers p home s e' s')
    (harith : TurtleCompiler.Expr.arithmetic .mul (.const (.int (-1))) e' line = .ok e'') :
    (Expr.minus e site).Lowers p home s e'' s' := by
  obtain ⟨-, -, value, rfl, hvalue⟩ := Expr.arithmetic_eq_ok harith
  refine ⟨h.labels, ?_, fun {v} hv => ?_, fun ht => (h.means ht).minus⟩
  · rw [isConstant, ← h.isConst]
    rcases hvalue with ⟨rfl, hconst⟩ | ⟨x, y, v, -, hy, -, rfl⟩
    · exact hconst.symm
    · simp [TurtleCompiler.Expr.isConst, TurtleCompiler.Expr.value?, hy]
  · rcases hvalue with ⟨rfl, -⟩ | ⟨x, y, w, hx, hy, hfold, rfl⟩
    · simp [TurtleCompiler.Expr.value?] at hv
    · obtain rfl := Option.some.inj hx
      obtain rfl := Option.some.inj hv
      obtain ⟨hwiden, heval⟩ := h.value hy
      refine ⟨widen_fold hfold rfl hwiden, fun m => ?_⟩
      simpa [Expr.eval, heval, Processor.constant] using p.compute_constant hfold

theorem arith {op : String} {op' : ArithOp} (hop : ArithOp.ofText? op = some op')
    (hl : l.Lowers p home s l' s₁) (hr : r.Lowers p home s₁ r' s')
    (hleads : s₁.table.Leads s'.table)
    (harith : TurtleCompiler.Expr.arithmetic op' l' r' line = .ok e') :
    (Expr.arith op l r site).Lowers p home s e' s' := by
  obtain ⟨-, -, value, rfl, hvalue⟩ := Expr.arithmetic_eq_ok harith
  refine ⟨hr.labels.trans hl.labels, ?_, fun {v} hv => ?_,
    fun ht => .arith hop (hl.means (hleads.trans ht)) (hr.means ht)⟩
  · rw [isConstant, ← hl.isConst, ← hr.isConst]
    rcases hvalue with ⟨rfl, hconst⟩ | ⟨x, y, v, hx, hy, -, rfl⟩
    · exact hconst.symm
    · simp [TurtleCompiler.Expr.isConst, TurtleCompiler.Expr.value?, hx, hy]
  · rcases hvalue with ⟨rfl, -⟩ | ⟨x, y, w, hx, hy, hfold, rfl⟩
    · simp [TurtleCompiler.Expr.value?] at hv
    · obtain rfl := Option.some.inj hv
      obtain ⟨hwiden, heval⟩ := hl.value hx
      obtain ⟨hwiden', heval'⟩ := hr.value hy
      refine ⟨widen_fold hfold hwiden hwiden', fun m => ?_⟩
      simp [Expr.eval, hop, heval, heval', p.compute_constant hfold]

end Expr.Lowers

theorem Expr.Becomes.lowers (h : e.Becomes s e' s') (he : e.isValue)
    (hnames : ∀ x ∈ e.names, IsName x) (hs : s.Scoped home seen) : e.Lowers p home s e' s' := by
  induction h with
  | @number v text site _ hv =>
    have hnumber : numeral? text = some v := hv
    have htype : v.dataType ≠ .bool := by
      unfold numeral? at hnumber
      split at hnumber <;> obtain ⟨_, -, rfl⟩ :=
        Option.map_eq_some_iff.1 hnumber <;> exact nofun
    have heval (m : Memory) : (Expr.number text site).eval p m = some (p.constant v, m) := by
      rw [Expr.eval, hnumber, p.constant_eq htype]
      rfl
    refine ⟨rfl, rfl, fun hw => ?_, fun _ => .const rfl heval⟩
    obtain rfl := Option.some.inj hw
    exact ⟨by cases v <;> rfl, heval⟩
  | string =>
    refine ⟨rfl, rfl, fun hw => ?_, fun _ => .const rfl fun _ => rfl⟩
    obtain rfl := Option.some.inj hw
    exact ⟨rfl, fun _ => rfl⟩
  | @boolean text =>
    refine ⟨rfl, rfl, fun hw => ?_, fun _ => .boolean text⟩
    obtain rfl := Option.some.inj hw
    exact ⟨rfl, fun _ => rfl⟩
  | var h =>
    obtain ⟨id, t₁, j, t₂, hd, hc, rfl, rfl⟩ := Lowering.reference_eq_ok h
    obtain ⟨hid, hused⟩ :=
      hs.homes.use hs.live (hnames _ (List.mem_singleton_self _)).dotless hd hc
    exact ⟨rfl, rfl, fun hw => by simp [Expr.ofVariable, TurtleCompiler.Expr.value?] at hw,
      fun ht => .var (ht.isAt hid) (ht.isUsed hused)⟩
  | random h =>
    have hs' := ((Expr.Becomes.random h).scoped hnames hs).1
    obtain ⟨j, t, hc, hcall, rfl⟩ := Lowering.random_eq_ok h
    obtain ⟨id, hid, hrandom⟩ := hs'.random
    obtain rfl := callee_eq hs'.live (by decide) hid hcall
    refine ⟨rfl, rfl, fun hw => by simp [TurtleCompiler.Expr.value?] at hw,
      fun ht => .random ?_⟩
    rwa [ht.isRandom hid.has]
  | plus h htype ih => exact ((ih (h.isValue (ne_bool_of_isNumeric htype)) hnames hs).noted _).plus
  | minus h harith ih =>
    have htype := (Expr.arithmetic_eq_ok harith).2.1
    exact ((ih (h.isValue (ne_bool_of_isNumeric htype)) hnames hs).noted _).minus harith
  | arith hl hr hop harith ihl ihr =>
    obtain ⟨hltype, hrtype, -⟩ := Expr.arithmetic_eq_ok harith
    simp only [names, List.forall_mem_append] at hnames
    obtain ⟨hs₁, -⟩ := hl.scoped hnames.1 hs
    have hlowers := ihl (hl.isValue (ne_bool_of_isNumeric hltype)) hnames.1 hs
    have hlowers' := ihr (hr.isValue (ne_bool_of_isNumeric hrtype)) hnames.2 hs₁
    exact hlowers.arith hop (hlowers'.noted _) (hr.scoped hnames.2 hs₁).2 harith
  | not | compare | logic => simp [Expr.isValue] at he

theorem Expr.Becomes.tests {c : Cond} (h : e.Becomes s (.cond c) s')
    (hnames : ∀ x ∈ e.names, IsName x) (hs : s.Scoped home seen) :
    c.Built s.labels s'.labels ∧ ∀ {t}, s'.table.Leads t → e.Tests p home t c := by
  generalize he : TurtleCompiler.Expr.cond c = e' at h
  induction h generalizing c with
  | @boolean text =>
    cases he
    exact ⟨.boolean rfl, fun _ => .boolean text⟩
  | compare hl hr h =>
    cases he
    obtain ⟨-, ⟨hltype, hrtype⟩, op', hop, he⟩ := Lowering.comparison_eq_ok h
    cases he
    simp only [names, List.forall_mem_append] at hnames
    obtain ⟨hs₁, -⟩ := hl.scoped hnames.1 hs
    obtain ⟨-, hleads⟩ := hr.scoped hnames.2 hs₁
    have hlowers := hl.lowers (p := p) (hl.isValue hltype) hnames.1 hs
    have hlowers' := hr.lowers (p := p) (hr.isValue hrtype) hnames.2 hs₁
    refine ⟨?_, fun ht => .compare hop (hlowers.means (hleads.trans ht)) (hlowers'.means ht)⟩
    rw [← hlowers.labels, ← hlowers'.labels]
    exact .comparison h
  | @not _ _ c' _ _ _ ih =>
    cases he
    obtain ⟨hbuilt, htests⟩ := ih hnames hs rfl
    have hrun : Lowering.negation (.cond c') 0 s = .ok (.cond (.not c')) s := rfl
    exact ⟨.negation hbuilt hrun, fun ht => (htests ht).not⟩
  | logic hl hr h ihl ihr =>
    cases he
    obtain ⟨-, op', _, _, hop, he, he', hlogic⟩ := Lowering.combination_eq_ok h
    cases he
    cases he'
    cases hlogic
    simp only [names, List.forall_mem_append] at hnames
    obtain ⟨hs₁, -⟩ := hl.scoped hnames.1 hs
    obtain ⟨-, hleads⟩ := hr.scoped hnames.2 hs₁
    obtain ⟨hbuilt, htests⟩ := ihl hnames.1 hs rfl
    obtain ⟨hbuilt', htests'⟩ := ihr hnames.2 hs₁ rfl
    exact ⟨.combination hbuilt hbuilt' (by exact Nat.le_refl _) h,
      fun ht => .logic hop (htests (hleads.trans ht)) (htests' ht)⟩
  | number | string => cases he
  | var h =>
    obtain ⟨id, t₁, j, t₂, -, -, rfl, -⟩ := Lowering.reference_eq_ok h
    cases he
  | random h =>
    obtain ⟨j, t, -, hcall, -⟩ := Lowering.random_eq_ok h
    obtain ⟨callee, -, rfl⟩ := Expr.callTo_eq_ok.1 hcall
    cases he
  | plus _ htype =>
    subst he
    exact absurd rfl (ne_bool_of_isNumeric htype)
  | minus _ harith | arith _ _ _ harith =>
    obtain ⟨-, -, value, rfl, -⟩ := Expr.arithmetic_eq_ok harith
    cases he

theorem EachBecomes.scoped (h : EachBecomes es s es' s')
    (hnames : ∀ x ∈ es.flatMap Expr.names, IsName x)
    (hs : s.Scoped home seen) : s'.Scoped home seen ∧ s.table.Leads s'.table :=
  hs.steps (h.adds hnames hs.live) h.steps

theorem EachBecomes.lowers (h : EachBecomes es s es' s') (hvalue : ∀ e ∈ es, e.isValue)
    (hnames : ∀ x ∈ es.flatMap Expr.names, IsName x) (hs : s.Scoped home seen) :
    s'.labels = s.labels ∧ ∀ {t}, s'.table.Leads t →
    List.Forall₂ (Expr.Means p home t) es es' := by
  induction h with
  | nil => exact ⟨rfl, fun _ => .nil⟩
  | cons he hes ih =>
    simp only [List.forall_mem_cons] at hvalue
    simp only [List.flatMap_cons, List.forall_mem_append] at hnames
    have hlowers := he.lowers (p := p) hvalue.1 hnames.1 hs
    obtain ⟨hs₁, -⟩ := he.scoped hnames.1 hs
    obtain ⟨hlabels, hmeans⟩ := ih hvalue.2 hnames.2 hs₁
    obtain ⟨-, hleads⟩ := hes.scoped hnames.2 hs₁
    exact ⟨hlabels.trans hlowers.labels,
      fun ht => .cons (hlowers.means (hleads.trans ht)) (hmeans ht)⟩

structure Translates (p : Processor) (home : String → String) (s : Lowering) (c : Task)
    (ns : List Node) (s' : Lowering) (seen : List String) : Prop where
  state : s'.Scoped home seen
  leads : s.table.Leads s'.table
  built : ∃ d : Command, d.Built s.labels ns s'.labels ∧ ∀ {t}, s'.table.Leads t →
    c.Matches p home t d

theorem Translates.seq {a b : Task} {ns ns' : List Node} {seen' : List String}
    (ha : Translates p home s a ns s₁ seen) (hb : Translates p home s₁ b ns' s' seen') :
    Translates p home s (.seq a b) (ns ++ ns') s' seen' := by
  obtain ⟨d, hd, hmatches⟩ := ha.built
  obtain ⟨d', hd', hmatches'⟩ := hb.built
  exact ⟨hb.state, ha.leads.trans hb.leads, _, .seq hd hd',
    fun ht => .seq (hmatches (hb.leads.trans ht)) (hmatches' ht)⟩

section Assignment

variable {name op : String} {line : Nat} {rhs : Expr} {e : TurtleCompiler.Expr} {node : Node}

theorem translates_assignment (hs : s.Scoped home seen) (hname : Dotless name)
    (hrhs : rhs.Lowers p home s₁ e s) (h : Lowering.assignment name op e line s = .ok node s') :
    Translates p home s (.assign (name.toUpper ∉ seen && rhs.isConstant) name.toUpper
      (if op = "=" then none else compoundOp? op) rhs) [node] s' (seen ++ [name.toUpper]) := by
  obtain ⟨compound, type, id, t₁, t₂, hop, hrun, hd, rfl, hcases⟩ :=
    Lowering.assignment_eq_ok h
  have hcompound : (if op = "=" then none else compoundOp? op) = compound := by
    rcases hop with ⟨rfl, rfl⟩ | ⟨hne, hop, -⟩
    · rfl
    · rw [if_neg hne, hop]
  have hid := hs.homes.isAt_declare hs.live.sound hname rfl hd
  have hadds : s.Adds [] (s.setTable t₁) :=
    .setTable (Table.extends_declare hname rfl (.inl rfl) hd) (by simp)
  have hstep : Table.Step [name] False s.table t₁ := .var (by simp) rfl rfl hd
  obtain ⟨hs₁, hleads₁⟩ := hs.steps hadds (Relation.ReflTransGen.single hstep)
  have hseen : name.toUpper ∈ seen ↔ (t₁.value? id).isSome := hs₁.mem_iff hid
  rw [hcompound, ← hrhs.isConst]
  rcases hcases with ⟨v, hnone, hv, -, hset, rfl⟩ | ⟨hnone, hconst, hset,
    rfl⟩ | ⟨hsome, rfl, rfl⟩
  · -- the first constant is the initial value
    obtain ⟨hs₂, hleads₂, hset⟩ := hs₁.setValue hid hnone hset
    have hmarked : (decide (name.toUpper ∉ seen) && e.isConst) = true := by
      simp [hseen, hnone, TurtleCompiler.Expr.isConst, hv]
    obtain ⟨hwiden, heval⟩ := hrhs.value hv
    rw [hmarked]
    refine ⟨hs₂, hleads₁.trans hleads₂, _, .elided h,
      fun ht => .elided ?_ fun hplain => ?_⟩
    · simp [← hrhs.isConst, TurtleCompiler.Expr.isConst, hv]
    · rw [(Lowering.assignedType_eq_ok hrun).2 hplain, hwiden] at hset
      exact ⟨id, v, ht.isAt (hleads₂.isAt hid), ht.value hset, heval⟩
  · obtain ⟨hs₂, hleads₂, -⟩ := hs₁.setValue hid hnone hset
    have hvar : e.value? = none := by
      refine hconst.resolve_right ?_
      simp [hs₁.isParameter]
    have hmarked : (decide (name.toUpper ∉ seen) && e.isConst) = false := by
      simp [TurtleCompiler.Expr.isConst, hvar]
    rw [hmarked]
    exact ⟨hs₂, hleads₁.trans hleads₂, _, .assignment h,
      fun ht => .assign (ht.isAt (hleads₂.isAt hid))
      (hrhs.means ((hleads₁.trans hleads₂).trans ht))⟩
  · have hmem : name.toUpper ∈ seen := hseen.2 (Option.isSome_iff_ne_none.2 hsome)
    have hmarked : (decide (name.toUpper ∉ seen) && e.isConst) = false := by simp [hmem]
    rw [hmarked]
    exact ⟨hs₁.again hmem, hleads₁, _, .assignment h,
      fun ht => .assign (ht.isAt hid) (hrhs.means (hleads₁.trans ht))⟩

end Assignment

theorem translates_print {args : List Expr} {es : List TurtleCompiler.Expr} {node : Node}
    (hs : s.Scoped home seen) (hlength : args.length < 2 ^ 63)
    (hargs : ∀ {t}, s.table.Leads t → List.Forall₂ (Expr.Means p home t) args es)
    (h : Lowering.print es s = .ok node s') : Translates p home s (.print args) [node] s' seen := by
  have hrun := h
  obtain ⟨j, t, e, hc, hcall, rfl, rfl⟩ := Lowering.print_eq_ok h
  obtain ⟨callee, -, hext, hfits⟩ :=
    hs.live.call (by decide) hc (.refl t) (fun h => absurd h (by decide +kernel)) hcall
  have hadds : s.Adds [.call callee _] (s.setTable t) := .setTable hext (by simpa using hfits)
  have hsteps : Table.Steps [] False s.table t :=
    (Lowering.heeds_print hrun).steps (by simp [Source.Mention.var?]) (by simp)
  obtain ⟨hs', hleads⟩ := hs.steps hadds hsteps
  obtain ⟨id, hid, hprint⟩ := hs'.print
  obtain rfl := callee_eq hs'.live (by decide) hid hcall
  refine ⟨hs', hleads, _, .print hrun, fun ht => .print ?_ hlength (hargs (hleads.trans ht))⟩
  rwa [ht.isPrint hid.has]

theorem Translates.after {c : Task} {n : Node} (h : Translates p home s₁ c [n] s' seen)
    (hleads : s.table.Leads s₁.table) (hlabels : s₁.labels = s.labels) :
    Translates p home s c [n] s' seen := by
  obtain ⟨d, hd, hmatches⟩ := h.built
  exact ⟨h.state, hleads.trans h.leads, d, hlabels ▸ hd, hmatches⟩

section Statements

variable {test : Expr} {c : Cond} {a b : Task} {ns ns' : List Node} {seen' seen'' : List String}
  {s₂ s₃ : Lowering} (hnames : ∀ x ∈ test.names, IsName x) (hs : s.Scoped home seen)
  (htest : test.Becomes s (.cond c) s₁) (ha : Translates p home s₁ a ns s₂ seen')
  (notes : List Event)

include hnames hs htest ha

theorem translates_ifThen :
    Translates p home s (.ifThen test a)
      [.block
        (.branch c { onFalse := some (.numbered (s₂.labels + 1)) } :: ns ++
          [.label (.numbered (s₂.labels + 1))])]
      (s₂.noted notes).addLabel seen' := by
  obtain ⟨hbuilt, htests⟩ := htest.tests (p := p) hnames hs
  obtain ⟨d, hd, hmatches⟩ := ha.built
  have hrun : Lowering.ifStatement (.cond c) ns none 0 (s₂.noted notes) = .ok _ _ := rfl
  exact ⟨scoped_addLabel (scoped_noted ha.state notes),
    (htest.scoped hnames hs).2.trans ha.leads, _,
    .ifThen hbuilt hd (by exact Nat.le_refl _) hrun,
    fun ht => .ifThen (htests (ha.leads.trans ht)) (hmatches ht)⟩

theorem translates_ifElse (hb : Translates p home s₂ b ns' s₃ seen'') :
    Translates p home s (.ifElse test a b)
      [.block (.branch c { onFalse := some (.numbered (s₃.labels + 1)) } :: ns ++
        [.jump (.numbered (s₃.labels + 2)), .label (.numbered (s₃.labels + 1))] ++ ns' ++
        [.label (.numbered (s₃.labels + 2))])] (s₃.noted notes).addLabel.addLabel seen'' := by
  obtain ⟨hbuilt, htests⟩ := htest.tests (p := p) hnames hs
  obtain ⟨d, hd, hmatches⟩ := ha.built
  obtain ⟨d', hd', hmatches'⟩ := hb.built
  have hrun : Lowering.ifStatement (.cond c) ns (some ns') 0 (s₃.noted notes) = .ok _ _ := rfl
  refine ⟨scoped_addLabel (scoped_addLabel (scoped_noted hb.state notes)),
    ((htest.scoped hnames hs).2.trans ha.leads).trans hb.leads, _,
    .ifElse hbuilt hd hd' (by exact Nat.le_refl _) hrun, fun ht => ?_⟩
  have ht' := hb.leads.trans ht
  exact .ifElse (htests (ha.leads.trans ht')) (hmatches ht') (hmatches' ht)

theorem translates_whileDo :
    Translates p home s (.whileDo test a)
      [.block
        ([.label (.numbered (s₂.labels + 1)),
          .branch c { onFalse := some (.numbered (s₂.labels + 2)) }] ++ ns ++
        [.jump (.numbered (s₂.labels + 1)), .label (.numbered (s₂.labels + 2))])]
      (s₂.noted notes).addLabel.addLabel seen' := by
  obtain ⟨hbuilt, htests⟩ := htest.tests (p := p) hnames hs
  obtain ⟨d, hd, hmatches⟩ := ha.built
  have hrun : Lowering.whileStatement (.cond c) ns 0 (s₂.noted notes) = .ok _ _ := rfl
  exact ⟨scoped_addLabel (scoped_addLabel (scoped_noted ha.state notes)),
    (htest.scoped hnames hs).2.trans ha.leads, _,
    .whileDo hbuilt hd (by exact Nat.le_refl _) hrun,
    fun ht => .whileDo (htests (ha.leads.trans ht)) (hmatches ht)⟩

end Statements

mutual

theorem Stmt.Becomes.translates {st : Stmt} {s s' : Lowering} {seen : List String} {n : Node} :
    st.Becomes s n s' → st.isPlain → (∀ x ∈ st.names, IsName x) → s.Scoped home seen →
      Translates p home s (st.task seen) [n] s' (seen ++ st.assigns)
  | .assign hrhs h, hplain, hnames, hs => by
    simp only [Stmt.names, List.forall_mem_cons] at hnames
    obtain ⟨hs₁, hleads⟩ := hrhs.scoped hnames.2 hs
    have hlowers := hrhs.lowers (p := p) hplain hnames.2 hs
    exact (translates_assignment (scoped_noted hs₁ _) hnames.1.dotless (hlowers.noted _) h).after
      hleads hlowers.labels
  | .print hargs h, hplain, hnames, hs => by
    simp only [Stmt.isPlain, Bool.and_eq_true, List.all_eq_true, decide_eq_true_eq] at hplain
    obtain ⟨hs₁, hleads⟩ := hargs.scoped hnames hs
    obtain ⟨hlabels, hmeans⟩ := hargs.lowers (p := p) hplain.1 hnames hs
    rw [Stmt.assigns, List.append_nil]
    exact (translates_print (scoped_noted hs₁ _) hplain.2 hmeans h).after hleads hlabels
  | .ifThen htest hyes, hplain, hnames, hs => by
    simp only [Stmt.names, List.forall_mem_append] at hnames
    obtain ⟨hs₁, -⟩ := htest.scoped hnames.1 hs
    exact translates_ifThen hnames.1 hs htest (hyes.translates hplain hnames.2 hs₁) _
  | .ifElse htest hyes hno, hplain, hnames, hs => by
    simp only [Stmt.names, List.forall_mem_append] at hnames
    simp only [Stmt.isPlain, Bool.and_eq_true] at hplain
    obtain ⟨hs₁, -⟩ := htest.scoped hnames.1 hs
    have hyes := hyes.translates hplain.1 hnames.2.1 hs₁
    have hno := hno.translates hplain.2 hnames.2.2 hyes.state
    rw [List.append_assoc] at hno
    exact translates_ifElse hnames.1 hs htest hyes _ hno
  | .whileDo htest hbody, hplain, hnames, hs => by
    simp only [Stmt.names, List.forall_mem_append] at hnames
    obtain ⟨hs₁, -⟩ := htest.scoped hnames.1 hs
    exact translates_whileDo hnames.1 hs htest (hbody.translates hplain hnames.2 hs₁) _
  | .expr _, hplain, _, _ | .call .., hplain, _, _ | .typein .., hplain, _,
      _ => by simp [Stmt.isPlain] at hplain

theorem AllBecome.translates {ss : List Stmt} {s s' : Lowering} {seen : List String}
    {ns : List Node} :
    AllBecome ss s ns s' → arePlain ss → (∀ x ∈ namesOfAll ss, IsName x) →
      s.Scoped home seen → Translates p home s (taskOfAll seen ss) ns s' (seen ++ assignsOfAll ss)
  | .nil, _, _, hs => by
    rw [assignsOfAll, List.append_nil]
    exact ⟨hs, .refl _, _, .nil, fun _ => .skip⟩
  | .cons hn hns, hplain, hnames, hs => by
    simp only [arePlain, Bool.and_eq_true] at hplain
    simp only [namesOfAll, List.forall_mem_append] at hnames
    have hfirst := hn.translates hplain.1 hnames.1 hs
    have hrest := hns.translates hplain.2 hnames.2 hfirst.state
    rw [List.append_assoc] at hrest
    exact hfirst.seq hrest

end

end Source

end TurtleCompiler
