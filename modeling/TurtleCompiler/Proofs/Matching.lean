import TurtleCompiler.Proofs.Command
import TurtleCompiler.Proofs.Elision
import TurtleCompiler.Proofs.Globals

/-!
Tasks and the commands that are made for them. If marked assignments are skipped, both do the same
to the variables that are used.
-/

namespace TurtleCompiler.Source

open StateTransition

variable {p : Processor} {home : String → String} {t : Table} {m : Memory} {s : Env}
  {es' : List TurtleCompiler.Expr}

structure SameAt (home : String → String) (t : Table) (m : Memory) (s : Env) : Prop where
  drawn : m.drawn = s.drawn
  printed : m.printed = s.printed
  value : ∀ {x id}, t.IsAt home x id → t.IsUsed id →
    m.value x = some (s.store (t.symbol id).fullName)
  isSome : ∀ x, (m.value x).isSome

variable {id : SymbolId}

namespace SameAt

theorem draw (h : SameAt home t m s) : SameAt home t m.draw s.draw :=
  ⟨by simp [Memory.draw, Env.draw, h.drawn], h.printed, h.value, h.isSome⟩

theorem print (h : SameAt home t m s) (vs : List Value) : SameAt home t (m.print vs) (s.print vs) :=
  ⟨h.drawn, by simp [Memory.print, Env.print, h.printed], h.value, h.isSome⟩

theorem assign (h : SameAt home t m s) (ht : t.Sound) {x : String} (hid : t.IsAt home x id)
    {v v' : Value} (hv : t.IsUsed id → v = v') :
    SameAt home t (m.assign x v) (s.assign (t.symbol id).fullName v') where
  drawn := h.drawn
  printed := h.printed
  value {y j} hj hused := by
    simp only [Memory.assign, Env.assign]
    by_cases hji : j = id
    · subst hji
      obtain rfl : y = x := hj.2.2.symm.trans hid.2.2
      simp [hv hused]
    · have hy : y ≠ x := by
        rintro rfl
        exact hji (ht.isAt_unique hj hid)
      have hname : (t.symbol j).fullName ≠ (t.symbol id).fullName := fun he =>
        hji (ht.unique hj.1.1 hid.1.1 (by rw [he]))
      simp [hy, hname, h.value hj hused]
  isSome y := by
    simp only [Memory.assign]
    split
    · rfl
    · exact h.isSome y

end SameAt

abbrev Same (t : Table) (m : Memory) (s : Env) : Prop := SameAt (fun _ => "") t m s

def Used (home : String → String) (t : Table) (names : List String) : Prop :=
  ∀ x ∈ names, ∃ id, t.IsAt home x.toUpper id ∧ t.IsUsed id

theorem used_append {a b : List String} :
    Used home t (a ++ b) ↔ Used home t a ∧ Used home t b := List.forall_mem_append

namespace Expr

variable {e l r : Expr} {e' l' r' : TurtleCompiler.Expr} {c d : Cond} {site : Site}
  {type : DataType} {value : Option Value} {op : String}

structure Means (p : Processor) (home : String → String) (t : Table) (e : Expr)
    (e' : TurtleCompiler.Expr) : Prop where
  isSimple : e'.isSimple t
  used : Used home t e.names
  eval : ∀ {m s}, SameAt home t m s → ∃ m', e.eval p m = some ((e'.eval p t s).1, m') ∧
    SameAt home t m' (e'.eval p t s).2

theorem Means.const {v : Value} (hnames : e.names = [])
    (h : ∀ m, e.eval p m = some (p.constant v, m)) : e.Means p home t (.const v) where
  isSimple := rfl
  used := by simp [Used, hnames]
  eval {m s} hs := ⟨m, h m, hs⟩

theorem Means.boolean (text : String) :
    (Expr.boolean text).Means p home t (Lowering.boolean text) where
  isSimple := rfl
  used := by simp [Used, Expr.names]
  eval {m s} hs := ⟨m, rfl, hs⟩

theorem Means.var {name : String} (hid : t.IsAt home name.toUpper id) (hused : t.IsUsed id) :
    (Expr.var name site).Means p home t (.var id type) where
  isSimple := rfl
  used := by simpa [Used, Expr.names] using ⟨id, hid, hused⟩
  eval {m s} hs := ⟨m, by simp [Expr.eval, TurtleCompiler.Expr.eval, hs.value hid hused], hs⟩

theorem Means.random {callee : SymbolId} {type : Option DataType} (h : t.isRandom callee) :
    Expr.random.Means p home t (.call callee [] type) where
  isSimple := by simp [TurtleCompiler.Expr.isSimple, h]
  used := by simp [Used, Expr.names]
  eval {m s} hs := ⟨m.draw, by simp [Expr.eval, TurtleCompiler.Expr.eval, hs.drawn], hs.draw⟩

theorem Means.plus (h : e.Means p home t e') : (Expr.plus e site).Means p home t e' :=
  ⟨h.isSimple, h.used, h.eval⟩

theorem Means.minus (h : e.Means p home t e') :
    (Expr.minus e site).Means p home t (.arith .mul (.const (.int (-1))) e' type value) where
  isSimple := by simpa [TurtleCompiler.Expr.isSimple] using h.isSimple
  used := h.used
  eval hs := by
    obtain ⟨m', he, hs'⟩ := h.eval hs
    exact ⟨m', by simp [Expr.eval, TurtleCompiler.Expr.eval, Processor.constant, he], hs'⟩

theorem Means.arith {op' : ArithOp} (hop : ArithOp.ofText? op = some op') (hl : l.Means p home t l')
    (hr : r.Means p home t r') :
    (Expr.arith op l r site).Means p home t (.arith op' l' r' type value) where
  isSimple := by simp [TurtleCompiler.Expr.isSimple, hl.isSimple, hr.isSimple]
  used := used_append.2 ⟨hl.used, hr.used⟩
  eval hs := by
    obtain ⟨m₁, hx, hs₁⟩ := hl.eval hs
    obtain ⟨m₂, hy, hs₂⟩ := hr.eval hs₁
    exact ⟨m₂, by simp [Expr.eval, TurtleCompiler.Expr.eval, hop, hx, hy], hs₂⟩

structure Tests (p : Processor) (home : String → String) (t : Table) (e : Expr)
    (c : Cond) : Prop where
  isSimple : c.isSimple t
  used : Used home t e.names
  test : ∀ {m s}, SameAt home t m s → ∃ m', e.test p m = some ((c.eval p t s).1, m') ∧
    SameAt home t m' (c.eval p t s).2

theorem Tests.boolean (text : String) :
    (Expr.boolean text).Tests p home t
    (.literal (text.toUpper = "TRUE" || text.toUpper = "YES")) where
  isSimple := rfl
  used := by simp [Used, Expr.names]
  test {m s} hs := ⟨m, rfl, hs⟩

theorem Tests.compare {op' : RelOp} (hop : RelOp.ofText? op = some op') (hl : l.Means p home t l')
    (hr : r.Means p home t r') :
    (Expr.compare op l r site).Tests p home t (.compare op' l' r') where
  isSimple := by simp [Cond.isSimple, hl.isSimple, hr.isSimple]
  used := used_append.2 ⟨hl.used, hr.used⟩
  test hs := by
    obtain ⟨m₁, hx, hs₁⟩ := hl.eval hs
    obtain ⟨m₂, hy, hs₂⟩ := hr.eval hs₁
    exact ⟨m₂, by simp [Expr.test, Cond.eval, hop, hx, hy], hs₂⟩

theorem Tests.not (h : e.Tests p home t c) : (Expr.not e site).Tests p home t (.not c) where
  isSimple := h.isSimple
  used := h.used
  test hs := by
    obtain ⟨m', he, hs'⟩ := h.test hs
    exact ⟨m', by simp [Expr.test, Cond.eval, he], hs'⟩

theorem Tests.logic {op' : LogicOp} {skip : Label} (hop : LogicOp.ofText? op = some op')
    (hl : l.Tests p home t c) (hr : r.Tests p home t d) :
    (Expr.logic op l r site).Tests p home t (.logic op' c d skip) where
  isSimple := by simp [Cond.isSimple, hl.isSimple, hr.isSimple]
  used := used_append.2 ⟨hl.used, hr.used⟩
  test {m s} hs := by
    obtain ⟨m₁, hx, hs₁⟩ := hl.test hs
    cases hdecided : op'.decidedBy (c.eval p t s).1 with
    | true =>
      exact ⟨m₁, by simp [Expr.test, Cond.eval, hop, hx, hdecided], by simpa [Cond.eval,
        hdecided] using hs₁⟩
    | false =>
      obtain ⟨m₂, hy, hs₂⟩ := hr.test hs₁
      exact ⟨m₂, by simp [Expr.test, Cond.eval, hop, hx, hy, hdecided], by simpa [Cond.eval,
        hdecided] using hs₂⟩

end Expr

theorem evalAll_means {es : List Expr} (h : List.Forall₂ (Expr.Means p home t) es es')
    (hs : SameAt home t m s) :
    ∃ m', evalAll p es m = some ((TurtleCompiler.evalAll p t es' s).1, m') ∧
      SameAt home t m' (TurtleCompiler.evalAll p t es' s).2 := by
  induction h generalizing m s with
  | nil => exact ⟨m, rfl, hs⟩
  | cons he _ ih =>
    obtain ⟨m₁, hv, hs₁⟩ := he.eval hs
    obtain ⟨m₂, hvs, hs₂⟩ := ih hs₁
    exact ⟨m₂, by simp [evalAll, TurtleCompiler.evalAll, hv, hvs], hs₂⟩

theorem isSimple_means {es : List Expr} (h : List.Forall₂ (Expr.Means p home t) es es') :
    ∀ e ∈ es', e.isSimple t := by
  induction h with
  | nil => simp
  | cons he _ ih => exact List.forall_mem_cons.2 ⟨he.isSimple, ih⟩

theorem used_means {es : List Expr} (h : List.Forall₂ (Expr.Means p home t) es es') :
    Used home t (es.flatMap Expr.names) := by
  induction h with
  | nil => simp [Used]
  | cons he _ ih =>
    rw [List.flatMap_cons]
    exact used_append.2 ⟨he.used, ih⟩

theorem assigned?_means {x : String} {op : Option ArithOp} {rhs : Expr} {e : TurtleCompiler.Expr}
    (h : rhs.Means p home t e) (ht : t.Sound) (hid : t.IsAt home x id) (hs : SameAt home t m s) :
    ∃ m', assigned? p x op rhs m = some m' ∧
    SameAt home t m' (Command.assigned p t op id e s) := by
  obtain ⟨m₁, hv, hs₁⟩ := h.eval hs
  cases op with
  | none => exact ⟨_, by simp [assigned?, hv], hs₁.assign ht hid fun _ => rfl⟩
  | some op =>
    obtain ⟨w, hw⟩ := Option.isSome_iff_exists.1 (hs.isSome x)
    refine ⟨_, by simp only [assigned?, hv, hw]; rfl, hs₁.assign ht hid fun hused => ?_⟩
    rw [hs.value hid hused, Option.some.injEq] at hw
    simp [hw]

namespace Task

/-- A task and a command for it. There is none for a marked assignment, but its variable has its
constant to start with. -/
inductive Matches (p : Processor) (home : String → String) (t : Table) : Task → Command → Prop
  | skip : Matches p home t skip .skip
  | elided : rhs.isConstant →
      (op = none → ∃ id v, t.IsAt home x id ∧ t.value? id = some v ∧
      ∀ m, rhs.eval p m = some (p.constant v, m)) →
      Matches p home t (assign true x op rhs) .skip
  | assign : t.IsAt home x target → rhs.Means p home t e →
      Matches p home t (assign false x op rhs) (.assign op target e)
  | print : t.isPrint callee → args.length < 2 ^ 63 →
      List.Forall₂ (Expr.Means p home t) args es →
      Matches p home t (print args) (.print callee es type)
  | seq : Matches p home t a a' → Matches p home t b b' →
      Matches p home t (seq a b) (.seq a' b')
  | ifThen : e.Tests p home t c → Matches p home t yes yes' →
      Matches p home t (ifThen e yes) (.ifThen c yes')
  | ifElse : e.Tests p home t c → Matches p home t yes yes' → Matches p home t no no' →
      Matches p home t (ifElse e yes no) (.ifElse c yes' no')
  | whileDo : e.Tests p home t c → Matches p home t turn turn' →
      Matches p home t (whileDo e turn) (.whileDo c turn')

namespace Matches

variable {c : Task} {d : Command}

theorem isSimple (h : c.Matches p home t d) : d.isSimple t := by
  induction h with
  | skip | elided => rfl
  | assign _ he => exact he.isSimple
  | print hprint hlength hargs =>
    simp only [Command.isSimple, Bool.and_eq_true, List.all_eq_true, decide_eq_true_eq]
    exact ⟨⟨hprint, isSimple_means hargs⟩, hargs.length_eq ▸ hlength⟩
  | seq _ _ iha ihb => simp [Command.isSimple, iha, ihb]
  | ifThen hc _ ih | whileDo hc _ ih => simp [Command.isSimple, hc.isSimple, ih]
  | ifElse hc _ _ ihyes ihno => simp [Command.isSimple, hc.isSimple, ihyes, ihno]

theorem used (h : c.Matches p home t d) :
    ∀ x ∈ c.reads, ∃ id, t.IsAt home x id ∧ t.IsUsed id := by
  induction h with
  | skip => simp [reads]
  | elided hrhs => simp [reads, Expr.closed_of_isConstant hrhs]
  | assign _ he => exact List.forall_mem_map.2 he.used
  | print _ _ hargs => exact List.forall_mem_map.2 (used_means hargs)
  | seq _ _ iha ihb => exact List.forall_mem_append.2 ⟨iha, ihb⟩
  | ifThen hc _ ih | whileDo hc _ ih =>
    rw [reads, List.forall_mem_append, List.forall_mem_map]
    exact ⟨hc.used, ih⟩
  | ifElse hc _ _ ihyes ihno =>
    rw [reads, List.forall_mem_append, List.forall_mem_append, List.forall_mem_map]
    exact ⟨hc.used, ihyes, ihno⟩

theorem isMarked {names : List String} {init : String → Value} (h : c.Matches p home t d)
    (ht : t.Sound) (hnames : ∀ x ∈ names, ∃ id, t.IsAt home x id ∧ t.IsUsed id)
    (hinit : ∀ {x id v}, t.IsAt home x id → t.IsUsed id → t.value? id = some v →
      init x = p.constant v) :
    c.IsMarked p names init := by
  induction h with
  | skip | assign | print => trivial
  | elided hrhs hplain =>
    refine ⟨hrhs, fun hop hx => ?_⟩
    obtain ⟨id, v, hid, hv, heval⟩ := hplain hop
    obtain ⟨j, hj, hused⟩ := hnames _ hx
    obtain rfl := ht.isAt_unique hid hj
    rw [hinit hid hused hv]
    exact heval
  | seq _ _ iha ihb => exact ⟨iha, ihb⟩
  | ifThen _ _ ih | whileDo _ _ ih => exact ih
  | ifElse _ _ _ ihyes ihno => exact ⟨ihyes, ihno⟩

theorem next (h : c.Matches p home t d) (ht : t.Sound) (hs : SameAt home t m s) :
    ∃ front m', c.next p true m = some (front, m') ∧
      List.Forall₂ (Matches p home t) front (d.next p t s).1 ∧
      SameAt home t m' (d.next p t s).2 := by
  cases h with
  | skip => exact ⟨[], m, rfl, .nil, hs⟩
  | elided => exact ⟨[], m, rfl, .nil, hs⟩
  | assign hid he =>
    obtain ⟨m', ha, hs'⟩ := assigned?_means he ht hid hs
    exact ⟨[], m', by simp [Task.next, ha], .nil, hs'⟩
  | print _ _ hargs =>
    obtain ⟨m', hvs, hs'⟩ := evalAll_means hargs hs
    exact ⟨[], _, by simp only [Task.next, hvs, Option.map_some], .nil, hs'.print _⟩
  | seq ha hb => exact ⟨_, m, rfl, .cons ha (.cons hb .nil), hs⟩
  | ifThen hc hyes =>
    obtain ⟨m', hb, hs'⟩ := hc.test hs
    refine ⟨_, m', by simp only [Task.next, hb]; rfl, ?_, hs'⟩
    simp only [Command.next]
    split
    · exact .cons hyes .nil
    · exact .nil
  | ifElse hc hyes hno =>
    obtain ⟨m', hb, hs'⟩ := hc.test hs
    refine ⟨_, m', by simp only [Task.next, hb]; rfl, ?_, hs'⟩
    simp only [Command.next]
    split
    · exact .cons hyes .nil
    · exact .cons hno .nil
  | whileDo hc hturn =>
    obtain ⟨m', hb, hs'⟩ := hc.test hs
    refine ⟨_, m', by simp only [Task.next, hb]; rfl, ?_, hs'⟩
    simp only [Command.next]
    split
    · exact .cons hturn (.cons (.whileDo hc hturn) .nil)
    · exact .nil

end Matches

variable (p home t) in
def InStep (a : List Command × Env) (b : List Task × Memory) : Prop :=
  List.Forall₂ (Matches p home t) b.1 a.1 ∧ SameAt home t b.2 a.2

theorem follows_inStep (ht : t.Sound) :
    Follows (Command.step p t) (step p true) (fun _ => 0) (InStep p home t) where
  step := by
    rintro ⟨_ | ⟨d, todo'⟩, s⟩ a' ⟨_ | ⟨c, todo⟩, m⟩ ⟨hall, hs⟩ ha'
    · simp [Command.step] at ha'
    · simp [Command.step] at ha'
    · simp at hall
    · obtain ⟨hc, htodo⟩ := List.forall₂_cons.1 hall
      obtain ⟨front, m', hnext, hfront, hs'⟩ := hc.next ht hs
      obtain rfl := Option.some.inj ha'
      have hstep : step p true (c :: todo, m) = some (front ++ todo, m') := by simp [step, hnext]
      exact ⟨_, ⟨List.rel_append hfront htodo, hs'⟩, .single hstep, .inr (.single hstep)⟩
  stop := by
    rintro ⟨_ | ⟨d, todo'⟩, s⟩ ⟨_ | ⟨c, todo⟩, m⟩ ⟨hall, hs⟩ ha
    · exact ⟨([], m), ⟨.nil, hs⟩, .refl, rfl⟩
    · simp at hall
    · simp at hall
    · simp [Command.step] at ha

theorem Matches.sameOutput {c : Task} {d : Command} (h : c.Matches p home t d) (ht : t.Sound)
    (hs : SameAt home t m s) : (d.execution p t s).SameOutput (c.execution p true m) := by
  refine Execution.sameOutput_of_follows (follows_inStep ht) ⟨.cons h .nil, hs⟩ ?_ ?_ ?_ ?_ ?_
  · rintro a b ⟨-, hs⟩
    exact hs.printed.symm
  · rintro ⟨_ | ⟨d, todo'⟩, s⟩ ⟨_ | ⟨c, todo⟩, m⟩ ⟨hall, -⟩ hstop -
    · exact ⟨rfl, rfl⟩
    · simp at hall
    · simp at hall
    · simp [Command.execution, Command.step] at hstop
  · rintro ⟨_, s⟩ rfl
    rfl
  · exact step_of_isDone
  · exact printed_step

end Task

end TurtleCompiler.Source
