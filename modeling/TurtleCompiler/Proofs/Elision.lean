import TurtleCompiler.Proofs.Task

/-!
Skipping the marked assignments of a source. It makes no difference to what is printed if the
variables start with what those assign, and if every marked assignment that is executed finds its
variable without a value, or leaves it as it is.
-/

namespace TurtleCompiler.Source

open StateTransition

variable {p : Processor} {names : List String} {init : String → Value}
  {m m' m₁ : Memory} {e : Expr}

structure Agree (names : List String) (init : String → Value) (m m' : Memory) : Prop where
  drawn : m'.drawn = m.drawn
  printed : m'.printed = m.printed
  value : ∀ x ∈ names, m'.value x = some ((m.value x).getD (init x))
  isSome : ∀ x, (m'.value x).isSome

namespace Agree

theorem draw (h : Agree names init m m') : Agree names init m.draw m'.draw :=
  ⟨by simp [Memory.draw, h.drawn], h.printed, h.value, h.isSome⟩

theorem print (h : Agree names init m m') (vs : List Value) :
    Agree names init (m.print vs) (m'.print vs) :=
  ⟨h.drawn, by simp [Memory.print, h.printed], h.value, h.isSome⟩

theorem assign (h : Agree names init m m') {name : String} {v v' : Value}
    (hv : name ∈ names → v' = v) : Agree names init (m.assign name v) (m'.assign name v') where
  drawn := h.drawn
  printed := h.printed
  value x hx := by
    simp only [Memory.assign]
    split
    · subst_vars
      simp [hv hx]
    · exact h.value x hx
  isSome x := by
    simp only [Memory.assign]
    split
    · rfl
    · exact h.isSome x

end Agree

theorem mirrors_agree : Mirrors p (Agree names init) (· ∈ names) False where
  read {m m' x v} h hx hv := by rw [h.value x hx, hv, Option.getD_some]
  draw _ h := ⟨by rw [h.drawn], h.draw⟩

theorem assigned?_agree {name : String} {op : Option ArithOp} {rhs : Expr}
    (h : Agree names init m m') (hnames : ∀ x ∈ rhs.names, x.toUpper ∈ names)
    (ha : assigned? p name op rhs m = some m₁) :
    ∃ m₁', assigned? p name op rhs m' = some m₁' ∧ Agree names init m₁ m₁' := by
  refine mirrors_agree.assigned? h hnames False.elim (fun w hw => ?_) (fun h hv => h.assign hv) ha
  obtain ⟨w', hw'⟩ := Option.isSome_iff_exists.1 (h.isSome name)
  refine ⟨w', hw', fun hname => ?_⟩
  simpa [hw', hw] using h.value name hname

theorem Expr.eval_constant (h : e.isConstant) {v : Value} (he : e.eval p m = some (v, m₁)) :
    m₁ = m ∧ ∀ m', e.eval p m' = some (v, m') := by
  -- nothing that differs between two memories has a part in the value
  have hmirrors (m' : Memory) : Mirrors p (fun a b => a = m ∧ b = m') (fun _ => False) True :=
    ⟨fun _ hx => hx.elim, fun hfixed => absurd trivial hfixed⟩
  obtain ⟨hnames, hfixed⟩ := closed_of_isConstant h
  have heval (m' : Memory) :=
    (hmirrors m').eval ⟨rfl, rfl⟩ (by simp [hnames]) (fun _ => hfixed) he
  obtain ⟨_, -, rfl, -⟩ := heval m
  refine ⟨rfl, fun m' => ?_⟩
  obtain ⟨_, he', -, rfl⟩ := heval m'
  exact he'

namespace Task

def IsMarked (p : Processor) (names : List String) (init : String → Value) : Task → Prop
  | assign true name op rhs => rhs.isConstant ∧
      (op = none → name ∈ names → ∀ m, rhs.eval p m = some (init name, m))
  | skip | assign false .. | print _ => True
  | seq a b => a.IsMarked p names init ∧ b.IsMarked p names init
  | ifThen _ yes => yes.IsMarked p names init
  | ifElse _ yes no => yes.IsMarked p names init ∧ no.IsMarked p names init
  | whileDo _ body => body.IsMarked p names init

def IsIdle (p : Processor) (name : String) (op : Option ArithOp) (rhs : Expr) (m : Memory) : Prop :=
  m.value name = none ∨ ∀ m', assigned? p name op rhs m = some m' →
  m'.value name = m.value name

variable {name : String} {op : Option ArithOp} {eliding : Bool}

theorem assigned?_constant {rhs : Expr} (h : rhs.isConstant)
    (ha : assigned? p name op rhs m = some m₁) :
    ∃ v w, rhs.eval p m = some (v, m) ∧ m₁ = m.assign name w ∧
      (op = none → w = v) ∧ (op ≠ none → m.value name ≠ none) := by
  simp only [assigned?, Option.bind_eq_bind, Option.bind_eq_some_iff] at ha
  obtain ⟨⟨v, m₂⟩, hv, ha⟩ := ha
  obtain ⟨rfl, -⟩ := Expr.eval_constant h hv
  cases op with
  | none => exact ⟨v, v, hv, (Option.some.inj ha).symm, fun _ => rfl, fun h => absurd rfl h⟩
  | some op =>
    simp only [Option.bind_eq_some_iff] at ha
    obtain ⟨w, hw, ha⟩ := ha
    exact ⟨v, _, hv, (Option.some.inj ha).symm, by simp, by simp [hw]⟩

theorem agree_marked {rhs : Expr} (h : Agree names init m m')
    (hmarked : (assign true name op rhs).IsMarked p names init)
    (hidle : name ∈ names → IsIdle p name op rhs m)
    (ha : assigned? p name op rhs m = some m₁) : Agree names init m₁ m' := by
  obtain ⟨v, w, hv, rfl, hplain, hcompound⟩ := assigned?_constant hmarked.1 ha
  refine ⟨h.drawn, h.printed, fun x hx => ?_, h.isSome⟩
  rw [h.value x hx]
  by_cases hxn : x = name
  · subst hxn
    rcases hidle hx with hnone | hsame
    · have hop : op = none := by
        by_contra hop
        exact hcompound hop hnone
      have hinit := hmarked.2 hop hx m
      rw [hv, Option.some.injEq, Prod.mk.injEq] at hinit
      simp [Memory.assign, hnone, hplain hop, hinit.1]
    · rw [hsame _ ha]
  · simp [Memory.assign, hxn]

variable {c : Task} {front : List Task}

theorem next_agree (h : Agree names init m m') (hmarked : c.IsMarked p names init)
    (hreads : ∀ x ∈ c.reads, x ∈ names)
    (hidle : ∀ {name op rhs}, c = assign true name op rhs → name ∈ names →
      IsIdle p name op rhs m)
    (hc : c.next p false m = some (front, m₁)) :
    ∃ m₁', c.next p true m' = some (front, m₁') ∧ Agree names init m₁ m₁' := by
  refine mirrors_agree.next h (fun vs h => h.print vs) hreads False.elim
    (fun {marked name op rhs} he => ?_) hc
  subst he
  simp only [next, Bool.false_and, Bool.false_eq_true, if_false, Option.map_eq_some_iff,
    Prod.mk.injEq] at hc
  obtain ⟨m₂, ha, rfl, rfl⟩ := hc
  cases marked with
  | true => exact ⟨m', rfl, agree_marked h hmarked (hidle rfl) ha⟩
  | false =>
    obtain ⟨m₂', ha', h'⟩ := assigned?_agree h (List.forall_mem_map.1 hreads) ha
    exact ⟨m₂', by simp [next, ha'], h'⟩

theorem forall_mem_next {P : Task → Prop} (hseq : ∀ {a b}, P (seq a b) → P a ∧ P b)
    (hif : ∀ {c yes}, P (ifThen c yes) → P yes)
    (helse : ∀ {c yes no}, P (ifElse c yes no) → P yes ∧ P no)
    (hwhile : ∀ {c body}, P (whileDo c body) → P body) (hP : P c)
    (hc : c.next p eliding m = some (front, m₁)) : ∀ d ∈ front, P d := by
  cases c with
  | skip =>
    obtain ⟨rfl, -⟩ := Prod.mk.inj (Option.some.inj hc)
    simp
  | seq a b =>
    obtain ⟨rfl, -⟩ := Prod.mk.inj (Option.some.inj hc)
    simpa using hseq hP
  | assign marked name op rhs =>
    simp only [next] at hc
    split at hc
    · obtain ⟨rfl, -⟩ := Prod.mk.inj (Option.some.inj hc)
      simp
    · simp only [Option.map_eq_some_iff, Prod.mk.injEq] at hc
      obtain ⟨_, -, rfl, -⟩ := hc
      simp
  | print args =>
    simp only [next, Option.map_eq_some_iff, Prod.mk.injEq] at hc
    obtain ⟨_, -, rfl, -⟩ := hc
    simp
  | ifThen c yes =>
    simp only [next, Option.map_eq_some_iff, Prod.mk.injEq] at hc
    obtain ⟨⟨b, m₂⟩, -, rfl, -⟩ := hc
    cases b <;> simp [hif hP]
  | ifElse c yes no =>
    simp only [next, Option.map_eq_some_iff, Prod.mk.injEq] at hc
    obtain ⟨⟨b, m₂⟩, -, rfl, -⟩ := hc
    cases b <;> simp [helse hP]
  | whileDo c body =>
    simp only [next, Option.map_eq_some_iff, Prod.mk.injEq] at hc
    obtain ⟨⟨b, m₂⟩, -, rfl, -⟩ := hc
    cases b <;> simp [hwhile hP, hP]

def IsPart (p : Processor) (names : List String) (init : String → Value) (c : Task) : Prop :=
  c.IsMarked p names init ∧ ∀ x ∈ c.reads, x ∈ names

theorem isPart_next (h : c.IsPart p names init) (hc : c.next p eliding m = some (front, m₁)) :
    ∀ d ∈ front, d.IsPart p names init := by
  refine forall_mem_next ?_ ?_ ?_ ?_ h hc
  all_goals simp only [IsPart, IsMarked, reads, List.forall_mem_append]
  all_goals tauto

theorem step_eq_some {s s' : List Task × Memory} (h : step p eliding s = some s') :
    ∃ c todo front, s.1 = c :: todo ∧ c.next p eliding s.2 = some (front, s'.2) ∧
    s'.1 = front ++ todo := by
  obtain ⟨_ | ⟨c, todo⟩, m⟩ := s
  · simp [step] at h
  · simp only [step, Option.map_eq_some_iff] at h
    obtain ⟨⟨front, m₁⟩, hc, rfl⟩ := h
    exact ⟨c, todo, front, rfl, hc, rfl⟩

theorem follows_eliding
    (hsafe : ∀ s, Reaches (step p false) ([c], m) s → s.1 ≠ [] → (step p false s).isSome)
    (hidle : ∀ {todo m' name op rhs},
      Reaches (step p false) ([c], m) (assign true name op rhs :: todo, m') →
      name ∈ names → IsIdle p name op rhs m') :
    Follows (step p false) (step p true) (fun _ => 0) fun s s' =>
      Reaches (step p false) ([c], m) s ∧ s'.1 = s.1 ∧
      (∀ d ∈ s.1, d.IsPart p names init) ∧ Agree names init s.2 s'.2 where
  step {s s₁ s'} := by
    rintro ⟨hreach, htodo, hpart, hagree⟩ hstep
    obtain ⟨d, todo, front, hd, hnext, hfront⟩ := step_eq_some hstep
    rw [hd, List.forall_mem_cons] at hpart
    have hidle' {name op rhs} (he : d = assign true name op rhs) (hname : name ∈ names) :
        IsIdle p name op rhs s.2 := by
      subst he
      have hs : s = (assign true name op rhs :: todo, s.2) := Prod.ext hd rfl
      exact hidle (hs ▸ hreach) hname
    obtain ⟨m₁', hnext', hagree'⟩ := next_agree hagree hpart.1.1 hpart.1.2 hidle' hnext
    have hstep' : step p true s' = some (front ++ todo, m₁') := by
      obtain ⟨_, m'⟩ := s'
      obtain rfl : _ = d :: todo := htodo.trans hd
      simp [step, hnext']
    refine ⟨_, ⟨hreach.tail hstep, hfront.symm, ?_, hagree'⟩, .single hstep',
      .inr (.single hstep')⟩
    rw [hfront, List.forall_mem_append]
    exact ⟨isPart_next hpart.1 hnext, hpart.2⟩
  stop {s s'} := by
    rintro ⟨hreach, htodo, hpart, hagree⟩ hstep
    have hdone : s.1 = [] := by
      by_contra hne
      simpa [hstep] using hsafe s hreach hne
    refine ⟨s', ⟨hreach, htodo, hpart, hagree⟩, .refl, ?_⟩
    obtain ⟨_, m'⟩ := s'
    obtain rfl : _ = [] := htodo.trans hdone
    rfl

end Task

namespace Task

variable {c : Task} {front : List Task} {eliding : Bool}

theorem printed_next (hc : c.next p eliding m = some (front, m₁)) :
    m.printed <+: m₁.printed := by
  rcases next_eq_some hc with hkeeps | ⟨-, m₂, vs, -, -, hkeeps, rfl⟩ | ⟨-, name, -, -,
    m₂, w, -, -, hkeeps, rfl⟩
  · rw [hkeeps.printed]
  · rw [← hkeeps.printed]
    exact List.prefix_append _ _
  · rw [← hkeeps.printed]
    exact List.prefix_rfl

theorem printed_step {s s' : List Task × Memory} (h : step p eliding s = some s') :
    s.2.printed <+: s'.2.printed := by
  obtain ⟨c, todo, front, -, hnext, -⟩ := step_eq_some h
  exact printed_next hnext

theorem step_of_isDone {s : List Task × Memory} (h : s.1 = []) : step p eliding s = none := by
  obtain ⟨_, m⟩ := s
  subst h
  rfl

def NeverStuck (p : Processor) (c : Task) : Prop :=
  ∀ s, Reaches (step p false) ([c], .empty) s → s.1 ≠ [] → (step p false s).isSome

def IsElidable (p : Processor) (c : Task) : Prop :=
  ∀ todo m name op rhs,
    Reaches (step p false) ([c], .empty) (assign true name op rhs :: todo, m) →
    name ∈ c.reads → IsIdle p name op rhs m

def goesOn (p : Processor) (s : List Task × Memory) : Bool :=
  s.1.isEmpty || (step p false s).isSome

theorem neverStuck_of_throughout {n : Nat}
    (h : throughout (step p false) (goesOn p) n ([c], .empty)) : c.NeverStuck p := by
  intro s hreach hs
  have hgoes := forall_of_throughout h hreach
  rw [goesOn, Bool.or_eq_true, List.isEmpty_iff] at hgoes
  exact hgoes.resolve_left hs

def isFirst : List Task × Memory → Bool
  | (assign true name _ _ :: _, m) => (m.value name).isNone
  | _ => true

theorem isElidable_of_throughout {n : Nat} (h : throughout (step p false) isFirst n ([c], .empty)) :
    c.IsElidable p := by
  intro todo m name op rhs hreach _
  have hfirst : (m.value name).isNone := forall_of_throughout h hreach
  exact .inl (Option.isNone_iff_eq_none.1 hfirst)

theorem sameOutput_eliding (hmarked : c.IsMarked p c.reads init) (hsafe : c.NeverStuck p)
    (hidle : c.IsElidable p) : (c.execution p false .empty).SameOutput
    (c.execution p true (.initial init)) := by
  have hpart : ∀ d ∈ [c], d.IsPart p c.reads init := by
    rw [List.forall_mem_singleton]
    exact ⟨hmarked, fun _ hx => hx⟩
  refine Execution.sameOutput_of_follows (follows_eliding hsafe (hidle _ _ _ _ _))
    ⟨.refl, rfl, hpart, ?_⟩ ?_ ?_ ?_ ?_ ?_
  · exact ⟨rfl, rfl, fun x _ => rfl, fun x => rfl⟩
  · exact fun hR => hR.2.2.2.printed.symm
  · rintro s s' ⟨hreach, htodo, -⟩ hnone -
    have hdone : s.1 = [] := by
      by_contra hne
      simpa [show step p false s = none from hnone] using hsafe s hreach hne
    exact ⟨hdone, htodo.trans hdone⟩
  · exact step_of_isDone
  · exact step_of_isDone
  · exact printed_step

end Task

end TurtleCompiler.Source
