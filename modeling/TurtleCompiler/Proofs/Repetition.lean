import TurtleCompiler.Proofs.Elision

/-!
Executions of one task that begin with different values. If every variable is assigned before it is
read, its old value makes no difference.
-/

namespace TurtleCompiler.Source

open StateTransition

variable {p : Processor} {fixed : Prop} {before : List Value} {m m' m₁ : Memory}
  {eliding eliding' : Bool}

structure Shadows (p : Processor) (fixed : Prop) (before : List Value) (m m' : Memory) : Prop where
  value : ∀ {x v}, m.value x = some v → m'.value x = some v
  printed : m'.printed = before ++ m.printed
  random : fixed ∨ ∀ n, p.random (m'.drawn + n) = p.random (m.drawn + n)

variable {name : String}

namespace Shadows

theorem print (h : Shadows p fixed before m m') (vs : List Value) :
    Shadows p fixed before (m.print vs) (m'.print vs) :=
  ⟨h.value, by simp [Memory.print, h.printed], h.random⟩

theorem assign (h : Shadows p fixed before m m') (name : String) (v : Value) :
    Shadows p fixed before (m.assign name v) (m'.assign name v) := by
  refine ⟨fun {x w} hw => ?_, h.printed, h.random⟩
  simp only [Memory.assign] at hw ⊢
  split
  · rwa [if_pos ‹_›] at hw
  · rw [if_neg ‹_›] at hw
    exact h.value hw

theorem assign_left (h : Shadows p fixed before m m') {v : Value} (hv : m'.value name = some v) :
    Shadows p fixed before (m.assign name v) m' := by
  refine ⟨fun {x w} hw => ?_, h.printed, h.random⟩
  simp only [Memory.assign] at hw
  split at hw
  · subst_vars
    rwa [← hw]
  · exact h.value hw

end Shadows

theorem mirrors_shadows : Mirrors p (Shadows p fixed before) (fun _ => True) fixed where
  read h _ hv := h.value hv
  draw {m m'} hfixed h := by
    have hsame := h.random.resolve_left hfixed
    refine ⟨hsame 0, h.value, h.printed, .inr fun n => ?_⟩
    simpa only [Memory.draw, Nat.add_assoc] using hsame (1 + n)

theorem assigned?_shadows {op : Option ArithOp} {rhs : Expr} (h : Shadows p fixed before m m')
    (hfixed : fixed → rhs.isFixed) (ha : assigned? p name op rhs m = some m₁) :
    ∃ m₁', assigned? p name op rhs m' = some m₁' ∧ Shadows p fixed before m₁ m₁' :=
  mirrors_shadows.assigned? h (fun _ _ => trivial) hfixed
    (fun w hw => ⟨w, h.value hw, fun _ => rfl⟩) (fun h hv => hv trivial ▸ h.assign name _) ha

namespace Task

variable {c : Task} {front : List Task} {names : List String}

def kept : Task → List String
  | assign false name _ _ => [name]
  | skip | assign true .. | print _ => []
  | seq a b => a.kept ++ b.kept
  | ifThen _ yes => yes.kept
  | ifElse _ yes no => yes.kept ++ no.kept
  | whileDo _ body => body.kept

def constants (p : Processor) : Task → List (String × Option Value)
  | assign true name none rhs => [(name, (rhs.eval p .empty).map (·.1))]
  | skip | assign .. | print _ => []
  | seq a b => a.constants p ++ b.constants p
  | ifThen _ yes => yes.constants p
  | ifElse _ yes no => yes.constants p ++ no.constants p
  | whileDo _ body => body.constants p

def isSeparate (names : List String) : Task → Bool
  | assign true name op rhs => op.isNone && rhs.isConstant && name ∉ names
  | skip | assign false .. | print _ => true
  | seq a b => a.isSeparate names && b.isSeparate names
  | ifThen _ yes => yes.isSeparate names
  | ifElse _ yes no => yes.isSeparate names && no.isSeparate names
  | whileDo _ body => body.isSeparate names

def Settled (p : Processor) (c : Task) (m : Memory) : Prop :=
  ∀ e ∈ c.constants p, e.1 ∉ c.kept → m.value e.1 = e.2

def AssignsFirst (p : Processor) (eliding : Bool) (names : List String) (c : Task) : Prop :=
  ∀ m, (∀ x ∉ names, (m.value x).isSome) → (eliding → c.Settled p m) →
    ∀ s, Reaches (step p eliding) ([c], m) s → s.1 ≠ [] → (step p eliding s).isSome

def IsLeftOf (p : Processor) (c d : Task) : Prop :=
  (c.isFixed → d.isFixed) ∧ d.kept ⊆ c.kept ∧ d.constants p ⊆ c.constants p ∧
    (c.isSeparate c.kept → d.isSeparate c.kept)

theorem isLeftOf_self (c : Task) :
    c.IsLeftOf p c := ⟨id, List.Subset.refl _, List.Subset.refl _, id⟩

theorem isLeftOf_next {d : Task} (h : c.IsLeftOf p d)
    (hd : d.next p eliding m = some (front, m₁)) : ∀ d' ∈ front, c.IsLeftOf p d' := by
  refine forall_mem_next ?_ ?_ ?_ ?_ h hd
  all_goals simp only [IsLeftOf, isFixed, kept, constants, isSeparate, List.append_subset,
    Bool.and_eq_true]
  all_goals tauto

theorem value_next (hc : c.next p true m = some (front, m₁)) {x : String} (hx : x ∉ c.kept) :
    m₁.value x = m.value x := by
  rcases next_eq_some hc with hkeeps | ⟨-, m₂, vs, -, -, hkeeps, rfl⟩ | ⟨marked, name, op,
    rhs, m₂, w, rfl, -, hkeeps, rfl⟩
  · rw [hkeeps.value]
  · exact congrFun hkeeps.value x
  · cases marked with
    | true =>
      obtain ⟨-, he⟩ := Prod.mk.inj (Option.some.inj hc)
      rw [he]
    | false =>
      have hne : x ≠ name := by simpa [kept] using hx
      simp [Memory.assign, hne, hkeeps.value]

theorem next_shadows (hle : eliding → eliding') (h : Shadows p fixed before m m')
    (hfixed : fixed → c.isFixed)
      (hskip : ∀ {name op rhs}, c = assign true name op rhs → eliding = false →
        eliding' = true →
      assigned? p name op rhs m = some m₁ → Shadows p fixed before m₁ m')
    (hc : c.next p eliding m = some (front, m₁)) :
    ∃ m₁', c.next p eliding' m' = some (front, m₁') ∧
    Shadows p fixed before m₁ m₁' := by
  refine mirrors_shadows.next h (fun vs h => h.print vs) (fun _ _ => trivial) hfixed
    (fun {marked name op rhs} he => ?_) hc
  subst he
  simp only [next] at hc ⊢
  by_cases hfirst : (eliding && marked) = true
  · rw [if_pos hfirst] at hc
    rw [Bool.and_eq_true] at hfirst
    obtain ⟨rfl, rfl⟩ := Prod.mk.inj (Option.some.inj hc)
    exact ⟨m', by simp [hle hfirst.1, hfirst.2], h⟩
  · rw [if_neg hfirst, Option.map_eq_some_iff] at hc
    obtain ⟨m₂, ha, he⟩ := hc
    obtain ⟨rfl, rfl⟩ := Prod.mk.inj he
    by_cases hsecond : (eliding' && marked) = true
    · rw [if_pos hsecond]
      rw [Bool.and_eq_true] at hsecond
      have hobeyed : eliding = false := by simpa [hsecond.2] using hfirst
      exact ⟨m', rfl, hskip (by rw [hsecond.2]) hobeyed hsecond.1 ha⟩
    · rw [if_neg hsecond]
      obtain ⟨m₂', ha', h'⟩ := assigned?_shadows h hfixed ha
      exact ⟨m₂', by simp [ha'], h'⟩

structure Alongside (p : Processor) (eliding : Bool) (c : Task) (before : List Value)
    (start : Memory) (s s' : List Task × Memory) : Prop where
  todo : s'.1 = s.1
  left : ∀ d ∈ s.1, c.IsLeftOf p d
  shadows : Shadows p c.isFixed before s.2 s'.2
  unchanged : eliding → ∀ x ∉ c.kept, s'.2.value x = start.value x

theorem Alongside.skip {s s' : List Task × Memory} {op : Option ArithOp} {rhs : Expr}
    (h : Alongside p true c before m' s s') (hseparate : c.isSeparate c.kept)
    (hsettled : c.Settled p m') (hleft : c.IsLeftOf p (assign true name op rhs))
    (ha : assigned? p name op rhs s.2 = some m₁) : Shadows p c.isFixed before m₁ s'.2 := by
  obtain ⟨-, -, hconstants, hmarked⟩ := hleft
  have hparts := hmarked hseparate
  simp only [isSeparate, Bool.and_eq_true, Option.isNone_iff_eq_none, decide_eq_true_eq] at hparts
  obtain ⟨⟨rfl, hrhs⟩, hname⟩ := hparts
  obtain ⟨v, w, hv, rfl, hplain, -⟩ := assigned?_constant hrhs ha
  obtain rfl := hplain rfl
  have hconst : (name, some w) ∈ c.constants p :=
    hconstants (by simp [constants, (Expr.eval_constant hrhs hv).2])
  exact h.shadows.assign_left ((h.unchanged rfl name hname).trans (hsettled _ hconst hname))

section

variable (hle : eliding → eliding')
  (hmarked : eliding = eliding' ∨ c.isSeparate c.kept ∧ c.Settled p m')
  (hsafe : ∀ s, Reaches (step p eliding) ([c], m) s → s.1 ≠ [] → (step p eliding s).isSome)

include hle hmarked hsafe

theorem follows_alongside :
    Follows (step p eliding) (step p eliding') (fun _ => 0) fun s s' =>
      Reaches (step p eliding) ([c], m) s ∧ Alongside p eliding' c before m' s s' where
  step {s s₁ s'} := by
    rintro ⟨hreach, h⟩ hstep
    obtain ⟨d, todo, front, hd, hnext, hfront⟩ := step_eq_some hstep
    have hleft := h.left
    rw [hd, List.forall_mem_cons] at hleft
    obtain ⟨m₁', hnext', hshadows⟩ :=
        next_shadows hle h.shadows hleft.1.1 (fun he hobeyed hskipped ha => by
      subst he hobeyed hskipped
      obtain ⟨hseparate, hsettled⟩ := hmarked.resolve_left Bool.false_ne_true
      exact h.skip hseparate hsettled hleft.1 ha) hnext
    have hstep' : step p eliding' s' = some (front ++ todo, m₁') := by
      obtain ⟨_, m'⟩ := s'
      obtain rfl : _ = d :: todo := h.todo.trans hd
      simp [step, hnext']
    refine ⟨_, ⟨hreach.tail hstep, hfront.symm, ?_, hshadows, ?_⟩, .single hstep',
      .inr (.single hstep')⟩
    · rw [hfront, List.forall_mem_append]
      exact ⟨isLeftOf_next hleft.1 hnext, hleft.2⟩
    · rintro rfl x hx
      exact (value_next hnext' fun hd => hx (hleft.1.2.1 hd)).trans (h.unchanged rfl x hx)
  stop {s s'} := by
    rintro ⟨hreach, h⟩ hstep
    have hdone : s.1 = [] := by
      by_contra hne
      simpa [hstep] using hsafe s hreach hne
    exact ⟨s', ⟨hreach, h⟩, .refl, step_of_isDone (h.todo.trans hdone)⟩

theorem isSome_of_alongside (h : Shadows p c.isFixed before m m') {s' : List Task × Memory}
    (hreach : Reaches (step p eliding') ([c], m') s') (hs' : s'.1 ≠ []) :
    (step p eliding' s').isSome := by
  have hstart : Alongside p eliding' c before m' ([c], m) ([c], m') :=
    ⟨rfl, List.forall_mem_singleton.2 (isLeftOf_self c), h, fun _ _ _ => rfl⟩
  obtain ⟨a, b, -, ⟨ha, hab⟩, hb⟩ :=
    (follows_alongside hle hmarked hsafe).reaches_rev ⟨.refl, hstart⟩ hreach
  obtain rfl | ⟨b', hb', -⟩ := Relation.ReflTransGen.cases_head hb
  · obtain ⟨a', ha'⟩ := Option.isSome_iff_exists.1 (hsafe a ha (hab.todo ▸ hs'))
    obtain ⟨b', -, -, hstill | hstep⟩ :=
      (follows_alongside hle hmarked hsafe).step ⟨ha, hab⟩ ha'
    · exact absurd hstill (Nat.lt_irrefl 0)
    · obtain ⟨d, hd, -⟩ := Relation.TransGen.head'_iff.1 hstep
      exact Option.isSome_of_mem hd
  · exact Option.isSome_of_mem hb'

end

theorem NeverStuck.assignsFirst (h : c.NeverStuck p) (hfixed : c.isFixed) :
    c.AssignsFirst p false names := by
  intro m _ _ s' hreach hs'
  have hshadows : Shadows p c.isFixed m.printed .empty m :=
    ⟨nofun, by simp [Memory.empty], .inl hfixed⟩
  exact isSome_of_alongside id (.inl rfl) h hshadows hreach hs'

theorem AssignsFirst.skipping (h : c.AssignsFirst p false names) (hkept : c.kept ⊆ names)
    (hseparate : c.isSeparate c.kept) : c.AssignsFirst p true c.kept := by
  intro m hm hsettled s' hreach hs'
  obtain ⟨m₀, hm₀⟩ : ∃ m₀ : Memory,
      m₀ = ⟨fun x => if x ∈ names then none else m.value x, m.drawn, []⟩ :=
      ⟨_, rfl⟩
  have hvalue {x : String} (hx : x ∉ names) : (m₀.value x).isSome := by
    simp only [hm₀, if_neg hx]
    exact hm x fun hx' => hx (hkept hx')
  have hshadows : Shadows p c.isFixed m.printed m₀ m := by
    refine ⟨fun {x v} hv => ?_, by simp [hm₀], .inr fun n => by rw [hm₀]⟩
    simp only [hm₀] at hv
    split at hv
    · simp at hv
    · exact hv
  have hsafe := h m₀ (fun _ => hvalue) (by simp)
  exact isSome_of_alongside (fun _ => rfl) (.inr ⟨hseparate, hsettled rfl⟩) hsafe
    hshadows hreach hs'

theorem AssignsFirst.repeats (h : c.AssignsFirst p true c.kept) (hm : ∀ x, (m.value x).isSome)
    (hsettled : c.Settled p m) (hrun : ([], m₁) ∈ eval (step p true) ([c], m))
    (hdraws : c.isFixed ∨ ∀ n, p.random (m₁.drawn + n) = p.random (m.drawn + n)) :
    ∃ vs m₂, ([], m₂) ∈ eval (step p true) ([c], m₁) ∧
    m₁.printed = m.printed ++ vs ∧ m₂.printed = m₁.printed ++ vs := by
  -- both are compared with one that begins without the values of the variables that are assigned
  obtain ⟨m₀, hm₀⟩ : ∃ m₀ : Memory,
      m₀ = ⟨fun x => if x ∈ c.kept then none else m.value x, m.drawn, []⟩ :=
      ⟨_, rfl⟩
  have hvalue {x : String} (hx : x ∉ c.kept) : m₀.value x = m.value x := by simp [hm₀, hx]
  have hsafe := h m₀ (fun x hx => hvalue hx ▸ hm x) fun _ e he hx =>
    (hvalue hx).trans (hsettled e he hx)
  have hstart {m' : Memory} (hm' : ∀ x ∉ c.kept, m'.value x = m.value x)
      (hdraws : c.isFixed ∨ ∀ n, p.random (m'.drawn + n) = p.random (m.drawn + n)) :
      Alongside p true c m'.printed m' ([c], m₀) ([c], m') := by
    refine ⟨rfl, List.forall_mem_singleton.2 (isLeftOf_self c), ⟨fun {x v} hv => ?_, ?_, ?_⟩,
      fun _ _ _ => rfl⟩
    · have hx : x ∉ c.kept := by
        intro hx
        simp [hm₀, hx] at hv
      rw [hm' x hx, ← hvalue hx, hv]
    · simp [hm₀]
    · simpa only [hm₀] using hdraws
  obtain ⟨a, ⟨-, ha⟩, hend⟩ := (follows_alongside id (.inl rfl) hsafe).eval_of_second
    ⟨.refl, hstart (fun _ _ => rfl) (.inr fun _ => rfl)⟩ hrun
  obtain ⟨⟨todo, m₂⟩, ⟨-, hb⟩, hend'⟩ :=
    (follows_alongside id (.inl rfl) hsafe).eval_of_first
    ⟨.refl, hstart (fun x hx => ha.unchanged rfl x hx) hdraws⟩ hend
  obtain rfl : todo = [] := hb.todo.trans ha.todo.symm
  exact ⟨a.2.printed, m₂, hend', ha.shadows.printed, hb.shadows.printed⟩

end Task

end TurtleCompiler.Source
