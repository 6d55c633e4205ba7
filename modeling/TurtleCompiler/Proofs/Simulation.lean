import Mathlib.Computability.StateTransition

/-!
One system of states follows another. It may take many steps for one, or none, though it cannot
stand still for ever; so whatever either of them comes to, the other comes to as well.
-/

namespace TurtleCompiler

open StateTransition

variable {α β : Type} {first : α → Option α} {second : β → Option β} {size : α → Nat}
  {R : α → β → Prop}

structure Follows (first : α → Option α) (second : β → Option β) (size : α → Nat)
    (R : α → β → Prop) : Prop where
  step : ∀ {a a' b}, R a b → first a = some a' →
    ∃ b', R a' b' ∧ Reaches second b b' ∧ (size a' < size a ∨ Reaches₁ second b b')
  stop : ∀ {a b}, R a b → first a = none → ∃ b', R a b' ∧ Reaches second b b' ∧
    second b' = none

namespace Follows

variable {a a' : α} {b b' : β}

section

variable (h : Follows first second size R) (hab : R a b)

include h hab

theorem reaches (ha : Reaches first a a') : ∃ b', R a' b' ∧ Reaches second b b' := by
  induction ha with
  | refl => exact ⟨b, hab, .refl⟩
  | tail _ hstep ih =>
    obtain ⟨c, hc, hbc⟩ := ih
    obtain ⟨d, hd, hcd, -⟩ := h.step hc hstep
    exact ⟨d, hd, hbc.trans hcd⟩

theorem catch_up {d : β} (hd : second b = some d) :
    ∃ a' b', Reaches first a a' ∧ R a' b' ∧ Reaches second d b' := by
  induction hn : size a using Nat.strong_induction_on generalizing a with
  | _ n ih =>
    cases ha : first a with
    | none =>
      obtain ⟨b', hb', hreach, hstop⟩ := h.stop hab ha
      obtain rfl | ⟨d', hd', hreach⟩ := Relation.ReflTransGen.cases_head hreach
      · simp [hd] at hstop
      · cases Option.mem_unique hd hd'
        exact ⟨a, b', .refl, hb', hreach⟩
    | some a' =>
      obtain ⟨b', hb', hreach, hprogress⟩ := h.step hab ha
      obtain rfl | ⟨d', hd', hreach⟩ := Relation.ReflTransGen.cases_head hreach
      · rcases hprogress with hlt | hloop
        · obtain ⟨a'', b'', ha'', hR, hdb⟩ := ih (size a') (hn ▸ hlt) hb' rfl
          exact ⟨a'', b'', .head ha ha'', hR, hdb⟩
        · exact ⟨a', b, .single ha, hb', reaches₁_fwd hloop hd⟩
      · cases Option.mem_unique hd hd'
        exact ⟨a', b', .single ha, hb', hreach⟩

theorem reaches_rev (hb : Reaches second b b') :
    ∃ a' b'', Reaches first a a' ∧ R a' b'' ∧ Reaches second b' b'' := by
  induction hb with
  | refl => exact ⟨a, b, .refl, hab, .refl⟩
  | tail _ hstep ih =>
    obtain ⟨a', e, ha', hR, hce⟩ := ih
    obtain rfl | ⟨d', hd', hde⟩ := Relation.ReflTransGen.cases_head hce
    · obtain ⟨a'', e', ha'', hR', hde⟩ := h.catch_up hR hstep
      exact ⟨a'', e', ha'.trans ha'', hR', hde⟩
    · cases Option.mem_unique hstep hd'
      exact ⟨a', e, ha', hR, hde⟩

theorem stops (hb : second b = none) : ∃ a', R a' b ∧ a' ∈ eval first a := by
  induction hn : size a using Nat.strong_induction_on generalizing a with
  | _ n ih =>
    cases ha : first a with
    | none => exact ⟨a, hab, mem_eval.2 ⟨.refl, ha⟩⟩
    | some a' =>
      obtain ⟨b', hb', hreach, hprogress⟩ := h.step hab ha
      obtain rfl | ⟨d, hd, -⟩ := Relation.ReflTransGen.cases_head hreach
      · rcases hprogress with hlt | hloop
        · obtain ⟨a'', hR, ha''⟩ := ih (size a') (hn ▸ hlt) hb' rfl
          exact ⟨a'', hR, reaches_eval (Relation.ReflTransGen.single ha) ▸ ha''⟩
        · obtain ⟨d, hd, -⟩ := Relation.TransGen.head'_iff.1 hloop
          simp [hb] at hd
      · simp [hb] at hd

theorem eval_of_first (ha : a' ∈ eval first a) : ∃ b', R a' b' ∧ b' ∈ eval second b := by
  obtain ⟨hreach, hstop⟩ := mem_eval.1 ha
  obtain ⟨c, hc, hbc⟩ := h.reaches hab hreach
  obtain ⟨d, hd, hcd, hnone⟩ := h.stop hc hstop
  exact ⟨d, hd, mem_eval.2 ⟨hbc.trans hcd, hnone⟩⟩

theorem eval_of_second (hb : b' ∈ eval second b) : ∃ a', R a' b' ∧ a' ∈ eval first a := by
  obtain ⟨hreach, hstop⟩ := mem_eval.1 hb
  obtain ⟨a', c, ha', hc, hbc⟩ := h.reaches_rev hab hreach
  obtain rfl | ⟨d, hd, -⟩ := Relation.ReflTransGen.cases_head hbc
  · obtain ⟨a'', hR, ha''⟩ := h.stops hc hstop
    exact ⟨a'', hR, reaches_eval ha' ▸ ha''⟩
  · simp [hstop] at hd

end

end Follows

section Finite

variable {step : α → Option α} {a : α}

def runFor (step : α → Option α) : Nat → α → α
  | 0, a => a
  | n + 1, a => ((step a).map (runFor step n)).getD a

theorem reaches_runFor (n : Nat) : Reaches step a (runFor step n a) := by
  induction n generalizing a with
  | zero => exact .refl
  | succ n ih =>
    cases hstep : step a with
    | none =>
      rw [runFor, hstep]
      exact .refl
    | some a' =>
      rw [runFor, hstep]
      exact .head hstep ih

def throughout (step : α → Option α) (p : α → Bool) : Nat → α → Bool
  | 0, _ => false
  | n + 1, a => p a && (step a).all (throughout step p n)

theorem forall_of_throughout {p : α → Bool} {n : Nat} (h : throughout step p n a) {b : α}
    (hb : Reaches step a b) : p b := by
  induction n generalizing a with
  | zero => simp [throughout] at h
  | succ n ih =>
    simp only [throughout, Bool.and_eq_true] at h
    obtain rfl | ⟨a', ha', hb⟩ := Relation.ReflTransGen.cases_head hb
    · exact h.1
    · rw [Option.mem_def.1 ha', Option.all_some] at h
      exact ih h.2 hb

end Finite

structure Execution (ν : Type) where
  State : Type
  step : State → Option State
  start : State
  printed : State → List ν
  IsDone : State → Prop

namespace Execution

variable {ν : Type} {e e' e'' : Execution ν}

def Prints (e : Execution ν) (vs : List ν) : Prop :=
  ∃ s, Reaches e.step e.start s ∧ vs <+: e.printed s

def EndsWith (e : Execution ν) (vs : List ν) : Prop :=
  ∃ s, Reaches e.step e.start s ∧ e.IsDone s ∧ e.printed s = vs

def SameOutput (e e' : Execution ν) : Prop :=
  (∀ vs, e.Prints vs ↔ e'.Prints vs) ∧ ∀ vs, e.EndsWith vs ↔ e'.EndsWith vs

theorem SameOutput.symm (h : e.SameOutput e') : e'.SameOutput e :=
  ⟨fun vs => (h.1 vs).symm, fun vs => (h.2 vs).symm⟩

theorem SameOutput.trans (h : e.SameOutput e') (h' : e'.SameOutput e'') : e.SameOutput e'' :=
  ⟨fun vs => (h.1 vs).trans (h'.1 vs), fun vs => (h.2 vs).trans (h'.2 vs)⟩

theorem printed_of_reaches (hstep : ∀ {s s'}, e.step s = some s' → e.printed s <+: e.printed s')
    {s s' : e.State} (h : Reaches e.step s s') : e.printed s <+: e.printed s' := by
  induction h with
  | refl => exact List.prefix_rfl
  | tail _ h ih => exact ih.trans (hstep h)

theorem sameOutput_of_follows {size : e.State → Nat} {R : e.State → e'.State → Prop}
    (h : Follows e.step e'.step size R) (hstart : R e.start e'.start)
    (hprinted : ∀ {a b}, R a b → e.printed a = e'.printed b)
    (hdone : ∀ {a b}, R a b → e.step a = none → e'.step b = none →
      e.IsDone a ∧ e'.IsDone b)
    (hnone : ∀ {a}, e.IsDone a → e.step a = none)
    (hnone' : ∀ {b}, e'.IsDone b → e'.step b = none)
    (hstep : ∀ {b b'}, e'.step b = some b' → e'.printed b <+: e'.printed b') :
    e.SameOutput e' := by
  refine ⟨fun vs => ⟨?_, ?_⟩, fun vs => ⟨?_, ?_⟩⟩
  · rintro ⟨a, ha, hvs⟩
    obtain ⟨b, hb, hreach⟩ := h.reaches hstart ha
    exact ⟨b, hreach, hprinted hb ▸ hvs⟩
  · rintro ⟨b, hb, hvs⟩
    obtain ⟨a, b', ha, hR, hbb'⟩ := h.reaches_rev hstart hb
    exact ⟨a, ha, hprinted hR ▸ hvs.trans (printed_of_reaches hstep hbb')⟩
  · rintro ⟨a, ha, hend, rfl⟩
    obtain ⟨b, hb, heval⟩ := h.eval_of_first hstart (mem_eval.2 ⟨ha, hnone hend⟩)
    obtain ⟨hreach, hstop⟩ := mem_eval.1 heval
    exact ⟨b, hreach, (hdone hb (hnone hend) hstop).2, (hprinted hb).symm⟩
  · rintro ⟨b, hb, hend, rfl⟩
    obtain ⟨a, ha, heval⟩ := h.eval_of_second hstart (mem_eval.2 ⟨hb, hnone' hend⟩)
    obtain ⟨hreach, hstop⟩ := mem_eval.1 heval
    exact ⟨a, hreach, (hdone ha hstop (hnone' hend)).1, hprinted ha⟩

end Execution

end TurtleCompiler
