import Mathlib.Data.List.Forall2
import TurtleCompiler.Lowering.Basic

/-!
Two computations side by side. From states that are compared, both fail or both succeed, and what
they come to is compared again.
-/

namespace TurtleCompiler

structure Pairing (σ : Type) where
  state : σ → σ → Prop
  error : Error → Error → Prop := fun _ _ => True

section

variable {σ α β α' β' ι : Type} {P : Pairing σ} {q : α → α' → Prop}
  {r : β → β' → Prop}

inductive Together (P : Pairing σ) (q : α → α' → Prop) :
    EStateM.Result Error σ α → EStateM.Result Error σ α' → Prop
  | ok {a : α} {a' : α'} {s s' : σ} : q a a' → P.state s s' →
      Together P q (.ok a s) (.ok a' s')
  | error {e e' : Error} {s s' : σ} : P.error e e' → Together P q (.error e s) (.error e' s')

structure Parallel (P : Pairing σ) (q : α → α' → Prop) (x : EStateM Error σ α)
    (x' : EStateM Error σ α') : Prop where
  run : ∀ {s s' : σ}, P.state s s' → Together P q (x s) (x' s')

variable {x : EStateM Error σ α} {x' : EStateM Error σ α'} {P' : Pairing σ} {s s' : σ}
  {k : α → EStateM Error σ β} {k' : α' → EStateM Error σ β'}

theorem Together.bind_run (hx : Together P q (x s) (x' s'))
    (herror : ∀ {e e'}, P.error e e' → P'.error e e')
    (hk : ∀ {a a' t t'}, x s = .ok a t → x' s' = .ok a' t' → q a a' → P.state t t' →
      Together P' r (k a t) (k' a' t')) :
    Together P' r ((x >>= k) s) ((x' >>= k') s') := by
  simp only [Bind.bind, EStateM.bind]
  cases hrun : x s <;> cases hrun' : x' s' <;> rw [hrun, hrun'] at hx <;> cases hx
  · exact hk hrun hrun' ‹_› ‹_›
  · exact .error (herror ‹_›)

theorem Together.bind (hx : Together P q (x s) (x' s'))
    (hk : ∀ {a a'}, q a a' → Parallel P r (k a) (k' a')) :
    Together P r ((x >>= k) s) ((x' >>= k') s') :=
  hx.bind_run (fun he => he) fun _ _ ha hs => (hk ha).run hs

theorem Together.imp {q' : α → α' → Prop} (hx : Together P q (x s) (x' s'))
    (herror : ∀ {e e'}, P.error e e' → P'.error e e')
    (hok : ∀ {a a' t t'}, x s = .ok a t → x' s' = .ok a' t' → q a a' → P.state t t' →
      q' a a' ∧ P'.state t t') :
    Together P' q' (x s) (x' s') := by
  cases hrun : x s <;> cases hrun' : x' s' <;> rw [hrun, hrun'] at hx <;> cases hx
  · obtain ⟨ha, hs⟩ := hok hrun hrun' ‹_› ‹_›
    exact .ok ha hs
  · exact .error (herror ‹_›)

theorem Together.swap {P'' : Pairing σ} {x : EStateM Error σ α} {y : EStateM Error σ β}
    {k : α → β → EStateM Error σ α'} {k' : β → α → EStateM Error σ β'}
    {q : α → α → Prop} {r : β → β → Prop}
    {z : α' → β' → Prop} (hx : ∀ {b t}, y s = .ok b t → Together P q (x s) (x t))
    (hy : ∀ {a t}, x s = .ok a t → Together P' r (y t) (y s))
    (herror : ∀ e e', P''.error e e')
      (hk : ∀ {a b b' a' t t₁ t' t₁'}, x s = .ok a t → y t = .ok b t₁ →
        y s = .ok b' t' → x t' = .ok a' t₁' →
      q a a' → P.state t t₁' → r b b' → P'.state t₁ t' →
      Together P'' z (k a b t₁) (k' b' a' t₁')) :
    Together P'' z ((x >>= fun a => y >>= k a) s) ((y >>= fun b => x >>= k' b) s) := by
  simp only [Bind.bind, EStateM.bind]
  cases hrun : x s with
  | error e t =>
    cases hrun' : y s with
    | error e' t' => exact .error (herror e e')
    | ok b t' =>
      have hend := hx hrun'
      rw [hrun] at hend
      dsimp only
      cases hagain : x t' <;> rw [hagain] at hend <;> cases hend
      exact .error (herror _ _)
  | ok a t =>
    have hend := hy hrun
    dsimp only
    cases hnext : y t <;> cases hrun' : y s <;> rw [hnext, hrun'] at hend <;> cases hend
    · have hend' := hx hrun'
      rw [hrun] at hend'
      dsimp only
      cases hagain : x _ <;> rw [hagain] at hend' <;> cases hend'
      exact hk hrun hnext hrun' hagain ‹_› ‹_› ‹_› ‹_›
    · exact .error (herror _ _)

namespace Parallel

theorem of_pure {a : α} {a' : α'} (h : q a a') :
    Parallel P q (pure a : EStateM Error σ α) (pure a') :=
  ⟨fun hs => .ok h hs⟩

variable {e e' : Error} {k : α → EStateM Error σ β} {as : List ι}

theorem of_throw (h : P.error e e') : Parallel P q (throw e : EStateM Error σ α) (throw e') :=
  ⟨fun _ => .error h⟩

theorem of_get : Parallel P P.state (get : EStateM Error σ σ) get := ⟨fun hs => .ok hs hs⟩

theorem of_modify {f f' : σ → σ} (h : ∀ {s s'}, P.state s s' → P.state (f s) (f' s')) :
    Parallel P Eq (modify f : EStateM Error σ PUnit) (modify f') := ⟨fun hs => .ok rfl (h hs)⟩

theorem of_set {s s' : σ} (h : P.state s s') :
    Parallel P Eq (set s : EStateM Error σ PUnit) (set s') :=
  ⟨fun _ => .ok rfl h⟩

theorem mono {q' : α → α' → Prop} (hx : Parallel P q x x')
    (hq : ∀ {a a'}, q a a' → q' a a') : Parallel P q' x x' :=
  ⟨fun hs => (hx.run hs).imp (fun he => he) fun _ _ ha hs => ⟨hq ha, hs⟩⟩

theorem bind {k' : α' → EStateM Error σ β'} (hx : Parallel P q x x')
    (hk : ∀ {a a'}, q a a' → Parallel P r (k a) (k' a')) : Parallel P r (x >>= k) (x' >>= k') :=
  ⟨fun hs => (hx.run hs).bind hk⟩

theorem bind_eq {x x' : EStateM Error σ α} {k' : α → EStateM Error σ β'}
    (hx : Parallel P Eq x x') (hk : ∀ a, Parallel P r (k a) (k' a)) :
    Parallel P r (x >>= k) (x' >>= k') :=
  hx.bind fun {a a'} h => by
    obtain rfl : a = a' := h
    exact hk a

theorem throw_bind (h : P.error e e') (k : α → EStateM Error σ β)
    (k' : α' → EStateM Error σ β') :
    Parallel P r (throw e >>= k) (throw e' >>= k') := ⟨fun _ => .error h⟩

theorem map {f : α → β} {f' : α' → β'} (hx : Parallel P q x x')
    (hf : ∀ {a a'}, q a a' → r (f a) (f' a')) : Parallel P r (f <$> x) (f' <$> x') := by
  rw [← bind_pure_comp, ← bind_pure_comp]
  exact hx.bind fun h => of_pure (hf h)

theorem ite {p : Prop} [Decidable p] {y : EStateM Error σ α} {y' : EStateM Error σ α'}
    (hx : p → Parallel P q x x') (hy : ¬ p → Parallel P q y y') :
    Parallel P q (if p then x else y) (if p then x' else y') := by
  split
  · exact hx ‹_›
  · exact hy ‹_›

theorem adaptExcept {f f' : Error → Error} (hx : Parallel P q x x')
    (hf : ∀ {e e'}, P.error e e' → P.error (f e) (f' e')) :
    Parallel P q (EStateM.adaptExcept f x) (EStateM.adaptExcept f' x') := by
  refine ⟨fun {s s'} hs => ?_⟩
  have hrun := hx.run hs
  simp only [EStateM.adaptExcept]
  cases hx : x s <;> cases hx' : x' s' <;> rw [hx, hx'] at hrun <;> cases hrun
  · exact .ok ‹_› ‹_›
  · exact .error (hf ‹_›)

theorem mapM {f : ι → EStateM Error σ α} {f' : ι → EStateM Error σ α'}
    (h : ∀ a ∈ as, Parallel P q (f a) (f' a)) :
    Parallel P (List.Forall₂ q) (as.mapM f) (as.mapM f') := by
  induction as with
  | nil => exact of_pure .nil
  | cons a as ih =>
    rw [List.forall_mem_cons] at h
    rw [List.mapM_cons, List.mapM_cons]
    exact h.1.bind fun hb => (ih h.2).bind fun hbs => of_pure (.cons hb hbs)

theorem mapM_eq {f f' : ι → EStateM Error σ α} (h : ∀ a ∈ as, Parallel P Eq (f a) (f' a)) :
    Parallel P Eq (as.mapM f) (as.mapM f') := by
  have hall := mapM h
  rwa [List.forall₂_eq_eq_eq] at hall

theorem forM {f f' : ι → EStateM Error σ PUnit} (h : ∀ a ∈ as, Parallel P Eq (f a) (f' a)) :
    Parallel P Eq (as.forM f) (as.forM f') := by
  induction as with
  | nil => exact of_pure rfl
  | cons a as ih =>
    rw [List.forall_mem_cons] at h
    change Parallel P Eq (f a >>= fun _ => as.forM f) (f' a >>= fun _ => as.forM f')
    exact h.1.bind_eq fun _ => ih h.2

end Parallel

end

namespace Parallel

variable {α α' : Type} {q : α → α' → Prop}

theorem ofTableWork {P : Pairing Table} {P' : Pairing Workspace} {x : TableM α} {x' : TableM α'}
    (hstate : ∀ {w w'}, P'.state w w' ↔ P.state w.table w'.table)
    (herror : ∀ {e e'}, P.error e e' → P'.error e e')
    (h : Parallel P q x x') : Parallel P' q (liftM x : Work α) (liftM x') := by
  refine ⟨fun {w w'} hw => ?_⟩
  have hrun := h.run (hstate.1 hw)
  change Together P' q (Work.ofTable x w) (Work.ofTable x' w')
  simp only [Work.ofTable]
  cases hx : x w.table <;> cases hx' : x' w'.table <;> rw [hx, hx'] at hrun <;> cases hrun
  · rename_i ha ht
    exact .ok ha (hstate.2 ht)
  · exact .error (herror ‹_›)

theorem ofWork {P : Pairing Workspace} {P' : Pairing Lowering} {x : Work α} {x' : Work α'}
    (hdown : ∀ {s s'}, P'.state s s' → P.state s.toWorkspace s'.toWorkspace)
    (hup : ∀ {s s' w w'}, P'.state s s' → P.state w w' →
      P'.state { s with toWorkspace := w } { s' with toWorkspace := w' })
    (herror : ∀ {e e'}, P.error e e' → P'.error e e') (h : Parallel P q x x') :
    Parallel P' q (liftM x : LowerM α) (liftM x') := by
  refine ⟨fun {s s'} hs => ?_⟩
  have hrun := h.run (hdown hs)
  change Together P' q (LowerM.ofWork x s) (LowerM.ofWork x' s')
  simp only [LowerM.ofWork]
  cases hx : x s.toWorkspace <;> cases hx' : x' s'.toWorkspace <;>
    rw [hx, hx'] at hrun <;> cases hrun
  · rename_i ha hw
    exact .ok ha (hup hs hw)
  · exact .error (herror ‹_›)

end Parallel

end TurtleCompiler
