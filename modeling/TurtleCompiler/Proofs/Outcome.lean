import TurtleCompiler.Proofs.Actions

/-!
Computations that fail with errors of the source only, and what holds when they succeed.
-/

namespace TurtleCompiler

theorem bind_eq_error {x : EStateM ε σ α} {f : α → EStateM ε σ β} {s s'' : σ} {e : ε} :
    (x >>= f) s = .error e s'' ↔ x s = .error e s'' ∨ ∃ a s', x s = .ok a s' ∧
    f a s' = .error e s'' := by
  simp only [bind, EStateM.bind]
  cases x s <;> simp [and_assoc]

@[simp] theorem pure_ne_error {a : α} {s s' : σ} {e : ε} :
    (pure a : EStateM ε σ α) s ≠ .error e s' := by
  simp [pure, EStateM.pure]

@[simp] theorem throw_eq_error {e e' : ε} {s s' : σ} :
    (throw e : EStateM ε σ α) s = .error e' s' ↔ e = e' ∧ s = s' := by
  simp [throw_apply]

@[simp] theorem get_ne_error {s s' : σ} {e : ε} : (get : EStateM ε σ σ) s ≠ .error e s' := by
  simp [get_apply]

@[simp] theorem modify_ne_error {f : σ → σ} {s s' : σ} {e : ε} :
    (modify f : EStateM ε σ PUnit) s ≠ .error e s' := by
  simp [modify_apply]

theorem mapM_eq_error {f : α → EStateM ε σ β} {as : List α} {e : ε} {s s' : σ}
    (h : as.mapM f s = .error e s') : ∃ before a after bs s₁, as = before ++ a :: after ∧
    before.mapM f s = .ok bs s₁ ∧ f a s₁ = .error e s' := by
  induction as generalizing s with
  | nil => exact absurd h pure_ne_error
  | cons a as ih =>
    simp only [List.mapM_cons, bind_eq_error, pure_ne_error, and_false, exists_false, or_false] at h
    rcases h with ha | ⟨b, s₁, ha, has⟩
    · exact ⟨[], a, as, [], s, rfl, rfl, ha⟩
    · obtain ⟨before, a', after, bs, s₂, rfl, hbefore, ha'⟩ := ih has
      refine ⟨a :: before, a', after, b :: bs, s₂, rfl, ?_, ha'⟩
      rw [List.mapM_cons]
      exact bind_eq_ok.2 ⟨b, s₁, ha, bind_eq_ok.2 ⟨bs, s₂, hbefore, rfl⟩⟩

def Error.IsOfSource : Error → Prop
  | .link _ | .defect _ => False
  | _ => True

theorem Error.IsOfSource.atLine {e : Error} (h : e.IsOfSource) (line : Nat) :
    (e.atLine line).IsOfSource := by
  cases e <;> exact h

def Yields (x : EStateM Error σ α) (s : σ) (q : α → σ → Prop) : Prop :=
  match x s with
  | .ok a s' => q a s'
  | .error e _ => e.IsOfSource

namespace Yields

variable {σ α β : Type} {x : EStateM Error σ α} {s : σ} {p q : α → σ → Prop}
  {f : α → EStateM Error σ β} {r : β → σ → Prop} {I : σ → Prop} {as : List α}

theorem of_cases (herror : ∀ {e s'}, x s = .error e s' → e.IsOfSource)
    (hok : ∀ {a s'}, x s = .ok a s' → q a s') : Yields x s q := by
  unfold Yields
  split
  · exact hok ‹_›
  · exact herror ‹_›

theorem of_ok (h : Yields x s q) {a : α} {s' : σ} (hx : x s = .ok a s') : q a s' := by
  unfold Yields at h
  rwa [hx] at h

theorem of_error (h : Yields x s q) {e : Error} {s' : σ} (hx : x s = .error e s') :
    e.IsOfSource := by
  unfold Yields at h
  rwa [hx] at h

theorem mono (h : Yields x s p) (hpq : ∀ {a s'}, p a s' → q a s') : Yields x s q :=
  .of_cases h.of_error fun hx => hpq (h.of_ok hx)

theorem of_pure {a : α} (h : q a s) : Yields (pure a) s q := h

theorem of_throw {e : Error} (h : e.IsOfSource) : Yields (throw e) s q := h

theorem of_get {q : σ → σ → Prop} (h : q s s) : Yields get s q := h

theorem of_modify {f : σ → σ} {q : PUnit → σ → Prop} (h : q ⟨⟩ (f s)) :
    Yields (modify f) s q := h

theorem bind (h : Yields x s fun a s' => Yields (f a) s' r) : Yields (x >>= f) s r := by
  unfold Yields at h ⊢
  simp only [Bind.bind, EStateM.bind]
  cases hx : x s with
  | ok a s' => simpa [hx, Yields] using h
  | error e s' => simpa [hx] using h

theorem map {f : α → β} (h : Yields x s fun a s' => r (f a) s') : Yields (f <$> x) s r := by
  unfold Yields at h ⊢
  simp only [Functor.map, EStateM.map]
  cases hx : x s <;> simpa [hx] using h

theorem atLine (h : Yields x s q) (line : Nat) :
    Yields (EStateM.adaptExcept (Error.atLine line) x) s q := by
  unfold Yields at h ⊢
  simp only [EStateM.adaptExcept]
  cases hx : x s with
  | ok a s' => simpa [hx] using h
  | error e s' =>
    rw [hx] at h
    exact Error.IsOfSource.atLine h line

theorem mapM {p : β → Prop}
    (h : ∀ a ∈ as, ∀ s, I s → Yields (f a) s fun b s' => p b ∧ I s') (hs : I s) :
    Yields (as.mapM f) s fun bs s' => (∀ b ∈ bs, p b) ∧ I s' := by
  induction as generalizing s with
  | nil => exact .of_pure ⟨by simp, hs⟩
  | cons a as ih =>
    rw [List.forall_mem_cons] at h
    rw [List.mapM_cons]
    refine .bind ((h.1 s hs).mono fun ⟨hb, hs'⟩ =>
      .bind ((ih h.2 hs').mono fun ⟨hbs, hs''⟩ => .of_pure ⟨?_, hs''⟩))
    exact List.forall_mem_cons.2 ⟨hb, hbs⟩

theorem forM {f : α → EStateM Error σ PUnit}
    (h : ∀ a ∈ as, ∀ s, I s → Yields (f a) s fun _ s' => I s') (hs : I s) :
    Yields (as.forM f) s fun _ s' => I s' := by
  induction as generalizing s with
  | nil => exact .of_pure hs
  | cons a as ih =>
    rw [List.forall_mem_cons] at h
    change Yields (f a >>= fun _ => as.forM f) s _
    exact .bind ((h.1 s hs).mono fun hs' => ih h.2 hs')

end Yields

section Lowering

variable {α : Type} {s : Lowering} {q : α → Lowering → Prop}

theorem Yields.ofTable {x : TableM α} (h : Yields x s.table fun a t => q a (s.setTable t)) :
    Yields (liftM x : LowerM α) s q := by
  change Yields (LowerM.ofWork (Work.ofTable x)) s q
  unfold Yields at h ⊢
  simp only [LowerM.ofWork, Work.ofTable]
  cases hx : x s.table <;> simpa [hx, Lowering.setTable] using h

theorem Yields.ofExcept {x : Except Error α} (herror : ∀ {e}, x = .error e → e.IsOfSource)
    (hok : ∀ {a}, x = .ok a → q a s) : Yields (LowerM.ofExcept x) s q := by
  cases x with
  | ok a => exact hok rfl
  | error e => exact herror rfl

end Lowering

end TurtleCompiler
