/-!
When computations that can fail succeed.
-/

namespace TurtleCompiler

theorem throw_apply (e : ε) (s : σ) : (throw e : EStateM ε σ α) s = .error e s := rfl

theorem get_apply (s : σ) : (get : EStateM ε σ σ) s = .ok s s := rfl

theorem set_apply (s₁ s : σ) : (set s₁ : EStateM ε σ PUnit) s = .ok ⟨⟩ s₁ := rfl

theorem modify_apply (f : σ → σ) (s : σ) :
    (modify f : EStateM ε σ PUnit) s = .ok ⟨⟩ (f s) := rfl

@[simp] theorem mapError_ok (f : ε → ε') (a : α) :
    (.ok a : Except ε α).mapError f = .ok a := rfl

@[simp] theorem mapError_error (f : ε → ε') (e : ε) :
    (.error e : Except ε α).mapError f = .error (f e) := rfl

theorem get_bind (f : σ → EStateM ε σ α) (s : σ) : (get >>= f) s = f s s := rfl

theorem throw_bind (e : ε) (f : α → EStateM ε σ β) (s : σ) :
    (throw e >>= f) s = .error e s := rfl

theorem except_bind_eq_ok {x : Except ε α} {f : α → Except ε β} {b : β} :
    (x >>= f) = .ok b ↔ ∃ a, x = .ok a ∧ f a = .ok b := by
  cases x <;> simp [bind, Except.bind]

theorem bind_eq_ok {x : EStateM ε σ α} {f : α → EStateM ε σ β} {s s'' : σ} {b : β} :
    (x >>= f) s = .ok b s'' ↔ ∃ a s', x s = .ok a s' ∧ f a s' = .ok b s'' := by
  simp only [bind, EStateM.bind]
  cases x s <;> simp [and_assoc]

theorem bind_of_ok {x : EStateM ε σ α} {s s' : σ} {a : α} (h : x s = .ok a s')
    (f : α → EStateM ε σ β) : (x >>= f) s = f a s' := by
  simp only [bind, EStateM.bind, h]

@[simp] theorem pure_eq_ok {a b : α} {s s' : σ} :
    (pure a : EStateM ε σ α) s = .ok b s' ↔ a = b ∧ s = s' := by
  simp [pure, EStateM.pure]

@[simp] theorem throw_ne_ok {e : ε} {b : α} {s s' : σ} :
    (throw e : EStateM ε σ α) s ≠ .ok b s' := by
  simp [throw_apply]

@[simp] theorem get_eq_ok {s a s' : σ} :
    (get : EStateM ε σ σ) s = .ok a s' ↔ s = a ∧ s = s' := by
  simp [get_apply]

@[simp] theorem set_eq_ok {s s₁ s' : σ} {u : PUnit} :
    (set s₁ : EStateM ε σ PUnit) s = .ok u s' ↔ s₁ = s' := by
  simp [set_apply]

@[simp] theorem modify_eq_ok {f : σ → σ} {s s' : σ} {u : PUnit} :
    (modify f : EStateM ε σ PUnit) s = .ok u s' ↔ f s = s' := by
  simp [modify_apply]

theorem mapM_cons_eq_ok {f : α → EStateM ε σ β} {a : α} {as : List α}
    {bs : List β} {s s' : σ} : (a :: as).mapM f s = .ok bs s' ↔
    ∃ b s₁, f a s = .ok b s₁ ∧ ∃ bs', as.mapM f s₁ = .ok bs' s' ∧ b :: bs' = bs := by
  simp only [List.mapM_cons, bind_eq_ok, pure_eq_ok]
  grind

theorem map_eq_ok {x : EStateM ε σ α} {f : α → β} {s s' : σ} {b : β} :
    (f <$> x) s = .ok b s' ↔ ∃ a, x s = .ok a s' ∧ f a = b := by
  simp only [Functor.map, EStateM.map]
  cases x s <;> simp [and_assoc, and_comm]

theorem runs_of_mapM {f : α → EStateM ε σ β} {as : List α} {bs : List β} {s s' : σ}
    (h : as.mapM f s = .ok bs s') : (∀ a ∈ as, ∃ b s₁ s₂, f a s₁ = .ok b s₂) ∧
    ∀ b ∈ bs, ∃ a ∈ as, ∃ s₁ s₂, f a s₁ = .ok b s₂ := by
  induction as generalizing s bs with
  | nil =>
    simp only [List.mapM_nil, pure_eq_ok] at h
    simp [← h.1]
  | cons a as ih =>
    obtain ⟨b, s₁, ha, bs, has, rfl⟩ := mapM_cons_eq_ok.1 h
    obtain ⟨hruns, hruns'⟩ := ih has
    refine ⟨List.forall_mem_cons.2 ⟨⟨b, s, s₁, ha⟩, hruns⟩,
      List.forall_mem_cons.2 ⟨?_, fun b' hb' => ?_⟩⟩
    · exact ⟨a, List.mem_cons_self, s, s₁, ha⟩
    · obtain ⟨a', ha', hrun⟩ := hruns' b' hb'
      exact ⟨a', List.mem_cons_of_mem _ ha', hrun⟩

theorem discard_eq_ok {x : EStateM ε σ α} {s s' : σ} {u : Unit} :
    (discard x : EStateM ε σ Unit) s = .ok u s' ↔ ∃ a, x s = .ok a s' := by
  refine map_eq_ok.trans ?_
  simp

@[simp] theorem adaptExcept_eq_ok {x : EStateM ε σ α} {f : ε → ε'} {s s' : σ} {a : α} :
    EStateM.adaptExcept f x s = .ok a s' ↔ x s = .ok a s' := by
  simp only [EStateM.adaptExcept]
  cases x s <;> simp

end TurtleCompiler
