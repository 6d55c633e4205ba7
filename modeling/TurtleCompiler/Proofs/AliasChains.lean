import TurtleCompiler.Proofs.AliasUses

/-!
Chains of aliases. From a routine there is one way along the aliases: to a routine that is no alias,
back to where it was, or to a name that no routine has.
-/

namespace TurtleCompiler

open Relation

namespace Table

variable {t : Table} {id target i j : SymbolId} {n : Nat}

def AliasStep (t : Table) (i j : SymbolId) : Prop := t.aliasee? i = some j

def EndsAt (t : Table) (id target : SymbolId) : Prop :=
  ReflTransGen t.AliasStep id target ∧ (t.symbol target).cls = .routine ∧ t.alias? target = none

def Circles (t : Table) (id : SymbolId) : Prop :=
  ∃ i, ReflTransGen t.AliasStep id i ∧ TransGen t.AliasStep i i

def Strays (t : Table) (id : SymbolId) : Prop :=
  ∃ i name, ReflTransGen t.AliasStep id i ∧ t.alias? i = some name ∧
    ∀ j, t.resolve name none (some .routine) = some j → (t.symbol j).cls ≠ .routine

theorem rightUnique_aliasStep (t : Table) : Relator.RightUnique t.AliasStep :=
  fun _ _ _ h h' => Option.some.inj (h.symm.trans h')

theorem not_aliasStep (h : t.alias? i = none) : ¬t.AliasStep i j := by
  simp [AliasStep, aliasee?, h]

theorem cls_of_alias? {name : String} (h : t.alias? i = some name) :
    (t.symbol i).cls = .routine := by
  obtain ⟨r, hr, -⟩ := Option.bind_eq_some_iff.1 h
  exact Symbol.cls_of_routine? hr

theorem AliasStep.cls (h : t.AliasStep i j) : (t.symbol i).cls = .routine := by
  obtain ⟨name, hname, -⟩ := Option.bind_eq_some_iff.1 h
  exact cls_of_alias? hname

theorem followAlias_of_step (h : t.AliasStep i j) (n : Nat) :
    t.followAlias (n + 1) i = t.followAlias n j := by
  obtain ⟨name, hname, hj⟩ := Option.bind_eq_some_iff.1 h
  obtain ⟨r, hr, halias⟩ := Option.bind_eq_some_iff.1 hname
  simp [followAlias, hr, halias, hj]

theorem followAlias_of_end (hcls : (t.symbol i).cls = .routine)
    (halias : t.alias? i = none) (n : Nat) : t.followAlias (n + 1) i = some i := by
  obtain ⟨r, hr⟩ := Symbol.exists_routine hcls
  have hnone : r.aliasOf = none := by simpa [alias?, hr] using halias
  simp [followAlias, hr, hnone]

theorem reaches_of_followAlias (h : t.followAlias n id = some target) :
    ReflTransGen t.AliasStep id target := by
  induction n generalizing id with
  | zero => cases h
  | succ n ih =>
    obtain ⟨r, hr, h⟩ := Option.bind_eq_some_iff.1 h
    cases halias : r.aliasOf with
    | none =>
      obtain rfl : id = target := by simpa [halias] using h
      exact .refl
    | some name =>
      simp only [halias] at h
      obtain ⟨j, hj, h⟩ := Option.bind_eq_some_iff.1 h
      have hstep : t.AliasStep id j := by simp [AliasStep, aliasee?, alias?, hr, halias, hj]
      exact .head hstep (ih h)

theorem endsAt_of_followAlias (h : t.followAlias n id = some target) : t.EndsAt id target := by
  obtain ⟨r, hr, -⟩ := exists_routine_of_followAlias h
  exact ⟨reaches_of_followAlias h, Symbol.cls_of_routine? hr, alias?_of_followAlias h⟩

namespace EndsAt

variable (h : t.EndsAt id target)

include h

theorem of_reaches (hi : ReflTransGen t.AliasStep id i) : t.EndsAt i target := by
  obtain ⟨hreaches, hcls, halias⟩ := h
  rcases hi.total_of_right_unique t.rightUnique_aliasStep hreaches with hi | hi
  · exact ⟨hi, hcls, halias⟩
  · rcases hi.cases_head with rfl | ⟨j, hj, -⟩
    · exact ⟨.refl, hcls, halias⟩
    · exact absurd hj (not_aliasStep halias)

theorem unique {target' : SymbolId} (h' : t.EndsAt id target') : target = target' := by
  rcases (h.of_reaches h'.1).1.cases_head with heq | ⟨j, hj, -⟩
  · exact heq.symm
  · exact absurd hj (not_aliasStep h'.2.2)

theorem cls : (t.symbol id).cls = .routine := by
  rcases h.1.cases_head with rfl | ⟨j, hj, -⟩
  · exact h.2.1
  · exact hj.cls

theorem not_transGen : ¬TransGen t.AliasStep id id := by
  obtain ⟨hreaches, -, halias⟩ := h
  induction hreaches using ReflTransGen.head_induction_on with
  | refl =>
    intro hcircle
    obtain ⟨j, hj, -⟩ := TransGen.head'_iff.1 hcircle
    exact not_aliasStep halias hj
  | head hstep _ ih =>
    intro hcircle
    obtain ⟨j, hj, hback⟩ := TransGen.head'_iff.1 hcircle
    obtain rfl := t.rightUnique_aliasStep hstep hj
    exact ih (.tail' hback hstep)

theorem not_circles : ¬t.Circles id := by
  rintro ⟨i, hi, hcircle⟩
  exact (h.of_reaches hi).not_transGen hcircle

theorem not_strays : ¬t.Strays id := by
  rintro ⟨i, name, hi, hname, hmissing⟩
  have hend := h.of_reaches hi
  rcases hend.1.cases_head with rfl | ⟨j, hj, -⟩
  · simp [hend.2.2] at hname
  · have hresolve : t.resolve name none (some .routine) =
      some j := by simpa [AliasStep, aliasee?, hname] using hj
    exact hmissing j hresolve (hend.of_reaches (.single hj)).cls

end EndsAt

theorem isSome_followAlias (hcls : (t.symbol id).cls = .routine) (hcircles : ¬t.Circles id)
    (hstrays : ¬t.Strays id) {path : List SymbolId} (hnodup : path.Nodup)
    (hpath : ∀ i ∈ path, t.Has i ∧ TransGen t.AliasStep i id)
    (hn : t.symbols.size < n + path.length) : (t.followAlias n id).isSome := by
  induction n generalizing id path with
  | zero =>
    have hlength := length_le_size hnodup fun i hi => (hpath i hi).1
    omega
  | succ n ih =>
    cases halias : t.alias? id with
    | none =>
      rw [followAlias_of_end hcls halias]
      rfl
    | some name =>
      obtain ⟨j, hj, hroutine⟩ :
          ∃ j, t.resolve name none (some .routine) = some j ∧ (t.symbol j).cls = .routine := by
        by_contra hmissing
        exact hstrays ⟨id, name, .refl, halias,
          fun j hj hroutine => hmissing ⟨j, hj, hroutine⟩⟩
      have hstep : t.AliasStep id j := by simp [AliasStep, aliasee?, halias, hj]
      have hnew : id ∉ path := fun hid => hcircles ⟨id, .refl, (hpath id hid).2⟩
      rw [followAlias_of_step hstep]
      refine ih hroutine ?_ ?_ (List.nodup_cons.2 ⟨hnew, hnodup⟩) ?_ ?_
      · rintro ⟨i, hi, hcircle⟩
        exact hcircles ⟨i, .head hstep hi, hcircle⟩
      · rintro ⟨i, name, hi, hmissing⟩
        exact hstrays ⟨i, name, .head hstep hi, hmissing⟩
      · refine List.forall_mem_cons.2
          ⟨⟨has_of_alias? halias, .single hstep⟩, fun i hi => ?_⟩
        exact (hpath i hi).imp_right (.tail · hstep)
      · rw [List.length_cons]
        omega

theorem exists_resolveAlias (hcls : (t.symbol id).cls = .routine) (hcircles : ¬t.Circles id)
    (hstrays : ¬t.Strays id) : ∃ target, t.resolveAlias id = some target :=
  Option.isSome_iff_exists.1
  (isSome_followAlias hcls hcircles hstrays .nil (by simp) (Nat.lt_succ_self _))

/-- However long it is, a chain of aliases is followed to the routine at its end. There is no such
routine exactly where the chain comes back to one of its aliases, or to a name that no routine has.
-/
theorem resolveAlias_iff_chain (hid : (t.symbol id).cls = .routine) :
    (∀ target, t.resolveAlias id = some target ↔ t.EndsAt id target) ∧
      (t.resolveAlias id = none ↔ t.Circles id ∨ t.Strays id) := by
  refine ⟨fun target => ⟨endsAt_of_followAlias, fun h => ?_⟩, fun hnone => ?_, fun h => ?_⟩
  · obtain ⟨target', htarget'⟩ := exists_resolveAlias hid h.not_circles h.not_strays
    rwa [h.unique (endsAt_of_followAlias htarget')]
  · by_contra hneither
    rw [not_or] at hneither
    obtain ⟨target, htarget⟩ := exists_resolveAlias hid hneither.1 hneither.2
    simp [hnone] at htarget
  · refine Option.eq_none_iff_forall_ne_some.2 fun target htarget => ?_
    have hend := endsAt_of_followAlias htarget
    exact h.elim hend.not_circles hend.not_strays

def chainTable : Table := performAll {} [
  .push "",
  .declare .anywhere "T" .routine none {},
  .declare .anywhere "B" .routine none { aliasOf := some "T" },
  .declare .anywhere "A" .routine none { aliasOf := some "B" },
  .declare .anywhere "C" .routine none { aliasOf := some "D" },
  .declare .anywhere "D" .routine none { aliasOf := some "C" },
  .declare .anywhere "E" .routine none { aliasOf := some "F" }]

theorem resolveAlias_iff_chain_of_each :
    chainTable.EndsAt ⟨2⟩ ⟨0⟩ ∧ chainTable.resolveAlias ⟨2⟩ = some ⟨0⟩ ∧
      chainTable.Circles ⟨3⟩ ∧ chainTable.resolveAlias ⟨3⟩ = none ∧
      chainTable.Strays ⟨5⟩ ∧ chainTable.resolveAlias ⟨5⟩ = none := by
  obtain ⟨hroutine, hsteps, hname, hmissing⟩ :
      (∀ n ∈ [0, 2, 3, 5], (chainTable.symbol ⟨n⟩).cls = .routine) ∧
      ((chainTable.aliasee? ⟨2⟩ = some ⟨1⟩ ∧
        chainTable.aliasee? ⟨1⟩ = some ⟨0⟩ ∧ chainTable.alias? ⟨0⟩ = none) ∧
        chainTable.aliasee? ⟨3⟩ = some ⟨4⟩ ∧
        chainTable.aliasee? ⟨4⟩ = some ⟨3⟩) ∧
      chainTable.alias? ⟨5⟩ = some "F" ∧
      chainTable.resolve "F" none (some .routine) = none := by
    decide +kernel
  obtain ⟨⟨htwo, hone, hnone⟩, hthree, hfour⟩ := hsteps
  have hend : chainTable.EndsAt ⟨2⟩ ⟨0⟩ :=
    ⟨.head htwo (.single hone), hroutine 0 (by decide), hnone⟩
  have hcircles : chainTable.Circles ⟨3⟩ := ⟨⟨3⟩, .refl, .head hthree (.single hfour)⟩
  have hstrays : chainTable.Strays ⟨5⟩ := ⟨⟨5⟩, "F", .refl, hname, by simp [hmissing]⟩
  exact ⟨hend, ((resolveAlias_iff_chain (hroutine 2 (by decide))).1 _).2 hend,
    hcircles, (resolveAlias_iff_chain (hroutine 3 (by decide))).2.2 (.inl hcircles),
    hstrays, (resolveAlias_iff_chain (hroutine 5 (by decide))).2.2 (.inr hstrays)⟩

end Table

end TurtleCompiler
