import TurtleCompiler.Proofs.Operations

/-!
What a use of a routine counts as used. Counting takes one step along a chain of aliases, where
calls and linking go to its end; so the routine that a call runs is written if at most one alias
leads to it.
-/

namespace TurtleCompiler

open Relation

namespace Table

variable {t t' : Table} {i j k id : SymbolId} {ids : List SymbolId} {n : Nat}

def aliasee? (t : Table) (id : SymbolId) : Option SymbolId :=
  (t.alias? id).bind (t.resolve · none (some .routine))

def Spreads (t : Table) (i j : SymbolId) : Prop := j ∈ t.dependencies ((t.aliasee? i).getD i)

def CountedIn (t : Table) : Nat → SymbolId → SymbolId → Prop
  | 0, _, _ => False
  | n + 1, i, j => j = i ∨ t.aliasee? i = some j ∨ ∃ k, t.Spreads i k ∧ t.CountedIn n k j

section Counts

variable (h : t.Counts t')

include h

theorem Counts.aliasee? : t'.aliasee? = t.aliasee? := by
  funext i
  simp only [Table.aliasee?, h.alias?, h.resolve]

theorem Counts.countedIn (n : Nat) : t'.CountedIn n = t.CountedIn n := by
  induction n with
  | zero => rfl
  | succ n ih =>
    funext i j
    simp only [CountedIn, Spreads, h.aliasee?, h.dependencies, ih]

theorem Counts.sameShape : t.SameShape t' where
  size := h.size.symm
  names := by rw [h.scopes]
  byClass := h.byClass.symm
  routine id := by rw [h.routine?]

end Counts

theorem forM_countUsesOf_eq
    (hcount : ∀ {id t t' u}, countUsesOf n id t = .ok u t' → ∃ ids, t' = t.useAll ids ∧
      ∀ j, j ∈ ids ↔ t.CountedIn n id j)
    {roots : List SymbolId} {u : Unit} (h : roots.forM (countUsesOf n) t = .ok u t') :
    ∃ ids, t' = t.useAll ids ∧ ∀ j, j ∈ ids ↔
    ∃ root ∈ roots, t.CountedIn n root j := by
  induction roots generalizing t with
  | nil =>
    obtain ⟨-, rfl⟩ := pure_eq_ok.1 h
    exact ⟨[], rfl, by simp⟩
  | cons root roots ih =>
    obtain ⟨_, t₁, hroot, hroots⟩ := bind_eq_ok.1 h
    obtain ⟨ids, rfl, hids⟩ := hcount hroot
    obtain ⟨ids', rfl, hids'⟩ := ih hroots
    refine ⟨ids ++ ids', (useAll_append ..).symm, fun j => ?_⟩
    rw [List.mem_append, List.exists_mem_cons_iff, hids, hids', (counts_useAll t ids).countedIn]

theorem countUsesOf_eq {u : Unit} (h : countUsesOf n id t = .ok u t') :
    ∃ ids, t' = t.useAll ids ∧ ∀ j, j ∈ ids ↔ t.CountedIn n id j := by
  induction n generalizing id t t' u with
  | zero =>
    obtain ⟨-, rfl⟩ := pure_eq_ok.1 h
    exact ⟨[], rfl, by simp [CountedIn]⟩
  | succ n ih =>
    have hone := counts_useAll t [id]
    have halias : ((t.useAll [id]).symbol id).routine?.bind (·.aliasOf) = t.alias? id :=
      congrFun hone.alias? id
    simp only [countUsesOf, bind_eq_ok, modify_eq_ok, get_eq_ok] at h
    obtain ⟨_, _, rfl, _, _, ⟨rfl, rfl⟩, h⟩ := h
    simp only [show t.modifySymbol id Symbol.use = t.useAll [id] from rfl, halias, hone.resolve,
      hone.dependencies] at h
    cases hname : t.alias? id with
    | none =>
      have hnone : t.aliasee? id = none := by simp [aliasee?, hname]
      rw [hname] at h
      obtain ⟨ids, rfl, hids⟩ := forM_countUsesOf_eq ih h
      refine ⟨id :: ids, rfl, fun j => ?_⟩
      simp [hids, CountedIn, Spreads, hnone, hone.countedIn]
    | some name =>
      cases htarget : t.resolve name none (some .routine) with
      | none => simp [hname, htarget] at h
      | some target =>
        -- the dependencies of what the alias is of stand in for its own
        have hsome : t.aliasee? id = some target := by simp [aliasee?, hname, htarget]
        simp only [hname, htarget, bind_eq_ok, modify_eq_ok] at h
        obtain ⟨_, _, rfl, h⟩ := h
        obtain ⟨ids, rfl, hids⟩ := forM_countUsesOf_eq (t := t.useAll [id, target]) ih h
        refine ⟨id :: target :: ids, rfl, fun j => ?_⟩
        simp [hids, CountedIn, Spreads, hsome, (counts_useAll t [id, target]).countedIn,
          eq_comm (a := target)]

theorem isUsed_use : (t.modifySymbol id Symbol.use).IsUsed j ↔ t.IsUsed j ∨
    t.Has j ∧ j = id := by
  by_cases hid : t.Has id
  · have hone : (t.useAll [id]).IsUsed j ↔ t.IsUsed j ∨ j ∈ [id] :=
      isUsed_useAll (by simpa using hid)
    refine hone.trans (or_congr_right ?_)
    rw [List.mem_singleton]
    exact ⟨fun hj => ⟨hj ▸ hid, hj⟩, And.right⟩
  · rw [modifySymbol_of_not_has hid]
    refine (or_iff_left ?_).symm
    rintro ⟨hj, rfl⟩
    exact hid hj

theorem isUsed_useAll_iff : (t.useAll ids).IsUsed j ↔ t.IsUsed j ∨ t.Has j ∧ j ∈ ids := by
  induction ids generalizing t with
  | nil => simp [useAll]
  | cons id ids ih =>
    change ((t.modifySymbol id Symbol.use).useAll ids).IsUsed j ↔ _
    rw [ih, isUsed_use, (Counts.use t id).has, or_assoc, ← and_or_left, List.mem_cons]

theorem has_of_aliasee? (h : t.aliasee? i = some j) : t.Has i := by
  obtain ⟨name, hname, -⟩ := Option.bind_eq_some_iff.1 h
  exact has_of_alias? hname

theorem Spreads.has (h : t.Spreads i j) : t.Has i := by
  cases hi : t.aliasee? i with
  | none => exact has_of_mem_dependencies (by simpa [Spreads, hi] using h)
  | some k => exact has_of_aliasee? hi

theorem exists_of_countedIn (h : t.CountedIn n i j) :
    ∃ k, ReflTransGen t.Spreads i k ∧ (j = k ∨ t.aliasee? k = some j) := by
  induction n generalizing i with
  | zero => exact h.elim
  | succ n ih =>
    rcases h with rfl | h | ⟨i', hi', h⟩
    · exact ⟨_, .refl, .inl rfl⟩
    · exact ⟨i, .refl, .inr h⟩
    · obtain ⟨k, hk, hj⟩ := ih h
      exact ⟨k, .head hi' hk, hj⟩

theorem length_le_size {path : List SymbolId} (hnodup : path.Nodup)
    (hpath : ∀ i ∈ path, t.Has i) : path.length ≤ t.symbols.size := by
  have hindex : (path.map SymbolId.index).Nodup :=
    hnodup.map fun x y (hxy : x.index = y.index) => congrArg SymbolId.mk hxy
  have hrange : path.map SymbolId.index ⊆ List.range t.symbols.size := by
    simpa [List.subset_def, Has] using hpath
  simpa using (hindex.subperm hrange).length_le

theorem countedIn_of_reflTransGen (hk : ReflTransGen t.Spreads i k)
    (hj : j = k ∨ t.aliasee? k = some j) :
    ∀ path : List SymbolId, path.Nodup →
      (∀ x ∈ path, t.Has x ∧ TransGen t.Spreads x i) →
      (∀ x, ReflTransGen t.Spreads i x → ¬ TransGen t.Spreads x x) →
        t.CountedIn (t.symbols.size + 1 - path.length) i j := by
  induction hk using ReflTransGen.head_induction_on with
  | refl =>
    intro path hnodup hpath _
    have hlength := length_le_size hnodup fun x hx => (hpath x hx).1
    rw [Nat.sub_add_comm hlength]
    exact hj.imp_right .inl
  | @head a b hab _ ih =>
    intro path hnodup hpath hacyclic
    have hnew : a ∉ path := fun ha => hacyclic a .refl (hpath a ha).2
    have hnodup' := List.nodup_cons.2 ⟨hnew, hnodup⟩
    have hpath' : ∀ x ∈ a :: path, t.Has x ∧ TransGen t.Spreads x b :=
      List.forall_mem_cons.2 ⟨⟨hab.has, .single hab⟩,
        fun x hx => (hpath x hx).imp_right (.tail · hab)⟩
    have hlength := length_le_size hnodup' fun x hx => (hpath' x hx).1
    have hrest := ih (a :: path) hnodup' hpath' fun x hx => hacyclic x (.head hab hx)
    rw [Nat.sub_add_comm (Nat.le_of_succ_le hlength)]
    rw [List.length_cons, Nat.add_sub_add_right] at hrest
    exact .inr (.inr ⟨b, hab, hrest⟩)

theorem isUsed_countUsage {name : String} {cls : Option SymbolClass}
    (h : countUsage name cls t = .ok id t') :
    t'.IsUsed j ↔ t.IsUsed j ∨ t.Has j ∧ t.CountedIn (t.symbols.size + 1) id j := by
  have huse := (countUsage_eq_ok h).2
  simp only [countUse, get_bind] at huse
  obtain ⟨ids, rfl, hids⟩ := countUsesOf_eq huse
  rw [isUsed_useAll_iff, hids]

end Table

theorem exists_block_of_isUsed {w w' : Workspace} {listing : Listing} {id : SymbolId}
    {d : Definition} (h : link w = .ok listing w') (hid : id ∈ (w.table.byClass .routine).ids)
    (hused : w.table.IsUsed id) (halias : w.table.alias? id = none)
    (hpending : w.table.IsPending id) (hcode : w.table.code? id = some d)
    (hd : d.symbol = id) : ∃ b ∈ listing.blocks, b.name = (w.table.symbol id).name := by
  obtain ⟨-, w₁, bs, w₂, htable, hlink, hblocks⟩ := link_eq_ok h
  obtain ⟨targets, -, htargets, hmem, -⟩ := mapM_linkRoutine_cases hlink
  rw [htable] at htargets hmem
  have htarget : w.table.linkTarget? id = some id := if_neg (by simpa [Table.alias?] using halias)
  have hlinked : id ∈ targets :=
    (hmem id).2 ⟨hpending, id, List.mem_filter.2 ⟨hid, decide_eq_true hused⟩, htarget⟩
  obtain ⟨r, hr, -, hinternal⟩ := hpending
  have hblock : ∃ b, w.table.blockOf? id = some b ∧ b.name = (w.table.symbol id).name := by
    simp [Table.blockOf?, hcode, Definition.block?, hd, Option.mem_def.1 hr, hinternal, hused.ne']
  obtain ⟨b, hb, hname⟩ := hblock
  refine ⟨b, ?_, hname⟩
  rw [hblocks, htargets]
  exact List.mem_filterMap.2 ⟨id, hlinked, hb⟩

namespace Table

variable {t t' : Table} {name : String} {id target : SymbolId}

theorem getD_aliasee? (htarget : t.resolveAlias id = some target)
    (hstep : target = id ∨ t.aliasee? id = some target) : (t.aliasee? id).getD id = target := by
  rcases hstep with rfl | hstep
  · have hnone : t.aliasee? target = none := by simp [aliasee?, alias?_of_followAlias htarget]
    simp [hnone]
  · simp [hstep]

section

variable (h : countUsage name (some .routine) t = .ok id t')
  (htarget : t.resolveAlias id = some target)

include h htarget

theorem isUsed_of_resolveAlias (hstep : target = id ∨ t.aliasee? id = some target) :
    t'.IsUsed target := by
  obtain ⟨r, hr, -⟩ := exists_routine_of_followAlias htarget
  exact (isUsed_countUsage h).2 (.inr ⟨has_of_routine? hr, hstep.imp_right .inl⟩)

theorem isUsed_of_mem_dependencies (hstep : target = id ∨ t.aliasee? id = some target)
    {j : SymbolId} (hj : j ∈ t.dependencies target) (hhas : t.Has j) : t'.IsUsed j := by
  have hspreads : t.Spreads id j := by rwa [Spreads, getD_aliasee? htarget hstep]
  obtain ⟨n, hn⟩ : ∃ n, t.symbols.size = n + 1 :=
    Nat.exists_eq_add_one.2 (Nat.zero_lt_of_lt hhas)
  refine (isUsed_countUsage h).2 (.inr ⟨hhas, .inr (.inr ⟨j, hspreads, ?_⟩)⟩)
  rw [hn]
  exact .inl rfl

theorem callTo_of_countUsage (args : List Arg) :
    Expr.callTo t' name args = .ok (.call target args (t'.symbol target).type?) := by
  have hcounts := Counts.countUsage h
  refine Expr.callTo_eq_ok.2 ⟨target, ?_, rfl⟩
  rw [hcounts.resolve, (countUsage_eq_ok h).1, Option.bind_some,
    ← hcounts.sameShape.resolveAlias, htarget]

end

end Table

/-- A use of a routine makes used what the routine leads to by its dependencies, and one step along
the aliases from there. If a chain of aliases from the name of a call has at most one step to its
end, what the call runs becomes used, with its parameters and uses, and linking writes it. -/
theorem countUsage_routine {t t' : Table} {name : String} {id : SymbolId}
    (h : Table.countUsage name (some .routine) t = .ok id t') :
    ((∀ i, ReflTransGen t.Spreads id i → ¬ TransGen t.Spreads i i) → ∀ j, t'.IsUsed j ↔
      t.IsUsed j ∨ t.Has j ∧ ∃ k, ReflTransGen t.Spreads id k ∧
      (j = k ∨ t.aliasee? k = some j)) ∧
    ∀ target, t.resolveAlias id = some target → target = id ∨ t.aliasee? id = some target →
      t'.IsUsed target ∧ (∀ j ∈ t.dependencies target, t.Has j → t'.IsUsed j) ∧
      (∀ args, Expr.callTo t' name args = .ok (.call target args (t'.symbol target).type?)) ∧
      ∀ w listing w' d, w.table = t' → link w = .ok listing w' →
        target ∈ (t.byClass .routine).ids → t.IsPending target → t.code? target = some d →
          d.symbol = target → ∃ b ∈ listing.blocks, b.name = (t.symbol target).name := by
  have hcounts := Table.Counts.countUsage h
  refine ⟨fun hacyclic j => ?_,
    fun target htarget hstep => ⟨Table.isUsed_of_resolveAlias h htarget hstep,
    fun j => Table.isUsed_of_mem_dependencies h htarget hstep,
    Table.callTo_of_countUsage h htarget, ?_⟩⟩
  · rw [Table.isUsed_countUsage h]
    refine or_congr_right (and_congr_right fun _ => ⟨Table.exists_of_countedIn, ?_⟩)
    rintro ⟨k, hk, hj⟩
    exact Table.countedIn_of_reflTransGen hk hj [] .nil (by simp) hacyclic
  · rintro w listing w' d rfl hlink hclosed ⟨r, hr, hpending⟩ hcode hd
    rw [← (hcounts.symbol target).name]
    refine exists_block_of_isUsed hlink (by rwa [hcounts.byClass])
      (Table.isUsed_of_resolveAlias h htarget hstep) ?_
      ⟨r, by rwa [hcounts.routine?], hpending⟩ (by rwa [Table.code?, hcounts.routine?]) hd
    rw [hcounts.alias?]
    exact Table.alias?_of_followAlias htarget

def aliasTable : Table :=
  (Table.performAll {} [
    .push "",
    .declare .anywhere "X" .var none {},
    .declare .anywhere "T" .routine none { params := some [⟨0⟩] },
    .declare .anywhere "B" .routine none { aliasOf := some "T" },
    .declare .anywhere "A" .routine none { aliasOf := some "B" },
    .pop]).modifySymbol ⟨1⟩ (·.setCode (.ofNodes ⟨1⟩ []))

theorem acyclic_aliasTable (i : SymbolId) : ¬ TransGen aliasTable.Spreads i i := by
  have hbelow : ∀ n < aliasTable.symbols.size,
      ∀ j ∈ aliasTable.dependencies ((aliasTable.aliasee? ⟨n⟩).getD ⟨n⟩),
      j.index < n := by decide +kernel
  have hlt {i j : SymbolId} (h : TransGen aliasTable.Spreads i j) : j.index < i.index := by
    induction h with
    | single h => exact hbelow _ h.has _ h
    | tail _ h ih => exact (hbelow _ h.has _ h).trans ih
  exact fun h => (hlt h).false

theorem countUsage_routine_alias :
    ∃ id t', Table.countUsage "B" (some .routine) aliasTable = .ok id t' ∧
      (∀ j, t'.IsUsed j ↔ aliasTable.IsUsed j ∨ aliasTable.Has j ∧
        ∃ k, ReflTransGen aliasTable.Spreads id k ∧
        (j = k ∨ aliasTable.aliasee? k = some j)) ∧
      t'.IsUsed ⟨1⟩ ∧ t'.IsUsed ⟨0⟩ ∧
      Expr.callTo t' "B" [] = .ok (.call ⟨1⟩ [] (t'.symbol ⟨1⟩).type?) ∧
      ∃ listing w', link { table := t' } = .ok listing w' ∧
      ∃ b ∈ listing.blocks, b.name = "T" := by
  obtain ⟨id, t', h, rfl, hlink⟩ :=
    exists_outcome (Table.countUsage "B" (some .routine)) aliasTable
    (fun id t' => id = ⟨2⟩ ∧ (outcome? link { table := t' }).isSome) (by decide +kernel)
  obtain ⟨r, hr⟩ := Option.isSome_iff_exists.1 hlink
  obtain ⟨listing, w', hlink, -⟩ :=
    exists_outcome link { table := t' } (fun _ _ => True) ⟨r, hr, trivial⟩
  have htarget : aliasTable.resolveAlias ⟨2⟩ = some ⟨1⟩ := by decide +kernel
  have hstep : aliasTable.aliasee? ⟨2⟩ = some ⟨1⟩ := by decide +kernel
  have hdependency : ⟨0⟩ ∈ aliasTable.dependencies ⟨1⟩ := by decide +kernel
  have hhas : aliasTable.Has ⟨0⟩ := by unfold Table.Has; decide +kernel
  have hclosed : ⟨1⟩ ∈ (aliasTable.byClass .routine).ids := by decide +kernel
  have hpending : aliasTable.IsPending ⟨1⟩ := by unfold Table.IsPending; decide +kernel
  obtain ⟨d, hcode, hd⟩ : ∃ d ∈ aliasTable.code? ⟨1⟩,
    d.symbol = ⟨1⟩ := by decide +kernel
  have hname : (aliasTable.symbol ⟨1⟩).name = "T" := by decide +kernel
  obtain ⟨hexact, hrest⟩ := countUsage_routine h
  obtain ⟨hused, hdependencies, hcall, hwritten⟩ := hrest ⟨1⟩ htarget (.inr hstep)
  exact ⟨⟨2⟩, t', h, hexact fun i _ => acyclic_aliasTable i, hused,
    hdependencies ⟨0⟩ hdependency hhas, hcall [], listing,
    w', hlink, hname ▸ hwritten _ listing w' d rfl hlink hclosed hpending hcode hd⟩

/-- A second alias on the way loses a routine: a use of the first name counts for neither the
routine that a call of it runs nor its parameter, and linking does not write the routine. -/
theorem second_alias_loses_routine :
    ∃ id t', Table.countUsage "A" (some .routine) aliasTable = .ok id t' ∧
      aliasTable.resolveAlias id = some ⟨1⟩ ∧
      (∀ i, ¬ TransGen aliasTable.Spreads i i) ∧ ¬ t'.IsUsed ⟨1⟩ ∧
      ¬ t'.IsUsed ⟨0⟩ ∧ ∃ listing w', link { table := t' } = .ok listing w' ∧
      listing.blocks = [] := by
  obtain ⟨id, t', h, htarget, hroutine, hparam, hlink⟩ :=
    exists_outcome (Table.countUsage "A" (some .routine)) aliasTable
      (fun id t' => aliasTable.resolveAlias id = some ⟨1⟩ ∧ (t'.symbol ⟨1⟩).usage = 0 ∧
        (t'.symbol ⟨0⟩).usage = 0 ∧ ∃ r ∈ outcome? link { table := t' },
        r.1.blocks.isEmpty) (by decide +kernel)
  obtain ⟨listing, w', hlink, hblocks⟩ :=
    exists_outcome link { table := t' } (fun l _ => l.blocks.isEmpty) hlink
  exact ⟨id, t', h, htarget,
    acyclic_aliasTable, by simp [Table.IsUsed, hroutine], by simp [Table.IsUsed, hparam],
    listing, w', hlink, List.isEmpty_iff.1 hblocks⟩

end TurtleCompiler
