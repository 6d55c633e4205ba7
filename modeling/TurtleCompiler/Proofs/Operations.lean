import TurtleCompiler.Proofs.Stability

/-!
What an operation on a table leaves as it is, also when it fails, and what the scopes below an open
one keep.
-/

namespace TurtleCompiler

open Relation

def Fields.misfits (f : Fields) : SymbolClass → Bool
  | .var => f.hasRoutineFields
  | .routine => f.value.isSome

variable {e : Error}

theorem Symbol.merge_of_error {s : Symbol} {line : Option Nat} {f : Fields}
    (h : (s.merge line f).1 = .error e) :
    f.misfits s.cls ∧ (s.merge line f).2 = s.declareAgain line f := by
  obtain ⟨name, line', usage, scope, fullName, v | r⟩ := s <;>
    simp only [merge] at h ⊢ <;> split at h
  · exact ⟨‹_›, by simp [*]⟩
  · simp at h
  · exact ⟨‹_›, by simp [*]⟩
  · simp at h

namespace Table

variable {t t' : Table} {id : SymbolId} {ids : List SymbolId}

theorem modifySymbol_symbol (f : Symbol → Symbol) :
    t.modifySymbol id (fun _ => f (t.symbol id)) = t.modifySymbol id f := by
  have hsymbols : t.symbols.modify id.index (fun _ => f (t.symbol id)) =
      t.symbols.modify id.index f := by
    refine Array.ext (by simp) fun i hi hi' => ?_
    rw [Array.getElem_modify, Array.getElem_modify]
    split
    · subst_vars
      simp [symbol, Array.getD, show id.index < t.symbols.size by simpa using hi]
    · rfl
  rw [modifySymbol, hsymbols]
  rfl

theorem pop_of_error (h : pop t = .error e t') : t' = t := by
  simp only [pop, get_bind] at h
  cases hscopes : t.scopes with
  | nil =>
    rw [hscopes] at h
    exact (throw_eq_error.1 h).2.symm
  | cons scope scopes =>
    simp only [hscopes, bind_eq_error, modify_ne_error, pure_ne_error, and_false,
      exists_false, or_self] at h

theorem declare_of_error {reach : Reach} {name : String} {cls : SymbolClass}
    {line : Option Nat} {f : Fields} (h : declare reach name cls line f t = .error e t') :
    (∃ id ∈ t.declared reach name, (t.symbol id).cls = cls ∧ f.misfits cls ∧
        t' = t.modifySymbol id (·.declareAgain line f)) ∨
      (∀ id ∈ t.declared reach name, (t.symbol id).cls ≠ cls) ∧ t' = t := by
  rcases declare_cases_of_error h with ⟨id, hid, rfl, hmerge, rfl⟩ | ⟨rfl,
    ⟨hnone, -⟩ | ⟨id, hid, hcls, -⟩⟩
  · obtain ⟨hmisfits, hagain⟩ := Symbol.merge_of_error hmerge
    refine .inl ⟨id, hid, rfl, hmisfits, ?_⟩
    rw [hagain]
    exact modifySymbol_symbol _
  · exact .inr ⟨by simp [hnone], rfl⟩
  · exact .inr ⟨fun j hj => Option.mem_unique hid hj ▸ hcls, rfl⟩

def Involves (t : Table) (i j : SymbolId) : Prop :=
  (t.alias? i = none ∧ j ∈ t.dependencies i) ∨
    ∃ name ∈ t.alias? i, ∃ target ∈ t.resolve name none (some .routine), j = target ∨
    j ∈ t.dependencies target

def Dangles (t : Table) (ids : List SymbolId) (e : Error) : Prop :=
  ∃ last ∈ ids.getLast?, ∃ name ∈ t.alias? last,
    t.resolve name none (some .routine) = none ∧ e = .defect (.unknownUsage name)

theorem counts_useAll (t : Table) (ids : List SymbolId) : t.Counts (t.useAll ids) := by
  induction ids generalizing t with
  | nil => exact .refl t
  | cons id ids ih => exact (Counts.use t id).trans (ih _)

namespace Counts

variable (h : t.Counts t')

include h

theorem routine? (id : SymbolId) : (t'.symbol id).routine? = (t.symbol id).routine? := by
  rw [Symbol.routine?, h.kind, Symbol.routine?]

theorem alias? : t'.alias? = t.alias? := by
  funext i
  rw [Table.alias?, Table.alias?, h.routine?]

theorem dependencies : t'.dependencies = t.dependencies := by
  funext i
  rw [Table.dependencies, Table.dependencies, h.routine?]

theorem involves : t'.Involves = t.Involves := by
  funext i j
  simp only [Involves, h.alias?, h.dependencies, h.resolve]

theorem dangles : t'.Dangles = t.Dangles := by
  funext ids e
  simp only [Dangles, h.alias?, h.resolve]

end Counts

def Tallies (t : Table) (ids : List SymbolId) : EStateM.Result Error Table PUnit → Prop
  | .ok _ t' => t' = t.useAll ids
  | .error e t' => t' = t.useAll ids ∧ t.Dangles ids e

theorem Tallies.after {ids' : List SymbolId} {r : EStateM.Result Error Table PUnit}
    (h : (t.useAll ids).Tallies ids' r) : t.Tallies (ids ++ ids') r := by
  cases r with
  | ok u t' => exact h.trans (useAll_append ..).symm
  | error e t' =>
    obtain ⟨rfl, hdangles⟩ := h
    rw [(counts_useAll t ids).dangles] at hdangles
    obtain ⟨last, hlast, hrest⟩ := hdangles
    exact ⟨(useAll_append ..).symm,
      last, by simp [List.getLast?_append, Option.mem_def.1 hlast], hrest⟩

def Reached (t : Table) (roots ids : List SymbolId) : Prop :=
  ∀ i ∈ ids, ∃ root ∈ roots, ReflTransGen t.Involves root i

theorem tallies_forM {f : SymbolId → TableM PUnit}
    (hf : ∀ (t : Table) (id : SymbolId), ∃ ids, t.Reached [id] ids ∧ t.Tallies ids (f id t))
    (t : Table) (roots : List SymbolId) :
    ∃ ids, t.Reached roots ids ∧ t.Tallies ids (roots.forM f t) := by
  induction roots generalizing t with
  | nil => exact ⟨[], by simp [Reached], rfl⟩
  | cons root roots ih =>
    obtain ⟨ids, hids, htallies⟩ := hf t root
    have hfirst : t.Reached (root :: roots) ids := fun i hi => by
      obtain ⟨_, hroot, hreach⟩ := hids i hi
      exact ⟨root, List.mem_cons_self, List.mem_singleton.1 hroot ▸ hreach⟩
    cases hr : f root t with
    | error e t' =>
      refine ⟨ids, hfirst, ?_⟩
      have hrun : (root :: roots).forM f t = .error e t' := bind_eq_error.2 (.inl hr)
      rwa [hrun, ← hr]
    | ok u t' =>
      rw [hr] at htallies
      obtain rfl : t' = t.useAll ids := htallies
      obtain ⟨ids', hids', htallies'⟩ := ih (t.useAll ids)
      refine ⟨ids ++ ids', List.forall_mem_append.2 ⟨hfirst, fun i hi => ?_⟩, ?_⟩
      · obtain ⟨root', hroot', hreach⟩ := hids' i hi
        rw [(counts_useAll t ids).involves] at hreach
        exact ⟨root', List.mem_cons_of_mem _ hroot', hreach⟩
      · have hrun : (root :: roots).forM f t = roots.forM f (t.useAll ids) := bind_of_ok hr _
        rw [hrun]
        exact htallies'.after

theorem tallies_countUsesOf_succ {n : Nat}
    (ih : ∀ (t : Table) (id : SymbolId), ∃ ids, t.Reached [id] ids ∧
      t.Tallies ids (countUsesOf n id t)) (t : Table)
    (id : SymbolId) :
    ∃ ids, (∀ i ∈ ids, TransGen t.Involves id i) ∧
    t.Tallies (id :: ids) (countUsesOf (n + 1) id t) := by
  have hone := counts_useAll t [id]
  have halias : ((t.useAll [id]).symbol id).routine?.bind (·.aliasOf) = t.alias? id :=
    congrFun hone.alias? id
  have huse : (modify (·.modifySymbol id Symbol.use) : TableM PUnit) t =
    .ok ⟨⟩ (t.useAll [id]) := rfl
  have hget : (get : TableM Table) (t.useAll [id]) = .ok (t.useAll [id]) (t.useAll [id]) := rfl
  simp only [countUsesOf, bind_of_ok huse, bind_of_ok hget, halias, hone.resolve, hone.dependencies]
  cases hname : t.alias? id with
  | none =>
    obtain ⟨ids, hids, htallies⟩ := tallies_forM ih (t.useAll [id]) (t.dependencies id)
    refine ⟨ids, fun i hi => ?_, htallies.after⟩
    obtain ⟨root, hroot, hreach⟩ := hids i hi
    rw [hone.involves] at hreach
    exact .head' (.inl ⟨hname, hroot⟩) hreach
  | some name =>
    cases htarget : t.resolve name none (some .routine) with
    | none =>
      simp only [htarget]
      exact ⟨[], by simp, rfl, id, rfl, name, hname, htarget, rfl⟩
    | some target =>
      simp only [htarget]
      obtain ⟨ids, hids, htallies⟩ :=
        tallies_forM ih (t.useAll [id, target]) (t.dependencies target)
      have hinvolves {j : SymbolId} (hj : j = target ∨ j ∈ t.dependencies target) :
          t.Involves id j :=
        .inr ⟨name, hname, target, htarget, hj⟩
      refine ⟨target :: ids,
        List.forall_mem_cons.2 ⟨.single (hinvolves (.inl rfl)), fun i hi => ?_⟩,
        htallies.after⟩
      obtain ⟨root, hroot, hreach⟩ := hids i hi
      rw [(counts_useAll t _).involves] at hreach
      exact .head' (hinvolves (.inr hroot)) hreach

theorem tallies_countUsesOf (n : Nat) (t : Table) (id : SymbolId) :
    ∃ ids, t.Reached [id] ids ∧ t.Tallies ids (countUsesOf n id t) := by
  induction n generalizing t id with
  | zero => exact ⟨[], by simp [Reached], rfl⟩
  | succ n ih =>
    obtain ⟨ids, hids, htallies⟩ := tallies_countUsesOf_succ ih t id
    refine ⟨id :: ids, List.forall_mem_cons.2 ⟨⟨id, by simp, .refl⟩, fun i hi => ?_⟩,
      htallies⟩
    exact ⟨id, by simp, (hids i hi).to_reflTransGen⟩

theorem countUsage_of_error {name : String} {cls : Option SymbolClass}
    (h : countUsage name cls t = .error e t') :
    (t.resolve name none cls = none ∧ t' = t) ∨
      ∃ id ∈ t.resolve name none cls, ∃ ids, (∀ i ∈ ids, TransGen t.Involves id i) ∧
        t.Dangles (id :: ids) e ∧ t' = t.useAll (id :: ids) := by
  simp only [countUsage, get_bind] at h
  cases hid : t.resolve name none cls with
  | none =>
    rw [hid] at h
    exact .inl ⟨rfl, (throw_eq_error.1 h).2.symm⟩
  | some id =>
    simp only [hid, countUse, bind_eq_error, pure_ne_error, and_false, exists_false, or_false,
      get_ne_error, false_or, get_eq_ok] at h
    obtain ⟨_, _, ⟨rfl, rfl⟩, h⟩ := h
    obtain ⟨ids, hids, htallies⟩ := tallies_countUsesOf_succ (tallies_countUsesOf _) t id
    rw [h] at htallies
    exact .inr ⟨id, rfl, ids, hids, htallies.2, htallies.1⟩

end Table

/-- An operation that fails leaves the table as it was, with two exceptions. A declaration that
means a symbol of its class, but says what the class does not have, still counts for its line and
usage. A count stays with what was counted until it came to an alias of nothing. -/
theorem table_after_failure (t : Table) :
    (∀ e t', Table.pop t = .error e t' → t' = t) ∧
    (∀ reach name cls line f e t', Table.declare reach name cls line f t = .error e t' →
      (∃ id ∈ t.declared reach name, (t.symbol id).cls = cls ∧ f.misfits cls ∧
          t' = t.modifySymbol id (·.declareAgain line f)) ∨
        (∀ id ∈ t.declared reach name, (t.symbol id).cls ≠ cls) ∧ t' = t) ∧
    ∀ name cls e t', Table.countUsage name cls t = .error e t' →
      (t.resolve name none cls = none ∧ t' = t) ∨
        ∃ id ∈ t.resolve name none cls, ∃ ids, (∀ i ∈ ids, TransGen t.Involves id i) ∧
          t.Dangles (id :: ids) e ∧ t' = t.useAll (id :: ids) :=
  ⟨fun _ _ => Table.pop_of_error, fun _ _ _ _ _ _ _ => Table.declare_of_error,
    fun _ _ _ _ => Table.countUsage_of_error⟩

def failed? (x : TableM α) (t : Table) : Option Table :=
  match x t with
  | .ok _ _ => none
  | .error _ t' => some t'

theorem exists_failure (x : TableM α) (t : Table) (p : Table → Prop)
    (h : ∃ t' ∈ failed? x t, p t') : ∃ e t', x t = .error e t' ∧ p t' := by
  obtain ⟨t', ht', hp⟩ := h
  unfold failed? at ht'
  split at ht'
  · simp at ht'
  · obtain rfl := Option.some.inj ht'
    exact ⟨_, _, ‹_›, hp⟩

def outcome? {σ α : Type} (x : EStateM Error σ α) (s : σ) : Option (α × σ) :=
  match x s with
  | .ok a s' => some (a, s')
  | .error _ _ => none

theorem ok_of_outcome? {σ α : Type} {x : EStateM Error σ α} {s s' : σ} {a : α}
    (h : (a, s') ∈ outcome? x s) : x s = .ok a s' := by
  unfold outcome? at h
  split at h
  · cases h
    exact ‹_›
  · cases h

theorem exists_outcome {σ α : Type} (x : EStateM Error σ α) (s : σ) (p : α → σ → Prop)
    (h : ∃ r ∈ outcome? x s, p r.1 r.2) : ∃ a s', x s = .ok a s' ∧ p a s' := by
  obtain ⟨⟨a, s'⟩, hr, hp⟩ := h
  exact ⟨a, s', ok_of_outcome? hr, hp⟩

def danglingTable : Table := Table.performAll {} [
  .push "",
  .declare .anywhere "X" .var none {},
  .declare .anywhere "G" .routine none { aliasOf := some "H" },
  .declare .anywhere "F" .routine none { params := some [⟨0⟩], uses := some [⟨1⟩] }]

theorem table_after_failure_dangling :
    (∃ e t', Table.pop {} = .error e t' ∧ t' = {}) ∧
    (∃ e t', Table.declare .innermost "X" .var (some 5) { params := some [] } danglingTable =
      .error e t' ∧
          ((∃ id ∈ danglingTable.declared .innermost "X",
            (danglingTable.symbol id).cls = .var ∧
          ({ params := some [] } : Fields).misfits .var ∧
          t' = danglingTable.modifySymbol id (·.declareAgain (some 5) { params := some [] })) ∨
        (∀ id ∈ danglingTable.declared .innermost "X", (danglingTable.symbol id).cls ≠
          .var) ∧ t' = danglingTable)) ∧
    ∃ e t', Table.countUsage "F" none danglingTable = .error e t' ∧
      ((danglingTable.resolve "F" none none = none ∧ t' = danglingTable) ∨
        ∃ id ∈ danglingTable.resolve "F" none none, ∃ ids,
          (∀ i ∈ ids, TransGen danglingTable.Involves id i) ∧
          danglingTable.Dangles (id :: ids) e ∧ t' = danglingTable.useAll (id :: ids)) := by
  obtain ⟨e₁, t₁, h₁, -⟩ :=
    exists_failure Table.pop {} (fun _ => True) (by decide +kernel)
  obtain ⟨e₂, t₂, h₂, -⟩ :=
    exists_failure (Table.declare .innermost "X" .var (some 5) { params := some [] }) danglingTable
    (fun _ => True) (by decide +kernel)
  obtain ⟨e₃, t₃, h₃, -⟩ :=
    exists_failure (Table.countUsage "F" none) danglingTable (fun _ => True) (by decide +kernel)
  exact ⟨⟨e₁, t₁, h₁, (table_after_failure {}).1 e₁ t₁ h₁⟩,
    ⟨e₂, t₂, h₂, (table_after_failure danglingTable).2.1 _ _ _ _ _ e₂ t₂ h₂⟩,
    ⟨e₃, t₃, h₃, (table_after_failure danglingTable).2.2 _ _ e₃ t₃ h₃⟩⟩

/-- Failed operations change tables: a declaration with parameters for a variable gives it its line,
and a use of a routine is counted before one of its dependencies turns out to be an alias of
nothing. -/
theorem failed_operations_change_tables :
    (∃ e t', Table.declare .anywhere "X" .var (some 5) { params := some [] } danglingTable =
      .error e t' ∧ t' ≠ danglingTable) ∧
    ∃ e t', Table.countUsage "F" none danglingTable = .error e t' ∧ t' ≠ danglingTable := by
  have hline : (danglingTable.symbol ⟨0⟩).line = none := by decide +kernel
  have husage : (danglingTable.symbol ⟨2⟩).usage = 0 := by decide +kernel
  obtain ⟨e₁, t₁, h₁, hline₁⟩ :=
    exists_failure (Table.declare .anywhere "X" .var (some 5) { params := some [] })
    danglingTable (fun t => (t.symbol ⟨0⟩).line = some 5) (by decide +kernel)
  obtain ⟨e₂, t₂, h₂, husage₂⟩ :=
    exists_failure (Table.countUsage "F" none) danglingTable
    (fun t => (t.symbol ⟨2⟩).usage = 1) (by decide +kernel)
  refine ⟨⟨e₁, t₁, h₁, ?_⟩, e₂, t₂, h₂, ?_⟩
  · rintro rfl
    simp [hline] at hline₁
  · rintro rfl
    simp [husage] at husage₂

theorem stateAfter_discard (x : EStateM ε σ α) (s : σ) :
    stateAfter (Functor.discard x) s = stateAfter x s := by
  unfold stateAfter
  simp only [Functor.discard, Functor.mapConst, Function.comp_def, EStateM.map]
  cases x s <;> rfl

namespace Table

variable {base : List Scope} {d : Nat} {t t' : Table}

def Operation.isLocal : Operation → Bool
  | .declare .outermost .. => false
  | _ => true

def openAfter : Nat → List Operation → Option Nat
  | d, [] => some d
  | d, .push _ :: ops => openAfter (d + 1) ops
  | 0, .pop :: _ => none
  | d + 1, .pop :: ops => openAfter d ops
  | d, .declare .. :: ops | d, .countUsage .. :: ops => openAfter d ops

structure Above (base : List Scope) (d : Nat) (t : Table) : Prop where
  suffix : base <:+ t.scopes
  length : t.scopes.length = base.length + d

theorem Above.push (h : Above base d t) (name : String) : Above base (d + 1) (t.push name) where
  suffix := h.suffix.trans (List.suffix_cons _ _)
  length := by simp [Table.push, h.length, Nat.add_assoc]

theorem Above.suffix_tail (h : Above base (d + 1) t) : base <:+ t.scopes.tail := by
  obtain ⟨own, hown⟩ := h.suffix
  have hlength := h.length
  cases own with
  | nil => simp [← hown] at hlength
  | cons scope own =>
    rw [← hown]
    exact List.suffix_append own base

theorem Above.pop (h : Above base (d + 1) t) : Above base d (stateAfter Table.pop t) := by
  have hsuffix := h.suffix_tail
  have hlength := h.length
  cases hscopes : t.scopes with
  | nil => simp [hscopes] at hlength
  | cons scope scopes =>
    have hafter : (stateAfter Table.pop t).scopes = scopes := by
      have hrun : stateAfter Table.pop t = scope.names.ids.foldl Table.close { t with scopes } := by
        obtain ⟨symbols, _, vars, routines⟩ := t
        subst hscopes
        rfl
      rw [hrun, (symbols_foldl_close _ _).2]
    rw [hscopes] at hsuffix hlength
    rw [List.length_cons] at hlength
    exact ⟨hafter ▸ hsuffix, by rw [hafter]; omega⟩

def SameOutside (t t' : Table) : Prop :=
  t'.scopes.tail = t.scopes.tail ∧ t'.scopes.length = t.scopes.length

instance : IsPreorder Table SameOutside where
  refl _ := ⟨rfl, rfl⟩
  trans _ _ _ h h' := ⟨h'.1.trans h.1, h'.2.trans h.2⟩

theorem Above.sameOutside (h : Above base (d + 1) t) (hsame : SameOutside t t') :
    Above base (d + 1) t' where
  suffix := (hsame.1 ▸ h.suffix_tail).trans (List.tail_suffix _)
  length := hsame.2.trans h.length

theorem advances_declare_sameOutside {reach : Reach} (hreach : reach ≠ .outermost) (name : String)
    (cls : SymbolClass) (line : Option Nat) (f : Fields) :
    Advances SameOutside (Table.declare reach name cls line f) t := by
  unfold Advances stateAfter
  cases hd : Table.declare reach name cls line f t with
  | error e t' =>
    rcases declare_of_error hd with ⟨id, -, -, -, rfl⟩ | ⟨-, rfl⟩
    · exact ⟨rfl, rfl⟩
    · exact refl_of SameOutside t'
  | ok id t' =>
    rcases declare_eq_ok hd with ⟨-, -, rfl⟩ | ⟨-, -, -, kind, -, rfl⟩
    · exact ⟨rfl, rfl⟩
    · have hframe : t.frame reach = 0 := by cases reach <;> simp_all [Table.frame]
      rw [hframe]
      refine ⟨?_, List.length_modify ..⟩
      cases hscopes : t.scopes <;> simp [insertAt, hscopes]

theorem above_performAll {ops : List Operation} {d' : Nat} (hlocal : ∀ op ∈ ops, op.isLocal)
    (hd : openAfter d ops = some d') (h : Above base (d + 1) t) :
    Above base (d' + 1) (t.performAll ops) := by
  induction ops generalizing t d with
  | nil => exact Option.some.inj hd ▸ h
  | cons op ops ih =>
    rw [List.forall_mem_cons] at hlocal
    cases op with
    | push name => exact ih hlocal.2 hd (h.push name)
    | pop =>
      cases d with
      | zero => simp [openAfter] at hd
      | succ d =>
        have hpop : stateAfter (Operation.perform .pop) t = stateAfter Table.pop t :=
          stateAfter_discard Table.pop t
        exact ih hlocal.2 hd (show Above base (d + 1) (stateAfter _ t) from hpop ▸ h.pop)
    | declare reach name cls line f =>
      have hreach : reach ≠ .outermost := by
        rintro rfl
        simp [Operation.isLocal] at hlocal
      exact ih hlocal.2 hd
        (h.sameOutside (advances_declare_sameOutside hreach name cls line f).discard)
    | countUsage name cls =>
      have huse (t : Table) (id : SymbolId) :
          SameOutside t (t.modifySymbol id Symbol.use) := ⟨rfl, rfl⟩
      exact ih hlocal.2 hd (h.sameOutside (advances_countUsage huse name cls).discard)

theorem scopes_performAll {ops : List Operation} (hlocal : ∀ op ∈ ops, op.isLocal)
    (hnested : openAfter 0 ops = some 0) (t : Table) (name : String) :
    (t.performAll (.push name :: ops ++ [.pop])).scopes = t.scopes := by
  have hpushed : Above t.scopes 1 (t.push name) := Above.push ⟨List.suffix_rfl, rfl⟩ name
  have hpopped := (above_performAll hlocal hnested hpushed).pop
  have hperform : t.performAll (.push name :: ops ++ [.pop]) =
      stateAfter Table.pop ((t.push name).performAll ops) := by
    rw [performAll, List.foldl_append]
    exact stateAfter_discard Table.pop _
  rw [hperform]
  exact (hpopped.suffix.eq_of_length hpopped.length.symm).symm

theorem resolve_of_scopes (h : t'.scopes = t.scopes) (x : String) (scope : Option String) :
    t'.resolve x scope none = t.resolve x scope none := by
  simp only [Table.resolve, h, Option.all_none]
  generalize List.findSome? _ t.scopes = found
  cases found <;> cases scope <;> rfl

end Table

/-- Scopes nest. Whatever is done between the opening of a scope and its end, short of declaring
something outermost, any name denotes the same before and after. -/
theorem resolve_after_scope (t : Table) (name : String) {ops : List Table.Operation}
    (hlocal : ∀ op ∈ ops, op.isLocal) (hnested : Table.openAfter 0 ops = some 0) (x : String)
    (scope : Option String) : (t.performAll (.push name :: ops ++ [.pop])).resolve x scope none =
    t.resolve x scope none :=
  Table.resolve_of_scopes (Table.scopes_performAll hlocal hnested t name) x scope

def innerOperations : List Table.Operation := [
  .declare .innermost "x" .routine (some 2) {},
  .declare .anywhere "Y" .routine (some 2) {},
  .push "G",
  .declare .anywhere "X" .var (some 3) {},
  .declare .innermost "x" .var (some 3) {},
  .countUsage "Z" none,
  .pop,
  .declare .anywhere "Z" .var (some 4) { value := some (.int 1) },
  .countUsage "z" (some .var)]

theorem resolve_after_scope_inner :
    (∀ op ∈ innerOperations, op.isLocal) ∧ Table.openAfter 0 innerOperations = some 0 ∧
      declaredTable.resolve "X" none none = some ⟨0⟩ ∧
      declaredTable.resolve "Z" none none = none ∧
      ∀ x,
        (declaredTable.performAll (.push "F" :: innerOperations ++ [.pop])).resolve x none none =
        declaredTable.resolve x none none := by
  have hlocal :
      ∀ op ∈ innerOperations, op.isLocal := by simp [innerOperations, Table.Operation.isLocal]
  exact ⟨hlocal, rfl, by decide +kernel, by decide +kernel,
    fun x => resolve_after_scope declaredTable "F" hlocal rfl x none⟩

end TurtleCompiler
