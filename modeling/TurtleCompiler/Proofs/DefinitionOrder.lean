import TurtleCompiler.Proofs.LineNumbers
import TurtleCompiler.Proofs.TopCalls

/-!
Calls before and after a definition. Calls that come first leave a routine of which nothing is known
but its name, and the definition completes it; either way the same symbols are used in the end.
-/

namespace TurtleCompiler

namespace Table

variable {t : Table} {name : String}

theorem declare_placeholder (hpaths : t.AtTop) (hnone : t.resolve name none none = none)
    (line : Option Nat) : declare .anywhere name .routine line {} (t.placeholder name) =
      declare .anywhere name .routine line {} t := by
  have hnew := declare_outer hpaths (by simp : Reach.anywhere ≠ .innermost) hnone
  have hresolve : (t.placeholder name).resolve name none none = some ⟨t.symbols.size⟩ :=
    resolve_none_declare (by simp) (hnew none)
  have hsymbol : (t.placeholder name).symbol ⟨t.symbols.size⟩ =
      ⟨name, none, 0, "", qualify "" name, .routine {}⟩ := by
    simp [placeholder, symbol_insertAt]
  rw [declare_known (by simp) hresolve (by rw [hsymbol]; rfl), hnew, hsymbol]
  have hsymbols :
      (t.symbols.push ⟨name, none, 0, "", qualify "" name, .routine {}⟩).modify t.symbols.size
      (fun _ =>
        ((⟨name, none, 0, "", qualify "" name, .routine {}⟩ : Symbol).merge line {}).2) =
        t.symbols.push ⟨name, line, 0, "", qualify "" name, .routine {}⟩ := by
    apply Array.ext_getElem?
    intro i
    rw [Array.getElem?_modify]
    split
    · subst_vars
      cases line <;> simp [Symbol.merge, Symbol.declareAgain, Routine.apply, Flags.union]
    · rename_i hi
      simp [Array.getElem?_push, Ne.symm hi]
  simp only [placeholder, insertAt, modifySymbol, hsymbols]

end Table

namespace Lowering

open Table (Twin Surplus)

variable {s s' : Lowering} {name : String} {line : Nat} {params : List String} {ids : List SymbolId}
  {id : SymbolId} {ρ : SymbolId → Nat → Nat → Prop}

abbrev anyUses (_ : SymbolId) (_ _ : Nat) : Prop := True

theorem parallel_openScope (name : String) :
    Parallel (beside (Twin ρ)) Eq (liftM (Workspace.openScope name) : LowerM Unit)
    (liftM (Workspace.openScope name)) :=
  ⟨fun h => .ok rfl ⟨h.1.push name, h.2⟩⟩

theorem parallel_enterBody (name : String) (id : SymbolId) (ids : List SymbolId) :
    Parallel (beside (Twin ρ)) Eq (enterBody name id ids) (enterBody name id ids) :=
  (parallel_declare rfl _ _).bind_eq fun _ =>
    Parallel.bind_eq (.of_modify fun {s s'} (h : (beside (Twin ρ)).state s s') =>
      ⟨h.1, h.2.1, rfl⟩) fun _ => .of_pure rfl

theorem exists_counted (hids : ∀ m ∈ ids, s.table.IsVar m) (p : Prop) [Decidable p]
    (k : LowerM SymbolId) :
    ∃ t, t.Twin anyUses s.table ∧
      (if p then ids.forM (fun id => (Table.countUse id : LowerM Unit)) >>= fun _ => k else k) s = k
      (s.setTable t) := by
  split
  · exact ⟨_, (Table.twin_useAll fun m hm => (hids m hm).1).mono fun _ => trivial,
      bind_of_ok (forM_countUse hids) _⟩
  · exact ⟨s.table, (Twin.refl _).mono fun _ => trivial, rfl⟩

theorem together_openProcedure (h : (beside (Twin anyUses)).state s s')
    (hvars : ∀ {id t ids s₂},
      Table.declare .anywhere name .routine (some line) {} s'.table = .ok id t →
      declareParams line params ((s'.setTable t).openScope name) = .ok ids s₂ →
      ∀ m ∈ ids, s₂.table.IsVar m) :
    Together (beside (Twin anyUses)) Eq (openProcedure name line params s)
    (openProcedure name line params s') := by
  have hparams : Parallel (beside (Twin anyUses)) Eq
      (declareParams line params) (declareParams line params) :=
    .mapM_eq fun _ _ => parallel_declare rfl _ _
  refine Together.bind_run ((parallel_declare rfl _ _).run h) (fun _ => trivial)
    fun {i i' s₁ s₁'} _ hd hi h₁ => ?_
  obtain rfl : i = i' := hi
  obtain ⟨t, hdeclare, rfl⟩ := ofTable_eq_ok.1 hd
  refine Together.bind_run ((parallel_openScope name).run h₁) (fun _ => trivial)
    fun {_ _ s₂ s₂'} _ ho _ h₂ => ?_
  obtain rfl := openScope_eq_ok.1 ho
  refine Together.bind_run (hparams.run h₂) (fun _ => trivial)
    fun {ids ids' s₃ s₃'} _ hp hids h₃ => ?_
  obtain rfl : ids = ids' := hids
  have hids' := hvars hdeclare hp
  have hids : ∀ m ∈ ids, s₃.table.IsVar m := fun m hm =>
    ⟨h₃.1.has.2 (hids' m hm).1, (h₃.1.sameShape.cls m).trans (hids' m hm).2⟩
  obtain ⟨t₄, ht₄, hrun⟩ :=
    exists_counted hids (0 < (s₃.table.symbol i).usage) (enterBody name i ids)
  obtain ⟨t₄', ht₄', hrun'⟩ :=
    exists_counted hids' (0 < (s₃'.table.symbol i).usage) (enterBody name i ids)
  have htwin : t₄.Twin anyUses t₄' :=
    (ht₄.trans h₃.1 fun _ _ => trivial).trans ht₄'.symm fun _ _ => trivial
  have hend : Together (beside (Twin anyUses)) Eq (enterBody name i ids (s₃.setTable t₄))
      (enterBody name i ids (s₃'.setTable t₄')) :=
      (parallel_enterBody name i ids).run ⟨htwin, h₃.2⟩
  rwa [← hrun, ← hrun'] at hend

theorem beginProcedure_of_free (hfree : s.table.IsFree name) :
    beginProcedure name line params s = openProcedure name line params s := by
  unfold beginProcedure
  refine (bind_of_ok (get_eq_ok.2 ⟨rfl, rfl⟩) _).trans ?_
  cases hresolve : s.table.resolve name none none with
  | none => rfl
  | some j =>
    obtain ⟨hline, hlibrary⟩ := hfree j hresolve
    simp only [hline, hlibrary, Option.isSome_none, Bool.or_false, Bool.false_eq_true, if_false]
    rfl

section Placeholder

variable (hpaths : s.table.AtTop) (hnone : s.table.resolve name none none = none)

include hpaths hnone

theorem openProcedure_placeholder :
    openProcedure name line params (s.setTable (s.table.placeholder name)) =
    openProcedure name line params s := by
  have hdeclare : (liftM (Table.declare .anywhere name .routine (some line) {}) : LowerM SymbolId)
      (s.setTable (s.table.placeholder name)) =
        (liftM (Table.declare .anywhere name .routine (some line) {}) : LowerM SymbolId) s := by
    have hnew :=
      Table.declare_outer hpaths (by simp : Reach.anywhere ≠ .innermost) hnone (some line)
    have hsame := (Table.declare_placeholder hpaths hnone (some line)).trans hnew
    exact (ofTable_eq_ok.2 ⟨_, hsame, rfl⟩).trans (ofTable_eq_ok.2 ⟨_, hnew, rfl⟩).symm
  simp only [openProcedure, Bind.bind, EStateM.bind, hdeclare]

theorem beginProcedure_new (hb : beginProcedure name line params s = .ok id s') :
    id = ⟨s.table.symbols.size⟩ := by
  obtain ⟨t₁, _, _, _, _, _, hd, -⟩ := openProcedure_eq_ok (beginProcedure_eq_ok hb).2
  cases hd.symm.trans (Table.declare_outer hpaths (by simp) hnone (some line))
  rfl

theorem together_beginProcedure {sA : Lowering} {ρ : SymbolId → Nat → Nat → Prop}
    (hs : s.Ok []) (hname : IsName name) (hparams : ∀ p ∈ params, IsName p)
    (htwin : sA.table.Twin ρ (s.table.placeholder name)) (hentry : sA.entry = s.entry)
    (hopen : sA.openRoutine = s.openRoutine) :
    Together (beside (Twin anyUses)) Eq (beginProcedure name line params sA)
    (beginProcedure name line params s) := by
  have hfree : s.table.IsFree name := by simp [Table.IsFree, hnone]
  have hfreeA : sA.table.IsFree name := by
    intro j hj
    have hnew := Table.declare_outer hpaths (by simp : Reach.anywhere ≠ .innermost) hnone none
    rw [htwin.sameShape.resolve rfl,
      show (s.table.placeholder name).resolve name none none = some ⟨s.table.symbols.size⟩
      from Table.resolve_none_declare (by simp) hnew] at hj
    obtain rfl := Option.some.inj hj
    rw [(htwin.symbol _).line, htwin.sameShape.flags]
    simp [Table.placeholder, Table.symbol_insertAt, Symbol.flags, Symbol.routine?]
  rw [beginProcedure_of_free hfreeA, beginProcedure_of_free hfree,
    ← openProcedure_placeholder hpaths hnone]
  refine together_openProcedure ⟨htwin.mono fun _ => trivial, hentry, hopen⟩
    fun {id t ids s₂} hd hp => ?_
  have hd := (Table.declare_placeholder hpaths hnone (some line)).symm.trans hd
  obtain ⟨hadds, -⟩ := hs.declare_procedure hpaths hname hfree hd
  obtain ⟨hok, -⟩ := hs.open_declared hpaths hname hfree hadds
  exact ((declares_of_mapM hp).adds hok.live fun p hp => (hparams p hp).dotless).2.1

end Placeholder

theorem twin_begun {n : Nat} {L idsA : List SymbolId} {t tA : Table} {b bA : Lowering}
    (hA : Begun n name params tA bA id idsA) (hb : Begun n name params t b id ids)
    (htwin : tA.Twin (Surplus L) (t.placeholder name)) (hbegun : bA.table.Twin anyUses b.table)
    (hid : id = ⟨t.symbols.size⟩) (hused : id ∈ L) :
    bA.table.Twin (Surplus (ids ++ L)) b.table := by
  have hroutine : (b.table.symbol id).routine? = some { params := ids } :=
    (hb.gives.routine id).trans (if_pos rfl)
  have hroutineA : (bA.table.symbol id).routine? = some { params := idsA } :=
    (hA.gives.routine id).trans (if_pos rfl)
  obtain rfl : idsA = ids := by
    simpa [hroutine, hroutineA] using hbegun.sameShape.read (g := (·.params)) (fun _ => rfl) id
  have hplaceholder (j : SymbolId) :
      ((t.placeholder name).symbol j).usage = (t.symbol j).usage := by
    rw [Table.placeholder, Table.symbol_insertAt]
    split
    · rw [Table.usage_of_not_has (by simp [Table.Has, *])]
    · rfl
  have husage (j : SymbolId) : (tA.symbol j).usage = (t.symbol j).usage + L.count j :=
    hplaceholder j ▸ htwin.usage j
  have hzero : (t.symbol id).usage = 0 := Table.usage_of_not_has (by simp [Table.Has, hid])
  have hpos : 0 < (tA.symbol id).usage := by
    rw [husage, hzero, Nat.zero_add]
    exact List.count_pos_iff.2 hused
  refine { hbegun with usage := fun j => ?_ }
  rw [hA.usage, hb.usage, if_pos hpos, hzero, if_neg (Nat.lt_irrefl 0), husage, Surplus,
    List.count_append]
  omega

namespace Done

variable {n : Nat} {header : Source.Header} {body : List Source.Stmt} {t t' : Table}
  {b e : Lowering} {rnd : SymbolId} {R : Routine}

section

variable (h : Done n header body t id ids b e t')

include h

theorem dependencies : t'.dependencies id = ids := by
  obtain ⟨d, hgives⟩ := h.ended
  rw [Table.dependencies_eq ((hgives.routine id).trans (if_pos rfl)), List.append_nil]

theorem alias? : t'.alias? id = none := by
  obtain ⟨d, hgives⟩ := h.ended
  rw [Table.alias?, hgives.routine, if_pos rfl]
  rfl

theorem routine? {j : SymbolId} (hj : t.Has j) (hne : j ≠ id) :
    (t'.symbol j).routine? = (t.symbol j).routine? := by
  obtain ⟨d, hgives⟩ := h.ended
  obtain ⟨_, he⟩ := h.heeds.extends h.begun.ok.live h.names
  rw [hgives.routine, if_neg hne, he.routine (h.begun.gives.has hj),
    h.begun.gives.routine, if_neg hne]

theorem canCall (hcan : t.CanCall header.name rnd R) (hrnd : rnd.index < n) (hlive : t'.Live)
    (hpaths : t'.AtTop) : t'.CanCall header.name rnd R := by
  have hne : rnd ≠ id := by
    rintro rfl
    exact Nat.not_le.2 hrnd h.begun.source
  refine ⟨hlive, hpaths, h.leads.isRoutine ?_,
    (h.routine? hcan.random.1 hne).trans hcan.routine, hcan.plain, .inr ⟨id, ?_, h.alias?⟩⟩
  · exact h.begun.passes.leads.isRoutine hcan.random
  · exact h.leads.isRoutine h.begun.opened.routine

end

end Done

end Lowering

namespace Source

open Table (Twin Surplus)

variable {s s' sA : Lowering} {n : Nat} {known knownA : List String} {L : List SymbolId} {i : Item}
  {calls : List Item} {header : Header} {body : List Stmt} {site : Site} {f : String}
  {rnd : SymbolId} {R : Routine}

section Header

variable (hpaths : s.table.AtTop) (hnone : s.table.resolve header.name none none = none)

include hpaths hnone

theorem Header.lower_new {id : SymbolId} (hrun : header.lower s = .ok id s') :
    id = ⟨s.table.symbols.size⟩ := by
  simp only [Header.lower, bind_eq_ok] at hrun
  obtain ⟨_, s₁, henter, hbegin⟩ := hrun
  rw [← Lowering.table_enter henter] at hpaths hnone ⊢
  exact Lowering.beginProcedure_new hpaths hnone hbegin

theorem Header.together_lower (hs : s.Ok []) (hname : IsName header.name)
    (hparams : ∀ p ∈ header.params, IsName p)
    (htwin : sA.table.Twin (Surplus L) (s.table.placeholder header.name))
    (hentry : sA.entry = s.entry) (hopen : sA.openRoutine = s.openRoutine) :
    Together (Lowering.beside (Twin Lowering.anyUses)) Eq (header.lower sA) (header.lower s) := by
  obtain ⟨s₁, henter⟩ : ∃ s₁, Lowering.enter header.site.notes s =
    .ok ⟨⟩ s₁ := ⟨_, rfl⟩
  obtain ⟨sA₁, henterA⟩ : ∃ s₁, Lowering.enter header.site.notes sA =
    .ok ⟨⟩ s₁ := ⟨_, rfl⟩
  have hadds := Lowering.adds_enter henter
  have haddsA := Lowering.adds_enter henterA
  rw [← Lowering.table_enter henter] at hpaths hnone htwin
  rw [← Lowering.table_enter henterA] at htwin
  rw [Header.lower, bind_of_ok henter, bind_of_ok henterA]
  exact Lowering.together_beginProcedure hpaths hnone (hs.adds hadds) hname hparams htwin
    ((haddsA.entry.trans hentry).trans hadds.entry.symm)
    ((haddsA.openRoutine.trans hopen).trans hadds.openRoutine.symm)

end Header

structure Completed (f : String) (g : SymbolId) (L : List SymbolId) (t t' : Table) : Prop where
  routine : t'.IsRoutine f g
  twin : t.Twin (Surplus (t'.dependencies g ++ L)) t'

theorem Item.together_definition (hA : sA.Between n knownA) (h : s.Between n known)
    (hnames : ∀ x ∈ (Item.definition header body site).names, IsName x)
    (hnone : s.table.resolve header.name none none = none)
    (htwin : sA.table.Twin (Surplus L) (s.table.placeholder header.name))
    (hused : ⟨s.table.symbols.size⟩ ∈ L) (hentry : sA.entry = s.entry)
    (hopen : sA.openRoutine = s.openRoutine) :
    Together (Lowering.beside (Completed header.name ⟨s.table.symbols.size⟩ L))
      (fun o o' => o = none ∧ o' = none) ((Item.definition header body site).lower sA)
      ((Item.definition header body site).lower s) := by
  simp only [Item.names, List.forall_mem_cons, List.forall_mem_append] at hnames
  have hheader := Header.together_lower h.paths hnone h.ok hnames.1 hnames.2.1 htwin hentry hopen
  refine hheader.bind_run (fun _ => trivial) fun {id id' bA b} hbeginA hbegin hid hb => ?_
  obtain rfl : id = id' := hid
  have hnew := Header.lower_new h.paths hnone hbegin
  obtain ⟨idsA, hbegunA⟩ := hA.begun_header hnames.1 hnames.2.1 hbeginA
  obtain ⟨ids, hbegun⟩ := h.begun_header hnames.1 hnames.2.1 hbegin
  have htwin₂ := Lowering.twin_begun hbegunA hbegun htwin hb.1 hnew (hnew ▸ hused)
  -- from here on both do the same to twins
  refine Together.bind_run
    ((lockstep_lowerAll (Table.keepsPace_surplus _) body).run ⟨htwin₂, hb.2⟩)
    (fun _ => trivial) fun {nodesA nodes _ _} _ hbody _ h₂ => ?_
  refine Together.bind_run ((Lowering.parallel_enter _).run h₂) (fun _ => trivial)
    fun {_ _ _ _} _ henter' _ h₃ => ?_
  refine Together.bind_run ((Lowering.parallel_endProcedure id nodesA nodes).run h₃)
    (fun _ => trivial) fun {_ _ _ _} _ hend _ h₄ => .ok ⟨rfl, rfl⟩ ⟨?_, h₄.2⟩
  have hdone : Lowering.Done n header body s.table id ids b _ _ :=
    hbegun.done hnames.2.2 hbody henter' hend
  refine ⟨hnew ▸ hdone.leads.isRoutine hbegun.opened.routine, ?_⟩
  rw [← hnew, hdone.dependencies]
  exact h₄.1

theorem Item.entry_lower (hi : i.isComplete) (hnames : ∀ x ∈ i.names, IsName x)
    (h : s.Between n known) {fault : Option Error} (hrun : i.lower s = .ok fault s') :
    s'.entry = s.entry ∧ (s.openRoutine = none → s'.openRoutine = none) := by
  obtain ⟨hbecomes, -⟩ := Item.becomes hi hrun
  cases i with
  | statement st =>
    obtain ⟨hn⟩ := hbecomes
    have hadds := hn.adds hnames h.ok.live
    exact ⟨hadds.entry, hadds.openRoutine.trans⟩
  | definition header body site =>
    obtain ⟨b, e, id, ids, nodes, r, hstages⟩ := Item.stages hnames h.ok h.paths hbecomes
    obtain ⟨-, hentry, -, hopen⟩ := hstages.rest
    exact ⟨(hentry.trans hstages.adds.entry).trans hstages.entry, fun _ => hopen⟩
  | broken => cases hbecomes

structure Called (n : Nat) (known : List String) (calls : List Item) (s s' : Lowering) : Prop where
  between : s'.Between n known
  heeds : Table.HeedsAll (calls.flatMap Item.mentions) s.table s'.table
  entry : s'.entry = s.entry
  openRoutine : s.openRoutine = none → s'.openRoutine = none

section

variable (hcalls : ∀ i ∈ calls, i.IsCallOf f)
  (hnames : ∀ i ∈ calls, ∀ x ∈ i.names, IsName x)

include hcalls hnames

theorem called_of_lower (h : s.Between n known) {faults : List (Option Error)}
    (hrun : calls.mapM Item.lower s = .ok faults s') :
    Called n (known ++ calls.flatMap Item.globals) calls s s' := by
  induction calls generalizing s known faults with
  | nil =>
    simp only [List.mapM_nil, pure_eq_ok] at hrun
    obtain ⟨-, rfl⟩ := hrun
    exact ⟨by simpa using h, rfl, rfl, fun h => h⟩
  | cons i calls ih =>
    obtain ⟨fault, s₁, hi, faults, hcalls', rfl⟩ := mapM_cons_eq_ok.1 hrun
    simp only [List.forall_mem_cons] at hcalls hnames
    obtain ⟨hname, hargs⟩ := hcalls.1
    have h₁ := Item.between_lower rfl hnames.1 h hi
    obtain ⟨hentry, hopen⟩ := Item.entry_lower rfl hnames.1 h hi
    have hrest := ih hcalls.2 hnames.2 h₁ hcalls'
    rw [List.append_assoc, ← List.flatMap_cons] at hrest
    exact ⟨hrest.between, .append (Item.heeds_statement hi) hrest.heeds, hrest.entry.trans hentry,
      fun h => hrest.openRoutine (hopen h)⟩

theorem isName_mentions : ∀ m ∈ calls.flatMap Item.mentions, ∀ x ∈ m.name?, IsName x := by
  refine List.forall_mem_flatMap.2 fun i hi => ?_
  have hnames := hnames i hi
  obtain ⟨-, -⟩ := hcalls i hi
  exact Stmt.isName_mentions hnames

end

theorem mem_touched {ms : List Mention} (hcall : ∃ name, Mention.call name ∈ ms)
    (ofRandom ids : List SymbolId) (g j : SymbolId) :
      j ∈ ids ++ ms.flatMap (Mention.touched ofRandom [g]) ↔
      j ∈ ms.flatMap (Mention.touched ofRandom (g :: ids)) := by
  simp only [List.mem_append, List.mem_flatMap]
  constructor
  · rintro (hj | ⟨m, hm, hj⟩)
    · obtain ⟨name, hname⟩ := hcall
      exact ⟨_, hname, List.mem_cons_of_mem g hj⟩
    · refine ⟨m, hm, ?_⟩
      cases m with
      | call name => exact List.mem_cons.2 (.inl (List.mem_singleton.1 hj))
      | read name | write name | primitive name => exact hj
  · rintro ⟨m, hm, hj⟩
    cases m with
    | call name =>
      exact (List.mem_cons.1 hj).symm.imp_right fun hj => ⟨_, hm, List.mem_singleton.2 hj⟩
    | read name | write name | primitive name => exact .inr ⟨_, hm, hj⟩

theorem bothUsed_of_surplus {tA tB t : Table} {L' : List SymbolId} (hA : tA.Twin (Surplus L) t)
    (hB : tB.Twin (Surplus L') t) (hmem : ∀ j, j ∈ L ↔ j ∈ L') : tA.Twin bothUsed tB := by
  refine hA.trans hB.symm fun {id u u' u''} hu hu'' => ?_
  have hcount := hmem id
  rw [← List.count_pos_iff, ← List.count_pos_iff] at hcount
  rw [Surplus] at hu hu''
  rw [bothUsed]
  omega

theorem isPlain_mentions (hcalls : ∀ i ∈ calls, i.IsCallOf f) :
    ∀ m ∈ calls.flatMap Item.mentions, m.IsPlain f :=
  List.forall_mem_flatMap.2 fun i hi => (hcalls i hi).isPlain

theorem exists_call (hne : calls ≠ []) (hcalls : ∀ i ∈ calls, i.IsCallOf f) :
    ∃ name, Mention.call name ∈ calls.flatMap Item.mentions := by
  obtain ⟨i, hi⟩ := List.exists_mem_of_ne_nil calls hne
  exact (hcalls i hi).exists_call.imp fun name hname => List.mem_flatMap.2 ⟨i, hi, hname⟩

section Order

variable (h : s.Between n known) (hcan : s.table.CanCall header.name rnd R)
  (hopen : s.openRoutine = none) (hcalls : ∀ i ∈ calls, i.IsCallOf header.name)
  (hnames : ∀ i ∈ calls, ∀ x ∈ i.names, IsName x)
  (hnames' : ∀ x ∈ (Item.definition header body site).names, IsName x) {o : Option Error}
  {sD : Lowering}

include h hcan hnames'

theorem Item.canCall_definition (hrnd : rnd.index < n)
    (hD : (Item.definition header body site).lower s = .ok o sD) :
    sD.Between n (known ++ []) ∧ sD.table.CanCall header.name rnd R := by
  have hbetween := Item.between_lower rfl hnames' h hD
  obtain ⟨id, ids, b, e, hdone⟩ := h.done hnames' hD
  exact ⟨hbetween, hdone.canCall hcan hrnd hbetween.ok.live hbetween.paths⟩

include hopen hcalls hnames

theorem together_calls (hrnd : rnd.index < n)
    (hD : (Item.definition header body site).lower s = .ok o sD) :
    Together (Lowering.canCall header.name rnd R) faultless (calls.mapM Item.lower s)
    (calls.mapM Item.lower sD) := by
  obtain ⟨hentry, hopen'⟩ := Item.entry_lower rfl hnames' h hD
  exact (parallel_lower_calls hcalls hnames).run
    ⟨⟨hcan, (Item.canCall_definition h hcan hnames' hrnd hD).2⟩, hentry.symm,
      hopen.trans (hopen' hopen).symm⟩

theorem together_definition (hnone : s.table.resolve header.name none none = none)
    (hne : calls ≠ []) {fs : List (Option Error)} (hA : calls.mapM Item.lower s = .ok fs sA) :
    Together
        (Lowering.beside
          (Completed header.name ⟨s.table.symbols.size⟩ ((calls.flatMap Item.mentions).flatMap
        (Mention.touched (rnd :: s.table.dependencies rnd) [⟨s.table.symbols.size⟩]))))
      (fun o o' => o = none ∧ o' = none) ((Item.definition header body site).lower sA)
      ((Item.definition header body site).lower s) := by
  have hcalled := called_of_lower hcalls hnames h hA
  have hcall := exists_call hne hcalls
  have htwin :=
    hcan.twin_placeholder hnone (isPlain_mentions hcalls) (isName_mentions hcalls hnames)
    hcall hcalled.heeds
  obtain ⟨name, hname⟩ := hcall
  exact Item.together_definition hcalled.between h hnames' hnone htwin
    (List.mem_flatMap.2 ⟨_, hname, List.mem_singleton.2 rfl⟩) hcalled.entry
    ((hcalled.openRoutine hopen).trans hopen.symm)

theorem together_order (hrnd : rnd.index < n) (hnone : s.table.resolve header.name none none = none)
    (hne : calls ≠ []) :
    Together (Lowering.beside (Twin bothUsed)) faultless
      ((calls ++ [Item.definition header body site]).mapM Item.lower s)
      ((Item.definition header body site :: calls).mapM Item.lower s) := by
  simp only [List.mapM_append, List.mapM_cons, List.mapM_nil, bind_assoc, pure_bind]
  refine .swap (together_calls h hcan hopen hcalls hnames hnames' hrnd)
    (together_definition h hcan hopen hcalls hnames hnames' hnone hne) (fun _ _ => trivial)
    fun {fs o o' fs' sA sAD sD sB} _ _ hD hB hfs _ ho hcompleted => ?_
  obtain ⟨hbetween, hcanD⟩ := Item.canCall_definition h hcan hnames' hrnd hD
  have hcalled := called_of_lower hcalls hnames hbetween hB
  obtain ⟨⟨hroutine, htwin⟩, hentry, hopenD⟩ := hcompleted
  have hrandom : sD.table.dependencies rnd = s.table.dependencies rnd := by
    rw [Table.dependencies_eq hcanD.routine, Table.dependencies_eq hcan.routine]
  have htwinB := hcanD.twin_of_heedsAll hroutine (isPlain_mentions hcalls) hcalled.heeds
  rw [hrandom] at htwinB
  refine .ok ⟨?_, ?_⟩ ⟨bothUsed_of_surplus htwin htwinB fun j =>
    mem_touched (exists_call hne hcalls) _ _ _ j, ?_, ?_⟩
  · exact List.forall_mem_append.2 ⟨hfs.1, List.forall_mem_singleton.2 ho.1⟩
  · exact List.forall_mem_cons.2 ⟨ho.2, hfs.2⟩
  · exact hentry.trans hcalled.entry.symm
  · have hnone := (Item.entry_lower rfl hnames' h hD).2 hopen
    exact (hopenD.trans hnone).trans (hcalled.openRoutine hnone).symm

end Order

section Known

variable {j : SymbolId} (hj : s.table.Has j) (hlibrary : j.index < n)
  (hscope : (s.table.symbol j).scope = "")
  (hname : (s.table.symbol j).name.toUpper = header.name.toUpper)

include hj hlibrary hscope hname

theorem Item.definition_ne_ok (h : s.Between n known)
    (hnames : ∀ x ∈ (Item.definition header body site).names, IsName x)
    (o : Option Error) (s' : Lowering) :
    (Item.definition header body site).lower s ≠ .ok o s' := by
  intro hrun
  obtain ⟨id, ids, b, e, hdone⟩ := h.done hnames hrun
  have hlive := hdone.begun.ok.live
  have hgrows := hdone.begun.gives.grows hj
  have hroutine := hdone.begun.opened.routine
  obtain ⟨r, hr⟩ := Symbol.exists_routine hroutine.2.1
  have hfull : (b.table.symbol j).fullName.toUpper = (b.table.symbol id).fullName.toUpper := by
    rw [(hlive.sound.named (hdone.begun.gives.has hj)).1, (hlive.sound.named hroutine.1).1,
      hlive.top r hr, hgrows.scope, hscope, hgrows.name]
    exact toUpper_qualify (hname.trans hroutine.2.2.symm) _
  obtain rfl := hlive.sound.unique (hdone.begun.gives.has hj) hroutine.1 hfull
  exact Nat.not_le.2 hlibrary hdone.begun.source

theorem together_known {Q : Table → Table → Prop}
    {q : List (Option Error) → List (Option Error) → Prop}
    (h : s.Between n known) (hcalls : ∀ i ∈ calls, i.IsCallOf header.name)
    (hnames : ∀ i ∈ calls, ∀ x ∈ i.names, IsName x)
    (hnames' : ∀ x ∈ (Item.definition header body site).names, IsName x) :
    Together (Lowering.beside Q) q ((calls ++ [Item.definition header body site]).mapM Item.lower s)
      ((Item.definition header body site :: calls).mapM Item.lower s) := by
  cases hA : (calls ++ [Item.definition header body site]).mapM Item.lower s with
  | ok fs sA =>
    simp only [List.mapM_append, List.mapM_cons, List.mapM_nil, bind_eq_ok, pure_eq_ok] at hA
    obtain ⟨_, s₁, hcalls', _, _, ⟨o, s₂, hD, -⟩, -⟩ := hA
    have hcalled := called_of_lower hcalls hnames h hcalls'
    have hleads := hcalled.heeds.leads h.ok.live (isName_mentions hcalls hnames)
    refine absurd hD
      (Item.definition_ne_ok (hleads.has hj) hlibrary ?_ ?_ hcalled.between hnames' o s₂)
    · rw [(hleads.grows hj).scope, hscope]
    · rw [(hleads.grows hj).name, hname]
  | error e sA =>
    cases hB : (Item.definition header body site :: calls).mapM Item.lower s with
    | ok fs sB =>
      simp only [List.mapM_cons, bind_eq_ok] at hB
      obtain ⟨o, s₂, hD, -⟩ := hB
      exact absurd hD (Item.definition_ne_ok hj hlibrary hscope hname h hnames' o s₂)
    | error e' sB => exact .error trivial

end Known

theorem Program.together_lower {p p' : Program} {Q : Table → Table → Prop}
    (hne : p.items ≠ []) (hne' : p'.items ≠ [])
    (h : Together (Lowering.beside Q) faultless (p.items.mapM Item.lower s)
      (p'.items.mapM Item.lower s)) :
    Together (Lowering.beside Q) Eq (p.lower s) (p'.lower s) := by
  refine h.bind fun {fs fs'} hfs => ?_
  have hfirst : fs.findSome? id = none ∧ fs'.findSome? id = none := by simpa using hfs
  refine Parallel.bind_eq (.of_modify fun h => h) fun _ => ?_
  rw [if_neg (by simpa using hne), if_neg (by simpa using hne'), hfirst.1, hfirst.2]
  exact .of_pure rfl

end Source

namespace Lowering

open Source

variable {header : Header} {body : List Stmt} {site : Site} {calls : List Item} {entry : SymbolId}
  {w : Workspace}

theorem exists_random :
    ∃ i < start.table.symbols.size, (start.table.symbol ⟨i⟩).name = "RANDOM" ∧
    ∃ r ∈ (start.table.symbol ⟨i⟩).routine?, r.aliasOf = none := by decide +kernel

theorem together_setup (h : setup {} = .ok entry w) (hne : calls ≠ [])
    (hcalls : ∀ i ∈ calls, i.IsCallOf header.name)
    (hnames : ∀ i ∈ calls, ∀ x ∈ i.names, IsName x)
    (hnames' : ∀ x ∈ (Item.definition header body site).names, IsName x) :
    Together (beside (Table.Twin bothUsed)) faultless
      ((calls ++ [Item.definition header body site]).mapM Item.lower { toWorkspace := w, entry })
      ((Item.definition header body site :: calls).mapM Item.lower
        { toWorkspace := w, entry }) := by
  have hbetween := between_setup h
  have htable : w.table = start.table := (eq_start h).2
  cases hresolve : w.table.resolve header.name none none with
  | some j =>
    obtain ⟨hhas, hname, hscope⟩ := hbetween.ok.live.sound.resolve_none hresolve
    rw [hbetween.paths, List.mem_singleton] at hscope
    exact together_known hhas (htable ▸ hhas) hscope hname hbetween hcalls hnames hnames'
  | none =>
    obtain ⟨i, hi, hname, R, hR, halias⟩ := exists_random
    rw [← htable] at hi hname hR
    have hcan : w.table.CanCall header.name ⟨i⟩ R :=
      ⟨hbetween.ok.live, hbetween.paths, ⟨hi, Symbol.cls_of_routine? hR, by rw [hname]⟩, hR,
        halias, .inl hresolve⟩
    exact together_order hbetween hcan rfl hcalls hnames hnames' (htable ▸ hi) hresolve hne

theorem together_within {α α' : Type} {q : α → α' → Prop} {Q : Table → Table → Prop}
    {x : LowerM α} {x' : LowerM α'} (h : ∀ {entry w₀}, setup w = .ok entry w₀ →
      Together (beside Q) q (x { toWorkspace := w₀, entry })
      (x' { toWorkspace := w₀, entry })) :
    Together (Workspace.beside Q) q (within x w) (within x' w) := by
  simp only [within, Bind.bind, EStateM.bind]
  cases hsetup : setup w with
  | error e w => exact .error trivial
  | ok entry w₀ =>
    have hrun := h hsetup
    dsimp only
    generalize ({ toWorkspace := w₀, entry } : Lowering) = s at hrun
    cases hx : x s <;> cases hx' : x' s <;> rw [hx, hx'] at hrun <;> cases hrun
    · rename_i ha hs
      exact .ok ha hs.1
    · exact .error trivial

end Lowering

theorem Feed.isSound_lineless {feed : Feed} (h : feed.IsSound) : (feed.view .lineless).IsSound := by
  intro entry hentry
  obtain ⟨t, ht, rfl⟩ := List.mem_map.1 hentry
  simpa [Token.IsSound, Token.view, Source.variableName] using h t ht

open Source

section Compile

variable {feed feed' : Feed} {calls : List Item} {header : Header} {body : List Stmt} {site : Site}

theorem together_compileFeed (hne : calls ≠ []) (hcalls : ∀ i ∈ calls, i.IsCallOf header.name)
    (hitems : (parse feed).items = calls ++ [.definition header body site])
    (hitems' : (parse feed').items = .definition header body site :: calls)
    (hnames : ∀ i ∈ calls ++ [.definition header body site], ∀ x ∈ i.names, IsName x) :
    Together (Workspace.beside (Table.Twin bothUsed)) Listing.Like (compileFeed feed {})
    (compileFeed feed' {}) := by
  have hlower :
      Together (Workspace.beside fun t t' => t.Twin bothUsed t' ∧ t.Sound) Eq (lower feed {})
      (lower feed' {}) := by
    refine Lowering.together_within fun {entry w₀} hsetup => ?_
    have hsplit := List.forall_mem_append.1 hnames
    have horder :=
      Lowering.together_setup hsetup hne hcalls hsplit.1 (List.forall_mem_singleton.1 hsplit.2)
    rw [← hitems, ← hitems'] at horder
    have hprogram := Program.together_lower (by simp [hitems]) (by simp [hitems']) horder
    refine hprogram.bind_run (fun _ => trivial) fun hrun _ _ hstate => ?_
    refine (Lowering.parallel_finish.run hstate).imp (fun _ => trivial) fun hfinish _ hu htables =>
      ⟨hu, ⟨htables.1, ?_⟩, htables.2⟩
    obtain ⟨hok, hpaths⟩ := Lowering.ok_setup hsetup
    exact ((Program.ok_lower hok hpaths (fun _ => hitems ▸ hnames) hrun).1.finish
      hfinish).1.live.sound
  refine hlower.bind_run (fun _ => trivial) fun _ _ _ hstate =>
    together_link hstate.1 fun id hid => ?_
  obtain ⟨entry, hentry, rfl⟩ := List.mem_map.1 hid
  exact (hstate.2.closedEntry hentry).2.1

theorem Report.sameVerdict_of_together {x x' : Work Listing} {P : Pairing Workspace}
    (h : Together P Listing.Like (x {}) (x' {})) :
    SameVerdict Listing.Like (Report.ofWork x).result (Report.ofWork x').result := by
  unfold Report.ofWork
  cases hx : x {} <;> cases hx' : x' {} <;> rw [hx, hx'] at h <;> cases h
  · exact .ok ‹_›
  · exact .error

end Compile

/-- Whether a procedure is defined before or after calls of it makes no difference to the data
section, nor to which blocks there are, nor to whether there is an output at all. -/
theorem compile_in_either_order {source source' : String} {calls : List Item} {header : Header}
    {body : List Stmt} {site : Site} (hne : calls ≠ [])
    (hcalls : ∀ i ∈ calls, i.IsCallOf header.name)
    (h : (parse (.ofText source)).items.map (Item.view .lineless) =
      calls ++ [.definition header body site])
    (h' : (parse (.ofText source')).items.map (Item.view .lineless) =
      .definition header body site :: calls) :
    (∃ l l', compile source = .ok l ∧ compile source' = .ok l' ∧
        l.dataLines = l'.dataLines ∧
        l.blocks.map (·.name.toUpper) = l'.blocks.map (·.name.toUpper)) ∨
      ∃ e e', compile source = .error e ∧ compile source' = .error e' := by
  have hitems : (parse ((Feed.ofText source).view .lineless)).items =
      calls ++ [.definition header body site] := by
    rwa [parse_view]
  have hitems' : (parse ((Feed.ofText source').view .lineless)).items =
      .definition header body site :: calls := by
    rwa [parse_view]
  have hcomplete : ∀ i ∈ calls ++ [.definition header body site], i.isComplete := by
    refine List.forall_mem_append.2 ⟨fun i hi => ?_, List.forall_mem_singleton.2 rfl⟩
    obtain ⟨-, -⟩ := hcalls i hi
    rfl
  have hnames : ∀ i ∈ calls ++ [.definition header body site], ∀ x ∈ i.names, IsName x := by
    rw [← hitems] at hcomplete ⊢
    exact names_items _ (Feed.isSound_lineless (Feed.isSound_scan _ _)) hcomplete
  have hfeeds :=
    Report.sameVerdict_of_together (together_compileFeed hne hcalls hitems hitems' hnames)
  rcases (sameCheck_compile source).ends with ⟨l, hl, hfeed⟩ | ⟨e, _, he, hfeed, -⟩ <;>
    rcases (sameCheck_compile source').ends with ⟨l', hl', hfeed'⟩ | ⟨e', _, he',
      hfeed', -⟩ <;>
    rw [hfeed, hfeed'] at hfeeds <;> cases hfeeds
  · rename_i hlike
    exact .inl ⟨l, l', hl, hl', by rw [Listing.dataLines, Listing.dataLines, hlike.data],
      hlike.blocks⟩
  · exact .inr ⟨e, e', he, he'⟩

theorem map_view_lineless_items {source : String} {tokens : List Token}
    (h : tokenize source = .ok tokens) :
    (parse (.ofText source)).items.map (Item.view .lineless) =
      (parse (.ofTokens ((tokens.map Token.spelling).map fun s => ⟨s.1, s.2, 0⟩) 0)).items := by
  rw [← unplaced_ofText h, parse_view]
  rfl

theorem compile_in_either_order_recursive :
    ∃ (calls : List Item) (header : Header) (body : List Stmt) (site : Site),
    calls ≠ [] ∧ (∀ i ∈ calls, i.IsCallOf header.name) ∧
      (parse (.ofText "F RANDOM 2\nF\nTO F :A\nX = :A F :X\nEND")).items.map (Item.view .lineless) =
        calls ++ [.definition header body site] ∧
      (parse (.ofText "TO F :A X = :A F :X END F RANDOM 2 F")).items.map (Item.view .lineless) =
        .definition header body site :: calls ∧
      ∃ l l', compile "F RANDOM 2\nF\nTO F :A\nX = :A F :X\nEND" = .ok l ∧
        compile "TO F :A X = :A F :X END F RANDOM 2 F" = .ok l' ∧ l.dataLines = l'.dataLines ∧
        l.blocks.map (·.name.toUpper) = l'.blocks.map (·.name.toUpper) := by
  have htokens : tokenize "F RANDOM 2\nF\nTO F :A\nX = :A F :X\nEND" =
      .ok [⟨.identifier, "F", 1⟩, ⟨.randomKey, "RANDOM", 1⟩,
      ⟨.number, "2", 1⟩, ⟨.identifier, "F", 2⟩, ⟨.toKey, "TO", 3⟩,
      ⟨.identifier, "F", 3⟩, ⟨.colonIdentifier, ":A", 3⟩,
      ⟨.identifier, "X", 4⟩, ⟨.assignOp, "=", 4⟩, ⟨.colonIdentifier, ":A", 4⟩,
      ⟨.identifier, "F", 4⟩, ⟨.colonIdentifier, ":X", 4⟩,
      ⟨.endKey, "END", 5⟩] := by decide +kernel
  have htokens' : tokenize "TO F :A X = :A F :X END F RANDOM 2 F" =
      .ok [⟨.toKey, "TO", 1⟩, ⟨.identifier, "F", 1⟩,
      ⟨.colonIdentifier, ":A", 1⟩, ⟨.identifier, "X", 1⟩, ⟨.assignOp, "=", 1⟩,
      ⟨.colonIdentifier, ":A", 1⟩, ⟨.identifier, "F", 1⟩, ⟨.colonIdentifier, ":X", 1⟩,
      ⟨.endKey, "END", 1⟩, ⟨.identifier, "F", 1⟩,
      ⟨.randomKey, "RANDOM", 1⟩, ⟨.number, "2", 1⟩,
      ⟨.identifier, "F", 1⟩] := by decide +kernel
  have hfirst :
      (parse (.ofText "F RANDOM 2\nF\nTO F :A\nX = :A F :X\nEND")).items.map (Item.view .lineless) =
      [.statement (.call "F" [.random, .number "2" ⟨0, []⟩] ⟨0, []⟩),
        .statement (.call "F" [] ⟨0, []⟩), .definition ⟨"F", ["A"], ⟨0, []⟩⟩
          [.assign "X" "=" (.var "A" ⟨0, []⟩) ⟨0, []⟩,
            .call "F" [.var "X" ⟨0, []⟩] ⟨0, []⟩] ⟨0, []⟩] := by
    rw [map_view_lineless_items htokens]
    rfl
  have hlast :
      (parse (.ofText "TO F :A X = :A F :X END F RANDOM 2 F")).items.map (Item.view .lineless) =
      [.definition ⟨"F", ["A"], ⟨0, []⟩⟩
          [.assign "X" "=" (.var "A" ⟨0, []⟩) ⟨0, []⟩,
            .call "F" [.var "X" ⟨0, []⟩] ⟨0, []⟩] ⟨0, []⟩,
        .statement (.call "F" [.random, .number "2" ⟨0, []⟩] ⟨0, []⟩),
        .statement (.call "F" [] ⟨0, []⟩)] := by
    rw [map_view_lineless_items htokens']
    rfl
  have hcalls :
      ∀ i ∈ [Item.statement (.call "F" [.random, .number "2" ⟨0, []⟩] ⟨0, []⟩),
        .statement (.call "F" [] ⟨0, []⟩)],
      i.IsCallOf "F" := by
    simpa using ⟨.call rfl rfl, .call rfl rfl⟩
  obtain ⟨l, hl, -⟩ :=
    exists_listing "F RANDOM 2\nF\nTO F :A\nX = :A F :X\nEND" (fun _ => True) (by decide +kernel)
  refine ⟨_, ⟨"F", _, _⟩, _, _, List.cons_ne_nil _ _, hcalls, hfirst, hlast,
    (compile_in_either_order (List.cons_ne_nil _ _) hcalls hfirst hlast).resolve_right ?_⟩
  rintro ⟨e, -, he, -⟩
  cases he.symm.trans hl

end TurtleCompiler
