import TurtleCompiler.Proofs.BlockCode
import TurtleCompiler.Proofs.Output
import TurtleCompiler.Proofs.Passage
import TurtleCompiler.Proofs.Repetition

/-!
The body of a procedure without parameters. A name that is no global variable when the body begins
is at home in the procedure.
-/

namespace TurtleCompiler

theorem IsName.at_not_mem {name : String} (h : IsName name) : '@' ∉ name.toUpper.toList := by
  rw [toList_toUpper, List.mem_map]
  rintro ⟨c, hc, he⟩
  obtain rfl := (toUpper_eq_iff (by decide)).1 he
  exact absurd (h.word _ hc) (by decide)

namespace Table

variable {t : Table} {id : SymbolId} {name x : String} {names : NameMap}

theorem resolve_push (t : Table) (name x : String) :
    (t.push name).resolve x none none = t.resolve x none none := by
  rw [resolve_none, resolve_none]
  rfl

section Inner

variable (h : t.Sound) (hframes : frames t.scopes = [("@" ++ name, {}), ("", names)])

include h hframes

theorem Sound.scope_ne (hid : t.Has id) : (t.symbol id).scope ≠ "@" ++ name := by
  rcases h.placed hid with ⟨frame, hframe, hentry⟩ | hclosed
  · rw [(h.entry hframe hentry).2.2]
    rw [hframes, List.mem_pair] at hframe
    rcases hframe with rfl | rfl
    · simp at hentry
    · simp
  · intro hscope
    exact h.apart hclosed (hframes ▸ List.mem_cons_self) (by rw [hscope])

theorem Sound.isSome_get? (hid : t.IsGlobal x.toUpper id) : (names.get? x).isSome := by
  rcases h.placed hid.1.1 with ⟨frame, hframe, hentry⟩ | hclosed
  · have hscope := (h.entry hframe hentry).2.2
    have hkeys := h.keys hframe
    rw [hframes, List.mem_pair] at hframe
    rcases hframe with rfl | rfl
    · simp at hentry
    · rw [hid.2.2] at hentry
      exact Option.isSome_of_mem (NameMap.get?_of_mem hkeys hentry)
  · refine absurd ?_ (h.apart hclosed (hframes ▸ List.mem_cons_of_mem _ List.mem_cons_self))
    rw [hid.2.1]

theorem Sound.exists_homes : ∃ home, t.Homes home ∧ ∀ x,
    (∃ id, t.IsGlobal x id) ∧ home x = "" ∨ (∀ id, ¬ t.IsGlobal x id) ∧
    home x = "@" ++ name := by
  classical
  have hresolve (x : String) : t.resolve x none none = names.get? x := by
    rw [Table.resolve_none, hframes, List.findSome?_cons, List.findSome?_singleton]
    rfl
  refine ⟨fun x => if ∃ id, t.IsGlobal x id then "" else "@" ++ name,
    ⟨fun {x id} hid => ?_, fun {x} hnone => ?_⟩, fun x => ?_⟩
  · rw [hresolve] at hid
    obtain ⟨hhas, hname, hscope⟩ :=
      h.entry (hframes ▸ List.mem_cons_of_mem _ List.mem_cons_self) (NameMap.mem_of_get? hid)
    exact ⟨hhas, fun hvar => by rw [if_pos ⟨id, ⟨hhas, hvar⟩, hscope, hname⟩, hscope]⟩
  · rw [hresolve] at hnone
    have hpaths : (frames t.scopes).map (·.1) = ["@" ++ name, ""] := by
      rw [hframes]
      rfl
    rw [if_neg]
    · exact scopePath_of_paths hpaths
    · rintro ⟨id, hid⟩
      simpa [hnone] using h.isSome_get? hframes hid
  · by_cases hx : ∃ id, t.IsGlobal x id
    · exact .inl ⟨hx, if_pos hx⟩
    · exact .inr ⟨not_exists.1 hx, if_neg hx⟩

end Inner

theorem Ready.block_ofNodes {entry j : SymbolId} {b : Block} {ns : List Node} (h : t.Ready entry)
    (hb : t.blockOf? j = some b) (hname : b.name.toUpper = name.toUpper) (hid : t.IsRoutine name id)
    (hr : (t.symbol id).routine? = some { code := some (.ofNodes id ns) }) :
    b = ⟨(t.symbol id).name, [], codeOfNodes t ns⟩ := by
  obtain ⟨hj, hused, ⟨r, hr', -⟩, -⟩ := h.block_cases hb
  have hroutine : t.IsRoutine name j :=
    ⟨hused.has, Symbol.cls_of_routine? hr', by rw [← hj, hname]⟩
  obtain rfl := h.lowered.live.isRoutine_unique hroutine hid
  rw [blockOf?, code?, hr, Option.bind_some, Option.bind_some,
    Definition.block?_ofNodes ns hr rfl hused] at hb
  exact (Option.some.inj hb).symm

theorem exists_seen (t : Table) (home : String → String) :
    ∃ seen : List String, ∀ x, x ∈ seen ↔ ∃ id, t.IsAt home x id ∧
    (t.value? id).isSome := by
  classical
  refine ⟨((List.range t.symbols.size).map fun i => (t.symbol ⟨i⟩).name.toUpper).filter
    fun x => ∃ id, t.IsAt home x id ∧ (t.value? id).isSome, fun x => ?_⟩
  rw [List.mem_filter, decide_eq_true_eq, and_iff_right_iff_imp]
  rintro ⟨id, hid, -⟩
  exact List.mem_map.2 ⟨id.index, List.mem_range.2 hid.1.1, hid.2.2⟩

end Table

namespace Lowering

variable {s s' : Lowering} {name : String} {line : Nat} {id entry : SymbolId} {w : Workspace}

theorem Ok.frames_beginProcedure (h : s.Ok []) (hpaths : s.table.AtTop) (hname : IsName name)
    (hb : Lowering.beginProcedure name line [] s = .ok id s') :
    s'.openRoutine = some id ∧
    ∃ names, frames s'.table.scopes = [("@" ++ name, {}), ("", names)] := by
  obtain ⟨hfree, hopen⟩ := beginProcedure_eq_ok hb
  obtain ⟨t₁, ids, s₂, s₃, j, t₄, hd, hparams, huse, hd', rfl⟩ :=
    openProcedure_eq_ok hopen
  obtain ⟨⟩ := hparams
  obtain rfl : s₃ = (s.setTable t₁).openScope name := by
    rcases huse with ⟨-, huse⟩ | ⟨-, rfl⟩
    · exact (pure_eq_ok.1 huse).2.symm
    · rfl
  obtain ⟨hadds, -⟩ := h.declare_procedure hpaths hname hfree hd
  obtain ⟨names, hscopes⟩ := exists_outer (hadds.table.paths.trans hpaths)
  have hscopes : t₁.scopes = [⟨"", names⟩] := hscopes
  -- the routine has been declared already
  rcases Table.declare_eq_ok hd' with ⟨-, -, rfl⟩ | ⟨hnone, -⟩
  · refine ⟨rfl, names, ?_⟩
    change frames (⟨name, {}⟩ :: t₁.scopes) = _
    rw [hscopes, frames, scopePath_inner hname.nonempty, frames, frames]
    simp [scopePath]
  · have hresolve := Table.resolve_none_declare (by simp) hd
    rw [← Table.resolve_push t₁ name] at hresolve
    exact absurd (hresolve.symm.trans hnone) (by simp)

theorem Ok.scoped_beginProcedure (h : s.Ok []) (hpaths : s.table.AtTop) (hname : IsName name)
    (he : s.table.Equipped) (hb : Lowering.beginProcedure name line [] s = .ok id s') :
    ∃ home seen, s'.Scoped home seen ∧ ∀ x, (∀ j, ¬ s.table.IsGlobal x j) →
    home x = "@" ++ name ∧ x ∉ seen := by
  obtain ⟨hok, hopened, -, -, -, ids, hlength, hgives, -⟩ :=
    h.beginProcedure hpaths hname (by simp) hb
  obtain ⟨hroutine, names, hframes⟩ := h.frames_beginProcedure hpaths hname hb
  have hpasses := h.passes_beginProcedure hpaths hname (by simp) hb
  obtain ⟨hprint, hrandom⟩ := he.passes hpasses
  obtain ⟨home, hhomes, hhome⟩ := hok.live.sound.exists_homes hframes
  obtain ⟨seen, hseen⟩ := s'.table.exists_seen home
  refine ⟨home, seen, ⟨hok.live, hhomes, fun i hi => ?_, ?_, ?_, hseen⟩, fun x hx => ?_⟩
  · obtain rfl : id = i := by simpa [hroutine] using hi
    exact ⟨_, (hgives.routine id).trans (if_pos rfl), List.length_eq_zero_iff.1 hlength⟩
  · obtain ⟨i, ⟨hi, halias⟩, hprint⟩ := hprint
    exact ⟨i, ⟨i, hi, .inl ⟨halias, rfl⟩⟩, hprint⟩
  · obtain ⟨i, ⟨hi, halias⟩, hrandom⟩ := hrandom
    exact ⟨i, ⟨i, hi, .inl ⟨halias, rfl⟩⟩, hrandom⟩
  · have hlocal : ∀ i, ¬ s'.table.IsGlobal x i :=
      fun i hi => hx i ((hpasses.isGlobal hi).resolve_right (by simp))
    have hscope : home x = "@" ++ name :=
      ((hhome x).resolve_left fun ⟨⟨i, hi⟩, _⟩ => hlocal i hi).2
    refine ⟨hscope, fun hmem => ?_⟩
    obtain ⟨i, hi, -⟩ := (hseen x).1 hmem
    exact hok.live.sound.scope_ne hframes hi.1.1 (hi.2.1.trans hscope)

theorem equipped_setup (h : setup {} = .ok entry w) : w.table.Equipped := by
  obtain ⟨-, ⟨i, -, hi⟩, j, -, hj⟩ : IsFresh w.table := (eq_start h).2 ▸ freshStart.2.1
  exact ⟨⟨_, hi⟩, _, hj⟩

theorem start_globals (id : SymbolId) (hid : start.table.Has id) :
    (start.table.symbol id).cls = .var → (start.table.symbol id).scope = "" →
    '@' ∈ (start.table.symbol id).name.toUpper.toList := by
  revert id
  decide +kernel

theorem not_isGlobal_setup (h : setup {} = .ok entry w) (hname : IsName name) :
    ¬ w.table.IsGlobal name.toUpper id := by
  rw [(eq_start h).2]
  intro hid
  have hat := start_globals id hid.1.1 hid.1.2 hid.2.1
  rw [hid.2.2] at hat
  exact hname.at_not_mem hat

end Lowering

namespace Source

variable {p : Processor} {s s' : Lowering} {a b : List String} {header : Header} {body : List Stmt}

mutual

theorem Stmt.task_congr : (st : Stmt) →
    ∀ {a b : List String}, (∀ x ∈ st.assigns, x ∈ a ↔ x ∈ b) → st.task a = st.task b
  | .assign name _ _ _, a, b, h => by
    simp only [Stmt.task, h name.toUpper (List.mem_singleton_self _)]
  | .ifThen _ yes _, a, b, h | .whileDo _ yes _, a, b, h => by
    simp only [Stmt.task, taskOfAll_congr yes h]
  | .ifElse _ yes no _, a, b, h => by
    simp only [Stmt.assigns, List.forall_mem_append] at h
    have hno : ∀ x ∈ assignsOfAll no, x ∈ a ++ assignsOfAll yes ↔
        x ∈ b ++ assignsOfAll yes := fun x hx => by
      rw [List.mem_append, List.mem_append, h.2 x hx]
    simp only [Stmt.task, taskOfAll_congr yes h.1, taskOfAll_congr no hno]
  | .expr _, _, _, _ | .call .., _, _, _ | .print .., _, _, _ | .typein .., _, _, _ => rfl

theorem taskOfAll_congr : (ss : List Stmt) →
    ∀ {a b : List String}, (∀ x ∈ assignsOfAll ss, x ∈ a ↔ x ∈ b) →
    taskOfAll a ss = taskOfAll b ss
  | [], _, _, _ => rfl
  | st :: ss, a, b, h => by
    simp only [assignsOfAll, List.forall_mem_append] at h
    have hrest : ∀ x ∈ assignsOfAll ss, x ∈ a ++ st.assigns ↔ x ∈ b ++ st.assigns :=
        fun x hx => by
      rw [List.mem_append, List.mem_append, h.2 x hx]
    rw [taskOfAll, taskOfAll, st.task_congr h.1, taskOfAll_congr ss hrest]

end

theorem append_subset_append {c d : List String} (h : a ⊆ c) (h' : b ⊆ d) : a ++ b ⊆ c ++ d :=
  List.append_subset.2 ⟨List.subset_append_of_subset_left _ h,
    List.subset_append_of_subset_right _ h'⟩

mutual

theorem Stmt.assigns_subset : (st : Stmt) → st.assigns ⊆ st.names.map String.toUpper
  | .assign .. => by simp [Stmt.assigns, Stmt.names]
  | .ifThen _ yes _ | .whileDo _ yes _ => by
    rw [Stmt.assigns, Stmt.names, List.map_append]
    exact List.subset_append_of_subset_right _ (assignsOfAll_subset yes)
  | .ifElse _ yes no _ => by
    rw [Stmt.assigns, Stmt.names, List.map_append, List.map_append]
    exact List.subset_append_of_subset_right _
      (append_subset_append (assignsOfAll_subset yes) (assignsOfAll_subset no))
  | .expr _ | .call .. | .print .. | .typein .. => List.nil_subset _

theorem assignsOfAll_subset : (ss : List Stmt) →
    assignsOfAll ss ⊆ (namesOfAll ss).map String.toUpper
  | [] => List.nil_subset _
  | st :: ss => by
    rw [assignsOfAll, namesOfAll, List.map_append]
    exact append_subset_append st.assigns_subset (assignsOfAll_subset ss)

end

mutual

theorem Stmt.assigns_task : (st : Stmt) → ∀ seen, (st.task seen).kept ⊆ st.assigns ∧
    ((st.task seen).constants p).map (·.1) ⊆ st.assigns
  | .assign name op rhs _, seen => by
    rw [Stmt.task]
    cases name.toUpper ∉ seen && rhs.isConstant with
    | false => exact ⟨List.Subset.refl _, List.nil_subset _⟩
    | true =>
      refine ⟨List.nil_subset _, ?_⟩
      split <;> cases compoundOp? op <;> simp [Task.constants, Stmt.assigns]
  | .ifThen _ yes _, seen | .whileDo _ yes _, seen => assigns_taskOfAll yes seen
  | .ifElse _ yes no _, seen => by
    have hyes := assigns_taskOfAll yes seen
    have hno := assigns_taskOfAll no (seen ++ assignsOfAll yes)
    rw [Stmt.task, Stmt.assigns, Task.kept, Task.constants, List.map_append]
    exact ⟨append_subset_append hyes.1 hno.1, append_subset_append hyes.2 hno.2⟩
  | .expr _, _ | .call .., _ | .print .., _ | .typein .., _ =>
    ⟨List.nil_subset _, List.nil_subset _⟩

theorem assigns_taskOfAll : (ss : List Stmt) →
    ∀ seen, (taskOfAll seen ss).kept ⊆ assignsOfAll ss ∧
    ((taskOfAll seen ss).constants p).map (·.1) ⊆ assignsOfAll ss
  | [], _ => ⟨List.nil_subset _, List.nil_subset _⟩
  | st :: ss, seen => by
    have hfirst := st.assigns_task seen
    have hrest := assigns_taskOfAll ss (seen ++ st.assigns)
    rw [taskOfAll, assignsOfAll, Task.kept, Task.constants, List.map_append]
    exact ⟨append_subset_append hfirst.1 hrest.1, append_subset_append hfirst.2 hrest.2⟩

end

theorem matches_definition {site : Site} {fault : Option Error} (p : Processor)
    (hparams : header.params = []) (hplain : arePlain body)
    (hnames : ∀ x ∈ (Item.definition header body site).names, IsName x) (hs : s.Ok [])
    (hpaths : s.table.AtTop) (he : s.table.Equipped)
    (hlocal : ∀ x ∈ assignsOfAll body, ∀ id, ¬ s.table.IsGlobal x id)
    (h : (Item.definition header body site).lower s = .ok fault s') :
    ∃ (id : SymbolId) (home : String → String) (d : Command) (ns : List Node) (k n : Nat),
      s'.table.IsRoutine header.name id ∧
      (s'.table.symbol id).routine? = some { code := some (.ofNodes id ns) } ∧
      d.Built k ns n ∧ (∀ x ∈ assignsOfAll body, home x = "@" ++ header.name) ∧
      ∀ {t}, s'.table.Leads t → (taskOfAll [] body).Matches p home t d := by
  obtain ⟨b, e, id, ids, nodes, r, h⟩ := Item.stages hnames hs hpaths (Item.becomes rfl h).1
  simp only [Item.names, List.forall_mem_cons, List.forall_mem_append] at hnames
  have hok := hs.adds ((Lowering.Adds.refl s).noted header.site.notes)
  have hbegin := h.begins
  rw [hparams] at hbegin
  obtain ⟨home, seen, hscoped, hhome⟩ := hok.scoped_beginProcedure hpaths hnames.1 he hbegin
  have htask : taskOfAll seen body = taskOfAll [] body :=
    taskOfAll_congr body fun x hx => by simp [(hhome x (hlocal x hx)).2]
  obtain ⟨-, -, d, hbuilt, hmatches⟩ := h.becomes.translates (p := p) hplain hnames.2.2 hscoped
  have hadds := h.adds.noted site.notes
  have hpasses : e.table.Passes [] s'.table :=
    (h.ok.adds hadds).passes_endProcedure (h.opened.adds hadds) h.ends
  have hr : r = {} := by
    have hr := h.routine
    rw [h.adds.table.routine h.opened.routine.1, h.gives.routine, if_pos rfl,
      List.length_eq_zero_iff.1 (h.length.trans (by rw [hparams]; rfl))] at hr
    exact (Option.some.inj hr).symm
  refine ⟨id, home, d, nodes, _, _,
    hpasses.leads.isRoutine (h.opened.adds h.adds).routine, ?_, hbuilt,
    fun x hx => (hhome x (hlocal x hx)).1, fun ht => htask ▸ hmatches (hpasses.leads.trans ht)⟩
  rw [h.gives'.routine, if_pos rfl, hr]

/-- The block in a listing of a procedure without parameters that assigns only variables of its
own: its body is plain, and the statements before it have none of the names that it assigns. -/
structure IsProcedure (source : String) (listing : Listing) (header : Header) (body : List Stmt)
    (b : Block) : Prop where
  compiled : compile source = .ok listing
  parsed : ∃ before site after,
    (parse (.ofText source)).items = before ++ .definition header body site :: after ∧
      ∀ x ∈ assignsOfAll body, x ∉ (before.flatMap Item.outerNames).map String.toUpper
  params : header.params = []
  plain : arePlain body
  mem : b ∈ listing.blocks
  name : b.name.toUpper = header.name.toUpper

theorem IsProcedure.exists_matches {source : String} {listing : Listing} {b : Block}
    (h : IsProcedure source listing header body b) (p : Processor) :
    ∃ (t : Table) (home : String → String) (d : Command) (ns : List Node) (k n : Nat),
      t.Fills listing ∧ b.params = [] ∧ b.code = codeOfNodes t ns ∧ d.Built k ns n ∧
      (∀ x ∈ assignsOfAll body, home x = "@" ++ header.name) ∧
      (taskOfAll [] body).Matches p home t d := by
  obtain ⟨h, ⟨before, site, after, hparse, hlocal⟩, hparams, hplain, hb, hname⟩ := h
  obtain ⟨w, w', hlower, hlink⟩ := compile_eq_ok h
  obtain ⟨entry, hready⟩ := ready_of_lower hlower
  obtain ⟨targets, -, hblocks, -, -⟩ := hready.link hlink
  obtain ⟨_, w₀, s', hsetup, hrun, rfl⟩ := Lowering.within_eq_ok hlower
  obtain ⟨hok, hpaths⟩ := Lowering.ok_setup hsetup
  obtain ⟨_, s, hprogram, hfinish⟩ := bind_eq_ok.1 hrun
  have hok' := (ok_lower_parse hok hpaths hprogram).1
  obtain ⟨faults, s₁, hitems, hnone, henter⟩ := Program.lower_eq_ok hprogram
  have hcomplete := complete_of_lower hitems hnone
  have hnames := isName_of_parse hcomplete
  rw [hparse] at hitems hcomplete hnames
  simp only [List.forall_mem_append, List.forall_mem_cons] at hcomplete hnames
  simp only [List.mapM_append, List.mapM_cons, bind_eq_ok, pure_eq_ok] at hitems
  obtain ⟨_, s₂, hbefore, _, _, ⟨_, s₃, hdef, _, s₄, hafter, -, rfl⟩, -, rfl⟩ :=
    hitems
  -- before the procedure
  obtain ⟨hok₂, hpaths₂⟩ := ok_lower_items hok hpaths hcomplete.1 hnames.1 hbefore
  have hpasses₂ := passes_lower_items hok hpaths hcomplete.1 hnames.1 hbefore
  have hlocal₂ : ∀ x ∈ assignsOfAll body, ∀ id, ¬ s₂.table.IsGlobal x id := by
    intro x hx id hid
    rcases hpasses₂.isGlobal hid with hid | hmem
    · obtain ⟨y, hy, rfl⟩ := List.mem_map.1 (assignsOfAll_subset body hx)
      exact Lowering.not_isGlobal_setup hsetup (hnames.2.1 y (by simp [Item.names, hy])) hid
    · exact hlocal x hx hmem
  -- the procedure, and what comes after it
  obtain ⟨id, home, d, ns, k, n, hid, hroutine, hbuilt, hhome, hmatches⟩ :=
    matches_definition p hparams hplain hnames.2.1 hok₂ hpaths₂
    ((Lowering.equipped_setup hsetup).passes hpasses₂) hlocal₂ hdef
  obtain ⟨hok₃, hpaths₃⟩ :=
    (Item.becomes hcomplete.2.1 hdef).1.ok hnames.2.1 hok₂ hpaths₂
  have hpasses₄ := passes_lower_items hok₃ hpaths₃ hcomplete.2.2 hnames.2.2 hafter
  rw [← Lowering.table_enter henter] at hpasses₄
  have hleads := hpasses₄.leads.trans (hok'.leads_finish hfinish)
  have hroutine₄ := hpasses₄.code _ hroutine rfl
  have hne : id ≠ s.entry := by
    rintro rfl
    obtain ⟨-, r, hr, hcode, -⟩ := hok'.entry
    simp [hroutine₄.symm.trans hr |> Option.some.inj |>.symm] at hcode
  obtain ⟨-, -, hscopes, r, -, hgives⟩ := hok'.finish hfinish
  have hroutine' := (hgives.routine id).trans ((if_neg hne).trans hroutine₄)
  rw [hblocks] at hb
  obtain ⟨j, -, hj⟩ := List.mem_filterMap.1 hb
  obtain rfl := hready.block_ofNodes hj hname (hleads.isRoutine hid) hroutine'
  exact ⟨s'.table, home, d, ns, k, n,
    ⟨hready.lowered.live.sound, hscopes, (link_eq_ok hlink).1⟩, rfl, rfl, hbuilt, hhome,
    hmatches hleads⟩

end Source

end TurtleCompiler
