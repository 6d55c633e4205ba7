import TurtleCompiler.Proofs.Recovery
import TurtleCompiler.Proofs.Routines

/-!
How a compilation fails. Linking fails for just one reason, a procedure that is called and neither
defined nor in the library.
-/

namespace TurtleCompiler

namespace Source

def Item.calls : Item → List String
  | .statement s => s.calls
  | .definition _ body _ => callsOfAll body
  | .broken .. => []

def Item.defined : Item → List String
  | .definition header _ _ => [header.name]
  | .statement _ | .broken .. => []

def Program.calls (p : Program) : List String := p.items.flatMap Item.calls

def Program.defined (p : Program) : List String := p.items.flatMap Item.defined

end Source

namespace Table

variable {t t' : Table} {id entry : SymbolId} {r : Routine} {name : String}
  {names calls defined : List String} {pending : List SymbolId}

def Offers (t : Table) (name : String) : Prop :=
  ∃ id, t.IsRoutine name id ∧ (t.symbol id).flags.library

theorem Rooted.offers (h : t.Rooted) (hroots : t.Roots name) : t.Offers name := by
  obtain ⟨scope, hscope, id, hid, hlibrary⟩ := hroots
  exact ⟨id, h.isRoutine (List.mem_of_mem_getLast? hscope) hid (cls_of_library hlibrary),
    hlibrary⟩

theorem Gives.isRoutine (h : t.Gives id r t') {j : SymbolId} (hj : t.IsRoutine name j) :
    t'.IsRoutine name j :=
  ⟨h.has hj.1, (h.grows hj.1).cls.trans hj.2.1, by rw [(h.grows hj.1).name, hj.2.2]⟩

theorem Offers.gives (h : t.Offers name) (hg : t.Gives id r t') : t'.Offers name := by
  obtain ⟨j, hj, hlibrary⟩ := h
  exact ⟨j, hg.isRoutine hj, (hg.grows hj.1).library hlibrary⟩

structure Accounted (t : Table) (pending : List SymbolId) (calls defined : List String) : Prop where
  routine : ∀ {id}, ∀ r ∈ (t.symbol id).routine?,
    r.flags.library ∨ id ∈ pending ∨ r.code.isSome ∨ (t.symbol id).name ∈ calls
  defined : ∀ name ∈ defined, ∃ id, t.IsRoutine name id ∧
    ∃ r ∈ (t.symbol id).routine?, r.code.isSome

theorem Accounted.extends {ms : List SymbolId} (h : t.Accounted pending calls defined)
    (he : t.Extends ms t') (hf : t.Follows names t') :
    t'.Accounted pending (calls ++ names) defined where
  routine {id} r hr := by
    by_cases hid : t.Has id
    · rw [he.routine hid] at hr
      rw [(he.grows hid).name]
      exact (h.routine r hr).imp_right (.imp_right (.imp_right (List.mem_append_left _)))
    · exact .inr
        (.inr
          (.inr
            (List.mem_append_right _
              (hf.new hid (has_of_routine? hr) (Symbol.cls_of_routine? hr)))))
  defined name hname := by
    obtain ⟨id, hid, r, hr, hcode⟩ := h.defined name hname
    exact ⟨id, he.isRoutine hid, r, (he.routine hid.1).trans hr, hcode⟩

theorem Accounted.begins (h : t.Accounted pending calls defined) (hg : t.Gives id r t')
    (hblank : ∀ r ∈ (t.symbol id).routine?, r = {}) :
    t'.Accounted (id :: pending) calls defined where
  routine {j} r' hr' := by
    by_cases hj : j = id
    · exact .inr (.inl (hj ▸ List.mem_cons_self))
    · rw [hg.routine, if_neg hj] at hr'
      rw [(hg.grows (has_of_routine? hr')).name]
      exact (h.routine r' hr').imp_right (.imp_left (List.mem_cons_of_mem _))
  defined name hname := by
    obtain ⟨j, hj, r', hr', hcode⟩ := h.defined name hname
    have hne : j ≠ id := by
      rintro rfl
      simp [hblank r' hr'] at hcode
    exact ⟨j, hg.isRoutine hj, r', (hg.routine j).trans ((if_neg hne).trans hr'), hcode⟩

theorem Accounted.ends (h : t.Accounted (id :: pending) calls defined) (hg : t.Gives id r t')
    (hcode : r.code.isSome) (hnames : ∀ name ∈ names, t.IsRoutine name id) :
    t'.Accounted pending calls (defined ++ names) where
  routine {j} r' hr' := by
    by_cases hj : j = id
    · obtain rfl : r = r' := by simpa [hg.routine, hj] using hr'
      exact .inr (.inr (.inl hcode))
    · rw [hg.routine, if_neg hj] at hr'
      rw [(hg.grows (has_of_routine? hr')).name]
      exact (h.routine r' hr').imp_right
        (.imp_left fun hmem => (List.mem_cons.1 hmem).resolve_left hj)
  defined name hname := by
    rcases List.mem_append.1 hname with hname | hname
    · obtain ⟨j, hj, r', hr', hcode'⟩ := h.defined name hname
      by_cases hne : j = id
      · exact ⟨j, hg.isRoutine hj, r, (hg.routine j).trans (if_pos hne), hcode⟩
      · exact ⟨j, hg.isRoutine hj, r', (hg.routine j).trans ((if_neg hne).trans hr'), hcode'⟩
    · exact ⟨id, hg.isRoutine (hnames name hname), r,
        (hg.routine id).trans (if_pos rfl), hcode⟩

end Table

namespace Source

variable {s s' : Lowering} {calls defined : List String}

theorem Item.accounted_lower {i : Item} (hi : i.isComplete) (hnames : ∀ x ∈ i.names, IsName x)
    (hspelled : i.ComesFrom Token.IsSpelled EndsInSource) (hs : s.Ok []) (hpaths : s.table.AtTop)
    (hrooted : s.table.Rooted) (ha : s.table.Accounted [s.entry] calls defined)
    {fault : Option Error} (h : i.lower s = .ok fault s') :
    s'.table.Accounted [s'.entry] (calls ++ i.calls) (defined ++ i.defined) := by
  cases i with
  | statement st =>
    simp only [Item.lower, bind_eq_ok, pure_eq_ok] at h
    obtain ⟨n, s₁, hn, _, s₂, hadd, -, rfl⟩ := h
    obtain rfl := modify_eq_ok.1 hadd
    have hadds := (st.becomes hn).adds hnames hs.live
    rw [Item.defined, List.append_nil]
    change s₁.table.Accounted [s₁.entry] _ _
    rw [hadds.entry]
    exact ha.extends hadds.table ((st.grounded_lower hspelled s hrooted).of_ok hn).1.follows
  | definition header body site =>
    simp only [Item.lower, Header.lower, bind_eq_ok, pure_eq_ok] at h
    obtain ⟨id, s₂, ⟨_, s₁, henter, hbegin⟩, nodes, s₃, hbody, _, s₄, henter', _,
      s₅, hend, -, rfl⟩ := h
    simp only [Item.names, List.forall_mem_cons, List.forall_mem_append] at hnames
    have hadds₁ := Lowering.adds_enter henter
    have hrooted₁ := ((Lowering.grounded_enter _ s hrooted).of_ok henter).1
    obtain ⟨hok₂, hopened, -, hentry, -, ids, -, hgives, hblank⟩ :=
      (hs.adds hadds₁).beginProcedure (hadds₁.table.paths.trans hpaths) hnames.1
      hnames.2.1 hbegin
    have hrooted₂ := ((Lowering.yields_beginProcedure hrooted₁.rooted).of_ok hbegin).1
    have ha₂ := (ha.extends hadds₁.table hrooted₁.follows).begins hgives hblank
    have hadds₃ :=
      ((allBecome body hbody).adds hnames.2.2 hok₂.live).trans (Lowering.adds_enter henter')
    have hrooted₃ := ((grounded_lowerAll body hspelled.2.1 s₂ hrooted₂.rooted).of_ok hbody).1
    have hrooted₄ :=
      hrooted₃.trans ((Lowering.grounded_enter _ s₃ hrooted₃.rooted).of_ok henter').1
    rw [List.append_nil] at hadds₃ hrooted₄ ha₂
    have hopened₄ := hopened.adds hadds₃
    obtain ⟨-, -, -, r, hr, hgives'⟩ :=
      (hok₂.adds hadds₃).endProcedure hopened₄ hadds₃.fits hend
    obtain ⟨t, scope, scopes, -, -, rfl⟩ := Lowering.endProcedure_eq_ok hend
    have hentry' : s₄.entry = s.entry := hadds₃.entry.trans (hentry.trans hadds₁.entry)
    change Table.Accounted _ [s₄.entry] _ _
    rw [hentry']
    exact (ha₂.extends hadds₃.table hrooted₄.follows).ends hgives'
      rfl (by simpa [Item.defined] using hopened₄.routine)
  | broken done fault => simp [Item.isComplete] at hi

theorem accounted_lower_parse {text : String} {u : Unit} (hs : s.Ok [])
    (hpaths : s.table.AtTop) (hrooted : s.table.Rooted) (ha : s.table.Accounted [s.entry] [] [])
    (h : (parse (.ofText text)).lower s = .ok u s') :
    s'.table.Accounted [s'.entry] (parse (.ofText text)).calls (parse (.ofText text)).defined := by
  refine (Program.induction (R := fun done s => s.table.Rooted ∧
    s.table.Accounted [s.entry] (done.flatMap Item.calls)
    (done.flatMap Item.defined)) isName_of_parse hs hpaths ⟨hrooted, ha⟩
    (fun {done i s s'} hmem hnames hs hpaths hR hi _ => ?_) (fun _ hR => hR) h).2.2
  have hspelled := isSpelled_parse text i hmem
  have ha' := i.accounted_lower (i.lower_complete hi) hnames hspelled hs hpaths hR.1 hR.2 hi
  exact ⟨((i.yields_lower hspelled hR.1).of_ok hi).2, by simpa using ha'⟩

end Source

namespace Lowering

variable {s : Lowering} {w : Workspace}

instance (t : Table) (name : String) : Decidable (t.Roots name) := by
  unfold Table.Roots
  infer_instance

def rootedStart :
    { s : Start // (∀ p ∈ catalogue, s.table.Roots p.name) ∧ ∀ id, s.table.Has id →
    (∀ r ∈ (s.table.symbol id).routine?, r.flags.library ∨ id = s.entry) ∧
      ∀ target ∈ s.table.alias? id, s.table.Roots target } := ⟨start, by decide +kernel⟩

theorem rooted_setup {entry : SymbolId} (h : setup {} = .ok entry w) :
    w.table.Rooted ∧ w.table.Accounted [entry] [] [] := by
  obtain ⟨rfl, htable⟩ := eq_start h
  have hlibrary : ∀ p ∈ catalogue, start.table.Roots p.name := rootedStart.2.1
  have hroutines (id : SymbolId) (hid : start.table.Has id) :
      (∀ r ∈ (start.table.symbol id).routine?, r.flags.library ∨ id = start.entry) ∧
        ∀ target ∈ start.table.alias? id, start.table.Roots target := rootedStart.2.2 id hid
  have hlive := start.live
  rw [htable]
  refine ⟨⟨?_, fun {scope} hscope key id hid => ?_, hlibrary, fun {id target} halias => ?_⟩,
    fun {id} r hr => ?_, by simp⟩
  · intro he
    simpa [he, frames] using start.isStart.1
  · obtain ⟨k, hk⟩ := List.getElem?_of_mem hscope
    have hframe : (frames start.table.scopes)[k]? =
        some (scopePath (start.table.scopes.drop k), scope.names) := by
      simp [getElem?_frames, hk]
    have hentry := hlive.sound.entry (List.mem_of_getElem? hframe) hid
    exact ⟨hentry.1, hentry.2.1⟩
  · exact ⟨(hroutines id (Table.has_of_alias? halias)).2 target halias,
      (hlive.aliases halias).2.2.2⟩
  · exact ((hroutines id (Table.has_of_routine? hr)).1 r hr).imp_right fun hid =>
      .inl (by simp [hid])

theorem within_eq_error {x : LowerM α} {e : Error} (h : within x {} = .error e w) :
    ∃ entry w₀ s, setup {} = .ok entry w₀ ∧
    x { toWorkspace := w₀, entry } = .error e s := by
  unfold within at h
  rcases bind_eq_error.1 h with h | ⟨entry, w₀, hsetup, h⟩
  · have hsome := isSome_setup?
    simp [setup?, h] at hsome
  · refine ⟨entry, w₀, ?_⟩
    generalize x { toWorkspace := w₀, entry } = result at h ⊢
    cases result with
    | ok a s => simp at h
    | error e' s =>
      simp only [EStateM.Result.error.injEq] at h
      exact ⟨s, hsetup, by rw [h.1]⟩

theorem Ok.yields_finish (h : s.Ok []) (hpaths : s.table.AtTop) :
    Yields Lowering.finish s fun _ _ => True := by
  obtain ⟨names, hscopes⟩ := exists_outer hpaths
  obtain ⟨-, r, hr, -⟩ := h.entry
  refine .bind (.of_get ?_)
  dsimp only
  rw [if_neg (by simp [Table.depth, hscopes])]
  refine .bind (.ofTable ((Table.yields_setCode (Symbol.cls_of_routine? hr) _).mono
    fun {_ t} ht => ?_))
  have hscopes' : t.scopes = [⟨"", names⟩] := ht.scopes.trans hscopes
  exact .bind (yields_closeScope hscopes' trivial)

end Lowering

section Link

variable {w w' : Workspace} {id target : SymbolId} {r : Routine} {e : Error}

theorem note_ne_error {event : Event} : Workspace.note event w ≠ .error e w' := by
  simp [Workspace.note]

theorem Definition.emit_ne_error {d : Definition} : d.emit w ≠ .error e w' := by
  intro h
  simp only [emit, get_bind] at h
  cases hremark : d.remark? w.table with
  | none => simp [hremark] at h
  | some remark =>
    simp only [hremark, bind_eq_error, note_ne_error, pure_ne_error, and_false,
      exists_false, or_self] at h

theorem linkRoutine_eq_error (h : linkRoutine id w = .error e w') :
    e = .link (.undefined (w.table.symbol id).name) ∧ ∀ target ∈ w.table.linkTarget? id,
      ∀ r ∈ (w.table.symbol target).routine?, r.flags.library = false ∧ r.code = none := by
  simp only [linkRoutine, get_bind] at h
  cases htarget : w.table.linkTarget? id with
  | none =>
    simp only [htarget, throw_eq_error] at h
    exact ⟨h.1.symm, by simp⟩
  | some target =>
  cases hr : (w.table.symbol target).routine? with
  | none =>
    simp only [htarget, hr, throw_eq_error] at h
    exact ⟨h.1.symm, by simp [hr]⟩
  | some r =>
  simp only [htarget, hr] at h
  cases hdefined : (!r.flags.library && r.code.isNone) with
  | true =>
    simp only [hdefined, if_true, throw_bind, EStateM.Result.error.injEq] at h
    exact ⟨h.1.symm, by simpa [hr] using hdefined⟩
  | false =>
    -- from here on nothing fails
    exfalso
    simp only [hdefined, Bool.false_eq_true, if_false] at h
    split at h
    · cases hcode : r.code <;>
        simp only [hcode, Option.elim_none, Option.elim_some, bind_eq_error, note_ne_error,
          Definition.emit_ne_error, modify_ne_error, pure_ne_error, and_false,
          exists_false, or_self] at h
    · split at h <;>
        simp only [bind_eq_error, note_ne_error, pure_ne_error, and_false,
          exists_false, or_self] at h

theorem mapM_linkRoutine_eq_error {ids : List SymbolId} (h : ids.mapM linkRoutine w = .error e w') :
    ∃ id ∈ ids, e = .link (.undefined (w.table.symbol id).name) ∧
      ∀ target ∈ w.table.linkTarget? id, ∀ r ∈ (w.table.symbol target).routine?,
      r.flags.library = false ∧ r.code = none := by
  induction ids generalizing w with
  | nil => simp at h
  | cons i ids ih =>
    simp only [List.mapM_cons, bind_eq_error, pure_ne_error, and_false, exists_false, or_false] at h
    rcases h with h | ⟨b?, w₁, hi, h⟩
    · exact ⟨i, List.mem_cons_self, linkRoutine_eq_error h⟩
    · obtain ⟨id, hid, he, hundefined⟩ := ih h
      obtain ⟨marks, htable⟩ : ∃ marks, w₁.table = w.table.markAll marks := by
        obtain ⟨target, -, -, ⟨-, -, htable⟩ | ⟨-, -, htable⟩⟩ := linkRoutine_cases hi
        · exact ⟨[], htable⟩
        · obtain ⟨marks, hmarks, -⟩ := w.table.markGenerated_eq i target
          exact ⟨_, htable.trans hmarks⟩
      rw [htable] at he hundefined
      simp only [Table.name_markAll, Table.linkTarget?_markAll] at he hundefined
      refine ⟨id, List.mem_cons_of_mem _ hid, he, fun target htarget r hr => ?_⟩
      have hmarked := w.table.routine?_markAll marks target
      rw [hr, Option.map_some] at hmarked
      have hr' := hundefined target htarget _ hmarked
      split at hr' <;> exact hr'

theorem link_eq_error (h : link w = .error e w') : ∃ id ∈ w.table.used .routine,
    e = .link (.undefined (w.table.symbol id).name) ∧ ∀ target ∈ w.table.linkTarget? id,
      ∀ r ∈ (w.table.symbol target).routine?, r.flags.library = false ∧ r.code = none := by
  simp only [link, bind_eq_error, get_ne_error, get_eq_ok, note_ne_error, false_or] at h
  obtain ⟨_, _, ⟨rfl, rfl⟩, _, w₁, hnote, h⟩ := h
  have htable := table_note hnote
  split at h
  · simp only [bind_eq_error, note_ne_error, pure_ne_error, false_or, and_false, exists_false,
      or_false] at h
    obtain ⟨_, w₂, hnote', _, w₃, hnote'', h⟩ := h
    have herror := mapM_linkRoutine_eq_error h
    rwa [table_note hnote'', table_note hnote', htable] at herror
  · simp only [bind_eq_error, note_ne_error, pure_ne_error, false_or, and_false, exists_false,
      or_false] at h
    obtain ⟨_, w₂, hnote', h⟩ := h
    have herror := mapM_linkRoutine_eq_error h
    rwa [table_note hnote', htable] at herror

end Link

namespace Table

variable {t : Table} {id entry : SymbolId} {name target : String} {calls defined : List String}

theorem Live.resolve_closed (h : t.Live) (hscopes : t.scopes = []) (hid : t.IsRoutine name id) :
    t.resolve name none (some .routine) = some id := by
  obtain ⟨r, hr⟩ := Symbol.exists_routine hid.2.1
  have hname : (t.symbol id).fullName.toUpper = name.toUpper := by
    rw [(h.sound.named hid.1).1, h.top r hr, qualify, if_pos rfl, hid.2.2]
  have hlookup := h.sound.lookup_fullName hscopes hid.1
  rw [hid.2.1, lookup, NameMap.get?, hname] at hlookup
  simpa [Table.resolve, hscopes, lookup, NameMap.get?] using hlookup

structure Linkable (t : Table) (calls defined : List String) : Prop where
  accounted : t.Accounted [] calls defined
  library : ∀ p ∈ catalogue, t.Offers p.name
  aliases : ∀ {id target}, t.alias? id = some target → t.Offers target

theorem Live.linkTarget?_alias (h : t.Live) (hscopes : t.scopes = [])
    (halias : t.alias? id = some target) (hoffers : t.Offers target) :
    ∃ j, t.linkTarget? id = some j ∧ (t.symbol j).flags.library := by
  obtain ⟨j, hj, hlibrary⟩ := hoffers
  refine ⟨j, ?_, hlibrary⟩
  obtain ⟨r, hr, halias'⟩ := Option.bind_eq_some_iff.1 halias
  obtain ⟨r', hr'⟩ := Symbol.exists_routine hj.2.1
  have hnone : r'.aliasOf = none := by simpa [alias?, hr'] using (h.aliases halias).2.2.2 hj.2.2
  obtain ⟨n, hn⟩ : ∃ n, t.symbols.size = n + 1 :=
    ⟨_, (Nat.succ_pred_eq_of_pos (Nat.zero_lt_of_lt hj.1)).symm⟩
  simp [linkTarget?, hr, halias', resolveAlias, hn, followAlias,
    h.resolve_closed hscopes hj, hr', hnone]

theorem Ready.undefined (h : t.Ready entry) (hl : t.Linkable calls defined)
    (hid : id ∈ t.used .routine)
    (hundefined : ∀ target ∈ t.linkTarget? id, ∀ r ∈ (t.symbol target).routine?,
      r.flags.library = false ∧ r.code = none) :
    (t.symbol id).name ∈ calls ∧
      (∀ name ∈ defined, name.toUpper ≠ (t.symbol id).name.toUpper) ∧
      ∀ p ∈ catalogue, p.name.toUpper ≠ (t.symbol id).name.toUpper := by
  have hlive := h.lowered.live
  obtain ⟨⟨key, j⟩, hentry, rfl⟩ := List.mem_map.1 (List.mem_filter.1 hid).1
  obtain ⟨hhas, hcls, -⟩ := hlive.sound.closedEntry hentry
  obtain ⟨r, hr⟩ := Symbol.exists_routine hcls
  have hlibrary {i : SymbolId} (hi : t.linkTarget? j = some i) :
      (t.symbol i).flags.library = false := by
    cases hr : (t.symbol i).routine? with
    | none => simp [Symbol.flags, hr]
    | some r => simpa [Symbol.flags, hr] using (hundefined i hi r hr).1
  cases halias : t.alias? j with
  | some target =>
    obtain ⟨i, hi, htrue⟩ := hlive.linkTarget?_alias h.scopes halias (hl.aliases halias)
    simp [hlibrary hi] at htrue
  | none =>
    have htarget : t.linkTarget? j = some j := by
      rw [linkTarget?, show (t.symbol j).routine?.bind (·.aliasOf) = none from halias]
      rfl
    obtain ⟨hfalse, hcode⟩ := hundefined j htarget r hr
    refine ⟨?_, fun name hname he => ?_, fun p hp he => ?_⟩
    · simpa [hfalse, hcode] using hl.accounted.routine r hr
    · obtain ⟨i, hi, r', hr', hsome⟩ := hl.accounted.defined name hname
      obtain rfl := hlive.isRoutine_unique hi ⟨hhas, hcls, he.symm⟩
      obtain rfl := Option.mem_unique hr hr'
      simp [hcode] at hsome
    · obtain ⟨i, hi, htrue⟩ := hl.library p hp
      obtain rfl := hlive.isRoutine_unique hi ⟨hhas, hcls, he.symm⟩
      simp [hlibrary htarget] at htrue

end Table

theorem compile_eq_error {source : String} {e : Error} (h : compile source = .error e) :
    (∃ w, lower (.ofText source) {} = .error e w) ∨
      ∃ w w', lower (.ofText source) {} = .ok () w ∧ link w = .error e w' := by
  simp only [compile, compileWithLog, Report.ofWork] at h
  split at h
  · simp at h
  · rename_i e' w' hrun
    obtain rfl := Except.error.inj h
    rcases bind_eq_error.1 hrun with hlower | ⟨_, w, hlower, hlink⟩
    · exact .inl ⟨w', hlower⟩
    · exact .inr ⟨w, w', hlower, hlink⟩

variable {text : String} {w : Workspace}

theorem isOfSource_of_lower {e : Error} (h : lower (.ofText text) {} = .error e w) :
    e.IsOfSource := by
  obtain ⟨entry, w₀, s, hsetup, hrun⟩ := Lowering.within_eq_error h
  obtain ⟨hok, hpaths⟩ := Lowering.ok_setup hsetup
  have hlower :=
    Source.Program.yields_lower (s := { toWorkspace := w₀, entry }) (Source.isSpelled_parse text)
    (Lowering.rooted_setup hsetup).1
  rcases bind_eq_error.1 hrun with hrun | ⟨_, s₁, hrun, hfinish⟩
  · exact hlower.of_error hrun
  · obtain ⟨hok₁, hpaths₁⟩ := Source.ok_lower_parse hok hpaths hrun
    exact (hok₁.yields_finish hpaths₁).of_error hfinish

theorem linkable_of_lower {u : Unit} (h : lower (.ofText text) {} = .ok u w) :
    w.table.Linkable (Source.parse (.ofText text)).calls (Source.parse (.ofText text)).defined := by
  obtain ⟨entry, w₀, s, hsetup, hrun, rfl⟩ := Lowering.within_eq_ok h
  obtain ⟨hok, hpaths⟩ := Lowering.ok_setup hsetup
  obtain ⟨hrooted, haccounted⟩ := Lowering.rooted_setup hsetup
  obtain ⟨_, s₁, hlower, hfinish⟩ := bind_eq_ok.1 hrun
  have hok₁ := (Source.ok_lower_parse hok hpaths hlower).1
  have hrooted₁ :=
    (Source.Program.yields_lower (Source.isSpelled_parse text) hrooted).of_ok hlower
  have haccounted₁ := Source.accounted_lower_parse hok hpaths hrooted haccounted hlower
  obtain ⟨-, -, -, r, hr, hgives⟩ := hok₁.finish hfinish
  refine ⟨?_, fun p hp => (hrooted₁.offers (hrooted₁.library p hp)).gives hgives,
    fun {id target} halias => ?_⟩
  · have hall : s.table.Accounted [] _ (_ ++ []) := haccounted₁.ends hgives rfl (by simp)
    rwa [List.append_nil] at hall
  · have halias₁ : s₁.table.alias? id = some target := by
      rw [Table.alias?, hgives.routine] at halias
      split at halias
      · subst_vars
        simpa [Table.alias?, Option.mem_def.1 hr] using halias
      · exact halias
    exact (hrooted₁.offers (hrooted₁.aliases halias₁).1).gives hgives

/-- No source makes the compiler report a step that it should never take. Linking fails when a
procedure is called that is neither defined, in whatever case its letters are, nor in the library;
and it names that procedure. -/
theorem compile_error_of_source {source : String} {e : Error} (h : compile source = .error e) :
    (∀ d, e ≠ .defect d) ∧ ∀ fault, e = .link fault →
      ∃ name, fault = .undefined name ∧
      e.message = "Linker Error: " ++ ("Undefined function: '" ++ name ++ "'.") ∧
      name ∈ (Source.parse (.ofText source)).calls ∧
      (∀ d ∈ (Source.parse (.ofText source)).defined, d.toUpper ≠ name.toUpper) ∧
      ∀ p ∈ catalogue, p.name.toUpper ≠ name.toUpper := by
  rcases compile_eq_error h with ⟨w, hlower⟩ | ⟨w, w', hlower, hlink⟩
  · have hsource := isOfSource_of_lower hlower
    constructor
    · rintro d rfl
      exact hsource
    · rintro fault rfl
      exact hsource.elim
  · obtain ⟨entry, hready⟩ := ready_of_lower hlower
    obtain ⟨id, hid, rfl, hundefined⟩ := link_eq_error hlink
    refine ⟨by simp, fun fault hfault => ⟨_, (Error.link.inj hfault).symm, rfl, ?_⟩⟩
    exact hready.undefined (linkable_of_lower hlower) hid hundefined

structure Failing (source : String) (p : Error → Prop) where
  error : Error
  fails : compile source = .error error
  holds : p error

def failure? (source : String) : Option Error :=
  match compile source with
  | .ok _ => none
  | .error e => some e

def Failing.of {source : String} {p : Error → Prop} (h : ∃ e ∈ failure? source, p e) :
    Failing source p :=
  match hc : compile source with
  | .ok listing => absurd h (by simp [failure?, hc])
  | .error e => ⟨e, hc, by simpa [failure?, hc] using h⟩

def undefinedSample : Failing "F 1 FO 2 G 3 TO F :X G :X END" (· = .link (.undefined "G")) :=
  .of (by decide +kernel)

theorem compile_error_of_source_undefined :
    ∃ e, compile "F 1 FO 2 G 3 TO F :X G :X END" = .error e ∧
    e = .link (.undefined "G") ∧ (∀ d, e ≠ .defect d) ∧ ∀ fault, e = .link fault →
      ∃ name, fault = .undefined name ∧
      e.message = "Linker Error: " ++ ("Undefined function: '" ++ name ++ "'.") ∧
      name ∈ (Source.parse (.ofText "F 1 FO 2 G 3 TO F :X G :X END")).calls ∧
      (∀ d ∈ (Source.parse (.ofText "F 1 FO 2 G 3 TO F :X G :X END")).defined, d.toUpper ≠
        name.toUpper) ∧
      ∀ p ∈ catalogue, p.name.toUpper ≠ name.toUpper :=
  ⟨undefinedSample.error, undefinedSample.fails, undefinedSample.holds,
    compile_error_of_source undefinedSample.fails⟩

end TurtleCompiler
