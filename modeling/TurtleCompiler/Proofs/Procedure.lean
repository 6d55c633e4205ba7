import TurtleCompiler.Compile
import TurtleCompiler.Proofs.Lowered

/-!
What holds of a lowering from its beginning to its end, through procedures and the statements
outside them.
-/

namespace TurtleCompiler

namespace Lowering

variable {s s' : Lowering} {ms ids pending : List SymbolId} {as : List Access} {scopes : List Scope}
  {name : String} {names : NameMap} {id : SymbolId} {params : List String} {line : Nat} {t : Table}
  {d : Definition} {u : Unit}

def mainMentions (s : Lowering) :
    List SymbolId := (accessesOfNodes s.mainBody).filterMap Access.mention?

structure Ok (s : Lowering) (ms : List SymbolId) : Prop where
  lowered : s.table.Lowered s.entry (s.mainMentions ++ ms)
  main : ∀ a ∈ accessesOfNodes s.mainBody, a.Fits s.table
  entry : (s.table.symbol s.entry).line.isSome ∧
    ∃ r ∈ (s.table.symbol s.entry).routine?, r.code = none ∧ r.aliasOf = none
  blank : ∀ {id}, ∀ r ∈ (s.table.symbol id).routine?, (s.table.symbol id).line = none →
    (s.table.symbol id).flags.library = false → r = {}
  owned : ∀ {id}, s.table.IsClosed id →
    ∃ frame ∈ frames s.table.scopes, ∃ entry ∈ frame.2.entries,
    frame.1 = "" ∧ (s.table.symbol id).scope.toUpper = "@" ++ entry.1 ∧
      ((s.table.symbol entry.2).line.isSome ∨ (s.table.symbol entry.2).flags.library)

theorem Ok.live (h : s.Ok ms) : s.table.Live := h.lowered.live

theorem Ok.adds (h : s.Ok ms) (ha : s.Adds as s') : s'.Ok (ms ++ as.filterMap Access.mention?) where
  lowered := by
    rw [ha.entry, mainMentions, ha.mainBody, ← List.append_assoc]
    exact h.lowered.extends ha.table
  main := by
    rw [ha.mainBody]
    exact fun a hm => (h.main a hm).extends ha.table
  entry := by
    obtain ⟨hline, r, hr, hentry⟩ := h.entry
    have hhas := Table.has_of_routine? hr
    rw [ha.entry]
    exact ⟨(ha.table.grows hhas).line hline, r, (ha.table.routine hhas).trans hr, hentry⟩
  blank {id} r hr hline hlibrary := by
    by_cases hid : s.table.Has id
    · rw [ha.table.routine hid] at hr
      refine h.blank r hr ?_ ?_
      · by_contra hsome
        have := (ha.table.grows hid).line (Option.isSome_iff_ne_none.2 hsome)
        simp [hline] at this
      · by_contra htrue
        have := (ha.table.grows hid).library (by simpa using htrue)
        simp [hlibrary] at this
    · exact (ha.table.blank hid r hr).1
  owned {id} hid := by
    obtain ⟨hclosed, hhas⟩ := ha.table.isClosed h.live.sound hid
    obtain ⟨frame, hframe, entry, hentry, hpath, hscope, howner⟩ := h.owned hclosed
    obtain ⟨frame', hframe', hpath', hentries⟩ := ha.table.entries hframe
    have howner' := ha.table.grows (h.live.sound.entry hframe hentry).1
    exact ⟨frame', hframe', entry, hentries.subset hentry,
      hpath'.trans hpath, by rw [(ha.table.grows hhas).scope, hscope],
      howner.imp howner'.line howner'.library⟩

theorem exists_outer (h : (frames scopes).map (·.1) = [""]) :
    ∃ names, scopes = [⟨"", names⟩] := by
  match scopes, h with
  | [⟨name, names⟩], h =>
    have hpath : scopePath [⟨name, names⟩] = "" := by simpa [frames] using h
    by_cases hname : name = ""
    · exact ⟨names, by rw [hname]⟩
    · simp [scopePath, hname] at hpath
  | _ :: _ :: _, h => simp [frames] at h

theorem scopePath_inner (hname : name ≠ "") (names names' : NameMap) :
    scopePath [⟨name, names⟩, ⟨"", names'⟩] = "@" ++ name := by
  simp [scopePath, hname]

theorem toUpper_at (name : String) : ("@" ++ name).toUpper = "@" ++ name.toUpper := by
  rw [toUpper_append, show "@".toUpper = "@" by decide +kernel]

theorem Ok.scope_ne (h : s.Ok ms) (hscopes : s.table.scopes = [⟨"", names⟩])
    (hfree : s.table.IsFree name) (hid : s.table.IsClosed id) :
    (s.table.symbol id).scope.toUpper ≠ ("@" ++ name).toUpper := by
  obtain ⟨frame, hframe, ⟨key, owner⟩, hentry, -, hscope, howner⟩ := h.owned hid
  have hkeys := h.live.sound.keys hframe
  rw [hscopes] at hframe
  obtain rfl : frame = (_, names) := by simpa [frames] using hframe
  intro he
  rw [hscope, toUpper_at] at he
  obtain rfl : key = name.toUpper := by simpa using he
  have hresolve : s.table.resolve name none none = some owner := by
    rw [Table.resolve_none, hscopes]
    simp [frames, NameMap.get?_of_mem hkeys hentry]
  simp [hfree owner hresolve] at howner

theorem Ok.openScope (h : s.Ok ms) (hscopes : s.table.scopes = [⟨"", names⟩])
    (hname : IsName name)
    (hfree : ∀ {id}, s.table.IsClosed id →
      (s.table.symbol id).scope.toUpper ≠ ("@" ++ name).toUpper) :
    (s.openScope name).Ok ms ∧
    (frames (s.openScope name).table.scopes).map (·.1) = ["@" ++ name, ""] := by
  have hpath : scopePath (⟨name, {}⟩ :: s.table.scopes) = "@" ++ name := by
    rw [hscopes]
    exact scopePath_inner hname.nonempty _ _
  have houter : scopePath [⟨"", names⟩] = "" := by simp [scopePath]
  have hpaths : (frames (s.table.push name).scopes).map (·.1) = ["@" ++ name, ""] := by
    rw [Table.push, frames, hpath, hscopes]
    simp [frames, houter]
  have hsound : (s.table.push name).Sound := by
    refine h.live.sound.push ?_ ?_ fun hid => ?_
    · rw [hpath]
      simpa [Dotless] using hname.dotless
    · rw [hpath, hscopes, toUpper_at]
      simp only [frames, houter, List.mem_singleton, forall_eq]
      intro he
      simpa [toList_toUpper] using congrArg String.toList he
    · rw [hpath]
      exact hfree hid
  have hlast :
      ∀ path ∈ ((frames (s.table.push name).scopes).map (·.1)).getLast?, path = "" := by
    rw [hpaths]
    simp
  refine ⟨⟨h.lowered.of_symbols rfl hsound hlast, h.main, h.entry, h.blank, fun hid => ?_⟩,
    hpaths⟩
  obtain ⟨frame, hframe, hrest⟩ := h.owned hid
  exact ⟨frame, List.mem_cons_of_mem _ hframe, hrest⟩

theorem Declares.adds (h : Declares line s params ids s') (ht : s.table.Live)
    (hparams : ∀ p ∈ params, Dotless p) :
    s.Adds [] s' ∧ (∀ id ∈ ids, s'.table.IsVar id) ∧
      (∀ j, (s'.table.symbol j).routine? = (s.table.symbol j).routine?) ∧
      ids.length = params.length := by
  induction h with
  | nil => exact ⟨.refl _, by simp, fun _ => rfl, rfl⟩
  | @cons s _ _ _ _ _ t hd _ ih =>
    simp only [List.forall_mem_cons] at hparams ⊢
    have hadds : s.Adds [] (s.setTable t) :=
      .setTable (Table.extends_declare hparams.1 rfl (.inl rfl) hd) (by simp)
    obtain ⟨hadds', hvars, hroutine, hlength⟩ := ih (hadds.live ht) hparams.2
    exact ⟨hadds.trans hadds', ⟨hadds'.table.isVar (ht.sound.isVar_declare hd), hvars⟩,
      fun j => (hroutine j).trans (Table.routine?_declare hd j), congrArg (· + 1) hlength⟩

theorem forM_countUse (hids : ∀ id ∈ ids, s.table.IsVar id) :
    (ids.forM fun id => (Table.countUse id : LowerM Unit)) s =
    .ok ⟨⟩ (s.setTable (s.table.useAll ids)) := by
  induction ids generalizing s with
  | nil => rfl
  | cons id ids ih =>
    simp only [List.forall_mem_cons] at hids
    change ((liftM (Table.countUse id) : LowerM Unit) >>= fun _ =>
      ids.forM fun id => (Table.countUse id : LowerM Unit)) s = _
    refine (bind_of_ok (ofTable_eq_ok.2 ⟨_, hids.1.countUse, rfl⟩) _).trans ?_
    exact ih fun id hid => (Table.extends_use_var hids.1).isVar (hids.2 id hid)

theorem Ok.defines (h : s.Ok ms) {r r' : Routine} {f : Symbol → Symbol}
    (hd : s.table.Defines id r f r') (hne : id ≠ s.entry)
    (hline : (s.table.symbol id).line.isSome)
    (hcode : ∀ d ∈ r'.code, d.symbol = id ∧
      ∀ e ∈ d.body, e.Fits s.table (s.table.symbol id) r') :
    (s.setTable (s.table.modifySymbol id f)).Ok ms where
  lowered := hd.lowered h.lowered hcode
  main a ha := (h.main a ha).upholds hd.upholds
  entry := by
    have hentry : (s.table.modifySymbol id f).symbol s.entry = s.table.symbol s.entry := by
      rw [Table.symbol_modifySymbol (Table.has_of_routine? hd.before), if_neg hne.symm]
    change ((s.table.modifySymbol id f).symbol s.entry).line.isSome ∧
      ∃ r ∈ ((s.table.modifySymbol id f).symbol s.entry).routine?, r.code = none ∧
      r.aliasOf = none
    rw [hentry]
    exact h.entry
  blank {j} r₁ hr₁ hnone hlibrary := by
    simp only [table_setTable] at hr₁ hnone hlibrary
    rw [Table.symbol_modifySymbol (Table.has_of_routine? hd.before)] at hr₁ hnone hlibrary
    split at hr₁
    · rename_i hj
      subst hj
      simp only [if_true] at hnone
      have := hd.grows.line hline
      simp [hnone] at this
    · rename_i hj
      simp only [hj, if_false] at hnone hlibrary
      exact h.blank r₁ hr₁ hnone hlibrary
  owned {j} hj := by
    obtain ⟨frame, hframe, entry, hentry, hpath, hscope, howner⟩ :=
      h.owned (hd.edits.isClosed.1 hj)
    refine ⟨frame, hframe, entry, hentry, hpath, ?_,
      howner.imp (hd.edits.symbol _).line (hd.edits.symbol _).library⟩
    rw [← hscope, ← (hd.edits.symbol j).scope]
    rfl

structure Opened (s : Lowering) (name : String) (id : SymbolId) : Prop where
  paths : (frames s.table.scopes).map (·.1) = ["@" ++ name, ""]
  routine : s.table.IsRoutine name id
  line : (s.table.symbol id).line.isSome
  ne : id ≠ s.entry
  code : ∃ r ∈ (s.table.symbol id).routine?, r.code = none ∧ r.aliasOf = none

theorem Opened.adds (h : s.Opened name id) (ha : s.Adds as s') : s'.Opened name id where
  paths := ha.table.paths.trans h.paths
  routine := ha.table.isRoutine h.routine
  line := (ha.table.grows h.routine.1).line h.line
  ne := ha.entry ▸ h.ne
  code := by
    rw [ha.table.routine h.routine.1]
    exact h.code

theorem Ok.declare_procedure (h : s.Ok []) (hpaths : s.table.AtTop) (hname : IsName name)
    (hfree : s.table.IsFree name)
    (hd : Table.declare .anywhere name .routine (some line) {} s.table = .ok id t) :
    s.Adds [] (s.setTable t) ∧ t.IsRoutine name id ∧ (t.symbol id).line.isSome ∧
      id ≠ s.entry ∧ s.table.Gives id {} t ∧
      ∀ r ∈ (s.table.symbol id).routine?, r = {} := by
  obtain ⟨names, hscopes⟩ := exists_outer hpaths
  have hpath : scopePath (s.table.scopes.drop (s.table.frame .anywhere)) = "" := by
    rw [hscopes]
    simp [Table.frame, scopePath]
  have hext : s.table.Extends [] t :=
    Table.extends_declare hname.dotless rfl (.inr ⟨rfl, fun _ => hpath⟩) hd
  obtain ⟨hhas, hcls, hupper, hline⟩ := h.live.sound.declare_has hd
  obtain ⟨r, hr⟩ := Symbol.exists_routine hcls
  have hold (hid : s.table.Has id) :
      (s.table.symbol id).line = none ∧ (s.table.symbol id).flags.library = false := by
    rcases Table.declare_eq_ok hd with ⟨hid', -⟩ | ⟨-, -, rfl, -⟩
    · exact hfree id hid'
    · exact absurd hid (Nat.lt_irrefl _)
  refine ⟨.setTable hext (by simp), ⟨hhas, hcls, hupper⟩, hline rfl, ?_, ?_⟩
  · rintro rfl
    obtain ⟨hentry, r, hr, -⟩ := h.entry
    simp [(hold (Table.has_of_routine? hr)).1] at hentry
  · have hblank (r : Routine) (hr : r ∈ (s.table.symbol id).routine?) : r = {} :=
      h.blank r hr (hold (Table.has_of_routine? hr)).1 (hold (Table.has_of_routine? hr)).2
    refine ⟨⟨hext.has, hext.grows, fun j => ?_⟩, hblank⟩
    split
    · subst_vars
      rw [hr]
      by_cases hid : s.table.Has j
      · rw [hext.routine hid] at hr
        rw [hblank r hr]
      · rw [(hext.blank hid r hr).1]
    · rename_i hj
      rcases Table.declare_eq_ok hd with ⟨hid, -, rfl⟩ | ⟨-, -, rfl, kind, -, rfl⟩
      · rw [Table.symbol_modifySymbol (h.live.sound.declared hid).1, if_neg hj]
      · rw [Table.symbol_insertAt, if_neg fun hindex => hj (congrArg SymbolId.mk hindex)]

theorem adds_useParams {s₃ : Lowering} (ht : s.table.Live) (hids : ∀ m ∈ ids, s.table.IsVar m)
    (h : 0 < (s.table.symbol id).usage ∧
      (ids.forM fun id => (Table.countUse id : LowerM Unit)) s = .ok ⟨⟩ s₃ ∨
      (s.table.symbol id).usage = 0 ∧ s₃ = s) :
    ∃ as, s.Adds as s₃ ∧
      (∀ m ∈ as.filterMap Access.mention?, m ∈ ids ∧ s₃.table.IsUsed id) ∧
      (s₃.table.IsUsed id → ∀ m ∈ ids, s₃.table.IsUsed m) ∧
      ∀ j, (s₃.table.symbol j).routine? = (s.table.symbol j).routine? := by
  rcases h with ⟨husage, h⟩ | ⟨husage, rfl⟩
  · cases h.symm.trans (forM_countUse hids)
    have hhas : ∀ m ∈ ids, s.table.Has m := fun m hm => (hids m hm).1
    have hused : ∀ m ∈ ids, (s.table.useAll ids).IsUsed m :=
      fun m hm => (Table.isUsed_useAll hhas).2 (.inr hm)
    have hmentions : (ids.map Access.read).filterMap Access.mention? = ids := by
      simp [List.filterMap_map, Function.comp_def, Access.mention?]
    refine ⟨ids.map .read, .setTable ?_ ?_, ?_, fun _ => hused, Table.routine?_useAll hhas⟩
    · rw [hmentions]
      refine Table.extends_useAll hhas (fun m hm => ?_) fun m hm _ => ⟨m, hm, .inl rfl⟩
      simp [(hids m hm).dependencies]
    · simp only [List.mem_map, forall_exists_index, and_imp, forall_apply_eq_imp_iff₂]
      exact fun m hm => ⟨(Table.isVar_useAll hhas).2 (hids m hm), hused m hm⟩
    · rw [hmentions]
      exact fun m hm => ⟨hm, (Table.isUsed_useAll hhas).2 (.inl husage)⟩
  · exact ⟨[], .refl _, by simp, fun hused => by simp [Table.IsUsed, husage] at hused,
      fun _ => rfl⟩

theorem Ok.settle_params (h : s.Ok pending) (hdeps : s.table.dependencies id = ids)
    (hid : (s.table.symbol id).cls = .routine) (hne : id ≠ s.entry)
    (halias : s.table.alias? id = none)
    (hpending : ∀ m ∈ pending, m ∈ ids ∧ s.table.IsUsed id) : s.Ok [] where
  lowered :=
    { h.lowered with
      needed := fun {j} hj hj' => by
        have hvar {m : SymbolId} (hm : m ∈ ids) :
            s.table.IsVar m := h.live.isVar (hdeps.symm ▸ hm)
        have hroutine {m : SymbolId} (hm : id ∈ s.table.dependencies m) : False := by
          simpa [hid] using (h.live.isVar hm).2
        rcases h.lowered.needed hj hj' with rfl | ⟨m, hm, hj⟩ | hcode
        · exact .inl rfl
        · rcases List.mem_append.1 hm with hm | hm
          · exact .inr (.inl ⟨m, by simpa using hm, hj⟩)
          · obtain ⟨hmem, hused⟩ := hpending m hm
            obtain rfl : j = m :=
              hj.resolve_right fun hj => by simp [(hvar hmem).dependencies] at hj
            have hdep : j ∈ s.table.dependencies id := hdeps.symm ▸ hmem
            rcases h.lowered.needed hused
              halias with hentry | ⟨m, hm', hid'⟩ | ⟨d, hd, m, hm', hid'⟩
            · exact absurd hentry hne
            · obtain rfl := hid'.resolve_right hroutine
              rcases List.mem_append.1 hm' with hm' | hm'
              · exact .inr (.inl ⟨id, by simpa using hm', .inr hdep⟩)
              · simpa [hid] using (hvar (hpending id hm').1).2
            · obtain rfl := hid'.resolve_right hroutine
              exact .inr (.inr ⟨d, hd, id, hm', .inr hdep⟩)
        · exact .inr (.inr hcode) }
  main := h.main
  entry := h.entry
  blank := h.blank
  owned := h.owned

theorem Ok.setParams {j : SymbolId} (h : s.Ok pending) (ho : s.Opened name id)
    (hblank : (s.table.symbol id).routine? = some {}) (hvars : ∀ m ∈ ids, s.table.IsVar m)
    (hused : s.table.IsUsed id → ∀ m ∈ ids, s.table.IsUsed m)
    (hpending : ∀ m ∈ pending, m ∈ ids ∧ s.table.IsUsed id)
    (hd : Table.declare .anywhere name .routine none { params := some ids } s.table = .ok j t) :
    (s.setTable t).Ok [] ∧ (s.setTable t).Opened name id ∧
    s.table.Gives id { params := ids } t := by
  obtain rfl := h.live.declare_routine ho.routine (by simp [ho.paths]) hd
  have hdefines :
      s.table.Defines id {} (fun _ => ((s.table.symbol id).merge none { params := some ids }).2)
      { params := ids } := by
    refine ⟨Symbol.grows_merge none rfl _, Symbol.usage_merge none rfl _, hblank, ?_, rfl, rfl,
      ⟨rfl, rfl⟩, ?_, ?_⟩
    · exact Symbol.routine?_merge_some rfl hblank
    · simp
    · simpa using fun m hm => ⟨hvars m hm, fun hid => hused hid m hm⟩
  have hroutine : (s.table.modifySymbol id _).IsRoutine name id :=
    ⟨hdefines.edits.has.2 ho.routine.1, (hdefines.edits.symbol id).cls.trans ho.routine.2.1,
      by rw [(hdefines.edits.symbol id).name, ho.routine.2.2]⟩
  have hdeps : (s.table.modifySymbol id _).dependencies id = ids :=
    (hdefines.dependencies id).trans (by simp)
  refine ⟨(h.defines hdefines ho.ne ho.line (by simp)).settle_params hdeps hroutine.2.1 ho.ne ?_
    fun m hm => ?_,
    ⟨ho.paths, hroutine, (hdefines.edits.symbol id).line ho.line, ho.ne, { params := ids }, ?_,
      rfl, rfl⟩, hdefines.gives⟩
  · exact (hdefines.alias? id).trans (by simp [Table.alias?, hblank])
  · exact ⟨(hpending m hm).1, (hdefines.isUsed id).2 (hpending m hm).2⟩
  · exact (hdefines.routine? id).trans (if_pos rfl)

theorem Ok.open_declared (h : s.Ok []) (hpaths : s.table.AtTop) (hname : IsName name)
    (hfree : s.table.IsFree name) (hadds : s.Adds [] (s.setTable t)) :
    ((s.setTable t).openScope name).Ok [] ∧
      (frames ((s.setTable t).openScope name).table.scopes).map (·.1) = ["@" ++ name, ""] := by
  obtain ⟨names, hscopes⟩ := exists_outer hpaths
  obtain ⟨names', hscopes'⟩ := exists_outer (hadds.table.paths.trans hpaths)
  have hclosed {i : SymbolId} (hi : t.IsClosed i) :
      (t.symbol i).scope.toUpper ≠ ("@" ++ name).toUpper := by
    obtain ⟨hi, hhas⟩ := hadds.table.isClosed h.live.sound hi
    have hscope := (hadds.table.grows hhas).scope
    rw [table_setTable] at hscope
    rw [hscope]
    exact h.scope_ne hscopes hfree hi
  have hok : (s.setTable t).Ok [] := h.adds hadds
  exact hok.openScope hscopes' hname hclosed

theorem Ok.beginProcedure (h : s.Ok []) (hpaths : s.table.AtTop) (hname : IsName name)
    (hparams : ∀ p ∈ params, IsName p) (hb : beginProcedure name line params s = .ok id s') :
    s'.Ok [] ∧ s'.Opened name id ∧ s'.mainBody = s.mainBody ∧ s'.entry = s.entry ∧
      s.table.Precedes s'.table ∧
      ∃ ids, ids.length = params.length ∧ s.table.Gives id { params := ids } s'.table ∧
        ∀ r ∈ (s.table.symbol id).routine?, r = {} := by
  obtain ⟨hfree, hopen⟩ := beginProcedure_eq_ok hb
  obtain ⟨t₁, ids, s₂, s₃, j, t₄, hd, hdeclares, huse, hd', rfl⟩ :=
    openProcedure_eq_ok hopen
  obtain ⟨hadds₁, hroutine, hline, hne, hgives, hnew⟩ :=
    h.declare_procedure hpaths hname hfree hd
  have hblank : (t₁.symbol id).routine? = some {} := (hgives.routine id).trans (if_pos rfl)
  obtain ⟨hok₂, hpaths₂⟩ := h.open_declared hpaths hname hfree hadds₁
  obtain ⟨hadds₃, hvars, hsame₃, hlength⟩ :=
    hdeclares.adds hok₂.live fun p hp => (hparams p hp).dotless
  have hopened : s₂.Opened name id :=
    (⟨hpaths₂, hroutine, hline, hne, {}, hblank, rfl, rfl⟩ :
      Opened ((s.setTable t₁).openScope name) name id).adds hadds₃
  have hblank₂ : (s₂.table.symbol id).routine? = some {} :=
    (hadds₃.table.routine hroutine.1).trans hblank
  have hok₃ := hok₂.adds hadds₃
  obtain ⟨as, hadds₄, hpending, hused, hsame₄⟩ := adds_useParams hok₃.live hvars huse
  have hok₄ := hok₃.adds hadds₄
  have hopened₄ := hopened.adds hadds₄
  have hblank₄ : (s₃.table.symbol id).routine? = some {} :=
    (hadds₄.table.routine hopened.routine.1).trans hblank₂
  obtain ⟨hok₅, hopened₅, hgives₅⟩ := hok₄.setParams hopened₄ hblank₄
    (fun m hm => hadds₄.table.isVar (hvars m hm)) hused hpending hd'
  have hgives₂ : s.table.Gives id {} ((s.setTable t₁).openScope name).table :=
    hgives.of_symbols rfl
  have hgives₄ := (hgives₂.extends hadds₃.table hsame₃).extends hadds₄.table hsame₄
  have hopens : t₁.Precedes ((s.setTable t₁).openScope name).table :=
    .of_frames (fun _ hf _ => List.mem_cons_of_mem _ hf) rfl
  have hprecedes : s.table.Precedes s₃.table :=
    ((hadds₁.table.precedes.trans hopens).trans hadds₃.table.precedes).trans
    hadds₄.table.precedes
  refine ⟨⟨hok₅.lowered, hok₅.main, hok₅.entry, hok₅.blank, hok₅.owned⟩,
    ⟨hopened₅.paths, hopened₅.routine, hopened₅.line, hopened₅.ne, hopened₅.code⟩, ?_,
    ?_, ?_, ids, hlength, hgives₄.trans hgives₅, hnew⟩
  · exact hadds₄.mainBody.trans hadds₃.mainBody
  · exact hadds₄.entry.trans hadds₃.entry
  · obtain rfl := hok₄.live.declare_routine hopened₄.routine (by simp [hopened₄.paths]) hd'
    exact hprecedes.trans (Table.precedes_modifySymbol ..)

theorem Ok.settle (h : s.Ok d.mentions) (hd : s.table.Code d) : s.Ok [] :=
  { h with
    lowered := by
      rw [List.append_nil]
      exact h.lowered.settle hd }

theorem Ok.closeScope (h : s.Ok ms) (hid : s.table.IsRoutine name id)
    (hline : (s.table.symbol id).line.isSome)
    (hpaths : (frames s.table.scopes).map (·.1) = ["@" ++ name, ""]) {scope : Scope}
    (hscopes : s.table.scopes = scope :: scopes) :
    (s.closeScope scope scopes).Ok ms ∧ (s.closeScope scope scopes).table.AtTop ∧
      s.table.Precedes (s.closeScope scope scopes).table := by
  obtain ⟨-, hclosed⟩ := h.live.sound.filed_pop hscopes
  have hsound := h.live.sound.pop hscopes
  obtain ⟨frame, hframe, hpath, hentry⟩ := h.live.mem_outer hid (by simp [hpaths])
  have hinner : scopePath (scope :: scopes) = "@" ++ name ∧
      (frames scopes).map (·.1) = [""] := by
    simpa [hscopes, frames] using hpaths
  have hmem {frame : String × NameMap} (hf : frame ∈ frames s.table.scopes)
      (hpath : frame.1 = "") : frame ∈ frames scopes := by
    rw [hscopes, frames] at hf
    refine (List.mem_cons.1 hf).resolve_left ?_
    rintro rfl
    simpa using congrArg String.toList (hinner.1.symm.trans hpath)
  have hpaths' : (s.closeScope scope scopes).table.AtTop := by
    rw [Table.AtTop, scopes_closeScope]
    exact hinner.2
  have hsymbols := symbols_closeScope s scope scopes
  have hsymbol := Table.symbol_eq_of_symbols hsymbols
  refine ⟨⟨h.lowered.of_symbols hsymbols hsound (by simp only [hpaths']; simp), ?_, ?_, ?_,
    fun {j} hj => ?_⟩, hpaths', .of_frames (fun frame hf hpath => ?_) ?_⟩
  · exact fun a ha => (h.main a ha).upholds (Table.upholds_of_symbols hsymbols)
  · exact hsymbol ▸ h.entry
  · exact hsymbol ▸ h.blank
  · rw [hsymbol, scopes_closeScope]
    rcases hclosed.1 hj with hj | hj
    · obtain ⟨frame, hframe, entry, hentry, hpath, howner⟩ := h.owned hj
      exact ⟨frame, hmem hframe hpath, entry, hentry, hpath, howner⟩
    · refine ⟨frame, hmem hframe hpath, _, hentry, hpath, ?_, .inl hline⟩
      rw [(h.live.sound.entry_innermost hscopes hj).2, hinner.1, toUpper_at]
  · rw [scopes_closeScope]
    exact hmem hf hpath
  · -- all routines are in the outermost scope
    refine Table.routines_foldl_close fun j hj => ?_
    change (s.table.symbol j).cls = .var
    cases hcls : (s.table.symbol j).cls with
    | var => rfl
    | routine =>
      obtain ⟨r, hr⟩ := Symbol.exists_routine hcls
      have hscope := (h.live.sound.entry_innermost hscopes hj).2
      rw [h.live.top r hr, hinner.1] at hscope
      simpa using congrArg String.toList hscope

theorem accesses_ofNodes (id : SymbolId) (nodes : List Node) :
    (Definition.ofNodes id nodes).accesses = accessesOfNodes nodes := by
  simp only [Definition.accesses, Definition.ofNodes]
  induction nodes with
  | nil => rfl
  | cons n nodes ih => simp [Entry.accesses, ih]

theorem fits_ofNodes {nodes : List Node} (h : ∀ a ∈ accessesOfNodes nodes, a.Fits t)
    (id : SymbolId) (s : Symbol) (r : Routine) :
    ∀ e ∈ (Definition.ofNodes id nodes).body, e.Fits t s r := by
  simp only [Definition.ofNodes, List.mem_map, forall_exists_index, and_imp,
    forall_apply_eq_imp_iff₂]
  induction nodes with
  | nil => simp
  | cons n nodes ih =>
    simp only [accessesOfNodes, List.forall_mem_append] at h
    simp only [List.forall_mem_cons]
    exact ⟨h.1, ih h.2⟩

theorem defines_setCode {t' : Table} {r : Routine} (ht : t.Live) (hr : r ∈ (t.symbol id).routine?)
    (hcode : r.code = none) (halias : r.aliasOf = none) (h : Table.setCode id d t = .ok ⟨⟩ t') :
    t.Defines id r (·.setCode d) { r with code := some d } ∧
    t' = t.modifySymbol id (·.setCode d) := by
  obtain ⟨-, rfl⟩ := Table.setCode_eq_ok h
  refine ⟨⟨Symbol.grows_setCode d _, Symbol.usage_modifyRoutine _ _, hr, ?_, hcode, rfl,
    ⟨halias, halias⟩, List.Subset.refl _, fun m hm => ?_⟩, rfl⟩
  · simp [Symbol.setCode, Symbol.routine?_modifyRoutine, Option.mem_def.1 hr]
  · have hm' : m ∈ t.dependencies id := Table.dependencies_eq hr ▸ hm
    exact ⟨ht.isVar hm', fun hid => ht.isUsed hid hm'⟩

theorem Ok.endProcedure {body : List Node}
    (h : s.Ok ((accessesOfNodes body).filterMap Access.mention?))
    (ho : s.Opened name id) (hfits : ∀ a ∈ accessesOfNodes body, a.Fits s.table)
    (he : endProcedure id body s = .ok u s') :
    s'.Ok [] ∧ s'.table.AtTop ∧ s.table.Precedes s'.table ∧
      ∃ r ∈ (s.table.symbol id).routine?,
      s.table.Gives id { r with code := some (.ofNodes id body) } s'.table := by
  obtain ⟨t, scope, scopes, hset, hscopes, rfl⟩ := endProcedure_eq_ok he
  obtain ⟨r, hr, hcode, halias⟩ := ho.code
  obtain ⟨hdefines, rfl⟩ := defines_setCode h.live hr hcode halias hset
  have hok := h.defines hdefines ho.ne ho.line fun d hd => by
    obtain rfl : Definition.ofNodes id body = d := by simpa using hd
    exact ⟨rfl, fits_ofNodes hfits id _ _⟩
  rw [← accesses_ofNodes id body] at hok
  have hcode : (s.table.modifySymbol id _).Code (.ofNodes id body) :=
    ⟨id, _, (hdefines.routine? id).trans (if_pos rfl), rfl⟩
  have hroutine : (s.table.modifySymbol id _).IsRoutine name id :=
    ⟨hdefines.edits.has.2 ho.routine.1, (hdefines.edits.symbol id).cls.trans ho.routine.2.1,
      by rw [(hdefines.edits.symbol id).name, ho.routine.2.2]⟩
  obtain ⟨hok', hpaths, hprecedes⟩ :=
    (hok.settle hcode).closeScope hroutine ((hdefines.edits.symbol id).line ho.line)
    ho.paths hscopes
  exact ⟨⟨hok'.lowered, hok'.main, hok'.entry, hok'.blank, hok'.owned⟩, hpaths,
    (Table.precedes_modifySymbol ..).trans hprecedes, r, hr,
    hdefines.gives.of_symbols (symbols_closeScope ..)⟩

theorem Ok.addTopLevel {n : Node} (h : s.Ok (n.accesses.filterMap Access.mention?))
    (hfits : ∀ a ∈ n.accesses, a.Fits s.table) (ha : addTopLevel n s = .ok u s') :
    s'.Ok [] ∧ s'.table = s.table := by
  obtain rfl := modify_eq_ok.1 ha
  have hbody : accessesOfNodes (s.mainBody ++ [n]) = accessesOfNodes s.mainBody ++ n.accesses := by
    simp [accessesOfNodes_append]
  refine ⟨⟨?_, ?_, h.entry, h.blank, h.owned⟩, rfl⟩
  · rw [mainMentions, hbody, List.filterMap_append, List.append_nil]
    exact h.lowered
  · rw [hbody]
    exact fun a ha => (List.mem_append.1 ha).elim (h.main a) (hfits a)

theorem Ok.finish (h : s.Ok []) (hf : finish s = .ok u s') :
    s'.table.Lowered s.entry [] ∧ ¬ s'.table.IsVar s.entry ∧ s'.table.scopes = [] ∧
      ∃ r ∈ (s.table.symbol s.entry).routine?,
        s.table.Gives s.entry { r with code := some (.ofNodes s.entry s.mainBody) } s'.table := by
  obtain ⟨hdepth, t, scope, scopes, hset, hscopes, rfl⟩ := finish_eq_ok hf
  obtain ⟨-, r, hr, hcode, halias⟩ := h.entry
  obtain ⟨hdefines, rfl⟩ := defines_setCode h.live hr hcode halias hset
  obtain rfl : scopes = [] := by
    have hlength : s.table.scopes = scope :: scopes := hscopes
    simpa [hlength] using hdepth
  have hlowered := hdefines.lowered h.lowered fun d hd => by
    obtain rfl : Definition.ofNodes s.entry s.mainBody = d := by simpa using hd
    exact ⟨rfl, fits_ofNodes h.main s.entry _ _⟩
  rw [List.append_nil, mainMentions, ← accesses_ofNodes s.entry,
    ← List.nil_append (List.filterMap _ _)] at hlowered
  have hlowered' :=
    hlowered.settle ⟨s.entry, _, (hdefines.routine? s.entry).trans (if_pos rfl), rfl⟩
  have hentry : (s.table.symbol s.entry).cls ≠ .var := fun hvar => by
    simp [Table.IsVar.routine? ⟨Table.has_of_routine? hr, hvar⟩] at hr
  refine ⟨hlowered'.of_symbols (symbols_closeScope ..) (hlowered'.live.sound.pop hscopes) ?_,
    fun hvar => hentry ?_, scopes_closeScope .., r, hr,
    hdefines.gives.of_symbols (symbols_closeScope ..)⟩
  · simp [frames]
  · rw [← (hdefines.edits.symbol s.entry).cls, ← hvar.2,
      Table.symbol_eq_of_symbols (symbols_closeScope ..)]
    rfl

end Lowering

namespace Source

variable {s s' : Lowering} {items : List Item} {faults : List (Option Error)}
  {R : List Item → Lowering → Prop} {p : Program} {u : Unit}

theorem Item.lower_complete {i : Item} (h : i.lower s = .ok none s') : i.isComplete := by
  cases i with
  | statement | definition => rfl
  | broken done fault =>
    simp only [Item.lower, bind_eq_ok] at h
    obtain ⟨_, s₁, -, h⟩ := h
    cases fault with
    | lexical e notes => simp [bind_eq_ok] at h
    | grammatical fault site =>
      simp only [bind_eq_ok, pure_eq_ok] at h
      obtain ⟨_, _, -, _, _, -, h, -⟩ := h
      simp at h

structure Item.Stages (header : Header) (body : List Stmt) (site : Site) (s b e s' : Lowering)
    (id : SymbolId) (ids : List SymbolId) (nodes : List Node) (r : Routine) : Prop where
  begins : Lowering.beginProcedure header.name header.site.line header.params
    (s.noted header.site.notes) = .ok id b
  ok : b.Ok []
  opened : b.Opened header.name id
  mainBody : b.mainBody = s.mainBody
  entry : b.entry = s.entry
  precedes : s.table.Precedes b.table
  length : ids.length = header.params.length
  gives : s.table.Gives id { params := ids } b.table
  blank : ∀ r ∈ (s.table.symbol id).routine?, r = {}
  becomes : AllBecome body b nodes e
  adds : b.Adds (accessesOfNodes nodes) e
  ends : Lowering.endProcedure id nodes (e.noted site.notes) = .ok ⟨⟩ s'
  ok' : s'.Ok []
  paths' : (frames s'.table.scopes).map (·.1) = [""]
  rest : s'.mainBody = e.mainBody ∧ s'.entry = e.entry ∧ s'.labels = e.labels ∧
    s'.openRoutine = none
  precedes' : e.table.Precedes s'.table
  routine : r ∈ (e.table.symbol id).routine?
  code : r.code = none
  gives' : e.table.Gives id { r with code := some (.ofNodes id nodes) } s'.table

theorem Item.stages {header : Header} {body : List Stmt} {site : Site}
    (hnames : ∀ x ∈ (Item.definition header body site).names, IsName x) (hs : s.Ok [])
    (hpaths : s.table.AtTop) (h : (Item.definition header body site).Becomes s s') :
    ∃ b e id ids nodes r, Item.Stages header body site s b e s' id ids nodes r := by
  obtain - | ⟨hbegin, hbody, hend⟩ := h
  simp only [Item.names, List.forall_mem_cons, List.forall_mem_append] at hnames
  obtain ⟨hok, hopened, hmain, hentry, hprecedes, ids, hlength, hgives, hblank⟩ :=
    (hs.adds ((Lowering.Adds.refl s).noted _)).beginProcedure hpaths hnames.1 hnames.2.1 hbegin
  have hadds := hbody.adds hnames.2.2 hok.live
  have hopened' := hopened.adds (hadds.noted site.notes)
  obtain ⟨hok', hpaths', hprecedes', r, hr, hgives'⟩ :=
    (hok.adds (hadds.noted site.notes)).endProcedure hopened' hadds.fits hend
  obtain ⟨r', hr', hcode, -⟩ := hopened'.code
  obtain rfl := Option.mem_unique hr hr'
  obtain ⟨t, scope, scopes, -, -, rfl⟩ := Lowering.endProcedure_eq_ok hend
  exact ⟨_, _, _, ids, _, r, hbegin, hok, hopened, hmain, hentry, hprecedes, hlength, hgives,
    hblank, hbody, hadds, hend, hok', hpaths', ⟨rfl, rfl, rfl, rfl⟩, hprecedes', hr,
    hcode, hgives'⟩

theorem Item.Becomes.ok {i : Item} (h : i.Becomes s s') (hnames : ∀ x ∈ i.names, IsName x)
    (hs : s.Ok []) (hpaths : s.table.AtTop) : s'.Ok [] ∧ s'.table.AtTop := by
  cases i with
  | statement st =>
    obtain ⟨hn⟩ := h
    have hadds := hn.adds hnames hs.live
    obtain ⟨hok, htable⟩ := (hs.adds hadds).addTopLevel (u := ⟨⟩) hadds.fits rfl
    exact ⟨hok, htable ▸ hadds.table.paths.trans hpaths⟩
  | definition header body site =>
    obtain ⟨b, e, id, ids, nodes, r, hstages⟩ := Item.stages hnames hs hpaths h
    exact ⟨hstages.ok', hstages.paths'⟩
  | broken => cases h

theorem complete_of_lower (h : items.mapM Item.lower s = .ok faults s')
    (hnone : ∀ f ∈ faults, f = none) : ∀ i ∈ items, i.isComplete := by
  induction items generalizing s faults with
  | nil => simp
  | cons i items ih =>
    obtain ⟨fault, s₁, hi, faults, hitems, rfl⟩ := mapM_cons_eq_ok.1 h
    simp only [List.forall_mem_cons] at hnone ⊢
    obtain ⟨rfl, hnone⟩ := hnone
    exact ⟨i.lower_complete hi, ih hitems hnone⟩

section

variable (hs : s.Ok []) (hpaths : s.table.AtTop) (hcomplete : ∀ i ∈ items, i.isComplete)
  (hnames : ∀ i ∈ items, ∀ x ∈ i.names, IsName x)

include hs hpaths hcomplete hnames

theorem items_induction {d : List Item} (hR : R d s)
    (hstep : ∀ {d i s s'}, i ∈ items → (∀ x ∈ i.names, IsName x) → s.Ok [] →
      s.table.AtTop → R d s → i.lower s = .ok none s' → i.Becomes s s' → R (d ++ [i]) s')
    (h : items.mapM Item.lower s = .ok faults s') :
    (s'.Ok [] ∧ s'.table.AtTop) ∧ R (d ++ items) s' := by
  induction items generalizing s d faults with
  | nil =>
    obtain ⟨-, rfl⟩ := pure_eq_ok.1 h
    exact ⟨⟨hs, hpaths⟩, by simpa using hR⟩
  | cons i items ih =>
    obtain ⟨fault, s₁, hi, faults, hitems, rfl⟩ := mapM_cons_eq_ok.1 h
    simp only [List.forall_mem_cons] at hcomplete hnames
    obtain ⟨hbecomes, rfl⟩ := Item.becomes hcomplete.1 hi
    obtain ⟨hs₁, hpaths₁⟩ := hbecomes.ok hnames.1 hs hpaths
    have hR₁ := hstep List.mem_cons_self hnames.1 hs hpaths hR hi hbecomes
    simpa using ih hs₁ hpaths₁ hcomplete.2 hnames.2 hR₁
      (fun hmem => hstep (List.mem_cons_of_mem _ hmem)) hitems

theorem ok_lower_items (h : items.mapM Item.lower s = .ok faults s') :
    s'.Ok [] ∧ s'.table.AtTop :=
  (items_induction (R := fun _ _ => True) (d := []) hs hpaths hcomplete hnames trivial
    (fun _ _ _ _ _ _ _ => trivial) h).1

end

theorem Program.lower_eq_ok (h : p.lower s = .ok u s') :
    ∃ faults s₁, p.items.mapM Item.lower s = .ok faults s₁ ∧
      (∀ f ∈ faults, f = none) ∧ Lowering.enter p.site.notes s₁ = .ok ⟨⟩ s' := by
  simp only [Program.lower, bind_eq_ok] at h
  obtain ⟨faults, s₁, hitems, _, s₂, henter, h⟩ := h
  split at h
  · simp [bind_eq_ok] at h
  · cases hfault : faults.findSome? id with
    | some e => simp [hfault] at h
    | none =>
      simp only [hfault, pure_eq_ok] at h
      obtain ⟨-, rfl⟩ := h
      exact ⟨faults, s₁, hitems, by simpa using hfault, henter⟩

theorem Program.induction
    (hnames : (∀ i ∈ p.items, i.isComplete) → ∀ i ∈ p.items, ∀ x ∈ i.names, IsName x)
    (hs : s.Ok []) (hpaths : s.table.AtTop) (hR : R [] s)
    (hstep : ∀ {d i s s'}, i ∈ p.items → (∀ x ∈ i.names, IsName x) → s.Ok [] →
      s.table.AtTop → R d s → i.lower s = .ok none s' → i.Becomes s s' → R (d ++ [i]) s')
    (hnoted : ∀ {d s} notes, R d s → R d (s.noted notes)) (h : p.lower s = .ok u s') :
    (s'.Ok [] ∧ s'.table.AtTop) ∧ R p.items s' := by
  obtain ⟨faults, s₁, hitems, hnone, henter⟩ := Program.lower_eq_ok h
  obtain rfl := Lowering.enter_eq_ok.1 henter
  have hcomplete := complete_of_lower hitems hnone
  obtain ⟨⟨hs₁, hpaths₁⟩, hR₁⟩ :=
    items_induction hs hpaths hcomplete (hnames hcomplete) hR hstep hitems
  exact ⟨⟨hs₁.adds ((Lowering.Adds.refl s₁).noted _), hpaths₁⟩, hnoted _ hR₁⟩

theorem Program.ok_lower (hs : s.Ok []) (hpaths : s.table.AtTop)
    (hnames : (∀ i ∈ p.items, i.isComplete) → ∀ i ∈ p.items, ∀ x ∈ i.names, IsName x)
    (h : p.lower s = .ok u s') : s'.Ok [] ∧ s'.table.AtTop :=
  (Program.induction (R := fun _ _ => True) hnames hs hpaths trivial (fun _ _ _ _ _ _ _ => trivial)
    (fun _ _ => trivial) h).1

theorem ok_lower_parse {text : String} (hs : s.Ok []) (hpaths : s.table.AtTop)
    (h : (parse (.ofText text)).lower s = .ok u s') : s'.Ok [] ∧ s'.table.AtTop :=
  Program.ok_lower hs hpaths isName_of_parse h

end Source

end TurtleCompiler
