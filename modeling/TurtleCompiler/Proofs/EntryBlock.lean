import TurtleCompiler.Proofs.DataSection
import TurtleCompiler.Proofs.Globals

/-!
The block that a listing begins with is that of the entry.
-/

namespace TurtleCompiler

variable {r : Routine}

theorem Symbol.var?_of_routine? {s : Symbol} (hr : r ∈ s.routine?) : s.var? = none := by
  unfold routine? at hr
  unfold var?
  split at hr
  · simp at hr
  · rfl

theorem Symbol.type?_of_routine? {s : Symbol} (h : s.routine? = some r) : s.type? = r.type := by
  obtain ⟨name, line, usage, scope, fullName, v | r'⟩ := s
  · simp [Symbol.routine?] at h
  · obtain rfl : r' = r := by simpa [Symbol.routine?] using h
    rfl

variable {id : SymbolId}

theorem NameMap.head?_ids {m m' : NameMap} (h : m.ids.head? = some id)
    (hm : m.entries <+: m'.entries) : m'.ids.head? = some id := by
  obtain ⟨rest, hrest⟩ := hm
  rw [NameMap.ids, List.head?_map] at h ⊢
  rw [← hrest, List.head?_append]
  cases hfirst : m.entries.head? with
  | none => simp [hfirst] at h
  | some e => simpa [hfirst] using h

namespace Table

variable {t t' : Table} {entry id : SymbolId} {ms : List SymbolId} {f : Symbol → Symbol}

structure StartsAt (t : Table) (entry : SymbolId) : Prop where
  name : (t.symbol entry).name = entryName
  isUsed : t.IsUsed entry
  routine : ∃ r ∈ (t.symbol entry).routine?, r.flags = {} ∧ r.params = []
  first : ∃ frame ∈ frames t.scopes, frame.1 = "" ∧ frame.2.ids.head? = some entry
  routines : t.routines.entries = []

instance : Decidable (t.StartsAt entry) :=
  decidable_of_iff
    ((t.symbol entry).name = entryName ∧ t.IsUsed entry ∧
      (∃ r ∈ (t.symbol entry).routine?, r.flags = {} ∧ r.params = []) ∧
      (∃ frame ∈ frames t.scopes, frame.1 = "" ∧ frame.2.ids.head? = some entry) ∧
      t.routines.entries = [])
    ⟨fun ⟨hname, hused, hroutine, hfirst, hroutines⟩ =>
      ⟨hname, hused, hroutine, hfirst, hroutines⟩,
      fun h => ⟨h.name, h.isUsed, h.routine, h.first, h.routines⟩⟩

theorem StartsAt.extends (h : t.StartsAt entry) (he : t.Extends ms t') : t'.StartsAt entry where
  name := by rw [(he.grows h.isUsed.has).name, h.name]
  isUsed := he.isUsed h.isUsed
  routine := by
    rw [he.routine h.isUsed.has]
    exact h.routine
  first := by
    obtain ⟨frame, hframe, hpath, hhead⟩ := h.first
    obtain ⟨frame', hframe', hpath', hentries⟩ := he.entries hframe
    exact ⟨frame', hframe', hpath'.trans hpath, NameMap.head?_ids hhead hentries⟩
  routines := by
    have hbyClass : t'.routines = t.routines := congrFun he.byClass .routine
    rw [hbyClass, h.routines]

theorem Filed.prefix_foldl_close (h : t.Filed) {ids : List SymbolId}
    (hids : ∀ id ∈ ids, t.Has id) (cls : SymbolClass) :
    (t.byClass cls).entries <+: ((ids.foldl Table.close t).byClass cls).entries := by
  induction ids generalizing t with
  | nil => exact List.prefix_rfl
  | cons id ids ih =>
    rw [List.forall_mem_cons] at hids
    have hrest := ih (h.close hids.1) (by simpa [Has, symbols_close] using hids.2)
    refine List.IsPrefix.trans ?_ hrest
    rcases h.entries_close hids.1 cls with ⟨he, -⟩ | ⟨-, -, he⟩
    · rw [he]
    · rw [he]
      exact List.prefix_append _ _

theorem Defines.value? {r' : Routine} (h : t.Defines id r f r') :
    (t.modifySymbol id f).value? = t.value? := by
  refine value?_modifySymbol ?_
  rw [Table.value?, Symbol.var?_of_routine? h.before, Symbol.var?_of_routine? h.after]

theorem Defines.leads {r' : Routine} (h : t.Defines id r f r') (hflags : r'.flags = r.flags) :
    t.Leads (t.modifySymbol id f) where
  has hj := h.edits.has.2 hj
  grows _ := h.edits.symbol _
  routine {j} _ := by
    rw [h.routine? j]
    split
    · subst_vars
      simp [Option.mem_def.1 h.before, h.hooks, hflags]
    · rfl
  value hv := by rwa [h.value?]

theorem Leads.of_symbols (h : t'.symbols = t.symbols) : t.Leads t' := by
  have hsymbol := symbol_eq_of_symbols h
  refine ⟨by simp [Has, h], fun _ => hsymbol ▸ .refl _, fun _ => by rw [hsymbol],
    fun hv => ?_⟩
  rwa [value?, hsymbol]

theorem StartsAt.used_closed (h : t.StartsAt entry) (ht : t.Sound) {scope : Scope}
    (hscopes : t.scopes = [scope]) :
    ∃ rest, (scope.names.ids.foldl Table.close { t with scopes := [] }).used .routine =
    entry :: rest := by
  obtain ⟨frame, hframe, -, hhead⟩ := h.first
  obtain rfl : frame = (scopePath [scope], scope.names) := by simpa [hscopes, frames] using hframe
  obtain ⟨ids, hids⟩ : ∃ ids, scope.names.ids = entry :: ids := by
    cases hids : scope.names.ids with
    | nil => simp [hids] at hhead
    | cons id ids =>
      obtain rfl : id = entry := by simpa [hids] using hhead
      exact ⟨ids, rfl⟩
  have hhas : ∀ id ∈ entry :: ids, t.Has id :=
    fun id hid => (ht.entry_innermost hscopes (hids ▸ hid)).1
  have hfiled : ({ t with scopes := [] } : Table).Filed :=
    ⟨ht.closedEntry, ht.closedKeys, ht.unique⟩
  obtain ⟨r, hr, -⟩ := h.routine
  have hcls : (({ t with scopes := [] } : Table).symbol entry).cls = .routine :=
    Symbol.cls_of_routine? hr
  rw [List.forall_mem_cons] at hhas
  -- nothing was filed before
  have hfirst :
      ((({ t with scopes := [] } : Table).close entry).byClass .routine).ids = [entry] := by
    rw [byClass_close, if_pos hcls.symm]
    simp [NameMap.ids, NameMap.insert, byClass, h.routines, NameMap.put]
  have hhas' : ∀ id ∈ ids, (({ t with scopes := [] } : Table).close entry).Has id := by
    simpa [Has, symbols_close] using hhas.2
  obtain ⟨more, hmore⟩ := (hfiled.close hhas.1).prefix_foldl_close hhas' .routine
  have hsymbols := (symbols_foldl_close (entry :: ids) { t with scopes := [] }).1
  rw [hids, Table.used]
  rw [List.foldl_cons] at hsymbols ⊢
  rw [NameMap.ids, ← hmore, List.map_append, ← NameMap.ids, hfirst, List.singleton_append,
    List.filter_cons_of_pos]
  · exact ⟨_, rfl⟩
  · rw [symbol_eq_of_symbols hsymbols]
    exact decide_eq_true h.isUsed

end Table

namespace Lowering

variable {s s' : Lowering} {u : Unit}

theorem Ok.leads_finish (h : s.Ok []) (hf : Lowering.finish s = .ok u s') :
    s.table.Leads s'.table := by
  obtain ⟨-, t, scope, scopes, hset, -, rfl⟩ := finish_eq_ok hf
  obtain ⟨-, r, hr, hcode, halias⟩ := h.entry
  obtain ⟨hdefines, rfl⟩ := defines_setCode h.live hr hcode halias hset
  exact (hdefines.leads rfl).trans (.of_symbols (symbols_closeScope ..))

theorem Ok.var?_finish (h : s.Ok []) (hf : Lowering.finish s = .ok u s') (id : SymbolId) :
    (s'.table.symbol id).var? = (s.table.symbol id).var? := by
  obtain ⟨-, t, scope, scopes, hset, -, rfl⟩ := finish_eq_ok hf
  obtain ⟨-, r, hr, hcode, halias⟩ := h.entry
  obtain ⟨hdefines, rfl⟩ := defines_setCode h.live hr hcode halias hset
  rw [Table.symbol_eq_of_symbols (symbols_closeScope ..), table_setTable,
    Table.symbol_modifySymbol (Table.has_of_routine? hr)]
  split
  · subst_vars
    rw [Symbol.var?_of_routine? hdefines.before, Symbol.var?_of_routine? hdefines.after]
  · rfl

theorem Ok.entry_finish (h : s.Ok []) (hb : s.table.StartsAt s.entry)
    (hf : Lowering.finish s = .ok u s') :
    (∃ rest, s'.table.used .routine = s.entry :: rest) ∧
      ∃ r ∈ (s'.table.symbol s.entry).routine?,
      r.flags = {} ∧ r.params = [] ∧ r.aliasOf = none ∧
      r.code = some (.ofNodes s.entry s.mainBody) := by
  obtain ⟨hdepth, t, scope, scopes, hset, hscopes, rfl⟩ := finish_eq_ok hf
  obtain ⟨-, r, hr, hcode, halias⟩ := h.entry
  obtain ⟨hdefines, rfl⟩ := defines_setCode h.live hr hcode halias hset
  obtain rfl : scopes = [] := by
    have hlength : s.table.scopes = scope :: scopes := hscopes
    simpa [hlength] using hdepth
  obtain ⟨r₁, hr₁, hflags, hparams⟩ := hb.routine
  obtain rfl : r = r₁ := Option.mem_unique hr hr₁
  have hbegins : (s.table.modifySymbol s.entry _).StartsAt s.entry :=
    ⟨by rw [(hdefines.edits.symbol s.entry).name, hb.name], (hdefines.isUsed s.entry).2 hb.isUsed,
      ⟨_, (hdefines.routine? s.entry).trans (if_pos rfl), hflags, hparams⟩, hb.first,
      hb.routines⟩
  refine ⟨hbegins.used_closed (hdefines.live h.live).sound hscopes, { r with code := some _ }, ?_,
    hflags, hparams, halias, rfl⟩
  rw [Table.symbol_eq_of_symbols (symbols_closeScope ..)]
  exact (hdefines.routine? s.entry).trans (if_pos rfl)

end Lowering

theorem codeOfNodes_ofNodes (t : Table) (ctx : Template.Context) (id : SymbolId)
    (nodes : List Node) : (Definition.ofNodes id nodes).body.flatMap
    (Definition.entryCode t ctx) = codeOfNodes t nodes := by
  simp only [Definition.ofNodes]
  induction nodes with
  | nil => rfl
  | cons n nodes ih => simp [Definition.entryCode, codeOfNodes, ih]

theorem Definition.block?_ofNodes {t : Table} (nodes : List Node)
    (hr : r ∈ (t.symbol id).routine?) (hflags : r.flags = {}) (hid : t.IsUsed id) :
      (ofNodes id nodes).block? t =
      some ⟨(t.symbol id).name, r.params.map fun param => (t.symbol param).fullName,
        codeOfNodes t nodes⟩ := by
  have hsymbol : (ofNodes id nodes).symbol = id := rfl
  have husage : (t.symbol id).usage ≠ 0 := Nat.pos_iff_ne_zero.1 hid
  simp [block?, hsymbol, Option.mem_def.1 hr, codeOfNodes_ofNodes, hflags, husage, guard]

theorem linkRoutine_of_code {w w' : Workspace} {d : Definition} {b? : Option Block}
    (hr : r ∈ (w.table.symbol id).routine?) (hflags : r.flags = {}) (halias : r.aliasOf = none)
    (hcode : r.code = some d) (h : linkRoutine id w = .ok b? w') : b? = d.block? w.table := by
  simp only [linkRoutine, get_bind] at h
  have htarget : w.table.linkTarget? id =
    some id := by simp [Table.linkTarget?, Option.mem_def.1 hr, halias]
  simp only [htarget, Option.mem_def.1 hr, hcode, hflags, Option.isNone_some, Bool.and_false,
    Bool.false_eq_true, if_false, Bool.not_false, Bool.and_self, if_true, bind_eq_ok,
    Option.elim_some, pure_eq_ok] at h
  obtain ⟨_, w₁, hnote, b?', w₂, hemit, _, _, -, rfl, -⟩ := h
  rw [(Definition.emit_eq_ok hemit).2, table_note hnote]

theorem Lowering.Ok.link_entry {s s' : Lowering} {u : Unit} {w : Workspace}
    {listing : Listing} (h : s.Ok []) (hb : s.table.StartsAt s.entry)
    (hf : Lowering.finish s = .ok u s') (hl : link s'.toWorkspace = .ok listing w) :
    ∃ rest, listing.blocks = ⟨entryName, [], codeOfNodes s'.table s.mainBody⟩ :: rest := by
  obtain ⟨⟨ids, hused⟩, r, hr, hflags, hparams, halias, hcode⟩ := h.entry_finish hb hf
  have hleads := h.leads_finish hf
  obtain ⟨-, w₁, bs, w₂, htable, hbs, hblocks⟩ := link_eq_ok hl
  rw [hused, List.mapM_cons] at hbs
  simp only [bind_eq_ok, pure_eq_ok] at hbs
  obtain ⟨b?, w₃, hentry, bs, _, -, rfl, -⟩ := hbs
  rw [← htable] at hr hleads
  have hname : (w₁.table.symbol s.entry).name =
    entryName := by rw [(hleads.grows hb.isUsed.has).name, hb.name]
  have hblock : b? = some ⟨entryName, [], codeOfNodes w₁.table s.mainBody⟩ := by
    rw [linkRoutine_of_code hr hflags halias hcode hentry,
      Definition.block?_ofNodes s.mainBody hr hflags (hleads.isUsed hb.isUsed), hname,
      hparams, List.map_nil]
  rw [hblocks, hblock, ← htable]
  exact ⟨_, rfl⟩

end TurtleCompiler
