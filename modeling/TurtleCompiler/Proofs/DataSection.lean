import Mathlib.Data.Option.Basic
import TurtleCompiler.Proofs.Origins
import TurtleCompiler.Proofs.Start

/-!
The data section of a listing. An assignment alone does not bring its variable into it.
-/

namespace TurtleCompiler

variable {r : Routine}

section Operands

theorem operand?_load (name : String) : operand? (Instr.load name).text = some name := by
  simp [operand?, Instr.text, List.isPrefixOf?]

theorem operand?_store (name : String) : operand? (Instr.store name).text = some name := by
  simp [operand?, Instr.text, List.isPrefixOf?]

def Instr.Fits (t : Table) (i : Instr) : Prop :=
  ∀ x ∈ operand? i.text, ∃ id, t.IsVar id ∧ (t.symbol id).fullName = x

variable {t : Table}

theorem Instr.fits_load {id : SymbolId} (h : t.IsVar id) :
    (Instr.load (t.symbol id).fullName).Fits t := by
  intro x hx
  exact ⟨id, h, by simpa [operand?_load] using hx⟩

theorem Instr.fits_store {id : SymbolId} (h : t.IsVar id) :
    (Instr.store (t.symbol id).fullName).Fits t := by
  intro x hx
  exact ⟨id, h, by simpa [operand?_store] using hx⟩

theorem Instr.fits_of_operand? {i : Instr} (h : operand? i.text = none) : i.Fits t := by
  simp [Fits, h]

theorem Instr.From.fits {i : Instr} {as : List Access} {cs : List Value} (h : i.From t as cs)
    (hfits : ∀ a ∈ as, a.Fits t) : i.Fits t := by
  cases h with
  | push | compareZero | label =>
    exact fits_of_operand? (by simp [operand?, text, Label.text, List.isPrefixOf?])
  | @operate op =>
    exact fits_of_operand?
      (by cases op <;> simp [operand?, text, Operation.mnemonic, List.isPrefixOf?])
  | @jump j l =>
    exact fits_of_operand? (by cases j <;> simp [operand?, text, Jump.mnemonic, List.isPrefixOf?])
  | load h =>
    rcases h with h | h
    · exact fits_load (hfits _ h).1
    · exact fits_load (hfits _ h)
  | store h => exact fits_store (hfits _ h)
  | call hmem hargs hr hi =>
    obtain ⟨-, -, rfl | ⟨id, type, rfl, rfl⟩⟩ := (hfits _ hmem).callTail hr hi
    · exact fits_of_operand? (by simp [operand?, text, List.isPrefixOf?])
    · exact fits_store (hfits (.read id) (hargs (by simp))).1

theorem Block.fits_lines {b : Block} (hparams : ∀ p ∈ b.params, (Instr.store p).Fits t)
    (hcode : ∀ i ∈ b.code, i.Fits t) {line : String} (hline : line ∈ b.lines) :
    ∀ x ∈ operand? line, ∃ id, t.IsVar id ∧ (t.symbol id).fullName = x := by
  simp only [Block.lines, List.mem_append, List.mem_map, List.mem_cons, List.not_mem_nil,
    or_false] at hline
  rcases hline with (((rfl | rfl) | ⟨p, hp, rfl⟩) | ⟨i, hi, rfl⟩) | rfl
  · simp [operand?, List.isPrefixOf?]
  · simp [operand?, List.isPrefixOf?]
  · exact hparams p hp
  · exact hcode i hi
  · rw [Block.lastLine]
    split <;> simp [operand?, List.isPrefixOf?]

theorem Definition.block?_eq_some {d : Definition} {b : Block} (h : d.block? t = some b)
    (hr : r ∈ (t.symbol d.symbol).routine?) :
      b.params = r.params.map (fun param => (t.symbol param).fullName) ∧
      b.code = d.body.flatMap (entryCode t (context t (t.symbol d.symbol) r)) := by
  simp only [Definition.block?, Option.mem_def.1 hr, Option.bind_eq_bind, Option.bind_some,
    Option.bind_eq_some_iff] at h
  obtain ⟨_, -, h⟩ := h
  obtain rfl := Option.some.inj h
  exact ⟨rfl, rfl⟩

end Operands

namespace Table

variable {t t' t'' : Table} {id entry : SymbolId} {d : Definition}

structure Marks (t t' : Table) : Prop where
  edits : t.Edits t'
  routine : ∀ {id}, ∀ r' ∈ (t'.symbol id).routine?, ∃ r ∈ (t.symbol id).routine?,
    r'.hooks = r.hooks ∧ r'.aliasOf = r.aliasOf ∧ r'.code = r.code ∧ r'.params = r.params ∧
    r'.uses = r.uses

theorem Marks.refl (t : Table) :
    t.Marks t := ⟨.refl t, fun r hr => ⟨r, hr, rfl, rfl, rfl, rfl, rfl⟩⟩

theorem Marks.trans (h : t.Marks t') (h' : t'.Marks t'') : t.Marks t'' where
  edits := h.edits.trans h'.edits
  routine r'' hr'' := by
    obtain ⟨r', hr', hhooks', halias', hcode', hparams', huses'⟩ := h'.routine r'' hr''
    obtain ⟨r, hr, hhooks, halias, hcode, hparams, huses⟩ := h.routine r' hr'
    exact ⟨r, hr, hhooks'.trans hhooks, halias'.trans halias, hcode'.trans hcode,
      hparams'.trans hparams, huses'.trans huses⟩

theorem Marks.upholds (h : t.Marks t') : t.Upholds t' := by
  have hroutine {id : SymbolId} (r : Routine) (hr : r ∈ (t.symbol id).routine?) :
      ∃ r' ∈ (t'.symbol id).routine?, r'.hooks = r.hooks ∧ r'.aliasOf = r.aliasOf ∧
        r'.code = r.code ∧ r'.params = r.params ∧ r'.uses = r.uses := by
    obtain ⟨r', hr'⟩ :=
      Symbol.exists_routine ((h.edits.symbol id).cls.trans (Symbol.cls_of_routine? hr))
    obtain ⟨r₁, hr₁, hsame⟩ := h.routine r' hr'
    obtain rfl : r₁ = r := Option.mem_unique hr₁ hr
    exact ⟨r', hr', hsame⟩
  refine ⟨h.edits.has.2, fun _ => h.edits.symbol _, fun r hr => ?_, fun {id m} hm => ?_⟩
  · obtain ⟨r', hr', hhooks, halias, hrest⟩ := hroutine r hr
    exact ⟨r', hr', hhooks, halias, .inr hrest⟩
  · cases hr : (t.symbol id).routine? with
    | none => simp [dependencies, hr] at hm
    | some r =>
      obtain ⟨r', hr', -, -, -, hparams, huses⟩ := hroutine r hr
      rw [dependencies_eq hr', hparams, huses, ← dependencies_eq hr]
      exact hm

theorem marks_modifySymbol (hr : r ∈ (t.symbol id).routine?) :
    t.Marks (t.modifySymbol id Symbol.markGenerated) := by
  have hid := has_of_routine? hr
  refine ⟨edits_modifySymbol (Symbol.grows_markGenerated _), fun {j} r' hr' => ?_⟩
  rw [symbol_modifySymbol hid] at hr'
  split at hr'
  · subst_vars
    obtain rfl :
        _ =
        r' := by simpa [Symbol.markGenerated, Symbol.routine?_modifyRoutine,
          Option.mem_def.1 hr] using hr'
    exact ⟨r, hr, rfl, rfl, rfl, rfl, rfl⟩
  · exact ⟨r', hr', rfl, rfl, rfl, rfl, rfl⟩

theorem marks_markGenerated {target : SymbolId} (hr : r ∈ (t.symbol target).routine?) :
    t.Marks (t.markGenerated id target) := by
  have hmarks := marks_modifySymbol hr
  rw [markGenerated]
  split
  · rename_i halias
    cases hid : (t.symbol id).routine? with
    | none => simp [hid] at halias
    | some r' =>
      obtain ⟨r₁, hr₁, -⟩ := hmarks.upholds.routine r' hid
      exact hmarks.trans (marks_modifySymbol hr₁)
  · exact hmarks

theorem Lowered.fits_entry (h : t.Lowered entry []) (ht : t.Marks t') {r' : Routine}
    (hr : r ∈ (t.symbol id).routine?) (hd : d ∈ r.code) (hparams : r'.params = r.params)
    (huses : r'.uses = r.uses) {e : Entry} (he : e ∈ d.body) :
    ∀ i ∈ Definition.entryCode t' (Definition.context t' (t'.symbol id) r') e, i.Fits t' := by
  have hvars : ∀ m ∈ r.params ++ r.uses, t.IsVar m :=
    fun m hm => h.live.isVar (dependencies_eq hr ▸ hm)
  have hfits :=
    ((h.code r hr d hd).2 e he).upholds ht.upholds (has_of_routine? hr)
    (fun m hm => (hvars m hm).1) hparams huses
  cases e with
  | node n => exact fun i hi => (n.from_code _ i hi).fits hfits
  | template line =>
    simp only [Definition.entryCode, List.mem_singleton, forall_eq]
    intro x hx
    obtain ⟨m, hm, hname⟩ := hfits x hx
    exact ⟨m, ht.upholds.isVar (hvars m (by rwa [hparams, huses] at hm)), hname⟩

theorem Lowered.fits_block (h : t.Lowered entry []) (ht : t.Marks t') (hd : t'.Code d) {b : Block}
    (hb : d.block? t' = some b) {line : String} (hline : line ∈ b.lines) :
    ∀ x ∈ operand? line, ∃ id, t.IsVar id ∧ (t.symbol id).fullName = x := by
  obtain ⟨id, r', hr', hcode'⟩ := hd
  obtain ⟨r, hr, -, -, hcode, hparams, huses⟩ := ht.routine r' hr'
  rw [hcode] at hcode'
  obtain ⟨rfl, -⟩ := h.code r hr d hcode'
  obtain ⟨hbparams, hbcode⟩ := Definition.block?_eq_some hb hr'
  have hstores : ∀ p ∈ b.params, (Instr.store p).Fits t' := by
    rw [hbparams, hparams]
    simp only [List.mem_map, forall_exists_index, and_imp, forall_apply_eq_imp_iff₂]
    intro m hm
    exact Instr.fits_store
      (ht.upholds.isVar (h.live.isVar (dependencies_eq hr ▸ List.mem_append_left _ hm)))
  have hinstrs : ∀ i ∈ b.code, i.Fits t' := by
    rw [hbcode]
    simp only [List.mem_flatMap, forall_exists_index, and_imp]
    exact fun i e he => h.fits_entry ht hr hcode' hparams huses he i
  intro x hx
  obtain ⟨m, hm, rfl⟩ := Block.fits_lines hstores hinstrs hline x hx
  exact ⟨m, ⟨ht.edits.has.1 hm.1, (ht.edits.symbol m).cls.symm.trans hm.2⟩,
    (ht.edits.symbol m).fullName.symm⟩

end Table

section Link

variable {w w' : Workspace} {b? : Option Block} {listing : Listing}

theorem table_note {e : Event} {u : Unit} (h : Workspace.note e w = .ok u w') :
    w'.table = w.table := by
  obtain rfl := modify_eq_ok.1 h
  rfl

theorem Definition.emit_eq_ok {d : Definition} (h : d.emit w = .ok b? w') :
    w'.table = w.table ∧ b? = d.block? w.table := by
  simp only [emit, get_bind] at h
  cases hremark : d.remark? w.table with
  | none =>
    simp only [hremark, pure_eq_ok] at h
    exact ⟨by rw [← h.2], h.1.symm⟩
  | some e =>
    simp only [hremark, bind_eq_ok, pure_eq_ok] at h
    obtain ⟨_, _, hnote, rfl, rfl⟩ := h
    exact ⟨table_note hnote, rfl⟩

theorem linkRoutine_eq_ok {id : SymbolId} (h : linkRoutine id w = .ok b? w') :
    ∃ target r, w.table.linkTarget? id = some target ∧
      (w.table.symbol target).routine? = some r ∧
      (r.flags.library ∨ r.code.isSome) ∧ if !r.flags.generated && !r.flags.internal then
        b? = r.code.bind (·.block? w.table) ∧ w'.table = w.table.markGenerated id target
      else b? = none ∧ w'.table = w.table := by
  simp only [linkRoutine, get_bind] at h
  cases htarget : w.table.linkTarget? id with
  | none => simp [htarget] at h
  | some target =>
  cases hr : (w.table.symbol target).routine? with
  | none => simp [htarget, hr] at h
  | some r =>
  simp only [htarget, hr] at h
  cases hdefined : (!r.flags.library && r.code.isNone) with
  | true => simp [hdefined, bind_eq_ok] at h
  | false =>
  simp only [hdefined, Bool.false_eq_true, if_false] at h
  refine ⟨target, r, rfl, hr, by cases hcode : r.code <;> simp_all, ?_⟩
  split at h
  · simp only [bind_eq_ok, modify_eq_ok, pure_eq_ok] at h
    obtain ⟨_, w₁, hnote, b?', w₂, hblock, _, _, rfl, rfl, rfl⟩ := h
    rw [if_pos ‹_›, ← table_note hnote]
    cases hcode : r.code with
    | none =>
      simp only [hcode, Option.elim_none, pure_eq_ok] at hblock
      obtain ⟨rfl, rfl⟩ := hblock
      exact ⟨rfl, rfl⟩
    | some d =>
      simp only [hcode, Option.elim_some] at hblock
      obtain ⟨htable, rfl⟩ := Definition.emit_eq_ok hblock
      exact ⟨rfl, by rw [htable]⟩
  · rw [if_neg ‹_›]
    split at h
    · simp only [bind_eq_ok, pure_eq_ok] at h
      obtain ⟨_, _, hnote, rfl, rfl⟩ := h
      exact ⟨rfl, table_note hnote⟩
    · obtain ⟨rfl, rfl⟩ := pure_eq_ok.1 h
      exact ⟨rfl, rfl⟩

theorem mapM_linkRoutine_eq_ok {ids : List SymbolId} {bs : List (Option Block)}
    (h : ids.mapM linkRoutine w = .ok bs w') :
    ∀ b ∈ bs.filterMap id, ∃ t d, w.table.Marks t ∧ t.Code d ∧ d.block? t = some b := by
  induction ids generalizing w bs with
  | nil =>
    simp only [List.mapM_nil, pure_eq_ok] at h
    simp [← h.1]
  | cons i ids ih =>
    obtain ⟨b?, w₁, hi, bs, hids, rfl⟩ := mapM_cons_eq_ok.1 h
    obtain ⟨target, r, -, hr, -, hlinked⟩ := linkRoutine_eq_ok hi
    have hmarks : w.table.Marks w₁.table := by
      split at hlinked
      · exact hlinked.2 ▸ Table.marks_markGenerated hr
      · exact hlinked.2 ▸ .refl _
    intro b hb
    simp only [List.mem_filterMap, List.mem_cons] at hb
    obtain ⟨o, rfl | ho, hb⟩ := hb
    · split at hlinked
      · obtain ⟨d, hd, hb⟩ := Option.bind_eq_some_iff.1 (hlinked.1.symm.trans hb)
        exact ⟨_, d, .refl _, ⟨target, r, hr, hd⟩, hb⟩
      · simp [hlinked.1] at hb
    · obtain ⟨t, d, hmarks', hd, hb⟩ := ih hids b (List.mem_filterMap.2 ⟨o, ho, hb⟩)
      exact ⟨t, d, hmarks.trans hmarks', hd, hb⟩

theorem link_eq_ok (h : link w = .ok listing w') :
    listing.data = (w.table.used .var).map
      (fun id => ((w.table.symbol id).fullName, (w.table.symbol id).initialValue)) ∧
      ∃ w₁ bs w₂, w₁.table = w.table ∧
        (w.table.used .routine).mapM linkRoutine w₁ = .ok bs w₂ ∧
        listing.blocks = bs.filterMap id := by
  simp only [link, bind_eq_ok, get_eq_ok] at h
  obtain ⟨_, _, ⟨rfl, rfl⟩, _, w₁, hnote, h⟩ := h
  have htable := table_note hnote
  split at h
  · simp only [bind_eq_ok, pure_eq_ok] at h
    obtain ⟨_, w₂, hnote', _, w₃, hnote'', bs, w₄, hbs, rfl, rfl⟩ := h
    exact ⟨rfl, w₃, bs, w₄,
      (table_note hnote'').trans ((table_note hnote').trans htable), hbs, rfl⟩
  · simp only [bind_eq_ok, pure_eq_ok] at h
    obtain ⟨_, w₃, hnote', bs, w₄, hbs, rfl, rfl⟩ := h
    exact ⟨rfl, w₃, bs, w₄, (table_note hnote').trans htable, hbs, rfl⟩

theorem compile_eq_ok {source : String} (h : compile source = .ok listing) :
    ∃ w w', lower (.ofText source) {} = .ok () w ∧ link w = .ok listing w' := by
  simp only [compile, compileWithLog, Report.ofWork] at h
  split at h
  · rename_i listing' w' hrun
    obtain rfl := Except.ok.inj h
    obtain ⟨u, w, hlower, hlink⟩ := bind_eq_ok.1 hrun
    exact ⟨w, w', hlower, hlink⟩
  · simp at h

end Link

namespace Table

variable {t : Table} {id entry : SymbolId}

def Mentioned (t : Table) (id : SymbolId) : Prop := ∃ d, t.Code d ∧ t.Needs d.mentions id

theorem Lowered.isUsed_of_mentioned (h : t.Lowered entry []) (hid : t.Mentioned id) :
    t.IsUsed id := by
  obtain ⟨d, ⟨i, r, hr, hd⟩, m, hm, hid⟩ := hid
  simp only [Definition.mentions, Definition.accesses, List.mem_filterMap, List.mem_flatMap] at hm
  obtain ⟨a, ⟨e, he, ha⟩, hmention⟩ := hm
  have hfits := (h.code r hr d hd).2 e he
  have hused : t.IsUsed m := by
    cases e with
    | template line => simp [Entry.accesses] at ha
    | node n =>
      have haccess := hfits a ha
      cases a with
      | read j =>
        obtain rfl : j = m := by simpa [Access.mention?] using hmention
        exact haccess.2
      | write j => simp [Access.mention?] at hmention
      | call j args =>
        obtain rfl : j = m := by simpa [Access.mention?] using hmention
        exact haccess.1
  rcases hid with rfl | hid
  · exact hused
  · exact h.live.isUsed hused hid

theorem Lowered.isUsed_iff_mentioned (h : t.Lowered entry []) (hentry : ¬ t.IsVar entry)
    (hid : t.IsVar id) : t.IsUsed id ↔ t.Mentioned id := by
  refine ⟨fun hused => ?_, h.isUsed_of_mentioned⟩
  rcases h.needed hused hid.alias? with rfl | ⟨m, hm, -⟩ | hmentioned
  · exact absurd hid hentry
  · simp at hm
  · exact hmentioned

theorem nodup_used (h : t.Sound) :
    ((t.used .var).map fun id => (t.symbol id).fullName.toUpper).Nodup := by
  have hmap : (t.byClass .var).ids.map (fun id => (t.symbol id).fullName.toUpper) =
      (t.byClass .var).keys := by
    rw [NameMap.ids, NameMap.keys, List.map_map]
    exact List.map_congr_left fun e he => (h.closedEntry he).2.2
  have hkeys : ((t.byClass .var).ids.map fun id => (t.symbol id).fullName.toUpper).Nodup := by
    rw [hmap]
    exact h.closedKeys .var
  exact hkeys.sublist (List.filter_sublist.map _)

theorem Sound.mem_used (h : t.Sound) (hscopes : t.scopes = []) (hid : t.Has id) {cls : SymbolClass}
    (hcls : (t.symbol id).cls = cls) : id ∈ t.used cls ↔ t.IsUsed id := by
  have hclosed : id ∈ (t.byClass cls).ids := by
    rcases h.placed hid with ⟨frame, hframe, -⟩ | hclosed
    · simp [hscopes, frames] at hframe
    · rw [IsClosed, hcls] at hclosed
      exact List.mem_map_of_mem hclosed
  simp [used, hclosed, IsUsed]

theorem Sound.count_used (h : t.Sound) (hscopes : t.scopes = []) (hid : t.IsVar id)
    [Decidable (t.IsUsed id)] :
    ((t.used .var).map fun id => (t.symbol id).fullName).count (t.symbol id).fullName =
      if t.IsUsed id then 1 else 0 := by
  have hnodup : ((t.used .var).map fun id => (t.symbol id).fullName).Nodup := by
    refine List.Nodup.of_map String.toUpper ?_
    rw [List.map_map]
    exact nodup_used h
  rw [hnodup.count]
  congr 1
  rw [List.mem_map, eq_iff_iff]
  constructor
  · rintro ⟨j, hj, hname⟩
    obtain ⟨hmem, hused⟩ := List.mem_filter.1 hj
    obtain ⟨⟨key, j⟩, he, rfl⟩ := List.mem_map.1 hmem
    obtain rfl := h.unique (h.closedEntry he).1 hid.1 (by rw [hname])
    simpa [IsUsed] using hused
  · exact fun hused => ⟨id, (h.mem_used hscopes hid.1 hid.2).2 hused, rfl⟩

end Table

/-- Every operand in the code of a listing is a variable. It has one line in the data section if
some code reads it, or calls a routine that depends on it, and none if it is only assigned. -/
theorem operand_data_lines {source : String} {listing : Listing}
    (h : compile source = .ok listing) :
    ∃ w, lower (.ofText source) {} = .ok () w ∧
      ∀ line ∈ listing.blocks.flatMap Block.lines, ∀ x ∈ operand? line,
        ∃ id, w.table.IsVar id ∧ (w.table.symbol id).fullName = x ∧
          (w.table.Mentioned id → (listing.data.map (·.1)).count x = 1) ∧
          (¬ w.table.Mentioned id → (listing.data.map (·.1)).count x = 0) := by
  obtain ⟨w, w', hlower, hlink⟩ := compile_eq_ok h
  obtain ⟨entry, hlowered, hentry, hscopes⟩ := lowered_of_lower hlower
  obtain ⟨hdata, w₁, bs, w₂, htable, hbs, hblocks⟩ := link_eq_ok hlink
  refine ⟨w, hlower, fun line hline x hx => ?_⟩
  obtain ⟨b, hb, hline⟩ := List.mem_flatMap.1 hline
  obtain ⟨t, d, hmarks, hd, hb⟩ := mapM_linkRoutine_eq_ok hbs b (hblocks ▸ hb)
  rw [htable] at hmarks
  obtain ⟨id, hid, rfl⟩ := hlowered.fits_block hmarks hd hb hline x hx
  have hcount := hlowered.live.sound.count_used hscopes hid
  refine ⟨id, hid, rfl, ?_⟩
  rw [← hlowered.isUsed_iff_mentioned hentry hid, hdata, List.map_map]
  exact ⟨fun hused => hcount.trans (if_pos hused), fun hunused => hcount.trans (if_neg hunused)⟩

theorem exists_listing (source : String) (p : Listing → Prop)
    (h : ∃ listing ∈ (compile source).toOption, p listing) :
    ∃ listing, compile source = .ok listing ∧ p listing := by
  obtain ⟨listing, hlisting, hp⟩ := h
  cases hc : compile source with
  | error e => simp [hc, Except.toOption] at hlisting
  | ok l =>
    obtain rfl : l = listing := by simpa [hc, Except.toOption] using hlisting
    exact ⟨l, rfl, hp⟩

theorem operand_data_lines_all_kinds : ∃ listing,
    compile "TO F :P PRINT :P END X = 1 Y = 2 X += :Y F(:Y)" = .ok listing ∧
      listing.data.map (·.1) = ["@F.P", "Y"] ∧
      ∃ w, lower (.ofText "TO F :P PRINT :P END X = 1 Y = 2 X += :Y F(:Y)") {} = .ok () w ∧
        ∀ line ∈ listing.blocks.flatMap Block.lines, ∀ x ∈ operand? line,
          ∃ id, w.table.IsVar id ∧ (w.table.symbol id).fullName = x ∧
            (w.table.Mentioned id → (listing.data.map (·.1)).count x = 1) ∧
            (¬ w.table.Mentioned id → (listing.data.map (·.1)).count x = 0) := by
  obtain ⟨listing, h, hdata⟩ := exists_listing "TO F :P PRINT :P END X = 1 Y = 2 X += :Y F(:Y)"
    (fun listing => listing.data.map (·.1) = ["@F.P", "Y"]) (by decide +kernel)
  exact ⟨listing, h, hdata, operand_data_lines h⟩

/-- A variable that is assigned a constant and then added to is loaded and stored, but has no line.
-/
theorem compound_assignment_without_data_line :
    ∃ listing, compile "X = 1 X += 2" = .ok listing ∧
    "LOAD X" ∈ listing.blocks.flatMap Block.lines ∧
      "STOR X" ∈ listing.blocks.flatMap Block.lines ∧ (listing.data.map (·.1)).count "X" = 0 :=
  exists_listing _ _ (by decide +kernel)

end TurtleCompiler
