import TurtleCompiler.Proofs.EntryBlock

/-!
What becomes of the table while the items of a source are lowered, one after the other.
-/

namespace TurtleCompiler

namespace Table

variable {t t' t'' : Table} {id j : SymbolId} {name x : String} {names names' : List String}
  {reach : Reach} {cls : SymbolClass} {line : Option Nat} {f : Fields} {setting : Prop}

theorem Edits.isGlobal (h : t.Edits t') : t'.IsGlobal x id ↔ t.IsGlobal x id := by
  simp only [IsGlobal, IsVar, h.has, (h.symbol id).cls, (h.symbol id).scope, (h.symbol id).name]

theorem isGlobal_of_symbols (h : t'.symbols = t.symbols) :
    t'.IsGlobal x id ↔ t.IsGlobal x id := by
  simp only [IsGlobal, IsVar, Has, symbol_eq_of_symbols h, h]

theorem isGlobal_of_declare (hf : f.usage = none) (hd : declare reach name cls line f t = .ok j t')
    (h : t'.IsGlobal x id) :
    t.IsGlobal x id ∨ cls = .var ∧ name.toUpper = x ∧
    scopePath (t.scopes.drop (t.frame reach)) = "" := by
  rcases declare_eq_ok hd with ⟨-, -, rfl⟩ | ⟨-, -, -, kind, hkind, rfl⟩
  · exact .inl ((edits_merge t j line hf).isGlobal.1 h)
  · obtain ⟨⟨hhas, hcls⟩, hscope, hname⟩ := h
    rcases has_insertAt.1 hhas with hid | rfl
    · rw [symbol_insertAt_of_has hid] at hcls hscope hname
      exact .inl ⟨⟨hid, hcls⟩, hscope, hname⟩
    · rw [symbol_insertAt, if_pos rfl] at hcls hscope hname
      rw [cls_ofFields hkind] at hcls
      exact .inr ⟨hcls, hname, hscope⟩

theorem scopePath_declare (hd : declare reach name cls line f t = .ok j t') :
    scopePath t'.scopes = scopePath t.scopes := by
  rcases declare_eq_ok hd with ⟨-, -, rfl⟩ | ⟨-, -, -, kind, -, rfl⟩
  · rfl
  · exact scopePath_modify t.scopes _ (·.insert name ⟨t.symbols.size⟩)

theorem Step.scopePath (h : Step names setting t t') :
    TurtleCompiler.scopePath t'.scopes = TurtleCompiler.scopePath t.scopes := by
  cases h with
  | var _ _ _ hd | routine hd => exact scopePath_declare hd
  | use hc => rw [(Counts.countUsage hc).scopes]
  | value _ _ hset => rw [(edits_setValue hset).scopes]

theorem Step.isGlobal (hs : Step names setting t t') (h : t'.IsGlobal x id) :
    t.IsGlobal x id ∨ x ∈ names.map String.toUpper ∧
    TurtleCompiler.scopePath t.scopes = "" := by
  cases hs with
  | var hname hf _ hd =>
    refine (isGlobal_of_declare hf hd h).imp_right ?_
    rintro ⟨-, rfl, hpath⟩
    exact ⟨List.mem_map_of_mem hname, hpath⟩
  | routine hd => exact (isGlobal_of_declare rfl hd h).imp_right (by simp)
  | use hc => exact .inl ((Counts.countUsage hc).isGlobal.1 h)
  | value _ _ hset => exact .inl ((edits_setValue hset).isGlobal.1 h)

theorem Steps.isGlobal (hs : Steps names setting t t') (h : t'.IsGlobal x id) :
    t.IsGlobal x id ∨ x ∈ names.map String.toUpper ∧
    TurtleCompiler.scopePath t.scopes = "" := by
  induction hs using Relation.ReflTransGen.head_induction_on with
  | refl => exact .inl h
  | head hstep _ ih =>
    rcases ih with ih | ⟨hx, hpath⟩
    · exact hstep.isGlobal ih
    · exact .inr ⟨hx, hstep.scopePath ▸ hpath⟩

structure Quiet (t t' : Table) : Prop where
  value : t'.value? = t.value?
  isGlobal : ∀ {x id}, t'.IsGlobal x id → t.IsGlobal x id

namespace Quiet

theorem refl (t : Table) : t.Quiet t := ⟨rfl, fun h => h⟩

theorem trans (h : t.Quiet t') (h' : t'.Quiet t'') : t.Quiet t'' :=
  ⟨h'.value.trans h.value, fun hid => h.isGlobal (h'.isGlobal hid)⟩

theorem of_symbols (h : t'.symbols = t.symbols) : t.Quiet t' :=
  ⟨funext fun id => by rw [value?, symbol_eq_of_symbols h, value?], (isGlobal_of_symbols h).1⟩

theorem counts (h : t.Counts t') : t.Quiet t' := ⟨h.value?, h.isGlobal.1⟩

theorem declare (hf : f.usage = none) (hv : f.value = none)
    (hpath : cls = .var → scopePath (t.scopes.drop (t.frame reach)) ≠ "")
    (hd : Table.declare reach name cls line f t = .ok j t') : t.Quiet t' where
  value := value?_declare hv hd
  isGlobal h := (isGlobal_of_declare hf hd h).resolve_right fun ⟨hcls, _, hempty⟩ =>
    hpath hcls hempty

end Quiet

structure Passes (names : List String) (t t' : Table) : Prop where
  leads : t.Leads t'
  aliases : ∀ {id}, t.Has id → t'.alias? id = t.alias? id
  code : ∀ {id}, ∀ r ∈ (t.symbol id).routine?, r.code.isSome →
    (t'.symbol id).routine? = some r
  isGlobal : ∀ {x id}, t'.IsGlobal x id → t.IsGlobal x id ∨ x ∈ names.map String.toUpper

namespace Passes

theorem refl (t : Table) : t.Passes [] t := ⟨.refl t, fun _ => rfl, fun _ hr _ => hr, .inl⟩

theorem trans (h : t.Passes names t') (h' : t'.Passes names' t'') :
    t.Passes (names ++ names') t'' where
  leads := h.leads.trans h'.leads
  aliases hid := (h'.aliases (h.leads.has hid)).trans (h.aliases hid)
  code r hr hcode := h'.code r (h.code r hr hcode) hcode
  isGlobal hid := by
    rw [List.map_append, List.mem_append]
    rcases h'.isGlobal hid with hid | hx
    · exact (h.isGlobal hid).imp_right .inl
    · exact .inr (.inr hx)

theorem of_extends {ms : List SymbolId} (h : t.Extends ms t') (hs : Steps names setting t t')
    (hnames : TurtleCompiler.scopePath t.scopes = "" → names ⊆ names') :
    t.Passes names' t' where
  leads := .of_extends h hs.value?_of_some
  aliases := h.alias?
  code r hr _ := (h.routine (has_of_routine? hr)).trans hr
  isGlobal hid := by
    refine (hs.isGlobal hid).imp_right ?_
    rintro ⟨hx, hpath⟩
    exact List.map_subset _ (hnames hpath) hx

theorem gives {r : Routine} (h : t.Gives id r t') (hquiet : t.Quiet t')
    (hold : ∀ r₀ ∈ (t.symbol id).routine?, r₀.code = none ∧ r.aliasOf = r₀.aliasOf ∧
      r.flags = r₀.flags ∧ r.hooks = r₀.hooks)
    (hroutine : t.Has id → (t.symbol id).routine?.isSome) : t.Passes [] t' where
  leads := by
    refine ⟨h.has, h.grows, fun {j} hj => ?_, fun hv => by rwa [hquiet.value]⟩
    rw [h.routine j]
    split
    · subst_vars
      obtain ⟨r₀, hr₀⟩ := Option.isSome_iff_exists.1 (hroutine hj)
      obtain ⟨-, -, hflags, hhooks⟩ := hold r₀ hr₀
      simp [hr₀, hflags, hhooks]
    · rfl
  aliases {j} hj := by
    rw [alias?, h.routine j]
    split
    · subst_vars
      obtain ⟨r₀, hr₀⟩ := Option.isSome_iff_exists.1 (hroutine hj)
      simp [alias?, hr₀, (hold r₀ hr₀).2.1]
    · rfl
  code {j} r₀ hr₀ hcode := by
    rw [h.routine j, if_neg, hr₀]
    rintro rfl
    simp [(hold r₀ hr₀).1] at hcode
  isGlobal hid := .inl (hquiet.isGlobal hid)

end Passes

structure Equipped (t : Table) : Prop where
  print : ∃ id, (t.IsRoutine "PRINT" id ∧ t.alias? id = none) ∧ t.isPrint id
  random : ∃ id, (t.IsRoutine "RANDOM" id ∧ t.alias? id = none) ∧ t.isRandom id

theorem Leads.isRoutine (h : t.Leads t') (hid : t.IsRoutine name id) : t'.IsRoutine name id :=
  ⟨h.has hid.1, (h.grows hid.1).cls.trans hid.2.1, by rw [(h.grows hid.1).name, hid.2.2]⟩

theorem Equipped.passes (h : t.Equipped) (hp : t.Passes names t') : t'.Equipped where
  print := by
    obtain ⟨id, ⟨hid, halias⟩, hprint⟩ := h.print
    exact ⟨id,
      ⟨hp.leads.isRoutine hid,
        (hp.aliases hid.1).trans halias⟩, by rwa [hp.leads.isPrint hid.1]⟩
  random := by
    obtain ⟨id, ⟨hid, halias⟩, hrandom⟩ := h.random
    exact ⟨id,
      ⟨hp.leads.isRoutine hid,
        (hp.aliases hid.1).trans halias⟩, by rwa [hp.leads.isRandom hid.1]⟩

end Table

namespace Lowering

variable {s s' : Lowering} {name : String} {line : Nat} {params : List String} {id : SymbolId}
  {ids : List SymbolId}

theorem Declares.quiet (h : Declares line s params ids s')
    (hpath : scopePath s.table.scopes ≠ "") : s.table.Quiet s'.table := by
  induction h with
  | nil => exact .refl _
  | cons hd _ ih =>
    refine .trans (.declare rfl rfl (fun _ => by simpa [Table.frame] using hpath) hd) (ih ?_)
    rwa [table_setTable, Table.scopePath_declare hd]

theorem counts_forM {u : Unit}
    (h : (ids.forM fun id => (Table.countUse id : LowerM Unit)) s = .ok u s') :
    s.table.Counts s'.table := by
  induction ids generalizing s with
  | nil =>
    obtain ⟨-, rfl⟩ := pure_eq_ok.1 h
    exact .refl _
  | cons i ids ih =>
    obtain ⟨_, _, hi, hids⟩ := bind_eq_ok.1 h
    obtain ⟨t, hc, rfl⟩ := ofTable_eq_ok.1 hi
    exact (Table.Counts.countUse hc).trans (ih hids)

theorem counts_params {n : Nat}
    (h : 0 < n ∧ (ids.forM fun id => (Table.countUse id : LowerM Unit)) s = .ok ⟨⟩ s' ∨
      n = 0 ∧ s' = s) :
    s.table.Counts s'.table := by
  rcases h with ⟨-, h⟩ | ⟨-, rfl⟩
  · exact counts_forM h
  · exact .refl _

theorem Ok.quiet_beginProcedure (h : s.Ok []) (hpaths : s.table.AtTop) (hname : IsName name)
    (hb : Lowering.beginProcedure name line params s = .ok id s') : s.table.Quiet s'.table := by
  obtain ⟨hfree, hopen⟩ := beginProcedure_eq_ok hb
  obtain ⟨t₁, ids, s₂, s₃, j, t₄, hd, hparams, huse, hd', rfl⟩ :=
    openProcedure_eq_ok hopen
  obtain ⟨hadds, -⟩ := h.declare_procedure hpaths hname hfree hd
  obtain ⟨names, hscopes⟩ := exists_outer (hadds.table.paths.trans hpaths)
  have hpath : scopePath ((s.setTable t₁).openScope name).table.scopes = "@" ++ name := by
    change scopePath (⟨name, {}⟩ :: t₁.scopes) = _
    rw [← table_setTable s t₁, hscopes]
    exact scopePath_inner hname.nonempty _ _
  have hquiet₁ : s.table.Quiet t₁ := .declare rfl rfl (by simp) hd
  have hpush : t₁.Quiet ((s.setTable t₁).openScope name).table := .of_symbols rfl
  have hquiet₂ := hparams.quiet (by simp [hpath])
  have hquiet₃ : s₂.table.Quiet s₃.table := .counts (counts_params huse)
  have hquiet₄ : s₃.table.Quiet t₄ := .declare rfl rfl (by simp) hd'
  exact (((hquiet₁.trans hpush).trans hquiet₂).trans hquiet₃).trans hquiet₄

theorem Ok.passes_beginProcedure (h : s.Ok []) (hpaths : s.table.AtTop) (hname : IsName name)
    (hparams : ∀ p ∈ params, IsName p)
    (hb : Lowering.beginProcedure name line params s = .ok id s') : s.table.Passes [] s'.table := by
  obtain ⟨-, hopened, -, -, -, ids, -, hgives, hblank⟩ :=
    h.beginProcedure hpaths hname hparams hb
  refine .gives hgives (h.quiet_beginProcedure hpaths hname hb) (fun r hr => ?_) fun hid => ?_
  · rw [hblank r hr]
    exact ⟨rfl, rfl, rfl, rfl⟩
  · obtain ⟨r, hr⟩ :=
      Symbol.exists_routine ((hgives.grows hid).cls.symm.trans hopened.routine.2.1)
    exact Option.isSome_of_mem hr

theorem Ok.passes_endProcedure {body : List Node} {u : Unit}
    (h : s.Ok ((accessesOfNodes body).filterMap Access.mention?))
    (ho : s.Opened name id) (he : Lowering.endProcedure id body s = .ok u s') :
    s.table.Passes [] s'.table := by
  obtain ⟨t, scope, scopes, hset, hscopes, rfl⟩ := endProcedure_eq_ok he
  obtain ⟨r, hr, hcode, halias⟩ := ho.code
  obtain ⟨hdefines, rfl⟩ := defines_setCode h.live hr hcode halias hset
  have hquiet : s.table.Quiet (s.table.modifySymbol id _) :=
    ⟨hdefines.value?, hdefines.edits.isGlobal.1⟩
  refine .gives (hdefines.gives.of_symbols (symbols_closeScope ..))
    (hquiet.trans (.of_symbols (symbols_closeScope ..)))
    (fun r₀ hr₀ => ?_) fun _ => Option.isSome_of_mem hr
  obtain rfl := Option.mem_unique hr hr₀
  exact ⟨hcode, rfl, rfl, rfl⟩

end Lowering

namespace Source

variable {s s' : Lowering}

def Item.outerNames : Item → List String
  | .statement st => st.names
  | .definition .. | .broken .. => []

theorem Item.Becomes.passes {i : Item} (h : i.Becomes s s') (hnames : ∀ x ∈ i.names, IsName x)
    (hs : s.Ok []) (hpaths : s.table.AtTop) : s.table.Passes i.outerNames s'.table := by
  cases i with
  | statement st =>
    obtain ⟨hn⟩ := h
    exact .of_extends (hn.adds hnames hs.live).table hn.steps fun _ => List.Subset.refl _
  | definition header body site =>
    obtain ⟨b, e, id, ids, nodes, r, h⟩ := Item.stages hnames hs hpaths h
    simp only [Item.names, List.forall_mem_cons, List.forall_mem_append] at hnames
    have hok := hs.adds ((Lowering.Adds.refl s).noted header.site.notes)
    have hpasses : s.table.Passes [] b.table :=
      hok.passes_beginProcedure hpaths hnames.1 hnames.2.1 h.begins
    have hpasses' : b.table.Passes [] e.table :=
      .of_extends h.adds.table h.becomes.steps (by simp [scopePath_of_paths h.opened.paths])
    have hadds := h.adds.noted site.notes
    exact (hpasses.trans hpasses').trans
      ((h.ok.adds hadds).passes_endProcedure (h.opened.adds hadds) h.ends)
  | broken => cases h

theorem passes_lower_items {items : List Item} {faults : List (Option Error)} (hs : s.Ok [])
    (hpaths : s.table.AtTop) (hcomplete : ∀ i ∈ items, i.isComplete)
    (hnames : ∀ i ∈ items, ∀ x ∈ i.names, IsName x)
    (h : items.mapM Item.lower s = .ok faults s') :
    s.table.Passes (items.flatMap Item.outerNames) s'.table := by
  refine (items_induction
    (R := fun done s' => s.table.Passes (done.flatMap Item.outerNames) s'.table) (d := []) hs hpaths
    hcomplete hnames (.refl _) (fun _ hnames hs hpaths hpasses _ hi => ?_) h).2
  simpa using hpasses.trans (hi.passes hnames hs hpaths)

end Source

end TurtleCompiler
