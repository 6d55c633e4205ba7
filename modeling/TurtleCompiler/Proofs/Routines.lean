import TurtleCompiler.Proofs.Blocks
import TurtleCompiler.Proofs.Labels
import TurtleCompiler.Proofs.OneLine

/-!
The routines of a source. Each of them is a primitive of the library or has nothing but parameters
and code, and no two have a label in common.
-/

namespace TurtleCompiler

def Template.first? (t : Template) : Option Char :=
  match t.parts with
  | .text cs :: _ => cs.head?
  | _ => none

def Template.IsQuiet (t : Template) : Prop :=
  t.first? ∉ [none, some ':', some 'J', some 'H', some 'D', some '.'] ∧
    (t.first? = some 'C' → t = ⟨[.text "CALL MOVE".toList]⟩) ∧ t.IsOneLine

instance (t : Template) : Decidable t.IsQuiet := inferInstanceAs (Decidable (_ ∧ _ ∧ _))

def Entry.node? : Entry → Option Node
  | .node n => some n
  | .template _ => none

def Definition.nodes (d : Definition) : List Node := d.body.filterMap Entry.node?

@[simp] theorem Definition.nodes_ofNodes (id : SymbolId) (nodes : List Node) :
    (ofNodes id nodes).nodes = nodes := by
  simp [Definition.nodes, ofNodes, List.filterMap_map, Function.comp_def, Entry.node?]

variable {id : SymbolId} {r : Routine}

namespace Routine

structure IsPlain (r : Routine) (id : SymbolId) : Prop where
  flags : r.flags = {}
  hooks : r.hooks = {}
  aliasOf : r.aliasOf = none
  code : ∀ d ∈ r.code, ∃ nodes, d = .ofNodes id nodes

structure IsPrimitive (r : Routine) : Prop where
  library : r.flags.library
  generated : r.flags.generated = false
  target : ∀ x ∈ r.hooks.target, x ∈ ["WRITE", "READ", "CLRSCR"]
  internal : r.flags.internal → r.hooks.target.isSome
  code : ∃ d ∈ r.code, ∀ e ∈ d.body, ∃ line ∈ e.template?, line.IsQuiet

instance (r : Routine) : Decidable r.IsPrimitive :=
  decidable_of_iff
    (r.flags.library ∧ r.flags.generated = false ∧
      (∀ x ∈ r.hooks.target, x ∈ ["WRITE", "READ", "CLRSCR"]) ∧
      (r.flags.internal → r.hooks.target.isSome) ∧
      ∃ d ∈ r.code, ∀ e ∈ d.body, ∃ line ∈ e.template?, line.IsQuiet)
    ⟨fun ⟨hlibrary, hgenerated, htarget, hinternal, hcode⟩ =>
      ⟨hlibrary, hgenerated, htarget, hinternal, hcode⟩,
      fun h => ⟨h.library, h.generated, h.target, h.internal, h.code⟩⟩

theorem IsPrimitive.nodes (h : r.IsPrimitive) {d : Definition} (hd : d ∈ r.code) :
    d.nodes = [] := by
  obtain ⟨d', hd', htemplates⟩ := h.code
  obtain rfl := Option.mem_unique hd hd'
  simp only [Definition.nodes, List.filterMap_eq_nil_iff]
  intro e he
  obtain ⟨line, hline, -⟩ := htemplates e he
  cases e with
  | node n => simp [Entry.template?] at hline
  | template line => rfl

theorem isPlain_params (params : List SymbolId) (id : SymbolId) :
    IsPlain { params } id := ⟨rfl, rfl, rfl, by simp⟩

theorem IsPlain.setCode (h : r.IsPlain id) (nodes : List Node) :
    IsPlain { r with code := some (.ofNodes id nodes) } id :=
  ⟨h.flags, h.hooks, h.aliasOf, fun d hd => ⟨nodes, by simpa using hd.symm⟩⟩

end Routine

structure Labelled {ι : Type} (f : ι → List Node) (n : Nat) : Prop where
  made : ∀ i, Node.Made 0 (f i) n
  apart : ∀ {i j}, i ≠ j → (labelsOfNodes (f i)).Disjoint (labelsOfNodes (f j))

namespace Labelled

variable {ι κ : Type} {f : ι → List Node} {n n' : Nat}

theorem append [DecidableEq ι] (h : Labelled f n) {nodes : List Node}
    (hm : Node.Made n nodes n') (i : ι) : Labelled (Function.update f i (f i ++ nodes)) n' := by
  have happart {j : ι} (hj : i ≠ j) :
      (labelsOfNodes (f i ++ nodes)).Disjoint (labelsOfNodes (f j)) := by
    rw [labelsOfNodes_append, List.disjoint_append_left]
    exact ⟨h.apart hj,
      (List.disjoint_of_nodup_append ((h.made j).fresh.append hm.fresh).nodup).symm⟩
  have hrest : Node.Made n [] n' := ⟨.nil hm.fresh.le, by simp [targetsOfNodes]⟩
  refine ⟨fun j => ?_, fun {j k} hjk => ?_⟩
  · by_cases hj : j = i
    · subst hj
      simpa using (h.made j).append hm
    · simpa [hj] using (h.made j).append hrest
  · by_cases hj : j = i <;> by_cases hk : k = i
    · exact absurd (hj.trans hk.symm) hjk
    · subst hj
      simpa [hk] using happart (Ne.symm hk)
    · subst hk
      simpa [hj] using (happart (Ne.symm hj)).symm
    · simpa [hj, hk] using h.apart hjk

theorem comp (h : Labelled f n) {g : κ → ι} (hg : Function.Injective g) :
    Labelled (fun i => f (g i)) n :=
  ⟨fun i => h.made (g i), fun hij => h.apart (hg.ne hij)⟩

theorem nodup (h : Labelled f n) {is : List ι} (his : is.Nodup) :
    (is.flatMap fun i => labelsOfNodes (f i)).Nodup :=
  List.nodup_flatMap.2 ⟨fun i _ => (h.made i).fresh.nodup, his.imp h.apart⟩

end Labelled

namespace Table

variable {t t' : Table} {id entry : SymbolId} {ms : List SymbolId} {r : Routine}

def bodyOf (t : Table) (id : SymbolId) : List Node := (t.code? id).elim [] Definition.nodes

theorem bodyOf_eq (hr : (t.symbol id).routine? = some r) :
    t.bodyOf id = r.code.elim [] Definition.nodes := by
  simp [bodyOf, code?, hr]

theorem bodyOf_of_routine? (hr : ∀ r ∈ (t.symbol id).routine?, r.code = none) :
    t.bodyOf id = [] := by
  cases hroutine : (t.symbol id).routine? with
  | none => simp [bodyOf, code?, hroutine]
  | some r => rw [bodyOf_eq hroutine, hr r hroutine, Option.elim_none]

theorem Extends.bodyOf (h : t.Extends ms t') : t'.bodyOf = t.bodyOf := by
  funext id
  by_cases hid : t.Has id
  · simp [Table.bodyOf, code?, h.routine hid]
  · rw [bodyOf_of_routine? fun r hr => by rw [(h.blank hid r hr).1], bodyOf_of_routine?]
    simp [symbol_of_not_has hid, blankSymbol, Symbol.routine?]

theorem Gives.bodyOf (h : t.Gives id r t') :
    t'.bodyOf = Function.update t.bodyOf id (r.code.elim [] Definition.nodes) := by
  funext j
  by_cases hj : j = id
  · subst hj
    rw [Function.update_self, bodyOf_eq ((h.routine j).trans (if_pos rfl))]
  · rw [Function.update_of_ne hj, Table.bodyOf, code?, h.routine, if_neg hj]
    rfl

def Catalogued (t : Table) : Prop :=
  ∀ id, ∀ r ∈ (t.symbol id).routine?, r.IsPlain id ∨ r.IsPrimitive

theorem Catalogued.extends (h : t.Catalogued) (he : t.Extends ms t') : t'.Catalogued := by
  intro id r hr
  by_cases hid : t.Has id
  · exact h id r (by rwa [he.routine hid] at hr)
  · rw [(he.blank hid r hr).1]
    exact .inl (Routine.isPlain_params [] id)

theorem Catalogued.gives (h : t.Catalogued) (hg : t.Gives id r t') (hr : r.IsPlain id) :
    t'.Catalogued := by
  intro j r' hr'
  rw [hg.routine] at hr'
  split at hr'
  · rename_i hj
    obtain rfl := Option.some.inj hr'
    exact hj ▸ .inl hr
  · exact h j r' hr'

theorem Catalogued.isPlain (h : t.Catalogued) (hr : r ∈ (t.symbol id).routine?)
    (hcode : r.code = none) : r.IsPlain id := by
  refine (h id r hr).resolve_right fun hprimitive => ?_
  obtain ⟨d, hd, -⟩ := hprimitive.code
  simp [hcode] at hd

theorem StartsAt.gives (h : t.StartsAt entry) (hg : t.Gives id r t') (hp : t.Precedes t')
    (hne : id ≠ entry) : t'.StartsAt entry where
  name := by rw [(hg.grows h.isUsed.has).name, h.name]
  isUsed := Nat.lt_of_lt_of_le h.isUsed (hg.grows h.isUsed.has).usage
  routine := by
    rw [hg.routine, if_neg hne.symm]
    exact h.routine
  first := by
    obtain ⟨frame, hframe, hpath, hhead⟩ := h.first
    obtain ⟨frame', hframe', hpath', hentries⟩ := hp.entries hframe hpath
    exact ⟨frame', hframe', hpath', NameMap.head?_ids hhead hentries⟩
  routines := by rw [hp.routines, h.routines]

end Table

variable {u : Unit}

namespace Lowering

variable {s s' s₁ : Lowering} {as : List Access} {params : List String} {ids : List SymbolId}

def bodies (s : Lowering) : Option SymbolId → List Node
  | none => s.mainBody
  | some id => s.table.bodyOf id

theorem bodies_eq (hmain : s'.mainBody = s.mainBody) (hbody : s'.table.bodyOf = s.table.bodyOf) :
    s'.bodies = s.bodies := by
  funext o
  cases o with
  | none => exact hmain
  | some id => exact congrFun hbody id

theorem Adds.bodies (h : s.Adds as s') : s'.bodies = s.bodies := bodies_eq h.mainBody h.table.bodyOf

theorem bodies_gives (hmain : s'.mainBody = s.mainBody) (hg : s.table.Gives id r s'.table) :
    s'.bodies = Function.update s.bodies (some id) (r.code.elim [] Definition.nodes) := by
  funext o
  cases o with
  | none => simpa [Lowering.bodies] using hmain
  | some j =>
    change s'.table.bodyOf j = _
    rw [hg.bodyOf]
    by_cases hj : j = id
    · subst hj
      simp
    · simp [hj, Lowering.bodies]

structure Traced (s : Lowering) : Prop where
  startsAt : s.table.StartsAt s.entry
  routines : s.table.Catalogued
  labelled : Labelled s.bodies s.labels

theorem Traced.adds (h : s.Traced) (ha : s.Adds as s') (hlabels : s'.labels = s.labels) :
    s'.Traced where
  startsAt := ha.entry ▸ h.startsAt.extends ha.table
  routines := h.routines.extends ha.table
  labelled := by
    rw [ha.bodies, hlabels]
    exact h.labelled

theorem Declares.labels {line : Nat} (h : Declares line s params ids s') :
    s'.labels = s.labels := by
  induction h with
  | nil => rfl
  | cons _ _ ih => exact ih

theorem labels_forM {α : Type} {f : α → TableM Unit} {as : List α} {u : PUnit}
    (h : (as.forM fun a => (f a : LowerM Unit)) s = .ok u s') : s'.labels = s.labels := by
  induction as generalizing s with
  | nil => rw [(pure_eq_ok.1 h).2]
  | cons a as ih =>
    change ((liftM (f a) : LowerM Unit) >>= fun _ => as.forM fun a => (f a : LowerM Unit)) s =
      _ at h
    simp only [bind_eq_ok, ofTable_eq_ok] at h
    obtain ⟨_, _, ⟨t, -, rfl⟩, h⟩ := h
    exact (ih h).trans (labels_setTable s t)

theorem labels_beginProcedure {name : String} {line : Nat}
    (h : beginProcedure name line params s = .ok id s') : s'.labels = s.labels := by
  obtain ⟨-, hopen⟩ := beginProcedure_eq_ok h
  obtain ⟨t₁, ids, s₂, s₃, j, t₄, -, hdeclares, huse, -, rfl⟩ :=
    openProcedure_eq_ok hopen
  have hparams : s₂.labels = ((s.setTable t₁).openScope name).labels := hdeclares.labels
  rcases huse with ⟨-, hforM⟩ | ⟨-, rfl⟩
  · exact (labels_forM hforM).trans hparams
  · exact hparams

theorem Traced.beginProcedure (h : s.Traced) (hmain : s'.mainBody = s.mainBody)
    (hentry : s'.entry = s.entry) (hlabels : s'.labels = s.labels) (hne : id ≠ s.entry)
    (hp : s.table.Precedes s'.table) (hg : s.table.Gives id { params := ids } s'.table)
    (hblank : ∀ r ∈ (s.table.symbol id).routine?, r = {}) : s'.Traced where
  startsAt := hentry ▸ h.startsAt.gives hg hp hne
  routines := h.routines.gives hg (Routine.isPlain_params ids id)
  labelled := by
    have hempty : s.bodies (some id) = [] :=
      Table.bodyOf_of_routine? fun r hr => by rw [hblank r hr]
    rw [bodies_gives hmain hg, hlabels, Option.elim_none, ← hempty, Function.update_eq_self]
    exact h.labelled

theorem Traced.endProcedure (h : s.Traced) {body : List Node} (ha : s.Adds as s₁)
    (hmade : Node.Made s.labels body s₁.labels) (hmain : s'.mainBody = s₁.mainBody)
    (hentry : s'.entry = s₁.entry) (hlabels : s'.labels = s₁.labels) (hne : id ≠ s₁.entry)
    (hp : s₁.table.Precedes s'.table) (hr : r ∈ (s₁.table.symbol id).routine?)
    (hcode : r.code = none)
    (hg : s₁.table.Gives id { r with code := some (.ofNodes id body) } s'.table) : s'.Traced where
  startsAt := by
    have hbegins := h.startsAt.extends ha.table
    rw [hentry]
    rw [← ha.entry] at hbegins
    exact hbegins.gives hg hp hne
  routines := by
    have hroutines := h.routines.extends ha.table
    exact hroutines.gives hg ((hroutines.isPlain hr hcode).setCode body)
  labelled := by
    have hempty : s.bodies (some id) = [] := by
      rw [← ha.bodies]
      exact Table.bodyOf_of_routine? fun r' hr' => by rw [← Option.mem_unique hr hr', hcode]
    have hlabelled := h.labelled.append hmade (some id)
    rw [hempty, List.nil_append] at hlabelled
    rw [bodies_gives hmain hg, hlabels, ha.bodies, Option.elim_some, Definition.nodes_ofNodes]
    exact hlabelled

theorem Traced.addTopLevel (h : s.Traced) {n : Node} (ha : s.Adds as s₁)
    (hmade : Node.Made s.labels [n] s₁.labels) (hadd : addTopLevel n s₁ = .ok u s') :
    s'.Traced := by
  obtain rfl := modify_eq_ok.1 hadd
  refine ⟨?_, h.routines.extends ha.table, ?_⟩
  · change s₁.table.StartsAt s₁.entry
    rw [ha.entry]
    exact h.startsAt.extends ha.table
  · have hbodies : ({ s₁ with mainBody := s₁.mainBody ++ [n] } : Lowering).bodies =
        Function.update s.bodies none (s.bodies none ++ [n]) := by
      funext o
      cases o with
      | none => simp [bodies, ha.mainBody]
      | some id => simpa [bodies] using congrFun ha.table.bodyOf id
    rw [hbodies]
    exact h.labelled.append hmade none

end Lowering

namespace Source

variable {s s' : Lowering}

theorem Item.Becomes.traced {i : Item} (h : i.Becomes s s') (hnames : ∀ x ∈ i.names, IsName x)
    (hs : s.Ok []) (hpaths : s.table.AtTop) (ht : s.Traced) : s'.Traced := by
  cases i with
  | statement st =>
    obtain ⟨hn⟩ := h
    exact ht.addTopLevel (u := ⟨⟩) (hn.adds hnames hs.live) hn.made rfl
  | definition header body site =>
    obtain ⟨b, e, id, ids, nodes, r, h⟩ := Item.stages hnames hs hpaths h
    have ht₁ :=
      ht.beginProcedure h.mainBody h.entry (Lowering.labels_beginProcedure h.begins :)
      (h.entry ▸ h.opened.ne) h.precedes h.gives h.blank
    obtain ⟨hmain, hentry, hlabels, -⟩ := h.rest
    exact ht₁.endProcedure h.adds h.becomes.made hmain hentry hlabels (h.opened.adds h.adds).ne
      h.precedes' h.routine h.code h.gives'
  | broken => cases h

theorem traced_lower_parse {text : String} (hs : s.Ok []) (hpaths : s.table.AtTop)
    (ht : s.Traced) (h : (parse (.ofText text)).lower s = .ok u s') : s'.Traced :=
  (Program.induction (R := fun _ s => s.Traced) isName_of_parse hs hpaths ht
    (fun _ hnames hs hpaths ht _ hi => hi.traced hnames hs hpaths ht)
    (fun _ ht => ht.adds ((Lowering.Adds.refl _).noted _) rfl) h).2

end Source

namespace Lowering

def IsCatalogue (t : Table) : Prop :=
  ∀ id, t.Has id → ∀ r ∈ (t.symbol id).routine?,
    (r.flags = {} ∧ r.hooks = {} ∧ r.aliasOf = none ∧ r.code.isNone) ∨ r.IsPrimitive

instance (t : Table) : Decidable (IsCatalogue t) := by
  unfold IsCatalogue
  infer_instance

def cataloguedStart : { s : Start // s.table.StartsAt s.entry ∧ IsCatalogue s.table } :=
  ⟨start, by decide +kernel⟩

theorem IsCatalogue.catalogued {t : Table} (h : IsCatalogue t) : t.Catalogued := by
  intro id r hr
  refine (h id (Table.has_of_routine? hr) r hr).imp_left fun ⟨hflags, hhooks, halias, hcode⟩ =>
    ?_
  exact ⟨hflags, hhooks, halias, by simp [Option.isNone_iff_eq_none.1 hcode]⟩

theorem IsCatalogue.bodyOf {t : Table} (h : IsCatalogue t) (id : SymbolId) : t.bodyOf id = [] := by
  cases hr : (t.symbol id).routine? with
  | none => simp [Table.bodyOf, Table.code?, hr]
  | some r =>
    rw [Table.bodyOf_eq hr]
    rcases h id (Table.has_of_routine? hr) r hr with ⟨-, -, -, hcode⟩ | hprimitive
    · rw [Option.isNone_iff_eq_none.1 hcode, Option.elim_none]
    · cases hcode : r.code with
      | none => rfl
      | some d => exact hprimitive.nodes hcode

theorem traced_setup {entry : SymbolId} {w : Workspace} (h : setup {} = .ok entry w) :
    ({ toWorkspace := w, entry } : Lowering).Traced := by
  obtain ⟨rfl, htable⟩ := eq_start h
  have hbegins : w.table.StartsAt start.entry := htable ▸ cataloguedStart.2.1
  have hcatalogue : IsCatalogue w.table := htable ▸ cataloguedStart.2.2
  have hbodies (o : Option SymbolId) :
      ({ toWorkspace := w, entry := start.entry } : Lowering).bodies o = [] := by
    cases o with
    | none => rfl
    | some id => exact hcatalogue.bodyOf id
  refine ⟨hbegins, hcatalogue.catalogued, fun o => ?_, fun {o o'} _ => ?_⟩
  · rw [hbodies]
    exact .nil 0
  · simp [hbodies, labelsOfNodes]

end Lowering

namespace Table

structure Ready (t : Table) (entry : SymbolId) : Prop where
  lowered : t.Lowered entry []
  scopes : t.scopes = []
  routines : t.Catalogued
  labelled : ∃ n, Labelled t.bodyOf n
  name : (t.symbol entry).name = entryName
  routine : ∃ r ∈ (t.symbol entry).routine?, r.flags = {} ∧ r.aliasOf = none
  first : ∃ rest, t.used .routine = entry :: rest

end Table

theorem Lowering.Traced.ready {s s' : Lowering} (h : s.Traced) (hs : s.Ok [])
    (hf : finish s = .ok u s') : s'.table.Ready s.entry := by
  obtain ⟨hlowered, -, hscopes, r, hr, hgives⟩ := hs.finish hf
  obtain ⟨hfirst, r₁, hr₁, hflags, -, halias, -⟩ := hs.entry_finish h.startsAt hf
  obtain ⟨-, r', hr', hcode, -⟩ := hs.entry
  obtain rfl := Option.mem_unique hr hr'
  refine ⟨hlowered, hscopes, h.routines.gives hgives ((h.routines.isPlain hr hcode).setCode _),
    ⟨s.labels, ?_⟩, ?_, ⟨r₁, hr₁, hflags, halias⟩, hfirst⟩
  · have hinjective : Function.Injective fun id => if id = s.entry then none else some id := by
      intro i j hij
      dsimp only at hij
      split at hij <;> split at hij <;> simp_all
    have hbodies : s'.table.bodyOf =
        fun id => s.bodies (if id = s.entry then none else some id) := by
      funext id
      rw [hgives.bodyOf]
      by_cases hid : id = s.entry
      · simp [hid, bodies]
      · simp [hid, bodies]
    rw [hbodies]
    exact h.labelled.comp hinjective
  · rw [(hgives.grows (Table.has_of_routine? hr)).name, h.startsAt.name]

theorem ready_of_lower {text : String} {w : Workspace} (h : lower (.ofText text) {} = .ok u w) :
    ∃ entry, w.table.Ready entry := by
  obtain ⟨entry, w₀, s, hsetup, hrun, rfl⟩ := Lowering.within_eq_ok h
  obtain ⟨hok, hpaths⟩ := Lowering.ok_setup hsetup
  obtain ⟨_, s₁, hlower, hfinish⟩ := bind_eq_ok.1 hrun
  have htraced := Source.traced_lower_parse hok hpaths (Lowering.traced_setup hsetup) hlower
  exact ⟨_, htraced.ready (Source.ok_lower_parse hok hpaths hlower).1 hfinish⟩

end TurtleCompiler
