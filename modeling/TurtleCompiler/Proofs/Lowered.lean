import TurtleCompiler.Emit
import TurtleCompiler.Proofs.Footprint

/-!
The table that a lowering ends with. Every routine has code that fits the table, and a variable is
used just when some code reads it, or calls a routine that depends on it.
-/

namespace TurtleCompiler

def operand? (line : String) : Option String :=
  ("LOAD ".toList.isPrefixOf? line.toList <|> "STOR ".toList.isPrefixOf? line.toList).map
  String.ofList

def Entry.Fits (t : Table) (s : Symbol) (r : Routine) : Entry → Prop
  | .node n => ∀ a ∈ n.accesses, a.Fits t
  | .template line => ∀ x ∈ operand? (line.render (Definition.context t s r)),
      ∃ id ∈ r.params ++ r.uses, (t.symbol id).fullName = x

def Entry.accesses : Entry → List Access
  | .node n => n.accesses
  | .template _ => []

def Definition.accesses (d : Definition) : List Access := d.body.flatMap Entry.accesses

def Definition.mentions (d : Definition) : List SymbolId := d.accesses.filterMap Access.mention?

namespace Table

variable {t t' t'' : Table} {id : SymbolId}

def Code (t : Table) (d : Definition) : Prop :=
  ∃ id, ∃ r ∈ (t.symbol id).routine?, d ∈ r.code

def Needs (t : Table) (ms : List SymbolId) (id : SymbolId) : Prop :=
  ∃ m ∈ ms, id = m ∨ id ∈ t.dependencies m

structure Upholds (t t' : Table) : Prop where
  has : ∀ {id}, t.Has id → t'.Has id
  grows : ∀ {id}, t.Has id → (t.symbol id).Grows (t'.symbol id)
  routine : ∀ {id}, ∀ r ∈ (t.symbol id).routine?, ∃ r' ∈ (t'.symbol id).routine?,
    r'.hooks = r.hooks ∧ r'.aliasOf = r.aliasOf ∧
    (r.code = none ∨ r'.code = r.code ∧ r'.params = r.params ∧ r'.uses = r.uses)
  dependencies : ∀ {id}, t.dependencies id ⊆ t'.dependencies id

theorem has_of_routine? {r : Routine} (h : r ∈ (t.symbol id).routine?) : t.Has id := by
  by_contra hid
  simp [symbol_of_not_has hid, blankSymbol, Symbol.routine?] at h

theorem Extends.upholds {ms : List SymbolId} (h : t.Extends ms t') : t.Upholds t' where
  has := h.has
  grows := h.grows
  routine r hr :=
    ⟨r, (h.routine (has_of_routine? hr)).trans hr, rfl, rfl, .inr ⟨rfl, rfl, rfl⟩⟩
  dependencies hm := by rwa [h.dependencies (has_of_mem_dependencies hm)]

theorem Extends.isClosed {ms : List SymbolId} (h : t.Extends ms t') (ht : t.Sound)
    (hid : t'.IsClosed id) : t.IsClosed id ∧ t.Has id := by
  rw [IsClosed, h.byClass] at hid
  have hhas := (ht.closedEntry hid).1
  rw [(h.grows hhas).fullName, (h.grows hhas).cls] at hid
  exact ⟨hid, hhas⟩

theorem Upholds.isVar (h : t.Upholds t') (hid : t.IsVar id) : t'.IsVar id :=
  ⟨h.has hid.1, (h.grows hid.1).cls.trans hid.2⟩

theorem Upholds.isUsed (h : t.Upholds t') (hid : t.IsUsed id) : t'.IsUsed id :=
  Nat.lt_of_lt_of_le hid (h.grows hid.has).usage

end Table

theorem Access.Fits.upholds {t t' : Table} {a : Access} (h : a.Fits t) (hk : t.Upholds t') :
    a.Fits t' := by
  cases a with
  | read id => exact ⟨hk.isVar h.1, hk.isUsed h.2⟩
  | write id => exact hk.isVar h
  | call callee args =>
    obtain ⟨hused, r, hr, halias, hhooks⟩ := h
    obtain ⟨r', hr', hsame, halias', -⟩ := hk.routine r hr
    exact ⟨hk.isUsed hused, r', hr', halias'.trans halias, hsame ▸ hhooks⟩

variable {id : SymbolId}

theorem Entry.Fits.upholds {t t' : Table} {r r' : Routine} {e : Entry}
    (h : e.Fits t (t.symbol id) r) (hk : t.Upholds t') (hid : t.Has id)
    (hvars : ∀ m ∈ r.params ++ r.uses, t.Has m) (hparams : r'.params = r.params)
    (huses : r'.uses = r.uses) : e.Fits t' (t'.symbol id) r' := by
  cases e with
  | node n => exact fun a ha => (h a ha).upholds hk
  | template line =>
    have hcontext : Definition.context t' (t'.symbol id) r' =
        Definition.context t (t.symbol id) r := by
      simp only [Definition.context, (hk.grows hid).name, hparams, Template.Context.mk.injEq,
        true_and, and_true]
      funext n
      cases hn : r.params[n]? with
      | none => rfl
      | some m =>
        simp [(hk.grows (hvars m (List.mem_append_left _ (List.mem_of_getElem? hn)))).fullName]
    intro x hx
    rw [hcontext] at hx
    obtain ⟨m, hm, rfl⟩ := h x hx
    rw [hparams, huses]
    exact ⟨m, hm, (hk.grows (hvars m hm)).fullName⟩

namespace Table

variable {t t' : Table} {id entry : SymbolId} {ms ms' : List SymbolId} {d : Definition}

theorem Needs.upholds (h : t.Needs ms id) (hk : t.Upholds t') : t'.Needs ms id :=
  h.imp fun _ ⟨hm, hid⟩ => ⟨hm, hid.imp_right fun hid => hk.dependencies hid⟩

theorem Needs.mono (h : t.Needs ms id) (hms : ms ⊆ ms') : t.Needs ms' id :=
  h.imp fun _ ⟨hm, hid⟩ => ⟨hms hm, hid⟩

theorem Code.upholds (h : t.Code d) (hk : t.Upholds t') : t'.Code d := by
  obtain ⟨id, r, hr, hd⟩ := h
  obtain ⟨r', hr', -, -, hcode⟩ := hk.routine r hr
  rcases hcode with hcode | ⟨hcode, -⟩
  · simp [hcode] at hd
  · exact ⟨id, r', hr', hcode ▸ hd⟩

structure Lowered (t : Table) (entry : SymbolId) (ms : List SymbolId) : Prop where
  live : t.Live
  code : ∀ {id}, ∀ r ∈ (t.symbol id).routine?, ∀ d ∈ r.code, d.symbol = id ∧
    ∀ e ∈ d.body, e.Fits t (t.symbol id) r
  needed : ∀ {id}, t.IsUsed id → t.alias? id = none →
    id = entry ∨ t.Needs ms id ∨ ∃ d, t.Code d ∧ t.Needs d.mentions id

theorem Lowered.settle (h : t.Lowered entry (ms ++ d.mentions)) (hd : t.Code d) :
    t.Lowered entry ms :=
  { h with
    needed := fun {id} hid halias => (h.needed hid halias).imp_right fun hneed => by
      rcases hneed with ⟨m, hm, hid⟩ | hneed
      · rcases List.mem_append.1 hm with hm | hm
        · exact .inl ⟨m, hm, hid⟩
        · exact .inr ⟨d, hd, m, hm, hid⟩
      · exact .inr hneed }

theorem dependencies_eq {r : Routine} (hr : r ∈ (t.symbol id).routine?) :
    t.dependencies id = r.params ++ r.uses := by
  simp [dependencies, Option.mem_def.1 hr]

theorem Lowered.extends (h : t.Lowered entry ms) (he : t.Extends ms' t') :
    t'.Lowered entry (ms ++ ms') where
  live := h.live.extends he
  code {id} r hr d hd := by
    by_cases hid : t.Has id
    · rw [he.routine hid] at hr
      obtain ⟨hsymbol, hfits⟩ := h.code r hr d hd
      have hvars : ∀ m ∈ r.params ++ r.uses, t.Has m :=
        fun m hm => (h.live.isVar (dependencies_eq hr ▸ hm)).1
      exact ⟨hsymbol, fun e hentry => (hfits e hentry).upholds he.upholds hid hvars rfl rfl⟩
    · simp [(he.blank hid r hr).1] at hd
  needed {id} hid halias := by
    rcases he.used hid with hid | ⟨-, hcause⟩
    · rw [he.alias? hid.has] at halias
      refine (h.needed hid halias).imp_right (Or.imp ?_ ?_)
      · exact fun hneed => (hneed.upholds he.upholds).mono (List.subset_append_left _ _)
      · exact fun ⟨d, hd, hneed⟩ => ⟨d, hd.upholds he.upholds, hneed.upholds he.upholds⟩
    · exact .inr (.inl (Needs.mono (hcause halias) (List.subset_append_right _ _)))

theorem symbol_eq_of_symbols (h : t'.symbols = t.symbols) : t'.symbol = t.symbol := by
  funext id
  simp [symbol, h]

theorem upholds_of_symbols (h : t'.symbols = t.symbols) : t.Upholds t' := by
  have hsymbol := symbol_eq_of_symbols h
  refine ⟨by simp [Has, h], fun _ => hsymbol ▸ .refl _, fun r hr => ?_, ?_⟩
  · exact ⟨r, hsymbol ▸ hr, rfl, rfl, .inr ⟨rfl, rfl, rfl⟩⟩
  · simp [dependencies, hsymbol]

theorem Live.of_symbols (h : t.Live) (hsymbols : t'.symbols = t.symbols) (hsound : t'.Sound)
    (houter : ∀ path ∈ ((frames t'.scopes).map (·.1)).getLast?, path = "") : t'.Live := by
  have hsymbol := symbol_eq_of_symbols hsymbols
  have hdeps : t'.dependencies = t.dependencies := by
    funext id
    simp [dependencies, hsymbol]
  refine ⟨hsound, houter, ?_, ?_, ?_, ?_, ?_⟩
  · exact hsymbol ▸ h.top
  · simp only [IsVar, Has, hsymbols, hsymbol, hdeps]
    exact h.isVar
  · simp only [IsUsed, hsymbol, hdeps]
    exact h.isUsed
  · exact hsymbol ▸ h.hooks
  · simp only [alias?, hsymbol, hdeps]
    exact h.aliases

theorem Lowered.of_symbols (h : t.Lowered entry ms) (hsymbols : t'.symbols = t.symbols)
    (hsound : t'.Sound)
    (houter : ∀ path ∈ ((frames t'.scopes).map (·.1)).getLast?, path = "") :
    t'.Lowered entry ms := by
  have hsymbol := symbol_eq_of_symbols hsymbols
  have hk := upholds_of_symbols hsymbols
  refine ⟨h.live.of_symbols hsymbols hsound houter, ?_, ?_⟩
  · intro id r hr d hd
    rw [hsymbol] at hr
    obtain ⟨hd', hfits⟩ := h.code r hr d hd
    have hvars : ∀ m ∈ r.params ++ r.uses, t.Has m :=
      fun m hm => (h.live.isVar (dependencies_eq hr ▸ hm)).1
    exact ⟨hd', fun e he => (hfits e he).upholds hk (has_of_routine? hr) hvars rfl rfl⟩
  · simp only [IsUsed, alias?, hsymbol]
    intro id hid halias
    refine (h.needed hid halias).imp_right (Or.imp (·.upholds hk) ?_)
    rintro ⟨d, hd, hneed⟩
    exact ⟨d, hd.upholds hk, hneed.upholds hk⟩

section Routine

variable {f : Symbol → Symbol} {r r' : Routine} {t'' : Table}

structure Defines (t : Table) (id : SymbolId) (r : Routine) (f : Symbol → Symbol)
    (r' : Routine) : Prop where
  grows : (t.symbol id).Grows (f (t.symbol id))
  usage : (f (t.symbol id)).usage = (t.symbol id).usage
  before : r ∈ (t.symbol id).routine?
  after : r' ∈ (f (t.symbol id)).routine?
  code : r.code = none
  hooks : r'.hooks = r.hooks
  aliasOf : r.aliasOf = none ∧ r'.aliasOf = none
  subset : r.params ++ r.uses ⊆ r'.params ++ r'.uses
  isVar : ∀ m ∈ r'.params ++ r'.uses, t.IsVar m ∧ (t.IsUsed id → t.IsUsed m)

namespace Defines

variable (h : t.Defines id r f r')

include h

theorem edits : t.Edits (t.modifySymbol id f) := edits_modifySymbol h.grows

theorem routine? (j : SymbolId) :
    ((t.modifySymbol id f).symbol j).routine? = if j =
    id then some r' else (t.symbol j).routine? := by
  rw [symbol_modifySymbol (has_of_routine? h.before)]
  split
  · subst_vars
    exact h.after
  · rfl

theorem dependencies (j : SymbolId) :
    (t.modifySymbol id f).dependencies j = if j =
    id then r'.params ++ r'.uses else t.dependencies j := by
  rw [Table.dependencies, h.routine? j]
  by_cases hj : j = id
  · rw [if_pos hj, if_pos hj]
  · rw [if_neg hj, if_neg hj]
    rfl

theorem alias? (j : SymbolId) : (t.modifySymbol id f).alias? j = t.alias? j := by
  rw [Table.alias?, h.routine? j]
  split
  · subst_vars
    simp [Table.alias?, Option.mem_def.1 h.before, h.aliasOf]
  · rfl

theorem isUsed (j : SymbolId) : (t.modifySymbol id f).IsUsed j ↔ t.IsUsed j := by
  rw [IsUsed, symbol_modifySymbol_congr Symbol.usage h.usage, IsUsed]

theorem isVar_iff (j : SymbolId) : (t.modifySymbol id f).IsVar j ↔ t.IsVar j := by
  rw [IsVar, IsVar, h.edits.has, (h.edits.symbol j).cls]

theorem upholds : t.Upholds (t.modifySymbol id f) where
  has hj := h.edits.has.2 hj
  grows _ := h.edits.symbol _
  routine {j} r₁ hr₁ := by
    rw [h.routine? j]
    split
    · subst_vars
      obtain rfl : r = r₁ := Option.mem_unique h.before hr₁
      exact ⟨r', rfl, h.hooks, h.aliasOf.2.trans h.aliasOf.1.symm, .inl h.code⟩
    · exact ⟨r₁, hr₁, rfl, rfl, .inr ⟨rfl, rfl, rfl⟩⟩
  dependencies {j} := by
    rw [h.dependencies j]
    split
    · subst_vars
      rw [dependencies_eq h.before]
      exact h.subset
    · exact List.Subset.refl _

theorem live (ht : t.Live) : (t.modifySymbol id f).Live where
  sound := ht.sound.edits h.edits
  outer := ht.outer
  top {j} r₁ hr₁ := by
    rw [(h.edits.symbol j).scope]
    rw [h.routine? j] at hr₁
    split at hr₁
    · subst_vars
      exact ht.top r h.before
    · exact ht.top r₁ hr₁
  isVar {j m} hm := by
    rw [h.isVar_iff]
    rw [h.dependencies j] at hm
    split at hm
    · exact (h.isVar m hm).1
    · exact ht.isVar hm
  isUsed {j m} hj hm := by
    rw [h.isUsed] at hj ⊢
    rw [h.dependencies j] at hm
    split at hm
    · subst_vars
      exact (h.isVar m hm).2 hj
    · exact ht.isUsed hj hm
  hooks {j} r₁ hr₁ := by
    rw [(h.edits.symbol j).name]
    rw [h.routine? j] at hr₁
    split at hr₁
    · subst_vars
      obtain rfl : r' = r₁ := Option.some.inj hr₁
      rw [h.hooks]
      exact ht.hooks r h.before
    · exact ht.hooks r₁ hr₁
  aliases {j target} halias := by
    rw [h.alias? j] at halias
    obtain ⟨hdot, hne, hdeps, hchain⟩ := ht.aliases halias
    have hj : j ≠ id := by
      rintro rfl
      simp [Table.alias?, Option.mem_def.1 h.before, h.aliasOf] at halias
    refine ⟨hdot, hne, by rwa [h.dependencies j, if_neg hj], fun {i} hi => ?_⟩
    rw [h.alias? i]
    rw [(h.edits.symbol i).name] at hi
    exact hchain hi

theorem lowered (ht : t.Lowered entry ms)
    (hcode : ∀ d ∈ r'.code, d.symbol = id ∧ ∀ e ∈ d.body, e.Fits t (t.symbol id) r') :
    (t.modifySymbol id f).Lowered entry ms where
  live := h.live ht.live
  code {j} r₁ hr₁ d hd := by
    rw [h.routine? j] at hr₁
    split at hr₁
    · subst_vars
      obtain rfl : r' = r₁ := Option.some.inj hr₁
      obtain ⟨hsymbol, hfits⟩ := hcode d hd
      have hvars : ∀ m ∈ r'.params ++ r'.uses, t.Has m := fun m hm => (h.isVar m hm).1.1
      exact ⟨hsymbol, fun e he =>
        (hfits e he).upholds h.upholds (has_of_routine? h.before) hvars rfl rfl⟩
    · obtain ⟨hsymbol, hfits⟩ := ht.code r₁ hr₁ d hd
      have hvars : ∀ m ∈ r₁.params ++ r₁.uses, t.Has m :=
        fun m hm => (ht.live.isVar (dependencies_eq hr₁ ▸ hm)).1
      exact ⟨hsymbol, fun e he =>
        (hfits e he).upholds h.upholds (has_of_routine? hr₁) hvars rfl rfl⟩
  needed {j} hj halias := by
    rw [h.isUsed] at hj
    rw [h.alias? j] at halias
    exact (ht.needed hj halias).imp_right
      (Or.imp (·.upholds h.upholds) fun ⟨d, hd, hneed⟩ =>
        ⟨d, hd.upholds h.upholds, hneed.upholds h.upholds⟩)

end Defines

structure Gives (t : Table) (id : SymbolId) (r : Routine) (t' : Table) : Prop where
  has : ∀ {j}, t.Has j → t'.Has j
  grows : ∀ {j}, t.Has j → (t.symbol j).Grows (t'.symbol j)
  routine : ∀ j, (t'.symbol j).routine? = if j = id then some r else (t.symbol j).routine?

theorem Defines.gives (h : t.Defines id r f r') : t.Gives id r' (t.modifySymbol id f) :=
  ⟨h.edits.has.2, fun _ => h.edits.symbol _, h.routine?⟩

theorem Gives.trans (h : t.Gives id r t') (h' : t'.Gives id r' t'') : t.Gives id r' t'' where
  has hj := h'.has (h.has hj)
  grows hj := (h.grows hj).trans (h'.grows (h.has hj))
  routine j := by
    rw [h'.routine, h.routine]
    split <;> rfl

theorem Gives.extends (h : t.Gives id r t') (he : t'.Extends ms t'')
    (hroutine : ∀ j, (t''.symbol j).routine? = (t'.symbol j).routine?) : t.Gives id r t'' where
  has hj := he.has (h.has hj)
  grows hj := (h.grows hj).trans (he.grows (h.has hj))
  routine j := (hroutine j).trans (h.routine j)

theorem Gives.of_symbols (h : t.Gives id r t') (hsymbols : t''.symbols = t'.symbols) :
    t.Gives id r t'' where
  has hj := by simpa [Has, hsymbols] using h.has hj
  grows hj := by
    rw [symbol_eq_of_symbols hsymbols]
    exact h.grows hj
  routine j := by
    rw [symbol_eq_of_symbols hsymbols]
    exact h.routine j

end Routine

structure Precedes (t t' : Table) : Prop where
  entries : ∀ {frame}, frame ∈ frames t.scopes → frame.1 = "" →
    ∃ frame' ∈ frames t'.scopes, frame'.1 = "" ∧ frame.2.entries <+: frame'.2.entries
  routines : t'.routines = t.routines

theorem Precedes.of_frames
    (hframes : ∀ frame ∈ frames t.scopes, frame.1 = "" → frame ∈ frames t'.scopes)
    (hroutines : t'.routines = t.routines) : t.Precedes t' :=
  ⟨fun hf hpath => ⟨_, hframes _ hf hpath, hpath, List.prefix_rfl⟩, hroutines⟩

theorem precedes_modifySymbol (t : Table) (id : SymbolId) (f : Symbol → Symbol) :
    t.Precedes (t.modifySymbol id f) :=
  .of_frames (fun _ hf _ => hf) rfl

theorem Precedes.trans {t'' : Table} (h : t.Precedes t') (h' : t'.Precedes t'') :
    t.Precedes t'' where
  entries hf hpath := by
    obtain ⟨frame', hframe', hpath', hentries⟩ := h.entries hf hpath
    obtain ⟨frame'', hframe'', hpath'', hentries'⟩ := h'.entries hframe' hpath'
    exact ⟨frame'', hframe'', hpath'', hentries.trans hentries'⟩
  routines := h'.routines.trans h.routines

theorem Extends.precedes (h : t.Extends ms t') : t.Precedes t' where
  entries hf hpath := by
    obtain ⟨frame', hframe', hpath', hentries⟩ := h.entries hf
    exact ⟨frame', hframe', hpath'.trans hpath, hentries⟩
  routines := congrFun h.byClass .routine

theorem routines_foldl_close {ids : List SymbolId} (h : ∀ id ∈ ids, (t.symbol id).cls = .var) :
    (ids.foldl Table.close t).routines = t.routines := by
  induction ids generalizing t with
  | nil => rfl
  | cons id ids ih =>
    rw [List.forall_mem_cons] at h
    have hclose : t.close id = { t with vars := t.vars.insert (t.symbol id).fullName id } := by
      simp [Table.close, h.1]
    rw [List.foldl_cons, hclose]
    exact ih h.2

end Table

variable {name : String}

theorem Table.Live.mem_outer {t : Table} (h : t.Live) (hid : t.IsRoutine name id)
    (hframe : "" ∈ (frames t.scopes).map (·.1)) :
    ∃ frame ∈ frames t.scopes, frame.1 = "" ∧ (name.toUpper, id) ∈ frame.2.entries := by
  obtain ⟨outer, houter, hpath⟩ := List.mem_map.1 hframe
  obtain ⟨r, hr⟩ := Symbol.exists_routine hid.2.1
  rcases h.sound.placed hid.1 with ⟨frame, hframe, hentry⟩ | hclosed
  · refine ⟨frame, hframe, ?_, by rwa [hid.2.2] at hentry⟩
    rw [← (h.sound.entry hframe hentry).2.2, h.top r hr]
  · exact absurd (by rw [h.top r hr, hpath]) (h.sound.apart hclosed houter)

theorem Table.Live.declare_routine {t t' : Table} {j : SymbolId} {line : Option Nat}
    {f : Fields} (h : t.Live) (hid : t.IsRoutine name id)
    (hframe : "" ∈ (frames t.scopes).map (·.1))
    (hd : Table.declare .anywhere name .routine line f t = .ok j t') :
    t' = t.modifySymbol id fun _ => ((t.symbol id).merge line f).2 := by
  rcases Table.declare_eq_ok hd with ⟨hj, hcls, rfl⟩ | ⟨hnone, -⟩
  · obtain ⟨hhas, hname⟩ := h.sound.declared hj
    obtain rfl := h.isRoutine_unique hid ⟨hhas, hcls, hname⟩
    rfl
  · obtain ⟨frame, hmem, -, hentry⟩ := h.mem_outer hid hframe
    rw [Table.declared, Table.resolve_none, List.findSome?_eq_none_iff] at hnone
    exact absurd (List.mem_map.2 ⟨_, hentry, rfl⟩)
      (NameMap.get?_eq_none_iff.1 (hnone frame hmem))

end TurtleCompiler
