import TurtleCompiler.Proofs.Reachable
import TurtleCompiler.Proofs.Uses

/-!
How often the symbols of a source are used in the end. A parameter is used with each call of its
procedure as well, but of the calls that come before the definition only one counts.
-/

namespace TurtleCompiler

namespace Source

def Item.mentions : Item → List Mention
  | .statement s => s.mentions
  | .definition _ body _ => mentionsOfAll body
  | .broken .. => []

def Item.globals : Item → List String
  | .statement s => s.mentions.filterMap Mention.var?
  | .definition .. | .broken .. => []

def occurrences (x : String) (names : List String) : Nat := names.countP (·.toUpper = x.toUpper)

theorem occurrences_ne_zero {x : String} {names : List String} :
    occurrences x names ≠ 0 ↔ x.toUpper ∈ names.map String.toUpper := by
  simp [occurrences]

def Header.owns (h : Header) (known : List String) (x : String) : Bool :=
  occurrences x h.params ≠ 0 || occurrences x known = 0

def Item.globalReads (known : List String) (x : String) : Item → Nat
  | .statement s => readsOf x s.mentions
  | .definition header body _ => if header.owns known x then 0 else readsOf x (mentionsOfAll body)
  | .broken .. => 0

def globalReads (x : String) : List String → List Item → Nat
  | _, [] => 0
  | known, i :: items => i.globalReads known x + globalReads x (known ++ i.globals) items

def Header.localUses (h : Header) (x : String) (before body after : List Mention) : Nat :=
  readsOf x body + occurrences x h.params *
  (min 1 (callsOf h.name before) + callsOf h.name (body ++ after))

structure CountsUses (items : List Item) (s : Symbol) : Prop where
  routine : s.cls = .routine → s.usage = callsOf s.name (items.flatMap Item.mentions)
  global : s.cls = .var → s.scope = "" → s.usage = globalReads s.name [headingName] items
  inner : s.cls = .var → s.scope ≠ "" → ∃ before header body site after,
    items = before ++ .definition header body site :: after ∧ s.scope = "@" ++ header.name ∧
      s.usage = header.localUses s.name (before.flatMap Item.mentions) (mentionsOfAll body)
      (after.flatMap Item.mentions)

end Source

open Source

theorem Lowering.toUpper_at_ne (name : String) : "".toUpper ≠ ("@" ++ name).toUpper := by
  rw [toUpper_at]
  intro he
  simpa [toList_toUpper] using congrArg String.toList he

variable {ids : List SymbolId}

namespace Table

variable {t t' : Table} {id j : SymbolId} {name : String}

def found (t : Table) (x : String) :
    Option SymbolId := (frames t.scopes).findSome? (·.2.entries.lookup x)

theorem resolve_eq_found (t : Table) (name : String) :
    t.resolve name none none = t.found name.toUpper :=
  t.resolve_none name

def home (t : Table) (x : String) : String :=
  ((t.found x).map fun id => (t.symbol id).scope).getD (scopePath t.scopes)

theorem Sound.homes_home (h : t.Sound) : t.Homes t.home where
  known {name id} hid := by
    refine ⟨(h.resolve_none hid).1, fun _ => ?_⟩
    rw [resolve_eq_found] at hid
    simp [home, hid]
  new {name} hnone := by
    rw [resolve_eq_found] at hnone
    simp [home, hnone]

theorem Leads.isGlobal_iff {x : String} (h : t.Leads t') (hid : t.Has id) :
    t'.IsGlobal x id ↔ t.IsGlobal x id :=
  show t'.IsAt (fun _ => "") x id ↔ t.IsAt (fun _ => "") x id from h.isAt_iff hid

theorem Divided.not_mem_global {n : Nat} (h : t.Divided n) (hj : n ≤ j.index)
    (hscope : t.Has j → (t.symbol j).scope = "") (id : SymbolId) : j ∉ t.dependencies id := by
  intro hm
  rcases Nat.lt_or_ge id.index n with hlt | hle
  · exact Nat.not_lt.2 hj (h.library hlt hm)
  · have hempty : (t.symbol j).scope = "" := by
      by_cases hhas : t.Has j
      · exact hscope hhas
      · rw [symbol_of_not_has hhas]
        rfl
    exact Lowering.toUpper_at_ne _ (hempty ▸ h.params hle hm)

structure PassedBy (t : Table) (j : SymbolId) (f : String) (c : Nat) : Prop where
  isVar : t.IsVar j
  scope : (t.symbol j).scope = "@" ++ f
  routine : ∃ id, t.IsRoutine f id ∧ ∃ r ∈ (t.symbol id).routine?, r.code.isSome ∧
    (r.params ++ r.uses).count j = c

theorem PassedBy.passes {f : String} {c : Nat} {names : List String} (h : t.PassedBy j f c)
    (hp : t.Passes names t') : t'.PassedBy j f c where
  isVar := ⟨hp.leads.has h.isVar.1, (hp.leads.grows h.isVar.1).cls.trans h.isVar.2⟩
  scope := (hp.leads.grows h.isVar.1).scope.trans h.scope
  routine := by
    obtain ⟨id, hid, r, hr, hcode, hcount⟩ := h.routine
    exact ⟨id, hp.leads.isRoutine hid, r, hp.code r hr hcode, hcode, hcount⟩

theorem PassedBy.supplies {f : String} {c n : Nat} (h : t.PassedBy j f c) (ht : t.Live)
    (hdiv : t.Divided n) (hj : n ≤ j.index) : t.Supplies j f c := by
  obtain ⟨id, hid, r, hr, -, rfl⟩ := h.routine
  rw [← dependencies_eq hr]
  exact hdiv.supplies ht hj hid fun _ => by rw [h.scope]

theorem Sound.resolve_ne_none (h : t.Sound) (hid : t.Has id)
    (hscope : (t.symbol id).scope ∈ (frames t.scopes).map (·.1))
    (hname : (t.symbol id).name.toUpper = name.toUpper) : t.resolve name none none ≠ none := by
  obtain ⟨frame, hframe, hpath⟩ := List.mem_map.1 hscope
  rcases h.placed hid with ⟨frame', hframe', hentry⟩ | hclosed
  · intro hnone
    rw [Table.resolve_none, List.findSome?_eq_none_iff] at hnone
    exact NameMap.get?_eq_none_iff.1 (hnone frame' hframe')
      (List.mem_map.2 ⟨_, hname ▸ hentry, rfl⟩)
  · exact absurd (by rw [hpath]) (h.apart hclosed hframe)

theorem params_declare {reach : Reach} {line : Option Nat}
    (hd : declare reach name .routine line { params := some ids } t = .ok id t') :
    ∃ r ∈ (t'.symbol id).routine?, r.params = ids := by
  rcases declare_eq_ok hd with ⟨-, hcls, rfl⟩ | ⟨-, -, rfl, kind, hkind, rfl⟩
  · obtain ⟨r, hr⟩ := Symbol.exists_routine hcls
    rw [symbol_modifySymbol (has_of_routine? hr), if_pos rfl, Symbol.routine?_merge_some rfl hr]
    exact ⟨_, rfl, rfl⟩
  · obtain ⟨⟨⟩, -⟩ | ⟨-, rfl⟩ := ofFields_eq_ok hkind
    rw [symbol_insertAt, if_pos rfl]
    exact ⟨_, rfl, rfl⟩

end Table

namespace Lowering

variable {s s' : Lowering} {name : String} {line : Nat} {params : List String}
  {id j : SymbolId} {n : Nat} {rest : List Scope} {t : Table}

theorem scopes_declare_innermost {p : String} {scope : Scope}
    (hscopes : s.table.scopes = scope :: rest)
    (hd : Table.declare .innermost p .var (some line) {} s.table = .ok id t) :
    ∃ names, t.scopes = ⟨scope.name, names⟩ :: rest ∧ names.get? p = some id ∧
      (∀ {x i}, scope.names.get? x = some i → names.get? x = some i) ∧
      ∀ {x}, (names.get? x).isSome → (scope.names.get? x).isSome ∨ x.toUpper = p.toUpper := by
  rcases Table.declare_eq_ok hd with ⟨hid, -, rfl⟩ | ⟨hnone, -, rfl, kind, -, rfl⟩
  · exact ⟨scope.names, hscopes, by simpa [Table.declared, hscopes] using hid,
      fun hx => hx, .inl⟩
  · have hnew : scope.names.get? p = none := by simpa [Table.declared, hscopes] using hnone
    refine ⟨scope.names.insert p
      ⟨s.table.symbols.size⟩, by simp [Table.insertAt, Table.frame, hscopes],
      NameMap.get?_insert .., fun {x i} hx => ?_, fun {x} hx => ?_⟩
    · rw [NameMap.get?_insert_of_ne, hx]
      intro he
      rw [NameMap.get?, ← he, ← NameMap.get?, hnew] at hx
      simp at hx
    · by_cases he : p.toUpper = x.toUpper
      · exact .inr he.symm
      · rw [NameMap.get?_insert_of_ne he] at hx
        exact .inl hx

theorem Declares.scopes {scope : Scope} (h : Declares line s params ids s')
    (hscopes : s.table.scopes = scope :: rest) :
    ∃ names, s'.table.scopes = ⟨scope.name, names⟩ :: rest ∧
      params.map names.get? = ids.map some ∧
      (∀ {x i}, scope.names.get? x = some i → names.get? x = some i) ∧
      ∀ {x}, (names.get? x).isSome → (scope.names.get? x).isSome ∨
      x.toUpper ∈ params.map String.toUpper := by
  induction h generalizing scope with
  | nil => exact ⟨scope.names, hscopes, rfl, fun hx => hx, .inl⟩
  | cons hd _ ih =>
    obtain ⟨names, hscopes₁, hp, hkept, honly⟩ := scopes_declare_innermost hscopes hd
    obtain ⟨names', hscopes₂, hmap, hkept', honly'⟩ := ih hscopes₁
    refine ⟨names', hscopes₂, by simp [hmap, hkept' hp], fun hx => hkept' (hkept hx),
      fun {x} hx => ?_⟩
    rw [List.map_cons, List.mem_cons]
    rcases honly' hx with hx | hx
    · exact (honly hx).imp_right .inl
    · exact .inr (.inr hx)

theorem Declares.symbols (h : Declares line s params ids s') (j : SymbolId) :
    (s'.table.symbol j).usage = (s.table.symbol j).usage ∧
    (s'.table.Has j → s.table.Has j ∨ j ∈ ids) := by
  induction h with
  | nil => exact ⟨rfl, .inl⟩
  | cons hd _ ih =>
    refine ⟨ih.1.trans (Table.usage_declare rfl hd j), fun hj => ?_⟩
    rw [List.mem_cons, ← or_assoc]
    exact (ih.2 hj).imp_left (Table.has_of_declare hd)

structure Between (s : Lowering) (n : Nat) (known : List String) : Prop where
  ok : s.Ok []
  paths : (frames s.table.scopes).map (·.1) = [""]
  divided : s.table.Divided n
  globals : ∀ x, (∃ id, s.table.IsGlobal x id) ↔ x ∈ known.map String.toUpper

structure Begun (n : Nat) (name : String) (params : List String) (t : Table) (b : Lowering)
    (id : SymbolId) (ids : List SymbolId) : Prop where
  ok : b.Ok []
  opened : b.Opened name id
  gives : t.Gives id { params := ids } b.table
  passes : t.Passes [] b.table
  source : n ≤ id.index
  fresh : ∀ {j}, t.Has j → (t.symbol j).scope.toUpper ≠ ("@" ++ name).toUpper
  has : ∀ {j}, b.table.Has j → t.Has j ∨ j = id ∨ j ∈ ids
  frames : ∃ inner outer, frames b.table.scopes = [("@" ++ name, inner), ("", outer)] ∧
    params.map inner.get? = ids.map some ∧ ∀ {x}, (inner.get? x).isSome →
    x.toUpper ∈ params.map String.toUpper
  usage : ∀ j, (b.table.symbol j).usage =
    (t.symbol j).usage + if 0 < (t.symbol id).usage then ids.count j else 0

theorem Ok.declare_params {s₃ : Lowering} {i : SymbolId} (h : (s₃.setTable t).Ok [])
    (ho : (s₃.setTable t).Opened name id)
    (hd : Table.declare .anywhere name .routine none { params := some ids } s₃.table = .ok i t) :
    s₃.table.Edits t ∧ ∃ r ∈ (t.symbol id).routine?, r.params = ids := by
  obtain ⟨r, hr, hparams⟩ := Table.params_declare hd
  have hpath : scopePath s₃.table.scopes = "@" ++ name :=
    (Table.scopePath_declare hd).symm.trans (scopePath_of_paths ho.paths)
  have hi := h.live.sound.resolve_none (Table.resolve_none_declare (by simp) hd)
  obtain rfl := h.live.isRoutine_unique ho.routine ⟨hi.1, Symbol.cls_of_routine? hr, hi.2.1⟩
  refine ⟨?_, r, hr, hparams⟩
  rcases Table.declare_eq_ok hd with ⟨-, -, rfl⟩ | ⟨-, -, rfl, kind, -, rfl⟩
  · exact Table.edits_merge _ _ _ rfl
  · -- a routine is never new in the scope of a procedure
    have hscope := h.live.top r hr
    rw [table_setTable, Table.symbol_insertAt, if_pos rfl] at hscope
    simpa using congrArg String.toList (hpath.symm.trans hscope)

theorem Ok.scope_ne_of_has (h : s.Ok []) (hpaths : s.table.AtTop)
    (hfree : s.table.IsFree name) (hj : s.table.Has j) :
    (s.table.symbol j).scope.toUpper ≠ ("@" ++ name).toUpper := by
  obtain ⟨outer, houter⟩ := exists_outer hpaths
  rcases h.live.sound.placed hj with ⟨frame, hframe, hentry⟩ | hclosed
  · have hpath : frame.1 ∈ [""] := hpaths ▸ List.mem_map_of_mem hframe
    rw [(h.live.sound.entry hframe hentry).2.2, List.mem_singleton.1 hpath]
    exact toUpper_at_ne name
  · exact h.scope_ne houter hfree hclosed

variable {known : List String}

theorem Between.source (h : s.Between n known) (hfree : s.table.IsFree name)
    (hd : Table.declare .anywhere name .routine (some line) {} s.table = .ok id t) :
    n ≤ id.index := by
  by_contra hlt
  have hlt := Nat.not_le.1 hlt
  rcases Table.declare_eq_ok hd with ⟨hid, hcls, -⟩ | ⟨-, -, rfl, -⟩
  · simpa [hfree id hid] using h.divided.defined hlt hcls
  · exact Nat.lt_irrefl _ (h.divided.has hlt)

theorem Between.begun (h : s.Between n known) (hname : IsName name)
    (hparams : ∀ p ∈ params, IsName p) (hb : beginProcedure name line params s = .ok id s') :
    ∃ ids, Begun n name params s.table s' id ids := by
  obtain ⟨hok, hopened, -, -, -, ids, -, hgives, -⟩ :=
    h.ok.beginProcedure h.paths hname hparams hb
  have hpasses := h.ok.passes_beginProcedure h.paths hname hparams hb
  obtain ⟨hfree, hopen⟩ := beginProcedure_eq_ok hb
  obtain ⟨t₁, ids', s₂, s₃, i, t₄, hd, hdeclares, huse, hd', rfl⟩ :=
    openProcedure_eq_ok hopen
  obtain ⟨hadds, -⟩ := h.ok.declare_procedure h.paths hname hfree hd
  have hok₄ : (s₃.setTable t₄).Ok [] :=
    ⟨hok.lowered, hok.main, hok.entry, hok.blank, hok.owned⟩
  have hopened₄ : (s₃.setTable t₄).Opened name id :=
    ⟨hopened.paths, hopened.routine, hopened.line, hopened.ne, hopened.code⟩
  obtain ⟨hedits, r, hr, hids⟩ := hok₄.declare_params hopened₄ hd'
  have hroutine : (t₄.symbol id).routine? = some { params := ids } :=
    (hgives.routine id).trans (if_pos rfl)
  obtain rfl : ids' = ids := by
    obtain rfl : r = { params := ids } := by simpa [hroutine, eq_comm] using hr
    exact hids.symm
  have hcounts := counts_params huse
  have husage₂ (j : SymbolId) : (s₂.table.symbol j).usage = (s.table.symbol j).usage :=
    (hdeclares.symbols j).1.trans (Table.usage_declare rfl hd j)
  refine ⟨ids', hok, hopened, hgives, hpasses, h.source hfree hd,
    h.ok.scope_ne_of_has h.paths hfree, fun {j} hj => ?_, ?_, fun j => ?_⟩
  · rw [← or_assoc]
    exact ((hdeclares.symbols j).2 (hcounts.has.1 (hedits.has.1 hj))).imp_left
      (Table.has_of_declare hd)
  · obtain ⟨outer, houter⟩ := exists_outer (hadds.table.paths.trans h.paths)
    have hopen : ((s.setTable t₁).openScope name).table.scopes =
      ⟨name, {}⟩ :: t₁.scopes := rfl
    obtain ⟨inner, hscopes, hmap, -, honly⟩ := hdeclares.scopes hopen
    rw [← table_setTable s t₁, houter] at hscopes
    refine ⟨inner, outer, ?_, hmap, fun hx => by simpa [NameMap.get?] using honly hx⟩
    change frames t₄.scopes = _
    rw [hedits.scopes, hcounts.scopes, hscopes]
    simp [frames, scopePath, hname.nonempty]
  · change (t₄.symbol j).usage = _
    rw [Table.usage_declare rfl hd', ← husage₂ id, ← husage₂ j]
    rcases huse with ⟨hpos, huse⟩ | ⟨hzero, rfl⟩
    · have hvars : ∀ m ∈ ids', s₂.table.IsVar m := by
        intro m hm
        have hmem : m ∈ t₄.dependencies id := by simpa [Table.dependencies, hroutine] using hm
        have hvar : t₄.IsVar m := hok.live.isVar hmem
        exact ⟨hcounts.has.1 (hedits.has.1 hvar.1),
          ((hcounts.symbol m).cls.symm.trans (hedits.symbol m).cls.symm).trans hvar.2⟩
      cases huse.symm.trans (forM_countUse hvars)
      rw [if_pos hpos, table_setTable, Table.usage_useAll fun m hm => (hvars m hm).1]
    · simp [hzero]

variable {header : Header}

namespace Begun

variable {t T : Table} {b : Lowering} {ids : List SymbolId}

section

variable (h : Begun n name params t b id ids)

include h

theorem exists_maps : ∃ inner outer : NameMap,
    (∀ x, b.table.resolve x none none = (inner.get? x).or (outer.get? x)) ∧
      (∀ {x m}, inner.get? x = some m → (b.table.symbol m).name.toUpper = x.toUpper ∧
        (b.table.symbol m).scope = "@" ++ name) ∧
      (∀ {x m}, outer.get? x = some m → (b.table.symbol m).scope = "") ∧
      params.map inner.get? = ids.map some ∧ ∀ {x}, (inner.get? x).isSome →
      x.toUpper ∈ params.map String.toUpper := by
  obtain ⟨inner, outer, hframes, hparams⟩ := h.frames
  have hinner : ("@" ++ name, inner) ∈ TurtleCompiler.frames b.table.scopes := by simp [hframes]
  have houter : ("", outer) ∈ TurtleCompiler.frames b.table.scopes := by simp [hframes]
  refine ⟨inner, outer, fun x => ?_,
    fun hm => (h.ok.live.sound.entry hinner (NameMap.mem_of_get? hm)).2,
    fun hm => (h.ok.live.sound.entry houter (NameMap.mem_of_get? hm)).2.2, hparams⟩
  rw [Table.resolve_none, hframes, List.findSome?_cons, List.findSome?_cons, List.findSome?_nil]
  dsimp only
  cases inner.get? x <;> cases outer.get? x <;> rfl

theorem mem_params (hj : j ∈ ids) :
    b.table.IsVar j ∧ (b.table.symbol j).scope = "@" ++ name ∧
      (b.table.symbol j).name.toUpper ∈ params.map String.toUpper := by
  obtain ⟨inner, -, -, hinner, -, hmap, -⟩ := h.exists_maps
  have hroutine : (b.table.symbol id).routine? = some { params := ids } :=
    (h.gives.routine id).trans (if_pos rfl)
  have hmem : j ∈ b.table.dependencies id := by simpa [Table.dependencies, hroutine] using hj
  have hvar := h.ok.live.isVar hmem
  obtain ⟨p, hp, hget⟩ : ∃ p ∈ params, inner.get? p = some j := by
    rw [← List.mem_map, hmap]
    exact List.mem_map_of_mem hj
  obtain ⟨hkey, hscope⟩ := hinner hget
  exact ⟨hvar, hscope, hkey ▸ List.mem_map_of_mem hp⟩

theorem divided (ht : t.Live) (hdiv : t.Divided n) : b.table.Divided n := by
  refine hdiv.gives ht h.gives h.source rfl fun m hm => ?_
  rw [(h.mem_params (by simpa using hm)).2.1, toUpper_at, toUpper_at, h.opened.routine.2.2]

theorem home (x : String) :
    b.table.home x.toUpper = "@" ++ name ∧
        (x.toUpper ∈ params.map String.toUpper ∨ b.table.resolve x none none = none) ∨
      b.table.home x.toUpper = "" ∧ x.toUpper ∉ params.map String.toUpper ∧
        ∃ i, b.table.resolve x none none = some i ∧ (b.table.symbol i).scope = "" := by
  obtain ⟨inner, outer, hresolve, hinner, houter, hmap, honly⟩ := h.exists_maps
  have hhome : b.table.home x.toUpper =
      ((b.table.resolve x none none).map fun i => (b.table.symbol i).scope).getD ("@" ++ name) := by
    rw [Table.home, ← Table.resolve_eq_found, scopePath_of_paths h.opened.paths]
  rw [hhome, hresolve]
  cases hin : inner.get? x with
  | some m => exact .inl ⟨by simpa using (hinner hin).2, .inl (honly (by simp [hin]))⟩
  | none =>
    have hx : x.toUpper ∉ params.map String.toUpper := by
      intro hx
      obtain ⟨p, hp, hpx⟩ := List.mem_map.1 hx
      have hsome : inner.get? p ∈ ids.map some := hmap ▸ List.mem_map_of_mem hp
      have hnone : inner.get? p = none := by rw [NameMap.get?, hpx, ← NameMap.get?, hin]
      simp [hnone] at hsome
    cases hout : outer.get? x with
    | some i => exact .inr ⟨by simpa using houter hout, hx, i, rfl, houter hout⟩
    | none => exact .inl ⟨rfl, .inr rfl⟩

theorem count (hleads : b.table.Leads T) (hlive : T.Live) (hj : T.Has j)
    (hscope : (T.symbol j).scope = "@" ++ name) :
    ids.count j = occurrences (T.symbol j).name params := by
  obtain ⟨inner, -, -, hinner, -, hmap, -⟩ := h.exists_maps
  have hget {p : String} (hp : p ∈ params) :
      inner.get? p = some j ↔ p.toUpper = (T.symbol j).name.toUpper := by
    obtain ⟨m, hm, hpm⟩ : ∃ m ∈ ids, some m = inner.get? p := by
      rw [← List.mem_map, ← hmap]
      exact List.mem_map_of_mem hp
    obtain ⟨hname, hscope'⟩ := hinner hpm.symm
    have hgrows := hleads.grows (h.mem_params hm).1.1
    rw [← hpm, Option.some.injEq, ← hname, ← hgrows.name]
    constructor
    · rintro rfl
      rfl
    · intro he
      have hhas := hleads.has (h.mem_params hm).1.1
      refine hlive.sound.unique hhas hj ?_
      rw [(hlive.sound.named hhas).1, (hlive.sound.named hj).1, hscope, hgrows.scope, hscope']
      exact toUpper_qualify he _
  calc ids.count j = (ids.map some).count (some j) :=
    (List.count_map_of_injective ids some (Option.some_injective _) j).symm
    _ =
    params.countP (inner.get? · == some j) := by rw [← hmap, List.count, List.countP_map]; rfl
    _ = occurrences (T.symbol j).name params := List.countP_congr fun p hp => by simp [hget hp]

end

theorem home_global (h : Begun n header.name header.params t b id ids)
    (hleads : b.table.Leads T) (hlive : T.Live)
    (hknown : ∀ x, (∃ i, t.IsGlobal x i) ↔ x ∈ known.map String.toUpper)
    (hj : T.IsVar j) (hscope : (T.symbol j).scope = "") :
    "" = b.table.home (T.symbol j).name.toUpper ↔
    header.owns known (T.symbol j).name = false := by
  have howns : header.owns known (T.symbol j).name = false ↔
      (T.symbol j).name.toUpper ∉ header.params.map String.toUpper ∧
        (T.symbol j).name.toUpper ∈ known.map String.toUpper := by
    rw [← occurrences_ne_zero, ← occurrences_ne_zero]
    simp [Header.owns]
  rw [howns]
  rcases h.home (T.symbol j).name with ⟨hhome, hwhy⟩ | ⟨hhome, hparam, i, hresolve, hscope'⟩
  · refine iff_of_false (by simp [hhome, ← String.toList_inj]) fun ⟨hparam, hmem⟩ => ?_
    -- a known variable is found from the body
    obtain ⟨i, hi⟩ := (hknown _).2 hmem
    have hgrows := h.gives.grows hi.1.1
    refine h.ok.live.sound.resolve_ne_none (h.gives.has hi.1.1) ?_ ?_ (hwhy.resolve_left hparam)
    · rw [h.opened.paths, hgrows.scope, hi.2.1]
      simp
    · rw [hgrows.name, hi.2.2]
  · refine iff_of_true hhome.symm ⟨hparam, (hknown _).1 ⟨i, ?_⟩⟩
    obtain ⟨hhas, hname, -⟩ := h.ok.live.sound.resolve_none hresolve
    have hgrows := hleads.grows hhas
    obtain rfl : i = j := by
      refine hlive.sound.unique (hleads.has hhas) hj.1 ?_
      rw [(hlive.sound.named (hleads.has hhas)).1, (hlive.sound.named hj.1).1, hscope,
        hgrows.scope, hscope']
      exact toUpper_qualify (by rw [hgrows.name, hname]) _
    have hglobal : b.table.IsGlobal (T.symbol i).name.toUpper i :=
      ⟨⟨hhas, hgrows.cls.symm.trans hj.2⟩, hscope', hname⟩
    exact (h.passes.isGlobal hglobal).resolve_right (by simp)

end Begun

structure Done (n : Nat) (header : Header) (body : List Stmt) (t : Table) (id : SymbolId)
    (ids : List SymbolId) (b e : Lowering) (t' : Table) : Prop where
  begun : Begun n header.name header.params t b id ids
  names : ∀ m ∈ mentionsOfAll body, ∀ x ∈ m.name?, IsName x
  heeds : Table.HeedsAll (mentionsOfAll body) b.table e.table
  ended : ∃ d, e.table.Gives id { params := ids, code := some d } t'
  passes : e.table.Passes [] t'
  has : ∀ {j}, t'.Has j → e.table.Has j
  usage : ∀ j, (t'.symbol j).usage = (e.table.symbol j).usage

theorem Begun.done {body : List Stmt} {site : Site} {b s₁ s₂ : Lowering}
    {nodes : List Node} {u u' : Unit} (h : Begun n header.name header.params t b id ids)
    (hnames : ∀ x ∈ namesOfAll body, IsName x) (hbody : lowerAll body b = .ok nodes s₁)
    (henter : enter site.notes s₁ = .ok u s₂) (hend : endProcedure id nodes s₂ = .ok u' s') :
    Done n header body t id ids b s₂ s'.table := by
  have hadds := ((allBecome body hbody).adds hnames h.ok.live).trans (Lowering.adds_enter henter)
  rw [List.append_nil] at hadds
  have hok := h.ok.adds hadds
  have hopened := h.opened.adds hadds
  obtain ⟨-, -, -, r, hr, hgives⟩ := hok.endProcedure hopened hadds.fits hend
  have hroutine : (s₂.table.symbol id).routine? = some { params := ids } :=
    (hadds.table.routine h.opened.routine.1).trans ((h.gives.routine id).trans (if_pos rfl))
  obtain rfl : r = { params := ids } := by simpa [hroutine, eq_comm] using hr
  obtain ⟨t', scope, scopes, hset, -, rfl⟩ := endProcedure_eq_ok hend
  refine ⟨h, fun m hm x hx => hnames x ?_, ?_, ⟨_, hgives⟩,
    hok.passes_endProcedure hopened hend, fun {j} hj => ?_, fun j => ?_⟩
  · exact name?_mentionsOfAll body (List.mem_filterMap.2 ⟨m, hm, hx⟩)
  · rw [Lowering.table_enter henter]
    exact (allBecome body hbody).heeds
  · obtain ⟨-, rfl⟩ := Table.setCode_eq_ok hset
    rw [Table.Has, show _ = _ from symbols_closeScope ..] at hj
    simpa [Table.Has, Table.modifySymbol] using hj
  · rw [Table.symbol_eq_of_symbols (show _ = _ from symbols_closeScope ..)]
    exact Table.usage_setCode hset j

theorem Between.enter {notes : List Event} {u : Unit} (h : s.Between n known)
    (henter : enter notes s = .ok u s') : s'.Between n known := by
  have htable := Lowering.table_enter henter
  exact ⟨h.ok.adds (Lowering.adds_enter henter), htable ▸ h.paths, htable ▸ h.divided,
    htable ▸ h.globals⟩

theorem Between.begun_header (h : s.Between n known) (hname : IsName header.name)
    (hparams : ∀ p ∈ header.params, IsName p) (hrun : header.lower s = .ok id s') :
    ∃ ids, Begun n header.name header.params s.table s' id ids := by
  simp only [Header.lower, bind_eq_ok] at hrun
  obtain ⟨_, s₁, henter, hbegin⟩ := hrun
  rw [← Lowering.table_enter henter]
  exact (h.enter henter).begun hname hparams hbegin

theorem Between.done {body : List Stmt} {site : Site} {fault : Option Error}
    (h : s.Between n known) (hnames : ∀ x ∈ (Item.definition header body site).names, IsName x)
    (hrun : (Item.definition header body site).lower s = .ok fault s') :
    ∃ id ids b e, Done n header body s.table id ids b e s'.table := by
  simp only [Item.lower, bind_eq_ok, pure_eq_ok] at hrun
  obtain ⟨id, s₂, hheader, nodes, s₃, hbody, _, s₄, henter, _, s₅, hend, -, rfl⟩ := hrun
  simp only [Item.names, List.forall_mem_cons, List.forall_mem_append] at hnames
  obtain ⟨ids, hbegun⟩ := h.begun_header hnames.1 hnames.2.1 hheader
  exact ⟨id, ids, s₂, s₄, hbegun.done hnames.2.2 hbody henter hend⟩

namespace Done

variable {t t' T : Table} {b e : Lowering} {ids : List SymbolId} {header : Header}
  {body : List Stmt}

section

variable (h : Done n header body t id ids b e t')

include h

theorem live : e.table.Live := by
  obtain ⟨_, he⟩ := h.heeds.extends h.begun.ok.live h.names
  exact h.begun.ok.live.extends he

theorem leads : b.table.Leads t' :=
  (h.heeds.leads h.begun.ok.live h.names).trans h.passes.leads

theorem divided (ht : t.Live) (hdiv : t.Divided n) : t'.Divided n := by
  obtain ⟨_, he⟩ := h.heeds.extends h.begun.ok.live h.names
  obtain ⟨d, hgives⟩ := h.ended
  refine ((h.begun.divided ht hdiv).extends h.begun.ok.live he).gives h.live hgives h.begun.source
    rfl fun m hm => ?_
  obtain ⟨hvar, hscope, -⟩ := h.begun.mem_params (by simpa using hm)
  rw [(h.leads.grows hvar.1).scope, hscope, (h.leads.grows h.begun.opened.routine.1).name,
    toUpper_at, toUpper_at, h.begun.opened.routine.2.2]

theorem home (hleads : t'.Leads T) (hnew : ¬ t.Has j) (hvar : e.table.IsVar j)
    (hscope : (T.symbol j).scope ≠ "") : (T.symbol j).scope = b.table.home
    (T.symbol j).name.toUpper ∧ (T.symbol j).scope = "@" ++ header.name := by
  have hlive := h.begun.ok.live
  have hgrows := (h.passes.leads.trans hleads).grows hvar.1
  rcases (h.heeds.isAt hlive hlive.sound.homes_home h.names).2 hvar with hhas | ⟨x, -, hx⟩
  · have hgrows' := (h.leads.trans hleads).grows hhas
    obtain rfl | hmem := (h.begun.has hhas).resolve_left hnew
    · have hcls := hgrows'.cls.symm.trans (hgrows.cls.trans hvar.2)
      simp [h.begun.opened.routine.2.1] at hcls
    · obtain ⟨-, hpath, hname⟩ := h.begun.mem_params hmem
      rw [hgrows'.scope, hgrows'.name, hpath]
      obtain ⟨hhome, -⟩ := (h.begun.home (b.table.symbol j).name).resolve_right fun hout =>
        hout.2.1 hname
      exact ⟨hhome.symm, rfl⟩
  · have hhome : (T.symbol j).scope = b.table.home (T.symbol j).name.toUpper := by
      rw [hgrows.scope, hgrows.name, hx.2.1, hx.2.2]
    refine ⟨hhome, hhome.trans ?_⟩
    exact ((h.begun.home (T.symbol j).name).resolve_right fun hout => hscope (hhome.trans hout.1)).1

end

end Done

end Lowering

namespace Source

inductive Runs (n : Nat) (T : Table) : List String → Lowering → List Item → Lowering → Prop
  | nil {known : List String} {s : Lowering} : Runs n T known s [] s
  | cons {known : List String} {s s₁ s' : Lowering} {i : Item} {items : List Item}
      {fault : Option Error} : i.isComplete → (∀ x ∈ i.names, IsName x) →
      s.Between n known → i.lower s = .ok fault s₁ → s₁.table.Leads T →
      Runs n T (known ++ i.globals) s₁ items s' → Runs n T known s (i :: items) s'

variable {s s' : Lowering} {i : Item} {n : Nat} {known : List String} {fault : Option Error}

theorem Item.heeds_statement {st : Stmt} (hrun : (Item.statement st).lower s = .ok fault s') :
    Table.HeedsAll st.mentions s.table s'.table := by
  simp only [Item.lower, bind_eq_ok, pure_eq_ok] at hrun
  obtain ⟨n, s₁, hn, _, s₂, hadd, -, rfl⟩ := hrun
  obtain rfl := modify_eq_ok.1 hadd
  change Table.HeedsAll st.mentions s.table s₁.table
  exact (st.becomes hn).heeds

theorem Stmt.isName_mentions {st : Stmt} (hnames : ∀ x ∈ st.names, IsName x) :
    ∀ m ∈ st.mentions, ∀ x ∈ m.name?, IsName x :=
  fun m hm x hx => hnames x (st.name?_mentions (List.mem_filterMap.2 ⟨m, hm, hx⟩))

theorem Item.between_lower (hi : i.isComplete) (hnames : ∀ x ∈ i.names, IsName x)
    (h : s.Between n known) (hrun : i.lower s = .ok fault s') :
    s'.Between n (known ++ i.globals) := by
  obtain ⟨hok, hpaths⟩ := (Item.becomes hi hrun).1.ok hnames h.ok h.paths
  cases i with
  | statement st =>
    have hheeds := heeds_statement hrun
    have hnames := st.isName_mentions hnames
    obtain ⟨_, he⟩ := hheeds.extends h.ok.live hnames
    have hleads := hheeds.leads h.ok.live hnames
    obtain ⟨hmem, hnew⟩ := hheeds.isAt h.ok.live (h.ok.live.sound.homes h.paths) hnames
    refine ⟨hok, hpaths, h.divided.extends h.ok.live he, fun x => ?_⟩
    rw [List.map_append, List.mem_append, ← h.globals]
    constructor
    · rintro ⟨id, hid⟩
      rcases hnew hid.1 with hhas | ⟨y, hy, hid'⟩
      · exact .inl ⟨id, (hleads.isGlobal_iff hhas).1 hid⟩
      · exact .inr (List.mem_map.2 ⟨y, hy, hid'.2.2.symm.trans hid.2.2⟩)
    · rintro (⟨id, hid⟩ | hx)
      · exact ⟨id, (hleads.isGlobal_iff hid.1.1).2 hid⟩
      · obtain ⟨y, hy, rfl⟩ := List.mem_map.1 hx
        exact hmem y hy
  | definition header body site =>
    obtain ⟨id, ids, b, e, hw⟩ := h.done hnames hrun
    have hpasses := (Item.becomes hi hrun).1.passes hnames h.ok h.paths
    refine ⟨hok, hpaths, hw.divided h.ok.live h.divided, fun x => ?_⟩
    rw [globals, List.append_nil, ← h.globals]
    refine exists_congr fun id =>
      ⟨fun hid => (hpasses.isGlobal hid).resolve_right (by simp [outerNames]), ?_⟩
    exact fun hid => (hpasses.leads.isGlobal_iff hid.1.1).2 hid
  | broken done fault => simp [Item.isComplete] at hi

section Usage

variable {T : Table} {j : SymbolId} {name f : String} {c : Nat}

section

variable (hi : i.isComplete) (hnames : ∀ x ∈ i.names, IsName x) (h : s.Between n known)
  (hrun : i.lower s = .ok fault s')

include hi hnames h hrun

theorem Item.usage_routine (hleads : s'.table.Leads T) (hlive : T.Live) (hj : n ≤ j.index)
    (hroutine : T.IsRoutine name j) :
    (s'.table.symbol j).usage = (s.table.symbol j).usage + callsOf name i.mentions := by
  cases i with
  | statement st =>
    exact (heeds_statement hrun).usage_routine h.ok.live h.divided (st.isName_mentions hnames)
      hleads hlive hj hroutine
  | definition header body site =>
    obtain ⟨id, ids, b, e, hw⟩ := h.done hnames hrun
    have hcount : ids.count j = 0 := by
      refine List.count_eq_zero.2 fun hmem => ?_
      have hvar := (hw.begun.mem_params hmem).1
      simpa [hroutine.2.1] using ((hw.leads.trans hleads).grows hvar.1).cls.trans hvar.2
    rw [hw.usage,
      hw.heeds.usage_routine hw.begun.ok.live (hw.begun.divided h.ok.live h.divided) hw.names
      (hw.passes.leads.trans hleads) hlive hj hroutine, hw.begun.usage, hcount, ite_self]
    rfl
  | broken done fault => simp [Item.isComplete] at hi

theorem Item.usage_global (hleads : s'.table.Leads T) (hlive : T.Live) (hj : n ≤ j.index)
    (hvar : T.IsVar j) (hscope : (T.symbol j).scope = "") :
    (s'.table.symbol j).usage = (s.table.symbol j).usage + i.globalReads known
    (T.symbol j).name := by
  cases i with
  | statement st =>
    have hheeds := heeds_statement hrun
    have hnames := st.isName_mentions hnames
    have hnone := h.divided.not_mem_global hj fun hhas =>
      (((hheeds.leads h.ok.live hnames).trans hleads).grows hhas).scope.symm.trans hscope
    rw [hheeds.usage_var h.ok.live h.divided (h.ok.live.sound.homes h.paths) (.of_not_mem hnone "")
      hnames hleads hlive hj hvar, if_pos hscope, Nat.zero_mul, Nat.add_zero]
    rfl
  | definition header body site =>
    obtain ⟨id, ids, b, e, hw⟩ := h.done hnames hrun
    have hleads' := hw.leads.trans hleads
    have hdiv := hw.begun.divided h.ok.live h.divided
    have hnone := hdiv.not_mem_global hj fun hhas => (hleads'.grows hhas).scope.symm.trans hscope
    have hcount : ids.count j = 0 := by
      refine List.count_eq_zero.2 fun hmem => ?_
      obtain ⟨hvar', hscope', -⟩ := hw.begun.mem_params hmem
      rw [(hleads'.grows hvar'.1).scope, hscope'] at hscope
      simpa using congrArg String.toList hscope
    rw [hw.usage,
      hw.heeds.usage_var hw.begun.ok.live hdiv hw.begun.ok.live.sound.homes_home
      (.of_not_mem hnone "") hw.names (hw.passes.leads.trans hleads) hlive hj hvar, hw.begun.usage,
      hcount, ite_self, Nat.zero_mul, hscope]
    simp only [hw.begun.home_global hleads' hlive h.globals hvar hscope, globalReads, Nat.add_zero]
    cases header.owns known (T.symbol j).name <;> simp
  | broken done fault => simp [Item.isComplete] at hi

theorem Item.usage_passed (hleads : s'.table.Leads T) (hlive : T.Live) (hj : n ≤ j.index)
    (hpassed : s.table.PassedBy j f c) :
    (s'.table.symbol j).usage = (s.table.symbol j).usage + c * callsOf f i.mentions := by
  have hpasses := (Item.becomes hi hrun).1.passes hnames h.ok h.paths
  have hgrows := (hpasses.leads.trans hleads).grows hpassed.isVar.1
  have hvar : T.IsVar j :=
    ⟨hleads.has (hpasses.leads.has hpassed.isVar.1), hgrows.cls.trans hpassed.isVar.2⟩
  have hscope : (T.symbol j).scope = "@" ++ f := hgrows.scope.trans hpassed.scope
  cases i with
  | statement st =>
    have hne : (T.symbol j).scope ≠ "" := by simp [hscope, ← String.toList_inj]
    rw [(heeds_statement hrun).usage_var h.ok.live h.divided (h.ok.live.sound.homes h.paths)
      (hpassed.supplies h.ok.live h.divided hj) (st.isName_mentions hnames) hleads hlive hj hvar,
      if_neg hne, Nat.add_zero]
    rfl
  | definition header body site =>
    obtain ⟨id, ids, b, e, hw⟩ := h.done hnames hrun
    have hfresh := hw.begun.fresh hpassed.isVar.1
    rw [hpassed.scope] at hfresh
    have hcount : ids.count j = 0 := by
      refine List.count_eq_zero.2 fun hmem => hfresh ?_
      rw [← (hw.begun.mem_params hmem).2.1, (hw.begun.gives.grows hpassed.isVar.1).scope,
        hpassed.scope]
    have hne : (T.symbol j).scope ≠ b.table.home (T.symbol j).name.toUpper := by
      rw [hscope]
      rcases hw.begun.home (T.symbol j).name with ⟨hhome, -⟩ | ⟨hhome, -⟩ <;> rw [hhome]
      · exact fun he => hfresh (congrArg String.toUpper he)
      · simp [← String.toList_inj]
    have hdiv := hw.begun.divided h.ok.live h.divided
    rw [hw.usage, hw.heeds.usage_var hw.begun.ok.live hdiv hw.begun.ok.live.sound.homes_home
      ((hpassed.passes hw.begun.passes).supplies hw.begun.ok.live hdiv hj) hw.names
      (hw.passes.leads.trans hleads) hlive hj hvar, if_neg hne, hw.begun.usage, hcount, ite_self]
    rfl
  | broken done fault => simp [Item.isComplete] at hi

theorem Item.usage_local (hleads : s'.table.Leads T) (hlive : T.Live) (hnew : ¬ s.table.Has j)
    (hj : s'.table.Has j) (hvar : (T.symbol j).cls = .var) (hscope : (T.symbol j).scope ≠ "") :
    ∃ header body site, i = .definition header body site ∧
      (T.symbol j).scope = "@" ++ header.name ∧
      s'.table.PassedBy j header.name (occurrences (T.symbol j).name header.params) ∧
      ∃ id, n ≤ id.index ∧ T.IsRoutine header.name id ∧ (s'.table.symbol j).usage =
        (if 0 < (s.table.symbol id).usage then occurrences (T.symbol j).name header.params else 0) +
          readsOf (T.symbol j).name (mentionsOfAll body) +
          occurrences (T.symbol j).name header.params *
          callsOf header.name (mentionsOfAll body) := by
  have hvar' : s'.table.IsVar j := ⟨hj, (hleads.grows hj).cls.symm.trans hvar⟩
  have hsource : n ≤ j.index := Nat.not_lt.1 fun hlt => hnew (h.divided.has hlt)
  cases i with
  | statement st =>
    have hnames := st.isName_mentions hnames
    obtain hhas | ⟨x, -, hx⟩ :=
      ((heeds_statement hrun).isAt h.ok.live (h.ok.live.sound.homes h.paths) hnames).2 hvar'
    · exact absurd hhas hnew
    · exact absurd ((hleads.grows hj).scope.trans hx.2.1) hscope
  | definition header body site =>
    obtain ⟨id, ids, b, e, hw⟩ := h.done hnames hrun
    have hleads' := hw.leads.trans hleads
    have hlive' := hw.begun.ok.live
    obtain ⟨hhome, hpath⟩ :=
      hw.home hleads hnew ⟨hw.has hj,
        (hw.passes.leads.grows (hw.has hj)).cls.symm.trans hvar'.2⟩ hscope
    have hcount := hw.begun.count hleads' hlive (hleads.has hj) hpath
    have hdeps : b.table.dependencies id = ids := by
      simp [Table.dependencies, (hw.begun.gives.routine id).trans (if_pos rfl)]
    have hdiv := hw.begun.divided h.ok.live h.divided
    have hsupplies := hdiv.supplies hlive' hsource hw.begun.opened.routine fun hhas => by
      rw [← (hleads'.grows hhas).scope, hpath]
    obtain ⟨d, hgives⟩ := hw.ended
    refine ⟨header, body, site, rfl, hpath,
      ⟨hvar', (hleads.grows hj).scope.symm.trans hpath, id, ?_, _,
      (hgives.routine id).trans (if_pos rfl), rfl, by simpa using hcount⟩, id, hw.begun.source,
      hleads'.isRoutine hw.begun.opened.routine, ?_⟩
    · exact hw.leads.isRoutine hw.begun.opened.routine
    · rw [hw.usage,
        hw.heeds.usage_var hlive' hdiv hlive'.sound.homes_home hsupplies hw.names
        (hw.passes.leads.trans hleads) hlive hsource ⟨hleads.has hj, hvar⟩, if_pos hhome,
        hw.begun.usage, Table.usage_of_not_has hnew, hdeps, hcount, Nat.zero_add]
  | broken done fault => simp [Item.isComplete] at hi

end

theorem runs_of_lower {items : List Item} {faults : List (Option Error)} (h : s.Between n known)
    (hcomplete : ∀ i ∈ items, i.isComplete)
    (hnames : ∀ i ∈ items, ∀ x ∈ i.names, IsName x)
    (hrun : items.mapM Item.lower s = .ok faults s') : Runs n s'.table known s items s' := by
  induction items generalizing s known faults with
  | nil =>
    simp only [List.mapM_nil, pure_eq_ok] at hrun
    exact hrun.2 ▸ .nil
  | cons i items ih =>
    obtain ⟨fault, s₁, hi, faults, hitems, rfl⟩ := mapM_cons_eq_ok.1 hrun
    simp only [List.forall_mem_cons] at hcomplete hnames
    have h₁ := i.between_lower hcomplete.1 hnames.1 h hi
    exact .cons hcomplete.1 hnames.1 h hi
      (passes_lower_items h₁.ok h₁.paths hcomplete.2 hnames.2 hitems).leads
      (ih h₁ hcomplete.2 hnames.2 hitems)

namespace Runs

variable {items : List Item}

section

variable (h : Runs n T known s items s') (hlive : T.Live)

include h hlive

theorem usage_routine (hj : n ≤ j.index) (hroutine : T.IsRoutine name j) :
    (s'.table.symbol j).usage = (s.table.symbol j).usage + callsOf name
    (items.flatMap Item.mentions) := by
  induction h with
  | nil => rfl
  | cons hi hnames hbetween hrun hleads _ ih =>
    rw [ih, Item.usage_routine hi hnames hbetween hrun hleads hlive hj hroutine, List.flatMap_cons,
      callsOf_append]
    omega

theorem usage_global (hj : n ≤ j.index) (hvar : T.IsVar j) (hscope : (T.symbol j).scope = "") :
    (s'.table.symbol j).usage = (s.table.symbol j).usage + globalReads
    (T.symbol j).name known items := by
  induction h with
  | nil => rfl
  | cons hi hnames hbetween hrun hleads _ ih =>
    rw [ih, Item.usage_global hi hnames hbetween hrun hleads hlive hj hvar hscope, globalReads]
    omega

theorem usage_passed (hj : n ≤ j.index) (hpassed : s.table.PassedBy j f c) :
    (s'.table.symbol j).usage = (s.table.symbol j).usage + c * callsOf f
    (items.flatMap Item.mentions) := by
  induction h with
  | nil => rfl
  | cons hi hnames hbetween hrun hleads _ ih =>
    rw [ih (hpassed.passes ((Item.becomes hi hrun).1.passes hnames hbetween.ok hbetween.paths)),
      Item.usage_passed hi hnames hbetween hrun hleads hlive hj hpassed, List.flatMap_cons,
      callsOf_append, Nat.mul_add]
    omega

theorem usage_local (hnew : ¬ s.table.Has j) (hj : s'.table.Has j) (hvar : (T.symbol j).cls = .var)
    (hscope : (T.symbol j).scope ≠ "") :
    ∃ before header body site after, items = before ++ .definition header body site :: after ∧
      (T.symbol j).scope = "@" ++ header.name ∧ ∃ id, n ≤ id.index ∧
        T.IsRoutine header.name id ∧ (s'.table.symbol j).usage =
          (if 0 < (s.table.symbol id).usage +
            callsOf header.name (before.flatMap Item.mentions) then
            occurrences (T.symbol j).name header.params else 0) +
          readsOf (T.symbol j).name (mentionsOfAll body) +
            occurrences (T.symbol j).name header.params *
              callsOf header.name (mentionsOfAll body ++ after.flatMap Item.mentions) := by
  induction h with
  | nil => exact absurd hj hnew
  | @cons _ s s₁ _ i items _ hi hnames hbetween hrun hleads hrest ih =>
    by_cases hj₁ : s₁.table.Has j
    · obtain ⟨header, body, site, rfl, hpath, hpassed, id, hid, hroutine, husage⟩ :=
        i.usage_local hi hnames hbetween hrun hleads hlive hnew hj₁ hvar hscope
      refine ⟨[], header, body, site, items, rfl, hpath, id, hid, hroutine, ?_⟩
      have hsource : n ≤ j.index := Nat.not_lt.1 fun hlt => hnew (hbetween.divided.has hlt)
      rw [hrest.usage_passed hlive hsource hpassed, husage, callsOf_append, Nat.mul_add]
      simp only [List.flatMap_nil, callsOf, List.countP_nil, Nat.add_zero]
      omega
    · obtain ⟨before, header, body, site, after, rfl, hpath, id, hid, hroutine, husage⟩ :=
        ih hj₁ hj
      refine ⟨i :: before, header, body, site, after, rfl, hpath, id, hid, hroutine, ?_⟩
      rw [husage, i.usage_routine hi hnames hbetween hrun hleads hlive hid hroutine,
        List.flatMap_cons, callsOf_append _ i.mentions, ← Nat.add_assoc]

end

end Runs

end Usage

end Source

namespace Lowering

def headingStart :
    { s : Start // (∀ id, s.table.Has id → (s.table.symbol id).cls = .var →
      (s.table.symbol id).scope = "" →
    (s.table.symbol id).name = headingName) ∧
      ∃ i < s.table.symbols.size, (s.table.symbol ⟨i⟩).cls = .var ∧
      (s.table.symbol ⟨i⟩).scope = "" ∧ (s.table.symbol ⟨i⟩).name = headingName } :=
    ⟨start, by decide +kernel⟩

variable {entry : SymbolId} {w : Workspace}

theorem divided_start (h : setup {} = .ok entry w) :
    start.table.Divided start.table.symbols.size where
  has hid := hid
  library hid hm := (start.live.isVar hm).1
  params hid hm := absurd (Table.has_of_mem_dependencies hm) (Nat.not_lt.2 hid)
  aliases {id target} halias := by
    have hrooted : start.table.Rooted := (eq_start h).2 ▸ (rooted_setup h).1
    obtain ⟨callee, hcallee, -⟩ := hrooted.offers (hrooted.aliases halias).1
    exact ⟨callee, hcallee.1, hcallee⟩
  primitives name hname := by
    have hrooted : start.table.Rooted := (eq_start h).2 ▸ (rooted_setup h).1
    obtain ⟨p, hp, rfl⟩ : ∃ p ∈ catalogue, p.name = name := by
      revert name
      decide
    obtain ⟨callee, hcallee, -⟩ := hrooted.offers (hrooted.library p hp)
    exact ⟨callee, hcallee.1, hcallee⟩
  defined {id} hid hcls := by
    obtain ⟨r, hr⟩ := Symbol.exists_routine hcls
    exact ((start.isStart.2.2.2 id hid).2.1 r hr).1

theorem between_setup (h : setup {} = .ok entry w) :
    ({ toWorkspace := w, entry } : Lowering).Between start.table.symbols.size [headingName] := by
  obtain ⟨hok, hpaths⟩ := ok_setup h
  refine ⟨hok, hpaths, (eq_start h).2 ▸ divided_start h, fun x => ?_⟩
  rw [show ({ toWorkspace := w, entry } : Lowering).table = start.table from (eq_start h).2]
  constructor
  · rintro ⟨id, hid, hscope, rfl⟩
    rw [show (start.table.symbol id).name = headingName from headingStart.2.1 id hid.1 hid.2 hscope]
    simp
  · intro hx
    obtain rfl : x = headingName.toUpper := by simpa using hx
    obtain ⟨i, hi, hcls, hscope, hname⟩ :
        ∃ i < start.table.symbols.size, (start.table.symbol ⟨i⟩).cls = .var ∧
          (start.table.symbol ⟨i⟩).scope = "" ∧
          (start.table.symbol ⟨i⟩).name = headingName := headingStart.2.2
    exact ⟨⟨i⟩, ⟨hi, hcls⟩, hscope, by rw [hname]⟩

theorem symbols_finish {s s' : Lowering} {u : Unit} (h : s.Ok []) (hf : finish s = .ok u s')
    (id : SymbolId) :
    (s'.table.Has id → s.table.Has id) ∧
      (s'.table.symbol id).usage = (s.table.symbol id).usage ∧
      (s.table.Has id → (s.table.symbol id).Grows (s'.table.symbol id)) := by
  obtain ⟨-, -, -, r, -, hgives⟩ := h.finish hf
  obtain ⟨-, t, scope, scopes, hset, -, rfl⟩ := finish_eq_ok hf
  have hsymbols := symbols_closeScope (s.setTable t) scope scopes
  refine ⟨fun hid => ?_, ?_, hgives.grows⟩
  · obtain ⟨-, rfl⟩ := Table.setCode_eq_ok hset
    simpa [Table.Has, hsymbols, Table.modifySymbol] using hid
  · rw [Table.symbol_eq_of_symbols hsymbols]
    exact Table.usage_setCode hset id

end Lowering

/-- When a source has been lowered, a procedure has been used once for each call of it, and a
variable once for each reference to it and each input into it. A parameter has also been used with
each call of its procedure, except that all the calls before the definition count once. -/
theorem usage_of_lower {source : String} {u : Unit} {w : Workspace}
    (h : lower (.ofText source) {} = .ok u w) {id : SymbolId} (hid : w.table.Has id)
    (hnew : ¬ Lowering.start.table.Has id) :
    CountsUses (parse (.ofText source)).items (w.table.symbol id) := by
  obtain ⟨entry, w₀, s', hsetup, hrun, rfl⟩ := Lowering.within_eq_ok h
  have hbetween := Lowering.between_setup hsetup
  obtain ⟨_, s₂, hlower, hfinish⟩ := bind_eq_ok.1 hrun
  obtain ⟨faults, s₁, hitems, hnone, henter⟩ := Program.lower_eq_ok hlower
  have hcomplete := complete_of_lower hitems hnone
  have hruns := runs_of_lower hbetween hcomplete (isName_of_parse hcomplete) hitems
  have hok :=
    (ok_lower_items hbetween.ok hbetween.paths hcomplete (isName_of_parse hcomplete) hitems).1
  have hlive := hok.live
  obtain ⟨hhas, husage, hgrows⟩ :=
    Lowering.symbols_finish (hok.adds (Lowering.adds_enter henter)) hfinish id
  rw [Lowering.table_enter henter] at hhas husage hgrows
  have hid := hhas hid
  have hgrows := hgrows hid
  have hsource : Lowering.start.table.symbols.size ≤ id.index := Nat.not_lt.1 hnew
  have hzero {j : SymbolId} (hj : Lowering.start.table.symbols.size ≤ j.index) :
      (w₀.table.symbol j).usage = 0 := by
    rw [(Lowering.eq_start hsetup).2]
    exact Table.usage_of_not_has (Nat.not_lt.2 hj)
  refine ⟨fun hcls => ?_, fun hcls hscope => ?_, fun hcls hscope => ?_⟩ <;>
    rw [hgrows.cls] at hcls <;> rw [husage, hgrows.name]
  · rw [hruns.usage_routine hlive hsource ⟨hid, hcls, rfl⟩, hzero hsource, Nat.zero_add]
  · rw [hruns.usage_global hlive hsource ⟨hid, hcls⟩ (hgrows.scope ▸ hscope),
      hzero hsource, Nat.zero_add]
  · rw [hgrows.scope] at hscope ⊢
    have hnew' : ¬ w₀.table.Has id := by rwa [(Lowering.eq_start hsetup).2]
    obtain ⟨before, header, body, site, after, hsplit, hpath, f, hf, -, huses⟩ :=
      hruns.usage_local hlive hnew' hid hcls hscope
    refine ⟨before, header, body, site, after, hsplit, hpath, ?_⟩
    rw [huses, hzero hf, Nat.zero_add, Header.localUses, Nat.mul_add]
    rcases Nat.eq_zero_or_pos
      (callsOf header.name (before.flatMap Item.mentions)) with hcalls | hcalls
    · rw [hcalls, Nat.min_zero, if_neg (Nat.lt_irrefl 0)]
      omega
    · rw [if_pos hcalls, Nat.min_eq_left hcalls]
      omega

theorem usage_of_lower_parameter : ∃ w,
    lower (.ofText "X = 1 F :X f 2 TO F :A Y = :A PRINT :X F :Y END TYPEIN X F 3") {} = .ok () w ∧
      (w.table.Has ⟨29⟩ ∧ ¬ Lowering.start.table.Has ⟨29⟩ ∧
        (w.table.symbol ⟨29⟩).fullName = "@F.A" ∧ (w.table.symbol ⟨29⟩).usage = 4) ∧
      CountsUses
        (parse (.ofText "X = 1 F :X f 2 TO F :A Y = :A PRINT :X F :Y END TYPEIN X F 3")).items
        (w.table.symbol ⟨29⟩) := by
  obtain ⟨w, h, hid, hnew, hname⟩ := exists_result
    (lower (.ofText "X = 1 F :X f 2 TO F :A Y = :A PRINT :X F :Y END TYPEIN X F 3"))
    (fun w => w.table.Has ⟨29⟩ ∧ ¬ Lowering.start.table.Has ⟨29⟩ ∧
      (w.table.symbol ⟨29⟩).fullName = "@F.A" ∧
      (w.table.symbol ⟨29⟩).usage = 4) (by decide +kernel)
  exact ⟨w, h, ⟨hid, hnew, hname⟩, usage_of_lower h hid hnew⟩

theorem parameter_used_twice : ∃ w, lower (.ofText "F 1 F 2 TO F :A PRINT :A END")
    {} = .ok () w ∧ (w.table.symbol ⟨28⟩).fullName = "@F.A" ∧
    (w.table.symbol ⟨28⟩).usage = 2 ∧
    readsOf "A" ((parse (.ofText "F 1 F 2 TO F :A PRINT :A END")).items.flatMap Item.mentions) =
    1 ∧
    callsOf "F" ((parse (.ofText "F 1 F 2 TO F :A PRINT :A END")).items.flatMap Item.mentions) =
    2 :=
  exists_result (lower (.ofText "F 1 F 2 TO F :A PRINT :A END"))
    (fun w => (w.table.symbol ⟨28⟩).fullName = "@F.A" ∧
      (w.table.symbol ⟨28⟩).usage = 2 ∧
      readsOf "A" ((parse (.ofText "F 1 F 2 TO F :A PRINT :A END")).items.flatMap Item.mentions) =
      1 ∧
      callsOf "F" ((parse (.ofText "F 1 F 2 TO F :A PRINT :A END")).items.flatMap Item.mentions) =
      2) (by decide +kernel)

end TurtleCompiler
