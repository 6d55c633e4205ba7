import Mathlib.Data.List.Nodup
import TurtleCompiler.Symbol.Table
import TurtleCompiler.Proofs.Success

/-!
A symbol is never lost. While its scope is open it is found there by its name, and afterwards by its
full name, which no other symbol has.
-/

namespace TurtleCompiler

theorem toList_toUpper (s : String) : s.toUpper.toList = s.toList.map Char.toUpper := by
  simp [String.toUpper]

theorem toUpper_append (s t : String) : (s ++ t).toUpper = s.toUpper ++ t.toUpper := by
  apply String.toList_injective
  simp [toList_toUpper]

theorem toUpper_eq_iff {c d : Char} (hd : ¬ d.isAlpha) : c.toUpper = d ↔ c = d := by
  delta Char.toUpper
  split
  · rename_i h
    delta Char.isAlpha Char.isUpper Char.isLower at hd
    constructor
    · intro he
      have hval := congrArg Char.val he
      simp only at hval
      grind
    · rintro rfl
      grind
  · rfl

def Dotless (s : String) : Prop := '.' ∉ s.toList

instance (s : String) : Decidable (Dotless s) := inferInstanceAs (Decidable ('.' ∉ s.toList))

theorem dotless_toUpper {s : String} : Dotless s.toUpper ↔ Dotless s := by
  simp [Dotless, toList_toUpper, toUpper_eq_iff (show ¬ '.'.isAlpha by decide)]

theorem append_cons_inj_of_not_mem {c : Char} {as bs as' bs' : List Char} (h : c ∉ as)
    (h' : c ∉ as') (heq : as ++ c :: bs = as' ++ c :: bs') : as = as' ∧ bs = bs' := by
  rcases List.append_eq_append_iff.1
    heq with ⟨between, rfl, hrest⟩ | ⟨between, rfl, hrest⟩ <;> cases between <;> simp_all

variable {a : String}

theorem toList_qualify_toUpper (ha : a ≠ "") (x : String) :
    (qualify a x).toUpper.toList = a.toUpper.toList ++ '.' :: x.toUpper.toList := by
  simp [qualify, ha, toUpper_append, toList_toUpper]

theorem dot_mem_qualify_toUpper (ha : a ≠ "") (x : String) :
    ¬ Dotless (qualify a x).toUpper := by
  simp [Dotless, toList_qualify_toUpper ha]

theorem qualify_inj {b x y : String} (ha : Dotless a) (hb : Dotless b) (hx : Dotless x)
    (hy : Dotless y) (h : (qualify a x).toUpper = (qualify b y).toUpper) :
    a.toUpper = b.toUpper ∧ x.toUpper = y.toUpper := by
  by_cases ha' : a = "" <;> by_cases hb' : b = ""
  · simpa [ha', hb', qualify] using h
  · have := dot_mem_qualify_toUpper hb' y
    rw [← h, ha', qualify, if_pos rfl, dotless_toUpper] at this
    contradiction
  · have := dot_mem_qualify_toUpper ha' x
    rw [h, hb', qualify, if_pos rfl, dotless_toUpper] at this
    contradiction
  · have hlist := congrArg String.toList h
    rw [toList_qualify_toUpper ha', toList_qualify_toUpper hb'] at hlist
    obtain ⟨hab, hxy⟩ :=
      append_cons_inj_of_not_mem (dotless_toUpper.2 ha) (dotless_toUpper.2 hb) hlist
    exact ⟨String.toList_injective hab, String.toList_injective hxy⟩

namespace NameMap

def keys (m : NameMap) : List String := m.entries.map (·.1)

variable {key name : String} {id : SymbolId} {es : List (String × SymbolId)} {m : NameMap}

theorem put_of_not_mem (h : key ∉ es.map (·.1)) : put key id es = es ++ [(key, id)] := by
  induction es with
  | nil => rfl
  | cons e es ih => simp_all [put, eq_comm]

theorem put_of_mem (hkeys : (es.map (·.1)).Nodup) (h : (key, id) ∈ es) : put key id es = es := by
  induction es with
  | nil => simp at h
  | cons e es ih =>
    simp only [List.map_cons, List.nodup_cons] at hkeys
    rcases List.mem_cons.1 h with rfl | h
    · simp [put]
    · have hne : e.1 ≠ key := by
        rintro rfl
        exact hkeys.1 (List.mem_map.2 ⟨_, h, rfl⟩)
      simp [put, hne, ih hkeys.2 h]

theorem get?_eq_none_iff : m.get? name = none ↔ name.toUpper ∉ m.keys := by
  simp only [get?, keys, List.lookup_eq_none_iff, List.mem_map, bne_iff_ne]
  grind

theorem mem_of_get? (h : m.get? name = some id) : (name.toUpper, id) ∈ m.entries := by
  obtain ⟨l₁, l₂, he, -⟩ := List.lookup_eq_some_iff.1 h
  simp [he]

theorem get?_of_mem (hkeys : m.keys.Nodup) (h : (name.toUpper, id) ∈ m.entries) :
    m.get? name = some id := by
  cases hget : m.get? name with
  | none => exact absurd (List.mem_map.2 ⟨_, h, rfl⟩) (get?_eq_none_iff.1 hget)
  | some id' =>
    have := List.inj_on_of_nodup_map hkeys h (mem_of_get? hget) rfl
    simp_all

theorem get?_insert (m : NameMap) (name : String) (id : SymbolId) :
    (m.insert name id).get? name = some id := by
  obtain ⟨es⟩ := m
  simp only [get?, insert]
  induction es with
  | nil => simp [put]
  | cons e es ih =>
    obtain ⟨key, j⟩ := e
    by_cases he : key = name.toUpper
    · simp [put, he]
    · simp [put, he, List.lookup_cons, beq_eq_false_iff_ne.2 (Ne.symm he), ih]

theorem get?_insert_of_ne {name' : String} (h : name.toUpper ≠ name'.toUpper) (id : SymbolId) :
    (m.insert name id).get? name' = m.get? name' := by
  obtain ⟨es⟩ := m
  simp only [get?, insert]
  induction es with
  | nil => simp [put, List.lookup_cons, beq_eq_false_iff_ne.2 h.symm]
  | cons e es ih =>
    obtain ⟨key, j⟩ := e
    by_cases he : key = name.toUpper
    · simp [put, he, List.lookup_cons, beq_eq_false_iff_ne.2 h.symm]
    · simp [put, he, List.lookup_cons, ih]

theorem mem_put {e : String × SymbolId} (h : e ∈ put key id es) :
    e = (key, id) ∨ e ∈ es := by
  induction es with
  | nil => simpa [put] using h
  | cons e' es ih =>
    simp only [put] at h
    split at h
    · exact (List.mem_cons.1 h).imp_right (.tail _)
    · rcases List.mem_cons.1 h with rfl | h
      · exact .inr (.head _)
      · exact (ih h).imp_right (.tail _)

theorem entries_insert_of_get? (h : m.get? name = none) (id : SymbolId) :
    (m.insert name id).entries = m.entries ++ [(name.toUpper, id)] :=
  put_of_not_mem (get?_eq_none_iff.1 h)

theorem nodup_keys_insert (hkeys : m.keys.Nodup) (h : m.get? name = none) (id : SymbolId) :
    (m.insert name id).keys.Nodup := by
  simp only [keys, entries_insert_of_get? h, List.map_append, List.map_cons, List.map_nil]
  have := get?_eq_none_iff.1 h
  simp_all [List.nodup_append, keys]
  grind

end NameMap

def frames : List Scope → List (String × NameMap)
  | [] => []
  | scope :: scopes => (scopePath (scope :: scopes), scope.names) :: frames scopes

abbrev Table.AtTop (t : Table) : Prop := (frames t.scopes).map (·.1) = [""]

theorem length_frames (scopes : List Scope) : (frames scopes).length = scopes.length := by
  induction scopes with
  | nil => rfl
  | cons s scopes ih => simp [frames, ih]

theorem scopePath_modify (scopes : List Scope) (k : Nat) (f : NameMap → NameMap) :
    scopePath (scopes.modify k fun s => { s with names := f s.names }) = scopePath scopes := by
  have hnames : (scopes.modify k fun s => { s with names := f s.names }).map (·.name) =
      scopes.map (·.name) := by
    induction scopes generalizing k with
    | nil => simp
    | cons s scopes ih => cases k <;> simp [ih]
  simp only [scopePath, List.map_reverse, hnames]

theorem frames_modify (scopes : List Scope) (k : Nat) (f : NameMap → NameMap) :
    frames (scopes.modify k fun s => { s with names := f s.names }) =
      (frames scopes).modify k fun frame => (frame.1, f frame.2) := by
  induction scopes generalizing k with
  | nil => simp [frames]
  | cons s scopes ih =>
    have hpath := scopePath_modify (s :: scopes) k f
    cases k <;> simp_all [frames]

theorem mem_modify {l : List α} {k : Nat} {f : α → α} {x : α} (h : x ∈ l.modify k f) :
    x ∈ l ∨ ∃ y, l[k]? = some y ∧ x = f y := by
  obtain ⟨i, hi⟩ := List.getElem?_of_mem h
  rw [List.getElem?_modify] at hi
  by_cases hk : k = i
  · subst hk
    obtain ⟨y, hy, rfl⟩ := Option.map_eq_some_iff.1 hi
    exact .inr ⟨y, hy, by simp⟩
  · exact .inl (List.mem_of_getElem? (i := i) (by simpa [hk] using hi))

theorem mem_modify_of_mem {l : List α} {k : Nat} {f : α → α} {x : α} (h : x ∈ l) :
    x ∈ l.modify k f ∨ l[k]? = some x ∧ f x ∈ l.modify k f := by
  obtain ⟨i, hi⟩ := List.getElem?_of_mem h
  by_cases hk : k = i
  · subst hk
    exact .inr ⟨hi, List.mem_of_getElem? (i := k) (by simp [hi])⟩
  · exact .inl (List.mem_of_getElem? (i := i) (by simp [hk, hi]))

theorem getElem?_frames (scopes : List Scope) (k : Nat) :
    (frames scopes)[k]? = scopes[k]?.map fun s => (scopePath (scopes.drop k), s.names) := by
  induction scopes generalizing k with
  | nil => simp [frames]
  | cons s scopes ih => cases k <;> simp [frames, ih]

namespace Table

def Has (t : Table) (id : SymbolId) : Prop := id.index < t.symbols.size

variable {t : Table} {id : SymbolId} {f : Symbol → Symbol}

theorem symbol_modifySymbol (hid : t.Has id) (f : Symbol → Symbol) (j : SymbolId) :
    (t.modifySymbol id f).symbol j = if j = id then f (t.symbol j) else t.symbol j := by
  simp only [symbol, modifySymbol, Array.getD_eq_getD_getElem?, Array.getElem?_modify]
  by_cases h : j = id
  · subst h
    cases hget : t.symbols[j.index]? with
    | none =>
      rw [Array.getElem?_eq_none_iff] at hget
      exact absurd hid (Nat.not_lt.2 hget)
    | some s => simp
  · have hne : id.index ≠ j.index := fun he => h (by cases j; cases id; simp_all)
    simp [hne, h]

theorem symbol_of_not_has (h : ¬ t.Has id) : t.symbol id = blankSymbol := by
  simp only [symbol, Array.getD_eq_getD_getElem?, Array.getElem?_eq_none (Nat.not_lt.1 h),
    Option.getD_none]

theorem modifySymbol_of_not_has (hid : ¬ t.Has id) (f : Symbol → Symbol) :
    t.modifySymbol id f = t := by
  have hsymbols : t.symbols.modify id.index f = t.symbols := by
    apply Array.ext_getElem?
    intro i
    rw [Array.getElem?_modify]
    split
    · subst_vars
      simp [Array.getElem?_eq_none (Nat.not_lt.1 hid)]
    · rfl
  simp [modifySymbol, hsymbols]

theorem symbol_modifySymbol_of {r : Symbol → Symbol → Prop} (hrefl : ∀ s, r s s)
    (hf : r (t.symbol id) (f (t.symbol id))) (j : SymbolId) :
    r (t.symbol j) ((t.modifySymbol id f).symbol j) := by
  by_cases hid : t.Has id
  · rw [symbol_modifySymbol hid]
    split
    · subst_vars
      exact hf
    · exact hrefl _
  · rw [modifySymbol_of_not_has hid]
    exact hrefl _

theorem symbol_modifySymbol_congr {β : Type} (g : Symbol → β)
    (hf : g (f (t.symbol id)) = g (t.symbol id)) (j : SymbolId) :
    g ((t.modifySymbol id f).symbol j) = g (t.symbol j) :=
  symbol_modifySymbol_of (r := fun s s' => g s' = g s) (fun _ => rfl) hf j

theorem symbol_push (t : Table) (s : Symbol) (scopes : List Scope) (j : SymbolId) :
    ({ t with symbols := t.symbols.push s, scopes } : Table).symbol j =
      if j.index = t.symbols.size then s else t.symbol j := by
  simp only [symbol, Array.getD_eq_getD_getElem?, Array.getElem?_push]
  split <;> rfl

end Table

structure Symbol.Grows (s s' : Symbol) : Prop where
  name : s'.name = s.name
  scope : s'.scope = s.scope
  fullName : s'.fullName = s.fullName
  cls : s'.cls = s.cls
  usage : s.usage ≤ s'.usage
  line : s.line.isSome → s'.line.isSome
  library : s.flags.library → s'.flags.library

namespace Symbol

theorem Grows.refl (s : Symbol) : s.Grows s := ⟨rfl, rfl, rfl, rfl, Nat.le_refl _, id, id⟩

theorem Grows.trans {a b c : Symbol} (h : a.Grows b) (h' : b.Grows c) : a.Grows c :=
  ⟨h'.name.trans h.name, h'.scope.trans h.scope, h'.fullName.trans h.fullName, h'.cls.trans h.cls,
    Nat.le_trans h.usage h'.usage, h'.line ∘ h.line, h'.library ∘ h.library⟩

theorem grows_use (s : Symbol) : s.Grows s.use := ⟨rfl, rfl, rfl, rfl, Nat.le_succ _, id, id⟩

theorem grows_setValue (v : Value) (s : Symbol) : s.Grows (s.setValue v) := by
  obtain ⟨name, line, usage, scope, fullName, _ | _⟩ := s <;>
    exact ⟨rfl, rfl, rfl, rfl, Nat.le_refl _, id, id⟩

theorem grows_modifyRoutine {f : Routine → Routine}
    (h : ∀ r, r.flags.library → (f r).flags.library) (s : Symbol) :
    s.Grows (s.modifyRoutine f) := by
  obtain ⟨name, line, usage, scope, fullName, v | r⟩ := s
  · exact .refl _
  · exact ⟨rfl, rfl, rfl, rfl, Nat.le_refl _, id, h r⟩

theorem grows_setCode (d : Definition) (s : Symbol) : s.Grows (s.setCode d) := by
  apply grows_modifyRoutine
  exact fun _ h => h

theorem grows_markGenerated (s : Symbol) : s.Grows s.markGenerated := by
  apply grows_modifyRoutine
  exact fun _ h => h

theorem usage_modifyRoutine (f : Routine → Routine) (s : Symbol) :
    (s.modifyRoutine f).usage = s.usage := by
  obtain ⟨name, line, usage, scope, fullName, _ | _⟩ := s <;> rfl

theorem routine?_modifyRoutine (f : Routine → Routine) (s : Symbol) :
    (s.modifyRoutine f).routine? = s.routine?.map f := by
  obtain ⟨name, line, usage, scope, fullName, _ | _⟩ := s <;> rfl

theorem grows_merge (line : Option Nat) {f : Fields} (h : f.usage = none) (s : Symbol) :
    s.Grows (s.merge line f).2 := by
  have hline : s.line.isSome → (s.line <|> line).isSome := by cases s.line <;> simp
  obtain ⟨name, line', usage, scope, fullName, v | r⟩ := s
  · unfold merge
    dsimp only
    split <;> exact ⟨rfl, rfl, rfl, rfl, by simp [declareAgain, h], hline, id⟩
  · unfold merge
    dsimp only
    split
    · exact ⟨rfl, rfl, rfl, rfl, by simp [declareAgain, h], hline, id⟩
    · exact ⟨rfl, rfl, rfl, rfl, by simp [declareAgain, h], hline,
        by simp [Symbol.flags, Symbol.routine?, Routine.apply, Flags.union]; tauto⟩

end Symbol

namespace Table

def IsOpen (t : Table) (id : SymbolId) : Prop :=
  ∃ frame ∈ frames t.scopes, ((t.symbol id).name.toUpper, id) ∈ frame.2.entries

def IsClosed (t : Table) (id : SymbolId) : Prop :=
  ((t.symbol id).fullName.toUpper, id) ∈ (t.byClass (t.symbol id).cls).entries

structure Sound (t : Table) : Prop where
  entry : ∀ {frame}, frame ∈ frames t.scopes → ∀ {key id}, (key, id) ∈ frame.2.entries →
    t.Has id ∧ (t.symbol id).name.toUpper = key ∧ (t.symbol id).scope = frame.1
  keys : ∀ {frame}, frame ∈ frames t.scopes → frame.2.keys.Nodup
  paths : ((frames t.scopes).map (·.1.toUpper)).Nodup
  dotless : ∀ {frame}, frame ∈ frames t.scopes → Dotless frame.1
  closedEntry : ∀ {cls key id}, (key, id) ∈ (t.byClass cls).entries →
    t.Has id ∧ (t.symbol id).cls = cls ∧ (t.symbol id).fullName.toUpper = key
  closedKeys : ∀ cls, (t.byClass cls).keys.Nodup
  apart : ∀ {id frame}, t.IsClosed id → frame ∈ frames t.scopes →
    (t.symbol id).scope.toUpper ≠ frame.1.toUpper
  placed : ∀ {id}, t.Has id → t.IsOpen id ∨ t.IsClosed id
  named : ∀ {id}, t.Has id →
    (t.symbol id).fullName = qualify (t.symbol id).scope (t.symbol id).name ∧
    Dotless (t.symbol id).scope ∧ Dotless (t.symbol id).name
  unique : ∀ {id id'}, t.Has id → t.Has id' →
    (t.symbol id).fullName.toUpper = (t.symbol id').fullName.toUpper → id = id'

structure Edits (t t' : Table) : Prop where
  size : t'.symbols.size = t.symbols.size
  scopes : t'.scopes = t.scopes
  byClass : t'.byClass = t.byClass
  symbol : ∀ id, (t.symbol id).Grows (t'.symbol id)

theorem Edits.refl (t : Table) : t.Edits t := ⟨rfl, rfl, rfl, fun _ => .refl _⟩

theorem Edits.trans {a b c : Table} (h : a.Edits b) (h' : b.Edits c) : a.Edits c :=
  ⟨h'.size.trans h.size, h'.scopes.trans h.scopes, h'.byClass.trans h.byClass,
    fun id => (h.symbol id).trans (h'.symbol id)⟩

variable {t t' : Table} {id : SymbolId} {name : String} {cls : SymbolClass} {line : Option Nat}

theorem edits_modifySymbol {f : Symbol → Symbol} (hf : (t.symbol id).Grows (f (t.symbol id))) :
    t.Edits (t.modifySymbol id f) :=
  ⟨by simp [modifySymbol], rfl, rfl, symbol_modifySymbol_of .refl hf⟩

theorem Edits.has (h : t.Edits t') : t'.Has id ↔ t.Has id := by
  simp [Has, h.size]

theorem Edits.isClosed (h : t.Edits t') : t'.IsClosed id ↔ t.IsClosed id := by
  simp [IsClosed, h.byClass, (h.symbol id).fullName, (h.symbol id).cls]

theorem Sound.edits (h : t.Sound) (he : t.Edits t') : t'.Sound where
  entry hframe _ _ hid := by
    rw [he.scopes] at hframe
    rw [he.has, (he.symbol _).name, (he.symbol _).scope]
    exact h.entry hframe hid
  keys hframe := h.keys (he.scopes ▸ hframe)
  paths := he.scopes ▸ h.paths
  dotless hframe := h.dotless (he.scopes ▸ hframe)
  closedEntry hid := by
    rw [he.byClass] at hid
    rw [he.has, (he.symbol _).cls, (he.symbol _).fullName]
    exact h.closedEntry hid
  closedKeys cls := he.byClass ▸ h.closedKeys cls
  apart hid hframe := by
    rw [he.scopes] at hframe
    rw [(he.symbol _).scope]
    exact h.apart (he.isClosed.1 hid) hframe
  placed hid := by
    rw [he.isClosed, IsOpen, he.scopes, (he.symbol _).name]
    exact h.placed (he.has.1 hid)
  named hid := by
    rw [(he.symbol _).fullName, (he.symbol _).scope, (he.symbol _).name]
    exact h.named (he.has.1 hid)
  unique hid hid' := by
    rw [(he.symbol _).fullName, (he.symbol _).fullName]
    exact h.unique (he.has.1 hid) (he.has.1 hid')

theorem Sound.fullName_ne (h : t.Sound) {frame : String × NameMap}
    (hframe : frame ∈ frames t.scopes) (hname : Dotless name) (hnew : frame.2.get? name = none)
    (hid : t.Has id) : (t.symbol id).fullName.toUpper ≠ (qualify frame.1 name).toUpper := by
  intro he
  obtain ⟨hfull, hscope, hdot⟩ := h.named hid
  rw [hfull] at he
  obtain ⟨hpaths, hnames⟩ := qualify_inj hscope (h.dotless hframe) hdot hname he
  rcases h.placed hid with ⟨frame', hframe', hentry⟩ | hclosed
  · have hsame : frame' = frame := by
      refine List.inj_on_of_nodup_map h.paths hframe' hframe ?_
      rw [← (h.entry hframe' hentry).2.2, hpaths]
    rw [hsame, hnames] at hentry
    exact NameMap.get?_eq_none_iff.1 hnew (List.mem_map.2 ⟨_, hentry, rfl⟩)
  · exact h.apart hclosed hframe hpaths

def insertAt (t : Table) (k : Nat) (path name : String) (line : Option Nat) (usage : Nat)
    (kind : Kind) : Table :=
  { t with
    symbols := t.symbols.push ⟨name, line, usage, path, qualify path name, kind⟩
    scopes := t.scopes.modify k fun s =>
      { s with names := s.names.insert name ⟨t.symbols.size⟩ } }

section InsertAt

variable {t : Table} {k : Nat} {frame : String × NameMap} {path name : String}
  {line : Option Nat} {usage : Nat} {kind : Kind} {j : SymbolId}

theorem symbol_insertAt (j : SymbolId) : (t.insertAt k path name line usage kind).symbol j =
    if j.index = t.symbols.size then ⟨name, line, usage, path, qualify path name, kind⟩
    else t.symbol j :=
  symbol_push ..

theorem symbol_insertAt_of_has (hj : t.Has j) :
    (t.insertAt k path name line usage kind).symbol j = t.symbol j := by
  rw [symbol_insertAt, if_neg (Nat.ne_of_lt hj)]

theorem has_insertAt : (t.insertAt k path name line usage kind).Has j ↔ t.Has j ∨
    j = ⟨t.symbols.size⟩ := by
  cases j
  simp [Has, insertAt]
  omega

theorem frames_insertAt : frames (t.insertAt k path name line usage kind).scopes =
    (frames t.scopes).modify k fun f => (f.1, f.2.insert name ⟨t.symbols.size⟩) :=
  frames_modify t.scopes k (·.insert name ⟨t.symbols.size⟩)

theorem Sound.insertAt (h : t.Sound) (hk : (frames t.scopes)[k]? = some frame)
    (hname : Dotless name) (hnew : frame.2.get? name = none) :
    (t.insertAt k frame.1 name line usage kind).Sound := by
  have hframe : frame ∈ frames t.scopes := List.mem_of_getElem? hk
  have hentries := NameMap.entries_insert_of_get? hnew ⟨t.symbols.size⟩
  have hcases {f : String × NameMap}
      (hf : f ∈ frames (t.insertAt k frame.1 name line usage kind).scopes) :
      f ∈ frames t.scopes ∨ f = (frame.1, frame.2.insert name ⟨t.symbols.size⟩) := by
    rw [frames_insertAt] at hf
    rcases mem_modify hf with hf | ⟨f', hf', rfl⟩
    · exact .inl hf
    · obtain rfl : frame = f' := by simpa [hk] using hf'
      exact .inr rfl
  have hclosed {id : SymbolId} (hid : (t.insertAt k frame.1 name line usage kind).IsClosed id) :
      t.IsClosed id ∧ t.Has id := by
    have hhas : t.Has id := (h.closedEntry hid).1
    rw [IsClosed, symbol_insertAt_of_has hhas] at hid
    exact ⟨hid, hhas⟩
  have hnewSymbol : (t.insertAt k frame.1 name line usage kind).symbol ⟨t.symbols.size⟩ =
      ⟨name, line, usage, frame.1, qualify frame.1 name, kind⟩ := by
    rw [symbol_insertAt, if_pos rfl]
  have hold {f : String × NameMap} (hf : f ∈ frames t.scopes) {key : String} {id : SymbolId}
      (hid : (key, id) ∈ f.2.entries) : (t.insertAt k frame.1 name line usage kind).Has id ∧
        ((t.insertAt k frame.1 name line usage kind).symbol id).name.toUpper = key ∧
        ((t.insertAt k frame.1 name line usage kind).symbol id).scope = f.1 := by
    obtain ⟨hhas, hrest⟩ := h.entry hf hid
    rw [has_insertAt, symbol_insertAt_of_has hhas]
    exact ⟨.inl hhas, hrest⟩
  refine ⟨?_, ?_, ?_, ?_, ?_, h.closedKeys, ?_, ?_, ?_, ?_⟩
  · intro f hf key id hid
    rcases hcases hf with hf | rfl
    · exact hold hf hid
    · rw [hentries] at hid
      rcases List.mem_append.1 hid with hid | hid
      · exact hold hframe hid
      · obtain ⟨rfl, rfl⟩ :
            key = name.toUpper ∧ id = ⟨t.symbols.size⟩ := by simpa using hid
        exact ⟨has_insertAt.2 (.inr rfl), by rw [hnewSymbol], by rw [hnewSymbol]⟩
  · intro f hf
    rcases hcases hf with hf | rfl
    · exact h.keys hf
    · exact NameMap.nodup_keys_insert (h.keys hframe) hnew _
  · have hpaths :
        ((frames t.scopes).modify k fun f => (f.1, f.2.insert name ⟨t.symbols.size⟩)).map
        (·.1.toUpper) = (frames t.scopes).map (·.1.toUpper) := by
      apply List.ext_getElem?
      intro i
      simp only [List.getElem?_map, List.getElem?_modify]
      split <;> cases (frames t.scopes)[i]? <;> rfl
    rw [frames_insertAt, hpaths]
    exact h.paths
  · intro f hf
    rcases hcases hf with hf | rfl
    · exact h.dotless hf
    · change Dotless frame.1
      exact h.dotless hframe
  · intro cls key id hid
    obtain ⟨hhas, hcls, hkey⟩ := h.closedEntry hid
    rw [has_insertAt, symbol_insertAt_of_has hhas]
    exact ⟨.inl hhas, hcls, hkey⟩
  · intro id f hid hf
    obtain ⟨hid, hhas⟩ := hclosed hid
    rw [symbol_insertAt_of_has hhas]
    rcases hcases hf with hf | rfl
    · exact h.apart hid hf
    · change _ ≠ frame.1.toUpper
      exact h.apart hid hframe
  · intro id hid
    rcases has_insertAt.1 hid with hid | rfl
    · rw [IsOpen, IsClosed, symbol_insertAt_of_has hid, frames_insertAt]
      refine (h.placed hid).imp ?_ fun hclosed => hclosed
      rintro ⟨f, hf, hentry⟩
      rcases mem_modify_of_mem hf with hf | ⟨hf, hf'⟩
      · exact ⟨f, hf, hentry⟩
      · obtain rfl : frame = f := by simpa [hk] using hf
        exact ⟨_, hf', by rw [hentries]; exact List.mem_append_left _ hentry⟩
    · refine .inl ⟨(frame.1, frame.2.insert name ⟨t.symbols.size⟩), ?_, ?_⟩
      · rw [frames_insertAt]
        exact List.mem_of_getElem? (i := k) (by simp [hk])
      · rw [hnewSymbol, hentries]
        simp
  · intro id hid
    rcases has_insertAt.1 hid with hid | rfl
    · rw [symbol_insertAt_of_has hid]
      exact h.named hid
    · rw [hnewSymbol]
      exact ⟨rfl, h.dotless hframe, hname⟩
  · intro id id' hid hid' he
    rcases has_insertAt.1 hid with hid | rfl <;> rcases has_insertAt.1 hid' with hid' | rfl
    · rw [symbol_insertAt_of_has hid, symbol_insertAt_of_has hid'] at he
      exact h.unique hid hid' he
    · rw [symbol_insertAt_of_has hid, hnewSymbol] at he
      exact absurd he (h.fullName_ne hframe hname hnew hid)
    · rw [symbol_insertAt_of_has hid', hnewSymbol] at he
      exact absurd he.symm (h.fullName_ne hframe hname hnew hid')
    · rfl

end InsertAt

theorem Sound.push (h : t.Sound) (hdotless : Dotless (scopePath (⟨name, {}⟩ :: t.scopes)))
    (hopen : ∀ frame ∈ frames t.scopes, (scopePath (⟨name, {}⟩ :: t.scopes)).toUpper ≠
      frame.1.toUpper)
    (hclosed : ∀ {id}, t.IsClosed id →
      (t.symbol id).scope.toUpper ≠ (scopePath (⟨name, {}⟩ :: t.scopes)).toUpper) :
    (t.push name).Sound where
  entry hframe _ _ hid := by
    rcases List.mem_cons.1 hframe with rfl | hframe
    · simp at hid
    · exact h.entry hframe hid
  keys hframe := by
    rcases List.mem_cons.1 hframe with rfl | hframe
    · exact List.nodup_nil
    · exact h.keys hframe
  paths := by
    refine List.nodup_cons.2 ⟨fun hmem => ?_, h.paths⟩
    obtain ⟨frame, hframe, he⟩ := List.mem_map.1 hmem
    exact hopen frame hframe he.symm
  dotless hframe := by
    rcases List.mem_cons.1 hframe with rfl | hframe
    · exact hdotless
    · exact h.dotless hframe
  closedEntry := h.closedEntry
  closedKeys := h.closedKeys
  apart hid hframe := by
    rcases List.mem_cons.1 hframe with rfl | hframe
    · exact hclosed hid
    · exact h.apart hid hframe
  placed hid := by
    refine (h.placed hid).imp ?_ fun hclosed => hclosed
    rintro ⟨frame, hframe, hentry⟩
    exact ⟨frame, List.mem_cons_of_mem _ hframe, hentry⟩
  named := h.named
  unique := h.unique

theorem byClass_close (t : Table) (id : SymbolId) (cls : SymbolClass) :
    (t.close id).byClass cls =
      if cls = (t.symbol id).cls then (t.byClass cls).insert (t.symbol id).fullName id
      else t.byClass cls := by
  unfold close
  cases hc : (t.symbol id).cls <;> cases cls <;> rfl

theorem symbols_close (t : Table) (id : SymbolId) : (t.close id).symbols = t.symbols := by
  unfold close
  split <;> rfl

theorem scopes_close (t : Table) (id : SymbolId) : (t.close id).scopes = t.scopes := by
  unfold close
  split <;> rfl

theorem symbol_close (t : Table) (id j : SymbolId) : (t.close id).symbol j = t.symbol j := by
  simp [symbol, symbols_close]

structure Filed (t : Table) : Prop where
  entry : ∀ {cls key id}, (key, id) ∈ (t.byClass cls).entries →
    t.Has id ∧ (t.symbol id).cls = cls ∧ (t.symbol id).fullName.toUpper = key
  keys : ∀ cls, (t.byClass cls).keys.Nodup
  unique : ∀ {id id'}, t.Has id → t.Has id' →
    (t.symbol id).fullName.toUpper = (t.symbol id').fullName.toUpper → id = id'

theorem Filed.entries_close (h : t.Filed) (hid : t.Has id) (cls : SymbolClass) :
    ((t.close id).byClass cls).entries = (t.byClass cls).entries ∧
        (cls = (t.symbol id).cls →
          ((t.symbol id).fullName.toUpper, id) ∈ (t.byClass cls).entries) ∨
      cls = (t.symbol id).cls ∧ (t.byClass cls).get? (t.symbol id).fullName = none ∧
        ((t.close id).byClass cls).entries =
          (t.byClass cls).entries ++ [((t.symbol id).fullName.toUpper, id)] := by
  rw [byClass_close]
  split
  · rename_i hcls
    cases hget : (t.byClass cls).get? (t.symbol id).fullName with
    | none => exact .inr ⟨hcls, rfl, NameMap.entries_insert_of_get? hget id⟩
    | some id' =>
      have hmem := NameMap.mem_of_get? hget
      obtain ⟨hid', -, hkey⟩ := h.entry hmem
      obtain rfl := h.unique hid' hid hkey
      exact .inl ⟨NameMap.put_of_mem (h.keys cls) hmem, fun _ => hmem⟩
  · exact .inl ⟨rfl, fun he => absurd he ‹_›⟩

theorem Filed.mem_close (h : t.Filed) (hid : t.Has id) {key : String} {j : SymbolId} :
    (key, j) ∈ ((t.close id).byClass cls).entries ↔
      (key, j) ∈ (t.byClass cls).entries ∨
        j = id ∧ cls = (t.symbol id).cls ∧ key = (t.symbol id).fullName.toUpper := by
  rcases h.entries_close hid cls with ⟨he, hmem⟩ | ⟨hcls, -, he⟩
  · rw [he]
    refine ⟨.inl, ?_⟩
    rintro (hj | ⟨rfl, hcls, rfl⟩)
    · exact hj
    · exact hmem hcls
  · rw [he]
    simp [hcls, and_comm]

theorem Filed.close (h : t.Filed) (hid : t.Has id) : (t.close id).Filed where
  entry hmem := by
    rw [Has, symbols_close, symbol_close]
    rcases (h.mem_close hid).1 hmem with hmem | ⟨rfl, rfl, rfl⟩
    · exact h.entry hmem
    · exact ⟨hid, rfl, rfl⟩
  keys cls := by
    rcases h.entries_close hid cls with ⟨he, -⟩ | ⟨-, hget, he⟩
    · rw [NameMap.keys, he]
      exact h.keys cls
    · have hkeys := NameMap.nodup_keys_insert (h.keys cls) hget id
      rwa [NameMap.keys, NameMap.entries_insert_of_get? hget, ← he] at hkeys
  unique := by
    simp only [Has, symbols_close, symbol_close]
    exact h.unique

theorem symbols_foldl_close (ids : List SymbolId) (t : Table) :
    (ids.foldl Table.close t).symbols = t.symbols ∧
    (ids.foldl Table.close t).scopes = t.scopes := by
  induction ids generalizing t with
  | nil => exact ⟨rfl, rfl⟩
  | cons id ids ih => simp [ih, symbols_close, scopes_close]

theorem Filed.foldl_close (h : t.Filed) {ids : List SymbolId} (hids : ∀ id ∈ ids, t.Has id) :
    (ids.foldl Table.close t).Filed ∧
      ∀ {cls key j}, (key, j) ∈ ((ids.foldl Table.close t).byClass cls).entries ↔
      (key, j) ∈ (t.byClass cls).entries ∨
        j ∈ ids ∧ cls = (t.symbol j).cls ∧ key = (t.symbol j).fullName.toUpper := by
  induction ids generalizing t with
  | nil => simpa using h
  | cons id ids ih =>
    simp only [List.mem_cons, forall_eq_or_imp] at hids
    obtain ⟨hfiled, hmem⟩ := ih (h.close hids.1) (by simpa [Has, symbols_close] using hids.2)
    refine ⟨hfiled, ?_⟩
    intro cls key j
    rw [List.foldl_cons, hmem, h.mem_close hids.1, symbol_close]
    grind

section Pop

variable {t : Table} {scope : Scope} {scopes : List Scope}

section

variable (h : t.Sound) (hscopes : t.scopes = scope :: scopes)

include h hscopes

theorem Sound.entry_innermost {id : SymbolId} (hid : id ∈ scope.names.ids) :
    t.Has id ∧ (t.symbol id).scope = scopePath (scope :: scopes) := by
  obtain ⟨⟨key, id⟩, hentry, rfl⟩ := List.mem_map.1 hid
  have hframe : (scopePath (scope :: scopes), scope.names) ∈ frames t.scopes := by
    rw [hscopes]
    exact List.mem_cons_self
  exact ⟨(h.entry hframe hentry).1, (h.entry hframe hentry).2.2⟩

theorem Sound.filed_pop :
    (scope.names.ids.foldl Table.close { t with scopes }).Filed ∧
      ∀ {id}, (scope.names.ids.foldl Table.close { t with scopes }).IsClosed id ↔
        t.IsClosed id ∨ id ∈ scope.names.ids := by
  have hfiled : ({ t with scopes } : Table).Filed := ⟨h.closedEntry, h.closedKeys, h.unique⟩
  obtain ⟨hfiled', hmem⟩ := hfiled.foldl_close fun id hid => (h.entry_innermost hscopes hid).1
  refine ⟨hfiled', fun {id} => ?_⟩
  have hsymbol : (scope.names.ids.foldl Table.close { t with scopes }).symbol id = t.symbol id := by
    simp [symbol, (symbols_foldl_close scope.names.ids { t with scopes }).1]
  rw [IsClosed, hsymbol, hmem]
  exact or_congr_right ⟨fun hid => hid.1, fun hid => ⟨hid, rfl, rfl⟩⟩

theorem Sound.pop : (scope.names.ids.foldl Table.close { t with scopes }).Sound := by
  have hframes {frame : String × NameMap} (hf : frame ∈ frames scopes) :
      frame ∈ frames t.scopes := by
    rw [hscopes]
    exact List.mem_cons_of_mem _ hf
  have hpaths := h.paths
  rw [hscopes, frames, List.map_cons, List.nodup_cons] at hpaths
  obtain ⟨hfiled, hclosed⟩ := h.filed_pop hscopes
  obtain ⟨hsymbols, hscopes'⟩ := symbols_foldl_close scope.names.ids { t with scopes }
  generalize scope.names.ids.foldl Table.close { t with scopes } = t' at *
  have hsymbol (id : SymbolId) : t'.symbol id = t.symbol id := by simp [symbol, hsymbols]
  have hhas (id : SymbolId) : t'.Has id ↔ t.Has id := by simp [Has, hsymbols]
  refine ⟨?_, ?_, ?_, ?_, hfiled.entry, hfiled.keys, ?_, ?_, ?_, hfiled.unique⟩
  · intro frame hf key id hid
    rw [hscopes'] at hf
    rw [hhas, hsymbol]
    exact h.entry (hframes hf) hid
  · intro frame hf
    rw [hscopes'] at hf
    exact h.keys (hframes hf)
  · rw [hscopes']
    exact hpaths.2
  · intro frame hf
    rw [hscopes'] at hf
    exact h.dotless (hframes hf)
  · intro id frame hid hf
    rw [hscopes'] at hf
    rw [hsymbol]
    rcases hclosed.1 hid with hid | hid
    · exact h.apart hid (hframes hf)
    · intro he
      refine hpaths.1 (List.mem_map.2 ⟨frame, hf, ?_⟩)
      rw [← he, (h.entry_innermost hscopes hid).2]
  · intro id hid
    rw [hclosed, IsOpen, hsymbol, hscopes']
    rcases h.placed ((hhas id).1 hid) with ⟨frame, hf, hentry⟩ | hid
    · rw [hscopes] at hf
      rcases List.mem_cons.1 hf with rfl | hf
      · exact .inr (.inr (List.mem_map.2 ⟨_, hentry, rfl⟩))
      · exact .inl ⟨frame, hf, hentry⟩
    · exact .inr (.inl hid)
  · intro id hid
    rw [hsymbol]
    exact h.named ((hhas id).1 hid)

end

end Pop

theorem Sound.lookup_fullName (h : t.Sound) (hscopes : t.scopes = []) (hid : t.Has id) :
    t.lookup (t.symbol id).cls (t.symbol id).fullName = some id := by
  have hclosed : t.IsClosed id := by
    refine (h.placed hid).resolve_left ?_
    rintro ⟨frame, hframe, -⟩
    simp [hscopes, frames] at hframe
  exact NameMap.get?_of_mem (h.closedKeys _) hclosed

theorem findSome?_frames (scopes : List Scope) (name : String) :
    (frames scopes).findSome? (·.2.get? name) = scopes.findSome? (·.names.get? name) := by
  induction scopes with
  | nil => rfl
  | cons s scopes ih => simp [frames, List.findSome?_cons, ih]

theorem resolve_none (t : Table) (name : String) :
    t.resolve name none none = (frames t.scopes).findSome? (·.2.get? name) := by
  have hfilter (o : Option SymbolId) : o.filter (fun _ => true) = o := by cases o <;> rfl
  rw [findSome?_frames]
  simp only [resolve, Option.all_none, if_true, hfilter]
  cases t.scopes.findSome? (·.names.get? name) <;> rfl

theorem Sound.resolve_none (h : t.Sound) (hr : t.resolve name none none = some id) :
    t.Has id ∧ (t.symbol id).name.toUpper = name.toUpper ∧
    (t.symbol id).scope ∈ (frames t.scopes).map (·.1) := by
  rw [Table.resolve_none] at hr
  obtain ⟨l₁, frame, l₂, hframes, hget, -⟩ := List.findSome?_eq_some_iff.1 hr
  have hframe : frame ∈ frames t.scopes := by simp [hframes]
  obtain ⟨hhas, hname, hscope⟩ := h.entry hframe (NameMap.mem_of_get? hget)
  exact ⟨hhas, hname, List.mem_map.2 ⟨frame, hframe, hscope.symm⟩⟩

theorem resolve_some_of_resolve_none (hr : t.resolve name none none = some id) :
    t.resolve name none (some (t.symbol id).cls) = some id := by
  rw [Table.resolve_none, findSome?_frames] at hr
  obtain ⟨l₁, scope, l₂, hscopes, hget, hbefore⟩ := List.findSome?_eq_some_iff.1 hr
  have hfind : t.scopes.findSome? (fun s => (s.names.get? name).filter fun id' =>
      (t.symbol id).cls = (t.symbol id').cls) = some id := by
    refine List.findSome?_eq_some_iff.2
      ⟨l₁, scope, l₂, hscopes, by simp [hget], fun s hs => ?_⟩
    simp [hbefore s hs]
  simp only [resolve, Option.all_none, Option.all_some, if_true, hfind]

theorem Sound.resolve_some (h : t.Sound) (hname : Dotless name)
    (hr : t.resolve name none (some cls) = some id) :
    t.Has id ∧ (t.symbol id).cls = cls ∧ (t.symbol id).name.toUpper = name.toUpper := by
  simp only [resolve, Option.all_none, Option.all_some, if_true] at hr
  cases hfind : t.scopes.findSome? fun s => (s.names.get? name).filter fun id => cls =
      (t.symbol id).cls with
  | some id' =>
    obtain rfl : id' = id := by simpa [hfind] using hr
    obtain ⟨scope, hscope, hid⟩ := List.exists_of_findSome?_eq_some hfind
    obtain ⟨hget, hcls⟩ := Option.filter_eq_some_iff.1 hid
    obtain ⟨k, hk⟩ := List.getElem?_of_mem hscope
    have hframe : (frames t.scopes)[k]? = some (scopePath (t.scopes.drop k), scope.names) := by
      simp [getElem?_frames, hk]
    have hentry := h.entry (List.mem_of_getElem? hframe) (NameMap.mem_of_get? hget)
    exact ⟨hentry.1, (of_decide_eq_true hcls).symm, hentry.2.1⟩
  | none =>
    have hlookup : (t.byClass cls).get? name = some id := by simpa [hfind, lookup] using hr
    obtain ⟨hid, hcls, hfull⟩ := h.closedEntry (NameMap.mem_of_get? hlookup)
    refine ⟨hid, hcls, ?_⟩
    have hnamed := (h.named hid).1
    by_cases hscope : (t.symbol id).scope = ""
    · simpa [hnamed, hscope, qualify] using hfull
    · have hdot := dot_mem_qualify_toUpper hscope (t.symbol id).name
      rw [← hnamed, hfull, dotless_toUpper] at hdot
      contradiction

theorem updateExisting_eq_ok {id' : SymbolId} {f : Fields}
    (h : updateExisting id name cls line f t = .ok id' t') :
    id' = id ∧ (t.symbol id).cls = cls ∧
    t' = t.modifySymbol id fun _ => ((t.symbol id).merge line f).2 := by
  simp only [updateExisting, get_bind] at h
  split at h
  · simp [bind_eq_ok] at h
  · rename_i hcls
    simp only [bind_eq_ok, modify_eq_ok] at h
    obtain ⟨_, _, rfl, h⟩ := h
    cases hmerge : ((t.symbol id).merge line f).1 with
    | ok =>
      rw [hmerge] at h
      obtain ⟨rfl, rfl⟩ := pure_eq_ok.1 h
      exact ⟨rfl, not_not.1 hcls, rfl⟩
    | error e =>
      rw [hmerge] at h
      exact absurd h throw_ne_ok

theorem declare_eq_ok {reach : Reach} {f : Fields}
    (h : declare reach name cls line f t = .ok id t') :
    t.declared reach name = some id ∧ (t.symbol id).cls = cls ∧
        t' = t.modifySymbol id (fun _ => ((t.symbol id).merge line f).2) ∨
      t.declared reach name = none ∧ t.scopes ≠ [] ∧ id = ⟨t.symbols.size⟩ ∧
        ∃ kind, Kind.ofFields name f cls = .ok kind ∧
          t' = t.insertAt (t.frame reach) (scopePath (t.scopes.drop (t.frame reach))) name line
            (f.usage.getD 0) kind := by
  simp only [declare, get_bind] at h
  split at h
  · simp [bind_eq_ok] at h
  · rename_i hscopes
    cases hid : t.declared reach name with
    | some id' =>
      rw [hid] at h
      obtain ⟨rfl, hcls, ht⟩ := updateExisting_eq_ok h
      exact .inl ⟨rfl, hcls, ht⟩
    | none =>
      simp only [hid, insertNew, get_bind] at h
      cases hkind : Kind.ofFields name f cls with
      | error e =>
        rw [hkind] at h
        exact absurd h throw_ne_ok
      | ok kind =>
        simp only [hkind, bind_eq_ok, set_eq_ok, pure_eq_ok] at h
        obtain ⟨_, _, rfl, rfl, rfl⟩ := h
        exact .inr ⟨rfl, by simpa using hscopes, rfl, kind, rfl, rfl⟩

end Table

end TurtleCompiler
