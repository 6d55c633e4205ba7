import TurtleCompiler.Proofs.Lowered
import TurtleCompiler.Proofs.Outcome

/-!
Tables with any number of open scopes. An operation on the table fails when names clash and for no
other reason.
-/

namespace TurtleCompiler

namespace Table

variable {t t' t'' : Table} {id : SymbolId} {name : String} {names names' : List String}

def Roots (t : Table) (name : String) : Prop :=
  ∃ scope ∈ t.scopes.getLast?, ∃ id ∈ scope.names.get? name, (t.symbol id).flags.library

structure Rooted (t : Table) : Prop where
  scopes : t.scopes ≠ []
  entry : ∀ {scope}, scope ∈ t.scopes → ∀ {key id}, (key, id) ∈ scope.names.entries →
    t.Has id ∧ (t.symbol id).name.toUpper = key
  library : ∀ p ∈ catalogue, t.Roots p.name
  aliases : ∀ {id target}, t.alias? id = some target → t.Roots target ∧
    ∀ {j}, (t.symbol j).name.toUpper = target.toUpper → t.alias? j = none

structure Follows (names : List String) (t t' : Table) : Prop where
  depth : t.scopes.length ≤ t'.scopes.length
  has : ∀ {id}, t.Has id → t'.Has id
  grows : ∀ {id}, t.Has id → (t.symbol id).Grows (t'.symbol id)
  new : ∀ {id}, ¬ t.Has id → t'.Has id → (t'.symbol id).cls = .routine →
    (t'.symbol id).name ∈ names

namespace Follows

theorem refl (t : Table) : t.Follows [] t :=
  ⟨Nat.le_refl _, id, fun _ => .refl _, fun h h' => absurd h' h⟩

theorem trans (h : t.Follows names t') (h' : t'.Follows names' t'') :
    t.Follows (names ++ names') t'' where
  depth := Nat.le_trans h.depth h'.depth
  has hid := h'.has (h.has hid)
  grows hid := (h.grows hid).trans (h'.grows (h.has hid))
  new {id} hid hid'' hcls := by
    rw [List.mem_append]
    by_cases hid' : t'.Has id
    · rw [(h'.grows hid').name]
      exact .inl (h.new hid hid' ((h'.grows hid').cls.symm.trans hcls))
    · exact .inr (h'.new hid' hid'' hcls)

theorem mono (h : t.Follows names t') (hnames : names ⊆ names') : t.Follows names' t' :=
  { h with new := fun hid hid' hcls => hnames (h.new hid hid' hcls) }

theorem isRoutine (h : t.Follows names t') (hid : t.IsRoutine name id) : t'.IsRoutine name id :=
  ⟨h.has hid.1, (h.grows hid.1).cls.trans hid.2.1, by rw [(h.grows hid.1).name, hid.2.2]⟩

end Follows

theorem Edits.follows (h : t.Edits t') : t.Follows [] t' :=
  ⟨h.scopes ▸ Nat.le_refl _, h.has.2, fun _ => h.symbol _,
    fun hid hid' => absurd (h.has.1 hid') hid⟩

theorem Roots.edits (h : t.Roots name) (he : t.Edits t') : t'.Roots name := by
  obtain ⟨scope, hscope, id, hid, hlibrary⟩ := h
  exact ⟨scope, by rwa [he.scopes], id, hid, (he.symbol id).library hlibrary⟩

structure Refines (t t' : Table) : Prop extends t.Edits t' where
  alias? : ∀ id, t'.alias? id = t.alias? id

theorem Refines.refl (t : Table) : t.Refines t := ⟨.refl t, fun _ => rfl⟩

theorem Refines.trans (h : t.Refines t') (h' : t'.Refines t'') : t.Refines t'' :=
  ⟨h.toEdits.trans h'.toEdits, fun id => (h'.alias? id).trans (h.alias? id)⟩

theorem Rooted.refines (h : t.Rooted) (he : t.Refines t') : t'.Rooted where
  scopes := he.scopes ▸ h.scopes
  entry hscope _ _ hid := by
    rw [he.scopes] at hscope
    rw [he.has, (he.symbol _).name]
    exact h.entry hscope hid
  library p hp := (h.library p hp).edits he.toEdits
  aliases {id target} hid := by
    rw [he.alias?] at hid
    refine ⟨(h.aliases hid).1.edits he.toEdits, fun {j} hj => ?_⟩
    rw [(he.symbol j).name] at hj
    rw [he.alias?]
    exact (h.aliases hid).2 hj

theorem Rooted.of_symbols (h : t.Rooted) (hsymbols : t'.symbols = t.symbols)
    (hlast : t'.scopes.getLast? = t.scopes.getLast?)
    (hscopes : ∀ scope ∈ t'.scopes, scope ∈ t.scopes ∨ scope.names.entries = []) :
    t'.Rooted := by
  have hsymbol := symbol_eq_of_symbols hsymbols
  have hroots {name : String} : t'.Roots name ↔ t.Roots name := by simp [Roots, hlast, hsymbol]
  refine ⟨fun he => ?_, fun {scope} hscope key id hid => ?_,
    fun p hp => hroots.2 (h.library p hp), ?_⟩
  · rw [he, List.getLast?_nil, eq_comm, List.getLast?_eq_none_iff] at hlast
    exact h.scopes hlast
  · rw [Has, hsymbols, hsymbol]
    rcases hscopes scope hscope with hscope | hempty
    · exact h.entry hscope hid
    · simp [hempty] at hid
  · simp only [alias?, hsymbol, hroots]
    exact h.aliases

theorem cls_of_library (h : (t.symbol id).flags.library) : (t.symbol id).cls = .routine := by
  cases hr : (t.symbol id).routine? with
  | none => simp [Symbol.flags, hr] at h
  | some r => exact Symbol.cls_of_routine? hr

theorem Rooted.isRoutine (h : t.Rooted) {scope : Scope} (hscope : scope ∈ t.scopes)
    (hid : scope.names.get? name = some id) (hcls : (t.symbol id).cls = .routine) :
    t.IsRoutine name id :=
  ⟨(h.entry hscope (NameMap.mem_of_get? hid)).1, hcls,
    (h.entry hscope (NameMap.mem_of_get? hid)).2⟩

theorem Rooted.resolve (h : t.Rooted) (hroots : t.Roots name) :
    ∃ id, t.resolve name none (some .routine) = some id ∧ t.IsRoutine name id := by
  obtain ⟨scope, hscope, id, hid, hlibrary⟩ := hroots
  have hsome : (t.scopes.findSome? fun s =>
      (s.names.get? name).filter fun id => .routine = (t.symbol id).cls).isSome := by
    rw [List.findSome?_isSome_iff]
    refine ⟨scope, List.mem_of_mem_getLast? hscope, ?_⟩
    simp [Option.mem_def.1 hid, cls_of_library hlibrary]
  obtain ⟨found, hfound⟩ := Option.isSome_iff_exists.1 hsome
  refine ⟨found, by simp [Table.resolve, hfound], ?_⟩
  obtain ⟨scope, hscope, hid⟩ := List.exists_of_findSome?_eq_some hfound
  obtain ⟨hget, hcls⟩ := Option.filter_eq_some_iff.1 hid
  exact h.isRoutine hscope hget (of_decide_eq_true hcls).symm

theorem Rooted.resolveAlias (h : t.Rooted) (hid : t.IsRoutine name id) :
    (t.resolveAlias id).isSome := by
  obtain ⟨r, hr⟩ := Symbol.exists_routine hid.2.1
  obtain ⟨n, hn⟩ : ∃ n, t.symbols.size = n + 1 :=
    ⟨_, (Nat.succ_pred_eq_of_pos (Nat.zero_lt_of_lt hid.1)).symm⟩
  rw [Table.resolveAlias, followAlias, hr]
  cases halias : r.aliasOf with
  | none => simp [halias]
  | some target =>
    obtain ⟨hroots, hchain⟩ :=
      h.aliases (show t.alias? id = some target by simp [alias?, hr, halias])
    obtain ⟨callee, hcallee, hcallee'⟩ := h.resolve hroots
    obtain ⟨r', hr'⟩ := Symbol.exists_routine hcallee'.2.1
    have hnone : r'.aliasOf = none := by simpa [alias?, hr'] using hchain hcallee'.2.2
    simp [halias, hcallee, hn, followAlias, hr', hnone]

theorem refines_modifySymbol {f : Symbol → Symbol} (hf : (t.symbol id).Grows (f (t.symbol id)))
    (halias : (f (t.symbol id)).routine?.bind (·.aliasOf) = t.alias? id) :
    t.Refines (t.modifySymbol id f) :=
  ⟨edits_modifySymbol hf, symbol_modifySymbol_congr (·.routine?.bind (·.aliasOf)) halias⟩

theorem refines_use (t : Table) (id : SymbolId) : t.Refines (t.modifySymbol id Symbol.use) :=
  refines_modifySymbol (Symbol.grows_use _) rfl

theorem Rooted.countUsesOf (h : t.Rooted) (n : Nat) (id : SymbolId) :
    Yields (countUsesOf n id) t fun _ t' => t.Refines t' := by
  induction n generalizing t id with
  | zero => exact .refl t
  | succ n ih =>
    have hdeps {t₁ : Table} (h₁ : t.Refines t₁) (ids : List SymbolId) :
        Yields (ids.forM (Table.countUsesOf n)) t₁ fun _ t' => t.Refines t' :=
      .forM (fun id _ t₂ h₂ => (ih (h.refines h₂) id).mono fun h₃ => h₂.trans h₃) h₁
    have huse := refines_use t id
    rw [Table.countUsesOf]
    refine .bind (.of_modify (.bind (.of_get ?_)))
    split
    · exact hdeps huse _
    · rename_i target halias
      obtain ⟨callee, hcallee, -⟩ :=
        (h.refines huse).resolve ((h.refines huse).aliases halias).1
      simp only [hcallee]
      exact .bind (.of_modify (hdeps (huse.trans (refines_use _ callee)) _))

theorem Rooted.countUse (h : t.Rooted) (id : SymbolId) :
    Yields (countUse id) t fun _ t' => t.Refines t' :=
  .bind (.of_get (h.countUsesOf _ id))

theorem Rooted.countUsage (h : t.Rooted) {cls : Option SymbolClass}
    (hid : t.resolve name none cls = some id) :
    Yields (countUsage name cls) t fun _ t' => t.Refines t' := by
  refine .bind (.of_get ?_)
  simp only [hid]
  exact .bind ((h.countUse id).mono fun ht => .of_pure ht)

section InsertAt

variable {k : Nat} {scope : Scope} {path : String} {line : Option Nat} {usage : Nat} {kind : Kind}

theorem alias?_insertAt (hkind : ∀ r, kind = .routine r → r.aliasOf = none) (j : SymbolId) :
    (t.insertAt k path name line usage kind).alias? j = t.alias? j := by
  by_cases hj : t.Has j
  · rw [alias?, symbol_insertAt_of_has hj, alias?]
  · rw [alias?, symbol_insertAt, alias?, symbol_of_not_has hj]
    split
    · cases kind with
      | var v => rfl
      | routine r => simp [Symbol.routine?, hkind r rfl, blankSymbol]
    · rfl

theorem getLast?_insertAt {last : Scope} (hlast : t.scopes.getLast? = some last) :
    (t.insertAt k path name line usage kind).scopes.getLast? =
      some (if k = t.scopes.length - 1 then
        { last with names := last.names.insert name ⟨t.symbols.size⟩ } else last) := by
  rw [List.getLast?_eq_getElem?] at hlast
  rw [List.getLast?_eq_getElem?, Table.insertAt, List.length_modify, List.getElem?_modify, hlast]
  split <;> rfl

theorem Roots.insertAt {name' : String} (h : t.Roots name') (ht : t.Rooted)
    (hk : t.scopes[k]? = some scope) (hnew : scope.names.get? name = none) :
    (t.insertAt k path name line usage kind).Roots name' := by
  obtain ⟨last, hlast, id, hid, hlibrary⟩ := h
  have hhas := (ht.entry (List.mem_of_mem_getLast? hlast) (NameMap.mem_of_get? hid)).1
  have hlibrary' : ((t.insertAt k path name line usage kind).symbol id).flags.library := by
    rwa [symbol_insertAt_of_has hhas]
  refine ⟨_, getLast?_insertAt hlast, id, ?_, hlibrary'⟩
  rw [Option.mem_def, List.getLast?_eq_getElem?] at hlast
  split
  · rename_i hk'
    obtain rfl : scope = last := by simpa [hk', hlast] using hk.symm
    rw [Option.mem_def, NameMap.get?, NameMap.entries_insert_of_get? hnew, List.lookup_append]
    simp [show scope.names.entries.lookup name'.toUpper = some id from hid]
  · exact hid

theorem Rooted.insertAt (h : t.Rooted) (hk : t.scopes[k]? = some scope)
    (hnew : scope.names.get? name = none) (hkind : ∀ r, kind = .routine r → r.aliasOf = none) :
    (t.insertAt k path name line usage kind).Rooted where
  scopes := by
    intro he
    have hlength : (t.insertAt k path name line usage kind).scopes.length = t.scopes.length :=
      List.length_modify ..
    rw [he] at hlength
    exact h.scopes (List.eq_nil_of_length_eq_zero hlength.symm)
  entry {scope'} hscope key id hid := by
    have hold {s : Scope} (hs : s ∈ t.scopes) (hid : (key, id) ∈ s.names.entries) :
        (t.insertAt k path name line usage kind).Has id ∧
          ((t.insertAt k path name line usage kind).symbol id).name.toUpper = key := by
      rw [has_insertAt, symbol_insertAt_of_has (h.entry hs hid).1]
      exact ⟨.inl (h.entry hs hid).1, (h.entry hs hid).2⟩
    rcases mem_modify hscope with hscope | ⟨s, hs, rfl⟩
    · exact hold hscope hid
    · obtain rfl : scope = s := by simpa [hk] using hs
      simp only [NameMap.entries_insert_of_get? hnew, List.mem_append, List.mem_singleton] at hid
      rcases hid with hid | hid
      · exact hold (List.mem_of_getElem? hk) hid
      · obtain ⟨rfl, rfl⟩ := Prod.mk.inj hid
        rw [has_insertAt, symbol_insertAt, if_pos rfl]
        exact ⟨.inr rfl, rfl⟩
  library p hp := (h.library p hp).insertAt h hk hnew
  aliases {id target} hid := by
    rw [alias?_insertAt hkind] at hid
    refine ⟨(h.aliases hid).1.insertAt h hk hnew, fun {j} hj => ?_⟩
    rw [alias?_insertAt hkind]
    by_cases hhas : t.Has j
    · rw [symbol_insertAt_of_has hhas] at hj
      exact (h.aliases hid).2 hj
    · simp [alias?, symbol_of_not_has hhas, blankSymbol, Symbol.routine?]

end InsertAt

end Table

structure Fields.Suits (f : Fields) (cls : SymbolClass) : Prop where
  usage : f.usage = none
  value : f.value = none
  aliasOf : f.aliasOf = none
  routine : cls = .var → f.hasRoutineFields = false

namespace Fields.Suits

variable {f : Fields} {cls : SymbolClass}

theorem blank (cls : SymbolClass) : Suits {} cls := ⟨rfl, rfl, rfl, fun _ => rfl⟩

theorem type (type : Option DataType) : Suits { type } .var := ⟨rfl, rfl, rfl, fun _ => rfl⟩

theorem params (params : Option (List SymbolId)) :
    Suits { params } .routine := ⟨rfl, rfl, rfl, by simp⟩

theorem merge {s : Symbol} (h : f.Suits s.cls) (line : Option Nat) :
    (s.merge line f).1 = .ok () ∧
    (s.merge line f).2.routine?.bind (·.aliasOf) = s.routine?.bind (·.aliasOf) := by
  obtain ⟨name, line', usage, scope, fullName, v | r⟩ := s
  · simp [Symbol.merge, h.routine rfl, Symbol.routine?]
  · simp [Symbol.merge, h.value, Symbol.routine?, Routine.apply, h.aliasOf]

theorem ofFields (h : f.Suits cls) (name : String) :
    ∃ kind, Kind.ofFields name f cls = .ok kind ∧ ∀ r, kind = .routine r →
    r.aliasOf = none := by
  cases cls with
  | var =>
    exact ⟨.var { value := f.value, type := f.type }, by simp [Kind.ofFields,
      h.routine rfl], by simp⟩
  | routine =>
    refine ⟨.routine (Routine.apply {} f), by simp [Kind.ofFields, h.value], fun r hr => ?_⟩
    obtain rfl := Kind.routine.inj hr
    simp [Routine.apply, h.aliasOf]

end Fields.Suits

namespace Table

variable {t : Table} {id : SymbolId} {name : String} {reach : Reach} {cls : SymbolClass}
  {line : Option Nat} {f : Fields}

theorem mem_of_declared (hid : t.declared reach name = some id) :
    ∃ scope ∈ t.scopes, (name.toUpper, id) ∈ scope.names.entries := by
  cases reach with
  | anywhere | outermost =>
    rw [Table.declared, Table.resolve_none, findSome?_frames] at hid
    obtain ⟨scope, hscope, hget⟩ := List.exists_of_findSome?_eq_some hid
    exact ⟨scope, hscope, NameMap.mem_of_get? hget⟩
  | innermost =>
    obtain ⟨scope, hscope, hget⟩ := Option.bind_eq_some_iff.1 hid
    exact ⟨scope, List.mem_of_mem_head? hscope, NameMap.mem_of_get? hget⟩

theorem Rooted.declared (h : t.Rooted) (hid : t.declared reach name = some id) :
    t.Has id ∧ (t.symbol id).name.toUpper = name.toUpper := by
  obtain ⟨scope, hscope, hmem⟩ := mem_of_declared hid
  exact h.entry hscope hmem

def newRoutines (name : String) : SymbolClass → List String
  | .var => []
  | .routine => [name]

theorem follows_insertAt {k : Nat} {path : String} {usage : Nat} {kind : Kind}
    (hcls : ((t.insertAt k path name line usage kind).symbol ⟨t.symbols.size⟩).cls = cls) :
    t.Follows (newRoutines name cls) (t.insertAt k path name line usage kind) where
  depth := Nat.le_of_eq (List.length_modify ..).symm
  has hid := has_insertAt.2 (.inl hid)
  grows hid := by
    rw [symbol_insertAt_of_has hid]
    exact .refl _
  new {id} hid hid' hroutine := by
    obtain rfl := (has_insertAt.1 hid').resolve_left hid
    obtain rfl : cls = .routine := hcls.symm.trans hroutine
    rw [symbol_insertAt, if_pos rfl]
    exact List.mem_singleton.2 rfl

structure Declared (t : Table) (name : String) (cls : SymbolClass) (id : SymbolId) : Prop where
  has : t.Has id
  cls : (t.symbol id).cls = cls
  name : (t.symbol id).name.toUpper = name.toUpper

theorem yields_updateExisting (hf : f.Suits cls) (id : SymbolId) (name : String)
    (line : Option Nat) : Yields (updateExisting id name cls line f) t fun _ _ => True := by
  refine .bind (.of_get ?_)
  dsimp only
  split
  · exact .bind (.of_throw trivial)
  · rename_i hcls
    rw [← not_not.1 hcls] at hf
    refine .bind (.of_modify ?_)
    rw [(hf.merge line).1]
    exact .of_pure trivial

theorem yields_declare (hscopes : t.scopes ≠ []) (hf : f.Suits cls) (reach : Reach)
    (name : String) (line : Option Nat) :
    Yields (declare reach name cls line f) t fun _ _ => True := by
  refine .bind (.of_get ?_)
  dsimp only
  rw [if_neg (mt List.isEmpty_iff.1 hscopes)]
  split
  · exact yields_updateExisting hf _ name line
  · refine .bind (.of_get ?_)
    obtain ⟨kind, hkind, -⟩ := hf.ofFields name
    dsimp only
    rw [hkind]
    exact trivial

theorem Rooted.declare (h : t.Rooted) (hf : f.Suits cls) (reach : Reach) (name : String)
    (line : Option Nat) :
    Yields (declare reach name cls line f) t fun id t' => t'.Rooted ∧
      t.Follows (newRoutines name cls) t' ∧ t'.Declared name cls id ∧
      (reach ≠ .innermost → t'.resolve name none (some cls) = some id) := by
  have hresolve {id : SymbolId} {t' : Table}
      (hd : Table.declare reach name cls line f t = .ok id t')
      (hid : t'.Declared name cls id) (hreach : reach ≠ .innermost) :
      t'.resolve name none (some cls) = some id :=
    hid.cls ▸ resolve_some_of_resolve_none (resolve_none_declare hreach hd)
  refine .of_cases (yields_declare h.scopes hf reach name line).of_error fun {id t'} hd => ?_
  rcases declare_eq_ok hd with ⟨hid, hcls, rfl⟩ | ⟨hid, -, rfl, kind, hkind, rfl⟩
  · obtain ⟨hhas, hname⟩ := h.declared hid
    have hrefines : t.Refines (t.modifySymbol id fun _ => ((t.symbol id).merge line f).2) :=
      refines_modifySymbol (Symbol.grows_merge line hf.usage _)
      (Fields.Suits.merge (hcls ▸ hf) line).2
    have hdeclared :
        (t.modifySymbol id fun _ => ((t.symbol id).merge line f).2).Declared name cls id :=
      ⟨hrefines.has.2 hhas,
        (hrefines.symbol id).cls.trans hcls, by rw [(hrefines.symbol id).name, hname]⟩
    exact ⟨h.refines hrefines, hrefines.follows.mono (List.nil_subset _), hdeclared,
      hresolve hd hdeclared⟩
  · obtain ⟨kind', hkind', halias⟩ := hf.ofFields name
    obtain rfl : kind = kind' := by simpa [hkind] using hkind'
    obtain ⟨scope, hscope, hget⟩ := exists_scope hid h.scopes
    have hdeclared :
        (t.insertAt (t.frame reach) (scopePath (t.scopes.drop (t.frame reach))) name line
          (f.usage.getD 0)
        kind).Declared name cls ⟨t.symbols.size⟩ := by
      refine ⟨has_insertAt.2 (.inr rfl), ?_, ?_⟩
      · rw [symbol_insertAt, if_pos rfl]
        exact cls_ofFields hkind
      · rw [symbol_insertAt, if_pos rfl]
    exact ⟨h.insertAt hscope hget halias, follows_insertAt hdeclared.cls, hdeclared,
      hresolve hd hdeclared⟩

theorem yields_setValue (hcls : (t.symbol id).cls = .var) (v : Value) :
    Yields (setValue id v) t fun _ t' => t.Refines t' := by
  refine .bind (.of_get ?_)
  dsimp only
  rw [if_neg (not_not.2 hcls)]
  refine .of_modify (refines_modifySymbol (Symbol.grows_setValue v _) ?_)
  have hsame : ((t.symbol id).setValue v).routine? = (t.symbol id).routine? := by
    obtain ⟨name, line, usage, scope, fullName, _ | _⟩ := t.symbol id <;> rfl
  rw [hsame, alias?]

theorem yields_setCode (hcls : (t.symbol id).cls = .routine) (d : Definition) :
    Yields (setCode id d) t fun _ t' => t.Refines t' := by
  refine .bind (.of_get ?_)
  dsimp only
  rw [if_neg (not_not.2 hcls)]
  refine .of_modify (refines_modifySymbol (Symbol.grows_setCode d _) ?_)
  rw [Symbol.setCode, Symbol.routine?_modifyRoutine, alias?]
  cases (t.symbol id).routine? <;> rfl

end Table

end TurtleCompiler
