import TurtleCompiler.Proofs.Blame
import TurtleCompiler.Proofs.Failures

/-!
What every state of a lowering has, whatever actions are taken and in whatever order.
-/

namespace TurtleCompiler

def Work.result? (x : Work α) : Option Workspace :=
  match x {} with
  | .ok _ w => some w
  | .error .. => none

theorem exists_result (x : Work Unit) (p : Workspace → Prop) (h : ∃ w ∈ x.result?, p w) :
    ∃ w, x {} = .ok () w ∧ p w := by
  obtain ⟨w, hw, hp⟩ := h
  unfold Work.result? at hw
  split at hw
  · rename_i w' hrun
    obtain rfl := Option.some.inj hw
    exact ⟨w', hrun, hp⟩
  · simp at hw

/-- A symbol is found by its full name when a source has been lowered, and no other of its class has
that name. -/
theorem lookup_fullName_of_lower {text : String} {u : Unit} {w : Workspace}
    (h : lower (.ofText text) {} = .ok u w) :
    w.table.scopes = [] ∧
      (∀ id, w.table.Has id →
        w.table.lookup (w.table.symbol id).cls (w.table.symbol id).fullName = some id) ∧
      ∀ id id', w.table.Has id → w.table.Has id' →
        (w.table.symbol id).cls = (w.table.symbol id').cls →
        (w.table.symbol id).fullName.toUpper = (w.table.symbol id').fullName.toUpper →
        id = id' := by
  obtain ⟨entry, hlowered, -, hscopes⟩ := lowered_of_lower h
  have hsound := hlowered.live.sound
  exact ⟨hscopes, fun _ hid => hsound.lookup_fullName hscopes hid,
    fun _ _ hid hid' _ he => hsound.unique hid hid' he⟩

theorem lookup_fullName_of_lower_shadowing : ∃ w,
    lower (.ofText "F 1 TO F :X Y = :X G :X END TO G :X Y = 2 END X = 3 Y = :X") {} = .ok () w ∧
      (∃ id id', w.table.Has id ∧ w.table.Has id' ∧ (w.table.symbol id).fullName = "@F.X" ∧
        (w.table.symbol id').fullName = "@G.X") ∧ w.table.scopes = [] ∧
      (∀ id, w.table.Has id →
        w.table.lookup (w.table.symbol id).cls (w.table.symbol id).fullName = some id) ∧
      ∀ id id', w.table.Has id → w.table.Has id' →
        (w.table.symbol id).cls = (w.table.symbol id').cls →
        (w.table.symbol id).fullName.toUpper = (w.table.symbol id').fullName.toUpper →
        id = id' := by
  obtain ⟨w, h, hids⟩ := exists_result
    (lower (.ofText "F 1 TO F :X Y = :X G :X END TO G :X Y = 2 END X = 3 Y = :X"))
    (fun w => w.table.Has ⟨28⟩ ∧ w.table.Has ⟨31⟩ ∧
      (w.table.symbol ⟨28⟩).fullName = "@F.X" ∧
      (w.table.symbol ⟨31⟩).fullName = "@G.X") (by decide +kernel)
  exact ⟨w, h, ⟨_, _, hids⟩, lookup_fullName_of_lower h⟩

variable {ids : List SymbolId}

namespace Table

variable {t t' : Table} {id : SymbolId} {name : String} {reach : Reach}
  {line : Option Nat} {f : Fields}

structure Anchors (t : Table) (name : String) (id : SymbolId) : Prop where
  has : t.Has id
  cls : (t.symbol id).cls = .routine
  fullName : (t.symbol id).fullName.toUpper = name.toUpper
  outermost : ∀ scope ∈ t.scopes.getLast?, scope.names.get? name = some id
  alone : ∀ {scope}, scope ∈ t.scopes →
    ∀ j ∈ scope.names.get? name, (t.symbol j).cls = .routine → j = id
  closed : t.scopes = [] → t.lookup .routine name = some id

theorem Anchors.resolve (h : t.Anchors name id) :
    t.resolve name none (some .routine) = some id := by
  cases hlast : t.scopes.getLast? with
  | none =>
    have hscopes := List.getLast?_eq_none_iff.1 hlast
    simp [Table.resolve, hscopes, h.closed hscopes]
  | some last =>
    have hsome : (t.scopes.findSome? fun s =>
        (s.names.get? name).filter fun id => .routine = (t.symbol id).cls).isSome := by
      rw [List.findSome?_isSome_iff]
      exact ⟨last, List.mem_of_mem_getLast? hlast, by simp [h.outermost last hlast, h.cls]⟩
    obtain ⟨found, hfound⟩ := Option.isSome_iff_exists.1 hsome
    obtain ⟨scope, hscope, hid⟩ := List.exists_of_findSome?_eq_some hfound
    obtain ⟨hget, hcls⟩ := Option.filter_eq_some_iff.1 hid
    obtain rfl := h.alone hscope found hget (of_decide_eq_true hcls).symm
    simp [Table.resolve, hfound]

theorem Anchors.edits (h : t.Anchors name id) (he : t.Edits t') : t'.Anchors name id where
  has := he.has.2 h.has
  cls := (he.symbol id).cls.trans h.cls
  fullName := by rw [(he.symbol id).fullName, h.fullName]
  outermost := he.scopes ▸ h.outermost
  alone hscope j hj hcls := h.alone (he.scopes ▸ hscope) j hj ((he.symbol j).cls.symm.trans hcls)
  closed hscopes := by
    rw [lookup, he.byClass]
    exact h.closed (he.scopes ▸ hscopes)

structure Steady (t : Table) : Prop where
  entry : ∀ {scope}, scope ∈ t.scopes →
    ∀ {key id}, (key, id) ∈ scope.names.entries → t.Has id
  keys : ∀ {scope}, scope ∈ t.scopes → scope.names.keys.Nodup
  outer : ∀ scope ∈ t.scopes.getLast?, scope.name = "" ∧
    ∀ {key id}, (key, id) ∈ scope.names.entries → (t.symbol id).fullName.toUpper = key
  closedEntry : ∀ {cls key id}, (key, id) ∈ (t.byClass cls).entries → t.Has id
  isVar : ∀ {id m}, m ∈ t.dependencies id → t.IsVar m
  isUsed : ∀ {id m}, t.alias? id = none → t.IsUsed id → m ∈ t.dependencies id → t.IsUsed m
  aliases : ∀ {id target}, t.alias? id = some target →
    ∃ callee, t.Anchors target callee ∧ t.alias? callee = none ∧
    (t.IsUsed id → t.IsUsed callee)

namespace Steady

variable {cls : Option SymbolClass}

theorem resolve (h : t.Steady) (hid : t.resolve name none cls = some id) : t.Has id := by
  simp only [Table.resolve, Option.all_none, if_true] at hid
  split at hid
  · rename_i found hfound
    obtain rfl := Option.some.inj hid
    obtain ⟨scope, hscope, hget⟩ := List.exists_of_findSome?_eq_some hfound
    exact h.entry hscope (NameMap.mem_of_get? (Option.filter_eq_some_iff.1 hget).1)
  · exact h.closedEntry (NameMap.mem_of_get? hid)
  · simp at hid

theorem declared (h : t.Steady) {reach : Reach} (hid : t.declared reach name = some id) :
    t.Has id := by
  obtain ⟨scope, hscope, hmem⟩ := mem_of_declared hid
  exact h.entry hscope hmem

theorem refines (h : t.Steady) (he : t.Refines t')
    (hvars : ∀ {id m}, m ∈ t'.dependencies id → t'.IsVar m)
    (hused : ∀ {id m}, t.alias? id = none → t'.IsUsed id →
      m ∈ t'.dependencies id → t'.IsUsed m)
    (htarget : ∀ {id target callee}, t.alias? id = some target →
      t.resolve target none (some .routine) = some callee →
      (t.IsUsed id → t.IsUsed callee) → t'.IsUsed id → t'.IsUsed callee) : t'.Steady where
  entry hscope _ _ hid := he.has.2 (h.entry (he.scopes ▸ hscope) hid)
  keys hscope := h.keys (he.scopes ▸ hscope)
  outer scope hscope := by
    rw [he.scopes] at hscope
    refine ⟨(h.outer scope hscope).1, fun hid => ?_⟩
    rw [(he.symbol _).fullName]
    exact (h.outer scope hscope).2 hid
  closedEntry hid := by
    rw [he.byClass] at hid
    exact he.has.2 (h.closedEntry hid)
  isVar := hvars
  isUsed halias := hused (he.alias? _ ▸ halias)
  aliases {id target} halias := by
    rw [he.alias?] at halias
    obtain ⟨callee, hcallee, hnone, hcalled⟩ := h.aliases halias
    exact ⟨callee, hcallee.edits he.toEdits, (he.alias? callee).trans hnone,
      htarget halias hcallee.resolve hcalled⟩

theorem modifySymbol (h : t.Steady) {f : Symbol → Symbol}
    (hf : (t.symbol id).Grows (f (t.symbol id)))
    (husage : (f (t.symbol id)).usage = (t.symbol id).usage)
    (hroutine : (f (t.symbol id)).routine?.map (fun r => (r.params, r.uses, r.aliasOf)) =
      (t.symbol id).routine?.map fun r => (r.params, r.uses, r.aliasOf)) :
    (t.modifySymbol id f).Steady := by
  have hsame (j : SymbolId) : ((t.modifySymbol id f).symbol j).usage = (t.symbol j).usage ∧
      ((t.modifySymbol id f).symbol j).routine?.map (fun r => (r.params, r.uses, r.aliasOf)) =
        (t.symbol j).routine?.map fun r => (r.params, r.uses, r.aliasOf) := by
    exact ⟨symbol_modifySymbol_congr _ husage j,
      symbol_modifySymbol_congr (·.routine?.map fun r => (r.params, r.uses, r.aliasOf)) hroutine
      j⟩
  have halias (j : SymbolId) : (t.modifySymbol id f).alias? j = t.alias? j := by
    have := congrArg (Option.bind · fun x => x.2.2) (hsame j).2
    simpa [alias?, Option.bind_map, Function.comp_def] using this
  have hdeps (j : SymbolId) : (t.modifySymbol id f).dependencies j = t.dependencies j := by
    have := congrArg (Option.elim · [] fun x => x.1 ++ x.2.1) (hsame j).2
    unfold dependencies
    cases hr : ((t.modifySymbol id f).symbol j).routine? <;> cases hr' : (t.symbol j).routine? <;>
      simp_all
  have hused (j : SymbolId) : (t.modifySymbol id f).IsUsed j ↔
    t.IsUsed j := by simp only [IsUsed, (hsame j).1]
  have he := edits_modifySymbol hf
  refine h.refines ⟨he, halias⟩ (fun hm => ?_) (fun hnone hj hm => ?_) fun _ _ hcalled hj => ?_
  · rw [hdeps] at hm
    exact ⟨he.has.2 (h.isVar hm).1, (he.symbol _).cls.trans (h.isVar hm).2⟩
  · rw [hdeps] at hm
    exact (hused _).2 (h.isUsed hnone ((hused _).1 hj) hm)
  · exact (hused _).2 (hcalled ((hused _).1 hj))

theorem useAll (h : t.Steady) (hids : ∀ id ∈ ids, t.Has id)
    (hdeps : ∀ id ∈ ids, t.alias? id = none → t.dependencies id ⊆ ids)
    (htarget : ∀ id ∈ ids, ∀ {target callee}, t.alias? id = some target →
      t.resolve target none (some .routine) = some callee → callee ∈ ids) :
    (t.useAll ids).Steady := by
  refine h.refines ⟨edits_useAll hids, alias?_useAll hids⟩ (fun hm => ?_)
    (fun hnone hj hm => ?_) fun halias hcallee hcalled hj => ?_
  · rw [dependencies_useAll hids] at hm
    exact (isVar_useAll hids).2 (h.isVar hm)
  · rw [dependencies_useAll hids] at hm
    rw [isUsed_useAll hids] at hj ⊢
    exact hj.imp (fun hj => h.isUsed hnone hj hm) fun hj => hdeps _ hj hnone hm
  · rw [isUsed_useAll hids] at hj ⊢
    exact hj.imp hcalled fun hj => htarget _ hj halias hcallee

theorem countUse (h : t.Steady) (hid : t.Has id) (hc : countUse id t = .ok ⟨⟩ t') :
    t'.Steady := by
  have hvar {j m : SymbolId} (hm : m ∈ t.dependencies j) :
      t.alias? m = none ∧ t.dependencies m = [] :=
    ⟨(h.isVar hm).alias?, (h.isVar hm).dependencies⟩
  rcases countUse_eq_ok h.isVar (fun _ => h.resolve) hid hc with
    ⟨halias, rfl⟩ | ⟨target, callee, halias, hcallee, rfl⟩
  · refine h.useAll ?_ ?_ ?_
    · simpa [hid] using fun m hm => (h.isVar hm).1
    · simp only [List.mem_cons]
      rintro j (rfl | hj) -
      · exact List.subset_cons_self _ _
      · simp [(hvar hj).2]
    · simp only [List.mem_cons]
      rintro j (rfl | hj) target callee hj'
      · simp [halias] at hj'
      · simp [(hvar hj).1] at hj'
  · obtain ⟨callee', hanchor, hnone, -⟩ := h.aliases halias
    obtain rfl : callee' = callee := by simpa [hanchor.resolve] using hcallee
    refine h.useAll ?_ ?_ ?_
    · simpa [hid, hanchor.has] using fun m hm => (h.isVar hm).1
    · simp only [List.mem_cons]
      rintro j (rfl | rfl | hj) hj'
      · simp [halias] at hj'
      · exact fun m hm => by simp [hm]
      · simp [(hvar hj).2]
    · simp only [List.mem_cons]
      rintro j (rfl | rfl | hj) target' callee hj' hcallee'
      · obtain rfl : target = target' := by simpa [halias] using hj'
        obtain rfl : callee' = callee := by simpa [hcallee] using hcallee'
        simp
      · simp [hnone] at hj'
      · simp [(hvar hj).1] at hj'

theorem countUsage (h : t.Steady) (hc : countUsage name cls t = .ok id t') : t'.Steady := by
  obtain ⟨hid, hc⟩ := countUsage_eq_ok hc
  exact h.countUse (h.resolve hid) hc

end Steady

section InsertAt

variable {k : Nat} {scope : Scope} {path : String} {line : Option Nat} {kind : Kind}

theorem Anchors.insertAt {name' : String} (h : t.Anchors name' id)
    (hentry : ∀ {scope}, scope ∈ t.scopes →
      ∀ {key id}, (key, id) ∈ scope.names.entries → t.Has id)
    (hk : t.scopes[k]? = some scope) (hnew : scope.names.get? name = none)
    (hfree : ∀ r, kind = .routine r → ∀ s ∈ t.scopes, s.names.get? name = none) :
    (t.insertAt k path name line 0 kind).Anchors name' id := by
  have hne : t.scopes ≠ [] := by
    rintro he
    simp [he] at hk
  obtain ⟨last, hlast⟩ : ∃ last, t.scopes.getLast? = some last :=
    ⟨_, List.getLast?_eq_some_getLast hne⟩
  have hget := h.outermost last hlast
  have hsame (he : name.toUpper = name'.toUpper) (m : NameMap) : m.get? name = m.get? name' := by
    simp [NameMap.get?, he]
  refine ⟨has_insertAt.2 (.inl h.has), ?_, ?_, fun s hs => ?_, fun {s} hs j hj hcls => ?_,
    fun he => ?_⟩
  · rw [symbol_insertAt_of_has h.has, h.cls]
  · rw [symbol_insertAt_of_has h.has, h.fullName]
  · rw [getLast?_insertAt hlast, Option.mem_some_iff] at hs
    subst hs
    split
    · rename_i hlast'
      rw [List.getLast?_eq_getElem?, ← hlast', hk] at hlast
      obtain rfl := Option.some.inj hlast
      rw [NameMap.get?_insert_of_ne fun he => ?_]
      · exact hget
      · simp [hsame he, hget] at hnew
    · exact hget
  · have hold {s : Scope} (hs : s ∈ t.scopes) (hj : s.names.get? name' = some j) : j = id := by
      rw [symbol_insertAt_of_has (hentry hs (NameMap.mem_of_get? hj))] at hcls
      exact h.alone hs j hj hcls
    rcases mem_modify hs with hs | ⟨s', hs', rfl⟩
    · exact hold hs hj
    · by_cases he : name.toUpper = name'.toUpper
      · have hnewId : some j = some ⟨t.symbols.size⟩ := by
          rw [← Option.mem_def.1 hj, ← hsame he]
          exact NameMap.get?_insert _ _ _
        obtain rfl := Option.some.inj hnewId
        rw [symbol_insertAt, if_pos rfl] at hcls
        cases kind with
        | var v => simp [Symbol.cls] at hcls
        | routine r =>
          simpa [hsame he, hget] using hfree r rfl last (List.mem_of_mem_getLast? hlast)
      · refine hold (List.mem_of_getElem? hs') ?_
        rwa [Option.mem_def, NameMap.get?_insert_of_ne he] at hj
  · have hlength : (t.insertAt k path name line 0 kind).scopes.length = t.scopes.length :=
      List.length_modify ..
    rw [he] at hlength
    exact absurd (List.eq_nil_of_length_eq_zero hlength.symm) hne

theorem Steady.insertAt (h : t.Steady) (hk : t.scopes[k]? = some scope)
    (hpath : path = scopePath (t.scopes.drop k)) (hnew : scope.names.get? name = none)
    (hfree : ∀ r, kind = .routine r → r = {} ∧ ∀ s ∈ t.scopes, s.names.get? name = none) :
    (t.insertAt k path name line 0 kind).Steady := by
  have hentries := NameMap.entries_insert_of_get? hnew ⟨t.symbols.size⟩
  have hcases {s : Scope} (hs : s ∈ (t.insertAt k path name line 0 kind).scopes) :
      s ∈ t.scopes ∨
      s = { scope with names := scope.names.insert name ⟨t.symbols.size⟩ } := by
    rcases mem_modify hs with hs | ⟨s', hs', rfl⟩
    · exact .inl hs
    · obtain rfl : scope = s' := by simpa [hk] using hs'
      exact .inr rfl
  have hroutine {j : SymbolId} (hj : ¬ t.Has j) :
      ∀ r ∈ ((t.insertAt k path name line 0 kind).symbol j).routine?, r = {} := by
    rw [symbol_insertAt]
    split
    · cases kind with
      | var v => simp [Symbol.routine?]
      | routine r => simpa [Symbol.routine?] using (hfree r rfl).1
    · simp [symbol_of_not_has hj, blankSymbol, Symbol.routine?]
  have hdeps {j : SymbolId} (hj : ¬ t.Has j) :
      (t.insertAt k path name line 0 kind).dependencies j = [] := by
    cases hr : ((t.insertAt k path name line 0 kind).symbol j).routine? with
    | none => simp [dependencies, hr]
    | some r => simp [dependencies, hr, hroutine hj r hr]
  have hdepsOld {j : SymbolId} (hj : t.Has j) :
      (t.insertAt k path name line 0 kind).dependencies j = t.dependencies j := by
    simp [dependencies, symbol_insertAt_of_has hj]
  have hused {j : SymbolId} (hj : t.Has j) :
      (t.insertAt k path name line 0 kind).IsUsed j ↔ t.IsUsed j := by
    simp [IsUsed, symbol_insertAt_of_has hj]
  have halias : ∀ j, (t.insertAt k path name line 0 kind).alias? j = t.alias? j :=
    alias?_insertAt fun r hr => by rw [(hfree r hr).1]
  refine ⟨fun {s} hs key id hid => ?_, fun {s} hs => ?_, fun s hs => ?_, fun hid => ?_,
    fun {id m} hm => ?_, fun {id m} hnone hid hm => ?_, fun {id target} hid => ?_⟩
  · rw [has_insertAt]
    rcases hcases hs with hs | rfl
    · exact .inl (h.entry hs hid)
    · simp only [hentries, List.mem_append, List.mem_singleton, Prod.mk.injEq] at hid
      exact hid.imp (h.entry (List.mem_of_getElem? hk)) And.right
  · rcases hcases hs with hs | rfl
    · exact h.keys hs
    · exact NameMap.nodup_keys_insert (h.keys (List.mem_of_getElem? hk)) hnew _
  · cases hlast : t.scopes.getLast? with
    | none => simp [List.getLast?_eq_none_iff.1 hlast] at hk
    | some last =>
      obtain ⟨hname, hfull⟩ := h.outer last hlast
      have hold {key : String} {id : SymbolId} (hid : (key, id) ∈ last.names.entries) :
          ((t.insertAt k path name line 0 kind).symbol id).fullName.toUpper = key := by
        rw [symbol_insertAt_of_has (h.entry (List.mem_of_mem_getLast? hlast) hid)]
        exact hfull hid
      rw [getLast?_insertAt hlast, Option.mem_some_iff] at hs
      subst hs
      split
      · rename_i hlast'
        rw [List.getLast?_eq_getElem?, ← hlast', hk] at hlast
        obtain rfl := Option.some.inj hlast
        refine ⟨hname, fun {key id} hid => ?_⟩
        simp only [hentries, List.mem_append, List.mem_singleton, Prod.mk.injEq] at hid
        rcases hid with hid | ⟨rfl, rfl⟩
        · exact hold hid
        · have hdrop : t.scopes.drop k = [scope] := by
            rw [List.drop_eq_getElem?_toList_append, hk]
            simp
            omega
          rw [symbol_insertAt, if_pos rfl, hpath, hdrop]
          simp [scopePath, hname, qualify]
      · exact ⟨hname, hold⟩
  · exact has_insertAt.2 (.inl (h.closedEntry hid))
  · by_cases hhas : t.Has id
    · rw [hdepsOld hhas] at hm
      have hvar := h.isVar hm
      exact ⟨has_insertAt.2 (.inl hvar.1), by rw [symbol_insertAt_of_has hvar.1, hvar.2]⟩
    · simp [hdeps hhas] at hm
  · by_cases hhas : t.Has id
    · rw [hdepsOld hhas] at hm
      rw [halias] at hnone
      exact (hused (h.isVar hm).1).2 (h.isUsed hnone ((hused hhas).1 hid) hm)
    · simp [hdeps hhas] at hm
  · rw [halias] at hid
    obtain ⟨callee, hcallee, hnone, hcalled⟩ := h.aliases hid
    refine ⟨callee, hcallee.insertAt h.entry hk hnew fun r hr => (hfree r hr).2,
      (halias callee).trans hnone, ?_⟩
    rwa [hused (has_of_alias? hid), hused hcallee.has]

end InsertAt

theorem Steady.declare (h : t.Steady) {cls : SymbolClass} (hf : f.usage = none)
    (hcls : cls = .var ∨ f = {} ∧ reach ≠ .innermost)
    (hd : declare reach name cls line f t = .ok id t') : t'.Steady := by
  rcases declare_eq_ok hd with ⟨hid, hc, rfl⟩ | ⟨hid, hscopes, -, kind, hkind, rfl⟩
  · have hroutine := Symbol.routine?_merge line (hcls.imp (fun hvar => hc.trans hvar) And.left)
    exact h.modifySymbol (Symbol.grows_merge line hf _) (Symbol.usage_merge line hf _)
      (congrArg _ hroutine)
  · obtain ⟨scope, hscope, hget⟩ := exists_scope hid hscopes
    rw [hf, Option.getD_none]
    refine h.insertAt hscope rfl hget fun r hr => ?_
    obtain ⟨-, rfl⟩ | ⟨rfl, rfl⟩ := ofFields_eq_ok hkind
    · cases hr
    · obtain ⟨rfl, hreach⟩ := hcls.resolve_left (by simp)
      rw [declared_eq_resolve hreach, Table.resolve_none, findSome?_frames,
        List.findSome?_eq_none_iff] at hid
      exact ⟨(Kind.routine.inj hr).symm, hid⟩

theorem getLast?_push (hscopes : t.scopes ≠ []) (name : String) :
    (t.push name).scopes.getLast? = t.scopes.getLast? := by
  rw [Table.push, List.getLast?_cons_of_ne_nil hscopes]

theorem Anchors.push (h : t.Anchors name id) (hscopes : t.scopes ≠ []) (inner : String) :
    (t.push inner).Anchors name id where
  has := h.has
  cls := h.cls
  fullName := h.fullName
  outermost s hs := h.outermost s (getLast?_push hscopes inner ▸ hs)
  alone {s} hs j hj := by
    rcases List.mem_cons.1 hs with rfl | hs
    · simp [NameMap.get?] at hj
    · exact h.alone hs j hj
  closed he := by simp [Table.push] at he

theorem Steady.push (h : t.Steady) (hscopes : t.scopes ≠ []) (name : String) :
    (t.push name).Steady := by
  have hlast := getLast?_push hscopes name
  refine ⟨fun {s} hs key id hid => ?_, fun {s} hs => ?_, fun s hs => h.outer s (hlast ▸ hs),
    h.closedEntry, h.isVar, h.isUsed, fun halias => ?_⟩
  · rcases List.mem_cons.1 hs with rfl | hs
    · simp at hid
    · exact h.entry hs hid
  · rcases List.mem_cons.1 hs with rfl | hs
    · exact List.nodup_nil
    · exact h.keys hs
  · obtain ⟨callee, hcallee, hrest⟩ := h.aliases halias
    exact ⟨callee, hcallee.push hscopes name, hrest⟩

section Pop

variable {scope : Scope} {scopes : List Scope} {ids : List SymbolId}

theorem lookup_foldl_close (hcls : (t.symbol id).cls = .routine)
    (hfull : (t.symbol id).fullName.toUpper = name.toUpper)
    (hids : ∀ j ∈ ids, (t.symbol j).cls = .routine →
      (t.symbol j).fullName.toUpper = name.toUpper → j = id)
    (h : t.lookup .routine name = some id ∨ id ∈ ids) :
    (ids.foldl Table.close t).lookup .routine name = some id := by
  induction ids generalizing t with
  | nil => simpa using h
  | cons j ids ih =>
    simp only [List.forall_mem_cons] at hids
    refine ih (by rwa [symbol_close]) (by rwa [symbol_close])
      (by simpa only [symbol_close] using hids.2) ?_
    have hget (m : NameMap) (he : (t.symbol j).fullName.toUpper = name.toUpper) :
        (m.insert (t.symbol j).fullName j).get? name = some j := by
      have := NameMap.get?_insert m (t.symbol j).fullName j
      rwa [NameMap.get?, he] at this
    rw [lookup, byClass_close]
    by_cases hj : .routine = (t.symbol j).cls ∧ (t.symbol j).fullName.toUpper = name.toUpper
    · obtain rfl := hids.1 hj.1.symm hj.2
      rw [if_pos hj.1]
      exact .inl (hget _ hj.2)
    · rcases h with h | h
      · left
        split
        · rename_i hroutine
          rw [NameMap.get?_insert_of_ne fun he => hj ⟨hroutine, he⟩]
          exact h
        · exact h
      · rcases List.mem_cons.1 h with rfl | h
        · exact absurd ⟨hcls.symm, hfull⟩ hj
        · exact .inr h

theorem Anchors.pop (h : t.Anchors name id) (ht : t.Steady) (hscopes : t.scopes = scope :: scopes) :
    (scope.names.ids.foldl Table.close { t with scopes }).Anchors name id := by
  obtain ⟨hsymbols, hscopes'⟩ := symbols_foldl_close scope.names.ids { t with scopes }
  have hsymbol := symbol_eq_of_symbols hsymbols
  refine ⟨by simpa [Has,
    hsymbols] using h.has, by rw [hsymbol]; exact h.cls, by rw [hsymbol]; exact h.fullName, ?_, ?_,
    ?_⟩
  · rw [hscopes']
    intro s hs
    refine h.outermost s ?_
    rw [hscopes, List.getLast?_cons_of_ne_nil fun he => ?_]
    · exact hs
    · simp [he] at hs
  · rw [hscopes']
    intro s hs j hj hcls
    rw [hsymbol] at hcls
    exact h.alone (hscopes ▸ List.mem_cons_of_mem _ hs) j hj hcls
  · intro hempty
    obtain rfl : scopes = [] := hscopes'.symm.trans hempty
    have hscope : t.scopes.getLast? = some scope := by simp [hscopes]
    have hmem : scope ∈ t.scopes := List.mem_of_mem_getLast? hscope
    have hentry := NameMap.mem_of_get? (h.outermost scope hscope)
    refine lookup_foldl_close h.cls h.fullName (fun j hj _ hfull => ?_)
      (.inr (List.mem_map.2 ⟨_, hentry, rfl⟩))
    obtain ⟨⟨key, j⟩, hkey, rfl⟩ := List.mem_map.1 hj
    obtain rfl : key = name.toUpper := ((ht.outer scope hscope).2 hkey).symm.trans hfull
    have hget := NameMap.get?_of_mem (ht.keys hmem) hkey
    simpa [h.outermost scope hscope] using hget.symm

theorem mem_foldl_close {cls : SymbolClass} {key : String} {j : SymbolId}
    (h : (key, j) ∈ ((ids.foldl Table.close t).byClass cls).entries) :
    (key, j) ∈ (t.byClass cls).entries ∨ j ∈ ids := by
  induction ids generalizing t with
  | nil => exact .inl h
  | cons i ids ih =>
    rcases ih h with h | h
    · rw [byClass_close] at h
      split at h
      · rcases NameMap.mem_put h with he | h
        · exact .inr (by simp [(Prod.mk.inj he).2])
        · exact .inl h
      · exact .inl h
    · exact .inr (.tail _ h)

theorem Steady.pop (h : t.Steady) (hscopes : t.scopes = scope :: scopes) :
    (scope.names.ids.foldl Table.close { t with scopes }).Steady := by
  obtain ⟨hsymbols, hscopes'⟩ := symbols_foldl_close scope.names.ids { t with scopes }
  have hsymbol (id : SymbolId) :
      (scope.names.ids.foldl Table.close { t with scopes }).symbol id = t.symbol id := by
    simp [symbol, hsymbols]
  have hhas (id : SymbolId) : (scope.names.ids.foldl Table.close { t with scopes }).Has id ↔
      t.Has id := by
    simp [Has, hsymbols]
  have hmem {s : Scope} (hs : s ∈ scopes) :
      s ∈ t.scopes := hscopes ▸ List.mem_cons_of_mem _ hs
  refine ⟨?_, ?_, ?_, fun hid => ?_, ?_, ?_, fun halias => ?_⟩
  · rw [hscopes']
    exact fun hs _ _ hid => (hhas _).2 (h.entry (hmem hs) hid)
  · rw [hscopes']
    exact fun hs => h.keys (hmem hs)
  · rw [hscopes']
    intro s hs
    simp only [hsymbol]
    refine h.outer s ?_
    rw [hscopes, List.getLast?_cons_of_ne_nil fun he => ?_]
    · exact hs
    · simp [he] at hs
  · rw [hhas]
    rcases mem_foldl_close hid with hid | hid
    · exact h.closedEntry hid
    · obtain ⟨⟨key, j⟩, hkey, rfl⟩ := List.mem_map.1 hid
      exact h.entry (hscopes ▸ List.mem_cons_self) hkey
  · simp only [dependencies, IsVar, hhas, hsymbol]
    exact h.isVar
  · simp only [dependencies, alias?, IsUsed, hsymbol]
    exact h.isUsed
  · simp only [alias?, IsUsed, hsymbol] at halias ⊢
    obtain ⟨callee, hcallee, hrest⟩ := h.aliases halias
    exact ⟨callee, hcallee.pop h hscopes, hrest⟩

end Pop

def visible (t : Table) (name : String) : Option SymbolId :=
  t.scopes.findSome? fun s => (s.names.get? name).filter fun id => .routine = (t.symbol id).cls

theorem visible_of_resolve_none (hid : t.resolve name none none = some id)
    (hcls : (t.symbol id).cls = .routine) : t.visible name = some id := by
  rw [Table.resolve_none, findSome?_frames] at hid
  obtain ⟨l₁, scope, l₂, hscopes, hget, hbefore⟩ := List.findSome?_eq_some_iff.1 hid
  refine List.findSome?_eq_some_iff.2
    ⟨l₁, scope, l₂, hscopes, by simp [hget, hcls], fun s hs => ?_⟩
  simp [hbefore s hs]

theorem resolve_none_ne_none (h : t.visible name = some id) :
    t.resolve name none none ≠ none := by
  obtain ⟨scope, hscope, hid⟩ := List.exists_of_findSome?_eq_some h
  rw [Table.resolve_none, findSome?_frames, Ne, List.findSome?_eq_none_iff]
  intro hnone
  simp [hnone scope hscope] at hid

theorem Edits.visible (h : t.Edits t') (name : String) : t'.visible name = t.visible name := by
  simp only [Table.visible, h.scopes, (h.symbol _).cls]

theorem Steady.visible_declare_var (h : t.Steady) (hf : f.usage = none)
    (hd : Table.declare reach name .var line f t = .ok id t') (name' : String) :
    t'.visible name' = t.visible name' := by
  rcases declare_eq_ok hd with ⟨hid, -, rfl⟩ | ⟨hid, hscopes, -, kind, hkind, rfl⟩
  · exact (edits_modifySymbol (Symbol.grows_merge line hf _)).visible name'
  · obtain ⟨scope, hscope, hget⟩ := exists_scope hid hscopes
    have hfilter {s : Scope} (hs : s ∈ t.scopes) (path : String) (usage : Nat) :
        ((s.names.get? name').filter fun id => .routine =
          ((t.insertAt (t.frame reach) path name line usage kind).symbol id).cls) =
        (s.names.get? name').filter fun id => .routine = (t.symbol id).cls := by
      cases hj : s.names.get? name' with
      | none => rfl
      | some j =>
        simp only [Option.filter_some, symbol_insertAt_of_has (h.entry hs (NameMap.mem_of_get? hj))]
    refine findSome?_modify_eq (fun s hs => hfilter hs _ _) fun s hs => ?_
    obtain rfl : scope = s := by simpa [hscope] using hs
    by_cases he : name.toUpper = name'.toUpper
    · have hold : scope.names.get? name' = none := by simpa [NameMap.get?, he] using hget
      have hnew : (scope.names.insert name ⟨t.symbols.size⟩).get? name' =
          some ⟨t.symbols.size⟩ := by
        have := NameMap.get?_insert scope.names name ⟨t.symbols.size⟩
        rwa [NameMap.get?, he] at this
      simp [hold, hnew, symbol_insertAt, cls_ofFields hkind]
    · rw [NameMap.get?_insert_of_ne he]
      exact hfilter (List.mem_of_getElem? hscope) _ _

theorem Steady.declare_has (h : t.Steady) {cls : SymbolClass} (hf : f.usage = none)
    (hd : Table.declare reach name cls line f t = .ok id t') :
    t'.Has id ∧ (t'.symbol id).cls = cls ∧ ∀ j, t.IsVar j → t'.IsVar j := by
  rcases declare_eq_ok hd with ⟨hid, hcls, rfl⟩ | ⟨-, -, rfl, kind, hkind, rfl⟩
  · have he := edits_modifySymbol (f := fun _ => ((t.symbol id).merge line f).2)
      (Symbol.grows_merge line hf _)
    exact ⟨he.has.2 (h.declared hid), (he.symbol id).cls.trans hcls,
      fun j hj => ⟨he.has.2 hj.1, (he.symbol j).cls.trans hj.2⟩⟩
  · refine ⟨has_insertAt.2 (.inr rfl), ?_, fun j hj => ⟨has_insertAt.2 (.inl hj.1), ?_⟩⟩
    · rw [symbol_insertAt, if_pos rfl]
      exact cls_ofFields hkind
    · rw [symbol_insertAt_of_has hj.1, hj.2]

theorem Steady.setParams (h : t.Steady) (hid : t.visible name = some id)
    (hvars : ∀ m ∈ ids, t.IsVar m) (hused : t.IsUsed id → ∀ m ∈ ids, t.IsUsed m)
    {j : SymbolId}
    (hd : Table.declare .anywhere name .routine none { params := some ids } t = .ok j t') :
    t'.Steady := by
  rcases declare_eq_ok hd with ⟨hj, hcls, rfl⟩ | ⟨hj, -⟩
  · obtain rfl : j = id := by simpa [visible_of_resolve_none hj hcls] using hid
    have hhas := h.declared hj
    obtain ⟨r, hr⟩ := Symbol.exists_routine hcls
    obtain ⟨s, hs⟩ : ∃ s, s =
      ((t.symbol j).merge none { params := some ids }).2 := ⟨_, rfl⟩
    have hgrows : (t.symbol j).Grows s := hs ▸ Symbol.grows_merge none rfl _
    have husage : s.usage = (t.symbol j).usage := hs ▸ Symbol.usage_merge none rfl _
    have hroutine : s.routine? = some { r with params := ids } := by
      rw [hs, Symbol.routine?_merge_some rfl hr]
      simp [Routine.apply, Flags.union]
    rw [← hs]
    have he : t.Edits (t.modifySymbol j fun _ => s) := edits_modifySymbol hgrows
    have hsymbol (i : SymbolId) := symbol_modifySymbol hhas (fun _ => s) i
    have hvar {m : SymbolId} (hm : t.IsVar m) : (t.modifySymbol j fun _ => s).IsVar m :=
      ⟨he.has.2 hm.1, (he.symbol m).cls.trans hm.2⟩
    have hused' (i : SymbolId) : (t.modifySymbol j fun _ => s).IsUsed i ↔ t.IsUsed i := by
      rw [IsUsed, hsymbol]
      split
      · subst_vars
        rw [husage, IsUsed]
      · rfl
    -- what the routine depended on before is still there, but for its parameters
    have hdeps {i m : SymbolId} (hm : m ∈ (t.modifySymbol j fun _ => s).dependencies i) :
        i = j ∧ m ∈ ids ∨ m ∈ t.dependencies i := by
      by_cases hi : i = j
      · subst hi
        rw [dependencies, hsymbol, if_pos rfl, hroutine] at hm
        refine (List.mem_append.1 hm).imp (fun hm => ⟨rfl, hm⟩) fun hm => ?_
        simp [dependencies, hr, hm]
      · rw [dependencies, hsymbol, if_neg hi] at hm
        exact .inr hm
    have halias (i : SymbolId) : (t.modifySymbol j fun _ => s).alias? i = t.alias? i := by
      rw [alias?, hsymbol]
      split
      · subst_vars
        simp [alias?, hroutine, hr]
      · rfl
    refine h.refines ⟨he, halias⟩ (fun hm => ?_) (fun hnone hi hm => ?_) fun _ _ hcalled hi =>
      ?_
    · rcases hdeps hm with ⟨-, hm⟩ | hm
      · exact hvar (hvars _ hm)
      · exact hvar (h.isVar hm)
    · rw [hused'] at hi ⊢
      rcases hdeps hm with ⟨rfl, hmem⟩ | hm
      · exact hused hi _ hmem
      · exact h.isUsed hnone hi hm
    · rw [hused'] at hi ⊢
      exact hcalled hi
  · exact absurd hj (resolve_none_ne_none hid)

end Table

namespace Lowering

variable {s s' : Lowering} {name : String} {line : Nat} {id : SymbolId} {t t' : Table} {u : Unit}

theorem Declares.steady {params : List String} (h : Declares line s params ids s')
    (hs : s.table.Steady) :
    s'.table.Steady ∧ (∀ id ∈ ids, s'.table.IsVar id) ∧
      (∀ id, s.table.IsVar id → s'.table.IsVar id) ∧
      ∀ name, s'.table.visible name = s.table.visible name := by
  induction h with
  | nil => exact ⟨hs, by simp, fun _ hid => hid, fun _ => rfl⟩
  | @cons s _ _ _ id _ _ hd _ ih =>
    obtain ⟨hs', hvars, hkeep, hvisible⟩ := ih (hs.declare rfl (.inl rfl) hd)
    obtain ⟨hhas, hcls, hvar⟩ := hs.declare_has rfl hd
    refine ⟨hs', List.forall_mem_cons.2 ⟨hkeep id ⟨hhas, hcls⟩, hvars⟩,
      fun j hj => hkeep j (hvar j hj), fun name => ?_⟩
    exact (hvisible name).trans (hs.visible_declare_var rfl hd name)

theorem steady_openProcedure {params : List String} (hs : s.table.Steady)
    (h : openProcedure name line params s = .ok id s') : s'.table.Steady := by
  obtain ⟨t₁, ids, s₂, s₃, j, t₄, hd, hparams, huse, hd', rfl⟩ := openProcedure_eq_ok h
  have ht₁ := hs.declare rfl (.inr ⟨rfl, by simp⟩) hd
  have hresolve : t₁.resolve name none none = some id := Table.resolve_none_declare (by simp) hd
  have hscopes : t₁.scopes ≠ [] := by
    intro he
    simp [Table.resolve_none, he, frames] at hresolve
  obtain ⟨hs₂, hvars, -, hvisible⟩ := hparams.steady (ht₁.push hscopes name)
  have hvisible₂ : s₂.table.visible name = some id := by
    rw [hvisible]
    exact Table.visible_of_resolve_none hresolve (hs.declare_has rfl hd).2.1
  rcases huse with ⟨hused, huse⟩ | ⟨hunused, rfl⟩
  · cases huse.symm.trans (forM_countUse hvars)
    have hids : ∀ m ∈ ids, s₂.table.Has m := fun m hm => (hvars m hm).1
    have hs₃ : (s₂.table.useAll ids).Steady := by
      refine hs₂.useAll hids (fun m hm _ => ?_) fun m hm target callee halias => ?_
      · simp [(hvars m hm).dependencies]
      · simp [(hvars m hm).alias?] at halias
    exact hs₃.setParams (((Table.edits_useAll hids).visible name).trans hvisible₂)
      (fun m hm => (Table.isVar_useAll hids).2 (hvars m hm))
      (fun _ m hm => (Table.isUsed_useAll hids).2 (.inr hm)) hd'
  · refine hs₂.setParams hvisible₂ hvars (fun hused => ?_) hd'
    simp [Table.IsUsed, hunused] at hused

theorem steady_setValue {v : Value} (h : t.Steady) (hset : Table.setValue id v t = .ok ⟨⟩ t') :
    t'.Steady := by
  obtain ⟨-, rfl⟩ := Table.setValue_eq_ok hset
  refine h.modifySymbol (Symbol.grows_setValue v _) ?_ ?_ <;> obtain ⟨_, _, _, _, _, _ | _⟩ :=
    t.symbol id <;> rfl

theorem steady_setCode {d : Definition} (h : t.Steady)
    (hset : Table.setCode id d t = .ok ⟨⟩ t') : t'.Steady := by
  obtain ⟨hcls, rfl⟩ := Table.setCode_eq_ok hset
  obtain ⟨r, hr⟩ := Symbol.exists_routine hcls
  refine h.modifySymbol (Symbol.grows_setCode d _) (Symbol.usage_modifyRoutine _ _) ?_
  rw [Symbol.setCode, Symbol.routine?_modifyRoutine, hr]
  rfl

inductive Action where
  | newLabel
  | addTopLevel (n : Node)
  | number (text : String) (line : Nat)
  | reference (name : String) (line : Nat)
  | random
  | arithmetic (op : String) (l r : Expr) (line : Nat)
  | negate (e : Expr) (line : Nat)
  | positive (e : Expr) (line : Nat)
  | comparison (op : String) (l r : Expr) (line : Nat)
  | combination (op : String) (l r : Expr) (line : Nat)
  | negation (e : Expr) (line : Nat)
  | assignment (name op : String) (rhs : Expr) (line : Nat)
  | call (name : String) (args : List Expr) (line : Nat)
  | print (args : List Expr)
  | typein (name : String) (line : Nat)
  | ifStatement (cond : Expr) (yes : List Node) (no : Option (List Node)) (line : Nat)
  | whileStatement (cond : Expr) (body : List Node) (line : Nat)
  | beginProcedure (name : String) (line : Nat) (params : List String)
  | endProcedure (symbol : SymbolId) (body : List Node)
  | finish

def Action.take : Action → LowerM Unit
  | .newLabel => discard Lowering.newLabel
  | .addTopLevel n => Lowering.addTopLevel n
  | .number text line => discard (Lowering.number text line)
  | .reference name line => discard (Lowering.reference name line)
  | .random => discard Lowering.random
  | .arithmetic op l r line => discard (Lowering.arithmetic op l r line)
  | .negate e line => discard (Lowering.negate e line)
  | .positive e line => discard (Lowering.positive e line)
  | .comparison op l r line => discard (Lowering.comparison op l r line)
  | .combination op l r line => discard (Lowering.combination op l r line)
  | .negation e line => discard (Lowering.negation e line)
  | .assignment name op rhs line => discard (Lowering.assignment name op rhs line)
  | .call name args line => discard (Lowering.call name args line)
  | .print args => discard (Lowering.print args)
  | .typein name line => discard (Lowering.typein name line)
  | .ifStatement cond yes no line => discard (Lowering.ifStatement cond yes no line)
  | .whileStatement cond body line => discard (Lowering.whileStatement cond body line)
  | .beginProcedure name line params => discard (Lowering.beginProcedure name line params)
  | .endProcedure symbol body => Lowering.endProcedure symbol body
  | .finish => Lowering.finish

theorem Action.admits_take {P : (α : Type) → LowerM α → Prop} (h : Admits (fun _ => True) P)
    (hadd : ∀ n, P Unit (Lowering.addTopLevel n))
    (hassignment : ∀ name op rhs line, P Node (Lowering.assignment name op rhs line))
    (hopen : ∀ name line params, P SymbolId (openProcedure name line params))
    (hend : ∀ id body, P Unit (Lowering.endProcedure id body)) (hfinish : P Unit Lowering.finish)
    (a : Action) : P Unit a.take := by
  cases a with
  | newLabel => exact h.map h.newLabel _
  | addTopLevel n => exact hadd n
  | number text line => exact h.map (h.number trivial text) _
  | reference name line => exact h.map (h.reference trivial) _
  | random => exact h.map h.random _
  | arithmetic op l r line => exact h.map (h.arithmetic trivial op l r) _
  | negate e line =>
    have hnegate : P Expr (Lowering.negate e line) := h.ofArithmetic trivial _ _ e
    exact h.map hnegate _
  | positive e line => exact h.map (h.positive trivial e) _
  | comparison op l r line => exact h.map (h.comparison trivial op l r) _
  | combination op l r line => exact h.map (h.combination trivial op l r) _
  | negation e line => exact h.map (h.negation trivial e) _
  | assignment name op rhs line => exact h.map (hassignment name op rhs line) _
  | call name args line => exact h.map (h.call trivial args) _
  | print args => exact h.map (h.print args) _
  | typein name line => exact h.map (h.typein trivial) _
  | ifStatement cond yes no line => exact h.map (h.ifStatement trivial cond yes no) _
  | whileStatement cond body line => exact h.map (h.whileStatement trivial cond body) _
  | beginProcedure name line params =>
    exact h.map (h.beginProcedure trivial (hopen name line params)) _
  | endProcedure symbol body => exact hend symbol body
  | finish => exact hfinish

theorem Action.keeps_take {P : Table → Prop}
    (hdeclare : ∀ {reach name cls line type id t t'}, cls = .var ∨ type = none ∧
      reach ≠ .innermost → P t →
      Table.declare reach name cls line { type } t = .ok id t' → P t')
    (hcount : ∀ {name cls id t t'}, P t → Table.countUsage name cls t = .ok id t' → P t')
    (hvalue : ∀ {id v t t'}, P t → Table.setValue id v t = .ok ⟨⟩ t' → P t')
    (hopen : ∀ {name line params id} {s s' : Lowering}, P s.table →
      openProcedure name line params s = .ok id s' → P s'.table)
    (hclose : ∀ {id d t t' scope scopes}, P t → Table.setCode id d t = .ok ⟨⟩ t' →
      t'.scopes = scope :: scopes → P (scope.names.ids.foldl Table.close { t' with scopes }))
    {a : Action} (hs : P s.table) (h : a.take s = .ok u s') : P s'.table := by
  have hadmits : Admits (fun _ => True) fun _ x => ∀ s a s', P s.table → x s = .ok a s' →
    P s'.table := {
    of_pure := fun _ _ _ _ hs hx => (pure_eq_ok.1 hx).2 ▸ hs
    of_throw := fun _ _ _ _ _ hx => absurd hx throw_ne_ok
    of_get := fun _ _ _ hs hx => (get_eq_ok.1 hx).2 ▸ hs
    bind := fun hx hf _ _ _ hs hxf => by
      obtain ⟨a, s₁, hx', hf'⟩ := bind_eq_ok.1 hxf
      exact hf a _ _ _ (hx _ _ _ hs hx') hf'
    newLabel := fun _ _ _ hs hx => (newLabel_eq_ok.1 hx).2 ▸ hs
    declare := fun _ _ _ _ _ _ hs hx => by
      obtain ⟨_, hd, rfl⟩ := ofTable_eq_ok.1 hx
      exact hdeclare (.inl rfl) hs hd
    declareAt := fun _ _ _ _ hreach _ _ _ _ hs hx => by
      obtain ⟨_, hd, rfl⟩ := ofTable_eq_ok.1 (adaptExcept_eq_ok.1 hx)
      exact hdeclare (.inr ⟨rfl, hreach⟩) hs hd
    countUsage := fun _ _ _ _ _ hs hx => by
      obtain ⟨_, hc, rfl⟩ := ofTable_eq_ok.1 hx
      exact hcount hs hc }
  refine a.admits_take hadmits (fun n s _ _ hs h => ?_) (fun name op rhs line => ?_)
    (fun _ _ _ _ _ _ hs h => hopen hs h) (fun id body s _ _ hs h => ?_)
    (fun s _ _ hs h => ?_) s u s' hs h
  · exact modify_eq_ok.1 h ▸ hs
  · refine hadmits.assignment trivial (fun type s _ _ hs h => ?_)
      (fun id v s _ _ hs h => ?_) op rhs
    · obtain ⟨_, hd, rfl⟩ := ofTable_eq_ok.1 h
      exact hdeclare (.inl rfl) hs hd
    · obtain ⟨_, hset, rfl⟩ := ofTable_eq_ok.1 h
      exact hvalue hs hset
  · obtain ⟨t, scope, scopes, hset, hscopes, rfl⟩ := endProcedure_eq_ok h
    exact hclose hs hset hscopes
  · obtain ⟨-, t, scope, scopes, hset, hscopes, rfl⟩ := finish_eq_ok h
    exact hclose hs hset hscopes

theorem Action.steady_take {a : Action} (hs : s.table.Steady) (h : a.take s = .ok u s') :
    s'.table.Steady := by
  refine keeps_take (fun hcls ht hd => ht.declare rfl (hcls.imp_right ?_) hd)
    (fun ht hc => ht.countUsage hc) (fun ht hset => steady_setValue ht hset)
    (fun hs h => steady_openProcedure hs h)
    (fun ht hset hscopes => (steady_setCode ht hset).pop hscopes) hs h
  rintro ⟨rfl, hreach⟩
  exact ⟨rfl, hreach⟩

theorem steady_actions {actions : List Action} (hs : s.table.Steady)
    (h : actions.forM Action.take s = .ok u s') : s'.table.Steady := by
  induction actions generalizing s with
  | nil =>
    obtain ⟨-, rfl⟩ := pure_eq_ok.1 h
    exact hs
  | cons a actions ih =>
    obtain ⟨_, s₁, ha, h⟩ := bind_eq_ok.1 h
    exact ih (Action.steady_take hs ha) h

theorem steady_setup {entry : SymbolId} {w : Workspace} (h : setup {} = .ok entry w) :
    w.table.Steady := by
  obtain ⟨hok, hpaths⟩ := ok_setup h
  obtain ⟨hrooted, -⟩ := rooted_setup h
  have hlive : w.table.Live := hok.live
  obtain ⟨names, hscopes⟩ := exists_outer hpaths
  have hframe : ("", names) ∈ frames w.table.scopes := by simp [hscopes, frames, scopePath]
  have hfull {key : String} {id : SymbolId} (hid : (key, id) ∈ names.entries) :
      (w.table.symbol id).fullName.toUpper = key := by
    obtain ⟨hhas, hname, hscope⟩ := hlive.sound.entry hframe hid
    rw [(hlive.sound.named hhas).1, hscope, qualify, if_pos rfl, hname]
  refine ⟨fun hs _ _ hid => (hrooted.entry hs hid).1, fun hs => ?_, fun scope hs => ?_,
    fun hid => (hlive.sound.closedEntry hid).1, hlive.isVar, fun _ => hlive.isUsed,
    fun {id target} halias => ?_⟩
  · rw [hscopes, List.mem_singleton] at hs
    exact hs ▸ hlive.sound.keys hframe
  · obtain rfl : ⟨"", names⟩ = scope := by simpa [hscopes] using hs
    exact ⟨rfl, hfull⟩
  · obtain ⟨⟨scope, hscope, callee, hcallee, hlibrary⟩, hchain⟩ := hrooted.aliases halias
    obtain rfl : ⟨"", names⟩ = scope := by simpa [hscopes] using hscope
    have hcls := Table.cls_of_library hlibrary
    have hmem := NameMap.mem_of_get? hcallee
    obtain ⟨hhas, hname, -⟩ := hlive.sound.entry hframe hmem
    refine ⟨callee, ⟨hhas, hcls, hfull hmem, ?_, ?_, by simp [hscopes]⟩, hchain hname,
      fun hid => ?_⟩
    · simpa [hscopes] using hcallee
    · rintro scope hs j hj -
      obtain rfl : scope = ⟨"", names⟩ := by simpa [hscopes] using hs
      exact Option.mem_unique hj hcallee
    · obtain ⟨-, r, hr, -, hnone⟩ := hok.entry
      have hentry : id = entry := by
        obtain ⟨rfl, htable⟩ := eq_start h
        rw [htable] at hid
        exact (start.isStart.2.2.2 id hid.has).1 hid
      simp [hentry, Table.alias?, Option.mem_def.1 hr, hnone] at halias

/-- Whatever actions a lowering has taken, a routine that is used has its parameters, and whatever
else it depends on, used as well; and an alias that is used has its routine used with all of that.
-/
theorem dependencies_used_of_actions {actions : List Action} {u : Unit} {w : Workspace}
    (h : within (actions.forM Action.take) {} = .ok u w) {f : SymbolId} {r : Routine}
    (hr : r ∈ (w.table.symbol f).routine?) (hused : w.table.IsUsed f) :
    match r.aliasOf with
    | none => ∀ m ∈ r.params ++ r.uses, w.table.IsUsed m
    | some target => ∃ callee, w.table.resolve target none (some .routine) = some callee ∧
        w.table.IsUsed callee ∧ ∃ r' ∈ (w.table.symbol callee).routine?, r'.aliasOf = none ∧
        ∀ m ∈ r'.params ++ r'.uses, w.table.IsUsed m := by
  obtain ⟨entry, w₀, s, hsetup, hrun, rfl⟩ := within_eq_ok h
  have hs := steady_actions (s := { toWorkspace := w₀, entry }) (steady_setup hsetup) hrun
  have hdeps {id : SymbolId} {r : Routine} (hr : r ∈ (s.table.symbol id).routine?) :
      s.table.dependencies id = r.params ++ r.uses := by
    simp [Table.dependencies, Option.mem_def.1 hr]
  have halias : s.table.alias? f = r.aliasOf := by simp [Table.alias?, Option.mem_def.1 hr]
  cases hcase : r.aliasOf with
  | none => exact fun m hm => hs.isUsed (halias.trans hcase) hused (hdeps hr ▸ hm)
  | some target =>
    obtain ⟨callee, hcallee, hnone, hcalled⟩ := hs.aliases (halias.trans hcase)
    obtain ⟨r', hr'⟩ := Symbol.exists_routine hcallee.cls
    refine ⟨callee, hcallee.resolve, hcalled hused, r',
      hr', by simpa [Table.alias?, hr'] using hnone, fun m hm => ?_⟩
    exact hs.isUsed hnone (hcalled hused) (hdeps hr' ▸ hm)

def nestedActions : List Action := [
  .call "F" [] 1,
  .beginProcedure "F" 2 ["X", "Y"],
  .beginProcedure "G" 3 ["FORWARD"],
  .call "FO" [.const (.int 1)] 3,
  .endProcedure ⟨27⟩ []]

theorem dependencies_used_of_nestedActions :
    ∃ w, within (nestedActions.forM Action.take) {} = .ok () w ∧
    (∃ f r, r ∈ (w.table.symbol f).routine? ∧ w.table.IsUsed f ∧ r.aliasOf = none ∧
      r.params.length = 2 ∧ ∀ m ∈ r.params ++ r.uses, w.table.IsUsed m) ∧
    ∃ f r, r ∈ (w.table.symbol f).routine? ∧ w.table.IsUsed f ∧
      r.aliasOf = some "FORWARD" ∧
        ∃ callee, w.table.resolve "FORWARD" none (some .routine) = some callee ∧
        w.table.IsUsed callee ∧ ∃ r' ∈ (w.table.symbol callee).routine?, r'.aliasOf = none ∧
        ∀ m ∈ r'.params ++ r'.uses, w.table.IsUsed m := by
  obtain ⟨w, h, ⟨r, hr, hused, hnone, hparams⟩, r', hr', hused', halias⟩ := exists_result
    (within (nestedActions.forM Action.take)) (fun w =>
      (∃ r ∈ (w.table.symbol ⟨27⟩).routine?, w.table.IsUsed ⟨27⟩ ∧
        r.aliasOf = none ∧ r.params.length = 2) ∧
      ∃ r ∈ (w.table.symbol ⟨20⟩).routine?, w.table.IsUsed ⟨20⟩ ∧
      r.aliasOf = some "FORWARD") (by decide +kernel)
  have hdeps := dependencies_used_of_actions h hr hused
  have hcallee := dependencies_used_of_actions h hr' hused'
  rw [hnone] at hdeps
  rw [halias] at hcallee
  exact ⟨w, h, ⟨⟨27⟩, r, hr, hused, hnone, hparams, hdeps⟩, ⟨20⟩, r', hr', hused',
    halias, hcallee⟩

end Lowering

end TurtleCompiler
