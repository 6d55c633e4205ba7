import TurtleCompiler.Proofs.Processor
import TurtleCompiler.Proofs.Steps

/-!
The scopes that variables belong to, and the values that a lowering gives them.
-/

namespace TurtleCompiler

theorem toUpper_qualify {x y : String} (h : x.toUpper = y.toUpper) (a : String) :
    (qualify a x).toUpper = (qualify a y).toUpper := by
  unfold qualify
  split
  · exact h
  · simp only [toUpper_append, h]

theorem scopePath_of_paths {scopes : List Scope} {path : String} {paths : List String}
    (h : (frames scopes).map (·.1) = path :: paths) : scopePath scopes = path := by
  cases scopes with
  | nil => simp [frames] at h
  | cons scope scopes => exact (List.cons.inj h).1

namespace Table

variable {t t' t'' : Table} {id i j : SymbolId} {name name' x : String} {ms : List SymbolId}
  {home : String → String}

def IsGlobal (t : Table) (x : String) (id : SymbolId) : Prop :=
  t.IsVar id ∧ (t.symbol id).scope = "" ∧ (t.symbol id).name.toUpper = x

def IsAt (t : Table) (home : String → String) (x : String) (id : SymbolId) : Prop :=
  t.IsVar id ∧ (t.symbol id).scope = home x ∧ (t.symbol id).name.toUpper = x

theorem Sound.fullName_global (h : t.Sound) (hid : t.IsGlobal x id) :
    (t.symbol id).fullName.toUpper = x := by
  rw [(h.named hid.1.1).1, hid.2.1, qualify, if_pos rfl, hid.2.2]

theorem Sound.isAt_unique (h : t.Sound) (hi : t.IsAt home x i) (hj : t.IsAt home x j) : i = j := by
  refine h.unique hi.1.1 hj.1.1 ?_
  rw [(h.named hi.1.1).1, (h.named hj.1.1).1, hi.2.1, hj.2.1]
  exact toUpper_qualify (hi.2.2.trans hj.2.2.symm) _

structure Homes (t : Table) (home : String → String) : Prop where
  known : ∀ {name id}, t.resolve name none none = some id →
    t.Has id ∧ ((t.symbol id).cls = .var → (t.symbol id).scope = home name.toUpper)
  new : ∀ {name}, t.resolve name none none = none → scopePath t.scopes = home name.toUpper

theorem Sound.homes (h : t.Sound) (hpaths : t.AtTop) : t.Homes fun _ => "" where
  known hid := by
    obtain ⟨hhas, -, hscope⟩ := h.resolve_none hid
    rw [hpaths, List.mem_singleton] at hscope
    exact ⟨hhas, fun _ => hscope⟩
  new _ := scopePath_of_paths hpaths

theorem Homes.edits (h : t.Homes home) (he : t.Edits t') : t'.Homes home where
  known {name id} hid := by
    rw [he.resolve] at hid
    rw [he.has, (he.symbol id).cls, (he.symbol id).scope]
    exact h.known hid
  new hnone := by
    rw [he.resolve] at hnone
    rw [he.scopes]
    exact h.new hnone

theorem edits_merge (t : Table) (id : SymbolId) (line : Option Nat) {f : Fields}
    (hf : f.usage = none) : t.Edits (t.modifySymbol id fun _ => ((t.symbol id).merge line f).2) :=
  edits_modifySymbol (Symbol.grows_merge line hf _)

theorem edits_setValue {v : Value} (h : setValue id v t = .ok ⟨⟩ t') : t.Edits t' := by
  obtain ⟨-, rfl⟩ := setValue_eq_ok h
  exact edits_modifySymbol (Symbol.grows_setValue v _)

section Declare

variable {reach : Reach} {cls : SymbolClass} {line : Option Nat} {f : Fields}

theorem resolve_toUpper (h : name'.toUpper = name.toUpper) :
    t.resolve name' none none = t.resolve name none none := by
  simp only [Table.resolve_none, NameMap.get?, h]

theorem resolve_declare_of_ne (hd : declare reach name cls line f t = .ok id t')
    (hname : name.toUpper ≠ name'.toUpper) :
    t'.resolve name' none none = t.resolve name' none none := by
  rcases declare_eq_ok hd with ⟨-, -, rfl⟩ | ⟨hid, hscopes, rfl, kind, -, rfl⟩
  · rw [Table.resolve_none, Table.resolve_none]
    rfl
  · rw [Table.resolve_none, Table.resolve_none, frames_insertAt]
    exact findSome?_modify_eq (fun _ _ => rfl) fun _ _ => NameMap.get?_insert_of_ne hname _

theorem Homes.declare (h : t.Homes home) (hreach : reach ≠ .innermost)
    (hcls : cls = .var → reach = .anywhere) (hf : f.usage = none)
    (hd : Table.declare reach name cls line f t = .ok id t') : t'.Homes home := by
  rcases declare_eq_ok hd with ⟨-, -, rfl⟩ | ⟨hnone, -, rfl, kind, hkind, ht'⟩
  · exact h.edits (edits_merge t id line hf)
  · rw [declared_eq_resolve hreach] at hnone
    have hnew := resolve_none_declare hreach hd
    refine ⟨fun {name' i} hi => ?_, fun {name'} hi => ?_⟩
    · by_cases hname : name.toUpper = name'.toUpper
      · rw [← resolve_toUpper hname, hnew, Option.some.injEq] at hi
        subst hi ht'
        refine ⟨has_insertAt.2 (.inr rfl), fun hvar => ?_⟩
        rw [symbol_insertAt, if_pos rfl] at hvar ⊢
        rw [cls_ofFields hkind] at hvar
        rw [hcls hvar, ← hname]
        exact h.new hnone
      · rw [resolve_declare_of_ne hd hname] at hi
        obtain ⟨hhas, hscope⟩ := h.known hi
        rw [ht', symbol_insertAt_of_has hhas]
        exact ⟨has_insertAt.2 (.inl hhas), hscope⟩
    · have hname : name.toUpper ≠ name'.toUpper := by
        intro hname
        rw [← resolve_toUpper hname, hnew] at hi
        simp at hi
      rw [resolve_declare_of_ne hd hname] at hi
      rw [ht']
      exact (scopePath_modify t.scopes _ (·.insert name ⟨t.symbols.size⟩)).trans (h.new hi)

theorem Homes.isAt_declare (h : t.Homes home) (ht : t.Sound) (hname : Dotless name)
    (hf : f.usage = none) (hd : Table.declare .anywhere name .var line f t = .ok id t') :
    t'.IsAt home name.toUpper id := by
  have hresolve := resolve_none_declare (by simp) hd
  have hvar := ht.isVar_declare hd
  have hsound := (Table.extends_declare hname hf (.inl rfl) hd).sound ht
  exact ⟨hvar, ((h.declare (by simp) (fun _ => rfl) hf hd).known hresolve).2 hvar.2,
    (hsound.resolve_none hresolve).2.1⟩

end Declare

theorem Homes.steps {names : List String} {setting : Prop} (h : t.Homes home)
    (hs : Steps names setting t t') : t'.Homes home := by
  induction hs with
  | refl => exact h
  | tail _ hstep ih =>
    cases hstep with
    | var _ hf _ hd => exact ih.declare (by simp) (fun _ => rfl) hf hd
    | routine hd => exact ih.declare (by simp) (by simp) rfl hd
    | use hc => exact ih.edits (Counts.countUsage hc).toEdits
    | value _ _ hset => exact ih.edits (edits_setValue hset)

theorem Homes.use (h : t.Homes home) (ht : t.Live) (hname : Dotless name) {line : Option Nat}
    (hd : Table.declare .anywhere name .var line {} t = .ok id t')
    (hc : countUsage name (some .var) t' = .ok j t'') :
    t''.IsAt home name.toUpper id ∧ t''.IsUsed id := by
  obtain ⟨-, hvar, hused⟩ := ht.use_declared hname rfl hd hc
  have hid := h.isAt_declare ht.sound hname rfl hd
  have hgrows := (Counts.countUsage hc).symbol id
  exact ⟨⟨hvar, hgrows.scope.trans hid.2.1, by rw [hgrows.name, hid.2.2]⟩, hused⟩

structure Leads (t t' : Table) : Prop where
  has : ∀ {id}, t.Has id → t'.Has id
  grows : ∀ {id}, t.Has id → (t.symbol id).Grows (t'.symbol id)
  routine : ∀ {id}, t.Has id → (t'.symbol id).routine?.map (fun r => (r.flags, r.hooks)) =
    (t.symbol id).routine?.map fun r => (r.flags, r.hooks)
  value : ∀ {id v}, t.value? id = some v → t'.value? id = some v

namespace Leads

theorem refl (t : Table) : t.Leads t := ⟨fun h => h, fun _ => .refl _, fun _ => rfl, fun h => h⟩

theorem trans (h : t.Leads t') (h' : t'.Leads t'') : t.Leads t'' where
  has hid := h'.has (h.has hid)
  grows hid := (h.grows hid).trans (h'.grows (h.has hid))
  routine hid := (h'.routine (h.has hid)).trans (h.routine hid)
  value hv := h'.value (h.value hv)

theorem of_extends (h : t.Extends ms t')
    (hv : ∀ {id v}, t.value? id = some v → t'.value? id = some v) : t.Leads t' :=
  ⟨h.has, h.grows, fun hid => by rw [h.routine hid], hv⟩

theorem isUsed (h : t.Leads t') (hid : t.IsUsed id) : t'.IsUsed id :=
  Nat.lt_of_lt_of_le hid (h.grows hid.has).usage

theorem isAt_iff (h : t.Leads t') (hid : t.Has id) : t'.IsAt home x id ↔ t.IsAt home x id := by
  have hgrows := h.grows hid
  simp only [IsAt, IsVar, hid, h.has hid, hgrows.cls, hgrows.scope, hgrows.name]

theorem isAt (h : t.Leads t') (hid : t.IsAt home x id) :
    t'.IsAt home x id := (h.isAt_iff hid.1.1).2 hid

theorem isPrint (h : t.Leads t') (hid : t.Has id) : t'.isPrint id = t.isPrint id := by
  have hmap (t : Table) : t.isPrint id =
      ((t.symbol id).routine?.map fun r => (r.flags, r.hooks)).any fun r =>
      r.1.reverseArgs && r.2 = { target := some "WRITE" } := by
    simp [Table.isPrint, Option.any_map]
  rw [hmap, hmap, h.routine hid]

theorem isRandom (h : t.Leads t') (hid : t.Has id) : t'.isRandom id = t.isRandom id := by
  have hmap (t : Table) : t.isRandom id = ((t.symbol id).name = "RANDOM" &&
      ((t.symbol id).routine?.map fun r => (r.flags, r.hooks)).any fun r => r.2 = {}) := by
    simp [Table.isRandom, Option.any_map]
  rw [hmap, hmap, h.routine hid, (h.grows hid).name]

end Leads

theorem Denotes.has (h : t.Denotes name id) : t.Has id := by
  obtain ⟨i, hi, ⟨-, rfl⟩ | ⟨target, -, hid⟩⟩ := h
  · exact hi.1
  · exact hid.1

end Table

namespace Lowering

variable {s s' : Lowering} {home : String → String} {seen : List String} {as : List Access}

structure Scoped (s : Lowering) (home : String → String) (seen : List String) : Prop where
  live : s.table.Live
  homes : s.table.Homes home
  params : ∀ id ∈ s.openRoutine, ∃ r ∈ (s.table.symbol id).routine?, r.params = []
  print : ∃ id, s.table.Denotes "PRINT" id ∧ s.table.isPrint id
  random : ∃ id, s.table.Denotes "RANDOM" id ∧ s.table.isRandom id
  assigned : ∀ x, x ∈ seen ↔ ∃ id, s.table.IsAt home x id ∧ (s.table.value? id).isSome

namespace Scoped

theorem isParameter (h : s.Scoped home seen) (id : SymbolId) : s.isParameter id = false := by
  unfold Lowering.isParameter
  cases hopen : s.openRoutine with
  | none => rfl
  | some i =>
    obtain ⟨r, hr, hparams⟩ := h.params i hopen
    simp [Option.mem_def.1 hr, hparams]

theorem adds {seen' : List String} (h : s.Scoped home seen) (ha : s.Adds as s')
    (hhomes : s'.table.Homes home)
    (hv : ∀ {id v}, s.table.value? id = some v → s'.table.value? id = some v)
    (hseen : ∀ x, x ∈ seen' ↔ ∃ id, s'.table.IsAt home x id ∧
      (s'.table.value? id).isSome) : s'.Scoped home seen' := by
  have hleads : s.table.Leads s'.table := .of_extends ha.table hv
  refine ⟨ha.live h.live, hhomes, ?_, ?_, ?_, hseen⟩
  · rw [ha.openRoutine]
    intro id hid
    obtain ⟨r, hr, hparams⟩ := h.params id hid
    refine ⟨r, ?_, hparams⟩
    by_cases hhas : s.table.Has id
    · rwa [ha.table.routine hhas]
    · simp [Table.symbol_of_not_has hhas, blankSymbol, Symbol.routine?] at hr
  · obtain ⟨id, hid, hprint⟩ := h.print
    exact ⟨id, ha.table.denotes hid, by rwa [hleads.isPrint hid.has]⟩
  · obtain ⟨id, hid, hrandom⟩ := h.random
    exact ⟨id, ha.table.denotes hid, by rwa [hleads.isRandom hid.has]⟩

theorem steps {names : List String} (h : s.Scoped home seen) (ha : s.Adds as s')
    (hs : Table.Steps names False s.table s'.table) :
    s'.Scoped home seen ∧ s.table.Leads s'.table := by
  have hleads : s.table.Leads s'.table := .of_extends ha.table hs.value?_of_some
  refine ⟨h.adds ha (h.homes.steps hs) hleads.value fun x => ?_, hleads⟩
  rw [h.assigned x, hs.value?]
  refine exists_congr fun id => and_congr_left fun hsome => (hleads.isAt_iff ?_).symm
  by_contra hid
  simp [Table.value?_of_not_has hid] at hsome

theorem of_table (h : s.Scoped home seen) (ha : s.Adds as s') (ht : s'.table = s.table) :
    s'.Scoped home seen :=
  have hs : Table.Steps [] False s.table s'.table := ht ▸ Relation.ReflTransGen.refl
  (h.steps ha hs).1

variable {x : String} {id : SymbolId}

theorem mem_iff (h : s.Scoped home seen) (hid : s.table.IsAt home x id) :
    x ∈ seen ↔ (s.table.value? id).isSome := by
  rw [h.assigned x]
  constructor
  · rintro ⟨j, hj, hsome⟩
    rwa [h.live.sound.isAt_unique hid hj]
  · exact fun hsome => ⟨id, hid, hsome⟩

theorem again (h : s.Scoped home seen) (hx : x ∈ seen) : s.Scoped home (seen ++ [x]) :=
  { h with
    assigned := fun y => by
      rw [← h.assigned y, List.mem_append, List.mem_singleton, or_iff_left_iff_imp]
      rintro rfl
      exact hx }

theorem setValue {v : Value} {t : Table} (h : s.Scoped home seen) (hid : s.table.IsAt home x id)
    (hnone : s.table.value? id = none) (hset : Table.setValue id v s.table = .ok ⟨⟩ t) :
    (s.setTable t).Scoped home (seen ++ [x]) ∧ s.table.Leads t ∧ t.value? id = some v := by
  have hadds : s.Adds [] (s.setTable t) := .setTable (extends_setValue hset) (by simp)
  have hv := Table.value?_setValue hid.1 hset
  have hstep : Table.Step [] True s.table t := .value trivial hnone hset
  have hleads : s.table.Leads t := .of_extends hadds.table hstep.value?_of_some
  have hhomes := h.homes.edits (Table.edits_setValue hset)
  refine ⟨h.adds hadds hhomes hleads.value fun y => ?_, hleads, by rw [hv, if_pos rfl]⟩
  rw [List.mem_append, List.mem_singleton, h.assigned y, table_setTable]
  constructor
  · rintro (⟨j, hj, hsome⟩ | rfl)
    · obtain ⟨w, hw⟩ := Option.isSome_iff_exists.1 hsome
      exact ⟨j, hleads.isAt hj, by simp [hleads.value hw]⟩
    · exact ⟨id, hleads.isAt hid, by simp [hv]⟩
  · rintro ⟨j, hj, hsome⟩
    by_cases hji : j = id
    · subst hji
      exact .inr (hj.2.2.symm.trans (hleads.isAt hid).2.2)
    · rw [hv, if_neg hji] at hsome
      refine .inl ⟨j, (hleads.isAt_iff ?_).1 hj, hsome⟩
      by_contra hhas
      simp [Table.value?_of_not_has hhas] at hsome

end Scoped

end Lowering

end TurtleCompiler
