import TurtleCompiler.Proofs.Actions
import TurtleCompiler.Proofs.Liveness
import TurtleCompiler.Proofs.Shape

/-!
Twin tables. They differ in how often symbols are used, in the case of the letters of the names of
routines, and in what their code is; none of this decides whether an operation succeeds.
-/

namespace TurtleCompiler

inductive Symbol.Twin : Symbol → Symbol → Prop
  | var {name scope fullName : String} {line : Option Nat} {u u' : Nat} {v : Variable} :
      Twin ⟨name, line, u, scope, fullName, .var v⟩
      ⟨name, line, u', scope, fullName, .var v⟩
  | routine {name name' scope fullName fullName' : String} {line : Option Nat} {u u' : Nat}
      {r r' : Routine} : name.toUpper = name'.toUpper → fullName.toUpper = fullName'.toUpper →
      r.outline = r'.outline →
      Twin ⟨name, line, u, scope, fullName, .routine r⟩
      ⟨name', line, u', scope, fullName', .routine r'⟩

namespace Symbol.Twin

variable {s s' : Symbol}

theorem refl (s : Symbol) : s.Twin s := by
  obtain ⟨name, line, usage, scope, fullName, v | r⟩ := s
  · exact .var
  · exact .routine rfl rfl rfl

section

variable (h : s.Twin s')

include h

theorem symm : s'.Twin s := by
  cases h with
  | var => exact .var
  | routine hname hfull hr => exact .routine hname.symm hfull.symm hr.symm

theorem trans {s'' : Symbol} (h' : s'.Twin s'') : s.Twin s'' := by
  cases h with
  | var =>
    cases h'
    exact .var
  | routine hname hfull hr =>
    obtain _ | ⟨hname', hfull', hr'⟩ := h'
    exact .routine (hname.trans hname') (hfull.trans hfull') (hr.trans hr')

theorem line : s.line = s'.line := by cases h <;> rfl

theorem var? : s.var? = s'.var? := by cases h <;> rfl

theorem routine? : s.routine?.map Routine.outline = s'.routine?.map Routine.outline := by
  cases h with
  | var => rfl
  | routine _ _ hr => exact congrArg some hr

theorem type? : s.type? = s'.type? := by
  cases h with
  | var => rfl
  | routine _ _ hr => exact (Routine.outline_eq_iff.1 hr).2.2.2.2.1

theorem toUpper_name : s.name.toUpper = s'.name.toUpper := by
  cases h with
  | var => rfl
  | routine hname => exact hname

theorem toUpper_fullName : s.fullName.toUpper = s'.fullName.toUpper := by
  cases h with
  | var => rfl
  | routine _ hfull => exact hfull

theorem fullName (hvar : s.cls = .var) : s.fullName = s'.fullName := by
  cases h with
  | var => rfl
  | routine => simp [Symbol.cls] at hvar

theorem use : s.use.Twin s'.use := by
  cases h with
  | var => exact .var
  | routine hname hfull hr => exact .routine hname hfull hr

theorem setValue (v : Value) : (s.setValue v).Twin (s'.setValue v) := by
  cases h with
  | var => exact .var
  | routine hname hfull hr => exact .routine hname hfull hr

theorem modifyRoutine {f f' : Routine → Routine}
    (hf : ∀ {r r'}, r.outline = r'.outline → (f r).outline = (f' r').outline) :
    (s.modifyRoutine f).Twin (s'.modifyRoutine f') := by
  cases h with
  | var => exact .var
  | routine hname hfull hr => exact .routine hname hfull (hf hr)

theorem setCode {d d' : Definition} (hd : d.symbol = d'.symbol) :
    (s.setCode d).Twin (s'.setCode d') :=
  h.modifyRoutine fun hr => by simp_all [Routine.outline_eq_iff]

theorem markGenerated : s.markGenerated.Twin s'.markGenerated :=
  h.modifyRoutine fun hr => by simp_all [Routine.outline_eq_iff]

theorem merge (line : Option Nat) (f : Fields) :
    ((s.merge line f).1 = .ok () ↔ (s'.merge line f).1 = .ok ()) ∧
    (s.merge line f).2.Twin (s'.merge line f).2 := by
  cases h with
  | var =>
    simp only [Symbol.merge, updateVariable]
    split
    · exact ⟨by simp, .var⟩
    · exact ⟨Iff.rfl, .var⟩
  | @routine _ _ _ _ _ _ _ _ r r' hname hfull hr =>
    simp only [Symbol.merge]
    split
    · exact ⟨by simp, .routine hname hfull hr⟩
    · exact ⟨Iff.rfl,
        .routine hname hfull (by simp_all [Routine.outline_eq_iff, Routine.apply])⟩

end

end Symbol.Twin

namespace Table

structure Twin (ρ : SymbolId → Nat → Nat → Prop) (t t' : Table) : Prop where
  size : t.symbols.size = t'.symbols.size
  scopes : t.scopes = t'.scopes
  byClass : t.byClass = t'.byClass
  symbol : ∀ id, (t.symbol id).Twin (t'.symbol id)
  usage : ∀ id, ρ id (t.symbol id).usage (t'.symbol id).usage

structure KeepsPace (ρ : SymbolId → Nat → Nat → Prop) : Prop where
  succ : ∀ {id u u'}, ρ id u u' → ρ id (u + 1) (u' + 1)

variable {ρ : SymbolId → Nat → Nat → Prop} {t t' : Table} {name : String} {id : SymbolId}

namespace Twin

theorem sameShape (h : t.Twin ρ t') : t.SameShape t' where
  size := h.size
  names := by rw [h.scopes]
  byClass := h.byClass
  routine id := (h.symbol id).routine?

theorem mono {ρ' : SymbolId → Nat → Nat → Prop} (h : t.Twin ρ t')
    (hρ : ∀ {id u u'}, ρ id u u' → ρ' id u u') :
    t.Twin ρ' t' := { h with usage := fun id => hρ (h.usage id) }

theorem refl (t : Table) : t.Twin (fun _ => Eq) t :=
  ⟨rfl, rfl, rfl, fun _ => .refl _, fun _ => rfl⟩

section

variable (h : t.Twin ρ t')

include h

theorem symm : t'.Twin (fun id u u' => ρ id u' u) t :=
  ⟨h.size.symm, h.scopes.symm, h.byClass.symm, fun id => (h.symbol id).symm, h.usage⟩

theorem trans {ρ' ρ'' : SymbolId → Nat → Nat → Prop} {t'' : Table} (h' : t'.Twin ρ' t'')
    (hρ : ∀ {id u u' u''}, ρ id u u' → ρ' id u' u'' → ρ'' id u u'') : t.Twin ρ'' t'' :=
  ⟨h.size.trans h'.size, h.scopes.trans h'.scopes, h.byClass.trans h'.byClass,
    fun id => (h.symbol id).trans (h'.symbol id), fun id => hρ (h.usage id) (h'.usage id)⟩

theorem has : t.Has id ↔ t'.Has id := by rw [Has, Has, h.size]

theorem modifySymbol {f f' : Symbol → Symbol} (hf : (f (t.symbol id)).Twin (f' (t'.symbol id)))
    (husage : ρ id (f (t.symbol id)).usage (f' (t'.symbol id)).usage) :
    (t.modifySymbol id f).Twin ρ (t'.modifySymbol id f') := by
  by_cases hid : t.Has id
  · have hid' := h.has.1 hid
    refine ⟨by simp [Table.modifySymbol, h.size], h.scopes, h.byClass, fun j => ?_,
      fun j => ?_⟩ <;> rw [symbol_modifySymbol hid, symbol_modifySymbol hid'] <;> split
    · subst_vars
      exact hf
    · exact h.symbol j
    · subst_vars
      exact husage
    · exact h.usage j
  · rw [modifySymbol_of_not_has hid, modifySymbol_of_not_has (mt h.has.2 hid)]
    exact h

theorem insertAt {name' : String} {k : Nat} {path : String} {line : Option Nat} {kind : Kind}
    (hname : name.toUpper = name'.toUpper)
    (hnew : Symbol.Twin ⟨name, line, 0, path, qualify path name, kind⟩
      ⟨name', line, 0, path, qualify path name', kind⟩) :
    (t.insertAt k path name line 0 kind).Twin ρ (t'.insertAt k path name' line 0 kind) := by
  have hinsert (m : NameMap) (id : SymbolId) : m.insert name id = m.insert name' id := by
    rw [NameMap.insert, NameMap.insert, hname]
  refine ⟨by simp [Table.insertAt, h.size], ?_, h.byClass, fun j => ?_, fun j => ?_⟩
  · simp [Table.insertAt, h.size, h.scopes, hinsert]
  · rw [symbol_insertAt, symbol_insertAt, h.size]
    split
    · exact hnew
    · exact h.symbol j
  · rw [symbol_insertAt, symbol_insertAt, h.size]
    split
    · rename_i hj
      have hblank := h.usage j
      rwa [symbol_of_not_has (by simp [Has, h.size, hj]),
        symbol_of_not_has (by simp [Has, hj])] at hblank
    · exact h.usage j

theorem use (hρ : KeepsPace ρ) (i : SymbolId) :
    (t.modifySymbol i Symbol.use).Twin ρ (t'.modifySymbol i Symbol.use) :=
  h.modifySymbol (h.symbol i).use (hρ.succ (h.usage i))

theorem markGenerated (id target : SymbolId) :
    (t.markGenerated id target).Twin ρ (t'.markGenerated id target) := by
  have hmark {t t' : Table} (h : t.Twin ρ t') (i : SymbolId) :
      (t.modifySymbol i Symbol.markGenerated).Twin ρ (t'.modifySymbol i Symbol.markGenerated) := by
    refine h.modifySymbol (h.symbol i).markGenerated ?_
    have husage := h.usage i
    rwa [← Symbol.usage_modifyRoutine, ← Symbol.usage_modifyRoutine _ (t'.symbol i)] at husage
  simp only [Table.markGenerated, h.sameShape.alias?]
  split
  · exact hmark (hmark h target) id
  · exact hmark h target

end

end Twin

def Surplus (ids : List SymbolId) (id : SymbolId) (u u' : Nat) : Prop := u = u' + ids.count id

theorem keepsPace_surplus (ids : List SymbolId) : KeepsPace (Surplus ids) where
  succ h := by
    rw [Surplus] at h ⊢
    omega

theorem twin_useAll {ids : List SymbolId} (hids : ∀ id ∈ ids, t.Has id) :
    (t.useAll ids).Twin (Surplus ids) t := by
  have he := edits_useAll hids
  refine ⟨?_, he.scopes, he.byClass, fun id => ?_,
    fun id => by rw [symbol_useAll hids, Surplus]⟩
  · exact he.size
  · rw [symbol_useAll hids]
    obtain ⟨name, line, usage, scope, fullName, v | r⟩ := t.symbol id
    · exact .var
    · exact .routine rfl rfl rfl

abbrev twins (ρ : SymbolId → Nat → Nat → Prop) : Pairing Table := { state := Twin ρ }

section Operations

variable {cls : SymbolClass} {line : Option Nat} {f : Fields}

theorem parallel_updateExisting (hf : f.usage = none) (i : SymbolId) (name : String) :
    Parallel (twins ρ) Eq (updateExisting i name cls line f)
    (updateExisting i name cls line f) := by
  refine Parallel.of_get.bind fun {t t'} h => ?_
  obtain ⟨hresult, hmerge⟩ := (h.symbol i).merge line f
  have husage := h.usage i
  rw [← Symbol.usage_merge line hf (t.symbol i),
    ← Symbol.usage_merge line hf (t'.symbol i)] at husage
  dsimp only
  rw [h.sameShape.cls]
  refine .ite (fun _ => .throw_bind trivial _ _) fun _ => ?_
  refine Parallel.bind_eq (.of_modify fun {t t'} (h : t.Twin ρ t') => h.modifySymbol hmerge husage)
    fun _ => ?_
  cases hm : ((t.symbol i).merge line f).1 <;>
    cases hm' : ((t'.symbol i).merge line f).1 <;> simp_all
  · exact .of_throw trivial
  · exact .of_pure rfl

theorem parallel_insertNew (hf : f.usage = none) (reach : Reach) (name : String) :
    Parallel (twins ρ) Eq (insertNew reach name cls line f) (insertNew reach name cls line f) := by
  refine Parallel.of_get.bind fun {t t'} h => ?_
  have hframe : t.frame reach = t'.frame reach := by cases reach <;> simp only [frame, h.scopes]
  dsimp only
  rw [hframe, h.scopes, h.size, hf]
  split
  · exact .of_throw trivial
  · rename_i kind _
    have hset :
        (t.insertAt (t'.frame reach) (scopePath (t'.scopes.drop (t'.frame reach))) name line
          0 kind).Twin ρ
        (t'.insertAt (t'.frame reach) (scopePath (t'.scopes.drop (t'.frame reach))) name
          line 0 kind) :=
      h.insertAt rfl (.refl _)
    rw [Table.insertAt, Table.insertAt, h.scopes, h.size] at hset
    exact (Parallel.of_set hset).bind_eq fun _ => .of_pure rfl

theorem parallel_declare (hf : f.usage = none) (reach : Reach) (name : String) :
    Parallel (twins ρ) Eq (declare reach name cls line f) (declare reach name cls line f) := by
  refine Parallel.of_get.bind fun {t t'} h => ?_
  dsimp only
  rw [h.scopes, h.sameShape.declared rfl]
  refine .ite (fun _ => .throw_bind trivial _ _) fun _ => ?_
  cases t'.declared reach name with
  | some j => exact parallel_updateExisting hf j name
  | none => exact parallel_insertNew hf reach name

theorem parallel_setValue (i : SymbolId) (v : Value) :
    Parallel (twins ρ) Eq (setValue i v) (setValue i v) := by
  refine Parallel.of_get.bind fun {t t'} h => ?_
  dsimp only
  rw [h.sameShape.cls]
  refine .ite (fun _ => .throw_bind trivial _ _) fun _ => .of_modify fun {t t'} h => ?_
  refine h.modifySymbol ((h.symbol i).setValue v) ?_
  have husage := h.usage i
  rwa [← Symbol.usage_setValue v, ← Symbol.usage_setValue v (t'.symbol i)] at husage

theorem parallel_setCode {d d' : Definition} (hd : d.symbol = d'.symbol) (i : SymbolId) :
    Parallel (twins ρ) Eq (setCode i d) (setCode i d') := by
  refine Parallel.of_get.bind fun {t t'} h => ?_
  dsimp only
  rw [h.sameShape.cls]
  refine .ite (fun _ => .throw_bind trivial _ _) fun _ => .of_modify fun {t t'} h => ?_
  refine h.modifySymbol ((h.symbol i).setCode hd) ?_
  have husage := h.usage i
  rwa [← Symbol.usage_modifyRoutine, ← Symbol.usage_modifyRoutine _ (t'.symbol i)] at husage

theorem Twin.push (h : t.Twin ρ t') (name : String) : (t.push name).Twin ρ (t'.push name) :=
  ⟨h.size, by rw [Table.push, Table.push, h.scopes], h.byClass, h.symbol, h.usage⟩

theorem Twin.close (h : t.Twin ρ t') (i : SymbolId) : (t.close i).Twin ρ (t'.close i) := by
  have hinsert (m : NameMap) : m.insert (t.symbol i).fullName i =
      m.insert (t'.symbol i).fullName i := by
    rw [NameMap.insert, NameMap.insert, (h.symbol i).toUpper_fullName]
  have hvars : t.vars = t'.vars := congrFun h.byClass .var
  have hroutines : t.routines = t'.routines := congrFun h.byClass .routine
  unfold Table.close
  rw [h.sameShape.cls]
  split
  all_goals
    refine ⟨h.size, h.scopes, funext fun cls => ?_, h.symbol, h.usage⟩
    cases cls <;> simp [Table.byClass, hinsert, hvars, hroutines]

theorem Twin.foldl_close (h : t.Twin ρ t') (ids : List SymbolId) :
    (ids.foldl Table.close t).Twin ρ (ids.foldl Table.close t') := by
  induction ids generalizing t t' with
  | nil => exact h
  | cons i ids ih => exact ih (h.close i)

theorem parallel_pop : Parallel (twins ρ) Eq pop pop := by
  refine Parallel.of_get.bind fun {t t'} h => ?_
  rw [h.scopes]
  cases t'.scopes with
  | nil => exact .of_throw trivial
  | cons scope scopes =>
    refine (Parallel.of_modify fun {t t'} h => ?_).bind_eq fun _ => .of_pure rfl
    have hrest : ({ t with scopes } : Table).Twin ρ { t' with scopes } :=
      ⟨h.size, rfl, h.byClass, h.symbol, h.usage⟩
    exact hrest.foldl_close _

end Operations

end Table

end TurtleCompiler
