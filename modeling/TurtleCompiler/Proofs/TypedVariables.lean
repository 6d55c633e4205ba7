import TurtleCompiler.Proofs.Operations

/-!
A variable has no type before it has a value, in every state of a lowering, also after actions that
failed.
-/

namespace TurtleCompiler

abbrev Leaves (p : σ → Prop) (x : EStateM ε σ α) (s : σ) : Prop := Advances (fun _ => p) x s

namespace Leaves

variable {ε σ α β : Type} {p : σ → Prop} {x : EStateM ε σ α} {s s' : σ}
  {f : α → EStateM ε σ β}

theorem of_error (h : Leaves p x s) {e : ε} (hx : x s = .error e s') : p s' := by
  unfold Leaves Advances stateAfter at h
  rwa [hx] at h

theorem bind (herror : ∀ e s', x s = .error e s' → p s')
    (hok : ∀ a s', x s = .ok a s' → Leaves p (f a) s') : Leaves p (x >>= f) s := by
  unfold Leaves Advances stateAfter at *
  simp only [Bind.bind, EStateM.bind]
  cases h : x s with
  | ok a s' => exact hok a s' h
  | error e s' => exact herror e s' h

theorem andThen (hx : Leaves p x s) (hf : ∀ a s', x s = .ok a s' → p s' → Leaves p (f a) s') :
    Leaves p (x >>= f) s :=
  .bind (fun _ _ he => hx.of_error he) fun a s' h => hf a s' h (Advances.of_ok hx h)

end Leaves

namespace Symbol

variable {s s' : Symbol} {p q : SymbolId → Prop} {f : Fields}

structure TypedByValue (p : SymbolId → Prop) (s : Symbol) : Prop where
  type : ∀ v ∈ s.var?, v.value = none → v.type = none
  params : ∀ r ∈ s.routine?, ∀ id ∈ r.params, p id

theorem value?_setValue (h : s.cls = .var) (v : Value) : (s.setValue v).value? = some v := by
  obtain ⟨name, line, usage, scope, fullName, x | r⟩ := s
  · rfl
  · simp [cls] at h

namespace TypedByValue

theorem mono (h : s.TypedByValue p) (hpq : ∀ id, p id → q id) : s.TypedByValue q :=
  ⟨h.type, fun r hr id hid => hpq id (h.params r hr id hid)⟩

theorem of_kind (h : s.TypedByValue p) (hkind : s'.kind = s.kind) : s'.TypedByValue p := by
  obtain ⟨htype, hparams⟩ := h
  constructor
  · simpa only [var?, hkind] using htype
  · simpa only [routine?, hkind] using hparams

theorem of_value? (h : s.value? ≠ none) : s.TypedByValue p := by
  obtain ⟨name, line, usage, scope, fullName, v | r⟩ := s
  · refine ⟨fun v' hv' hnone => ?_, by simp [routine?]⟩
    obtain rfl : v = v' := Option.some.inj hv'
    exact absurd hnone h
  · simp [value?, var?] at h

theorem type?_eq_none (h : s.TypedByValue p) (hcls : s.cls = .var) (hvalue : s.value? = none) :
    s.type? = none := by
  obtain ⟨name, line, usage, scope, fullName, v | r⟩ := s
  · exact h.type v rfl hvalue
  · simp [cls] at hcls

theorem setCode (h : s.TypedByValue p) (d : Definition) : (s.setCode d).TypedByValue p := by
  obtain ⟨name, line, usage, scope, fullName, v | r⟩ := s
  · exact h
  · refine ⟨by simp [Symbol.setCode, modifyRoutine, var?], fun r' hr' => ?_⟩
    obtain rfl := Option.some.inj hr'
    exact h.params r rfl

theorem merge (h : s.TypedByValue p) (line : Option Nat) (hvalue : f.value = none)
    (htype : f.type = none) (hparams : ∀ ids ∈ f.params, ∀ id ∈ ids, p id) :
    (s.merge line f).2.TypedByValue p := by
  obtain ⟨name, line', usage, scope, fullName, v | r⟩ := s
  · simp only [Symbol.merge]
    split
    · exact h.of_kind rfl
    · refine ⟨fun v' hv' hnone => ?_, by simp [routine?]⟩
      obtain rfl := Option.some.inj hv'
      simp only [updateVariable, hvalue, htype, Option.orElse_eq_orElse, Option.orElse_eq_or,
        Option.none_or, ite_self] at hnone ⊢
      exact h.type v rfl hnone
  · simp only [Symbol.merge]
    split
    · exact h.of_kind rfl
    · refine ⟨by simp [var?], fun r' hr' id hid => ?_⟩
      obtain rfl := Option.some.inj hr'
      cases hf : f.params with
      | none => exact h.params r rfl id (by simpa [Routine.apply, hf] using hid)
      | some ids => exact hparams ids hf id (by simpa [Routine.apply, hf] using hid)

theorem ofFields {name path fullName : String} {line : Option Nat} {usage : Nat}
    {cls : SymbolClass} {kind : Kind} (hkind : Kind.ofFields name f cls = .ok kind)
    (htype : f.type = none) (hparams : ∀ ids ∈ f.params, ∀ id ∈ ids, p id) :
    TypedByValue p ⟨name, line, usage, path, fullName, kind⟩ := by
  obtain ⟨-, rfl⟩ | ⟨-, rfl⟩ := Table.ofFields_eq_ok hkind
  · refine ⟨fun v hv _ => ?_, by simp [routine?]⟩
    obtain rfl := Option.some.inj hv
    exact htype
  · refine ⟨by simp [var?], fun r hr id hid => ?_⟩
    obtain rfl := Option.some.inj hr
    cases hf : f.params with
    | none => simp [Routine.apply, hf] at hid
    | some ids => exact hparams ids hf id (by simpa [Routine.apply, hf] using hid)

end TypedByValue

end Symbol

namespace Table

variable {t t' : Table} {id : SymbolId} {name : String} {reach : Reach} {cls : SymbolClass}
  {line : Option Nat} {f : Fields}

structure TidyBut (apart : Option SymbolId) (t : Table) : Prop where
  settled : ∀ id, some id ≠ apart → (t.symbol id).TypedByValue t.Has
  entry : ∀ scope ∈ t.scopes, ∀ e ∈ scope.names.entries, t.Has e.2
  closed : ∀ e ∈ t.vars.entries, t.IsVar e.2

abbrev Tidy : Table → Prop := TidyBut none

theorem has_modifySymbol {f : Symbol → Symbol} : (t.modifySymbol id f).Has = t.Has := by
  funext j
  simp [Has, modifySymbol]

namespace TidyBut

theorem settle (h : t.TidyBut (some id)) (hid : (t.symbol id).TypedByValue t.Has) : t.Tidy where
  settled j _ := by
    by_cases hj : j = id
    · exact hj ▸ hid
    · exact h.settled j (by simpa using hj)
  entry := h.entry
  closed := h.closed

theorem modifySymbol (h : t.TidyBut (some id)) {f : Symbol → Symbol}
    (hf : (f (t.symbol id)).cls = (t.symbol id).cls) : (t.modifySymbol id f).TidyBut (some id) := by
  by_cases hid : t.Has id
  · refine ⟨fun j hj => ?_, by rw [has_modifySymbol]; exact h.entry, fun e he => ?_⟩
    · rw [has_modifySymbol, symbol_modifySymbol hid, if_neg (by simpa using hj)]
      exact h.settled j hj
    · rw [IsVar, has_modifySymbol, symbol_modifySymbol_congr Symbol.cls hf]
      exact h.closed e he
  · rwa [modifySymbol_of_not_has hid]

theorem setValue (h : t.TidyBut (some id)) (hvar : t.IsVar id) (v : Value) :
    Leaves Tidy (setValue id v) t := by
  refine Leaves.bind (fun _ _ he => absurd he get_ne_error) fun t₁ _ ht => ?_
  obtain ⟨rfl, rfl⟩ := get_eq_ok.1 ht
  dsimp only
  rw [if_neg (not_not.2 hvar.2)]
  refine (h.modifySymbol (Symbol.grows_setValue v _).cls).settle (.of_value? ?_)
  rw [symbol_modifySymbol hvar.1, if_pos rfl, Symbol.value?_setValue hvar.2]
  exact Option.some_ne_none v

end TidyBut

namespace Tidy

variable (h : t.Tidy)

include h

theorem symbol (id : SymbolId) :
    (t.symbol id).TypedByValue t.Has := h.settled id (Option.some_ne_none id)

theorem but (id : SymbolId) : t.TidyBut (some id) := ⟨fun j _ => h.symbol j, h.entry, h.closed⟩

theorem modifySymbol {f : Symbol → Symbol} (hcls : (f (t.symbol id)).cls = (t.symbol id).cls)
    (hf : (t.symbol id).TypedByValue t.Has → (f (t.symbol id)).TypedByValue t.Has) :
    (t.modifySymbol id f).Tidy := by
  refine ((h.but id).modifySymbol hcls).settle ?_
  rw [has_modifySymbol]
  exact symbol_modifySymbol_of (r := fun s s' => s.TypedByValue t.Has → s'.TypedByValue t.Has)
    (fun _ hs => hs) hf id (h.symbol id)

theorem insertAt {k : Nat} {path : String} {usage : Nat} {kind : Kind} :
    (t.insertAt k path name line usage kind).TidyBut (some ⟨t.symbols.size⟩) := by
  have hhas (j : SymbolId) (hj : t.Has j) :
      (t.insertAt k path name line usage kind).Has j := has_insertAt.2 (.inl hj)
  refine ⟨fun j hj => ?_, fun scope hscope e he => ?_,
    fun e he => ⟨hhas _ (h.closed e he).1, ?_⟩⟩
  · rw [symbol_insertAt, if_neg fun he => hj (congrArg some (by cases j; simpa using he))]
    exact (h.symbol j).mono hhas
  · rcases mem_modify hscope with hscope | ⟨old, hold, rfl⟩
    · exact hhas _ (h.entry scope hscope e he)
    · rcases NameMap.mem_put he with rfl | he
      · exact has_insertAt.2 (.inr rfl)
      · exact hhas _ (h.entry old (List.mem_of_getElem? hold) e he)
  · rw [symbol_insertAt_of_has (h.closed e he).1]
    exact (h.closed e he).2

theorem declared (hid : t.declared reach name = some id) : t.Has id := by
  obtain ⟨scope, hscope, hmem⟩ := mem_of_declared hid
  exact h.entry scope hscope _ hmem

theorem but_declare (hd : declare reach name cls line f t = .ok id t') :
    t'.TidyBut (some id) ∧ t'.Has id ∧ (t'.symbol id).cls = cls := by
  rcases declare_eq_ok hd with ⟨hid, hcls, rfl⟩ | ⟨-, -, rfl, kind, hkind, rfl⟩
  · refine ⟨(h.but id).modifySymbol (Symbol.stands_merge line f _).cls, ?_, ?_⟩
    · rw [has_modifySymbol]
      exact h.declared hid
    · rw [symbol_modifySymbol (h.declared hid), if_pos rfl,
        (Symbol.stands_merge line f _).cls, hcls]
  · refine ⟨h.insertAt, has_insertAt.2 (.inr rfl), ?_⟩
    rw [symbol_insertAt, if_pos rfl]
    exact cls_ofFields hkind

theorem declare (hvalue : f.value = none) (htype : f.type = none)
    (hparams : ∀ ids ∈ f.params, ∀ id ∈ ids, t.Has id) :
    Leaves Tidy (declare reach name cls line f) t := by
  unfold Leaves Advances stateAfter
  split
  · rename_i id t' hd
    obtain ⟨hbut, -⟩ := h.but_declare hd
    rcases declare_eq_ok hd with ⟨-, -, rfl⟩ | ⟨-, -, rfl, kind, hkind, rfl⟩
    · exact h.modifySymbol (Symbol.stands_merge line f _).cls fun hs =>
        hs.merge line hvalue htype hparams
    · refine hbut.settle ?_
      rw [symbol_insertAt, if_pos rfl]
      exact .ofFields hkind htype fun ids hids m hm => has_insertAt.2 (.inl (hparams ids hids m hm))
  · rename_i e t' hd
    rcases declare_of_error hd with ⟨id, -, -, -, rfl⟩ | ⟨-, rfl⟩
    · exact h.modifySymbol rfl fun hs => hs.of_kind rfl
    · exact h

theorem push (name : String) : (t.push name).Tidy where
  settled := h.settled
  entry scope hscope e he := by
    rcases List.mem_cons.1 hscope with rfl | hscope
    · simp at he
    · exact h.entry scope hscope e he
  closed := h.closed

theorem close (hid : t.Has id) : (t.close id).Tidy := by
  have hhas : (t.close id).Has = t.Has := by
    funext j
    simp [Has, symbols_close]
  refine ⟨fun j _ => ?_, ?_, fun e he => ?_⟩
  · rw [symbol_close, hhas]
    exact h.symbol j
  · rw [scopes_close, hhas]
    exact h.entry
  · rw [IsVar, hhas, symbol_close]
    change e ∈ ((t.close id).byClass .var).entries at he
    rw [byClass_close] at he
    split at he
    · rename_i hcls
      rcases NameMap.mem_put he with rfl | he
      · exact ⟨hid, hcls.symm⟩
      · exact h.closed e he
    · exact h.closed e he

omit h in
theorem foldl_close (h : t.Tidy) {ids : List SymbolId} (hids : ∀ id ∈ ids, t.Has id) :
    (ids.foldl Table.close t).Tidy := by
  induction ids generalizing t with
  | nil => exact h
  | cons id ids ih =>
    simp only [List.forall_mem_cons] at hids
    exact ih (h.close hids.1) (by simpa [Has, symbols_close] using hids.2)

theorem pop : Leaves Tidy pop t := by
  refine Leaves.bind (fun _ _ he => absurd he get_ne_error) fun t₁ _ ht => ?_
  obtain ⟨rfl, rfl⟩ := get_eq_ok.1 ht
  split
  · exact h
  · rename_i scope scopes hscopes
    have hrest : ({ t with scopes } : Table).Tidy :=
      ⟨h.settled, fun s hs => h.entry s (hscopes ▸ List.mem_cons_of_mem _ hs), h.closed⟩
    refine hrest.foldl_close fun id hid => ?_
    obtain ⟨e, he, rfl⟩ := List.mem_map.1 hid
    exact h.entry scope (hscopes ▸ List.mem_cons_self) e he

theorem resolve_var (hid : t.resolve name none (some .var) = some id) : t.IsVar id := by
  simp only [Table.resolve, Option.all_none, Option.all_some, if_true] at hid
  split at hid
  · rename_i found hfound
    obtain rfl := Option.some.inj hid
    obtain ⟨scope, hscope, hget⟩ := List.exists_of_findSome?_eq_some hfound
    obtain ⟨hget, hcls⟩ := Option.filter_eq_some_iff.1 hget
    exact ⟨h.entry scope hscope _ (NameMap.mem_of_get? hget), (of_decide_eq_true hcls).symm⟩
  · rename_i hcls
    obtain rfl := Option.some.inj hcls
    exact h.closed _ (NameMap.mem_of_get? hid)
  · rename_i hcls
    exact (hcls _ rfl rfl).elim

end Tidy

def Tidies (t t' : Table) : Prop := t.Tidy → t'.Tidy

instance : IsPreorder Table Tidies where
  refl _ h := h
  trans _ _ _ h h' ht := h' (h ht)

theorem tidies_setCode (id : SymbolId) (d : Definition) : Advances Tidies (setCode id d) t := by
  refine Advances.of_get.bind fun _ _ _ => ?_
  dsimp only
  split
  · exact .throw_bind
  · exact .of_modify fun h => h.modifySymbol (Symbol.grows_setCode d _).cls fun hs => hs.setCode d

theorem tidies_use (t : Table) (id : SymbolId) : Tidies t (t.modifySymbol id Symbol.use) :=
  fun h => h.modifySymbol rfl fun hs => hs.of_kind rfl

end Table

namespace Lowering

variable {s s' : Lowering} {name : String} {line : Nat}

abbrev Tidy (s : Lowering) : Prop := s.table.Tidy

theorem tidies_assignment (op : String) (rhs : Expr) :
    Advances (OnTable Table.Tidies) (assignment name op rhs line) s := by
  intro hs
  change Leaves Tidy (assignment name op rhs line) s
  unfold assignment
  extract_lets compound
  split
  · exact hs
  refine Leaves.andThen (advances_assignedType (R := Table.Tidies) _ _ hs) fun type s₁ _ hs₁ =>
    ?_
  refine Leaves.bind (fun e s' he => ?_) fun id s₂ hd => ?_
  · rcases Table.declare_of_error
      (ofTable_eq_error he) with ⟨_, -, -, hmisfits, -⟩ | ⟨-, htable⟩
    · exact absurd hmisfits Bool.false_ne_true
    · rw [Tidy, htable]
      exact hs₁
  obtain ⟨t, hdeclare, rfl⟩ := ofTable_eq_ok.1 hd
  obtain ⟨hbut, hvar⟩ := hs₁.but_declare hdeclare
  refine Leaves.bind (fun _ _ he => absurd he get_ne_error) fun s₃ _ hget => ?_
  obtain ⟨rfl, rfl⟩ := get_eq_ok.1 hget
  -- the variable may have a type alone at this point
  have hset (v : Value) : Leaves Tidy (Table.setValue id v : LowerM Unit) (s₁.setTable t) :=
    advances_ofTable (R := fun _ => Table.Tidy) (s := s₁.setTable t) (hbut.setValue hvar v)
  split
  · split
    · exact (hset _).andThen fun _ _ _ h => h
    · exact (hset _).andThen fun _ _ _ h => h
  · rename_i hvalue
    exact hbut.settle (.of_value? (Option.isNone_iff_eq_none.not.1 hvalue))

theorem leaves_declare {reach : Reach} {cls : SymbolClass} {line : Option Nat}
    {f : Fields} (hs : s.Tidy) (hvalue : f.value = none) (htype : f.type = none)
    (hparams : ∀ ids ∈ f.params, ∀ id ∈ ids, s.table.Has id) :
    Leaves Tidy (Table.declare reach name cls line f : LowerM SymbolId) s :=
  advances_ofTable (hs.declare hvalue htype hparams)

theorem Declares.has {params : List String} {ids : List SymbolId}
    (h : Declares line s params ids s') (hs : s.Tidy) :
    s.Retains s' ∧ ∀ id ∈ ids, s'.table.Has id := by
  induction h with
  | nil => exact ⟨refl_of Retains _, by simp⟩
  | cons hd _ ih =>
    obtain ⟨hretains, hhas⟩ := ih (Advances.of_ok (hs.declare rfl rfl (by simp)) hd)
    refine ⟨trans_of Retains
      (Advances.of_ok (Table.advances_declare (Symbol.lasts_merge _ rfl) _ _ _) hd) hretains, ?_⟩
    exact List.forall_mem_cons.2 ⟨(hretains _ (hs.but_declare hd).2.1).1, hhas⟩

theorem tidies_openProcedure (params : List String) :
    Advances (OnTable Table.Tidies) (openProcedure name line params) s := by
  intro hs
  change Leaves Tidy (openProcedure name line params) s
  refine (leaves_declare hs rfl rfl (by simp)).andThen fun id s₁ _ hs₁ => ?_
  refine Leaves.andThen (hs₁.push name) fun _ s₂ _ hs₂ => ?_
  refine Leaves.andThen (Advances.mapM (r := OnTable Table.Tidies)
    (fun _ s hs => leaves_declare hs rfl rfl (by simp)) params hs₂) fun ids s₃ hids hs₃ => ?_
  have hhas := ((declares_of_mapM hids).has hs₂).2
  refine Leaves.andThen hs₃ fun s₄ _ hget _ => ?_
  obtain ⟨rfl, rfl⟩ := get_eq_ok.1 hget
  have hend (s : Lowering) (hs : s.Tidy) (hhas : ∀ id ∈ ids, s.table.Has id) :
      Leaves Tidy (enterBody name id ids) s :=
    (leaves_declare hs rfl rfl (by simpa using hhas)).andThen fun _ _ _ h => h
  dsimp only
  split
  · refine Leaves.andThen (Advances.forM (r := OnTable Table.Tidies)
      (fun id _ => advances_ofTable (Table.advances_countUse Table.tidies_use id)) ids hs₃)
      fun _ s₄ huse hs₄ => ?_
    have hretains :=
      (Advances.forM (fun id _ => advances_ofTable (Table.advances_countUse Table.retains_use id))
        ids).of_ok
      huse
    exact hend s₄ hs₄ fun m hm => (hretains m (hhas m hm)).1
  · exact hend _ hs₃ hhas

theorem permits_tidies : Permits Table.Tidies where
  declare _ reach name cls line h := h.declare rfl rfl (by simp)
  use := Table.tidies_use
  setCode _ := Table.tidies_setCode
  pop _ h := h.pop
  assignment _ _ op rhs _ := tidies_assignment op rhs
  openProcedure _ _ _ params := tidies_openProcedure params

theorem tidy_setup {entry : SymbolId} {w : Workspace} (h : setup {} = .ok entry w) :
    w.table.Tidy := by
  have hlive : w.table.Live := (ok_setup h).1.live
  obtain ⟨-, htable⟩ := eq_start h
  have htype : ∀ id, start.table.Has id →
      ∀ v ∈ (start.table.symbol id).var?, v.value = none → v.type = none := by
    decide +kernel
  refine ⟨fun id _ => ⟨?_, fun r hr m hm => ?_⟩,
    fun scope hscope e he => (steady_setup h).entry hscope he, fun e he => ?_⟩
  · by_cases hid : w.table.Has id
    · rw [htable] at hid ⊢
      exact htype id hid
    · simp [Table.symbol_of_not_has hid, blankSymbol, Symbol.var?]
  · have hdependency :
        m ∈ w.table.dependencies id := by simp [Table.dependencies, Option.mem_def.1 hr, hm]
    exact (hlive.isVar hdependency).1
  · have hclosed : (e.1, e.2) ∈ (w.table.byClass .var).entries := he
    obtain ⟨hhas, hcls, -⟩ := hlive.sound.closedEntry hclosed
    exact ⟨hhas, hcls⟩

def IsReachable (s : Lowering) : Prop :=
  ∃ entry w actions, setup {} = .ok entry w ∧ s = takeAll { toWorkspace := w, entry } actions

theorem IsReachable.tidy (h : s.IsReachable) : s.Tidy := by
  obtain ⟨entry, w, actions, hsetup, rfl⟩ := h
  exact permits_tidies.onTable_takeAll _ actions (tidy_setup hsetup)

end Lowering

end TurtleCompiler
