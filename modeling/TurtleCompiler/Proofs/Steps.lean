import Mathlib.Logic.Relation
import TurtleCompiler.Proofs.Footprint

/-!
What the lowering of a statement does to the table, step by step. Each step is due to a name that
the statement mentions.
-/

namespace TurtleCompiler

open Relation

namespace Source

inductive Mention where
  | read (name : String)
  | write (name : String)
  | call (name : String)
  | primitive (name : String)

def Mention.var? : Mention → Option String
  | .read name | .write name => some name
  | .call _ | .primitive _ => none

def Mention.name? : Mention → Option String
  | .read name | .write name | .call name => some name
  | .primitive _ => none

def Expr.mentions : Expr → List Mention
  | .number .. | .string _ | .boolean _ => []
  | .var name _ => [.read name]
  | .random => [.primitive "RANDOM"]
  | .plus e _ | .minus e _ | .not e _ => e.mentions
  | .arith _ l r _ | .compare _ l r _ | .logic _ l r _ => l.mentions ++ r.mentions

mutual

def Stmt.mentions : Stmt → List Mention
  | .expr e => e.mentions
  | .assign name _ rhs _ => rhs.mentions ++ [.write name]
  | .call name args _ => args.flatMap Expr.mentions ++ [.call name]
  | .print first more _ => first.mentions ++ more.flatMap Expr.mentions ++ [.primitive "PRINT"]
  | .typein name _ => [.primitive "TYPEIN", .read name]
  | .ifThen cond yes _ => cond.mentions ++ mentionsOfAll yes
  | .ifElse cond yes no _ => cond.mentions ++ mentionsOfAll yes ++ mentionsOfAll no
  | .whileDo cond body _ => cond.mentions ++ mentionsOfAll body

def mentionsOfAll : List Stmt → List Mention
  | [] => []
  | s :: ss => s.mentions ++ mentionsOfAll ss

end

theorem Mention.name?_of_var? {m : Mention} {x : String} (h : x ∈ m.var?) : x ∈ m.name? := by
  cases m <;> simp_all [var?, name?]

theorem Expr.name?_mentions (e : Expr) : e.mentions.filterMap Mention.name? = e.names := by
  induction e with
  | number | string | boolean | var | random => rfl
  | plus e _ ih | minus e _ ih | not e _ ih => exact ih
  | arith _ l r _ ihl ihr | compare _ l r _ ihl ihr | logic _ l r _ ihl ihr =>
    simp only [mentions, names, List.filterMap_append, ihl, ihr]

theorem name?_flatMap_mentions (es : List Expr) :
    (es.flatMap Expr.mentions).filterMap Mention.name? = es.flatMap Expr.names := by
  simp only [List.filterMap_flatMap, Expr.name?_mentions]

mutual

theorem Stmt.name?_mentions : (st : Stmt) → st.mentions.filterMap Mention.name? ⊆ st.names
  | .expr e => by simp [Stmt.mentions, Stmt.names, Expr.name?_mentions]
  | .assign name _ rhs _ => by simp [Stmt.mentions, Stmt.names, Expr.name?_mentions, Mention.name?]
  | .call name args _ => by simp [Stmt.mentions, Stmt.names, name?_flatMap_mentions, Mention.name?]
  | .print first more _ => by
    simp [Stmt.mentions, Stmt.names, Expr.name?_mentions, name?_flatMap_mentions, Mention.name?,
      List.filterMap_cons]
  | .typein name _ => by simp [Stmt.mentions, Stmt.names, Mention.name?, List.filterMap_cons]
  | .ifThen cond yes _ => by
    simp only [Stmt.mentions, Stmt.names, List.filterMap_append, Expr.name?_mentions]
    exact List.append_subset.2 ⟨List.subset_append_left _ _,
      List.subset_append_of_subset_right _ (name?_mentionsOfAll yes)⟩
  | .ifElse cond yes no _ => by
    simp only [Stmt.mentions, Stmt.names, List.filterMap_append, Expr.name?_mentions,
      List.append_subset]
    refine ⟨⟨List.subset_append_left _ _, List.subset_append_of_subset_right _ ?_⟩,
      List.subset_append_of_subset_right _
      (List.subset_append_of_subset_right _ (name?_mentionsOfAll no))⟩
    exact List.subset_append_of_subset_left _ (name?_mentionsOfAll yes)
  | .whileDo cond body _ => by
    simp only [Stmt.mentions, Stmt.names, List.filterMap_append, Expr.name?_mentions]
    exact List.append_subset.2 ⟨List.subset_append_left _ _,
      List.subset_append_of_subset_right _ (name?_mentionsOfAll body)⟩

theorem name?_mentionsOfAll : (ss : List Stmt) →
    (mentionsOfAll ss).filterMap Mention.name? ⊆ namesOfAll ss
  | [] => by simp [mentionsOfAll]
  | st :: ss => by
    simp only [mentionsOfAll, namesOfAll, List.filterMap_append, List.append_subset]
    exact ⟨List.subset_append_of_subset_left _ st.name?_mentions,
      List.subset_append_of_subset_right _ (name?_mentionsOfAll ss)⟩

end

theorem Expr.write_not_mem (e : Expr) (x : String) : .write x ∉ e.mentions := by
  induction e with
  | number | string | boolean | var | random => simp [mentions]
  | plus e _ ih | minus e _ ih | not e _ ih => exact ih
  | arith _ l r _ ihl ihr | compare _ l r _ ihl ihr | logic _ l r _ ihl ihr =>
    simp [mentions, ihl, ihr]

end Source

namespace Table

inductive Step (names : List String) (setting : Prop) : Table → Table → Prop
  | var : name ∈ names → f.usage = none → f.value = none →
      declare .anywhere name .var line f t = .ok i t' → Step names setting t t'
  | routine : declare .outermost name .routine none {} t = .ok i t' → Step names setting t t'
  | use : countUsage name cls t = .ok i t' → Step names setting t t'
  | value : setting → t.value? i = none → setValue i v t = .ok ⟨⟩ t' →
      Step names setting t t'

abbrev Steps (names : List String) (setting : Prop) : Table → Table → Prop :=
  ReflTransGen (Step names setting)

inductive Heeds : Source.Mention → Table → Table → Prop
  | read : declare .anywhere name .var line {} t = .ok i t' →
      countUsage name (some .var) t' = .ok j t'' → Heeds (.read name) t t''
  | write : f.usage = none → f.value = none →
      declare .anywhere name .var line f t = .ok i t' →
      (t'' = t' ∨ ∃ v, t'.value? i = none ∧ setValue i v t' = .ok ⟨⟩ t'') →
      Heeds (.write name) t t''
  | call : declare .outermost name .routine none {} t = .ok i t' →
      countUsage name (some .routine) t' = .ok j t'' → Heeds (.call name) t t''
  | primitive : name ∈ ["RANDOM", "PRINT", "TYPEIN"] →
      countUsage name (some .routine) t = .ok i t' → Heeds (.primitive name) t t'

def HeedsAll : List Source.Mention → Table → Table → Prop
  | [], t, t' => t' = t
  | m :: ms, t, t' => ∃ t₁, Heeds m t t₁ ∧ HeedsAll ms t₁ t'

variable {t t' t'' : Table} {id : SymbolId} {name name' : String}

structure Counts (t t' : Table) : Prop extends Edits t t' where
  kind : ∀ id, (t'.symbol id).kind = (t.symbol id).kind

namespace Counts

theorem refl (t : Table) : t.Counts t := ⟨.refl t, fun _ => rfl⟩

theorem trans (h : t.Counts t') (h' : t'.Counts t'') : t.Counts t'' :=
  ⟨h.toEdits.trans h'.toEdits, fun id => (h'.kind id).trans (h.kind id)⟩

theorem use (t : Table) (id : SymbolId) : t.Counts (t.modifySymbol id Symbol.use) :=
  ⟨edits_modifySymbol (Symbol.grows_use _), symbol_modifySymbol_congr Symbol.kind rfl⟩

variable {u : Unit}

theorem forM {x : SymbolId → TableM Unit}
    (hx : ∀ {id t t' u}, x id t = .ok u t' → t.Counts t') {ids : List SymbolId}
    (h : ids.forM x t = .ok u t') : t.Counts t' := by
  induction ids generalizing t with
  | nil =>
    obtain ⟨-, rfl⟩ := pure_eq_ok.1 h
    exact .refl t
  | cons id ids ih =>
    obtain ⟨_, t₁, hid, hids⟩ := bind_eq_ok.1 h
    exact (hx hid).trans (ih hids)

theorem countUsesOf {n : Nat} (h : Table.countUsesOf n id t = .ok u t') : t.Counts t' := by
  induction n generalizing id t t' u with
  | zero =>
    obtain ⟨-, rfl⟩ := pure_eq_ok.1 h
    exact .refl t
  | succ n ih =>
    simp only [Table.countUsesOf, bind_eq_ok, modify_eq_ok, get_eq_ok] at h
    obtain ⟨_, _, rfl, _, _, ⟨rfl, rfl⟩, h⟩ := h
    refine (use t id).trans ?_
    cases halias : ((t.modifySymbol id Symbol.use).symbol id).routine?.bind (·.aliasOf) with
    | none =>
      rw [halias] at h
      exact forM ih h
    | some target =>
      rw [halias] at h
      cases hcallee : (t.modifySymbol id Symbol.use).resolve target none (some .routine) with
      | none => simp [hcallee] at h
      | some callee =>
        simp only [hcallee, bind_eq_ok, modify_eq_ok] at h
        obtain ⟨_, _, rfl, h⟩ := h
        exact (use _ callee).trans (forM ih h)

theorem countUse (h : Table.countUse id t = .ok u t') : t.Counts t' := by
  simp only [Table.countUse, get_bind] at h
  exact countUsesOf h

theorem countUsage {cls : Option SymbolClass} (h : Table.countUsage name cls t = .ok id t') :
    t.Counts t' :=
  countUse (countUsage_eq_ok h).2

end Counts

section Values

theorem value?_of_not_has (h : ¬ t.Has id) : t.value? id = none := by
  simp [value?, symbol_of_not_has h, blankSymbol, Symbol.var?]

theorem value?_modifySymbol {f : Symbol → Symbol}
    (hf : (f (t.symbol id)).var?.bind (·.value) = t.value? id) :
    (t.modifySymbol id f).value? = t.value? :=
  funext (symbol_modifySymbol_congr (·.var?.bind (·.value)) hf)

theorem value?_merge (line : Option Nat) {f : Fields} (hf : f.value = none) (s : Symbol) :
    (s.merge line f).2.var?.bind (·.value) = s.var?.bind (·.value) := by
  obtain ⟨name, line', usage, scope, fullName, v | r⟩ := s
  · unfold Symbol.merge
    dsimp only
    split
    · rfl
    · simp [Symbol.var?, Symbol.updateVariable, hf]
  · unfold Symbol.merge
    dsimp only
    split <;> rfl

theorem value?_declare {reach : Reach} {cls : SymbolClass} {line : Option Nat} {f : Fields}
    (hf : f.value = none) (hd : declare reach name cls line f t = .ok id t') :
    t'.value? = t.value? := by
  funext j
  rw [value?]
  rcases symbol_declare hd j with hj | ⟨-, hj⟩ | ⟨hnew, _, _, kind, hkind, hj⟩ <;> rw [hj]
  · rfl
  · exact value?_merge line hf _
  · rw [value?_of_not_has hnew]
    obtain ⟨-, rfl⟩ | ⟨-, rfl⟩ := ofFields_eq_ok hkind <;> simp [Symbol.var?, hf]

theorem Counts.value? (h : t.Counts t') : t'.value? = t.value? := by
  funext id
  simp only [Table.value?, Symbol.var?, h.kind id]

variable {v : Value}

theorem value?_setValue (hid : t.IsVar id) (h : setValue id v t = .ok ⟨⟩ t') (j : SymbolId) :
    t'.value? j = if j = id then some v else t.value? j := by
  obtain ⟨-, rfl⟩ := setValue_eq_ok h
  rw [value?, symbol_modifySymbol hid.1]
  split
  · subst_vars
    have hcls := hid.2
    unfold Symbol.cls at hcls
    unfold Symbol.setValue
    split at hcls
    · rename_i hkind
      simp [Symbol.var?]
    · simp at hcls
  · rfl

variable {names : List String} {setting : Prop}

theorem Step.value? (h : Step names False t t') : t'.value? = t.value? := by
  cases h with
  | var _ _ hvalue hd => exact value?_declare hvalue hd
  | routine hd => exact value?_declare rfl hd
  | use hc => exact (Counts.countUsage hc).value?
  | value hset => exact hset.elim

theorem Steps.value? (h : Steps names False t t') : t'.value? = t.value? := by
  induction h with
  | refl => rfl
  | tail _ hstep ih => exact hstep.value?.trans ih

theorem Step.value?_of_some (h : Step names setting t t') (hv : t.value? id = some v) :
    t'.value? id = some v := by
  cases h with
  | var hname husage hvalue hd => rwa [value?_declare hvalue hd]
  | routine hd => rwa [value?_declare rfl hd]
  | use hc => rwa [(Counts.countUsage hc).value?]
  | @value i _ _ _ _ hnone hset =>
    by_cases hi : t.Has i
    · rw [value?_setValue ⟨hi, (setValue_eq_ok hset).1⟩ hset, if_neg, hv]
      rintro rfl
      simp [hnone] at hv
    · obtain ⟨-, rfl⟩ := setValue_eq_ok hset
      rwa [modifySymbol_of_not_has hi]

theorem Steps.value?_of_some (h : Steps names setting t t') (hv : t.value? id = some v) :
    t'.value? id = some v := by
  induction h with
  | refl => exact hv
  | tail _ hstep ih => exact hstep.value?_of_some ih

end Values

section Heeds

open Source (Mention)

variable {m : Mention} {ms ms' : List Mention}

theorem HeedsAll.single (h : Heeds m t t') : HeedsAll [m] t t' := ⟨t', h, rfl⟩

theorem HeedsAll.append (h : HeedsAll ms t t') (h' : HeedsAll ms' t' t'') :
    HeedsAll (ms ++ ms') t t'' := by
  induction ms generalizing t with
  | nil =>
    obtain rfl : t' = t := h
    exact h'
  | cons m ms ih =>
    obtain ⟨t₁, hm, h⟩ := h
    exact ⟨t₁, hm, ih h⟩

variable {names : List String} {setting : Prop}

theorem Heeds.steps (h : Heeds m t t') (hnames : ∀ x ∈ m.var?, x ∈ names)
    (hsetting : ∀ x, m = .write x → setting) : Steps names setting t t' := by
  cases h with
  | read hd hc => exact ReflTransGen.tail (.single (.var (hnames _ rfl) rfl rfl hd)) (.use hc)
  | write husage hvalue hd hset =>
    have hdeclare : Steps names setting t _ := .single (.var (hnames _ rfl) husage hvalue hd)
    rcases hset with rfl | ⟨v, hnone, hset⟩
    · exact hdeclare
    · exact hdeclare.tail (.value (hsetting _ rfl) hnone hset)
  | call hd hc => exact ReflTransGen.tail (.single (.routine hd)) (.use hc)
  | primitive _ hc => exact .single (.use hc)

theorem HeedsAll.steps (h : HeedsAll ms t t') (hnames : ∀ m ∈ ms, ∀ x ∈ m.var?, x ∈ names)
    (hsetting : ∀ x, .write x ∈ ms → setting) : Steps names setting t t' := by
  induction ms generalizing t with
  | nil =>
    obtain rfl : t' = t := h
    exact .refl
  | cons m ms ih =>
    obtain ⟨t₁, hm, h⟩ := h
    rw [List.forall_mem_cons] at hnames
    exact (hm.steps hnames.1 fun x hx => hsetting x (by simp [hx])).trans
      (ih h hnames.2 fun x hx => hsetting x (List.mem_cons_of_mem _ hx))

end Heeds

end Table

namespace Lowering

variable {s s' : Lowering} {name op : String} {line : Nat} {e : Expr} {node : Node}
  {args : List Expr}

theorem table_enter {notes : List Event} {u : Unit} (h : enter notes s = .ok u s') :
    s'.table = s.table := by
  obtain rfl := modify_eq_ok.1 h
  rfl

theorem heeds_reference (h : reference name line s = .ok e s') :
    Table.Heeds (.read name) s.table s'.table := by
  obtain ⟨id, t₁, j, t₂, hd, hc, rfl, rfl⟩ := reference_eq_ok h
  exact .read hd hc

theorem heeds_random (h : random s = .ok e s') :
    Table.Heeds (.primitive "RANDOM") s.table s'.table := by
  obtain ⟨j, t, hc, -, rfl⟩ := random_eq_ok h
  exact .primitive (by simp) hc

theorem heeds_print (h : print args s = .ok node s') :
    Table.Heeds (.primitive "PRINT") s.table s'.table := by
  obtain ⟨j, t, e, hc, -, -, rfl⟩ := print_eq_ok h
  exact .primitive (by simp) hc

theorem heeds_call (h : call name args line s = .ok node s') :
    Table.Heeds (.call name) s.table s'.table := by
  obtain ⟨i, t₁, j, t₂, e, hd, hc, -, -, rfl⟩ := call_eq_ok h
  exact .call hd hc

theorem heeds_typein (h : typein name line s = .ok node s') :
    Table.HeedsAll [.primitive "TYPEIN", .read name] s.table s'.table := by
  obtain ⟨i, t₁, id, t₂, j, t₃, e, hi, hd, hc, -, -, rfl⟩ := typein_eq_ok h
  exact ⟨t₁, .primitive (by simp) hi, .single (.read hd hc)⟩

theorem heeds_assignment {rhs : Expr} (h : assignment name op rhs line s = .ok node s') :
    Table.Heeds (.write name) s.table s'.table := by
  obtain ⟨compound, type, id, t₁, t₂, -, -, hd, rfl, hcases⟩ := assignment_eq_ok h
  refine .write rfl rfl hd ?_
  rcases hcases with ⟨v, hnone, -, -, hset, -⟩ | ⟨hnone, -, hset, -⟩ | ⟨-, rfl, -⟩
  · exact .inr ⟨_, hnone, hset⟩
  · exact .inr ⟨_, hnone, hset⟩
  · exact .inl rfl

end Lowering

namespace Source

open Table

variable {s s' : Lowering} {e' : TurtleCompiler.Expr} {es : List Expr}
  {es' : List TurtleCompiler.Expr}

theorem Expr.Becomes.heeds {e : Expr} (h : e.Becomes s e' s') :
    HeedsAll e.mentions s.table s'.table := by
  induction h with
  | number | string | boolean => rfl
  | var h => exact .single (Lowering.heeds_reference h :)
  | random h => exact .single (Lowering.heeds_random h)
  | plus _ _ ih | minus _ _ ih | not _ ih => exact ih
  | arith _ _ _ _ ihl ihr | compare _ _ _ ihl ihr | logic _ _ _ ihl ihr => exact ihl.append ihr

theorem EachBecomes.heeds (h : EachBecomes es s es' s') :
    HeedsAll (es.flatMap Expr.mentions) s.table s'.table := by
  induction h with
  | nil => rfl
  | cons he _ ih => exact he.heeds.append ih

mutual

theorem Stmt.Becomes.heeds {st : Stmt} {s s' : Lowering} {n : Node} : st.Becomes s n s' →
    HeedsAll st.mentions s.table s'.table
  | .expr he => he.heeds
  | .assign hrhs h => hrhs.heeds.append (.single (Lowering.heeds_assignment h :))
  | .call hargs h => hargs.heeds.append (.single (Lowering.heeds_call h :))
  | .print hargs h => hargs.heeds.append (.single (Lowering.heeds_print h :))
  | .typein h => (Lowering.heeds_typein h :)
  | .ifThen htest hyes => htest.heeds.append hyes.heeds
  | .ifElse htest hyes hno => (htest.heeds.append hyes.heeds).append hno.heeds
  | .whileDo htest hbody => htest.heeds.append hbody.heeds

theorem AllBecome.heeds {ss : List Stmt} {s s' : Lowering} {ns : List Node} :
    AllBecome ss s ns s' → HeedsAll (mentionsOfAll ss) s.table s'.table
  | .nil => rfl
  | .cons hn hns => hn.heeds.append hns.heeds

end

theorem var?_mem {ms : List Mention} {names : List String}
    (h : ms.filterMap Mention.name? ⊆ names) : ∀ m ∈ ms, ∀ x ∈ m.var?, x ∈ names :=
  fun m hm _ hx => h (List.mem_filterMap.2 ⟨m, hm, m.name?_of_var? hx⟩)

theorem Expr.Becomes.steps {e : Expr} (h : e.Becomes s e' s') :
    Steps e.names False s.table s'.table :=
  h.heeds.steps (var?_mem (by simp [Expr.name?_mentions])) e.write_not_mem

theorem EachBecomes.steps (h : EachBecomes es s es' s') :
    Steps (es.flatMap Expr.names) False s.table s'.table := by
  refine h.heeds.steps (var?_mem (by simp [name?_flatMap_mentions])) fun x hx => ?_
  obtain ⟨e, -, he⟩ := List.mem_flatMap.1 hx
  exact e.write_not_mem x he

theorem Stmt.Becomes.steps {st : Stmt} {n : Node} (h : st.Becomes s n s') :
    Steps st.names True s.table s'.table :=
  h.heeds.steps (var?_mem st.name?_mentions) fun _ _ => trivial

theorem AllBecome.steps {ss : List Stmt} {ns : List Node} (h : AllBecome ss s ns s') :
    Steps (namesOfAll ss) True s.table s'.table :=
  h.heeds.steps (var?_mem (name?_mentionsOfAll ss)) fun _ _ => trivial

end Source

end TurtleCompiler
