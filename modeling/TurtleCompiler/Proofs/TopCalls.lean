import TurtleCompiler.Proofs.Lockstep
import TurtleCompiler.Proofs.UsageCounts

/-!
Calls outside procedures, where no other scope is open. A name that denotes nothing is given to a
new routine first.
-/

namespace TurtleCompiler

theorem Symbol.merge_blank {s : Symbol} (hcls : s.cls = .routine) : (s.merge none {}).2 = s := by
  obtain ⟨name, line, usage, scope, fullName,
    v | ⟨params, aliasOf, uses, flags, type, hooks, code⟩⟩ := s
  · simp [Symbol.cls] at hcls
  · simp [Symbol.merge, Symbol.declareAgain, Routine.apply, Flags.union]

namespace Table

variable {t t' : Table} {id : SymbolId} {name : String} {reach : Reach} {line : Option Nat}

section Operations

theorem Sound.resolve_outer (h : t.Sound) (hpaths : t.AtTop) (hid : t.Has id)
    (hscope : (t.symbol id).scope = "") (hname : (t.symbol id).name.toUpper = name.toUpper) :
    t.resolve name none none = some id := by
  have hne := h.resolve_ne_none hid (by rw [hpaths, hscope]; simp) hname
  obtain ⟨id', hid'⟩ := Option.ne_none_iff_exists'.1 hne
  obtain ⟨hhas, hname', hscope'⟩ := h.resolve_none hid'
  have hscope' : (t.symbol id').scope = "" := by simpa [hpaths] using hscope'
  rw [hid', h.unique hhas hid]
  rw [(h.named hhas).1, (h.named hid).1, hscope, hscope']
  exact toUpper_qualify (hname'.trans hname.symm) _

theorem Live.resolve_outer (h : t.Live) (hpaths : t.AtTop) (hid : t.IsRoutine name id) :
    t.resolve name none none = some id := by
  obtain ⟨r, hr⟩ := Symbol.exists_routine hid.2.1
  exact h.sound.resolve_outer hpaths hid.1 (h.top r hr) hid.2.2

theorem scopes_ne_nil (hid : t.resolve name none none = some id) : t.scopes ≠ [] := by
  intro hnil
  simp [Table.resolve_none, hnil, frames] at hid

theorem declare_known (hreach : reach ≠ .innermost) (hid : t.resolve name none none = some id)
    (hcls : (t.symbol id).cls = .routine) :
    declare reach name .routine line {} t =
    .ok id (t.modifySymbol id fun _ => ((t.symbol id).merge line {}).2) := by
  have hmerge : ((t.symbol id).merge line {}).1 = .ok () :=
    ((Fields.Suits.blank (t.symbol id).cls).merge line).1
  simp only [declare, bind_eq_ok, get_eq_ok]
  refine ⟨t, t, ⟨rfl, rfl⟩, ?_⟩
  simp only [List.isEmpty_iff, scopes_ne_nil hid, if_false, declared_eq_resolve hreach, hid,
    updateExisting, bind_eq_ok, get_eq_ok]
  refine ⟨t, t, ⟨rfl, rfl⟩, ?_⟩
  rw [if_neg (not_not.2 hcls), bind_eq_ok]
  exact ⟨⟨⟩, _, modify_eq_ok.2 rfl, by rw [hmerge]; rfl⟩

theorem declare_new (hreach : reach ≠ .innermost) (hscopes : t.scopes ≠ [])
    (hid : t.resolve name none none = none) :
    declare reach name .routine line {} t = .ok ⟨t.symbols.size⟩
      (t.insertAt (t.frame reach) (scopePath (t.scopes.drop (t.frame reach))) name line 0
        (.routine {})) := by
  simp only [declare, bind_eq_ok, get_eq_ok]
  refine ⟨t, t, ⟨rfl, rfl⟩, ?_⟩
  simp only [List.isEmpty_iff, hscopes, if_false, declared_eq_resolve hreach, hid]
  rfl

theorem modifySymbol_self (t : Table) (id : SymbolId) :
    (t.modifySymbol id fun _ => t.symbol id) = t := by
  have hsymbols : t.symbols.modify id.index (fun _ => t.symbol id) = t.symbols := by
    apply Array.ext_getElem?
    intro i
    rw [Array.getElem?_modify]
    split
    · subst_vars
      cases hi : t.symbols[id.index]? <;> simp [symbol, hi]
    · rfl
  simp [modifySymbol, hsymbols]

theorem modifySymbol_merge (hcls : (t.symbol id).cls = .routine) :
    (t.modifySymbol id fun _ => ((t.symbol id).merge none {}).2) = t := by
  rw [Symbol.merge_blank hcls, modifySymbol_self]

theorem Live.countUse_plain (h : t.Live) (hid : t.Has id) (halias : t.alias? id = none) :
    countUse id t = .ok ⟨⟩ (t.useAll (id :: t.dependencies id)) := by
  obtain ⟨n, hn⟩ : ∃ n, t.symbols.size = n + 1 :=
    ⟨_, (Nat.succ_pred_eq_of_pos (Nat.zero_lt_of_lt hid)).symm⟩
  have hone : ∀ j ∈ [id], t.Has j := by simpa using hid
  have halias' : ((t.useAll [id]).symbol id).routine?.bind (·.aliasOf) = none :=
    (alias?_useAll hone id).trans halias
  simp only [countUse, bind_eq_ok, get_eq_ok]
  refine ⟨t, t, ⟨rfl, rfl⟩, ?_⟩
  simp only [hn, countUsesOf, bind_eq_ok, modify_eq_ok, get_eq_ok]
  refine ⟨⟨⟩, t.useAll [id], rfl, _, _, ⟨rfl, rfl⟩, ?_⟩
  rw [halias', dependencies_useAll hone]
  exact forM_countUsesOf (fun j hj => (isVar_useAll hone).2 (h.isVar hj)) n

section Plain

variable (h : t.Live) (hpaths : t.AtTop) (hid : t.IsRoutine name id) (halias : t.alias? id = none)

include h hpaths hid halias

theorem Live.countUsage_plain : countUsage name (some .routine) t = .ok id
    (t.useAll (id :: t.dependencies id)) := by
  have hresolve := resolve_some_of_resolve_none (h.resolve_outer hpaths hid)
  rw [hid.2.1] at hresolve
  simp only [countUsage, bind_eq_ok, get_eq_ok]
  refine ⟨t, t, ⟨rfl, rfl⟩, ?_⟩
  simp only [hresolve, bind_eq_ok, pure_eq_ok]
  exact ⟨⟨⟩, _, h.countUse_plain hid.1 halias, trivial, rfl⟩

theorem Live.callTo_plain (args : List Arg) :
    Expr.callTo t name args = .ok (.call id args (t.symbol id).type?) := by
  have hresolve := resolve_some_of_resolve_none (h.resolve_outer hpaths hid)
  rw [hid.2.1] at hresolve
  obtain ⟨r, hr⟩ := Symbol.exists_routine hid.2.1
  have hnone : r.aliasOf = none := by simpa [alias?, hr] using halias
  refine Expr.callTo_eq_ok.2 ⟨id, ?_, rfl⟩
  simp [hresolve, resolveAlias, followAlias, hr, hnone]

end Plain

end Operations

structure CanCall (f : String) (rnd : SymbolId) (R : Routine) (t : Table) : Prop where
  live : t.Live
  paths : (frames t.scopes).map (·.1) = [""]
  random : t.IsRoutine "RANDOM" rnd
  routine : (t.symbol rnd).routine? = some R
  plain : R.aliasOf = none
  known : t.resolve f none none = none ∨ ∃ g, t.IsRoutine f g ∧ t.alias? g = none

namespace CanCall

variable {f : String} {rnd g : SymbolId} {R : Routine} {ms : List SymbolId}

theorem of_extends (h : t.CanCall f rnd R) (he : t.Extends ms t')
    (hknown : t'.resolve f none none = none ∨ ∃ g, t'.IsRoutine f g ∧ t'.alias? g = none) :
    t'.CanCall f rnd R :=
  ⟨h.live.extends he, he.paths.trans h.paths, he.isRoutine h.random,
    (he.routine h.random.1).trans h.routine, h.plain, hknown⟩

theorem alias?_random (h : t.CanCall f rnd R) : t.alias? rnd = none := by
  simp [alias?, h.routine, h.plain]

protected theorem alias? (h : t.CanCall f rnd R) (hg : t.IsRoutine f g) : t.alias? g = none := by
  rcases h.known with hnone | ⟨g', hg', halias⟩
  · simp [h.live.resolve_outer h.paths hg] at hnone
  · rw [h.live.isRoutine_unique hg hg', halias]

theorem has_uses (h : t.Live) (hg : t.Has g) : ∀ id ∈ g :: t.dependencies g, t.Has id := by
  simpa using ⟨hg, fun id hid => (h.isVar hid).1⟩

theorem use (h : t.CanCall f rnd R) (hg : t.Has g) :
    (t.useAll (g :: t.dependencies g)).CanCall f rnd R := by
  have he : t.Extends [g] (t.useAll (g :: t.dependencies g)) :=
    (h.live.useAll_callee hg [] (by simp)).1
  refine h.of_extends he ?_
  rw [(edits_useAll (has_uses h.live hg)).resolve]
  refine h.known.imp_right fun ⟨i, hi, halias⟩ =>
    ⟨i, he.isRoutine hi, (he.alias? hi.1).trans halias⟩

theorem resolve_congr (hname : name.toUpper = f.toUpper) :
    t.resolve name none none = t.resolve f none none := by
  simp only [Table.resolve_none, NameMap.get?, hname]

theorem declare (h : t.CanCall f rnd R) (hname : name.toUpper = f.toUpper) (hdot : Dotless name) :
    ∃ g t₁, Table.declare .outermost name .routine none {} t = .ok g t₁ ∧
      t₁.CanCall f rnd R ∧ t₁.IsRoutine name g ∧ t₁.alias? g = none := by
  obtain ⟨g, t₁, hd⟩ : ∃ g t₁, Table.declare .outermost name .routine none {} t =
      .ok g t₁ := by
    rcases h.known with hnone | ⟨g, hg, -⟩
    · obtain ⟨names, hscopes⟩ := Lowering.exists_outer h.paths
      exact ⟨_, _,
        declare_new (by simp) (by simp [hscopes]) ((resolve_congr hname).trans hnone)⟩
    · exact ⟨_, _,
        declare_known (by simp) ((resolve_congr hname).trans (h.live.resolve_outer h.paths hg))
        hg.2.1⟩
  have he := h.live.extends_declare hdot hd
  obtain ⟨hhas, hcls, hupper, -⟩ := h.live.sound.declare_has hd
  have halias : t₁.alias? g = none := by
    by_cases hg : t.Has g
    · rw [he.alias? hg]
      exact h.alias?
        ⟨hg, (he.grows hg).cls.symm.trans hcls, by rw [← (he.grows hg).name, hupper, hname]⟩
    · exact he.alias?_of_not_has hg
  exact ⟨g, t₁, hd,
    h.of_extends he (.inr ⟨g, ⟨hhas, hcls, hupper.trans hname⟩, halias⟩),
    ⟨hhas, hcls, hupper⟩, halias⟩

end CanCall

end Table

namespace Lowering

variable {s : Lowering} {name f : String} {rnd : SymbolId} {R : Routine}

theorem random_of_canCall (h : s.table.CanCall f rnd R) :
    random s =
    .ok (.call rnd [] R.type) (s.setTable (s.table.useAll (rnd :: s.table.dependencies rnd))) := by
  have huse := h.use h.random.1
  simp only [random, bind_eq_ok, ofTable_eq_ok, callTo_eq_ok]
  refine ⟨rnd, _, ⟨_, h.live.countUsage_plain h.paths h.random h.alias?_random, rfl⟩, ?_,
    rfl⟩
  rw [table_setTable, huse.live.callTo_plain huse.paths huse.random huse.alias?_random,
    Symbol.type?_of_routine? huse.routine]

theorem call_of_canCall (h : s.table.CanCall f rnd R) (hname : name.toUpper = f.toUpper)
    (hdot : Dotless name) (args : List Expr) (line : Nat) :
    ∃ n t, call name args line s = .ok n (s.setTable t) ∧ t.CanCall f rnd R := by
  obtain ⟨g, t₁, hd, h₁, hg, halias⟩ := h.declare hname hdot
  have hids := Table.CanCall.has_uses h₁.live hg.1
  have h₂ := h₁.use hg.1
  have hg' : (t₁.useAll (g :: t₁.dependencies g)).IsRoutine name g :=
    ⟨(Table.edits_useAll hids).has.2 hg.1, ((Table.edits_useAll hids).symbol g).cls.trans hg.2.1,
      by rw [((Table.edits_useAll hids).symbol g).name, hg.2.2]⟩
  have hcallTo :=
    h₂.live.callTo_plain h₂.paths hg' ((Table.alias?_useAll hids g).trans halias)
    (args.reverse.map .input)
  have hcall : ∃ n, call name args line s =
      .ok n (s.setTable (t₁.useAll (g :: t₁.dependencies g))) := by
    simp only [call, bind_eq_ok, adaptExcept_eq_ok, ofTable_eq_ok, map_eq_ok, callTo_eq_ok]
    exact ⟨_, g, _, ⟨t₁, hd, rfl⟩, g, _,
      ⟨_, h₁.live.countUsage_plain h₁.paths hg halias, rfl⟩, _, ⟨hcallTo, rfl⟩, rfl⟩
  exact hcall.imp fun n hn => ⟨_, hn, h₂⟩

abbrev canCall (f : String) (rnd : SymbolId) (R : Routine) : Pairing Lowering :=
  beside fun t t' => t.CanCall f rnd R ∧ t'.CanCall f rnd R

theorem parallel_random_canCall : Parallel (canCall f rnd R) Expr.Like random random := by
  refine ⟨fun {s s'} h => ?_⟩
  rw [random_of_canCall h.1.1, random_of_canCall h.1.2]
  exact .ok (.refl _) ⟨⟨h.1.1.use h.1.1.random.1, h.1.2.use h.1.2.random.1⟩, h.2⟩

theorem parallel_call_canCall (hname : name.toUpper = f.toUpper) (hdot : Dotless name)
    (args args' : List Expr) (line : Nat) :
    Parallel (canCall f rnd R) anything (call name args line) (call name args' line) := by
  refine ⟨fun {s s'} h => ?_⟩
  obtain ⟨n, t, hrun, ht⟩ := call_of_canCall h.1.1 hname hdot args line
  obtain ⟨n', t', hrun', ht'⟩ := call_of_canCall h.1.2 hname hdot args' line
  rw [hrun, hrun']
  exact .ok trivial ⟨⟨ht, ht'⟩, h.2⟩

end Lowering

namespace Source

inductive Item.IsCallOf (f : String) : Item → Prop
  | call {name : String} {args : List Expr} {site : Site} : name.toUpper = f.toUpper →
      args.flatMap Expr.names = [] → IsCallOf f (.statement (.call name args site))

variable {f : String} {rnd : SymbolId} {R : Routine} {i : Item}

theorem Item.IsCallOf.parallel_lower (hi : i.IsCallOf f) (hnames : ∀ x ∈ i.names, IsName x) :
    Parallel (Lowering.canCall f rnd R) (fun o o' => o = none ∧ o' = none) i.lower i.lower := by
  obtain ⟨hname, hargs⟩ := hi
  rename_i name args site
  have hdot : Dotless name := (hnames name (by simp [Item.names, Stmt.names])).dotless
  have hlower :
      Parallel (Lowering.canCall f rnd R) (List.Forall₂ Expr.Like) (args.mapM Expr.lower)
      (args.mapM Expr.lower) := by
    have harg (e : Expr) (he : e ∈ args) :
        Parallel (Lowering.canCall f rnd R) Expr.Like e.lower e.lower := by
      have hnone : e.names = [] := List.flatMap_eq_nil_iff.1 hargs e he
      exact e.parallel_lower (by simp [hnone]) Lowering.parallel_random_canCall
    exact .mapM harg
  have hcall : Parallel (Lowering.canCall f rnd R) anything (Stmt.call name args site).lower
      (Stmt.call name args site).lower :=
    hlower.bind fun _ => (Lowering.parallel_enter _).bind_eq fun _ =>
    Lowering.parallel_call_canCall hname hdot _ _ _
  exact hcall.bind fun _ => (Lowering.parallel_addTopLevel _ _).bind_eq fun _ =>
    .of_pure ⟨rfl, rfl⟩

abbrev faultless (faults faults' : List (Option Error)) : Prop :=
  (∀ o ∈ faults, o = none) ∧ ∀ o ∈ faults', o = none

theorem parallel_lower_calls {calls : List Item} (hcalls : ∀ i ∈ calls, i.IsCallOf f)
    (hnames : ∀ i ∈ calls, ∀ x ∈ i.names, IsName x) :
    Parallel (Lowering.canCall f rnd R) faultless (calls.mapM Item.lower)
    (calls.mapM Item.lower) := by
  refine (Parallel.mapM fun i hi => (hcalls i hi).parallel_lower (hnames i hi)).mono
    fun {faults faults'} hall => ?_
  induction hall with
  | nil => simp
  | cons ho _ ih =>
    exact ⟨List.forall_mem_cons.2 ⟨ho.1, ih.1⟩, List.forall_mem_cons.2 ⟨ho.2, ih.2⟩⟩

def Mention.IsPlain (f : String) : Mention → Prop
  | .call name => name.toUpper = f.toUpper
  | .primitive name => name = "RANDOM"
  | .read _ | .write _ => False

def Mention.touched (ofRandom ofCall : List SymbolId) : Mention → List SymbolId
  | .call _ => ofCall
  | .read _ | .write _ | .primitive _ => ofRandom

theorem Expr.eq_random {e : Expr} (he : e.names = []) :
    ∀ m ∈ e.mentions, m = .primitive "RANDOM" := by
  induction e with
  | number | string | boolean | random => simp [mentions]
  | var => simp [names] at he
  | plus e _ ih | minus e _ ih | not e _ ih => exact ih he
  | arith _ l r _ ihl ihr | compare _ l r _ ihl ihr | logic _ l r _ ihl ihr =>
    obtain ⟨hl, hr⟩ := List.append_eq_nil_iff.1 he
    exact List.forall_mem_append.2 ⟨ihl hl, ihr hr⟩

theorem Item.IsCallOf.isPlain (hi : i.IsCallOf f) : ∀ m ∈ i.mentions, m.IsPlain f := by
  obtain ⟨hname, hargs⟩ := hi
  simp only [Item.mentions, Stmt.mentions, List.forall_mem_append, List.forall_mem_singleton,
    List.mem_flatMap]
  refine ⟨?_, hname⟩
  rintro m ⟨e, he, hm⟩
  rw [e.eq_random (List.flatMap_eq_nil_iff.1 hargs e he) m hm]
  rfl

theorem Item.IsCallOf.exists_call (hi : i.IsCallOf f) : ∃ name, .call name ∈ i.mentions := by
  obtain ⟨-, -⟩ := hi
  rename_i name args site
  exact ⟨name, by simp [Item.mentions, Stmt.mentions]⟩

end Source

namespace Table

open Source (Mention)

variable {t t' : Table} {f name : String} {rnd g : SymbolId} {R : Routine} {m : Mention}
  {ms : List Mention}

section Known

variable (h : t.CanCall f rnd R) (hg : t.IsRoutine f g)

include h hg

theorem CanCall.has_touched (m : Mention) :
    ∀ id ∈ m.touched (rnd :: t.dependencies rnd) (g :: t.dependencies g), t.Has id := by
  cases m with
  | call name => exact has_uses h.live hg.1
  | read name | write name | primitive name => exact has_uses h.live h.random.1

theorem CanCall.use_touched (m : Mention) :
    (t.useAll (m.touched (rnd :: t.dependencies rnd) (g :: t.dependencies g))).CanCall f rnd R := by
  cases m with
  | call name => exact h.use hg.1
  | read name | write name | primitive name => exact h.use h.random.1

theorem CanCall.eq_useAll (hm : m.IsPlain f) (hheeds : Heeds m t t') :
    t' = t.useAll (m.touched (rnd :: t.dependencies rnd) (g :: t.dependencies g)) := by
  cases hheeds with
  | read | write => exact hm.elim
  | @call name _ i t₁ j _ hd hc =>
    have hg' : t.IsRoutine name g :=
      ⟨hg.1, hg.2.1, hg.2.2.trans (show name.toUpper = _ from hm).symm⟩
    have hknown : Table.declare .outermost name .routine none {} t = .ok g _ :=
      declare_known (by simp) (h.live.resolve_outer h.paths hg') hg.2.1
    rw [modifySymbol_merge hg.2.1] at hknown
    cases hd.symm.trans hknown
    cases hc.symm.trans (h.live.countUsage_plain h.paths hg' (h.alias? hg))
    rfl
  | primitive _ hc =>
    obtain rfl := hm
    cases hc.symm.trans (h.live.countUsage_plain h.paths h.random h.alias?_random)
    rfl

end Known

section

variable (h : t.CanCall f rnd R) (hg : t.IsRoutine f g) (hms : ∀ m ∈ ms, m.IsPlain f)
  (hheeds : HeedsAll ms t t')

include h hg hms hheeds

theorem CanCall.eq_useAll_of_heedsAll :
    t' =
      t.useAll
      (ms.flatMap (Mention.touched (rnd :: t.dependencies rnd) (g :: t.dependencies g))) ∧
      t'.CanCall f rnd R := by
  induction ms generalizing t with
  | nil =>
    obtain rfl : t' = t := hheeds
    exact ⟨rfl, h⟩
  | cons m ms ih =>
    obtain ⟨t₁, hm, hheeds⟩ := hheeds
    rw [List.forall_mem_cons] at hms
    obtain rfl := h.eq_useAll hg hms.1 hm
    have hids := h.has_touched hg m
    have he := edits_useAll hids
    have hg₁ :
        (t.useAll (m.touched (rnd :: t.dependencies rnd) (g :: t.dependencies g))).IsRoutine f g :=
      ⟨he.has.2 hg.1, (he.symbol g).cls.trans hg.2.1, by rw [(he.symbol g).name, hg.2.2]⟩
    obtain ⟨hrest, hcan⟩ := ih (h.use_touched hg m) hg₁ hms.2 hheeds
    rw [dependencies_useAll hids, dependencies_useAll hids, ← useAll_append] at hrest
    exact ⟨hrest, hcan⟩

theorem CanCall.twin_of_heedsAll :
    t'.Twin
    (Surplus (ms.flatMap (Mention.touched (rnd :: t.dependencies rnd) (g :: t.dependencies g))))
    t := by
  obtain ⟨rfl, -⟩ := h.eq_useAll_of_heedsAll hg hms hheeds
  exact twin_useAll (List.forall_mem_flatMap.2 fun m _ => h.has_touched hg m)

end

def placeholder (t : Table) (f : String) : Table := t.insertAt 0 "" f none 0 (.routine {})

theorem Twin.placeholder {ρ : SymbolId → Nat → Nat → Prop} (h : t.Twin ρ t')
    (hname : name.toUpper = f.toUpper) : (t.placeholder name).Twin ρ (t'.placeholder f) :=
  h.insertAt hname (.routine hname (toUpper_qualify hname _) rfl)

theorem declare_outer {reach : Reach} (hpaths : t.AtTop) (hreach : reach ≠ .innermost)
    (hnone : t.resolve name none none = none) (line : Option Nat) :
    declare reach name .routine line {} t =
    .ok ⟨t.symbols.size⟩ (t.insertAt 0 "" name line 0 (.routine {})) := by
  obtain ⟨names, hscopes⟩ := Lowering.exists_outer hpaths
  have hframe : t.frame reach = 0 := by cases reach <;> simp [frame, hscopes]
  have hpath : scopePath (t.scopes.drop (t.frame reach)) =
    "" := by simp [hframe, hscopes, scopePath]
  rw [declare_new hreach (by simp [hscopes]) hnone, hpath, hframe]

theorem CanCall.twin_placeholder (h : t.CanCall f rnd R) (hnone : t.resolve f none none = none)
    (hms : ∀ m ∈ ms, m.IsPlain f) (hnames : ∀ m ∈ ms, ∀ x ∈ m.name?, IsName x)
    (hcall : ∃ name, .call name ∈ ms) (hheeds : HeedsAll ms t t') :
    t'.Twin
    (Surplus (ms.flatMap (Mention.touched (rnd :: t.dependencies rnd) [⟨t.symbols.size⟩])))
    (t.placeholder f) := by
  induction ms generalizing t with
  | nil => simp at hcall
  | cons m ms ih =>
    obtain ⟨t₁, hm, hheeds⟩ := hheeds
    rw [List.forall_mem_cons] at hms hnames
    cases hm with
    | read | write => exact hms.1.elim
    | @call name _ i t₁ j _ hd hc =>
      obtain ⟨g, t₁', hd', h₁, hg, -⟩ := h.declare hms.1 (hnames.1 name rfl).dotless
      cases hd.symm.trans hd'
      have hnew : Table.declare .outermost name .routine none {} t = .ok _ (t.placeholder name) :=
        declare_outer h.paths (by simp) ((resolve_congr hms.1).trans hnone) none
      cases hd.symm.trans hnew
      -- the call is one of a routine that is there by now
      have hagain : Table.declare .outermost name .routine none {} (t.placeholder name) =
          .ok ⟨t.symbols.size⟩ (t.placeholder name) :=
        (declare_known (by simp) (h₁.live.resolve_outer h₁.paths hg) hg.2.1).trans
          (congrArg _ (modifySymbol_merge hg.2.1))
      have htwin :=
        h₁.twin_of_heedsAll ⟨hg.1, hg.2.1, hg.2.2.trans hms.1⟩ (List.forall_mem_cons.2 hms)
        ⟨_, .call hagain hc, hheeds⟩
      have hrandom : (t.placeholder name).dependencies rnd = t.dependencies rnd := by
        rw [dependencies, placeholder, symbol_insertAt_of_has h.random.1, dependencies]
      have hblank : (t.placeholder name).dependencies ⟨t.symbols.size⟩ = [] := by
        simp [dependencies, placeholder, symbol_insertAt, Symbol.routine?]
      rw [hrandom, hblank] at htwin
      refine htwin.trans ((Twin.refl t).placeholder hms.1) ?_
      rintro id u u' _ hu rfl
      exact hu
    | primitive _ hc =>
      obtain rfl := hms.1
      cases hc.symm.trans (h.live.countUsage_plain h.paths h.random h.alias?_random)
      have hids := has_uses h.live h.random.1
      have hrest :=
        ih (h.use h.random.1) (((edits_useAll hids).resolve ..).trans hnone) hms.2 hnames.2
        (by simpa using hcall) hheeds
      rw [dependencies_useAll hids, (edits_useAll hids).size] at hrest
      refine hrest.trans ((twin_useAll hids).placeholder rfl) fun {id u u' u''} hu hu' => ?_
      rw [Surplus, List.flatMap_cons, List.count_append]
      rw [Surplus] at hu hu'
      simp only [Mention.touched]
      omega

end Table

end TurtleCompiler
