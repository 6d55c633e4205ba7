import TurtleCompiler.Proofs.Bodies
import TurtleCompiler.Proofs.Primitives
import TurtleCompiler.Proofs.StackEffect

/-!
What the expressions of a lowering do to a stack: the code of one leaves one value, unless it is a
condition.
-/

namespace TurtleCompiler

def Expr.isSorted (t : Table) : Expr → Bool
  | .cond c => c.isSimple t
  | e => e.isSimple t

variable {e : Expr}

theorem Expr.isSimple_of_isSorted {t : Table} (h : e.isSorted t) (htype : e.dataType ≠ .bool) :
    e.isSimple t := by
  cases e with
  | cond c => exact absurd rfl htype
  | _ => exact h

theorem Expr.stack_after_code {σ β : Type} {m : Machine σ} {stack : σ → List β}
    (hm : m.Stacks stack) {t : Table} (he : e.isSorted t) (hlabels : e.labels.Nodup) (s : σ) :
    ∃ s' vs, (m.above stack (stack s).length).Through (e.code t) s s' ∧
      stack s' = vs ++ stack s ∧ e.Leaves m t s vs.length := by
  by_cases hcond : ∃ c, e = .cond c
  · obtain ⟨c, rfl⟩ := hcond
    have hcode : (labelsIn (c.code t {})).Nodup :=
      nodup_labelsIn hlabels (c.count_labelsIn_code t · {})
    have hat : c.code t {} ++ [] <:+ c.code t {} := by simp
    obtain ⟨s', vs, hrun, hs', hvs⟩ := Cond.reaches_above hm hcode he (Nat.le_refl _) hat
    rw [List.append_nil] at hrun
    exact ⟨s', vs, hrun, hs', hvs⟩
  · have hvalue : e.isSimple t ∧ e.Leaves m t s 1 := by
      cases e with
      | cond c => exact absurd ⟨c, rfl⟩ hcond
      | _ => exact ⟨he, rfl⟩
    obtain ⟨s', v, hrun, hs'⟩ := Expr.reaches_above hm (e.code t) hvalue.1 (Nat.le_refl _) []
    rw [List.append_nil] at hrun
    exact ⟨s', [v], hrun, hs', hvalue.2⟩

namespace Table

variable {t t' : Table} {id : SymbolId}

structure Random (t : Table) (id : SymbolId) : Prop where
  anchors : t.Anchors "RANDOM" id
  name : (t.symbol id).name = "RANDOM"
  routine : ∃ r ∈ (t.symbol id).routine?, r.hooks = {} ∧ r.aliasOf = none

namespace Random

variable (h : t.Random id)

include h

theorem isRandom : t.isRandom id := by
  obtain ⟨r, hr, hhooks, -⟩ := h.routine
  simp [Table.isRandom, h.name, Option.mem_def.1 hr, hhooks]

theorem callTo {args : List Arg} (he : Expr.callTo t "RANDOM" args = .ok e) :
    e = .call id args (t.symbol id).type? := by
  obtain ⟨r, hr, -, halias⟩ := h.routine
  exact h.anchors.callTo (by rw [Symbol.guise_of_routine? hr, halias]) he

theorem abides (ha : t.Abides t') : t'.Random id where
  anchors := ha.anchors h.anchors
  name := by rw [ha.name h.anchors.has, h.name]
  routine := by
    obtain ⟨r, hr, hhooks, halias⟩ := h.routine
    obtain ⟨r', hr'⟩ := Symbol.exists_routine (ha.anchors h.anchors).cls
    have hguise := ha.guise id
    rw [Symbol.guise_of_routine? hr, Symbol.guise_of_routine? hr', Prod.mk.injEq,
      Prod.mk.injEq] at hguise
    exact ⟨r', hr', hguise.2.2.trans hhooks, hguise.1.trans halias⟩

end Random

end Table

namespace Lowering

variable {s s' : Lowering} {random : SymbolId}

structure Draws (s : Lowering) (random : SymbolId) : Prop where
  steady : s.table.Steady
  random : s.table.Random random

theorem Draws.take {a : Action} {u : Unit} (hs : s.Draws random) (h : a.take s = .ok u s') :
    s'.Draws random :=
  ⟨a.steady_take hs.steady h, hs.random.abides (a.abides_take hs.steady h)⟩

theorem Draws.noted (hs : s.Draws random) (notes : List Event) :
    (s.noted notes).Draws random := ⟨hs.steady, hs.random⟩

theorem Draws.actions {actions : List Action} {u : Unit} (hs : s.Draws random)
    (h : actions.forM Action.take s = .ok u s') : s'.Draws random :=
  ⟨steady_actions hs.steady h, hs.random.abides (abides_actions hs.steady h)⟩

theorem draws_setup {entry : SymbolId} {w : Workspace} (h : setup {} = .ok entry w) :
    ∃ random, ({ toWorkspace := w, entry } : Lowering).Draws random := by
  obtain ⟨id, ⟨hid, halias⟩, hrandom⟩ := (equipped_setup h).random
  simp only [Table.isRandom, Bool.and_eq_true, Option.any_eq_true, decide_eq_true_eq] at hrandom
  obtain ⟨hname, r, hr, hhooks⟩ := hrandom
  exact ⟨id, steady_setup h, anchors_setup h hid, hname, r, hr,
    hhooks, by simpa [Table.alias?, hr] using halias⟩

end Lowering

namespace Source

variable {s s' : Lowering} {random : SymbolId}

theorem Expr.Becomes.isSorted {e' : TurtleCompiler.Expr} (h : e.Becomes s e' s')
    (hs : s.Draws random) : s'.Draws random ∧
    ∀ t : Table, t.isRandom random → e'.isSorted t := by
  induction h with
  | number => exact ⟨hs.noted _, fun _ _ => rfl⟩
  | string | boolean => exact ⟨hs, fun _ _ => rfl⟩
  | @var name _ _ spot _ h =>
    obtain ⟨id, t₁, j, t₂, -, -, rfl, -⟩ := Lowering.reference_eq_ok h
    exact ⟨(hs.noted _).take (a := .reference name spot.line) (u := ⟨⟩)
      (discard_eq_ok.2 ⟨_, h⟩), fun _ _ => rfl⟩
  | @random _ _ s' h =>
    have hs' : s'.Draws random := hs.take (a := .random) (u := ⟨⟩) (discard_eq_ok.2 ⟨_, h⟩)
    obtain ⟨j, t, -, hcall, rfl⟩ := Lowering.random_eq_ok h
    -- the call is one of the primitive itself, which no alias or later declaration has replaced
    obtain rfl := hs'.random.callTo hcall
    exact ⟨hs',
      fun t ht => by simpa [TurtleCompiler.Expr.isSorted, TurtleCompiler.Expr.isSimple] using ht⟩
  | plus _ _ ih | not _ ih => exact ⟨(ih hs).1.noted _, (ih hs).2⟩
  | minus _ harith ih =>
    obtain ⟨-, htype, value, rfl, -⟩ := Expr.arithmetic_eq_ok harith
    obtain ⟨hs₁, hsorted⟩ := ih hs
    refine ⟨hs₁.noted _, fun t ht => ?_⟩
    have hsimple := Expr.isSimple_of_isSorted (hsorted t ht) (ne_bool_of_isNumeric htype)
    simp [TurtleCompiler.Expr.isSorted, TurtleCompiler.Expr.isSimple, hsimple]
  | arith _ _ _ harith ihl ihr =>
    obtain ⟨htypel, htyper, value, rfl, -⟩ := Expr.arithmetic_eq_ok harith
    obtain ⟨hs₁, hsortedl⟩ := ihl hs
    obtain ⟨hs₂, hsortedr⟩ := ihr hs₁
    refine ⟨hs₂.noted _, fun t ht => ?_⟩
    have hsimplel := Expr.isSimple_of_isSorted (hsortedl t ht) (ne_bool_of_isNumeric htypel)
    have hsimpler := Expr.isSimple_of_isSorted (hsortedr t ht) (ne_bool_of_isNumeric htyper)
    simp [TurtleCompiler.Expr.isSorted, TurtleCompiler.Expr.isSimple, hsimplel, hsimpler]
  | compare _ _ h ihl ihr =>
    obtain ⟨-, ⟨htypel, htyper⟩, -⟩ := Lowering.comparison_eq_ok h
    obtain ⟨hs₁, hsortedl⟩ := ihl hs
    obtain ⟨hs₂, hsortedr⟩ := ihr hs₁
    refine ⟨hs₂.noted _, fun t ht => ?_⟩
    have hsimplel := Expr.isSimple_of_isSorted (hsortedl t ht) htypel
    have hsimpler := Expr.isSimple_of_isSorted (hsortedr t ht) htyper
    simp [TurtleCompiler.Expr.isSorted, Cond.isSimple, hsimplel, hsimpler]
  | @logic _ _ c s₁ _ c' s₂ op _ spot _ _ h ihl ihr =>
    obtain ⟨hs₁, hl⟩ := ihl hs
    obtain ⟨hs₂, hr⟩ := ihr hs₁
    refine ⟨(hs₂.noted spot.notes).take (a := .combination op _ _ spot.line) (u := ⟨⟩)
      (discard_eq_ok.2 ⟨_, h⟩), fun t ht => ?_⟩
    have hl' : c.isSimple t := hl t ht
    have hr' : c'.isSimple t := hr t ht
    simp [TurtleCompiler.Expr.isSorted, Cond.isSimple, hl', hr']

end Source

namespace Lowering

def building (before : List Action) (e : Source.Expr) (after : List Action) : LowerM Expr := do
  before.forM Action.take
  let e' ← e.lower
  after.forM Action.take
  return e'

theorem isSorted_building {before after : List Action} {e : Source.Expr} {e' : Expr} {w : Workspace}
    (h : within (building before e after) {} = .ok e' w) :
    e'.isSorted w.table ∧ e'.labels.Nodup := by
  obtain ⟨entry, w₀, s, hsetup, hrun, rfl⟩ := within_eq_ok h
  simp only [building, bind_eq_ok, pure_eq_ok] at hrun
  obtain ⟨_, s₁, hbefore, _, s₂, hlower, _, s₃, hafter, rfl, rfl⟩ := hrun
  obtain ⟨random, hdraws⟩ := draws_setup hsetup
  obtain ⟨hdraws₂, hsorted⟩ := (Source.Expr.becomes hlower).isSorted (hdraws.actions hbefore)
  exact ⟨hsorted _ (hdraws₂.actions hafter).random.isRandom,
    (Source.Expr.becomes hlower).fresh.nodup⟩

/-- The code of an expression, in whatever state it is lowered and whatever is done after that,
takes nothing that was on the stack before it. What it leaves there is one value, unless it is a
condition: then it leaves one if its evaluation comes to a literal in the last place, and otherwise
nothing. -/
theorem stack_after_expression {before after : List Action} {e : Source.Expr} {e' : Expr}
    {w : Workspace} (h : within (building before e after) {} = .ok e' w) {σ β : Type}
    {m : Machine σ} {stack : σ → List β} (hm : m.Stacks stack) (s : σ) :
    ∃ s' vs, m.Through (e'.code w.table) s s' ∧
      (m.above stack (stack s).length).Through (e'.code w.table) s s' ∧
      stack s' = vs ++ stack s ∧ ∀ n, e'.Leaves m w.table s n ↔ n = vs.length := by
  obtain ⟨hsorted, hlabels⟩ := isSorted_building h
  obtain ⟨s', vs, hrun, hs', hleaves⟩ := Expr.stack_after_code hm hsorted hlabels s
  refine ⟨s', vs, Machine.Reaches.of_above hrun, hrun, hs',
    fun n => ⟨fun hn => hn.unique hleaves, ?_⟩⟩
  rintro rfl
  exact hleaves

end Lowering

theorem Processor.operate_of_ne (p : Processor) {op : Operation} (hpop : op ≠ .pop)
    (hsub : op ≠ .sub) {s : Vm} {x y : Value} {rest : List Value}
    (hs : s.stack = y :: x :: rest) :
    p.operate op s = some { s with stack := p.results x y op ++ rest } := by
  cases op <;> simp_all [operate]

theorem Processor.stacks (p : Processor) : p.machine.Stacks Vm.stack where
  exec {i takes leaves} hi {s taken rest} hs htaken := by
    have hpush {v : Value} {s' : Vm} (h : p.exec i s = some s') (hs' : s'.stack = v :: s.stack)
        (heffect : takes = 0 ∧ leaves = 1) :
        ∃ s' left, p.machine.exec i s = some s' ∧ s'.stack = left ++ rest ∧
        left.length = leaves := by
      obtain ⟨rfl, rfl⟩ := heffect
      obtain rfl := List.length_eq_zero_iff.1 htaken
      exact ⟨s', [v], h, by rw [hs', hs]; rfl, rfl⟩
    cases i with
    | push v => exact hpush rfl rfl (by simpa [Instr.effect?, eq_comm] using hi)
    | load name => exact hpush rfl rfl (by simpa [Instr.effect?, eq_comm] using hi)
    | compareZero =>
      cases hi
      obtain ⟨v, rfl⟩ := List.length_eq_one_iff.1 htaken
      exact ⟨{ s with order := p.compare v (.int 0) },
        [v], by simp [Processor.exec, hs], hs, rfl⟩
    | call name =>
      simp only [Instr.effect?] at hi
      split at hi
      · subst_vars
        exact hpush rfl rfl (by simpa [eq_comm] using hi)
      · cases hi
    | operate op =>
      cases op with
      | pop =>
        cases hi
        obtain ⟨v, rfl⟩ := List.length_eq_one_iff.1 htaken
        exact ⟨{ s with stack := rest },
          [], by simp [Processor.exec, Processor.operate, hs], rfl, rfl⟩
      | sub =>
        cases hi
        obtain ⟨y, x, rfl⟩ := List.length_eq_two.1 htaken
        exact ⟨{ s with stack := p.compute .sub x y :: rest, order := p.compare x y },
          [p.compute .sub x y], by simp [Processor.exec, Processor.operate, hs], rfl, rfl⟩
      | add | mul | div | idiv | pow =>
        cases hi
        obtain ⟨y, x, rfl⟩ := List.length_eq_two.1 htaken
        exact ⟨_, _, p.operate_of_ne (by decide) (by decide) hs, rfl, rfl⟩
    | store | jump | label | verbatim => cases hi

namespace Lowering

def mixedCondition : Source.Expr :=
  .logic "OR"
    (.logic "AND" (.compare "<" .random (.number "5" ⟨2, []⟩) ⟨2, []⟩)
      (.not (.compare "==" (.var "X" ⟨2, []⟩) (.number "2" ⟨2, []⟩) ⟨2, []⟩)
        ⟨2, []⟩) ⟨2, []⟩)
    (.boolean "TRUE") ⟨2, []⟩

def twos : Vm := ⟨⟨fun _ => .int 2, 0, []⟩, [.int 7], .eq⟩

theorem stack_after_expression_mixed : ∃ e' w,
    within
      (building [.beginProcedure "F" 1 ["X"]] mixedCondition [.endProcedure ⟨26⟩ [], .finish])
      {} = .ok e' w ∧ ∃ s' vs, Processor.folding.machine.Through (e'.code w.table) twos s' ∧
        (Processor.folding.machine.above Vm.stack 1).Through (e'.code w.table) twos s' ∧
        s'.stack = vs ++ [.int 7] ∧ ∀ n, e'.Leaves Processor.folding.machine w.table twos n ↔
        n = vs.length := by
  obtain ⟨e', w, h, -⟩ := exists_outcome
    (within
      (building [.beginProcedure "F" 1 ["X"]] mixedCondition [.endProcedure ⟨26⟩ [], .finish]))
      {} (fun _ _ => True)
    (by decide +kernel)
  exact ⟨e', w, h, stack_after_expression h (Processor.stacks _) twos⟩

/-- A comparison that is printed leaves nothing to print, whatever the machine. -/
theorem printed_comparison_leaves_nothing :
    let comparison : Expr := .cond (.compare .less (.const (.int 1)) (.const (.int 2)))
    ∃ w,
        within
        (building [] (.compare "<" (.number "1" ⟨1, []⟩) (.number "2" ⟨1, []⟩) ⟨1, []⟩)
          [.print [comparison]]) {} =
        .ok comparison w ∧
      ∀ (σ β : Type) (m : Machine σ) (stack : σ → List β), m.Stacks stack →
        ∀ s, ∃ s', m.Through (comparison.code w.table) s s' ∧ stack s' = stack s := by
  intro comparison
  obtain ⟨e', w, h, -⟩ := exists_outcome
    (within
      (building [] (.compare "<" (.number "1" ⟨1, []⟩) (.number "2" ⟨1, []⟩) ⟨1, []⟩)
        [.print [comparison]])) {}
    (fun _ _ => True) (by decide +kernel)
  have he' : e' = comparison := by
    obtain ⟨entry, w₀, s, hsetup, hrun, rfl⟩ := within_eq_ok h
    simp only [building, Source.Expr.lower, bind_eq_ok, pure_eq_ok] at hrun
    obtain ⟨_, s₁, -, _, s₂,
      ⟨l, s₃, ⟨_, _, -, hl⟩, r, s₄, ⟨_, _, -, hr⟩, _, _, -, hcompare⟩, _, _, -,
      rfl, -⟩ := hrun
    obtain ⟨-, v, rfl, hv⟩ := number_eq_ok hl
    obtain ⟨-, v', rfl, hv'⟩ := number_eq_ok hr
    obtain ⟨-, -, op, hop, rfl⟩ := comparison_eq_ok hcompare
    cases hv
    cases hv'
    cases hop
    rfl
  subst he'
  refine ⟨w, h, fun σ β m stack hm s => ?_⟩
  obtain ⟨hsorted, hlabels⟩ := isSorted_building h
  obtain ⟨s', vs, hrun, hs', hleaves⟩ := Expr.stack_after_code hm hsorted hlabels s
  obtain rfl := List.length_eq_zero_iff.1 (Cond.Leaves.unique hleaves .compare)
  exact ⟨s', Machine.Reaches.of_above hrun, hs'⟩

end Lowering

end TurtleCompiler
