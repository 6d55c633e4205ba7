import TurtleCompiler.Proofs.Bodies
import TurtleCompiler.Proofs.FoldedCode
import TurtleCompiler.Proofs.Primitives

/-!
Arguments and parameters. A call pushes its arguments from the last to the first, and a procedure
begins with storing them from the first to the last. By then all have been computed, so they may
read the parameters that are about to change.
-/

namespace TurtleCompiler

namespace Calculator

variable {c : Calculator} {t : Table} {store : String → Value} {stack vs : List Value}

def step (c : Calculator) : Instr → (String → Value) × List Value →
    Option ((String → Value) × List Value)
  | .store x, (store, v :: stack) => some (fun y => if y = x then v else store y, stack)
  | .call _, s => some s
  | i, (store, stack) => (c.exec store i stack).map (store, ·)

def steps (c : Calculator) (code : List Instr) (s : (String → Value) × List Value) :
    Option ((String → Value) × List Value) :=
  code.foldlM (fun s i => c.step i s) s

theorem steps_append (a b : List Instr) (s : (String → Value) × List Value) :
    c.steps (a ++ b) s = (c.steps a s).bind (c.steps b) := List.foldlM_append

theorem steps_of_run {code : List Instr} {stack' : List Value}
    (h : c.run store code stack = some stack') :
    c.steps code (store, stack) = some (store, stack') := by
  induction code generalizing stack with
  | nil =>
    obtain rfl := Option.some.inj h
    rfl
  | cons i code ih =>
    have hcons : (c.exec store i stack).bind (c.run store code) = some stack' := h
    obtain ⟨stack₁, hi, hrest⟩ := Option.bind_eq_some_iff.1 hcons
    have hstep : c.step i (store, stack) = some (store, stack₁) := by
      cases i with
      | store | call => simp [exec] at hi
      | _ => simp only [step, hi, Option.map_some]
    rw [steps, List.foldlM_cons, hstep]
    exact ih hrest

theorem steps_values {es : List Expr} (hes : ∀ e ∈ es, e.IsArithmetic)
    (h : es.map (·.valueIn c t store) = vs.map some) :
    c.steps (es.flatMap (·.code t)) (store, stack) = some (store, vs.reverse ++ stack) := by
  induction es generalizing vs stack with
  | nil =>
    obtain rfl := List.map_eq_nil_iff.1 h.symm
    rfl
  | cons e es ih =>
    obtain ⟨he, hes⟩ := List.forall_mem_cons.1 hes
    obtain ⟨v, vs, rfl, hv, hvs⟩ := List.map_eq_cons_iff.1 h.symm
    have hrun : c.run store (e.code t) stack = some (v :: stack) := by
      rw [he.run_code, show e.valueIn c t store = some v from hv.symm, Option.map_some]
    rw [List.flatMap_cons, steps_append, steps_of_run hrun, Option.bind_some, ih hes hvs.symm]
    simp

theorem steps_store {params : List String} (hparams : params.Nodup) (h : params.length = vs.length)
    (store : String → Value) :
      ∃ store', c.steps (params.map .store) (store, vs ++ stack) = some (store', stack) ∧
      params.map store' = vs ∧ ∀ x ∉ params, store' x = store x := by
  induction params generalizing vs store with
  | nil =>
    obtain rfl := List.eq_nil_of_length_eq_zero h.symm
    exact ⟨store, rfl, rfl, fun _ _ => rfl⟩
  | cons x params ih =>
    obtain ⟨v, vs, rfl⟩ := List.exists_cons_of_length_eq_add_one h.symm
    obtain ⟨hx, hparams⟩ := List.nodup_cons.1 hparams
    obtain ⟨store', hrun, hvalues, hother⟩ :=
      ih hparams (Nat.succ.inj h) fun y => if y = x then v else store y
    refine ⟨store', hrun, ?_, fun y hy => ?_⟩
    · rw [List.map_cons, hvalues, hother x hx, if_pos rfl]
    · obtain ⟨hne, hy⟩ := not_or.1 (List.mem_cons.not.1 hy)
      rw [hother y hy, if_neg hne]

end Calculator

theorem Expr.IsArithmetic.call_not_mem {e : Expr} (he : e.IsArithmetic) (t : Table) (x : String) :
    .call x ∉ e.code t := by
  induction he with
  | const | var => simp [Expr.code]
  | arithmetic _ _ h ihl ihr =>
    obtain ⟨-, -, value, rfl, -⟩ := Expr.arithmetic_eq_ok h
    simp [Expr.code, ihl, ihr, ArithOp.code]

namespace Lowering

variable {node : Node} {s : Lowering} {t : Table} {args : List Expr} {name : String} {line : Nat}

def Builds (x : LowerM Node) (node : Node) (s : Lowering) (t : Table) : Prop :=
  ∃ (entry : SymbolId) (w : Workspace) (before after : List Action) (s₀ last : Lowering),
    setup {} = .ok entry w ∧ before.forM Action.take { toWorkspace := w, entry } = .ok () s₀ ∧
      x s₀ = .ok node s ∧ after.forM Action.take s = .ok () last ∧ last.table = t

theorem Builds.abides {x : LowerM Node} (h : Builds x node s t) {a : Action}
    (ha : a.take = discard x) : ∃ entry w s₀, setup {} = .ok entry w ∧ x s₀ = .ok node s ∧
    w.table.Abides s.table ∧ s.table.Abides t := by
  obtain ⟨entry, w, before, after, s₀, last, hsetup, hbefore, hx, hafter, rfl⟩ := h
  have hs : Table.Steady w.table := steady_setup hsetup
  have hs₀ := steady_actions (s := { toWorkspace := w, entry }) hs hbefore
  have htake : a.take s₀ = .ok ⟨⟩ s := by
    rw [ha]
    exact discard_eq_ok.2 ⟨node, hx⟩
  refine ⟨entry, w, s₀, hsetup, hx, ?_, abides_actions (a.steady_take hs₀ htake) hafter⟩
  exact (abides_actions (s := { toWorkspace := w, entry }) hs hbefore).trans
    (a.abides_take hs₀ htake)

theorem hooks_of_abides {entry : SymbolId} {w : Workspace} (hsetup : setup {} = .ok entry w)
    (h : w.table.Abides t) (id : SymbolId) : (t.symbol id).guise.2.2.before = [] ∧
      ((t.symbol id).guise.2.1.internal = false → (t.symbol id).guise.2.2.after = []) ∧
      ((t.symbol id).guise.2.1.library = false → (t.symbol id).guise.2.2.target = none) := by
  have hstart : ∀ id, start.table.Has id → (start.table.symbol id).guise.2.2.before = [] ∧
      ((start.table.symbol id).guise.2.1.internal = false →
        (start.table.symbol id).guise.2.2.after = []) ∧
      ((start.table.symbol id).guise.2.1.library = false →
        (start.table.symbol id).guise.2.2.target = none) := by
    decide +kernel
  rw [h.guise, (eq_start hsetup).2]
  by_cases hid : start.table.Has id
  · exact hstart id hid
  · rw [Table.symbol_of_not_has hid]
    exact ⟨rfl, fun _ => rfl, fun _ => rfl⟩

theorem Builds.code_call (h : Builds (call name args line) node s t) {d : Definition} {b : Block}
    (hd : (s.table.resolve name none (some .routine)).bind s.table.resolveAlias = some d.symbol)
    (hb : d.block? t = some b) (hreverse : (t.symbol d.symbol).flags.reverseArgs = false) :
    ∃ target, node.code t = args.reverse.flatMap (·.code t) ++ [.call target] ∧
      ((t.symbol d.symbol).flags.library = false → target = b.name) := by
  obtain ⟨entry, w, s₀, hsetup, hcall, hs, ht⟩ := h.abides (a := .call name args line) rfl
  obtain ⟨-, -, -, t₂, e, -, -, he, rfl, rfl⟩ := call_eq_ok hcall
  obtain ⟨callee, hcallee, rfl⟩ := Expr.callTo_eq_ok.1 he
  obtain rfl : callee = d.symbol := by simpa [hcallee] using hd
  obtain ⟨r, hr, hinternal, -, rfl⟩ := Definition.block?_cases hb
  have hhooks := hooks_of_abides hsetup (hs.trans ht) d.symbol
  rw [Symbol.guise_of_routine? hr] at hhooks
  obtain ⟨hbefore, hafter, htarget⟩ := hhooks
  have hflags : (t.symbol d.symbol).flags = r.flags := by simp [Symbol.flags, Option.mem_def.1 hr]
  rw [hflags] at hreverse ⊢
  refine ⟨r.hooks.target.getD (t.symbol d.symbol).name, ?_,
    fun hlibrary => by rw [htarget hlibrary, Option.getD_none]⟩
  rw [Node.code, Expr.code_call_some hr, codeOfArgs_input, callTail, hbefore, hafter hinternal]
  simp [hreverse, List.flatMap_def]

theorem Builds.code_print (h : Builds (print args) node s t) :
    node.code t = args.flatMap (·.code t) ++
    [.push (.int (Int64.ofNat args.length)), .call "WRITE"] := by
  obtain ⟨entry, w, s₀, hsetup, hprint, hs, ht⟩ := h.abides (a := .print args) rfl
  obtain ⟨j, t₁, e, -, he, rfl, rfl⟩ := print_eq_ok hprint
  obtain ⟨id, ⟨hid, halias⟩, hisPrint⟩ := (equipped_setup hsetup).print
  obtain ⟨r, hr⟩ := Symbol.exists_routine hid.2.1
  have hanchors : t₁.Anchors "PRINT" id := hs.anchors (anchors_setup hsetup hid)
  have hguise : (t₁.symbol id).guise.1 = none := by
    rw [table_setTable] at hs
    rw [hs.guise, Symbol.guise_of_routine? hr]
    simpa [Table.alias?, hr] using halias
  obtain rfl := hanchors.callTo hguise he
  have hisPrint' : t.isPrint id := by rwa [(hs.trans ht).isPrint]
  rw [Node.code]
  exact code_printCall hisPrint' args _

/-- Arguments without calls, for whatever variables and stack. A call of a procedure that does not
take its arguments in reverse, and then the stores that the block of the procedure begins with,
leave each parameter with the value that its argument had before, all other variables and the stack
as they were. A printing statement pushes the values in the order of the arguments, and then how
many they are. -/
theorem arguments_reach_parameters (c : Calculator) (hargs : ∀ e ∈ args, e.IsArithmetic)
    (store : String → Value) (stack : List Value) :
    (∀ (name : String) (line : Nat) (d : Definition) (b : Block),
      Builds (call name args line) node s t →
      (s.table.resolve name none (some .routine)).bind s.table.resolveAlias = some d.symbol →
      d.block? t = some b → (t.symbol d.symbol).flags.reverseArgs = false → b.params.Nodup →
        b.params.length = args.length →
          (∃ pushed target, node.code t = pushed ++ [.call target] ∧
            (∀ x, .call x ∉ pushed) ∧
          ((t.symbol d.symbol).flags.library = false → target = b.name)) ∧
        (∃ rest, b.lines = ["", "DEF " ++ b.name ++ ":"] ++
          (b.params.map Instr.store).map Instr.text ++ rest) ∧
        ∀ vs : List Value, args.map (·.valueIn c t store) = vs.map some →
          ∃ store', c.steps (node.code t ++ b.params.map .store) (store, stack) =
            some (store', stack) ∧ b.params.map store' = vs ∧
            ∀ x ∉ b.params, store' x = store x) ∧
    (Builds (print args) node s t → ∃ pushed, node.code t = pushed ++ [.call "WRITE"] ∧
      ∀ vs : List Value, args.map (·.valueIn c t store) = vs.map some →
        c.steps pushed (store, stack) =
        some (store, .int (Int64.ofNat args.length) :: vs.reverse ++ stack)) ∧
    ((∀ op x y, (c.compute op x y).isSome) →
      ∃ vs : List Value, args.map (·.valueIn c t store) = vs.map some) := by
  refine ⟨fun name line d b h hd hb hreverse hnodup hlength => ?_, fun h => ?_, fun hc => ?_⟩
  · have hargs' : ∀ e ∈ args.reverse, e.IsArithmetic :=
      fun e he => hargs e (List.mem_reverse.1 he)
    obtain ⟨target, hcode, htarget⟩ := h.code_call hd hb hreverse
    refine ⟨⟨_, target, hcode, fun x hx => ?_, htarget⟩,
      ⟨b.code.map Instr.text ++ [b.lastLine], ?_⟩, fun vs hvs => ?_⟩
    · obtain ⟨e, he, hx⟩ := List.mem_flatMap.1 hx
      exact (hargs' e he).call_not_mem t x hx
    · rw [Block.lines, List.map_map, List.append_assoc _ _ [b.lastLine]]
    · have hvs' : args.reverse.map (·.valueIn c t store) = vs.reverse.map some := by
        rw [List.map_reverse, hvs, List.map_reverse]
      have hlength' : b.params.length =
        vs.length := by simpa [hlength] using congrArg List.length hvs
      rw [hcode, Calculator.steps_append, Calculator.steps_append,
        Calculator.steps_values hargs' hvs', List.reverse_reverse]
      exact Calculator.steps_store hnodup hlength' store
  · refine ⟨args.flatMap (·.code t) ++
      [.push (.int (Int64.ofNat args.length))], by simp [h.code_print], fun vs hvs => ?_⟩
    rw [Calculator.steps_append, Calculator.steps_values hargs hvs]
    rfl
  · refine ⟨args.map fun e => (e.valueIn c t store).getD (.int 0), ?_⟩
    rw [List.map_map]
    refine List.map_congr_left fun e he => ?_
    have hsome : (e.valueIn c t store).isSome := (hargs e he).isSome_valueIn hc
    obtain ⟨v, hv⟩ := Option.isSome_iff_exists.1 hsome
    simp [hv]

theorem exists_builds (before after : List Action) (x : LowerM Node)
    (p : Lowering → Table → Prop)
      (h : ∃ r ∈ outcome? setup {},
        ∃ r₀ ∈ outcome? (before.forM Action.take) { toWorkspace := r.2, entry := r.1 },
      ∃ r₁ ∈ outcome? x r₀.2, ∃ r₂ ∈ outcome? (after.forM Action.take) r₁.2,
      p r₁.2 r₂.2.table) :
    ∃ node s t, Builds x node s t ∧ p s t := by
  obtain ⟨⟨entry, w⟩, hsetup, ⟨_, s₀⟩, hbefore, ⟨node, s⟩, hx, ⟨_, last⟩,
    hafter, hp⟩ := h
  exact ⟨node, s, last.table,
    ⟨entry, w, before, after, s₀, last, ok_of_outcome? hsetup, ok_of_outcome? hbefore,
    ok_of_outcome? hx, ok_of_outcome? hafter, rfl⟩, hp⟩

def nextTree : Expr := .arith .add (.var ⟨28⟩ .float) (.const (.int 1)) .float none

theorem arguments_reach_parameters_swapped :
    let args : List Expr := [.var ⟨29⟩ .float, nextTree]
    let store : String → Value :=
    fun x => if x = "@F.X" then .int 3 else if x = "@F.Y" then .int 5 else .int 0
    (∃ node s t b, Builds (call "F" args 2) node s t ∧
      Definition.block? t ⟨⟨27⟩, []⟩ = some b ∧ b.params = ["@F.X", "@F.Y"] ∧
      ∃ store', Calculator.folding.steps (node.code t ++ b.params.map .store) (store, [.int 7]) =
        some (store', [.int 7]) ∧ b.params.map store' = [.int 5, .int 4] ∧
        store' "X" = .int 0) ∧
    ∃ node s t pushed, Builds (print args) node s t ∧
      node.code t = pushed ++ [.call "WRITE"] ∧
      Calculator.folding.steps pushed (store, [.int 7]) =
      some (store, [.int 2, .int 4, .int 5, .int 7]) := by
  intro args store
  have hmake : Expr.arithmetic .add (.var ⟨28⟩ .float) (.const (.int 1)) 2 = .ok nextTree := rfl
  have hnext : nextTree.IsArithmetic := .arithmetic .var (.const rfl) hmake
  have hargs : ∀ e ∈ args, e.IsArithmetic := by
    simp only [args, List.forall_mem_cons]
    exact ⟨.var, hnext, by simp⟩
  have hvalues {t : Table} (hx : (t.symbol ⟨28⟩).fullName = "@F.X")
      (hy : (t.symbol ⟨29⟩).fullName = "@F.Y") :
      args.map (·.valueIn .folding t store) = [.int 5, .int 4].map some := by
    simp only [args, nextTree, List.map_cons, List.map_nil, Expr.valueIn, hx, hy]
    rfl
  obtain ⟨node, s, t, hbuilds, h⟩ :=
    exists_builds [.beginProcedure "F" 1 ["X", "Y"]] [.endProcedure ⟨27⟩ []]
    (call "F" args 2) (fun s t =>
      (s.table.resolve "F" none (some .routine)).bind s.table.resolveAlias == some ⟨27⟩ &&
      (Definition.block? t ⟨⟨27⟩, []⟩).map (·.params) == some ["@F.X", "@F.Y"] &&
      !(t.symbol ⟨27⟩).flags.reverseArgs && (t.symbol ⟨28⟩).fullName == "@F.X" &&
      (t.symbol ⟨29⟩).fullName == "@F.Y") (by decide +kernel)
  simp only [Bool.and_eq_true, beq_iff_eq, Bool.not_eq_true'] at h
  obtain ⟨⟨⟨⟨hcallee, hblock⟩, hreverse⟩, hx⟩, hy⟩ := h
  obtain ⟨node', s', t', hbuilds', hx', hy'⟩ :=
    exists_builds [.beginProcedure "F" 1 ["X", "Y"]] [.endProcedure ⟨27⟩ []]
    (print args) (fun _ t => (t.symbol ⟨28⟩).fullName = "@F.X" ∧
      (t.symbol ⟨29⟩).fullName = "@F.Y") (by decide +kernel)
  obtain ⟨b, hb, hparams⟩ := Option.map_eq_some_iff.1 hblock
  have hcall :=
    (arguments_reach_parameters .folding hargs store [.int 7]).1 "F" 2 ⟨⟨27⟩, []⟩ b hbuilds
    hcallee hb hreverse (by rw [hparams]; decide) (by rw [hparams]; rfl)
  obtain ⟨store', hrun, hstore, hother⟩ := hcall.2.2 _ (hvalues hx hy)
  obtain ⟨pushed, hcode, hprint⟩ :=
    (arguments_reach_parameters .folding hargs store [.int 7]).2.1 hbuilds'
  refine ⟨⟨node, s, t, b, hbuilds, hb, hparams, store', hrun, hstore, ?_⟩, node', s', t',
    pushed, hbuilds', hcode, ?_⟩
  · rw [hother "X" (by rw [hparams]; decide)]
    rfl
  · exact hprint _ (hvalues hx' hy')

end Lowering

end TurtleCompiler
