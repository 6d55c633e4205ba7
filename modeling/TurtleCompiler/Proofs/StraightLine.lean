import TurtleCompiler.Proofs.BlockCode
import TurtleCompiler.Proofs.Output

/-!
Sources without branches and loops, which may ask for input.
-/

namespace TurtleCompiler

namespace Machine

variable {σ τ : Type} {m : Machine σ} {m' : Machine τ} {f : σ → τ} {code : List Instr}
  {c c' : Control × σ}

theorem reaches_exec {i : Instr} {s s' : σ} (hi : i.isPlain) (h : m.exec i s = some s')
    (rest : List Instr) : m.Reaches code (.before (i :: rest), s) (.before rest, s') :=
  .single (by rw [step_of_isPlain hi, h]; rfl)

section

variable (horder : ∀ s, m'.order (f s) = m.order s)
  (hexec : ∀ {i s s'}, m.exec i s = some s' → m'.exec i (f s) = some (f s'))

include horder hexec

theorem step_lift (h : m.step code c = some c') :
    m'.step code (c.1, f c.2) = some (c'.1, f c'.2) := by
  obtain ⟨(_ | ⟨i, rest⟩) | l, s⟩ := c
  · simp [step] at h
  · by_cases hi : i.isPlain
    · rw [step_of_isPlain hi, Option.map_eq_some_iff] at h
      obtain ⟨s', hs', rfl⟩ := h
      rw [step_of_isPlain hi, hexec hs']
      rfl
    · cases i with
      | jump j l =>
        obtain rfl := Option.some.inj h
        simp only [step, horder]
      | label l =>
        obtain rfl := Option.some.inj h
        rfl
      | _ => exact absurd rfl hi
  · simp [step] at h

theorem Reaches.lift (h : m.Reaches code c c') : m'.Reaches code (c.1, f c.2) (c'.1, f c'.2) := by
  induction h with
  | refl => exact .refl
  | tail _ hstep ih => exact ih.trans (.single (step_lift horder hexec hstep))

end

end Machine

variable {code : List Instr}

namespace Processor

variable (p : Processor) (input : Nat → Value)

def converse : Instr → Vm × Nat → Option (Vm × Nat)
  | .call name, (s, k) =>
    if name = "READ" then some ({ s with stack := input k :: s.stack }, k + 1) else
    (p.exec (.call name) s).map (·, k)
  | .verbatim line, (s, k) => ((after? "STOR " line).bind fun x => p.exec (.store x) s).map (·, k)
  | i, (s, k) => (p.exec i s).map (·, k)

def terminal : Machine (Vm × Nat) := ⟨p.converse input, fun s => s.1.order⟩

variable {p input}

theorem converse_of_exec {i : Instr} {s s' : Vm} (h : p.exec i s = some s') (k : Nat) :
    p.converse input i (s, k) = some (s', k) := by
  cases i with
  | call name =>
    have hname : name ≠ "READ" := by
      rintro rfl
      simp [exec] at h
    simp [converse, hname, h]
  | verbatim => simp [exec] at h
  | _ => simp only [converse, h, Option.map_some]

theorem reaches_terminal {c c' : Control} {s s' : Vm} (h : p.machine.Reaches code (c, s) (c', s'))
    (k : Nat) : (p.terminal input).Reaches code (c, s, k) (c', s', k) :=
  h.lift (f := fun s => (s, k)) (fun _ => rfl) fun hexec => converse_of_exec hexec k

theorem converse_reread {read : String → Value} (h : p.Reads read (constantsIn code)) :
    ∀ i ∈ code, (p.terminal input).exec (i.reread read) = (p.terminal input).exec i := by
  intro i hi
  have hexec := exec_reread h i hi
  cases i with
  | push v =>
    funext s
    exact congrArg (Option.map (·, s.2)) (congrFun hexec s.1)
  | _ => rfl

end Processor

def Table.isTypein (t : Table) (callee : SymbolId) : Bool :=
  (t.symbol callee).routine?.any (·.hooks = { target := some "READ", after := [storeFirst] })

theorem after?_store (name : String) : after? "STOR " (Instr.store name).text = some name := by
  simp [after?, Instr.text, List.isPrefixOf?]

theorem code_typein {t : Table} {callee : SymbolId} (h : t.isTypein callee) (id : SymbolId)
    (type : DataType) (type' : Option DataType) :
      (Expr.call callee [.output (.var id type)] type').code t =
      [.call "READ", .verbatim (Instr.store (t.symbol id).fullName).text] := by
  simp only [Table.isTypein, Option.any_eq_true, decide_eq_true_eq] at h
  obtain ⟨r, hr, hhooks⟩ := h
  simp [Expr.code_call_some hr, codeOfArgs, Arg.code, callTail, hhooks, render_storeFirst]

theorem reaches_typein {p : Processor} {input : Nat → Value} {t : Table} {callee : SymbolId}
    (h : t.isTypein callee) (id : SymbolId) (type : DataType) (type' : Option DataType) (s : Env)
    (stack : List Value) (o : Ordering) (k : Nat) (rest : List Instr) :
      (p.terminal input).Reaches code
      (.before ((Expr.call callee [.output (.var id type)] type').code t ++ rest),
        ⟨s, stack, o⟩, k)
      (.before rest, ⟨s.assign (t.symbol id).fullName (input k), stack, o⟩, k + 1) := by
  rw [code_typein h]
  have hread : p.converse input (.call "READ") (⟨s, stack, o⟩, k) =
    some (⟨s, input k :: stack, o⟩, k + 1) := rfl
  have hstore :
      p.converse input (.verbatim (Instr.store (t.symbol id).fullName).text)
      (⟨s, input k :: stack, o⟩, k + 1) =
      some (⟨s.assign (t.symbol id).fullName (input k), stack, o⟩, k + 1) := by
    simp [Processor.converse, after?_store, Processor.exec]
  exact (Machine.reaches_exec rfl hread _).trans (Machine.reaches_exec rfl hstore rest)

namespace Source

/-- A statement that is done in one go. Names are in upper case, and some assignments are marked. -/
inductive Move where
  | assign (marked : Bool) (name : String) (op : Option ArithOp) (rhs : Expr)
  | print (args : List Expr)
  | read (name : String)

/-- What a statement does, if it assigns a number, prints, or asks for input. The variables in
`seen` are assigned further up in the text. -/
def Stmt.move? (seen : List String) : Stmt → Option Move
  | .assign name op rhs _ =>
    if rhs.isNumeric then
      some (.assign (name.toUpper ∉ seen && rhs.isConstant) name.toUpper
        (if op = "=" then none else compoundOp? op) rhs)
    else none
  | .print first more _ =>
    if (first :: more).all Expr.isValue && (first :: more).length < 2 ^ 63 then
    some (.print (first :: more)) else none
  | .typein name _ => some (.read name.toUpper)
  | .expr _ | .call .. | .ifThen .. | .ifElse .. | .whileDo .. => none

def moves? (seen : List String) : List Stmt → Option (List Move)
  | [] => some []
  | st :: stmts => do
    let mv ← st.move? seen
    let mvs ← moves? (seen ++ st.assigns) stmts
    return mv :: mvs

/-- What a move does to a memory, and to how much input was taken. An execution may skip the marked
assignments. -/
def Move.perform (p : Processor) (input : Nat → Value) (eliding : Bool) :
    Move → Memory × Nat → Option (Memory × Nat)
  | .assign marked name op rhs, (m, k) =>
    if eliding && marked then some (m, k) else (assigned? p name op rhs m).map (·, k)
  | .print args, (m, k) => (evalAll p args m).map fun (vs, m) => (m.print vs, k)
  | .read name, (m, k) => some (m.assign name (input k), k + 1)

def performAll (p : Processor) (input : Nat → Value) (eliding : Bool) :
    List Move → Memory × Nat → Option (Memory × Nat)
  | [], s => some s
  | mv :: mvs, s => (mv.perform p input eliding s).bind (performAll p input eliding mvs)

variable {p : Processor} {input : Nat → Value} {home : String → String} {t : Table}
  {m : Memory} {s : Env}

namespace Move

inductive Matches (p : Processor) (home : String → String) (t : Table) : Move → Node → Prop
  | elided : rhs.isConstant →
      (op = none → ∃ id v, t.IsAt home x id ∧ t.value? id = some v ∧
      ∀ m, rhs.eval p m = some (p.constant v, m)) →
      Matches p home t (assign true x op rhs) .noOp
  | assign : t.IsAt home x target → rhs.Means p home t e →
      Matches p home t (assign false x op rhs) (.assign op target e)
  | print : t.isPrint callee → args.length < 2 ^ 63 →
      List.Forall₂ (Expr.Means p home t) args es →
      Matches p home t (print args) (.expr (printCall callee es type))
  | read : t.isTypein callee → t.IsAt home x target → t.IsUsed target →
      Matches p home t (read x) (.expr (.call callee [.output (.var target type)] type'))

theorem Matches.reaches {mv : Move} {n : Node} (h : mv.Matches p home t n) (ht : t.Sound)
    (hs : SameAt home t m s) (stack : List Value) (o : Ordering) (k : Nat) (rest : List Instr) :
    ∃ m' k' s' o', mv.perform p input true (m, k) = some (m', k') ∧ SameAt home t m' s' ∧
      (p.terminal input).Reaches code (.before (n.code t ++ rest), ⟨s, stack, o⟩, k)
        (.before rest, ⟨s', stack, o'⟩, k') := by
  cases h with
  | elided => exact ⟨m, k, s, o, rfl, hs, .refl⟩
  | @assign x target op rhs e hid he =>
    obtain ⟨m', ha, hs'⟩ : ∃ m', assigned? p x op rhs m = some m' ∧
        SameAt home t m' (Command.assigned p t op target e s) := assigned?_means he ht hid hs
    obtain ⟨o', hreaches⟩ :=
      @Command.reaches_assigned p t code op target e he.isSimple s stack o rest
    exact ⟨m', k, _, o', by simp [perform, ha], hs', Processor.reaches_terminal hreaches k⟩
  | @print callee args es type hprint hlength hargs =>
    obtain ⟨m', hvs, hs'⟩ := evalAll_means hargs hs
    rw [hargs.length_eq] at hlength
    obtain ⟨o', hreaches⟩ :=
      reaches_print (p := p) hprint (isSimple_means hargs) hlength type s stack o rest
    exact ⟨_, k, _, o', by simp only [perform, hvs, Option.map_some], hs'.print _,
      Processor.reaches_terminal hreaches k⟩
  | @read callee x target type type' htypein hid =>
    exact ⟨_, _, _, o, rfl, hs.assign ht hid fun _ => rfl,
      reaches_typein htypein target type type' s stack o k rest⟩

end Move

variable {mvs : List Move}

theorem reaches_moves {ns : List Node}
    (h : List.Forall₂ (Move.Matches p home t) mvs ns) (ht : t.Sound) (hs : SameAt home t m s)
    (stack : List Value) (o : Ordering) (k : Nat) (rest : List Instr) :
    ∃ m' k' s' o', performAll p input true mvs (m, k) = some (m', k') ∧ SameAt home t m' s' ∧
      (p.terminal input).Reaches code (.before (codeOfNodes t ns ++ rest), ⟨s, stack, o⟩, k)
        (.before rest, ⟨s', stack, o'⟩, k') := by
  induction h generalizing m s o k with
  | nil => exact ⟨m, k, s, o, rfl, hs, .refl⟩
  | @cons mv n mvs ns hmv _ ih =>
    obtain ⟨m₁, k₁, s₁, o₁, hmove, hs₁, hreaches₁⟩ :=
      hmv.reaches ht hs stack o k (codeOfNodes t ns ++ rest)
    obtain ⟨m₂, k₂, s₂, o₂, hmoves, hs₂, hreaches₂⟩ := ih hs₁ o₁ k₁
    refine ⟨m₂, k₂, s₂, o₂, ?_, hs₂, ?_⟩
    · rw [performAll, hmove]
      exact hmoves
    · rw [codeOfNodes, List.append_assoc]
      exact hreaches₁.trans hreaches₂

/-! ### Executions that skip the marked assignments, and executions that do not -/

namespace Move

def reads : Move → List String
  | .assign _ _ _ rhs => rhs.names.map String.toUpper
  | .print args => (args.flatMap Expr.names).map String.toUpper
  | .read _ => []

def target? : Move → Option String
  | .assign _ name _ _ | .read name => some name
  | .print _ => none

def marked? : Move → Option String
  | .assign true name _ _ => some name
  | .assign false .. | .print _ | .read _ => none

def isPlain : Move → Bool
  | .assign true _ op _ => op.isNone
  | .assign false .. | .print _ | .read _ => true

def IsMarked (p : Processor) (known : String → Prop) (init : String → Value) : Move → Prop
  | .assign true name none rhs => ∃ v, (∀ m, rhs.eval p m = some (v, m)) ∧
      (known name → init name = v)
  | _ => True

end Move

def pending (mvs : List Move) : List String := mvs.filterMap Move.marked?

def areFirst : List Move → Bool
  | [] => true
  | mv :: mvs =>
    mv.isPlain && (mv.target?.toList ++ mv.reads).all (· ∉ pending mvs) && areFirst mvs

structure Beside (known : String → Prop) (init : String → Value) (later : List String)
    (m' m : Memory) : Prop where
  drawn : m'.drawn = m.drawn
  printed : m'.printed = m.printed
  value : ∀ {x}, known x → x ∉ later → m'.value x = m.value x
  initial : ∀ {x}, known x → x ∈ later → m'.value x = some (init x)
  isSome : ∀ x, (m.value x).isSome

variable {known : String → Prop} {init : String → Value} {later : List String}
  {m' m₁' : Memory} {name : String}

namespace Beside

theorem draw (h : Beside known init later m' m) : Beside known init later m'.draw m.draw :=
  ⟨by simp [Memory.draw, h.drawn], h.printed, h.value, h.initial, h.isSome⟩

theorem print (h : Beside known init later m' m) (vs : List Value) :
    Beside known init later (m'.print vs) (m.print vs) :=
  ⟨h.drawn, by simp [Memory.print, h.printed], h.value, h.initial, h.isSome⟩

theorem assign (h : Beside known init later m' m) {v v' : Value} (hname : name ∉ later)
    (hv : known name → v' = v) :
    Beside known init later (m'.assign name v') (m.assign name v) where
  drawn := h.drawn
  printed := h.printed
  value {x} hx hlater := by
    simp only [Memory.assign]
    split
    · subst_vars
      rw [hv hx]
    · exact h.value hx hlater
  initial {x} hx hlater := by
    have hne : x ≠ name := by
      rintro rfl
      exact hname hlater
    simpa [Memory.assign, hne] using h.initial hx hlater
  isSome x := by
    simp only [Memory.assign]
    split
    · rfl
    · exact h.isSome x

theorem skip {v : Value} (h : Beside known init (name :: later) m' m)
    (hv : known name → init name = v) : Beside known init later m' (m.assign name v) where
  drawn := h.drawn
  printed := h.printed
  value {x} hx hlater := by
    simp only [Memory.assign]
    split
    · subst_vars
      rw [h.initial hx (by simp), hv hx]
    · exact h.value hx (by simp_all)
  initial hx hlater := h.initial hx (List.mem_cons_of_mem _ hlater)
  isSome x := by
    simp only [Memory.assign]
    split
    · rfl
    · exact h.isSome x

end Beside

theorem mirrors_beside : Mirrors p (Beside known init later)
    (fun x => known x ∧ x ∉ later) False where
  read h hx hv := by rw [← h.value hx.1 hx.2, hv]
  draw _ h := ⟨by rw [h.drawn], h.draw⟩

theorem assigned?_beside {op : Option ArithOp} {rhs : Expr} (h : Beside known init later m' m)
    (hname : name ∉ later) (hnames : ∀ x ∈ rhs.names, known x.toUpper ∧ x.toUpper ∉ later)
    (ha : assigned? p name op rhs m' = some m₁') :
    ∃ m₁, assigned? p name op rhs m = some m₁ ∧ Beside known init later m₁' m₁ := by
  refine mirrors_beside.assigned? h hnames False.elim (fun w' hw' => ?_)
    (fun h hv => h.assign hname fun hk => (hv hk).symm) ha
  obtain ⟨w, hw⟩ := Option.isSome_iff_exists.1 (h.isSome name)
  refine ⟨w, hw, fun hknown => ?_⟩
  simpa [hw', hw, eq_comm] using h.value hknown hname

theorem Move.perform_beside {mv : Move} {k k' : Nat}
    (h : Beside known init (pending (mv :: mvs)) m' m) (hplain : mv.isPlain)
    (hmarked : mv.IsMarked p known init)
    (hfirst : ∀ x ∈ mv.target?.toList ++ mv.reads, x ∉ pending mvs)
    (hreads : ∀ x ∈ mv.reads, known x)
    (hmv : mv.perform p input true (m', k) = some (m₁', k')) :
    ∃ m₁, mv.perform p input false (m, k) = some (m₁, k') ∧
    Beside known init (pending mvs) m₁' m₁ := by
  rw [List.forall_mem_append] at hfirst
  cases mv with
  | assign marked name op rhs =>
    have hname : name ∉ pending mvs := hfirst.1 name (by simp [target?])
    cases marked with
    | true =>
      -- the one that skips has had the constant from the start
      obtain rfl := Option.isNone_iff_eq_none.1 hplain
      obtain ⟨v, hv, hinit⟩ := hmarked
      obtain ⟨rfl, rfl⟩ := Prod.mk.inj (Option.some.inj hmv)
      exact ⟨m.assign name v, by simp [perform, assigned?, hv], h.skip hinit⟩
    | false =>
      simp only [perform, Bool.and_false, Bool.false_eq_true, if_false, Option.map_eq_some_iff,
        Prod.mk.injEq] at hmv
      obtain ⟨_, ha, rfl, rfl⟩ := hmv
      have hnames : ∀ x ∈ rhs.names, known x.toUpper ∧
          x.toUpper ∉ pending mvs := fun x hx =>
        ⟨hreads _ (List.mem_map_of_mem hx), hfirst.2 _ (List.mem_map_of_mem hx)⟩
      have h : Beside known init (pending mvs) m' m := h
      obtain ⟨m₁, ha', h₁⟩ := assigned?_beside h hname hnames ha
      exact ⟨m₁, by simp [perform, ha'], h₁⟩
  | print args =>
    simp only [perform, Option.map_eq_some_iff, Prod.mk.injEq] at hmv
    obtain ⟨⟨vs, m₂'⟩, he, rfl, rfl⟩ := hmv
    have hnames : ∀ x ∈ args.flatMap Expr.names, known x.toUpper ∧
        x.toUpper ∉ pending mvs := fun x hx =>
      ⟨hreads _ (List.mem_map_of_mem hx), hfirst.2 _ (List.mem_map_of_mem hx)⟩
    have h : Beside known init (pending mvs) m' m := h
    obtain ⟨m₂, he', h₂⟩ := mirrors_beside.evalAll h hnames False.elim he
    exact ⟨m₂.print vs, by simp [perform, he'], h₂.print vs⟩
  | read name =>
    obtain ⟨rfl, rfl⟩ := Prod.mk.inj (Option.some.inj hmv)
    have h : Beside known init (pending mvs) m' m := h
    exact ⟨_, rfl, h.assign (hfirst.1 name (by simp [target?])) fun _ => rfl⟩

theorem performAll_beside {k k' : Nat} (h : Beside known init (pending mvs) m' m)
    (hfirst : areFirst mvs) (hmarked : ∀ mv ∈ mvs, mv.IsMarked p known init)
    (hreads : ∀ mv ∈ mvs, ∀ x ∈ mv.reads, known x)
    (hrun : performAll p input true mvs (m', k) = some (m₁', k')) :
    ∃ m₁, performAll p input false mvs (m, k) = some (m₁, k') ∧
    m₁.printed = m₁'.printed := by
  induction mvs generalizing m m' k with
  | nil =>
    obtain ⟨rfl, rfl⟩ := Prod.mk.inj (Option.some.inj hrun)
    exact ⟨m, rfl, h.printed.symm⟩
  | cons mv mvs ih =>
    simp only [areFirst, Bool.and_eq_true, List.all_eq_true, decide_eq_true_eq] at hfirst
    rw [List.forall_mem_cons] at hmarked hreads
    rw [performAll, Option.bind_eq_some_iff] at hrun
    obtain ⟨⟨m₂', k₂⟩, hmv, hrun⟩ := hrun
    obtain ⟨m₂, hmv', h₂⟩ :=
      mv.perform_beside h hfirst.1.1 hmarked.1 hfirst.1.2 hreads.1 hmv
    obtain ⟨m₁, hrun', hprinted⟩ := ih h₂ hfirst.2 hmarked.2 hreads.2 hrun
    refine ⟨m₁, ?_, hprinted⟩
    rw [performAll, hmv']
    exact hrun'

end Source

end TurtleCompiler
