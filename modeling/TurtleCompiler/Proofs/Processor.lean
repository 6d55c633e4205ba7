import TurtleCompiler.Proofs.JumpCode

/-!
A stack machine with variables, and what expressions and conditions mean to it. A comparison is a
subtraction whose result is dropped.
-/

namespace TurtleCompiler

/-- What a machine computes. Arithmetic agrees with that on constants, as far as that has a result.
-/
structure Processor where
  compute : ArithOp → Value → Value → Value
  quotient : Value → Value → Value
  compare : Value → Value → Ordering
  random : Nat → Value
  truth : Bool → Value
  compute_of_fold : ∀ {line op x y v}, fold line op x y = .ok v → compute op x y = v

variable {line line' : Nat} {t : Table} {callee : SymbolId} {p : Processor} {code : List Instr}
  {args : List Expr}

theorem checked_line {x : Int} {v : Value} (h : checked line x = .ok v) :
    checked line' x = .ok v := by
  unfold checked at *
  split at h <;> simp_all

theorem finite_line {x : Float} {v : Value} (h : finite line x = .ok v) :
    finite line' x = .ok v := by
  unfold finite at *
  split at h <;> simp_all

theorem fold_line {op : ArithOp} {x y v : Value} (h : fold line op x y = .ok v) (line' : Nat) :
    fold line' op x y = .ok v := by
  unfold fold at *
  split at h
  · cases op <;> simp only [foldInt, foldPower] at * <;> repeat' split at h
    all_goals grind [checked_line]
  · split at h
    · cases op <;> simp only [foldFloat] at * <;> repeat' split at h
      all_goals grind [finite_line]
    · simp at h

def Processor.folding : Processor where
  compute op x y := (fold 0 op x y).toOption.getD (.int 0)
  quotient _ _ := .int 0
  compare
    | .int x, .int y => compareOfLessAndEq x y
    | _, _ => .eq
  random n := .int (Int64.ofNat n)
  truth b := .int (if b then 0 else 1)
  compute_of_fold h := by simp [fold_line h 0, Except.toOption]

/-- What a program works on: its variables, the random numbers it has had, and what it has printed.
-/
structure Env where
  store : String → Value
  drawn : Nat
  printed : List Value

def Env.assign (s : Env) (name : String) (v : Value) : Env :=
  { s with store := fun x => if x = name then v else s.store x }

def Env.draw (s : Env) : Env := { s with drawn := s.drawn + 1 }

def Env.print (s : Env) (vs : List Value) : Env := { s with printed := s.printed ++ vs }

structure Vm where
  env : Env
  stack : List Value
  order : Ordering

namespace Processor

variable (p : Processor)

def constant : Value → Value
  | .bool b => p.truth b
  | v => v

theorem constant_eq {v : Value} (h : v.dataType ≠ .bool) : p.constant v = v := by
  cases v with
  | bool => exact absurd rfl h
  | _ => rfl

def results (x y : Value) : Operation → List Value
  | .add => [p.compute .add x y]
  | .sub => [p.compute .sub x y]
  | .mul => [p.compute .mul x y]
  | .div => [p.compute .div x y]
  | .idiv => [p.quotient x y, p.compute .mod x y]
  | .pow => [p.compute .pow x y]
  | .pop => [x]

def operate (op : Operation) (s : Vm) : Option Vm :=
  match op, s.stack with
  | .pop, _ :: stack => some { s with stack }
  | .sub, y :: x :: stack =>
    some { s with stack := p.compute .sub x y :: stack, order := p.compare x y }
  | op, y :: x :: stack => some { s with stack := p.results x y op ++ stack }
  | _, _ => none

def write (s : Vm) : Option Vm :=
  match s.stack with
  | .int n :: stack =>
    let count := n.toInt.toNat
    if count ≤ stack.length then
      some { s with stack := stack.drop count, env := s.env.print (stack.take count).reverse }
    else none
  | _ => none

def exec : Instr → Vm → Option Vm
  | .push v, s => some { s with stack := p.constant v :: s.stack }
  | .load x, s => some { s with stack := s.env.store x :: s.stack }
  | .store x, s =>
    match s.stack with
    | v :: stack => some { s with stack, env := s.env.assign x v }
    | [] => none
  | .operate op, s => p.operate op s
  | .compareZero, s =>
    match s.stack with
    | v :: _ => some { s with order := p.compare v (.int 0) }
    | [] => none
  | .call name, s =>
    if name = "WRITE" then write s
    else if name = "RANDOM" then
    some { s with stack := p.random s.env.drawn :: s.stack, env := s.env.draw } else none
  | .verbatim _, _ | .jump .., _ | .label _, _ => none

def machine : Machine Vm := ⟨p.exec, Vm.order⟩

@[simp] theorem machine_exec (i : Instr) (s : Vm) : p.machine.exec i s = p.exec i s := rfl

@[simp] theorem machine_order (s : Vm) : p.machine.order s = s.order := rfl

end Processor

mutual

def Expr.eval (p : Processor) (t : Table) : Expr → Env → Value × Env
  | .const v, s => (p.constant v, s)
  | .var symbol _, s => (s.store (t.symbol symbol).fullName, s)
  | .arith op l r _ _, s =>
    let (x, s) := l.eval p t s
    let (y, s) := r.eval p t s
    (p.compute op x y, s)
  | .call .., s => (p.random s.drawn, s.draw)
  | .cond c, s =>
    let (b, s) := c.eval p t s
    (p.truth b, s)

def Cond.eval (p : Processor) (t : Table) : Cond → Env → Bool × Env
  | .literal b, s => (b, s)
  | .compare op l r, s =>
    let (x, s) := l.eval p t s
    let (y, s) := r.eval p t s
    (op.holds (p.compare x y), s)
  | .not c, s =>
    let (b, s) := c.eval p t s
    (!b, s)
  | .logic op l r _, s =>
    let (b, s) := l.eval p t s
    if op.decidedBy b then (b, s) else r.eval p t s

end

def Table.isRandom (t : Table) (callee : SymbolId) : Bool :=
  (t.symbol callee).name = "RANDOM" && (t.symbol callee).routine?.any (·.hooks = {})

def Expr.isSimple (t : Table) : Expr → Bool
  | .const _ | .var .. | .cond (.literal _) => true
  | .arith _ l r _ _ => l.isSimple t && r.isSimple t
  | .call callee args _ => args.isEmpty && t.isRandom callee
  | .cond _ => false

def Cond.isSimple (t : Table) : Cond → Bool
  | .literal _ => true
  | .compare _ l r => l.isSimple t && r.isSimple t
  | .not c => c.isSimple t
  | .logic _ l r _ => l.isSimple t && r.isSimple t

@[elab_as_elim]
theorem Expr.induction {motive : Expr → Prop} (const : ∀ v, motive (.const v))
    (var : ∀ symbol type, motive (.var symbol type))
    (arith : ∀ op l r type value, motive l → motive r → motive (.arith op l r type value))
    (call : ∀ callee args type, motive (.call callee args type))
    (cond : ∀ c, motive (.cond c)) (e : Expr) : motive e := by
  cases e with
  | const v => exact const v
  | var symbol type => exact var symbol type
  | arith op l r type value =>
    exact arith op l r type value (l.induction const var arith call cond)
      (r.induction const var arith call cond)
  | call callee args type => exact call callee args type
  | cond c => exact cond c

theorem Expr.code_call_random (h : t.isRandom callee) (type : Option DataType) :
    (Expr.call callee [] type).code t = [.call "RANDOM"] := by
  simp only [Table.isRandom, Bool.and_eq_true, decide_eq_true_eq, Option.any_eq_true] at h
  obtain ⟨hname, r, hr, hhooks⟩ := h
  simp [Expr.code_call_some hr, codeOfArgs, callTail, hhooks, hname]

theorem Expr.labels_eq_nil {e : Expr} (h : e.isSimple t) : e.labels = [] := by
  induction e using Expr.induction with
  | const | var => rfl
  | arith op l r type value ihl ihr =>
    simp only [Expr.isSimple, Bool.and_eq_true] at h
    simp [Expr.labels, ihl h.1, ihr h.2]
  | call callee args type =>
    simp only [Expr.isSimple, Bool.and_eq_true, List.isEmpty_iff] at h
    simp [Expr.labels, h.1, labelsOfArgs]
  | cond c => cases c <;> simp_all [Expr.isSimple, Expr.labels, Cond.labels]

namespace Processor

variable {p : Processor} {code : List Instr}

theorem reaches_exec {i : Instr} {s s' : Vm} (hi : i.isPlain) (h : p.exec i s = some s')
    (rest : List Instr) : p.machine.Reaches code (.before (i :: rest), s) (.before rest, s') :=
  .single (by simp [Machine.step_of_isPlain hi, h])

theorem reaches_arith (op : ArithOp) (x y : Value) (s : Env) (stack : List Value) (o : Ordering)
    (rest : List Instr) :
    ∃ o', p.machine.Reaches code (.before (op.code ++ rest), ⟨s, y :: x :: stack, o⟩)
      (.before rest, ⟨s, p.compute op x y :: stack, o'⟩) := by
  cases op with
  | sub => exact ⟨p.compare x y, reaches_exec rfl rfl rest⟩
  | mod => exact ⟨o, (reaches_exec rfl rfl _).trans (reaches_exec rfl rfl rest)⟩
  | add | mul | div | pow => exact ⟨o, reaches_exec rfl rfl rest⟩

end Processor

theorem Expr.reaches_value {e : Expr} (h : e.isSimple t) (s : Env) (stack : List Value)
    (o : Ordering) (rest : List Instr) :
    ∃ o', p.machine.Reaches code (.before (e.code t ++ rest), ⟨s, stack, o⟩)
      (.before rest, ⟨(e.eval p t s).2, (e.eval p t s).1 :: stack, o'⟩) := by
  induction e using Expr.induction generalizing s stack o rest with
  | const v => exact ⟨o, Processor.reaches_exec rfl rfl rest⟩
  | var symbol type => exact ⟨o, Processor.reaches_exec rfl rfl rest⟩
  | arith op l r type value ihl ihr =>
    simp only [Expr.isSimple, Bool.and_eq_true] at h
    simp only [Expr.code, List.append_assoc]
    obtain ⟨o₁, hl⟩ := ihl h.1 s stack o (r.code t ++ (op.code ++ rest))
    obtain ⟨o₂, hr⟩ :=
      ihr h.2 (l.eval p t s).2 ((l.eval p t s).1 :: stack) o₁ (op.code ++ rest)
    obtain ⟨o₃, hop⟩ := Processor.reaches_arith (p := p) op (l.eval p t s).1
      (r.eval p t (l.eval p t s).2).1 (r.eval p t (l.eval p t s).2).2 stack o₂ rest
    exact ⟨o₃, hl.trans (hr.trans hop)⟩
  | call callee args type =>
    simp only [Expr.isSimple, Bool.and_eq_true, List.isEmpty_iff] at h
    obtain ⟨rfl, hrandom⟩ := h
    rw [Expr.code_call_random hrandom]
    exact ⟨o, Processor.reaches_exec rfl rfl rest⟩
  | cond c =>
    cases c with
    | literal b =>
      -- the comparison with zero leaves what it compares
      have hpush :
          p.machine.Reaches code
          (.before ((Expr.cond (.literal b)).code t ++ rest), ⟨s, stack, o⟩)
          (.before (.compareZero :: rest), ⟨s, p.truth b :: stack, o⟩) :=
          Processor.reaches_exec rfl rfl _
      exact ⟨_, hpush.trans (Processor.reaches_exec rfl rfl rest)⟩
    | _ => simp [Expr.isSimple] at h

def evalAll (p : Processor) (t : Table) : List Expr → Env → List Value × Env
  | [], s => ([], s)
  | e :: es, s =>
    let (v, s) := e.eval p t s
    let (vs, s) := evalAll p t es s
    (v :: vs, s)

theorem length_evalAll (p : Processor) (t : Table) (es : List Expr) (s : Env) :
    (evalAll p t es s).1.length = es.length := by
  induction es generalizing s with
  | nil => rfl
  | cons e es ih => simp [evalAll, ih]

theorem reaches_values {es : List Expr} (h : ∀ e ∈ es, e.isSimple t) (s : Env)
    (stack : List Value) (o : Ordering) (rest : List Instr) :
    ∃ o', p.machine.Reaches code (.before (es.flatMap (·.code t) ++ rest), ⟨s, stack, o⟩)
      (.before rest, ⟨(evalAll p t es s).2, (evalAll p t es s).1.reverse ++ stack, o'⟩) := by
  induction es generalizing s stack o with
  | nil => exact ⟨o, .refl⟩
  | cons e es ih =>
    simp only [List.mem_cons, forall_eq_or_imp] at h
    obtain ⟨o₁, he⟩ := Expr.reaches_value (p := p) h.1 s stack o
      (es.flatMap (·.code t) ++ rest)
    obtain ⟨o₂, hes⟩ := ih h.2 (e.eval p t s).2 ((e.eval p t s).1 :: stack) o₁
    refine ⟨o₂, ?_⟩
    simpa [evalAll] using he.trans hes

def printCall (callee : SymbolId) (args : List Expr) (type : Option DataType) : Expr :=
  .call callee ((.const (.int (Int64.ofNat args.length)) :: args.reverse).map .input) type

def Table.isPrint (t : Table) (callee : SymbolId) : Bool :=
  (t.symbol callee).routine?.any fun r => r.flags.reverseArgs && r.hooks =
  { target := some "WRITE" }

theorem codeOfArgs_input (t : Table) (es : List Expr) :
    codeOfArgs t (es.map .input) = es.map (·.code t) := by
  induction es with
  | nil => simp [codeOfArgs]
  | cons e es ih => simp [codeOfArgs, Arg.code, ih]

theorem code_printCall (h : t.isPrint callee) (args : List Expr) (type : Option DataType) :
    (printCall callee args type).code t =
      args.flatMap (·.code t) ++ [.push (.int (Int64.ofNat args.length)), .call "WRITE"] := by
  simp only [Table.isPrint, Option.any_eq_true, Bool.and_eq_true, decide_eq_true_eq] at h
  obtain ⟨r, hr, hreverse, hhooks⟩ := h
  rw [printCall, Expr.code_call_some hr, codeOfArgs_input]
  simp [hreverse, callTail, hhooks, Expr.code, List.flatMap_def]

theorem labels_printCall (h : ∀ e ∈ args, e.isSimple t) (callee : SymbolId)
    (type : Option DataType) : (printCall callee args type).labels = [] := by
  have hargs {es : List Expr} (hes : ∀ e ∈ es, e.isSimple t) :
      labelsOfArgs (es.map .input) = [] := by
    induction es with
    | nil => rfl
    | cons e es ih =>
      simp only [List.mem_cons, forall_eq_or_imp] at hes
      simp [labelsOfArgs, Arg.labels, Expr.labels_eq_nil hes.1, ih hes.2]
  have hall :
      ∀ e ∈ Expr.const (.int (Int64.ofNat args.length)) :: args.reverse, e.isSimple t := by
    simpa [Expr.isSimple] using h
  exact hargs hall

theorem reaches_print (hprint : t.isPrint callee) (h : ∀ e ∈ args, e.isSimple t)
    (hlength : args.length < 2 ^ 63) (type : Option DataType) (s : Env) (stack : List Value)
    (o : Ordering) (rest : List Instr) :
    ∃ o', p.machine.Reaches code
      (.before ((printCall callee args type).code t ++ rest), ⟨s, stack, o⟩)
      (.before rest, ⟨(evalAll p t args s).2.print (evalAll p t args s).1, stack, o'⟩) := by
  rw [code_printCall hprint, List.append_assoc]
  obtain ⟨o', hargs⟩ := reaches_values (p := p) h s stack o
    ([.push (.int (Int64.ofNat args.length)), .call "WRITE"] ++ rest)
  refine ⟨o',
    hargs.trans ((Processor.reaches_exec rfl rfl _).trans (Processor.reaches_exec rfl ?_ rest))⟩
  have hcount : (Int64.ofNat args.length).toInt.toNat = (evalAll p t args s).1.length := by
    rw [Int64.toInt_ofNat_of_lt hlength, length_evalAll]
    rfl
  simp only [Processor.exec, Processor.write, Processor.constant, if_true, hcount]
  simp

theorem Expr.through_comparisonCode {l r : Expr} (hl : l.isSimple t) (hr : r.isSimple t) (s : Env)
    (stack : List Value) (o : Ordering) :
    p.machine.Through (comparisonCode t l r) ⟨s, stack, o⟩
      ⟨(r.eval p t (l.eval p t s).2).2, stack,
        p.compare (l.eval p t s).1 (r.eval p t (l.eval p t s).2).1⟩ := by
  simp only [Machine.Through, comparisonCode, List.append_assoc]
  obtain ⟨o₁, hl⟩ := reaches_value hl s stack o (r.code t ++ [.operate .sub, .operate .pop])
  obtain ⟨o₂, hr⟩ :=
    reaches_value hr (l.eval p t s).2 ((l.eval p t s).1 :: stack) o₁
    [.operate .sub, .operate .pop]
  exact hl.trans
    (hr.trans ((Processor.reaches_exec rfl rfl _).trans (Processor.reaches_exec rfl rfl [])))

theorem Cond.exists_evaluates_eval {c : Cond} (h : c.isSimple t) (s : Env) (stack : List Value)
    (o : Ordering) : ∃ vs o', c.Evaluates p.machine t ⟨s, stack, o⟩ vs
    (c.eval p t s).1 ⟨(c.eval p t s).2, stack, o'⟩ := by
  induction c using Cond.induction generalizing s o with
  | literal b => exact ⟨[], o, .literal⟩
  | compare op l r =>
    simp only [Cond.isSimple, Bool.and_eq_true] at h
    exact ⟨_, _, .compare (Expr.through_comparisonCode h.1 h.2 s stack o)⟩
  | not c ih =>
    obtain ⟨vs, o', hc⟩ := ih h s o
    exact ⟨vs, o', hc.not⟩
  | logic op l r skip ihl ihr =>
    simp only [Cond.isSimple, Bool.and_eq_true] at h
    obtain ⟨vs, o₁, hl⟩ := ihl h.1 s o
    cases hb : op.decidedBy (l.eval p t s).1 with
    | true =>
      refine ⟨vs, o₁, ?_⟩
      simpa [Cond.eval, hb] using hl.decided hb
    | false =>
      obtain ⟨vs', o₂, hr⟩ := ihr h.2 (l.eval p t s).2 o₁
      refine ⟨vs ++ vs', o₂, ?_⟩
      simpa [Cond.eval, hb] using hl.undecided hb hr

theorem Cond.reaches_eval (hcode : (labelsIn code).Nodup) {c : Cond} (h : c.isSimple t)
    {targets : Targets} (hreal : targets ≠ {}) (s : Env) (stack : List Value) (o : Ordering)
    {rest : List Instr} (hat : c.code t targets ++ rest <:+ code) :
    ∃ o', p.machine.Reaches code (.before (c.code t targets ++ rest), ⟨s, stack, o⟩)
      (targets.place code rest (c.eval p t s).1, ⟨(c.eval p t s).2, stack, o'⟩) := by
  obtain ⟨vs, o', hc⟩ := exists_evaluates_eval (p := p) h s stack o
  exact ⟨o', hc.reaches hcode hreal hat⟩

end TurtleCompiler
