import TurtleCompiler.Lowering.Actions
import TurtleCompiler.Proofs.Naming
import TurtleCompiler.Proofs.Processor
import TurtleCompiler.Proofs.Simulation

/-!
What a source does when its statements are executed in order. The first assignment to a variable in
the text is marked where its right side is constant; an execution can obey the marked assignments
like all others, or skip them.
-/

namespace TurtleCompiler.Source

/-- Variables by their names in upper case, as far as they have a value, the random numbers that
were had, and what was printed. -/
structure Memory where
  value : String → Option Value
  drawn : Nat := 0
  printed : List Value := []

namespace Memory

def assign (m : Memory) (name : String) (v : Value) : Memory :=
  { m with value := fun x => if x = name then some v else m.value x }

def draw (m : Memory) : Memory := { m with drawn := m.drawn + 1 }

def print (m : Memory) (vs : List Value) : Memory := { m with printed := m.printed ++ vs }

def empty : Memory := ⟨fun _ => none, 0, []⟩

def initial (init : String → Value) : Memory := ⟨fun x => some (init x), 0, []⟩

end Memory

def numeral? (text : String) : Option Value :=
  if '.' ∈ text.toList then (Numeral.float? text.toList).map .float else
  (Numeral.int64? text.toList).map .int

def Expr.eval (p : Processor) : Expr → Memory → Option (Value × Memory)
  | .number text _, m => (numeral? text).map (·, m)
  | .string text, m => some (.str text, m)
  | .boolean text, m => some (p.truth (text.toUpper = "TRUE" || text.toUpper = "YES"), m)
  | .var name _, m => (m.value name.toUpper).map (·, m)
  | .random, m => some (p.random m.drawn, m.draw)
  | .plus e _, m => e.eval p m
  | .minus e _, m => do
    let (v, m) ← e.eval p m
    return (p.compute .mul (.int (-1)) v, m)
  | .arith op l r _, m => do
    let op ← ArithOp.ofText? op
    let (x, m) ← l.eval p m
    let (y, m) ← r.eval p m
    return (p.compute op x y, m)
  | .not .., _ | .compare .., _ | .logic .., _ => none

def Expr.test (p : Processor) : Expr → Memory → Option (Bool × Memory)
  | .boolean text, m => some (text.toUpper = "TRUE" || text.toUpper = "YES", m)
  | .compare op l r _, m => do
    let op ← RelOp.ofText? op
    let (x, m) ← l.eval p m
    let (y, m) ← r.eval p m
    return (op.holds (p.compare x y), m)
  | .not e _, m => do
    let (b, m) ← e.test p m
    return (!b, m)
  | .logic op l r _, m => do
    let op ← LogicOp.ofText? op
    let (b, m) ← l.test p m
    if op.decidedBy b then return (b, m) else r.test p m
  | _, _ => none

def evalAll (p : Processor) : List Expr → Memory → Option (List Value × Memory)
  | [], m => some ([], m)
  | e :: es, m => do
    let (v, m) ← e.eval p m
    let (vs, m) ← evalAll p es m
    return (v :: vs, m)

def assigned? (p : Processor) (name : String) (op : Option ArithOp) (rhs : Expr) (m : Memory) :
    Option Memory := do
  let (v, m') ← rhs.eval p m
  match op with
  | none => return m'.assign name v
  | some op => return m'.assign name (p.compute op (← m.value name) v)

/-- Statements to be executed. Names of variables are in upper case, and some assignments are
marked. -/
inductive Task where
  | skip
  | assign (marked : Bool) (name : String) (op : Option ArithOp) (rhs : Expr)
  | print (args : List Expr)
  | seq (a b : Task)
  | ifThen (c : Expr) (yes : Task)
  | ifElse (c : Expr) (yes no : Task)
  | whileDo (c : Expr) (body : Task)

namespace Task

def next (p : Processor) (eliding : Bool) : Task → Memory → Option (List Task × Memory)
  | skip, m => some ([], m)
  | assign marked name op rhs, m =>
    if eliding && marked then some ([], m) else (assigned? p name op rhs m).map ([], ·)
  | print args, m => (evalAll p args m).map fun (vs, m) => ([], m.print vs)
  | seq a b, m => some ([a, b], m)
  | ifThen c yes, m => (c.test p m).map fun (b, m) => (if b then [yes] else [], m)
  | ifElse c yes no, m => (c.test p m).map fun (b, m) => (if b then [yes] else [no], m)
  | whileDo c body, m => (c.test p m).map fun (b, m) =>
    (if b then [body, whileDo c body] else [], m)

def step (p : Processor) (eliding : Bool) : List Task × Memory → Option (List Task × Memory)
  | ([], _) => none
  | (c :: todo, m) => (c.next p eliding m).map fun (front, m) => (front ++ todo, m)

def execution (p : Processor) (eliding : Bool) (c : Task) (m : Memory) : Execution Value where
  State := List Task × Memory
  step := step p eliding
  start := ([c], m)
  printed s := s.2.printed
  IsDone s := s.1 = []

def reads : Task → List String
  | skip => []
  | assign _ _ _ rhs => rhs.names.map String.toUpper
  | print args => (args.flatMap Expr.names).map String.toUpper
  | seq a b => a.reads ++ b.reads
  | ifThen c yes => c.names.map String.toUpper ++ yes.reads
  | ifElse c yes no => c.names.map String.toUpper ++ (yes.reads ++ no.reads)
  | whileDo c body => c.names.map String.toUpper ++ body.reads

end Task

def Expr.isConstant : Expr → Bool
  | .number .. | .string _ | .boolean _ => true
  | .var .. | .random => false
  | .plus e _ | .minus e _ | .not e _ => e.isConstant
  | .arith _ l r _ | .compare _ l r _ | .logic _ l r _ => l.isConstant && r.isConstant

mutual

def Stmt.assigns : Stmt → List String
  | .assign name _ _ _ => [name.toUpper]
  | .ifThen _ body _ | .whileDo _ body _ => assignsOfAll body
  | .ifElse _ yes no _ => assignsOfAll yes ++ assignsOfAll no
  | .expr _ | .call .. | .print .. | .typein .. => []

def assignsOfAll : List Stmt → List String
  | [] => []
  | s :: ss => s.assigns ++ assignsOfAll ss

end

mutual

def Stmt.task (seen : List String) : Stmt → Task
  | .assign name op rhs _ =>
    .assign (name.toUpper ∉ seen && rhs.isConstant) name.toUpper
    (if op = "=" then none else compoundOp? op) rhs
  | .print first more _ => .print (first :: more)
  | .ifThen c yes _ => .ifThen c (taskOfAll seen yes)
  | .ifElse c yes no _ => .ifElse c (taskOfAll seen yes) (taskOfAll (seen ++ assignsOfAll yes) no)
  | .whileDo c body _ => .whileDo c (taskOfAll seen body)
  | .expr _ | .call .. | .typein .. => .skip

def taskOfAll (seen : List String) : List Stmt → Task
  | [] => .skip
  | s :: ss => .seq (s.task seen) (taskOfAll (seen ++ s.assigns) ss)

end

def Expr.isNumeric : Expr → Bool
  | .number .. | .var .. | .random | .plus .. | .minus .. | .arith .. => true
  | .string _ | .boolean _ | .not .. | .compare .. | .logic .. => false

def Expr.isValue : Expr → Bool
  | .not .. | .compare .. | .logic .. => false
  | _ => true

mutual

def Stmt.isBasic : Stmt → Bool
  | .assign _ _ rhs _ => rhs.isNumeric
  | .print first more _ => (first :: more).all Expr.isValue && (first :: more).length < 2 ^ 63
  | .ifThen _ body _ | .whileDo _ body _ => areBasic body
  | .ifElse _ yes no _ => areBasic yes && areBasic no
  | .expr _ | .call .. | .typein .. => false

def areBasic : List Stmt → Bool
  | [] => true
  | s :: ss => s.isBasic && areBasic ss

end

mutual

def Stmt.isPlain : Stmt → Bool
  | .assign _ _ rhs _ => rhs.isValue
  | .print first more _ => (first :: more).all Expr.isValue && (first :: more).length < 2 ^ 63
  | .ifThen _ body _ | .whileDo _ body _ => arePlain body
  | .ifElse _ yes no _ => arePlain yes && arePlain no
  | .expr _ | .call .. | .typein .. => false

def arePlain : List Stmt → Bool
  | [] => true
  | s :: ss => s.isPlain && arePlain ss

end

theorem Expr.isValue_of_isNumeric {e : Expr} (h : e.isNumeric) : e.isValue := by
  cases e <;> simp_all [isNumeric, isValue]

mutual

theorem Stmt.isPlain_of_isBasic : (st : Stmt) → st.isBasic → st.isPlain
  | .assign _ _ _ _, h => Expr.isValue_of_isNumeric h
  | .print _ _ _, h => h
  | .ifThen _ body _, h | .whileDo _ body _, h => arePlain_of_areBasic body h
  | .ifElse _ yes no _, h => by
    simp only [Stmt.isBasic, Stmt.isPlain, Bool.and_eq_true] at h ⊢
    exact ⟨arePlain_of_areBasic yes h.1, arePlain_of_areBasic no h.2⟩

theorem arePlain_of_areBasic : (ss : List Stmt) → areBasic ss → arePlain ss
  | [], _ => rfl
  | st :: ss, h => by
    simp only [areBasic, arePlain, Bool.and_eq_true] at h ⊢
    exact ⟨st.isPlain_of_isBasic h.1, arePlain_of_areBasic ss h.2⟩

end

def Expr.isFixed : Expr → Bool
  | .number .. | .string _ | .boolean _ | .var .. => true
  | .random => false
  | .plus e _ | .minus e _ | .not e _ => e.isFixed
  | .arith _ l r _ | .compare _ l r _ | .logic _ l r _ => l.isFixed && r.isFixed

theorem Expr.closed_of_isConstant {e : Expr} (h : e.isConstant) : e.names = [] ∧ e.isFixed := by
  induction e with
  | number | string | boolean => exact ⟨rfl, rfl⟩
  | var | random => simp [isConstant] at h
  | plus e _ ih | minus e _ ih | not e _ ih => exact ih h
  | arith _ l r _ ihl ihr | compare _ l r _ ihl ihr | logic _ l r _ ihl ihr =>
    simp only [isConstant, Bool.and_eq_true] at h
    simp [names, isFixed, ihl h.1, ihr h.2]

def Task.isFixed : Task → Bool
  | .skip => true
  | .assign _ _ _ rhs => rhs.isFixed
  | .print args => args.all Expr.isFixed
  | .seq a b => a.isFixed && b.isFixed
  | .ifThen c yes => c.isFixed && yes.isFixed
  | .ifElse c yes no => c.isFixed && (yes.isFixed && no.isFixed)
  | .whileDo c body => c.isFixed && body.isFixed

structure Mirrors (p : Processor) (R : Memory → Memory → Prop) (readable : String → Prop)
    (fixed : Prop) : Prop where
  read : ∀ {m m' x v}, R m m' → readable x → m.value x = some v → m'.value x = some v
  draw : ∀ {m m'}, ¬ fixed → R m m' → p.random m'.drawn = p.random m.drawn ∧
    R m.draw m'.draw

section Mirrors

variable {p : Processor} {R : Memory → Memory → Prop} {readable : String → Prop}
  {fixed : Prop} {m m' m₁ : Memory} {e : Expr}

section

variable (hR : Mirrors p R readable fixed) (h : R m m')

include hR h

theorem Mirrors.eval (hnames : ∀ x ∈ e.names, readable x.toUpper)
    (hfixed : fixed → e.isFixed) {v : Value} (he : e.eval p m = some (v, m₁)) :
    ∃ m₁', e.eval p m' = some (v, m₁') ∧ R m₁ m₁' := by
  induction e generalizing m m' m₁ v with
  | number text site =>
    simp only [Expr.eval, Option.map_eq_some_iff, Prod.mk.injEq] at he ⊢
    obtain ⟨w, hw, rfl, rfl⟩ := he
    exact ⟨m', ⟨w, hw, rfl, rfl⟩, h⟩
  | string text | boolean text =>
    simp only [Expr.eval, Option.some.injEq, Prod.mk.injEq] at he ⊢
    obtain ⟨rfl, rfl⟩ := he
    exact ⟨m', ⟨rfl, rfl⟩, h⟩
  | var name site =>
    simp only [Expr.eval, Option.map_eq_some_iff, Prod.mk.injEq] at he ⊢
    obtain ⟨w, hw, rfl, rfl⟩ := he
    exact ⟨m', ⟨w, hR.read h (hnames name (by simp [Expr.names])) hw, rfl, rfl⟩, h⟩
  | random =>
    simp only [Expr.eval, Option.some.injEq, Prod.mk.injEq] at he ⊢
    obtain ⟨rfl, rfl⟩ := he
    obtain ⟨hdrawn, h'⟩ := hR.draw (fun hf => by simpa [Expr.isFixed] using hfixed hf) h
    exact ⟨m'.draw, ⟨hdrawn, rfl⟩, h'⟩
  | plus e site ih => exact ih h hnames hfixed he
  | minus e site ih =>
    simp only [Expr.eval, Option.bind_eq_bind, Option.bind_eq_some_iff] at he ⊢
    obtain ⟨⟨w, m₂⟩, hw, he⟩ := he
    obtain ⟨rfl, rfl⟩ := Prod.mk.inj (Option.some.inj he)
    obtain ⟨m₂', hw', h'⟩ := ih h hnames hfixed hw
    exact ⟨m₂', ⟨_, hw', rfl⟩, h'⟩
  | arith op l r site ihl ihr =>
    simp only [Expr.names, List.forall_mem_append] at hnames
    simp only [Expr.isFixed, Bool.and_eq_true] at hfixed
    simp only [Expr.eval, Option.bind_eq_bind, Option.bind_eq_some_iff] at he ⊢
    obtain ⟨op', hop, ⟨x, m₂⟩, hx, ⟨y, m₃⟩, hy, he⟩ := he
    obtain ⟨rfl, rfl⟩ := Prod.mk.inj (Option.some.inj he)
    obtain ⟨m₂', hx', h₂⟩ := ihl h hnames.1 (fun hf => (hfixed hf).1) hx
    obtain ⟨m₃', hy', h₃⟩ := ihr h₂ hnames.2 (fun hf => (hfixed hf).2) hy
    exact ⟨m₃', ⟨op', hop, _, hx', _, hy', rfl⟩, h₃⟩
  | not | compare | logic => simp [Expr.eval] at he

theorem Mirrors.test (hnames : ∀ x ∈ e.names, readable x.toUpper)
    (hfixed : fixed → e.isFixed) {b : Bool} (he : e.test p m = some (b, m₁)) :
    ∃ m₁', e.test p m' = some (b, m₁') ∧ R m₁ m₁' := by
  induction e generalizing m m' m₁ b with
  | boolean text =>
    simp only [Expr.test, Option.some.injEq, Prod.mk.injEq] at he ⊢
    obtain ⟨rfl, rfl⟩ := he
    exact ⟨m', ⟨rfl, rfl⟩, h⟩
  | compare op l r site =>
    simp only [Expr.names, List.forall_mem_append] at hnames
    simp only [Expr.isFixed, Bool.and_eq_true] at hfixed
    simp only [Expr.test, Option.bind_eq_bind, Option.bind_eq_some_iff] at he ⊢
    obtain ⟨op', hop, ⟨x, m₂⟩, hx, ⟨y, m₃⟩, hy, he⟩ := he
    obtain ⟨rfl, rfl⟩ := Prod.mk.inj (Option.some.inj he)
    obtain ⟨m₂', hx', h₂⟩ := hR.eval h hnames.1 (fun hf => (hfixed hf).1) hx
    obtain ⟨m₃', hy', h₃⟩ := hR.eval h₂ hnames.2 (fun hf => (hfixed hf).2) hy
    exact ⟨m₃', ⟨op', hop, _, hx', _, hy', rfl⟩, h₃⟩
  | not e site ih =>
    simp only [Expr.test, Option.bind_eq_bind, Option.bind_eq_some_iff] at he ⊢
    obtain ⟨⟨c, m₂⟩, hc, he⟩ := he
    obtain ⟨rfl, rfl⟩ := Prod.mk.inj (Option.some.inj he)
    obtain ⟨m₂', hc', h'⟩ := ih h hnames hfixed hc
    exact ⟨m₂', ⟨_, hc', rfl⟩, h'⟩
  | logic op l r site ihl ihr =>
    simp only [Expr.names, List.forall_mem_append] at hnames
    simp only [Expr.isFixed, Bool.and_eq_true] at hfixed
    simp only [Expr.test, Option.bind_eq_bind, Option.bind_eq_some_iff] at he ⊢
    obtain ⟨op', hop, ⟨c, m₂⟩, hc, he⟩ := he
    obtain ⟨m₂', hc', h₂⟩ := ihl h hnames.1 (fun hf => (hfixed hf).1) hc
    cases hdecided : op'.decidedBy c with
    | true =>
      simp only [hdecided, if_true] at he
      obtain ⟨rfl, rfl⟩ := Prod.mk.inj (Option.some.inj he)
      exact ⟨m₂', ⟨op', hop, _, hc', by simp [hdecided]⟩, h₂⟩
    | false =>
      simp only [hdecided, Bool.false_eq_true, if_false] at he
      obtain ⟨m₃', hr', h₃⟩ := ihr h₂ hnames.2 (fun hf => (hfixed hf).2) he
      exact ⟨m₃', ⟨op', hop, _, hc', by simpa [hdecided] using hr'⟩, h₃⟩
  | _ => simp [Expr.test] at he

theorem Mirrors.evalAll {es : List Expr}
    (hnames : ∀ x ∈ es.flatMap Expr.names, readable x.toUpper)
    (hfixed : fixed → ∀ e ∈ es, e.isFixed) {vs : List Value}
    (he : Source.evalAll p es m = some (vs, m₁)) :
    ∃ m₁', Source.evalAll p es m' = some (vs, m₁') ∧ R m₁ m₁' := by
  induction es generalizing m m' vs with
  | nil =>
    obtain ⟨rfl, rfl⟩ := Prod.mk.inj (Option.some.inj he)
    exact ⟨m', rfl, h⟩
  | cons e es ih =>
    simp only [List.flatMap_cons, List.forall_mem_append] at hnames
    simp only [List.forall_mem_cons] at hfixed
    simp only [Source.evalAll, Option.bind_eq_bind, Option.bind_eq_some_iff] at he ⊢
    obtain ⟨⟨v, m₂⟩, hv, ⟨vs, m₃⟩, hvs, he⟩ := he
    obtain ⟨rfl, rfl⟩ := Prod.mk.inj (Option.some.inj he)
    obtain ⟨m₂', hv', h₂⟩ := hR.eval h hnames.1 (fun hf => (hfixed hf).1) hv
    obtain ⟨m₃', hvs', h₃⟩ := ih h₂ hnames.2 (fun hf => (hfixed hf).2) hvs
    exact ⟨m₃', ⟨_, hv', _, hvs', rfl⟩, h₃⟩

theorem Mirrors.assigned? {name : String} {op : Option ArithOp} {rhs : Expr} {same : Prop}
    (hnames : ∀ x ∈ rhs.names, readable x.toUpper) (hfixed : fixed → rhs.isFixed)
    (hread : ∀ w, m.value name = some w → ∃ w', m'.value name = some w' ∧ (same → w' = w))
    (hassign : ∀ {m m' v v'}, R m m' → (same → v' = v) →
      R (m.assign name v) (m'.assign name v'))
    (ha : Source.assigned? p name op rhs m = some m₁) :
    ∃ m₁', Source.assigned? p name op rhs m' = some m₁' ∧ R m₁ m₁' := by
  simp only [Source.assigned?, Option.bind_eq_bind, Option.bind_eq_some_iff] at ha ⊢
  obtain ⟨⟨v, m₂⟩, hv, ha⟩ := ha
  obtain ⟨m₂', hv', h₂⟩ := hR.eval h hnames hfixed hv
  cases op with
  | none =>
    obtain rfl := Option.some.inj ha
    exact ⟨_, ⟨_, hv', rfl⟩, hassign h₂ fun _ => rfl⟩
  | some op =>
    simp only [Option.bind_eq_some_iff] at ha
    obtain ⟨w, hw, ha⟩ := ha
    obtain rfl := Option.some.inj ha
    obtain ⟨w', hw', hsame⟩ := hread w hw
    exact ⟨_, ⟨_, hv', by simp only [hw', Option.bind_some]; rfl⟩,
      hassign h₂ fun hs => by rw [hsame hs]⟩

theorem Mirrors.next {c : Task} {front : List Task} {eliding eliding' : Bool}
    (hprint : ∀ {m m'} vs, R m m' → R (m.print vs) (m'.print vs))
    (hreads : ∀ x ∈ c.reads, readable x) (hfixed : fixed → c.isFixed)
      (hassign : ∀ {marked name op rhs}, c = .assign marked name op rhs →
      ∃ m₁', c.next p eliding' m' = some (front, m₁') ∧ R m₁ m₁')
    (hc : c.next p eliding m = some (front, m₁)) :
    ∃ m₁', c.next p eliding' m' = some (front, m₁') ∧ R m₁ m₁' := by
  cases c with
  | skip | seq =>
    obtain ⟨rfl, rfl⟩ := Prod.mk.inj (Option.some.inj hc)
    exact ⟨m', rfl, h⟩
  | assign marked name op rhs => exact hassign rfl
  | print args =>
    simp only [Task.next, Option.map_eq_some_iff, Prod.mk.injEq] at hc
    obtain ⟨⟨vs, m₂⟩, he, rfl, rfl⟩ := hc
    simp only [Task.isFixed, List.all_eq_true] at hfixed
    obtain ⟨m₂', he', h'⟩ := hR.evalAll h (List.forall_mem_map.1 hreads) hfixed he
    exact ⟨_, by simp [Task.next, he'], hprint vs h'⟩
  | ifThen c yes | ifElse c yes no | whileDo c body =>
    simp only [Task.next, Option.map_eq_some_iff, Prod.mk.injEq] at hc
    obtain ⟨⟨b, m₂⟩, he, rfl, rfl⟩ := hc
    simp only [Task.reads, List.forall_mem_append, List.forall_mem_map] at hreads
    simp only [Task.isFixed, Bool.and_eq_true] at hfixed
    obtain ⟨m₂', he', h'⟩ := hR.test h hreads.1 (fun hf => (hfixed hf).1) he
    exact ⟨m₂', by simp [Task.next, he'], h'⟩

end

end Mirrors

section Frame

variable {p : Processor} {m m₁ m₂ : Memory} {e : Expr}

structure Memory.Unchanged (m m' : Memory) : Prop where
  value : m'.value = m.value
  printed : m'.printed = m.printed

theorem Memory.Unchanged.refl (m : Memory) : m.Unchanged m := ⟨rfl, rfl⟩

theorem mirrors_unchanged : Mirrors p (fun m₁ m₂ => m₂ = m₁ ∧ m.Unchanged m₁)
    (fun _ => True) False where
  read h _ hv := h.1 ▸ hv
  draw _ h := ⟨by rw [h.1], by rw [h.1], h.2.value, h.2.printed⟩

theorem Expr.unchanged_eval {v : Value} (he : e.eval p m = some (v, m₁)) : m.Unchanged m₁ := by
  obtain ⟨_, -, -, hkeeps⟩ :=
    mirrors_unchanged.eval ⟨rfl, .refl m⟩ (fun _ _ => trivial) False.elim he
  exact hkeeps

theorem Expr.unchanged_test {b : Bool} (he : e.test p m = some (b, m₁)) : m.Unchanged m₁ := by
  obtain ⟨_, -, -, hkeeps⟩ :=
    mirrors_unchanged.test ⟨rfl, .refl m⟩ (fun _ _ => trivial) False.elim he
  exact hkeeps

theorem unchanged_evalAll {es : List Expr} {vs : List Value}
    (he : evalAll p es m = some (vs, m₁)) : m.Unchanged m₁ := by
  obtain ⟨_, -, -, hkeeps⟩ :=
    mirrors_unchanged.evalAll ⟨rfl, .refl m⟩ (fun _ _ => trivial) False.elim he
  exact hkeeps

theorem assigned?_eq_some {name : String} {op : Option ArithOp} {rhs : Expr}
    (ha : assigned? p name op rhs m = some m₁) :
    ∃ m₂ w, m.Unchanged m₂ ∧ m₁ = m₂.assign name w := by
  simp only [assigned?, Option.bind_eq_bind, Option.bind_eq_some_iff] at ha
  obtain ⟨⟨v, m₂⟩, hv, ha⟩ := ha
  refine ⟨m₂, ?_⟩
  cases op with
  | none => exact ⟨v, Expr.unchanged_eval hv, (Option.some.inj ha).symm⟩
  | some op =>
    simp only [Option.bind_eq_some_iff] at ha
    obtain ⟨w, -, ha⟩ := ha
    exact ⟨_, Expr.unchanged_eval hv, (Option.some.inj ha).symm⟩

theorem Task.next_eq_some {c : Task} {front : List Task} {eliding : Bool}
    (hc : c.next p eliding m = some (front, m₁)) :
    m.Unchanged m₁ ∨
      (∃ args m₂ vs, c = print args ∧ front = [] ∧ m.Unchanged m₂ ∧
        m₁ = m₂.print vs) ∨
      ∃ marked name op rhs m₂ w, c = assign marked name op rhs ∧ front = [] ∧
      m.Unchanged m₂ ∧ m₁ = m₂.assign name w := by
  cases c with
  | skip | seq =>
    obtain ⟨-, rfl⟩ := Prod.mk.inj (Option.some.inj hc)
    exact .inl (.refl m)
  | assign marked name op rhs =>
    simp only [next] at hc
    split at hc
    · obtain ⟨-, rfl⟩ := Prod.mk.inj (Option.some.inj hc)
      exact .inl (.refl m)
    · simp only [Option.map_eq_some_iff, Prod.mk.injEq] at hc
      obtain ⟨m₂, ha, rfl, rfl⟩ := hc
      obtain ⟨m₃, w, hkeeps, rfl⟩ := assigned?_eq_some ha
      exact .inr (.inr ⟨marked, name, op, rhs, m₃, w, rfl, rfl, hkeeps, rfl⟩)
  | print args =>
    simp only [next, Option.map_eq_some_iff, Prod.mk.injEq] at hc
    obtain ⟨⟨vs, m₂⟩, he, rfl, rfl⟩ := hc
    exact .inr (.inl ⟨args, m₂, vs, rfl, rfl, unchanged_evalAll he, rfl⟩)
  | ifThen c yes | ifElse c yes no | whileDo c body =>
    simp only [next, Option.map_eq_some_iff, Prod.mk.injEq] at hc
    obtain ⟨⟨b, m₂⟩, he, -, rfl⟩ := hc
    exact .inl (Expr.unchanged_test he)

end Frame

end TurtleCompiler.Source
