import Mathlib.Algebra.GroupWithZero.Nat
import TurtleCompiler.Proofs.Processor
import TurtleCompiler.Proofs.Simulation

/-!
Structured commands and flat code for them. The machine that runs the code follows the commands step
by step, so it ends where they end.
-/

namespace TurtleCompiler

open StateTransition

inductive Command where
  | skip
  | assign (op : Option ArithOp) (target : SymbolId) (rhs : Expr)
  | print (callee : SymbolId) (args : List Expr) (type : Option DataType)
  | seq (a b : Command)
  | ifThen (c : Cond) (yes : Command)
  | ifElse (c : Cond) (yes no : Command)
  | whileDo (c : Cond) (body : Command)

namespace Command

def isSimple (t : Table) : Command → Bool
  | skip => true
  | assign _ _ rhs => rhs.isSimple t
  | print callee args _ => t.isPrint callee && args.all (·.isSimple t) && args.length < 2 ^ 63
  | seq a b => a.isSimple t && b.isSimple t
  | ifThen c yes => c.isSimple t && yes.isSimple t
  | ifElse c yes no => c.isSimple t && yes.isSimple t && no.isSimple t
  | whileDo c body => c.isSimple t && body.isSimple t

variable (p : Processor) (t : Table)

def assigned (op : Option ArithOp) (target : SymbolId) (rhs : Expr) (s : Env) : Env :=
  let name := (t.symbol target).fullName
  let (v, s') := rhs.eval p t s
  s'.assign name (op.elim v fun op => p.compute op (s.store name) v)

def printed (args : List Expr) (s : Env) : Env :=
  let (vs, s) := evalAll p t args s
  s.print vs

inductive Runs : Command → Env → Env → Prop
  | skip : Runs skip s s
  | assign : Runs (assign op x e) s (assigned p t op x e s)
  | print : Runs (print callee args type) s (printed p t args s)
  | seq : Runs a s s₁ → Runs b s₁ s' → Runs (seq a b) s s'
  | ifThen : c.eval p t s = (true, s₁) → Runs yes s₁ s' → Runs (ifThen c yes) s s'
  | ifNot : c.eval p t s = (false, s') → Runs (ifThen c yes) s s'
  | ifElse : c.eval p t s = (true, s₁) → Runs yes s₁ s' → Runs (ifElse c yes no) s s'
  | orElse : c.eval p t s = (false, s₁) → Runs no s₁ s' → Runs (ifElse c yes no) s s'
  | whileDo : c.eval p t s = (true, s₁) → Runs body s₁ s₂ →
      Runs (whileDo c body) s₂ s' → Runs (whileDo c body) s s'
  | whileNot : c.eval p t s = (false, s') → Runs (whileDo c body) s s'

def next : Command → Env → List Command × Env
  | skip, s => ([], s)
  | assign op x e, s => ([], assigned p t op x e s)
  | print _ args _, s => ([], printed p t args s)
  | seq a b, s => ([a, b], s)
  | ifThen c yes, s =>
    let (b, s) := c.eval p t s
    (if b then [yes] else [], s)
  | ifElse c yes no, s =>
    let (b, s) := c.eval p t s
    (if b then [yes] else [no], s)
  | whileDo c body, s =>
    let (b, s) := c.eval p t s
    (if b then [body, whileDo c body] else [], s)

def step : List Command × Env → Option (List Command × Env)
  | ([], _) => none
  | (c :: todo, s) => some ((c.next p t s).1 ++ todo, (c.next p t s).2)

variable {p t} {s : Env} {s' : Env}

theorem Runs.reaches {c : Command} (h : Runs p t c s s') (todo : List Command) :
    Reaches (step p t) (c :: todo, s) (todo, s') := by
  induction h generalizing todo with
  | skip | assign | print => exact .single rfl
  | seq _ _ iha ihb => exact .head rfl ((iha _).trans (ihb todo))
  | ifThen hc _ ih | ifElse hc _ ih | orElse hc _ ih =>
    exact .head (by simp [step, next, hc]) (ih todo)
  | ifNot hc | whileNot hc => exact .single (by simp [step, next, hc])
  | whileDo hc _ _ ihbody ih =>
    exact .head (by simp [step, next, hc]) ((ihbody _).trans (ih todo))

variable (p t) in
def RunsAll : List Command → Env → Env → Prop
  | [], s, s' => s = s'
  | c :: todo, s, s' => ∃ s₁, Runs p t c s s₁ ∧ RunsAll todo s₁ s'

theorem RunsAll.of_step {c : Command} {todo : List Command}
    (h : RunsAll p t ((c.next p t s).1 ++ todo) (c.next p t s).2 s') :
    RunsAll p t (c :: todo) s s' := by
  cases c with
  | skip => exact ⟨_, .skip, h⟩
  | assign => exact ⟨_, .assign, h⟩
  | print => exact ⟨_, .print, h⟩
  | seq a b =>
    obtain ⟨s₁, ha, s₂, hb, h⟩ := h
    exact ⟨s₂, .seq ha hb, h⟩
  | ifThen c yes =>
    rcases hc : c.eval p t s with ⟨_ | _, s₁⟩
    · exact ⟨s₁, .ifNot hc, by simpa [next, hc] using h⟩
    · simp only [next, hc] at h
      obtain ⟨s₂, hyes, h⟩ := h
      exact ⟨s₂, .ifThen hc hyes, h⟩
  | ifElse c yes no =>
    rcases hc : c.eval p t s with ⟨_ | _, s₁⟩ <;> simp only [next, hc] at h <;>
      obtain ⟨s₂, hbranch, h⟩ := h
    · exact ⟨s₂, .orElse hc hbranch, h⟩
    · exact ⟨s₂, .ifElse hc hbranch, h⟩
  | whileDo c body =>
    rcases hc : c.eval p t s with ⟨_ | _, s₁⟩
    · exact ⟨s₁, .whileNot hc, by simpa [next, hc] using h⟩
    · simp only [next, hc] at h
      obtain ⟨s₂, hbody, s₃, hloop, h⟩ := h
      exact ⟨s₃, .whileDo hc hbody hloop, h⟩

theorem runsAll_of_reaches {c : List Command × Env} (h : Reaches (step p t) c ([], s')) :
    RunsAll p t c.1 c.2 s' := by
  induction h using Relation.ReflTransGen.head_induction_on with
  | refl => rfl
  | @head c d hstep _ ih =>
    obtain ⟨_ | ⟨c, todo⟩, s⟩ := c
    · simp [step] at hstep
    · obtain rfl : ((c.next p t s).1 ++ todo, (c.next p t s).2) = d := by simpa [step] using hstep
      exact .of_step ih

theorem runs_iff_mem_eval {c : Command} :
    Runs p t c s s' ↔ ([], s') ∈ eval (step p t) ([c], s) := by
  constructor
  · exact fun h => mem_eval.2 ⟨h.reaches [], rfl⟩
  · intro h
    obtain ⟨s₁, hc, rfl⟩ := runsAll_of_reaches (mem_eval.1 h).1
    exact hc

def size : Command → Nat
  | skip | assign .. | print .. => 1
  | seq a b => a.size + b.size + 1
  | ifThen _ yes => yes.size + 1
  | ifElse _ yes no => yes.size + no.size + 1
  | whileDo _ body => body.size + 1

def sizeAll (todo : List Command) : Nat := (todo.map size).sum

theorem sizeAll_next (c : Command) (s : Env) :
    sizeAll (c.next p t s).1 < c.size ∨ ∃ b body, c = whileDo b body := by
  cases c with
  | whileDo b body => exact .inr ⟨b, body, rfl⟩
  | ifThen b yes | ifElse b yes no =>
    left
    simp only [next, size]
    split <;> simp only [sizeAll, List.map_cons, List.map_nil, List.sum_cons, List.sum_nil] <;>
      omega
  | _ => simp [next, size, sizeAll]

inductive Compiled (t : Table) : Command → List Instr → Prop
  | skip : Compiled t skip []
  | assign : Compiled t (assign op x e) ((Node.assign op x e).code t)
  | print : Compiled t (print callee args type) ((printCall callee args type).code t)
  | seq : Compiled t a i → Compiled t b j → Compiled t (seq a b) (i ++ j)
  | ifThen : Compiled t yes i →
      Compiled t (ifThen c yes) (c.code t { onFalse := some out } ++ (i ++ [.label out]))
  | ifElse : Compiled t yes i → Compiled t no j →
      Compiled t (ifElse c yes no) (c.code t { onFalse := some other } ++
        (i ++ (.jump .always join :: .label other :: (j ++ [.label join]))))
  | whileDo : Compiled t body i →
      Compiled t (whileDo c body)
        (.label start ::
          (c.code t { onFalse := some out } ++ (i ++ [.jump .always start, .label out])))

inductive Does (t : Table) (code : List Instr) : List Command → List Instr → Prop
  | nil : Does t code [] []
  | command : Compiled t c i → Does t code todo rest → i ++ rest <:+ code →
      Does t code (c :: todo) (i ++ rest)
  | label : Does t code todo rest → .label l :: rest <:+ code →
      Does t code todo (.label l :: rest)
  | jump : Does t code todo (.label l :: dest) → .jump .always l :: rest <:+ code →
      Does t code todo (.jump .always l :: rest)

variable {code : List Instr}

theorem Does.suffix {todo : List Command} {rest : List Instr} (h : Does t code todo rest) :
    rest <:+ code := by
  cases h with
  | nil => exact List.nil_suffix
  | command _ _ hat | label _ hat | jump _ hat => exact hat

theorem reaches_always {σ : Type} {m : Machine σ} (hcode : (labelsIn code).Nodup) {l : Label}
    {dest : List Instr} (hdest : .label l :: dest <:+ code) (rest : List Instr) (s : σ) :
    m.Reaches code (.before (.jump .always l :: rest), s) (.before (.label l :: dest), s) :=
  .single (by simp [Machine.step, Jump.taken, Control.goto_eq_before hcode hdest])

inductive Ready (t : Table) (code : List Instr) : List Command → List Instr → Prop
  | nil : Ready t code [] []
  | command : Compiled t c i → Does t code todo rest → i ++ rest <:+ code →
      Ready t code (c :: todo) (i ++ rest)

theorem Does.reaches_ready {σ : Type} {m : Machine σ} (hcode : (labelsIn code).Nodup)
    {todo : List Command} {rest : List Instr} (h : Does t code todo rest) :
    ∃ rest', Ready t code todo rest' ∧
    ∀ s, m.Reaches code (.before rest, s) (.before rest', s) := by
  induction h with
  | nil => exact ⟨[], .nil, fun _ => .refl⟩
  | command hc hrest hat => exact ⟨_, .command hc hrest hat, fun _ => .refl⟩
  | label _ _ ih =>
    obtain ⟨rest', hready, hreach⟩ := ih
    exact ⟨rest', hready, fun s => .head rfl (hreach s)⟩
  | jump hdest _ ih =>
    obtain ⟨rest', hready, hreach⟩ := ih
    exact ⟨rest', hready, fun s => (reaches_always hcode hdest.suffix _ s).trans (hreach s)⟩

theorem reaches_assigned (op : Option ArithOp) (x : SymbolId) {e : Expr}
    (h : e.isSimple t) (s : Env) (stack : List Value) (o : Ordering) (rest : List Instr) :
    ∃ o',
      p.machine.Reaches code (.before ((Node.assign op x e).code t ++ rest), ⟨s, stack, o⟩)
      (.before rest, ⟨assigned p t op x e s, stack, o'⟩) := by
  cases op with
  | none =>
    simp only [Node.code, List.append_assoc]
    obtain ⟨o', he⟩ :=
      Expr.reaches_value (p := p) h s stack o ([.store (t.symbol x).fullName] ++ rest)
    exact ⟨o', he.trans (Processor.reaches_exec rfl rfl rest)⟩
  | some op =>
    simp only [Node.code, List.append_assoc, List.cons_append]
    obtain ⟨o₁, he⟩ :=
      Expr.reaches_value (p := p) h s (s.store (t.symbol x).fullName :: stack) o
      (op.code ++ ([.store (t.symbol x).fullName] ++ rest))
    obtain ⟨o₂, hop⟩ := Processor.reaches_arith (p := p) op (s.store (t.symbol x).fullName)
      (e.eval p t s).1 (e.eval p t s).2 stack o₁ ([.store (t.symbol x).fullName] ++ rest)
    exact ⟨o₂, .trans (Processor.reaches_exec rfl rfl _)
      (he.trans (hop.trans (Processor.reaches_exec rfl rfl rest)))⟩

theorem reaches_otherwise (hcode : (labelsIn code).Nodup) {c : Cond}
    (h : c.isSimple t) {out : Label} {rest dest : List Instr}
    (hat : c.code t { onFalse := some out } ++ rest <:+ code)
    (hdest : .label out :: dest <:+ code) (s : Env) (stack : List Value) (o : Ordering) :
    ∃ o',
      p.machine.Reaches code (.before (c.code t { onFalse := some out } ++ rest), ⟨s, stack, o⟩)
      (.before (if (c.eval p t s).1 then rest else .label out :: dest),
        ⟨(c.eval p t s).2, stack, o'⟩) := by
  obtain ⟨o', hreach⟩ := Cond.reaches_eval (p := p) hcode h (by simp) s stack o hat
  refine ⟨o', ?_⟩
  cases hc : (c.eval p t s).1 <;>
    simpa [Targets.place, hc, Control.goto_eq_before hcode hdest] using hreach

theorem reaches_loop (hcode : (labelsIn code).Nodup) {c : Cond} {body : Command}
    {i rest : List Instr} {todo : List Command} (hi : Compiled t (whileDo c body) i)
    (hrest : Does t code todo rest) (hat : i ++ rest <:+ code) (hc : c.isSimple t) (s : Env)
    (stack : List Value) (o : Ordering) :
    ∃ rest' o', Does t code (((whileDo c body).next p t s).1 ++ todo) rest' ∧
      Reaches₁ (p.machine.step code) (.before (i ++ rest), ⟨s, stack, o⟩)
        (.before rest', ⟨((whileDo c body).next p t s).2, stack, o'⟩) := by
  have hloop := Does.command hi hrest hat
  cases hi with
  | @whileDo _ i _ start out hbody =>
    simp only [List.append_assoc, List.cons_append, List.nil_append] at hat hloop ⊢
    have hcond := (List.suffix_cons _ _).trans hat
    have hi := (List.suffix_append _ _).trans hcond
    have hjump := (List.suffix_append _ _).trans hi
    have hout := Does.label hrest ((List.suffix_cons _ _).trans hjump)
    have hturn := Does.command hbody (Does.jump hloop hjump) hi
    obtain ⟨o', hreach⟩ := reaches_otherwise (p := p) hcode hc hcond hout.suffix s stack o
    refine ⟨_, o', ?_, Relation.TransGen.head' rfl hreach⟩
    simp only [next]
    cases (c.eval p t s).1 with
    | false => exact hout
    | true => exact hturn

theorem Ready.reaches_step (hcode : (labelsIn code).Nodup) {c : Command} {todo : List Command}
    {rest : List Instr} (h : Ready t code (c :: todo) rest) (hc : c.isSimple t) (s : Env)
    (stack : List Value) (o : Ordering) :
    ∃ rest' o', Does t code ((c.next p t s).1 ++ todo) rest' ∧
      p.machine.Reaches code (.before rest, ⟨s, stack, o⟩)
      (.before rest', ⟨(c.next p t s).2, stack, o'⟩) ∧
      (sizeAll (c.next p t s).1 < c.size ∨
        Reaches₁ (p.machine.step code) (.before rest, ⟨s, stack, o⟩)
        (.before rest', ⟨(c.next p t s).2, stack, o'⟩)) := by
  have hsize := sizeAll_next (p := p) (t := t) c s
  cases h with
  | @command _ _ _ rest hcompiled hrest hat =>
    cases hcompiled with
    | skip => exact ⟨rest, o, hrest, .refl, .inl (by simpa using hsize)⟩
    | assign =>
      obtain ⟨o', hreach⟩ := reaches_assigned (p := p) _ _ hc s stack o rest
      exact ⟨rest, o', hrest, hreach, .inl (by simpa using hsize)⟩
    | print =>
      simp only [isSimple, Bool.and_eq_true, List.all_eq_true, decide_eq_true_eq] at hc
      obtain ⟨o', hreach⟩ := reaches_print (p := p) hc.1.1 hc.1.2 hc.2 _ s stack o rest
      exact ⟨rest, o', hrest, hreach, .inl (by simpa using hsize)⟩
    | seq ha hb =>
      rw [List.append_assoc] at hat ⊢
      have hboth := Does.command ha (.command hb hrest ((List.suffix_append _ _).trans hat)) hat
      exact ⟨_, o, hboth, .refl, .inl (by simpa using hsize)⟩
    | ifThen hyes =>
      simp only [isSimple, Bool.and_eq_true] at hc
      simp only [List.append_assoc, List.cons_append, List.nil_append] at hat ⊢
      have hi := (List.suffix_append _ _).trans hat
      have hout := Does.label hrest ((List.suffix_append _ _).trans hi)
      have hthen := Does.command hyes hout hi
      obtain ⟨o', hreach⟩ := reaches_otherwise (p := p) hcode hc.1 hat hout.suffix s stack o
      refine ⟨_, o', ?_, hreach, .inl (by simpa using hsize)⟩
      simp only [next]
      split
      · exact hthen
      · exact hout
    | ifElse hyes hno =>
      simp only [isSimple, Bool.and_eq_true] at hc
      simp only [List.append_assoc, List.cons_append, List.nil_append] at hat ⊢
      have hi := (List.suffix_append _ _).trans hat
      have hjump := (List.suffix_append _ _).trans hi
      have hother := (List.suffix_cons _ _).trans hjump
      have hj := (List.suffix_cons _ _).trans hother
      have hjoin := Does.label hrest ((List.suffix_append _ _).trans hj)
      have helse := Does.label (Does.command hno hjoin hj) hother
      have hthen := Does.command hyes (Does.jump hjoin hjump) hi
      obtain ⟨o', hreach⟩ := reaches_otherwise (p := p) hcode hc.1.1 hat hother s stack o
      refine ⟨_, o', ?_, hreach, .inl (by simpa using hsize)⟩
      simp only [next]
      split
      · exact hthen
      · exact helse
    | whileDo hbody =>
      simp only [isSimple, Bool.and_eq_true] at hc
      obtain ⟨rest', o', hdoes, hreach⟩ :=
        reaches_loop (p := p) hcode (.whileDo hbody) hrest hat hc.1 s stack o
      exact ⟨rest', o', hdoes, hreach.to_reflTransGen, .inr hreach⟩

theorem isSimple_next {c d : Command} (hc : c.isSimple t) (hd : d ∈ (c.next p t s).1) :
    d.isSimple t := by
  cases c with
  | skip | assign | print => simp [next] at hd
  | seq => grind [isSimple, next]
  | ifThen c yes | ifElse c yes no | whileDo c body =>
    simp only [next] at hd
    split at hd <;> grind [isSimple]

variable (t code) in
def Tracks (stack : List Value) (c : List Command × Env) (d : Control × Vm) : Prop :=
  (∀ x ∈ c.1, x.isSimple t) ∧
    ∃ rest o, d = (.before rest, ⟨c.2, stack, o⟩) ∧ Does t code c.1 rest

theorem follows (hcode : (labelsIn code).Nodup) (stack : List Value) :
    Follows (step p t) (p.machine.step code) (fun c => sizeAll c.1) (Tracks t code stack) where
  step := by
    rintro ⟨_ | ⟨c, todo⟩, s⟩ a' _ ⟨hsimple, rest, o, rfl, hdoes⟩ ha'
    · simp [step] at ha'
    obtain rfl : ((c.next p t s).1 ++ todo, (c.next p t s).2) = a' := by simpa [step] using ha'
    simp only [List.mem_cons, forall_eq_or_imp] at hsimple
    obtain ⟨rest₁, hready, hreach₁⟩ := hdoes.reaches_ready (m := p.machine) hcode
    obtain ⟨rest', o', hdoes', hreach, hprogress⟩ :=
      hready.reaches_step (p := p) hcode hsimple.1 s stack o
    refine ⟨_, ⟨?_, rest', o', rfl, hdoes'⟩, (hreach₁ _).trans hreach, ?_⟩
    · intro x hx
      rcases List.mem_append.1 hx with hx | hx
      · exact isSimple_next hsimple.1 hx
      · exact hsimple.2 x hx
    · refine hprogress.imp (fun h => ?_) fun h => Relation.TransGen.trans_right (hreach₁ _) h
      simpa [sizeAll] using h
  stop := by
    rintro ⟨_ | ⟨c, todo⟩, s⟩ _ ⟨hsimple, rest, o, rfl, hdoes⟩ ha
    · obtain ⟨rest', hready, hreach⟩ := hdoes.reaches_ready (m := p.machine) hcode
      cases hready
      exact ⟨_, ⟨hsimple, [], o, rfl, .nil⟩, hreach _, rfl⟩
    · simp [step] at ha

theorem Compiled.tracks {c : Command} (h : Compiled t c code) (hc : c.isSimple t) (s : Env)
    (stack : List Value) (o : Ordering) :
    Tracks t code stack ([c], s) (.before code, ⟨s, stack, o⟩) := by
  have hdoes : Does t code [c] (code ++ []) := .command h .nil (by simp)
  exact ⟨by simpa using hc, code, o, rfl, by simpa using hdoes⟩

theorem Runs.through {c : Command} (hrun : Runs p t c s s') (h : Compiled t c code)
    (hcode : (labelsIn code).Nodup) (hc : c.isSimple t) (stack : List Value) (o : Ordering) :
    ∃ o', p.machine.Through code ⟨s, stack, o⟩ ⟨s', stack, o'⟩ := by
  obtain ⟨_, ⟨-, rest, o', rfl, hdoes⟩, hend⟩ :=
    (follows hcode stack).eval_of_first (h.tracks hc s stack o) (runs_iff_mem_eval.1 hrun)
  obtain ⟨hreach, hstop⟩ := mem_eval.1 hend
  cases hdoes with
  | nil => exact ⟨o', hreach⟩
  | label | jump => simp [Machine.step] at hstop

theorem Compiled.runs {c : Command} (h : Compiled t c code) (hcode : (labelsIn code).Nodup)
    (hc : c.isSimple t) {stack : List Value} {o : Ordering} {d : Vm}
    (hd : p.machine.Through code ⟨s, stack, o⟩ d) : d.stack = stack ∧ Runs p t c s d.env := by
  obtain ⟨⟨todo, s'⟩, ⟨-, rest, o', he, -⟩, hend⟩ :=
    (follows hcode stack).eval_of_second (h.tracks hc s stack o) (mem_eval.2 ⟨hd, rfl⟩)
  obtain rfl : d = ⟨s', stack, o'⟩ := (Prod.mk.inj he).2
  cases todo with
  | nil => exact ⟨rfl, runs_iff_mem_eval.2 hend⟩
  | cons => simp [mem_eval, step] at hend

def execution (p : Processor) (t : Table) (c : Command) (s : Env) : Execution Value where
  State := List Command × Env
  step := step p t
  start := ([c], s)
  printed d := d.2.printed
  IsDone d := d.1 = []

end Command

namespace Processor

variable {p : Processor} {code : List Instr}

def execution (p : Processor) (code : List Instr) (s : Vm) : Execution Value where
  State := Control × Vm
  step := p.machine.step code
  start := (.before code, s)
  printed d := d.2.env.printed
  IsDone d := d.1 = .before []

theorem printed_exec {i : Instr} {s s' : Vm} (h : p.exec i s = some s') :
    s.env.printed <+: s'.env.printed := by
  cases i with
  | push | load =>
    obtain rfl := Option.some.inj h
    exact List.prefix_rfl
  | store x | compareZero =>
    simp only [exec] at h
    split at h
    · obtain rfl := Option.some.inj h
      exact List.prefix_rfl
    · simp at h
  | operate op =>
    simp only [exec, operate] at h
    split at h
    all_goals first
      | obtain rfl := Option.some.inj h
        exact List.prefix_rfl
      | simp at h
  | call name =>
    simp only [exec, write] at h
    split at h
    · split at h
      · split at h
        · obtain rfl := Option.some.inj h
          exact List.prefix_append _ _
        · simp at h
      · simp at h
    · split at h
      · obtain rfl := Option.some.inj h
        exact List.prefix_rfl
      · simp at h
  | verbatim | jump | label => simp [exec] at h

theorem printed_step {d d' : Control × Vm} (h : p.machine.step code d = some d') :
    d.2.env.printed <+: d'.2.env.printed := by
  unfold Machine.step at h
  split at h
  · simp at h
  · simp at h
  · obtain rfl := Option.some.inj h
    exact List.prefix_rfl
  · obtain rfl := Option.some.inj h
    exact List.prefix_rfl
  · obtain ⟨s', hs', rfl⟩ := Option.map_eq_some_iff.1 h
    exact printed_exec hs'

end Processor

theorem Command.Compiled.sameOutput {p : Processor} {t : Table} {c : Command} {code : List Instr}
    (h : Compiled t c code) (hcode : (labelsIn code).Nodup) (hc : c.isSimple t) (s : Env)
    (stack : List Value) (o : Ordering) :
    (c.execution p t s).SameOutput (p.execution code ⟨s, stack, o⟩) := by
  refine Execution.sameOutput_of_follows (Command.follows hcode stack)
    (h.tracks hc s stack o) ?_ ?_ ?_ ?_ Processor.printed_step
  · rintro a _ ⟨-, rest, o', rfl, -⟩
    rfl
  · rintro ⟨todo, s'⟩ _ ⟨-, rest, o', rfl, hdoes⟩ hstop hstop'
    cases todo with
    | nil =>
      refine ⟨rfl, ?_⟩
      cases hdoes with
      | nil => rfl
      | label | jump => simp [Processor.execution, Machine.step] at hstop'
    | cons => simp [Command.execution, step] at hstop
  · rintro ⟨_, s'⟩ rfl
    rfl
  · rintro ⟨_, s'⟩ rfl
    rfl

end TurtleCompiler
