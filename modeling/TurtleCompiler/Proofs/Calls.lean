import TurtleCompiler.Proofs.Bodies

/-!
Procedures that are called again: the second call prints what the first one has printed, if every
variable is stored before it is loaded.
-/

namespace TurtleCompiler

open Source StateTransition

namespace Source.Task

variable {p : Processor} {home : String → String} {t : Table} {c : Task} {d : Command}
  {m : Memory} {s s₁ : Env}

theorem Matches.constants (h : c.Matches p home t d) :
    ∀ e ∈ c.constants p, ∃ id v, t.IsAt home e.1 id ∧
    t.value? id = some v ∧ e.2 = some (p.constant v) := by
  induction h with
  | skip | assign | print => simp [Task.constants]
  | @elided op x rhs _ hplain =>
    cases op with
    | some op => simp [Task.constants]
    | none =>
      obtain ⟨id, v, hid, hv, heval⟩ := hplain rfl
      simpa [Task.constants, heval] using ⟨id, hid, v, hv, rfl⟩
  | seq _ _ iha ihb => exact List.forall_mem_append.2 ⟨iha, ihb⟩
  | ifThen _ _ ih | whileDo _ _ ih => exact ih
  | ifElse _ _ _ ihyes ihno => exact List.forall_mem_append.2 ⟨ihyes, ihno⟩

theorem exists_sameAt (ht : t.Sound) (home : String → String) (p : Processor) (s : Env) :
    ∃ m, SameAt home t m s ∧ ∀ {x id v}, t.IsAt home x id → t.value? id = some v →
      (t.IsUsed id → s.store (t.symbol id).fullName = p.constant v) →
      m.value x = some (p.constant v) := by
  have hexists (x : String) : ∃ v, ∀ {id}, t.IsAt home x id →
      v = if t.IsUsed id then s.store (t.symbol id).fullName
        else p.constant ((t.value? id).getD (.int 0)) := by
    by_cases hx : ∃ id, t.IsAt home x id
    · obtain ⟨id, hid⟩ := hx
      exact ⟨_, fun hj => by rw [ht.isAt_unique hj hid]⟩
    · exact ⟨.int 0, fun hid => absurd ⟨_, hid⟩ hx⟩
  choose value hvalue using hexists
  refine ⟨⟨fun x => some (value x), s.drawn, s.printed⟩,
    ⟨rfl, rfl, fun hid hused => ?_, fun _ => rfl⟩, fun hid hv hstore => ?_⟩
  · exact congrArg some ((hvalue _ hid).trans (if_pos hused))
  · refine congrArg some ((hvalue _ hid).trans ?_)
    split
    · exact hstore ‹_›
    · rw [hv, Option.getD_some]

theorem Matches.repeats (h : c.Matches p home t d) (ht : t.Sound)
    (hfirst : c.AssignsFirst p true c.kept) (hsame : SameAt home t m s) (hsettled : c.Settled p m)
    (hrun : Command.Runs p t d s s₁)
    (hdraws : c.isFixed ∨ ∀ n, p.random (s₁.drawn + n) = p.random (s.drawn + n)) :
    ∃ vs s₂, Command.Runs p t d s₁ s₂ ∧ s₁.printed = s.printed ++ vs ∧
    s₂.printed = s₁.printed ++ vs := by
  obtain ⟨⟨todo, m₁⟩, ⟨hall, hsame₁⟩, hend⟩ :=
    (follows_inStep ht).eval_of_first (b := ([c], m)) ⟨.cons h .nil, hsame⟩
    (Command.runs_iff_mem_eval.1 hrun)
  obtain rfl : todo = [] := List.forall₂_nil_right_iff.1 hall
  rw [← hsame.drawn, ← hsame₁.drawn] at hdraws
  obtain ⟨vs, m₂, hend', hprinted, hprinted'⟩ :=
    hfirst.repeats hsame.isSome hsettled hend hdraws
  obtain ⟨⟨todo, s₂⟩, ⟨hall, hsame₂⟩, hrun'⟩ :=
    (follows_inStep ht).eval_of_second (a := ([d], s₁)) (b := ([c], m₁))
    ⟨.cons h .nil, hsame₁⟩ hend'
  obtain rfl : todo = [] := List.forall₂_nil_left_iff.1 hall
  rw [hsame.printed, hsame₁.printed] at hprinted
  rw [hsame₁.printed, hsame₂.printed] at hprinted'
  exact ⟨vs, s₂, Command.runs_iff_mem_eval.2 hrun', hprinted, hprinted'⟩

end Source.Task

/-- Two calls in a row, where the first one ends. The second one ends too, and both print the same:
if, in the code, no variable of the procedure is read before it is assigned, or if that is so in the
source and the assignments that the code leaves out are the only ones of their variables. What runs
is the text of the procedure, on a machine that reads its constants back. -/
theorem calls_repeat {source : String} {listing : Listing} {header : Header} {body : List Stmt}
    {b : Block} (h : IsProcedure source listing header body b) (p : Processor)
    (hfirst : (taskOfAll [] body).AssignsFirst p true (taskOfAll [] body).kept ∨
      (taskOfAll [] body).AssignsFirst p false (assignsOfAll body) ∧
        (taskOfAll [] body).isSeparate (taskOfAll [] body).kept) :
    b.params = [] ∧ ∀ read, p.Reads read (listing.constants b) → ∀ s s₁ : Vm,
      (∀ x ∈ (taskOfAll [] body).constants p, x.1 ∉ (taskOfAll [] body).kept →
        ∀ e ∈ listing.data, e.1.toUpper = "@" ++ header.name.toUpper ++ "." ++ x.1 →
          s.env.store e.1 = p.constant (read e.2.text)) →
      p.machine.Through (b.code.map (.reread read)) s s₁ →
      ((taskOfAll [] body).isFixed ∨
        ∀ n, p.random (s₁.env.drawn + n) = p.random (s.env.drawn + n)) →
      ∃ vs s₂, p.machine.Through (b.code.map (.reread read)) s₁ s₂ ∧
        s₁.env.printed = s.env.printed ++ vs ∧ s₂.env.printed = s₁.env.printed ++ vs := by
  obtain ⟨t, home, d, ns, k, n, ht, hempty, hcode, hbuilt, hhome, hmatches⟩ :=
    h.exists_matches p
  obtain ⟨hkept, hconstants⟩ := assigns_taskOfAll (p := p) body []
  have hfirst : (taskOfAll [] body).AssignsFirst p true (taskOfAll [] body).kept :=
    hfirst.elim id fun hsource => hsource.1.skipping hkept hsource.2
  refine ⟨hempty, fun read hread s s₁ hstore hrun hdraws => ?_⟩
  simp only [Machine.through_reread (m := p.machine) (Processor.exec_reread hread.code)] at hrun ⊢
  obtain ⟨m, hsame, hvalue⟩ := Task.exists_sameAt ht.sound home p s.env
  have hsettled : (taskOfAll [] body).Settled p m := by
    intro x hx hxkept
    obtain ⟨id, v, hid, hv, hxv⟩ := hmatches.constants x hx
    refine (hvalue hid hv fun hused => ?_).trans hxv.symm
    have hmem := ht.mem_data hid.1 hused
    have hfull : (t.symbol id).fullName.toUpper = "@" ++ header.name.toUpper ++ "." ++ x.1 := by
      rw [(ht.sound.named hid.1.1).1, hid.2.1, hhome x.1 (hconstants (List.mem_map_of_mem hx)),
        qualify, if_neg (by simp), toUpper_append, toUpper_append, Lowering.toUpper_at, hid.2.2,
        show ".".toUpper = "." by decide +kernel]
    rw [hstore x hx hxkept _ hmem hfull, hread.store hmem, Symbol.initialValue_of_value? hv]
  have hcompiled := hbuilt.compiled t
  have hnodup := (hbuilt.fresh hmatches.isSimple).nodup
  rw [hcode] at hrun ⊢
  obtain ⟨env, stack, o⟩ := s
  obtain ⟨hstack, hruns⟩ := hcompiled.runs hnodup hmatches.isSimple hrun
  obtain ⟨vs, s₂, hruns', hprinted, hprinted'⟩ :=
    hmatches.repeats ht.sound hfirst hsame hsettled hruns hdraws
  obtain ⟨o', hthrough⟩ :=
    hruns'.through hcompiled hnodup hmatches.isSimple s₁.stack s₁.order
  exact ⟨vs, _, hthrough, hprinted, hprinted'⟩

namespace Source

def Item.definition? : Item → Option (Header × List Stmt × Site)
  | .definition header body site => some (header, body, site)
  | .statement _ | .broken .. => none

theorem exists_procedure (source : String) (k : Nat)
    (q : Listing → List Stmt → Block → Prop)
    (h : ∃ d ∈ (parse (.ofText source)).items[k]?.bind Item.definition?,
      d.1.params = [] ∧ arePlain d.2.1 ∧
      (∀ x ∈ assignsOfAll d.2.1, x ∉
        (((parse (.ofText source)).items.take k).flatMap Item.outerNames).map String.toUpper) ∧
      ∃ listing ∈ (compile source).toOption, ∃ b ∈ listing.blocks,
        b.name.toUpper = d.1.name.toUpper ∧ q listing d.2.1 b) :
    ∃ listing header body b, IsProcedure source listing header body b ∧ q listing body b := by
  obtain ⟨⟨header, body, site⟩, hd, hparams, hplain, hlocal, hlisting⟩ := h
  obtain ⟨listing, hcompiled, b, hb, hname, hq⟩ := exists_listing source _ hlisting
  obtain ⟨item, hitem, hdefinition⟩ := Option.bind_eq_some_iff.1 hd
  obtain rfl : item = .definition header body site := by
    cases item <;> simp_all [Item.definition?]
  obtain ⟨hk, he⟩ := List.getElem?_eq_some_iff.1 hitem
  refine ⟨listing, header, body, b, ⟨hcompiled,
    ⟨_, site, (parse (.ofText source)).items.drop (k + 1), ?_, hlocal⟩, hparams, hplain, hb,
    hname⟩, hq⟩
  rw [← he, ← List.drop_eq_getElem_cons hk, List.take_append_drop]

end Source

def Control.isEnd : Control → Bool
  | .before [] => true
  | .before (_ :: _) | .away _ => false

def Machine.runFor {σ : Type} (m : Machine σ) (code : List Instr) (n : Nat) (s : σ) :
    Control × σ :=
  TurtleCompiler.runFor (m.step code) n (.before code, s)

theorem Machine.through_runFor {σ : Type} {m : Machine σ} {code : List Instr} {n : Nat} {s : σ}
    (h : (m.runFor code n s).1.isEnd) : m.Through code s (m.runFor code n s).2 := by
  have hreach : m.Reaches code (.before code, s) (m.runFor code n s) := reaches_runFor n
  generalize m.runFor code n s = a at h hreach
  obtain ⟨control, s'⟩ := a
  cases control with
  | away => simp [Control.isEnd] at h
  | before rest =>
    cases rest with
    | nil => exact hreach
    | cons => simp [Control.isEnd] at h

def steppingText : String :=
  "K = 9 TO F STEP = 2 I = :STEP - 1 WHILE :I < 4 PRINT :I I += :STEP END END F F PRINT :K"

/-- Here a variable with a marked assignment is only read, and the variable of a loop is assigned
first. -/
theorem calls_repeat_loop :
    ∃ (listing : Listing) (header : Header) (body : List Stmt) (b : Block)
      (read : String → Value) (s s₁ s₂ : Vm) (vs : List Value),
      IsProcedure steppingText listing header body b ∧
      (taskOfAll [] body).AssignsFirst .folding false (assignsOfAll body) ∧
      (taskOfAll [] body).isSeparate (taskOfAll [] body).kept ∧
      Processor.folding.Reads read (listing.constants b) ∧
      (∀ e ∈ listing.data, s.env.store e.1 = Processor.folding.constant (read e.2.text)) ∧
      (taskOfAll [] body).isFixed ∧
      Processor.folding.machine.Through (b.code.map (.reread read)) s s₁ ∧
      Processor.folding.machine.Through (b.code.map (.reread read)) s₁ s₂ ∧
      s₁.env.printed.map Value.text = ["1", "3"] ∧
      s₁.env.printed = s.env.printed ++ vs ∧ s₂.env.printed = s₁.env.printed ++ vs := by
  obtain ⟨listing, header, body, b, h, hgoes, hseparate, hfixed, hupper, hlegible, htypes, hend,
      hprinted⟩ :=
    exists_procedure steppingText 1
      (fun listing body b =>
        throughout (Task.step .folding false) (Task.goesOn .folding) 50
          ([taskOfAll [] body], .empty) ∧
        (taskOfAll [] body).isSeparate (taskOfAll [] body).kept ∧ (taskOfAll [] body).isFixed ∧
        listing.IsUpper ∧ (∀ v ∈ listing.constants b, v.IsLegible) ∧
        (∀ e ∈ listing.data, e.2.dataType ≠ .bool) ∧
        (Processor.folding.machine.runFor b.code 50
          ⟨⟨listing.initial, 0, []⟩, [], .eq⟩).1.isEnd ∧
        (Processor.folding.machine.runFor b.code 50
          ⟨⟨listing.initial, 0, []⟩, [], .eq⟩).2.env.printed.map Value.text = ["1", "3"])
      (by decide +kernel)
  have hfirst : (taskOfAll [] body).AssignsFirst .folding false (assignsOfAll body) :=
    (Task.neverStuck_of_throughout hgoes).assignsFirst hfixed
  obtain ⟨read, hread⟩ := Processor.folding.exists_reads fun _ => rfl
  have hread := hread _ hlegible
  have hstore : ∀ e ∈ listing.data, listing.initial e.1 =
      Processor.folding.constant (read e.2.text) := fun e he => by
    rw [hread.store he, Processor.constant_eq _ (htypes e he), hupper.initial_eq e he]
  have hrun :=
    (Machine.through_reread (Processor.exec_reread hread.code)).2 (Machine.through_runFor hend)
  obtain ⟨-, hrepeat⟩ := calls_repeat h .folding (.inr ⟨hfirst, hseparate⟩)
  obtain ⟨vs, s₂, hrun', hfirst', hsecond⟩ :=
    hrepeat read hread _ _ (fun _ _ _ e he _ => hstore e he) hrun (.inl hfixed)
  exact ⟨listing, header, body, b, read, _, _, s₂, vs, h, hfirst, hseparate, hread, hstore,
    hfixed, hrun, hrun', hprinted, hfirst', hsecond⟩

/-- A marked assignment is left out of the code though its variable is assigned again. The first
call prints 2, and the second one 3. -/
theorem elided_assignment_in_procedure :
    ∃ (listing : Listing) (header : Header) (body : List Stmt) (b : Block) (s s₁ s₂ : Vm),
      IsProcedure "TO F X = 1 X += 1 PRINT :X END F F" listing header body b ∧
      (taskOfAll [] body).AssignsFirst .folding false (assignsOfAll body) ∧
      (∀ e ∈ listing.data, s.env.store e.1 = e.2) ∧ (taskOfAll [] body).isFixed ∧
      Processor.folding.machine.Through b.code s s₁ ∧
      Processor.folding.machine.Through b.code s₁ s₂ ∧
      ¬ ∃ vs, s₁.env.printed = s.env.printed ++ vs ∧
        s₂.env.printed = s₁.env.printed ++ vs := by
  obtain ⟨listing, header, body, b, h, hgoes, hfixed, hupper, hend, hend', hprinted,
      hprinted'⟩ :=
    exists_procedure "TO F X = 1 X += 1 PRINT :X END F F" 0
      (fun listing body b =>
        throughout (Task.step .folding false) (Task.goesOn .folding) 50
          ([taskOfAll [] body], .empty) ∧ (taskOfAll [] body).isFixed ∧ listing.IsUpper ∧
        let run := Processor.folding.machine.runFor b.code 50
        let s₁ := run ⟨⟨listing.initial, 0, []⟩, [], .eq⟩
        let s₂ := run s₁.2
        s₁.1.isEnd ∧ s₂.1.isEnd ∧ s₁.2.env.printed.map Value.text = ["2"] ∧
          s₂.2.env.printed.map Value.text = ["2", "3"])
      (by decide +kernel)
  refine ⟨listing, header, body, b, _, _, _, h,
    (Task.neverStuck_of_throughout hgoes).assignsFirst hfixed, hupper.initial_eq, hfixed,
    Machine.through_runFor hend, Machine.through_runFor hend', ?_⟩
  rintro ⟨vs, hfirst, hsecond⟩
  rw [List.nil_append] at hfirst
  rw [hsecond, List.map_append, ← hfirst, hprinted] at hprinted'
  simp at hprinted'

end TurtleCompiler
