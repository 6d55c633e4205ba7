import TurtleCompiler.Proofs.Acceptance
import TurtleCompiler.Proofs.Blame
import TurtleCompiler.Proofs.Failures

/-!
Which token lists are programs. Typing refuses the negations that the parser takes as operands of
tighter operators, so what is lowered to its end can be derived; and what can be derived fails, if
at all, for what it means.
-/

namespace TurtleCompiler

namespace Source

theorem Expr.Becomes.isLayered {e : Expr} {s s' : Lowering} {e' : TurtleCompiler.Expr}
    (h : e.Becomes s e' s') : e.IsLayered ∧ (e.isNegation → e'.dataType = .bool) := by
  induction h with
  | number | string | boolean | var | random => exact ⟨trivial, by simp [Expr.isNegation]⟩
  | plus _ hnumeric ih =>
    refine ⟨⟨fun hneg => ?_, ih.1⟩, by simp [Expr.isNegation]⟩
    simp [ih.2 hneg, DataType.isNumeric] at hnumeric
  | minus _ harith ih =>
    obtain ⟨-, hnumeric, -⟩ := TurtleCompiler.Expr.arithmetic_eq_ok harith
    refine ⟨⟨fun hneg => ?_, ih.1⟩, by simp [Expr.isNegation]⟩
    simp [ih.2 hneg, DataType.isNumeric] at hnumeric
  | not _ ih => exact ⟨ih.1, fun _ => rfl⟩
  | arith _ _ _ harith ihl ihr =>
    obtain ⟨-, hnumeric, -⟩ := TurtleCompiler.Expr.arithmetic_eq_ok harith
    refine ⟨⟨fun hneg => ?_, ihl.1, ihr.1⟩, by simp [Expr.isNegation]⟩
    simp [ihr.2 hneg, DataType.isNumeric] at hnumeric
  | compare _ _ h ihl ihr =>
    obtain ⟨-, ⟨-, htype⟩, -⟩ := Lowering.comparison_eq_ok h
    exact ⟨⟨fun hneg => htype (ihr.2 hneg), ihl.1, ihr.1⟩, by simp [Expr.isNegation]⟩
  | logic _ _ _ ihl ihr => exact ⟨⟨ihl.1, ihr.1⟩, by simp [Expr.isNegation]⟩

theorem EachBecomes.isLayered {es : List Expr} {s s' : Lowering} {es' : List TurtleCompiler.Expr}
    (h : EachBecomes es s es' s') : ∀ e ∈ es, e.IsLayered := by
  induction h with
  | nil => simp
  | cons he _ ih => exact List.forall_mem_cons.2 ⟨he.isLayered.1, ih⟩

mutual

theorem Stmt.Becomes.isLayered {st : Stmt} {s s' : Lowering} {n : Node} :
    st.Becomes s n s' → st.IsLayered
  | .expr he | .assign he _ => he.isLayered.1
  | .call hargs _ => hargs.isLayered
  | .print hargs _ => List.forall_mem_cons.1 hargs.isLayered
  | .typein _ => trivial
  | .ifThen htest hyes => ⟨htest.isLayered.1, hyes.allLayered⟩
  | .ifElse htest hyes hno => ⟨htest.isLayered.1, hyes.allLayered, hno.allLayered⟩
  | .whileDo htest hbody => ⟨htest.isLayered.1, hbody.allLayered⟩

theorem AllBecome.allLayered {ss : List Stmt} {s s' : Lowering} {ns : List Node} :
    AllBecome ss s ns s' → AllLayered ss
  | .nil => trivial
  | .cons hn hns => ⟨hn.isLayered, hns.allLayered⟩

end

theorem Item.isLayered_of_lower {i : Item} (hi : i.isComplete) {s s' : Lowering}
    {fault : Option Error} (h : i.lower s = .ok fault s') : i.IsLayered := by
  cases (Item.becomes hi h).1 with
  | statement hn => exact hn.isLayered
  | definition _ hbody _ => exact hbody.allLayered

variable {p : Program} {s s' : Lowering} {u : Unit}

theorem Program.items_ne_nil (h : p.lower s = .ok u s') : p.items ≠ [] := by
  rintro hnil
  simp only [Program.lower, bind_eq_ok] at h
  obtain ⟨_, _, -, _, _, -, h⟩ := h
  simp [hnil, bind_eq_ok] at h

theorem Program.isSemantic_of_lower (hcomplete : ∀ i ∈ p.items, i.isComplete)
    (hne : p.items ≠ []) {e : Error} (h : p.lower s = .error e s') : e.IsSemantic := by
  simp only [Program.lower, bind_eq_error] at h
  rcases h with h | ⟨faults, s₁, hitems, h | ⟨_, s₂, -, h⟩⟩
  · exact Blames.mapM (fun i hi => i.semantic_lower (hcomplete i hi)) h
  · exact absurd h modify_ne_error
  · have hnone : faults.findSome? id = none := by
      simp only [List.findSome?_eq_none_iff, id]
      intro fault hfault
      obtain ⟨i, hi, s₃, s₄, hrun⟩ := (runs_of_mapM hitems).2 fault hfault
      exact (Item.becomes (hcomplete i hi) hrun).2
    rw [if_neg (by simpa using hne), hnone] at h
    exact absurd h pure_ne_error

end Source

/-- A token list that is lowered to its end is a program, in which the parameters of a procedure are
all the variables after its name. A program is lowered to its end, or fails for what it means. -/
theorem lower_parse_program {feed : Feed} {line : Nat} (hending : feed.ending = .ok line)
    (s : Lowering) :
    (∀ {u s'}, (Source.parse feed).lower s = .ok u s' → Grammar.Program True feed.lexemes) ∧
      (Grammar.Program True feed.lexemes →
        ∀ {e s'}, (Source.parse feed).lower s = .error e s' → e.IsSemantic) := by
  constructor
  · intro u s' h
    obtain ⟨faults, s₁, hitems, hnone, -⟩ := Source.Program.lower_eq_ok h
    have hcomplete := Source.complete_of_lower hitems hnone
    refine Source.program_parse (fun i hi => ?_) (Source.Program.items_ne_nil h)
    obtain ⟨fault, s₂, s₃, hrun⟩ := (runs_of_mapM hitems).1 i hi
    exact i.isLayered_of_lower (hcomplete i hi) hrun
  · rintro ⟨u, v, heq, hu, hv⟩ e s' h
    have hmany : Grammar.Many (Grammar.Item True) feed.lexemes := heq ▸ .cons hu hv
    have hlength : feed.lexemes.length < feed.tokens.length + 1 := by simp [Feed.lexemes]
    have hcomplete := Source.isComplete_items hmany hlength ⟨rfl, hending⟩
    refine Source.Program.isSemantic_of_lower hcomplete
      (Source.items_ne_nil fun hnil => hu.ne_nil ?_) h
    have hempty : u ++ v = [] := by simpa [Feed.lexemes, hnil] using heq.symm
    exact (List.append_eq_nil_iff.1 hempty).1

def bareLowering : Lowering := { table := { scopes := [⟨"", {}⟩] }, entry := ⟨0⟩ }

def errorFrom (s : Lowering) (text : String) : Option Error :=
  match (Source.parse (.ofText text)).lower s with
  | .ok .. => none
  | .error e _ => some e

theorem lower_of_errorFrom (s : Lowering) (text : String) :
    ∃ s', (Source.parse (.ofText text)).lower s =
    (errorFrom s text).elim (.ok () s') fun e => .error e s' := by
  unfold errorFrom
  split <;> exact ⟨_, ‹_›⟩

theorem eq_ok_of_toOption {x : Except ε α} {a : α} (h : x.toOption = some a) : x = .ok a := by
  cases x <;> simp_all [Except.toOption]

def countdownText : String :=
  "TO DOWN :N IF NOT :N < 1 THEN DOWN :N - 1 END END DOWN 3 Y = -2 ^ +3 + 1"

def senselessText : String := "X = 1 + (NOT TRUE)"

theorem lower_parse_program_countdown :
    (∃ s', (Source.parse (.ofText countdownText)).lower bareLowering = .ok () s') ∧
      Grammar.Program True (Feed.ofText countdownText).lexemes ∧
      Grammar.Program True (Feed.ofText senselessText).lexemes ∧
      ∃ e s', (Source.parse (.ofText senselessText)).lower bareLowering = .error e s' ∧
      e.IsSemantic := by
  have hcountdown : errorFrom bareLowering countdownText = none ∧
      (Feed.ofText countdownText).ending.toOption = some 1 := by decide +kernel
  have hsenseless : errorFrom bareLowering senselessText = some (.type 1 (.invalid .bool)) ∧
      (Feed.ofText senselessText).ending.toOption = some 1 ∧ (Feed.ofText senselessText).lexemes =
        .identifier :: .assignOp ::
        ([.number] ++ .addOp :: (.openParen :: [.notKey, .boolean] ++ [.closeParen])) := by
    decide +kernel
  have hnegation : Grammar.Expression .negation [.notKey, .boolean] :=
    .negation (.tighter (by decide) (.literal rfl))
  have hsum :
      Grammar.Expression .sum
      ([.number] ++ .addOp :: (.openParen :: [.notKey, .boolean] ++ [.closeParen])) :=
    .sum (.tighter (by decide) (.literal rfl))
    (.tighter (by decide) (.paren (.tighter (by decide) hnegation)))
  have hprogram : Grammar.Program True (Feed.ofText senselessText).lexemes := by
    rw [hsenseless.2.2]
    exact ⟨_, [], (List.append_nil _).symm,
      .statement (.assign (.tighter (by decide) hsum)), .nil⟩
  obtain ⟨s₁, hlower⟩ := lower_of_errorFrom bareLowering countdownText
  obtain ⟨s₂, hlower'⟩ := lower_of_errorFrom bareLowering senselessText
  rw [hcountdown.1, Option.elim_none] at hlower
  rw [hsenseless.1, Option.elim_some] at hlower'
  refine ⟨⟨s₁, hlower⟩, ?_, hprogram, _, s₂, hlower', ?_⟩
  · exact (lower_parse_program (eq_ok_of_toOption hcountdown.2) _).1 hlower
  · exact (lower_parse_program (eq_ok_of_toOption hsenseless.2.1) _).2 hprogram hlower'

theorem body_begins_with_variable :
    Grammar.Program False (Feed.ofText "TO F :X * 2 END").lexemes ∧
    compile "TO F :X * 2 END" = .error (.unparsed 1 (.unexpectedToken "*" .mulOp)) := by
  have hfailure : failure? "TO F :X * 2 END" = some (.unparsed 1 (.unexpectedToken "*" .mulOp)) ∧
      (Feed.ofText "TO F :X * 2 END").lexemes =
        .toKey :: .identifier :: List.replicate 0 .colonIdentifier ++
          ([.colonIdentifier] ++ .mulOp :: [.number]) ++ [.endKey] := by
    decide +kernel
  have hproduct : Grammar.Expression .product ([.colonIdentifier] ++ .mulOp :: [.number]) :=
    .product (.tighter (by decide) (.literal rfl)) (.tighter (by decide) (.literal rfl))
  constructor
  · rw [hfailure.2]
    exact ⟨_, [], (List.append_nil _).symm,
      .definition (.single (.expr (.tighter (by decide) hproduct))) False.elim, .nil⟩
  · have hfails := (Failing.of ⟨_, hfailure.1, rfl⟩ : Failing "TO F :X * 2 END" (· = _))
    rw [hfails.fails, hfails.holds]

end TurtleCompiler
