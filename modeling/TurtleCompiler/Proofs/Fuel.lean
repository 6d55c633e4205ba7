import TurtleCompiler.Proofs.Derivation

/-!
The fuel of the parser. A list takes a token for each round, and a statement takes one before the
statements in it. So with more fuel than there are tokens the result does not depend on the fuel,
and there is always some left.
-/

namespace TurtleCompiler.Source

variable {feed : Feed} {fuel fuel' : Nat}

theorem except_bind_congr {x : Except ε α} {f g : α → Except ε β}
    (h : ∀ a, x = .ok a → f a = g a) : x >>= f = x >>= g := by
  cases x with
  | error => rfl
  | ok a => exact h a rfl

section Rounds

variable (h : feed.tokens.length < fuel) (h' : feed.tokens.length < fuel')

include h h'

theorem exprAbove_fuel (power : Nat) : exprAbove fuel power feed = exprAbove fuel' power feed :=
  (Stage.operand power feed).run_fuel h h'

theorem operators_fuel (power : Nat) (l : Expr) :
    operators fuel power l feed = operators fuel' power l feed :=
  (Stage.operators power l feed).run_fuel h h'

theorem arguments_fuel : arguments fuel feed = arguments fuel' feed := by
  induction fuel generalizing fuel' feed with
  | zero => exact absurd h (Nat.not_lt_zero _)
  | succ fuel ih =>
    obtain ⟨fuel', rfl⟩ := Nat.exists_eq_add_one_of_ne_zero (Nat.ne_zero_of_lt h')
    rw [arguments, arguments]
    split
    · rfl
    · split
      · apply except_bind_congr
        rintro ⟨e, rest⟩ he
        have hlt := Takes.length_lt (takes_expr feed) he
        dsimp only
        rw [@ih _ fuel' (by omega) (by omega)]
      · rfl

theorem parameters_fuel : parameters fuel feed = parameters fuel' feed := by
  induction fuel generalizing fuel' feed with
  | zero => exact absurd h (Nat.not_lt_zero _)
  | succ fuel ih =>
    obtain ⟨fuel', rfl⟩ := Nat.exists_eq_add_one_of_ne_zero (Nat.ne_zero_of_lt h')
    rw [parameters, parameters]
    split
    · rfl
    · have hlt := length_advance ‹_›
      rw [@ih _ fuel' (by omega) (by omega)]

theorem block_fuel {statement statement' : Feed → Except Failure (Stmt × Feed)}
    (hlt : ∀ {feed s rest}, statement feed = .ok (s, rest) →
      rest.tokens.length < feed.tokens.length)
    (heq : ∀ rest : Feed, rest.tokens.length ≤ feed.tokens.length →
      statement rest = statement' rest) :
    block statement fuel feed = block statement' fuel' feed := by
  induction fuel generalizing fuel' feed with
  | zero => exact absurd h (Nat.not_lt_zero _)
  | succ fuel ih =>
    obtain ⟨fuel', rfl⟩ := Nat.exists_eq_add_one_of_ne_zero (Nat.ne_zero_of_lt h')
    rw [block, block, ← heq feed (Nat.le_refl _)]
    split
    · rfl
    · split
      · rfl
      · apply except_bind_congr
        rintro ⟨s, rest⟩ hs
        have hlt := hlt hs
        dsimp only
        rw [@ih _ fuel' (by omega) (by omega) fun rest' hle => heq rest' (by omega)]

end Rounds

section Nested

variable {statement statement' : Feed → Except Failure (Stmt × Feed)} {t : Token}
  {notes : List Event} {tokens : List (Token × List Event)}
  (hstatement : ∀ feed, Takes feed (statement feed) fun s w => w ≠ [] ∧
    (s.IsLayered → Grammar.Statement w))
  (hfeed : feed.tokens = (t, notes) :: tokens)
  (heq : ∀ rest : Feed, rest.tokens.length < feed.tokens.length →
    statement rest = statement' rest)

include hstatement heq

theorem body_congr (rest : Feed) (h : rest.tokens.length < feed.tokens.length) :
    body statement rest = body statement' rest :=
  block_fuel (Nat.lt_succ_self _) (Nat.lt_succ_self _) (fun hs => Takes.length_lt (hstatement _) hs)
    fun rest' hle => heq rest' (by omega)

include hfeed

theorem ifStatement_congr : ifStatement statement t feed = ifStatement statement' t feed := by
  have hadvance := length_advance hfeed
  apply except_bind_congr
  rintro ⟨cond, feed₁⟩ hcond
  have hlt₁ := Takes.length_lt (takes_expr _) hcond
  apply except_bind_congr
  rintro ⟨_, feed₂⟩ hthen
  have hlt₂ := length_take (following_eq_ok.1 hthen)
  dsimp only
  rw [← body_congr hstatement heq feed₂ (by omega)]
  apply except_bind_congr
  rintro ⟨yes, feed₃⟩ hyes
  have hle₃ := Takes.length_le (takes_block hstatement _ _) (following_eq_ok.1 hyes)
  have hle : feed₃.advance.tokens.length ≤ feed₃.tokens.length := by
    cases htokens : feed₃.tokens <;> simp [Feed.advance, htokens]
  dsimp only
  rw [← body_congr hstatement heq feed₃.advance (by omega)]

theorem whileStatement_congr : whileStatement statement t feed =
    whileStatement statement' t feed := by
  have hadvance := length_advance hfeed
  apply except_bind_congr
  rintro ⟨cond, feed₁⟩ hcond
  have hlt₁ := Takes.length_lt (takes_expr _) hcond
  dsimp only
  rw [← body_congr hstatement heq feed₁ (by omega)]

end Nested

theorem statement_fuel (h : feed.tokens.length < fuel) (h' : feed.tokens.length < fuel') :
    statement fuel feed = statement fuel' feed := by
  induction fuel generalizing fuel' feed with
  | zero => exact absurd h (Nat.not_lt_zero _)
  | succ fuel ih =>
    obtain ⟨fuel', rfl⟩ := Nat.exists_eq_add_one_of_ne_zero (Nat.ne_zero_of_lt h')
    have heq (rest : Feed) (hlt : rest.tokens.length < feed.tokens.length) :
        statement fuel rest = statement fuel' rest := ih (by omega) (by omega)
    rw [statement, statement]
    split
    · rfl
    · split
      · exact ifStatement_congr (takes_statement fuel) ‹_› heq
      · exact whileStatement_congr (takes_statement fuel) ‹_› heq
      all_goals rfl

end TurtleCompiler.Source
