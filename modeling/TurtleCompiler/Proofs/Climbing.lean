import TurtleCompiler.Source.Parser

/-!
How an expression is parsed, without the fuel that the parser is given.
-/

namespace TurtleCompiler.Source

/-- Where precedence climbing stands: before an operand, or behind the left operand `l`. -/
inductive Stage where
  | operand (power : Nat) (feed : Feed)
  | operators (power : Nat) (l : Expr) (feed : Feed)

namespace Stage

@[simp] def power : Stage → Nat
  | operand power _ | operators power _ _ => power

@[simp] def feed : Stage → Feed
  | operand _ feed | operators _ _ feed => feed

def run (fuel : Nat) : Stage → Except Failure (Expr × Feed)
  | operand power feed => exprAbove fuel power feed
  | operators power l feed => Source.operators fuel power l feed

end Stage

def leaf? (t : Token) (feed : Feed) : Option (Expr × Feed) :=
  match t.lexeme with
  | .number => some (.number t.text (site feed t.line), (settled feed).advance)
  | .string => some (.string t.text, feed.advance)
  | .boolean => some (.boolean t.text, feed.advance)
  | .colonIdentifier => some (.var (variableName t) (site feed t.line), (settled feed).advance)
  | .randomKey => some (.random, feed.advance)
  | _ => none

def innerPower? : Lexeme → Option Nat
  | .openParen => some 0
  | .notKey => some notPower
  | .addOp => some signPower
  | _ => none

inductive Climbs : Stage → Except Failure (Expr × Feed) → Prop
  | unexpected : (∀ t ∈ feed.tokens.head?, startsExpr t.1.lexeme = false) →
      Climbs (.operand power feed) (.error (unexpected feed))
  | leaf : feed.tokens = (t, notes) :: tokens → leaf? t feed = some (l, feed₁) →
      Climbs (.operators power l feed₁) r → Climbs (.operand power feed) r
  | inner : feed.tokens = (t, notes) :: tokens → innerPower? t.lexeme = some right →
      Climbs (.operand right feed.advance) (.error f) → Climbs (.operand power feed) (.error f)
  | unclosed : feed.tokens = (t, notes) :: tokens → t.lexeme = .openParen →
      Climbs (.operand 0 feed.advance) (.ok (e, feed₁)) →
      take .closeParen feed₁ = .error f →
      Climbs (.operand power feed) (.error (f.after [.expr e]))
  | paren : feed.tokens = (t, notes) :: tokens → t.lexeme = .openParen →
      Climbs (.operand 0 feed.advance) (.ok (e, feed₁)) →
      take .closeParen feed₁ = .ok (t', feed₂) →
      Climbs (.operators power e feed₂) r → Climbs (.operand power feed) r
  | negation : feed.tokens = (t, notes) :: tokens → t.lexeme = .notKey →
      Climbs (.operand notPower feed.advance) (.ok (e, feed₁)) →
      Climbs (.operators power (.not e (site feed₁ t.line)) (settled feed₁)) r →
      Climbs (.operand power feed) r
  | sign : feed.tokens = (t, notes) :: tokens → t.lexeme = .addOp →
      Climbs (.operand signPower feed.advance) (.ok (e, feed₁)) →
      Climbs (.operators power (.ofSign t e (site feed₁ t.line)) (settled feed₁)) r →
      Climbs (.operand power feed) r
  | finish : feed.tokens = [] →
      Climbs (.operators power l feed) (following [.expr l] (atEnd feed l))
  | stop : feed.tokens = (t, notes) :: tokens →
      (∀ powers ∈ bindingPower t.lexeme, powers.1 < power) →
      Climbs (.operators power l feed) (.ok (l, feed))
  | broken : feed.tokens = (t, notes) :: tokens → bindingPower t.lexeme = some (left, right) →
      power ≤ left → Climbs (.operand right feed.advance) (.error f) →
      Climbs (.operators power l feed) (.error (f.after [.expr l]))
  | step : feed.tokens = (t, notes) :: tokens → bindingPower t.lexeme = some (left, right) →
      power ≤ left → Climbs (.operand right feed.advance) (.ok (e, feed₁)) →
      Climbs (.operators power (.ofOperator t l e (site feed₁ t.line)) (settled feed₁)) r →
      Climbs (.operators power l feed) r

variable {st : Stage} {r : Except Failure (Expr × Feed)} {e l : Expr}
  {feed rest : Feed} {t : Token} {notes : List Event} {tokens : List (Token × List Event)}
  {power fuel fuel' : Nat}

theorem length_advance (h : feed.tokens = (t, notes) :: tokens) :
    feed.advance.tokens.length + 1 = feed.tokens.length := by
  simp [Feed.advance, h]

theorem length_leaf (h : feed.tokens = (t, notes) :: tokens)
    (hleaf : leaf? t feed = some (l, rest)) : rest.tokens.length + 1 = feed.tokens.length := by
  unfold leaf? at hleaf
  split at hleaf <;> cases hleaf <;> simp [Feed.advance, settled, h]

theorem length_take {lexeme : Lexeme} (h : take lexeme feed = .ok (t, rest)) :
    rest.tokens.length + 1 = feed.tokens.length := by
  unfold take at h
  split at h
  · split at h <;> cases h
    exact length_advance ‹_›
  · cases h

theorem Climbs.length_le (h : Climbs st r) (hr : r = .ok (e, rest)) :
    rest.tokens.length ≤ st.feed.tokens.length := by
  induction h generalizing e rest with
  | unexpected | inner | unclosed | broken => cases hr
  | leaf hfeed hleaf _ ih =>
    have := length_leaf hfeed hleaf
    have := ih hr
    simp only [Stage.feed] at *
    omega
  | paren hfeed _ _ hclose _ ih ih' =>
    have := length_advance hfeed
    have := length_take hclose
    have := ih rfl
    have := ih' hr
    simp only [Stage.feed] at *
    omega
  | negation hfeed _ _ _ ih ih' | sign hfeed _ _ _ ih ih' | step hfeed _ _ _ _ ih ih' =>
    have := length_advance hfeed
    have := ih rfl
    have := ih' hr
    simp only [Stage.feed, settled] at *
    omega
  | finish =>
    simp only [following, atEnd] at hr
    split at hr <;> cases hr
    exact Nat.le_refl _
  | stop => cases hr; exact Nat.le_refl _

theorem climbs_run (st : Stage) (h : st.feed.tokens.length < fuel) : Climbs st (st.run fuel) := by
  induction fuel generalizing st with
  | zero => exact absurd h (Nat.not_lt_zero _)
  | succ fuel ih =>
    have hnext {e l : Expr} {power power' : Nat} {feed feed₁ : Feed}
        (he : Climbs (.operand power feed) (.ok (e, feed₁))) (hlt : feed.tokens.length < fuel) :
        Climbs (.operators power' l (settled feed₁))
        (operators fuel power' l (settled feed₁)) :=
      ih (.operators ..)
        (Nat.lt_of_le_of_lt (Climbs.length_le he rfl : feed₁.tokens.length ≤ _) hlt)
    cases st with
    | operand power feed =>
      rw [Stage.run, exprAbove]
      split
      · exact .unexpected (by simp [*])
      · rename_i t notes tokens hfeed
        have hlt : feed.advance.tokens.length < fuel := by
          have := length_advance hfeed
          simp only [Stage.feed] at h
          omega
        have hleaf {l : Expr} {feed₁ : Feed} (hleaf : leaf? t feed = some (l, feed₁)) :
            Climbs (.operand power feed) (operators fuel power l feed₁) := by
          refine .leaf hfeed hleaf (ih (.operators ..) ?_)
          have := length_leaf hfeed hleaf
          simp only [Stage.feed] at h ⊢
          omega
        have hinner (right : Nat) :
            Climbs (.operand right feed.advance) (exprAbove fuel right feed.advance) :=
          ih (.operand ..) hlt
        split
        · exact hleaf (by simp only [leaf?, *])
        · exact hleaf (by simp only [leaf?, *])
        · exact hleaf (by simp only [leaf?, *])
        · exact hleaf (by simp only [leaf?, *])
        · exact hleaf (by simp only [leaf?, *])
        · have he := hinner 0
          cases hr : exprAbove fuel 0 feed.advance with rw [hr] at he
          | error f => exact .inner hfeed (by simp only [innerPower?, *]) he
          | ok r =>
            change Climbs _ (following [.expr r.1] (take .closeParen r.2) >>= fun c =>
              operators fuel power r.1 c.2)
            cases hclose : take .closeParen r.2 with
            | error f => exact .unclosed hfeed ‹_› he hclose
            | ok c =>
              refine .paren hfeed ‹_› he hclose (ih (.operators ..) ?_)
              have := length_take hclose
              have := he.length_le rfl
              simp only [Stage.feed] at *
              omega
        · have he := hinner notPower
          cases hr : exprAbove fuel notPower feed.advance with rw [hr] at he
          | error f => exact .inner hfeed (by simp only [innerPower?, *]) he
          | ok r => exact .negation hfeed ‹_› he (hnext he hlt)
        · have he := hinner signPower
          cases hr : exprAbove fuel signPower feed.advance with rw [hr] at he
          | error f => exact .inner hfeed (by simp only [innerPower?, *]) he
          | ok r => exact .sign hfeed ‹_› he (hnext he hlt)
        · refine .unexpected fun s hs => ?_
          obtain rfl : (t, notes) = s := by simpa [hfeed] using hs
          unfold startsExpr
          split <;> simp_all
    | operators power l feed =>
      rw [Stage.run, operators]
      split
      · exact .finish ‹_›
      · rename_i t notes tokens hfeed
        have hlt : feed.advance.tokens.length < fuel := by
          have := length_advance hfeed
          simp only [Stage.feed] at h
          omega
        split
        · exact .stop hfeed (by simp [*])
        · rename_i left right hop
          split
          · exact .stop hfeed (by simp [*])
          · have he := ih (.operand right feed.advance) hlt
            rw [Stage.run] at he
            cases hr : exprAbove fuel right feed.advance with rw [hr] at he
            | error f => exact .broken hfeed hop (Nat.le_of_not_lt ‹_›) he
            | ok r => exact .step hfeed hop (Nat.le_of_not_lt ‹_›) he (hnext he hlt)

section Unfolding

variable (hfeed : feed.tokens = (t, notes) :: tokens)

include hfeed

theorem exprAbove_leaf (h : leaf? t feed = some (l, rest)) :
    exprAbove (fuel + 1) power feed = operators fuel power l rest := by
  rw [exprAbove, hfeed]
  unfold leaf? at h
  split at h <;> cases h <;> simp only [*]

theorem exprAbove_paren (ht : t.lexeme = .openParen) :
    exprAbove (fuel + 1) power feed = (exprAbove fuel 0 feed.advance >>= fun r =>
      following [.expr r.1] (take .closeParen r.2) >>= fun c => operators fuel power r.1 c.2) := by
  simp only [exprAbove, hfeed, ht]

theorem exprAbove_not (ht : t.lexeme = .notKey) :
    exprAbove (fuel + 1) power feed = exprAbove fuel notPower feed.advance >>= fun r =>
      operators fuel power (.not r.1 (site r.2 t.line)) (settled r.2) := by
  simp only [exprAbove, hfeed, ht]

theorem exprAbove_sign (ht : t.lexeme = .addOp) :
    exprAbove (fuel + 1) power feed = exprAbove fuel signPower feed.advance >>= fun r =>
      operators fuel power (.ofSign t r.1 (site r.2 t.line)) (settled r.2) := by
  simp only [exprAbove, hfeed, ht]

theorem operators_stop (h : ∀ powers ∈ bindingPower t.lexeme, powers.1 < power) :
    operators (fuel + 1) power l feed = .ok (l, feed) := by
  rw [operators, hfeed]
  cases hop : bindingPower t.lexeme with
  | none => simp only [hop]
  | some powers => simp only [hop, if_pos (h powers hop)]

theorem operators_step {left right : Nat} (hop : bindingPower t.lexeme = some (left, right))
    (hleft : power ≤ left) :
    operators (fuel + 1) power l feed =
      following [.expr l] (exprAbove fuel right feed.advance) >>= fun r =>
      operators fuel power (.ofOperator t l r.1 (site r.2 t.line)) (settled r.2) := by
  simp only [operators, hfeed, hop, if_neg (Nat.not_lt.2 hleft)]

end Unfolding

theorem exprAbove_unexpected (h : ∀ t ∈ feed.tokens.head?, startsExpr t.1.lexeme = false) :
    exprAbove fuel power feed = .error (unexpected feed) := by
  cases fuel with
  | zero => rw [exprAbove]
  | succ fuel =>
    rw [exprAbove]
    cases hfeed : feed.tokens with
    | nil => rfl
    | cons s tokens =>
      have hs := h s (by simp [hfeed])
      dsimp only
      split <;> simp_all [startsExpr]

theorem climbs_expr (feed : Feed) : Climbs (.operand 0 feed) (expr feed) :=
  climbs_run (.operand 0 feed) (Nat.lt_succ_self _)

theorem run_advance {right : Nat} (hfeed : feed.tokens = (t, notes) :: tokens)
    (ih : ∀ {fuel}, feed.advance.tokens.length < fuel → exprAbove fuel right feed.advance = r)
    (hfuel : feed.tokens.length < fuel + 1) : exprAbove fuel right feed.advance = r := by
  have := length_advance hfeed
  exact ih (by omega)

theorem run_settled {right : Nat} {feed₁ : Feed} (hfeed : feed.tokens = (t, notes) :: tokens)
    (he : Climbs (.operand right feed.advance) (.ok (e, feed₁)))
    (ih : ∀ {fuel}, (settled feed₁).tokens.length < fuel →
      operators fuel power l (settled feed₁) = r)
    (hfuel : feed.tokens.length < fuel + 1) : operators fuel power l (settled feed₁) = r := by
  have := length_advance hfeed
  have hle : feed₁.tokens.length ≤ feed.advance.tokens.length := he.length_le rfl
  exact ih (by simp only [settled]; omega)

theorem Climbs.run_eq (h : Climbs st r) (hfuel : st.feed.tokens.length < fuel) :
    st.run fuel = r := by
  induction h generalizing fuel with
    (obtain ⟨fuel, rfl⟩ := Nat.exists_eq_add_one_of_ne_zero (Nat.ne_zero_of_lt hfuel))
  | unexpected h => exact exprAbove_unexpected h
  | leaf hfeed hleaf _ ih =>
    have := length_leaf hfeed hleaf
    rw [Stage.run, exprAbove_leaf hfeed hleaf]
    exact ih (by simp only [Stage.feed] at *; omega)
  | inner hfeed hright _ ih =>
    unfold innerPower? at hright
    split at hright <;> cases hright
    · rw [Stage.run, exprAbove_paren hfeed ‹_›, run_advance hfeed ih hfuel]
      rfl
    · rw [Stage.run, exprAbove_not hfeed ‹_›, run_advance hfeed ih hfuel]
      rfl
    · rw [Stage.run, exprAbove_sign hfeed ‹_›, run_advance hfeed ih hfuel]
      rfl
  | unclosed hfeed ht _ hclose ih =>
    rw [Stage.run, exprAbove_paren hfeed ht, run_advance hfeed ih hfuel]
    change following _ (take .closeParen _) >>= _ = _
    rw [hclose]
    rfl
  | paren hfeed ht he hclose _ ih ih' =>
    rw [Stage.run, exprAbove_paren hfeed ht, run_advance hfeed ih hfuel]
    change following _ (take .closeParen _) >>= _ = _
    rw [hclose]
    have hlength := length_take hclose
    have hle := he.length_le rfl
    simp only [Stage.feed, ← length_advance hfeed] at *
    exact ih' (by omega)
  | negation hfeed ht he _ ih ih' =>
    rw [Stage.run, exprAbove_not hfeed ht, run_advance hfeed ih hfuel]
    exact run_settled hfeed he ih' hfuel
  | sign hfeed ht he _ ih ih' =>
    rw [Stage.run, exprAbove_sign hfeed ht, run_advance hfeed ih hfuel]
    exact run_settled hfeed he ih' hfuel
  | finish hfeed => simp only [Stage.run, operators, hfeed]
  | stop hfeed h => exact operators_stop hfeed h
  | broken hfeed hop hleft _ ih =>
    rw [Stage.run, operators_step hfeed hop hleft, run_advance hfeed ih hfuel]
    rfl
  | step hfeed hop hleft he _ ih ih' =>
    rw [Stage.run, operators_step hfeed hop hleft, run_advance hfeed ih hfuel]
    exact run_settled hfeed he ih' hfuel

theorem Stage.run_fuel (st : Stage) (h : st.feed.tokens.length < fuel)
    (h' : st.feed.tokens.length < fuel') : st.run fuel = st.run fuel' :=
  (climbs_run st h').run_eq h

end TurtleCompiler.Source
