import TurtleCompiler.Proofs.Recognition

/-!
Parsing up to what cannot be scanned. Whatever might have come instead, the phrases that are
complete by then are lowered before it and in the same order, so an error in what they mean is found
all the same.
-/

namespace TurtleCompiler

structure FailsInto (x : EStateM Error σ α) (y : EStateM Error σ β) : Prop where
  run : ∀ {s e s'}, x s = .error e s' → ∃ s'', y s = .error e s''

namespace FailsInto

variable {σ α β γ δ : Type} {x : EStateM Error σ α} {y : EStateM Error σ β}
  {z : EStateM Error σ γ}

theorem refl (x : EStateM Error σ α) : FailsInto x x := ⟨fun h => ⟨_, h⟩⟩

theorem trans (h : FailsInto x y) (h' : FailsInto y z) : FailsInto x z := by
  refine ⟨fun hx => ?_⟩
  obtain ⟨s₁, hy⟩ := h.run hx
  exact h'.run hy

theorem of_pure (a : α) (y : EStateM Error σ β) : FailsInto (pure a : EStateM Error σ α) y :=
  ⟨fun h => absurd h pure_ne_error⟩

theorem head (x : EStateM Error σ α) (k : α → EStateM Error σ β) : FailsInto x (x >>= k) :=
  ⟨fun h => ⟨_, bind_eq_error.2 (.inl h)⟩⟩

theorem bind {k : α → EStateM Error σ β} {k' : α → EStateM Error σ γ}
    (h : ∀ a, FailsInto (k a) (k' a)) : FailsInto (x >>= k) (x >>= k') := by
  refine ⟨fun hx => ?_⟩
  rcases bind_eq_error.1 hx with hx | ⟨a, s₁, hx, hk⟩
  · exact ⟨_, bind_eq_error.2 (.inl hx)⟩
  · obtain ⟨s₂, hk'⟩ := (h a).run hk
    exact ⟨s₂, bind_eq_error.2 (.inr ⟨a, s₁, hx, hk'⟩)⟩

theorem of_bind_pure {k : α → β} : FailsInto (x >>= fun a => pure (k a)) x := by
  refine ⟨fun hx => ?_⟩
  rcases bind_eq_error.1 hx with hx | ⟨a, s₁, -, hk⟩
  · exact ⟨_, hx⟩
  · exact absurd hk pure_ne_error

end FailsInto

namespace Source

def afterPhrases (done : List Phrase) (y : LowerM α) : LowerM α := do
  done.forM Phrase.lower
  y

section AfterPhrases

variable {α : Type} (done : List Phrase) (y : LowerM α)

@[simp] theorem afterPhrases_nil : afterPhrases [] y = y := rfl

theorem afterPhrases_cons (p : Phrase) :
    afterPhrases (p :: done) y = p.lower >>= fun _ => afterPhrases done y := by
  simp [afterPhrases, bind_assoc]

theorem discard_bind {β : Type} (x : LowerM α) (k : PUnit → LowerM β) :
    (discard x >>= k) = x >>= fun _ => k ⟨⟩ := by
  change ((fun _ => ⟨⟩) <$> x >>= k) = _
  rw [bind_map_left]

@[simp] theorem afterPhrases_expr (e : Expr) :
    afterPhrases (.expr e :: done) y = e.lower >>= fun _ => afterPhrases done y := by
  simp [afterPhrases_cons, Phrase.lower, discard_bind]

@[simp] theorem afterPhrases_stmt (s : Stmt) :
    afterPhrases (.stmt s :: done) y = s.lower >>= fun _ => afterPhrases done y := by
  simp [afterPhrases_cons, Phrase.lower, discard_bind]

@[simp] theorem afterPhrases_header (h : Header) :
    afterPhrases (.header h :: done) y = h.lower >>= fun _ => afterPhrases done y := by
  simp [afterPhrases_cons, Phrase.lower, discard_bind]

@[simp] theorem afterPhrases_append (done' : List Phrase) :
    afterPhrases (done ++ done') y = afterPhrases done (afterPhrases done' y) := by
  simp [afterPhrases, bind_assoc]

@[simp] theorem afterPhrases_stmts (ss : List Stmt) :
    afterPhrases (ss.map .stmt) y = lowerAll ss >>= fun _ => y := by
  induction ss with
  | nil => simp [lowerAll]
  | cons s ss ih => simp [lowerAll, ih, bind_assoc]

theorem failsInto_afterPhrases (y : LowerM α) :
    FailsInto (afterPhrases done (pure ())) (afterPhrases done y) :=
  .bind fun _ => .of_pure _ _

end AfterPhrases

def lowerOutcome (low : α → LowerM β) : Except Failure (α × Feed) → LowerM Unit
  | .ok (a, _) => do
    let _ ← low a
    return ()
  | .error failure => afterPhrases failure.done (pure ())

theorem failsInto_ok {low : α → LowerM β} (a : α) (rest : Feed) :
    FailsInto (low a) (lowerOutcome low (.ok (a, rest))) := .head _ _

section Leading

variable {α β γ ι : Type} {x : LowerM γ} {done : List Phrase} {low : α → LowerM β}

theorem failsInto_broken (h : FailsInto x (afterPhrases done (pure ()))) (failure : Failure) :
    FailsInto x (lowerOutcome low (following done (.error failure))) := by
  change FailsInto x (afterPhrases (done ++ failure.done) (pure ()))
  rw [afterPhrases_append]
  exact h.trans (failsInto_afterPhrases done _)

theorem failsInto_following {r : Except Failure ι} {k : ι → Except Failure (α × Feed)}
    (h : FailsInto x (afterPhrases done (pure ())))
    (hk : ∀ a, FailsInto x (lowerOutcome low (k a))) :
    FailsInto x (lowerOutcome low (following done r >>= k)) := by
  cases r with
  | ok a => exact hk a
  | error failure => exact failsInto_broken h failure

end Leading

theorem failsInto_ofOperator (t : Token) (l r : Expr) (s : Site) :
    FailsInto (afterPhrases [.expr l] r.lower) (Expr.ofOperator t l r s).lower := by
  unfold Expr.ofOperator
  rw [afterPhrases_expr]
  split <;> exact .bind fun _ => .head _ _

theorem failsInto_ofSign (t : Token) (e : Expr) (s : Site) :
    FailsInto e.lower (Expr.ofSign t e s).lower := by
  unfold Expr.ofSign
  split <;> exact .head _ _

theorem failsInto_not (e : Expr) (s : Site) : FailsInto e.lower (Expr.not e s).lower := .head _ _

theorem failsInto_expr (e : Expr) : FailsInto e.lower (afterPhrases [.expr e] (pure ())) := by
  rw [afterPhrases_expr]
  exact .head _ _

theorem failsInto_operators (fuel power : Nat) (l : Expr) (feed : Feed) :
    FailsInto l.lower (lowerOutcome Expr.lower (operators fuel power l feed)) := by
  induction fuel generalizing l feed with
  | zero =>
    rw [operators]
    exact failsInto_broken (failsInto_expr l) _
  | succ fuel ih =>
    rw [operators]
    split
    · unfold atEnd
      split
      · exact failsInto_ok l feed
      · exact failsInto_broken (failsInto_expr l) _
    · rename_i t _ _ _
      split
      · exact failsInto_ok l feed
      · split
        · exact failsInto_ok l feed
        · refine failsInto_following (failsInto_expr l) ?_
          rintro ⟨r, feed⟩
          refine .trans ?_ (ih _ _)
          exact .trans (.head _ _)
            (afterPhrases_expr [] r.lower l ▸ failsInto_ofOperator t l r (site feed t.line))

end Source

def Feed.continued (feed sequel : Feed) : Feed :=
  ⟨feed.notes, feed.tokens ++ sequel.tokens, sequel.ending⟩

structure Feed.Cut (e : Error) (n : Nat) (feed : Feed) : Prop where
  ending : feed.ending = .error e
  length : feed.tokens.length ≤ n

variable {e : Error}

theorem Feed.Cut.uncons {n : Nat} {notes : List Event} {entry : Token × List Event}
    {tokens : List (Token × List Event)} {ending : Except Error Nat}
    (h : Cut e n ⟨notes, entry :: tokens, ending⟩) :
    ∃ m, n = m + 1 ∧ ∀ notes', Cut e m ⟨notes', tokens, ending⟩ := by
  obtain ⟨m, rfl⟩ := Nat.exists_eq_add_of_le' (Nat.le_trans (Nat.le_add_left 1 _) h.length)
  exact ⟨m, rfl, fun _ => ⟨h.ending, Nat.le_of_succ_le_succ h.length⟩⟩

theorem Feed.Cut.full {n : Nat} {feed : Feed} (h : feed.Cut e n) : feed.Cut e feed.tokens.length :=
  ⟨h.ending, Nat.le_refl _⟩

theorem Feed.Cut.mono {n m : Nat} {feed : Feed} (h : feed.Cut e n) (hnm : n ≤ m) : feed.Cut e m :=
  ⟨h.ending, Nat.le_trans h.length hnm⟩

theorem Feed.Cut.settled {n : Nat} {feed : Feed} (h : feed.Cut e n) :
    (Source.settled feed).Cut e n :=
  ⟨h.ending, h.length⟩

namespace Source

/-- What becomes of a parse when its feed goes on. A parse that did not get to the end stays as it
is; in any other, what was complete at the end still comes first. -/
inductive Resumes (sequel : Feed) (e : Error) (n : Nat) (low : α → LowerM β) :
    Except Failure (α × Feed) → Except Failure (α × Feed) → Prop
  | ok {a : α} {rest : Feed} : rest.Cut e n →
      Resumes sequel e n low (.ok (a, rest)) (.ok (a, rest.continued sequel))
  | fault {done : List Phrase} {fault : SyntaxFault} {site : Site} {rest : Feed} :
      rest.Cut e (n + 1) → rest.tokens ≠ [] →
      Resumes sequel e n low (.error ⟨done, .grammatical fault site, rest⟩)
        (.error ⟨done, .grammatical fault site, rest.continued sequel⟩)
  | cut {done : List Phrase} {notes : List Event} {rest : Feed} {r' : Except Failure (α × Feed)} :
      FailsInto (afterPhrases done (pure ())) (lowerOutcome low r') →
      Resumes sequel e n low (.error ⟨done, .lexical e notes, rest⟩) r'

namespace Resumes

variable {α β γ δ : Type} {sequel : Feed} {e : Error} {n m : Nat} {low : α → LowerM β}
  {low' : γ → LowerM δ} {r r' : Except Failure (α × Feed)}

theorem mono (h : Resumes sequel e m low r r') (hmn : m ≤ n) : Resumes sequel e n low r r' := by
  cases h with
  | ok h => exact .ok (h.mono hmn)
  | fault h hne => exact .fault (h.mono (Nat.succ_le_succ hmn)) hne
  | cut h => exact .cut h

theorem eq_ok {a : α} {rest : Feed} (h : Resumes sequel e n low (.ok (a, rest)) r') :
    r' = .ok (a, rest.continued sequel) ∧ rest.Cut e n := by
  cases h with
  | ok h => exact ⟨rfl, h⟩

theorem broken {f : Failure} {k' : α × Feed → Except Failure (γ × Feed)}
    (h : Resumes sequel e m low (.error f) r') (hmn : m ≤ n)
    (hlow : ∀ a rest, FailsInto (low a) (lowerOutcome low' (k' (a, rest)))) :
    Resumes sequel e n low' (.error f) (r' >>= k') := by
  cases h with
  | fault h hne => exact .fault (h.mono (Nat.succ_le_succ hmn)) hne
  | cut h =>
    refine .cut ?_
    cases r' with
    | ok a => exact h.trans (.trans .of_bind_pure (hlow a.1 a.2))
    | error failure => exact h

theorem bind {k k' : α × Feed → Except Failure (γ × Feed)} (h : Resumes sequel e m low r r')
    (hmn : m ≤ n)
    (hk : ∀ {a rest}, rest.Cut e m →
      Resumes sequel e n low' (k (a, rest)) (k' (a, rest.continued sequel)))
    (hlow : ∀ a rest, FailsInto (low a) (lowerOutcome low' (k' (a, rest)))) :
    Resumes sequel e n low' (r >>= k) (r' >>= k') := by
  cases r with
  | ok a =>
    obtain ⟨rfl, ha⟩ := h.eq_ok
    exact hk ha
  | error f => exact h.broken hmn hlow

theorem following (done : List Phrase) (h : Resumes sequel e n low r r') :
    Resumes sequel e n (fun a => afterPhrases done (low a)) (following done r)
    (following done r') := by
  cases h with
  | ok h => exact .ok h
  | fault h hne => exact .fault h hne
  | cut h =>
    refine .cut ?_
    rw [afterPhrases_append]
    refine .trans (.bind fun _ => h) ?_
    cases r' with
    | ok a =>
      change FailsInto (afterPhrases done (low a.1 >>= fun _ => pure ()))
        (afterPhrases done (low a.1) >>= fun _ => pure ())
      rw [afterPhrases, afterPhrases, bind_assoc]
      exact .refl _
    | error failure =>
      change FailsInto (afterPhrases done (afterPhrases failure.done (pure ())))
        (afterPhrases (done ++ failure.done) (pure ()))
      rw [afterPhrases_append]
      exact .refl _

theorem ite {p : Prop} [Decidable p] {q q' : Except Failure (α × Feed)}
    (hr : Resumes sequel e n low r r') (hq : Resumes sequel e n low q q') :
    Resumes sequel e n low (if p then r else q) (if p then r' else q') := by
  split
  · exact hr
  · exact hq

end Resumes

def ifEnd (statement : Feed → Except Failure (Stmt × Feed)) (t : Token) (cond : Expr)
    (yes : List Stmt) (feed : Feed) : Except Failure (Stmt × Feed) := do
  let done := .expr cond :: yes.map .stmt
  if feed.tokens.head?.any (·.1.lexeme = .elseKey) then
    let (no, feed) ← following done (body statement feed.advance)
    let (_, notes, feed) ← following (done ++ no.map .stmt) (close .endKey feed)
    return (.ifElse cond yes no ⟨t.line, notes⟩, feed)
  else
    let (_, notes, feed) ← following done (close .endKey feed)
    return (.ifThen cond yes ⟨t.line, notes⟩, feed)

theorem ifStatement_eq (statement : Feed → Except Failure (Stmt × Feed)) (t : Token)
    (feed : Feed) :
    ifStatement statement t feed = (do
      let (cond, feed) ← expr feed.advance
      let (_, feed) ← following [.expr cond] (take .thenKey feed)
      let (yes, feed) ← following [.expr cond] (body statement feed)
      ifEnd statement t cond yes feed) := rfl

theorem failsInto_append (done done' : List Phrase) :
    FailsInto (afterPhrases done (pure ())) (afterPhrases (done ++ done') (pure ())) := by
  rw [afterPhrases_append]
  exact failsInto_afterPhrases done _

theorem failsInto_stmts (done : List Phrase) (ss : List Stmt) :
    FailsInto (afterPhrases done (lowerAll ss))
    (afterPhrases (done ++ ss.map .stmt) (pure ())) := by
  rw [afterPhrases_append, afterPhrases_stmts]
  exact .bind fun _ => .head _ _

theorem failsInto_ifThen (cond : Expr) (yes : List Stmt) (s : Site) :
    FailsInto (afterPhrases (.expr cond :: yes.map .stmt) (pure ()))
    (Stmt.ifThen cond yes s).lower := by
  simp only [afterPhrases_expr, afterPhrases_stmts, Stmt.lower]
  exact .bind fun _ => .bind fun _ => .of_pure _ _

theorem failsInto_ifElse (cond : Expr) (yes no : List Stmt) (s : Site) :
    FailsInto (afterPhrases (.expr cond :: yes.map .stmt ++ no.map .stmt) (pure ()))
    (Stmt.ifElse cond yes no s).lower := by
  simp only [List.cons_append, afterPhrases_expr, afterPhrases_append,
    afterPhrases_stmts, Stmt.lower]
  exact .bind fun _ => .bind fun _ => .bind fun _ => .of_pure _ _

theorem failsInto_ifEnd (statement : Feed → Except Failure (Stmt × Feed)) (t : Token)
    (cond : Expr) (yes : List Stmt) (feed : Feed) :
      FailsInto (afterPhrases (.expr cond :: yes.map .stmt) (pure ()))
      (lowerOutcome Stmt.lower (ifEnd statement t cond yes feed)) := by
  unfold ifEnd
  dsimp only
  split
  · refine failsInto_following (.refl _) fun r =>
      failsInto_following (failsInto_append ..) fun r' => ?_
    exact .trans (.trans (failsInto_append ..) (failsInto_ifElse cond yes r.1 _)) (failsInto_ok ..)
  · exact failsInto_following (.refl _) fun r =>
      .trans (failsInto_ifThen cond yes _) (failsInto_ok ..)

section Resumption

variable {α β : Type} {sequel : Feed} {e : Error} {n m fuel fuel' : Nat}
  {low : α → LowerM β} {feed : Feed} {done : List Phrase} {notes : List Event}
  {ending : Except Error Nat}

theorem resumes_end (h : Feed.Cut e n ⟨notes, [], ending⟩) (r' : Except Failure (α × Feed)) :
    Resumes sequel e m low (.error (unexpected ⟨notes, [], ending⟩)) r' := by
  obtain rfl := h.ending
  exact .cut (.of_pure _ _)

theorem resumes_atEnd (h : Feed.Cut e n ⟨notes, [], ending⟩) (a : α)
    (r' : Except Failure (α × Feed)) :
    Resumes sequel e m low (atEnd ⟨notes, [], ending⟩ a) r' := by
  obtain rfl := h.ending
  exact .cut (.of_pure _ _)

theorem resumes_unexpected {entry : Token × List Event} {tokens : List (Token × List Event)}
    (h : Feed.Cut e (n + 1) ⟨notes, entry :: tokens, ending⟩) :
    Resumes sequel e n low (.error (unexpected ⟨notes, entry :: tokens, ending⟩))
      (.error (unexpected (Feed.continued ⟨notes, entry :: tokens, ending⟩ sequel))) :=
  .fault h (by simp)

theorem resumes_take (sequel : Feed) (lexeme : Lexeme) (h : feed.Cut e n) :
    Resumes sequel e (n - 1) (fun _ => (pure () : LowerM Unit)) (take lexeme feed)
      (take lexeme (feed.continued sequel)) := by
  obtain ⟨notes, _ | ⟨⟨t, tnotes⟩, tokens⟩, ending⟩ := feed
  · exact resumes_end h _
  · obtain ⟨m, rfl, htail⟩ := h.uncons
    unfold take
    dsimp only [Feed.continued, List.cons_append]
    split
    · exact .ok (htail _)
    · exact resumes_unexpected h

theorem resumes_close {k k' : Token × List Event × Feed → Except Failure (α × Feed)}
    (lexeme : Lexeme) (h : feed.Cut e n) (hk : ∀ {t notes rest}, rest.Cut e (n - 1) →
      Resumes sequel e (n - 1) low (k (t, notes, rest)) (k' (t, notes, rest.continued sequel)))
    (hlow : ∀ r, FailsInto (afterPhrases done (pure ())) (lowerOutcome low (k' r))) :
    Resumes sequel e (n - 1) low (following done (close lexeme feed) >>= k)
      (following done (close lexeme (feed.continued sequel)) >>= k') := by
  obtain ⟨notes, _ | ⟨⟨t, tnotes⟩, tokens⟩, ending⟩ := feed
  · obtain rfl := h.ending
    change Resumes sequel e _ low
      (.error ⟨done ++ [], .lexical e notes, ⟨notes, [], .error e⟩⟩) _
    rw [List.append_nil]
    exact .cut (failsInto_following (.refl _) hlow)
  · obtain ⟨m, rfl, htail⟩ := h.uncons
    unfold close
    dsimp only [Feed.continued, List.cons_append]
    split
    · exact hk (htail _)
    · exact .fault h (List.cons_ne_nil _ _)

theorem cut_advance {t : Token} {tokens : List (Token × List Event)} (h : feed.Cut e n)
    (htokens : feed.tokens = (t, notes) :: tokens) :
    ∃ m, n = m + 1 ∧ feed.advance.Cut e m ∧ (settled feed).advance.Cut e m := by
  obtain ⟨_, _, _⟩ := feed
  obtain rfl : _ = _ := htokens
  obtain ⟨m, rfl, htail⟩ := h.uncons
  exact ⟨m, rfl, htail _, htail _⟩

section Continued

variable {t : Token} {tokens : List (Token × List Event)} (h : feed.tokens = (t, notes) :: tokens)

include h

theorem tokens_continued (sequel : Feed) :
    (feed.continued sequel).tokens = (t, notes) :: (tokens ++ sequel.tokens) := by
  rw [Feed.continued, h, List.cons_append]

theorem advance_continued (sequel : Feed) :
    (feed.continued sequel).advance = feed.advance.continued sequel := by
  simp [Feed.advance, Feed.continued, h]

theorem leaf_continued {l : Expr} {rest : Feed} (hleaf : leaf? t feed = some (l, rest))
    (sequel : Feed) : leaf? t (feed.continued sequel) = some (l, rest.continued sequel) := by
  have hsettled : (settled (feed.continued sequel)).advance =
      (settled feed).advance.continued sequel :=
    advance_continued (show (settled feed).tokens = _ from h) sequel
  unfold leaf? at *
  split at hleaf <;> cases hleaf <;> simp only [*, advance_continued h] <;> rfl

end Continued

def Stage.continued (sequel : Feed) : Stage → Stage
  | .operand power feed => .operand power (feed.continued sequel)
  | .operators power l feed => .operators power l (feed.continued sequel)

def Stage.left (n : Nat) : Stage → Nat
  | .operand .. => n - 1
  | .operators .. => n

theorem resumes_advance {t : Token} {tokens : List (Token × List Event)} {right : Nat}
    {r : Except Failure (Expr × Feed)} (htokens : feed.tokens = (t, notes) :: tokens)
    (hcut : feed.Cut e n)
    (ih : ∀ {n fuel}, feed.advance.Cut e n → n + sequel.tokens.length < fuel →
      Resumes sequel e (n - 1) Expr.lower r (exprAbove fuel right (feed.advance.continued sequel)))
    (hfuel : n + sequel.tokens.length < fuel + 1) : ∃ m, n = m + 1 ∧
      Resumes sequel e (m - 1) Expr.lower r
        (exprAbove fuel right (feed.continued sequel).advance) := by
  obtain ⟨m, rfl, hadvance, -⟩ := cut_advance hcut htokens
  rw [advance_continued htokens]
  exact ⟨m, rfl, ih hadvance (by omega)⟩

theorem Climbs.resumes {st : Stage} {r : Except Failure (Expr × Feed)} (h : Climbs st r)
    (hcut : st.feed.Cut e n) (hfuel : n + sequel.tokens.length < fuel) :
    Resumes sequel e (st.left n) Expr.lower r ((st.continued sequel).run fuel) := by
  induction h generalizing n fuel with
    (obtain ⟨fuel, rfl⟩ := Nat.exists_eq_add_one_of_ne_zero (Nat.ne_zero_of_lt hfuel))
  | @unexpected power feed hnone =>
    obtain ⟨notes, _ | ⟨entry, tokens⟩, ending⟩ := feed
    · exact resumes_end hcut _
    · rw [Stage.continued, Stage.run, exprAbove_unexpected (by simpa [Feed.continued] using hnone)]
      obtain ⟨m, rfl, -⟩ := hcut.uncons
      exact resumes_unexpected hcut
  | leaf htokens hleaf _ ih =>
    obtain ⟨m, rfl, hadvance, hadvance'⟩ := cut_advance hcut htokens
    rw [Stage.continued, Stage.run,
      exprAbove_leaf (tokens_continued htokens sequel) (leaf_continued htokens hleaf sequel)]
    refine ih (n := m) ?_ (by omega)
    unfold leaf? at hleaf
    split at hleaf <;> cases hleaf <;> assumption
  | inner htokens hright _ ih =>
    obtain ⟨m, rfl, hinner⟩ := resumes_advance htokens hcut ih hfuel
    have htokens' := tokens_continued htokens sequel
    unfold innerPower? at hright
    split at hright <;> cases hright
    · rw [Stage.continued, Stage.run, exprAbove_paren htokens' ‹_›]
      refine hinner.broken (Nat.sub_le ..) fun e' rest => ?_
      exact failsInto_following (failsInto_expr e') fun r => failsInto_operators ..
    · rw [Stage.continued, Stage.run, exprAbove_not htokens' ‹_›]
      refine hinner.broken (Nat.sub_le ..) fun e' rest => ?_
      exact .trans (failsInto_not ..) (failsInto_operators ..)
    · rw [Stage.continued, Stage.run, exprAbove_sign htokens' ‹_›]
      refine hinner.broken (Nat.sub_le ..) fun e' rest => ?_
      exact .trans (failsInto_ofSign ..) (failsInto_operators ..)
  | @unclosed _ _ _ e' _ _ _ _ htokens ht _ hclose ih =>
    obtain ⟨m, rfl, hinner⟩ := resumes_advance htokens hcut ih hfuel
    obtain ⟨hrun, hcut₁⟩ := hinner.eq_ok
    rw [Stage.continued, Stage.run, exprAbove_paren (tokens_continued htokens sequel) ht, hrun]
    have htake := (resumes_take sequel .closeParen hcut₁).following [.expr e']
    rw [hclose] at htake
    refine htake.broken (by simp only [Stage.left]; omega) fun _ rest => ?_
    rw [afterPhrases_expr]
    exact .trans .of_bind_pure (failsInto_operators ..)
  | paren htokens ht _ hclose _ ih ih' =>
    obtain ⟨m, rfl, hinner⟩ := resumes_advance htokens hcut ih hfuel
    obtain ⟨hrun, hcut₁⟩ := hinner.eq_ok
    rw [Stage.continued, Stage.run, exprAbove_paren (tokens_continued htokens sequel) ht, hrun]
    have htake := resumes_take sequel .closeParen hcut₁
    rw [hclose] at htake
    obtain ⟨hok, hcut₂⟩ := htake.eq_ok
    change Resumes sequel e m Expr.lower _ (following _ (take .closeParen _) >>= _)
    rw [hok]
    exact ih' (hcut₂.mono (by omega)) (by omega)
  | negation htokens ht _ _ ih ih' =>
    obtain ⟨m, rfl, hinner⟩ := resumes_advance htokens hcut ih hfuel
    obtain ⟨hrun, hcut₁⟩ := hinner.eq_ok
    rw [Stage.continued, Stage.run, exprAbove_not (tokens_continued htokens sequel) ht, hrun]
    exact ih' (hcut₁.mono (Nat.sub_le ..)).settled (by omega)
  | sign htokens ht _ _ ih ih' =>
    obtain ⟨m, rfl, hinner⟩ := resumes_advance htokens hcut ih hfuel
    obtain ⟨hrun, hcut₁⟩ := hinner.eq_ok
    rw [Stage.continued, Stage.run, exprAbove_sign (tokens_continued htokens sequel) ht, hrun]
    exact ih' (hcut₁.mono (Nat.sub_le ..)).settled (by omega)
  | @finish _ l feed htokens =>
    obtain ⟨notes, tokens, ending⟩ := feed
    obtain rfl : tokens = [] := htokens
    obtain rfl : ending = .error e := hcut.ending
    change Resumes sequel e n Expr.lower
      (.error ⟨[.expr l] ++ [], .lexical e notes, ⟨notes, [], .error e⟩⟩) _
    rw [List.append_nil]
    refine .cut ?_
    rw [afterPhrases_expr]
    exact .trans .of_bind_pure (failsInto_operators ..)
  | stop htokens hstop =>
    rw [Stage.continued, Stage.run, operators_stop (tokens_continued htokens sequel) hstop]
    exact .ok hcut
  | broken htokens hop hleft _ ih =>
    obtain ⟨m, rfl, hinner⟩ := resumes_advance htokens hcut ih hfuel
    rw [Stage.continued, Stage.run, operators_step (tokens_continued htokens sequel) hop hleft]
    refine (hinner.following [.expr _]).broken (by simp only [Stage.left]; omega) fun r rest => ?_
    exact .trans (failsInto_ofOperator ..) (failsInto_operators ..)
  | step htokens hop hleft _ _ ih ih' =>
    obtain ⟨m, rfl, hinner⟩ := resumes_advance htokens hcut ih hfuel
    obtain ⟨hrun, hcut₁⟩ := hinner.eq_ok
    rw [Stage.continued, Stage.run,
      operators_step (tokens_continued htokens sequel) hop hleft, hrun]
    exact (ih' (hcut₁.mono (Nat.sub_le ..)).settled (by omega)).mono (Nat.le_succ m)

theorem length_continued : (feed.continued sequel).tokens.length =
    feed.tokens.length + sequel.tokens.length := by
  simp [Feed.continued]

theorem lt_continued :
    feed.tokens.length + sequel.tokens.length < (feed.continued sequel).tokens.length + 1 := by
  simp [length_continued]

theorem resumes_expr (sequel : Feed) (h : feed.Cut e n) :
    Resumes sequel e (n - 1) Expr.lower (expr feed) (expr (feed.continued sequel)) :=
  ((climbs_expr feed).resumes h.full lt_continued).mono
    (Nat.sub_le_sub_right h.length 1)

theorem failsInto_mapM (e : Expr) (es : List Expr) :
    FailsInto (afterPhrases [.expr e] (es.mapM Expr.lower)) ((e :: es).mapM Expr.lower) := by
  rw [afterPhrases_expr, List.mapM_cons]
  exact .bind fun _ => .head _ _

theorem resumes_arguments (h : feed.Cut e n) (hfuel : n < fuel)
    (hfuel' : n + sequel.tokens.length < fuel') :
    Resumes sequel e n (List.mapM Expr.lower) (arguments fuel feed)
    (arguments fuel' (feed.continued sequel)) := by
  induction fuel generalizing fuel' n feed with
  | zero => exact absurd hfuel (Nat.not_lt_zero _)
  | succ fuel ih =>
    obtain ⟨fuel', rfl⟩ := Nat.exists_eq_succ_of_ne_zero (Nat.ne_zero_of_lt hfuel')
    obtain ⟨notes, _ | ⟨⟨t, tnotes⟩, tokens⟩, ending⟩ := feed
    · exact resumes_atEnd h _ _
    · obtain ⟨m, rfl, -⟩ := h.uncons
      have hexpr := resumes_expr sequel h
      rw [arguments, arguments]
      dsimp only [Feed.continued, List.cons_append] at hexpr ⊢
      split
      · refine hexpr.bind (Nat.le_succ m) (fun {e' rest} hrest => ?_) fun e' rest => ?_
        · refine ((ih hrest (by omega) (by omega)).following [.expr e']).bind (Nat.le_succ m)
            (fun hrest => .ok (hrest.mono (Nat.le_succ m))) fun es rest => ?_
          exact .trans (failsInto_mapM e' es) (failsInto_ok ..)
        · refine failsInto_following (failsInto_expr e') ?_
          rintro ⟨es, rest⟩
          refine .trans ?_ (failsInto_ok ..)
          rw [List.mapM_cons]
          exact .head _ _
      · exact .ok h

theorem resumes_parameters (h : feed.Cut e n) (hfuel : n < fuel)
    (hfuel' : n + sequel.tokens.length < fuel') :
    Resumes sequel e n (fun _ => (pure () : LowerM Unit)) (parameters fuel feed)
      (parameters fuel' (feed.continued sequel)) := by
  induction fuel generalizing fuel' n feed with
  | zero => exact absurd hfuel (Nat.not_lt_zero _)
  | succ fuel ih =>
    obtain ⟨fuel', rfl⟩ := Nat.exists_eq_succ_of_ne_zero (Nat.ne_zero_of_lt hfuel')
    obtain ⟨notes, _ | ⟨⟨t, tnotes⟩, tokens⟩, ending⟩ := feed
    · exact resumes_atEnd h _ _
    · obtain ⟨m, rfl, htail⟩ := h.uncons
      have hrest : Resumes sequel e m (fun _ => (pure () : LowerM Unit))
          (parameters fuel ⟨notes ++ tnotes, tokens, ending⟩)
          (parameters fuel' (Feed.continued ⟨notes ++ tnotes, tokens, ending⟩ sequel)) :=
        ih (htail _) (by omega) (by omega)
      rw [parameters, parameters]
      dsimp only [Feed.continued, List.cons_append] at hrest ⊢
      split
      · exact hrest.bind (Nat.le_succ m) (fun hrest => .ok (hrest.mono (Nat.le_succ m))) fun _ _ =>
          .of_pure _ _
      · exact .ok h

theorem resumes_rest_arguments (sequel : Feed) (h : feed.Cut e n) :
    Resumes sequel e n (List.mapM Expr.lower) (arguments (feed.tokens.length + 1) feed)
    (arguments ((feed.continued sequel).tokens.length + 1) (feed.continued sequel)) :=
  (resumes_arguments h.full (Nat.lt_succ_self _) lt_continued).mono h.length

theorem following_nil (r : Except Failure α) : following [] r = r := by
  cases r <;> rfl

section Nested

variable {statement statement' : Feed → Except Failure (Stmt × Feed)} {bound : Nat}
  (hstatement : ∀ {m} {feed : Feed}, m ≤ bound → feed.Cut e m →
    Resumes sequel e (m - 1) Stmt.lower (statement feed) (statement' (feed.continued sequel)))

include hstatement

theorem resumes_block (hn : n ≤ bound) (h : feed.Cut e n) (hfuel : n < fuel)
    (hfuel' : n + sequel.tokens.length < fuel') :
    Resumes sequel e n lowerAll (block statement fuel feed)
    (block statement' fuel' (feed.continued sequel)) := by
  induction fuel generalizing fuel' n feed with
  | zero => exact absurd hfuel (Nat.not_lt_zero _)
  | succ fuel ih =>
    obtain ⟨fuel', rfl⟩ := Nat.exists_eq_succ_of_ne_zero (Nat.ne_zero_of_lt hfuel')
    obtain ⟨notes, _ | ⟨⟨t, tnotes⟩, tokens⟩, ending⟩ := feed
    · exact resumes_atEnd h _ _
    · obtain ⟨m, rfl, -⟩ := h.uncons
      have hfirst := hstatement hn h
      rw [block, block]
      dsimp only [Feed.continued, List.cons_append] at hfirst ⊢
      split
      · exact .ok h
      · refine hfirst.bind (Nat.le_succ m) (fun {s rest} hrest => ?_) fun s rest => ?_
        · refine ((ih (by omega) hrest (by omega) (by omega)).following [.stmt s]).bind
            (Nat.le_succ m) (fun hrest => .ok (hrest.mono (Nat.le_succ m))) fun ss rest =>
            .trans ?_ (failsInto_ok ..)
          rw [afterPhrases_stmt, lowerAll]
          exact .bind fun _ => .head _ _
        · have hdone : FailsInto s.lower (afterPhrases [.stmt s] (pure ())) := by
            rw [afterPhrases_stmt]
            exact .head _ _
          refine failsInto_following hdone ?_
          rintro ⟨ss, rest⟩
          refine .trans ?_ (failsInto_ok ..)
          rw [lowerAll]
          exact .head _ _

theorem resumes_body (hn : n ≤ bound) (h : feed.Cut e n) :
    Resumes sequel e n lowerAll (body statement feed) (body statement' (feed.continued sequel)) :=
  (resumes_block hstatement (Nat.le_trans h.length hn) h.full (Nat.lt_succ_self _)
    lt_continued).mono h.length

theorem resumes_ifEnd (t : Token) (cond : Expr) (yes : List Stmt) (hn : n ≤ bound)
    (h : feed.Cut e n) :
    Resumes sequel e n Stmt.lower (ifEnd statement t cond yes feed)
      (ifEnd statement' t cond yes (feed.continued sequel)) := by
  obtain ⟨notes, _ | ⟨⟨t', tnotes⟩, tokens⟩, ending⟩ := feed
  · obtain rfl := h.ending
    change Resumes sequel e n Stmt.lower
      (.error ⟨(.expr cond :: yes.map .stmt) ++ [], .lexical e notes,
        ⟨notes, [], .error e⟩⟩) _
    rw [List.append_nil]
    exact .cut (failsInto_ifEnd ..)
  · obtain ⟨m, rfl, htail⟩ := h.uncons
    have hbody := resumes_body hstatement (Nat.le_of_succ_le hn) (htail (notes ++ tnotes))
    unfold ifEnd
    refine .ite ?_ ?_
    · refine (hbody.following (.expr cond :: yes.map .stmt)).bind (Nat.le_succ m)
        (fun {no rest} hrest => ?_) fun no rest => ?_
      · refine (resumes_close .endKey hrest .ok fun r => ?_).mono (by omega)
        exact .trans (failsInto_ifElse cond yes no _) (failsInto_ok ..)
      · have hdone := failsInto_stmts (.expr cond :: yes.map .stmt) no
        exact failsInto_following hdone fun r =>
          .trans (hdone.trans (failsInto_ifElse cond yes no _)) (failsInto_ok ..)
    · refine (resumes_close .endKey h .ok fun r => ?_).mono (by omega)
      exact .trans (failsInto_ifThen cond yes _) (failsInto_ok ..)

variable {start start' : Feed} (hstart : start.advance = feed)
  (hstart' : start'.advance = feed.continued sequel)

include hstart hstart'

theorem resumes_ifStatement (t : Token) (hn : n ≤ bound) (h : feed.Cut e n) :
    Resumes sequel e n Stmt.lower (ifStatement statement t start)
    (ifStatement statement' t start') := by
  rw [ifStatement_eq, ifStatement_eq, hstart, hstart']
  refine (resumes_expr sequel h).bind (Nat.sub_le ..) (fun {cond rest} hrest => ?_) fun cond rest =>
    ?_
  · have hthen := (resumes_take sequel .thenKey hrest).following [.expr cond]
    refine hthen.bind (by omega) (fun {_ rest} hrest => ?_) fun _ rest => ?_
    · have hbody := resumes_body hstatement (by omega) hrest
      refine (hbody.following [.expr cond]).bind (by omega) (fun {yes rest} hrest => ?_)
        fun yes rest => ?_
      · exact (resumes_ifEnd hstatement t cond yes (by omega) hrest).mono (by omega)
      · exact .trans (failsInto_stmts [.expr cond] yes) (failsInto_ifEnd ..)
    · exact failsInto_following (.refl _) fun r =>
        .trans (failsInto_append [.expr cond] (r.1.map .stmt)) (failsInto_ifEnd ..)
  · refine failsInto_following (failsInto_expr cond) fun _ =>
      failsInto_following (failsInto_expr cond) fun r => ?_
    exact .trans (.trans (failsInto_expr cond) (failsInto_append [.expr cond] (r.1.map .stmt)))
      (failsInto_ifEnd ..)

theorem resumes_whileStatement (t : Token) (hn : n ≤ bound) (h : feed.Cut e n) :
    Resumes sequel e n Stmt.lower (whileStatement statement t start)
    (whileStatement statement' t start') := by
  unfold whileStatement
  rw [hstart, hstart']
  have hall (cond : Expr) (ss : List Stmt) (s : Site) :
      FailsInto (afterPhrases (.expr cond :: ss.map .stmt) (pure ()))
      (Stmt.whileDo cond ss s).lower := by
    simp only [afterPhrases_expr, afterPhrases_stmts, Stmt.lower]
    exact .bind fun _ => .bind fun _ => .of_pure _ _
  refine (resumes_expr sequel h).bind (Nat.sub_le ..) (fun {cond rest} hrest => ?_) fun cond rest =>
    ?_
  · have hbody := resumes_body hstatement (Nat.le_trans (Nat.sub_le ..) hn) hrest
    refine (hbody.following [.expr cond]).bind (Nat.sub_le ..) (fun {ss rest} hrest => ?_)
      fun ss rest => ?_
    · refine (resumes_close .endKey hrest .ok fun r => ?_).mono (by omega)
      exact .trans (hall cond ss _) (failsInto_ok ..)
    · have hdone := failsInto_stmts [.expr cond] ss
      exact failsInto_following hdone fun r =>
        .trans (hdone.trans (hall cond ss _)) (failsInto_ok ..)
  · refine failsInto_following (failsInto_expr cond) fun r => ?_
    have hdone := (failsInto_expr cond).trans (failsInto_append [.expr cond] (r.1.map .stmt))
    exact failsInto_following hdone fun r' =>
      .trans (hdone.trans (hall cond r.1 _)) (failsInto_ok ..)

end Nested

section Simple

variable {start start' : Feed} (hstart : start.advance = feed)
  (hstart' : start'.advance = feed.continued sequel)

include hstart hstart'

theorem resumes_print (t : Token) (h : feed.Cut e n) :
    Resumes sequel e n Stmt.lower (print t start) (print t start') := by
  unfold print
  rw [hstart, hstart']
  refine (resumes_expr sequel h).bind (Nat.sub_le ..) (fun {first rest} hrest => ?_)
    fun first rest => ?_
  · refine ((resumes_rest_arguments sequel hrest).following [.expr first]).bind (Nat.sub_le ..)
      (fun hrest => .ok ⟨hrest.ending, Nat.le_trans hrest.length (Nat.sub_le ..)⟩)
      fun more rest => .trans ?_ (failsInto_ok ..)
    simp only [afterPhrases_expr, afterPhrases_nil, Stmt.lower]
    exact .bind fun _ => .head _ _
  · refine failsInto_following (failsInto_expr first) fun r => .trans ?_ (failsInto_ok ..)
    simp only [Stmt.lower]
    exact .head _ _

theorem resumes_typein (h : feed.Cut e n) :
    Resumes sequel e n Stmt.lower (typein start) (typein start') := by
  unfold typein
  rw [hstart, hstart', ← following_nil (close _ feed),
    ← following_nil (close _ (feed.continued sequel))]
  exact (resumes_close .identifier h .ok fun r => .of_pure _ _).mono (Nat.sub_le ..)

theorem resumes_assignOrCall (t : Token) (h : feed.Cut e n) :
    Resumes sequel e n Stmt.lower (assignOrCall t start) (assignOrCall t start') := by
  unfold assignOrCall
  rw [hstart, hstart']
  have hsettled {m : Nat} {rest : Feed} (hrest : rest.Cut e m) (hm : m ≤ n) :
      (settled rest).Cut e n :=
    ⟨hrest.ending, Nat.le_trans hrest.length hm⟩
  obtain ⟨notes, _ | ⟨⟨op, onotes⟩, tokens⟩, ending⟩ := feed
  · obtain rfl := h.ending
    exact .cut (.of_pure _ _)
  · have hargs := resumes_rest_arguments sequel h
    obtain ⟨m, rfl, htail⟩ := h.uncons
    have hexpr := resumes_expr sequel (htail (notes ++ onotes))
    dsimp only [Feed.continued, List.cons_append, List.head?_cons] at hargs hexpr ⊢
    split
    · refine hexpr.bind (by omega) (fun hrest => .ok (hsettled hrest (by omega))) fun rhs rest =>
        .trans ?_ (failsInto_ok ..)
      simp only [Stmt.lower]
      exact .head _ _
    · refine hargs.bind (Nat.le_refl _) (fun hrest => .ok (hsettled hrest (Nat.le_refl _)))
        fun args rest => .trans ?_ (failsInto_ok ..)
      simp only [Stmt.lower]
      exact .head _ _

end Simple

theorem resumes_statement (h : feed.Cut e n) (hfuel : n < fuel)
    (hfuel' : n + sequel.tokens.length < fuel') :
    Resumes sequel e (n - 1) Stmt.lower (statement fuel feed)
    (statement fuel' (feed.continued sequel)) := by
  induction fuel generalizing fuel' n feed with
  | zero => exact absurd hfuel (Nat.not_lt_zero _)
  | succ fuel ih =>
    obtain ⟨fuel', rfl⟩ := Nat.exists_eq_succ_of_ne_zero (Nat.ne_zero_of_lt hfuel')
    have hexpr := resumes_expr sequel h
    obtain ⟨notes, _ | ⟨⟨⟨lexeme, text, line⟩, tnotes⟩, tokens⟩, ending⟩ := feed
    · exact resumes_end h _
    · obtain ⟨m, rfl, htail⟩ := h.uncons
      have hnested {k : Nat} {feed : Feed} (hk : k ≤ m) (h : feed.Cut e k) :
          Resumes sequel e (k - 1) Stmt.lower (statement fuel feed)
          (statement fuel' (feed.continued sequel)) := ih h (by omega) (by omega)
      have hstmt : Resumes sequel e m Stmt.lower
          (expr ⟨notes, (⟨lexeme, text, line⟩, tnotes) :: tokens, ending⟩ >>= fun r =>
            .ok (.expr r.1, r.2))
          (expr
            (Feed.continued ⟨notes, (⟨lexeme, text, line⟩, tnotes) :: tokens,
              ending⟩ sequel) >>=
            fun r => .ok (.expr r.1, r.2)) := by
        refine hexpr.bind (Nat.le_refl _) .ok fun e' rest => .trans ?_ (failsInto_ok ..)
        rw [Stmt.lower, ← bind_pure_comp]
        exact .head _ _
      rw [statement, statement]
      dsimp only [Feed.continued, List.cons_append] at hstmt ⊢
      cases lexeme with
      | ifKey => exact resumes_ifStatement hnested rfl rfl _ (Nat.le_refl _) (htail _)
      | whileKey => exact resumes_whileStatement hnested rfl rfl _ (Nat.le_refl _) (htail _)
      | printKey => exact resumes_print rfl rfl _ (htail _)
      | typeinKey => exact resumes_typein rfl rfl (htail _)
      | identifier => exact resumes_assignOrCall rfl rfl _ (htail _)
      | toKey => exact .fault h (List.cons_ne_nil _ _)
      | number | string | boolean | colonIdentifier | randomKey | openParen | addOp | notKey =>
        exact hstmt
      | _ => exact resumes_unexpected h

theorem resumes_definition (h : feed.Cut e n) {start start' : Feed} (hstart : start.advance = feed)
    (hstart' : start'.advance = feed.continued sequel) :
    Resumes sequel e n Item.lower (definition start) (definition start') := by
  unfold definition
  rw [hstart, hstart']
  refine (resumes_take sequel .identifier h).bind (Nat.sub_le ..) (fun {name rest} hrest => ?_)
    fun _ _ => .of_pure _ _
  have hparams :
      Resumes sequel e (n - 1) (fun _ => (pure () : LowerM Unit))
      (parameters (rest.tokens.length + 1) rest)
      (parameters ((rest.continued sequel).tokens.length + 1) (rest.continued sequel)) :=
    (resumes_parameters hrest.full (Nat.lt_succ_self _) lt_continued).mono hrest.length
  refine hparams.bind (Nat.sub_le ..) (fun {params rest} hrest => ?_) fun _ _ => .of_pure _ _
  have hsettled : (settled rest).Cut e rest.tokens.length := ⟨hrest.ending, Nat.le_refl _⟩
  have hstatement {m : Nat} {feed : Feed} (hm : m ≤ rest.tokens.length) (h : feed.Cut e m) :
      Resumes sequel e (m - 1) Stmt.lower (statement (rest.tokens.length + 1) feed)
        (statement ((rest.continued sequel).tokens.length + 1) (feed.continued sequel)) := by
    rw [length_continued]
    exact resumes_statement h (by omega) (by omega)
  have hbody := (resumes_body hstatement (Nat.le_refl _) hsettled).mono hrest.length
  -- the header is the same on both sides: it is complete once the token after it has been looked at
  dsimp only
  generalize hheader : Header.mk name.text params (site rest name.line) = header
  have hheader' : Header.mk name.text params (site (rest.continued sequel) name.line) =
    header := hheader
  rw [hheader']
  have hall (ss : List Stmt) (s : Site) :
      FailsInto (afterPhrases (.header header :: ss.map .stmt) (pure ()))
      (Item.definition header ss s).lower := by
    simp only [afterPhrases_header, afterPhrases_stmts, Item.lower]
    exact .bind fun _ => .bind fun _ => .of_pure _ _
  refine (hbody.following [.header header]).bind (Nat.sub_le ..) (fun {ss rest} hrest => ?_)
    fun ss rest => ?_
  · refine (resumes_close .endKey hrest .ok fun r => ?_).mono (by omega)
    exact .trans (hall ss _) (failsInto_ok ..)
  · have hdone := failsInto_stmts [.header header] ss
    exact failsInto_following hdone fun r => .trans (hdone.trans (hall ss _)) (failsInto_ok ..)

theorem resumes_item (sequel : Feed) (h : feed.Cut e n) (hne : feed.tokens ≠ []) :
    Resumes sequel e (n - 1) Item.lower (item feed) (item (feed.continued sequel)) := by
  have hstmt : Resumes sequel e (n - 1) Stmt.lower (statement (feed.tokens.length + 1) feed)
      (statement ((feed.continued sequel).tokens.length + 1) (feed.continued sequel)) :=
    (resumes_statement h.full (Nat.lt_succ_self _) lt_continued).mono
    (Nat.sub_le_sub_right h.length 1)
  obtain ⟨notes, _ | ⟨⟨t, tnotes⟩, tokens⟩, ending⟩ := feed
  · contradiction
  · obtain ⟨m, rfl, htail⟩ := h.uncons
    unfold item
    refine .ite (resumes_definition (htail _) rfl rfl) ?_
    refine hstmt.bind (Nat.le_refl _) .ok fun s rest => ?_
    have hfirst : FailsInto s.lower (Item.statement s).lower := .head _ _
    exact hfirst.trans (failsInto_ok ..)

theorem isComplete_of_item {i : Item} {rest : Feed} (h : item feed = .ok (i, rest)) :
    i.isComplete := by
  unfold item at h
  split at h
  · simp only [definition, except_bind_eq_ok] at h
    obtain ⟨_, -, _, -, _, -, _, -, h⟩ := h
    cases h
    rfl
  · simp only [except_bind_eq_ok] at h
    obtain ⟨_, -, h⟩ := h
    cases h
    rfl

theorem semantic_done (done : List Phrase) :
    Blames Error.IsSemantic (afterPhrases done (pure ())) :=
  (Blames.forM fun phrase _ => phrase.semantic_lower).bind fun _ => .of_pure

theorem Item.failsInto_broken (done : List Phrase) (fault : Fault) :
    FailsInto (afterPhrases done (pure ())) (Item.broken done fault).lower :=
    failsInto_afterPhrases done _

theorem failsInto_items (fuel : Nat) (hne : feed.tokens ≠ []) :
    FailsInto (lowerOutcome Item.lower (item feed))
    ((items (fuel + 1) feed).items.mapM Item.lower) := by
  obtain ⟨entry, tokens, htokens⟩ := List.exists_cons_of_ne_nil hne
  rw [items, htokens]
  dsimp only
  cases item feed with
  | ok r =>
    rw [List.mapM_cons]
    exact .trans .of_bind_pure (.head _ _)
  | error failure =>
    obtain ⟨done, fault, rest⟩ := failure
    cases fault with
    | lexical e notes =>
      rw [List.mapM_cons]
      exact .trans (Item.failsInto_broken done _) (.head _ _)
    | grammatical fault s =>
      rw [List.mapM_cons]
      exact .trans (Item.failsInto_broken done _) (.head _ _)

theorem items_cut (h : feed.Cut e n) (hfuel : n < fuel)
    (hfuel' : n + sequel.tokens.length < fuel') :
    ∃ whole done notes more, (items fuel feed).items =
      whole ++ [.broken done (.lexical e notes)] ∧
      (items fuel' (feed.continued sequel)).items = whole ++ more ∧
      (∀ i ∈ whole, Blames Error.IsSemantic i.lower) ∧
      FailsInto (afterPhrases done (pure ())) (more.mapM Item.lower) := by
  induction fuel generalizing fuel' n feed with
  | zero => exact absurd hfuel (Nat.not_lt_zero _)
  | succ fuel ih =>
    obtain ⟨fuel', rfl⟩ := Nat.exists_eq_succ_of_ne_zero (Nat.ne_zero_of_lt hfuel')
    cases htokens : feed.tokens with
    | nil =>
      refine ⟨[], [], feed.notes, _, ?_, rfl, by simp, .of_pure _ _⟩
      rw [items]
      simp [htokens, h.ending]
    | cons entry tokens =>
      have hitem := resumes_item sequel h (by simp [htokens])
      have hcontinued : (feed.continued sequel).tokens = entry :: (tokens ++ sequel.tokens) := by
        simp [Feed.continued, htokens]
      have hne : (feed.continued sequel).tokens ≠ [] := by simp [hcontinued]
      have hleads := failsInto_items fuel' hne
      have hcomplete {i : Item} {rest : Feed} :
          item feed = .ok (i, rest) → i.isComplete := isComplete_of_item
      obtain ⟨m, rfl⟩ : ∃ m, n = m + 1 :=
        ⟨n - 1, by have := h.length; rw [htokens, List.length_cons] at this; omega⟩
      rw [items, items, htokens, hcontinued]
      rw [items, hcontinued] at hleads
      generalize item feed = r at hitem hcomplete ⊢
      generalize item (feed.continued sequel) = r' at hitem hleads ⊢
      cases hitem with
      | ok hrest =>
        obtain ⟨whole, done, notes, more, hitems, hitems', hblames, hmore⟩ :=
          ih hrest (by omega) (show m + sequel.tokens.length < fuel' by omega)
        refine ⟨_ :: whole, done, notes, more, congrArg (_ :: ·) hitems,
          congrArg (_ :: ·) hitems', ?_, hmore⟩
        exact List.forall_mem_cons.2 ⟨Item.semantic_lower (hcomplete rfl), hblames⟩
      | fault hrest hne =>
        rename_i done fault s rest
        obtain ⟨notes, _ | ⟨entry, tokens⟩, ending⟩ := rest
        · contradiction
        · obtain ⟨m', hm', htail⟩ := hrest.uncons
          obtain ⟨whole, done', notes, more, hitems, hitems', hblames, hmore⟩ :=
            ih (htail ([] ++ entry.2)) (by omega) (show m' + sequel.tokens.length < fuel' by omega)
          refine ⟨_ :: whole, done', notes, more, congrArg (_ :: ·) hitems,
            congrArg (_ :: ·) hitems', ?_, hmore⟩
          exact List.forall_mem_cons.2 ⟨semantic_grammatical done fault s, hblames⟩
      | cut hcut => exact ⟨[], _, _, _, rfl, rfl, by simp, hcut.trans hleads⟩

end Resumption

end Source

end TurtleCompiler
