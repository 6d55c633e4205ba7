import TurtleCompiler.Proofs.Climbing

/-!
Where a tree comes from. The names, strings, operators and lines of a tree are those of tokens, also
in the phrases that were complete when a statement broke off.
-/

namespace TurtleCompiler

structure Feed.Supplies (P : Token → Prop) (E : Except Error Nat → Prop) (n : Nat)
    (feed : Feed) : Prop where
  tokens : ∀ t ∈ feed.tokens, P t.1
  ending : E feed.ending
  length : feed.tokens.length ≤ n

namespace Feed.Supplies

variable {P : Token → Prop} {E : Except Error Nat → Prop} {n : Nat} {feed : Feed}

theorem advance (h : feed.Supplies P E n) : feed.advance.Supplies P E n := by
  unfold Feed.advance
  split
  · exact h
  · rename_i heq
    have hlength := h.length
    rw [heq] at hlength
    exact ⟨fun t ht => h.tokens t (by simp_all), h.ending, Nat.le_of_succ_le hlength⟩

theorem settled (h : feed.Supplies P E n) :
    (Source.settled feed).Supplies P E n := ⟨h.tokens, h.ending, h.length⟩

theorem head (h : feed.Supplies P E n) {t : Token} {notes : List Event}
    {tokens : List (Token × List Event)} (htokens : feed.tokens = (t, notes) :: tokens) : P t :=
  h.tokens (t, notes) (by simp [htokens])

end Feed.Supplies

namespace Source

section Trees

variable (P : Token → Prop) (E : Except Error Nat → Prop) (n : Nat)

def OnLine (line : Nat) : Prop := ∃ t, P t ∧ t.line = line

def Written (lexemes : List Lexeme) (text : String) (line : Nat) : Prop :=
  ∃ t, P t ∧ t.lexeme ∈ lexemes ∧ t.text = text ∧ t.line = line

def Mentioned (name : String) : Prop := ∃ t, P t ∧ t.lexeme = .colonIdentifier ∧
    variableName t = name

def Expr.ComesFrom : Expr → Prop
  | .boolean _ | .random => True
  | .string text => ∃ line, Written P [.string] text line
  | .number _ site => OnLine P site.line
  | .var name site => OnLine P site.line ∧ Mentioned P name
  | .plus e site | .minus e site | .not e site => OnLine P site.line ∧ e.ComesFrom
  | .arith op l r site => Written P [.addOp, .mulOp, .powOp] op site.line ∧
      l.ComesFrom ∧ r.ComesFrom
  | .compare op l r site => Written P [.relOp] op site.line ∧ l.ComesFrom ∧ r.ComesFrom
  | .logic op l r site => Written P [.logicOp] op site.line ∧ l.ComesFrom ∧ r.ComesFrom

mutual

def Stmt.ComesFrom : Stmt → Prop
  | .expr e => e.ComesFrom P
  | .assign name op rhs site =>
    (∃ line, Written P [.assignOp] op line) ∧ Written P [.identifier] name site.line ∧
    rhs.ComesFrom P
  | .call name args site => Written P [.identifier] name site.line ∧ ∀ e ∈ args, e.ComesFrom P
  | .print first more site => OnLine P site.line ∧ first.ComesFrom P ∧
      ∀ e ∈ more, e.ComesFrom P
  | .typein name site => Written P [.identifier] name site.line
  | .ifThen cond yes site => OnLine P site.line ∧ cond.ComesFrom P ∧ AllComeFrom yes
  | .ifElse cond yes no site => OnLine P site.line ∧ cond.ComesFrom P ∧ AllComeFrom yes ∧
      AllComeFrom no
  | .whileDo cond body site => OnLine P site.line ∧ cond.ComesFrom P ∧ AllComeFrom body

def AllComeFrom : List Stmt → Prop
  | [] => True
  | s :: ss => s.ComesFrom ∧ AllComeFrom ss

end

def Header.ComesFrom (h : Header) : Prop :=
  Written P [.identifier] h.name h.site.line ∧ ∀ x ∈ h.params, Mentioned P x

def Phrase.ComesFrom : Phrase → Prop
  | .expr e => e.ComesFrom P
  | .stmt s => s.ComesFrom P
  | .header h => h.ComesFrom P

def Fault.ComesFrom : Fault → Prop
  | .lexical e _ => E (.error e)
  | .grammatical _ site => OnLine P site.line ∨ E (.ok site.line)

def Item.ComesFrom : Item → Prop
  | .statement s => s.ComesFrom P
  | .definition header body site => header.ComesFrom P ∧ AllComeFrom P body ∧ OnLine P site.line
  | .broken done fault => (∀ p ∈ done, p.ComesFrom P) ∧ fault.ComesFrom P E

structure Failure.ComesFrom (f : Failure) : Prop where
  done : ∀ p ∈ f.done, p.ComesFrom P
  fault : f.fault.ComesFrom P E
  rest : f.rest.Supplies P E n

def Draws (r : Except Failure α) (q : α → Prop) : Prop :=
  match r with
  | .ok a => q a
  | .error f => f.ComesFrom P E n

abbrev Drawn (p : α → Prop) (r : α × Feed) : Prop := p r.1 ∧ r.2.Supplies P E n

end Trees

variable {P : Token → Prop} {E : Except Error Nat → Prop} {n fuel : Nat}
  {op t : Token} {feed : Feed}

theorem Written.onLine {lexemes : List Lexeme} {text : String} {line : Nat}
    (h : Written P lexemes text line) : OnLine P line := by
  obtain ⟨t, ht, -, -, hline⟩ := h
  exact ⟨t, ht, hline⟩

theorem allComeFrom_iff {ss : List Stmt} : AllComeFrom P ss ↔ ∀ s ∈ ss, s.ComesFrom P := by
  induction ss with
  | nil => simp [AllComeFrom]
  | cons s ss ih => simp [AllComeFrom, ih]

namespace Draws

variable {α β : Type} {x : Except Failure α} {p q : α → Prop}

theorem mono (h : Draws P E n x p) (hpq : ∀ {a}, p a → q a) : Draws P E n x q := by
  cases x with
  | ok a => exact hpq h
  | error f => exact h

theorem bind {f : α → Except Failure β} {r : β → Prop}
    (h : Draws P E n x fun a => Draws P E n (f a) r) : Draws P E n (x >>= f) r := by
  cases x with
  | ok a => exact h
  | error f => exact h

theorem following {done : List Phrase} (hdone : ∀ p ∈ done, p.ComesFrom P)
    (h : Draws P E n x q) : Draws P E n (following done x) q := by
  cases x with
  | ok a => exact h
  | error f => exact ⟨List.forall_mem_append.2 ⟨hdone, h.done⟩, h.fault, h.rest⟩

end Draws

section Tokens

variable {feed : Feed} (h : feed.Supplies P E n)

include h

theorem comesFrom_unexpected : (unexpected feed).ComesFrom P E n := by
  unfold unexpected
  split
  · rename_i heq
    exact ⟨by simp, .inl ⟨_, h.head heq, rfl⟩, h⟩
  · have hending := h.ending
    split
    · rename_i heq
      rw [heq] at hending
      exact ⟨by simp, .inr hending, h⟩
    · rename_i heq
      rw [heq] at hending
      exact ⟨by simp, hending, h⟩

theorem draws_atEnd (a : α) : Draws P E n (atEnd feed a) (Drawn P E n (· = a)) := by
  unfold atEnd
  split
  · exact ⟨rfl, h⟩
  · exact comesFrom_unexpected h

theorem draws_take (lexeme : Lexeme) :
    Draws P E n (take lexeme feed) (Drawn P E n fun t => Written P [lexeme] t.text t.line) := by
  unfold take
  split
  · rename_i t _ _ heq
    split
    · rename_i ht
      exact ⟨⟨t, h.head heq, by simp [ht], rfl, rfl⟩, h.advance⟩
    · exact comesFrom_unexpected h
  · exact comesFrom_unexpected h

theorem draws_close (lexeme : Lexeme) :
    Draws P E n (close lexeme feed) fun r => Written P [lexeme] r.1.text r.1.line ∧
    r.2.2.Supplies P E n := by
  unfold close
  split
  · rename_i t _ _ heq
    split
    · rename_i ht
      exact ⟨⟨t, h.head heq, by simp [ht], rfl, rfl⟩, h.settled.advance⟩
    · exact comesFrom_unexpected h
  · exact comesFrom_unexpected h

end Tokens

theorem Expr.comesFrom_ofOperator {powers : Nat × Nat} (hop : P op)
    (hpower : bindingPower op.lexeme = some powers)
    {l r : Expr} (hl : l.ComesFrom P) (hr : r.ComesFrom P) {site : Site}
    (hsite : site.line = op.line) : (Expr.ofOperator op l r site).ComesFrom P := by
  have hwritten (lexemes : List Lexeme) (hmem : op.lexeme ∈ lexemes) :
      Written P lexemes op.text site.line :=
    ⟨op, hop, hmem, rfl, hsite.symm⟩
  unfold Expr.ofOperator
  split
  · exact ⟨hwritten _ (by simp [*]), hl, hr⟩
  · exact ⟨hwritten _ (by simp [*]), hl, hr⟩
  · refine ⟨hwritten _ ?_, hl, hr⟩
    unfold bindingPower at hpower
    split at hpower <;> simp_all

theorem Expr.comesFrom_ofSign (hop : P op) {e : Expr} (h : e.ComesFrom P) {site : Site}
    (hsite : site.line = op.line) : (Expr.ofSign op e site).ComesFrom P := by
  unfold Expr.ofSign
  split <;> exact ⟨⟨op, hop, hsite.symm⟩, h⟩

def Stage.ComesFrom (P : Token → Prop) : Stage → Prop
  | .operand .. => True
  | .operators _ l _ => l.ComesFrom P

theorem Climbs.draws {st : Stage} {r : Except Failure (Expr × Feed)} (h : Climbs st r)
    (hst : st.ComesFrom P) (hfeed : st.feed.Supplies P E n) :
    Draws P E n r (Drawn P E n (Expr.ComesFrom P)) := by
  have hdone {e : Expr} (he : e.ComesFrom P) : ∀ p ∈ [Phrase.expr e], p.ComesFrom P := by
    simpa [Phrase.ComesFrom] using he
  induction h with
  | unexpected => exact comesFrom_unexpected hfeed
  | leaf htokens hleaf _ ih =>
    have ht := hfeed.head htokens
    unfold leaf? at hleaf
    split at hleaf <;> cases hleaf
    · exact ih ⟨_, ht, rfl⟩ hfeed.settled.advance
    · exact ih ⟨_, _, ht, by simp [*], rfl, rfl⟩ hfeed.advance
    · exact ih trivial hfeed.advance
    · exact ih ⟨⟨_, ht, rfl⟩, _, ht, ‹_›, rfl⟩ hfeed.settled.advance
    · exact ih trivial hfeed.advance
  | inner _ _ _ ih => exact ih trivial hfeed.advance
  | unclosed _ _ _ hclose ih =>
    obtain ⟨he, h₁⟩ := ih trivial hfeed.advance
    exact Draws.following (hdone he) (hclose ▸ draws_take h₁ _)
  | paren _ _ _ hclose _ ih ih' =>
    obtain ⟨he, h₁⟩ := ih trivial hfeed.advance
    have h₂ := draws_take h₁ .closeParen
    rw [hclose] at h₂
    exact ih' he h₂.2
  | negation htokens _ _ _ ih ih' =>
    obtain ⟨he, h₁⟩ := ih trivial hfeed.advance
    exact ih' ⟨⟨_, hfeed.head htokens, rfl⟩, he⟩ h₁.settled
  | sign htokens _ _ _ ih ih' =>
    obtain ⟨he, h₁⟩ := ih trivial hfeed.advance
    exact ih' (Expr.comesFrom_ofSign (hfeed.head htokens) he rfl) h₁.settled
  | finish =>
    exact .following (hdone hst)
      ((draws_atEnd hfeed _).mono fun ⟨he, hrest⟩ => ⟨he ▸ hst, hrest⟩)
  | stop => exact ⟨hst, hfeed⟩
  | broken _ _ _ _ ih => exact Draws.following (hdone hst) (ih trivial hfeed.advance)
  | step htokens hop _ _ _ ih ih' =>
    obtain ⟨he, h₁⟩ := ih trivial hfeed.advance
    exact ih' (Expr.comesFrom_ofOperator (hfeed.head htokens) hop hst he rfl) h₁.settled

theorem draws_expr (h : feed.Supplies P E n) :
    Draws P E n (expr feed) (Drawn P E n (Expr.ComesFrom P)) :=
  (climbs_expr feed).draws trivial h

theorem draws_arguments (h : feed.Supplies P E n) :
    Draws P E n (arguments fuel feed) (Drawn P E n fun es => ∀ e ∈ es, e.ComesFrom P) := by
  induction fuel generalizing feed with
  | zero =>
    rw [arguments]
    exact comesFrom_unexpected h
  | succ fuel ih =>
    rw [arguments]
    split
    · exact (draws_atEnd h []).mono fun ⟨he, hrest⟩ => ⟨by simp [he], hrest⟩
    · split
      · refine .bind ((draws_expr h).mono fun ⟨he, h₁⟩ =>
          .bind (.following ?_ ((ih h₁).mono fun ⟨hes, h₂⟩ => ?_)))
        · simpa [Phrase.ComesFrom] using he
        · exact ⟨List.forall_mem_cons.2 ⟨he, hes⟩, h₂⟩
      · exact ⟨by simp, h⟩

theorem draws_parameters (h : feed.Supplies P E n) :
    Draws P E n (parameters fuel feed) (Drawn P E n fun xs => ∀ x ∈ xs, Mentioned P x) := by
  induction fuel generalizing feed with
  | zero =>
    rw [parameters]
    exact comesFrom_unexpected h
  | succ fuel ih =>
    rw [parameters]
    split
    · exact (draws_atEnd h []).mono fun ⟨he, hrest⟩ => ⟨by simp [he], hrest⟩
    · rename_i t notes tokens heq
      split
      · exact .bind ((ih h.advance).mono fun ⟨hxs, h₁⟩ =>
          ⟨List.forall_mem_cons.2 ⟨⟨t, h.head heq, ‹_›, rfl⟩, hxs⟩, h₁⟩)
      · exact ⟨by simp, h⟩

section Nested

variable {statement : Feed → Except Failure (Stmt × Feed)}
  (hstatement : ∀ {feed}, feed.Supplies P E n →
    Draws P E n (statement feed) (Drawn P E n (Stmt.ComesFrom P)))
  {feed : Feed}

include hstatement

theorem draws_block {fuel : Nat} (h : feed.Supplies P E n) :
    Draws P E n (block statement fuel feed)
    (Drawn P E n fun ss => ∀ s ∈ ss, s.ComesFrom P) := by
  induction fuel generalizing feed with
  | zero =>
    rw [block]
    exact comesFrom_unexpected h
  | succ fuel ih =>
    rw [block]
    split
    · exact (draws_atEnd h []).mono fun ⟨he, hrest⟩ => ⟨by simp [he], hrest⟩
    · split
      · exact ⟨by simp, h⟩
      · refine .bind ((hstatement h).mono fun ⟨hs, h₁⟩ =>
          .bind (.following ?_ ((ih h₁).mono fun ⟨hss, h₂⟩ => ?_)))
        · simpa [Phrase.ComesFrom] using hs
        · exact ⟨List.forall_mem_cons.2 ⟨hs, hss⟩, h₂⟩

theorem draws_ifStatement {t : Token} (ht : P t) (h : feed.Supplies P E n) :
    Draws P E n (ifStatement statement t feed) (Drawn P E n (Stmt.ComesFrom P)) := by
  refine .bind ((draws_expr h.advance).mono fun {cond} ⟨hcond, h₁⟩ => ?_)
  have hdone :
      ∀ p ∈ [Phrase.expr cond.1], p.ComesFrom P := by simpa [Phrase.ComesFrom] using hcond
  refine .bind (.following hdone ((draws_take h₁ _).mono fun ⟨_, h₂⟩ => ?_))
  refine .bind
    (.following hdone ((draws_block hstatement h₂).mono fun {yes} ⟨hyes, h₃⟩ => ?_))
  have hdone' : ∀ p ∈ Phrase.expr cond.1 :: yes.1.map .stmt, p.ComesFrom P := by
    simpa [Phrase.ComesFrom] using ⟨hcond, hyes⟩
  dsimp only
  split
  · refine .bind
      (.following hdone'
        ((draws_block hstatement h₃.advance).mono fun {no} ⟨hno, h₄⟩ => ?_))
    refine .bind (.following ?_ ((draws_close h₄ _).mono fun ⟨_, h₅⟩ => ?_))
    · exact List.forall_mem_append.2 ⟨hdone', by simpa [Phrase.ComesFrom] using hno⟩
    · exact ⟨⟨⟨t, ht, rfl⟩, hcond, allComeFrom_iff.2 hyes, allComeFrom_iff.2 hno⟩,
        h₅⟩
  · refine .bind (.following hdone' ((draws_close h₃ _).mono fun ⟨_, h₄⟩ => ?_))
    exact ⟨⟨⟨t, ht, rfl⟩, hcond, allComeFrom_iff.2 hyes⟩, h₄⟩

theorem draws_whileStatement {t : Token} (ht : P t) (h : feed.Supplies P E n) :
    Draws P E n (whileStatement statement t feed) (Drawn P E n (Stmt.ComesFrom P)) := by
  refine .bind ((draws_expr h.advance).mono fun {cond} ⟨hcond, h₁⟩ => ?_)
  refine .bind
    (.following ?_ ((draws_block hstatement h₁).mono fun {stmts} ⟨hstmts, h₂⟩ => ?_))
  · simpa [Phrase.ComesFrom] using hcond
  refine .bind (.following ?_ ((draws_close h₂ _).mono fun ⟨_, h₃⟩ => ?_))
  · simpa [Phrase.ComesFrom] using ⟨hcond, hstmts⟩
  · exact ⟨⟨⟨t, ht, rfl⟩, hcond, allComeFrom_iff.2 hstmts⟩, h₃⟩

end Nested

theorem draws_print (ht : P t) (h : feed.Supplies P E n) :
    Draws P E n (print t feed) (Drawn P E n (Stmt.ComesFrom P)) := by
  refine .bind ((draws_expr h.advance).mono fun {first} ⟨hfirst, h₁⟩ => ?_)
  refine .bind (.following ?_ ((draws_arguments h₁).mono fun ⟨hmore, h₂⟩ =>
    ⟨⟨⟨t, ht, rfl⟩, hfirst, hmore⟩, h₂.settled⟩))
  simpa [Phrase.ComesFrom] using hfirst

theorem draws_assignOrCall (ht : Written P [.identifier] t.text t.line) (h : feed.Supplies P E n) :
    Draws P E n (assignOrCall t feed) (Drawn P E n (Stmt.ComesFrom P)) := by
  unfold assignOrCall
  dsimp only
  split
  · rename_i op notes heq
    split
    · rename_i hop
      have hassign : Written P [.assignOp] op.text op.line :=
        ⟨op, h.advance.tokens _ (List.mem_of_mem_head? heq), by simp [hop], rfl, rfl⟩
      exact .bind ((draws_expr h.advance.advance).mono fun ⟨hrhs, h₁⟩ =>
        ⟨⟨⟨_, hassign⟩, ht, hrhs⟩, h₁.settled⟩)
    · exact .bind ((draws_arguments h.advance).mono fun ⟨hargs, h₁⟩ =>
        ⟨⟨ht, hargs⟩, h₁.settled⟩)
  · exact .bind
      ((draws_atEnd h.advance ()).mono fun ⟨_, h₁⟩ => ⟨⟨ht, by simp⟩, h₁.settled⟩)

theorem draws_statement (h : feed.Supplies P E n) :
    Draws P E n (statement fuel feed) (Drawn P E n (Stmt.ComesFrom P)) := by
  induction fuel generalizing feed with
  | zero =>
    rw [statement]
    exact comesFrom_unexpected h
  | succ fuel ih =>
    rw [statement]
    split
    · exact comesFrom_unexpected h
    · rename_i t notes tokens heq
      have ht := h.head heq
      split
      · exact draws_ifStatement ih ht h
      · exact draws_whileStatement ih ht h
      · exact draws_print ht h
      · exact .bind ((draws_close h.advance _).mono fun hname => hname)
      · exact draws_assignOrCall ⟨t, ht, by simp [*], rfl, rfl⟩ h
      · exact ⟨by simp, .inl ⟨t, ht, rfl⟩, h⟩
      · split
        · exact .bind ((draws_expr h).mono fun he => he)
        · exact comesFrom_unexpected h

theorem draws_definition (h : feed.Supplies P E n) :
    Draws P E n (definition feed) (Drawn P E n (Item.ComesFrom P E)) := by
  refine .bind ((draws_take h.advance _).mono fun {name} ⟨hname, h₁⟩ =>
    .bind ((draws_parameters h₁).mono fun {params} ⟨hparams, h₂⟩ => ?_))
  have hheader : Header.ComesFrom P ⟨name.1.text, params.1, site params.2 name.1.line⟩ :=
    ⟨hname, hparams⟩
  refine .bind
    (.following ?_
      ((draws_block draws_statement h₂.settled).mono fun {stmts} ⟨hstmts, h₃⟩ => ?_))
  · simpa [Phrase.ComesFrom, site] using hheader
  refine .bind (.following ?_ ((draws_close h₃ _).mono fun ⟨hend, h₄⟩ =>
    ⟨⟨hheader, allComeFrom_iff.2 hstmts, hend.onLine⟩, h₄⟩))
  simpa [Phrase.ComesFrom, site] using ⟨hheader, hstmts⟩

theorem draws_item (h : feed.Supplies P E n) :
    Draws P E n (item feed) (Drawn P E n (Item.ComesFrom P E)) := by
  unfold item
  split
  · exact draws_definition h
  · exact .bind ((draws_statement h).mono fun hs => hs)

theorem comesFrom_items (fuel : Nat) (h : feed.Supplies P E n) :
    ∀ i ∈ (items fuel feed).items, i.ComesFrom P E := by
  induction fuel generalizing feed with
  | zero => simp [items]
  | succ fuel ih =>
    rw [items]
    split
    · have hending := h.ending
      split
      · simp
      · rename_i heq
        rw [heq] at hending
        simpa [Item.ComesFrom, Fault.ComesFrom] using hending
    · have hitem := draws_item h
      split
      · rename_i hi
        rw [hi] at hitem
        exact List.forall_mem_cons.2 ⟨hitem.1, ih hitem.2⟩
      · rename_i hi
        rw [hi] at hitem
        simpa [Item.ComesFrom] using ⟨hitem.done, hitem.fault⟩
      · rename_i hi
        rw [hi] at hitem
        exact List.forall_mem_cons.2
          ⟨⟨hitem.done, hitem.fault⟩, ih hitem.rest.settled.advance⟩

theorem comesFrom_parse (htokens : ∀ t ∈ feed.tokens, P t.1) (hending : E feed.ending) :
    ∀ i ∈ (parse feed).items, i.ComesFrom P E :=
  comesFrom_items _ ⟨htokens, hending, Nat.le_refl _⟩

end Source

end TurtleCompiler
