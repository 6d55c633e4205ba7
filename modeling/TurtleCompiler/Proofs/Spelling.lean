import TurtleCompiler.Proofs.MaximalMunch
import TurtleCompiler.Proofs.Outcome
import TurtleCompiler.Proofs.Provenance

/-!
The text of every operator that the parser puts in a tree is one, also in the phrases that were
complete when a statement broke off.
-/

namespace TurtleCompiler

def Source.IsAssignment (op : String) : Prop := op = "=" ∨ (compoundOp? op).isSome

def Token.IsSpelled (t : Token) : Prop :=
  match t.lexeme with
  | .addOp | .mulOp | .powOp => (ArithOp.ofText? t.text).isSome
  | .relOp => (RelOp.ofText? t.text).isSome
  | .logicOp => (LogicOp.ofText? t.text).isSome
  | .assignOp => Source.IsAssignment t.text
  | _ => True

theorem Token.IsLexical.isSpelled {t : Token} (h : t.IsLexical) : t.IsSpelled := by
  have hwords : ∀ entry ∈ Lexeme.keywords, entry.2 = .logicOp ∧
      (entry.1 = "AND" ∨ entry.1 = "OR") ∨
      entry.2 ∉ [.addOp, .mulOp, .powOp, .relOp, .logicOp, .assignOp] := by decide
  obtain ⟨lexeme, text, line⟩ := t
  have hsigns : ∀ entry ∈ Lexeme.signs, (Token.mk entry.2 entry.1 line).IsSpelled := by
    simp [Lexeme.signs, IsSpelled, Source.IsAssignment, compoundOp?, RelOp.ofText?, ArithOp.ofText?]
  have htext := h.isText
  dsimp only at htext
  rw [← String.ofList_toList (s := text)]
  generalize text.toList = text at htext
  cases htext with
  | keyword _ hkey =>
    rcases hwords _ hkey with ⟨rfl, hupper⟩ | hother
    · dsimp only at hupper
      rcases hupper with hupper | hupper <;> simp [IsSpelled, LogicOp.ofText?, hupper]
    · cases lexeme <;> first | trivial | simp at hother
  | identifier | colonIdentifier | integer | decimal | string => trivial
  | sign hsign => exact hsigns _ hsign

variable {input : Input}

theorem Input.isOfSource_next {e : Error} (h : input.next.result = .error e) : e.IsOfSource := by
  cases hskipped : input.skipped.rest with
  | nil => simp [next_of_skipped_nil hskipped] at h
  | cons c cs =>
    rw [(next_of_skipped hskipped).1] at h
    cases hm : Munch.ofText c cs <;> rw [hm] at h <;> cases h <;> trivial

theorem Feed.isOfSource_scan {n : Nat} {e : Error} (h : (scan n input).ending = .error e) :
    e.IsOfSource := by
  obtain ⟨_, hi⟩ := (steps_of_scan n input).2 h
  exact Input.isOfSource_next hi

namespace Source

section Written

variable {op : String} {line : Nat}

theorem Written.isArith (h : Written Token.IsSpelled [.addOp, .mulOp, .powOp] op line) :
    (ArithOp.ofText? op).isSome := by
  obtain ⟨t, ht, hlexeme, rfl, -⟩ := h
  simp only [List.mem_cons, List.not_mem_nil, or_false] at hlexeme
  rcases hlexeme with hlexeme | hlexeme | hlexeme <;> simpa [Token.IsSpelled, hlexeme] using ht

theorem Written.isSpelled {lexeme : Lexeme} (h : Written Token.IsSpelled [lexeme] op line) :
    (Token.mk lexeme op line).IsSpelled := by
  obtain ⟨t, ht, hlexeme, rfl, rfl⟩ := h
  exact List.mem_singleton.1 hlexeme ▸ ht

end Written

def EndsInSource (ending : Except Error Nat) : Prop := ∀ {e}, ending = .error e → e.IsOfSource

theorem isSpelled_parse (text : String) :
    ∀ i ∈ (parse (.ofText text)).items, i.ComesFrom Token.IsSpelled EndsInSource :=
  comesFrom_parse (fun _ ht => (Feed.isLexical_scan ht).isSpelled) Feed.isOfSource_scan

end Source

end TurtleCompiler
