import TurtleCompiler.Proofs.MaximalMunch
import TurtleCompiler.Proofs.Provenance

/-!
Every name in a tree that the parser makes is a word of the text, and none of the reserved ones.
-/

namespace TurtleCompiler

structure IsName (s : String) : Prop where
  nonempty : s ≠ ""
  word : ∀ c ∈ s.toList, isWordChar c
  identifier : Lexeme.ofWord s = .identifier

namespace Source

def Expr.names : Expr → List String
  | .number .. | .string _ | .boolean _ | .random => []
  | .var name _ => [name]
  | .plus e _ | .minus e _ | .not e _ => e.names
  | .arith _ l r _ | .compare _ l r _ | .logic _ l r _ => l.names ++ r.names

mutual

def Stmt.names : Stmt → List String
  | .expr e => e.names
  | .assign name _ rhs _ => name :: rhs.names
  | .call name args _ => name :: args.flatMap Expr.names
  | .print first more _ => first.names ++ more.flatMap Expr.names
  | .typein name _ => [name]
  | .ifThen cond yes _ => cond.names ++ namesOfAll yes
  | .ifElse cond yes no _ => cond.names ++ (namesOfAll yes ++ namesOfAll no)
  | .whileDo cond body _ => cond.names ++ namesOfAll body

def namesOfAll : List Stmt → List String
  | [] => []
  | s :: ss => s.names ++ namesOfAll ss

end

def Item.isComplete : Item → Bool
  | .statement _ | .definition .. => true
  | .broken .. => false

def Item.names : Item → List String
  | .statement s => s.names
  | .definition header body _ => header.name :: (header.params ++ namesOfAll body)
  | .broken .. => []

end Source

theorem Lexeme.IsWord.isName {word : List Char} (h : IsWord word) (hfree : ¬IsKeyword word) :
    IsName (String.ofList word) := by
  obtain _ | ⟨c, cs⟩ := word
  · exact h.elim
  · refine ⟨fun hnil => by simpa using congrArg String.toList hnil, fun d hd => ?_,
      (eq_ofWord_iff.2 (.inr ⟨rfl, ?_⟩)).symm⟩
    · rw [String.toList_ofList] at hd
      rcases List.mem_cons.1 hd with rfl | hd
      · exact isWordChar_of_isWordStart h.1
      · exact h.2 d hd
    · exact fun entry hentry he => hfree ⟨entry, hentry, he⟩

def Token.IsSound (t : Token) : Prop :=
  (t.lexeme = .identifier → IsName t.text) ∧
    (t.lexeme = .colonIdentifier → IsName (Source.variableName t))

def Feed.IsSound (feed : Feed) : Prop := ∀ t ∈ feed.tokens, t.1.IsSound

theorem Token.IsLexical.isSound {t : Token} (h : t.IsLexical) : t.IsSound := by
  obtain ⟨htext, hfree⟩ := h
  have hkeyword : ∀ entry ∈ Lexeme.keywords, entry.2 ≠ .identifier ∧
    entry.2 ≠ .colonIdentifier := by decide
  have hsign : ∀ entry ∈ Lexeme.signs, entry.2 ≠ .identifier ∧
    entry.2 ≠ .colonIdentifier := by decide
  constructor <;> intro hlexeme <;> rw [hlexeme] at htext
  · generalize htoken : t.text.toList = text at htext
    cases htext with
    | keyword _ hkey => exact absurd rfl (hkeyword _ hkey).1
    | identifier hword hnot =>
      rw [← String.ofList_toList (s := t.text), htoken]
      exact hword.isName hnot
    | sign hmem => exact absurd rfl (hsign _ hmem).1
  · generalize htoken : t.text.toList = text at htext hfree
    cases htext with
    | keyword _ hkey => exact absurd rfl (hkeyword _ hkey).2
    | colonIdentifier hword =>
      rw [Source.variableName, htoken]
      exact hword.isName fun hkey => hfree ⟨_, rfl, hkey⟩
    | sign hmem => exact absurd rfl (hsign _ hmem).2

theorem Feed.isSound_scan (n : Nat) (input : Input) :
    (scan n input).IsSound := fun _ ht => (isLexical_scan ht).isSound

namespace Source

theorem Mentioned.isName {x : String} (h : Mentioned Token.IsSound x) : IsName x := by
  obtain ⟨t, ht, hlexeme, rfl⟩ := h
  exact ht.2 hlexeme

theorem Written.isName {x : String} {line : Nat} (h : Written Token.IsSound [.identifier] x line) :
    IsName x := by
  obtain ⟨t, ht, hlexeme, rfl, -⟩ := h
  exact ht.1 (List.mem_singleton.1 hlexeme)

theorem Expr.ComesFrom.isName {e : Expr} (h : e.ComesFrom Token.IsSound) :
    ∀ x ∈ e.names, IsName x := by
  induction e with
  | number | string | boolean | random => simp [names]
  | var name site => simpa [names] using h.2.isName
  | plus e site ih | minus e site ih | not e site ih => exact ih h.2
  | arith op l r site ihl ihr | compare op l r site ihl ihr | logic op l r site ihl ihr =>
    exact List.forall_mem_append.2 ⟨ihl h.2.1, ihr h.2.2⟩

theorem isName_of_exprs {es : List Expr} (h : ∀ e ∈ es, e.ComesFrom Token.IsSound) :
    ∀ x ∈ es.flatMap Expr.names, IsName x := by
  rw [List.forall_mem_flatMap]
  exact fun e he => (h e he).isName

mutual

theorem Stmt.isName_of_comesFrom :
    (s : Stmt) → s.ComesFrom Token.IsSound → ∀ x ∈ s.names, IsName x
  | .expr _, h => h.isName
  | .assign _ _ _ _, h => List.forall_mem_cons.2 ⟨h.2.1.isName, h.2.2.isName⟩
  | .call _ _ _, h => List.forall_mem_cons.2 ⟨h.1.isName, isName_of_exprs h.2⟩
  | .print _ _ _, h => List.forall_mem_append.2 ⟨h.2.1.isName, isName_of_exprs h.2.2⟩
  | .typein _ _, h => by simpa [Stmt.names] using Written.isName h
  | .ifThen _ yes _, h =>
    List.forall_mem_append.2 ⟨h.2.1.isName, isName_of_allComeFrom yes h.2.2⟩
  | .ifElse _ yes no _, h => List.forall_mem_append.2 ⟨h.2.1.isName,
      List.forall_mem_append.2 ⟨isName_of_allComeFrom yes h.2.2.1,
        isName_of_allComeFrom no h.2.2.2⟩⟩
  | .whileDo _ body _, h =>
    List.forall_mem_append.2 ⟨h.2.1.isName, isName_of_allComeFrom body h.2.2⟩

theorem isName_of_allComeFrom : (ss : List Stmt) → AllComeFrom Token.IsSound ss →
    ∀ x ∈ namesOfAll ss, IsName x
  | [], _ => by simp [namesOfAll]
  | s :: ss, h =>
    List.forall_mem_append.2 ⟨s.isName_of_comesFrom h.1, isName_of_allComeFrom ss h.2⟩

end

theorem names_items (fuel : Nat) {feed : Feed} (h : feed.IsSound)
    (hcomplete : ∀ i ∈ (items fuel feed).items, i.isComplete) :
    ∀ i ∈ (items fuel feed).items, ∀ x ∈ i.names, IsName x := by
  intro i hi
  have hfrom := comesFrom_items (E := fun _ => True) fuel ⟨h, trivial, Nat.le_refl _⟩ i hi
  cases i with
  | statement s => exact s.isName_of_comesFrom hfrom
  | definition header body site =>
    obtain ⟨⟨hname, hparams⟩, hbody, -⟩ := hfrom
    exact List.forall_mem_cons.2 ⟨hname.isName,
      List.forall_mem_append.2 ⟨fun x hx => (hparams x hx).isName,
        isName_of_allComeFrom body hbody⟩⟩
  | broken done fault => exact absurd (hcomplete _ hi) (by simp [Item.isComplete])

theorem isName_of_parse {text : String} (h : ∀ i ∈ (parse (.ofText text)).items, i.isComplete) :
    ∀ i ∈ (parse (.ofText text)).items, ∀ x ∈ i.names, IsName x :=
  names_items _ (Feed.isSound_scan _ _) h

end Source

end TurtleCompiler
