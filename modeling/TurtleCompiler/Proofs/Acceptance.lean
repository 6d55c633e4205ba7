import TurtleCompiler.Proofs.Derivation

/-!
What can be derived is taken by the parser, though not always as it was derived: an expression goes
on with a sign that could begin a statement, and a call takes expressions that could stand by
themselves.
-/

namespace TurtleCompiler

namespace Grammar

inductive Place where
  | operand
  | operator

inductive Chain : Place → List Lexeme → Prop
  | done : Chain .operator []
  | operator {op : Lexeme} {v : List Lexeme} : (Source.bindingPower op).isSome →
      Chain .operand v → Chain .operator (op :: v)
  | literal {l : Lexeme} {v : List Lexeme} : isLiteral l → Chain .operator v →
      Chain .operand (l :: v)
  | sign {v : List Lexeme} : Chain .operand v → Chain .operand (.addOp :: v)
  | negation {v : List Lexeme} : Chain .operand v → Chain .operand (.notKey :: v)
  | paren {w v : List Lexeme} : Chain .operand w → Chain .operator v →
      Chain .operand (.openParen :: w ++ .closeParen :: v)

variable {place : Place} {layer : Layer} {u v w : List Lexeme}

theorem Chain.append (hu : Chain place u) (hv : Chain .operator v) : Chain place (u ++ v) := by
  induction hu with
  | done => exact hv
  | operator hop _ ih => exact .operator hop ih
  | literal hl _ ih => exact .literal hl ih
  | sign _ ih => exact .sign ih
  | negation _ ih => exact .negation ih
  | paren hw _ _ ih => simpa using Chain.paren hw ih

theorem Expression.chain (h : Expression layer w) : Chain .operand w := by
  induction h with
  | tighter _ _ ih => exact ih
  | logic _ _ ihu ihv | relation _ _ ihu ihv | sum _ _ ihu ihv | product _ _ ihu ihv
  | power _ _ ihu ihv =>
    exact ihu.append (.operator rfl ihv)
  | negation _ ih => exact .negation ih
  | sign _ ih => exact .sign ih
  | literal hl => exact .literal hl .done
  | paren _ ih => exact .paren ih .done

theorem Chain.startsExpr (h : Chain .operand u) : ∃ l v, u = l :: v ∧ Source.startsExpr l := by
  cases h with
  | @literal l v hl => exact ⟨l, v, rfl, by cases l <;> simp_all [isLiteral, Source.startsExpr]⟩
  | sign | negation | paren => exact ⟨_, _, rfl, rfl⟩

section

variable {l : Lexeme} (h : Chain .operand (l :: v))

include h

theorem Chain.of_literal (hl : isLiteral l) : Chain .operator v := by
  cases h with
  | literal _ hv => exact hv
  | sign | negation | paren => simp [isLiteral] at hl

theorem Chain.of_sign (hl : l = .addOp ∨ l = .notKey) : Chain .operand v := by
  cases h with
  | literal hl' => rcases hl with rfl | rfl <;> simp [isLiteral] at hl'
  | sign hv | negation hv => exact hv
  | paren => simp at hl

theorem Chain.of_paren (hl : l = .openParen) :
    ∃ u w, v = u ++ .closeParen :: w ∧ Chain .operand u ∧ Chain .operator w := by
  cases h with
  | literal hl' => simp [hl, isLiteral] at hl'
  | sign | negation => cases hl
  | paren hu hw => exact ⟨_, _, rfl, hu, hw⟩

end

theorem Chain.operator_of_sign (h : Chain .operand (.addOp :: v)) : Chain .operator (.addOp :: v) :=
  .operator rfl (h.of_sign (.inl rfl))

theorem Many.append {p : List Lexeme → Prop} (hu : Many p u) (hv : Many p v) :
    Many p (u ++ v) := by
  induction hu with
  | nil => exact hv
  | cons h _ ih => simpa using Many.cons h ih

theorem Many.mono {p q : List Lexeme → Prop} (h : Many p w) (hpq : ∀ {u}, p u → q u) :
    Many q w := by
  induction h with
  | nil => exact .nil
  | cons h _ ih => exact .cons (hpq h) ih

theorem Statement.expression {l : Lexeme} (h : Statement (l :: v)) (hl : Source.startsExpr l) :
    Expression .logic (l :: v) := by
  cases h with
  | expr h => exact h
  | assign | call | print | typein | ifThen | ifElse | whileDo => simp [Source.startsExpr] at hl

theorem eq_addOp {l : Lexeme} (hl : startsStatement l) (hop : (Source.bindingPower l).isSome) :
    l = .addOp := by
  cases l <;> simp_all [startsStatement, Source.startsExpr, Source.bindingPower]

def NoOperator (w : List Lexeme) : Prop := ∀ l ∈ w.head?, Source.bindingPower l = none

def Ends (w : List Lexeme) : Prop :=
  ∀ l ∈ w.head?, Source.bindingPower l = none ∧ startsStatement l = false ∧ l ≠ .assignOp

theorem Chain.absorb (hu : Chain .operand u) (hw : Many Statement w) {rest : List Lexeme}
    (hrest : Ends rest) : ∃ u' v, u ++ w = u' ++ v ∧ Chain .operand u' ∧ Many Statement v ∧
    NoOperator (v ++ rest) ∧ v.length ≤ w.length := by
  induction hw generalizing u with
  | nil => exact ⟨u, [], rfl, hu, .nil, fun l hl => (hrest l hl).1, Nat.le_refl _⟩
  | @cons s w hs hw ih =>
    obtain ⟨l, s, rfl, hl⟩ := hs.head
    by_cases hop : (Source.bindingPower l).isSome
    · obtain rfl := eq_addOp hl hop
      have hsign := (hs.expression rfl).chain.operator_of_sign
      obtain ⟨u', v, heq, hu', hv, hstop, hle⟩ := ih (hu.append hsign)
      exact ⟨u', v, by simpa using heq, hu', hv, hstop, by simp; omega⟩
    · exact ⟨u, .cons l s ++ w, rfl, hu, .cons hs hw, by simpa [NoOperator] using hop,
        Nat.le_refl _⟩

theorem Many.split_items {greedy : Prop} (h : Many (Item greedy) w) :
    ∃ u v, w = u ++ v ∧ Many Statement u ∧
      (v = [] ∨ ∃ (params : Nat) (body v' : List Lexeme), Many Statement body ∧
      (greedy → body.head? ≠ some .colonIdentifier) ∧ Many (Item greedy) v' ∧
      v = .toKey :: .identifier :: List.replicate params .colonIdentifier ++ body ++
      .endKey :: v') := by
  induction h with
  | nil => exact ⟨[], [], rfl, .nil, .inl rfl⟩
  | cons hi hrest ih =>
    cases hi with
    | statement hs =>
      obtain ⟨u, v, rfl, hu, hv⟩ := ih
      exact ⟨_, v, (List.append_assoc ..).symm, .cons hs hu, hv⟩
    | @definition params _ hbody hhead =>
      exact ⟨[], _, rfl, .nil, .inr ⟨params, _, _, hbody, hhead, hrest, by simp⟩⟩

end Grammar

structure Feed.Holds (feed : Feed) (line : Nat) (w : List Lexeme) : Prop where
  lexemes : feed.lexemes = w
  ending : feed.ending = .ok line

namespace Feed.Holds

variable {feed : Feed} {line : Nat} {l : Lexeme} {w : List Lexeme}

theorem settled (h : feed.Holds line w) :
    (Source.settled feed).Holds line w := ⟨h.lexemes, h.ending⟩

theorem tokens_nil (h : feed.Holds line []) :
    feed.tokens = [] := by simpa [Feed.lexemes] using h.lexemes

theorem length (h : feed.Holds line w) : feed.tokens.length = w.length := by
  simpa [Feed.lexemes] using congrArg List.length h.lexemes

theorem uncons {t : Token} {notes : List Event} {tokens : List (Token × List Event)}
    (h : feed.Holds line (l :: w)) (htokens : feed.tokens = (t, notes) :: tokens) :
    t.lexeme = l ∧ feed.advance.Holds line w := by
  have hlexemes := h.lexemes
  rw [Source.lexemes_advance htokens] at hlexemes
  obtain ⟨hl, hw⟩ := List.cons.inj hlexemes
  exact ⟨hl, hw, by simp [Feed.advance, htokens, h.ending]⟩

theorem settled_advance (h : feed.advance.Holds line w) :
    (Source.settled feed).advance.Holds line w := by
  refine ⟨(Source.lexemes_settled_advance feed).trans h.lexemes, ?_⟩
  rw [← h.ending]
  cases htokens : feed.tokens <;> simp [Feed.advance, Source.settled, htokens]

theorem next (h : feed.Holds line (l :: w)) :
    ∃ t notes tokens, feed.tokens = (t, notes) :: tokens ∧ t.lexeme = l ∧
    feed.advance.Holds line w ∧ (Source.settled feed).advance.Holds line w := by
  cases htokens : feed.tokens with
  | nil => simpa [Feed.lexemes, htokens] using h.lexemes
  | cons t tokens =>
    obtain ⟨hl, hadvance⟩ := h.uncons htokens
    exact ⟨t.1, t.2, tokens, rfl, hl, hadvance, hadvance.settled_advance⟩

end Feed.Holds

namespace Source

open Grammar (Chain Many NoOperator Ends Expression)

def Accepts (r : Except Failure α) (q : α → Prop) : Prop := ∃ a, r = .ok a ∧ q a

namespace Accepts

variable {α β : Type} {x : Except Failure α} {p q : α → Prop}

theorem mono (h : Accepts x p) (hpq : ∀ {a}, p a → q a) : Accepts x q := by
  obtain ⟨a, ha, hp⟩ := h
  exact ⟨a, ha, hpq hp⟩

theorem bind {f : α → Except Failure β} {r : β → Prop}
    (h : Accepts x fun a => Accepts (f a) r) : Accepts (x >>= f) r := by
  obtain ⟨a, rfl, ha⟩ := h
  exact ha

theorem following (h : Accepts x q) (done : List Phrase) : Accepts (following done x) q := by
  obtain ⟨a, rfl, ha⟩ := h
  exact ⟨a, rfl, ha⟩

end Accepts

section Tokens

variable {feed : Feed} {line : Nat} {l : Lexeme} {w : List Lexeme}

theorem accepts_take (h : feed.Holds line (l :: w)) :
    Accepts (take l feed) fun r => r.2.Holds line w := by
  obtain ⟨t, notes, tokens, htokens, hl, hadvance, -⟩ := h.next
  rw [take, htokens]
  exact ⟨_, if_pos hl, hadvance⟩

theorem accepts_close (h : feed.Holds line (l :: w)) :
    Accepts (close l feed) fun r => r.2.2.Holds line w := by
  obtain ⟨t, notes, tokens, htokens, hl, -, hadvance⟩ := h.next
  rw [close, htokens]
  exact ⟨_, if_pos hl, hadvance⟩

theorem accepts_atEnd (h : feed.Holds line w) (a : α) :
    Accepts (atEnd feed a) fun r => r.2.Holds line w := by
  rw [atEnd, h.ending]
  exact ⟨_, rfl, h⟩

end Tokens

def Leaves (power line n : Nat) (rest : List Lexeme) (r : Expr × Feed) : Prop :=
  ∃ v, Chain .operator v ∧ v.length ≤ n ∧ r.2.Holds line (v ++ rest) ∧ Stops power r.2

variable {line : Nat}

theorem Leaves.mono {power m n : Nat} {rest : List Lexeme} {r : Expr × Feed}
    (h : Leaves power line m rest r) (hle : m ≤ n) : Leaves power line n rest r := by
  obtain ⟨v, hv, hlength, hrest⟩ := h
  exact ⟨v, hv, Nat.le_trans hlength hle, hrest⟩

theorem Leaves.all {n : Nat} {rest : List Lexeme} {r : Expr × Feed} (h : Leaves 0 line n rest r) :
    r.2.Holds line rest := by
  obtain ⟨v, hv, -, hfeed, hstops⟩ := h
  cases hv with
  | done => exact hfeed
  | @operator op v hop _ =>
    obtain ⟨⟨left, right⟩, hpower⟩ := Option.isSome_iff_exists.1 hop
    exact absurd (hstops op (by simp [hfeed.lexemes]) hpower) (Nat.not_lt_zero _)

def Stage.place : Stage → Grammar.Place
  | .operand .. => .operand
  | .operators .. => .operator

theorem holds_leaf {t : Token} {l : Expr} {feed feed₁ : Feed} {w : List Lexeme}
    (h : feed.advance.Holds line w) (hleaf : leaf? t feed = some (l, feed₁)) :
    feed₁.Holds line w := by
  unfold leaf? at hleaf
  split at hleaf <;> cases hleaf
  · exact h.settled_advance
  · exact h
  · exact h
  · exact h.settled_advance
  · exact h

section

variable {t : Token} {notes : List Event} {tokens : List (Token × List Event)} {feed : Feed}
  {u rest : List Lexeme} (hfeed : feed.Holds line (u ++ rest))
  (htokens : feed.tokens = (t, notes) :: tokens)

include hfeed htokens

theorem exists_operand (hu : Chain .operand u) :
    ∃ w, u = t.lexeme :: w ∧ feed.advance.Holds line (w ++ rest) := by
  obtain ⟨l, w, rfl, -⟩ := hu.startsExpr
  obtain ⟨rfl, hadvance⟩ := hfeed.uncons htokens
  exact ⟨w, rfl, hadvance⟩

theorem exists_operator {powers : Nat × Nat} (hu : Chain .operator u) (hrest : NoOperator rest)
    (hop : bindingPower t.lexeme = some powers) :
    ∃ w, u = t.lexeme :: w ∧ Chain .operand w ∧ feed.advance.Holds line (w ++ rest) := by
  cases hu with
  | done =>
    have hhead : rest.head? = some t.lexeme := by
      rw [← List.nil_append rest, ← hfeed.lexemes, lexemes_advance htokens, List.head?_cons]
    simp [hrest _ hhead] at hop
  | operator _ hw =>
    obtain ⟨rfl, hadvance⟩ := hfeed.uncons htokens
    exact ⟨_, rfl, hw, hadvance⟩

end

theorem Climbs.accepts {st : Stage} {r : Except Failure (Expr × Feed)} (h : Climbs st r)
    {u rest : List Lexeme} (hu : Chain st.place u) (hrest : NoOperator rest)
    (hfeed : st.feed.Holds line (u ++ rest)) : Accepts r (Leaves st.power line u.length rest) := by
  have hclosed (v rest : List Lexeme) : NoOperator (.closeParen :: v ++ rest) := by
    simp [NoOperator, bindingPower]
  induction h generalizing u rest with
  | unexpected hnone =>
    obtain ⟨l, u, rfl, hl⟩ := hu.startsExpr
    obtain ⟨t, notes, tokens, htokens, rfl, -⟩ := hfeed.next
    exact absurd hl (by rw [hnone _ (congrArg List.head? htokens)]; decide)
  | leaf htokens hleaf _ ih =>
    obtain ⟨w, rfl, hadvance⟩ := exists_operand hfeed htokens hu
    have hw := hu.of_literal (literal_of_leaf hleaf).1
    exact (ih hw hrest (holds_leaf hadvance hleaf)).mono fun h => h.mono (Nat.le_succ _)
  | inner htokens hright _ ih =>
    obtain ⟨w, rfl, hadvance⟩ := exists_operand hfeed htokens hu
    have hsign (ht : _) : _ := ih (hu.of_sign ht) hrest hadvance
    unfold innerPower? at hright
    split at hright <;> cases hright
    · obtain ⟨u, v, rfl, hw, -⟩ := hu.of_paren ‹_›
      obtain ⟨_, heq, -⟩ := ih hw (hclosed v rest) (by simpa using hadvance)
      cases heq
    · obtain ⟨_, heq, -⟩ := hsign (.inr ‹_›)
      cases heq
    · obtain ⟨_, heq, -⟩ := hsign (.inl ‹_›)
      cases heq
  | unclosed htokens ht _ hclose ih =>
    obtain ⟨w, rfl, hadvance⟩ := exists_operand hfeed htokens hu
    obtain ⟨u, v, rfl, hw, -⟩ := hu.of_paren ht
    obtain ⟨_, heq, hleaves⟩ := ih hw (hclosed v rest) (by simpa using hadvance)
    cases heq
    obtain ⟨_, hok, -⟩ := accepts_take hleaves.all
    rw [hclose] at hok
    cases hok
  | paren htokens ht _ hclose _ ih ih' =>
    obtain ⟨w, rfl, hadvance⟩ := exists_operand hfeed htokens hu
    obtain ⟨u, v, rfl, hw, hv⟩ := hu.of_paren ht
    obtain ⟨_, heq, hleaves⟩ := ih hw (hclosed v rest) (by simpa using hadvance)
    cases heq
    obtain ⟨_, hok, hfeed₂⟩ := accepts_take hleaves.all
    rw [hclose] at hok
    cases hok
    exact (ih' hv hrest hfeed₂).mono fun h => h.mono (by simp; omega)
  | negation htokens ht _ _ ih ih' =>
    obtain ⟨w, rfl, hadvance⟩ := exists_operand hfeed htokens hu
    obtain ⟨_, heq, v, hv, hle, hfeed₁, -⟩ := ih (hu.of_sign (.inr ht)) hrest hadvance
    cases heq
    exact (ih' hv hrest hfeed₁.settled).mono fun h => h.mono (by simp; omega)
  | sign htokens ht _ _ ih ih' =>
    obtain ⟨w, rfl, hadvance⟩ := exists_operand hfeed htokens hu
    obtain ⟨_, heq, v, hv, hle, hfeed₁, -⟩ := ih (hu.of_sign (.inl ht)) hrest hadvance
    cases heq
    exact (ih' hv hrest hfeed₁.settled).mono fun h => h.mono (by simp; omega)
  | finish htokens =>
    refine .following
      ((accepts_atEnd hfeed _).mono fun hfeed' => ⟨u, hu, Nat.le_refl _, hfeed', ?_⟩) _
    intro op hop
    rw [hfeed'.lexemes, ← hfeed.lexemes, Stage.feed, Feed.lexemes, htokens] at hop
    cases hop
  | stop htokens hstop =>
    refine ⟨_, rfl, u, hu, Nat.le_refl _, hfeed, fun op hop left right hpower => ?_⟩
    rw [lexemes_advance htokens] at hop
    cases hop
    exact hstop _ hpower
  | broken htokens hop _ _ ih =>
    obtain ⟨w, rfl, hw, hadvance⟩ := exists_operator hfeed htokens hu hrest hop
    obtain ⟨_, heq, -⟩ := ih hw hrest hadvance
    cases heq
  | step htokens hop _ _ _ ih ih' =>
    obtain ⟨w, rfl, hw, hadvance⟩ := exists_operator hfeed htokens hu hrest hop
    obtain ⟨_, heq, v, hv, hle, hfeed₁, -⟩ := ih hw hrest hadvance
    cases heq
    exact (ih' hv hrest hfeed₁.settled).mono fun h => h.mono (by simp; omega)

def Remains (line n : Nat) (rest : List Lexeme) (r : α × Feed) : Prop :=
  ∃ v, Many Grammar.Statement v ∧ v.length ≤ n ∧ r.2.Holds line (v ++ rest)

variable {fuel : Nat}

section Statements

variable {feed : Feed} {line : Nat} {u w rest : List Lexeme} {t : Token}

theorem accepts_expr (hu : Chain .operand u) (hrest : NoOperator rest)
    (h : feed.Holds line (u ++ rest)) : Accepts (expr feed) fun r => r.2.Holds line rest := by
  have hlength := h.length
  rw [List.length_append] at hlength
  exact ((climbs_expr feed).accepts hu hrest h).mono Leaves.all

theorem accepts_exprBefore (hu : Expression .logic u) (hw : Many Grammar.Statement w)
    (hrest : Ends rest) (h : feed.Holds line (u ++ (w ++ rest))) :
    Accepts (expr feed) (Remains line w.length rest) := by
  obtain ⟨u', v, heq, hu', hv, hstop, hle⟩ := hu.chain.absorb hw hrest
  rw [← List.append_assoc, heq, List.append_assoc] at h
  exact (accepts_expr hu' hstop h).mono fun hfeed => ⟨v, hv, hle, hfeed⟩

theorem accepts_arguments (hw : Many Grammar.Statement w) (hrest : Ends rest)
    (hfuel : w.length < fuel) (h : feed.Holds line (w ++ rest)) :
    Accepts (arguments fuel feed) (Remains line w.length rest) := by
  induction fuel generalizing feed w with
  | zero => exact absurd hfuel (Nat.not_lt_zero _)
  | succ fuel ih =>
    rw [arguments]
    split
    · exact (accepts_atEnd h []).mono fun hfeed => ⟨w, hw, Nat.le_refl _, hfeed⟩
    · rename_i t notes tokens htokens
      have hhead : (w ++ rest).head? =
        some t.lexeme := by simp [← h.lexemes, lexemes_advance htokens]
      split
      · rename_i hstarts
        cases hw with
        | nil =>
          have hfalse := (hrest t.lexeme hhead).2.1
          cases hlexeme : t.lexeme <;> simp_all [Grammar.startsStatement, startsExpr]
        | @cons s w hs hw =>
          obtain ⟨l, s, rfl, -⟩ := hs.head
          obtain rfl : l = t.lexeme := by simpa using hhead
          simp only [List.cons_append, List.length_cons, List.length_append] at hfuel ⊢
          have hfeed : feed.Holds line (t.lexeme :: s ++ (w ++ rest)) := by simpa using h
          refine .bind
            ((accepts_exprBefore (hs.expression hstarts) hw hrest hfeed).mono fun hremains => ?_)
          obtain ⟨v, hv, hle, hfeed₁⟩ := hremains
          refine .bind (.following ((ih hv (by omega) hfeed₁).mono fun hremains => ?_) _)
          obtain ⟨v', hv', hle', hfeed₂⟩ := hremains
          exact ⟨_, rfl, v', hv', by omega, hfeed₂⟩
      · exact ⟨_, rfl, w, hw, Nat.le_refl _, h⟩

theorem accepts_print {first more : List Lexeme} (hfirst : Expression .logic first)
    (hmore : Many (Expression .logic) more) (hw : Many Grammar.Statement w) (hrest : Ends rest)
    (h : feed.Holds line (.printKey :: first ++ more ++ (w ++ rest))) :
    Accepts (print t feed) (Remains line (more ++ w).length rest) := by
  obtain ⟨_, _, _, -, -, hadvance, -⟩ := h.next
  have hall : Many Grammar.Statement (more ++ w) := (hmore.mono .expr).append hw
  have hfeed : feed.advance.Holds line (first ++ (more ++ w ++ rest)) := by simpa using hadvance
  refine .bind ((accepts_exprBefore hfirst hall hrest hfeed).mono fun hremains => ?_)
  obtain ⟨v, hv, hle, hfeed₁⟩ := hremains
  have hlength := hfeed₁.length
  rw [List.length_append] at hlength
  refine .bind
    (.following ((accepts_arguments hv hrest (by omega) hfeed₁).mono fun hremains => ?_) _)
  obtain ⟨v', hv', hle', hfeed₂⟩ := hremains
  exact ⟨_, rfl, v', hv', by omega, hfeed₂.settled⟩

theorem accepts_assign (hu : Expression .logic u) (hw : Many Grammar.Statement w)
    (hrest : Ends rest) (h : feed.Holds line (.identifier :: .assignOp :: u ++ (w ++ rest))) :
    Accepts (assignOrCall t feed) (Remains line w.length rest) := by
  obtain ⟨_, _, _, -, -, hadvance, -⟩ := h.next
  obtain ⟨op, _, _, htokens, hop, hadvance', -⟩ := hadvance.next
  rw [assignOrCall]
  simp only [htokens, List.head?_cons, hop, if_true]
  refine .bind ((accepts_exprBefore hu hw hrest hadvance').mono fun hremains => ?_)
  obtain ⟨v, hv, hle, hfeed₁⟩ := hremains
  exact ⟨_, rfl, v, hv, hle, hfeed₁.settled⟩

theorem accepts_call (hw : Many Grammar.Statement w) (hrest : Ends rest)
    (h : feed.Holds line (.identifier :: (w ++ rest))) :
    Accepts (assignOrCall t feed) (Remains line w.length rest) := by
  obtain ⟨_, _, _, -, -, hadvance, -⟩ := h.next
  rw [assignOrCall]
  dsimp only
  split
  · rename_i op notes hop
    have hhead : (w ++ rest).head? = some op.lexeme := by
      simp [← hadvance.lexemes, Feed.lexemes, List.head?_map, hop]
    have hassign : op.lexeme ≠ .assignOp := by
      cases hw with
      | nil => exact (hrest op.lexeme hhead).2.2
      | cons hs hw =>
        obtain ⟨l, s, rfl, hl⟩ := hs.head
        rintro hop
        obtain rfl : l = op.lexeme := by simpa using hhead
        simp [hop, Grammar.startsStatement, startsExpr] at hl
    rw [if_neg hassign]
    have hlength := hadvance.length
    rw [List.length_append] at hlength
    refine .bind ((accepts_arguments hw hrest (by omega) hadvance).mono fun hremains => ?_)
    obtain ⟨v, hv, hle, hfeed₁⟩ := hremains
    exact ⟨_, rfl, v, hv, hle, hfeed₁.settled⟩
  · refine .bind ((accepts_atEnd hadvance ()).mono fun hfeed₁ => ?_)
    exact ⟨_, rfl, w, hw, Nat.le_refl _, hfeed₁.settled⟩

end Statements

def AcceptsBelow (n : Nat) (statement : Feed → Except Failure (Stmt × Feed)) : Prop :=
  ∀ {feed line l u w rest}, Grammar.Statement (l :: u) → Many Grammar.Statement w →
    (l :: u ++ w).length < n → Ends rest → feed.Holds line (l :: u ++ (w ++ rest)) →
    Accepts (statement feed) (Remains line (u ++ w).length rest)

section Nested

variable {statement : Feed → Except Failure (Stmt × Feed)} {n : Nat}
  (hstatement : AcceptsBelow n statement) {feed : Feed} {line : Nat} {w rest cond : List Lexeme}
  {key : Lexeme} {t : Token}

include hstatement

theorem accepts_block (hkey : key = .endKey ∨ key = .elseKey) (hw : Many Grammar.Statement w)
    (hn : w.length < n) (hfuel : w.length < fuel) (h : feed.Holds line (w ++ key :: rest)) :
    Accepts (block statement fuel feed) fun r => r.2.Holds line (key :: rest) := by
  have hends : Ends (key :: rest) := by
    rcases hkey with rfl | rfl <;> simp [Ends, bindingPower, Grammar.startsStatement, startsExpr]
  induction fuel generalizing feed w with
  | zero => exact absurd hfuel (Nat.not_lt_zero _)
  | succ fuel ih =>
    cases hw with
    | nil =>
      obtain ⟨t, notes, tokens, htokens, ht, -⟩ := h.next
      rw [block, htokens]
      simp only [ht]
      rw [if_pos (by rcases hkey with rfl | rfl <;> rfl)]
      exact ⟨_, rfl, h⟩
    | @cons s w hs hw =>
      obtain ⟨l, s, rfl, hl⟩ := hs.head
      have hfeed : feed.Holds line (l :: s ++ (w ++ key :: rest)) := by simpa using h
      obtain ⟨t, notes, tokens, htokens, ht, -⟩ := hfeed.next
      rw [block, htokens]
      simp only [ht]
      rw [if_neg (by rintro hl'; cases l <;> simp_all [Grammar.startsStatement, startsExpr])]
      refine .bind ((hstatement hs hw hn hends hfeed).mono fun hremains => ?_)
      obtain ⟨v, hv, hle, hfeed₁⟩ := hremains
      simp only [List.cons_append, List.length_cons, List.length_append] at hle hn hfuel
      exact .bind
        (.following
          ((ih hv (by omega) (by omega) hfeed₁).mono fun hfeed₂ => ⟨_, rfl, hfeed₂⟩) _)

theorem accepts_body (hkey : key = .endKey ∨ key = .elseKey) (hw : Many Grammar.Statement w)
    (hn : w.length < n) (h : feed.Holds line (w ++ key :: rest)) :
    Accepts (body statement feed) fun r => r.2.Holds line (key :: rest) := by
  have hlength := h.length
  rw [List.length_append] at hlength
  exact accepts_block hstatement hkey hw hn (by omega) h

section

variable (hcond : Expression .logic cond) (hw : Many Grammar.Statement w) (hn : w.length < n)

include hcond hw hn

theorem accepts_ifThen
    (h : feed.Holds line (.ifKey :: (cond ++ .thenKey :: (w ++ .endKey :: rest)))) :
    Accepts (ifStatement statement t feed) fun r => r.2.Holds line rest := by
  obtain ⟨_, _, _, -, -, hadvance, -⟩ := h.next
  have hthen : NoOperator (.thenKey :: (w ++ .endKey :: rest)) := by simp [NoOperator, bindingPower]
  refine .bind ((accepts_expr hcond.chain hthen hadvance).mono fun hfeed₁ => ?_)
  refine .bind (.following ((accepts_take hfeed₁).mono fun hfeed₂ => ?_) _)
  refine .bind
    (.following ((accepts_body hstatement (.inl rfl) hw hn hfeed₂).mono fun {r} hfeed₃ => ?_) _)
  obtain ⟨t', _, _, htokens, ht', -⟩ := hfeed₃.next
  have helse : r.2.tokens.head?.any (·.1.lexeme = .elseKey) = false := by simp [htokens, ht']
  dsimp only
  rw [helse]
  exact .bind (.following ((accepts_close hfeed₃).mono fun hfeed₄ => ⟨_, rfl, hfeed₄⟩) _)

theorem accepts_ifElse {no : List Lexeme} (hno : Many Grammar.Statement no) (hn' : no.length < n)
    (h : feed.Holds line
      (.ifKey :: (cond ++ .thenKey :: (w ++ .elseKey :: (no ++ .endKey :: rest))))) :
    Accepts (ifStatement statement t feed) fun r => r.2.Holds line rest := by
  obtain ⟨_, _, _, -, -, hadvance, -⟩ := h.next
  have hthen :
      NoOperator
      (.thenKey :: (w ++ .elseKey :: (no ++ .endKey :: rest))) := by simp [NoOperator, bindingPower]
  refine .bind ((accepts_expr hcond.chain hthen hadvance).mono fun hfeed₁ => ?_)
  refine .bind (.following ((accepts_take hfeed₁).mono fun hfeed₂ => ?_) _)
  refine .bind
    (.following ((accepts_body hstatement (.inr rfl) hw hn hfeed₂).mono fun {r} hfeed₃ => ?_) _)
  obtain ⟨t', _, _, htokens, ht', hadvance', -⟩ := hfeed₃.next
  have helse : r.2.tokens.head?.any (·.1.lexeme = .elseKey) = true := by simp [htokens, ht']
  dsimp only
  rw [helse]
  refine .bind
    (.following ((accepts_body hstatement (.inl rfl) hno hn' hadvance').mono fun hfeed₄ => ?_) _)
  exact .bind (.following ((accepts_close hfeed₄).mono fun hfeed₅ => ⟨_, rfl, hfeed₅⟩) _)

theorem accepts_while (h : feed.Holds line (.whileKey :: (cond ++ (w ++ .endKey :: rest)))) :
    Accepts (whileStatement statement t feed) fun r => r.2.Holds line rest := by
  obtain ⟨_, _, _, -, -, hadvance, -⟩ := h.next
  have hend :
      Ends (.endKey :: rest) := by simp [Ends, bindingPower, Grammar.startsStatement, startsExpr]
  refine .bind ((accepts_exprBefore hcond hw hend hadvance).mono fun hremains => ?_)
  obtain ⟨v, hv, hle, hfeed₁⟩ := hremains
  refine .bind
    (.following
      ((accepts_body hstatement (.inl rfl) hv (by omega) hfeed₁).mono fun hfeed₂ => ?_) _)
  exact .bind (.following ((accepts_close hfeed₂).mono fun hfeed₃ => ⟨_, rfl, hfeed₃⟩) _)

end

end Nested

theorem acceptsBelow_statement (fuel : Nat) : AcceptsBelow fuel (statement fuel) := by
  induction fuel with
  | zero => exact fun _ _ hn => absurd hn (Nat.not_lt_zero _)
  | succ fuel ih =>
    intro feed line l u w rest hs hw hn hrest h
    obtain ⟨t, notes, tokens, htokens, ht, hadvance, -⟩ := h.next
    have hall {r : Stmt × Feed} (hfeed : r.2.Holds line (w ++ rest)) :
        Remains line (u ++ w).length rest r :=
      ⟨w, hw, by simp, hfeed⟩
    rw [statement, htokens]
    simp only [ht]
    cases hs with
    | expr he =>
      obtain ⟨l, u, heq, hl⟩ := he.head
      obtain ⟨rfl, rfl⟩ := List.cons.inj heq
      split
      case h_7 =>
        rw [if_pos hl]
        refine .bind ((accepts_exprBefore he hw hrest h).mono fun hremains => ?_)
        obtain ⟨v, hv, hle, hfeed₁⟩ := hremains
        exact ⟨_, rfl, v, hv, by simp; omega, hfeed₁⟩
      all_goals simp [startsExpr] at hl
    | assign he =>
      refine (accepts_assign he hw hrest h).mono fun hremains => ?_
      obtain ⟨v, hv, hle, hfeed₁⟩ := hremains
      exact ⟨v, hv, by simp; omega, hfeed₁⟩
    | call hargs =>
      exact accepts_call ((hargs.mono .expr).append hw) hrest (by simpa using h)
    | print hfirst hmore =>
      refine (accepts_print hfirst hmore hw hrest (by simpa using h)).mono fun hremains => ?_
      obtain ⟨v, hv, hle, hfeed₁⟩ := hremains
      refine ⟨v, hv, ?_, hfeed₁⟩
      change _ ≤ ((_ ++ _) ++ w).length
      simp only [List.length_append] at hle ⊢
      omega
    | typein =>
      exact .bind ((accepts_close hadvance).mono fun hfeed₁ => ⟨_, rfl, hall hfeed₁⟩)
    | ifThen hcond hyes =>
      refine (accepts_ifThen ih hcond hyes ?_ (by simpa using h)).mono hall
      simp at hn
      omega
    | ifElse hcond hyes hno =>
      refine (accepts_ifElse ih hcond hyes ?_ hno ?_ (by simpa using h)).mono hall <;>
      · simp at hn
        omega
    | whileDo hcond hbody =>
      refine (accepts_while ih hcond hbody ?_ (by simpa using h)).mono hall
      simp at hn
      omega

theorem accepts_parameters {params : Nat} {feed : Feed} {w : List Lexeme} (hfuel : params < fuel)
    (hw : w.head? ≠ some .colonIdentifier)
    (h : feed.Holds line (List.replicate params .colonIdentifier ++ w)) :
    Accepts (parameters fuel feed) fun r => r.2.Holds line w := by
  induction fuel generalizing feed params with
  | zero => exact absurd hfuel (Nat.not_lt_zero _)
  | succ fuel ih =>
    cases params with
    | zero =>
      rw [parameters]
      split
      · exact accepts_atEnd h []
      · rename_i t notes tokens htokens
        have hhead : w.head? = some t.lexeme := by
          rw [← h.lexemes.trans (List.nil_append w), lexemes_advance htokens, List.head?_cons]
        rw [if_neg (fun ht => hw (by rw [hhead, ht]))]
        exact ⟨_, rfl, h⟩
    | succ params =>
      obtain ⟨t, notes, tokens, htokens, ht, hadvance, -⟩ := h.next
      rw [parameters, htokens]
      simp only [ht, if_true]
      exact .bind
        ((ih (Nat.lt_of_succ_lt_succ hfuel) hadvance).mono fun hfeed₁ => ⟨_, rfl, hfeed₁⟩)

section Items

variable {feed : Feed} {line params : Nat} {body w rest : List Lexeme}

theorem accepts_definition (hbody : Many Grammar.Statement body)
    (hhead : body.head? ≠ some .colonIdentifier)
    (h : feed.Holds line
      (.toKey :: .identifier ::
        (List.replicate params .colonIdentifier ++ (body ++ .endKey :: rest)))) :
    Accepts (definition feed) fun r => r.1.isComplete ∧ r.2.Holds line rest := by
  obtain ⟨_, _, _, -, -, hadvance, -⟩ := h.next
  refine .bind ((accepts_take hadvance).mono fun hfeed₁ => ?_)
  have hlength := hfeed₁.length
  simp only [List.length_append, List.length_replicate] at hlength
  have hstop : (body ++ .endKey :: rest).head? ≠ some .colonIdentifier := by
    cases body with
    | nil => simp
    | cons => simpa using hhead
  refine .bind ((accepts_parameters (by omega) hstop hfeed₁).mono fun hfeed₂ => ?_)
  have hlength' := hfeed₂.length
  rw [List.length_append] at hlength'
  refine .bind
    (.following
      ((accepts_body (acceptsBelow_statement _) (.inl rfl) hbody (by omega) hfeed₂.settled).mono
    fun hfeed₃ => ?_) _)
  exact .bind
    (.following ((accepts_close hfeed₃).mono fun hfeed₄ => ⟨_, rfl, rfl, hfeed₄⟩) _)

theorem accepts_item (hw : Many (Grammar.Item True) w) (hne : w ≠ []) (h : feed.Holds line w) :
    Accepts (item feed) fun r => r.1.isComplete ∧
      ∃ v, Many (Grammar.Item True) v ∧ v.length < w.length ∧ r.2.Holds line v := by
  obtain ⟨u, v, rfl, hu, hv⟩ := hw.split_items
  have hitems : Many (Grammar.Item True) v := by
    rcases hv with rfl | ⟨params, body, v', hbody, hhead, hv', rfl⟩
    · exact .nil
    · simpa using Many.cons (.definition hbody hhead) hv'
  cases hu with
  | nil =>
    rcases hv with rfl | ⟨params, body, v', hbody, hhead, hv', rfl⟩
    · exact absurd rfl hne
    · obtain ⟨t, notes, tokens, htokens, ht, -⟩ := h.next
      rw [item, if_pos (by simp [htokens, ht])]
      refine (accepts_definition hbody (hhead trivial) (by simpa using h)).mono fun hitem => ?_
      obtain ⟨hi, hrest⟩ := hitem
      refine ⟨hi, v', hv', ?_, hrest⟩
      simp
      omega
  | @cons s u hs hu =>
    have hends : Ends v := by
      rcases hv with rfl | ⟨params, body, v', -, -, -, rfl⟩ <;>
        simp [Ends, bindingPower, Grammar.startsStatement, startsExpr]
    obtain ⟨l, s, rfl, hl⟩ := hs.head
    have hfeed : feed.Holds line (l :: s ++ (u ++ v)) := by simpa using h
    obtain ⟨t, notes, tokens, htokens, ht, -⟩ := hfeed.next
    have hto : l ≠ .toKey := by
      rintro rfl
      simp [Grammar.startsStatement, startsExpr] at hl
    have hlength := hfeed.length
    rw [← List.append_assoc, List.length_append] at hlength
    rw [item, if_neg (by simp [htokens, ht, hto])]
    refine .bind ((acceptsBelow_statement _ hs hu (by omega) hends hfeed).mono fun hremains => ?_)
    obtain ⟨w, hw, hle, hrest⟩ := hremains
    refine ⟨_, rfl, rfl, w ++ v, (hw.mono .statement).append hitems, ?_, hrest⟩
    simp only [List.cons_append, List.length_cons, List.length_append] at hle ⊢
    omega

theorem isComplete_items (hw : Many (Grammar.Item True) w) (hfuel : w.length < fuel)
    (h : feed.Holds line w) : ∀ i ∈ (items fuel feed).items, i.isComplete := by
  induction fuel generalizing feed w with
  | zero => exact absurd hfuel (Nat.not_lt_zero _)
  | succ fuel ih =>
    rw [items]
    split
    · simp [h.ending]
    · rename_i t tokens htokens
      have hne : w ≠ [] := by
        rintro rfl
        simp [h.tokens_nil] at htokens
      obtain ⟨⟨i, rest⟩, hi, hcomplete, v, hv, hlt, hrest⟩ := accepts_item hw hne h
      rw [hi]
      exact List.forall_mem_cons.2 ⟨hcomplete, ih hv (by omega) hrest⟩

theorem items_ne_nil (h : feed.tokens ≠ []) : (items (fuel + 1) feed).items ≠ [] := by
  rw [items]
  split
  · contradiction
  · split <;> simp

end Items

end Source

end TurtleCompiler
