import TurtleCompiler.Source.Parser

/-!
The grammar of the language, over the classes of tokens.
-/

namespace TurtleCompiler

def Feed.lexemes (feed : Feed) : List Lexeme := feed.tokens.map (·.1.lexeme)

namespace Grammar

inductive Layer where
  | logic
  | negation
  | relation
  | sum
  | product
  | power
  | sign
  | atom
  deriving DecidableEq

def Layer.rank : Layer → Nat
  | .logic => 0
  | .negation => 1
  | .relation => 2
  | .sum => 3
  | .product => 4
  | .power => 5
  | .sign => 6
  | .atom => 7

def isLiteral : Lexeme → Bool
  | .number | .string | .colonIdentifier | .boolean | .randomKey => true
  | _ => false

/-- Operators of one layer associate to the left, but powers to the right. -/
inductive Expression : Layer → List Lexeme → Prop
  | tighter {l m : Layer} {w : List Lexeme} : l.rank ≤ m.rank → Expression m w →
      Expression l w
  | logic {u v : List Lexeme} : Expression .logic u → Expression .negation v →
      Expression .logic (u ++ .logicOp :: v)
  | negation {w : List Lexeme} : Expression .negation w → Expression .negation (.notKey :: w)
  | relation {u v : List Lexeme} : Expression .relation u → Expression .sum v →
      Expression .relation (u ++ .relOp :: v)
  | sum {u v : List Lexeme} : Expression .sum u → Expression .product v →
      Expression .sum (u ++ .addOp :: v)
  | product {u v : List Lexeme} : Expression .product u → Expression .power v →
      Expression .product (u ++ .mulOp :: v)
  | power {u v : List Lexeme} : Expression .sign u → Expression .power v →
      Expression .power (u ++ .powOp :: v)
  | sign {w : List Lexeme} : Expression .sign w → Expression .sign (.addOp :: w)
  | literal {l : Lexeme} : isLiteral l → Expression .atom [l]
  | paren {w : List Lexeme} : Expression .logic w →
      Expression .atom (.openParen :: w ++ [.closeParen])

inductive Many (p : List Lexeme → Prop) : List Lexeme → Prop
  | nil : Many p []
  | cons {u v : List Lexeme} : p u → Many p v → Many p (u ++ v)

inductive Statement : List Lexeme → Prop
  | expr {w : List Lexeme} : Expression .logic w → Statement w
  | assign {w : List Lexeme} : Expression .logic w → Statement (.identifier :: .assignOp :: w)
  | call {args : List Lexeme} : Many (Expression .logic) args → Statement (.identifier :: args)
  | print {first more : List Lexeme} : Expression .logic first → Many (Expression .logic) more →
      Statement (.printKey :: first ++ more)
  | typein : Statement [.typeinKey, .identifier]
  | ifThen {cond yes : List Lexeme} : Expression .logic cond → Many Statement yes →
      Statement (.ifKey :: cond ++ .thenKey :: yes ++ [.endKey])
  | ifElse {cond yes no : List Lexeme} : Expression .logic cond → Many Statement yes →
      Many Statement no →
      Statement (.ifKey :: cond ++ .thenKey :: yes ++ .elseKey :: no ++ [.endKey])
  | whileDo {cond body : List Lexeme} : Expression .logic cond → Many Statement body →
      Statement (.whileKey :: cond ++ body ++ [.endKey])

/-- A variable may stand at the beginning of a body as well as in the parameters before it. If
parameters are `greedy`, it stands in the parameters. -/
inductive Item (greedy : Prop) : List Lexeme → Prop
  | statement {w : List Lexeme} : Statement w → Item greedy w
  | definition {params : Nat} {body : List Lexeme} : Many Statement body →
      (greedy → body.head? ≠ some .colonIdentifier) →
      Item greedy
      (.toKey :: .identifier :: List.replicate params .colonIdentifier ++ body ++ [.endKey])

def Program (greedy : Prop) (w : List Lexeme) : Prop :=
  ∃ u v, w = u ++ v ∧ Item greedy u ∧ Many (Item greedy) v

def startsStatement : Lexeme → Bool
  | .identifier | .printKey | .typeinKey | .ifKey | .whileKey => true
  | l => Source.startsExpr l

variable {layer : Layer} {w : List Lexeme}

theorem Expression.head (h : Expression layer w) : ∃ l v, w = l :: v ∧ Source.startsExpr l := by
  induction h with
  | tighter _ _ ih => exact ih
  | logic _ _ ih | relation _ _ ih | sum _ _ ih | product _ _ ih | power _ _ ih =>
    obtain ⟨l, v, rfl, hl⟩ := ih
    exact ⟨l, _, rfl, hl⟩
  | negation | sign => exact ⟨_, _, rfl, rfl⟩
  | @literal l hl => exact ⟨l, [], rfl, by cases l <;> simp_all [isLiteral, Source.startsExpr]⟩
  | paren => exact ⟨_, _, rfl, rfl⟩

theorem Statement.head (h : Statement w) : ∃ l v, w = l :: v ∧ startsStatement l := by
  cases h with
  | expr h =>
    obtain ⟨l, v, rfl, hl⟩ := h.head
    exact ⟨l, v, rfl, by cases l <;> simp_all [startsStatement, Source.startsExpr]⟩
  | assign | call | print | typein | ifThen | ifElse | whileDo => exact ⟨_, _, rfl, rfl⟩

theorem Item.ne_nil {greedy : Prop} (h : Item greedy w) : w ≠ [] := by
  cases h with
  | statement h =>
    obtain ⟨l, v, rfl, -⟩ := h.head
    exact List.cons_ne_nil l v
  | definition => simp

end Grammar

end TurtleCompiler
