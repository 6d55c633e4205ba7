import TurtleCompiler.Lowering.Program
import TurtleCompiler.Proofs.Derivation

/-!
Printing and parsing. An expression can be written with more parentheses or with fewer. The printer
sets those that the layers of the grammar ask for and no others, and the parser finds the same
expression in all its writings.
-/

namespace TurtleCompiler

/-! ### Expressions and what they are lowered to -/

inductive Sign where
  | plus
  | minus

inductive BinaryOp where
  | arith (op : ArithOp)
  | compare (op : RelOp)
  | logic (op : LogicOp)

def Sign.text : Sign → String
  | .plus => "+"
  | .minus => "-"

def ArithOp.text : ArithOp → String
  | .add => "+"
  | .sub => "-"
  | .mul => "*"
  | .div => "/"
  | .mod => "%"
  | .pow => "^"

def RelOp.text : RelOp → String
  | .less => "<"
  | .lessEq => "<="
  | .greater => ">"
  | .greaterEq => ">="
  | .equal => "=="
  | .notEqual => "<>"

def LogicOp.text : LogicOp → String
  | .and => "AND"
  | .or => "OR"

theorem ArithOp.ofText?_text (op : ArithOp) : ofText? op.text = some op := by
  cases op <;> rfl

theorem RelOp.ofText?_text (op : RelOp) : ofText? op.text = some op := by
  cases op <;> rfl

theorem LogicOp.ofText?_text (op : LogicOp) : ofText? op.text = some op := by
  cases op <;> decide +kernel

namespace BinaryOp

def text : BinaryOp → String
  | .arith op => op.text
  | .compare op => op.text
  | .logic op => op.text

def lexeme : BinaryOp → Lexeme
  | .arith .add | .arith .sub => .addOp
  | .arith .mul | .arith .div | .arith .mod => .mulOp
  | .arith .pow => .powOp
  | .compare _ => .relOp
  | .logic _ => .logicOp

def IsSpelled (text : String) : BinaryOp → Prop
  | .arith op => ArithOp.ofText? text = some op
  | .compare op => RelOp.ofText? text = some op
  | .logic op => LogicOp.ofText? text = some op

theorem isSpelled_text (op : BinaryOp) : op.IsSpelled op.text := by
  cases op with
  | arith op => exact op.ofText?_text
  | compare op => exact op.ofText?_text
  | logic op => exact op.ofText?_text

def act : BinaryOp → Expr → Expr → Nat → LowerM Expr
  | .arith op => Lowering.arithmetic op.text
  | .compare op => Lowering.comparison op.text
  | .logic op => Lowering.combination op.text

end BinaryOp

def Sign.act : Sign → Expr → Nat → LowerM Expr
  | .plus => Lowering.positive
  | .minus => Lowering.negate

inductive Term where
  | number (text : String) (line : Nat)
  | string (text : String)
  | boolean (text : String)
  | var (name : String) (line : Nat)
  | random
  | sign (op : Sign) (e : Term) (line : Nat)
  | not (e : Term) (line : Nat)
  | binary (op : BinaryOp) (l r : Term) (line : Nat)

def Term.act : Term → LowerM Expr
  | .number text line => Lowering.number text line
  | .string text => return Lowering.string text
  | .boolean text => return Lowering.boolean text
  | .var name line => Lowering.reference name line
  | .random => Lowering.random
  | .sign op e line => do
    let e ← e.act
    op.act e line
  | .not e line => do
    let e ← e.act
    Lowering.negation e line
  | .binary op l r line => do
    let l ← l.act
    let r ← r.act
    op.act l r line

/-! ### Writings -/

namespace Grammar

def Layer.ofRight : Lexeme → Layer
  | .logicOp => .negation
  | .relOp => .sum
  | .addOp => .product
  | _ => .power

inductive Writes : Layer → Term → List Token → Prop
  | tighter {layer layer' : Layer} {e : Term} {w : List Token} : layer.rank ≤ layer'.rank →
      Writes layer' e w → Writes layer e w
  | number {t : Token} : t.lexeme = .number → Writes .atom (.number t.text t.line) [t]
  | string {t : Token} : t.lexeme = .string → Writes .atom (.string t.text) [t]
  | boolean {t : Token} : t.lexeme = .boolean → Writes .atom (.boolean t.text) [t]
  | var {t : Token} {name : String} : t.lexeme = .colonIdentifier → t.text = ":" ++ name →
      Writes .atom (.var name t.line) [t]
  | random {t : Token} : t.lexeme = .randomKey → Writes .atom .random [t]
  | paren {t t' : Token} {e : Term} {w : List Token} : t.lexeme = .openParen →
      t'.lexeme = .closeParen → Writes .logic e w → Writes .atom e (t :: w ++ [t'])
  | sign {t : Token} {op : Sign} {e : Term} {w : List Token} : t.lexeme = .addOp →
      t.text = op.text → Writes .sign e w → Writes .sign (.sign op e t.line) (t :: w)
  | not {t : Token} {e : Term} {w : List Token} : t.lexeme = .notKey → Writes .negation e w →
      Writes .negation (.not e t.line) (t :: w)
  | binary {t : Token} {op : BinaryOp} {l r : Term} {u v : List Token} : t.lexeme = op.lexeme →
      op.IsSpelled t.text → Writes (.ofLeft op.lexeme) l u → Writes (.ofRight op.lexeme) r v →
      Writes (.ofOperator op.lexeme) (.binary op l r t.line) (u ++ t :: v)

def parentheses (w : List Token) : Nat := w.countP (·.lexeme = .openParen)

def inParentheses (w : List Token) :
    List Token := ⟨.openParen, "(", 0⟩ :: w ++ [⟨.closeParen, ")", 0⟩]

def fitted (asked own : Layer) (w : List Token) :
    List Token := if asked.rank ≤ own.rank then w else inParentheses w

end Grammar

open Grammar

namespace Term

def layer : Term → Layer
  | .number .. | .string _ | .boolean _ | .var .. | .random => .atom
  | .sign .. => .sign
  | .not .. => .negation
  | .binary op .. => .ofOperator op.lexeme

def print : Term → List Token
  | .number text line => [⟨.number, text, line⟩]
  | .string text => [⟨.string, text, 0⟩]
  | .boolean text => [⟨.boolean, text, 0⟩]
  | .var name line => [⟨.colonIdentifier, ":" ++ name, line⟩]
  | .random => [⟨.randomKey, "RANDOM", 0⟩]
  | .sign op e line => ⟨.addOp, op.text, line⟩ :: fitted .sign e.layer e.print
  | .not e line => ⟨.notKey, "NOT", line⟩ :: fitted .negation e.layer e.print
  | .binary op l r line =>
    fitted (.ofLeft op.lexeme) l.layer l.print ++ ⟨op.lexeme, op.text, line⟩ ::
      fitted (.ofRight op.lexeme) r.layer r.print

end Term

namespace Grammar

variable {asked own layer : Layer} {e : Term} {w : List Token}

theorem writes_fitted (h : Writes own e w) (asked : Layer) :
    Writes asked e (fitted asked own w) := by
  unfold fitted
  split
  · exact .tighter ‹_› h
  · have hlogic : Writes .logic e w := .tighter (Nat.zero_le _) h
    have hatom : asked.rank ≤ Layer.atom.rank := by cases asked <;> decide
    exact .tighter hatom (.paren rfl rfl hlogic)

theorem writes_print (e : Term) : Writes e.layer e e.print := by
  induction e with
  | number text line => exact .number (t := ⟨.number, text, line⟩) rfl
  | string text => exact .string (t := ⟨.string, text, 0⟩) rfl
  | boolean text => exact .boolean (t := ⟨.boolean, text, 0⟩) rfl
  | var name line => exact .var (t := ⟨.colonIdentifier, ":" ++ name, line⟩) rfl rfl
  | random => exact .random rfl
  | sign op e line ih => exact .sign (t := ⟨.addOp, op.text, line⟩) rfl rfl (writes_fitted ih _)
  | not e line ih => exact .not (t := ⟨.notKey, "NOT", line⟩) rfl (writes_fitted ih _)
  | binary op l r line ihl ihr =>
    exact .binary (t := ⟨op.lexeme, op.text, line⟩) rfl op.isSpelled_text (writes_fitted ihl _)
      (writes_fitted ihr _)

theorem writes_logic_print (e : Term) :
    Writes .logic e e.print := .tighter (Nat.zero_le _) (writes_print e)

@[simp] theorem parentheses_append (u v : List Token) :
    parentheses (u ++ v) = parentheses u + parentheses v :=
  List.countP_append

@[simp] theorem parentheses_cons (t : Token) (w : List Token) :
    parentheses (t :: w) = parentheses w + if t.lexeme = .openParen then 1 else 0 := by
  simp [parentheses, List.countP_cons]

theorem parentheses_inParentheses (w : List Token) :
    parentheses (inParentheses w) = parentheses w + 1 := by
  simp [inParentheses, parentheses]

theorem fitted_logic (own : Layer) (w : List Token) :
    fitted .logic own w = w := if_pos (Nat.zero_le _)

theorem parentheses_fitted_self (layer : Layer) (w : List Token) :
    parentheses (fitted layer layer w) = parentheses w := by
  rw [fitted, if_pos (Nat.le_refl _)]

theorem parentheses_fitted_le {asked' : Layer} (h : asked.rank ≤ asked'.rank) (own : Layer)
    (w : List Token) : parentheses (fitted asked own w) ≤ parentheses (fitted asked' own w) := by
  unfold fitted
  split <;> split
  · exact Nat.le_refl _
  · rw [parentheses_inParentheses]
    exact Nat.le_succ _
  · omega
  · exact Nat.le_refl _

theorem parentheses_fitted_le_succ (asked own : Layer) (w : List Token) :
    parentheses (fitted asked own w) ≤ parentheses w + 1 := by
  unfold fitted
  split
  · exact Nat.le_succ _
  · exact Nat.le_of_eq (parentheses_inParentheses w)

theorem exists_bindingPower (op : BinaryOp) :
    ∃ left right, Source.bindingPower op.lexeme = some (left, right) := by
  rcases op with op | op | op
  · cases op <;> exact ⟨_, _, rfl⟩
  all_goals exact ⟨_, _, rfl⟩

theorem lexeme_ne_of_none {l : Lexeme} (h : Source.bindingPower l = none) (op : BinaryOp) :
    l ≠ op.lexeme := by
  rintro rfl
  obtain ⟨left, right, hop⟩ := exists_bindingPower op
  simp [h] at hop

theorem parentheses_print_le (h : Writes layer e w) :
    parentheses (fitted layer e.layer e.print) ≤ parentheses w := by
  induction h with
  | tighter hle _ ih => exact Nat.le_trans (parentheses_fitted_le hle _ _) ih
  | number | string | boolean | var | random => exact Nat.zero_le _
  | @paren t t' e w ht _ _ ih =>
    rw [fitted_logic] at ih
    have hle := parentheses_fitted_le_succ .atom e.layer e.print
    simp only [List.cons_append, parentheses_cons, parentheses_append, ht, if_true]
    omega
  | sign ht _ _ ih | not ht _ ih =>
    rw [Term.layer, parentheses_fitted_self, Term.print]
    simpa [ht] using ih
  | @binary t op l r u v ht _ _ _ ihl ihr =>
    rw [Term.layer, parentheses_fitted_self, Term.print]
    have hop := lexeme_ne_of_none (l := .openParen) rfl op
    simp only [parentheses_append, parentheses_cons, ht, if_neg hop.symm]
    omega

/-! ### Layers and binding powers -/

section Powers

variable {op op' : Lexeme} {left right left' right' power : Nat}

theorem le_left_of_rank (hop : Source.bindingPower op = some (left, right))
    (h : (Layer.above power).rank ≤ (Layer.ofOperator op).rank) : power ≤ left := by
  revert h
  unfold Layer.above
  cases op <;> cases hop <;> repeat' split
  all_goals simp only [Layer.rank, Layer.ofOperator]; omega

theorem rank_ofOperator_le_ofLeft (op : Lexeme) :
    (Layer.ofOperator op).rank ≤ (Layer.ofLeft op).rank := by
  cases op <;> decide

theorem rank_ofOperator_le_ofRight (op : Lexeme) :
    (Layer.ofOperator op).rank ≤ (Layer.ofRight op).rank := by
  cases op <;> decide

section

variable (hop : Source.bindingPower op = some (left, right))

include hop

theorem above_right : Layer.above right = .ofRight op := by
  cases op <;> cases hop <;> rfl

theorem left_lt_right (hop' : Source.bindingPower op' = some (left', right'))
    (h : (Layer.ofLeft op').rank ≤ (Layer.ofOperator op).rank) : left' < right := by
  revert h
  cases op <;> cases hop <;> cases op' <;> cases hop' <;> decide

theorem left_lt_notPower (h : (Layer.ofLeft op).rank ≤ Layer.negation.rank) :
    left < Source.notPower := by
  revert h
  cases op <;> cases hop <;> decide

theorem left_lt_signPower : left < Source.signPower := by
  cases op <;> cases hop <;> decide

end

theorem bindingPower_eq_none (h : ∀ op' : BinaryOp, op ≠ op'.lexeme) :
    Source.bindingPower op = none := by
  cases op with
  | relOp => exact absurd rfl (h (.compare .less))
  | logicOp => exact absurd rfl (h (.logic .and))
  | addOp => exact absurd rfl (h (.arith .add))
  | mulOp => exact absurd rfl (h (.arith .mul))
  | powOp => exact absurd rfl (h (.arith .pow))
  | _ => rfl

end Powers

end Grammar

/-! ### What is lowered, but for the log -/

def Lowering.unlogged (s : Lowering) : Lowering := { s with log := #[] }

def unloggedEnd : EStateM.Result Error Lowering α → EStateM.Result Error Lowering α
  | .ok a s => .ok a s.unlogged
  | .error e s => .error e s.unlogged

structure SameButLog (x y : LowerM α) : Prop where
  run : ∀ {s s' : Lowering}, s.unlogged = s'.unlogged → unloggedEnd (x s) = unloggedEnd (y s')

namespace SameButLog

variable {α β : Type} {x y : LowerM α}

theorem ends {r r' : EStateM.Result Error Lowering α} (h : unloggedEnd r = unloggedEnd r') :
    (∃ a s s', r = .ok a s ∧ r' = .ok a s' ∧ s.unlogged = s'.unlogged) ∨
      ∃ e s s', r = .error e s ∧ r' = .error e s' ∧ s.unlogged = s'.unlogged := by
  cases r with
  | ok a s =>
    cases r' with
    | ok a' s' =>
      obtain ⟨rfl, hsame⟩ := EStateM.Result.ok.inj h
      exact .inl ⟨a, s, s', rfl, rfl, hsame⟩
    | error => nomatch h
  | error e s =>
    cases r' with
    | ok => nomatch h
    | error e' s' =>
      obtain ⟨rfl, hsame⟩ := EStateM.Result.error.inj h
      exact .inr ⟨e, s, s', rfl, rfl, hsame⟩

theorem of_pure (a : α) : SameButLog (pure a) (pure a) :=
  ⟨fun h => congrArg (EStateM.Result.ok a) h⟩

theorem of_throw (e : Error) : SameButLog (throw e : LowerM α) (throw e) :=
  ⟨fun h => congrArg (EStateM.Result.error e) h⟩

theorem bind {k k' : α → LowerM β} (hx : SameButLog x y) (hk : ∀ a, SameButLog (k a) (k' a)) :
    SameButLog (x >>= k) (y >>= k') := by
  refine ⟨fun {s s'} h => ?_⟩
  simp only [Bind.bind, EStateM.bind]
  obtain ⟨a, t, t', ht, ht', hsame⟩ | ⟨e, t, t', ht, ht', hsame⟩ := ends (hx.run h)
  · rw [ht, ht']
    exact (hk a).run hsame
  · rw [ht, ht']
    exact congrArg (EStateM.Result.error e) hsame

theorem map (hx : SameButLog x y) (f : α → β) : SameButLog (f <$> x) (f <$> y) := by
  rw [← bind_pure_comp, ← bind_pure_comp]
  exact hx.bind fun a => of_pure (f a)

theorem adaptExcept (hx : SameButLog x y) (f : Error → Error) :
    SameButLog (EStateM.adaptExcept f x) (EStateM.adaptExcept f y) := by
  refine ⟨fun {s s'} h => ?_⟩
  unfold EStateM.adaptExcept
  obtain ⟨a, t, t', ht, ht', hsame⟩ | ⟨e, t, t', ht, ht', hsame⟩ := ends (hx.run h)
  · rw [ht, ht']
    exact congrArg (EStateM.Result.ok a) hsame
  · rw [ht, ht']
    exact congrArg (EStateM.Result.error (f e)) hsame

theorem enter (hx : SameButLog x y) (notes : List Event) :
    SameButLog (do Lowering.enter notes; x) y :=
  ⟨fun h => hx.run h⟩

theorem table_eq {s s' : Lowering} (h : s.unlogged = s'.unlogged) :
    s.table = s'.table := congrArg (·.table) h

theorem withTable {f : Table → LowerM α} (hf : ∀ t, SameButLog (f t) (f t)) :
    SameButLog (do f (← get).table) (do f (← get).table) := by
  refine ⟨fun {s s'} h => ?_⟩
  change unloggedEnd (f s.table s) = unloggedEnd (f s'.table s')
  rw [table_eq h]
  exact (hf _).run h

theorem ofTable (x : TableM α) : SameButLog (liftM x : LowerM α) (liftM x) := by
  refine ⟨fun {s s'} h => ?_⟩
  change unloggedEnd (LowerM.ofWork (Work.ofTable x) s) =
    unloggedEnd (LowerM.ofWork (Work.ofTable x) s')
  unfold LowerM.ofWork Work.ofTable
  rw [table_eq h]
  cases x s'.table with
  | ok a t => exact congrArg (fun u : Lowering => EStateM.Result.ok a { u with table := t }) h
  | error e t => exact congrArg (fun u : Lowering => EStateM.Result.error e { u with table := t }) h

theorem ofExcept (x : Except Error α) : SameButLog (LowerM.ofExcept x) (LowerM.ofExcept x) := by
  cases x with
  | ok a => exact of_pure a
  | error e => exact of_throw e

end SameButLog

/-! No action looks at the log. -/

namespace Lowering

theorem sameButLog_newLabel : SameButLog newLabel newLabel := by
  refine ⟨fun {s s'} h => ?_⟩
  have hlabels : s.labels = s'.labels := congrArg (·.labels) h
  change EStateM.Result.ok (Label.mk ("_@trgt_" ++ (s.labels + 1).repr))
    { s.unlogged with labels := s.labels + 1 } =
    .ok (Label.mk ("_@trgt_" ++ (s'.labels + 1).repr)) { s'.unlogged with labels := s'.labels + 1 }
  rw [hlabels, h]

theorem sameButLog_number (text : String) (line : Nat) :
    SameButLog (number text line) (number text line) := by
  unfold number
  dsimp only
  split
  · exact .of_pure _
  · exact .of_throw _

theorem sameButLog_reference (name : String) (line : Nat) :
    SameButLog (reference name line) (reference name line) := by
  refine ((SameButLog.ofTable _).adaptExcept _).bind fun id =>
    (SameButLog.ofTable _).bind fun _ => ?_
  exact .withTable (f := fun t => pure (Expr.ofVariable t id)) fun t => .of_pure _

theorem sameButLog_callTo (name : String) (args : List Arg) :
    SameButLog (callTo name args) (callTo name args) :=
  .withTable (f := fun t => LowerM.ofExcept (Expr.callTo t name args)) fun _ => .ofExcept _

theorem sameButLog_random : SameButLog random random :=
  (SameButLog.ofTable _).bind fun _ => sameButLog_callTo "RANDOM" []

theorem sameButLog_positive (e : Expr) (line : Nat) :
    SameButLog (positive e line) (positive e line) :=
  (SameButLog.ofExcept _).bind fun _ => .of_pure _

end Lowering

theorem Sign.sameButLog_act (op : Sign) (e : Expr) (line : Nat) :
    SameButLog (op.act e line) (op.act e line) := by
  cases op with
  | plus => exact Lowering.sameButLog_positive e line
  | minus => exact .ofExcept _

namespace BinaryOp

variable {text : String} (l r : Expr) (line : Nat)

theorem sameButLog_arithmetic {op : ArithOp} (h : ArithOp.ofText? text = some op) :
    SameButLog (Lowering.arithmetic text l r line) ((arith op).act l r line) := by
  simp only [act, Lowering.arithmetic, h, op.ofText?_text]
  exact .ofExcept _

theorem sameButLog_comparison {op : RelOp} (h : RelOp.ofText? text = some op) :
    SameButLog (Lowering.comparison text l r line) ((compare op).act l r line) := by
  simp only [act, Lowering.comparison, h, op.ofText?_text]
  exact (SameButLog.ofExcept _).map _

theorem sameButLog_combination {op : LogicOp} (h : LogicOp.ofText? text = some op) :
    SameButLog (Lowering.combination text l r line) ((logic op).act l r line) := by
  simp only [act, Lowering.combination, h, op.ofText?_text]
  exact Lowering.sameButLog_newLabel.bind fun _ => (SameButLog.ofExcept _).map _

end BinaryOp

/-! ### Reading a writing -/

namespace Source

inductive Reads : Expr → Term → Prop
  | number (text : String) (site : Site) : Reads (.number text site) (.number text site.line)
  | string (text : String) : Reads (.string text) (.string text)
  | boolean (text : String) : Reads (.boolean text) (.boolean text)
  | var (name : String) (site : Site) : Reads (.var name site) (.var name site.line)
  | random : Reads .random .random
  | plus {e : Expr} {e' : Term} (site : Site) : Reads e e' →
      Reads (.plus e site) (.sign .plus e' site.line)
  | minus {e : Expr} {e' : Term} (site : Site) : Reads e e' →
      Reads (.minus e site) (.sign .minus e' site.line)
  | not {e : Expr} {e' : Term} (site : Site) : Reads e e' →
      Reads (.not e site) (.not e' site.line)
  | arith {text : String} {op : ArithOp} {l r : Expr} {l' r' : Term} (site : Site) :
      ArithOp.ofText? text = some op → Reads l l' → Reads r r' →
      Reads (.arith text l r site) (.binary (.arith op) l' r' site.line)
  | compare {text : String} {op : RelOp} {l r : Expr} {l' r' : Term} (site : Site) :
      RelOp.ofText? text = some op → Reads l l' → Reads r r' →
      Reads (.compare text l r site) (.binary (.compare op) l' r' site.line)
  | logic {text : String} {op : LogicOp} {l r : Expr} {l' r' : Term} (site : Site) :
      LogicOp.ofText? text = some op → Reads l l' → Reads r r' →
      Reads (.logic text l r site) (.binary (.logic op) l' r' site.line)

namespace Reads

variable {e l r : Expr} {e' l' r' : Term} {t : Token}

theorem lower (h : Reads e e') : SameButLog e.lower e'.act := by
  induction h with
  | number text site => exact (Lowering.sameButLog_number text site.line).enter _
  | string | boolean => exact .of_pure _
  | var name site => exact (Lowering.sameButLog_reference name site.line).enter _
  | random => exact Lowering.sameButLog_random
  | plus site _ ih => exact ih.bind fun e => (Sign.sameButLog_act .plus e site.line).enter _
  | minus site _ ih => exact ih.bind fun e => (Sign.sameButLog_act .minus e site.line).enter _
  | not site _ ih => exact ih.bind fun e => ((SameButLog.ofExcept _).map _).enter _
  | arith site hop _ _ ihl ihr =>
    exact ihl.bind fun l => ihr.bind fun r =>
      (BinaryOp.sameButLog_arithmetic l r site.line hop).enter _
  | compare site hop _ _ ihl ihr =>
    exact ihl.bind fun l => ihr.bind fun r =>
      (BinaryOp.sameButLog_comparison l r site.line hop).enter _
  | logic site hop _ _ ihl ihr =>
    exact ihl.bind fun l => ihr.bind fun r =>
      (BinaryOp.sameButLog_combination l r site.line hop).enter _

theorem ofSign {op : Sign} (h : Reads e e') (ht : t.text = op.text) (site : Site) :
    Reads (.ofSign t e site) (.sign op e' site.line) := by
  rw [Expr.ofSign, ht]
  cases op with
  | plus => exact .plus site h
  | minus => exact .minus site h

theorem ofOperator {op : BinaryOp} (hl : Reads l l') (hr : Reads r r')
    (hlexeme : t.lexeme = op.lexeme) (ht : op.IsSpelled t.text) (site : Site) :
    Reads (.ofOperator t l r site) (.binary op l' r' site.line) := by
  rw [Expr.ofOperator, hlexeme]
  cases op with
  | arith op => cases op <;> exact .arith site ht hl hr
  | compare op => exact .compare site ht hl hr
  | logic op => exact .logic site ht hl hr

end Reads

end Source

structure Feed.Carries (feed : Feed) (ending : Except Error Nat) (w : List Token) : Prop where
  tokens : feed.tokens.map (·.1) = w
  ending : feed.ending = ending

namespace Feed.Carries

variable {feed : Feed} {ending : Except Error Nat} {t : Token} {w : List Token}

theorem settled (h : feed.Carries ending w) :
    (Source.settled feed).Carries ending w := ⟨h.tokens, h.ending⟩

theorem tokens_nil (h : feed.Carries ending []) : feed.tokens = [] := List.map_eq_nil_iff.1 h.tokens

theorem next (h : feed.Carries ending (t :: w)) :
    ∃ notes tokens, feed.tokens = (t, notes) :: tokens ∧
    feed.advance.Carries ending w ∧ (Source.settled feed).advance.Carries ending w := by
  obtain ⟨⟨t', notes⟩, tokens, htokens, rfl, hw⟩ := List.map_eq_cons_iff.1 h.tokens
  refine ⟨notes, tokens, htokens, ⟨?_, ?_⟩, ⟨?_, ?_⟩⟩
  · simpa [advance, htokens] using hw
  · simpa [advance, htokens] using h.ending
  · simpa [advance, Source.settled, htokens] using hw
  · simpa [advance, Source.settled, htokens] using h.ending

end Feed.Carries

namespace Source

variable {power : Nat} {feed : Feed} {ending : Except Error Nat} {layer : Layer} {e : Term}
  {w rest : List Token}

def Precedes (layer : Layer) (rest : List Token) : Prop :=
  ∀ t ∈ rest.head?, (bindingPower t.lexeme).isSome →
  (Layer.ofLeft t.lexeme).rank ≤ layer.rank

def Weakens (power : Nat) (rest : List Token) : Prop :=
  ∀ t ∈ rest.head?, ∀ {left right}, bindingPower t.lexeme =
  some (left, right) → left < power

def Ended (ending : Except Error Nat) (rest : List Token) : Prop :=
  rest = [] → ∃ line, ending = .ok line

theorem Precedes.mono {layer' : Layer} (h : Precedes layer rest)
    (hle : layer.rank ≤ layer'.rank) : Precedes layer' rest :=
  fun t ht hsome => Nat.le_trans (h t ht hsome) hle

theorem Precedes.weakens {op : Lexeme} {left right : Nat} (h : Precedes (.ofOperator op) rest)
    (hop : bindingPower op = some (left, right)) : Weakens right rest :=
  fun t ht _ _ hpower => Grammar.left_lt_right hop hpower (h t ht (by simp [hpower]))

theorem Precedes.weakens_not (h : Precedes .negation rest) : Weakens notPower rest :=
  fun t ht _ _ hpower => Grammar.left_lt_notPower hpower (h t ht (by simp [hpower]))

theorem weakens_sign (rest : List Token) : Weakens signPower rest :=
  fun _ _ _ _ hpower => Grammar.left_lt_signPower hpower

theorem precedes_sign (rest : List Token) : Precedes .sign rest :=
  fun t _ _ => Grammar.rank_ofLeft_le_sign t.lexeme

theorem precedes_of_none {t : Token} (h : bindingPower t.lexeme = none) (layer : Layer)
    (rest : List Token) : Precedes layer (t :: rest) := by
  intro t' ht' hsome
  obtain rfl : t = t' := by simpa using ht'
  simp [h] at hsome

theorem weakens_of_none {t : Token} (h : bindingPower t.lexeme = none) (power : Nat)
    (rest : List Token) : Weakens power (t :: rest) := by
  intro t' ht' _ _ hpower
  obtain rfl : t = t' := by simpa using ht'
  simp [h] at hpower

theorem ended_cons (ending : Except Error Nat) (t : Token) (rest : List Token) :
    Ended ending (t :: rest) := nofun

theorem climbs_ok (tree : Expr) (hfeed : feed.Carries ending rest) (hweak : Weakens power rest)
    (hended : Ended ending rest) : Climbs (.operators power tree feed) (.ok (tree, feed)) := by
  cases rest with
  | nil =>
    obtain ⟨line, rfl⟩ := hended rfl
    have hfinish : Climbs (.operators power tree feed) _ := .finish hfeed.tokens_nil
    rwa [atEnd, hfeed.ending] at hfinish
  | cons t rest =>
    obtain ⟨notes, tokens, htokens, -, -⟩ := hfeed.next
    exact .stop htokens fun powers hpowers => hweak t (by simp) hpowers

def ReadsUpTo (power : Nat) (feed : Feed) (ending : Except Error Nat) (e : Term)
    (rest : List Token) : Prop :=
  ∃ tree feed',
    (∀ {r}, Climbs (.operators power tree feed') r → Climbs (.operand power feed) r) ∧
    Reads tree e ∧ feed'.Carries ending rest

theorem ReadsUpTo.ends (h : ReadsUpTo power feed ending e rest) (hweak : Weakens power rest)
    (hended : Ended ending rest) :
    ∃ tree feed', Climbs (.operand power feed) (.ok (tree, feed')) ∧ Reads tree e ∧
    feed'.Carries ending rest := by
  obtain ⟨tree, feed', hparse, hreads, hfeed'⟩ := h
  exact ⟨tree, feed', hparse (climbs_ok tree hfeed' hweak hended), hreads, hfeed'⟩

theorem readsUpTo (h : Writes layer e w) (hlayer : (Layer.above power).rank ≤ layer.rank)
    (hrest : Precedes layer rest) (hended : Ended ending rest)
    (hfeed : feed.Carries ending (w ++ rest)) : ReadsUpTo power feed ending e rest := by
  induction h generalizing power feed rest with
  | tighter hle _ ih => exact ih (Nat.le_trans hlayer hle) (hrest.mono hle) hended hfeed
  | @number t ht =>
    obtain ⟨notes, tokens, htokens, -, hadvance⟩ := hfeed.next
    exact ⟨_, _, .leaf htokens (by rw [leaf?, ht]), .number _ _, hadvance⟩
  | @string t ht =>
    obtain ⟨notes, tokens, htokens, hadvance, -⟩ := hfeed.next
    exact ⟨_, _, .leaf htokens (by rw [leaf?, ht]), .string _, hadvance⟩
  | @boolean t ht =>
    obtain ⟨notes, tokens, htokens, hadvance, -⟩ := hfeed.next
    exact ⟨_, _, .leaf htokens (by rw [leaf?, ht]), .boolean _, hadvance⟩
  | @var t name ht htext =>
    obtain ⟨notes, tokens, htokens, -, hadvance⟩ := hfeed.next
    have hname : variableName t = name := by simp [variableName, htext]
    exact ⟨.var name (site feed t.line), _, .leaf htokens (by rw [leaf?, ht, hname]),
      .var _ _, hadvance⟩
  | @random t ht =>
    obtain ⟨notes, tokens, htokens, hadvance, -⟩ := hfeed.next
    exact ⟨_, _, .leaf htokens (by rw [leaf?, ht]), .random, hadvance⟩
  | @paren t t' e w ht ht' _ ih =>
    rw [List.append_assoc, List.singleton_append, List.cons_append] at hfeed
    obtain ⟨notes, tokens, htokens, hadvance, -⟩ := hfeed.next
    have hclose : bindingPower t'.lexeme = none := by rw [ht']; rfl
    have hlogic : (Layer.above 0).rank ≤ Layer.logic.rank := Nat.le_refl _
    obtain ⟨tree, feed', hparse, htree, hfeed'⟩ :=
      (ih hlogic (precedes_of_none hclose _ rest) (ended_cons ending t' rest) hadvance).ends
        (weakens_of_none hclose 0 rest) (ended_cons ending t' rest)
    obtain ⟨notes', tokens', htokens', hadvance', -⟩ := hfeed'.next
    have htake : take .closeParen feed' =
      .ok (t', feed'.advance) := by rw [take, htokens']; exact if_pos ht'
    exact ⟨tree, feed'.advance, .paren htokens ht hparse htake, htree, hadvance'⟩
  | @sign t op e w ht htext _ ih =>
    obtain ⟨notes, tokens, htokens, hadvance, -⟩ := hfeed.next
    have hsign : (Layer.above signPower).rank ≤ Layer.sign.rank := Nat.le_refl _
    obtain ⟨tree, feed', hparse, htree, hfeed'⟩ :=
      (ih hsign (precedes_sign rest) hended hadvance).ends (weakens_sign rest) hended
    exact ⟨_, _, .sign htokens ht hparse, htree.ofSign htext _, hfeed'.settled⟩
  | @not t e w ht _ ih =>
    obtain ⟨notes, tokens, htokens, hadvance, -⟩ := hfeed.next
    have hnot : (Layer.above notPower).rank ≤ Layer.negation.rank := Nat.le_refl _
    obtain ⟨tree, feed', hparse, htree, hfeed'⟩ :=
      (ih hnot hrest hended hadvance).ends hrest.weakens_not hended
    exact ⟨_, _, .negation htokens ht hparse, .not _ htree, hfeed'.settled⟩
  | @binary t op l r u v ht hspelled _ _ ihl ihr =>
    rw [List.append_assoc, List.cons_append] at hfeed
    obtain ⟨left, right, hop⟩ := exists_bindingPower op
    have hleft : Precedes (.ofLeft op.lexeme) (t :: (v ++ rest)) := by
      intro t' ht' _
      obtain rfl : t = t' := by simpa using ht'
      exact Nat.le_of_eq (by rw [ht])
    -- the left operand is read first, and leaves its operator to the loop
    obtain ⟨tree, feed', hparse, htree, hfeed'⟩ :=
      ihl (Nat.le_trans hlayer (rank_ofOperator_le_ofLeft _)) hleft (ended_cons ending t _) hfeed
    obtain ⟨notes, tokens, htokens, hadvance, -⟩ := hfeed'.next
    obtain ⟨tree', feed'', hparse', htree', hfeed''⟩ :=
      (ihr (Nat.le_of_eq (by rw [above_right hop])) (hrest.mono (rank_ofOperator_le_ofRight _))
        hended hadvance).ends (hrest.weakens hop) hended
    refine ⟨.ofOperator t tree tree' (site feed'' t.line), _, fun h => hparse ?_,
      htree.ofOperator htree' ht hspelled _, hfeed''.settled⟩
    exact .step htokens (ht ▸ hop) (le_left_of_rank hop hlayer) hparse' h

end Source

/-- The printed tokens of an expression are a writing of it that has as few parentheses as any. A
feed that starts with a writing, and then ends or goes on with a token that is no operator, is
parsed as an expression up to the end of the writing. Lowering it does what lowering the expression
itself does. -/
theorem expr_inverts_print (e : Term) :
    Writes .logic e e.print ∧
    (∀ w, Writes .logic e w → parentheses e.print ≤ parentheses w) ∧
    ∀ (feed : Feed) (w rest : List Token), Writes .logic e w →
      feed.tokens.map (·.1) = w ++ rest → (match rest with
        | [] => ∃ line, feed.ending = .ok line
        | t :: _ => ∀ op : BinaryOp, t.lexeme ≠ op.lexeme) →
      ∃ tree feed', Source.expr feed = .ok (tree, feed') ∧ feed'.tokens.map (·.1) = rest ∧
        feed'.ending = feed.ending ∧
        ∀ s, unloggedEnd (tree.lower s) = unloggedEnd (e.act s) := by
  refine ⟨writes_logic_print e, fun w hw => ?_, fun feed w rest hw htokens hrest => ?_⟩
  · have hle := parentheses_print_le hw
    rwa [fitted_logic] at hle
  · have hfeed : feed.Carries feed.ending (w ++ rest) := ⟨htokens, rfl⟩
    obtain ⟨hprecedes, hweak, hended⟩ :
        Source.Precedes .logic rest ∧ Source.Weakens 0 rest ∧
        Source.Ended feed.ending rest := by
      cases rest with
      | nil => exact ⟨nofun, nofun, fun _ => hrest⟩
      | cons t rest =>
        have hnone := bindingPower_eq_none hrest
        exact ⟨Source.precedes_of_none hnone _ rest, Source.weakens_of_none hnone 0 rest,
          Source.ended_cons _ t rest⟩
    obtain ⟨tree, feed', hparse, htree, hfeed'⟩ :=
      (Source.readsUpTo hw (Nat.le_refl _) hprecedes hended hfeed).ends hweak hended
    exact ⟨tree, feed', hparse.run_eq (Nat.lt_succ_self _), hfeed'.tokens, hfeed'.ending,
      fun s => htree.lower.run rfl⟩

def mixedTerm : Term :=
  let sum := .binary (.arith .add) (.var "X" 1) (.number "1" 1) 1
  let exponent := .binary (.arith .pow) (.sign .minus (.number "3" 1) 1) (.number "2" 1) 1
  let power := .binary (.arith .pow) (.number "2" 1) exponent 1
  let comparison := .binary (.compare .equal) (.binary (.arith .mul) sum power 1) (.number "4" 1) 1
  .binary (.logic .and) (.not comparison 1) (.boolean "TRUE") 1

theorem expr_inverts_print_mixedTerm :
    mixedTerm.print.map (·.text) =
      ["NOT", "(", ":X", "+", "1", ")", "*", "2", "^", "-", "3", "^", "2", "==", "4",
        "AND", "TRUE"] ∧
    ∃ tree feed', Source.expr (.ofTokens (mixedTerm.print ++ [⟨.printKey, "PRINT", 2⟩]) 2) =
      .ok (tree, feed') ∧ feed'.tokens.map (·.1) = [⟨.printKey, "PRINT", 2⟩] ∧
      ∀ s, unloggedEnd (tree.lower s) = unloggedEnd (mixedTerm.act s) := by
  refine ⟨rfl, ?_⟩
  obtain ⟨hwrites, -, hparse⟩ := expr_inverts_print mixedTerm
  obtain ⟨tree, feed', htree, htokens, -, hlower⟩ :=
    hparse (.ofTokens (mixedTerm.print ++ [⟨.printKey, "PRINT", 2⟩]) 2) _
      [⟨.printKey, "PRINT", 2⟩] hwrites rfl (lexeme_ne_of_none rfl)
  exact ⟨tree, feed', htree, htokens, hlower⟩

end TurtleCompiler
