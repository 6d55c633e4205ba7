import TurtleCompiler.Proofs.Grammar
import TurtleCompiler.Proofs.Naming

/-!
What the parser takes can be derived, but for a negation as an operand of an operator that binds
tighter.
-/

namespace TurtleCompiler

namespace Grammar

def Layer.above (power : Nat) : Layer :=
  if power ≤ 1 then .logic
  else if power ≤ 3 then .negation
  else if power ≤ 5 then .relation
  else if power ≤ 7 then .sum
  else if power ≤ 9 then .product
  else if power ≤ 12 then .power
  else .sign

def Layer.ofOperator : Lexeme → Layer
  | .logicOp => .logic
  | .relOp => .relation
  | .addOp => .sum
  | .mulOp => .product
  | _ => .power

def Layer.ofLeft : Lexeme → Layer
  | .powOp => .sign
  | op => ofOperator op

section Operators

variable {op op' : Lexeme} {left right left' right' power : Nat} {u v : List Lexeme}

section

variable (hop : Source.bindingPower op = some (left, right))

include hop

theorem Expression.binary (hu : Expression (.ofLeft op) u) (hv : Expression (.above right) v) :
    Expression (.ofOperator op) (u ++ op :: v) := by
  cases op <;> cases hop
  · exact .relation hu hv
  · exact .logic hu hv
  · exact .sum hu hv
  · exact .product hu hv
  · exact .power hu hv

theorem rank_above_le (h : power ≤ left) :
    (Layer.above power).rank ≤ (Layer.ofOperator op).rank := by
  cases op <;> cases hop <;> unfold Layer.above <;> repeat' split
  all_goals simp [Layer.rank, Layer.ofOperator]

theorem rank_ofLeft_le (hop' : Source.bindingPower op' = some (left', right')) (h : left' < right) :
    (Layer.ofLeft op').rank ≤ (Layer.ofOperator op).rank := by
  cases op <;> cases hop <;> cases op' <;> cases hop' <;>
    simp [Layer.rank, Layer.ofLeft, Layer.ofOperator] at h ⊢

end

theorem rank_above_le_sign (power : Nat) : (Layer.above power).rank ≤ Layer.sign.rank := by
  unfold Layer.above
  repeat' split
  all_goals simp [Layer.rank]

theorem rank_ofLeft_le_sign (op : Lexeme) : (Layer.ofLeft op).rank ≤ Layer.sign.rank := by
  cases op <;> simp [Layer.rank, Layer.ofLeft, Layer.ofOperator]

end Operators

theorem Many.single {p : List Lexeme → Prop} {w : List Lexeme} (h : p w) : Many p w := by
  simpa using Many.cons h .nil

end Grammar

namespace Source

open Grammar (Layer Expression Many)

def Expr.isNegation : Expr → Bool
  | .not .. => true
  | _ => false

def Expr.IsLayered : Expr → Prop
  | .number .. | .string _ | .boolean _ | .var .. | .random => True
  | .plus e _ | .minus e _ => ¬e.isNegation ∧ e.IsLayered
  | .not e _ => e.IsLayered
  | .arith _ l r _ | .compare _ l r _ => ¬r.isNegation ∧ l.IsLayered ∧ r.IsLayered
  | .logic _ l r _ => l.IsLayered ∧ r.IsLayered

variable {op t : Token} {e l r : Expr} {site : Site} {feed rest feed₁ feed₂ : Feed}
  {notes : List Event} {power left right fuel : Nat} {layer : Layer} {lexeme : Lexeme}
  {w u : List Lexeme}

theorem Expr.isLayered_ofSign (h : (Expr.ofSign op e site).IsLayered) :
    ¬e.isNegation ∧ e.IsLayered := by
  unfold Expr.ofSign at h
  split at h <;> exact h

theorem Expr.isLayered_ofOperator (h : (Expr.ofOperator op l r site).IsLayered) :
    (op.lexeme ≠ .logicOp → ¬r.isNegation) ∧ l.IsLayered ∧ r.IsLayered := by
  unfold Expr.ofOperator at h
  split at h
  · exact ⟨fun hop => absurd ‹_› hop, h⟩
  · exact ⟨fun _ => h.1, h.2⟩
  · exact ⟨fun _ => h.1, h.2⟩

@[simp] theorem following_eq_ok {done : List Phrase} {r : Except Failure α} {a : α} :
    following done r = .ok a ↔ r = .ok a := by
  cases r <;> simp [following]

@[simp] theorem lexemes_settled (feed : Feed) : (settled feed).lexemes = feed.lexemes := rfl

@[simp] theorem lexemes_settled_advance (feed : Feed) :
    (settled feed).advance.lexemes = feed.advance.lexemes := by
  cases h : feed.tokens <;> simp [Feed.advance, settled, Feed.lexemes, h]

theorem lexemes_advance {tokens : List (Token × List Event)}
    (h : feed.tokens = (t, notes) :: tokens) : feed.lexemes = t.lexeme :: feed.advance.lexemes := by
  simp [Feed.lexemes, Feed.advance, h]

def Stops (power : Nat) (feed : Feed) : Prop :=
  ∀ op ∈ feed.lexemes.head?, ∀ {left right}, bindingPower op =
  some (left, right) → left < power

def Continues (layer : Layer) (feed : Feed) : Prop :=
  ∀ op ∈ feed.lexemes.head?, (bindingPower op).isSome → (Layer.ofLeft op).rank ≤ layer.rank

theorem Stops.mono {power' : Nat} (h : Stops power feed) (hle : power ≤ power') :
    Stops power' feed :=
  fun op hop _ _ hpower => Nat.lt_of_lt_of_le (h op hop hpower) hle

theorem Stops.continues {op : Lexeme} (h : Stops right feed)
    (hop : bindingPower op = some (left, right)) : Continues (.ofOperator op) feed := by
  intro op' hop' hsome
  obtain ⟨⟨left', right'⟩, hpower⟩ := Option.isSome_iff_exists.1 hsome
  exact Grammar.rank_ofLeft_le hop hpower (h op' hop' hpower)

theorem continues_sign (h : Layer.sign.rank ≤ layer.rank) (feed : Feed) : Continues layer feed :=
  fun op _ _ => Nat.le_trans (Grammar.rank_ofLeft_le_sign op) h

theorem Stops.continues_negation (h : Stops notPower feed) : Continues .negation feed := by
  intro op hop hsome
  obtain ⟨⟨left, right⟩, hpower⟩ := Option.isSome_iff_exists.1 hsome
  have hlt := h op hop hpower
  revert hlt
  cases op <;> cases hpower <;> simp [notPower, Layer.rank, Layer.ofLeft, Layer.ofOperator]

theorem eq_of_atEnd {a b : α} (h : atEnd feed a = .ok (b, rest)) : b = a ∧ rest = feed := by
  unfold atEnd at h
  split at h
  · cases h
    exact ⟨rfl, rfl⟩
  · contradiction

theorem lexemes_take (h : take lexeme feed = .ok (t, rest)) :
    feed.lexemes = lexeme :: rest.lexemes := by
  unfold take at h
  split at h
  · rename_i heq
    split at h
    · rename_i hlexeme
      cases h
      rw [lexemes_advance heq, hlexeme]
    · contradiction
  · contradiction

theorem lexemes_close (h : close lexeme feed = .ok (t, notes, rest)) :
    feed.lexemes = lexeme :: rest.lexemes := by
  unfold close at h
  split at h
  · rename_i heq
    split at h
    · rename_i hlexeme
      cases h
      rw [lexemes_advance heq, lexemes_settled_advance, hlexeme]
    · contradiction
  · contradiction

structure Climbed (power : Nat) (feed : Feed) (e : Expr) (rest : Feed)
    (w : List Lexeme) : Prop where
  lexemes : feed.lexemes = w ++ rest.lexemes
  nonempty : w ≠ []
  stops : Stops power rest
  derives : e.IsLayered → (notPower < power → ¬e.isNegation) → Expression (.above power) w

structure Extended (power : Nat) (l : Expr) (feed : Feed) (e : Expr) (rest : Feed)
    (w : List Lexeme) : Prop where
  lexemes : feed.lexemes = w ++ rest.lexemes
  stops : Stops power rest
  same : Stops power feed → e = l
  layered : e.IsLayered → l.IsLayered
  derives : e.IsLayered → ∀ {layer u}, Expression layer u →
    (Layer.above power).rank ≤ layer.rank → Continues layer feed →
    Expression (.above power) (u ++ w)

theorem Extended.refl (l : Expr) (h : Stops power feed) : Extended power l feed l feed [] where
  lexemes := rfl
  stops := h
  same _ := rfl
  layered := id
  derives _ _ _ hu hrank _ := by simpa using Expression.tighter hrank hu

theorem Extended.step {v : List Lexeme} (hop : bindingPower op.lexeme = some (left, right))
    (hleft : power ≤ left) (hfeed : feed.lexemes = op.lexeme :: feed₁.lexemes)
    (hr : Climbed right feed₁ r feed₂ v)
    (h : Extended power (.ofOperator op l r site) (settled feed₂) e rest w) :
    Extended power l feed e rest (op.lexeme :: v ++ w) where
  lexemes := by
    have hfeed₂ : feed₂.lexemes = w ++ rest.lexemes := h.lexemes
    simp [hfeed, hr.lexemes, hfeed₂]
  stops := h.stops
  same hstops := by
    have hlt := hstops op.lexeme (by simp [hfeed]) hop
    omega
  layered he := (Expr.isLayered_ofOperator (h.layered he)).2.1
  derives he layer u hu _ hcontinues := by
    obtain ⟨hneg, -, hrl⟩ := Expr.isLayered_ofOperator (h.layered he)
    have hv : Expression (.above right) v := by
      refine hr.derives hrl fun hlt => hneg fun hlogic => ?_
      rw [hlogic] at hop
      cases hop
      exact absurd hlt (by decide)
    have hu' : Expression (.ofLeft op.lexeme) u :=
      .tighter (hcontinues op.lexeme (by simp [hfeed]) (by simp [hop])) hu
    simpa using h.derives he (Expression.binary hop hu' hv) (Grammar.rank_above_le hop hleft)
      (show Continues _ feed₂ from hr.stops.continues hop)

theorem Extended.climbed (h : Extended power l feed₁ e rest w)
    (hfeed : feed.lexemes = u ++ feed₁.lexemes)
    (hne : u ≠ []) (hu : l.IsLayered → Expression layer u)
    (hrank : (Layer.above power).rank ≤ layer.rank)
    (hcontinues : Continues layer feed₁) : Climbed power feed e rest (u ++ w) where
  lexemes := by simp [hfeed, h.lexemes]
  nonempty := by simp [hne]
  stops := h.stops
  derives he _ := h.derives he (hu (h.layered he)) hrank hcontinues

theorem Extended.negation {e' : Expr} (h : Extended power (.not e' site) (settled feed₂) e rest w)
    (hfeed : feed.lexemes = .notKey :: feed₁.lexemes)
    (hu : Climbed notPower feed₁ e' feed₂ u) :
    Climbed power feed e rest (.notKey :: u ++ w) where
  lexemes := by
    have hfeed₂ : feed₂.lexemes = w ++ rest.lexemes := h.lexemes
    simp [hfeed, hu.lexemes, hfeed₂]
  nonempty := by simp
  stops := h.stops
  derives he hneg := by
    by_cases hpower : power ≤ notPower
    · have hnot : Expression .negation (.notKey :: u) :=
        .negation (hu.derives (h.layered he) fun hlt => absurd hlt (by decide))
      refine h.derives he hnot ?_ (show Continues _ feed₂ from hu.stops.continues_negation)
      unfold Layer.above
      split
      · decide
      · simp [show power ≤ 3 from hpower]
    · have hsame : e = .not e' site := h.same (hu.stops.mono (Nat.le_of_not_le hpower))
      exact absurd (by rw [hsame]; rfl) (hneg (Nat.lt_of_not_le hpower))

theorem literal_of_leaf (h : leaf? t feed = some (l, rest)) :
    Grammar.isLiteral t.lexeme ∧ rest.lexemes = feed.advance.lexemes := by
  unfold leaf? at h
  split at h <;> cases h <;> simp [*, Grammar.isLiteral]

def Stage.Derives (e : Expr) (rest : Feed) : Stage → Prop
  | .operand power feed => ∃ w, Climbed power feed e rest w
  | .operators power l feed => ∃ w, Extended power l feed e rest w

theorem Climbs.derives {st : Stage} {r : Except Failure (Expr × Feed)} (h : Climbs st r)
    (hr : r = .ok (e, rest)) : st.Derives e rest := by
  have hatom (power : Nat) : (Layer.above power).rank ≤ Layer.atom.rank :=
    Nat.le_trans (Grammar.rank_above_le_sign power) (by decide)
  induction h generalizing e rest with
  | unexpected | inner | unclosed | broken => cases hr
  | leaf hfeed hleaf _ ih =>
    obtain ⟨hliteral, hlexemes⟩ := literal_of_leaf hleaf
    obtain ⟨w, hw⟩ := ih hr
    refine ⟨_, hw.climbed ?_ (List.cons_ne_nil _ []) (fun _ => .literal hliteral) (hatom _)
      (continues_sign (by decide) _)⟩
    rw [lexemes_advance hfeed, hlexemes, List.singleton_append]
  | paren hfeed ht _ hclose _ ih ih' =>
    obtain ⟨u, hu⟩ := ih rfl
    obtain ⟨w, hw⟩ := ih' hr
    refine ⟨_,
      hw.climbed ?_ (List.cons_ne_nil _ _) (fun hl => .paren (hu.derives hl nofun)) (hatom _)
      (continues_sign (by decide) _)⟩
    rw [lexemes_advance hfeed, ht, hu.lexemes, lexemes_take hclose]
    simp
  | negation hfeed ht _ _ ih ih' =>
    obtain ⟨u, hu⟩ := ih rfl
    obtain ⟨w, hw⟩ := ih' hr
    exact ⟨_, hw.negation (by rw [lexemes_advance hfeed, ht]) hu⟩
  | sign hfeed ht _ _ ih ih' =>
    obtain ⟨u, hu⟩ := ih rfl
    obtain ⟨w, hw⟩ := ih' hr
    refine ⟨_, hw.climbed (u := .addOp :: u) ?_ (List.cons_ne_nil _ _) (fun hl => ?_)
      (Grammar.rank_above_le_sign _) (continues_sign (Nat.le_refl _) _)⟩
    · rw [lexemes_advance hfeed, ht, hu.lexemes]
      rfl
    · obtain ⟨hneg, hl'⟩ := Expr.isLayered_ofSign hl
      exact .sign (hu.derives hl' fun _ => hneg)
  | finish hfeed =>
    obtain ⟨rfl, rfl⟩ := eq_of_atEnd (following_eq_ok.1 hr)
    exact ⟨[], .refl _ (by simp [Stops, Feed.lexemes, hfeed])⟩
  | stop hfeed hstop =>
    cases hr
    refine ⟨[], .refl _ fun op hop left right hpower => ?_⟩
    rw [lexemes_advance hfeed] at hop
    cases hop
    exact hstop _ hpower
  | step hfeed hop hleft _ _ ih ih' =>
    obtain ⟨v, hv⟩ := ih rfl
    obtain ⟨w, hw⟩ := ih' hr
    exact ⟨_, hw.step hop hleft (lexemes_advance hfeed) hv⟩

mutual

def Stmt.IsLayered : Stmt → Prop
  | .expr e => e.IsLayered
  | .assign _ _ rhs _ => rhs.IsLayered
  | .call _ args _ => ∀ e ∈ args, e.IsLayered
  | .print first more _ => first.IsLayered ∧ ∀ e ∈ more, e.IsLayered
  | .typein .. => True
  | .ifThen cond yes _ => cond.IsLayered ∧ AllLayered yes
  | .ifElse cond yes no _ => cond.IsLayered ∧ AllLayered yes ∧ AllLayered no
  | .whileDo cond body _ => cond.IsLayered ∧ AllLayered body

def AllLayered : List Stmt → Prop
  | [] => True
  | s :: ss => s.IsLayered ∧ AllLayered ss

end

def Item.IsLayered : Item → Prop
  | .statement s => s.IsLayered
  | .definition _ body _ => AllLayered body
  | .broken .. => False

def Takes (feed : Feed) (r : Except Failure (α × Feed))
    (p : α → List Lexeme → Prop) : Prop :=
  ∀ {a rest}, r = .ok (a, rest) → ∃ w, feed.lexemes = w ++ rest.lexemes ∧ p a w

theorem Takes.length_le {r : Except Failure (α × Feed)} {p : α → List Lexeme → Prop} {a : α}
    (h : Takes feed r p) (hr : r = .ok (a, rest)) : rest.tokens.length ≤ feed.tokens.length := by
  obtain ⟨w, hw, -⟩ := h hr
  have hlength : feed.tokens.length = w.length + rest.tokens.length := by
    simpa [Feed.lexemes] using congrArg List.length hw
  omega

theorem Takes.length_lt {r : Except Failure (α × Feed)} {p : α → List Lexeme → Prop} {a : α}
    (h : Takes feed r fun a w => w ≠ [] ∧ p a w) (hr : r = .ok (a, rest)) :
    rest.tokens.length < feed.tokens.length := by
  obtain ⟨w, hw, hne, -⟩ := h hr
  have hlength : feed.tokens.length = w.length + rest.tokens.length := by
    simpa [Feed.lexemes] using congrArg List.length hw
  have hpos := List.length_pos_iff.2 hne
  omega

theorem takes_expr (feed : Feed) :
    Takes feed (expr feed) fun e w => w ≠ [] ∧ (e.IsLayered → Expression .logic w) := by
  intro e rest h
  obtain ⟨w, hw⟩ := (climbs_expr feed).derives h
  exact ⟨w, hw.lexemes, hw.nonempty, fun he => hw.derives he fun hlt => absurd hlt (by decide)⟩

theorem takes_arguments (fuel : Nat) (feed : Feed) :
    Takes feed (arguments fuel feed) fun es w => (∀ e ∈ es, e.IsLayered) →
    Many (Expression .logic) w := by
  induction fuel generalizing feed with
  | zero => simp [Takes, arguments]
  | succ fuel ih =>
    intro es rest h
    rw [arguments] at h
    split at h
    · obtain ⟨-, rfl⟩ := eq_of_atEnd h
      exact ⟨[], rfl, fun _ => .nil⟩
    · split at h
      · obtain ⟨⟨e, feed₁⟩, he, h⟩ := except_bind_eq_ok.1 h
        obtain ⟨⟨es', feed₂⟩, hes, h⟩ := except_bind_eq_ok.1 h
        cases h
        obtain ⟨u, hu, -, he⟩ := takes_expr feed he
        obtain ⟨v, hv, hes⟩ := ih feed₁ (following_eq_ok.1 hes)
        refine ⟨u ++ v, by simp [hu, hv], fun hall => ?_⟩
        rw [List.forall_mem_cons] at hall
        exact .cons (he hall.1) (hes hall.2)
      · cases h
        exact ⟨[], rfl, fun _ => .nil⟩

theorem lexemes_parameters {names : List String} (h : parameters fuel feed = .ok (names, rest)) :
    feed.lexemes = List.replicate names.length .colonIdentifier ++ rest.lexemes ∧
      rest.lexemes.head? ≠ some .colonIdentifier := by
  induction fuel generalizing feed names with
  | zero => simp [parameters] at h
  | succ fuel ih =>
    rw [parameters] at h
    split at h
    · rename_i heq
      obtain ⟨rfl, rfl⟩ := eq_of_atEnd h
      exact ⟨rfl, by simp [Feed.lexemes, heq]⟩
    · rename_i t notes tokens heq
      have hfeed := lexemes_advance heq
      split at h
      · obtain ⟨⟨names', feed₁⟩, hnames, h⟩ := except_bind_eq_ok.1 h
        cases h
        obtain ⟨hfeed₁, hhead⟩ := ih hnames
        exact ⟨by simp [List.replicate_succ, *], hhead⟩
      · cases h
        exact ⟨rfl, by simpa [hfeed] using ‹_›⟩

section Nested

variable {statement : Feed → Except Failure (Stmt × Feed)}
  (hstatement : ∀ feed, Takes feed (statement feed) fun s w => w ≠ [] ∧
    (s.IsLayered → Grammar.Statement w))

include hstatement

theorem takes_block (fuel : Nat) (feed : Feed) :
    Takes feed (block statement fuel feed) fun ss w => AllLayered ss →
    Many Grammar.Statement w := by
  induction fuel generalizing feed with
  | zero => simp [Takes, block]
  | succ fuel ih =>
    intro ss rest h
    rw [block] at h
    split at h
    · obtain ⟨-, rfl⟩ := eq_of_atEnd h
      exact ⟨[], rfl, fun _ => .nil⟩
    · split at h
      · cases h
        exact ⟨[], rfl, fun _ => .nil⟩
      · obtain ⟨⟨s, feed₁⟩, hs, h⟩ := except_bind_eq_ok.1 h
        obtain ⟨⟨ss', feed₂⟩, hss, h⟩ := except_bind_eq_ok.1 h
        cases h
        obtain ⟨u, hu, -, hs⟩ := hstatement feed hs
        obtain ⟨v, hv, hss⟩ := ih feed₁ (following_eq_ok.1 hss)
        exact ⟨u ++ v, by simp [hu, hv], fun hall => .cons (hs hall.1) (hss hall.2)⟩

theorem takes_ifStatement {t : Token} {feed : Feed}
    (hfeed : feed.lexemes = .ifKey :: feed.advance.lexemes) :
    Takes feed (ifStatement statement t feed) fun s w => w ≠ [] ∧
    (s.IsLayered → Grammar.Statement w) := by
  intro s rest h
  obtain ⟨⟨cond, feed₁⟩, hcond, h⟩ := except_bind_eq_ok.1 h
  obtain ⟨⟨_, feed₂⟩, hthen, h⟩ := except_bind_eq_ok.1 h
  obtain ⟨⟨yes, feed₃⟩, hyes, h⟩ := except_bind_eq_ok.1 h
  obtain ⟨u, hu, -, hcond⟩ := takes_expr _ hcond
  have hfeed₁ := lexemes_take (following_eq_ok.1 hthen)
  obtain ⟨v, hv, hyes⟩ := takes_block hstatement _ _ (following_eq_ok.1 hyes)
  dsimp only at h
  split at h
  · rename_i helse
    obtain ⟨⟨no, feed₄⟩, hno, h⟩ := except_bind_eq_ok.1 h
    obtain ⟨⟨_, _, feed₅⟩, hend, h⟩ := except_bind_eq_ok.1 h
    cases h
    have hfeed₃ : feed₃.lexemes = .elseKey :: feed₃.advance.lexemes := by
      cases htokens : feed₃.tokens with
      | nil => simp [htokens] at helse
      | cons t tokens =>
        rw [lexemes_advance htokens]
        simpa [htokens] using helse
    obtain ⟨w, hw, hno⟩ := takes_block hstatement _ _ (following_eq_ok.1 hno)
    have hfeed₄ := lexemes_close (following_eq_ok.1 hend)
    refine ⟨.ifKey :: u ++ .thenKey :: v ++ .elseKey :: w ++ [.endKey], ?_, by simp,
      fun hall => ?_⟩
    · simp [hfeed, hu, hfeed₁, hv, hfeed₃, hw, hfeed₄]
    · exact .ifElse (hcond hall.1) (hyes hall.2.1) (hno hall.2.2)
  · obtain ⟨⟨_, _, feed₄⟩, hend, h⟩ := except_bind_eq_ok.1 h
    cases h
    have hfeed₃ := lexemes_close (following_eq_ok.1 hend)
    refine ⟨.ifKey :: u ++ .thenKey :: v ++ [.endKey], ?_, by simp,
      fun hall => .ifThen (hcond hall.1) (hyes hall.2)⟩
    simp [hfeed, hu, hfeed₁, hv, hfeed₃]

theorem takes_whileStatement {t : Token} {feed : Feed}
    (hfeed : feed.lexemes = .whileKey :: feed.advance.lexemes) :
    Takes feed (whileStatement statement t feed) fun s w => w ≠ [] ∧
    (s.IsLayered → Grammar.Statement w) := by
  intro s rest h
  obtain ⟨⟨cond, feed₁⟩, hcond, h⟩ := except_bind_eq_ok.1 h
  obtain ⟨⟨body, feed₂⟩, hbody, h⟩ := except_bind_eq_ok.1 h
  obtain ⟨⟨_, _, feed₃⟩, hend, h⟩ := except_bind_eq_ok.1 h
  cases h
  obtain ⟨u, hu, -, hcond⟩ := takes_expr _ hcond
  obtain ⟨v, hv, hbody⟩ := takes_block hstatement _ _ (following_eq_ok.1 hbody)
  have hfeed₂ := lexemes_close (following_eq_ok.1 hend)
  refine ⟨.whileKey :: u ++ v ++ [.endKey], ?_, by simp,
    fun hall => .whileDo (hcond hall.1) (hbody hall.2)⟩
  simp [hfeed, hu, hv, hfeed₂]

end Nested

theorem takes_print (hfeed : feed.lexemes = .printKey :: feed.advance.lexemes) :
    Takes feed (print t feed) fun s w => w ≠ [] ∧ (s.IsLayered → Grammar.Statement w) := by
  intro s rest h
  obtain ⟨⟨first, feed₁⟩, hfirst, h⟩ := except_bind_eq_ok.1 h
  obtain ⟨⟨more, feed₂⟩, hmore, h⟩ := except_bind_eq_ok.1 h
  cases h
  obtain ⟨u, hu, -, hfirst⟩ := takes_expr _ hfirst
  obtain ⟨v, hv, hmore⟩ := takes_arguments _ _ (following_eq_ok.1 hmore)
  refine ⟨.printKey :: u ++ v, ?_, by simp, fun hall => .print (hfirst hall.1) (hmore hall.2)⟩
  simp [hfeed, hu, hv]

theorem takes_typein (hfeed : feed.lexemes = .typeinKey :: feed.advance.lexemes) :
    Takes feed (typein feed) fun s w => w ≠ [] ∧ (s.IsLayered → Grammar.Statement w) := by
  intro s rest h
  obtain ⟨⟨t, notes, feed₁⟩, ht, h⟩ := except_bind_eq_ok.1 h
  cases h
  exact ⟨[.typeinKey, .identifier], by simp [hfeed, lexemes_close ht], by simp,
    fun _ => .typein⟩

theorem takes_assignOrCall (hfeed : feed.lexemes = .identifier :: feed.advance.lexemes) :
    Takes feed (assignOrCall t feed) fun s w => w ≠ [] ∧
    (s.IsLayered → Grammar.Statement w) := by
  intro s rest h
  unfold assignOrCall at h
  dsimp only at h
  split at h
  · rename_i op notes hop
    split at h
    · rename_i hassign
      obtain ⟨⟨rhs, feed₁⟩, hrhs, h⟩ := except_bind_eq_ok.1 h
      cases h
      obtain ⟨u, hu, -, hrhs⟩ := takes_expr _ hrhs
      obtain ⟨tokens, htokens⟩ := List.head?_eq_some_iff.1 hop
      have hfeed₁ := lexemes_advance htokens
      refine ⟨.identifier :: .assignOp :: u, ?_, by simp, fun hall => .assign (hrhs hall)⟩
      simp [hfeed, hfeed₁, hassign, hu]
    · obtain ⟨⟨args, feed₁⟩, hargs, h⟩ := except_bind_eq_ok.1 h
      cases h
      obtain ⟨u, hu, hargs⟩ := takes_arguments _ _ hargs
      exact ⟨.identifier :: u, by simp [hfeed, hu], by simp, fun hall => .call (hargs hall)⟩
  · obtain ⟨⟨_, feed₁⟩, hend, h⟩ := except_bind_eq_ok.1 h
    cases h
    obtain ⟨-, rfl⟩ := eq_of_atEnd hend
    exact ⟨[.identifier], by simp [hfeed], by simp, fun _ => .call .nil⟩

theorem takes_statement (fuel : Nat) (feed : Feed) :
    Takes feed (statement fuel feed) fun s w => w ≠ [] ∧
    (s.IsLayered → Grammar.Statement w) := by
  induction fuel generalizing feed with
  | zero => simp [Takes, statement]
  | succ fuel ih =>
    intro s rest h
    rw [statement] at h
    split at h
    · contradiction
    · rename_i t notes tokens heq
      have hfeed := lexemes_advance heq
      split at h
      · exact takes_ifStatement ih (by simp [*]) h
      · exact takes_whileStatement ih (by simp [*]) h
      · exact takes_print (by simp [*]) h
      · exact takes_typein (by simp [*]) h
      · exact takes_assignOrCall (by simp [*]) h
      · contradiction
      · split at h
        · obtain ⟨⟨e, feed₁⟩, he, h⟩ := except_bind_eq_ok.1 h
          cases h
          obtain ⟨w, hw, hne, he⟩ := takes_expr feed he
          exact ⟨w, hw, hne, fun hall => .expr (he hall)⟩
        · contradiction

theorem takes_item (feed : Feed) :
    Takes feed (item feed) fun i w => w ≠ [] ∧ (i.IsLayered → Grammar.Item True w) := by
  intro i rest h
  unfold item at h
  split at h
  · rename_i hto
    obtain ⟨⟨t, feed₁⟩, ht, h⟩ := except_bind_eq_ok.1 h
    obtain ⟨⟨params, feed₂⟩, hparams, h⟩ := except_bind_eq_ok.1 h
    obtain ⟨⟨body, feed₃⟩, hbody, h⟩ := except_bind_eq_ok.1 h
    obtain ⟨⟨_, _, feed₄⟩, hend, h⟩ := except_bind_eq_ok.1 h
    cases h
    have hfeed : feed.lexemes = .toKey :: feed.advance.lexemes := by
      cases htokens : feed.tokens with
      | nil => simp [htokens] at hto
      | cons t tokens =>
        rw [lexemes_advance htokens]
        simpa [htokens] using hto
    have hfeed₁ := lexemes_take ht
    obtain ⟨hfeed₂, hhead⟩ := lexemes_parameters hparams
    obtain ⟨w, hw, hbody⟩ := takes_block (takes_statement _) _ _ (following_eq_ok.1 hbody)
    have hfeed₃ := lexemes_close (following_eq_ok.1 hend)
    rw [lexemes_settled] at hw
    refine ⟨.toKey :: .identifier :: List.replicate params.length .colonIdentifier ++ w ++
      [.endKey], ?_, by simp, fun hall => ?_⟩
    · simp [hfeed, hfeed₁, hfeed₂, hw, hfeed₃]
    · refine .definition (hbody hall) fun _ hcolon => hhead ?_
      simp [hw, List.head?_append, hcolon]
  · obtain ⟨⟨s, feed₁⟩, hs, h⟩ := except_bind_eq_ok.1 h
    cases h
    obtain ⟨w, hw, hne, hs⟩ := takes_statement _ feed hs
    exact ⟨w, hw, hne, fun hall => .statement (hs hall)⟩

theorem length_of_item {i : Item} (h : item feed = .ok (i, rest)) :
    rest.tokens.length < feed.tokens.length :=
  Takes.length_lt (takes_item feed) h

theorem many_items (hfuel : feed.tokens.length < fuel)
    (h : ∀ i ∈ (items fuel feed).items, i.IsLayered) :
    Many (Grammar.Item True) feed.lexemes := by
  induction fuel generalizing feed with
  | zero => simp at hfuel
  | succ fuel ih =>
    rw [items] at h
    split at h
    · rename_i heq
      simpa [Feed.lexemes, heq] using Many.nil
    · split at h
      · rename_i i rest hi
        simp only [List.forall_mem_cons] at h
        have hlength := length_of_item hi
        obtain ⟨w, hw, -, hi⟩ := takes_item feed hi
        rw [hw]
        exact .cons (hi h.1) (ih (by omega) h.2)
      all_goals simp [Item.IsLayered] at h

theorem program_parse (h : ∀ i ∈ (parse feed).items, i.IsLayered)
    (hsome : (parse feed).items ≠ []) : Grammar.Program True feed.lexemes := by
  have hmany := many_items (Nat.lt_succ_self _) h
  generalize hw : feed.lexemes = w at hmany ⊢
  cases hmany with
  | nil =>
    have htokens : feed.tokens = [] := by simpa [Feed.lexemes] using hw
    rw [parse, items, htokens] at h hsome
    cases hending : feed.ending <;> simp [hending, Item.IsLayered] at h hsome
  | cons hu hv => exact ⟨_, _, rfl, hu, hv⟩

end Source

end TurtleCompiler
