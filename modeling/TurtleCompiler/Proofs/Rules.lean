import TurtleCompiler.Lowering.Program
import TurtleCompiler.Proofs.Actions
import TurtleCompiler.Proofs.Naming

/-!
The rules of lowering: what a phrase becomes when its parts have become trees.
-/

namespace TurtleCompiler

namespace Lowering

def noted (s : Lowering) (notes : List Event) : Lowering := { s with log := s.log ++ notes }

theorem enter_eq_ok {s s' : Lowering} {notes : List Event} {u : Unit} :
    enter notes s = .ok u s' ↔ s.noted notes = s' :=
  modify_eq_ok

end Lowering

namespace Source

inductive Expr.Becomes : Expr → Lowering → TurtleCompiler.Expr → Lowering → Prop
  | number : (if '.' ∈ text.toList then (Numeral.float? text.toList).map Value.float
      else (Numeral.int64? text.toList).map Value.int) = some v →
      Becomes (.number text spot) s (.const v) (s.noted spot.notes)
  | string : Becomes (.string text) s (Lowering.string text) s
  | boolean : Becomes (.boolean text) s (Lowering.boolean text) s
  | var : Lowering.reference name spot.line (s.noted spot.notes) = .ok e s' →
      Becomes (.var name spot) s e s'
  | random : Lowering.random s = .ok e s' → Becomes .random s e s'
  | plus : Becomes a s e s₁ → e.dataType.isNumeric →
      Becomes (.plus a spot) s e (s₁.noted spot.notes)
  | minus : Becomes a s e s₁ →
      TurtleCompiler.Expr.arithmetic .mul (.const (.int (-1))) e spot.line = .ok e' →
      Becomes (.minus a spot) s e' (s₁.noted spot.notes)
  | not : Becomes a s (.cond c) s₁ →
      Becomes (.not a spot) s (.cond (.not c)) (s₁.noted spot.notes)
  | arith : Becomes a s l s₁ → Becomes b s₁ r s₂ → ArithOp.ofText? op = some op' →
      TurtleCompiler.Expr.arithmetic op' l r spot.line = .ok e →
      Becomes (.arith op a b spot) s e (s₂.noted spot.notes)
  | compare : Becomes a s l s₁ → Becomes b s₁ r s₂ →
      Lowering.comparison op l r spot.line (s₂.noted spot.notes) =
      .ok (.cond (.compare op' l r)) (s₂.noted spot.notes) →
      Becomes (.compare op a b spot) s (.cond (.compare op' l r)) (s₂.noted spot.notes)
  | logic : Becomes a s (.cond c) s₁ → Becomes b s₁ (.cond c') s₂ →
      Lowering.combination op (.cond c) (.cond c') spot.line (s₂.noted spot.notes) =
        .ok (.cond (.logic op' c c' (.numbered (s₂.labels + 1))))
        (s₂.noted spot.notes).addLabel →
      Becomes (.logic op a b spot) s (.cond (.logic op' c c' (.numbered (s₂.labels + 1))))
      (s₂.noted spot.notes).addLabel

inductive EachBecomes : List Expr → Lowering → List TurtleCompiler.Expr → Lowering → Prop
  | nil : EachBecomes [] s [] s
  | cons : Expr.Becomes e s e' s₁ → EachBecomes es s₁ es' s' →
      EachBecomes (e :: es) s (e' :: es') s'

mutual

inductive Stmt.Becomes : Stmt → Lowering → Node → Lowering → Prop
  | expr : Expr.Becomes e s e' s' → Stmt.Becomes (.expr e) s (.expr e') s'
  | assign : Expr.Becomes rhs s e s₁ →
      Lowering.assignment name op e spot.line (s₁.noted spot.notes) = .ok n s' →
      Stmt.Becomes (.assign name op rhs spot) s n s'
  | call : EachBecomes args s es s₁ →
      Lowering.call name es spot.line (s₁.noted spot.notes) = .ok n s' →
      Stmt.Becomes (.call name args spot) s n s'
  | print : EachBecomes (first :: more) s es s₁ →
      Lowering.print es (s₁.noted spot.notes) = .ok n s' →
      Stmt.Becomes (.print first more spot) s n s'
  | typein : Lowering.typein name spot.line (s.noted spot.notes) = .ok n s' →
      Stmt.Becomes (.typein name spot) s n s'
  | ifThen : Expr.Becomes test s (.cond c) s₁ → AllBecome yes s₁ ns s₂ →
      Stmt.Becomes (.ifThen test yes spot) s
        (.block
          (.branch c { onFalse := some (.numbered (s₂.labels + 1)) } :: ns ++
            [.label (.numbered (s₂.labels + 1))]))
        (s₂.noted spot.notes).addLabel
  | ifElse : Expr.Becomes test s (.cond c) s₁ → AllBecome yes s₁ ns s₂ →
      AllBecome no s₂ ns' s₃ → Stmt.Becomes (.ifElse test yes no spot) s
        (.block (.branch c { onFalse := some (.numbered (s₃.labels + 1)) } :: ns ++
          [.jump (.numbered (s₃.labels + 2)), .label (.numbered (s₃.labels + 1))] ++ ns' ++
          [.label (.numbered (s₃.labels + 2))]))
        (s₃.noted spot.notes).addLabel.addLabel
  | whileDo : Expr.Becomes test s (.cond c) s₁ → AllBecome turn s₁ ns s₂ →
      Stmt.Becomes (.whileDo test turn spot) s
        (.block
          ([.label (.numbered (s₂.labels + 1)),
            .branch c { onFalse := some (.numbered (s₂.labels + 2)) }] ++ ns ++
          [.jump (.numbered (s₂.labels + 1)), .label (.numbered (s₂.labels + 2))]))
        (s₂.noted spot.notes).addLabel.addLabel

inductive AllBecome : List Stmt → Lowering → List Node → Lowering → Prop
  | nil : AllBecome [] s [] s
  | cons : Stmt.Becomes st s n s₁ → AllBecome ss s₁ ns s' →
      AllBecome (st :: ss) s (n :: ns) s'

end

inductive Item.Becomes : Item → Lowering → Lowering → Prop
  | statement : Stmt.Becomes st s n s' →
      Becomes (.statement st) s { s' with mainBody := s'.mainBody ++ [n] }
  | definition : Lowering.beginProcedure head.name head.site.line head.params
      (s.noted head.site.notes) = .ok i b → AllBecome ss b ns e →
      Lowering.endProcedure i ns (e.noted spot.notes) = .ok ⟨⟩ s' →
      Becomes (.definition head ss spot) s s'

variable {s s' : Lowering}

theorem Expr.becomes {e : Expr} {e' : TurtleCompiler.Expr} (h : e.lower s = .ok e' s') :
    e.Becomes s e' s' := by
  induction e generalizing s s' e' with
  | number text site =>
    simp only [lower, bind_eq_ok, Lowering.enter_eq_ok] at h
    obtain ⟨_, _, rfl, h⟩ := h
    obtain ⟨rfl, v, rfl, hv⟩ := Lowering.number_eq_ok h
    exact .number hv
  | string text =>
    obtain ⟨rfl, rfl⟩ := pure_eq_ok.1 h
    exact .string
  | boolean text =>
    obtain ⟨rfl, rfl⟩ := pure_eq_ok.1 h
    exact .boolean
  | var name site =>
    simp only [lower, bind_eq_ok, Lowering.enter_eq_ok] at h
    obtain ⟨_, _, rfl, h⟩ := h
    exact .var h
  | random => exact .random h
  | plus e site ih =>
    simp only [lower, bind_eq_ok, Lowering.enter_eq_ok] at h
    obtain ⟨e₁, s₁, he, _, _, rfl, h⟩ := h
    obtain ⟨rfl, rfl, hnumeric⟩ := Lowering.positive_eq_ok h
    exact .plus (ih he) hnumeric
  | minus e site ih =>
    simp only [lower, bind_eq_ok, Lowering.enter_eq_ok] at h
    obtain ⟨e₁, s₁, he, _, _, rfl, h⟩ := h
    obtain ⟨rfl, harith⟩ := Lowering.negate_eq_ok h
    exact .minus (ih he) harith
  | not e site ih =>
    simp only [lower, bind_eq_ok, Lowering.enter_eq_ok] at h
    obtain ⟨e₁, s₁, he, _, _, rfl, h⟩ := h
    obtain ⟨rfl, c, rfl, rfl⟩ := Lowering.negation_eq_ok h
    exact .not (ih he)
  | arith op l r site ihl ihr =>
    simp only [lower, bind_eq_ok, Lowering.enter_eq_ok] at h
    obtain ⟨l₁, s₁, hl, r₁, s₂, hr, _, _, rfl, h⟩ := h
    obtain ⟨rfl, op', hop, harith⟩ := Lowering.arithmetic_eq_ok h
    exact .arith (ihl hl) (ihr hr) hop harith
  | compare op l r site ihl ihr =>
    simp only [lower, bind_eq_ok, Lowering.enter_eq_ok] at h
    obtain ⟨l₁, s₁, hl, r₁, s₂, hr, _, _, rfl, h⟩ := h
    obtain ⟨rfl, -, op', -, rfl⟩ := Lowering.comparison_eq_ok h
    exact .compare (ihl hl) (ihr hr) h
  | logic op l r site ihl ihr =>
    simp only [lower, bind_eq_ok, Lowering.enter_eq_ok] at h
    obtain ⟨l₁, s₁, hl, r₁, s₂, hr, _, _, rfl, h⟩ := h
    obtain ⟨rfl, op', c, c', -, rfl, rfl, rfl⟩ := Lowering.combination_eq_ok h
    exact .logic (ihl hl) (ihr hr) h

theorem eachBecomes {es : List Expr} {es' : List TurtleCompiler.Expr}
    (h : es.mapM Expr.lower s = .ok es' s') : EachBecomes es s es' s' := by
  induction es generalizing s es' with
  | nil =>
    obtain ⟨rfl, rfl⟩ := pure_eq_ok.1 h
    exact .nil
  | cons e es ih =>
    obtain ⟨e', s₁, he, es', hes, rfl⟩ := mapM_cons_eq_ok.1 h
    exact .cons (Expr.becomes he) (ih hes)

mutual

theorem Stmt.becomes : (st : Stmt) → ∀ {s s' : Lowering} {n : Node}, st.lower s = .ok n s' →
    st.Becomes s n s'
  | .expr e, s, s', n, h => by
    obtain ⟨e', he, rfl⟩ := map_eq_ok.1 h
    exact .expr (Expr.becomes he)
  | .assign name op rhs site, s, s', n, h => by
    simp only [Stmt.lower, bind_eq_ok, Lowering.enter_eq_ok] at h
    obtain ⟨rhs', s₁, hrhs, _, _, rfl, h⟩ := h
    exact .assign (Expr.becomes hrhs) h
  | .call name args site, s, s', n, h => by
    simp only [Stmt.lower, bind_eq_ok, Lowering.enter_eq_ok] at h
    obtain ⟨args', s₁, hargs, _, _, rfl, h⟩ := h
    exact .call (eachBecomes hargs) h
  | .print first more site, s, s', n, h => by
    simp only [Stmt.lower, bind_eq_ok, Lowering.enter_eq_ok] at h
    obtain ⟨first', s₁, hfirst, more', s₂, hmore, _, _, rfl, h⟩ := h
    exact .print (.cons (Expr.becomes hfirst) (eachBecomes hmore)) h
  | .typein name site, s, s', n, h => by
    simp only [Stmt.lower, bind_eq_ok, Lowering.enter_eq_ok] at h
    obtain ⟨_, _, rfl, h⟩ := h
    exact .typein h
  | .ifThen cond yes site, s, s', n, h => by
    simp only [Stmt.lower, bind_eq_ok, Lowering.enter_eq_ok] at h
    obtain ⟨cond', s₁, hcond, yes', s₂, hyes, _, _, rfl, h⟩ := h
    obtain ⟨c, rfl, rfl, rfl⟩ := Lowering.ifStatement_none_eq_ok h
    exact .ifThen (Expr.becomes hcond) (allBecome yes hyes)
  | .ifElse cond yes no site, s, s', n, h => by
    simp only [Stmt.lower, bind_eq_ok, Lowering.enter_eq_ok] at h
    obtain ⟨cond', s₁, hcond, yes', s₂, hyes, no', s₃, hno, _, _, rfl, h⟩ := h
    obtain ⟨c, rfl, rfl, rfl⟩ := Lowering.ifStatement_some_eq_ok h
    exact .ifElse (Expr.becomes hcond) (allBecome yes hyes) (allBecome no hno)
  | .whileDo cond body site, s, s', n, h => by
    simp only [Stmt.lower, bind_eq_ok, Lowering.enter_eq_ok] at h
    obtain ⟨cond', s₁, hcond, body', s₂, hbody, _, _, rfl, h⟩ := h
    obtain ⟨c, rfl, rfl, rfl⟩ := Lowering.whileStatement_eq_ok h
    exact .whileDo (Expr.becomes hcond) (allBecome body hbody)

theorem allBecome : (ss : List Stmt) →
    ∀ {s s' : Lowering} {ns : List Node}, lowerAll ss s = .ok ns s' → AllBecome ss s ns s'
  | [], s, s', ns, h => by
    obtain ⟨rfl, rfl⟩ := pure_eq_ok.1 h
    exact .nil
  | st :: ss, s, s', ns, h => by
    simp only [lowerAll, bind_eq_ok, pure_eq_ok] at h
    obtain ⟨n, s₁, hn, ns', s₂, hns, rfl, rfl⟩ := h
    exact .cons (st.becomes hn) (allBecome ss hns)

end

theorem Item.becomes {i : Item} (hi : i.isComplete) {fault : Option Error}
    (h : i.lower s = .ok fault s') : i.Becomes s s' ∧ fault = none := by
  cases i with
  | statement st =>
    simp only [lower, Lowering.addTopLevel, bind_eq_ok, modify_eq_ok, pure_eq_ok] at h
    obtain ⟨n, s₁, hn, _, _, rfl, rfl, rfl⟩ := h
    exact ⟨.statement (st.becomes hn), rfl⟩
  | definition header body site =>
    simp only [lower, Header.lower, bind_eq_ok, Lowering.enter_eq_ok, pure_eq_ok] at h
    obtain ⟨id, b, ⟨_, _, rfl, hbegin⟩, ns, e, hbody, _, _, rfl, _, _, hend, rfl, rfl⟩ := h
    exact ⟨.definition hbegin (allBecome body hbody) hend, rfl⟩
  | broken => simp [isComplete] at hi

end Source

end TurtleCompiler
