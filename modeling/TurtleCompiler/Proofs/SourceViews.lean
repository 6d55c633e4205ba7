import TurtleCompiler.Proofs.Climbing
import TurtleCompiler.Proofs.Success

/-!
Sources seen through a view. The parser goes by the classes of tokens, so the tree of what is seen
of a source is what is seen of its tree.
-/

namespace TurtleCompiler

/-- A way to look at a source: at the characters of its words, at its strings and at its lines.
Names that look the same differ in case at most, and a second look shows nothing new. -/
structure View where
  char : Char → Char := id
  string : String → String := id
  line : Nat → Nat := id
  toUpper_char : ∀ c, (char c).toUpper = c.toUpper := by simp
  char_char : ∀ c, char (char c) = char c := by simp
  line_line : ∀ n, line (line n) = line n := by simp
  line_zero : line 0 = 0 := by simp

namespace View

theorem toUpper_id (c : Char) : (id c).toUpper = c.toUpper := rfl

theorem id_zero : id 0 = 0 := rfl

def name (v : View) (s : String) : String := s.map v.char

def text (v : View) : Lexeme → String → String
  | .string => v.string
  | .number | .assignOp | .relOp | .addOp | .mulOp | .powOp | .openParen | .closeParen => id
  | _ => v.name

end View

def SyntaxFault.view (v : View) : SyntaxFault → SyntaxFault
  | .unexpectedToken text lexeme => .unexpectedToken (v.text lexeme text) lexeme
  | .unexpectedEnd => .unexpectedEnd
  | .nestedDefinition => .nestedDefinition
  | .emptyProgram => .emptyProgram

def LinkFault.view (v : View) : LinkFault → LinkFault
  | .unresolved name => .unresolved (v.name name)
  | .undefined name => .undefined (v.name name)

def Defect.view (v : View) : Defect → Defect
  | .noScopeToDeclare name => .noScopeToDeclare (v.name name)
  | .functionFieldsForVariable name => .functionFieldsForVariable (v.name name)
  | .valueForFunction name => .valueForFunction (v.name name)
  | .notVariable name => .notVariable (v.name name)
  | .notFunction name => .notFunction (v.name name)
  | .unknownUsage name => .unknownUsage (v.name name)
  | .unknownUse function name => .unknownUse (v.name function) (v.name name)
  | .unknownOperator op => .unknownOperator (v.name op)
  | fault => fault

def Error.view (v : View) : Error → Error
  | .illegalCharacter line ch => .illegalCharacter (v.line line) ch
  | .reservedIdentifier line word => .reservedIdentifier (v.line line) (v.name word)
  | .invalidNumber line text => .invalidNumber (v.line line) text
  | .unparsed line fault => .unparsed (v.line line) (fault.view v)
  | .redeclaration line name previous =>
    .redeclaration (v.line line) (v.name name) (previous.map v.line)
  | .link fault => .link (fault.view v)
  | .type line fault => .type (v.line line) fault
  | .defect fault => .defect (fault.view v)

def Token.view (v : View) (t : Token) : Token :=
  ⟨t.lexeme, v.text t.lexeme t.text, v.line t.line⟩

def Feed.view (v : View) (feed : Feed) : Feed where
  notes := []
  tokens := feed.tokens.map fun entry => (entry.1.view v, [])
  ending := (feed.ending.map v.line).mapError (Error.view v)

namespace Source

def Site.view (v : View) (site : Site) : Site := ⟨v.line site.line, []⟩

def Expr.view (v : View) : Expr → Expr
  | .number text site => .number text (site.view v)
  | .string text => .string (v.string text)
  | .boolean text => .boolean (v.name text)
  | .var name site => .var (v.name name) (site.view v)
  | .random => .random
  | .plus e site => .plus (e.view v) (site.view v)
  | .minus e site => .minus (e.view v) (site.view v)
  | .not e site => .not (e.view v) (site.view v)
  | .arith op l r site => .arith op (l.view v) (r.view v) (site.view v)
  | .compare op l r site => .compare op (l.view v) (r.view v) (site.view v)
  | .logic op l r site => .logic (v.name op) (l.view v) (r.view v) (site.view v)

mutual

def Stmt.view (v : View) : Stmt → Stmt
  | .expr e => .expr (e.view v)
  | .assign name op rhs site => .assign (v.name name) op (rhs.view v) (site.view v)
  | .call name args site => .call (v.name name) (args.map (Expr.view v)) (site.view v)
  | .print first more site => .print (first.view v) (more.map (Expr.view v)) (site.view v)
  | .typein name site => .typein (v.name name) (site.view v)
  | .ifThen cond yes site => .ifThen (cond.view v) (viewAll v yes) (site.view v)
  | .ifElse cond yes no site => .ifElse (cond.view v) (viewAll v yes) (viewAll v no) (site.view v)
  | .whileDo cond body site => .whileDo (cond.view v) (viewAll v body) (site.view v)

def viewAll (v : View) : List Stmt → List Stmt
  | [] => []
  | s :: ss => s.view v :: viewAll v ss

end

def Header.view (v : View) (h : Header) : Header :=
  ⟨v.name h.name, h.params.map v.name, h.site.view v⟩

def Phrase.view (v : View) : Phrase → Phrase
  | .expr e => .expr (e.view v)
  | .stmt s => .stmt (s.view v)
  | .header h => .header (h.view v)

def Fault.view (v : View) : Fault → Fault
  | .lexical e _ => .lexical (e.view v) []
  | .grammatical fault site => .grammatical (fault.view v) (site.view v)

def Item.view (v : View) : Item → Item
  | .statement s => .statement (s.view v)
  | .definition header body site => .definition (header.view v) (viewAll v body) (site.view v)
  | .broken done fault => .broken (done.map (Phrase.view v)) (fault.view v)

def Program.view (v : View) (p : Program) : Program :=
  ⟨p.items.map (Item.view v), p.site.view v⟩

def Failure.view (v : View) (f : Failure) : Failure :=
  ⟨f.done.map (Phrase.view v), f.fault.view v, f.rest.view v⟩

variable {v : View}

theorem viewAll_eq_map (ss : List Stmt) : viewAll v ss = ss.map (Stmt.view v) := by
  induction ss with
  | nil => simp only [viewAll, List.map_nil]
  | cons s ss ih => simp only [viewAll, ih, List.map_cons]

theorem map_view_stmts (ss : List Stmt) :
    (ss.map .stmt).map (Phrase.view v) = (viewAll v ss).map .stmt := by
  simp [viewAll_eq_map, Phrase.view, Function.comp_def]

def viewWith (v : View) (f : α → β) : Except Failure α → Except Failure β
  | .ok a => .ok (f a)
  | .error failure => .error (failure.view v)

section Outcome

variable {α β γ δ : Type} {f : α → β} {g : γ → δ} {r : Except Failure α}
  {r' : Except Failure β} {k : α → Except Failure γ} {k' : β → Except Failure δ}

theorem viewWith_bind (hr : r' = viewWith v f r) (hk : ∀ a, k' (f a) = viewWith v g (k a)) :
    (r' >>= k') = viewWith v g (r >>= k) := by
  subst hr
  cases r with
  | ok a => exact hk a
  | error failure => rfl

theorem viewWith_following (done : List Phrase) (hr : r' = viewWith v f r) :
    following (done.map (Phrase.view v)) r' = viewWith v f (following done r) := by
  subst hr
  cases r with
  | ok a => rfl
  | error failure => simp [viewWith, following, Failure.view, Failure.after]

theorem viewWith_ite {p : Prop} [Decidable p] {q : Except Failure α} {q' : Except Failure β}
    (hr : p → r' = viewWith v f r) (hq : ¬ p → q' = viewWith v f q) :
    (if p then r' else q') = viewWith v f (if p then r else q) := by
  split
  · exact hr ‹_›
  · exact hq ‹_›

end Outcome

@[simp] theorem lexeme_view (t : Token) : (t.view v).lexeme = t.lexeme := rfl

theorem variableName_view (text : String) (line : Nat) :
    variableName (Token.view v ⟨.colonIdentifier, text, line⟩) =
    v.name (variableName ⟨.colonIdentifier, text, line⟩) := by
  apply String.toList_injective
  simp [variableName, Token.view, View.text, View.name]

section Feed

variable (feed : Feed)

theorem tokens_view : (feed.view v).tokens =
    feed.tokens.map fun entry => (entry.1.view v, []) := rfl

@[simp] theorem advance_view : feed.advance.view v = (feed.view v).advance := by
  obtain ⟨notes, _ | ⟨entry, tokens⟩, ending⟩ := feed <;> rfl

@[simp] theorem settled_view : settled (feed.view v) = feed.view v := rfl

@[simp] theorem view_settled : (settled feed).view v = feed.view v := rfl

@[simp] theorem length_tokens_view : (feed.view v).tokens.length = feed.tokens.length := by
  simp [Feed.view]

theorem any_head?_view (lexeme : Lexeme) : (feed.view v).tokens.head?.any (·.1.lexeme = lexeme) =
    feed.tokens.head?.any (·.1.lexeme = lexeme) := by
  obtain ⟨notes, _ | ⟨entry, tokens⟩, ending⟩ := feed <;> rfl

variable {α β : Type} (f : α → β)

theorem unexpected_view : .error (unexpected (feed.view v)) = viewWith v f
    (.error (unexpected feed)) := by
  obtain ⟨notes, _ | ⟨entry, tokens⟩, _ | _⟩ := feed <;> rfl

theorem atEnd_view (a : α) : atEnd (feed.view v) (f a) = viewWith v (Prod.map f (Feed.view v))
    (atEnd feed a) := by
  obtain ⟨notes, tokens, _ | _⟩ := feed
  · exact unexpected_view _ _
  · rfl

theorem take_view (lexeme : Lexeme) : take lexeme (feed.view v) =
    viewWith v (Prod.map (fun t => ⟨lexeme, v.text lexeme t.text, v.line t.line⟩) (Feed.view v))
    (take lexeme feed) := by
  unfold take
  rw [tokens_view]
  cases feed.tokens with
  | nil => exact unexpected_view _ _
  | cons entry tokens =>
    obtain ⟨⟨lexeme', text, line⟩, notes⟩ := entry
    simp only [List.map_cons, lexeme_view]
    refine viewWith_ite (fun h => ?_) fun _ => unexpected_view _ _
    obtain rfl : lexeme' = lexeme := h
    rw [← advance_view]
    rfl

theorem close_view (lexeme : Lexeme) : close lexeme (feed.view v) =
    viewWith v (fun r => (⟨lexeme, v.text lexeme r.1.text, v.line r.1.line⟩, [], r.2.2.view v))
    (close lexeme feed) := by
  unfold close
  rw [tokens_view]
  cases feed.tokens with
  | nil => exact unexpected_view _ _
  | cons entry tokens =>
    obtain ⟨⟨lexeme', text, line⟩, notes⟩ := entry
    simp only [List.map_cons, lexeme_view]
    refine viewWith_ite (fun h => ?_) fun _ => unexpected_view _ _
    obtain rfl : lexeme' = lexeme := h
    simp only [viewWith, settled_view, advance_view, view_settled]
    rfl

end Feed

theorem ofSign_view {t : Token} (ht : t.lexeme = .addOp) (e : Expr) (s : Site) :
    (Expr.ofSign t e s).view v = .ofSign (t.view v) (e.view v) (s.view v) := by
  obtain ⟨lexeme, text, line⟩ := t
  obtain rfl : lexeme = .addOp := ht
  change Expr.view v (if text = "-" then .minus e s else .plus e s) =
    if text = "-" then .minus (e.view v) (s.view v) else .plus (e.view v) (s.view v)
  split <;> rfl

theorem ofOperator_view {t : Token} {powers : Nat × Nat} (ht : bindingPower t.lexeme = some powers)
    (l r : Expr) (s : Site) : (Expr.ofOperator t l r s).view v = .ofOperator (t.view v) (l.view v)
    (r.view v) (s.view v) := by
  obtain ⟨lexeme, text, line⟩ := t
  cases lexeme with
  | logicOp | relOp | addOp | mulOp | powOp => rfl
  | _ => simp [bindingPower] at ht

theorem leaf_view {t : Token} {l : Expr} {feed rest : Feed} (h : leaf? t feed = some (l, rest)) :
    leaf? (t.view v) (feed.view v) = some (l.view v, rest.view v) := by
  obtain ⟨lexeme, text, line⟩ := t
  cases lexeme with
  | colonIdentifier =>
    cases h
    simp only [leaf?, lexeme_view, variableName_view, advance_view, view_settled, settled_view]
    rfl
  | _ =>
    cases h <;> simp only [leaf?, lexeme_view, advance_view, view_settled, settled_view] <;> rfl

def Stage.view (v : View) : Stage → Stage
  | .operand power feed => .operand power (feed.view v)
  | .operators power l feed => .operators power (l.view v) (feed.view v)

theorem tokens_view_cons {feed : Feed} {t : Token} {notes : List Event}
    {tokens : List (Token × List Event)} (h : feed.tokens = (t, notes) :: tokens) :
    (feed.view v).tokens = (t.view v, []) :: tokens.map fun entry => (entry.1.view v, []) := by
  rw [tokens_view, h, List.map_cons]

theorem Climbs.view {st : Stage} {r : Except Failure (Expr × Feed)} (h : Climbs st r) :
    Climbs (st.view v) (viewWith v (Prod.map (Expr.view v) (Feed.view v)) r) := by
  have hadvance {power : Nat} {feed : Feed} {r : Except Failure (Expr × Feed)}
      (h : Climbs (Stage.view v (.operand power feed.advance)) r) :
      Climbs (.operand power (feed.view v).advance) r := by rwa [← advance_view]
  have hafter (f : Failure) (l : Expr) :
      (f.after [.expr l]).view v = (f.view v).after [.expr (l.view v)] := by
    simp [Failure.view, Failure.after, Phrase.view]
  induction h with
  | unexpected h =>
    rw [← unexpected_view]
    refine .unexpected fun s hs => ?_
    rw [tokens_view, List.head?_map] at hs
    obtain ⟨t, ht, rfl⟩ := Option.map_eq_some_iff.1 hs
    exact h t ht
  | leaf hfeed hleaf _ ih => exact .leaf (tokens_view_cons hfeed) (leaf_view hleaf) ih
  | inner hfeed hright _ ih => exact .inner (tokens_view_cons hfeed) hright (hadvance ih)
  | unclosed hfeed ht _ hclose ih =>
    rw [viewWith, hafter]
    refine .unclosed (tokens_view_cons hfeed) ht (hadvance ih) ?_
    rw [take_view, hclose]
    rfl
  | paren hfeed ht _ hclose _ ih ih' =>
    exact .paren (tokens_view_cons hfeed) ht (hadvance ih) (hclose ▸ take_view _ _) ih'
  | negation hfeed ht _ _ ih ih' =>
    refine .negation (tokens_view_cons hfeed) ht (hadvance ih) ?_
    exact ih'
  | sign hfeed ht _ _ ih ih' =>
    refine .sign (tokens_view_cons hfeed) ht (hadvance ih) ?_
    rwa [Stage.view, ofSign_view ht] at ih'
  | finish hfeed =>
    rw [← viewWith_following [.expr _] (atEnd_view _ (Expr.view v) _)]
    refine .finish ?_
    rw [tokens_view, hfeed, List.map_nil]
  | stop hfeed hstop => exact .stop (tokens_view_cons hfeed) hstop
  | broken hfeed hop hleft _ ih =>
    rw [viewWith, hafter]
    exact .broken (tokens_view_cons hfeed) hop hleft (hadvance ih)
  | step hfeed hop hleft _ _ ih ih' =>
    refine .step (tokens_view_cons hfeed) hop hleft (hadvance ih) ?_
    rwa [Stage.view, ofOperator_view hop] at ih'

theorem expr_view (feed : Feed) :
    expr (feed.view v) = viewWith v (Prod.map (Expr.view v) (Feed.view v)) (expr feed) :=
  (climbs_expr feed).view.run_eq (by simp [Stage.view])

theorem expr_view_advance (feed : Feed) :
    expr (feed.view v).advance =
    viewWith v (Prod.map (Expr.view v) (Feed.view v)) (expr feed.advance) := by
  rw [← advance_view, expr_view]

theorem arguments_view (fuel : Nat) (feed : Feed) : arguments fuel (feed.view v) =
    viewWith v (Prod.map (List.map (Expr.view v)) (Feed.view v)) (arguments fuel feed) := by
  induction fuel generalizing feed with
  | zero =>
    rw [arguments, arguments]
    exact unexpected_view _ _
  | succ fuel ih =>
    rw [arguments, arguments, tokens_view]
    cases feed.tokens with
    | nil => exact atEnd_view feed (List.map (Expr.view v)) []
    | cons entry tokens =>
      obtain ⟨t, notes⟩ := entry
      simp only [List.map_cons, lexeme_view]
      refine viewWith_ite (fun _ => viewWith_bind (expr_view feed) fun ⟨e, feed⟩ => ?_) fun _ =>
        rfl
      exact viewWith_bind (viewWith_following [.expr e] (ih feed)) fun ⟨es, feed⟩ => rfl

theorem parameters_view (fuel : Nat) (feed : Feed) : parameters fuel (feed.view v) =
    viewWith v (Prod.map (List.map v.name) (Feed.view v)) (parameters fuel feed) := by
  induction fuel generalizing feed with
  | zero =>
    rw [parameters, parameters]
    exact unexpected_view _ _
  | succ fuel ih =>
    rw [parameters, parameters, tokens_view]
    cases feed.tokens with
    | nil => exact atEnd_view feed (List.map v.name) []
    | cons entry tokens =>
      obtain ⟨⟨lexeme, text, line⟩, notes⟩ := entry
      simp only [List.map_cons, lexeme_view]
      have hnext := ih feed.advance
      rw [advance_view] at hnext
      refine viewWith_ite (fun h => viewWith_bind hnext fun ⟨names, feed⟩ => ?_) fun _ => rfl
      obtain rfl : lexeme = .colonIdentifier := h
      rw [variableName_view]
      rfl

section Nested

variable {statement : Feed → Except Failure (Stmt × Feed)}
  (hstatement : ∀ feed : Feed, statement (feed.view v) =
    viewWith v (Prod.map (Stmt.view v) (Feed.view v)) (statement feed))

include hstatement

theorem body_view (feed : Feed) : body statement (feed.view v) =
    viewWith v (Prod.map (viewAll v) (Feed.view v)) (body statement feed) := by
  rw [body, body, length_tokens_view]
  generalize feed.tokens.length + 1 = fuel
  induction fuel generalizing feed with
  | zero =>
    rw [block, block]
    exact unexpected_view _ _
  | succ fuel ih =>
    rw [block, block, tokens_view]
    cases feed.tokens with
    | nil => exact atEnd_view feed (viewAll v) []
    | cons entry tokens =>
      obtain ⟨t, notes⟩ := entry
      simp only [List.map_cons, lexeme_view]
      refine viewWith_ite (fun _ => rfl) fun _ =>
        viewWith_bind (hstatement feed) fun ⟨s, feed⟩ => ?_
      exact viewWith_bind (viewWith_following [.stmt s] (ih feed)) fun ⟨ss, feed⟩ => rfl

theorem ifStatement_view (t : Token) (feed : Feed) :
    ifStatement statement (t.view v) (feed.view v) =
    viewWith v (Prod.map (Stmt.view v) (Feed.view v)) (ifStatement statement t feed) := by
  refine viewWith_bind (expr_view_advance feed) fun ⟨cond, feed⟩ => ?_
  refine viewWith_bind (viewWith_following [.expr cond] (take_view feed .thenKey))
    fun ⟨_, feed⟩ => ?_
  refine viewWith_bind (viewWith_following [.expr cond] (body_view hstatement feed))
    fun ⟨yes, feed⟩ => ?_
  have hdone : (Phrase.expr cond :: yes.map .stmt).map (Phrase.view v) =
      .expr (cond.view v) :: (viewAll v yes).map .stmt := by
    rw [List.map_cons, map_view_stmts]
    rfl
  simp only [Prod.map, any_head?_view]
  refine viewWith_ite (fun _ => ?_) fun _ => ?_
  · have hno :=
      viewWith_following (.expr cond :: yes.map .stmt) (body_view hstatement feed.advance)
    rw [hdone, advance_view] at hno
    refine viewWith_bind hno fun ⟨no, feed⟩ => ?_
    have hend :=
      viewWith_following (.expr cond :: yes.map .stmt ++ no.map .stmt)
      (close_view (v := v) feed .endKey)
    rw [List.map_append, hdone, map_view_stmts] at hend
    exact viewWith_bind hend fun ⟨_, notes, feed⟩ => rfl
  · have hend :=
      viewWith_following (.expr cond :: yes.map .stmt) (close_view (v := v) feed .endKey)
    rw [hdone] at hend
    exact viewWith_bind hend fun ⟨_, notes, feed⟩ => rfl

theorem whileStatement_view (t : Token) (feed : Feed) :
    whileStatement statement (t.view v) (feed.view v) =
    viewWith v (Prod.map (Stmt.view v) (Feed.view v)) (whileStatement statement t feed) := by
  refine viewWith_bind (expr_view_advance feed) fun ⟨cond, feed⟩ => ?_
  refine viewWith_bind (viewWith_following [.expr cond] (body_view hstatement feed))
    fun ⟨stmts, feed⟩ => ?_
  have hend := viewWith_following (.expr cond :: stmts.map .stmt) (close_view (v := v) feed .endKey)
  rw [List.map_cons, map_view_stmts] at hend
  exact viewWith_bind hend fun ⟨_, notes, feed⟩ => rfl

end Nested

theorem arguments_view_rest (feed : Feed) :
    arguments ((feed.view v).tokens.length + 1) (feed.view v) =
    viewWith v (Prod.map (List.map (Expr.view v)) (Feed.view v))
    (arguments (feed.tokens.length + 1) feed) := by
  rw [length_tokens_view, arguments_view]

theorem print_view (t : Token) (feed : Feed) : print (t.view v) (feed.view v) =
    viewWith v (Prod.map (Stmt.view v) (Feed.view v)) (print t feed) := by
  refine viewWith_bind (expr_view_advance feed) fun ⟨first, feed⟩ => ?_
  exact viewWith_bind (viewWith_following [.expr first] (arguments_view_rest feed))
    fun ⟨more, feed⟩ => rfl

theorem typein_view (feed : Feed) : typein (feed.view v) =
    viewWith v (Prod.map (Stmt.view v) (Feed.view v)) (typein feed) := by
  have hclose := close_view (v := v) feed.advance .identifier
  rw [advance_view] at hclose
  exact viewWith_bind hclose fun ⟨t, notes, feed⟩ => rfl

theorem assignOrCall_view (text : String) (line : Nat) (feed : Feed) :
    assignOrCall (Token.view v ⟨.identifier, text, line⟩) (feed.view v) =
      viewWith v (Prod.map (Stmt.view v) (Feed.view v))
      (assignOrCall ⟨.identifier, text, line⟩ feed) := by
  unfold assignOrCall
  rw [← advance_view]
  generalize feed.advance = feed
  simp only [tokens_view, List.head?_map]
  cases feed.tokens.head? with
  | none => exact viewWith_bind (atEnd_view feed id ()) fun ⟨_, feed⟩ => rfl
  | some entry =>
    obtain ⟨⟨lexeme, op, opLine⟩, notes⟩ := entry
    refine viewWith_ite (fun h => ?_) fun _ => ?_
    · obtain rfl : lexeme = .assignOp := h
      exact viewWith_bind (expr_view_advance feed) fun ⟨rhs, feed⟩ => rfl
    · exact viewWith_bind (arguments_view_rest feed) fun ⟨args, feed⟩ => rfl

theorem statement_view (fuel : Nat) (feed : Feed) : statement fuel (feed.view v) =
    viewWith v (Prod.map (Stmt.view v) (Feed.view v)) (statement fuel feed) := by
  induction fuel generalizing feed with
  | zero =>
    rw [statement, statement]
    exact unexpected_view _ _
  | succ fuel ih =>
    rw [statement, statement, tokens_view]
    cases feed.tokens with
    | nil => exact unexpected_view _ _
    | cons entry tokens =>
      obtain ⟨⟨lexeme, text, line⟩, notes⟩ := entry
      simp only [List.map_cons, lexeme_view]
      cases lexeme with
      | ifKey => exact ifStatement_view ih ⟨_, text, line⟩ feed
      | whileKey => exact whileStatement_view ih ⟨_, text, line⟩ feed
      | printKey => exact print_view ⟨_, text, line⟩ feed
      | typeinKey => exact typein_view feed
      | identifier => exact assignOrCall_view text line feed
      | toKey => rfl
      | _ =>
        exact viewWith_ite (fun _ => viewWith_bind (expr_view feed) fun _ => rfl) fun _ =>
          unexpected_view _ _

theorem definition_view (feed : Feed) : definition (feed.view v) =
    viewWith v (Prod.map (Item.view v) (Feed.view v)) (definition feed) := by
  have hname := take_view (v := v) feed.advance .identifier
  rw [advance_view] at hname
  refine viewWith_bind hname fun ⟨name, feed⟩ => ?_
  have hparams : parameters ((feed.view v).tokens.length + 1) (feed.view v) =
      viewWith v (Prod.map (List.map v.name) (Feed.view v))
      (parameters (feed.tokens.length + 1) feed) := by
    rw [length_tokens_view, parameters_view]
  refine viewWith_bind hparams fun ⟨params, feed⟩ => ?_
  have hbody : body (statement ((feed.view v).tokens.length + 1)) (settled (feed.view v)) =
      viewWith v (Prod.map (viewAll v) (Feed.view v))
      (body (statement (feed.tokens.length + 1)) (settled feed)) := by
    rw [length_tokens_view]
    exact body_view (statement_view _) (settled feed)
  refine viewWith_bind
    (viewWith_following [.header ⟨name.text, params, site feed name.line⟩] hbody)
    fun ⟨stmts, feed'⟩ => ?_
  have hend :=
    viewWith_following (.header ⟨name.text, params, site feed name.line⟩ :: stmts.map .stmt)
    (close_view (v := v) feed' .endKey)
  rw [List.map_cons, map_view_stmts] at hend
  exact viewWith_bind hend fun ⟨_, notes, feed⟩ => rfl

theorem item_view (feed : Feed) : item (feed.view v) =
    viewWith v (Prod.map (Item.view v) (Feed.view v)) (item feed) := by
  unfold item
  rw [any_head?_view, length_tokens_view]
  exact viewWith_ite (fun _ => definition_view feed)
    fun _ => viewWith_bind (statement_view _ feed) fun ⟨s, feed⟩ => rfl

theorem items_view (fuel : Nat) (feed : Feed) :
    items fuel (feed.view v) = (items fuel feed).view v := by
  induction fuel generalizing feed with
  | zero => simp [items, Program.view, Site.view, site, v.line_zero, Feed.view]
  | succ fuel ih =>
    rw [items, items, tokens_view]
    cases feed.tokens with
    | nil =>
      obtain ⟨notes, tokens, e | line⟩ := feed
      · simp [Feed.view, Except.map, Program.view, Item.view, Fault.view, Site.view, v.line_zero]
      · rfl
    | cons entry tokens =>
      simp only [List.map_cons, item_view]
      cases item feed with
      | ok r =>
        obtain ⟨i, rest⟩ := r
        simp [viewWith, ih, Program.view]
      | error failure =>
        obtain ⟨done, fault, rest⟩ := failure
        cases fault with
        | lexical e notes =>
          simp [viewWith, Failure.view, Fault.view, Program.view, Item.view, Site.view, v.line_zero]
        | grammatical fault site =>
          have hrest := ih (settled rest).advance
          rw [advance_view, view_settled] at hrest
          simp [viewWith, Failure.view, Fault.view, hrest, Program.view, Item.view]

theorem parse_view (feed : Feed) : parse (feed.view v) = (parse feed).view v := by
  rw [parse, length_tokens_view, items_view, parse]

end Source

end TurtleCompiler
