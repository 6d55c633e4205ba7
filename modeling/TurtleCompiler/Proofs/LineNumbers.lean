import TurtleCompiler.Proofs.ListingViews

/-!
Sources whose tokens differ in their places only compile to the same listing, or fail with errors
that differ in their lines only.
-/

namespace TurtleCompiler

def unnumbered (line : Option Nat) : Option Nat := line.map fun _ => 0

def Error.unplaced : Error → Error
  | .illegalCharacter _ ch => .illegalCharacter 0 ch
  | .reservedIdentifier _ word => .reservedIdentifier 0 word
  | .invalidNumber _ text => .invalidNumber 0 text
  | .unparsed _ fault => .unparsed 0 fault
  | .redeclaration _ name previous => .redeclaration 0 name (unnumbered previous)
  | .link fault => .link fault
  | .type _ fault => .type 0 fault
  | .defect fault => .defect fault

def SameCheck (x x' : Except Error α) : Prop :=
  x.mapError Error.unplaced = x'.mapError Error.unplaced

theorem SameCheck.ends {x x' : Except Error α} (h : SameCheck x x') :
    (∃ a, x = .ok a ∧ x' = .ok a) ∨ ∃ e e', x = .error e ∧ x' = .error e' ∧
    e.unplaced = e'.unplaced := by
  cases x <;> cases x' <;> simp_all [SameCheck]

def View.lineless : View where
  line _ := 0
  toUpper_char := toUpper_id
  char_char := id_eq
  line_zero := id_zero

namespace View

@[simp] theorem line_lineless (n : Nat) : lineless.line n = 0 := rfl

@[simp] theorem map_line_lineless (line : Option Nat) :
    line.map lineless.line = unnumbered line := rfl

@[simp] theorem name_lineless (s : String) : lineless.name s = s := name_of_char rfl s

@[simp] theorem text_lineless (lexeme : Lexeme) (s : String) :
    lineless.text lexeme s = s := text_of_char rfl rfl lexeme s

end View

theorem Error.view_lineless (e : Error) : e.view .lineless = e.unplaced := by
  cases e with
  | unparsed line fault => cases fault <;> simp [view, unplaced, SyntaxFault.view]
  | link fault => cases fault <;> simp [view, unplaced, LinkFault.view]
  | defect fault => cases fault <;> simp [view, unplaced, Defect.view]
  | _ => simp [view, unplaced]

theorem viewOutcome_lineless (r : Except Error Listing) :
    viewOutcome .lineless r = r.mapError Error.unplaced := by
  cases r with
  | ok listing => exact congrArg Except.ok (Listing.view_of_char rfl listing)
  | error e => exact congrArg Except.error e.view_lineless

theorem sameCheck_compile (source : String) :
    SameCheck (compile source)
    (Report.ofWork (compileFeed ((Feed.ofText source).view .lineless))).result := by
  have hview := viewOutcome_compileFeed (v := .lineless) (fun _ => rfl) (.ofText source)
  rw [viewOutcome_lineless, viewOutcome_lineless] at hview
  exact hview.symm

def Token.spelling (t : Token) : Lexeme × String := (t.lexeme, t.text)

theorem unplaced_ofText {source : String} {tokens : List Token} (h : tokenize source = .ok tokens) :
    (Feed.ofText source).view .lineless =
      .ofTokens ((tokens.map Token.spelling).map fun s => ⟨s.1, s.2, 0⟩) 0 := by
  unfold tokenize at h
  cases hending : (Feed.ofText source).ending with
  | error e => simp [hending, Except.map] at h
  | ok n =>
    simp only [hending, Except.map, Except.ok.injEq] at h
    simp [← h, Feed.view, Feed.ofTokens, hending, Except.map, Token.spelling, Token.view]

/-- Line numbers do not influence the output: sources with the same spelling compile to the same
listing, or fail with errors that differ in their lines only. -/
theorem compile_of_same_spelling {source source' : String} {tokens tokens' : List Token}
    (h : tokenize source = .ok tokens) (h' : tokenize source' = .ok tokens')
    (hspelling : tokens.map Token.spelling = tokens'.map Token.spelling) :
    (∃ listing, compile source = .ok listing ∧ compile source' = .ok listing) ∨
      ∃ e e', compile source = .error e ∧ compile source' = .error e' ∧
      e.unplaced = e'.unplaced := by
  have hcompile := sameCheck_compile source
  have hcompile' := sameCheck_compile source'
  rw [unplaced_ofText h, hspelling] at hcompile
  rw [unplaced_ofText h'] at hcompile'
  exact SameCheck.ends (hcompile.trans hcompile'.symm)

theorem compile_of_same_spelling_redeclared :
    tokenize "TO F\nEND\nTO F\nEND" =
        .ok [⟨.toKey, "TO", 1⟩, ⟨.identifier, "F", 1⟩, ⟨.endKey, "END", 2⟩,
        ⟨.toKey, "TO", 3⟩, ⟨.identifier, "F", 3⟩, ⟨.endKey, "END", 4⟩] ∧
      tokenize "TO F END # twice\nTO F END" =
        .ok [⟨.toKey, "TO", 1⟩, ⟨.identifier, "F", 1⟩, ⟨.endKey, "END", 1⟩,
        ⟨.toKey, "TO", 2⟩, ⟨.identifier, "F", 2⟩, ⟨.endKey, "END", 2⟩] ∧
      ((∃ listing, compile "TO F\nEND\nTO F\nEND" = .ok listing ∧
          compile "TO F END # twice\nTO F END" = .ok listing) ∨
        ∃ e e', compile "TO F\nEND\nTO F\nEND" = .error e ∧
          compile "TO F END # twice\nTO F END" = .error e' ∧ e.unplaced = e'.unplaced) := by
  refine ⟨?h, ?h', compile_of_same_spelling ?h ?h' ?same⟩
  case h | h' => decide +kernel
  case same => decide

end TurtleCompiler
