import TurtleCompiler.Proofs.ListingViews
import TurtleCompiler.Proofs.Lookahead

/-!
Scanning on demand. A source that cannot be scanned to its end fails there, unless the tokens up to
there have an error that no continuation would mend.
-/

namespace TurtleCompiler

def compileTokens (tokens : List Token) (line : Nat) : Except Error Listing :=
  (Report.ofWork (compileFeed (.ofTokens tokens line))).result

variable {source : String} {entry : SymbolId} {w : Workspace} {e : Error} {s : Lowering}

theorem compile_of_ending {line : Nat} (h : (Feed.ofText source).ending = .ok line) :
    compile source = compileTokens ((Feed.ofText source).tokens.map (·.1)) line := by
  change (Report.ofWork (compileFeed (.ofText source))).result = _
  rw [← result_view_plain, Feed.view_plain, h, compileTokens, Feed.ofTokens, List.map_map]
  rfl

namespace Source

variable {feed : Feed} {e : Error}

theorem failsInto_program {p : Program} {whole more : List Item} {done : List Phrase}
    (hitems : p.items = whole ++ more)
    (hmore : FailsInto (afterPhrases done (pure ())) (more.mapM Item.lower)) :
    FailsInto (whole.mapM Item.lower >>= fun _ => afterPhrases done (pure ())) p.lower := by
  unfold Program.lower
  rw [hitems, List.mapM_append]
  exact .trans (.bind fun _ => hmore.trans (.head _ _)) (.head _ _)

theorem Program.lower_cut (h : feed.ending = .error e) (sequel : Feed) (s : Lowering) :
    ∃ e' s', (parse feed).lower s = .error e' s' ∧
      (e' = e ∨ e'.IsSemantic ∧
        ∃ s'', (parse (feed.continued sequel)).lower s = .error e' s'') := by
  have hfuel :
      feed.tokens.length + sequel.tokens.length < (feed.continued sequel).tokens.length + 1 := by
    rw [length_continued]
    exact Nat.lt_succ_self _
  obtain ⟨whole, done, notes, more, hitems, hitems', hblames, hmore⟩ :=
    items_cut ⟨h, Nat.le_refl _⟩ (Nat.lt_succ_self _) hfuel
  have hbroken :
      FailsInto (afterPhrases done (pure ()))
      ([Item.broken done (.lexical e notes)].mapM Item.lower) := by
    rw [List.mapM_cons]
    exact .trans (Item.failsInto_broken done _) (.head _ _)
  cases hrun : (whole.mapM Item.lower >>= fun _ => afterPhrases done (pure ())) s with
  | error e' s' =>
    obtain ⟨s₁, hlower⟩ := (failsInto_program (p := parse feed) hitems hbroken).run hrun
    have hsemantic :
        Blames Error.IsSemantic (whole.mapM Item.lower >>= fun _ => afterPhrases done (pure ())) :=
      (Blames.mapM hblames).bind fun _ => semantic_done done
    exact ⟨e', s₁, hlower,
      .inr ⟨hsemantic hrun, (failsInto_program hitems' hmore).run hrun⟩⟩
  | ok u s' =>
    obtain ⟨faults, s₁, hwhole, hdone⟩ := bind_eq_ok.1 hrun
    obtain ⟨_, s₂, hdone, -⟩ := bind_eq_ok.1 hdone
    obtain ⟨s₃, hlast⟩ : ∃ s₃, (Item.broken done (.lexical e notes)).lower s₁ =
        .error e s₃ :=
      ⟨_, bind_eq_error.2 (.inr ⟨_, s₂, hdone, rfl⟩)⟩
    refine ⟨e, s₃, bind_eq_error.2 (.inl ?_), .inl rfl⟩
    rw [show (parse feed).items = whole ++ [.broken done (.lexical e notes)] from hitems,
      List.mapM_append, List.mapM_cons]
    exact bind_eq_error.2
      (.inr ⟨faults, s₁, hwhole, bind_eq_error.2 (.inl (bind_eq_error.2 (.inl hlast)))⟩)

end Source

theorem Lowering.exists_setup : ∃ entry w, setup {} = .ok entry w := by
  have hsome := isSome_setup?
  unfold setup? at hsome
  split at hsome
  · exact ⟨_, _, ‹_›⟩
  · contradiction

theorem Lowering.within_of_error {x : LowerM α} (hsetup : setup {} = .ok entry w)
    (h : x { toWorkspace := w, entry } = .error e s) : within x {} = .error e s.toWorkspace := by
  simp only [within, bind, EStateM.bind, hsetup, h]

theorem result_of_lower {feed : Feed} (hsetup : Lowering.setup {} = .ok entry w)
    (h : (Source.parse feed).lower { toWorkspace := w, entry } = .error e s) :
    (Report.ofWork (compileFeed feed)).result = .error e := by
  have hlower : lower feed {} = .error e s.toWorkspace :=
    Lowering.within_of_error hsetup (bind_eq_error.2 (.inl h))
  have hcompile : compileFeed feed {} = .error e s.toWorkspace := bind_eq_error.2 (.inl hlower)
  rw [Report.ofWork, hcompile]

theorem result_cut {feed : Feed} (h : feed.ending = .error e) :
    ∃ e', (Report.ofWork (compileFeed feed)).result = .error e' ∧
      (e' = e ∨ e'.IsSemantic ∧
        ∀ sequel, (Report.ofWork (compileFeed (feed.continued sequel))).result = .error e') := by
  obtain ⟨entry, w, hsetup⟩ := Lowering.exists_setup
  obtain ⟨e', s', hlower, hcase⟩ := Source.Program.lower_cut h feed { toWorkspace := w, entry }
  refine ⟨e', result_of_lower hsetup hlower, ?_⟩
  by_cases he : e' = e
  · exact .inl he
  · refine .inr ⟨(hcase.resolve_left he).1, fun sequel => ?_⟩
    obtain ⟨e₁, s₁, hlower₁, hcase₁⟩ :=
      Source.Program.lower_cut h sequel { toWorkspace := w, entry }
    rw [hlower] at hlower₁
    cases hlower₁
    obtain ⟨s₂, hlower₂⟩ := (hcase₁.resolve_left he).2
    exact result_of_lower hsetup hlower₂

theorem compile_of_failure (h : (Feed.ofText source).ending = .error e) :
    ∃ e', compile source = .error e' ∧ (e' = e ∨ e'.IsSemantic ∧
      ∀ more line, compileTokens ((Feed.ofText source).tokens.map (·.1) ++ more) line =
      .error e') := by
  have hend : ((Feed.ofText source).view .plain).ending = .error e := by rw [Feed.view_plain, h]
  obtain ⟨e', hresult, hcase⟩ := result_cut hend
  rw [result_view_plain] at hresult
  refine ⟨e', hresult, hcase.imp_right fun ⟨hsemantic, hmore⟩ =>
    ⟨hsemantic, fun more line => ?_⟩⟩
  have hfeed : ((Feed.ofText source).view .plain).continued (.ofTokens more line) =
      .ofTokens ((Feed.ofText source).tokens.map (·.1) ++ more) line := by
    simp [Feed.view_plain, Feed.continued, Feed.ofTokens, Function.comp_def]
  rw [compileTokens, ← hfeed]
  exact hmore _

/-- If a source has a list of tokens, the scanner delivers these, and the source is compiled as the
list is. If not, the scanner delivers the tokens up to the offending place, and the source fails
with what is wrong there, or with an error in what these tokens mean, whatever comes after them. -/
theorem compile_agrees_with_tokenize (source : String) :
    match tokenize source with
    | .ok tokens =>
      (Scanner.ofText source).Delivers tokens (.ok (1 + source.toList.count '\n')) ∧
        compile source = compileTokens tokens (1 + source.toList.count '\n')
    | .error e => ∃ tokens e', (Scanner.ofText source).Delivers tokens (.error e) ∧
        compile source = .error e' ∧
        (e' = e ∨ e'.IsSemantic ∧
          ∀ more line, compileTokens (tokens ++ more) line = .error e') := by
  have hdelivers := Scanner.delivers_ofText source
  cases hending : (Feed.ofText source).ending with
  | ok line =>
    obtain rfl := Feed.ending_scan (by simp [String.length_toList]) hending
    rw [hending] at hdelivers
    simp only [tokenize, hending, Except.map]
    exact ⟨hdelivers, compile_of_ending hending⟩
  | error e =>
    obtain ⟨e', hcompile, hcase⟩ := compile_of_failure hending
    rw [hending] at hdelivers
    simp only [tokenize, hending, Except.map]
    exact ⟨_, e', hdelivers, hcompile, hcase⟩

-- the product is complete when the word after it has been looked at, and not before
example : failure? "PRINT \"A\" * 2 @" = some (.illegalCharacter 1 '@') ∧
    failure? "PRINT \"A\" * 2 PRINT 1 @" = some (.type 1 (.invalid .str)) := by decide +kernel

end TurtleCompiler
