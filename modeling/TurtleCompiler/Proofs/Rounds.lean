import TurtleCompiler.Proofs.Lookahead
import TurtleCompiler.Proofs.Passage

/-!
The rounds of the parser. Each of them takes a token, so that the parser comes to an end whatever it
meets, and a fault that it has met is not forgotten.
-/

namespace TurtleCompiler

namespace Source

/-- The rounds in which a feed is parsed: each takes a token at least, until none is left or the
next cannot be scanned. After a syntax fault the token that it was found at is dropped. -/
inductive Rounds : Feed → Program → Prop
  | ended {feed : Feed} : feed.tokens = [] → feed.ending = .ok line →
      Rounds feed ⟨[], site feed line⟩
  | unscanned {feed : Feed} : feed.tokens = [] → feed.ending = .error e →
      Rounds feed ⟨[.broken [] (.lexical e feed.notes)], ⟨0, []⟩⟩
  | stopped {feed : Feed} : item feed = .error ⟨done, .lexical e notes, rest⟩ →
      Rounds feed ⟨[.broken done (.lexical e notes)], ⟨0, []⟩⟩
  | parsed {feed rest : Feed} : item feed = .ok (i, rest) →
      rest.tokens.length < feed.tokens.length → Rounds rest program →
      Rounds feed { program with items := i :: program.items }
  | skipped {feed rest : Feed} : item feed = .error ⟨done, .grammatical fault spot, rest⟩ →
      (settled rest).advance.tokens.length < feed.tokens.length →
      Rounds (settled rest).advance program →
      Rounds feed { program with items := .broken done (.grammatical fault spot) :: program.items }

theorem length_advance_lt {feed rest : Feed} {entry : Token × List Event}
    {tokens : List (Token × List Event)} (htokens : feed.tokens = entry :: tokens)
    (h : rest.tokens.length ≤ feed.tokens.length) :
    (settled rest).advance.tokens.length < feed.tokens.length := by
  rw [htokens, List.length_cons] at h ⊢
  unfold Feed.advance
  split
  · rename_i hrest
    simp [hrest]
  · rename_i hrest
    rw [show rest.tokens = _ from hrest, List.length_cons] at h
    exact h

theorem rounds_items {fuel : Nat} {feed : Feed} (h : feed.tokens.length < fuel) :
    Rounds feed (items fuel feed) := by
  induction fuel generalizing feed with
  | zero => exact absurd h (Nat.not_lt_zero _)
  | succ fuel ih =>
    rw [items]
    split
    · split
      · exact .ended ‹_› ‹_›
      · exact .unscanned ‹_› ‹_›
    · rename_i htokens
      split
      · rename_i hi
        have hrest := length_of_item hi
        exact .parsed hi hrest (ih (by omega))
      · exact .stopped ‹_›
      · rename_i rest hi
        have hsupplies : feed.Supplies (fun _ => True) (fun _ => True) feed.tokens.length :=
          ⟨by simp, trivial, Nat.le_refl _⟩
        have hfailure := draws_item hsupplies
        rw [hi] at hfailure
        have hrest : (settled rest).advance.tokens.length < _ :=
          length_advance_lt htokens hfailure.rest.length
        exact .skipped hi hrest (ih (by omega))

end Source

namespace Table

variable {t t' : Table} {reach : Reach} {name : String} {cls : SymbolClass} {line : Option Nat}
  {f : Fields} {id : SymbolId}

theorem Edits.depth (h : t.Edits t') : t'.depth = t.depth := congrArg List.length h.scopes

theorem depth_declare (h : declare reach name cls line f t = .ok id t') : t'.depth = t.depth := by
  rcases declare_eq_ok h with ⟨-, -, rfl⟩ | ⟨-, -, -, kind, -, rfl⟩
  · rfl
  · exact List.length_modify ..

theorem Steps.depth {names : List String} {setting : Prop} (h : Steps names setting t t') :
    t'.depth = t.depth := by
  induction h with
  | refl => rfl
  | tail _ hstep ih =>
    refine Eq.trans ?_ ih
    cases hstep with
    | var _ _ _ hd | routine hd => exact depth_declare hd
    | use hc => exact (Counts.countUsage hc).depth
    | value _ _ hset => exact (edits_setValue hset).depth

end Table

namespace Lowering

variable {s s' : Lowering} {name : String} {line : Nat} {params : List String} {id : SymbolId}

theorem Declares.depth {ids : List SymbolId} (h : Declares line s params ids s') :
    s'.table.depth = s.table.depth := by
  induction h with
  | nil => rfl
  | cons hd _ ih => exact ih.trans (Table.depth_declare hd)

theorem depth_beginProcedure (h : beginProcedure name line params s = .ok id s') :
    s'.table.depth = s.table.depth + 1 := by
  obtain ⟨t₁, ids, s₂, s₃, j, t₄, hd, hparams, huse, hd', rfl⟩ :=
    openProcedure_eq_ok (beginProcedure_eq_ok h).2
  calc t₄.depth = s₃.table.depth := Table.depth_declare hd'
    _ = s₂.table.depth := (counts_params huse).depth
    _ = ((s.setTable t₁).openScope name).table.depth := hparams.depth
    _ = t₁.depth + 1 := rfl
    _ = s.table.depth + 1 := by rw [Table.depth_declare hd]

theorem depth_endProcedure {body : List Node} {u : Unit} (h : endProcedure id body s = .ok u s') :
    s'.table.depth + 1 = s.table.depth := by
  obtain ⟨t, scope, scopes, hset, hscopes, rfl⟩ := endProcedure_eq_ok h
  have hclosed : ((s.setTable t).closeScope scope scopes).table.depth + 1 = t.depth := by
    rw [Table.depth, Table.depth, scopes_closeScope, hscopes, List.length_cons]
  obtain ⟨-, rfl⟩ := Table.setCode_eq_ok hset
  exact hclosed

end Lowering

namespace Source

def Item.fault? : Item → Option Error
  | .broken _ (.grammatical fault site) => some (.unparsed site.line fault)
  | _ => none

/-- How the lowering of a program ends: with the first error that stops it; else with the first
syntax fault; else because there is nothing to lower; and else with as many open scopes as in the
beginning. -/
inductive Program.Ends (p : Program) (ending : Except Error Nat) (s : Lowering) :
    EStateM.Result Error Lowering Unit → Prop
  | stopped : p.items = before ++ i :: after → before.mapM Item.lower s = .ok faults s₁ →
      i.lower s₁ = .error e s' → e.IsSemantic ∨ ending = .error e →
      Ends p ending s (.error e s')
  | faulty : p.items.mapM Item.lower s = .ok faults s₁ →
      p.items.findSome? Item.fault? = some e → Ends p ending s (.error e s')
  | empty : p.items = [] → Ends p ending s (.error (.unparsed p.site.line .emptyProgram) s')
  | done : p.items ≠ [] → p.items.mapM Item.lower s = .ok faults s₁ →
      p.items.findSome? Item.fault? = none → s'.table.depth = s.table.depth →
      Ends p ending s (.ok ⟨⟩ s')

variable {s s' : Lowering} {e : Error} {i : Item} {items : List Item} {faults : List (Option Error)}
  {ending : Except Error Nat}

theorem Item.Becomes.depth (h : i.Becomes s s') : s'.table.depth = s.table.depth := by
  cases h with
  | statement hn => exact hn.steps.depth
  | definition hbegin hbody hend =>
    have hopened := Lowering.depth_beginProcedure hbegin
    have hclosed := Lowering.depth_endProcedure hend
    exact Nat.succ.inj ((hclosed.trans hbody.steps.depth).trans hopened)

theorem Item.fault_of_lower {fault : Option Error} (h : i.lower s = .ok fault s') :
    fault = i.fault? := by
  cases i with
  | statement | definition => exact (Item.becomes rfl h).2
  | broken done f =>
    obtain ⟨_, s₁, -, h⟩ := bind_eq_ok.1 h
    cases f with
    | lexical e notes => simp [bind_eq_ok] at h
    | grammatical fault site =>
      simp only [bind_eq_ok, pure_eq_ok] at h
      obtain ⟨_, _, -, _, _, -, rfl, -⟩ := h
      rfl

theorem faults_of_lower (h : items.mapM Item.lower s = .ok faults s') :
    faults = items.map Item.fault? := by
  induction items generalizing s faults with
  | nil => exact (pure_eq_ok.1 h).1.symm
  | cons i items ih =>
    obtain ⟨fault, s₁, hi, faults, hitems, rfl⟩ := mapM_cons_eq_ok.1 h
    rw [List.map_cons, ← Item.fault_of_lower hi, ← ih hitems]

theorem depth_lower_items (hcomplete : ∀ i ∈ items, i.isComplete)
    (h : items.mapM Item.lower s = .ok faults s') : s'.table.depth = s.table.depth := by
  induction items generalizing s faults with
  | nil =>
    obtain ⟨-, rfl⟩ := pure_eq_ok.1 h
    rfl
  | cons i items ih =>
    obtain ⟨fault, s₁, hi, faults, hitems, rfl⟩ := mapM_cons_eq_ok.1 h
    rw [List.forall_mem_cons] at hcomplete
    exact (ih hcomplete.2 hitems).trans (Item.becomes hcomplete.1 hi).1.depth

theorem Item.error_cases (hi : i.ComesFrom (fun _ => True) (· = ending))
    (h : i.lower s = .error e s') : e.IsSemantic ∨ ending = .error e := by
  cases i with
  | statement | definition => exact .inl (Item.semantic_lower rfl h)
  | broken done f =>
    cases f with
    | grammatical fault site => exact .inl (semantic_grammatical done fault site h)
    | lexical e' notes =>
      rcases bind_eq_error.1 h with h | ⟨_, s₁, -, h⟩
      · exact .inl (Blames.forM (fun p _ => p.semantic_lower) h)
      · rcases bind_eq_error.1 h with h | ⟨_, s₂, -, h⟩
        · exact absurd h modify_ne_error
        · obtain ⟨rfl, -⟩ := throw_eq_error.1 h
          exact .inr hi.2.symm

theorem Program.ends {p : Program}
    (hp : ∀ i ∈ p.items, i.ComesFrom (fun _ => True) (· = ending)) (s : Lowering) :
    p.Ends ending s (p.lower s) := by
  cases h : p.lower s with
  | ok u s' =>
    obtain ⟨faults, s₁, hitems, hnone, henter⟩ := Program.lower_eq_ok h
    have hfaults := faults_of_lower hitems
    have hdepth := depth_lower_items (complete_of_lower hitems hnone) hitems
    obtain rfl := Lowering.enter_eq_ok.1 henter
    refine .done (Program.items_ne_nil h) hitems ?_ hdepth
    subst hfaults
    simpa using hnone
  | error e s' =>
    simp only [Program.lower, bind_eq_error] at h
    rcases h with h | ⟨faults, s₁, hitems, h | ⟨_, s₂, -, h⟩⟩
    · obtain ⟨before, i, after, faults, s₁, heq, hbefore, hi⟩ := mapM_eq_error h
      exact .stopped heq hbefore hi (Item.error_cases (hp i (by simp [heq])) hi)
    · exact absurd h modify_ne_error
    · split at h
      · rename_i hempty
        rcases bind_eq_error.1 h with h | ⟨_, _, -, h⟩
        · cases h
        · obtain ⟨rfl, -⟩ := throw_eq_error.1 h
          exact .empty (List.isEmpty_iff.1 hempty)
      · rw [faults_of_lower hitems, List.findSome?_map, Function.id_comp] at h
        cases hfault : p.items.findSome? Item.fault? with
        | none =>
          rw [hfault] at h
          exact absurd h pure_ne_error
        | some e' =>
          rw [hfault] at h
          obtain ⟨rfl, -⟩ := throw_eq_error.1 h
          exact .faulty hitems hfault

end Source

/-- A feed is parsed in rounds that come to an end, and the lowering of what they give ends with the
first lexical or semantic error, or else with the first syntax fault. -/
theorem rounds_and_ends_of_parse (feed : Feed) (s : Lowering) :
    Source.Rounds feed (Source.parse feed) ∧
    (Source.parse feed).Ends feed.ending s ((Source.parse feed).lower s) :=
  ⟨Source.rounds_items (Nat.lt_succ_self _),
    Source.Program.ends (Source.comesFrom_parse (fun _ _ => trivial) rfl) s⟩

end TurtleCompiler
