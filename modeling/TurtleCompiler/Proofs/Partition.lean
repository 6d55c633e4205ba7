import TurtleCompiler.Proofs.ByteCursor
import TurtleCompiler.Proofs.ReadingAhead

/-!
What becomes of a source that is scanned: its tokens cover it but for what is ignored, and a scanner
stands between two characters even after an error.
-/

namespace TurtleCompiler

/-- The tokens stand in a text one after the other, each with the number of its line. Nothing but
what is ignored is before, between and after them. So much of the source comes before the text. -/
inductive Tiles : List Char → List Char → List Token → Prop
  | done {before gap : List Char} : Ignored gap [] → Tiles before gap []
  | token {before gap rest : List Char} {t : Token} {ts : List Token} :
      Ignored gap (t.text.toList ++ rest) → t.text.toList ≠ [] →
        t.line = 1 + (before ++ gap).count '\n' →
        Tiles (before ++ gap ++ t.text.toList) rest ts →
        Tiles before (gap ++ (t.text.toList ++ rest)) (t :: ts)

theorem Feed.tiles_scan {n line : Nat} {input : Input} {before : List Char}
    (hn : input.rest.length < n) (hline : input.line = 1 + before.count '\n')
    (h : (scan n input).ending = .ok line) :
    Tiles before input.rest ((scan n input).tokens.map (·.1)) := by
  induction n generalizing input before with
  | zero => exact absurd hn (Nat.not_lt_zero _)
  | succ n ih =>
    simp only [scan] at h ⊢
    cases hresult : input.next.result with
    | error e => simp [hresult] at h
    | ok token =>
      cases token with
      | none => exact .done (Input.next_none hresult).1
      | some t =>
        obtain ⟨gap, hrest, hgap, hne, ht, hafter⟩ := Input.cut_next hresult
        simp only [hresult] at h
        rw [hrest]
        refine .token hgap hne ?_ (ih ?_ ?_ h)
        · rw [ht, hline, List.count_append, Nat.add_assoc]
        · have hlength := (Input.next_token hresult).2
          omega
        · rw [hafter, ht, hline, List.count_append, List.count_append]
          omega

theorem Feed.length_scan_le (n : Nat) (input : Input) :
    (scan n input).tokens.length ≤ input.rest.length := by
  induction n generalizing input with
  | zero => exact Nat.zero_le _
  | succ n ih =>
    simp only [scan]
    split
    · rename_i hresult
      exact Nat.lt_of_le_of_lt (ih _) (Input.next_token hresult).2
    · exact Nat.zero_le _
    · exact Nat.zero_le _

inductive Cursor.Reached (source : String) : Cursor → Prop
  | start : Reached source ⟨0, 1⟩
  | step {cursor after : Cursor} {result : Except Error (Option Token)} {notes : List Event} :
      Reached source cursor → cursor.next source = some (result, after, notes) →
      Reached source after

theorem Cursor.standsAt_start (source : String) :
    StandsAt source ⟨0, 1⟩ (Scanner.ofText source).input := ⟨[], rfl, rfl⟩

theorem Cursor.Reached.standsAt {source : String} {cursor : Cursor} (h : cursor.Reached source) :
    ∃ input, cursor.StandsAt source input := by
  induction h with
  | start => exact ⟨_, standsAt_start source⟩
  | step _ hnext ih =>
    obtain ⟨input, hinput⟩ := ih
    obtain ⟨after, hafter, hnext'⟩ := hinput.next
    rw [hnext'] at hnext
    obtain ⟨-, rfl, -⟩ : _ ∧ after = _ ∧ _ := by simpa using hnext
    exact ⟨_, hafter⟩

namespace Scanner

def IsReached (source : String) (s : Scanner) : Prop :=
  ∃ cursor : Cursor, cursor.Reached source ∧ cursor.StandsAt source s.input

def Proceeds (source : String) (s s' : Scanner) : Prop := s.IsReached source → s'.IsReached source

instance (source : String) : IsPreorder Scanner (Proceeds source) where
  refl _ h := h
  trans _ _ _ h h' hs := h' (h hs)

variable {source : String} {s : Scanner}

theorem advances_scan : Advances (Proceeds source) scan s := by
  rintro ⟨cursor, hcursor, hstands⟩
  obtain ⟨after, hafter, hnext⟩ := hstands.next
  have hinput : (stateAfter scan s).input = s.input.next.after := by
    unfold stateAfter scan
    cases h : s.input.next.result <;> simp only [h]
  exact ⟨after, hcursor.step hnext, hinput ▸ hafter⟩

theorem advances_fill (n : Nat) : Advances (Proceeds source) (fill n) s := by
  induction n generalizing s with
  | zero => exact .of_pure
  | succ n ih =>
    refine advances_scan.bind fun token _ _ => ?_
    cases token with
    | none => exact .of_pure
    | some t => exact Advances.bind (.of_modify fun h => h) fun _ _ _ => ih

theorem Request.advances_ask (request : Request) : Advances (Proceeds source) request.ask s := by
  cases request with
  | peek n =>
    refine Advances.bind (Advances.of_get.bind fun _ _ _ => (advances_fill _).bind fun _ _ _ => ?_)
      fun _ _ _ => .of_pure
    exact Advances.of_get.bind fun _ _ _ => .of_pure
  | advance =>
    refine Advances.bind (Advances.of_get.bind fun s₁ _ _ => ?_) fun _ _ _ => .of_pure
    split
    · exact advances_scan
    · exact Advances.bind (.of_modify fun h => h) fun _ _ _ => .of_pure
  | line => exact Advances.of_get.bind fun _ _ _ => .of_pure

def askAll (requests : List Request) (s : Scanner) : Scanner :=
  requests.foldl (fun s request => stateAfter request.ask s) s

theorem IsReached.askAll (requests : List Request) (h : s.IsReached source) :
    (s.askAll requests).IsReached source := by
  induction requests generalizing s with
  | nil => exact h
  | cons request requests ih => exact ih (request.advances_ask h)

end Scanner

/-- Token by token a scanner comes to an end. Whatever it is asked for, also after an error, the
cursor with which it moves over the bytes of the source stands between two characters. When the
whole source can be scanned, its tokens stand in it one after the other with nothing but what is
ignored around them, and each one has the line on which it begins. -/
theorem scanning_partitions (source : String) :
    (∃ tokens ending, (Scanner.ofText source).Delivers tokens ending ∧
      tokens.length ≤ source.length ∧ tokenize source = ending.map fun _ => tokens) ∧
    (∀ cursor, Cursor.Reached source cursor →
      (String.Pos.Raw.mk cursor.offset).IsValid source ∧ (cursor.next source).isSome) ∧
    (∀ requests : List Scanner.Request, ∃ cursor after, Cursor.Reached source cursor ∧
      let input := ((Scanner.ofText source).askAll requests).input
      cursor.StandsAt source input ∧
      cursor.next source = some (input.next.result, after, input.next.notes)) ∧
    ∀ tokens, tokenize source = .ok tokens → Tiles [] source.toList tokens := by
  refine ⟨⟨_, _, Scanner.delivers_ofText source, ?_, rfl⟩, fun cursor hcursor => ?_,
    fun requests => ?_, fun tokens htokens => ?_⟩
  · rw [List.length_map, ← String.length_toList]
    exact Feed.length_scan_le _ _
  · obtain ⟨input, hinput⟩ := hcursor.standsAt
    obtain ⟨after, -, hnext⟩ := hinput.next
    exact ⟨hinput.isValid, by rw [hnext]; rfl⟩
  · have hstart : (Scanner.ofText source).IsReached source :=
      ⟨_, .start, Cursor.standsAt_start source⟩
    obtain ⟨cursor, hcursor, hstands⟩ := hstart.askAll requests
    obtain ⟨after, -, hnext⟩ := hstands.next
    exact ⟨cursor, after, hcursor, hstands, hnext⟩
  · obtain ⟨rfl, line, hline⟩ := tokenize_eq_ok.1 htokens
    exact Feed.tiles_scan (by simp [String.length_toList]) rfl hline

theorem scanning_partitions_wide :
    let source := "# größer\nX = 'ä\n→'\tY # 𝄞"
    let tokens : List Token :=
      [⟨.identifier, "X", 2⟩, ⟨.assignOp, "=", 2⟩, ⟨.string, "'ä\n→'", 2⟩,
        ⟨.identifier, "Y", 3⟩]
    tokenize source = .ok tokens ∧ Tiles [] source.toList tokens ∧
      Cursor.Reached source ⟨0, 1⟩ ∧ ((⟨0, 1⟩ : Cursor).next source).isSome := by
  intro source tokens
  have htokens : tokenize source = .ok tokens := by decide +kernel
  obtain ⟨-, hcursor, -, htiles⟩ := scanning_partitions source
  exact ⟨htokens, htiles tokens htokens, .start, (hcursor _ .start).2⟩

end TurtleCompiler
