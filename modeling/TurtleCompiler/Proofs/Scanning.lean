import TurtleCompiler.Feed
import TurtleCompiler.Proofs.Success
import Mathlib.Data.List.TakeWhile

/-!
Scanning a text. Asked for one token after another, whether they are looked at first or not, the
scanner delivers the tokens of the feed.
-/

namespace TurtleCompiler

namespace Munch

def Splits (cs : List Char) : Munch → Prop
  | .token _ text rest => text ≠ [] ∧ text ++ rest = cs
  | .reserved .. | .illegal _ => True

theorem splits_word (c : Char) (cs : List Char) : (word c cs).Splits (c :: cs) := by
  simp [word, Splits]

theorem splits_colonWord (cs : List Char) : (colonWord cs).Splits (':' :: cs) := by
  cases cs with
  | nil => trivial
  | cons c cs =>
    simp only [colonWord]
    split
    · trivial
    · split
      · trivial
      · simp [Splits]

theorem splits_number (c : Char) (cs : List Char) : (number c cs).Splits (c :: cs) := by
  have hcs := List.takeWhile_append_dropWhile (p := Char.isDigit) (l := cs)
  unfold number
  split
  · rename_i rest hrest
    rw [hrest] at hcs
    exact ⟨by simp, by simpa using hcs⟩
  · exact ⟨by simp, by simp⟩

theorem splits_string (quote : Char) (cs : List Char) : (string quote cs).Splits (quote :: cs) := by
  have hcs := List.takeWhile_append_dropWhile (p := (· != quote)) (l := cs)
  unfold string
  split
  · trivial
  · rename_i q rest hrest
    have hquote := List.head?_dropWhile_not (· != quote) cs
    rw [hrest] at hquote hcs
    obtain rfl : q = quote := by simpa using hquote
    exact ⟨by simp, by simpa using hcs⟩

theorem splits_sign (c : Char) (cs : List Char) : (sign c cs).Splits (c :: cs) := by
  unfold sign
  split
  · exact ⟨by simp, by rw [List.cons_append, List.take_append_drop]⟩
  · exact ⟨by simp, rfl⟩
  · trivial

theorem splits_ofText (c : Char) (cs : List Char) : (ofText c cs).Splits (c :: cs) := by
  unfold ofText
  split
  · exact splits_word c cs
  · split
    · rename_i hcolon
      rw [eq_of_beq hcolon]
      exact splits_colonWord cs
    · split
      · exact splits_number c cs
      · split
        · exact splits_string c cs
        · exact splits_sign c cs

end Munch

/-- Blanks, ends of lines and comments in front of a text. A comment goes on to the end of its line.
-/
inductive Ignored : List Char → List Char → Prop
  | nil : Ignored [] rest
  | blank (h : c ∈ [' ', '\t', '\r', '\n']) (hgap : Ignored gap rest) : Ignored (c :: gap) rest
  | comment (h : '\n' ∉ text) (hend : ∀ c ∈ (gap ++ rest).head?, c = '\n')
    (hgap : Ignored gap rest) : Ignored ('#' :: (text ++ gap)) rest

namespace Ignored

variable {c : Char} {gap rest : List Char}

theorem empty (hend : ∀ c ∈ (gap ++ rest).head?, c = '\n') (h : Ignored gap rest) :
    Ignored ('#' :: gap) rest :=
  comment List.not_mem_nil hend h

theorem cons (hc : c ≠ '\n') (h : Ignored ('#' :: gap) rest) :
    Ignored ('#' :: c :: gap) rest := by
  cases h with
  | blank h => simp at h
  | @comment text gap _ h hend hgap =>
    rw [← List.cons_append]
    exact .comment (List.not_mem_cons_of_ne_of_not_mem hc.symm h) hend hgap

end Ignored

namespace Input

def lastLine (input : Input) : Nat := input.line + input.rest.count '\n'

theorem skip_of_nil (comment : Option (List Char)) (line : Nat) :
    (skip comment line []).2 = ⟨[], line⟩ := by
  cases comment <;> rfl

theorem ignored_skip (comment : Option (List Char)) (line : Nat) (cs : List Char) :
    ∃ gap, cs = gap ++ (skip comment line cs).2.rest ∧
      (skip comment line cs).2.line = line + gap.count '\n' ∧
      Ignored (comment.elim gap fun _ => '#' :: gap) (skip comment line cs).2.rest ∧
      ∀ c ∈ (skip comment line cs).2.rest.head?, c ∉ [' ', '\t', '\r', '\n', '#'] := by
  induction cs generalizing comment line with
  | nil =>
    rw [skip_of_nil]
    refine ⟨[], rfl, rfl, ?_, by simp⟩
    cases comment with
    | none => exact .nil
    | some _ => exact .empty (by simp) .nil
  | cons c cs ih =>
    have hother (hc : c ≠ '\n') (gap : List Char) :
        line + gap.count '\n' = line + (c :: gap).count '\n' := by
      rw [List.count_cons_of_ne hc]
    have hnewline (gap : List Char) :
        line + 1 + gap.count '\n' = line + ('\n' :: gap).count '\n' := by
      rw [List.count_cons_self]
      omega
    cases comment with
    | none =>
      simp only [skip]
      split
      · rename_i hblank
        obtain ⟨gap, hcs, hline, hgap, hhead⟩ := ih none line
        have hc : c ∈ [' ', '\t', '\r', '\n'] := by grind
        exact ⟨c :: gap, congrArg (c :: ·) hcs, hline.trans (hother (by grind) gap),
          .blank hc hgap, hhead⟩
      · split
        · rename_i hc
          obtain rfl := eq_of_beq hc
          obtain ⟨gap, hcs, hline, hgap, hhead⟩ := ih none (line + 1)
          exact ⟨_ :: gap, congrArg (_ :: ·) hcs, hline.trans (hnewline gap),
            .blank (by simp) hgap, hhead⟩
        · split
          · rename_i hc
            obtain rfl := eq_of_beq hc
            obtain ⟨gap, hcs, hline, hgap, hhead⟩ := ih (some ['#']) line
            exact ⟨_ :: gap, congrArg (_ :: ·) hcs, hline.trans (hother (by decide) gap),
              hgap, hhead⟩
          · exact ⟨[], rfl, rfl, .nil, by simp_all⟩
    | some text =>
      simp only [skip]
      split
      · rename_i hc
        obtain rfl := eq_of_beq hc
        obtain ⟨gap, hcs, hline, hgap, hhead⟩ := ih none (line + 1)
        exact ⟨_ :: gap, congrArg (_ :: ·) hcs, hline.trans (hnewline gap),
          .empty (by simp) (.blank (by simp) hgap), hhead⟩
      · rename_i hc
        obtain ⟨gap, hcs, hline, hgap, hhead⟩ := ih (some (c :: text)) line
        have hc : c ≠ '\n' := by simpa using hc
        exact ⟨c :: gap, congrArg (c :: ·) hcs, hline.trans (hother hc gap),
          .cons hc hgap, hhead⟩

variable {input : Input}

theorem cut_next {t : Token} (h : input.next.result = .ok (some t)) :
    ∃ gap, input.rest = gap ++ (t.text.toList ++ input.next.after.rest) ∧
      Ignored gap (t.text.toList ++ input.next.after.rest) ∧ t.text.toList ≠ [] ∧
      t.line = input.line + gap.count '\n' ∧
      input.next.after.line = t.line + t.text.toList.count '\n' := by
  obtain ⟨gap, hgap, hline, hignored, -⟩ := ignored_skip none input.line input.rest
  revert h
  simp only [next]
  generalize skip none input.line input.rest = skipped at hgap hline hignored
  obtain ⟨notes, rest, line⟩ := skipped
  cases rest with
  | nil => simp
  | cons c cs =>
    have hsplits := Munch.splits_ofText c cs
    dsimp only
    cases hm : Munch.ofText c cs with
    | token lexeme text rest =>
      rw [hm] at hsplits
      obtain ⟨hne, htext⟩ := hsplits
      intro h
      obtain rfl := Option.some.inj (Except.ok.inj h)
      simp only [String.toList_ofList, htext]
      exact ⟨gap, hgap, hignored, hne, hline, trivial⟩
    | reserved word rest => simp
    | illegal ch => simp

theorem next_token {t : Token} (h : input.next.result = .ok (some t)) :
    input.next.after.lastLine = input.lastLine ∧
    input.next.after.rest.length < input.rest.length := by
  obtain ⟨gap, hrest, -, hne, hline, hafter⟩ := cut_next h
  have hpos := List.length_pos_iff.2 hne
  simp only [lastLine, hrest, List.count_append, List.length_append]
  omega

theorem next_none (h : input.next.result = .ok none) :
    Ignored input.rest [] ∧ input.next.after = ⟨[], input.lastLine⟩ := by
  obtain ⟨gap, hgap, hline, hignored, -⟩ := ignored_skip none input.line input.rest
  revert h
  simp only [next, lastLine]
  generalize skip none input.line input.rest = skipped at hgap hline hignored
  obtain ⟨notes, rest, line⟩ := skipped
  cases rest with
  | nil =>
    rw [List.append_nil] at hgap
    subst hgap
    exact fun _ => ⟨hignored, congrArg (Input.mk []) hline⟩
  | cons c cs => cases hm : Munch.ofText c cs <;> simp [hm]

end Input

theorem Feed.ending_scan {n : Nat} {input : Input} (hn : input.rest.length < n) {line : Nat}
    (h : (scan n input).ending = .ok line) : line = input.lastLine := by
  induction n generalizing input with
  | zero => exact absurd hn (Nat.not_lt_zero _)
  | succ n ih =>
    simp only [scan] at h
    cases hresult : input.next.result with
    | error e => simp [hresult] at h
    | ok token =>
      cases token with
      | none =>
        simp only [hresult, Except.ok.injEq] at h
        exact h ▸ congrArg Input.line (Input.next_none hresult).2
      | some t =>
        obtain ⟨hlast, hlength⟩ := Input.next_token hresult
        simp only [hresult] at h
        rw [ih (by omega) h, hlast]

theorem Feed.steps_of_scan (n : Nat) (input : Input) :
    (∀ t ∈ (scan n input).tokens, ∃ i : Input, i.next.result = .ok (some t.1)) ∧
      ∀ {e}, (scan n input).ending = .error e → ∃ i : Input, i.next.result = .error e := by
  induction n generalizing input with
  | zero => simp [scan]
  | succ n ih =>
    simp only [scan]
    split
    · exact ⟨List.forall_mem_cons.2 ⟨⟨input, ‹_›⟩, (ih _).1⟩, (ih _).2⟩
    · simp
    · rename_i e he
      refine ⟨by simp, fun {e'} h => ?_⟩
      obtain rfl := Except.error.inj h
      exact ⟨input, he⟩

variable {source : String}

theorem tokenize_eq_ok {tokens : List Token} : tokenize source = .ok tokens ↔
    (Feed.ofText source).tokens.map (·.1) = tokens ∧
    ∃ line, (Feed.ofText source).ending = .ok line := by
  unfold tokenize
  cases h : (Feed.ofText source).ending <;> simp [h, Except.map]

namespace Scanner

/-- A scanner that is asked for one token after another gives these, and then comes to this end. It
does not matter whether it is asked to look at a token before it is asked to take it. -/
inductive Delivers : Scanner → List Token → Except Error Nat → Prop
  | token {s looked after : Scanner} {t : Token} {ts : List Token} {ending : Except Error Nat} :
      s.peek 0 = .ok (some t) looked → looked.line = t.line →
        looked.advance = .ok (some t) after → s.advance = .ok (some t) after →
        Delivers after ts ending → Delivers s (t :: ts) ending
  | done {s looked : Scanner} : s.peek 0 = .ok none looked → Delivers s [] (.ok looked.line)
  | failed {s looked : Scanner} {e : Error} : s.peek 0 = .error e looked →
      Delivers s [] (.error e)

theorem delivers_scan {n : Nat} {input : Input} (hn : input.rest.length < n) (notes : List Event) :
    Delivers { input, notes } ((Feed.scan n input).tokens.map (·.1))
    (Feed.scan n input).ending := by
  induction n generalizing input notes with
  | zero => exact absurd hn (Nat.not_lt_zero _)
  | succ n ih =>
    simp only [Feed.scan]
    cases hresult : input.next.result with
    | error e =>
      have hpeek : peek 0 { input, notes } =
          .error e { input := input.next.after, notes := notes ++ input.next.notes } := by
        simp [peek, fill, scan, hresult, bind, EStateM.bind, get_apply]
      exact .failed hpeek
    | ok token =>
      cases token with
      | none =>
        have hpeek : peek 0 { input, notes } =
            .ok none { input := input.next.after, notes := notes ++ input.next.notes } := by
          simp [peek, fill, scan, hresult, bind, EStateM.bind, get_apply, pure, EStateM.pure]
        exact .done hpeek
      | some t =>
        have hnext := ih (Nat.lt_of_lt_of_le (Input.next_token hresult).2 (Nat.le_of_lt_succ hn))
          (notes ++ input.next.notes)
        have hpeek : peek 0 { input, notes } =
            .ok (some t)
              { input := input.next.after, ahead := [t], notes := notes ++ input.next.notes } := by
          simp [peek, fill, scan, hresult, bind, EStateM.bind, get_apply, pure,
            EStateM.pure, modify_apply]
        refine .token hpeek rfl rfl ?_ hnext
        simp [advance, scan, hresult, bind, EStateM.bind, get_apply]

theorem delivers_ofText (source : String) :
    (ofText source).Delivers ((Feed.ofText source).tokens.map (·.1)) (Feed.ofText source).ending :=
  delivers_scan (by simp [String.length_toList]) []

end Scanner

end TurtleCompiler
