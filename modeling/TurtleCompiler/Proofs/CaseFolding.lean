import TurtleCompiler.Proofs.ListingViews

/-!
Letters in source texts. Upper and lower case are told apart in string literals only.
-/

namespace TurtleCompiler

section Characters

variable {c : Char}

theorem toUpper_of_not_isLower (h : ¬c.isLower) : c.toUpper = c := by
  delta Char.isLower at h
  simp only [Bool.and_eq_true, decide_eq_true_eq] at h
  exact dif_neg h

theorem isUpper_toUpper (h : c.isLower) : c.toUpper.isUpper := by
  delta Char.toUpper Char.isLower Char.isUpper at *
  grind

theorem not_isLower_of_isUpper (h : c.isUpper) : ¬c.isLower := by
  delta Char.isLower Char.isUpper at *
  grind

theorem isAlpha_eq (c : Char) : c.isAlpha = (c.isUpper || c.isLower) := rfl

theorem isAlpha_toUpper (c : Char) : c.toUpper.isAlpha = c.isAlpha := by
  by_cases h : c.isLower
  · simp [isAlpha_eq, isUpper_toUpper h, h]
  · rw [toUpper_of_not_isLower h]

theorem toUpper_of_not_isAlpha (h : ¬c.isAlpha) : c.toUpper = c :=
  toUpper_of_not_isLower fun hlower => h (by simp [isAlpha_eq, hlower])

theorem toUpper_toUpper (c : Char) : c.toUpper.toUpper = c.toUpper := by
  by_cases h : c.isLower
  · exact toUpper_of_not_isLower (not_isLower_of_isUpper (isUpper_toUpper h))
  · rw [toUpper_of_not_isLower h, toUpper_of_not_isLower h]

theorem isDigit_toUpper (c : Char) : c.toUpper.isDigit = c.isDigit := by
  by_cases h : c.isAlpha
  · rw [not_isDigit_of_isAlpha h, not_isDigit_of_isAlpha (isAlpha_toUpper c ▸ h)]
  · rw [toUpper_of_not_isAlpha h]

theorem toUpper_beq (c : Char) {d : Char} (hd : ¬d.isAlpha) : (c.toUpper == d) = (c == d) := by
  rw [Bool.eq_iff_iff, beq_iff_eq, beq_iff_eq, toUpper_eq_iff hd]

theorem isWordStart_toUpper (c : Char) : isWordStart c.toUpper = isWordStart c := by
  rw [isWordStart, isWordStart, isAlpha_toUpper, toUpper_beq c (by decide)]

theorem isWordChar_toUpper (c : Char) : isWordChar c.toUpper = isWordChar c := by
  simp only [isWordChar, Char.isAlphanum, isAlpha_toUpper, isDigit_toUpper,
    toUpper_beq c (d := '_') (by decide)]

end Characters

def View.caseless : View where
  char := Char.toUpper
  toUpper_char := toUpper_toUpper
  char_char := toUpper_toUpper
  line_line := id_eq
  line_zero := id_zero

@[simp] theorem View.line_caseless (n : Nat) : caseless.line n = n := rfl

inductive Region where
  | code
  | comment
  | literal (quote : Char)

def foldCase : Region → List Char → List Char
  | _, [] => []
  | .code, c :: cs =>
    if c = '#' then c :: foldCase .comment cs
    else if (c = '\'' ∨ c = '"') ∧ c ∈ cs then c :: foldCase (.literal c) cs
    else c.toUpper :: foldCase .code cs
  | .comment, c :: cs => c.toUpper :: foldCase (if c = '\n' then .code else .comment) cs
  | .literal quote, c :: cs => c :: foldCase (if c = quote then .code else .literal quote) cs

def IsOrdinary (c : Char) : Prop := c ≠ '#' ∧ c ≠ '\'' ∧ c ≠ '"'

section Fold

variable {c : Char} {cs : List Char} {p : Char → Bool}

theorem foldCase_nil (region : Region) : foldCase region [] = [] := by
  cases region <;> rfl

theorem foldCase_ordinary (h : IsOrdinary c) (cs : List Char) :
    foldCase .code (c :: cs) = c.toUpper :: foldCase .code cs := by
  obtain ⟨hc, hq, hq'⟩ := h
  simp [foldCase, hc, hq, hq']

theorem foldCase_head (c : Char) (cs : List Char) :
    ∃ cs', foldCase .code (c :: cs) = c.toUpper :: cs' := by
  simp only [foldCase]
  split
  · exact ⟨_, by subst c; rfl⟩
  · split
    · rename_i hq
      rcases hq.1 with rfl | rfl <;> exact ⟨_, rfl⟩
    · exact ⟨_, rfl⟩

theorem takeWhile_foldCase (hupper : ∀ c, p c.toUpper = p c) (hp : ∀ c, p c → IsOrdinary c)
    (cs : List Char) :
    (foldCase .code cs).takeWhile p = (cs.takeWhile p).map Char.toUpper ∧
      (foldCase .code cs).dropWhile p = foldCase .code (cs.dropWhile p) := by
  induction cs with
  | nil => simp [foldCase_nil]
  | cons c cs ih =>
    by_cases hc : p c
    · simp [foldCase_ordinary (hp c hc), hupper, hc, ih]
    · obtain ⟨cs', hcs'⟩ := foldCase_head c cs
      simp [hcs', hupper, hc]

theorem isOrdinary_of_isWordChar (c : Char) (h : isWordChar c) : IsOrdinary c := by
  refine ⟨?_, ?_, ?_⟩ <;> rintro rfl <;> revert h <;> decide

theorem isOrdinary_of_isDigit (c : Char) (h : c.isDigit) : IsOrdinary c := by
  refine ⟨?_, ?_, ?_⟩ <;> rintro rfl <;> revert h <;> decide

theorem length_foldCase (region : Region) (cs : List Char) :
    (foldCase region cs).length = cs.length := by
  induction cs generalizing region with
  | nil => rw [foldCase_nil]
  | cons c cs ih =>
    cases region with
    | code =>
      simp only [foldCase]
      split
      · simp [ih]
      · split <;> simp [ih]
    | comment | literal => simp [foldCase, ih]

theorem mem_foldCase {d : Char} {region : Region} (h : d ∈ foldCase region cs) :
    ∃ c ∈ cs, c = d ∨ c.toUpper = d := by
  induction cs generalizing region with
  | nil => simp [foldCase_nil] at h
  | cons c cs ih =>
    have hcons {c' : Char} {region' : Region} (hc' : c = c' ∨ c.toUpper = c')
        (h : d ∈ c' :: foldCase region' cs) : ∃ c' ∈ c :: cs, c' = d ∨ c'.toUpper = d := by
      rcases List.mem_cons.1 h with rfl | h
      · exact ⟨c, by simp, hc'⟩
      · obtain ⟨c', hmem, hc'⟩ := ih h
        exact ⟨c', List.mem_cons_of_mem _ hmem, hc'⟩
    cases region with
    | code =>
      simp only [foldCase] at h
      split at h
      · exact hcons (.inl rfl) h
      · split at h
        · exact hcons (.inl rfl) h
        · exact hcons (.inr rfl) h
    | comment => exact hcons (.inr rfl) h
    | literal quote => exact hcons (.inl rfl) h

theorem foldCase_literal {quote : Char} (h : quote ∈ cs) :
    ∃ rest, cs.dropWhile (· != quote) = quote :: rest ∧
    (foldCase (.literal quote) cs).takeWhile (· != quote) = cs.takeWhile (· != quote) ∧
    (foldCase (.literal quote) cs).dropWhile (· != quote) = quote :: foldCase .code rest := by
  induction cs with
  | nil => contradiction
  | cons c cs ih =>
    by_cases hc : c = quote
    · exact ⟨cs, by simp [hc], by simp [foldCase, hc], by simp [foldCase, hc]⟩
    · obtain ⟨rest, hrest, htake, hdrop⟩ := ih ((List.mem_cons.1 h).resolve_left (Ne.symm hc))
      exact ⟨rest, by simp [hc, hrest], by simp [foldCase, hc,
        htake], by simp [foldCase, hc, hdrop]⟩

end Fold

def Input.folded (input : Input) : Input := ⟨foldCase .code input.rest, input.line⟩

theorem Input.skip_foldCase (line : Nat) (cs : List Char) :
    (skip none line (foldCase .code cs)).2 = (skip none line cs).2.folded ∧
      ∀ text text', (skip (some text) line (foldCase .comment cs)).2 =
      (skip (some text') line cs).2.folded := by
  induction cs generalizing line with
  | nil => simp [foldCase_nil, skip, folded]
  | cons c cs ih =>
    have hblank {d : Char} (hd : ¬d.isAlpha) : (c.toUpper == d) = (c == d) := toUpper_beq c hd
    constructor
    · by_cases hcomment : c = '#'
      · subst c
        simpa [foldCase, skip] using (ih line).2 ['#'] ['#']
      · obtain ⟨cs', hcs'⟩ := foldCase_head c cs
        simp only [skip]
        rw [hcs']
        simp only [skip, hblank (d := ' ') (by decide), hblank (d := '\t') (by decide),
          hblank (d := '\r') (by decide), hblank (d := '\n') (by decide),
          hblank (d := '#') (by decide)]
        have hordinary (hc : IsOrdinary c) : cs' = foldCase .code cs := by
          rw [foldCase_ordinary hc] at hcs'
          exact (List.cons.inj hcs').2.symm
        split
        · rename_i hc
          rw [hordinary ⟨hcomment, by rintro rfl; simp at hc, by rintro rfl; simp at hc⟩]
          exact (ih line).1
        · split
          · rename_i hc
            rw [hordinary ⟨hcomment, by rintro rfl; simp at hc, by rintro rfl; simp at hc⟩]
            exact (ih (line + 1)).1
          · simp [hcomment, folded, hcs']
    · intro text text'
      simp only [foldCase, skip, hblank (d := '\n') (by decide)]
      by_cases hc : c = '\n'
      · simp [hc, (ih (line + 1)).1]
      · simpa [hc] using (ih line).2 _ _

namespace Munch

def folded : Munch → Munch
  | .token lexeme text rest =>
    .token lexeme (View.caseless.text lexeme (String.ofList text)).toList (foldCase .code rest)
  | .reserved word rest => .reserved (word.map Char.toUpper) (foldCase .code rest)
  | .illegal ch => .illegal ch

theorem name_caseless (text : List Char) :
    (View.caseless.name (String.ofList text)).toList = text.map Char.toUpper := by
  simp [View.name, View.caseless]

theorem ofWord_toUpper (text : List Char) :
    Lexeme.ofWord (String.ofList (text.map Char.toUpper)) = Lexeme.ofWord (String.ofList text) := by
  have hupper : (String.ofList (text.map Char.toUpper)).toUpper = (String.ofList text).toUpper := by
    apply String.toList_injective
    simp only [toList_toUpper, String.toList_ofList, List.map_map]
    exact List.map_congr_left fun c _ => toUpper_toUpper c
  rw [Lexeme.ofWord, hupper, Lexeme.ofWord]

theorem text_ofWord (v : View) (word text : String) :
    v.text (Lexeme.ofWord word) text = v.name text := by
  unfold Lexeme.ofWord
  split <;> rfl

variable {c quote : Char} {cs : List Char}

theorem folded_word : word c.toUpper (foldCase .code cs) = (word c cs).folded := by
  obtain ⟨htake, hdrop⟩ := takeWhile_foldCase isWordChar_toUpper isOrdinary_of_isWordChar cs
  simp only [word, folded, htake, hdrop, text_ofWord, name_caseless]
  rw [← List.map_cons, ofWord_toUpper]

theorem folded_colonWord : colonWord (foldCase .code cs) = (colonWord cs).folded := by
  cases cs with
  | nil => rw [foldCase_nil]; rfl
  | cons c cs =>
    by_cases hc : isWordStart c
    · have hordinary : IsOrdinary c := isOrdinary_of_isWordChar c (isWordChar_of_isWordStart hc)
      obtain ⟨htake, hdrop⟩ := takeWhile_foldCase isWordChar_toUpper isOrdinary_of_isWordChar cs
      rw [foldCase_ordinary hordinary]
      simp only [colonWord, isWordStart_toUpper, hc, htake, hdrop]
      rw [← List.map_cons, ofWord_toUpper]
      split
      · rfl
      · split
        · rfl
        · simp only [folded, View.text, name_caseless]
          rfl
    · obtain ⟨cs', hcs'⟩ := foldCase_head c cs
      rw [hcs']
      simp [colonWord, isWordStart_toUpper, hc, folded]

theorem map_toUpper_of_isDigit {ds : List Char} (h : ∀ d ∈ ds, d.isDigit) :
    ds.map Char.toUpper = ds := by
  have hdigit (d : Char) (hd : d ∈ ds) : d.toUpper = d :=
    toUpper_of_not_isAlpha fun halpha => by simpa [not_isDigit_of_isAlpha halpha] using h d hd
  exact (List.map_congr_left hdigit).trans (List.map_id ds)

theorem number_of_point {rest : List Char}
    (h : cs.dropWhile Char.isDigit = '.' :: rest) : number c cs =
    .token .number (c :: cs.takeWhile Char.isDigit ++ '.' :: rest.takeWhile Char.isDigit)
    (rest.dropWhile Char.isDigit) := by
  simp [number, h]

theorem number_of_whole (h : (cs.dropWhile Char.isDigit).head? ≠ some '.') :
    number c cs = .token .number (c :: cs.takeWhile Char.isDigit) (cs.dropWhile Char.isDigit) := by
  unfold number
  split
  · simp_all
  · rfl

theorem digits_foldCase (cs : List Char) :
    (foldCase .code cs).takeWhile Char.isDigit = cs.takeWhile Char.isDigit ∧
    (foldCase .code cs).dropWhile Char.isDigit = foldCase .code (cs.dropWhile Char.isDigit) := by
  obtain ⟨htake, hdrop⟩ := takeWhile_foldCase isDigit_toUpper isOrdinary_of_isDigit cs
  refine ⟨htake.trans (map_toUpper_of_isDigit fun d hd => ?_), hdrop⟩
  exact List.all_eq_true.1 List.all_takeWhile d hd

theorem head?_foldCase (cs : List Char) :
    (foldCase .code cs).head? = cs.head?.map Char.toUpper := by
  cases cs with
  | nil => rw [foldCase_nil]; rfl
  | cons c cs =>
    obtain ⟨cs', hcs'⟩ := foldCase_head c cs
    simp [hcs']

theorem folded_number : number c (foldCase .code cs) = (number c cs).folded := by
  obtain ⟨htake, hdrop⟩ := digits_foldCase cs
  by_cases hpoint : (cs.dropWhile Char.isDigit).head? = some '.'
  · obtain ⟨rest, hrest⟩ := List.head?_eq_some_iff.1 hpoint
    obtain ⟨htake', hdrop'⟩ := digits_foldCase rest
    have hfold : (foldCase .code cs).dropWhile Char.isDigit = '.' :: foldCase .code rest := by
      rw [hdrop, hrest, foldCase_ordinary (by simp [IsOrdinary])]
      rfl
    rw [number_of_point hrest, number_of_point hfold, htake, htake', hdrop']
    simp [folded, View.text]
  · have hfold : ((foldCase .code cs).dropWhile Char.isDigit).head? ≠ some '.' := by
      rw [hdrop, head?_foldCase]
      simpa [Option.map_eq_some_iff, toUpper_eq_iff] using hpoint
    rw [number_of_whole hpoint, number_of_whole hfold, htake, hdrop]
    simp [folded, View.text]

theorem folded_string (h : quote ∈ cs) :
    string quote (foldCase (.literal quote) cs) = (string quote cs).folded := by
  obtain ⟨rest, hrest, htake, hdrop⟩ := foldCase_literal h
  simp [string, hrest, htake, hdrop, folded, View.text, View.caseless]

theorem string_of_not_mem (h : quote ∉ cs) : string quote cs = .illegal quote := by
  have hnil : cs.dropWhile (· != quote) = [] := by
    simp only [List.dropWhile_eq_nil_iff, bne_iff_ne]
    exact fun c hc he => h (he ▸ hc)
  rw [string, hnil]

theorem pair?_toUpper (c d : Char) : pair? c d.toUpper = pair? c d := by
  by_cases hd : d.isAlpha
  · have hnone {d : Char} (hd : d.isAlpha) : pair? c d = none := by
      unfold pair?
      split <;> simp_all
    rw [hnone hd, hnone (isAlpha_toUpper d ▸ hd)]
  · rw [toUpper_of_not_isAlpha hd]

theorem folded_sign : sign c (foldCase .code cs) = (sign c cs).folded := by
  have hpair : (foldCase .code cs).head?.bind (pair? c) = cs.head?.bind (pair? c) := by
    rw [head?_foldCase]
    cases cs.head? with
    | none => rfl
    | some d => exact pair?_toUpper c d
  unfold sign
  rw [hpair]
  cases h : cs.head?.bind (pair? c) with
  | some lexeme =>
    obtain ⟨d, hd, hlexeme⟩ := Option.bind_eq_some_iff.1 h
    obtain ⟨cs, rfl⟩ := List.head?_eq_some_iff.1 hd
    have hd : foldCase .code (d :: cs) = d :: foldCase .code cs := by
      unfold pair? at hlexeme
      split at hlexeme <;> first | contradiction | exact foldCase_ordinary (by simp [IsOrdinary]) cs
    have htext (s : String) : View.caseless.text lexeme s = s := by
      unfold pair? at hlexeme
      split at hlexeme <;> first | contradiction | (cases hlexeme; rfl)
    simp [folded, hd, htext]
  | none =>
    cases hsingle : single? c with
    | none => rfl
    | some lexeme =>
      have htext (s : String) : View.caseless.text lexeme s = s := by
        unfold single? at hsingle
        split at hsingle <;> first | contradiction | (cases hsingle; rfl)
      simp [folded, htext]

theorem ofText_foldCase (hc : c ≠ '#') (cs : List Char) :
    ∃ c' cs', foldCase .code (c :: cs) = c' :: cs' ∧ ofText c' cs' = (ofText c cs).folded := by
  by_cases hquote : c = '\'' ∨ c = '"'
  · have hstring (cs : List Char) : ofText c cs = string c cs := by
      rcases hquote with rfl | rfl <;> rfl
    by_cases hmem : c ∈ cs
    · refine ⟨c, foldCase (.literal c) cs, by simp [foldCase, hc, hquote, hmem], ?_⟩
      rw [hstring, hstring, folded_string hmem]
    · have hupper : c.toUpper = c := by
        rcases hquote with rfl | rfl <;> rfl
      have hmem' : c ∉ foldCase .code cs := by
        intro h
        obtain ⟨d, hd, hcase⟩ := mem_foldCase h
        have hdc : d = c := hcase.elim id fun h =>
          (toUpper_eq_iff (by rcases hquote with rfl | rfl <;> decide)).1 h
        exact hmem (hdc ▸ hd)
      refine ⟨c, foldCase .code cs, by simp [foldCase, hc, hmem, hupper], ?_⟩
      rw [hstring, hstring, string_of_not_mem hmem, string_of_not_mem hmem', folded]
  · have hordinary : IsOrdinary c := ⟨hc, by simpa using hquote⟩
    refine ⟨c.toUpper, foldCase .code cs, foldCase_ordinary hordinary cs, ?_⟩
    by_cases hword : isWordStart c
    · simp only [ofText, isWordStart_toUpper, hword, if_true, folded_word]
    · have hupper : c.toUpper = c := by
        refine toUpper_of_not_isAlpha fun halpha => hword ?_
        simp [isWordStart, halpha]
      rw [hupper]
      simp only [ofText, hword, Bool.false_eq_true, if_false]
      split
      · exact folded_colonWord
      · split
        · exact folded_number
        · rw [if_neg (by simpa using hquote), if_neg (by simpa using hquote)]
          exact folded_sign

end Munch

theorem count_map_toUpper (text : List Char) :
    (text.map Char.toUpper).count '\n' = text.count '\n' := by
  induction text with
  | nil => rfl
  | cons c text ih => simp [List.count_cons, ih, toUpper_beq c (d := '\n') (by decide)]

theorem count_text_caseless (lexeme : Lexeme) (text : List Char) :
    (View.caseless.text lexeme (String.ofList text)).toList.count '\n' = text.count '\n' := by
  have hname : (View.caseless.name (String.ofList text)).toList.count '\n' = text.count '\n' := by
    rw [Munch.name_caseless, count_map_toUpper]
  cases lexeme with
  | string | number | assignOp | relOp | addOp | mulOp | powOp | openParen | closeParen =>
    simp [View.text, View.caseless]
  | _ => exact hname

namespace Input

theorem next_folded (input : Input) :
    input.folded.next.result = (input.next.result.map (Option.map (Token.view .caseless))).mapError
      (Error.view .caseless) ∧ input.folded.next.after = input.next.after.folded := by
  have hskip := (skip_foldCase input.line input.rest).1
  obtain ⟨-, -, -, -, hhead⟩ := ignored_skip none input.line input.rest
  simp only [next]
  change (skip none input.folded.line input.folded.rest).2 = _ at hskip
  generalize skip none input.folded.line input.folded.rest = skipped' at hskip
  generalize skip none input.line input.rest = skipped at hskip hhead
  obtain ⟨notes, rest, line⟩ := skipped
  obtain ⟨notes', after⟩ := skipped'
  obtain rfl : after = _ := hskip
  cases rest with
  | nil => exact ⟨rfl, rfl⟩
  | cons c cs =>
    have hne : c ≠ '#' := by
      rintro rfl
      simp at hhead
    obtain ⟨c', cs', hfold, hmunch⟩ := Munch.ofText_foldCase hne cs
    simp only [folded, hfold]
    rw [hmunch]
    cases Munch.ofText c cs with
    | token lexeme text rest => simp [Munch.folded, count_text_caseless, Except.map, Token.view]
    | reserved word rest => simp [Munch.folded, ← Munch.name_caseless, Except.map, Error.view]
    | illegal ch => simp [Munch.folded, hfold, Except.map, Error.view]

end Input

theorem Feed.scan_folded (n : Nat) (input : Input) :
    (scan n input.folded).view .plain = (scan n input).view .caseless := by
  induction n generalizing input with
  | zero => rfl
  | succ n ih =>
    obtain ⟨hresult, hafter⟩ := input.next_folded
    simp only [scan, hresult]
    cases input.next.result with
    | error e => simp [Feed.view, Except.map, Error.view_plain]
    | ok token =>
      cases token with
      | none =>
        have hline : input.folded.next.after.line =
          input.next.after.line := by rw [hafter, Input.folded]
        simp [Feed.view, Except.map, hline]
      | some t =>
        have hcons (v : View) (notes : List Event) (t : Token) (feed : Feed) :
            Feed.view v ⟨notes, (t, feed.notes) :: feed.tokens, feed.ending⟩ =
              { feed.view v with tokens := (t.view v, []) :: (feed.view v).tokens } := rfl
        have hnext := ih input.next.after
        rw [← hafter] at hnext
        simp only [Except.map, mapError_ok, Option.map_some, hcons, hnext, Token.view_plain]

def upperSource (source : String) : String := String.ofList (foldCase .code source.toList)

theorem Feed.ofText_upperSource (source : String) :
    (ofText (upperSource source)).view .plain = (ofText source).view .caseless := by
  have hlength : (upperSource source).length = source.length := by
    rw [← String.length_toList, ← String.length_toList, upperSource, String.toList_ofList,
      length_foldCase]
  rw [ofText, ofText, hlength, upperSource, String.toList_ofList]
  exact scan_folded _ ⟨source.toList, 1⟩

end TurtleCompiler
