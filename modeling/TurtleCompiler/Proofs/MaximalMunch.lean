import TurtleCompiler.Proofs.Scanning

/-!
The words, numbers, strings and signs of the language, as a grammar, and the scanner as a search for
the longest of them.
-/

namespace TurtleCompiler

theorem not_isDigit_of_isAlpha {c : Char} (h : c.isAlpha) : c.isDigit = false := by
  delta Char.isAlpha Char.isLower Char.isUpper Char.isDigit at *
  grind

theorem isWordChar_of_isWordStart {c : Char} (h : isWordStart c) : isWordChar c := by
  simp only [isWordStart, isWordChar, Char.isAlphanum, Bool.or_eq_true] at *
  exact h.imp_right .inl

namespace Lexeme

def keywords : List (String × Lexeme) := [
  ("IF", .ifKey), ("THEN", .thenKey), ("ELSE", .elseKey), ("WHILE", .whileKey), ("TO", .toKey),
  ("END", .endKey), ("NOT", .notKey), ("PRINT", .printKey), ("TYPEIN", .typeinKey),
  ("RANDOM", .randomKey), ("TRUE", .boolean), ("FALSE", .boolean), ("YES", .boolean),
  ("NO", .boolean), ("AND", .logicOp), ("OR", .logicOp)]

def signs : List (String × Lexeme) := [
  ("==", .relOp), ("<>", .relOp), (">=", .relOp), ("<=", .relOp), (">", .relOp), ("<", .relOp),
  ("=", .assignOp), ("+=", .assignOp), ("-=", .assignOp), ("*=", .assignOp), ("/=", .assignOp),
  ("^", .powOp), ("+", .addOp), ("-", .addOp), ("*", .mulOp), ("/", .mulOp), ("%", .mulOp),
  ("(", .openParen), (")", .closeParen)]

def IsWord : List Char → Prop
  | [] => False
  | c :: cs => isWordStart c ∧ ∀ d ∈ cs, isWordChar d

def IsKeyword (word : List Char) : Prop :=
  ∃ entry ∈ keywords, entry.1 = (String.ofList word).toUpper

inductive IsText : Lexeme → List Char → Prop
  | keyword (hword : IsWord word) (hkey : ((String.ofList word).toUpper, lexeme) ∈ keywords) :
      IsText lexeme word
  | identifier (hword : IsWord word) (hfree : ¬IsKeyword word) : IsText .identifier word
  | colonIdentifier (hword : IsWord word) : IsText .colonIdentifier (':' :: word)
  | integer (hfirst : c.isDigit) (hdigits : ∀ d ∈ cs, d.isDigit) : IsText .number (c :: cs)
  | decimal (hfirst : c.isDigit) (hdigits : ∀ d ∈ cs, d.isDigit)
      (hplaces : ∀ d ∈ places, d.isDigit) : IsText .number (c :: (cs ++ '.' :: places))
  | string (hquote : quote = '\'' ∨ quote = '"') (hbody : quote ∉ body) :
      IsText .string (quote :: (body ++ [quote]))
  | sign (hsign : (String.ofList text, lexeme) ∈ signs) : IsText lexeme text

theorem eq_ofWord_iff {s : String} {lexeme : Lexeme} : lexeme = ofWord s ↔
    (s.toUpper, lexeme) ∈ keywords ∨ lexeme = .identifier ∧
    ∀ entry ∈ keywords, entry.1 ≠ s.toUpper := by
  unfold ofWord
  generalize s.toUpper = key
  split <;> simp_all [keywords, eq_comm]

theorem isReserved_ofWord {s : String} :
    (ofWord s).isReserved ↔ ∃ entry ∈ keywords, entry.1 = s.toUpper := by
  have hall : ∀ entry ∈ keywords, entry.2.isReserved := by decide
  rcases eq_ofWord_iff.1 rfl with hkey | ⟨hid, hfree⟩
  · exact ⟨fun _ => ⟨_, hkey, rfl⟩, fun _ => hall _ hkey⟩
  · rw [hid]
    refine ⟨fun h => absurd h (by decide), ?_⟩
    rintro ⟨entry, hentry, he⟩
    exact absurd he (hfree entry hentry)

inductive Lead where
  | word
  | colon
  | digit
  | quote
  | sign
  deriving DecidableEq

def lead (c : Char) : Lead :=
  if isWordStart c then .word
  else if c == ':' then .colon
  else if c.isDigit then .digit
  else if c == '\'' || c == '"' then .quote
  else .sign

theorem lead_of_isWordStart {c : Char} (h : isWordStart c) : lead c = .word := if_pos h

theorem not_isWordStart_of_isDigit {c : Char} (h : c.isDigit) : isWordStart c = false := by
  rw [isWordStart, Bool.or_eq_false_iff]
  refine ⟨?_, Bool.eq_false_iff.2 fun halpha => ?_⟩
  · rw [beq_eq_false_iff_ne]
    rintro rfl
    exact absurd h (by decide)
  · rw [not_isDigit_of_isAlpha halpha] at h
    contradiction

theorem lead_of_isDigit {c : Char} (h : c.isDigit) : lead c = .digit := by
  have hcolon : c ≠ ':' := by
    rintro rfl
    exact absurd h (by decide)
  simp [lead, not_isWordStart_of_isDigit h, hcolon, h]

theorem lead_of_quote {c : Char} (h : c = '\'' ∨ c = '"') : lead c = .quote := by
  rcases h with rfl | rfl <;> decide

def ofSign? : List Char → Option Lexeme
  | [c] => Munch.single? c
  | [c, d] => Munch.pair? c d
  | _ => none

theorem mem_signs_iff {text : List Char} {lexeme : Lexeme} :
    (String.ofList text, lexeme) ∈ signs ↔ ofSign? text = some lexeme := by
  have hall : ∀ entry ∈ signs, ofSign? entry.1.toList = some entry.2 := by decide
  constructor
  · intro h
    simpa using hall _ h
  · intro h
    unfold ofSign? at h
    split at h
    · unfold Munch.single? at h
      split at h <;> cases h <;> decide
    · unfold Munch.pair? at h
      split at h <;> cases h <;> decide
    · cases h

theorem lead_of_sign {c : Char} {cs : List Char} {lexeme : Lexeme}
    (h : (String.ofList (c :: cs), lexeme) ∈ signs) : lead c = .sign := by
  have hall : ∀ entry ∈ signs, entry.1.toList.head?.map lead = some .sign := by decide
  simpa using hall _ h

def Lead.Follows (lexeme : Lexeme) (c : Char) (cs : List Char) : Lead → Prop
  | .word => lexeme = ofWord (String.ofList (c :: cs)) ∧ ∀ d ∈ cs, isWordChar d
  | .colon => lexeme = .colonIdentifier ∧ IsWord cs
  | .digit => lexeme = .number ∧ ∃ whole, (∀ d ∈ whole, d.isDigit) ∧
      (cs = whole ∨ ∃ places, (∀ d ∈ places, d.isDigit) ∧ cs = whole ++ '.' :: places)
  | .quote => lexeme = .string ∧ ∃ body, c ∉ body ∧ cs = body ++ [c]
  | .sign => ofSign? (c :: cs) = some lexeme

namespace IsText

variable {lexeme : Lexeme} {c : Char} {cs text : List Char}

theorem ne_nil (h : lexeme.IsText text) : text ≠ [] := by
  cases h with
  | keyword hword | identifier hword =>
    rintro rfl
    exact hword
  | sign hsign =>
    rintro rfl
    rw [mem_signs_iff] at hsign
    cases hsign
  | _ => simp

theorem follows (h : lexeme.IsText (c :: cs)) : (lead c).Follows lexeme c cs := by
  cases h with
  | keyword hword hkey =>
    rw [lead_of_isWordStart hword.1]
    exact ⟨eq_ofWord_iff.2 (.inl hkey), hword.2⟩
  | identifier hword hfree =>
    rw [lead_of_isWordStart hword.1]
    refine ⟨eq_ofWord_iff.2 (.inr ⟨rfl, fun entry hentry he => ?_⟩), hword.2⟩
    exact hfree ⟨entry, hentry, he⟩
  | colonIdentifier hword => exact ⟨rfl, hword⟩
  | integer hfirst hdigits =>
    rw [lead_of_isDigit hfirst]
    exact ⟨rfl, cs, hdigits, .inl rfl⟩
  | decimal hfirst hdigits hplaces =>
    rw [lead_of_isDigit hfirst]
    exact ⟨rfl, _, hdigits, .inr ⟨_, hplaces, rfl⟩⟩
  | string hquote hbody =>
    rw [lead_of_quote hquote]
    exact ⟨rfl, _, hbody, rfl⟩
  | sign hsign =>
    rw [lead_of_sign hsign]
    exact mem_signs_iff.1 hsign

theorem of_word (h : isWordStart c) (hcs : ∀ d ∈ cs, isWordChar d) :
    (ofWord (String.ofList (c :: cs))).IsText (c :: cs) := by
  rcases eq_ofWord_iff.1 rfl with hkey | ⟨hid, hfree⟩
  · exact .keyword ⟨h, hcs⟩ hkey
  · rw [hid]
    refine .identifier ⟨h, hcs⟩ ?_
    rintro ⟨entry, hentry, he⟩
    exact hfree entry hentry he

theorem unique {lexeme' : Lexeme} (h : lexeme.IsText text) (h' : lexeme'.IsText text) :
    lexeme = lexeme' := by
  obtain _ | ⟨c, cs⟩ := text
  · exact absurd rfl h.ne_nil
  · have hfollows := h.follows
    have hfollows' := h'.follows
    cases hlead : lead c <;> rw [hlead] at hfollows hfollows'
    case sign => exact Option.some.inj (hfollows.symm.trans hfollows')
    all_goals exact hfollows.1.trans hfollows'.1.symm

end IsText

end Lexeme

open Lexeme

structure IsLongest (cs : List Char) (lexeme : Lexeme) (text : List Char) : Prop where
  front : text <+: cs
  isText : lexeme.IsText text
  longest : ∀ {lexeme' : Lexeme} {text' : List Char}, text' <+: cs → lexeme'.IsText text' →
    text'.length ≤ text.length

theorem IsLongest.unique {cs text text' : List Char} {lexeme lexeme' : Lexeme}
    (h : IsLongest cs lexeme text) (h' : IsLongest cs lexeme' text') :
    lexeme = lexeme' ∧ text = text' := by
  have hlength : text.length = text'.length :=
    Nat.le_antisymm (h'.longest h.front h.isText) (h.longest h'.front h'.isText)
  obtain rfl : text = text' :=
    (List.prefix_of_prefix_length_le h.front h'.front hlength.le).eq_of_length hlength
  exact ⟨h.isText.unique h'.isText, rfl⟩

def IsReservedReference (text : List Char) : Prop := ∃ word, text = ':' :: word ∧ IsKeyword word

namespace Munch

def Meets (cs : List Char) : Munch → Prop
  | .token lexeme text rest => IsLongest cs lexeme text ∧ ¬IsReservedReference text ∧
      text ++ rest = cs
  | .reserved word rest => IsLongest cs .colonIdentifier (':' :: word) ∧ IsKeyword word ∧
      ':' :: word ++ rest = cs
  | .illegal ch => cs.head? = some ch ∧ ∀ (lexeme : Lexeme) (text : List Char), text <+: cs →
      ¬lexeme.IsText text

variable {p : Char → Bool} {c quote : Char}

theorem prefix_takeWhile {l cs : List Char} (h : l <+: cs) (hl : ∀ d ∈ l, p d) :
    l <+: cs.takeWhile p := by
  obtain ⟨rest, rfl⟩ := h
  rw [List.takeWhile_append_of_pos hl]
  exact List.prefix_append _ _

theorem takeWhile_append_cons {l : List Char} (hl : ∀ d ∈ l, p d) (hc : p c = false)
    (cs : List Char) : (l ++ c :: cs).takeWhile p = l ∧ (l ++ c :: cs).dropWhile p = c :: cs := by
  rw [List.takeWhile_append_of_pos hl, List.dropWhile_append_of_pos hl]
  simp [hc]

theorem takeWhile_quote {body : List Char} (h : quote ∉ body) (cs : List Char) :
    (body ++ quote :: cs).takeWhile (· != quote) = body ∧
    (body ++ quote :: cs).dropWhile (· != quote) = quote :: cs := by
  refine takeWhile_append_cons (fun d hd => ?_) (by simp) cs
  rw [bne_iff_ne]
  rintro rfl
  exact h hd

theorem follows_of_prefix {cs text : List Char} {lexeme : Lexeme} (h : text <+: c :: cs)
    (htext : lexeme.IsText text) :
    ∃ tail, text = c :: tail ∧ tail <+: cs ∧ (lead c).Follows lexeme c tail := by
  rcases List.prefix_cons_iff.1 h with rfl | ⟨tail, rfl, htail⟩
  · exact absurd rfl htext.ne_nil
  · exact ⟨tail, rfl, htail, htext.follows⟩

theorem not_isReservedReference (h : lead c ≠ .colon) (cs : List Char) :
    ¬IsReservedReference (c :: cs) := by
  rintro ⟨word, hword, -⟩
  obtain ⟨rfl, -⟩ := List.cons.inj hword
  exact h rfl

theorem meets_word (h : isWordStart c) (cs : List Char) : (word c cs).Meets (c :: cs) := by
  have hlead := lead_of_isWordStart h
  have hall : ∀ d ∈ cs.takeWhile isWordChar, isWordChar d :=
    List.all_eq_true.1 List.all_takeWhile
  refine ⟨⟨?_, .of_word h hall, fun hfront htext => ?_⟩, ?_, by simp⟩
  · exact List.prefix_cons_iff.2 (.inr ⟨_, rfl, List.takeWhile_prefix _⟩)
  · obtain ⟨tail, rfl, htail, hfollows⟩ := follows_of_prefix hfront htext
    rw [hlead] at hfollows
    exact Nat.succ_le_succ (prefix_takeWhile htail hfollows.2).length_le
  · exact not_isReservedReference (by simp [hlead]) _

theorem meets_colonWord (cs : List Char) : (colonWord cs).Meets (':' :: cs) := by
  have hfollow {text : List Char} {lexeme : Lexeme} (h : text <+: ':' :: cs)
      (htext : lexeme.IsText text) : ∃ tail, text = ':' :: tail ∧ tail <+: cs ∧
      IsWord tail := by
    obtain ⟨tail, rfl, htail, hfollows⟩ := follows_of_prefix h htext
    exact ⟨tail, rfl, htail, hfollows.2⟩
  cases cs with
  | nil =>
    refine ⟨rfl, fun lexeme text h htext => ?_⟩
    obtain ⟨tail, -, htail, hword⟩ := hfollow h htext
    obtain rfl := List.prefix_nil.1 htail
    exact hword
  | cons c cs =>
    have hstart {tail : List Char} (htail : tail <+: c :: cs) (hword : IsWord tail) :
        isWordStart c ∧ tail.length ≤ (c :: cs.takeWhile isWordChar).length := by
      rcases List.prefix_cons_iff.1 htail with rfl | ⟨more, rfl, hmore⟩
      · exact hword.elim
      · exact ⟨hword.1, Nat.succ_le_succ (prefix_takeWhile hmore hword.2).length_le⟩
    simp only [colonWord]
    split
    · rename_i hc
      refine ⟨rfl, fun lexeme text h htext => ?_⟩
      obtain ⟨tail, -, htail, hword⟩ := hfollow h htext
      simp [(hstart htail hword).1] at hc
    · rename_i hc
      have hc : isWordStart c := by simpa using hc
      have hlongest :
          IsLongest (':' :: c :: cs) .colonIdentifier (':' :: c :: cs.takeWhile isWordChar) := by
        refine ⟨?_, .colonIdentifier ⟨hc, List.all_eq_true.1 List.all_takeWhile⟩,
          fun h htext => ?_⟩
        · simpa using List.takeWhile_prefix _
        · obtain ⟨tail, rfl, htail, hword⟩ := hfollow h htext
          exact Nat.succ_le_succ (hstart htail hword).2
      split
      · rename_i hreserved
        exact ⟨hlongest, isReserved_ofWord.1 hreserved, by simp⟩
      · rename_i hfree
        refine ⟨hlongest, ?_, by simp⟩
        rintro ⟨word, hword, hkeyword⟩
        obtain ⟨-, rfl⟩ := List.cons.inj hword
        exact hfree (isReserved_ofWord.2 hkeyword)

theorem meets_number (h : c.isDigit) (cs : List Char) : (number c cs).Meets (c :: cs) := by
  have hlead := lead_of_isDigit h
  have hall (cs : List Char) : ∀ d ∈ cs.takeWhile Char.isDigit, d.isDigit :=
    List.all_eq_true.1 List.all_takeWhile
  have hsplits := splits_number c cs
  have hfree (cs : List Char) : ¬IsReservedReference (c :: cs) :=
    not_isReservedReference (by simp [hlead]) cs
  unfold number at hsplits ⊢
  split
  · rename_i rest hrest
    simp only [hrest] at hsplits
    refine ⟨⟨⟨_, hsplits.2⟩, .decimal h (hall cs) (hall rest), fun hfront htext => ?_⟩,
      hfree _, hsplits.2⟩
    obtain ⟨tail, rfl, htail, hfollows⟩ := follows_of_prefix hfront htext
    rw [hlead] at hfollows
    obtain ⟨-, whole, hwhole, rfl | ⟨places, hplaces, rfl⟩⟩ := hfollows
    · have hlength := (prefix_takeWhile htail hwhole).length_le
      simp only [List.cons_append, List.length_cons, List.length_append]
      omega
    · -- the digits before a point are all there are, so the points are the same one
      obtain ⟨more, rfl⟩ := htail
      simp only [List.append_assoc, List.cons_append] at hrest ⊢
      obtain ⟨htake, hdrop⟩ :=
        takeWhile_append_cons hwhole (show Char.isDigit '.' = false by decide) (places ++ more)
      rw [htake]
      obtain ⟨-, rfl⟩ := List.cons.inj (hdrop.symm.trans hrest)
      have hlength := (prefix_takeWhile (List.prefix_append places more) hplaces).length_le
      simp only [List.length_cons, List.length_append]
      omega
  · rename_i hpoint
    refine ⟨⟨?_, .integer h (hall cs), fun hfront htext => ?_⟩, hfree _, by simp⟩
    · simpa using List.takeWhile_prefix _
    · obtain ⟨tail, rfl, htail, hfollows⟩ := follows_of_prefix hfront htext
      rw [hlead] at hfollows
      obtain ⟨-, whole, hwhole, rfl | ⟨places, hplaces, rfl⟩⟩ := hfollows
      · exact Nat.succ_le_succ (prefix_takeWhile htail hwhole).length_le
      · obtain ⟨more, rfl⟩ := htail
        rw [List.append_assoc, List.cons_append] at hpoint
        exact absurd (takeWhile_append_cons hwhole (by decide) _).2 (hpoint _)

theorem meets_string (h : quote = '\'' ∨ quote = '"') (cs : List Char) :
    (string quote cs).Meets (quote :: cs) := by
  have hlead := lead_of_quote h
  -- a closed string at the front ends at the first quote after the one it begins with
  have hfollow {text : List Char} {lexeme : Lexeme} (hfront : text <+: quote :: cs)
      (htext : lexeme.IsText text) :
      ∃ body more, text = quote :: (body ++ [quote]) ∧ cs.takeWhile (· != quote) = body ∧
        cs.dropWhile (· != quote) = quote :: more := by
    obtain ⟨tail, rfl, htail, hfollows⟩ := follows_of_prefix hfront htext
    rw [hlead] at hfollows
    obtain ⟨-, body, hbody, rfl⟩ := hfollows
    obtain ⟨more, rfl⟩ := htail
    rw [List.append_assoc, List.singleton_append]
    exact ⟨body, more, rfl, takeWhile_quote hbody more⟩
  have hsplits := splits_string quote cs
  unfold string at hsplits ⊢
  split
  · rename_i hrest
    refine ⟨rfl, fun lexeme text hfront htext => ?_⟩
    obtain ⟨body, more, -, -, hmore⟩ := hfollow hfront htext
    simp [hrest] at hmore
  · rename_i rest hrest
    simp only [hrest] at hsplits
    refine ⟨⟨⟨_, hsplits.2⟩, .string h ?_, fun hfront htext => ?_⟩, ?_, hsplits.2⟩
    · intro hmem
      simpa using List.all_eq_true.1 List.all_takeWhile quote hmem
    · obtain ⟨body, more, rfl, rfl, -⟩ := hfollow hfront htext
      exact Nat.le_refl _
    · exact not_isReservedReference (by simp [hlead]) _

theorem meets_sign (h : lead c = .sign) (cs : List Char) : (sign c cs).Meets (c :: cs) := by
  -- only one more character counts
  have hfollow {text : List Char} {lexeme : Lexeme} (hfront : text <+: c :: cs)
      (htext : lexeme.IsText text) : text = [c] ∧ single? c = some lexeme ∨
      ∃ d, text = [c, d] ∧ cs.head? = some d ∧ pair? c d = some lexeme := by
    obtain ⟨tail, rfl, htail, hfollows⟩ := follows_of_prefix hfront htext
    rw [h] at hfollows
    obtain _ | ⟨d, _ | ⟨d', tail⟩⟩ := tail
    · exact .inl ⟨rfl, hfollows⟩
    · obtain ⟨more, rfl⟩ := htail
      exact .inr ⟨d, rfl, rfl, hfollows⟩
    · cases hfollows
  have hfree (cs : List Char) : ¬IsReservedReference (c :: cs) :=
    not_isReservedReference (by simp [h]) cs
  have hsplits := splits_sign c cs
  unfold sign at hsplits ⊢
  split
  · rename_i lexeme hpair
    simp only [hpair] at hsplits
    obtain ⟨d, hhead, hd⟩ := Option.bind_eq_some_iff.1 hpair
    obtain ⟨cs, rfl⟩ := List.head?_eq_some_iff.1 hhead
    refine ⟨⟨⟨_, hsplits.2⟩, .sign (mem_signs_iff.2 hd), fun hfront htext => ?_⟩,
      hfree _, hsplits.2⟩
    rcases hfollow hfront htext with ⟨rfl, -⟩ | ⟨d', rfl, -, -⟩ <;> simp
  · rename_i lexeme hpair hsingle
    refine ⟨⟨by simp, .sign (mem_signs_iff.2 hsingle), fun hfront htext => ?_⟩,
      hfree _, rfl⟩
    rcases hfollow hfront htext with ⟨rfl, -⟩ | ⟨d, rfl, hhead, hd⟩
    · exact Nat.le_refl _
    · simp [hhead, hd] at hpair
  · rename_i hpair hsingle
    refine ⟨rfl, fun lexeme text hfront htext => ?_⟩
    rcases hfollow hfront htext with ⟨-, hd⟩ | ⟨d, -, hhead, hd⟩
    · simp [hsingle] at hd
    · simp [hhead, hd] at hpair

theorem meets_ofText (c : Char) (cs : List Char) : (ofText c cs).Meets (c :: cs) := by
  unfold ofText
  split
  · exact meets_word ‹_› cs
  · split
    · rename_i hcolon
      rw [eq_of_beq hcolon]
      exact meets_colonWord cs
    · split
      · exact meets_number ‹_› cs
      · split
        · rename_i hquote
          exact meets_string (by simpa using hquote) cs
        · exact meets_sign (by simp_all [lead]) cs

end Munch

def Input.skipped (input : Input) : Input := (skip none input.line input.rest).2

def Munch.result (line : Nat) : Munch → Except Error (Option Token)
  | .token lexeme text _ => .ok (some ⟨lexeme, String.ofList text, line⟩)
  | .reserved word _ => .error (.reservedIdentifier line (String.ofList word))
  | .illegal ch => .error (.illegalCharacter line ch)

namespace Munch

variable {m : Munch} {cs : List Char} {line : Nat}

theorem result_eq_ok {token : Token} (h : m.result line = .ok (some token)) :
    ∃ lexeme text rest, m = .token lexeme text rest ∧
    token = ⟨lexeme, String.ofList text, line⟩ := by
  cases m with
  | token lexeme text rest =>
    exact ⟨lexeme, text, rest, rfl, (Option.some.inj (Except.ok.inj h)).symm⟩
  | reserved | illegal => cases h

namespace Meets

theorem result_eq_ok_iff (h : m.Meets cs) {token : Token} : m.result line = .ok (some token) ↔
    ∃ text, IsLongest cs token.lexeme text ∧ ¬IsReservedReference text ∧
      token.text = String.ofList text ∧ token.line = line := by
  constructor
  · intro hresult
    obtain ⟨lexeme, text, rest, rfl, rfl⟩ := result_eq_ok hresult
    exact ⟨text, h.1, h.2.1, rfl, rfl⟩
  · rintro ⟨text, hlongest, hfree, htext, rfl⟩
    cases m with
    | token lexeme' text' rest =>
      obtain ⟨rfl, rfl⟩ := h.1.unique hlongest
      rw [result, ← htext]
    | reserved word rest =>
      obtain ⟨-, rfl⟩ := h.1.unique hlongest
      exact absurd ⟨word, rfl, h.2.1⟩ hfree
    | illegal ch => exact absurd hlongest.isText (h.2 _ _ hlongest.front)

theorem result_eq_error_iff {c : Char} (h : m.Meets (c :: cs)) {e : Error} :
    m.result line = .error e ↔
      (∃ word, IsLongest (c :: cs) .colonIdentifier (':' :: word) ∧ IsKeyword word ∧
      e = .reservedIdentifier line (String.ofList word)) ∨
    (∀ (lexeme : Lexeme) (text : List Char), text <+: c :: cs → ¬lexeme.IsText text) ∧
    e = .illegalCharacter line c := by
  constructor
  · intro hresult
    cases m with
    | token => cases hresult
    | reserved word rest => exact .inl ⟨word, h.1, h.2.1, (Except.error.inj hresult).symm⟩
    | illegal ch =>
      obtain rfl : c = ch := Option.some.inj h.1
      exact .inr ⟨h.2, (Except.error.inj hresult).symm⟩
  · rintro (⟨word, hlongest, hkeyword, rfl⟩ | ⟨hnone, rfl⟩)
    · cases m with
      | token lexeme text rest =>
        obtain ⟨-, rfl⟩ := h.1.unique hlongest
        exact absurd ⟨word, rfl, hkeyword⟩ h.2.1
      | reserved word' rest =>
        obtain ⟨-, hword⟩ := h.1.unique hlongest
        rw [result, (List.cons.inj hword).2]
      | illegal ch => exact absurd hlongest.isText (h.2 _ _ hlongest.front)
    · cases m with
      | token lexeme text rest => exact absurd h.1.isText (hnone _ _ h.1.front)
      | reserved word rest => exact absurd h.1.isText (hnone _ _ h.1.front)
      | illegal ch =>
        obtain rfl : c = ch := Option.some.inj h.1
        rfl

end Meets

end Munch

variable {input : Input}

theorem Input.next_of_skipped {c : Char} {cs : List Char} (h : input.skipped.rest = c :: cs) :
    input.next.result = (Munch.ofText c cs).result input.skipped.line ∧
      ∀ {lexeme text rest}, Munch.ofText c cs = .token lexeme text rest →
        input.next.after = ⟨rest, input.skipped.line + text.count '\n'⟩ := by
  revert h
  simp only [skipped, next]
  generalize skip none input.line input.rest = skipped
  obtain ⟨notes, rest, line⟩ := skipped
  rintro rfl
  dsimp only
  cases Munch.ofText c cs <;> simp [Munch.result]

theorem Input.next_of_skipped_nil (h : input.skipped.rest = []) : input.next.result = .ok none := by
  revert h
  simp only [skipped, next]
  generalize skip none input.line input.rest = skipped
  intro hrest
  rw [hrest]

namespace Lexeme.IsText

variable {lexeme : Lexeme} {text cs rest : List Char}

theorem blank_not_mem (h : lexeme.IsText text) (hstring : lexeme ≠ .string) : ' ' ∉ text := by
  have hword {word : List Char} (hword : IsWord word) : ' ' ∉ word := by
    obtain _ | ⟨c, cs⟩ := word
    · exact hword.elim
    · intro hmem
      rcases List.mem_cons.1 hmem with rfl | hmem
      · exact absurd hword.1 (by decide)
      · exact absurd (hword.2 _ hmem) (by decide)
  have hdigits {ds : List Char} (hds : ∀ d ∈ ds, d.isDigit) :
      ' ' ∉ ds := fun hmem => absurd (hds _ hmem) (by decide)
  cases h with
  | keyword hw | identifier hw => exact hword hw
  | colonIdentifier hw => simpa using hword hw
  | integer hfirst hds => exact hdigits (List.forall_mem_cons.2 ⟨hfirst, hds⟩)
  | decimal hfirst hds hplaces =>
    rw [← List.cons_append, List.mem_append, not_or]
    exact ⟨hdigits (List.forall_mem_cons.2 ⟨hfirst, hds⟩), by simpa using hdigits hplaces⟩
  | string => exact absurd rfl hstring
  | sign hsign =>
    have hall : ∀ entry ∈ signs, ' ' ∉ entry.1.toList := by decide
    simpa using hall _ hsign

theorem eq_string (h : IsText .string text) :
    ∃ quote body, (quote = '\'' ∨ quote = '"') ∧ quote ∉ body ∧
    text = quote :: (body ++ [quote]) := by
  cases h with
  | keyword hword hkey => simp [keywords] at hkey
  | string hquote hbody => exact ⟨_, _, hquote, hbody, rfl⟩
  | sign hsign => simp [signs] at hsign

theorem not_skipped {c : Char} (h : lexeme.IsText (c :: cs)) :
    c ≠ ' ' ∧ c ≠ '\t' ∧ c ≠ '\r' ∧ c ≠ '\n' ∧ c ≠ '#' := by
  have hsign : lead c = .sign →
      c ∈ ['=', '<', '>', '+', '-', '*', '/', '%', '^', '(', ')'] := by
    intro hlead
    have hfollows := h.follows
    rw [hlead] at hfollows
    have hall : ∀ entry ∈ signs,
        entry.1.toList.head?.all
        (· ∈ ['=', '<', '>', '+', '-', '*', '/', '%', '^', '(', ')']) := by
      decide
    simpa using hall _ (mem_signs_iff.2 hfollows)
  refine ⟨?_, ?_, ?_, ?_, ?_⟩ <;> rintro rfl <;> exact absurd (hsign rfl) (by decide)

theorem isLongest (h : lexeme.IsText text) (hrest : rest = [] ∨ rest.head? = some ' ') :
    IsLongest (text ++ rest) lexeme text := by
  refine ⟨List.prefix_append _ _, h, fun {lexeme' text'} hfront htext => ?_⟩
  by_contra hlength
  obtain ⟨more, rfl⟩ :=
    List.prefix_of_prefix_length_le (List.prefix_append _ _) hfront
    (by omega : text.length ≤ text'.length)
  have hmore := (List.prefix_append_right_inj text).1 hfront
  obtain _ | ⟨b, more⟩ := more
  · simp at hlength
  · obtain ⟨rest, rfl⟩ := hmore
    obtain rfl : b = ' ' := by simpa using hrest
    -- only a string goes on past a blank, but the first text is closed by then
    by_cases hstring : lexeme' = .string
    · subst hstring
      obtain ⟨quote, body, hquote, hbody, heq⟩ := htext.eq_string
      obtain _ | ⟨c, cs⟩ := text
      · exact h.ne_nil rfl
      · obtain ⟨rfl, heq⟩ := List.cons.inj heq
        have hfollows := h.follows
        rw [lead_of_quote hquote] at hfollows
        obtain ⟨-, body', hbody', rfl⟩ := hfollows
        change body' ++ [c] ++ ' ' :: more = body ++ [c] at heq
        rw [List.append_assoc, List.singleton_append] at heq
        obtain rfl : body' = body := by
          rw [← (Munch.takeWhile_quote hbody' _).1, ← (Munch.takeWhile_quote hbody []).1, heq]
        simp at heq
    · exact htext.blank_not_mem hstring (by simp)

theorem ofText_eq {c : Char} (h : lexeme.IsText (c :: cs)) (hfree : ¬IsReservedReference (c :: cs))
    (hrest : rest = [] ∨ rest.head? = some ' ') :
    Munch.ofText c (cs ++ rest) = .token lexeme (c :: cs) rest := by
  have hlongest := h.isLongest hrest
  have hmeets := Munch.meets_ofText c (cs ++ rest)
  cases hm : Munch.ofText c (cs ++ rest) with
  | token lexeme text rest' =>
    rw [hm] at hmeets
    obtain ⟨hlongest', -, hsplit⟩ := hmeets
    obtain ⟨rfl, rfl⟩ := hlongest'.unique hlongest
    rw [List.append_cancel_left (hsplit.trans (List.cons_append ..).symm)]
  | reserved word rest' =>
    rw [hm] at hmeets
    obtain ⟨hlongest', hkeyword, -⟩ := hmeets
    obtain ⟨-, htext⟩ := hlongest'.unique hlongest
    exact absurd ⟨word, htext.symm, hkeyword⟩ hfree
  | illegal ch =>
    rw [hm] at hmeets
    exact absurd h (hmeets.2 _ _ hlongest.front)

end Lexeme.IsText

structure Token.IsLexical (t : Token) : Prop where
  isText : t.lexeme.IsText t.text.toList
  free : ¬IsReservedReference t.text.toList

theorem Input.isLexical_next {t : Token} (h : input.next.result = .ok (some t)) : t.IsLexical := by
  cases hskipped : input.skipped.rest with
  | nil => simp [next_of_skipped_nil hskipped] at h
  | cons c cs =>
    have hmeets := Munch.meets_ofText c cs
    rw [(next_of_skipped hskipped).1] at h
    cases hm : Munch.ofText c cs with
    | token lexeme text rest =>
      rw [hm] at h hmeets
      obtain rfl := Option.some.inj (Except.ok.inj h)
      obtain ⟨hlongest, hfree, -⟩ := hmeets
      exact ⟨by simpa using hlongest.isText, by simpa using hfree⟩
    | reserved word rest => simp [hm, Munch.result] at h
    | illegal ch => simp [hm, Munch.result] at h

theorem Feed.isLexical_scan {n : Nat} {t : Token × List Event} (h : t ∈ (scan n input).tokens) :
    t.1.IsLexical := by
  obtain ⟨_, hi⟩ := (steps_of_scan n input).1 t h
  exact Input.isLexical_next hi

theorem Token.IsLexical.next {t : Token} (h : t.IsLexical) {rest : List Char}
    (hrest : rest = [] ∨ rest.head? = some ' ')
    (line : Nat) : (⟨t.text.toList ++ rest, line⟩ : Input).next.result = .ok
      (some { t with line }) ∧
      (⟨t.text.toList ++ rest, line⟩ : Input).next.after =
      ⟨rest, line + t.text.toList.count '\n'⟩ := by
  obtain ⟨htext, hfree⟩ := h
  obtain ⟨c, cs, hcs⟩ := List.exists_cons_of_ne_nil htext.ne_nil
  rw [hcs] at htext hfree
  obtain ⟨hblank, htab, hreturn, hnewline, hcomment⟩ := htext.not_skipped
  have hskipped : (⟨c :: (cs ++ rest), line⟩ : Input).skipped =
      ⟨c :: (cs ++ rest), line⟩ := by
    simp [Input.skipped, Input.skip, hblank, htab, hreturn, hnewline, hcomment]
  obtain ⟨hresult, hafter⟩ := Input.next_of_skipped (congrArg Input.rest hskipped)
  have hm := htext.ofText_eq hfree hrest
  have hword : String.ofList (c :: cs) = t.text := by rw [← hcs, String.ofList_toList]
  rw [hcs, List.cons_append, hresult, hafter hm, hm, hskipped, Munch.result, hword]
  exact ⟨rfl, rfl⟩

def spaced (tokens : List Token) : String := String.intercalate " " (tokens.map (·.text))

theorem toList_spaced_cons (t : Token) (tokens : List Token) :
    ∃ rest, (rest = [] ∧ tokens = [] ∨ rest = ' ' :: (spaced tokens).toList) ∧
    (spaced (t :: tokens)).toList = t.text.toList ++ rest := by
  cases tokens with
  | nil => exact ⟨[], .inl ⟨rfl, rfl⟩, by simp [spaced]⟩
  | cons t' tokens =>
    refine ⟨_, .inr rfl, ?_⟩
    simp [spaced, String.intercalate_cons_cons]

theorem Feed.scan_spaced {tokens : List Token} (h : ∀ t ∈ tokens, t.IsLexical) {n : Nat}
    (hn : (spaced tokens).toList.length < n) (line : Nat) :
    ((scan n ⟨(spaced tokens).toList, line⟩).tokens.map fun t => (t.1.lexeme, t.1.text)) =
        tokens.map (fun t => (t.lexeme, t.text)) ∧
      ∃ last, (scan n ⟨(spaced tokens).toList, line⟩).ending = .ok last := by
  induction tokens generalizing n line with
  | nil =>
    obtain _ | n := n
    · exact absurd hn (Nat.not_lt_zero _)
    · exact ⟨rfl, line, rfl⟩
  | cons t tokens ih =>
    obtain ⟨ht, htokens⟩ := List.forall_mem_cons.1 h
    obtain ⟨rest, hrest, hspaced⟩ := toList_spaced_cons t tokens
    obtain _ | n := n
    · exact absurd hn (Nat.not_lt_zero _)
    · have hhead : rest = [] ∨ rest.head? = some ' ' := by
        rcases hrest with ⟨rfl, -⟩ | rfl
        · exact .inl rfl
        · exact .inr rfl
      obtain ⟨hresult, hafter⟩ := ht.next hhead line
      have hlength := List.length_pos_iff.2 ht.isText.ne_nil
      rw [hspaced] at hn ⊢
      rw [List.length_append] at hn
      have hscan (line : Nat) : (spaced tokens).toList.length < n ∧
          scan n ⟨rest, line⟩ = scan n ⟨(spaced tokens).toList, line⟩ := by
        rcases hrest with ⟨rfl, rfl⟩ | rfl
        · exact ⟨by simpa [spaced] using (by omega : 0 < n), by simp [spaced]⟩
        · rw [List.length_cons] at hn
          obtain _ | n := n
          · omega
          · exact ⟨by omega, rfl⟩
      obtain ⟨hmap, last, hlast⟩ := ih htokens (hscan 0).1 (line + t.text.toList.count '\n')
      simp only [scan, hresult, hafter, List.map_cons, (hscan _).2, hmap, hlast, Except.ok.injEq,
        exists_eq', and_self]

theorem tokenize_spaced {source : String} {tokens : List Token} (h : tokenize source = .ok tokens) :
    ∃ tokens', tokenize (spaced tokens) = .ok tokens' ∧
      tokens'.map (fun t => (t.lexeme, t.text)) = tokens.map (fun t => (t.lexeme, t.text)) := by
  obtain ⟨rfl, -⟩ := tokenize_eq_ok.1 h
  have hlexical : ∀ t ∈ (Feed.ofText source).tokens.map (·.1), t.IsLexical := by
    rw [List.forall_mem_map]
    exact fun t ht => Feed.isLexical_scan ht
  obtain ⟨hmap, hending⟩ := Feed.scan_spaced hlexical (Nat.lt_succ_self _) 1
  rw [String.length_toList] at hmap hending
  refine ⟨_, tokenize_eq_ok.2 ⟨rfl, hending⟩, ?_⟩
  rw [List.map_map]
  exact hmap

/-- The scanner takes the longest. Wherever it stands after blanks and comments, it gives a token if
and only if something of the grammar is at the front; the token is the longest and has its class.
There is one exception: if the longest is a reference to a keyword, it is refused. And if the texts
of all tokens of a source are written with single blanks between them, they are found again. -/
theorem scans_longest :
    (∀ (input : Input) (c : Char) (cs : List Char), input.skipped.rest = c :: cs →
      (∀ token, input.next.result = .ok (some token) ↔
        ∃ text, IsLongest (c :: cs) token.lexeme text ∧
        ¬IsReservedReference text ∧ token.text = String.ofList text ∧
        token.line = input.skipped.line) ∧
      (∀ token, input.next.result = .ok (some token) →
        token.text.toList ++ input.next.after.rest = c :: cs) ∧
      (∀ e, input.next.result = .error e ↔
        (∃ word, IsLongest (c :: cs) .colonIdentifier (':' :: word) ∧ IsKeyword word ∧
          e = .reservedIdentifier input.skipped.line (String.ofList word)) ∨
        (∀ (lexeme : Lexeme) (text : List Char), text <+: c :: cs → ¬lexeme.IsText text) ∧
          e = .illegalCharacter input.skipped.line c) ∧
      input.next.result ≠ .ok none) ∧
    ∀ source tokens, tokenize source = .ok tokens →
      ∃ tokens', tokenize (spaced tokens) = .ok tokens' ∧
      tokens'.map (fun t => (t.lexeme, t.text)) = tokens.map (fun t => (t.lexeme, t.text)) := by
  refine ⟨fun input c cs hskipped => ?_, fun _ _ => tokenize_spaced⟩
  have hmeets := Munch.meets_ofText c cs
  obtain ⟨hresult, hafter⟩ := Input.next_of_skipped hskipped
  rw [hresult]
  refine ⟨fun token => hmeets.result_eq_ok_iff, fun token htoken => ?_,
    fun e => hmeets.result_eq_error_iff, ?_⟩
  · obtain ⟨lexeme, text, rest, hm, rfl⟩ := Munch.result_eq_ok htoken
    rw [hm] at hmeets
    rw [hafter hm, String.toList_ofList]
    exact hmeets.2.2
  · intro hnone
    cases hm : Munch.ofText c cs <;> simp [hm, Munch.result] at hnone

theorem scans_longest_samples :
    (∃ text, IsLongest ['<', '=', '1'] .relOp text ∧ ¬IsReservedReference text ∧
      "<=" = String.ofList text ∧ 2 = 2) ∧
          ((∃ word, IsLongest ":If-".toList .colonIdentifier (':' :: word) ∧ IsKeyword word ∧
          Error.reservedIdentifier 1 "If" = .reservedIdentifier 1 (String.ofList word)) ∨
        (∀ (lexeme : Lexeme) (text : List Char), text <+: ":If-".toList →
          ¬lexeme.IsText text) ∧ Error.reservedIdentifier 1 "If" = .illegalCharacter 1 ':') ∧
      ∃ tokens', tokenize "x = 'a # b' 1." = .ok tokens' ∧
        tokens'.map (fun t => (t.lexeme, t.text)) =
        [(.identifier, "x"), (.assignOp, "="), (.string, "'a # b'"), (.number, "1.")] := by
  have hsign :=
    (scans_longest.1 ⟨" # a\n<=1".toList, 1⟩ '<' ['=', '1'] (by decide)).1 ⟨.relOp, "<=", 2⟩
  have hword :=
    (scans_longest.1 ⟨" :If-".toList, 1⟩ ':' "If-".toList (by decide)).2.2.1
    (.reservedIdentifier 1 "If")
  have htokens : tokenize "x='a # b'#\n1." = .ok
      [⟨.identifier, "x", 1⟩, ⟨.assignOp, "=", 1⟩, ⟨.string, "'a # b'", 1⟩,
        ⟨.number, "1.", 2⟩] := by decide +kernel
  exact ⟨hsign.1 (by decide +kernel), hword.1 (by decide +kernel), scans_longest.2 _ _ htokens⟩

end TurtleCompiler
