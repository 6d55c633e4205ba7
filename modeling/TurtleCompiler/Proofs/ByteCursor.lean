import TurtleCompiler.Proofs.CaseFolding

/-!
Scanning bytes. The bytes of a character that needs more than one are like no other character, so a
cursor that moves over bytes never stops inside one.
-/

namespace TurtleCompiler

def bytes (cs : List Char) : List Char :=
  cs.flatMap fun c => (String.utf8EncodeChar c).map Char.ofUInt8

@[simp] theorem bytes_nil : bytes [] = [] := rfl

theorem bytes_cons (c : Char) (cs : List Char) :
    bytes (c :: cs) = bytes [c] ++ bytes cs := by simp [bytes]

@[simp] theorem bytes_append (cs ds : List Char) :
    bytes (cs ++ ds) = bytes cs ++ bytes ds := by simp [bytes]

def IsWide (c : Char) : Prop := 128 ≤ c.val
  deriving Decidable

variable {c : Char} {p : Char → Bool} {source : String}

theorem IsWide.iff_toNat : IsWide c ↔ 128 ≤ c.val.toNat := by
  rw [IsWide, UInt32.le_iff_toNat_le]
  rfl

theorem toNat_val_ofUInt8 (n : Nat) : (Char.ofUInt8 (UInt8.ofNat n)).val.toNat = n % 256 := by
  change (UInt8.ofNat n).toUInt32.toNat = n % 256
  rw [UInt8.toNat_toUInt32, UInt8.toNat_ofNat']

theorem bytes_of_not_isWide (h : ¬IsWide c) (cs : List Char) :
    bytes (c :: cs) = c :: bytes cs := by
  have hle : c.val.toNat ≤ 127 := Nat.le_of_lt_succ (Nat.not_le.1 (IsWide.iff_toNat.not.1 h))
  have hbyte : Char.ofUInt8 (UInt8.ofNat c.val.toNat) = c := by
    apply Char.ext
    rw [← UInt32.toNat_inj, toNat_val_ofUInt8]
    omega
  simp only [bytes, List.flatMap_cons, String.utf8EncodeChar, hle, if_true, List.map_cons,
    List.map_nil, hbyte, List.singleton_append]

theorem isWide_of_mem_bytes {b : Char} (h : IsWide c) (hb : b ∈ bytes [c]) : IsWide b := by
  have hle : ¬c.val.toNat ≤ 127 := Nat.not_le.2 (IsWide.iff_toNat.1 h)
  obtain ⟨n, hn, hn', rfl⟩ :
      ∃ n, 128 ≤ n ∧ n < 256 ∧ b = Char.ofUInt8 (UInt8.ofNat n) := by
    simp only [bytes, List.flatMap_cons, List.flatMap_nil, List.append_nil, String.utf8EncodeChar,
      hle, if_false] at hb
    split at hb
    · simp only [List.map_cons, List.map_nil, List.mem_cons, List.not_mem_nil, or_false] at hb
      rcases hb with rfl | rfl <;> exact ⟨_, by omega, by omega, rfl⟩
    · split at hb <;>
        simp only [List.map_cons, List.map_nil, List.mem_cons, List.not_mem_nil, or_false] at hb
      · rcases hb with rfl | rfl | rfl <;> exact ⟨_, by omega, by omega, rfl⟩
      · rcases hb with rfl | rfl | rfl | rfl <;> exact ⟨_, by omega, by omega, rfl⟩
  rw [IsWide.iff_toNat, toNat_val_ofUInt8]
  omega

theorem bytes_of_isWide (h : IsWide c) : ∃ b bs, bytes [c] = b :: bs ∧ IsWide b := by
  obtain ⟨b, bs, hbs⟩ := List.exists_cons_of_ne_nil (show bytes [c] ≠ [] by simp [bytes])
  exact ⟨b, bs, hbs, isWide_of_mem_bytes h (by simp [hbs])⟩

namespace IsWide

variable {c : Char}

theorem ne {d : Char} (h : IsWide c) (hd : ¬IsWide d) : c ≠ d := by
  rintro rfl
  exact hd h

theorem not_isDigit (h : IsWide c) : c.isDigit = false := by
  delta IsWide Char.isDigit at *
  grind

theorem not_isAlpha (h : IsWide c) : c.isAlpha = false := by
  delta IsWide Char.isAlpha Char.isLower Char.isUpper at *
  grind

theorem not_isWordChar (h : IsWide c) : isWordChar c = false := by
  have hne := h.ne (show ¬IsWide '_' by decide)
  simp [isWordChar, Char.isAlphanum, hne, h.not_isAlpha, h.not_isDigit]

theorem not_isWordStart (h : IsWide c) : isWordStart c = false := by
  have hne := h.ne (show ¬IsWide '_' by decide)
  simp [isWordStart, hne, h.not_isAlpha]

theorem single?_eq_none (h : IsWide c) : Munch.single? c = none := by
  unfold Munch.single?
  split <;> first | rfl | exact absurd h (by decide)

theorem pair?_eq_none {d : Char} (h : IsWide c ∨ IsWide d) : Munch.pair? c d = none := by
  unfold Munch.pair?
  split <;> first | rfl | exact absurd h (by decide)

theorem not_skipped (h : IsWide c) :
    (c == ' ' || c == '\t' || c == '\r') = false ∧ (c == '\n') = false ∧
    (c == '#') = false := by
  simp [h.ne (show ¬IsWide ' ' by decide), h.ne (show ¬IsWide '\t' by decide),
    h.ne (show ¬IsWide '\r' by decide), h.ne (show ¬IsWide '\n' by decide),
    h.ne (show ¬IsWide '#' by decide)]

end IsWide

theorem bytes_cases (cs : List Char) : cs = [] ∧ bytes cs = [] ∨
    (∃ c cs', cs = c :: cs' ∧ ¬IsWide c ∧ bytes cs = c :: bytes cs') ∨
    ∃ c cs' b bs, cs = c :: cs' ∧ IsWide c ∧ bytes cs = b :: bs ∧ IsWide b := by
  obtain _ | ⟨c, cs⟩ := cs
  · exact .inl ⟨rfl, rfl⟩
  · by_cases hc : IsWide c
    · obtain ⟨b, bs, hbs, hb⟩ := bytes_of_isWide hc
      exact .inr
        (.inr ⟨c, cs, b, bs ++ bytes cs, rfl,
          hc, by rw [bytes_cons, hbs, List.cons_append], hb⟩)
    · exact .inr (.inl ⟨c, cs, rfl, hc, bytes_of_not_isWide hc cs⟩)

theorem takeWhile_bytes (hp : ∀ c d, IsWide c → IsWide d → p c = p d) (cs : List Char) :
    (bytes cs).takeWhile p = bytes (cs.takeWhile p) ∧
    (bytes cs).dropWhile p = bytes (cs.dropWhile p) := by
  induction cs with
  | nil => exact ⟨rfl, rfl⟩
  | cons c cs ih =>
    by_cases hwide : IsWide c
    · by_cases hc : p c
      · have hall : ∀ b ∈ bytes [c], p b :=
          fun b hb => hp c b hwide (isWide_of_mem_bytes hwide hb) ▸ hc
        rw [List.takeWhile_cons_of_pos hc, List.dropWhile_cons_of_pos hc, bytes_cons c cs,
          bytes_cons c (cs.takeWhile p), List.takeWhile_append_of_pos hall,
          List.dropWhile_append_of_pos hall, ih.1, ih.2]
        exact ⟨rfl, rfl⟩
      · obtain ⟨b, bs, hbs, hb⟩ := bytes_of_isWide hwide
        have hb : ¬p b := hp c b hwide hb ▸ hc
        rw [List.takeWhile_cons_of_neg hc, List.dropWhile_cons_of_neg hc, bytes_cons, hbs,
          List.cons_append, List.takeWhile_cons_of_neg hb, List.dropWhile_cons_of_neg hb]
        exact ⟨rfl, rfl⟩
    · rw [bytes_of_not_isWide hwide]
      by_cases hc : p c
      · rw [List.takeWhile_cons_of_pos hc, List.dropWhile_cons_of_pos hc,
          List.takeWhile_cons_of_pos hc, List.dropWhile_cons_of_pos hc,
          bytes_of_not_isWide hwide, ih.1, ih.2]
        exact ⟨rfl, rfl⟩
      · rw [List.takeWhile_cons_of_neg hc, List.dropWhile_cons_of_neg hc,
          List.takeWhile_cons_of_neg hc, List.dropWhile_cons_of_neg hc, bytes_of_not_isWide hwide]
        exact ⟨rfl, rfl⟩

theorem bytes_of_narrow {cs : List Char} (h : ∀ c ∈ cs, ¬IsWide c) : bytes cs = cs := by
  induction cs with
  | nil => rfl
  | cons c cs ih =>
    obtain ⟨hc, hcs⟩ := List.forall_mem_cons.1 h
    rw [bytes_of_not_isWide hc, ih hcs]

theorem takeWhile_bytes_narrow (hp : ∀ c, IsWide c → p c = false) (cs : List Char) :
    (bytes cs).takeWhile p = cs.takeWhile p ∧ (bytes cs).dropWhile p = bytes (cs.dropWhile p) ∧
      bytes (cs.takeWhile p) = cs.takeWhile p := by
  obtain ⟨htake, hdrop⟩ := takeWhile_bytes (fun c d hc hd => (hp c hc).trans (hp d hd).symm) cs
  have hnarrow : bytes (cs.takeWhile p) = cs.takeWhile p := by
    refine bytes_of_narrow fun c hc hwide => ?_
    have htrue := List.all_eq_true.1 List.all_takeWhile c hc
    simp [hp c hwide] at htrue
  exact ⟨htake.trans hnarrow, hdrop, hnarrow⟩

namespace Munch

variable {c : Char}

def encoded : Munch → Munch
  | .token lexeme text rest => .token lexeme (bytes text) (bytes rest)
  | .reserved word rest => .reserved (bytes word) (bytes rest)
  | .illegal ch => .illegal ((bytes [ch]).headD ch)

theorem encoded_word (hc : ¬IsWide c) (cs : List Char) :
    word c (bytes cs) = (word c cs).encoded := by
  obtain ⟨htake, hdrop, hnarrow⟩ := takeWhile_bytes_narrow (fun _ => IsWide.not_isWordChar) cs
  simp only [word, encoded, htake, hdrop, bytes_of_not_isWide hc, hnarrow]

theorem encoded_colonWord (cs : List Char) : colonWord (bytes cs) = (colonWord cs).encoded := by
  rcases bytes_cases cs with ⟨rfl, h⟩ | ⟨c, cs, rfl, hc, h⟩ | ⟨c, cs, b, bs,
    rfl, hc, h, hb⟩
  · rfl
  · obtain ⟨htake, hdrop, hnarrow⟩ :=
      takeWhile_bytes_narrow (fun _ => IsWide.not_isWordChar) cs
    rw [h]
    simp only [colonWord, htake, hdrop]
    split
    · rfl
    · split
      · simp only [encoded, bytes_of_not_isWide hc, hnarrow]
      · simp only [encoded, bytes_of_not_isWide (show ¬IsWide ':' by decide),
          bytes_of_not_isWide hc, hnarrow]
  · rw [h]
    simp only [colonWord, hc.not_isWordStart, hb.not_isWordStart, Bool.not_false, if_true]
    rfl

theorem encoded_number (hc : ¬IsWide c) (cs : List Char) :
    number c (bytes cs) = (number c cs).encoded := by
  obtain ⟨htake, hdrop, hnarrow⟩ := takeWhile_bytes_narrow (fun _ => IsWide.not_isDigit) cs
  have hpoint : ¬IsWide '.' := by decide
  by_cases h : (cs.dropWhile Char.isDigit).head? = some '.'
  · obtain ⟨rest, hrest⟩ := List.head?_eq_some_iff.1 h
    obtain ⟨htake', hdrop', hnarrow'⟩ :=
      takeWhile_bytes_narrow (fun _ => IsWide.not_isDigit) rest
    have hrest' : (bytes cs).dropWhile Char.isDigit = '.' :: bytes rest := by
      rw [hdrop, hrest, bytes_of_not_isWide hpoint]
    rw [number_of_point hrest, number_of_point hrest', htake, htake', hdrop']
    simp only [encoded, bytes_append, bytes_of_not_isWide hc, bytes_of_not_isWide hpoint,
      hnarrow, hnarrow']
  · have h' : ((bytes cs).dropWhile Char.isDigit).head? ≠ some '.' := by
      rw [hdrop]
      rcases bytes_cases (cs.dropWhile Char.isDigit) with ⟨-, hb⟩ | ⟨d, ds, hd, -,
        hb⟩ | ⟨d, ds, b, bs, hd, -, hb, hwide⟩
      · simp [hb]
      · rw [hb]
        simpa [hd] using h
      · rw [hb]
        simpa using hwide.ne hpoint
    rw [number_of_whole h, number_of_whole h', htake, hdrop]
    simp only [encoded, bytes_of_not_isWide hc, hnarrow]

theorem encoded_string {quote : Char} (hquote : ¬IsWide quote) (cs : List Char) :
    string quote (bytes cs) = (string quote cs).encoded := by
  have hne (d : Char) (hd : IsWide d) : (d != quote) = true := bne_iff_ne.2 (hd.ne hquote)
  obtain ⟨htake, hdrop⟩ :=
    takeWhile_bytes (fun c d hc hd => (hne c hc).trans (hne d hd).symm) cs
  have hhead := List.head?_dropWhile_not (· != quote) cs
  unfold string
  rw [hdrop, htake]
  cases hrest : cs.dropWhile (· != quote) with
  | nil => simp only [bytes_nil, encoded, bytes_of_not_isWide hquote, List.headD_cons]
  | cons q rest =>
    rw [hrest] at hhead
    obtain rfl : q = quote := by simpa using hhead
    rw [bytes_of_not_isWide hquote]
    simp only [encoded, bytes_append, bytes_of_not_isWide hquote, List.cons_append, bytes_nil]

theorem encoded_sign (hc : ¬IsWide c) (cs : List Char) :
    sign c (bytes cs) = (sign c cs).encoded := by
  have hnone (h : cs.head?.bind (pair? c) = none) : (bytes cs).head?.bind (pair? c) = none := by
    rcases bytes_cases cs with ⟨rfl, hb⟩ | ⟨d, ds, rfl, -, hb⟩ | ⟨d, ds, b, bs, rfl,
      -, hb, hwide⟩
    · rfl
    · rw [hb]
      exact h
    · rw [hb]
      exact IsWide.pair?_eq_none (.inr hwide)
  unfold sign
  cases h : cs.head?.bind (pair? c) with
  | some lexeme =>
    obtain ⟨d, hd, hlexeme⟩ := Option.bind_eq_some_iff.1 h
    obtain ⟨cs, rfl⟩ := List.head?_eq_some_iff.1 hd
    have hwide : ¬IsWide d := fun hwide => by simp [IsWide.pair?_eq_none (.inr hwide)] at hlexeme
    rw [bytes_of_not_isWide hwide]
    simp [hlexeme, encoded, bytes_of_not_isWide hc, bytes_of_not_isWide hwide]
  | none =>
    rw [hnone h]
    cases single? c <;> simp [encoded, bytes_of_not_isWide hc]

theorem ofText_bytes {cs bs : List Char} {b : Char} (h : bytes (c :: cs) = b :: bs) :
    ofText b bs = (ofText c cs).encoded := by
  by_cases hc : IsWide c
  · obtain ⟨b', bs', hbs, hb⟩ := bytes_of_isWide hc
    rw [bytes_cons, hbs, List.cons_append] at h
    obtain ⟨rfl, rfl⟩ := List.cons.inj h
    have hillegal {d : Char} (hd : IsWide d) (ds : List Char) : ofText d ds = .illegal d := by
      have hcolon := hd.ne (show ¬IsWide ':' by decide)
      have hquote := hd.ne (show ¬IsWide '\'' by decide)
      have hquote' := hd.ne (show ¬IsWide '"' by decide)
      have hpair : ds.head?.bind (pair? d) = none := by
        cases ds.head? with
        | none => rfl
        | some d' => exact IsWide.pair?_eq_none (.inl hd)
      simp [ofText, hd.not_isWordStart, hd.not_isDigit, hcolon, hquote, hquote', sign, hpair,
        hd.single?_eq_none]
    rw [hillegal hb, hillegal hc, encoded, hbs]
    rfl
  · rw [bytes_of_not_isWide hc] at h
    obtain ⟨rfl, rfl⟩ := List.cons.inj h
    unfold ofText
    split
    · exact encoded_word hc cs
    · split
      · exact encoded_colonWord cs
      · split
        · exact encoded_number hc cs
        · split
          · exact encoded_string hc cs
          · exact encoded_sign hc cs

end Munch

structure Cursor where
  offset : Nat
  line : Nat

def slice? (source : String) (start stop : Nat) : Option String :=
  if start ≤ stop ∧ (String.Pos.Raw.mk start).IsValid source ∧
    (String.Pos.Raw.mk stop).IsValid source then
    String.fromUTF8? (source.toByteArray.extract start stop)
  else none

namespace Cursor

def rest (source : String) (cursor : Cursor) : List Char :=
  (source.toByteArray.data.toList.drop cursor.offset).map Char.ofUInt8

def skip (source : String) (comment : Option Nat) (offset line : Nat) :
    List Char → Option (List Event × Cursor)
  | [] =>
    match comment with
    | none => some ([], ⟨offset, line⟩)
    | some start => do return ([.comment line (← slice? source start offset)], ⟨offset, line⟩)
  | b :: bs =>
    match comment with
    | none =>
      if b == ' ' || b == '\t' || b == '\r' then skip source none (offset + 1) line bs
      else if b == '\n' then skip source none (offset + 1) (line + 1) bs
      else if b == '#' then skip source (some offset) (offset + 1) line bs
      else some ([], ⟨offset, line⟩)
    | some start =>
      if b == '\n' then do
        let text ← slice? source start offset
        let (notes, after) ← skip source none (offset + 1) (line + 1) bs
        return (.comment line text :: notes, after)
      else skip source (some start) (offset + 1) line bs

def next (source : String) (cursor : Cursor) :
    Option (Except Error (Option Token) × Cursor × List Event) := do
  let (notes, cursor) ← skip source none cursor.offset cursor.line (cursor.rest source)
  match cursor.rest source with
  | [] => return (.ok none, cursor, notes)
  | b :: bs =>
    match Munch.ofText b bs with
    | .token lexeme text _ =>
      let stop := cursor.offset + text.length
      let text ← slice? source cursor.offset stop
      let token := ⟨lexeme, text, cursor.line⟩
      return (.ok (some token), ⟨stop, cursor.line + text.toList.count '\n'⟩,
        notes ++ [.token token])
    | .reserved word _ =>
      let stop := cursor.offset + 1 + word.length
      let word ← slice? source (cursor.offset + 1) stop
      return (.error (.reservedIdentifier cursor.line word), ⟨stop, cursor.line⟩, notes)
    | .illegal _ =>
      let rest ← slice? source cursor.offset source.utf8ByteSize
      return (.error (.illegalCharacter cursor.line (rest.toList.headD '\x00')), cursor, notes)

end Cursor

theorem toByteArray_eq (source : String) :
    source.toByteArray.data.toList.map Char.ofUInt8 = bytes source.toList := by
  rw [← String.utf8Encode_toList, List.utf8Encode, List.data_toByteArray, List.toList_toArray,
    List.map_flatMap]
  rfl

theorem length_bytes (cs : List Char) : (bytes cs).length = (String.ofList cs).utf8ByteSize := by
  rw [← String.toList_ofList (l := cs), ← toByteArray_eq, List.length_map, String.ofList_toList]
  rfl

theorem isValid_length_bytes {before rest : List Char} (h : source.toList = before ++ rest) :
    (String.Pos.Raw.mk (bytes before).length).IsValid source := by
  rw [String.Pos.Raw.isValid_iff_exists_append]
  refine ⟨String.ofList before, String.ofList rest, ?_, ?_⟩
  · rw [← String.ofList_append, ← h, String.ofList_toList]
  · rw [length_bytes]
    rfl

theorem slice?_eq {before text rest : List Char} (h : source.toList = before ++ text ++ rest) :
    slice? source (bytes before).length ((bytes before).length + (bytes text).length) =
    some (String.ofList text) := by
  have hstop := isValid_length_bytes h
  have hstart := isValid_length_bytes (h.trans (List.append_assoc ..))
  rw [bytes_append, List.length_append] at hstop
  have hextract :
      source.toByteArray.extract (bytes before).length
      ((bytes before).length + (bytes text).length) = (String.ofList text).toByteArray := by
    have hsize (cs : List Char) : (bytes cs).length = cs.utf8Encode.size := by
      rw [length_bytes, ← String.toByteArray_ofList]
      rfl
    rw [← String.utf8Encode_toList, h, List.append_assoc, List.utf8Encode_append,
      List.utf8Encode_append, ← Nat.add_zero (bytes before).length, Nat.add_assoc,
      ByteArray.extract_append_size_add' (hsize before), Nat.zero_add,
      ByteArray.extract_append_eq_left (hsize text), String.toByteArray_ofList]
  rw [slice?, if_pos ⟨Nat.le_add_right _ _, hstart, hstop⟩, hextract, String.fromUTF8?,
    dif_pos (String.ofList text).isValidUTF8]
  rfl

namespace Cursor

variable {source : String} {cursor : Cursor} {input : Input}

theorem rest_eq {before rest : List Char} (h : source.toList = before ++ rest) (line : Nat) :
    (⟨(bytes before).length, line⟩ : Cursor).rest source = bytes rest := by
  rw [Cursor.rest, List.map_drop, toByteArray_eq, h, bytes_append, List.drop_left]

theorem skip_append {ds : List Char} (h : '\n' ∉ ds) (start offset line : Nat) (bs : List Char) :
    skip source (some start) offset line (ds ++ bs) =
    skip source (some start) (offset + ds.length) line bs := by
  induction ds generalizing offset with
  | nil => rfl
  | cons d ds ih =>
    rw [List.mem_cons, not_or] at h
    have hd : (d == '\n') = false := beq_eq_false_iff_ne.2 (Ne.symm h.1)
    simp only [List.cons_append, skip, hd, Bool.false_eq_true, if_false]
    rw [ih h.2, List.length_cons, Nat.add_assoc, Nat.add_comm 1]

theorem skip_eq (comment : Option (List Char)) {before cs : List Char}
    (h : source.toList = before ++ (comment.getD []).reverse ++ cs) (line : Nat) :
    ∃ before', source.toList = before' ++ (Input.skip comment line cs).2.rest ∧
      skip source (comment.map fun _ => (bytes before).length)
          (bytes (before ++ (comment.getD []).reverse)).length line (bytes cs) =
        some ((Input.skip comment line cs).1,
          ⟨(bytes before').length, (Input.skip comment line cs).2.line⟩) := by
  induction cs generalizing comment before line with
  | nil =>
    refine ⟨_, h.trans (by rw [Input.skip_of_nil]), ?_⟩
    cases comment with
    | none => rfl
    | some text =>
      have hslice := slice?_eq h
      simp only [Option.map_some, Option.getD_some, bytes_append, List.length_append, bytes_nil,
        skip] at hslice ⊢
      rw [hslice]
      rfl
  | cons c cs ih =>
    cases comment with
    | none =>
      have hnext : source.toList =
        before ++ [c] ++ (Option.getD none ([] : List Char)).reverse ++ cs := by simpa using h
      by_cases hwide : IsWide c
      · obtain ⟨b, bs, hbs, hb⟩ := bytes_of_isWide hwide
        obtain ⟨hblank, hnewline, hcomment⟩ := hwide.not_skipped
        obtain ⟨hblank', hnewline', hcomment'⟩ := hb.not_skipped
        rw [bytes_cons, hbs, List.cons_append]
        simp only [Input.skip, skip, Option.map_none, hblank, hnewline, hcomment, hblank',
          hnewline', hcomment', Bool.false_eq_true, if_false]
        exact ⟨_, h, rfl⟩
      · have hlength :
            (bytes (before ++ [c] ++ (Option.getD none ([] : List Char)).reverse)).length =
            (bytes (before ++ (Option.getD none ([] : List Char)).reverse)).length + 1 := by
          simp [bytes_of_not_isWide hwide]
        have hskip (line : Nat) := ih none hnext line
        rw [bytes_of_not_isWide hwide]
        simp only [Input.skip, skip, Option.map_none, hlength] at hskip ⊢
        split
        · exact hskip line
        · split
          · exact hskip (line + 1)
          · split
            · have hcomment :=
                ih (some [c]) (show source.toList = before ++ [c].reverse ++ cs by simpa using h)
                line
              simpa [bytes_of_not_isWide hwide] using hcomment
            · exact ⟨_, h, rfl⟩
    | some text =>
      by_cases hnewline : c = '\n'
      · subst hnewline
        have hslice := slice?_eq h
        have hnext : source.toList =
            before ++ text.reverse ++ ['\n'] ++ (Option.getD none ([] : List Char)).reverse ++
            cs := by simpa using h
        obtain ⟨before', hbefore', hskip⟩ := ih none hnext (line + 1)
        refine ⟨before', hbefore', ?_⟩
        rw [bytes_of_not_isWide (show ¬IsWide '\n' by decide)]
        simp only [Option.getD_some, Option.map_some, Option.getD_none, List.reverse_nil,
          List.append_nil, bytes_append, List.length_append, Option.map_none,
          bytes_of_not_isWide (show ¬IsWide '\n' by decide), bytes_nil,
          List.length_singleton] at hslice hskip ⊢
        simp only [skip, beq_self_eq_true, if_true, hslice, hskip, Input.skip]
        rfl
      · have hbytes : '\n' ∉ bytes [c] := by
          by_cases hwide : IsWide c
          · exact fun hmem => absurd (isWide_of_mem_bytes hwide hmem) (by decide)
          · simpa [bytes_of_not_isWide hwide, eq_comm] using hnewline
        have hnext : source.toList = before ++ (c :: text).reverse ++ cs := by simpa using h
        have hskip := ih (some (c :: text)) hnext line
        simp only [Option.map_some, Option.getD_some] at hskip ⊢
        rw [bytes_cons, skip_append hbytes]
        simpa [Input.skip, hnewline, Nat.add_assoc] using hskip

def StandsAt (source : String) (cursor : Cursor) (input : Input) : Prop :=
  ∃ before, source.toList = before ++ input.rest ∧
  cursor = ⟨(bytes before).length, input.line⟩

theorem StandsAt.isValid (h : cursor.StandsAt source input) :
    (String.Pos.Raw.mk cursor.offset).IsValid source := by
  obtain ⟨before, hsource, rfl⟩ := h
  exact isValid_length_bytes hsource

theorem StandsAt.next (h : cursor.StandsAt source input) :
    ∃ after, after.StandsAt source input.next.after ∧
    cursor.next source = some (input.next.result, after, input.next.notes) := by
  obtain ⟨before, hsource, rfl⟩ := h
  have hskip :=
    skip_eq none (show source.toList = before ++ [].reverse ++ input.rest by simpa using hsource)
    input.line
  simp only [Option.map_none, Option.getD_none, List.reverse_nil, List.append_nil] at hskip
  unfold Cursor.next Input.next
  simp only [rest_eq hsource]
  generalize Input.skip none input.line input.rest = skipped at hskip
  obtain ⟨notes, rest, line⟩ := skipped
  obtain ⟨before', hsource', hskip⟩ := hskip
  rw [hskip]
  dsimp only at hsource' ⊢
  simp only [bind, Option.bind, rest_eq hsource']
  cases rest with
  | nil => exact ⟨_, ⟨before', hsource', rfl⟩, rfl⟩
  | cons c cs =>
    have hmeets := Munch.meets_ofText c cs
    obtain ⟨b, bs, hbs⟩ :=
      List.exists_cons_of_ne_nil (show bytes (c :: cs) ≠ [] by simp [bytes])
    have hmunch := Munch.ofText_bytes hbs
    rw [hbs]
    simp only [hmunch]
    cases hm : Munch.ofText c cs with
    | token lexeme text rest =>
      rw [hm] at hmeets
      have htext : source.toList =
        before' ++ text ++ rest := by rw [hsource', ← hmeets.2.2, List.append_assoc]
      simp only [Munch.encoded, slice?_eq htext, String.toList_ofList]
      refine ⟨_, ⟨before' ++ text, htext, ?_⟩, rfl⟩
      rw [bytes_append, List.length_append]
    | reserved word rest =>
      rw [hm] at hmeets
      have hcolon : ¬IsWide ':' := by decide
      have hword : source.toList = before' ++ [':'] ++ word ++ rest := by
        rw [hsource', ← hmeets.2.2]
        simp
      have hslice := slice?_eq hword
      simp only [bytes_append, bytes_of_not_isWide hcolon, bytes_nil, List.length_append,
        List.length_singleton] at hslice
      simp only [Munch.encoded, hslice]
      refine ⟨_, ⟨before' ++ [':'] ++ word, hword, ?_⟩, rfl⟩
      rw [bytes_append, bytes_append, bytes_of_not_isWide hcolon, List.length_append,
        List.length_append]
      rfl
    | illegal ch =>
      rw [hm] at hmeets
      obtain rfl : c = ch := Option.some.inj hmeets.1
      have hslice :=
        slice?_eq (show source.toList = before' ++ c :: cs ++ [] by rw [hsource', List.append_nil])
      have hsize : (bytes before').length + (bytes (c :: cs)).length = source.utf8ByteSize := by
        rw [← List.length_append, ← bytes_append, ← hsource', length_bytes,
          String.ofList_toList]
      rw [hsize] at hslice
      simp only [Munch.encoded, hslice, String.toList_ofList]
      exact ⟨_, ⟨before', hsource', rfl⟩, rfl⟩

end Cursor

end TurtleCompiler
