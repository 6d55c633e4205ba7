import TurtleCompiler.Proofs.SymbolTable
import TurtleCompiler.Proofs.TemplateGrammar

/-!
What becomes of a template's text. Rendered without any values, a template is its source with each
index in the fewest digits.
-/

namespace TurtleCompiler

namespace Numeral

def IsShortest (index : List Char) : Prop :=
  index.head? ≠ some '+' ∧ (index.head? = some '0' → index = ['0'])

variable {digits index : List Char} {c : Char} {n : Nat}

theorem digitChar_toNat_sub (hc : c.isDigit) :
    c.toNat - '0'.toNat < 10 ∧ Nat.digitChar (c.toNat - '0'.toNat) = c := by
  obtain ⟨hle, hle'⟩ := Char.isDigit_iff_toNat.1 hc
  have hzero : '0'.toNat = 48 := rfl
  have hnine : '9'.toNat = 57 := rfl
  have hlt : c.toNat - '0'.toNat < 10 := by omega
  refine ⟨hlt, Char.toNat_inj.1 ?_⟩
  rw [Nat.toNat_digitChar_of_lt_ten hlt]
  omega

theorem toDigits_ofDigitChars (hdigits : ∀ c ∈ digits, c.isDigit) (hn : 0 < n) :
    Nat.toDigits 10 (Nat.ofDigitChars 10 digits n) = Nat.toDigits 10 n ++ digits := by
  induction digits generalizing n with
  | nil => simp
  | cons c digits ih =>
    obtain ⟨hc, hdigits⟩ := List.forall_mem_cons.1 hdigits
    obtain ⟨hlt, hchar⟩ := digitChar_toNat_sub hc
    rw [Nat.ofDigitChars_cons, ih hdigits (by omega),
      ← Nat.toDigits_append_toDigits (by decide) hn hlt,
      Nat.toDigits_of_lt_base hlt, hchar, List.append_assoc, List.singleton_append]

theorem toDigits_value (hdigits : ∀ c ∈ digits, c.isDigit) (hne : digits ≠ [])
    (hzero : digits.head? = some '0' → digits = ['0']) :
    Nat.toDigits 10 (value digits) = digits := by
  obtain ⟨c, cs, rfl⟩ := List.exists_cons_of_ne_nil hne
  by_cases hc : c = '0'
  · rw [hzero (by rw [hc, List.head?_cons])]
    decide
  · obtain ⟨hdigit, hcs⟩ := List.forall_mem_cons.1 hdigits
    obtain ⟨hlt, hchar⟩ := digitChar_toNat_sub hdigit
    have hpos : 0 < c.toNat - '0'.toNat := by
      refine Nat.pos_of_ne_zero fun h => hc ?_
      rw [← hchar, h]
      decide
    change Nat.toDigits 10 (Nat.ofDigitChars 10 (c :: cs) 0) = c :: cs
    rw [Nat.ofDigitChars_cons, Nat.mul_zero, Nat.zero_add, toDigits_ofDigitChars hcs hpos,
      Nat.toDigits_of_lt_base hlt, hchar, List.singleton_append]

theorem value_toDigits (n : Nat) : value (Nat.toDigits 10 n) = n := Nat.ofDigitChars_ten_toDigits

theorem isIndex_toDigits (hlt : n < UInt64.size) : IsIndex (Nat.toDigits 10 n) n := by
  have hdigits : ∀ c ∈ Nat.toDigits 10 n, c.isDigit :=
    fun _ => Nat.isDigit_of_mem_toDigits (by decide) (by decide)
  have hindex := IsIndex.unsigned Nat.toDigits_ne_nil hdigits (by rwa [value_toDigits])
  rwa [value_toDigits] at hindex

theorem isShortest_toDigits (n : Nat) : IsShortest (Nat.toDigits 10 n) := by
  refine ⟨fun h =>
    absurd (Nat.isDigit_of_mem_toDigits (by decide) (by decide) (List.mem_of_head? h)) (by decide),
    ?_⟩
  induction n using Nat.base_induction 10 (by decide) with
  | single m hm => simp [Nat.toDigits_of_lt_base hm]
  | digit m k hk hm ih =>
    intro h
    rw [← Nat.toDigits_append_toDigits (by decide) hm hk,
      List.head?_append_of_ne_nil _ Nat.toDigits_ne_nil] at h
    -- the digits before the last one are those of a positive number
    have hzero := congrArg value (ih h)
    rw [value_toDigits] at hzero
    exact absurd hzero (Nat.ne_of_gt hm)

theorem IsIndex.lt (h : IsIndex index n) : n < UInt64.size := by
  cases h with
  | unsigned _ _ hlt => exact hlt
  | signed _ _ hlt => exact hlt

theorem IsIndex.toDigits_eq_iff (h : IsIndex index n) :
    Nat.toDigits 10 n = index ↔ IsShortest index := by
  constructor
  · rintro rfl
    exact isShortest_toDigits n
  · rintro ⟨hplus, hzero⟩
    cases h with
    | unsigned hne hdigits _ => exact toDigits_value hdigits hne hzero
    | signed => simp at hplus

end Numeral

namespace Placeholder

def IsShortest (source : List Char) : Prop :=
  ∀ index, source = "argv[".toList ++ (index ++ "]".toList) ∨
    source = "params[".toList ++ (index ++ "].name".toList) → Numeral.IsShortest index

variable {source : List Char} {p : Placeholder}

theorem IsSource.shortest (h : IsSource source p) : IsSource p.source.toList p := by
  cases h with
  | name => exact .name
  | callArgumentCount => exact .callArgumentCount
  | argument hindex =>
    simpa [Placeholder.source] using IsSource.argument (Numeral.isIndex_toDigits hindex.lt)
  | callArgument hindex =>
    simpa [Placeholder.source] using IsSource.callArgument (Numeral.isIndex_toDigits hindex.lt)

theorem IsSource.source_eq_iff (h : IsSource source p) :
    p.source.toList = source ↔ IsShortest source := by
  cases h with
  | name => simp [Placeholder.source, IsShortest]
  | callArgumentCount => simp [Placeholder.source, IsShortest]
  | argument hindex => simp [Placeholder.source, IsShortest, ← hindex.toDigits_eq_iff]
  | callArgument hindex => simp [Placeholder.source, IsShortest, ← hindex.toDigits_eq_iff]

theorem IsSource.unique {p' : Placeholder} (h : IsSource source p)
    (h' : IsSource source p') : p = p' :=
  Option.some.inj ((ofSource?_eq_some.2 h).symm.trans (ofSource?_eq_some.2 h'))

end Placeholder

namespace Template

inductive Piece where
  | text (cs : List Char)
  | hole (source : List Char) (p : Placeholder)

namespace Piece

def written : Piece → List Char
  | .text cs => cs
  | .hole source _ => '\x7b' :: (source ++ ['\x7d'])

def filled (ctx : Context) : Piece → List Char
  | .text cs => cs
  | .hole source p => ((p.fill? ctx).map String.toList).getD (written (.hole source p))

def shortest : Piece → Piece
  | .text cs => .text cs
  | .hole _ p => .hole p.source.toList p

def parts : Piece → List Part
  | .text cs => textPart cs
  | .hole _ p => [.hole p]

variable (piece : Piece)

@[simp] theorem filled_unknown : piece.filled {} = piece.written := by
  obtain _ | ⟨_, _ | _ | _ | _⟩ := piece <;> rfl

@[simp] theorem parts_shortest : piece.shortest.parts = piece.parts := by
  cases piece <;> rfl

theorem render_parts (ctx : Context) :
    (piece.parts.flatMap fun part => (part.render ctx).toList) = piece.shortest.filled ctx := by
  cases piece with
  | text cs => cases cs <;> simp [parts, textPart, Part.render, shortest, filled]
  | hole source p =>
    cases h : p.fill? ctx <;> simp [parts, Part.render, shortest, filled, written, h]

end Piece

inductive Splits : List Char → List Piece → Prop
  | last (hopen : '\x7b' ∉ cs) (hclose : '\x7d' ∉ cs) : Splits cs [.text cs]
  | hole (hopen : '\x7b' ∉ cs) (hp : Placeholder.IsSource source p) (hrest : Splits rest pieces) :
      Splits (cs ++ '\x7b' :: (source ++ '\x7d' :: rest)) (.text cs :: .hole source p :: pieces)

variable {cs : List Char} {pieces : List Piece}

theorem Splits.written (h : Splits cs pieces) : pieces.flatMap Piece.written = cs := by
  induction h with
  | last => simp [Piece.written]
  | hole _ _ _ ih => simp [Piece.written, ih]

theorem Splits.unique {pieces' : List Piece} (h : Splits cs pieces) (h' : Splits cs pieces') :
    pieces = pieces' := by
  induction h generalizing pieces' with
  | last hopen _ =>
    cases h' with
    | last => rfl
    | hole => simp at hopen
  | @hole cs source p rest pieces hopen hp hrest ih =>
    generalize htext : cs ++ '\x7b' :: (source ++ '\x7d' :: rest) = text at h'
    cases h' with
    | last hopen' => simp [← htext] at hopen'
    | hole hopen' hp' hrest' =>
      obtain ⟨rfl, hinner⟩ := append_cons_inj_of_not_mem hopen hopen' htext
      obtain ⟨rfl, rfl⟩ := append_cons_inj_of_not_mem hp.not_mem hp'.not_mem hinner
      rw [hp.unique hp', ih hrest']

theorem Splits.iff_eq (h : Splits cs pieces) (pieces' : List Piece) :
    Splits cs pieces' ↔ pieces' = pieces := by
  constructor
  · intro h'
    exact h'.unique h
  · rintro rfl
    exact h

theorem Splits.reads (h : Splits cs pieces) : Reads cs (pieces.flatMap Piece.parts) := by
  induction h with
  | last hopen hclose => simpa [Piece.parts] using Reads.last hopen hclose
  | hole hopen hp _ ih => simpa [Piece.parts] using Reads.hole hopen hp ih

theorem Reads.splits {ps : List Part} (h : Reads cs ps) :
    ∃ pieces, Splits cs pieces ∧ pieces.flatMap Piece.parts = ps := by
  induction h with
  | last hopen hclose => exact ⟨_, .last hopen hclose, by simp [Piece.parts]⟩
  | hole hopen hp _ ih =>
    obtain ⟨pieces, hpieces, rfl⟩ := ih
    exact ⟨_, .hole hopen hp hpieces, by simp [Piece.parts]⟩

theorem Splits.shortest (h : Splits cs pieces) :
    Splits (pieces.flatMap (·.shortest.written)) (pieces.map Piece.shortest) := by
  induction h with
  | last hopen hclose => simpa [Piece.shortest, Piece.written] using Splits.last hopen hclose
  | hole hopen hp _ ih =>
    simpa [Piece.shortest, Piece.written] using Splits.hole hopen hp.shortest ih

theorem Splits.isSource {source : List Char} {p : Placeholder} (h : Splits cs pieces)
    (hmem : .hole source p ∈ pieces) : Placeholder.IsSource source p := by
  induction h with
  | last => simp at hmem
  | hole _ hp _ ih =>
    simp only [List.mem_cons, reduceCtorEq, false_or, Piece.hole.injEq] at hmem
    rcases hmem with ⟨rfl, rfl⟩ | hmem
    · exact hp
    · exact ih hmem

theorem Splits.shortest_eq_iff (h : Splits cs pieces) :
    pieces.map Piece.shortest = pieces ↔ ∀ source p, .hole source p ∈ pieces →
    Placeholder.IsShortest source := by
  have hmap : pieces.map Piece.shortest = pieces ↔
      ∀ piece ∈ pieces, piece.shortest = piece := by
    simpa using List.map_inj_left (f := Piece.shortest) (g := id) (l := pieces)
  rw [hmap]
  constructor
  · intro hall source p hmem
    exact (h.isSource hmem).source_eq_iff.1 (Piece.hole.inj (hall _ hmem)).1
  · rintro hall (_ | ⟨source, p⟩) hmem
    · rfl
    · exact congrArg (Piece.hole · p) ((h.isSource hmem).source_eq_iff.2 (hall source p hmem))

theorem Splits.written_shortest_eq_iff (h : Splits cs pieces) :
    pieces.flatMap (·.shortest.written) = cs ↔ pieces.map Piece.shortest = pieces := by
  constructor
  · intro heq
    have hshortest := h.shortest
    rw [heq] at hshortest
    exact hshortest.unique h
  · intro heq
    rw [← List.flatMap_map, heq, h.written]

variable {s : String} {t : Template}

theorem Splits.parse_eq (h : Splits s.toList pieces) :
    parse s = .ok ⟨pieces.flatMap Piece.parts⟩ :=
  parse_eq_ok.2 h.reads

theorem exists_splits (h : parse s = .ok t) :
    ∃ pieces, Splits s.toList pieces ∧ t = ⟨pieces.flatMap Piece.parts⟩ := by
  obtain ⟨ps⟩ := t
  obtain ⟨pieces, hpieces, rfl⟩ := (parse_eq_ok.1 h).splits
  exact ⟨pieces, hpieces, rfl⟩

theorem toList_render (pieces : List Piece) (ctx : Context) :
    (render ⟨pieces.flatMap Piece.parts⟩ ctx).toList = pieces.flatMap
    (·.shortest.filled ctx) := by
  simp only [render, String.toList_join, List.map_flatMap, List.flatMap_assoc, List.flatMap_map,
    Piece.render_parts]

theorem toList_render_unknown (pieces : List Piece) :
    (render ⟨pieces.flatMap Piece.parts⟩ {}).toList = pieces.flatMap (·.shortest.written) := by
  simp only [toList_render, Piece.filled_unknown]

/-- A template that is rendered without values gives its source back, but for its indices, which are
written in as few characters as they take. So it gives back exactly the sources in which no index
has a plus or a needless zero. -/
theorem unfilled_eq_source_iff (h : parse s = .ok t) :
    ∃ pieces, (∀ pieces', Splits s.toList pieces' ↔ pieces' = pieces) ∧
      (t.render {}).toList = pieces.flatMap (·.shortest.written) ∧
      (t.render {} = s ↔ ∀ source p, .hole source p ∈ pieces →
        Placeholder.IsShortest source) := by
  obtain ⟨pieces, hpieces, rfl⟩ := exists_splits h
  refine ⟨pieces, hpieces.iff_eq, toList_render_unknown pieces, ?_⟩
  rw [← String.toList_inj, toList_render_unknown, hpieces.written_shortest_eq_iff,
    hpieces.shortest_eq_iff]

theorem unfilled_eq_source_iff_params :
    let s := "STOR \x7bparams[12].name\x7d"
    ∃ t, parse s = .ok t ∧ t.render {} = s := by
  intro s
  have hparse : parse s = .ok ⟨[.text "STOR ".toList, .hole (.callArgument 12)]⟩ := by decide
  have hsource : Placeholder.IsSource "params[12].name".toList (.callArgument 12) :=
    Placeholder.ofSource?_eq_some.1 (by decide)
  have htext :
      s.toList = "STOR ".toList ++ '\x7b' :: ("params[12].name".toList ++ ['\x7d']) := by decide
  have hsplits :=
    Splits.hole (show '\x7b' ∉ "STOR ".toList by decide) hsource
    (.last List.not_mem_nil List.not_mem_nil)
  obtain ⟨pieces, hpieces, -, hiff⟩ := unfilled_eq_source_iff hparse
  rw [← htext, hpieces] at hsplits
  subst hsplits
  refine ⟨_, hparse, hiff.2 fun source p hmem => ?_⟩
  obtain ⟨rfl, rfl⟩ : source = "params[12].name".toList ∧
    p = .callArgument 12 := by simpa using hmem
  exact hsource.source_eq_iff.1 (by decide)

/-- Zeros before an index are lost. -/
theorem unfilled_loses_zeros :
    let s := "LOAD \x7bargv[007]\x7d"
    ∃ t, parse s = .ok t ∧ t.render {} = "LOAD \x7bargv[7]\x7d" ∧ t.render {} ≠ s :=
  ⟨⟨[.text "LOAD ".toList, .hole (.argument 7)]⟩, by decide, by decide, by decide⟩

/-- What a template is rendered to without values is a text of the same template. In any context the
template is rendered to the pieces of that text in their order, with the values of the context in
place of the holes for which it has one. -/
theorem parse_unfilled (h : parse s = .ok t) :
    parse (t.render {}) = .ok t ∧
      ∃ pieces, (∀ pieces', Splits (t.render {}).toList pieces' ↔ pieces' = pieces) ∧
        ∀ ctx, (t.render ctx).toList = pieces.flatMap (·.filled ctx) := by
  obtain ⟨pieces, hpieces, rfl⟩ := exists_splits h
  have hsplits := hpieces.shortest
  rw [← toList_render_unknown] at hsplits
  refine ⟨?_, pieces.map Piece.shortest, hsplits.iff_eq, fun ctx => ?_⟩
  · rw [hsplits.parse_eq, List.flatMap_map]
    simp only [Piece.parts_shortest]
  · rw [toList_render, List.flatMap_map]

theorem parse_unfilled_brace :
    let t : Template := ⟨[.text "a\x7d ".toList, .hole (.argument 1), .hole .name]⟩
    parse "a\x7d \x7bargv[+1]\x7d\x7bname\x7d" = .ok t ∧
      parse "a\x7d \x7bargv[1]\x7d\x7bname\x7d" = .ok t ∧
      ∃ pieces, Splits "a\x7d \x7bargv[1]\x7d\x7bname\x7d".toList pieces ∧
        ∀ ctx, (t.render ctx).toList = pieces.flatMap (·.filled ctx) := by
  intro t
  have hparse : parse "a\x7d \x7bargv[+1]\x7d\x7bname\x7d" = .ok t := by decide
  have hrender : t.render {} = "a\x7d \x7bargv[1]\x7d\x7bname\x7d" := by decide
  obtain ⟨hagain, pieces, hpieces, hfilled⟩ := parse_unfilled hparse
  rw [hrender] at hagain hpieces
  exact ⟨hparse, hagain, pieces, (hpieces pieces).2 rfl, hfilled⟩

end Template

end TurtleCompiler
