import TurtleCompiler.Template
import Mathlib.Data.List.Basic

/-!
The grammar of templates. A closing brace may stand in any text but the last.
-/

namespace TurtleCompiler

inductive Numeral.IsIndex : List Char → Nat → Prop
  | unsigned (hne : digits ≠ []) (hdigits : ∀ c ∈ digits, c.isDigit)
      (hlt : value digits < UInt64.size) : IsIndex digits (value digits)
  | signed (hne : digits ≠ []) (hdigits : ∀ c ∈ digits, c.isDigit)
      (hlt : value digits < UInt64.size) : IsIndex ('+' :: digits) (value digits)

theorem Numeral.natural?_eq_some {cs : List Char} {n : Nat} :
    natural? cs = some n ↔ cs ≠ [] ∧ (∀ c ∈ cs, c.isDigit) ∧ value cs = n := by
  unfold natural?
  split
  · next h => grind
  · next h => simp_all

theorem Numeral.index?_eq_some {cs : List Char} {n : Nat} :
    index? cs = some n ↔ IsIndex cs n := by
  constructor
  · intro h
    unfold index? at h
    split at h <;> obtain ⟨h, hlt⟩ := Option.filter_eq_some_iff.1 h <;>
      obtain ⟨hne, hdigits, rfl⟩ := natural?_eq_some.1 h
    · exact .signed hne hdigits (by simpa using hlt)
    · exact .unsigned hne hdigits (by simpa using hlt)
  · intro h
    cases h with
    | unsigned hne hdigits hlt =>
      have hplain : index? cs = (natural? cs).filter (· < UInt64.size) := by
        unfold index?
        split
        · exact absurd (hdigits '+' (by simp)) (by decide)
        · rfl
      rw [hplain, natural?_eq_some.2 ⟨hne, hdigits, rfl⟩]
      exact Option.filter_some_pos (by simpa using hlt)
    | signed hne hdigits hlt =>
      rw [index?, natural?_eq_some.2 ⟨hne, hdigits, rfl⟩]
      exact Option.filter_some_pos (by simpa using hlt)

theorem Numeral.IsIndex.not_mem {cs : List Char} {n : Nat} (h : IsIndex cs n) : '\x7d' ∉ cs := by
  intro hmem
  cases h with
  | unsigned _ hdigits _ => exact absurd (hdigits _ hmem) (by decide)
  | signed _ hdigits _ => exact absurd (hdigits _ (by simpa using hmem)) (by decide)

namespace Placeholder

inductive IsSource : List Char → Placeholder → Prop
  | name : IsSource "name".toList .name
  | callArgumentCount : IsSource "params_len".toList .callArgumentCount
  | argument (hindex : Numeral.IsIndex cs n) :
      IsSource ("argv[".toList ++ (cs ++ "]".toList)) (.argument n)
  | callArgument (hindex : Numeral.IsIndex cs n) :
      IsSource ("params[".toList ++ (cs ++ "].name".toList)) (.callArgument n)

theorem indexBetween?_eq_some {opening closing : String} {cs : List Char} {n : Nat} :
    indexBetween? opening closing cs = some n ↔
      ∃ index, Numeral.IsIndex index n ∧ cs = opening.toList ++ (index ++ closing.toList) := by
  simp only [indexBetween?, Option.bind_eq_bind, Option.bind_eq_some_iff,
    List.isPrefixOf?_eq_some_iff_append_eq, List.isSuffixOf?_eq_some_iff_append_eq,
    Numeral.index?_eq_some]
  constructor
  · rintro ⟨rest, rfl, index, rfl, h⟩
    exact ⟨index, h, rfl⟩
  · rintro ⟨index, h, rfl⟩
    exact ⟨_, rfl, index, rfl, h⟩

theorem indexBetween?_append (opening closing : String) {index : List Char} {n : Nat}
    (h : Numeral.IsIndex index n) :
    indexBetween? opening closing (opening.toList ++ (index ++ closing.toList)) = some n :=
  indexBetween?_eq_some.2 ⟨index, h, rfl⟩

variable {p : Placeholder}

theorem ofSource?_eq_some {cs : List Char} : ofSource? cs = some p ↔ IsSource cs p := by
  constructor
  · intro h
    unfold ofSource? at h
    split at h
    · next hname => obtain rfl := hname; cases h; exact .name
    split at h
    · next hcount => obtain rfl := hcount; cases h; exact .callArgumentCount
    rw [Option.orElse_eq_orElse, Option.orElse_eq_or, Option.or_eq_some_iff] at h
    rcases h with h | ⟨-, h⟩ <;> obtain ⟨n, hn, rfl⟩ := Option.map_eq_some_iff.1 h <;>
      obtain ⟨index, hindex, rfl⟩ := indexBetween?_eq_some.1 hn
    · exact .argument hindex
    · exact .callArgument hindex
  · intro h
    cases h with
    | name => rfl
    | callArgumentCount => rfl
    | argument hindex =>
      have hbetween := indexBetween?_append "argv[" "]" hindex
      rw [ofSource?, if_neg (by simp), if_neg (by simp), hbetween]
      rfl
    | @callArgument index _ hindex =>
      have hother :
          indexBetween? "argv[" "]" ("params[".toList ++ (index ++ "].name".toList)) = none := by
        simp [indexBetween?, List.isPrefixOf?]
      have hbetween := indexBetween?_append "params[" "].name" hindex
      rw [ofSource?, if_neg (by simp), if_neg (by simp), hother, hbetween]
      rfl

theorem IsSource.not_mem {cs : List Char} (h : IsSource cs p) : '\x7d' ∉ cs := by
  cases h with
  | name => decide
  | callArgumentCount => decide
  | argument hindex => simpa using hindex.not_mem
  | callArgument hindex => simpa using hindex.not_mem

end Placeholder

namespace Template

inductive Reads : List Char → List Part → Prop
  | last (hopen : '\x7b' ∉ cs) (hclose : '\x7d' ∉ cs) : Reads cs (textPart cs)
  | hole (hopen : '\x7b' ∉ cs) (hp : Placeholder.IsSource source p) (hrest : Reads rest ps) :
      Reads (cs ++ '\x7b' :: (source ++ '\x7d' :: rest)) (textPart cs ++ .hole p :: ps)

inductive IsRegular : List Char → Prop
  | nil : IsRegular []
  | text (hopen : '\x7b' ∉ cs) (hclose : '\x7d' ∉ cs) (hrest : IsRegular rest) :
      IsRegular (cs ++ rest)
  | hole (hp : Placeholder.IsSource source p) (hrest : IsRegular rest) :
      IsRegular ('\x7b' :: (source ++ '\x7d' :: rest))

variable {cs rest : List Char} {ps : List Part}

theorem read_text_append (hopen : '\x7b' ∉ cs) (seen rest : List Char) :
    read (.text seen) (cs ++ rest) = read (.text (seen ++ cs)) rest := by
  induction cs generalizing seen with
  | nil => simp
  | cons c cs ih =>
    obtain ⟨hc, hcs⟩ := List.ne_and_not_mem_of_not_mem_cons hopen
    rw [List.cons_append, read, if_neg (Ne.symm hc), ih hcs, List.append_assoc,
      List.singleton_append]

theorem read_hole_append (hclose : '\x7d' ∉ cs) (seen rest : List Char) :
    read (.hole seen) (cs ++ rest) = read (.hole (seen ++ cs)) rest := by
  induction cs generalizing seen with
  | nil => simp
  | cons c cs ih =>
    obtain ⟨hc, hcs⟩ := List.ne_and_not_mem_of_not_mem_cons hclose
    rw [List.cons_append, read, if_neg (Ne.symm hc), ih hcs, List.append_assoc,
      List.singleton_append]

theorem Reads.read_eq (h : Reads cs ps) : read (.text []) cs = some ps := by
  induction h with
  | @last cs hopen hclose =>
    have hall := read_text_append hopen [] []
    rw [List.append_nil, List.nil_append] at hall
    rw [hall, read, if_neg hclose]
  | @hole cs p source rest ps hopen hp hrest ih =>
    rw [read_text_append hopen, List.nil_append, read, if_pos rfl, read_hole_append hp.not_mem,
      List.nil_append, read, if_pos rfl, Placeholder.ofSource?_eq_some.2 hp, ih]
    rfl

def Reads.Resumes : Mode → List Char → List Part → Prop
  | .text seen, cs, ps => '\x7b' ∉ seen → Reads (seen ++ cs) ps
  | .hole seen, cs, ps => ∃ p source rest tail, Placeholder.IsSource source p ∧
      seen ++ cs = source ++ '\x7d' :: rest ∧ Reads rest tail ∧ ps = .hole p :: tail

theorem Reads.of_read {mode : Mode} (h : read mode cs = some ps) : Reads.Resumes mode cs ps := by
  fun_induction read mode cs generalizing ps with
  | case1 seen hclose => cases h
  | case2 seen hclose =>
    cases h
    intro hopen
    rw [List.append_nil]
    exact .last hopen hclose
  | case3 seen cs ih =>
    obtain ⟨ps, hread, rfl⟩ := Option.map_eq_some_iff.1 h
    obtain ⟨p, source, rest, tail, hp, rfl, hrest, rfl⟩ := ih hread
    exact fun hopen => .hole hopen hp hrest
  | case4 seen c cs hc ih =>
    intro hopen
    simpa using ih h (by simp [hopen, Ne.symm hc])
  | case5 => cases h
  | case6 seen cs ih =>
    obtain ⟨p, hp, h⟩ := Option.bind_eq_some_iff.1 h
    obtain ⟨tail, hread, h⟩ := Option.bind_eq_some_iff.1 h
    cases h
    exact ⟨p, seen, cs, tail, Placeholder.ofSource?_eq_some.1 hp, rfl, ih hread (by simp), rfl⟩
  | case7 seen c cs hc ih => simpa [Resumes] using ih h

theorem read_eq_some : read (.text []) cs = some ps ↔ Reads cs ps :=
  ⟨fun h => Reads.of_read h (by simp), Reads.read_eq⟩

theorem parse_eq_ok {s : String} : parse s = .ok ⟨ps⟩ ↔ Reads s.toList ps := by
  rw [← read_eq_some]
  unfold parse
  split
  · next hread => simp [hread]
  · next hread => simp [hread]

theorem parse_eq_error {s : String} :
    parse s = .error (.defect (.malformedTemplate s)) ↔ ¬∃ ps, Reads s.toList ps := by
  simp only [← read_eq_some]
  unfold parse
  split
  · next hread => simp [hread]
  · next hread => simp [hread]

def ClosesHolesOnly (ps : List Part) : Prop := ∀ cs, .text cs ∈ ps → '\x7d' ∉ cs

@[simp] theorem closesHolesOnly_textPart : ClosesHolesOnly (textPart cs) ↔ '\x7d' ∉ cs := by
  cases cs <;> simp [ClosesHolesOnly, textPart]

@[simp] theorem closesHolesOnly_append {qs : List Part} :
    ClosesHolesOnly (ps ++ qs) ↔ ClosesHolesOnly ps ∧ ClosesHolesOnly qs := by
  simp only [ClosesHolesOnly, List.mem_append, or_imp, forall_and]

@[simp] theorem closesHolesOnly_hole {p : Placeholder} :
    ClosesHolesOnly (.hole p :: ps) ↔ ClosesHolesOnly ps := by
  simp [ClosesHolesOnly]

theorem Reads.text_append (hopen : '\x7b' ∉ cs) (hclose : '\x7d' ∉ cs) (h : Reads rest ps)
    (hps : ClosesHolesOnly ps) : ∃ ps', Reads (cs ++ rest) ps' ∧ ClosesHolesOnly ps' := by
  cases h with
  | last hopen' hclose' =>
    exact ⟨_,
      .last (by simp [hopen, hopen']) (by simp [hclose, hclose']), by simp [hclose, hclose']⟩
  | @hole cs' p source rest ps hopen' hp hrest =>
    obtain ⟨hcs', hps⟩ := closesHolesOnly_append.1 hps
    rw [← List.append_assoc]
    exact ⟨_, .hole (by simp [hopen, hopen']) hp hrest, by simp_all⟩

theorem isRegular_iff : IsRegular cs ↔ ∃ ps, Reads cs ps ∧ ClosesHolesOnly ps := by
  constructor
  · intro h
    induction h with
    | nil => exact ⟨textPart [], .last (by simp) (by simp), by simp⟩
    | text hopen hclose _ ih =>
      obtain ⟨ps, hrest, hps⟩ := ih
      exact hrest.text_append hopen hclose hps
    | hole hp _ ih =>
      obtain ⟨ps, hrest, hps⟩ := ih
      have hread := Reads.hole List.not_mem_nil hp hrest
      exact ⟨_, hread, by simpa using hps⟩
  · rintro ⟨ps, h, hps⟩
    induction h with
    | last hopen hclose => simpa using IsRegular.text hopen hclose .nil
    | hole hopen hp _ ih =>
      simp only [closesHolesOnly_append, closesHolesOnly_textPart, closesHolesOnly_hole] at hps
      exact .text hopen hps.1 (.hole hp (ih hps.2))

/-- A template is read exactly where the rules give its parts, and any other text is a defect that
names the text. Every row of holes and texts without braces is read; what else is read has a closing
brace in a text that some hole follows. -/
theorem parse_iff_grammar (s : String) :
    (∀ ps, parse s = .ok ⟨ps⟩ ↔ Reads s.toList ps) ∧
      (parse s = .error (.defect (.malformedTemplate s)) ↔ ¬∃ ps, Reads s.toList ps) ∧
      (IsRegular s.toList ↔ ∃ ps, parse s = .ok ⟨ps⟩ ∧ ClosesHolesOnly ps) := by
  refine ⟨fun ps => parse_eq_ok, parse_eq_error, ?_⟩
  simp only [parse_eq_ok, isRegular_iff]

/-- The closing brace belongs to no hole, and the text is read. -/
theorem parse_stray_brace :
    (∃ t, parse "a\x7d \x7bname\x7d" = .ok t) ∧ ¬IsRegular "a\x7d \x7bname\x7d".toList := by
  refine ⟨⟨⟨[.text "a\x7d ".toList, .hole .name]⟩, by decide⟩, fun h => ?_⟩
  obtain ⟨ps, hread, hps⟩ := isRegular_iff.1 h
  obtain rfl : [.text "a\x7d ".toList, .hole .name] = ps := Option.some.inj hread.read_eq
  exact hps "a\x7d ".toList (by simp) (by decide)

end Template

end TurtleCompiler
