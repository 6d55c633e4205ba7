import TurtleCompiler.Proofs.BlockCode

/-!
The labels of a listing. No two of its label lines have the same name, and a jump goes to a label of
its own block.
-/

namespace TurtleCompiler

theorem Label.name_injective : Function.Injective Label.name := by
  rintro ⟨_⟩ ⟨_⟩ rfl
  rfl

theorem Block.filterMap_labelName?_lines {b : Block}
    (h : ∀ i ∈ b.code, labelName? i.text = i.label?.map (·.name)) :
    b.lines.filterMap labelName? = (labelsIn b.code).map (·.name) := by
  have hempty : labelName? "" = none := labelName?_eq_none (by simp)
  have hdef : labelName? ("DEF " ++ b.name ++ ":") = none := labelName?_eq_none (by simp)
  have hparams : (b.params.map (Instr.text ∘ .store)).filterMap labelName? = [] := by
    simp only [List.filterMap_eq_nil_iff, List.mem_map]
    rintro _ ⟨p, -, rfl⟩
    exact labelName?_eq_none (by simp [Instr.text])
  have hlast : labelName? b.lastLine = none := by
    rw [Block.lastLine]
    split <;> exact labelName?_eq_none (by simp)
  have hcode : (b.code.map Instr.text).filterMap labelName? = (labelsIn b.code).map (·.name) := by
    rw [List.filterMap_map, labelsIn, List.map_filterMap]
    exact List.filterMap_congr h
  simp [Block.lines, List.filterMap_append, hempty, hdef, hparams, hlast, hcode]

namespace Table.Ready

variable {t : Table} {id entry : SymbolId} {b : Block}

section

variable (h : t.Ready entry) (hb : t.blockOf? id = some b)

include h hb

theorem count_labelsIn (x : Label) :
    (labelsIn b.code).count x ≤ (labelsOfNodes (t.bodyOf id)).count x := by
  obtain ⟨-, -, -, ⟨hcode, -⟩ | ⟨-, hplain⟩⟩ := h.block_cases hb
  · rw [hcode]
    exact count_labelsIn_codeOfNodes t x _
  · simp [labelsIn_eq_nil fun i hi => (hplain i hi).1]

theorem mem_labelsIn : ∀ l ∈ targetsIn b.code, l ∈ labelsIn b.code := by
  obtain ⟨n, hlabelled⟩ := h.labelled
  obtain ⟨-, -, -, ⟨hcode, -⟩ | ⟨-, hplain⟩⟩ := h.block_cases hb
  · rw [hcode]
    exact (hlabelled.made id).mem_labelsIn t
  · simp [targetsIn_eq_nil fun i hi => (hplain i hi).1]

theorem instr_kind {i : Instr} (hi : i ∈ b.code) :
    i.isFixed ∨ IsQuiet i.text ∨ ∃ name, i = .call name := by
  rcases h.instr_cases hb hi with hfixed | hquiet | ⟨callee, -, r, -, -, hcall⟩
  · exact .inl hfixed
  · exact .inr (.inl hquiet)
  · exact .inr (.inr ⟨_, hcall⟩)

theorem labelNames_lines : b.lines.filterMap labelName? = (labelsIn b.code).map (·.name) := by
  exact b.filterMap_labelName?_lines fun i hi => Instr.labelName?_text (h.instr_kind hb hi)

end

theorem nodup_labelsIn (h : t.Ready entry) {targets : List SymbolId} (hnodup : targets.Nodup) :
    ((targets.filterMap t.blockOf?).flatMap fun b => labelsIn b.code).Nodup := by
  obtain ⟨n, hlabelled⟩ := h.labelled
  refine List.nodup_iff_count.2 fun x =>
    Nat.le_trans ?_ (List.nodup_iff_count.1 (hlabelled.nodup hnodup) x)
  clear hnodup
  induction targets with
  | nil => simp
  | cons id targets ih =>
    rw [List.flatMap_cons, List.count_append]
    cases hb : t.blockOf? id with
    | none =>
      rw [List.filterMap_cons_none hb]
      omega
    | some b =>
      have hcount := h.count_labelsIn hb x
      rw [List.filterMap_cons_some hb, List.flatMap_cons, List.count_append]
      omega

end Table.Ready

/-- No two label lines have the same name, and where a jump goes there is a label line of the same
block. -/
theorem labels_unique_jumps_closed {source : String} {listing : Listing}
    (h : compile source = .ok listing) :
    ((listing.blocks.flatMap Block.lines).filterMap labelName?).Nodup ∧
      ∀ b ∈ listing.blocks, ∀ line ∈ b.lines, ∀ x ∈ jumpOperand? line,
        ∃ l ∈ b.lines.filterMap labelName?, x = ":" ++ l := by
  obtain ⟨w, w', hlower, hlink⟩ := compile_eq_ok h
  obtain ⟨entry, hready⟩ := ready_of_lower hlower
  obtain ⟨targets, hnodup, hblocks, -⟩ := hready.link hlink
  have hblock {b : Block} (hb : b ∈ listing.blocks) : ∃ id, w.table.blockOf? id = some b := by
    rw [hblocks, List.mem_filterMap] at hb
    exact hb.imp fun _ hid => hid.2
  constructor
  · have hlabels : (listing.blocks.flatMap Block.lines).filterMap labelName? =
        (listing.blocks.flatMap fun b => labelsIn b.code).map (·.name) := by
      rw [List.filterMap_flatMap, List.map_flatMap]
      refine List.flatMap_congr fun b hb => ?_
      obtain ⟨id, hid⟩ := hblock hb
      exact hready.labelNames_lines hid
    rw [hlabels, hblocks]
    exact (hready.nodup_labelsIn hnodup).map Label.name_injective
  · intro b hb line hline x hx
    obtain ⟨id, hid⟩ := hblock hb
    rcases Block.line_cases hline with ⟨i, hi, rfl⟩ | ⟨-, hnone, -⟩
    · rw [Instr.jumpOperand?_text (hready.instr_kind hid hi), Option.mem_def,
        Option.map_eq_some_iff] at hx
      obtain ⟨l, hl, rfl⟩ := hx
      have hmem := hready.mem_labelsIn hid l (List.mem_filterMap.2 ⟨i, hi, hl⟩)
      rw [hready.labelNames_lines hid]
      exact ⟨l.name, List.mem_map_of_mem hmem, rfl⟩
    · simp [hnone] at hx

def skippingText : String :=
  "TO F :N IF :N > 2 OR :N == 0 THEN PRINT :N ELSE FO :N END END " ++
  "WHILE NOT (:X > 1 AND :X < 3) F(:X) END"

def skippingSample : Sample skippingText fun listing =>
    (listing.blocks.flatMap Block.lines).filterMap labelName? =
      ["_@trgt_5", "_@trgt_4", "_@trgt_6", "_@trgt_1", "_@trgt_2", "_@trgt_3"] :=
  .of (by decide +kernel)

theorem labels_unique_jumps_closed_nested : ∃ listing,
    compile skippingText = .ok listing ∧
    (listing.blocks.flatMap Block.lines).filterMap labelName? =
      ["_@trgt_5", "_@trgt_4", "_@trgt_6", "_@trgt_1", "_@trgt_2", "_@trgt_3"] ∧
    ((listing.blocks.flatMap Block.lines).filterMap labelName?).Nodup ∧
      ∀ b ∈ listing.blocks, ∀ line ∈ b.lines, ∀ x ∈ jumpOperand? line,
        ∃ l ∈ b.lines.filterMap labelName?, x = ":" ++ l :=
  ⟨skippingSample.listing, skippingSample.compiles, skippingSample.holds,
    labels_unique_jumps_closed skippingSample.compiles⟩

end TurtleCompiler
