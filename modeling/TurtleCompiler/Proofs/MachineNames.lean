import TurtleCompiler.Proofs.CalledRoutines

/-!
Procedures that have the name of a routine of the machine. The calls of the machine that the
language makes carry its names, and so reach such a procedure instead.
-/

namespace TurtleCompiler

def header (name : String) : String := "DEF " ++ name ++ ":"

variable {name : String}

theorem header_inj {name' : String} : header name = header name' ↔ name = name' := by
  simp [header, ← String.toList_inj]

theorem ne_header {line : String} (h : line.toList.take 2 ≠ ['D', 'E']) :
    line ≠ header name := by
  rintro rfl
  simp [header] at h

theorem Instr.text_ne_header {i : Instr}
    (h : i.isFixed ∨ IsQuiet i.text ∨ ∃ name, i = .call name) (name : String) :
    i.text ≠ header name := by
  rcases kind_cases h with hi | ⟨hquiet, -⟩
  · exact ne_header (begins_text hi).2.2.2
  · intro he
    exact hquiet.header (by simp [he, header])

theorem Listing.dataLine_ne_header (place : String) (value : Value) (hname : ' ' ∉ name.toList) :
    dataLine place value ≠ header name := by
  intro he
  have hlist : place.toList ++ List.replicate (8 - place.length) ' ' ++ ' ' :: value.text.toList =
      ['D', 'E', 'F', ' '] ++ (name.toList ++ [':']) := by
    have htext := congrArg String.toList he
    simpa [dataLine, header] using htext
  have hlength : 8 ≤ (place.toList ++ List.replicate (8 - place.length) ' ').length := by
    simp only [List.length_append, List.length_replicate, String.length_toList]
    omega
  have hblank : ' ' ∈ (['D', 'E', 'F', ' '] ++ (name.toList ++ [':'])).drop 8 := by
    rw [← hlist, List.drop_append_of_le_length hlength]
    simp
  have hmem := List.mem_of_mem_drop (show ' ' ∈ (name.toList ++ [':']).drop 4 from hblank)
  simp [hname] at hmem

theorem Block.header_mem_lines {b : Block} (h : ∀ i ∈ b.code, i.text ≠ header name) :
    header name ∈ b.lines ↔ b.name = name := by
  have hlast : b.lastLine ≠ header name := by
    rw [lastLine]
    split <;> exact ne_header (by simp)
  have hparams (param : String) :
      (Instr.store param).text ≠ header name := ne_header (by simp [Instr.text])
  constructor
  · intro hmem
    simp only [lines, List.mem_append, List.mem_cons, List.mem_map, List.not_mem_nil,
      or_false] at hmem
    rcases hmem with (((hmem | hmem) | ⟨param, -, hmem⟩) | ⟨i, hi, hmem⟩) | hmem
    · exact absurd hmem.symm (ne_header (by simp))
    · exact (header_inj.1 hmem).symm
    · exact absurd hmem (hparams param)
    · exact absurd hmem (h i hi)
    · exact absurd hmem.symm hlast
  · rintro rfl
    simp [lines, header]

theorem Listing.header_mem_lines {l : Listing} (hname : ' ' ∉ name.toList)
    (h : ∀ b ∈ l.blocks, ∀ i ∈ b.code, i.text ≠ header name) :
    header name ∈ l.lines ↔ ∃ b ∈ l.blocks, b.name = name := by
  have hdata : header name ∉ l.dataLines := by
    rw [dataLines]
    split
    · simp
    · simp only [List.mem_append, List.mem_cons, List.not_mem_nil, or_false, List.mem_map, not_or]
      refine ⟨⟨(ne_header (by simp)).symm, (ne_header (by simp)).symm⟩, ?_⟩
      rintro ⟨⟨place, value⟩, -, he⟩
      exact dataLine_ne_header place value hname he
  have hcanvas : header name ∉ if l.canvas then ["", ".INIT 200 200 400 400"] else [] := by
    split
    · simp only [List.mem_cons, List.not_mem_nil, or_false, not_or]
      exact ⟨(ne_header (by simp)).symm, (ne_header (by simp)).symm⟩
    · simp
  have hstart : header name ≠ ".START " ++ entryName := (ne_header (by simp)).symm
  have hsection : header name ∉ ["", ".CODE"] := by
    simp only [List.mem_cons, List.not_mem_nil, or_false, not_or]
    exact ⟨(ne_header (by simp)).symm, (ne_header (by simp)).symm⟩
  simp only [lines, List.mem_append, List.mem_singleton, hstart, hcanvas, hdata, hsection, false_or,
    List.mem_flatMap]
  exact exists_congr fun b => and_congr_right fun hb => Block.header_mem_lines (h b hb)

/-- The header of a routine of the machine is in a listing when the source calls a procedure of that
name, in whatever case its letters are, and only then; and the source has to define it. -/
theorem machine_routine_header_iff {source : String} {listing : Listing}
    (h : compile source = .ok listing) {f : String} (hf : f ∈ machineRoutines) :
    ("DEF " ++ f ++ ":" ∈ listing.lines ↔ ∃ b ∈ listing.blocks, b.name = f) ∧
    ((∃ b ∈ listing.blocks, b.name.toUpper = f) ↔
      ∃ c ∈ (Source.parse (.ofText source)).calls, c.toUpper = f) ∧
    ((∃ b ∈ listing.blocks, b.name.toUpper = f) →
      ∃ d ∈ (Source.parse (.ofText source)).defined, d.toUpper = f) := by
  have hupper : ∀ f ∈ machineRoutines, f.toUpper = f ∧ f ∉ builtins.map String.toUpper ∧
      ' ' ∉ f.toList := by
    decide +kernel
  obtain ⟨hf, hbuiltin, hblank⟩ := hupper f hf
  have hiff := exists_block_iff h (hf.symm ▸ hbuiltin)
  rw [hf] at hiff
  refine ⟨Listing.header_mem_lines hblank fun b hb i hi => ?_, hiff⟩
  obtain ⟨w, w', hlower, hlink⟩ := compile_eq_ok h
  obtain ⟨entry, hready⟩ := ready_of_lower hlower
  obtain ⟨targets, -, hblocks, -⟩ := hready.link hlink
  rw [hblocks, List.mem_filterMap] at hb
  obtain ⟨id, -, hid⟩ := hb
  exact Instr.text_ne_header (hready.instr_kind hid hi) f

theorem machine_routine_header_iff_move : ∃ listing,
    compile "TO move :N FORWARD :N END TO READ PRINT 1 END Move 5 PRINT 2" = .ok listing ∧
    "MOVE" ∈ machineRoutines ∧
    listing.blocks.map (·.name) = ["__main__", "FORWARD", "move"] ∧
    ("DEF " ++ "MOVE" ++ ":" ∈ listing.lines ↔ ∃ b ∈ listing.blocks, b.name = "MOVE") ∧
    ((∃ b ∈ listing.blocks, b.name.toUpper = "MOVE") ↔
      ∃ c ∈ (Source.parse
          (.ofText "TO move :N FORWARD :N END TO READ PRINT 1 END Move 5 PRINT 2")).calls,
        c.toUpper = "MOVE") ∧
    ((∃ b ∈ listing.blocks, b.name.toUpper = "MOVE") →
      ∃ d ∈ (Source.parse
          (.ofText "TO move :N FORWARD :N END TO READ PRINT 1 END Move 5 PRINT 2")).defined,
        d.toUpper = "MOVE") := by
  obtain ⟨listing, h, hblocks⟩ :=
    exists_listing "TO move :N FORWARD :N END TO READ PRINT 1 END Move 5 PRINT 2"
    (fun listing => listing.blocks.map (·.name) = ["__main__", "FORWARD", "move"])
    (by decide +kernel)
  have hmove : "MOVE" ∈ machineRoutines := by decide
  exact ⟨listing, h, hmove, hblocks, machine_routine_header_iff h hmove⟩

/-- A procedure that prints its argument calls itself to do so. -/
theorem procedure_captures_print :
    ∃ listing, compile "TO WRITE :X PRINT :X END WRITE 1" = .ok listing ∧
    "DEF WRITE:" ∈ listing.lines ∧ ∀ b ∈ listing.blocks, b.name = "WRITE" →
      b.lines =
      ["", "DEF WRITE:", "STOR @WRITE.X", "LOAD @WRITE.X", "PUSH 1", "CALL WRITE", "RET"] :=
  exists_listing _ _ (by decide +kernel)

end TurtleCompiler
