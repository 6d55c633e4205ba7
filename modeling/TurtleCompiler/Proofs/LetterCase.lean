import TurtleCompiler.Proofs.CallLines
import TurtleCompiler.Proofs.CaseFolding

/-!
Sources that differ in the case of letters outside their strings are compiled to listings whose
lines differ in the case of letters, or fail with errors that do.
-/

namespace TurtleCompiler

def SameButCase (source source' : String) : Prop := upperSource source = upperSource source'

instance (source source' : String) : Decidable (SameButCase source source') :=
  inferInstanceAs (Decidable (_ = _))

theorem viewOutcome_upperSource (source : String) :
    viewOutcome .caseless (compile (upperSource source)) =
    viewOutcome .caseless (compile source) := by
  unfold compile compileWithLog
  rw [← viewOutcome_compileFeed (v := .caseless) (fun _ => rfl) (.ofText source),
    ← Feed.ofText_upperSource, result_view_plain]

section Lines

@[simp] theorem View.name_caseless (s : String) : caseless.name s = s.toUpper := by
  rw [← String.toList_inj, toList_toUpper]
  simp [name, caseless]

theorem Listing.toUpper_dataLine {name name' : String} (h : name.toUpper = name'.toUpper)
    (value : Value) : (dataLine name value).toUpper = (dataLine name' value).toUpper := by
  have hlength : name.length = name'.length := by
    have htext := congrArg (fun s => s.toList.length) h
    simpa only [toList_toUpper, List.length_map, String.length_toList] using htext
  simp only [dataLine, toUpper_append, h, hlength]

theorem Instr.toUpper_text {i i' : Instr} (h : i.view .caseless = i'.view .caseless) :
    i.text.toUpper = i'.text.toUpper := by
  cases i <;> cases i' <;> simp_all [Instr.view, Instr.text, toUpper_append]

theorem map_eq_of_map_eq {α β γ : Type} {f : α → β} {g : α → γ} : {as as' : List α} →
    (∀ a ∈ as, ∀ a' ∈ as', f a = f a' → g a = g a') → as.map f = as'.map f →
    as.map g = as'.map g
  | [], [], _, _ => rfl
  | a :: as, a' :: as', h, heq => by
    simp only [List.map_cons, List.cons.injEq] at heq ⊢
    refine ⟨h a (by simp) a' (by simp) heq.1, map_eq_of_map_eq (fun c hc c' hc' => ?_) heq.2⟩
    exact h c (List.mem_cons_of_mem a hc) c' (List.mem_cons_of_mem a' hc')

theorem Block.toUpper_lines {b b' : Block} (h : b.view .caseless = b'.view .caseless)
    (hentry : b.name = entryName ↔ b'.name = entryName) :
    b.lines.map String.toUpper = b'.lines.map String.toUpper := by
  simp only [Block.view, Block.mk.injEq] at h
  obtain ⟨hname, hparams, hcode⟩ := h
  have hheader : ("DEF " ++ b.name ++ ":").toUpper = ("DEF " ++ b'.name ++ ":").toUpper := by
    simpa [toUpper_append] using hname
  have hparams : b.params.map (String.toUpper ∘ Instr.text ∘ .store) =
      b'.params.map (String.toUpper ∘ Instr.text ∘ .store) :=
    map_eq_of_map_eq (fun _ _ _ _ h => Instr.toUpper_text (congrArg Instr.store h)) hparams
  have hcode : b.code.map (String.toUpper ∘ Instr.text) =
      b'.code.map (String.toUpper ∘ Instr.text) :=
    map_eq_of_map_eq (fun _ _ _ _ => Instr.toUpper_text) hcode
  have hlast : b.lastLine = b'.lastLine := by simp [lastLine, hentry]
  simp only [lines, List.map_append, List.map_cons, List.map_nil, List.map_map, hheader,
    hparams, hcode, hlast]

theorem Listing.toUpper_lines {l l' : Listing} (h : l.view .caseless = l'.view .caseless)
    (hentry : ∀ b ∈ l.blocks, b.name.toUpper = entryName.toUpper → b.name = entryName)
    (hentry' : ∀ b ∈ l'.blocks, b.name.toUpper = entryName.toUpper → b.name = entryName) :
    l.lines.map String.toUpper = l'.lines.map String.toUpper := by
  simp only [Listing.view, Listing.mk.injEq] at h
  obtain ⟨hcanvas, hdata, hblocks⟩ := h
  have hempty : l.data.isEmpty = l'.data.isEmpty := by
    simpa only [List.isEmpty_map] using congrArg List.isEmpty hdata
  have hdata : l.dataLines.map String.toUpper = l'.dataLines.map String.toUpper := by
    rw [dataLines, dataLines, hempty]
    split
    · rfl
    · rw [List.map_append, List.map_append, List.map_map, List.map_map]
      refine congrArg _ (map_eq_of_map_eq ?_ hdata)
      rintro ⟨name, value⟩ - ⟨name', value'⟩ - heq
      obtain ⟨hname, rfl⟩ : name.toUpper = name'.toUpper ∧
        value = value' := by simpa using heq
      exact toUpper_dataLine hname value
  have hblocks : l.blocks.map (List.map String.toUpper ∘ Block.lines) =
      l'.blocks.map (List.map String.toUpper ∘ Block.lines) := by
    refine map_eq_of_map_eq (fun b hb b' hb' heq => ?_) hblocks
    have hname : b.name.toUpper = b'.name.toUpper := by
      simpa [Block.view] using congrArg Block.name heq
    refine Block.toUpper_lines heq ⟨fun he => ?_, fun he => ?_⟩
    · exact hentry' b' hb' (by rw [← hname, he])
    · exact hentry b hb (by rw [hname, he])
  simp only [lines, List.map_append, List.flatMap_def, List.map_flatten, List.map_map, hcanvas,
    hdata, hblocks]

end Lines

theorem Table.Ready.eq_entryName {t : Table} {entry id : SymbolId} {b : Block} (h : t.Ready entry)
    (hb : t.blockOf? id = some b) (hname : b.name.toUpper = entryName.toUpper) :
    b.name = entryName := by
  obtain ⟨hsymbol, hused, ⟨r, hr, -⟩, -⟩ := h.block_cases hb
  obtain ⟨r', hr', -⟩ := h.routine
  have hid : t.IsRoutine entryName id :=
    ⟨hused.has, Symbol.cls_of_routine? hr, by rw [← hsymbol, hname]⟩
  have hentry : t.IsRoutine entryName entry :=
    ⟨Table.has_of_routine? hr', Symbol.cls_of_routine? hr', by rw [h.name]⟩
  rw [hsymbol, h.lowered.live.isRoutine_unique hid hentry, h.name]

theorem entryName_of_compile {source : String} {listing : Listing}
    (h : compile source = .ok listing) :
    ∀ b ∈ listing.blocks, b.name.toUpper = entryName.toUpper → b.name = entryName := by
  intro b hb hname
  obtain ⟨w, w', hlower, hlink⟩ := compile_eq_ok h
  obtain ⟨entry, hready⟩ := ready_of_lower hlower
  obtain ⟨targets, -, hblocks, -⟩ := hready.link hlink
  rw [hblocks, List.mem_filterMap] at hb
  obtain ⟨id, -, hid⟩ := hb
  exact hready.eq_entryName hid hname

theorem compile_of_same_but_case {source source' : String} (h : SameButCase source source') :
    (∃ listing listing', compile source = .ok listing ∧ compile source' = .ok listing' ∧
      listing.lines.map String.toUpper = listing'.lines.map String.toUpper) ∨
    ∃ e e', compile source = .error e ∧ compile source' = .error e' ∧
    e.view .caseless = e'.view .caseless := by
  have hview : viewOutcome .caseless (compile source) =
      viewOutcome .caseless (compile source') := by
    rw [← viewOutcome_upperSource, h, viewOutcome_upperSource]
  cases hc : compile source with
  | ok listing =>
    cases hc' : compile source' with
    | ok listing' =>
      rw [hc, hc'] at hview
      exact .inl ⟨listing, listing', rfl, rfl,
        Listing.toUpper_lines (Except.ok.inj hview) (entryName_of_compile hc)
        (entryName_of_compile hc')⟩
    | error e' => simp [hc, hc', viewOutcome, Except.map] at hview
  | error e =>
    cases hc' : compile source' with
    | ok listing' => simp [hc, hc', viewOutcome, Except.map] at hview
    | error e' =>
      rw [hc, hc'] at hview
      exact .inr ⟨e, e', rfl, rfl, Except.error.inj hview⟩

theorem compile_of_same_but_case_mixed :
    let source := "to Echo :text print :Text end\nName = 'aB' echo :NAME # Twice\nForward 1"
    let source' := "TO echo :TEXT Print :texT END\nNAME = 'aB' ECHO :name # twice\nFORWARD 1"
    SameButCase source source' ∧
      ((∃ listing listing', compile source = .ok listing ∧ compile source' = .ok listing' ∧
        listing.lines.map String.toUpper = listing'.lines.map String.toUpper) ∨
      ∃ e e', compile source = .error e ∧ compile source' = .error e' ∧
      e.view .caseless = e'.view .caseless) := by
  intro source source'
  have h : SameButCase source source' := by decide +kernel
  exact ⟨h, compile_of_same_but_case h⟩

end TurtleCompiler
