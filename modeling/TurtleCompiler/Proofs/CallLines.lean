import TurtleCompiler.Proofs.LabelLines

/-!
The blocks of a listing and the calls between them: whatever a block calls has a block or is the
machine's.
-/

namespace TurtleCompiler

def machineRoutines : List String := ["WRITE", "READ", "CLRSCR", "MOVE"]

def Table.written (t : Table) : List SymbolId :=
  ((List.range t.symbols.size).map SymbolId.mk).filter fun id =>
    0 < (t.symbol id).usage && (t.symbol id).routine?.any fun r =>
    r.aliasOf.isNone && !r.flags.internal

theorem Table.mem_written {t : Table} {id : SymbolId} :
    id ∈ t.written ↔ t.IsUsed id ∧ ∃ r ∈ (t.symbol id).routine?, r.aliasOf = none ∧
    r.flags.internal = false := by
  simp only [written, List.mem_filter, List.mem_map, List.mem_range, Bool.and_eq_true,
    decide_eq_true_eq, Option.any_eq_true, Option.isNone_iff_eq_none, Bool.not_eq_true']
  constructor
  · exact fun ⟨_, hused, hr⟩ => ⟨hused, hr⟩
  · exact fun ⟨hused, hr⟩ => ⟨⟨id.index, hused.has, rfl⟩, hused, hr⟩

theorem Table.nodup_written (t : Table) : t.written.Nodup := by
  have hinjective : Function.Injective SymbolId.mk := fun i j h => congrArg SymbolId.index h
  exact (List.nodup_range.map hinjective).filter _

namespace Instr

theorem callee?_text {i : Instr} (h : i.isFixed) : callee? i.text = none := by
  cases i with
  | operate op => cases op <;> exact callee?_eq_none (by simp [text, Operation.mnemonic])
  | compareZero => simp [text, callee?, after?, List.isPrefixOf?]
  | jump j l => cases j <;> exact callee?_eq_none (by simp [text, Jump.mnemonic])
  | label l => exact callee?_eq_none (by simp [text, Label.text])
  | call | verbatim => simp [isFixed] at h
  | _ => exact callee?_eq_none (by simp [text])

theorem callee?_call (name : String) : callee? (Instr.call name).text = some name := by
  simp [callee?, after?, text, List.isPrefixOf?]

theorem text_ne_halt {i : Instr} (h : i.isFixed ∨ IsQuiet i.text ∨ ∃ name, i = .call name) :
    i.text ≠ "HALT" := by
  rcases kind_cases h with hi | ⟨hquiet, -⟩
  · intro hhalt
    exact (begins_text hi).2.2.1 (by simp [hhalt])
  · exact hquiet.halt

end Instr

theorem Block.count_halt {b : Block} (h : ∀ i ∈ b.code, i.text ≠ "HALT") :
    b.lines.count "HALT" = if b.name = entryName then 1 else 0 := by
  have hdef : "DEF " ++ b.name ++ ":" ≠ "HALT" := fun he => by
    simpa using congrArg (fun s => s.toList.head?) he
  have hparams : (b.params.map (Instr.text ∘ .store)).count "HALT" = 0 := by
    rw [List.count_eq_zero, List.mem_map]
    rintro ⟨p, -, hp⟩
    exact Instr.text_ne_halt (.inl rfl) hp
  have hcode : (b.code.map Instr.text).count "HALT" = 0 := by
    rw [List.count_eq_zero, List.mem_map]
    rintro ⟨i, hi, htext⟩
    exact h i hi htext
  have hlast : [b.lastLine].count "HALT" = if b.name = entryName then 1 else 0 := by
    rw [Block.lastLine]
    split <;> simp
  have hfront : ["", "DEF " ++ b.name ++ ":"].count "HALT" = 0 := by
    rw [List.count_eq_zero]
    simp [hdef.symm]
  simp only [Block.lines, List.count_append, hfront, hparams, hcode, hlast, Nat.zero_add]

theorem Listing.count_halt (l : Listing) :
    l.lines.count "HALT" = (l.blocks.flatMap Block.lines).count "HALT" := by
  have hdata : l.dataLines.count "HALT" = 0 := by
    have hline (name : String) (value : Value) :
        Listing.dataLine name value ≠ "HALT" := fun he => by
      have hblank : ' ' ∈ (Listing.dataLine name value).toList := by simp [Listing.dataLine]
      rw [he] at hblank
      revert hblank
      decide
    rw [List.count_eq_zero, Listing.dataLines]
    split
    · simp
    · simp only [List.mem_append, List.mem_cons, List.not_mem_nil, or_false, List.mem_map, not_or]
      refine ⟨by simp, ?_⟩
      rintro ⟨⟨name, value⟩, -, he⟩
      exact hline name value he
  have hcanvas : (if l.canvas then ["", ".INIT 200 200 400 400"] else []).count "HALT" = 0 := by
    split <;> simp
  have hstart : [".START " ++ entryName].count "HALT" = 0 := by simp [entryName]
  have hsection : ["", ".CODE"].count "HALT" = 0 := by simp
  simp only [Listing.lines, List.count_append, hstart, hcanvas, hdata, hsection, Nat.zero_add]

namespace Table.Ready

variable {t : Table} {entry id : SymbolId} {targets : List SymbolId}

theorem link_first {w w' : Workspace} {listing : Listing} (h : w.table.Ready entry)
    (hl : TurtleCompiler.link w = .ok listing w') :
    ∃ main rest, listing.blocks = main :: rest ∧ main.name = entryName := by
  obtain ⟨r, hr, hflags, halias⟩ := h.routine
  obtain ⟨targets, -, -, -, hwritten⟩ := h.link hl
  obtain ⟨ids, hused⟩ := h.first
  have hentry : w.table.IsUsed entry := by
    have hmem : entry ∈ w.table.used .routine := by simp [hused]
    simpa [Table.used, IsUsed] using (List.mem_filter.1 hmem).2
  obtain ⟨main, hmain⟩ :=
    Option.isSome_iff_exists.1 (hwritten entry hentry r hr halias (by rw [hflags])).2
  obtain ⟨d, hd, hblock⟩ := exists_code_of_blockOf? hmain
  have hcode : r.code = some d := by simpa [code?, Option.mem_def.1 hr] using hd
  obtain ⟨-, w₁, bs, w₂, htable, hbs, hblocks⟩ := link_eq_ok hl
  rw [hused, List.mapM_cons] at hbs
  simp only [bind_eq_ok, pure_eq_ok] at hbs
  obtain ⟨b?, w₃, hlink, bs, _, -, rfl, -⟩ := hbs
  have hb : b? = some main := by
    rw [linkRoutine_of_code (by rwa [htable]) hflags halias hcode hlink, htable, hblock]
  refine ⟨main, bs.filterMap id, by rw [hblocks, hb]; rfl, ?_⟩
  rw [(h.block_cases hmain).1, h.name]

theorem map_name_blocks (h : t.Ready entry) : (targets.filterMap t.blockOf?).map (·.name) =
    (targets.filter fun x => (t.blockOf? x).isSome).map fun id => (t.symbol id).name := by
  induction targets with
  | nil => rfl
  | cons id targets ih =>
    cases hb : t.blockOf? id with
    | none => simp [hb, ih]
    | some b => simp [hb, ih, (h.block_cases hb).1]

theorem written_perm (h : t.Ready entry) (hnodup : targets.Nodup)
    (halias : ∀ x ∈ targets, t.alias? x = none)
    (hwritten : ∀ x, t.IsUsed x → ∀ r ∈ (t.symbol x).routine?, r.aliasOf = none →
      r.flags.internal = false → x ∈ targets ∧ (t.blockOf? x).isSome) :
    (targets.filter fun x => (t.blockOf? x).isSome).Perm t.written := by
  refine (List.perm_ext_iff_of_nodup (hnodup.filter _) t.nodup_written).2 fun x => ?_
  rw [List.mem_filter, mem_written]
  constructor
  · rintro ⟨hx, hblock⟩
    obtain ⟨b, hb⟩ := Option.isSome_iff_exists.1 hblock
    obtain ⟨-, hused, ⟨r, hr, hinternal⟩, -⟩ := h.block_cases hb
    have hnone := halias x hx
    exact ⟨hused, r, hr, by simpa [alias?, Option.mem_def.1 hr] using hnone, hinternal⟩
  · rintro ⟨hused, r, hr, hnone, hinternal⟩
    exact hwritten x hused r hr hnone hinternal

theorem nodup_names (h : t.Ready entry) :
    (t.written.map fun id => (t.symbol id).name.toUpper).Nodup := by
  refine List.Nodup.map_on (fun i hi j hj hij => ?_) t.nodup_written
  obtain ⟨hused, r, hr, -⟩ := mem_written.1 hi
  obtain ⟨hused', r', hr', -⟩ := mem_written.1 hj
  exact h.lowered.live.isRoutine_unique ⟨hused.has, Symbol.cls_of_routine? hr, hij⟩
    ⟨hused'.has, Symbol.cls_of_routine? hr', rfl⟩

theorem callee_cases (h : t.Ready entry) (hid : t.IsUsed id) {r : Routine}
    (hr : r ∈ (t.symbol id).routine?) (halias : r.aliasOf = none) :
      r.hooks.target.getD (t.symbol id).name ∈ machineRoutines ∨
      id ∈ t.written ∧ r.hooks.target.getD (t.symbol id).name = (t.symbol id).name := by
  cases htarget : r.hooks.target with
  | some x =>
    left
    rcases h.routines id r hr with hplain | hprimitive
    · simp [hplain.hooks] at htarget
    · have hx := hprimitive.target x htarget
      simp only [List.mem_cons, List.not_mem_nil, or_false] at hx
      rcases hx with rfl | rfl | rfl <;> simp [machineRoutines]
  | none =>
    have hinternal : r.flags.internal = false := by
      rcases h.routines id r hr with hplain | hprimitive
      · rw [hplain.flags]
      · exact Bool.eq_false_iff.2
          fun hinternal => by simpa [htarget] using hprimitive.internal hinternal
    exact .inr ⟨mem_written.2 ⟨hid, r, hr, halias, hinternal⟩, rfl⟩

end Table.Ready

/-- A listing has a block for just those routines that are used, no aliases and not the machine's,
under different names. The first is that of the entry and has the only halt; and what is called has
a block or is the machine's. -/
theorem blocks_closed_under_calls {source : String} {listing : Listing}
    (h : compile source = .ok listing) :
    ∃ w, lower (.ofText source) {} = .ok () w ∧
      (listing.blocks.map (·.name)).Perm
      (w.table.written.map fun id => (w.table.symbol id).name) ∧
      (listing.blocks.map (·.name.toUpper)).Nodup ∧
      (∃ main rest, listing.blocks = main :: rest ∧ main.name = entryName ∧
        main.lines.getLast? = some "HALT" ∧ ∀ b ∈ rest, b.lines.getLast? = some "RET") ∧
      listing.lines.count "HALT" = 1 ∧
      ∀ line ∈ listing.blocks.flatMap Block.lines, ∀ f ∈ callee? line,
        f ∈ listing.blocks.map (·.name) ∨ f ∈ machineRoutines := by
  obtain ⟨w, w', hlower, hlink⟩ := compile_eq_ok h
  obtain ⟨entry, hready⟩ := ready_of_lower hlower
  obtain ⟨targets, hnodup, hblocks, halias, hwritten⟩ := hready.link hlink
  obtain ⟨main, rest, hfirst, hmain⟩ := hready.link_first hlink
  have hperm :
      (listing.blocks.map (·.name)).Perm
      (w.table.written.map fun id => (w.table.symbol id).name) := by
    rw [hblocks, hready.map_name_blocks]
    exact (hready.written_perm hnodup halias hwritten).map _
  have hnames : (listing.blocks.map (·.name.toUpper)).Nodup := by
    have hupper :=
      (hperm.map String.toUpper).nodup_iff.2 (by simpa [Function.comp_def] using hready.nodup_names)
    simpa [Function.comp_def] using hupper
  have hblock {b : Block} (hb : b ∈ listing.blocks) : ∃ id, w.table.blockOf? id = some b := by
    rw [hblocks, List.mem_filterMap] at hb
    exact hb.imp fun _ hid => hid.2
  have hrest : ∀ b ∈ rest, b.name ≠ entryName := by
    intro b hb he
    rw [hfirst, List.map_cons, List.nodup_cons] at hnames
    exact hnames.1 (List.mem_map.2 ⟨b, hb, by rw [he, hmain]⟩)
  have hhalt {b : Block} (hb : b ∈ listing.blocks) :
      b.lines.count "HALT" = if b.name = entryName then 1 else 0 := by
    obtain ⟨id, hid⟩ := hblock hb
    exact b.count_halt fun i hi => Instr.text_ne_halt (hready.instr_kind hid hi)
  refine ⟨w, hlower, hperm, hnames, ⟨main, rest, hfirst, hmain, ?_, fun b hb => ?_⟩, ?_,
    fun line hline f hf => ?_⟩
  · rw [Block.lines, List.getLast?_concat, Block.lastLine, if_pos hmain]
  · rw [Block.lines, List.getLast?_concat, Block.lastLine, if_neg (hrest b hb)]
  · have hzero : (rest.flatMap Block.lines).count "HALT" = 0 := by
      rw [List.count_eq_zero, List.mem_flatMap]
      rintro ⟨b, hb, hmem⟩
      have hcount := hhalt (hfirst ▸ List.mem_cons_of_mem _ hb)
      rw [if_neg (hrest b hb), List.count_eq_zero] at hcount
      exact hcount hmem
    rw [Listing.count_halt, hfirst, List.flatMap_cons, List.count_append, hzero,
      hhalt (by simp [hfirst]), if_pos hmain]
  · obtain ⟨b, hb, hline⟩ := List.mem_flatMap.1 hline
    obtain ⟨id, hid⟩ := hblock hb
    rcases Block.line_cases hline with ⟨i, hi, rfl⟩ | ⟨-, -, hnone⟩
    · rcases hready.instr_cases hid hi with hfixed | hquiet | ⟨callee, hused, r, hr, hr', rfl⟩
      · simp [Instr.callee?_text hfixed] at hf
      · rw [hquiet.call f hf]
        exact .inr (by simp [machineRoutines])
      · rw [Instr.callee?_call] at hf
        obtain rfl := Option.some.inj hf
        rcases hready.callee_cases hused hr hr' with hmachine | ⟨hmem, hname⟩
        · exact .inr hmachine
        · rw [hname]
          exact .inl (hperm.mem_iff.2 (List.mem_map_of_mem hmem))
    · simp [hnone] at hf

def forwardSample :
    Sample "G 1 FO 2 FORWARD 3 TYPEIN X TO G :N PRINT :N RT RANDOM END TO H BW 1 END" fun listing =>
    listing.blocks.map (·.name) = ["__main__", "RANDOM", "FORWARD", "BACKWARD", "RIGHT", "G"] :=
  .of (by decide +kernel)

theorem blocks_closed_under_calls_forward : ∃ listing,
    compile "G 1 FO 2 FORWARD 3 TYPEIN X TO G :N PRINT :N RT RANDOM END TO H BW 1 END" =
    .ok listing ∧ listing.blocks.map (·.name) =
    ["__main__", "RANDOM", "FORWARD", "BACKWARD", "RIGHT", "G"] ∧
    ∃ w,
      lower (.ofText "G 1 FO 2 FORWARD 3 TYPEIN X TO G :N PRINT :N RT RANDOM END TO H BW 1 END")
      {} = .ok () w ∧ (listing.blocks.map (·.name)).Perm
      (w.table.written.map fun id => (w.table.symbol id).name) ∧
      (listing.blocks.map (·.name.toUpper)).Nodup ∧
      (∃ main rest, listing.blocks = main :: rest ∧ main.name = entryName ∧
        main.lines.getLast? = some "HALT" ∧ ∀ b ∈ rest, b.lines.getLast? = some "RET") ∧
      listing.lines.count "HALT" = 1 ∧
      ∀ line ∈ listing.blocks.flatMap Block.lines, ∀ f ∈ callee? line,
        f ∈ listing.blocks.map (·.name) ∨ f ∈ machineRoutines :=
  ⟨forwardSample.listing, forwardSample.compiles, forwardSample.holds,
    blocks_closed_under_calls forwardSample.compiles⟩

end TurtleCompiler
