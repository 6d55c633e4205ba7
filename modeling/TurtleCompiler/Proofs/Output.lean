import TurtleCompiler.Proofs.EntryBlock
import TurtleCompiler.Proofs.ReadConstants
import TurtleCompiler.Proofs.Translation

/-!
The first block of a listing prints what the source prints when its statements are executed in
order, as long as the assignments that were left out of the code make no difference.
-/

namespace TurtleCompiler

open Source

namespace Lowering

def IsFresh (t : Table) : Prop :=
  (∀ id, t.Has id → (t.value? id).isNone) ∧
    (∃ i < t.symbols.size, (t.IsRoutine "PRINT" ⟨i⟩ ∧ t.alias? ⟨i⟩ = none) ∧
      t.isPrint ⟨i⟩) ∧
    ∃ i < t.symbols.size, (t.IsRoutine "RANDOM" ⟨i⟩ ∧ t.alias? ⟨i⟩ = none) ∧
    t.isRandom ⟨i⟩

instance (t : Table) : Decidable (IsFresh t) := by
  unfold IsFresh Table.IsRoutine
  infer_instance

def freshStart : { s : Start // IsFresh s.table ∧ s.table.StartsAt s.entry } :=
  ⟨start, by decide +kernel⟩

theorem scoped_setup {entry : SymbolId} {w : Workspace} (h : setup {} = .ok entry w) :
    ({ toWorkspace := w, entry } : Lowering).Scoped (fun _ => "") [] ∧
    w.table.StartsAt entry := by
  obtain ⟨hok, hpaths⟩ := ok_setup h
  obtain ⟨rfl, htable⟩ := eq_start h
  have hbegins : w.table.StartsAt start.entry := htable ▸ freshStart.2.2
  have hfresh : IsFresh w.table := htable ▸ freshStart.2.1
  obtain ⟨hnone, ⟨i, -, ⟨hprint, halias⟩, hi⟩, j, -, ⟨hrandom, halias'⟩, hj⟩ :=
    hfresh
  refine ⟨⟨hok.live, hok.live.sound.homes hpaths, nofun,
    ⟨_, ⟨_, hprint, .inl ⟨halias, rfl⟩⟩, hi⟩,
    ⟨_, ⟨_, hrandom, .inl ⟨halias', rfl⟩⟩, hj⟩, fun x => ?_⟩, hbegins⟩
  simp only [List.not_mem_nil, false_iff, not_exists, not_and]
  intro id hid
  simpa using hnone id hid.1.1

end Lowering

/-- The data section of a listing has the variables of a table that are used. -/
structure Table.Fills (t : Table) (l : Listing) : Prop where
  sound : t.Sound
  scopes : t.scopes = []
  data : l.data = (t.used .var).map fun id =>
    ((t.symbol id).fullName, (t.symbol id).initialValue)

namespace Source

variable {p : Processor} {home : String → String} {stmts : List Stmt} {source : String}
  {listing : Listing}

theorem translates_items {s s' : Lowering} {seen : List String} {faults : List (Option Error)}
    (hplain : arePlain stmts) (hnames : ∀ x ∈ namesOfAll stmts, IsName x)
    (hs : s.Scoped home seen) (hb : s.table.StartsAt s.entry)
    (h : (stmts.map Item.statement).mapM Item.lower s = .ok faults s') :
    s'.entry = s.entry ∧ s'.table.StartsAt s.entry ∧ ∃ ns, s'.mainBody = s.mainBody ++ ns ∧
      Translates p home s (taskOfAll seen stmts) ns s' (seen ++ assignsOfAll stmts) := by
  induction stmts generalizing s seen faults with
  | nil =>
    simp only [List.map_nil, List.mapM_nil, pure_eq_ok] at h
    obtain ⟨-, rfl⟩ := h
    rw [assignsOfAll, List.append_nil]
    exact ⟨rfl, hb, [], (List.append_nil _).symm, hs, .refl _, _, .nil, fun _ => .skip⟩
  | cons st stmts ih =>
    simp only [List.map_cons, List.mapM_cons, Item.lower, Lowering.addTopLevel, bind_eq_ok,
      modify_eq_ok, pure_eq_ok] at h
    obtain ⟨_, _, ⟨n, s₁, hn, _, _, rfl, rfl, rfl⟩, faults, _, hrest, -, rfl⟩ := h
    simp only [arePlain, Bool.and_eq_true] at hplain
    simp only [namesOfAll, List.forall_mem_append] at hnames
    have hadds := (st.becomes hn).adds hnames.1 hs.live
    have hfirst := (st.becomes hn).translates (p := p) hplain.1 hnames.1 hs
    have hentry : s₁.entry = s.entry := hadds.entry
    have hs₁ :
        ({ s₁ with mainBody := s₁.mainBody ++ [n] } : Lowering).Scoped home
        (seen ++ st.assigns) := by
      obtain ⟨hlive, hhomes, hparams, hprint, hrandom, hassigned⟩ := hfirst.state
      exact ⟨hlive, hhomes, hparams, hprint, hrandom, hassigned⟩
    obtain ⟨hentry', hbegins, ns, hbody, htop, hleads, hbuilt⟩ :=
      ih hplain.2 hnames.2 hs₁ (hentry ▸ hb.extends hadds.table) hrest
    rw [List.append_assoc] at htop
    refine ⟨hentry'.trans hentry, hentry ▸ hbegins, n :: ns, ?_,
      hfirst.seq ⟨htop, hleads, hbuilt⟩⟩
    rw [hbody, hadds.mainBody, List.append_assoc]
    rfl

theorem namesOfAll_eq (stmts : List Stmt) : namesOfAll stmts = stmts.flatMap Stmt.names := by
  induction stmts with
  | nil => rfl
  | cons st stmts ih => simp [namesOfAll, ih]

section

variable (h : compile source = .ok listing)
  (hparse : (parse (.ofText source)).items = stmts.map .statement)

include h hparse

theorem lowered_of_compile :
    ∃ (entry : SymbolId) (w : Workspace) (faults : List (Option Error))
      (s : Lowering) (t : Table), Lowering.setup {} = .ok entry w ∧
      (∀ x ∈ namesOfAll stmts, IsName x) ∧
      (stmts.map Item.statement).mapM Item.lower { toWorkspace := w, entry } = .ok faults s ∧
      s.table.Leads t ∧ (∀ id, (t.symbol id).var? = (s.table.symbol id).var?) ∧
      t.Fills listing ∧ (s.table.StartsAt s.entry →
        ∃ rest, listing.blocks = ⟨entryName, [], codeOfNodes t s.mainBody⟩ :: rest) := by
  obtain ⟨w, w', hlower, hlink⟩ := compile_eq_ok h
  obtain ⟨entry, w₀, s', hsetup, hrun, rfl⟩ := Lowering.within_eq_ok hlower
  obtain ⟨hok, hpaths⟩ := Lowering.ok_setup hsetup
  obtain ⟨_, s, hprogram, hfinish⟩ := bind_eq_ok.1 hrun
  have hok' := (ok_lower_parse hok hpaths hprogram).1
  obtain ⟨faults, s₁, hitems, hnone, henter⟩ := Program.lower_eq_ok hprogram
  have hcomplete := isName_of_parse (complete_of_lower hitems hnone)
  rw [hparse] at hitems hcomplete
  have hnames : ∀ x ∈ namesOfAll stmts, IsName x := by
    rw [namesOfAll_eq]
    exact List.forall_mem_flatMap.2 (List.forall_mem_map.1 hcomplete)
  obtain rfl := modify_eq_ok.1 henter
  obtain ⟨hlowered, -, hscopes, -⟩ := hok'.finish hfinish
  exact ⟨entry, w₀, faults, s₁, s'.table, hsetup, hnames, hitems, hok'.leads_finish hfinish,
    hok'.var?_finish hfinish, ⟨hlowered.live.sound, hscopes, (link_eq_ok hlink).1⟩,
    fun hbegins => hok'.link_entry hbegins hfinish hlink⟩

theorem matches_of_compile (hbasic : areBasic stmts) (p : Processor) :
    ∃ (t : Table) (d : Command) (ns : List Node) (n : Nat) (rest : List Block),
      t.Fills listing ∧ listing.blocks = ⟨entryName, [], codeOfNodes t ns⟩ :: rest ∧
      d.Built 0 ns n ∧ (taskOfAll [] stmts).Matches p (fun _ => "") t d := by
  obtain ⟨entry, w, faults, s, t, hsetup, hnames, hitems, hleads, -, ht, hblocks⟩ :=
    lowered_of_compile h hparse
  obtain ⟨htop, hbegins⟩ := Lowering.scoped_setup hsetup
  obtain ⟨hentry, hbegins', ns, hbody, -, -, d, hd, hmatches⟩ :=
    translates_items (p := p) (arePlain_of_areBasic stmts hbasic) hnames htop hbegins hitems
  obtain ⟨rest, hblocks⟩ := hblocks (hentry ▸ hbegins')
  have hbody : s.mainBody = ns := hbody
  exact ⟨t, d, ns, _, rest, ht, hbody ▸ hblocks, hd, hmatches hleads⟩

end

end Source

def Listing.initial (l : Listing) (x : String) : Value :=
  ((l.data.find? fun e => e.1.toUpper = x).map (·.2)).getD (.int 0)

theorem Listing.initial_eq {l : Listing} (h : (l.data.map fun e => e.1.toUpper).Nodup)
    {e : String × Value} (he : e ∈ l.data) : l.initial e.1.toUpper = e.2 := by
  obtain ⟨e', hfind⟩ : ∃ e', l.data.find? (fun e' => e'.1.toUpper = e.1.toUpper) = some e' :=
    Option.isSome_iff_exists.1 (List.find?_isSome.2 ⟨e, he, by simp⟩)
  have hkey : e'.1.toUpper = e.1.toUpper := by simpa using List.find?_some hfind
  obtain rfl : e' = e := List.inj_on_of_nodup_map h (List.mem_of_find?_eq_some hfind) he hkey
  simp [initial, hfind]

/-- The names in the data section are different ones, and in upper case. -/
abbrev Listing.IsUpper (l : Listing) : Prop :=
  (∀ e ∈ l.data.map (·.1), e.toUpper = e) ∧ (l.data.map fun e => e.1.toUpper).Nodup

theorem Listing.IsUpper.initial_eq {l : Listing} (h : l.IsUpper) :
    ∀ e ∈ l.data, l.initial e.1 = e.2 := fun e he => by
  rw [← Listing.initial_eq h.2 he, h.1 _ (List.mem_map_of_mem he)]

theorem Symbol.initialValue_of_value? {t : Table} {id : SymbolId} {v : Value}
    (h : t.value? id = some v) : (t.symbol id).initialValue = v := by
  rw [Table.value?, Option.bind_eq_some_iff] at h
  obtain ⟨var, hvar, hv⟩ := h
  simp [initialValue, hvar, hv]

/-- The constants that a run of a block depends on, which a machine has to read. -/
def Listing.constants (l : Listing) (b : Block) :
    List Value := l.data.map (·.2) ++ constantsIn b.code

theorem Processor.Reads.store {p : Processor} {l : Listing} {b : Block} {read : String → Value}
    (h : p.Reads read (l.constants b)) {e : String × Value} (he : e ∈ l.data) :
    p.constant (read e.2.text) = p.constant e.2 :=
  h _ (List.mem_append_left _ (List.mem_map_of_mem he))

theorem Processor.Reads.code {p : Processor} {l : Listing} {b : Block} {read : String → Value}
    (h : p.Reads read (l.constants b)) : p.Reads read (constantsIn b.code) :=
  fun v hv => h v (List.mem_append_right _ hv)

namespace Table.Fills

variable {t : Table} {listing : Listing} {x : String} {id : SymbolId}

theorem mem_data (ht : t.Fills listing) (hid : t.IsVar id) (hused : t.IsUsed id) :
    ((t.symbol id).fullName, (t.symbol id).initialValue) ∈ listing.data := by
  rw [ht.data]
  exact List.mem_map_of_mem ((ht.sound.mem_used ht.scopes hid.1 hid.2).2 hused)

theorem initial_eq (ht : t.Fills listing) (hid : t.IsGlobal x id) (hused : t.IsUsed id) :
    listing.initial x = (t.symbol id).initialValue := by
  have hnodup : (listing.data.map fun e => e.1.toUpper).Nodup := by
    rw [ht.data, List.map_map]
    exact Table.nodup_used ht.sound
  have hinitial := Listing.initial_eq hnodup (ht.mem_data hid.1 hused)
  rwa [ht.sound.fullName_global hid] at hinitial

theorem same_initial (ht : t.Fills listing) {p : Processor} {store : String → Value}
    (hstore : ∀ e ∈ listing.data, store e.1 = p.constant e.2) :
    Same t (.initial fun x => p.constant (listing.initial x)) ⟨store, 0, []⟩ := by
  refine ⟨rfl, rfl, fun hid hused => ?_, fun x => rfl⟩
  have hinitial := congrArg p.constant (ht.initial_eq hid hused)
  exact congrArg some (hinitial.trans (hstore _ (ht.mem_data hid.1 hused)).symm)

end Table.Fills

/-- The first block is that of the entry. Its text, run by a machine that reads the constants back,
prints what the source prints when the marked assignments are skipped, and so it prints what the
source prints, as long as they may be skipped. -/
theorem first_block_sameOutput {source : String} {listing : Listing} {stmts : List Stmt}
    (h : compile source = .ok listing)
    (hparse : (parse (.ofText source)).items = stmts.map .statement) (hbasic : areBasic stmts)
    (p : Processor) :
    ∃ main rest, listing.blocks = main :: rest ∧ main.name = entryName ∧ main.params = [] ∧
      ∀ read, p.Reads read (listing.constants main) →
        ∀ (store : String → Value) (o : Ordering),
        (∀ e ∈ listing.data, store e.1 = p.constant (read e.2.text)) →
        (p.execution (main.code.map (.reread read)) ⟨⟨store, 0, []⟩, [], o⟩).SameOutput
          ((taskOfAll [] stmts).execution p true
            (.initial fun x => p.constant (listing.initial x))) ∧
        ((taskOfAll [] stmts).NeverStuck p → (taskOfAll [] stmts).IsElidable p →
          (p.execution (main.code.map (.reread read)) ⟨⟨store, 0, []⟩, [], o⟩).SameOutput
            ((taskOfAll [] stmts).execution p false .empty)) := by
  obtain ⟨t, d, ns, n, rest, ht, hblocks, hbuilt, hmatches⟩ :=
    matches_of_compile h hparse hbasic p
  refine ⟨_, rest, hblocks, rfl, rfl, fun read hread store o hstore => ?_⟩
  have hsame := ht.same_initial fun e he => (hstore e he).trans (hread.store he)
  have hcode := (hbuilt.compiled t).sameOutput (p := p) (hbuilt.fresh hmatches.isSimple).nodup
    hmatches.isSimple ⟨store, 0, []⟩ [] o
  have heliding := (Processor.sameOutput_reread hread.code).trans
    (hcode.symm.trans (hmatches.sameOutput ht.sound hsame))
  refine ⟨heliding, fun hsafe hidle =>
    heliding.trans (Task.sameOutput_eliding ?_ hsafe hidle).symm⟩
  refine hmatches.isMarked ht.sound hmatches.used fun hid hused hv => ?_
  rw [ht.initial_eq hid hused, Symbol.initialValue_of_value? hv]

namespace Source

def Item.statement? : Item → Option Stmt
  | .statement st => some st
  | _ => none

theorem eq_map_statement {items : List Item} {stmts : List Stmt}
    (h : items.mapM Item.statement? = some stmts) : items = stmts.map .statement := by
  induction items generalizing stmts with
  | nil =>
    obtain rfl : stmts = [] := by simpa using h.symm
    rfl
  | cons item items ih =>
    simp only [List.mapM_cons, Option.bind_eq_bind, Option.bind_eq_some_iff, Option.pure_def,
      Option.some.injEq] at h
    obtain ⟨st, hst, rest, hrest, rfl⟩ := h
    cases item with
    | statement => rw [Option.some.inj hst, ih hrest, List.map_cons]
    | _ => simp [Item.statement?] at hst

theorem exists_statements (source : String) (p : List Stmt → Prop)
    (h : ∃ stmts ∈ (parse (.ofText source)).items.mapM Item.statement?, p stmts) :
    ∃ stmts, (parse (.ofText source)).items = stmts.map .statement ∧ p stmts := by
  obtain ⟨stmts, hstmts, hp⟩ := h
  exact ⟨stmts, eq_map_statement hstmts, hp⟩

end Source

def countingText : String :=
  "X = 1 WHILE :X < 3 IF :X == 2 THEN PRINT :X ELSE PRINT 0 END X += 1 END"

theorem first_block_sameOutput_loop :
    ∃ (listing : Listing) (stmts : List Stmt) (main : Block) (rest : List Block)
      (read : String → Value),
      compile countingText = .ok listing ∧
      (parse (.ofText countingText)).items = stmts.map .statement ∧ areBasic stmts ∧
      (taskOfAll [] stmts).NeverStuck .folding ∧ (taskOfAll [] stmts).IsElidable .folding ∧
      listing.blocks = main :: rest ∧ Processor.folding.Reads read (listing.constants main) ∧
      ∀ (store : String → Value) (o : Ordering),
        (∀ e ∈ listing.data, store e.1 = Processor.folding.constant (read e.2.text)) →
        (Processor.folding.execution (main.code.map (.reread read))
          ⟨⟨store, 0, []⟩, [], o⟩).SameOutput
        ((taskOfAll [] stmts).execution .folding false .empty) := by
  obtain ⟨stmts, hparse, hbasic, hgoes, hfirst⟩ := exists_statements countingText
    (fun stmts => areBasic stmts ∧
      throughout (Task.step .folding false) (Task.goesOn .folding) 50
      ([taskOfAll [] stmts], .empty) ∧
      throughout (Task.step .folding false) Task.isFirst 50 ([taskOfAll [] stmts], .empty))
      (by decide +kernel)
  obtain ⟨listing, h, hlegible⟩ := exists_listing countingText
    (fun listing => ∀ b ∈ listing.blocks, ∀ v ∈ listing.constants b, v.IsLegible)
    (by decide +kernel)
  have hnever := Task.neverStuck_of_throughout hgoes
  have helidable := Task.isElidable_of_throughout hfirst
  obtain ⟨main, rest, hblocks, -, -, hsame⟩ := first_block_sameOutput h hparse hbasic .folding
  obtain ⟨read, hread⟩ := Processor.folding.exists_reads fun _ => rfl
  have hread := hread _ (hlegible main (hblocks ▸ List.mem_cons_self))
  exact ⟨listing, stmts, main, rest, read, h, hparse, hbasic, hnever, helidable, hblocks, hread,
    fun store o hstore => (hsame read hread store o hstore).2 hnever helidable⟩

def resettingText : String := "I = 0 WHILE :I < 2 Y = 0 Y += 1 PRINT :Y I += 1 END"

/-- A marked assignment in a loop is executed again and again, but the code has it only as an
initial value. The source prints 1 twice, and the code prints 1 and 2. -/
theorem elided_assignment_in_loop :
    ∃ (listing : Listing) (stmts : List Stmt) (main : Block) (rest : List Block)
      (store : String → Value),
      compile resettingText = .ok listing ∧
      (parse (.ofText resettingText)).items = stmts.map .statement ∧ areBasic stmts ∧
      (taskOfAll [] stmts).NeverStuck .folding ∧ listing.blocks = main :: rest ∧
      (∀ e ∈ listing.data, store e.1 = e.2) ∧
      ¬ (Processor.folding.execution main.code ⟨⟨store, 0, []⟩, [], .eq⟩).SameOutput
        ((taskOfAll [] stmts).execution .folding false .empty) := by
  obtain ⟨stmts, hparse, hbasic, hgoes, htexts⟩ := exists_statements resettingText
    (fun stmts => areBasic stmts ∧
      throughout (Task.step .folding false) (Task.goesOn .folding) 50
      ([taskOfAll [] stmts], .empty) ∧
        throughout (Task.step .folding false)
        (fun s => s.2.printed.map Value.text <+: ["1", "1"]) 50
        ([taskOfAll [] stmts], .empty)) (by decide +kernel)
  obtain ⟨listing, h, hupper, main, hmain, hprinted⟩ := exists_listing resettingText
    (fun listing => listing.IsUpper ∧ ∃ main ∈ listing.blocks.head?,
        (runFor (Processor.folding.machine.step main.code) 50
          (.before main.code, ⟨⟨listing.initial, 0, []⟩, [], .eq⟩)).2.env.printed.map
          Value.text = ["1", "2"])
    (by decide +kernel)
  obtain ⟨rest, hblocks⟩ := List.head?_eq_some_iff.1 hmain
  refine ⟨listing, stmts, main, rest, listing.initial, h, hparse, hbasic,
    Task.neverStuck_of_throughout hgoes, hblocks, hupper.initial_eq, fun hsame => ?_⟩
  obtain ⟨s, hs, hvs⟩ := (hsame.1 _).1 ⟨_, reaches_runFor 50, List.prefix_rfl⟩
  have hs' : s.2.printed.map Value.text <+: ["1", "1"] := by
    simpa using forall_of_throughout htexts hs
  have h12 : ["1", "2"] <+: ["1", "1"] := hprinted ▸ (hvs.map Value.text).trans hs'
  exact absurd h12 (by decide)

end TurtleCompiler
