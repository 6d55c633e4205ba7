import TurtleCompiler.Proofs.Routines

/-!
The lines of a block. The instructions that a call adds are the only ones whose text depends on a
routine.
-/

namespace TurtleCompiler

section Lines

def after? (start line : String) :
    Option String := (start.toList.isPrefixOf? line.toList).map String.ofList

def labelName? (line : String) : Option String := after? ":" line

def jumpOperand? (line : String) : Option String :=
  [Jump.always, .less, .more, .zero, .nonzero].findSome? fun j => after? (j.mnemonic ++ " ") line

def callee? (line : String) : Option String := after? "CALL " line

variable {line : String} {t : Template}

theorem after?_eq_none {start : String} {c : Char} (hc : start.toList.head? = some c)
    (h : line.toList.head? ≠ some c) : after? start line = none := by
  unfold after?
  cases hs : start.toList with
  | nil => simp [hs] at hc
  | cons c' start =>
    obtain rfl : c' = c := by simpa [hs] using hc
    cases hl : line.toList with
    | nil => rfl
    | cons d line =>
      have hd : d ≠ c' := by simpa [hl] using h
      simp [List.isPrefixOf?, hd.symm]

theorem labelName?_eq_none (h : line.toList.head? ≠ some ':') : labelName? line = none :=
  after?_eq_none (by simp) h

theorem callee?_eq_none (h : line.toList.head? ≠ some 'C') : callee? line = none :=
  after?_eq_none (by simp) h

theorem jumpOperand?_eq_none (h : line.toList.head? ≠ some 'J') : jumpOperand? line = none := by
  simp only [jumpOperand?, List.findSome?_eq_none_iff]
  intro j _
  refine after?_eq_none ?_ h
  cases j <;> simp [Jump.mnemonic]

structure IsQuiet (line : String) : Prop where
  label : labelName? line = none
  jump : jumpOperand? line = none
  halt : line ≠ "HALT"
  header : line.toList.head? ≠ some 'D'
  directive : line.toList.head? ≠ some '.'
  call : ∀ f ∈ callee? line, f = "MOVE"

theorem Template.head?_render {c : Char} (h : t.first? = some c) (ctx : Context) :
    (t.render ctx).toList.head? = some c := by
  obtain ⟨_ | ⟨⟨cs⟩ | ⟨p⟩, parts⟩⟩ := t
  · simp [first?] at h
  · cases cs with
    | nil => simp [first?] at h
    | cons d cs =>
      obtain rfl : d = c := by simpa [first?] using h
      simp [render, Part.render]
  · simp [first?] at h

theorem Template.IsQuiet.render (h : t.IsQuiet) (ctx : Context) :
    TurtleCompiler.IsQuiet (t.render ctx) := by
  obtain ⟨hfirst, hcall, -⟩ := h
  simp only [List.mem_cons, List.not_mem_nil, or_false, not_or] at hfirst
  obtain ⟨c, hc⟩ := Option.ne_none_iff_exists'.1 hfirst.1
  have hhead := Template.head?_render hc ctx
  rw [hc] at hfirst hcall
  rw [← hhead] at hfirst
  refine ⟨labelName?_eq_none hfirst.2.1, jumpOperand?_eq_none hfirst.2.2.1, ?_, hfirst.2.2.2.2.1,
    hfirst.2.2.2.2.2, fun f hf => ?_⟩
  · intro hhalt
    exact hfirst.2.2.2.1 (by rw [hhalt]; rfl)
  · by_cases hC : c = 'C'
    · have hmove := hcall (by rw [hC])
      have htext : t.render ctx = "CALL MOVE" := by
        rw [hmove]
        rfl
      rw [htext] at hf
      have hmove' : callee? "CALL MOVE" = some "MOVE" := by simp [callee?, after?, List.isPrefixOf?]
      exact (Option.some.inj (hmove'.symm.trans hf)).symm
    · have hnone : callee? (t.render ctx) = none := callee?_eq_none (by simpa [hhead] using hC)
      simp [hnone] at hf

end Lines

namespace Instr

def isFixed : Instr → Bool
  | .call _ | .verbatim _ => false
  | _ => true

theorem begins_text {i : Instr} (h : ∀ line, i ≠ .verbatim line) :
    (i.label? = none → i.text.toList.head? ≠ some ':') ∧
      (i.target? = none → i.text.toList.head? ≠ some 'J') ∧
      i.text.toList.head? ≠ some 'H' ∧ i.text.toList.take 2 ≠ ['D', 'E'] := by
  cases i with
  | operate op => cases op <;> simp [text, Operation.mnemonic]
  | jump j l => cases j <;> simp [text, Jump.mnemonic, target?]
  | label l => simp [text, Label.text, label?]
  | verbatim line => exact absurd rfl (h line)
  | _ => simp [text]

section Kinds

variable {i : Instr} (h : i.isFixed ∨ IsQuiet i.text ∨ ∃ name, i = .call name)

include h

theorem kind_cases : (∀ line, i ≠ .verbatim line) ∨ IsQuiet i.text ∧ i.label? = none ∧
    i.target? = none := by
  cases i with
  | verbatim line =>
    have hquiet : IsQuiet line := by simpa [isFixed, text] using h
    exact .inr ⟨hquiet, rfl, rfl⟩
  | _ => exact .inl (by simp)

theorem labelName?_text : labelName? i.text = i.label?.map (·.name) := by
  rcases kind_cases h with hi | ⟨hquiet, hlabel, -⟩
  · cases hlabel : i.label? with
    | none => exact labelName?_eq_none ((begins_text hi).1 hlabel)
    | some l =>
      cases i <;> cases hlabel
      simp [labelName?, after?, text, Label.text, List.isPrefixOf?]
  · rw [hquiet.label, hlabel, Option.map_none]

theorem jumpOperand?_text : jumpOperand? i.text = i.target?.map (·.text) := by
  rcases kind_cases h with hi | ⟨hquiet, -, htarget⟩
  · cases htarget : i.target? with
    | none => exact jumpOperand?_eq_none ((begins_text hi).2.1 htarget)
    | some l =>
      cases i with
      | jump j l =>
        cases htarget
        cases j <;> simp [jumpOperand?, after?, text, Jump.mnemonic, List.isPrefixOf?]
      | _ => cases htarget
  · rw [hquiet.jump, htarget, Option.map_none]

end Kinds

end Instr

variable {t : Table} {d : Definition}

theorem Instr.From.cases {as : List Access} {cs : List Value} {i : Instr} (h : i.From t as cs)
    (hfits : ∀ a ∈ as, a.Fits t) : i.isFixed ∨ IsQuiet i.text ∨
      ∃ callee, t.IsUsed callee ∧ ∃ r ∈ (t.symbol callee).routine?, r.aliasOf = none ∧
        i = .call (r.hooks.target.getD (t.symbol callee).name) := by
  cases h with
  | call hmem _ hr hi =>
    obtain ⟨hused, halias, rfl | ⟨id, type, -, rfl⟩⟩ := (hfits _ hmem).callTail hr hi
    · exact .inr (.inr ⟨_, hused, _, hr, halias, rfl⟩)
    · refine .inr
        (.inl ⟨labelName?_eq_none ?_, jumpOperand?_eq_none ?_, fun hhalt => ?_, ?_, ?_, ?_⟩)
      · simp [text]
      · simp [text]
      · simpa [text] using congrArg (·.toList.head?) hhalt
      · simp [text]
      · simp [text]
      · simp [text, callee?_eq_none]
  | _ => exact .inl rfl

namespace Table

variable {t : Table} {id entry : SymbolId} {b : Block}

theorem exists_code_of_blockOf? (h : t.blockOf? id = some b) :
    ∃ d ∈ t.code? id, d.block? t = some b :=
  Option.bind_eq_some_iff.1 h

end Table

theorem Definition.block?_cases {b : Block} (h : d.block? t = some b) :
    ∃ r ∈ (t.symbol d.symbol).routine?, r.flags.internal = false ∧ t.IsUsed d.symbol ∧
      b = ⟨(t.symbol d.symbol).name, r.params.map fun param => (t.symbol param).fullName,
        d.body.flatMap (entryCode t (context t (t.symbol d.symbol) r))⟩ := by
  simp only [block?, Option.bind_eq_bind, Option.bind_eq_some_iff] at h
  obtain ⟨r, hr, _, hguard, h⟩ := h
  have hguard : r.flags.internal = false ∧
    (t.symbol d.symbol).usage ≠ 0 := by simpa [guard] using hguard
  exact ⟨r, hr, hguard.1, Nat.pos_of_ne_zero hguard.2, (Option.some.inj h).symm⟩

theorem Definition.isSome_block? {r : Routine} (hr : r ∈ (t.symbol d.symbol).routine?)
    (hinternal : r.flags.internal = false) (hused : t.IsUsed d.symbol) : (d.block? t).isSome := by
  have husage : (t.symbol d.symbol).usage ≠ 0 := Nat.pos_iff_ne_zero.1 hused
  simp [block?, Option.mem_def.1 hr, hinternal, husage, guard]

theorem Block.line_cases {b : Block} {line : String} (h : line ∈ b.lines) :
    (∃ i ∈ b.code, i.text = line) ∨ labelName? line = none ∧ jumpOperand? line = none ∧
    callee? line = none := by
  simp only [Block.lines, List.mem_append, List.mem_map, List.mem_cons, List.not_mem_nil,
    or_false] at h
  rcases h with (((rfl | rfl) | ⟨p, -, rfl⟩) | hcode) | rfl
  · exact .inr ⟨labelName?_eq_none (by simp), jumpOperand?_eq_none (by simp),
      callee?_eq_none (by simp)⟩
  · exact .inr ⟨labelName?_eq_none (by simp), jumpOperand?_eq_none (by simp),
      callee?_eq_none (by simp)⟩
  · exact .inr ⟨labelName?_eq_none (by simp [Instr.text]),
      jumpOperand?_eq_none (by simp [Instr.text]), callee?_eq_none (by simp [Instr.text])⟩
  · exact .inl hcode
  · right
    rw [Block.lastLine]
    split <;>
      exact ⟨labelName?_eq_none (by simp), jumpOperand?_eq_none (by simp),
        callee?_eq_none (by simp)⟩

namespace Table.Ready

variable {t : Table} {id entry : SymbolId} {b : Block}

theorem block_cases (h : t.Ready entry) (hb : t.blockOf? id = some b) :
    b.name = (t.symbol id).name ∧ t.IsUsed id ∧
      (∃ r ∈ (t.symbol id).routine?, r.flags.internal = false) ∧
      (b.code = codeOfNodes t (t.bodyOf id) ∧
        (∀ a ∈ accessesOfNodes (t.bodyOf id), a.Fits t) ∨
        t.bodyOf id = [] ∧ ∀ i ∈ b.code, i.isPlain ∧ IsQuiet i.text ∧
        (t.IsTidy → IsOneLine i.text)) := by
  obtain ⟨d, hd, hblock⟩ := exists_code_of_blockOf? hb
  obtain ⟨r, hr, hcode⟩ := Option.bind_eq_some_iff.1 hd
  obtain ⟨rfl, hfits⟩ := h.lowered.code r hr d hcode
  obtain ⟨r', hr', hinternal, hused, rfl⟩ := Definition.block?_cases hblock
  obtain rfl := Option.mem_unique hr hr'
  have hbody : t.bodyOf d.symbol = d.nodes := by rw [bodyOf_eq hr, hcode, Option.elim_some]
  refine ⟨rfl, hused, ⟨r, hr, hinternal⟩, ?_⟩
  rw [hbody]
  rcases h.routines d.symbol r hr with hplain | hprimitive
  · obtain ⟨nodes, hd'⟩ := hplain.code d hcode
    rw [hd'] at hfits ⊢
    rw [Definition.nodes_ofNodes, codeOfNodes_ofNodes, ← Lowering.accesses_ofNodes d.symbol]
    refine .inl ⟨rfl, fun a ha => ?_⟩
    simp only [Definition.accesses, List.mem_flatMap] at ha
    obtain ⟨e, he, ha⟩ := ha
    cases e with
    | node n => exact hfits _ he a ha
    | template line => simp [Entry.accesses] at ha
  · refine .inr ⟨hprimitive.nodes hcode, fun i hi => ?_⟩
    obtain ⟨d', hd', htemplates⟩ := hprimitive.code
    obtain rfl := Option.mem_unique hcode hd'
    obtain ⟨e, he, hi⟩ := List.mem_flatMap.1 hi
    obtain ⟨line, hline, hquiet⟩ := htemplates e he
    cases e with
    | node n => simp [Entry.template?] at hline
    | template line' =>
      obtain rfl : line' = line := by simpa [Entry.template?] using hline
      obtain rfl := List.mem_singleton.1 hi
      refine ⟨rfl, hquiet.render _,
        fun ht => Template.IsOneLine.render hquiet.2.2 ?_ (fun n x hx => ?_) ?_⟩
      · rintro x ⟨⟩
        exact ht.name _
      · obtain ⟨param, -, rfl⟩ := Option.map_eq_some_iff.1 hx
        exact ht.fullName param
      · simp [Definition.context]

theorem instr_cases (h : t.Ready entry) (hb : t.blockOf? id = some b) {i : Instr}
    (hi : i ∈ b.code) :
    i.isFixed ∨ IsQuiet i.text ∨ ∃ callee, t.IsUsed callee ∧
      ∃ r ∈ (t.symbol callee).routine?, r.aliasOf = none ∧
      i = .call (r.hooks.target.getD (t.symbol callee).name) := by
  obtain ⟨-, -, -, ⟨hcode, hfits⟩ | ⟨-, hquiet⟩⟩ := h.block_cases hb
  · rw [hcode] at hi
    exact (from_codeOfNodes t _ i hi).cases hfits
  · exact .inr (.inl (hquiet i hi).2.1)

theorem link {w w' : Workspace} {listing : Listing} (h : w.table.Ready entry)
    (hl : TurtleCompiler.link w = .ok listing w') :
    ∃ targets : List SymbolId, targets.Nodup ∧
      listing.blocks = targets.filterMap w.table.blockOf? ∧
      (∀ x ∈ targets, w.table.alias? x = none) ∧ ∀ x, w.table.IsUsed x →
        ∀ r ∈ (w.table.symbol x).routine?, r.aliasOf = none → r.flags.internal = false →
        x ∈ targets ∧ (w.table.blockOf? x).isSome := by
  obtain ⟨-, w₁, bs, w₂, htable, hbs, hblocks⟩ := link_eq_ok hl
  obtain ⟨targets, hnodup, hfilter, hmem, hdefined⟩ := mapM_linkRoutine_cases hbs
  rw [htable] at hfilter hmem hdefined
  refine ⟨targets, hnodup, hblocks.trans hfilter, fun x hx => ?_,
    fun x hused r hr halias hinternal => ?_⟩
  · obtain ⟨-, i, -, hi⟩ := (hmem x).1 hx
    exact alias?_of_linkTarget? hi
  have hlinked : x ∈ w.table.used .routine :=
    (h.lowered.live.sound.mem_used h.scopes hused.has (Symbol.cls_of_routine? hr)).2 hused
  have htarget : w.table.linkTarget? x =
    some x := by simp [linkTarget?, Option.mem_def.1 hr, halias]
  have hgenerated : r.flags.generated = false := by
    rcases h.routines x r hr with hplain | hprimitive
    · rw [hplain.flags]
    · exact hprimitive.generated
  refine ⟨(hmem x).2 ⟨⟨r, hr, hgenerated, hinternal⟩, x, hlinked, htarget⟩, ?_⟩
  obtain ⟨d, hd⟩ : ∃ d, r.code = some d := by
    obtain ⟨x', hx', r', hr', hcode⟩ := hdefined x hlinked
    obtain rfl : x = x' := by simpa [htarget] using hx'
    obtain rfl := Option.mem_unique hr hr'
    rcases h.routines x r hr with hplain | hprimitive
    · exact Option.isSome_iff_exists.1 (hcode.resolve_left (by simp [hplain.flags]))
    · exact hprimitive.code.imp fun _ hd => hd.1
  obtain ⟨rfl, -⟩ := h.lowered.code r hr d hd
  have hblock : w.table.blockOf? d.symbol =
    d.block? w.table := by simp [blockOf?, code?, Option.mem_def.1 hr, hd]
  rw [hblock]
  exact Definition.isSome_block? hr hinternal hused

end Table.Ready

structure Sample (source : String) (p : Listing → Prop) where
  listing : Listing
  compiles : compile source = .ok listing
  holds : p listing

def Sample.of {source : String} {p : Listing → Prop}
    (h : ∃ listing ∈ (compile source).toOption, p listing) : Sample source p :=
  match hc : compile source with
  | .ok listing => ⟨listing, hc, by simpa [hc, Except.toOption] using h⟩
  | .error e => absurd h (by simp [hc, Except.toOption])

end TurtleCompiler
