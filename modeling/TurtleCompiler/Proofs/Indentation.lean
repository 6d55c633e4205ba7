import TurtleCompiler.Proofs.LabelLines
import TurtleCompiler.Proofs.UsageCounts

/-!
Indentation. Directives, headers and labels stand flush left and the other lines do not, except for
the line of a variable whose name begins like a header.
-/

namespace TurtleCompiler

inductive Role where
  | blank
  | directive
  | entry (name : String)
  | header
  | label
  | instruction
  deriving DecidableEq

def Role.isMark (role : Role) : Bool := role ∈ [.directive, .header, .label]

def Instr.role : Instr → Role
  | .label _ => .label
  | _ => .instruction

def Block.roles (b : Block) : List (Role × String) :=
  [(.blank, ""), (.header, "DEF " ++ b.name ++ ":")] ++
    b.params.map (fun p => (.instruction, (Instr.store p).text)) ++
    b.code.map (fun i => (i.role, i.text)) ++ [(.instruction, b.lastLine)]

namespace Listing

def dataRoles (l : Listing) : List (Role × String) :=
  if l.data.isEmpty then []
  else [(.blank, ""), (.directive, ".DATA")] ++ l.data.map fun e => (.entry e.1, dataLine e.1 e.2)

def roles (l : Listing) : List (Role × String) :=
  [(.directive, ".START " ++ entryName)] ++
    (if l.canvas then [(.blank, ""), (.directive, ".INIT 200 200 400 400")] else []) ++
    l.dataRoles ++ [(.blank, ""), (.directive, ".CODE")] ++ l.blocks.flatMap Block.roles

end Listing

theorem Block.map_roles (b : Block) : b.roles.map Prod.snd = b.lines := by
  simp [roles, lines, Function.comp_def]

namespace Listing

theorem map_dataRoles (l : Listing) : l.dataRoles.map Prod.snd = l.dataLines := by
  unfold dataRoles dataLines
  split <;> simp [Function.comp_def]

theorem map_roles (l : Listing) : l.roles.map Prod.snd = l.lines := by
  have hcanvas :
      (if l.canvas then [(Role.blank, ""), (.directive, ".INIT 200 200 400 400")] else []).map
      Prod.snd = if l.canvas then ["", ".INIT 200 200 400 400"] else [] := by
    split <;> rfl
  have hblocks : (l.blocks.flatMap Block.roles).map Prod.snd = l.blocks.flatMap Block.lines := by
    rw [List.map_flatMap]
    exact List.flatMap_congr fun b _ => b.map_roles
  simp only [roles, lines, List.map_append, hcanvas, map_dataRoles, hblocks,
    List.map_cons, List.map_nil]

variable {line : String}

theorem isFlushLeft_iff : isFlushLeft line ↔
    line = "" ∨ line.toList.head? = some '.' ∨ line.toList.head? = some ':' ∨
    "DEF".toList <+: line.toList := by
  have hhead (c : Char) : [c] <+: line.toList ↔ line.toList.head? = some c := by
    cases line.toList <;> simp [eq_comm]
  simp only [isFlushLeft, Bool.or_eq_true, String.isEmpty_iff, String.startsWith_string_iff,
    ← hhead, or_assoc]
  rfl

theorem indent_eq_self : indent line = line ↔ isFlushLeft line := by
  unfold indent
  split
  · simp_all
  · next h =>
    refine iff_of_false (fun heq => ?_) h
    have := congrArg String.length heq
    simp at this

end Listing

section Names

open Source

theorem head?_toUpper {x : String} {c : Char} (hc : ¬c.isAlpha) :
    x.toUpper.toList.head? = some c ↔ x.toList.head? = some c := by
  rw [toList_toUpper, List.head?_map, Option.map_eq_some_iff]
  refine ⟨fun ⟨d, hd, hupper⟩ => ?_, fun h => ⟨c, h, (toUpper_eq_iff hc).2 rfl⟩⟩
  rw [hd, (toUpper_eq_iff hc).1 hupper]

theorem IsName.head?_ne {x name : String} (h : IsName x)
    (hname : name.toUpper = x.toUpper) {c : Char}
    (hc : ¬c.isAlpha) (hword : ¬isWordChar c) : name.toList.head? ≠ some c := by
  intro hhead
  rw [← head?_toUpper hc, hname, head?_toUpper hc] at hhead
  exact hword (h.word c (List.mem_of_mem_head? hhead))

theorem Item.outerNames_subset (i : Item) : i.outerNames ⊆ i.names := by
  cases i <;> simp [Item.outerNames, Item.names]

theorem fullName_cases {source : String} {u : Unit} {w : Workspace}
    (h : lower (.ofText source) {} = .ok u w) {id : SymbolId} (hid : w.table.IsVar id) :
    (w.table.symbol id).fullName.toList.head? = some '@' ∨
      (w.table.symbol id).fullName = headingName ∨
      ∃ x ∈ (parse (.ofText source)).items.flatMap Item.outerNames,
        IsName x ∧ (w.table.symbol id).fullName.toUpper = x.toUpper := by
  obtain ⟨entry, w₀, s', hsetup, hrun, rfl⟩ := Lowering.within_eq_ok h
  obtain ⟨hok, hpaths⟩ := Lowering.ok_setup hsetup
  obtain ⟨_, s₂, hlower, hfinish⟩ := bind_eq_ok.1 hrun
  obtain ⟨faults, s₁, hitems, hnone, henter⟩ := Program.lower_eq_ok hlower
  have hcomplete := complete_of_lower hitems hnone
  have hnames := isName_of_parse hcomplete
  obtain ⟨hok₁, hpaths₁⟩ := ok_lower_items hok hpaths hcomplete hnames hitems
  have hpasses := passes_lower_items hok hpaths hcomplete hnames hitems
  obtain ⟨hhas, -, hgrows⟩ :=
    Lowering.symbols_finish (hok₁.adds (Lowering.adds_enter henter)) hfinish id
  rw [Lowering.table_enter henter] at hhas hgrows
  have hgrows := hgrows (hhas hid.1)
  have hvar : s₁.table.IsVar id := ⟨hhas hid.1, hgrows.cls ▸ hid.2⟩
  rw [hgrows.fullName, (hok₁.live.sound.named hvar.1).1]
  by_cases hscope : (s₁.table.symbol id).scope = ""
  · right
    rw [hscope, qualify, if_pos rfl]
    rcases hpasses.isGlobal ⟨hvar, hscope, rfl⟩ with ⟨hstart, hscope₀, -⟩ | hmem
    · left
      rw [(hpasses.leads.grows hstart.1).name]
      rw [show ({ toWorkspace := w₀, entry } : Lowering).table =
        Lowering.start.table from (Lowering.eq_start hsetup).2] at hstart hscope₀ ⊢
      exact Lowering.headingStart.2.1 id hstart.1 hstart.2 hscope₀
    · right
      obtain ⟨x, hx, hupper⟩ := List.mem_map.1 hmem
      obtain ⟨i, hi, hx'⟩ := List.mem_flatMap.1 hx
      exact ⟨x, hx, hnames i hi x (Item.outerNames_subset i hx'), hupper.symm⟩
  · left
    rcases hok₁.live.sound.placed hvar.1 with ⟨frame, hframe, hentry⟩ | hclosed
    · have hpath : frame.1 ∈ [""] := hpaths₁ ▸ List.mem_map_of_mem hframe
      exact absurd ((hok₁.live.sound.entry hframe hentry).2.2.trans (List.mem_singleton.1 hpath))
        hscope
    · obtain ⟨frame, -, e, -, -, hupper, -⟩ := hok₁.owned hclosed
      have hat : (s₁.table.symbol id).scope.toUpper.toList.head? = some '@' := by simp [hupper]
      have hhead := (head?_toUpper (by decide)).1 hat
      rw [qualify, if_neg hscope]
      cases hlist : (s₁.table.symbol id).scope.toList <;> simp_all

end Names

namespace Listing

theorem isFlushLeft_text {i : Instr} (h : i.isFixed ∨ IsQuiet i.text ∨ ∃ name, i = .call name)
    (hne : i.text ≠ "") : isFlushLeft i.text ↔ i.role = .label := by
  rw [isFlushLeft_iff, or_iff_right hne]
  rcases i.kind_cases h with hi | ⟨hquiet, hlabel, -⟩
  · cases i with
    | operate op => cases op <;> simp [Instr.text, Operation.mnemonic, Instr.role]
    | jump j l => cases j <;> simp [Instr.text, Jump.mnemonic, Instr.role]
    | label l => simp [Instr.text, Label.text, Instr.role]
    | verbatim line => exact absurd rfl (hi line)
    | _ => simp [Instr.text, Instr.role]
  · have hrole : i.role ≠ .label := by cases i <;> simp_all [Instr.role, Instr.label?]
    have hcolon : i.text.toList.head? ≠ some ':' := by
      intro hhead
      obtain ⟨cs, hcs⟩ := List.head?_eq_some_iff.1 hhead
      simpa [labelName?, after?, hcs, List.isPrefixOf?] using hquiet.label
    refine iff_of_false ?_ hrole
    rintro (hdot | hhead | ⟨cs, hcs⟩)
    · exact hquiet.directive hdot
    · exact hcolon hhead
    · exact hquiet.header (by rw [← hcs]; rfl)

theorem dataLine_cases (name : String) (value : Value) :
      (∀ c ≠ ' ', (dataLine name value).toList.head? = some c →
      name.toList.head? = some c) ∧
    ("DEF".toList <+: (dataLine name value).toList ↔ "DEF".toList <+: name.toList) := by
  obtain ⟨cs, hcs⟩ : ∃ cs, (dataLine name value).toList = name.toList ++ ' ' :: cs := by
    refine ⟨List.replicate (8 - name.length) ' ' ++ value.text.toList, ?_⟩
    have hblanks := List.replicate_succ' (n := 8 - name.length) (a := ' ')
    simp [dataLine, ← List.append_assoc, ← List.cons_append, ← List.replicate_succ, hblanks]
  rw [hcs]
  rcases name.toList with _ | ⟨a, _ | ⟨b, _ | ⟨c, rest⟩⟩⟩ <;> simp
  exact fun c hne heq => absurd heq.symm hne

theorem isFlushLeft_dataLine {name : String} (hdot : name.toList.head? ≠ some '.')
    (hcolon : name.toList.head? ≠ some ':') (value : Value) (hne : dataLine name value ≠ "") :
    isFlushLeft (dataLine name value) ↔ "DEF".toList <+: name.toList := by
  obtain ⟨hhead, hdef⟩ := dataLine_cases name value
  rw [isFlushLeft_iff, or_iff_right hne, hdef, or_iff_right fun h => hdot (hhead '.' (by decide) h),
    or_iff_right fun h => hcolon (hhead ':' (by decide) h)]

variable {line : String}

theorem isFlushLeft_block {b : Block}
    (hcode : ∀ i ∈ b.code, i.isFixed ∨ IsQuiet i.text ∨ ∃ name, i = .call name)
    {role : Role} (h : (role, line) ∈ b.roles) (hne : line ≠ "") :
    (isFlushLeft line ↔ role.isMark) ∧ ∀ name, role ≠ .entry name := by
  simp only [Block.roles, List.mem_append, List.mem_cons, List.not_mem_nil, or_false, List.mem_map,
    Prod.mk.injEq] at h
  rcases h with (((⟨rfl, rfl⟩ | ⟨rfl, rfl⟩) | ⟨x, -, rfl, rfl⟩) | ⟨i, hi, rfl,
    rfl⟩) | ⟨rfl, rfl⟩
  · simp at hne
  · simp [isFlushLeft_iff, Role.isMark]
  · simp [isFlushLeft_iff, Role.isMark, Instr.text]
  · rw [isFlushLeft_text (hcode i hi) hne]
    cases i <;> simp [Instr.role, Role.isMark]
  · unfold Block.lastLine
    split <;> simp [isFlushLeft_iff, Role.isMark]

theorem role_cases {l : Listing} {role : Role} (h : (role, line) ∈ l.roles) (hne : line ≠ "") :
    role = .directive ∧ isFlushLeft line ∨
      (∃ e ∈ l.data, role = .entry e.1 ∧ line = dataLine e.1 e.2) ∨
      ∃ b ∈ l.blocks, (role, line) ∈ b.roles := by
  simp only [roles, dataRoles, List.mem_append, List.mem_flatMap, List.mem_cons,
    List.not_mem_nil, or_false, Prod.mk.injEq] at h
  rcases h with (((⟨rfl, rfl⟩ | h) | h) | ⟨rfl, rfl⟩ | ⟨rfl, rfl⟩) | h
  · exact .inl ⟨rfl, by simp [isFlushLeft_iff]⟩
  · split at h <;> simp at h
    obtain ⟨rfl, rfl⟩ := h.resolve_left fun h => hne h.2
    exact .inl ⟨rfl, by simp [isFlushLeft_iff]⟩
  · split at h <;> simp at h
    rcases h with ⟨-, rfl⟩ | ⟨rfl, rfl⟩ | ⟨x, v, hmem, rfl, rfl⟩
    · simp at hne
    · exact .inl ⟨rfl, by simp [isFlushLeft_iff]⟩
    · exact .inr (.inl ⟨(x, v), hmem, rfl, rfl⟩)
  · simp at hne
  · exact .inl ⟨rfl, by simp [isFlushLeft_iff]⟩
  · exact .inr (.inr h)

end Listing

open Listing in
/-- Of the lines with text, the directives, headers and labels stand flush left, and with them the
variables whose names begin like a header; each of those is named in a statement outside procedures.
The others are indented by two blanks. -/
theorem indent_by_role {source : String} {listing : Listing} (h : compile source = .ok listing) :
    listing.roles.map Prod.snd = listing.lines ∧ ∀ role line, (role, line) ∈ listing.roles →
      line ≠ "" →
      (indent line = line ↔ role.isMark ∨ ∃ name, role = .entry name ∧
        "DEF".toList <+: name.toList) ∧
      (indent line = line ∨ indent line = "  " ++ line) ∧
      ∀ name, role = .entry name → "DEF".toList <+: name.toList →
        ∃ x ∈ (Source.parse (.ofText source)).items.flatMap Source.Item.outerNames,
        name.toUpper = x.toUpper := by
  obtain ⟨w, w', hlower, hlink⟩ := compile_eq_ok h
  obtain ⟨entry, hready⟩ := ready_of_lower hlower
  refine ⟨listing.map_roles, fun role line hmem hne => ?_⟩
  have hindent : indent line = line ∨ indent line = "  " ++ line := by
    unfold indent
    split <;> simp
  rw [and_left_comm]
  refine ⟨hindent, ?_⟩
  rw [indent_eq_self]
  rcases role_cases hmem hne with ⟨rfl, hflush⟩ | ⟨e, he, rfl, rfl⟩ | ⟨b, hb, hline⟩
  · simp [hflush, Role.isMark]
  · rw [(link_eq_ok hlink).1] at he
    obtain ⟨id, hid, rfl⟩ := List.mem_map.1 he
    obtain ⟨⟨key, id⟩, hkey, rfl⟩ := List.mem_map.1 (List.mem_filter.1 hid).1
    obtain ⟨hhas, hcls, -⟩ := hready.lowered.live.sound.closedEntry hkey
    have hname := fullName_cases hlower ⟨hhas, hcls⟩
    have hfirst {c : Char} (hc : ¬c.isAlpha) (hword : ¬isWordChar c) (hat : c ≠ '@') :
        (w.table.symbol id).fullName.toList.head? ≠ some c := by
      rcases hname with hlocal | hheading | ⟨x, -, hx, hupper⟩
      · simpa [hlocal] using hat.symm
      · rw [hheading]
        rintro ⟨⟩
        exact hword (by decide)
      · exact hx.head?_ne hupper hc hword
    constructor
    · rw [isFlushLeft_dataLine (hfirst (by decide) (by decide) (by decide))
        (hfirst (by decide) (by decide) (by decide)) _ hne]
      simp [Role.isMark]
    · rintro name ⟨⟩ ⟨cs, hdef⟩
      rcases hname with hlocal | hheading | ⟨x, hmem, -, hupper⟩
      · simp [← hdef] at hlocal
      · simp [hheading, headingName] at hdef
      · exact ⟨x, hmem, hupper⟩
  · obtain ⟨targets, -, hblocks, -⟩ := hready.link hlink
    rw [hblocks, List.mem_filterMap] at hb
    obtain ⟨id, -, hid⟩ := hb
    obtain ⟨hflush, hentry⟩ :=
      isFlushLeft_block (fun i hi => hready.instr_kind hid hi) hline hne
    simp [hflush, hentry]

theorem indent_by_role_names : ∃ listing,
    compile "TO F :DEFX PRINT :DEFX END DEFAULT = 1 PRINT :DEFAULT F 2" = .ok listing ∧
    ["  @F.DEFX  0", "DEFAULT  1", "DEF F:"] ⊆ listing.lines.map Listing.indent ∧
    listing.roles.map Prod.snd = listing.lines ∧ ∀ role line, (role, line) ∈ listing.roles →
      line ≠ "" →
      (Listing.indent line = line ↔ role.isMark ∨ ∃ name, role = .entry name ∧
        "DEF".toList <+: name.toList) ∧
      (Listing.indent line = line ∨ Listing.indent line = "  " ++ line) ∧
      ∀ name, role = .entry name → "DEF".toList <+: name.toList →
        ∃ x ∈ (Source.parse
            (.ofText "TO F :DEFX PRINT :DEFX END DEFAULT = 1 PRINT :DEFAULT F 2")).items.flatMap
          Source.Item.outerNames, name.toUpper = x.toUpper := by
  obtain ⟨listing, h, hlines⟩ :=
    exists_listing "TO F :DEFX PRINT :DEFX END DEFAULT = 1 PRINT :DEFAULT F 2"
    (fun listing => ["  @F.DEFX  0", "DEFAULT  1", "DEF F:"] ⊆ listing.lines.map Listing.indent)
    (by decide +kernel)
  exact ⟨listing, h, hlines, indent_by_role h⟩

/-- The entry of a variable stands flush left. -/
theorem entry_flush_left : ∃ listing, compile "DEFAULT = 1 PRINT :DEFAULT" = .ok listing ∧
    (.entry "DEFAULT", "DEFAULT  1") ∈ listing.roles ∧
    Listing.indent "DEFAULT  1" = "DEFAULT  1" :=
  exists_listing _ _ (by decide +kernel)

end TurtleCompiler
