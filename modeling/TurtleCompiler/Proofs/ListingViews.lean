import TurtleCompiler.Proofs.LoweringViews

/-!
What is seen of a listing, or of an error, is settled by what is seen of the source.
-/

namespace TurtleCompiler

def Listing.view (v : View) (l : Listing) : Listing where
  canvas := l.canvas
  data := l.data.map fun entry => (v.name entry.1, entry.2)
  blocks := l.blocks.map (Block.view v)

section Link

variable {v : View}

theorem Definition.alike_emit (d : Definition) :
    Alike v (Option.map (Block.view v)) d.emit d.emit := by
  refine Parallel.of_get.bind fun {w w'} h => ?_
  have hblock := block?_sameCode (Table.sameCode_of_view (Workspace.view_eq_iff.1 h)) d
  dsimp only
  -- a remark goes to the log only
  cases d.remark? w.table <;> cases d.remark? w'.table <;> exact ⟨fun h => .ok hblock h⟩

theorem alike_linkRoutine (i : SymbolId) :
    Alike v (Option.map (Block.view v)) (linkRoutine i) (linkRoutine i) := by
  refine Parallel.of_get.bind fun {w w'} h => ?_
  have htable := Workspace.view_eq_iff.1 h
  have hundefined : (Error.link (.undefined (w.table.symbol i).name)).view v =
      (Error.link (.undefined (w'.table.symbol i).name)).view v :=
    congrArg (Error.link ∘ LinkFault.undefined) ((Table.sameCode_of_view htable).name i)
  dsimp only
  rw [(Table.sameShape_of_view htable).linkTarget?]
  cases w'.table.linkTarget? i with
  | none => exact .of_throw hundefined
  | some target =>
    dsimp only
    rw [Table.routine?_of_view htable]
    cases (w'.table.symbol target).routine? with
    | none => exact .of_throw hundefined
    | some r =>
      dsimp only
      refine .ite (fun _ => .throw_bind hundefined _ _) fun _ => .ite (fun _ => ?_) fun _ => ?_
      · have hcode : Alike v (Option.map (Block.view v)) (r.code.elim (pure none) Definition.emit)
            (r.code.elim (pure none) Definition.emit) := by
          cases r.code with
          | none => exact .of_pure rfl
          | some d => exact d.alike_emit
        refine (Workspace.alike_note _ _).bind_eq fun _ => hcode.bind fun hblock => ?_
        refine (Parallel.of_modify fun {w w'} h => ?_).bind_eq fun _ => .of_pure hblock
        exact Workspace.view_eq_iff.2
          (Table.view_markGenerated (Workspace.view_eq_iff.1 h) i target)
      · exact .ite (fun _ => (Workspace.alike_note _ _).bind_eq fun _ => .of_pure rfl) fun _ =>
          .of_pure rfl

theorem alike_link : Alike v (Listing.view v) link link := by
  refine Parallel.of_get.bind fun {w w'} h => ?_
  have htable := Workspace.view_eq_iff.1 h
  have hvalue (i : SymbolId) : (w.table.symbol i).initialValue =
      (w'.table.symbol i).initialValue := by
    rw [Symbol.initialValue, Symbol.initialValue, Table.var?_of_view htable]
  simp only [Table.used_of_view htable, Table.flags_of_view htable, hvalue]
  have hblocks (ids : List SymbolId) : Alike v (List.map (Option.map (Block.view v)))
      (ids.mapM linkRoutine) (ids.mapM linkRoutine) := by
    have hblock :
        ∀ i ∈ ids, Alike v (Option.map (Block.view v)) (linkRoutine i) (linkRoutine (id i)) :=
      fun i _ => alike_linkRoutine i
    simpa using Alike.mapM hblock
  have hlisting {blocks blocks' : List (Option Block)} {ids : List SymbolId} {canvas : Bool}
      (h : blocks.map (Option.map (Block.view v)) = blocks'.map (Option.map (Block.view v))) :
      (Listing.mk canvas
          (ids.map fun id => ((w.table.symbol id).fullName, (w'.table.symbol id).initialValue))
          (blocks.filterMap id)).view v =
        (Listing.mk canvas
          (ids.map fun id => ((w'.table.symbol id).fullName, (w'.table.symbol id).initialValue))
          (blocks'.filterMap id)).view v := by
    have hblocks := congrArg (List.filterMap id) h
    simp only [List.filterMap_map, Function.id_comp] at hblocks
    simp [Listing.view, List.map_filterMap, hblocks, Function.comp_def,
      (Table.sameCode_of_view htable).fullName]
  refine (Workspace.alike_note _ _).bind_eq fun _ => .ite (fun _ => ?_) fun _ => ?_
  · exact (Workspace.alike_note _ _).bind_eq fun _ => (Workspace.alike_note _ _).bind_eq fun _ =>
      (hblocks _).bind fun h => .of_pure (hlisting h)
  · exact (Workspace.alike_note _ _).bind_eq fun _ => (hblocks _).bind fun h =>
      .of_pure (hlisting h)

theorem sameEnd_within {x x' : LowerM α} {u : α → β} (h : Alike v u x x') (w : Workspace) :
    SameEnd v u (Lowering.within x w) (Lowering.within x' w) := by
  simp only [Lowering.within, Bind.bind, EStateM.bind]
  cases Lowering.setup w with
  | error e w => exact .error rfl
  | ok entry w =>
    dsimp only
    generalize ({ toWorkspace := w, entry } : Lowering) = s
    have hrun := h.run (s := s) rfl
    cases hx : x s <;> cases hx' : x' s <;> rw [hx, hx'] at hrun <;> cases hrun
    · rename_i ha hs
      exact .ok ha (congrArg Lowering.toWorkspace hs)
    · exact .error ‹_›

end Link

section Plain

variable {v : View} (hchar : v.char = id)

include hchar

theorem View.text_of_char (hstring : v.string = id) (lexeme : Lexeme) (s : String) :
    v.text lexeme s = s := by
  cases lexeme <;> simp [text, hstring, name_of_char hchar]

theorem Listing.view_of_char (l : Listing) : l.view v = l := by
  simp [Listing.view, View.name_of_char hchar, Block.view_of_char hchar]

end Plain

def viewOutcome (v : View) (r : Except Error Listing) : Except Error Listing :=
  (r.map (Listing.view v)).mapError (Error.view v)

theorem viewOutcome_compileFeed {v : View} (hv : v.KeepsStrings) (feed : Feed) :
    viewOutcome v (Report.ofWork (compileFeed (feed.view v))).result =
      viewOutcome v (Report.ofWork (compileFeed feed)).result := by
  have hend : SameEnd v (Listing.view v) (compileFeed feed {}) (compileFeed (feed.view v) {}) := by
    have hlower : SameEnd v id (lower feed {}) (lower (feed.view v) {}) := by
      rw [lower, lower, Source.parse_view]
      exact sameEnd_within
        (((Source.parse feed).alike_lower hv).bind_eq fun _ => Lowering.alike_finish) {}
    exact hlower.bind fun _ => alike_link
  unfold Report.ofWork
  cases hrun : compileFeed feed {} <;> cases hrun' : compileFeed (feed.view v) {} <;>
    rw [hrun, hrun'] at hend <;> cases hend
  · rename_i ha _
    exact congrArg Except.ok ha.symm
  · rename_i he
    exact congrArg Except.error he.symm

def View.plain : View where
  toUpper_char := toUpper_id
  char_char := id_eq
  line_line := id_eq
  line_zero := id_zero

namespace View

@[simp] theorem line_plain (n : Nat) : plain.line n = n := rfl

@[simp] theorem map_line_plain (line : Option Nat) :
    line.map plain.line = line := Option.map_id_apply

@[simp] theorem name_plain (s : String) : plain.name s = s := name_of_char rfl s

@[simp] theorem text_plain (lexeme : Lexeme) (s : String) :
    plain.text lexeme s = s := text_of_char rfl rfl lexeme s

end View

theorem Error.view_plain (e : Error) : e.view .plain = e := by
  cases e with
  | unparsed line fault => cases fault <;> simp [view, SyntaxFault.view]
  | link fault => cases fault <;> simp [view, LinkFault.view]
  | defect fault => cases fault <;> simp [view, Defect.view]
  | _ => simp [view]

theorem Token.view_plain (t : Token) : t.view .plain = t := by
  simp [Token.view]

theorem Feed.view_plain (feed : Feed) :
    feed.view .plain = ⟨[], feed.tokens.map fun entry => (entry.1, []), feed.ending⟩ := by
  have hending : (feed.ending.map View.plain.line).mapError (Error.view .plain) = feed.ending := by
    cases feed.ending with
    | ok line => rfl
    | error e => exact congrArg Except.error e.view_plain
  simp [Feed.view, Token.view_plain, hending]

theorem result_view_plain (feed : Feed) :
    (Report.ofWork (compileFeed (feed.view .plain))).result =
    (Report.ofWork (compileFeed feed)).result := by
  have hplain (r : Except Error Listing) : viewOutcome .plain r = r := by
    cases r with
    | ok listing => exact congrArg Except.ok (Listing.view_of_char rfl listing)
    | error e => exact congrArg Except.error e.view_plain
  simpa only [hplain] using viewOutcome_compileFeed (v := .plain) (fun _ => rfl) feed

end TurtleCompiler
