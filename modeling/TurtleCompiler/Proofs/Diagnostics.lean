import TurtleCompiler.Proofs.Stability

/-!
Where an error is: on a line of the source. There is one exception, the clash of a procedure with a
parameter that has its name, which is reported without a line, that is, on line zero.
-/

namespace TurtleCompiler

section Scanner

namespace Input

def Reads (input : Input) (line : Nat) : Prop := input.line ≤ line ∧ line ≤ input.lastLine

theorem reads_skip (input : Input) : input.Reads (skip none input.line input.rest).2.line := by
  obtain ⟨gap, hgap, hline, -⟩ := ignored_skip none input.line input.rest
  have hcount := congrArg (List.count '\n') hgap
  rw [List.count_append] at hcount
  rw [hline]
  exact ⟨Nat.le_add_right _ _, by rw [lastLine, hcount]; omega⟩

theorem reads_next (input : Input) :
    (∀ t, input.next.result = .ok (some t) → input.Reads t.line ∧
      input.line ≤ input.next.after.line) ∧
    (input.next.result = .ok none → input.Reads input.next.after.line) ∧
      ∀ e, input.next.result = .error e → e.Points input.Reads := by
  have hreads := input.reads_skip
  simp only [next]
  split
  · exact ⟨by simp, fun _ => hreads, by simp⟩
  · split
    · refine ⟨fun t ht => ?_, by simp, by simp⟩
      obtain rfl := Option.some.inj (Except.ok.inj ht)
      exact ⟨hreads, Nat.le_trans hreads.1 (Nat.le_add_right _ _)⟩
    all_goals
      refine ⟨by simp, by simp, fun e he => ?_⟩
      obtain rfl := Except.error.inj he
      simpa [Error.Points, Error.line?] using hreads

end Input

def EndsOn (p : Nat → Prop) : Except Error Nat → Prop
  | .ok line => p line
  | .error e => e.Points p

theorem Feed.lines_scan {p : Nat → Prop} (n : Nat) {input : Input}
    (hp : ∀ line, input.Reads line → p line) :
    (∀ t ∈ (scan n input).tokens, p t.1.line) ∧ EndsOn p (scan n input).ending := by
  induction n generalizing input with
  | zero => exact ⟨by simp [scan], hp _ ⟨Nat.le_refl _, Nat.le_add_right _ _⟩⟩
  | succ n ih =>
    obtain ⟨htoken, hend, herror⟩ := input.reads_next
    simp only [scan]
    split
    · rename_i t ht
      obtain ⟨hline, hle⟩ := htoken t ht
      have hrest := ih fun line hline =>
        hp line ⟨Nat.le_trans hle hline.1, (Input.next_token ht).1 ▸ hline.2⟩
      exact ⟨List.forall_mem_cons.2 ⟨hp _ hline, hrest.1⟩, hrest.2⟩
    · exact ⟨by simp, hp _ (hend ‹_›)⟩
    · exact ⟨by simp, fun line hline => hp line (herror _ ‹_› line hline)⟩

end Scanner

variable {scopes : List Scope}

namespace Table

variable {t t' : Table} {id : SymbolId} {params : List String} {line : Nat}

def Lists (t : Table) (scopes : List Scope) (params : List String) (line : Nat) : Prop :=
  ∃ scope, t.scopes = scope :: scopes ∧ ∀ name, ∀ id ∈ scope.names.get? name,
    t.Has id ∧ (∃ x ∈ params, x.toUpper = name.toUpper) ∧ (t.symbol id).line = some line

theorem Lists.retains (h : t.Lists scopes params line) (hr : Retains Symbol.Stands t t')
    (hscopes : t'.scopes = t.scopes) : t'.Lists scopes params line := by
  obtain ⟨scope, hscope, hentry⟩ := h
  refine ⟨scope, hscopes.trans hscope, fun name id hid => ?_⟩
  obtain ⟨hhas, hparam, hline⟩ := hentry name id hid
  exact ⟨(hr id hhas).1, hparam, (hr id hhas).2.line line hline⟩

theorem Lists.declare (h : t.Lists scopes params line) {param : String} (hparam : param ∈ params)
    (hd : Table.declare .innermost param .var (some line) {} t = .ok id t') :
    t'.Lists scopes params line := by
  rcases declare_eq_ok hd with ⟨-, -, rfl⟩ | ⟨-, -, rfl, kind, -, rfl⟩
  · exact h.retains (retains_modifySymbol (Symbol.stands_merge _ _ _)) rfl
  obtain ⟨scope, hscope, hentry⟩ := h
  refine ⟨{ scope with names := scope.names.insert param ⟨t.symbols.size⟩ }, ?_,
    fun name id hid => ?_⟩
  · simp [Table.insertAt, frame, hscope]
  · by_cases hname : param.toUpper = name.toUpper
    · obtain rfl : ⟨t.symbols.size⟩ = id := by
        have hget := NameMap.get?_insert scope.names param ⟨t.symbols.size⟩
        rw [NameMap.get?, hname, ← NameMap.get?, Option.mem_def.1 hid] at hget
        exact (Option.some.inj hget).symm
      rw [symbol_insertAt, if_pos rfl]
      exact ⟨has_insertAt.2 (.inr rfl), ⟨param, hparam, hname⟩, rfl⟩
    · rw [NameMap.get?_insert_of_ne hname] at hid
      obtain ⟨hhas, hparam', hline⟩ := hentry name id hid
      rw [symbol_insertAt_of_has hhas]
      exact ⟨has_insertAt.2 (.inl hhas), hparam', hline⟩

theorem Lists.resolve (h : t.Lists scopes params line) {name : String}
    (hid : t.resolve name none none = some id) :
    (∃ x ∈ params, x.toUpper = name.toUpper) ∧ (t.symbol id).line = some line ∨
      scopes.findSome? (·.names.get? name) = some id := by
  obtain ⟨scope, hscope, hentry⟩ := h
  rw [resolve_none, findSome?_frames, hscope, List.findSome?_cons] at hid
  cases hget : scope.names.get? name with
  | none => exact .inr (by simpa [hget] using hid)
  | some j =>
    obtain rfl : j = id := by simpa [hget] using hid
    exact .inl (hentry name j hget).2

theorem routine_declare {reach : Reach} {name : String} {line : Option Nat} {f : Fields}
    (hd : Table.declare reach name .routine line f t = .ok id t') :
    t'.Has id ∧ (t'.symbol id).cls = .routine := by
  rcases declare_eq_ok hd with ⟨-, hcls, rfl⟩ | ⟨-, -, rfl, kind, hkind, rfl⟩
  · obtain ⟨r, hr⟩ := Symbol.exists_routine hcls
    have hretains :
        Retains Symbol.Stands t (t.modifySymbol id fun _ => ((t.symbol id).merge line f).2) :=
      retains_modifySymbol (Symbol.stands_merge line f _)
    exact ⟨(hretains id (has_of_routine? hr)).1,
      (hretains id (has_of_routine? hr)).2.cls.trans hcls⟩
  · rw [symbol_insertAt, if_pos rfl]
    exact ⟨has_insertAt.2 (.inr rfl), cls_ofFields hkind⟩

def SameScopes (t t' : Table) : Prop := t'.scopes = t.scopes

instance : IsPreorder Table SameScopes where
  refl _ := rfl
  trans _ _ _ h h' := Eq.trans h' h

end Table

namespace Lowering

variable {s s' : Lowering} {name : String} {line : Nat} {params : List String}
  {ids : List SymbolId} {e : Error}

theorem Declares.lists {names : List String} (h : Declares line s names ids s')
    (hs : s.table.Lists scopes params line) (hnames : names ⊆ params) :
    s'.table.Lists scopes params line := by
  induction h with
  | nil => exact hs
  | cons hd _ ih =>
    rw [List.cons_subset] at hnames
    exact ih (hs.declare hnames.1 hd) hnames.2

theorem clash_of_params {id : SymbolId} {t : Table} {u : Table}
    (hid : t.resolve name none none = some id) (hroutine : (t.symbol id).cls = .routine)
    (hhas : t.Has id) (hlists : s.table.Lists t.scopes params line)
    (hretains : t.Retains Symbol.Lasts s.table)
    (h : Table.declare .anywhere name .routine none { params := some ids } s.table = .error e u) :
    e.line? = none ∨ (∃ x ∈ params, x.toUpper = name.toUpper) ∧
    e = .redeclaration 0 name (some line) := by
  rcases Table.declare_eq_error h with h | ⟨j, hj, hcls, rfl⟩
  · exact .inl h
  rcases hlists.resolve hj with ⟨hparam, hline⟩ | hj
  · exact .inr ⟨hparam, by rw [hline]; rfl⟩
  · rw [Table.resolve_none, Table.findSome?_frames, hj] at hid
    obtain rfl := Option.some.inj hid
    exact absurd ((hretains j hhas).2.cls.trans hroutine) hcls

theorem openProcedure_eq_error (h : openProcedure name line params s = .error e s') :
    e.Points (· = line) ∨ (∃ x ∈ params, x.toUpper = name.toUpper) ∧
    e = .redeclaration 0 name (some line) := by
  have hdeclare {reach : Reach} {cls : SymbolClass} {x : String} :
      Blames (Error.Points (· = line))
      (Table.declare reach x cls (some line) {} : LowerM SymbolId) :=
    (Blames.ofTable (Table.blames_declare (p := (· = line)) rfl reach {})).mono fun _ =>
    Error.Concerns.points
  rcases bind_eq_error.1 h with h | ⟨id, _, hid, hrest⟩
  · exact .inl (hdeclare h)
  obtain ⟨t, hd, rfl⟩ := ofTable_eq_ok.1 hid
  obtain ⟨hhas, hroutine⟩ := Table.routine_declare hd
  rcases bind_eq_error.1 hrest with h | ⟨_, _, hopen, hrest'⟩
  · cases h
  obtain rfl := openScope_eq_ok.1 hopen
  rcases bind_eq_error.1 hrest' with h | ⟨ids, s₂, hids, huses⟩
  · exact .inl (Blames.mapM (fun _ _ => hdeclare) h)
  have hlists : s₂.table.Lists t.scopes params line :=
    (declares_of_mapM hids).lists ⟨⟨name, {}⟩, rfl, by simp [NameMap.get?]⟩
    (List.Subset.refl _)
  have hretains : t.Retains Symbol.Lasts s₂.table :=
    (Advances.mapM (fun _ _ => advances_declare (by rfl) _ _ _) params).of_ok hids
  have hend {s₃ : Lowering} (hlists : s₃.table.Lists t.scopes params line)
      (hretains : t.Retains Symbol.Lasts s₃.table)
      (h : enterBody name id ids s₃ = .error e s') :
      e.Points (· = line) ∨ (∃ x ∈ params, x.toUpper = name.toUpper) ∧
      e = .redeclaration 0 name (some line) := by
    simp only [enterBody, bind_eq_error, modify_ne_error, pure_ne_error, and_false, exists_false,
      or_false] at h
    have hu := ofTable_eq_error h
    exact (clash_of_params (Table.resolve_none_declare (by simp) hd) hroutine hhas hlists
      hretains hu).imp_left Error.points_of_line?
  rcases bind_eq_error.1 huses with h | ⟨_, _, hget, hlast⟩
  · simp at h
  obtain ⟨rfl, rfl⟩ := get_eq_ok.1 hget
  split at hlast
  · rcases bind_eq_error.1 hlast with h | ⟨_, s₃, hused, h⟩
    · exact .inl
        (Error.points_of_line? (Blames.forM (fun id _ => .ofTable (Table.blames_countUse id)) h))
    · have hscopes : s₂.OnTable Table.SameScopes s₃ :=
        (Advances.forM (fun id _ => advances_ofTable (Table.advances_countUse (fun _ _ => rfl) id))
          ids).of_ok hused
      have huses : s₂.Retains s₃ :=
        (Advances.forM (fun id _ => advances_ofTable (Table.advances_countUse Table.retains_use id))
          ids).of_ok hused
      exact hend
        (hlists.retains (fun id hid => ⟨(huses id hid).1, (huses id hid).2.toStands⟩) hscopes)
        (trans_of (Table.Retains _) hretains huses) h
  · exact hend hlists hretains hlast

theorem beginProcedure_eq_error (h : beginProcedure name line params s = .error e s') :
    e.Points (· = line) ∨ (∃ x ∈ params, x.toUpper = name.toUpper) ∧
    e = .redeclaration 0 name (some line) := by
  rcases bind_eq_error.1 h with h | ⟨_, _, hget, h⟩
  · simp at h
  obtain ⟨rfl, rfl⟩ := get_eq_ok.1 hget
  cases hresolve : s.table.resolve name none none with
  | none =>
    simp only [hresolve] at h
    exact openProcedure_eq_error h
  | some j =>
    simp only [hresolve] at h
    split at h
    · exact .inl (Blames.throw_bind (by simp [Error.Points, Error.line?]) h)
    · exact openProcedure_eq_error h

end Lowering

namespace Source

def Phrase.header? : Phrase → Option Header
  | .header h => some h
  | .expr _ | .stmt _ => none

def Item.headers : Item → List Header
  | .definition h _ _ => [h]
  | .broken done _ => done.filterMap Phrase.header?
  | .statement _ => []

def Program.headers (p : Program) : List Header := p.items.flatMap Item.headers

def Header.HidesItself (h : Header) : Prop := ∃ x ∈ h.params, x.toUpper = h.name.toUpper

def Header.clash (h : Header) : Error := .redeclaration 0 h.name (some h.site.line)

def Placed (p : Nat → Prop) (headers : List Header) (e : Error) : Prop :=
  e.Points p ∨ ∃ h ∈ headers, h.HidesItself ∧ p h.site.line ∧ e = h.clash

variable {p : Nat → Prop} {s s' : Lowering}

theorem Header.blames_lower {h : Header} (hline : p h.site.line) :
    Blames (Placed p [h]) h.lower := by
  refine Blames.bind .of_modify fun _ s e s' he => ?_
  rcases Lowering.beginProcedure_eq_error he with hpoints | ⟨hparam, rfl⟩
  · exact .inl fun line hl => hpoints line hl ▸ hline
  · exact .inr ⟨h, by simp, hparam, hline, rfl⟩

theorem Placed.mono {headers headers' : List Header} {e : Error} (h : Placed p headers e)
    (hs : headers ⊆ headers') : Placed p headers' e :=
  h.imp_right fun ⟨h, hmem, hclash⟩ => ⟨h, hs hmem, hclash⟩

theorem Phrase.blames_lower {phrase : Phrase} (h : phrase.ComesFrom fun t => p t.line) :
    Blames (Placed p phrase.header?.toList) phrase.lower := by
  cases phrase with
  | expr e => exact (Expr.blames_lower h).map.mono fun _ he => .inl he.points
  | stmt s => exact (s.blames_lower h).map.mono fun _ he => .inl he.points
  | header header => exact (Header.blames_lower h.1.line).map

theorem Item.blames_lower {i : Item} (h : i.ComesFrom (fun t => p t.line) (EndsOn p)) :
    Blames (Placed p i.headers) i.lower := by
  have hconcerns (e : Error) (he : e.Concerns p) : Placed p i.headers e := .inl he.points
  cases i with
  | statement s =>
    exact ((s.blames_lower h).mono hconcerns).bind fun _ => Blames.of_modify.bind fun _ => .of_pure
  | definition header body site =>
    exact (Header.blames_lower h.1.1.line).bind fun _ =>
        ((blames_lowerAll body h.2.1).mono hconcerns).bind fun _ =>
      Blames.of_modify.bind fun _ =>
      ((Lowering.blames_endProcedure _ _).mono hconcerns).bind fun _ => .of_pure
  | broken done fault =>
    refine Blames.bind (.forM fun phrase hphrase => ?_) fun _ => ?_
    · refine (Phrase.blames_lower (h.1 phrase hphrase)).mono fun e he =>
        he.mono fun header hheader => ?_
      exact List.mem_filterMap.2 ⟨phrase, hphrase, Option.mem_toList.1 hheader⟩
    · cases fault with
      | lexical e notes => exact Blames.of_modify.bind fun _ => .of_throw (.inl h.2)
      | grammatical fault site =>
        refine Blames.of_modify.bind fun _ => Blames.bind (fun s e s' he => ?_) fun _ => .of_pure
        cases he

theorem Item.points_of_fault {i : Item} (h : i.ComesFrom (fun t => p t.line) (EndsOn p)) {e : Error}
    (hi : i.lower s = .ok (some e) s') : e.Points p := by
  cases i with
  | statement st => simp [Item.lower, bind_eq_ok, map_eq_ok] at hi
  | definition header body site => simp [Item.lower, bind_eq_ok, map_eq_ok] at hi
  | broken done fault =>
    obtain ⟨_, s₁, -, hfault⟩ := bind_eq_ok.1 hi
    cases fault with
    | lexical e notes => simp [bind_eq_ok] at hfault
    | grammatical fault site =>
      simp only [bind_eq_ok, pure_eq_ok, Option.some.injEq] at hfault
      obtain ⟨_, _, -, _, _, -, rfl, -⟩ := hfault
      simpa [Error.Points, Error.line?] using h.2.elim OnLine.line id

theorem points_of_faults {items : List Item}
    (h : ∀ i ∈ items, i.ComesFrom (fun t => p t.line) (EndsOn p))
    {faults : List (Option Error)} (hfaults : items.mapM Item.lower s = .ok faults s') :
    ∀ e, some e ∈ faults → e.Points p := by
  intro e he
  obtain ⟨i, hi, s₁, s₂, hrun⟩ := (runs_of_mapM hfaults).2 _ he
  exact Item.points_of_fault (h i hi) hrun

theorem ending_of_items {feed : Feed} (h : (parse feed).items = []) :
    feed.ending = .ok (parse feed).site.line := by
  rw [parse, items] at h ⊢
  split at h
  · rename_i htokens
    split at h
    · rename_i hending
      simp [hending, site]
    · simp at h
  · split at h <;> simp at h

theorem blames_lower_parse {feed : Feed}
    (h : (∀ t ∈ feed.tokens, p t.1.line) ∧ EndsOn p feed.ending) :
    Blames (Placed p (parse feed).headers) (parse feed).lower := by
  have hitems := comesFrom_parse (P := fun t => p t.line) h.1 h.2
  have hpoints (e : Error) (he : e.Points p) : Placed p (parse feed).headers e := .inl he
  intro s e s' he
  rcases bind_eq_error.1 he with he | ⟨faults, s₁, hfaults, hrest⟩
  · refine Blames.mapM
      (fun i hi => (Item.blames_lower (hitems i hi)).mono fun _ hplaced => hplaced.mono ?_) he
    exact fun header hheader => List.mem_flatMap.2 ⟨i, hi, hheader⟩
  refine Blames.bind (q := Placed p (parse feed).headers) .of_modify (fun _ => ?_) hrest
  dsimp only
  split
  · refine Blames.bind (fun _ _ _ h => by cases h) fun _ => .of_throw (hpoints _ ?_)
    have hending := h.2
    rw [ending_of_items (List.isEmpty_iff.1 ‹_›)] at hending
    simpa [Error.Points, Error.line?, EndsOn] using hending
  · split
    · rename_i e hfault
      obtain ⟨fault, hmem, rfl⟩ := List.exists_of_findSome?_eq_some hfault
      exact .of_throw (hpoints e (points_of_faults hitems hfaults e hmem))
    · exact .of_pure

end Source

def IsLineOf (source : String) (line : Nat) : Prop :=
  1 ≤ line ∧ line ≤ 1 + source.toList.count '\n'

/-- An error is on a line of the source. The one exception is that a parameter has the name of its
procedure, which is reported on line zero, though with the line of the procedure as that of the
earlier declaration. -/
theorem error_line_in_source {source : String} {e : Error}
    (h : compile source = .error e) {line : Nat} (hline : e.line? = some line) :
    IsLineOf source line ∨ ∃ header ∈ (Source.parse (.ofText source)).headers,
      (∃ x ∈ header.params, x.toUpper = header.name.toUpper) ∧
        IsLineOf source header.site.line ∧
        e = .redeclaration 0 header.name (some header.site.line) := by
  have hplaced : Source.Placed (IsLineOf source) (Source.parse (.ofText source)).headers e := by
    rcases compile_eq_error h with ⟨w, hlower⟩ | ⟨w, w', -, hlink⟩
    · obtain ⟨entry, w₀, s, -, hrun⟩ := Lowering.within_eq_error hlower
      rcases bind_eq_error.1 hrun with hrun | ⟨_, s₁, -, hfinish⟩
      · exact Source.blames_lower_parse (Feed.lines_scan _ fun _ hline => hline) hrun
      · exact .inl (Lowering.blames_finish hfinish).points
    · obtain ⟨id, -, rfl, -⟩ := link_eq_error hlink
      exact .inl (Error.points_of_line? rfl)
  exact hplaced.imp_left fun hpoints => hpoints line hline

def secondLineSample : Failing "X = 'one\ntwo'\nPRINT :X + 1\n" (·.line? = some 3) :=
  .of (by decide +kernel)

theorem error_line_in_source_string :
    ∃ e, compile "X = 'one\ntwo'\nPRINT :X + 1\n" = .error e ∧ e.line? = some 3 ∧
    (IsLineOf "X = 'one\ntwo'\nPRINT :X + 1\n" 3 ∨
      ∃ header ∈ (Source.parse (.ofText "X = 'one\ntwo'\nPRINT :X + 1\n")).headers,
        (∃ x ∈ header.params, x.toUpper = header.name.toUpper) ∧
          IsLineOf "X = 'one\ntwo'\nPRINT :X + 1\n" header.site.line ∧
          e = .redeclaration 0 header.name (some header.site.line)) :=
  ⟨secondLineSample.error, secondLineSample.fails, secondLineSample.holds,
    error_line_in_source secondLineSample.fails secondLineSample.holds⟩

/-- A parameter with the name of its procedure is reported on a line that no source has. -/
theorem parameter_clash_on_line_zero :
    ∃ e, compile "TO F :F END" = .error e ∧ e = .redeclaration 0 "F" (some 1) ∧
    ¬ ∃ line ∈ e.line?, IsLineOf "TO F :F END" line := by
  obtain ⟨e, he, hclash⟩ : Failing "TO F :F END" (· = .redeclaration 0 "F" (some 1)) :=
    .of (by decide +kernel)
  exact ⟨e, he, hclash, by simp [hclash, Error.line?, IsLineOf]⟩

end TurtleCompiler
