import TurtleCompiler.Proofs.CallLines
import TurtleCompiler.Proofs.Failures

/-!
Which procedures are called. The calls in the trees of a lowering are those that the source makes.
-/

namespace TurtleCompiler

def worded : List String := ["PRINT", "TYPEIN", "RANDOM"]

variable {as : List Access}

namespace Table

variable {t t' : Table} {name : String} {names names' : List String} {callee : SymbolId}
  {args : List Arg} {p p' : Access → Prop}

structure Calls (t : Table) (names : List String) (p : Access → Prop) : Prop where
  named : ∀ {callee args}, p (.call callee args) →
    ∃ name ∈ worded ++ names, t.Denotes name callee
  made : ∀ name ∈ names, ∃ callee args, p (.call callee args) ∧ t.Denotes name callee

namespace Calls

theorem none (h : ∀ callee args, ¬ p (.call callee args)) :
    t.Calls [] p := ⟨fun hp => absurd hp (h _ _), by simp⟩

theorem word (hname : name ∈ worded) (hd : t.Denotes name callee) :
    t.Calls [] (· = .call callee args) where
  named hp := by
    obtain ⟨rfl, -⟩ := Access.call.inj hp
    exact ⟨name, by simpa using hname, hd⟩
  made := by simp

theorem single (hd : t.Denotes name callee) : t.Calls [name] (· = .call callee args) where
  named hp := by
    obtain ⟨rfl, -⟩ := Access.call.inj hp
    exact ⟨name, by simp, hd⟩
  made name' hname := ⟨callee, args, rfl, by rwa [List.mem_singleton.1 hname]⟩

theorem or (h : t.Calls names p) (h' : t.Calls names' p') :
    t.Calls (names ++ names') fun a => p a ∨ p' a where
  named hp := by
    rcases hp with hp | hp
    · obtain ⟨name, hname, hd⟩ := h.named hp
      exact ⟨name, by rw [← List.append_assoc]; exact List.mem_append_left _ hname, hd⟩
    · obtain ⟨name, hname, hd⟩ := h'.named hp
      refine ⟨name, ?_, hd⟩
      rcases List.mem_append.1 hname with hname | hname
      · exact List.mem_append_left _ hname
      · exact List.mem_append_right _ (List.mem_append_right _ hname)
  made name hname := by
    rcases List.mem_append.1 hname with hname | hname
    · obtain ⟨callee, args, hp, hd⟩ := h.made name hname
      exact ⟨callee, args, .inl hp, hd⟩
    · obtain ⟨callee, args, hp, hd⟩ := h'.made name hname
      exact ⟨callee, args, .inr hp, hd⟩

theorem congr (h : t.Calls names p)
    (hp : ∀ callee args, p (.call callee args) ↔ p' (.call callee args)) :
    t.Calls names p' where
  named hcall := h.named ((hp _ _).2 hcall)
  made name hname := by
    obtain ⟨callee, args, hcall, hd⟩ := h.made name hname
    exact ⟨callee, args, (hp callee args).1 hcall, hd⟩

theorem append {bs : List Access} (h : t.Calls names (· ∈ as))
    (h' : t.Calls names' (· ∈ bs)) : t.Calls (names ++ names') (· ∈ as ++ bs) :=
  (h.or h').congr fun _ _ => List.mem_append.symm

theorem keeps (h : t.Calls names p) (hd : ∀ {name id}, t.Denotes name id → t'.Denotes name id) :
    t'.Calls names p where
  named hp := (h.named hp).imp fun _ ⟨hname, hid⟩ => ⟨hname, hd hid⟩
  made name hname := by
    obtain ⟨callee, args, hp, hid⟩ := h.made name hname
    exact ⟨callee, args, hp, hd hid⟩

theorem adds {s s' : Lowering} (h : s.table.Calls names p) (ha : s.Adds as s') :
    s'.table.Calls names p :=
  h.keeps ha.table.denotes

theorem ofArgs (hcall : t.Calls names (· = .call callee args))
    (hargs : t.Calls [] (· ∈ accessesOfArgs args)) :
    t.Calls names (· ∈ .call callee args :: accessesOfArgs args) := by
  rw [← List.append_nil names]
  exact (hcall.or hargs).congr fun _ _ => by simp

theorem inputs {es : List Expr} (h : t.Calls names (· ∈ es.flatMap Expr.accesses)) :
    t.Calls names (· ∈ accessesOfArgs (es.reverse.map .input)) :=
  h.congr fun _ _ => by
    rw [accessesOfArgs_input]
    simp

end Calls

theorem Live.denotes_callTo (h : t.Live) (hname : Dotless name) {e : Expr}
    (hcall : Expr.callTo t name args = .ok e) :
    ∃ callee, e = .call callee args (t.symbol callee).type? ∧ t.Denotes name callee := by
  obtain ⟨callee, hresolve, rfl⟩ := Expr.callTo_eq_ok.1 hcall
  exact ⟨callee, rfl, h.denotes_of_resolve hname hresolve⟩

end Table

theorem Lowering.Adds.again {s s' : Lowering} (h : s.Adds as s') : s'.Adds as s' :=
  ⟨(Table.Extends.refl _).mono (by simp), h.fits, rfl, rfl, rfl⟩

namespace Source

variable {s s' : Lowering}

theorem Expr.Becomes.calls {e : Expr} {e' : TurtleCompiler.Expr} (h : e.Becomes s e' s')
    (hnames : ∀ x ∈ e.names, IsName x) (ht : s.table.Live) :
    s'.table.Calls [] (· ∈ e'.accesses) := by
  induction h with
  | number | string | boolean => exact .none (by simp [Lowering.string, Lowering.boolean])
  | var h =>
    obtain ⟨id, t₁, j, t₂, -, -, rfl, rfl⟩ := Lowering.reference_eq_ok h
    exact .none (by simp [TurtleCompiler.Expr.ofVariable])
  | random h =>
    have hlive := (Lowering.adds_random ht h).1.live ht
    obtain ⟨j, t, -, he, rfl⟩ := Lowering.random_eq_ok h
    obtain ⟨callee, rfl, hd⟩ := hlive.denotes_callTo (by decide) he
    exact .ofArgs (.word (by decide) hd) (.none (by simp))
  | plus _ _ ih | not _ ih => exact ih hnames ht
  | minus _ harith ih =>
    rw [(Expr.isConst_arithmetic harith).1]
    exact ih hnames ht
  | arith hl hr _ harith ihl ihr =>
    rw [(Expr.isConst_arithmetic harith).1]
    simp only [names, List.forall_mem_append] at hnames
    have hlive := (hl.adds hnames.1 ht).1.live ht
    exact ((ihl hnames.1 ht).adds (hr.adds hnames.2 hlive).1).append (ihr hnames.2 hlive)
  | compare hl hr _ ihl ihr | logic hl hr _ ihl ihr =>
    simp only [names, List.forall_mem_append] at hnames
    have hlive := (hl.adds hnames.1 ht).1.live ht
    exact ((ihl hnames.1 ht).adds (hr.adds hnames.2 hlive).1).append (ihr hnames.2 hlive)

theorem EachBecomes.calls {es : List Expr} {es' : List TurtleCompiler.Expr}
    (h : EachBecomes es s es' s') (hnames : ∀ x ∈ es.flatMap Expr.names, IsName x)
    (ht : s.table.Live) : s'.table.Calls [] (· ∈ es'.flatMap TurtleCompiler.Expr.accesses) := by
  induction h with
  | nil => exact .none (by simp)
  | cons he hes ih =>
    simp only [List.flatMap_cons, List.forall_mem_append] at hnames
    have hlive := (he.adds hnames.1 ht).1.live ht
    exact ((he.calls hnames.1 ht).adds (hes.adds hnames.2 hlive)).append (ih hnames.2 hlive)

mutual

theorem Stmt.Becomes.calls {st : Stmt} {s s' : Lowering} {n : Node} : st.Becomes s n s' →
    (∀ x ∈ st.names, IsName x) → s.table.Live → s'.table.Calls st.calls (· ∈ n.accesses)
  | .expr he, hnames, ht => he.calls hnames ht
  | .assign hrhs h, hnames, ht => by
    simp only [Stmt.names, List.forall_mem_cons] at hnames
    obtain ⟨hadds, hconst⟩ := hrhs.adds hnames.2 ht
    have hadds' :=
      Lowering.adds_assignment (hadds.again.noted _) hconst (hadds.live ht) hnames.1.dotless h
    have hcalls := (hrhs.calls hnames.2 ht).adds hadds'
    obtain ⟨compound, type, id, t₁, t₂, -, -, -, -, hcases⟩ := Lowering.assignment_eq_ok h
    rcases hcases with ⟨v, -, -, -, -, rfl⟩ | ⟨-, -, -, rfl⟩ | ⟨-, -, rfl⟩
    · exact .none (by simp)
    · exact hcalls.congr fun _ _ => by simp
    · exact hcalls.congr fun _ _ => by simp
  | .call hargs h, hnames, ht => by
    simp only [Stmt.names, List.forall_mem_cons] at hnames
    have hadds := hargs.adds hnames.2 ht
    have hadds' := Lowering.adds_call (hadds.again.noted _) (hadds.live ht) hnames.1 h
    have hlive := hadds'.live (hadds.live ht)
    have hcalls := (hargs.calls hnames.2 ht).adds hadds'
    obtain ⟨i, t₁, j, t₂, e, -, -, he, rfl, rfl⟩ := Lowering.call_eq_ok h
    obtain ⟨callee, rfl, hd⟩ := hlive.denotes_callTo hnames.1.dotless he
    exact .ofArgs (.single hd) hcalls.inputs
  | .print hargs h, hnames, ht => by
    have hadds := hargs.adds hnames ht
    have hadds' := Lowering.adds_print (hadds.again.noted _) (hadds.live ht) h
    have hlive := hadds'.live (hadds.live ht)
    have hcalls := (hargs.calls hnames ht).adds hadds'
    obtain ⟨j, t, e, -, he, rfl, rfl⟩ := Lowering.print_eq_ok h
    obtain ⟨callee, rfl, hd⟩ := hlive.denotes_callTo (by decide) he
    exact .ofArgs (.word (by decide) hd) (hcalls.inputs.congr fun _ _ => by simp)
  | .typein h, hnames, ht => by
    have hlive :=
      (Lowering.adds_typein (by exact ht) (hnames _ (List.mem_singleton_self _)).dotless h).live ht
    obtain ⟨i, t₁, id, t₂, j, t₃, e, -, -, -, he, rfl, rfl⟩ := Lowering.typein_eq_ok h
    obtain ⟨callee, rfl, hd⟩ := hlive.denotes_callTo (by decide) he
    exact .ofArgs (.word (by decide) hd) (.none (by simp [TurtleCompiler.Expr.ofVariable]))
  | .ifThen htest hyes, hnames, ht => by
    simp only [Stmt.names, List.forall_mem_append] at hnames
    have hlive := (htest.adds hnames.1 ht).1.live ht
    have hcalls :=
      ((htest.calls hnames.1 ht).adds (hyes.adds hnames.2 hlive)).append (hyes.calls hnames.2 hlive)
    exact hcalls.congr (by simp [accessesOfNodes_append])
  | .ifElse htest hyes hno, hnames, ht => by
    simp only [Stmt.names, List.forall_mem_append] at hnames
    have hlive := (htest.adds hnames.1 ht).1.live ht
    have hadds := hyes.adds hnames.2.1 hlive
    have hcalls := ((htest.calls hnames.1 ht).adds hadds).append (hyes.calls hnames.2.1 hlive)
    have hcalls' := (hcalls.adds (hno.adds hnames.2.2 (hadds.live hlive))).append
      (hno.calls hnames.2.2 (hadds.live hlive))
    exact hcalls'.congr (by simp [accessesOfNodes_append, Node.jump])
  | .whileDo htest hbody, hnames, ht => by
    simp only [Stmt.names, List.forall_mem_append] at hnames
    have hlive := (htest.adds hnames.1 ht).1.live ht
    have hcalls :=
      ((htest.calls hnames.1 ht).adds (hbody.adds hnames.2 hlive)).append
      (hbody.calls hnames.2 hlive)
    exact hcalls.congr (by simp [accessesOfNodes_append, Node.jump])

theorem AllBecome.calls {ss : List Stmt} {s s' : Lowering} {ns : List Node} :
    AllBecome ss s ns s' → (∀ x ∈ namesOfAll ss, IsName x) → s.table.Live →
    s'.table.Calls (callsOfAll ss) (· ∈ accessesOfNodes ns)
  | .nil, _, _ => .none (by simp)
  | .cons hn hns, hnames, ht => by
    simp only [namesOfAll, List.forall_mem_append] at hnames
    have hlive := (hn.adds hnames.1 ht).live ht
    exact ((hn.calls hnames.1 ht).adds (hns.adds hnames.2 hlive)).append (hns.calls hnames.2 hlive)

end

end Source

def builtins : List String := entryName :: catalogue.map (·.name)

namespace Table

variable {t t' : Table} {id : SymbolId} {r : Routine} {name : String} {defined : List String}

theorem Gives.denotes (h : t.Gives id r t')
    (halias : ∀ r' ∈ (t.symbol id).routine?, r'.aliasOf = r.aliasOf)
    {callee : SymbolId} (hd : t.Denotes name callee) : t'.Denotes name callee := by
  obtain ⟨i, hi, hcallee⟩ := hd
  have hsame : t'.alias? i = t.alias? i := by
    rw [alias?, h.routine]
    split
    · rename_i heq
      obtain ⟨r', hr'⟩ := Symbol.exists_routine hi.2.1
      simp [alias?, hr', halias r' (heq ▸ hr')]
    · rfl
  refine ⟨i, h.isRoutine hi, ?_⟩
  rw [hsame]
  exact hcallee.imp_right fun ⟨target, htarget, hcallee⟩ =>
    ⟨target, htarget, h.isRoutine hcallee⟩

def Stems (t : Table) (defined : List String) : Prop :=
  ∀ id, ∀ r ∈ (t.symbol id).routine?, (t.symbol id).name ∈ builtins ∨
    r.IsPlain id ∧ (r.code.isSome → ∃ name ∈ defined, t.IsRoutine name id)

theorem Stems.extends {ms : List SymbolId} (h : t.Stems defined) (he : t.Extends ms t') :
    t'.Stems defined := by
  intro id r hr
  by_cases hid : t.Has id
  · rw [he.routine hid] at hr
    rw [(he.grows hid).name]
    refine (h id r hr).imp_right fun ⟨hplain, hcode⟩ => ⟨hplain, fun hsome => ?_⟩
    exact (hcode hsome).imp fun _ ⟨hname, hid⟩ => ⟨hname, he.isRoutine hid⟩
  · obtain ⟨rfl, -⟩ := he.blank hid r hr
    exact .inr ⟨Routine.isPlain_params [] id, by simp⟩

theorem Stems.gives {names : List String} (h : t.Stems defined) (hg : t.Gives id r t')
    (hr : (t'.symbol id).name ∈ builtins ∨ r.IsPlain id ∧
      (r.code.isSome → ∃ name ∈ names, t'.IsRoutine name id)) :
    t'.Stems (defined ++ names) := by
  intro j r' hr'
  rw [hg.routine] at hr'
  split at hr'
  · rename_i hj
    obtain rfl := Option.some.inj hr'
    subst hj
    refine hr.imp_right fun ⟨hplain, hcode⟩ => ⟨hplain, fun hsome => ?_⟩
    exact (hcode hsome).imp fun _ ⟨hname, hid⟩ => ⟨List.mem_append_right _ hname, hid⟩
  · rw [(hg.grows (has_of_routine? hr')).name]
    refine (h j r' hr').imp_right fun ⟨hplain, hcode⟩ => ⟨hplain, fun hsome => ?_⟩
    exact (hcode hsome).imp fun _ ⟨hname, hid⟩ =>
      ⟨List.mem_append_left _ hname, hg.isRoutine hid⟩

end Table

namespace Lowering

variable {s s' : Lowering} {calls defined names : List String} {id : SymbolId} {r : Routine}
  {name : String}

structure Cites (s : Lowering) (calls defined : List String) : Prop where
  calls : s.table.Calls calls fun a => ∃ o, a ∈ accessesOfNodes (s.bodies o)
  stems : s.table.Stems defined

namespace Cites

section

variable (h : s.Cites calls defined)

include h

theorem adds (ha : s.Adds as s') : s'.Cites calls defined where
  calls := by
    rw [ha.bodies]
    exact h.calls.adds ha
  stems := h.stems.extends ha.table

theorem addTopLevel {n : Node} {u : Unit} (hn : s.table.Calls names (· ∈ n.accesses))
    (hadd : addTopLevel n s = .ok u s') : s'.Cites (calls ++ names) defined := by
  obtain rfl := modify_eq_ok.1 hadd
  refine ⟨(h.calls.or hn).congr fun callee args => ⟨?_, ?_⟩, h.stems⟩
  · rintro (⟨o, ho⟩ | hn)
    · refine ⟨o, ?_⟩
      cases o with
      | none =>
        change _ ∈ accessesOfNodes (s.mainBody ++ [n])
        rw [accessesOfNodes_append]
        exact List.mem_append_left _ ho
      | some id => exact ho
    · refine ⟨none, ?_⟩
      change _ ∈ accessesOfNodes (s.mainBody ++ [n])
      simp [accessesOfNodes_append, hn]
  · rintro ⟨o, ho⟩
    cases o with
    | none =>
      change _ ∈ accessesOfNodes (s.mainBody ++ [n]) at ho
      rw [accessesOfNodes_append] at ho
      exact (List.mem_append.1 ho).imp (fun ho => ⟨none, ho⟩) (by simp)
    | some id => exact .inl ⟨some id, ho⟩

theorem begins {ids : List SymbolId} (hmain : s'.mainBody = s.mainBody)
    (hg : s.table.Gives id { params := ids } s'.table)
    (hblank : ∀ r ∈ (s.table.symbol id).routine?, r = {}) : s'.Cites calls defined where
  calls := by
    have hempty : s.bodies (some id) = [] :=
      Table.bodyOf_of_routine? fun r hr => by rw [hblank r hr]
    rw [bodies_gives hmain hg, Option.elim_none, ← hempty, Function.update_eq_self]
    exact h.calls.keeps (hg.denotes fun r hr => by rw [hblank r hr])
  stems := by
    rw [← List.append_nil defined]
    exact h.stems.gives hg (.inr ⟨Routine.isPlain_params ids id, by simp⟩)

theorem ends {body : List Node} (hmain : s'.mainBody = s.mainBody)
    (hr : r ∈ (s.table.symbol id).routine?) (hcode : r.code = none)
    (hg : s.table.Gives id { r with code := some (.ofNodes id body) } s'.table)
    (hbody : s.table.Calls names (· ∈ accessesOfNodes body)) (hid : s.table.IsRoutine name id) :
    s'.Cites (calls ++ names) (defined ++ [name]) where
  calls := by
    have hempty : s.bodies (some id) = [] :=
      Table.bodyOf_of_routine? fun r' hr' => by rw [← Option.mem_unique hr hr', hcode]
    have halias : ∀ r' ∈ (s.table.symbol id).routine?, r'.aliasOf = r.aliasOf :=
        fun r' hr' => by
      rw [Option.mem_unique hr hr']
    rw [bodies_gives hmain hg, Option.elim_some, Definition.nodes_ofNodes]
    refine ((h.calls.or hbody).keeps (hg.denotes halias)).congr fun callee args => ⟨?_, ?_⟩
    · rintro (⟨o, ho⟩ | hbody)
      · refine ⟨o, ?_⟩
        rwa [Function.update_of_ne]
        rintro rfl
        simp [hempty] at ho
      · exact ⟨some id, by rwa [Function.update_self]⟩
    · rintro ⟨o, ho⟩
      by_cases hsome : o = some id
      · subst hsome
        exact .inr (by rwa [Function.update_self] at ho)
      · exact .inl ⟨o, by rwa [Function.update_of_ne hsome] at ho⟩
  stems := by
    refine h.stems.gives hg ?_
    rw [(hg.grows hid.1).name]
    refine (h.stems id r hr).imp_right fun hplain => ⟨hplain.1.setCode body, fun _ => ?_⟩
    exact ⟨name, by simp, hg.isRoutine hid⟩

theorem finish (hname : (s.table.symbol s.entry).name = entryName) {t : Table}
    (hr : r ∈ (s.table.symbol s.entry).routine?) (hcode : r.code = none)
    (hg : s.table.Gives s.entry { r with code := some (.ofNodes s.entry s.mainBody) } t) :
    t.Calls calls (fun a => ∃ id, a ∈ accessesOfNodes (t.bodyOf id)) ∧ t.Stems defined := by
  have hempty : s.table.bodyOf s.entry = [] :=
    Table.bodyOf_of_routine? fun r' hr' => by rw [← Option.mem_unique hr hr', hcode]
  have halias : ∀ r' ∈ (s.table.symbol s.entry).routine?, r'.aliasOf = r.aliasOf :=
      fun r' hr' => by
    rw [Option.mem_unique hr hr']
  constructor
  · rw [hg.bodyOf, Option.elim_some, Definition.nodes_ofNodes]
    refine (h.calls.keeps (hg.denotes halias)).congr fun callee args => ⟨?_, ?_⟩
    · rintro ⟨_ | id, ho⟩
      · exact ⟨s.entry, by rwa [Function.update_self]⟩
      · refine ⟨id, ?_⟩
        rwa [Function.update_of_ne]
        rintro rfl
        simp [bodies, hempty] at ho
    · rintro ⟨id, hid⟩
      by_cases hentry : id = s.entry
      · subst hentry
        exact ⟨none, by rwa [Function.update_self] at hid⟩
      · exact ⟨some id, by rwa [Function.update_of_ne hentry] at hid⟩
  · rw [← List.append_nil defined]
    refine h.stems.gives hg (.inl ?_)
    simp [(hg.grows (Table.has_of_routine? hr)).name, hname, builtins]

end

end Cites

end Lowering

namespace Source

variable {s s' : Lowering} {calls defined : List String}

theorem Item.Becomes.cites {i : Item} (h : i.Becomes s s') (hnames : ∀ x ∈ i.names, IsName x)
    (hs : s.Ok []) (hpaths : s.table.AtTop) (hc : s.Cites calls defined) :
    s'.Cites (calls ++ i.calls) (defined ++ i.defined) := by
  cases i with
  | statement st =>
    obtain ⟨hn⟩ := h
    rw [Item.defined, List.append_nil]
    exact (hc.adds (hn.adds hnames hs.live)).addTopLevel (u := ⟨⟩) (hn.calls hnames hs.live) rfl
  | definition header body site =>
    obtain ⟨b, e, id, ids, nodes, r, h⟩ := Item.stages hnames hs hpaths h
    simp only [Item.names, List.forall_mem_cons, List.forall_mem_append] at hnames
    exact ((hc.begins h.mainBody h.gives h.blank).adds h.adds).ends h.rest.1 h.routine
      h.code h.gives' (h.becomes.calls hnames.2.2 h.ok.live) (h.opened.adds h.adds).routine
  | broken => cases h

theorem cites_lower_parse {text : String} {u : Unit} (hs : s.Ok []) (hpaths : s.table.AtTop)
    (hc : s.Cites [] []) (h : (parse (.ofText text)).lower s = .ok u s') :
    s'.Cites (parse (.ofText text)).calls (parse (.ofText text)).defined := by
  refine (Program.induction (R := fun done s =>
    s.Cites (done.flatMap Item.calls) (done.flatMap Item.defined)) isName_of_parse
    hs hpaths hc (fun _ hnames hs hpaths hc _ hi => ?_)
    (fun _ hc => hc.adds ((Lowering.Adds.refl _).noted _)) h).2
  simpa using hi.cites hnames hs hpaths hc

end Source

namespace Lowering

def builtinStart : { s : Start // ∀ id, s.table.Has id → (s.table.symbol id).cls = .routine →
    (s.table.symbol id).name ∈ builtins } := ⟨start, by decide +kernel⟩

theorem cites_setup {entry : SymbolId} {w : Workspace} (h : setup {} = .ok entry w) :
    ({ toWorkspace := w, entry } : Lowering).Cites [] [] := by
  obtain ⟨rfl, htable⟩ := eq_start h
  have hcatalogue : IsCatalogue w.table := htable ▸ cataloguedStart.2.2
  have hnames (id : SymbolId) (hid : w.table.Has id) (hcls : (w.table.symbol id).cls = .routine) :
      (w.table.symbol id).name ∈ builtins := by
    rw [htable] at hid hcls ⊢
    exact builtinStart.2 id hid hcls
  refine ⟨.none ?_, fun id r hr =>
    .inl (hnames id (Table.has_of_routine? hr) (Symbol.cls_of_routine? hr))⟩
  rintro callee args ⟨_ | id, ho⟩
  · simp [bodies] at ho
  · simp [bodies, hcatalogue.bodyOf] at ho

end Lowering

theorem cites_of_lower {text : String} {u : Unit} {w : Workspace}
    (h : lower (.ofText text) {} = .ok u w) :
    w.table.Calls (Source.parse (.ofText text)).calls
      (fun a => ∃ id, a ∈ accessesOfNodes (w.table.bodyOf id)) ∧
      w.table.Stems (Source.parse (.ofText text)).defined := by
  obtain ⟨entry, w₀, s, hsetup, hrun, rfl⟩ := Lowering.within_eq_ok h
  obtain ⟨hok, hpaths⟩ := Lowering.ok_setup hsetup
  obtain ⟨_, s₁, hlower, hfinish⟩ := bind_eq_ok.1 hrun
  have hcites := Source.cites_lower_parse hok hpaths (Lowering.cites_setup hsetup) hlower
  have htraced := Source.traced_lower_parse hok hpaths (Lowering.traced_setup hsetup) hlower
  have hok₁ := (Source.ok_lower_parse hok hpaths hlower).1
  obtain ⟨-, -, -, r, hr, hgives⟩ := hok₁.finish hfinish
  obtain ⟨-, r', hr', hcode, -⟩ := hok₁.entry
  obtain rfl := Option.mem_unique hr hr'
  exact hcites.finish htraced.startsAt.name hr hcode hgives

theorem Definition.accesses_nodes (d : Definition) : accessesOfNodes d.nodes = d.accesses := by
  rw [nodes, accesses]
  induction d.body with
  | nil => rfl
  | cons e body ih =>
    cases e with
    | node n => simpa [Entry.node?, Entry.accesses] using ih
    | template line =>
      rw [List.filterMap_cons_none rfl, ih]
      rfl

namespace Table

variable {t : Table} {entry id callee : SymbolId} {args : List Arg} {calls defined : List String}
  {name : String}

theorem Code.exists_bodyOf {d : Definition} (h : t.Code d) :
    ∃ id, accessesOfNodes (t.bodyOf id) = d.accesses := by
  obtain ⟨id, r, hr, hd⟩ := h
  exact ⟨id, by rw [bodyOf_eq hr, Option.mem_def.1 hd, Option.elim_some, d.accesses_nodes]⟩

theorem Lowered.fits_bodyOf {ms : List SymbolId} (h : t.Lowered entry ms) {a : Access}
    (ha : a ∈ accessesOfNodes (t.bodyOf id)) : a.Fits t := by
  cases hr : (t.symbol id).routine? with
  | none => simp [bodyOf, code?, hr] at ha
  | some r =>
    rw [bodyOf_eq hr] at ha
    cases hd : r.code with
    | none => simp [hd] at ha
    | some d =>
      rw [hd, Option.elim_some, d.accesses_nodes] at ha
      obtain ⟨e, he, ha⟩ := List.mem_flatMap.1 ha
      cases e with
      | node n => exact (h.code r hr d hd).2 _ he a ha
      | template line => simp [Entry.accesses] at ha

theorem Lowered.exists_call (h : t.Lowered entry []) (hused : t.IsUsed id)
    (halias : t.alias? id = none) (hcls : (t.symbol id).cls = .routine) (hentry : id ≠ entry) :
    ∃ caller args, .call id args ∈ accessesOfNodes (t.bodyOf caller) := by
  have hvar : ¬ t.IsVar id := fun hvar => by simpa [hcls] using hvar.2
  rcases h.needed hused halias with rfl | ⟨m, hm, -⟩ | ⟨d, hd, m, hm, rfl | hdependency⟩
  · exact absurd rfl hentry
  · simp at hm
  · obtain ⟨caller, hcaller⟩ := hd.exists_bodyOf
    obtain ⟨a, ha, hmention⟩ := List.mem_filterMap.1 hm
    rw [← hcaller] at ha
    have hfits := h.fits_bodyOf ha
    cases a with
    | read i =>
      obtain rfl : i = id := by simpa [Access.mention?] using hmention
      exact absurd hfits.1 hvar
    | write i => simp [Access.mention?] at hmention
    | call i args =>
      obtain rfl : i = id := by simpa [Access.mention?] using hmention
      exact ⟨caller, args, ha⟩
  · exact absurd (h.live.isVar hdependency) hvar

theorem Linkable.isRoutine_of_denotes (h : t.Linkable calls defined) (ht : t.Live) {r : Routine}
    (hd : t.Denotes name id) (hr : r ∈ (t.symbol id).routine?) (hplain : r.IsPlain id) :
    t.IsRoutine name id := by
  obtain ⟨i, hi, ⟨-, rfl⟩ | ⟨target, halias, hid⟩⟩ := hd
  · exact hi
  · obtain ⟨j, hj, hlibrary⟩ := h.aliases halias
    obtain rfl := ht.isRoutine_unique hid hj
    simp [Symbol.flags, Option.mem_def.1 hr, hplain.flags] at hlibrary

theorem Ready.called_of_used {r : Routine} (h : t.Ready entry) (hl : t.Linkable calls defined)
    (hc : t.Calls calls fun a => ∃ id, a ∈ accessesOfNodes (t.bodyOf id)) (hused : t.IsUsed id)
    (hr : r ∈ (t.symbol id).routine?) (hplain : r.IsPlain id)
    (hname : (t.symbol id).name.toUpper ∉ builtins.map String.toUpper) :
    ∃ c ∈ calls, c.toUpper = (t.symbol id).name.toUpper := by
  have hentry : id ≠ entry := by
    rintro rfl
    simp [h.name, builtins] at hname
  have halias : t.alias? id = none := by simp [alias?, Option.mem_def.1 hr, hplain.aliasOf]
  obtain ⟨caller, args, hcall⟩ :=
    h.lowered.exists_call hused halias (Symbol.cls_of_routine? hr) hentry
  obtain ⟨c, hmem, hdenotes⟩ := hc.named ⟨caller, hcall⟩
  have hroutine := hl.isRoutine_of_denotes h.lowered.live hdenotes hr hplain
  rcases List.mem_append.1 hmem with hword | hmem
  · have hbuiltin : ∀ c ∈ worded, c ∈ builtins := by decide
    exact absurd (hroutine.2.2 ▸ List.mem_map_of_mem (hbuiltin c hword)) hname
  · exact ⟨c, hmem, hroutine.2.2.symm⟩

theorem Ready.used_of_called (h : t.Ready entry) (hs : t.Stems defined)
    (hc : t.Calls calls fun a => ∃ id, a ∈ accessesOfNodes (t.bodyOf id)) {c : String}
    (hmem : c ∈ calls) (hname : c.toUpper ∉ builtins.map String.toUpper) :
    ∃ id, t.IsUsed id ∧ (t.symbol id).name.toUpper = c.toUpper ∧
    ∃ r ∈ (t.symbol id).routine?, r.IsPlain id := by
  obtain ⟨callee, args, ⟨caller, hcall⟩, i, hi, hdenotes⟩ := hc.made c hmem
  obtain ⟨r, hr⟩ := Symbol.exists_routine hi.2.1
  have hplain : r.IsPlain i :=
    ((hs i r hr).resolve_left fun hbuiltin => hname (hi.2.2 ▸ List.mem_map_of_mem hbuiltin)).1
  have halias : t.alias? i = none := by simp [alias?, hr, hplain.aliasOf]
  obtain rfl : callee = i := by simpa [halias] using hdenotes
  exact ⟨callee, (h.lowered.fits_bodyOf hcall).1, hi.2.2, r, hr, hplain⟩

end Table

theorem exists_block_iff {source : String} {listing : Listing} (h : compile source = .ok listing)
    {name : String} (hname : name.toUpper ∉ builtins.map String.toUpper) :
    ((∃ b ∈ listing.blocks, b.name.toUpper = name.toUpper) ↔
      ∃ c ∈ (Source.parse (.ofText source)).calls, c.toUpper = name.toUpper) ∧
    ((∃ b ∈ listing.blocks, b.name.toUpper = name.toUpper) →
      ∃ d ∈ (Source.parse (.ofText source)).defined, d.toUpper = name.toUpper) := by
  obtain ⟨w, w', hlower, hlink⟩ := compile_eq_ok h
  obtain ⟨entry, hready⟩ := ready_of_lower hlower
  obtain ⟨hcalls, hstems⟩ := cites_of_lower hlower
  obtain ⟨targets, -, hblocks, -, hwritten⟩ := hready.link hlink
  have hblock {b : Block} (hb : b ∈ listing.blocks) (hbname : b.name.toUpper = name.toUpper) :
      (∃ c ∈ (Source.parse (.ofText source)).calls, c.toUpper = name.toUpper) ∧
        ∃ d ∈ (Source.parse (.ofText source)).defined, d.toUpper = name.toUpper := by
    rw [hblocks, List.mem_filterMap] at hb
    obtain ⟨id, -, hb⟩ := hb
    obtain ⟨hsymbol, hused, -⟩ := hready.block_cases hb
    obtain ⟨d, hd, -⟩ := Table.exists_code_of_blockOf? hb
    obtain ⟨r, hr, hcode⟩ := Option.bind_eq_some_iff.1 hd
    rw [← hbname, hsymbol] at hname ⊢
    obtain ⟨hplain, hdefined⟩ :=
      (hstems id r hr).resolve_left fun hbuiltin => hname (List.mem_map_of_mem hbuiltin)
    obtain ⟨x, hx, hid⟩ := hdefined (by simp [hcode])
    exact ⟨hready.called_of_used (linkable_of_lower hlower) hcalls hused hr hplain hname, x, hx,
      hid.2.2.symm⟩
  refine ⟨⟨fun ⟨b, hb, hbname⟩ => (hblock hb hbname).1, fun ⟨c, hc, hcname⟩ => ?_⟩,
    fun ⟨b, hb, hbname⟩ => (hblock hb hbname).2⟩
  rw [← hcname] at hname ⊢
  obtain ⟨id, hused, hid, r, hr, hplain⟩ := hready.used_of_called hstems hcalls hc hname
  obtain ⟨htarget, hsome⟩ := hwritten id hused r hr hplain.aliasOf (by rw [hplain.flags])
  obtain ⟨b, hb⟩ := Option.isSome_iff_exists.1 hsome
  refine ⟨b, ?_, by rw [(hready.block_cases hb).1, hid]⟩
  rw [hblocks, List.mem_filterMap]
  exact ⟨id, htarget, hb⟩

end TurtleCompiler
