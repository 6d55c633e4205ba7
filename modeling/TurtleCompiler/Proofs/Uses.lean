import TurtleCompiler.Proofs.Failures
import TurtleCompiler.Proofs.Passage

/-!
How a statement counts uses. The symbols of the library keep to themselves: using them does not use
the symbols of a source.
-/

namespace TurtleCompiler

namespace Source

def Mention.isRead (x : String) : Mention → Bool
  | .read name => name.toUpper = x.toUpper
  | .write _ | .call _ | .primitive _ => false

def Mention.isCall (f : String) : Mention → Bool
  | .call name => name.toUpper = f.toUpper
  | .read _ | .write _ | .primitive _ => false

def readsOf (x : String) (ms : List Mention) : Nat := ms.countP (Mention.isRead x)

def callsOf (f : String) (ms : List Mention) : Nat := ms.countP (Mention.isCall f)

@[simp] theorem callsOf_append (f : String) (ms ms' : List Mention) :
    callsOf f (ms ++ ms') = callsOf f ms + callsOf f ms' := List.countP_append

end Source

namespace Table

open Source (Mention readsOf callsOf)

variable {t t' t'' T : Table} {id j : SymbolId} {name : String} {n : Nat} {ms : List SymbolId}

section Usage

theorem usage_of_not_has (h : ¬ t.Has id) : (t.symbol id).usage = 0 := by
  rw [symbol_of_not_has h]
  rfl

variable {line : Option Nat}

theorem usage_declare {reach : Reach} {cls : SymbolClass} {f : Fields} (hf : f.usage = none)
    (hd : declare reach name cls line f t = .ok id t') (j : SymbolId) :
    (t'.symbol j).usage = (t.symbol j).usage := by
  rcases symbol_declare hd j with hj | ⟨-, hj⟩ | ⟨hnew, _, _, _, -, hj⟩ <;> rw [hj]
  · exact Symbol.usage_merge line hf _
  · rw [usage_of_not_has hnew]
    simp [hf]

theorem usage_setValue {v : Value} (h : setValue id v t = .ok ⟨⟩ t') (j : SymbolId) :
    (t'.symbol j).usage = (t.symbol j).usage := by
  obtain ⟨-, rfl⟩ := setValue_eq_ok h
  exact symbol_modifySymbol_congr Symbol.usage (Symbol.usage_setValue v _) j

theorem usage_setCode {d : Definition} (h : setCode id d t = .ok ⟨⟩ t') (j : SymbolId) :
    (t'.symbol j).usage = (t.symbol j).usage := by
  obtain ⟨-, rfl⟩ := setCode_eq_ok h
  exact symbol_modifySymbol_congr Symbol.usage (Symbol.usage_modifyRoutine _ _) j

theorem usage_useAll {ids : List SymbolId} (hids : ∀ i ∈ ids, t.Has i) (j : SymbolId) :
    ((t.useAll ids).symbol j).usage = (t.symbol j).usage + ids.count j := by
  rw [symbol_useAll hids]

theorem Live.usage_read (ht : t.Live) (hd : declare .anywhere name .var line {} t = .ok id t')
    {i : SymbolId} (hc : countUsage name (some .var) t' = .ok i t'') (j : SymbolId) :
    (t''.symbol j).usage = (t.symbol j).usage + if id = j then 1 else 0 := by
  have hid := ht.sound.isVar_declare hd
  obtain ⟨hi, hc⟩ := countUsage_eq_ok hc
  obtain rfl : id = i := by simpa [ht.sound.resolve_declare hd] using hi
  obtain rfl := hid.useAll hc
  rw [usage_useAll (by simpa using hid.1), usage_declare rfl hd, List.count_singleton]
  simp only [beq_iff_eq]

end Usage

structure Divided (t : Table) (n : Nat) : Prop where
  has : ∀ {id}, id.index < n → t.Has id
  library : ∀ {id m}, id.index < n → m ∈ t.dependencies id → m.index < n
  params : ∀ {id m}, n ≤ id.index → m ∈ t.dependencies id →
    (t.symbol m).scope.toUpper = ("@" ++ (t.symbol id).name).toUpper
  aliases : ∀ {id target}, t.alias? id = some target → ∃ callee, callee.index < n ∧
    t.IsRoutine target callee
  primitives : ∀ name ∈ ["RANDOM", "PRINT", "TYPEIN"], ∃ id, id.index < n ∧
    t.IsRoutine name id
  defined : ∀ {id}, id.index < n → (t.symbol id).cls = .routine →
    (t.symbol id).line.isSome ∨ (t.symbol id).flags.library

theorem Divided.extends (h : t.Divided n) (ht : t.Live) (he : t.Extends ms t') : t'.Divided n where
  has hid := he.has (h.has hid)
  library {id m} hid hm := by
    rw [he.dependencies (h.has hid)] at hm
    exact h.library hid hm
  params {id m} hid hm := by
    by_cases hhas : t.Has id
    · rw [he.dependencies hhas] at hm
      rw [(he.grows (ht.isVar hm).1).scope, (he.grows hhas).name]
      exact h.params hid hm
    · simp [he.dependencies_of_not_has hhas] at hm
  aliases {id target} halias := by
    by_cases hhas : t.Has id
    · rw [he.alias? hhas] at halias
      exact (h.aliases halias).imp fun _ ⟨hlt, hcallee⟩ => ⟨hlt, he.isRoutine hcallee⟩
    · simp [he.alias?_of_not_has hhas] at halias
  primitives name hname := (h.primitives name hname).imp fun _ ⟨hlt, hid⟩ =>
    ⟨hlt, he.isRoutine hid⟩
  defined {id} hid hcls := by
    have hgrows := he.grows (h.has hid)
    exact (h.defined hid (hgrows.cls.symm.trans hcls)).imp hgrows.line hgrows.library

namespace Divided

theorem gives {r : Routine} (h : t.Divided n) (ht : t.Live) (hg : t.Gives id r t')
    (hid : n ≤ id.index) (halias : r.aliasOf = none)
    (hr : ∀ m ∈ r.params ++ r.uses, (t'.symbol m).scope.toUpper =
      ("@" ++ (t'.symbol id).name).toUpper) :
    t'.Divided n := by
  have hroutine {i : SymbolId} (hi : i ≠ id) : (t'.symbol i).routine? = (t.symbol i).routine? :=
    (hg.routine i).trans (if_neg hi)
  have hself : (t'.symbol id).routine? = some r := (hg.routine id).trans (if_pos rfl)
  have hlt {i : SymbolId} (hi : i.index < n) : i ≠ id := by
    rintro rfl
    exact Nat.not_lt.2 hid hi
  refine ⟨fun hi => hg.has (h.has hi), fun {i m} hi hm => ?_, fun {i m} hi hm => ?_,
    fun {i target} hi => ?_, fun name hname => ?_, fun {i} hi hcls => ?_⟩
  · rw [dependencies, hroutine (hlt hi)] at hm
    exact h.library hi hm
  · by_cases hi' : i = id
    · subst hi'
      rw [dependencies, hself] at hm
      exact hr m hm
    · rw [dependencies, hroutine hi'] at hm
      rw [(hg.grows (ht.isVar hm).1).scope, (hg.grows (has_of_mem_dependencies hm)).name]
      exact h.params hi hm
  · by_cases hi' : i = id
    · subst hi'
      simp [alias?, hself, halias] at hi
    · rw [alias?, hroutine hi'] at hi
      obtain ⟨callee, hlt, hcallee⟩ := h.aliases hi
      exact ⟨callee, hlt, hg.isRoutine hcallee⟩
  · obtain ⟨i, hlt, hi⟩ := h.primitives name hname
    exact ⟨i, hlt, hg.isRoutine hi⟩
  · have hgrows := hg.grows (h.has hi)
    exact (h.defined hi (hgrows.cls.symm.trans hcls)).imp hgrows.line hgrows.library

theorem usage_call (h : t.Divided n) (ht : t.Live) (hname : Dotless name)
    (hc : countUsage name (some .routine) t = .ok id t') (hj : n ≤ j.index) :
    t.IsRoutine name id ∧
      (t'.symbol j).usage = (t.symbol j).usage + (if id = j then 1 else 0) +
      (t.dependencies id).count j := by
  obtain ⟨hid, hc⟩ := countUsage_eq_ok hc
  have hid' : t.IsRoutine name id := ht.sound.resolve_some hname hid
  refine ⟨hid', ?_⟩
  have hhas {i : SymbolId} : ∀ m ∈ t.dependencies i, t.Has m := fun m hm => (ht.isVar hm).1
  rcases ht.countUse_eq_ok hid'.1 hc with ⟨-, rfl⟩ | ⟨target, callee, halias, hcallee, rfl⟩
  · rw [usage_useAll (by simpa using ⟨hid'.1, hhas⟩), List.count_cons]
    simp only [beq_iff_eq]
    omega
  · -- an alias depends on nothing, and what it is an alias of belongs to the library
    obtain ⟨hdot, -, hnone, -⟩ := ht.aliases halias
    have hcallee' : t.IsRoutine target callee := ht.sound.resolve_some hdot hcallee
    obtain ⟨callee', hlt, hcallee''⟩ := h.aliases halias
    obtain rfl := ht.isRoutine_unique hcallee' hcallee''
    have hne : callee ≠ j := by
      rintro rfl
      exact Nat.not_lt.2 hj hlt
    have hdeps : j ∉ t.dependencies callee := fun hm => Nat.not_lt.2 hj (h.library hlt hm)
    rw [usage_useAll (by simpa using ⟨hid'.1, hcallee'.1, hhas⟩), hnone, List.count_cons,
      List.count_cons_of_ne hne, List.count_eq_zero.2 hdeps]
    simp only [beq_iff_eq, List.count_nil]
    omega

theorem dotless_primitive (h : name ∈ ["RANDOM", "PRINT", "TYPEIN"]) : Dotless name := by
  simp only [List.mem_cons, List.not_mem_nil, or_false] at h
  rcases h with rfl | rfl | rfl <;> decide

theorem usage_primitive (h : t.Divided n) (ht : t.Live)
    (hname : name ∈ ["RANDOM", "PRINT", "TYPEIN"])
    (hc : countUsage name (some .routine) t = .ok id t') (hj : n ≤ j.index) :
    (t'.symbol j).usage = (t.symbol j).usage := by
  obtain ⟨hid, husage⟩ := h.usage_call ht (dotless_primitive hname) hc hj
  obtain ⟨id', hlt, hid'⟩ := h.primitives name hname
  obtain rfl := ht.isRoutine_unique hid hid'
  have hne : id ≠ j := by
    rintro rfl
    exact Nat.not_lt.2 hj hlt
  rw [husage, if_neg hne, List.count_eq_zero.2 fun hm => Nat.not_lt.2 hj (h.library hlt hm),
    Nat.add_zero]

end Divided

structure Supplies (t : Table) (j : SymbolId) (f : String) (c : Nat) : Prop where
  count : ∀ {name id}, t.IsRoutine name id →
    (t.dependencies id).count j = if name.toUpper = f.toUpper then c else 0
  exists_of_ne : c ≠ 0 → ∃ id, t.IsRoutine f id

theorem Supplies.extends {f : String} {c : Nat} (h : t.Supplies j f c) (ht : t.Live)
    (he : t.Extends ms t') : t'.Supplies j f c where
  count {name id} hid := by
    by_cases hhas : t.Has id
    · have hgrows := he.grows hhas
      rw [he.dependencies hhas]
      exact h.count ⟨hhas, hgrows.cls.symm.trans hid.2.1, by rw [← hgrows.name, hid.2.2]⟩
    · -- a new routine does not have a name that was called for its parameters
      rw [he.dependencies_of_not_has hhas, List.count_nil]
      split
      · rename_i hname
        by_contra hne
        obtain ⟨i, hi⟩ := h.exists_of_ne (Ne.symm hne)
        have hid' : t'.IsRoutine f id := ⟨hid.1, hid.2.1, hid.2.2.trans hname⟩
        exact hhas ((ht.extends he).isRoutine_unique hid' (he.isRoutine hi) ▸ hi.1)
      · rfl
  exists_of_ne hne := (h.exists_of_ne hne).imp fun _ hid => he.isRoutine hid

theorem Supplies.of_not_mem (h : ∀ id, j ∉ t.dependencies id) (f : String) : t.Supplies j f 0 :=
  ⟨fun _ => by simp [List.count_eq_zero.2 (h _)], fun hne => absurd rfl hne⟩

theorem Divided.supplies {f : String} (h : t.Divided n) (ht : t.Live) (hj : n ≤ j.index)
    (hid : t.IsRoutine f id)
    (hscope : t.Has j → (t.symbol j).scope.toUpper = ("@" ++ f).toUpper) :
    t.Supplies j f ((t.dependencies id).count j) where
  count {name i} hi := by
    split
    · rename_i hname
      rw [ht.isRoutine_unique ⟨hi.1, hi.2.1, hi.2.2.trans hname⟩ hid]
    · rename_i hname
      refine List.count_eq_zero.2 fun hm => ?_
      rcases Nat.lt_or_ge i.index n with hlt | hle
      · exact Nat.not_lt.2 hj (h.library hlt hm)
      · have hscope' := (h.params hle hm).symm.trans (hscope (ht.isVar hm).1)
        rw [Lowering.toUpper_at, Lowering.toUpper_at, hi.2.2] at hscope'
        exact hname (by simpa using hscope')
  exists_of_ne _ := ⟨id, hid⟩

section Heeds

variable {m : Mention} {mentions : List Mention} {home : String → String} {f : String} {c : Nat}

theorem Heeds.extends (h : Heeds m t t') (ht : t.Live) (hname : ∀ x ∈ m.name?, IsName x) :
    ∃ ms, t.Extends ms t' := by
  cases h with
  | read hd hc => exact ⟨_, (ht.use_declared (hname _ rfl).dotless rfl hd hc).1⟩
  | write husage _ hd hset =>
    have he := Table.extends_declare (hname _ rfl).dotless husage (.inl rfl) hd
    rcases hset with rfl | ⟨v, -, hset⟩
    · exact ⟨_, he⟩
    · exact ⟨_, he.trans (Lowering.extends_setValue hset)⟩
  | call hd hc =>
    have he := ht.extends_declare (hname _ rfl).dotless hd
    obtain ⟨callee, -, he', -⟩ := (ht.extends he).use_callee (hname _ rfl).dotless hc
    exact ⟨_, he.trans he'⟩
  | primitive hword hc =>
    obtain ⟨callee, -, he, -⟩ := ht.use_callee (Divided.dotless_primitive hword) hc
    exact ⟨_, he⟩

theorem HeedsAll.extends (h : HeedsAll mentions t t') (ht : t.Live)
    (hnames : ∀ m ∈ mentions, ∀ x ∈ m.name?, IsName x) : ∃ ms, t.Extends ms t' := by
  induction mentions generalizing t with
  | nil =>
    obtain rfl : t' = t := h
    exact ⟨_, .refl _⟩
  | cons m mentions ih =>
    obtain ⟨t₁, hm, h⟩ := h
    rw [List.forall_mem_cons] at hnames
    obtain ⟨_, he⟩ := hm.extends ht hnames.1
    obtain ⟨_, he'⟩ := ih h (ht.extends he) hnames.2
    exact ⟨_, he.trans he'⟩

theorem Edits.isAt {x : String} (h : t.Edits t') : t'.IsAt home x id ↔ t.IsAt home x id := by
  simp only [IsAt, IsVar, h.has, (h.symbol id).cls, (h.symbol id).scope, (h.symbol id).name]

theorem HeedsAll.leads (h : HeedsAll mentions t t') (ht : t.Live)
    (hnames : ∀ m ∈ mentions, ∀ x ∈ m.name?, IsName x) : t.Leads t' := by
  obtain ⟨_, he⟩ := h.extends ht hnames
  have hsteps : Steps (mentions.filterMap Mention.name?) True t t' :=
    h.steps (Source.var?_mem (List.Subset.refl _)) fun _ _ => trivial
  exact .of_extends he hsteps.value?_of_some

theorem HeedsAll.first (h : HeedsAll (m :: mentions) t t') (ht : t.Live)
    (hnames : ∀ m' ∈ m :: mentions, ∀ x ∈ m'.name?, IsName x) :
    ∃ t₁, Heeds m t t₁ ∧ HeedsAll mentions t₁ t' ∧ (∃ ms, t.Extends ms t₁) ∧
    t₁.Live ∧ t₁.Leads t' := by
  obtain ⟨t₁, hm, h⟩ := h
  rw [List.forall_mem_cons] at hnames
  obtain ⟨ms, he⟩ := hm.extends ht hnames.1
  exact ⟨t₁, hm, h, ⟨ms, he⟩, ht.extends he, h.leads (ht.extends he) hnames.2⟩

theorem Homes.heeds (h : t.Homes home) (hm : Heeds m t t') : t'.Homes home := by
  have hsteps : Steps m.name?.toList True t t' :=
    hm.steps (fun x hx => by simpa using m.name?_of_var? hx) fun _ _ => trivial
  exact h.steps hsteps

theorem Heeds.usage_routine (h : Heeds m t t') (ht : t.Live) (hdiv : t.Divided n)
    (hname : ∀ x ∈ m.name?, IsName x) (hleads : t'.Leads T) (hlive : T.Live)
    (hj : n ≤ j.index) (hroutine : T.IsRoutine name j) :
    (t'.symbol j).usage = (t.symbol j).usage + if m.isCall name then 1 else 0 := by
  cases h with
  | @read _ _ _ i _ _ _ hd hc =>
    have hne : i ≠ j := by
      rintro rfl
      have hvar := (ht.use_declared (hname _ rfl).dotless rfl hd hc).2.1
      simpa [hroutine.2.1] using (hleads.grows hvar.1).cls.trans hvar.2
    rw [ht.usage_read hd hc, if_neg hne]
    rfl
  | write husage _ hd hset =>
    rcases hset with rfl | ⟨v, -, hset⟩
    · exact usage_declare husage hd j
    · exact (usage_setValue hset j).trans (usage_declare husage hd j)
  | @call f _ i t₁ i' _ hd hc =>
    have he₁ := ht.extends_declare (hname _ rfl).dotless hd
    have ht₁ := ht.extends he₁
    obtain ⟨hi, husage⟩ := (hdiv.extends ht he₁).usage_call ht₁ (hname _ rfl).dotless hc hj
    have hi' : T.IsRoutine f i' := hleads.isRoutine ⟨(Counts.countUsage hc).has.2 hi.1,
      ((Counts.countUsage hc).symbol i').cls.trans
      hi.2.1, by rw [((Counts.countUsage hc).symbol i').name, hi.2.2]⟩
    have hiff : i' = j ↔ f.toUpper = name.toUpper := by
      refine ⟨?_,
        fun hf => hlive.isRoutine_unique ⟨hi'.1, hi'.2.1, hi'.2.2.trans hf⟩ hroutine⟩
      rintro rfl
      exact hi'.2.2.symm.trans hroutine.2.2
    have hcount : (t₁.dependencies i').count j = 0 := by
      refine List.count_eq_zero.2 fun hm => ?_
      have hvar := ht₁.isVar hm
      have hgrows :=
        ((Counts.countUsage hc).symbol j).trans (hleads.grows ((Counts.countUsage hc).has.2 hvar.1))
      simpa [hroutine.2.1] using hgrows.cls.trans hvar.2
    rw [husage, hcount, usage_declare rfl hd, Nat.add_zero]
    simp [Mention.isCall, hiff]
  | primitive hword hc => exact hdiv.usage_primitive ht hword hc hj

theorem Heeds.usage_var (h : Heeds m t t') (ht : t.Live) (hdiv : t.Divided n)
    (hhomes : t.Homes home) (hsupplies : t.Supplies j f c) (hname : ∀ x ∈ m.name?, IsName x)
    (hleads : t'.Leads T) (hlive : T.Live) (hj : n ≤ j.index) (hvar : T.IsVar j) :
    (t'.symbol j).usage = (t.symbol j).usage +
      (if (T.symbol j).scope = home (T.symbol j).name.toUpper ∧
        m.isRead (T.symbol j).name then 1 else 0) + if m.isCall f then c else 0 := by
  cases h with
  | @read x _ _ i _ _ _ hd hc =>
    have hi := hhomes.isAt_declare ht.sound (hname _ rfl).dotless rfl hd
    have hi' : T.IsAt home x.toUpper i := hleads.isAt ((Counts.countUsage hc).isAt.2 hi)
    have hiff : i = j ↔ (T.symbol j).scope = home (T.symbol j).name.toUpper ∧
        x.toUpper = (T.symbol j).name.toUpper := by
      constructor
      · rintro rfl
        exact ⟨by rw [hi'.2.1, hi'.2.2], hi'.2.2.symm⟩
      · rintro ⟨hscope, hx⟩
        exact hlive.sound.isAt_unique hi' ⟨hvar, by rw [hscope, hx], hx.symm⟩
    rw [ht.usage_read hd hc]
    simp [Mention.isRead, Mention.isCall, hiff]
  | write husage _ hd hset =>
    rcases hset with rfl | ⟨v, -, hset⟩
    · simpa [Mention.isRead, Mention.isCall] using usage_declare husage hd j
    · simpa [Mention.isRead, Mention.isCall] using
        (usage_setValue hset j).trans (usage_declare husage hd j)
  | @call g _ i t₁ i' _ hd hc =>
    have he₁ := ht.extends_declare (hname _ rfl).dotless hd
    have ht₁ := ht.extends he₁
    obtain ⟨hi, husage⟩ := (hdiv.extends ht he₁).usage_call ht₁ (hname _ rfl).dotless hc hj
    have hne : i' ≠ j := by
      rintro rfl
      have hgrows :=
        ((Counts.countUsage hc).symbol i').trans (hleads.grows ((Counts.countUsage hc).has.2 hi.1))
      simpa [hvar.2] using hgrows.cls.trans hi.2.1
    rw [husage, if_neg hne, (hsupplies.extends ht he₁).count hi, usage_declare rfl hd]
    simp [Mention.isRead, Mention.isCall]
  | primitive hword hc =>
    simpa [Mention.isRead, Mention.isCall] using hdiv.usage_primitive ht hword hc hj

theorem HeedsAll.usage_routine (h : HeedsAll mentions t t') (ht : t.Live) (hdiv : t.Divided n)
    (hnames : ∀ m ∈ mentions, ∀ x ∈ m.name?, IsName x) (hleads : t'.Leads T)
    (hlive : T.Live) (hj : n ≤ j.index) (hroutine : T.IsRoutine name j) :
    (t'.symbol j).usage = (t.symbol j).usage + callsOf name mentions := by
  induction mentions generalizing t with
  | nil =>
    obtain rfl : t' = t := h
    rfl
  | cons m mentions ih =>
    obtain ⟨t₁, hm, h, ⟨_, he⟩, ht₁, hleads₁⟩ := h.first ht hnames
    replace hleads₁ := hleads₁.trans hleads
    rw [List.forall_mem_cons] at hnames
    rw [ih h ht₁ (hdiv.extends ht he) hnames.2,
      hm.usage_routine ht hdiv hnames.1 hleads₁ hlive hj hroutine, callsOf,
      callsOf, List.countP_cons]
    omega

theorem HeedsAll.usage_var (h : HeedsAll mentions t t') (ht : t.Live) (hdiv : t.Divided n)
    (hhomes : t.Homes home) (hsupplies : t.Supplies j f c)
    (hnames : ∀ m ∈ mentions, ∀ x ∈ m.name?, IsName x) (hleads : t'.Leads T)
    (hlive : T.Live) (hj : n ≤ j.index) (hvar : T.IsVar j) :
    (t'.symbol j).usage = (t.symbol j).usage +
      (if (T.symbol j).scope = home (T.symbol j).name.toUpper then
        readsOf (T.symbol j).name mentions else 0) + c * callsOf f mentions := by
  induction mentions generalizing t with
  | nil =>
    obtain rfl : t' = t := h
    simp [readsOf, callsOf]
  | cons m mentions ih =>
    obtain ⟨t₁, hm, h, ⟨_, he⟩, ht₁, hleads₁⟩ := h.first ht hnames
    replace hleads₁ := hleads₁.trans hleads
    rw [List.forall_mem_cons] at hnames
    rw [ih h ht₁ (hdiv.extends ht he) (hhomes.heeds hm) (hsupplies.extends ht he) hnames.2,
      hm.usage_var ht hdiv hhomes hsupplies hnames.1 hleads₁ hlive hj hvar, readsOf, readsOf,
      callsOf, callsOf, List.countP_cons, List.countP_cons, Nat.mul_add]
    by_cases hscope : (T.symbol j).scope = home (T.symbol j).name.toUpper <;>
      by_cases hcall : m.isCall f <;> simp [hscope, hcall] <;> omega

theorem has_of_declare {reach : Reach} {cls : SymbolClass} {line : Option Nat} {f : Fields}
    (hd : declare reach name cls line f t = .ok id t') (hj : t'.Has j) : t.Has j ∨ j = id := by
  rcases declare_eq_ok hd with ⟨-, -, rfl⟩ | ⟨-, -, rfl, kind, -, rfl⟩
  · exact .inl (by simpa [Has, modifySymbol] using hj)
  · exact has_insertAt.1 hj

theorem Heeds.isAt (h : Heeds m t t') (ht : t.Live) (hhomes : t.Homes home)
    (hname : ∀ x ∈ m.name?, IsName x) :
    (∀ x ∈ m.var?, ∃ id, t'.IsAt home x.toUpper id) ∧
      ∀ {j}, t'.IsVar j → t.Has j ∨ ∃ x ∈ m.var?, t'.IsAt home x.toUpper j := by
  cases h with
  | @read x _ _ i _ _ _ hd hc =>
    have hi := hhomes.isAt_declare ht.sound (hname _ rfl).dotless rfl hd
    have hcounts := Counts.countUsage hc
    refine ⟨?_, fun hj => (has_of_declare hd (hcounts.has.1 hj.1)).imp_right ?_⟩
    · rintro _ ⟨⟩
      exact ⟨i, hcounts.isAt.2 hi⟩
    · rintro rfl
      exact ⟨x, rfl, hcounts.isAt.2 hi⟩
  | @write _ _ _ _ i t₁ _ husage _ hd hset =>
    have hi := hhomes.isAt_declare ht.sound (hname _ rfl).dotless husage hd
    have hedits : t₁.Edits t' := by
      rcases hset with rfl | ⟨v, -, hset⟩
      · exact .refl _
      · exact edits_setValue hset
    refine ⟨?_, fun hj => (has_of_declare hd (hedits.has.1 hj.1)).imp_right ?_⟩
    · rintro _ ⟨⟩
      exact ⟨i, hedits.isAt.2 hi⟩
    · rintro rfl
      exact ⟨_, rfl, hedits.isAt.2 hi⟩
  | @call f _ i _ _ _ hd hc =>
    have hcounts := Counts.countUsage hc
    refine ⟨by simp [Mention.var?],
      fun {j} hj => .inl ((has_of_declare hd (hcounts.has.1 hj.1)).resolve_right ?_)⟩
    rintro rfl
    have hcls := (ht.sound.declare_has hd).2.1
    simpa [hj.2] using (hcounts.symbol j).cls.trans hcls
  | primitive _ hc =>
    exact ⟨by simp [Mention.var?], fun hj => .inl ((Counts.countUsage hc).has.1 hj.1)⟩

theorem HeedsAll.isAt (h : HeedsAll mentions t t') (ht : t.Live) (hhomes : t.Homes home)
    (hnames : ∀ m ∈ mentions, ∀ x ∈ m.name?, IsName x) :
    (∀ x ∈ mentions.filterMap Mention.var?, ∃ id, t'.IsAt home x.toUpper id) ∧
      ∀ {j}, t'.IsVar j → t.Has j ∨
      ∃ x ∈ mentions.filterMap Mention.var?, t'.IsAt home x.toUpper j := by
  induction mentions generalizing t with
  | nil =>
    obtain rfl : t' = t := h
    exact ⟨by simp, fun hj => .inl hj.1⟩
  | cons m mentions ih =>
    obtain ⟨t₁, hm, h, -, ht₁, hleads⟩ := h.first ht hnames
    rw [List.forall_mem_cons] at hnames
    obtain ⟨hmem, hnew⟩ := hm.isAt ht hhomes hnames.1
    obtain ⟨hmem', hnew'⟩ := ih h ht₁ (hhomes.heeds hm) hnames.2
    have hvars {x : String} : x ∈ (m :: mentions).filterMap Mention.var? ↔
        x ∈ m.var? ∨ x ∈ mentions.filterMap Mention.var? := by
      simp [List.mem_filterMap]
    refine ⟨fun x hx => ?_, fun {j} hj => ?_⟩
    · rcases hvars.1 hx with hx | hx
      · exact (hmem x hx).imp fun _ hid => hleads.isAt hid
      · exact hmem' x hx
    · rcases hnew' hj with hhas | ⟨x, hx, hj'⟩
      · have hgrows := hleads.grows hhas
        rcases hnew ⟨hhas, hgrows.cls.symm.trans hj.2⟩ with hhas | ⟨x, hx, hj'⟩
        · exact .inl hhas
        · exact .inr ⟨x, hvars.2 (.inl hx), hleads.isAt hj'⟩
      · exact .inr ⟨x, hvars.2 (.inr hx), hj'⟩

end Heeds

end Table

end TurtleCompiler
