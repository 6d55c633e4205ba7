import TurtleCompiler.Proofs.CanonicalFloats
import TurtleCompiler.Proofs.TypedVariables

/-!
The first assignment of a constant to a variable, with an operator. The constant itself becomes the
initial value, whatever the operator is; the operation on zero has this value for an addition only,
unless the constant is zero.
-/

namespace TurtleCompiler

section Zero

open Float.Model UnpackedFloat

variable {u : UnpackedFloat} {s : UnpackedFloat.Sign} {p : Prop} {m line : Nat} {x : Float}
  {w v : Value} {op : ArithOp}

theorem compare_zero : u.compare (.zero s) = some .eq ↔ ∃ s, u = .zero s := by
  cases u with
  | notANumber | zero => simp [UnpackedFloat.compare]
  | infinity s | finite s => cases s <;> simp [UnpackedFloat.compare]

structure FromZero (p : Prop) (u v : UnpackedFloat) : Prop where
  canonical : Canonical v
  compare : v.isFinite → (u.compare v = some .eq ↔ p)

theorem fromZero_zero (u : UnpackedFloat) (s : UnpackedFloat.Sign) :
    FromZero (∃ s, u = .zero s) u (.zero s) :=
  ⟨trivial, fun _ => compare_zero⟩

theorem fromZero_notANumber (u : UnpackedFloat) : FromZero p u .notANumber :=
  ⟨trivial, fun h => absurd h Bool.false_ne_true⟩

theorem fromZero_infinity (u : UnpackedFloat) (s : UnpackedFloat.Sign) :
    FromZero p u (.infinity s) :=
  ⟨trivial, fun h => absurd h Bool.false_ne_true⟩

theorem compare_finite_self {e : Int} {hm : 0 < m} :
    (UnpackedFloat.finite s m e hm).compare (.finite s m e hm) = some .eq := by
  cases s <;> simp [UnpackedFloat.compare]

theorem compare_finite_neg {e : Int} {hm : 0 < m} :
    (UnpackedFloat.finite s m e hm).compare (.finite (-s) m e hm) ≠ some .eq := by
  cases s <;> simp [UnpackedFloat.compare]

theorem fromZero_add (hu : Canonical u) : FromZero True u (add .binary64 (.zero .positive) u) := by
  cases u with
  | notANumber => exact fromZero_notANumber _
  | infinity s => exact fromZero_infinity _ s
  | zero s => cases s <;> exact ⟨trivial, fun _ => iff_true_intro rfl⟩
  | finite s m e hm => exact ⟨hu, fun _ => iff_true_intro compare_finite_self⟩

theorem fromZero_sub (hu : Canonical u) :
    FromZero (∃ s, u = .zero s) u (sub .binary64 (.zero .positive) u) := by
  cases u with
  | notANumber => exact fromZero_notANumber _
  | infinity s => exact fromZero_infinity _ (-s)
  | zero s => cases s <;> exact fromZero_zero _ .positive
  | finite s m e hm => exact ⟨hu.neg, fun _ => iff_of_false compare_finite_neg (by simp)⟩

theorem fromZero_mul (u : UnpackedFloat) :
    FromZero (∃ s, u = .zero s) u (mul .binary64 (.zero .positive) u) := by
  cases u with
  | notANumber | infinity => exact fromZero_notANumber _
  | zero | finite => exact fromZero_zero _ _

theorem fromZero_div (u : UnpackedFloat) :
    FromZero (∃ s, u = .zero s) u (div .binary64 (.zero .positive) u) := by
  cases u with
  | notANumber | zero => exact fromZero_notANumber _
  | infinity | finite => exact fromZero_zero _ _

theorem FromZero.finite {v : UnpackedFloat} {y : Float} (h : FromZero p x.toModel.unpack v)
    (hy : y.toModel = .pack v) (hw : finite line y = .ok w) :
    ∃ y, w = .float y ∧ ((x == y) = true ↔ p) := by
  have hunpack : y.toModel.unpack = v := by rw [hy, unpack_pack h.canonical]
  unfold TurtleCompiler.finite at hw
  split at hw
  · rename_i hfinite
    refine ⟨y, (Except.ok.inj hw).symm, ?_⟩
    rw [float_beq_iff, hunpack]
    exact h.compare (hunpack ▸ hfinite)
  · simp at hw

theorem foldFloat_zero (hop : op ≠ .mod ∧ op ≠ .pow) (h : foldFloat line 0.0 x op = .ok w) :
    ∃ y, w = .float y ∧ ((x == y) = true ↔ op = .add ∨ (x == 0.0) = true) := by
  have hu := canonical_unpack x.toModel
  have hzero : (x == 0.0) = true ↔ ∃ s, x.toModel.unpack = .zero s :=
    float_beq_iff.trans compare_zero
  rw [hzero]
  cases op with
  | add => simpa using (fromZero_add hu).finite rfl h
  | sub => simpa using (fromZero_sub hu).finite rfl h
  | mul => simpa using (fromZero_mul _).finite rfl h
  | div =>
    simp only [foldFloat] at h
    split at h
    · simp at h
    · simpa using (fromZero_div _).finite rfl h
  | mod => exact absurd rfl hop.1
  | pow => exact absurd rfl hop.2

theorem widen_float (h : v.toFloat? = some x) : v.widen .float = .float x := by
  cases v <;> simp_all [Value.toFloat?, Value.widen]

theorem fold_float_zero (h : v.toFloat? = some x) :
    fold line op DataType.float.zero v = foldFloat line 0.0 x op := by
  cases v <;> simp_all [Value.toFloat?, fold, DataType.zero]

end Zero

namespace Symbol

variable {s : Symbol} {type : DataType}

theorem type?_merge (h : s.cls = .var) (line : Option Nat) :
    (s.merge line { type := some type }).2.type? = some type := by
  obtain ⟨name, line', usage, scope, fullName, v | r⟩ := s
  · rfl
  · simp [cls] at h

theorem type?_setValue (v : Value) (s : Symbol) : (s.setValue v).type? = s.type? := by
  obtain ⟨name, line, usage, scope, fullName, x | r⟩ := s <;> rfl

end Symbol

namespace Table

variable {t t' : Table} {id : SymbolId} {name : String} {reach : Reach} {line : Option Nat}
  {type : DataType}

theorem exists_declare_var (type : DataType) (line : Option Nat) :
    (∃ id t', declare .anywhere name .var line { type := some type } t = .ok id t') ↔
      t.scopes ≠ [] ∧ ∀ id ∈ t.resolve name none none, (t.symbol id).cls = .var := by
  constructor
  · rintro ⟨id, t', hd⟩
    rcases declare_eq_ok hd with ⟨hid, hcls, -⟩ | ⟨hid, hscopes, -⟩
    · refine ⟨fun hempty => ?_, fun j hj => ?_⟩
      · rw [declared_of_isEmpty (by simp [hempty])] at hid
        simp at hid
      · obtain rfl := Option.mem_unique hj hid
        exact hcls
    · refine ⟨hscopes, fun j hj => ?_⟩
      rw [declared] at hid
      simp [hid] at hj
  · rintro ⟨hscopes, hcls⟩
    cases hd : declare .anywhere name .var line { type := some type } t with
    | ok id t' => exact ⟨id, t', rfl⟩
    | error e t' =>
      rcases declare_of_error hd with ⟨_, -, -, hmisfits, -⟩ | ⟨hne, -⟩
      · exact absurd hmisfits Bool.false_ne_true
      · have hid : t.declared .anywhere name = none :=
          Option.eq_none_iff_forall_not_mem.2 fun id hid => hne id hid (hcls id hid)
        simp only [declare, get_bind] at hd
        rw [if_neg (by simpa using hscopes)] at hd
        simp only [hid] at hd
        cases hd

theorem Tidy.type?_declare (h : t.Tidy)
    (hd : Table.declare reach name .var line { type := some type } t = .ok id t') :
    (t'.symbol id).type? = some type := by
  rcases declare_eq_ok hd with ⟨hid, hcls, rfl⟩ | ⟨-, -, rfl, kind, hkind, rfl⟩
  · rw [symbol_modifySymbol (h.declared hid), if_pos rfl]
    exact Symbol.type?_merge hcls line
  · obtain rfl := Except.ok.inj hkind
    rw [symbol_insertAt, if_pos rfl]
    rfl

theorem Tidy.setValue_declare (h : t.Tidy) (hreach : reach ≠ .innermost)
    (hd : Table.declare reach name .var line { type := some type } t = .ok id t') (v : Value) :
    (t'.modifySymbol id (·.setValue v)).resolve name none (some .var) = some id ∧
      ((t'.modifySymbol id (·.setValue v)).symbol id).type? = some type ∧
      (t'.modifySymbol id (·.setValue v)).value? id = some v := by
  obtain ⟨-, hhas, hcls⟩ := h.but_declare hd
  have hsymbol : (t'.modifySymbol id (·.setValue v)).symbol id = (t'.symbol id).setValue v := by
    rw [symbol_modifySymbol hhas, if_pos rfl]
  have hresolve : (t'.modifySymbol id (·.setValue v)).resolve name none none = some id := by
    rw [Table.resolve_none]
    exact (Table.resolve_none t' name).symm.trans (resolve_none_declare hreach hd)
  refine ⟨?_, ?_, ?_⟩
  · have hvar : ((t'.symbol id).setValue v).cls = .var :=
      (Symbol.grows_setValue v _).cls.trans hcls
    exact hvar ▸ hsymbol ▸ resolve_some_of_resolve_none hresolve
  · rw [hsymbol, Symbol.type?_setValue, h.type?_declare hd]
  · rw [value?, hsymbol]
    exact Symbol.value?_setValue hcls v

end Table

namespace Lowering

variable {s s' : Lowering} {name text : String} {line : Nat} {op : ArithOp} {rhs : Expr}
  {id : SymbolId}

def IsUnset (s : Lowering) (name : String) : Prop :=
  ∀ id ∈ s.table.resolve name none (some .var), s.table.value? id = none ∧
  s.isParameter id = false

instance : Decidable (s.IsUnset name) :=
  inferInstanceAs (Decidable (∀ id ∈ s.table.resolve name none (some .var), _))

theorem assignedType_of_isUnset (hs : s.Tidy) (h : s.IsUnset name) {rhs : DataType}
    (hrhs : rhs.isNumeric) : assignedType name (some op) rhs line s = .ok .float s := by
  have hcurrent :
      ((s.table.resolve name none (some .var)).bind fun id => (s.table.symbol id).type?) =
      none := by
    rw [Option.bind_eq_none_iff]
    intro id hid
    exact (hs.symbol id).type?_eq_none (hs.resolve_var hid).2 (h id hid).1
  simp only [assignedType, Option.isNone_some, Bool.false_eq_true, if_false, bind_eq_ok, get_eq_ok,
    ofExcept_eq_ok, pure_eq_ok]
  refine ⟨s, s, ⟨rfl, rfl⟩, ⟨⟩, s, ⟨by rw [hcurrent]; rfl, rfl⟩, ⟨⟩, s,
    ⟨by simp [checkNumeric, hrhs], rfl⟩, ?_, rfl⟩
  rw [hcurrent]
  rfl

theorem isUnset_declare (hs : s.Tidy) (h : s.IsUnset name) {line : Option Nat} {f : Fields}
    (hf : f.value = none) {t : Table}
    (hd : Table.declare .anywhere name .var line f s.table = .ok id t) :
    t.value? id = none ∧ (s.setTable t).isParameter id = false := by
  have hparameter : (s.setTable t).isParameter id = s.isParameter id := by
    simp only [isParameter, table_setTable, Table.routine?_declare hd]
    rfl
  rw [Table.value?_declare hf hd, hparameter]
  rcases Table.declare_eq_ok hd with ⟨hid, hcls, -⟩ | ⟨-, -, rfl, -⟩
  · exact h id (hcls ▸ Table.resolve_some_of_resolve_none hid)
  · have hnew : ¬ s.table.Has ⟨s.table.symbols.size⟩ := Nat.lt_irrefl _
    refine ⟨Table.value?_of_not_has hnew, Bool.eq_false_iff.2 fun hparam => hnew ?_⟩
    simp only [isParameter, Option.any_eq_true, Option.map_eq_some_iff,
      Option.bind_eq_some_iff] at hparam
    obtain ⟨_, ⟨r, ⟨f, -, hr⟩, rfl⟩, hmem⟩ := hparam
    exact (hs.symbol f).params r hr _ (of_decide_eq_true hmem)

theorem assignment_of_isUnset (hs : s.Tidy) (h : s.IsUnset name) (htext : text ≠ "=")
    (hop : compoundOp? text = some op) (hnumeric : rhs.dataType.isNumeric) {v : Value}
    (hv : rhs.value? = some v) {t : Table}
    (hd : Table.declare .anywhere name .var (some line) { type := some .float } s.table =
      .ok id t) :
    assignment name text rhs line s =
    .ok .noOp (s.setTable (t.modifySymbol id (·.setValue (v.widen .float)))) := by
  obtain ⟨hvalue, hparameter⟩ := isUnset_declare hs h rfl hd
  obtain ⟨-, -, hcls⟩ := hs.but_declare hd
  have hset : Table.setValue id (v.widen .float) t =
      .ok ⟨⟩ (t.modifySymbol id (·.setValue (v.widen .float))) := by
    simp [Table.setValue, bind_eq_ok, hcls]
  simp only [assignment, if_neg htext, hop, bind_eq_ok, get_eq_ok, Option.isNone_some,
    Bool.and_false, Bool.false_eq_true, if_false]
  refine ⟨.float, s, assignedType_of_isUnset hs h hnumeric, id, s.setTable t,
    ofTable_eq_ok.2 ⟨t, hd, rfl⟩, _, _, ⟨rfl, rfl⟩, ?_⟩
  rw [table_setTable, ← Table.value?, hvalue, hparameter, hv]
  exact bind_eq_ok.2 ⟨⟨⟩, _, ofTable_eq_ok.2 ⟨_, hset, rfl⟩,
    pure_eq_ok.2 ⟨rfl, rfl⟩⟩

def compoundSigns : List (String × ArithOp) :=
  [("+=", .add), ("-=", .sub), ("*=", .mul), ("/=", .div)]

theorem compoundOp?_of_mem (h : (text, op) ∈ compoundSigns) :
    text ≠ "=" ∧ compoundOp? text = some op ∧ op ≠ .mod ∧ op ≠ .pow := by
  simp only [compoundSigns, List.mem_cons, Prod.mk.injEq, List.not_mem_nil, or_false] at h
  rcases h with ⟨rfl, rfl⟩ | ⟨rfl, rfl⟩ | ⟨rfl, rfl⟩ | ⟨rfl, rfl⟩ <;> decide

/-- In whatever state of a lowering, a first compound assignment of a constant fails only for want
of a scope, or if the name is a routine's. It emits nothing, and the variable starts with the
constant itself. This is what the operation gives from zero if and only if it is an addition, or the
constant is zero. -/
theorem value_of_first_assignment (line : Nat) (hs : s.IsReachable)
    (hop : (text, op) ∈ compoundSigns) (hname : s.IsUnset name) {v : Value} {x : Float}
    (hrhs : rhs.value? = some v) (hnumeric : rhs.dataType.isNumeric) (hx : v.toFloat? = some x) :
    ((∃ node s', assignment name text rhs line s = .ok node s') ↔
        s.table.scopes ≠ [] ∧
        ∀ id ∈ s.table.resolve name none none, (s.table.symbol id).cls = .var) ∧
      ∀ node s', assignment name text rhs line s = .ok node s' → node = .noOp ∧
        ∃ id, s'.table.resolve name none (some .var) = some id ∧
          (s'.table.symbol id).type? = some .float ∧ s'.table.value? id = some (.float x) ∧
          ∀ line' w, fold line' op DataType.float.zero v = .ok w →
            ∃ y, w = .float y ∧ ((x == y) = true ↔ op = .add ∨ (x == 0.0) = true) := by
  have htidy := hs.tidy
  obtain ⟨htext, hcompound, hmod, hpow⟩ := compoundOp?_of_mem hop
  have hrun {id : SymbolId} {t : Table}
      (hd : Table.declare .anywhere name .var (some line) { type := some .float } s.table =
        .ok id t) :=
    assignment_of_isUnset htidy hname htext hcompound hnumeric hrhs hd
  have hdeclare {node : Node} {s' : Lowering} (h : assignment name text rhs line s = .ok node s') :
      ∃ id t, Table.declare .anywhere name .var (some line) { type := some .float } s.table =
      .ok id t := by
    obtain ⟨compound, type, id, t, -, hcase, htype, hd, -⟩ := assignment_eq_ok h
    obtain ⟨-, hsome, -⟩ := hcase.resolve_left fun h => htext h.1
    obtain rfl : some op = compound := hcompound.symm.trans hsome
    cases htype.symm.trans (assignedType_of_isUnset htidy hname hnumeric)
    exact ⟨id, t, hd⟩
  refine ⟨⟨?_, fun h => ?_⟩, fun node s' h => ?_⟩
  · rintro ⟨node, s', h⟩
    exact (Table.exists_declare_var _ _).1 (hdeclare h)
  · obtain ⟨id, t, hd⟩ := (Table.exists_declare_var .float (some line)).2 h
    exact ⟨_, _, hrun hd⟩
  · obtain ⟨id, t, hd⟩ := hdeclare h
    cases h.symm.trans (hrun hd)
    obtain ⟨hresolve, htype, hvalue⟩ := htidy.setValue_declare (by simp) hd (v.widen .float)
    refine ⟨rfl, id, hresolve, htype, hvalue.trans (congrArg some (widen_float hx)),
      fun line' w hfold => ?_⟩
    exact foldFloat_zero ⟨hmod, hpow⟩ ((fold_float_zero hx).symm.trans hfold)

theorem exists_reachable (actions : List Action) (p : Lowering → Prop)
    (h : ∃ r ∈ outcome? setup {}, p (takeAll { toWorkspace := r.2, entry := r.1 } actions)) :
    ∃ s, s.IsReachable ∧ p s := by
  obtain ⟨entry, w, hsetup, hp⟩ :=
    exists_outcome setup {} (fun entry w => p (takeAll { toWorkspace := w, entry } actions)) h
  exact ⟨_, ⟨entry, w, actions, hsetup, rfl⟩, hp⟩

def readingActions : List Action := [
  .beginProcedure "F" 1 ["Y"],
  .reference "X" 2,
  .assignment "F" "=" (.const (.int 1)) 3]

theorem value_of_first_assignment_after_reading :
    ∃ s : Lowering, s.IsReachable ∧ s.table.depth = 2 ∧ s.IsUnset "X" ∧
    (s.table.resolve "X" none none).isSome ∧
    ∃ s' id, assignment "X" "+=" (.const (.int 5)) 4 s = .ok .noOp s' ∧
      s'.table.resolve "X" none (some .var) = some id ∧
      (s'.table.symbol id).type? = some .float ∧
      s'.table.value? id = some (.float (Float.ofInt 5)) ∧
      fold 4 .add DataType.float.zero (.int 5) = .ok (.float (0.0 + Float.ofInt 5)) ∧
      (Float.ofInt 5 == 0.0 + Float.ofInt 5) = true := by
  obtain ⟨s, hs, hdepth, hname, hsome, hvar⟩ := exists_reachable readingActions
    (fun s => s.table.depth = 2 ∧ s.IsUnset "X" ∧ (s.table.resolve "X" none none).isSome ∧
      s.table.scopes ≠ [] ∧ ∀ id ∈ s.table.resolve "X" none none, (s.table.symbol id).cls =
      .var) (by decide +kernel)
  have hrhs : (Expr.const (.int 5)).value? = some (.int 5) := rfl
  have hop : ("+=", ArithOp.add) ∈ compoundSigns := by decide
  have hfinite : (0.0 + Float.ofInt 5).isFinite = true := by decide +kernel
  have hfold : fold 4 .add DataType.float.zero (.int 5) = .ok (.float (0.0 + Float.ofInt 5)) :=
    (fold_float_zero rfl).trans (if_pos hfinite)
  have hfirst := value_of_first_assignment 4 hs hop hname hrhs rfl rfl
  obtain ⟨node, s', h⟩ := hfirst.1.2 hvar
  obtain ⟨rfl, id, hresolve, htype, hvalue, hzero⟩ := hfirst.2 node s' h
  obtain ⟨y, hy, hequal⟩ := hzero 4 _ hfold
  cases hy
  exact ⟨s, hs, hdepth, hname, hsome, s', id, h, hresolve, htype, hvalue, hfold,
    hequal.2 (.inl rfl)⟩

/-- A new variable that is multiplied starts with the factor, and not with zero. -/
theorem factor_of_new_variable :
    ∃ (s s' : Lowering) (id : SymbolId) (x y : Float), s.IsReachable ∧ s.IsUnset "X" ∧
    assignment "X" "*=" (.const (.int 5)) 1 s = .ok .noOp s' ∧
    s'.table.resolve "X" none (some .var) = some id ∧
    (s'.table.symbol id).type? = some .float ∧ s'.table.value? id = some (.float x) ∧
    fold 1 .mul DataType.float.zero (.int 5) = .ok (.float y) ∧ (x == y) = false := by
  obtain ⟨s, hs, hname, hvar⟩ := exists_reachable [] (fun s => s.IsUnset "X" ∧
    s.table.scopes ≠ [] ∧ ∀ id ∈ s.table.resolve "X" none none, (s.table.symbol id).cls =
    .var) (by decide +kernel)
  have hrhs : (Expr.const (.int 5)).value? = some (.int 5) := rfl
  have hfinite : (0.0 * Float.ofInt 5).isFinite = true := by decide +kernel
  obtain ⟨id, t, hd⟩ := (Table.exists_declare_var .float (some 1)).2 hvar
  obtain ⟨hresolve, htype, hvalue⟩ :=
    hs.tidy.setValue_declare (by simp) hd ((Value.int 5).widen .float)
  exact ⟨s, _, id, Float.ofInt 5, 0.0 * Float.ofInt 5, hs, hname,
    assignment_of_isUnset hs.tidy hname (by decide) (by decide : compoundOp? "*=" = some .mul)
    rfl hrhs hd, hresolve, htype, hvalue,
    (fold_float_zero rfl).trans (if_pos hfinite), by decide +kernel⟩

end Lowering

end TurtleCompiler
