import Mathlib.Computability.StateTransition
import TurtleCompiler.Emit

/-!
A machine that runs code with labels. What it computes with is left open; a run is followed through
what is left of the code.
-/

namespace TurtleCompiler

def Jump.taken : Jump → Ordering → Bool
  | .always, _ => true
  | .less, o => o.isLT
  | .more, o => o.isGT
  | .zero, o => o.isEq
  | .nonzero, o => o.isNe

def Instr.label? : Instr → Option Label
  | .label l => some l
  | _ => none

def Instr.isPlain : Instr → Bool
  | .jump .. | .label _ => false
  | _ => true

def labelsIn (code : List Instr) : List Label := code.filterMap Instr.label?

@[simp] theorem labelsIn_nil : labelsIn [] = [] := rfl

@[simp] theorem labelsIn_append (a b : List Instr) :
    labelsIn (a ++ b) = labelsIn a ++ labelsIn b := by
  simp [labelsIn]

@[simp] theorem labelsIn_label (l : Label) (code : List Instr) :
    labelsIn (.label l :: code) = l :: labelsIn code := rfl

@[simp] theorem labelsIn_jump (j : Jump) (l : Label) (code : List Instr) :
    labelsIn (.jump j l :: code) = labelsIn code := rfl

@[simp] theorem labelsIn_load (x : String) (code : List Instr) :
    labelsIn (.load x :: code) = labelsIn code :=
  rfl

@[simp] theorem labelsIn_store (x : String) (code : List Instr) :
    labelsIn (.store x :: code) = labelsIn code := rfl

def fromLabel (l : Label) : List Instr → List Instr
  | [] => []
  | i :: code => if i.label? = some l then i :: code else fromLabel l code

variable {l : Label} {code rest : List Instr}

theorem fromLabel_eq_nil (h : l ∉ labelsIn code) : fromLabel l code = [] := by
  induction code with
  | nil => rfl
  | cons i code ih =>
    have hi : i.label? ≠ some l := by
      intro hi
      exact h (by simp [labelsIn, hi])
    have hcode : l ∉ labelsIn code := by
      intro hl
      obtain ⟨j, hj, hjl⟩ := List.mem_filterMap.1 hl
      exact h (List.mem_filterMap.2 ⟨j, List.mem_cons_of_mem _ hj, hjl⟩)
    simp [fromLabel, hi, ih hcode]

theorem fromLabel_append {a : List Instr} (h : l ∉ labelsIn a) (b : List Instr) :
    fromLabel l (a ++ b) = fromLabel l b := by
  induction a with
  | nil => rfl
  | cons i a ih =>
    have hi : i.label? ≠ some l := by
      intro hi
      exact h (by simp [labelsIn, hi])
    have ha : l ∉ labelsIn a := by
      intro hl
      obtain ⟨j, hj, hjl⟩ := List.mem_filterMap.1 hl
      exact h (List.mem_filterMap.2 ⟨j, List.mem_cons_of_mem _ hj, hjl⟩)
    simp [fromLabel, hi, ih ha]

inductive Control where
  | before (rest : List Instr)
  | away (l : Label)

def Control.goto (code : List Instr) (l : Label) : Control :=
  match fromLabel l code with
  | [] => .away l
  | rest => .before rest

theorem Control.goto_eq_away (h : l ∉ labelsIn code) : goto code l = .away l := by
  simp [goto, fromLabel_eq_nil h]

theorem Control.goto_eq_before (hcode : (labelsIn code).Nodup) (h : .label l :: rest <:+ code) :
    goto code l = .before (.label l :: rest) := by
  obtain ⟨a, rfl⟩ := h
  have ha : l ∉ labelsIn a := by
    intro hl
    simp only [labelsIn_append, labelsIn_label] at hcode
    exact (List.nodup_append.1 hcode).2.2 l hl l (by simp) rfl
  simp [goto, fromLabel_append ha, fromLabel, Instr.label?]

theorem Control.suffix_of_goto_eq_before (h : goto code l = .before rest) :
    ∃ rest', rest = .label l :: rest' ∧ rest <:+ code := by
  induction code with
  | nil => simp [goto, fromLabel] at h
  | cons i code ih =>
    by_cases hi : i.label? = some l
    · simp only [goto, fromLabel, hi, if_true, before.injEq] at h
      subst h
      cases i <;> simp_all [Instr.label?]
    · simp only [goto, fromLabel, hi, if_false] at h
      obtain ⟨rest', hrest, hcode⟩ := ih h
      exact ⟨rest', hrest, hcode.trans (List.suffix_cons i code)⟩

structure Machine (σ : Type) where
  exec : Instr → σ → Option σ
  order : σ → Ordering

namespace Machine

variable {σ : Type} (m : Machine σ) (code : List Instr)

def step : Control × σ → Option (Control × σ)
  | (.away _, _) => none
  | (.before [], _) => none
  | (.before (.jump j l :: rest), s) =>
    some (if j.taken (m.order s) then .goto code l else .before rest, s)
  | (.before (.label _ :: rest), s) => some (.before rest, s)
  | (.before (i :: rest), s) => (m.exec i s).map (.before rest, ·)

def Reaches (c c' : Control × σ) : Prop := StateTransition.Reaches (m.step code) c c'

variable {m code}

namespace Reaches

variable {c a b : Control × σ}

theorem refl : m.Reaches code c c := Relation.ReflTransGen.refl

theorem trans (h : m.Reaches code a b) (h' : m.Reaches code b c) : m.Reaches code a c :=
  Relation.ReflTransGen.trans h h'

theorem single {c' : Control × σ} (h : m.step code c = some c') : m.Reaches code c c' :=
  Relation.ReflTransGen.single h

theorem head (h : m.step code a = some b) (h' : m.Reaches code b c) : m.Reaches code a c :=
  (single h).trans h'

end Reaches

theorem Reaches.eq_of_step_eq_none {c d d' : Control × σ} (h : m.Reaches code c d)
    (h' : m.Reaches code c d') (hd : m.step code d = none)
    (hd' : m.step code d' = none) : d = d' := by
  have hmem : d ∈ StateTransition.eval (m.step code) c := StateTransition.mem_eval.2 ⟨h, hd⟩
  exact Part.mem_unique hmem (StateTransition.mem_eval.2 ⟨h', hd'⟩)

theorem step_of_isPlain {i : Instr} (h : i.isPlain) (rest : List Instr) (s : σ) :
    m.step code (.before (i :: rest), s) = (m.exec i s).map (.before rest, ·) := by
  cases i <;> simp_all [Instr.isPlain, step]

end Machine

end TurtleCompiler
