import TurtleCompiler.Proofs.Command
import TurtleCompiler.Proofs.Legibility

/-!
Code as it is known from its text. A machine has to read the constants of a listing back; the code
with what it reads in their place runs like the one that was written, as long as it takes what it
reads for what was written.
-/

namespace TurtleCompiler

section

variable (read : String → Value)

def Instr.reread : Instr → Instr
  | .push v => .push (read v.text)
  | i => i

def Control.reread : Control → Control
  | .before rest => .before (rest.map (.reread read))
  | .away l => .away l

end

def constantsIn (code : List Instr) : List Value :=
  code.filterMap fun
    | .push v => some v
    | _ => none

theorem mem_constantsIn {v : Value} {code : List Instr} :
    v ∈ constantsIn code ↔ .push v ∈ code := by
  rw [constantsIn, List.mem_filterMap]
  constructor
  · rintro ⟨i, hi, hv⟩
    cases i <;> cases hv
    exact hi
  · exact fun h => ⟨_, h, rfl⟩

variable {read : String → Value} {code : List Instr} {l : Label}

theorem reread_eq_self (h : ∀ v ∈ constantsIn code, read v.text = v) :
    code.map (.reread read) = code := by
  conv_rhs => rw [← List.map_id code]
  refine List.map_congr_left fun i hi => ?_
  cases i with
  | push v => exact congrArg Instr.push (h v (mem_constantsIn.2 hi))
  | _ => rfl

@[simp] theorem Instr.label?_reread (i : Instr) : (i.reread read).label? = i.label? := by
  cases i <;> rfl

theorem fromLabel_reread :
    fromLabel l (code.map (.reread read)) = (fromLabel l code).map (.reread read) := by
  induction code with
  | nil => rfl
  | cons i code ih =>
    simp only [List.map_cons, fromLabel, Instr.label?_reread, ih]
    split <;> rfl

theorem Control.goto_reread : goto (code.map (.reread read)) l = (goto code l).reread read := by
  rw [goto, goto, fromLabel_reread]
  cases fromLabel l code <;> rfl

theorem Control.reread_eq_end {c : Control} : c.reread read = .before [] ↔ c = .before [] := by
  cases c <;> simp [reread]

def Control.Within (code : List Instr) : Control → Prop
  | .before rest => rest <:+ code
  | .away _ => True

theorem Control.within_goto : (goto code l).Within code := by
  cases h : goto code l with
  | away => trivial
  | before rest =>
    obtain ⟨_, -, hsuffix⟩ := suffix_of_goto_eq_before h
    exact hsuffix

namespace Machine

variable {σ : Type} {m : Machine σ} {c d : Control × σ} {s s' : σ}

theorem within_step (h : m.step code c = some d) (hc : c.1.Within code) : d.1.Within code := by
  unfold step at h
  split at h
  · cases h
  · cases h
  · cases h
    dsimp only
    split
    · exact Control.within_goto
    · exact (List.suffix_cons ..).trans hc
  · cases h
    exact (List.suffix_cons ..).trans hc
  · obtain ⟨s', -, rfl⟩ := Option.map_eq_some_iff.1 h
    exact (List.suffix_cons ..).trans hc

theorem Reaches.within (h : m.Reaches code (.before code, s) d) : d.1.Within code := by
  induction h with
  | refl => exact List.suffix_rfl
  | tail _ hstep ih => exact within_step hstep ih

section

variable (h : ∀ i ∈ code, m.exec (i.reread read) = m.exec i)

include h

theorem step_reread (hc : c.1.Within code) :
    m.step (code.map (.reread read)) (c.1.reread read, c.2) =
      (m.step code c).map fun d => (d.1.reread read, d.2) := by
  obtain ⟨control, s⟩ := c
  match control, hc with
  | .away _, _ | .before [], _ => rfl
  | .before (i :: rest), hc =>
    have hexec := h i (hc.subset List.mem_cons_self)
    cases i with
    | jump j l =>
      simp only [Control.reread, Instr.reread, List.map_cons, step, Control.goto_reread,
        Option.map_some]
      split <;> rfl
    | label l => rfl
    | _ =>
      simp only [Control.reread, List.map_cons, Instr.reread] at hexec ⊢
      simp [step, hexec, Function.comp_def]

theorem reaches_reread :
    m.Reaches (code.map (.reread read)) (.before (code.map (.reread read)), s) d ↔
      ∃ d', m.Reaches code (.before code, s) d' ∧ d = (d'.1.reread read, d'.2) := by
  constructor
  · intro hreaches
    induction hreaches with
    | refl => exact ⟨_, .refl, rfl⟩
    | tail _ hstep ih =>
      obtain ⟨d', hd', rfl⟩ := ih
      rw [step_reread h hd'.within] at hstep
      obtain ⟨e, he, rfl⟩ := Option.map_eq_some_iff.1 hstep
      exact ⟨e, hd'.trans (.single he), rfl⟩
  · rintro ⟨d', hreaches, rfl⟩
    induction hreaches with
    | refl => exact .refl
    | tail hreaches hstep ih =>
      refine ih.trans (.single ?_)
      rw [step_reread h (Reaches.within hreaches), hstep]
      rfl

theorem through_reread : m.Through (code.map (.reread read)) s s' ↔ m.Through code s s' := by
  refine (reaches_reread h).trans ⟨?_, fun hthrough => ⟨_, hthrough, rfl⟩⟩
  rintro ⟨⟨c, _⟩, hreaches, heq⟩
  obtain ⟨hc, rfl⟩ := Prod.mk.inj heq
  obtain rfl := Control.reread_eq_end.1 hc.symm
  exact hreaches

end

end Machine

namespace Processor

variable (p : Processor)

/-- What is read from the texts of some constants is taken for those constants. -/
def Reads (read : String → Value) (vs : List Value) : Prop :=
  ∀ v ∈ vs, p.constant (read v.text) = p.constant v

theorem exists_reads (htruth : ∀ b, p.truth b = .int (if b then 0 else 1)) :
    ∃ read, ∀ vs, (∀ v ∈ vs, v.IsLegible) → p.Reads read vs := by
  have hplain (v : Value) : p.constant v.plain = p.constant v := by
    cases v with
    | bool b => exact (htruth b).symm
    | int | float | str => rfl
  obtain ⟨read, hread⟩ := Value.exists_reader
  exact ⟨read, fun vs hvs v hv => by rw [hread v (hvs v hv), hplain]⟩

variable {p} {s : Vm}

theorem exec_reread (h : p.Reads read (constantsIn code)) :
    ∀ i ∈ code, p.exec (i.reread read) = p.exec i := by
  intro i hi
  cases i with
  | push v =>
    funext s
    simp only [Instr.reread, exec, h v (mem_constantsIn.2 hi)]
  | _ => rfl

theorem sameOutput_reread (h : p.Reads read (constantsIn code)) :
    (p.execution (code.map (.reread read)) s).SameOutput (p.execution code s) := by
  have hreaches {d : Control × Vm} := p.machine.reaches_reread (d := d) (s := s) (exec_reread h)
  refine ⟨fun vs => ⟨?_, ?_⟩, fun vs => ⟨?_, ?_⟩⟩
  · rintro ⟨d, hd, hvs⟩
    obtain ⟨d', hd', rfl⟩ := hreaches.1 hd
    exact ⟨d', hd', hvs⟩
  · rintro ⟨d, hd, hvs⟩
    exact ⟨_, hreaches.2 ⟨d, hd, rfl⟩, hvs⟩
  · rintro ⟨d, hd, hdone, hvs⟩
    obtain ⟨d', hd', rfl⟩ := hreaches.1 hd
    exact ⟨d', hd', Control.reread_eq_end.1 hdone, hvs⟩
  · rintro ⟨⟨_, _⟩, hd, rfl, hvs⟩
    exact ⟨_, hreaches.2 ⟨_, hd, rfl⟩, rfl, hvs⟩

end Processor

end TurtleCompiler
