import TurtleCompiler.Listing
import TurtleCompiler.Proofs.Naming
import TurtleCompiler.Symbol.Table

/-!
Texts of one line: names, numbers, and what a template makes of such texts.
-/

namespace TurtleCompiler

def IsOneLine (s : String) : Prop := '\n' ∉ s.toList

instance (s : String) : Decidable (IsOneLine s) := inferInstanceAs (Decidable (_ ∉ _))

@[simp] theorem isOneLine_append {s t : String} :
    IsOneLine (s ++ t) ↔ IsOneLine s ∧ IsOneLine t := by
  simp [IsOneLine, not_or]

variable {ss : List String}

theorem isOneLine_join (h : ∀ s ∈ ss, IsOneLine s) : IsOneLine (String.join ss) := by
  induction ss with
  | nil => decide
  | cons s ss ih =>
    rw [List.forall_mem_cons] at h
    rw [String.join_cons, isOneLine_append]
    exact ⟨h.1, ih h.2⟩

theorem isOneLine_intercalate {sep : String} (hsep : IsOneLine sep)
    (h : ∀ s ∈ ss, IsOneLine s) : IsOneLine (sep.intercalate ss) := by
  induction ss with
  | nil => simp [IsOneLine]
  | cons s ss ih =>
    rw [List.forall_mem_cons] at h
    cases ss with
    | nil => simpa using h.1
    | cons s' ss =>
      rw [String.intercalate_cons_cons, isOneLine_append, isOneLine_append]
      exact ⟨⟨h.1, hsep⟩, ih h.2⟩

theorem IsName.isOneLine {s : String} (h : IsName s) : IsOneLine s := by
  intro hbreak
  have hword := h.word _ hbreak
  revert hword
  decide

theorem newline_not_mem_toDigits (n : Nat) : '\n' ∉ Nat.toDigits 10 n := by
  intro hbreak
  have hdigit := Nat.isDigit_of_mem_toDigits (by decide) (by decide) hbreak
  revert hdigit
  decide

theorem isOneLine_repr (n : Nat) : IsOneLine n.repr := by
  rw [IsOneLine, Nat.toList_repr]
  exact newline_not_mem_toDigits n

theorem isOneLine_int (i : Int) : IsOneLine (toString i) := by
  cases i with
  | ofNat n => exact isOneLine_repr n
  | negSucc n => exact isOneLine_append.2 ⟨by decide, isOneLine_repr (n + 1)⟩

theorem Decimal.isOneLine_positional (d : Decimal) : IsOneLine d.positional := by
  have hdigits := newline_not_mem_toDigits d.digits
  have hzeros (n : Nat) : '\n' ∉ List.replicate n '0' := by simp
  unfold positional
  dsimp only
  split
  · simp [IsOneLine, hdigits]
  · have hpadded (n : Nat) :
        '\n' ∉ List.replicate n '0' ++ Nat.toDigits 10 d.digits := by simp [hdigits]
    simp only [IsOneLine, String.toList_ofList, List.mem_append, List.mem_cons, not_or]
    exact ⟨fun h => hpadded _ (List.mem_of_mem_take h), by decide,
      fun h => hpadded _ (List.mem_of_mem_drop h)⟩

theorem isOneLine_floatText (x : Float) : IsOneLine (floatText x) := by
  have hwhole (n : Nat) : IsOneLine (n.repr ++ ".0") :=
    isOneLine_append.2 ⟨isOneLine_repr n, by decide⟩
  unfold floatText
  split
  · decide
  · split <;> decide
  · dsimp only
    split <;> split <;>
      simp only [isOneLine_append, isOneLine_repr, Decimal.isOneLine_positional, true_and,
        and_true] <;> decide

def Part.IsOneLine : Part → Prop
  | .text cs => '\n' ∉ cs
  | .hole _ => True

instance : DecidablePred Part.IsOneLine
  | .text _ => inferInstanceAs (Decidable (_ ∉ _))
  | .hole _ => inferInstanceAs (Decidable True)

def Template.IsOneLine (t : Template) : Prop := ∀ part ∈ t.parts, part.IsOneLine

instance (t : Template) : Decidable t.IsOneLine :=
  inferInstanceAs (Decidable (∀ part ∈ t.parts, part.IsOneLine))

theorem Template.IsOneLine.render {line : Template} (h : line.IsOneLine) {ctx : Context}
    (hname : ∀ x ∈ ctx.name, TurtleCompiler.IsOneLine x)
    (hargument : ∀ n, ∀ x ∈ ctx.argument n, TurtleCompiler.IsOneLine x)
    (hcall : ∀ n, ∀ x ∈ ctx.callArgument n, TurtleCompiler.IsOneLine x) :
    TurtleCompiler.IsOneLine (line.render ctx) := by
  refine isOneLine_join fun s hs => ?_
  obtain ⟨part, hpart, rfl⟩ := List.mem_map.1 hs
  cases part with
  | text cs =>
    have hcs : '\n' ∉ cs := h _ hpart
    simpa [TurtleCompiler.IsOneLine, Part.render] using hcs
  | hole hole =>
    rw [Part.render]
    cases hfill : hole.fill? ctx with
    | none =>
      -- the hole is written as it stands, and the number in it has digits only
      cases hole <;>
        simp only [Option.getD_none, Placeholder.source, isOneLine_append, isOneLine_repr] <;>
        decide
    | some x =>
      cases hole with
      | name => exact hname x hfill
      | argument n => exact hargument n x hfill
      | callArgument n => exact hcall n x hfill
      | callArgumentCount =>
        obtain ⟨n, -, rfl⟩ := Option.map_eq_some_iff.1 hfill
        exact isOneLine_repr n

structure Table.IsTidy (t : Table) : Prop where
  name : ∀ id, IsOneLine (t.symbol id).name
  fullName : ∀ id, IsOneLine (t.symbol id).fullName
  scopes : ∀ scope ∈ t.scopes, IsOneLine scope.name

end TurtleCompiler
