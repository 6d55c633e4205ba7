import Mathlib.Data.List.Forall2
import Mathlib.Data.List.Induction
import TurtleCompiler.Proofs.SymbolTable

/-!
What a map of names holds. It is the same where the symbols are kept in a row of their own and each
name has its place in it: a place is never outside of the row.
-/

namespace TurtleCompiler

def SameLetter (c d : Char) : Prop := c = d ∨ c.isAlpha ∧ d.isAlpha ∧
    c.toNat % 32 = d.toNat % 32

def SameName (a b : String) : Prop := List.Forall₂ SameLetter a.toList b.toList

theorem isAlpha_iff_toNat {c : Char} :
    c.isAlpha ↔ 65 ≤ c.toNat ∧ c.toNat ≤ 90 ∨ 97 ≤ c.toNat ∧ c.toNat ≤ 122 := by
  delta Char.isAlpha Char.isUpper Char.isLower
  simp [UInt32.le_iff_toNat_le]

theorem toNat_toUpper (c : Char) :
    c.toUpper.toNat = if 97 ≤ c.toNat ∧ c.toNat ≤ 122 then c.toNat - 32 else c.toNat := by
  have hlower : c.val ≥ 'a'.val ∧ c.val ≤ 'z'.val ↔ 97 ≤ c.toNat ∧ c.toNat ≤ 122 := by
    simp [UInt32.le_iff_toNat_le]
  delta Char.toUpper
  by_cases h : 97 ≤ c.toNat ∧ c.toNat ≤ 122
  · rw [dif_pos (hlower.2 h), if_pos h, Char.toNat_mk, UInt32.toNat_add, Char.toNat_val]
    change (c.toNat + 4294967264) % 4294967296 = c.toNat - 32
    omega
  · rw [dif_neg (hlower.not.2 h), if_neg h]

theorem toUpper_eq_toUpper_iff {c d : Char} : c.toUpper = d.toUpper ↔ SameLetter c d := by
  rw [SameLetter, ← Char.toNat_inj, ← Char.toNat_inj, toNat_toUpper, toNat_toUpper,
    isAlpha_iff_toNat, isAlpha_iff_toNat]
  split <;> split <;> omega

theorem sameName_iff {a b : String} : SameName a b ↔ a.toUpper = b.toUpper := by
  rw [← String.toList_inj, toList_toUpper, toList_toUpper, ← List.forall₂_eq_eq_eq,
    List.forall₂_map_left_iff, List.forall₂_map_right_iff]
  simp only [toUpper_eq_toUpper_iff]
  rfl

instance (a b : String) : Decidable (SameName a b) := decidable_of_iff _ sameName_iff.symm

theorem concat_eq_append_cons {l before after : List α} {a b : α}
    (h : l ++ [a] = before ++ b :: after) : l = before ∧ a = b ∧ after = [] ∨
    ∃ after', after = after' ++ [a] ∧ l = before ++ b :: after' := by
  rcases List.eq_nil_or_concat after with rfl | ⟨after', a', rfl⟩
  · obtain ⟨rfl, rfl⟩ := List.append_singleton_inj.1 h
    exact .inl ⟨rfl, rfl, rfl⟩
  · rw [List.concat_eq_append, ← List.cons_append, ← List.append_assoc,
      List.append_singleton_inj] at h
    obtain ⟨rfl, rfl⟩ := h
    exact .inr ⟨after', List.concat_eq_append, rfl⟩

namespace NameMap

def insertAll (m : NameMap) (inserts : List (String × SymbolId)) : NameMap :=
  inserts.foldl (fun m e => m.insert e.1 e.2) m

def IsLast (inserts : List (String × SymbolId)) (name : String) (id : SymbolId) : Prop :=
  ∃ before name' after, inserts = before ++ (name', id) :: after ∧ SameName name' name ∧
  ∀ e ∈ after, ¬SameName e.1 name

def IsFirst (inserts : List (String × SymbolId)) (i : Nat) : Prop :=
  ∃ before e after, inserts = before ++ e :: after ∧ before.length = i ∧
  ∀ e' ∈ before, ¬SameName e'.1 e.1

variable {inserts : List (String × SymbolId)} {e : String × SymbolId} {name : String}
  {id : SymbolId} {i : Nat}

theorem insertAll_concat (m : NameMap) (inserts : List (String × SymbolId))
    (e : String × SymbolId) : m.insertAll
    (inserts ++ [e]) = (m.insertAll inserts).insert e.1 e.2 := by
  simp [insertAll]

theorem isLast_concat : IsLast (inserts ++ [e]) name id ↔
    if SameName e.1 name then e.2 = id else IsLast inserts name id := by
  constructor
  · rintro ⟨before, name', after, heq, hname, hafter⟩
    obtain ⟨-, rfl, rfl⟩ | ⟨after, rfl, rfl⟩ := concat_eq_append_cons heq
    · rw [if_pos hname]
    · rw [if_neg (hafter e (by simp))]
      exact ⟨before, name', after, rfl, hname, fun e' he' => hafter e' (by simp [he'])⟩
  · split
    · rename_i hname
      rintro rfl
      exact ⟨inserts, e.1, [], rfl, hname, by simp⟩
    · rename_i hne
      rintro ⟨before, name', after, rfl, hname, hafter⟩
      refine ⟨before, name', after ++ [e], by simp, hname, ?_⟩
      exact List.forall_mem_append.2 ⟨hafter, List.forall_mem_singleton.2 hne⟩

theorem isFirst_concat : IsFirst (inserts ++ [e]) i ↔
    IsFirst inserts i ∨ i = inserts.length ∧ ∀ e' ∈ inserts, ¬SameName e'.1 e.1 := by
  constructor
  · rintro ⟨before, e', after, heq, rfl, hbefore⟩
    obtain ⟨rfl, rfl, -⟩ | ⟨after, rfl, rfl⟩ := concat_eq_append_cons heq
    · exact .inr ⟨rfl, hbefore⟩
    · exact .inl ⟨before, e', after, rfl, rfl, hbefore⟩
  · rintro (⟨before, e', after, rfl, rfl, hbefore⟩ | ⟨rfl, hbefore⟩)
    · exact ⟨before, e', after ++ [e], by simp, rfl, hbefore⟩
    · exact ⟨inserts, e, [], rfl, rfl, hbefore⟩

theorem IsFirst.lt (h : IsFirst inserts i) : i < inserts.length := by
  obtain ⟨before, e, after, rfl, rfl, -⟩ := h
  simp

theorem get?_insertAll_concat (m : NameMap) : (m.insertAll (inserts ++ [e])).get? name =
    if SameName e.1 name then some e.2 else (m.insertAll inserts).get? name := by
  rw [insertAll_concat]
  split
  · rename_i hname
    rw [← get?_insert (m.insertAll inserts) e.1 e.2, get?, get?, sameName_iff.1 hname]
  · rename_i hname
    exact get?_insert_of_ne (sameName_iff.not.1 hname) e.2

theorem get?_insertAll : (insertAll {} inserts).get? name = some id ↔ IsLast inserts name id := by
  induction inserts using List.reverseRecOn with
  | nil => simp [insertAll, get?, IsLast]
  | append_singleton inserts e ih =>
    rw [get?_insertAll_concat, isLast_concat]
    split
    · exact Option.some_inj
    · exact ih

theorem get?_insertAll_eq_none :
    (insertAll {} inserts).get? name = none ↔ ∀ e ∈ inserts, ¬SameName e.1 name := by
  induction inserts using List.reverseRecOn with
  | nil => simp [insertAll, get?]
  | append_singleton inserts e ih =>
    rw [get?_insertAll_concat, List.forall_mem_append, List.forall_mem_singleton, ← ih]
    split <;> simp_all

theorem keys_put (key : String) (id : SymbolId) (es : List (String × SymbolId)) :
    (put key id es).map (·.1) = if key ∈ es.map (·.1) then es.map (·.1) else es.map
    (·.1) ++ [key] := by
  induction es with
  | nil => simp [put]
  | cons e es ih =>
    by_cases he : e.1 = key
    · simp [put, he]
    · by_cases hes : key ∈ es.map (·.1)
      · rw [if_pos hes] at ih
        simp [put, he, ih, hes]
      · rw [if_neg hes] at ih
        simp [put, he, ih, hes, Ne.symm he]

theorem put_eq_set {key : String} {id' : SymbolId} {es : List (String × SymbolId)}
    (hkeys : (es.map (·.1)).Nodup) (h : es[i]? = some (key, id')) :
    put key id es = es.set i (key, id) := by
  induction es generalizing i with
  | nil => simp at h
  | cons e es ih =>
    rw [List.map_cons, List.nodup_cons] at hkeys
    cases i with
    | zero =>
      obtain rfl : e = (key, id') := by simpa using h
      simp [put]
    | succ i =>
      have hne : e.1 ≠ key := by
        rintro rfl
        exact hkeys.1 (List.mem_map.2 ⟨_, List.mem_of_getElem? h, rfl⟩)
      simp [put, hne, ih hkeys.2 h]

theorem keys_insert (m : NameMap) (name : String) (id : SymbolId) :
    (m.insert name id).keys = if name.toUpper ∈ m.keys then m.keys else
    m.keys ++ [name.toUpper] :=
  keys_put _ _ _

theorem nodup_keys_insertAll (inserts : List (String × SymbolId)) :
    (insertAll {} inserts).keys.Nodup := by
  induction inserts using List.reverseRecOn with
  | nil => simp [insertAll, keys]
  | append_singleton inserts e ih =>
    rw [insertAll_concat, keys_insert]
    split
    · exact ih
    · rename_i hnew
      exact List.nodup_append.2 ⟨ih, by simp, by grind⟩

def Begins (inserts : List (String × SymbolId)) (starts : List Nat) (keys : List String) : Prop :=
  starts.Pairwise (· < ·) ∧ (∀ i, i ∈ starts ↔ IsFirst inserts i) ∧
    List.Forall₂ (fun i key => ∃ e, inserts[i]? = some e ∧ e.1.toUpper = key) starts keys

theorem exists_begins (inserts : List (String × SymbolId)) :
    ∃ starts, Begins inserts starts (insertAll {} inserts).keys := by
  induction inserts using List.reverseRecOn with
  | nil => exact ⟨[], .nil, by simp [IsFirst], .nil⟩
  | append_singleton inserts e ih =>
    obtain ⟨starts, hincreasing, hfirst, hkeys⟩ := ih
    have hkept :
        List.Forall₂ (fun i key => ∃ e', (inserts ++ [e])[i]? = some e' ∧
          e'.1.toUpper = key) starts
        (insertAll {} inserts).keys := by
      refine hkeys.imp ?_
      rintro i key ⟨e', he', hkey⟩
      exact ⟨e', by rw [List.getElem?_append_left (List.getElem?_eq_some_iff.1 he').1, he'],
        hkey⟩
    have hnew : e.1.toUpper ∉ (insertAll {} inserts).keys ↔
        ∀ e' ∈ inserts, ¬SameName e'.1 e.1 := by
      rw [← get?_eq_none_iff, get?_insertAll_eq_none]
    rw [insertAll_concat, keys_insert]
    -- a name that is there keeps its place, and a new one comes after all others
    split
    · rename_i hmem
      refine ⟨starts, hincreasing, fun i => ?_, hkept⟩
      rw [isFirst_concat, ← hnew, hfirst]
      simp [hmem]
    · rename_i hmem
      refine ⟨starts ++ [inserts.length], ?_, fun i => ?_, ?_⟩
      · refine List.pairwise_append.2
          ⟨hincreasing, List.pairwise_singleton _ _, fun i hi j hj => ?_⟩
        rw [List.mem_singleton.1 hj]
        exact ((hfirst i).1 hi).lt
      · rw [isFirst_concat, ← hnew, List.mem_append, hfirst, List.mem_singleton]
        simp [hmem]
      · exact List.rel_append hkept (.cons ⟨e, by simp, rfl⟩ .nil)

theorem Begins.last {starts : List Nat} (h : Begins inserts starts (insertAll {} inserts).keys) :
    List.Forall₂ (fun i id => ∃ e, inserts[i]? = some e ∧ IsLast inserts e.1 id) starts
    (insertAll {} inserts).ids := by
  obtain ⟨-, -, hkeys⟩ := h
  rw [keys, List.forall₂_map_right_iff, List.forall₂_iff_zip] at hkeys
  rw [ids, List.forall₂_map_right_iff, List.forall₂_iff_zip]
  refine ⟨hkeys.1, fun {i entry} hmem => ?_⟩
  obtain ⟨e, he, hkey⟩ := hkeys.2 hmem
  have hentry := (List.of_mem_zip hmem).2
  refine ⟨e, he, get?_insertAll.1 (get?_of_mem (nodup_keys_insertAll inserts) ?_)⟩
  rwa [hkey]

end NameMap

structure Row where
  order : List SymbolId := []
  place : String → Option Nat := fun _ => none

namespace Row

def get? (row : Row) (name : String) : Option (Option SymbolId) :=
  match row.place name.toUpper with
  | none => some none
  | some i => row.order[i]?.map some

def insert (row : Row) (name : String) (id : SymbolId) : Option Row :=
  match row.place name.toUpper with
  | some i => if i < row.order.length then some { row with order := row.order.set i id } else none
  | none =>
    some ⟨row.order ++ [id], fun key => if key =
      name.toUpper then some row.order.length else row.place key⟩

def insertAll (row : Row) (inserts : List (String × SymbolId)) : Option Row :=
  inserts.foldlM (fun row e => row.insert e.1 e.2) row

structure Keeps (row : Row) (m : NameMap) : Prop where
  order : row.order = m.ids
  place : ∀ {key i}, row.place key = some i ↔ m.keys[i]? = some key

namespace Keeps

variable {row : Row} {m : NameMap} {name : String} {i : Nat}

theorem nodup (h : row.Keeps m) : m.keys.Nodup := by
  refine List.nodup_iff_getElem?_ne_getElem?.2 fun i j hij hj heq => ?_
  have hkey := List.getElem?_eq_getElem hj
  have hi := h.place.2 (heq.trans hkey)
  have hj := h.place.2 hkey
  exact Nat.ne_of_lt hij (Option.some.inj (hi.symm.trans hj))

theorem get?_eq_none (h : row.Keeps m) (hplace : row.place name.toUpper = none) :
    m.get? name = none := by
  refine NameMap.get?_eq_none_iff.2 fun hmem => ?_
  obtain ⟨i, hi⟩ := List.getElem?_of_mem hmem
  simp [h.place.2 hi] at hplace

theorem exists_entry (h : row.Keeps m) (hplace : row.place name.toUpper = some i) :
    ∃ id, m.entries[i]? = some (name.toUpper, id) := by
  have hkey := h.place.1 hplace
  rw [NameMap.keys, List.getElem?_map, Option.map_eq_some_iff] at hkey
  obtain ⟨⟨key, id⟩, hentry, rfl⟩ := hkey
  exact ⟨id, hentry⟩

theorem get? (h : row.Keeps m) (name : String) : row.get? name = some (m.get? name) := by
  unfold Row.get?
  split
  · rename_i hplace
    rw [h.get?_eq_none hplace]
  · rename_i i hplace
    obtain ⟨id, hentry⟩ := h.exists_entry hplace
    rw [h.order, NameMap.ids, List.getElem?_map, hentry,
      NameMap.get?_of_mem h.nodup (List.mem_of_getElem? hentry)]
    rfl

theorem insert (h : row.Keeps m) (name : String) (id : SymbolId) :
    ∃ row', row.insert name id = some row' ∧ row'.Keeps (m.insert name id) := by
  unfold Row.insert
  split
  · rename_i i hplace
    obtain ⟨id', hentry⟩ := h.exists_entry hplace
    have hmem : name.toUpper ∈ m.keys := List.mem_of_getElem? (h.place.1 hplace)
    have hlt : i < row.order.length := by
      simpa [h.order, NameMap.ids] using (List.getElem?_eq_some_iff.1 hentry).1
    rw [if_pos hlt]
    refine ⟨_, rfl, ?_, fun {key j} => ?_⟩
    · rw [NameMap.ids, NameMap.insert, NameMap.put_eq_set h.nodup hentry, List.map_set,
        h.order, NameMap.ids]
    · rw [NameMap.keys_insert, if_pos hmem]
      exact h.place
  · rename_i hplace
    have hentries := NameMap.entries_insert_of_get? (h.get?_eq_none hplace) id
    refine ⟨_, rfl, by simp [NameMap.ids, hentries, h.order], fun {key i} => ?_⟩
    have hold : row.place key = some i ↔ m.keys[i]? = some key := h.place
    have hnew : row.place name.toUpper = some i ↔ m.keys[i]? = some name.toUpper := h.place
    have hlength : row.order.length = m.keys.length := by simp [h.order, NameMap.ids, NameMap.keys]
    rw [NameMap.keys, hentries, List.map_append, ← NameMap.keys]
    grind

theorem insertAll (h : row.Keeps m) (inserts : List (String × SymbolId)) :
    ∃ row', row.insertAll inserts = some row' ∧ row'.Keeps (m.insertAll inserts) := by
  induction inserts generalizing row m with
  | nil => exact ⟨row, rfl, h⟩
  | cons e inserts ih =>
    obtain ⟨row₁, hrow₁, h₁⟩ := h.insert e.1 e.2
    obtain ⟨row', hrow', h'⟩ := ih h₁
    refine ⟨row', ?_, h'⟩
    rw [Row.insertAll, List.foldlM_cons, hrow₁]
    exact hrow'

end Keeps

theorem keeps_empty : Row.Keeps {} {} where
  order := rfl
  place := by simp [NameMap.keys]

end Row

/-- Whatever symbols are put in, a name has the last one that was put in under it, in either case of
its letters. The symbols are listed in the order in which their names came first. The same is found
in a row of symbols by the places of the names, and no place is outside of the row. -/
theorem NameMap.insertAll_ordered (inserts : List (String × SymbolId)) :
    let m := insertAll {} inserts
    (∀ name id, m.get? name = some id ↔ IsLast inserts name id) ∧
    (∀ name, m.get? name = none ↔ ∀ e ∈ inserts, ¬SameName e.1 name) ∧
    (∃ starts : List Nat, starts.Pairwise (· < ·) ∧
      (∀ i, i ∈ starts ↔ IsFirst inserts i) ∧
      List.Forall₂ (fun i id => ∃ e, inserts[i]? = some e ∧ IsLast inserts e.1 id)
      starts m.ids) ∧
    ∃ row : Row, Row.insertAll {} inserts = some row ∧ row.order = m.ids ∧
    ∀ name, row.get? name = some (m.get? name) := by
  intro m
  obtain ⟨starts, hstarts⟩ := exists_begins inserts
  obtain ⟨row, hrow, hkeeps⟩ := Row.keeps_empty.insertAll inserts
  exact ⟨fun name id => get?_insertAll, fun name => get?_insertAll_eq_none,
    ⟨starts, hstarts.1, hstarts.2.1, hstarts.last⟩, row, hrow, hkeeps.order, hkeeps.get?⟩

end TurtleCompiler
