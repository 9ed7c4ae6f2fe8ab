import Mathlib.Data.List.Basic
import Mathlib.Data.List.Nodup

/-!
# Lists whose elements have a place

The requests of a program are kept in the order in which they were started. A step of a request
replaces it, a new request is added at the end. What is in the list afterwards is the changed or
new request and the others at their old positions.

Entries with keys of their own are found by their keys.
-/

namespace Replace

variable {α : Type*} {l : List α} {i : ℕ}

/-- What stands at a position after a replacement: the new element, or what stood there. -/
theorem getElem?_set_cases {j : ℕ} {x y : α} (h : (l.set i y)[j]? = some x) :
    (j = i ∧ x = y) ∨ (j ≠ i ∧ l[j]? = some x) := by
  by_cases hij : i = j
  · subst hij
    rw [List.getElem?_set, if_pos rfl] at h
    split at h
    · exact .inl ⟨rfl, (Option.some.inj h).symm⟩
    · cases h
  · rw [List.getElem?_set_ne hij] at h
    exact .inr ⟨Ne.symm hij, h⟩

/-- What stands at a position after an addition: what stood there, or the new element at the end. -/
theorem getElem?_concat_cases {j : ℕ} {x y : α} (h : (l ++ [y])[j]? = some x) :
    (j < l.length ∧ l[j]? = some x) ∨ (j = l.length ∧ x = y) := by
  rcases Nat.lt_trichotomy j l.length with hlt | rfl | hgt
  · rw [List.getElem?_append_left hlt] at h
    exact .inl ⟨hlt, h⟩
  · rw [List.getElem?_concat_length] at h
    exact .inr ⟨rfl, (Option.some.inj h).symm⟩
  · rw [List.getElem?_eq_none (by simp; omega)] at h
    cases h

/-- An element after a replacement is the new one or stood at another position. -/
theorem mem_set_cases {x y : α} (h : x ∈ l.set i y) : x = y ∨ ∃ j, j ≠ i ∧ l[j]? = some x := by
  obtain ⟨j, hj⟩ := List.mem_iff_getElem?.mp h
  rcases getElem?_set_cases hj with ⟨-, hnew⟩ | hother
  · exact .inl hnew
  · exact .inr ⟨j, hother⟩

/-- An element at another position is still there. -/
theorem mem_set_of_ne {j : ℕ} {x : α} (hji : j ≠ i) (hj : l[j]? = some x) (y : α) : x ∈ l.set i y := by
  apply List.mem_of_getElem?
  rw [List.getElem?_set_ne (Ne.symm hji)]
  exact hj

/-- The new element is there if it replaced one. -/
theorem mem_set_self {x : α} (h : l[i]? = some x) (y : α) : y ∈ l.set i y :=
  List.mem_set (List.getElem?_eq_some_iff.mp h).1 y

/-- An element is the replaced one or still there. -/
theorem eq_or_mem_set {x old : α} (h : l[i]? = some old) (hx : x ∈ l) (y : α) : x = old ∨ x ∈ l.set i y := by
  obtain ⟨j, hj⟩ := List.mem_iff_getElem?.mp hx
  by_cases hji : j = i
  · subst hji
    exact .inl (Option.some.inj (hj.symm.trans h))
  · exact .inr (mem_set_of_ne hji hj y)

/-- A replacement replaces what the element counts for. -/
theorem countP_set_add (p : α → Bool) {x : α} (h : l[i]? = some x) (y : α) :
    (l.set i y).countP p + (p x).toNat = l.countP p + (p y).toNat := by
  obtain ⟨hi, rfl⟩ := List.getElem?_eq_some_iff.mp h
  rw [List.countP_set hi]
  cases hx : p l[i] with
  | false => cases p y <;> simp
  | true =>
    have hpos : 0 < l.countP p := List.countP_pos_iff.mpr ⟨_, List.getElem_mem hi, hx⟩
    cases p y <;> simp only [Bool.toNat_true, Bool.toNat_false, if_true, Bool.false_eq_true, if_false] <;> omega

/-- Among elements with distinct keys, a search by key finds the element. -/
theorem find?_key_eq_some {β : Type*} [DecidableEq β] {key : α → β} (hkeys : (l.map key).Nodup) {x : α}
    (hx : x ∈ l) : l.find? (fun y => key y = key x) = some x := by
  obtain ⟨found, hfind⟩ : ∃ found, l.find? (fun y => key y = key x) = some found := by
    rw [← Option.isSome_iff_exists, List.find?_isSome]
    exact ⟨x, hx, by simp⟩
  have hkey : key found = key x := by simpa using List.find?_some hfind
  rw [hfind, List.inj_on_of_nodup_map hkeys (List.mem_of_find?_eq_some hfind) hx hkey]

/-- An entry that is found under its key is listed. -/
theorem mem_of_lookup {κ ν : Type*} [BEq κ] [LawfulBEq κ] {entries : List (κ × ν)} {key : κ} {value : ν}
    (h : entries.lookup key = some value) : (key, value) ∈ entries := by
  obtain ⟨before, after, rfl, -⟩ := List.lookup_eq_some_iff.mp h
  exact List.mem_append_right before List.mem_cons_self

end Replace
