import LoveCoupons.Lib.Replace
import Mathlib.Data.List.Nodup

/-!
# Dictionaries

A dictionary is a list of entries with pairwise different keys. Its entries are enumerated in
the order of the list; nothing here depends on that order.
-/

namespace Dictionary

variable {κ β : Type} [DecidableEq κ]

/-- The entries but the one under the key. -/
def removeKey (key : κ) (entries : List (κ × β)) : List (κ × β) := entries.filter fun entry => entry.1 ≠ key

/-- The entries with a new one under the key. -/
def insertKey (key : κ) (value : β) (entries : List (κ × β)) : List (κ × β) :=
  (key, value) :: removeKey key entries

/-- A key that is removed is not found. -/
@[simp] theorem lookup_removeKey_self (key : κ) (entries : List (κ × β)) :
    (removeKey key entries).lookup key = none := by
  rw [List.lookup_eq_none_iff]
  intro entry hentry
  have hne : entry.1 ≠ key := by simpa using (List.mem_filter.mp hentry).2
  exact bne_iff_ne.mpr hne.symm

/-- Other keys are found as before one is removed. -/
theorem lookup_removeKey_ne {key other : κ} (hne : other ≠ key) (entries : List (κ × β)) :
    (removeKey key entries).lookup other = entries.lookup other := by
  induction entries with
  | nil => rfl
  | cons entry rest ih =>
    obtain ⟨name, value⟩ := entry
    by_cases hname : name = key
    · subst hname
      have hdrop : removeKey name ((name, value) :: rest) = removeKey name rest := by simp [removeKey]
      rw [hdrop, ih, List.lookup_cons, beq_eq_false_iff_ne.mpr hne]
    · have hkeep : removeKey key ((name, value) :: rest) = (name, value) :: removeKey key rest := by
        simp [removeKey, hname]
      rw [hkeep, List.lookup_cons, List.lookup_cons, ih]

/-- A key that is put in is found. -/
@[simp] theorem lookup_insertKey_self (key : κ) (value : β) (entries : List (κ × β)) :
    (insertKey key value entries).lookup key = some value := by
  simp [insertKey]

/-- Other keys are found as before one is put in. -/
theorem lookup_insertKey_ne {key other : κ} (hne : other ≠ key) (value : β) (entries : List (κ × β)) :
    (insertKey key value entries).lookup other = entries.lookup other := by
  rw [insertKey, List.lookup_cons, beq_eq_false_iff_ne.mpr hne, lookup_removeKey_ne hne]

/-- Removing a key keeps the keys different. -/
theorem nodup_removeKey (key : κ) {entries : List (κ × β)} (h : (entries.map Prod.fst).Nodup) :
    ((removeKey key entries).map Prod.fst).Nodup :=
  h.sublist (List.filter_sublist.map Prod.fst)

/-- Inserting under a key keeps the keys different. -/
theorem nodup_insertKey (key : κ) (value : β) {entries : List (κ × β)} (h : (entries.map Prod.fst).Nodup) :
    ((insertKey key value entries).map Prod.fst).Nodup := by
  refine List.nodup_cons.mpr ⟨?_, nodup_removeKey key h⟩
  intro hmem
  obtain ⟨entry, hentry, hkey⟩ := List.mem_map.mp hmem
  simpa [hkey] using (List.mem_filter.mp hentry).2

omit [DecidableEq κ] in
/-- With different keys, an entry is listed exactly when it is found. -/
theorem mem_iff_lookup [BEq κ] [LawfulBEq κ] {entries : List (κ × β)} (h : (entries.map Prod.fst).Nodup)
    (key : κ) (value : β) : (key, value) ∈ entries ↔ entries.lookup key = some value := by
  induction entries with
  | nil => simp
  | cons entry rest ih =>
    obtain ⟨name, first⟩ := entry
    rw [List.map_cons, List.nodup_cons] at h
    rw [List.lookup_cons, List.mem_cons, ih h.2]
    by_cases hkey : key = name
    · subst hkey
      have hrest : rest.lookup key = none := by
        rw [List.lookup_eq_none_iff]
        intro entry hentry
        have hne : entry.1 ≠ key := fun heq => h.1 (List.mem_map.mpr ⟨entry, hentry, heq⟩)
        exact bne_iff_ne.mpr hne.symm
      simp [hrest, eq_comm]
    · simp [hkey, beq_eq_false_iff_ne.mpr hkey]

omit [DecidableEq κ] in
/-- Keys that are kept with some of the entries are still different. -/
theorem nodup_filterMap {γ : Type} {keep : κ × β → Option (κ × γ)} (hkeep : ∀ entry found, keep entry = some found →
    found.1 = entry.1) {entries : List (κ × β)} (h : (entries.map Prod.fst).Nodup) :
    ((entries.filterMap keep).map Prod.fst).Nodup := by
  induction entries with
  | nil => simp
  | cons entry rest ih =>
    rw [List.map_cons, List.nodup_cons] at h
    cases hentry : keep entry with
    | none =>
      rw [List.filterMap_cons_none hentry]
      exact ih h.2
    | some found =>
      rw [List.filterMap_cons_some hentry, List.map_cons, List.nodup_cons]
      refine ⟨?_, ih h.2⟩
      intro hmem
      obtain ⟨other, hother, heq⟩ := List.mem_map.mp hmem
      obtain ⟨first, hfirst, hkept⟩ := List.mem_filterMap.mp hother
      have hkey : first.1 = entry.1 := by rw [← hkeep first other hkept, heq, hkeep entry found hentry]
      exact h.1 (List.mem_map.mpr ⟨first, hfirst, hkey⟩)

end Dictionary
