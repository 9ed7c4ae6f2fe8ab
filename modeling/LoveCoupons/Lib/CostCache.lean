import LoveCoupons.Lib.Replace
import Mathlib.Algebra.BigOperators.Group.Finset.Basic
import Mathlib.Algebra.GroupWithZero.Nat
import Mathlib.Algebra.Order.BigOperators.Group.Finset

/-!
# A cache with a cost limit

Values are stored under keys with a declared cost. An insertion replaces what was stored under its
key. Then the cache evicts entries, in an order of its own, until the declared costs fit the limit.
It may also drop any entries at any time.

The limit is on the declared costs. What the values really take is another measure, and the cache
knows nothing of it. When every insertion declares no cost, no insertion evicts anything and the
cache holds the last value of each key.
-/

namespace CostCache

variable {K V : Type}

/-- A stored value with the cost that was declared for it. -/
structure Entry (K V : Type) where
  key : K
  value : V
  cost : ℕ

/-- The sum of the declared costs. -/
def totalCost (entries : List (Entry K V)) : ℕ := (entries.map Entry.cost).sum

/-- A cache holds one entry under each key. -/
structure Cache (K V : Type) where
  totalCostLimit : ℕ
  entries : List (Entry K V)
  distinct : (entries.map Entry.key).Nodup

/-- Entries without a declared cost have no total cost. -/
theorem totalCost_eq_zero {entries : List (Entry K V)} (h : ∀ entry ∈ entries, entry.cost = 0) :
    totalCost entries = 0 := by
  rw [totalCost, List.sum_eq_zero_iff]
  intro cost hcost
  obtain ⟨entry, hentry, rfl⟩ := List.mem_map.mp hcost
  exact h entry hentry

variable [DecidableEq K]

/-- Evict entries in this order until the declared costs fit the limit. -/
def evict (limit : ℕ) : List K → List (Entry K V) → List (Entry K V)
  | [], entries => entries
  | victim :: victims, entries =>
    if totalCost entries ≤ limit then entries
    else evict limit victims (entries.filter fun entry => entry.key ≠ victim)

/-- An eviction only takes entries away. -/
theorem evict_sublist (limit : ℕ) (victims : List K) (entries : List (Entry K V)) :
    (evict limit victims entries).Sublist entries := by
  induction victims generalizing entries with
  | nil => exact List.Sublist.refl _
  | cons victim victims ih =>
    unfold evict
    split
    · exact List.Sublist.refl _
    · exact (ih _).trans List.filter_sublist

/-- Nothing is evicted as long as the declared costs fit. -/
theorem evict_of_fits {limit : ℕ} {entries : List (Entry K V)} (h : totalCost entries ≤ limit)
    (victims : List K) : evict limit victims entries = entries := by
  cases victims with
  | nil => rfl
  | cons victim victims => rw [evict, if_pos h]

namespace Cache

/-- A cache that holds nothing. -/
def empty (limit : ℕ) : Cache K V := ⟨limit, [], List.nodup_nil⟩

/-- The value stored under a key. -/
def object (cache : Cache K V) (key : K) : Option V :=
  (cache.entries.find? fun entry => entry.key = key).map Entry.value

/-- The entries with a new one in place of the one under its key. -/
def inserted (cache : Cache K V) (value : V) (key : K) (cost : ℕ) : List (Entry K V) :=
  ⟨key, value, cost⟩ :: cache.entries.filter fun entry => entry.key ≠ key

/-- An insertion leaves one entry under each key. -/
theorem distinct_inserted (cache : Cache K V) (value : V) (key : K) (cost : ℕ) :
    ((cache.inserted value key cost).map Entry.key).Nodup := by
  refine List.nodup_cons.mpr ⟨?_, cache.distinct.sublist (List.filter_sublist.map _)⟩
  intro hmem
  obtain ⟨entry, hentry, heq⟩ := List.mem_map.mp hmem
  have hne := (List.mem_filter.mp hentry).2
  simp [heq] at hne

/-- Store a value, then evict in this order. A cache does not stop before the declared costs fit. -/
def setObject (cache : Cache K V) (value : V) (key : K) (cost : ℕ) (victims : List K) : Option (Cache K V) :=
  let entries := evict cache.totalCostLimit victims (cache.inserted value key cost)
  if totalCost entries ≤ cache.totalCostLimit then
    some ⟨cache.totalCostLimit, entries,
      (cache.distinct_inserted value key cost).sublist ((evict_sublist _ _ _).map _)⟩
  else none

/-- Drop the entries under these keys. -/
def drop (cache : Cache K V) (keys : List K) : Cache K V :=
  ⟨cache.totalCostLimit, cache.entries.filter fun entry => entry.key ∉ keys,
    cache.distinct.sublist (List.filter_sublist.map _)⟩

/-- The sum of a measure over the stored values. -/
def size (cache : Cache K V) (measure : V → ℕ) : ℕ := (cache.entries.map fun entry => measure entry.value).sum

/-- No entry was declared to cost anything. -/
def Free (cache : Cache K V) : Prop := ∀ entry ∈ cache.entries, entry.cost = 0

/-- The value under a key is the one of its entry. -/
theorem object_eq_some_iff {cache : Cache K V} {key : K} {value : V} : cache.object key = some value ↔
    ∃ entry ∈ cache.entries, entry.key = key ∧ entry.value = value := by
  constructor
  · intro h
    obtain ⟨entry, hfind, hvalue⟩ := Option.map_eq_some_iff.mp h
    exact ⟨entry, List.mem_of_find?_eq_some hfind, by simpa using List.find?_some hfind, hvalue⟩
  · rintro ⟨entry, hentry, rfl, rfl⟩
    rw [object, Replace.find?_key_eq_some cache.distinct hentry]
    rfl

/-- Dropping keys drops exactly what is stored under them. -/
theorem object_drop (cache : Cache K V) (keys : List K) (key : K) :
    (cache.drop keys).object key = if key ∈ keys then none else cache.object key := by
  apply Option.ext
  intro value
  rw [object_eq_some_iff]
  by_cases hkey : key ∈ keys
  · simp only [hkey, if_true, reduceCtorEq, iff_false]
    rintro ⟨entry, hentry, rfl, -⟩
    have hkept := (List.mem_filter.mp hentry).2
    simp [hkey] at hkept
  · rw [if_neg hkey, object_eq_some_iff]
    constructor
    · rintro ⟨entry, hentry, hsame⟩
      exact ⟨entry, List.mem_of_mem_filter hentry, hsame⟩
    · rintro ⟨entry, hentry, rfl, hvalue⟩
      exact ⟨entry, List.mem_filter.mpr ⟨hentry, by simpa using hkey⟩, rfl, hvalue⟩

/-- A cache without declared costs evicts nothing: an insertion without a cost replaces the value under its
key and leaves all others. -/
theorem Free.setObject {cache next : Cache K V} (hfree : cache.Free) {value : V} {key : K} {victims : List K}
    (h : cache.setObject value key 0 victims = some next) :
    next.Free ∧ ∀ k, next.object k = if k = key then some value else cache.object k := by
  have hinserted : ∀ entry ∈ cache.inserted value key 0, entry.cost = 0 := by
    intro entry hentry
    rcases List.mem_cons.mp hentry with rfl | hold
    · rfl
    · exact hfree entry (List.mem_of_mem_filter hold)
  have hfits : totalCost (cache.inserted value key 0) ≤ cache.totalCostLimit := by
    rw [totalCost_eq_zero hinserted]
    exact Nat.zero_le _
  have hentries : next.entries = cache.inserted value key 0 := by
    simp only [Cache.setObject, evict_of_fits hfits, if_pos hfits, Option.some.injEq] at h
    rw [← h]
  refine ⟨fun entry hentry => hinserted entry (hentries ▸ hentry), fun k => ?_⟩
  rw [object, hentries, inserted]
  by_cases hk : k = key
  · rw [List.find?_cons_of_pos (by simp [hk]), if_pos hk]
    rfl
  · rw [List.find?_cons_of_neg (by simpa using Ne.symm hk), if_neg hk, List.find?_filter, object]
    congr 2
    funext entry
    by_cases hentry : entry.key = k
    · simp [hentry, hk]
    · simp [hentry]

/-- The size is the sum over the keys of what is stored under them. -/
theorem size_eq_sum (cache : Cache K V) (measure : V → ℕ) : cache.size measure =
    ∑ key ∈ (cache.entries.map Entry.key).toFinset, ((cache.object key).map measure).getD 0 := by
  rw [List.sum_toFinset _ cache.distinct, List.map_map, size]
  congr 1
  refine List.map_congr_left fun entry hentry => ?_
  have hobject : cache.object entry.key = some entry.value := object_eq_some_iff.mpr ⟨entry, hentry, rfl, rfl⟩
  simp [hobject]

/-- A key is in the cache when something is stored under it. -/
theorem mem_keys_iff {cache : Cache K V} {key : K} :
    key ∈ cache.entries.map Entry.key ↔ ∃ value, cache.object key = some value := by
  constructor
  · intro hkey
    obtain ⟨entry, hentry, rfl⟩ := List.mem_map.mp hkey
    exact ⟨entry.value, object_eq_some_iff.mpr ⟨entry, hentry, rfl, rfl⟩⟩
  · rintro ⟨value, hvalue⟩
    obtain ⟨entry, hentry, rfl, -⟩ := object_eq_some_iff.mp hvalue
    exact List.mem_map_of_mem hentry

end Cache

/-- The sum of a measure over the last value of each key of a history, which has its newest value first. -/
def latestSize (measure : V → ℕ) (history : List (K × V)) : ℕ :=
  ∑ key ∈ (history.map Prod.fst).toFinset, ((history.lookup key).map measure).getD 0

/-- A key is in a history when it has a last value. -/
theorem mem_history_iff {history : List (K × V)} {key : K} :
    key ∈ history.map Prod.fst ↔ ∃ value, history.lookup key = some value := by
  rw [← Option.isSome_iff_exists, List.lookup_isSome_iff, List.mem_map]
  exact exists_congr fun entry => and_congr_right fun _ => eq_comm.trans beq_iff_eq.symm

namespace Cache

/-- A cache that holds only last values of a history is at most as large as these. -/
theorem size_le_latestSize {cache : Cache K V} {history : List (K × V)} (measure : V → ℕ)
    (h : ∀ key value, cache.object key = some value → history.lookup key = some value) :
    cache.size measure ≤ latestSize measure history := by
  rw [size_eq_sum, latestSize]
  calc ∑ key ∈ (cache.entries.map Entry.key).toFinset, ((cache.object key).map measure).getD 0
      = ∑ key ∈ (cache.entries.map Entry.key).toFinset, ((history.lookup key).map measure).getD 0 := by
        refine Finset.sum_congr rfl fun key hkey => ?_
        obtain ⟨value, hvalue⟩ := mem_keys_iff.mp (List.mem_toFinset.mp hkey)
        rw [hvalue, h key value hvalue]
    _ ≤ ∑ key ∈ (history.map Prod.fst).toFinset, ((history.lookup key).map measure).getD 0 := by
        refine Finset.sum_le_sum_of_subset fun key hkey => ?_
        obtain ⟨value, hvalue⟩ := mem_keys_iff.mp (List.mem_toFinset.mp hkey)
        exact List.mem_toFinset.mpr (mem_history_iff.mpr ⟨value, h key value hvalue⟩)

/-- A cache that holds the last values of a history is as large as these. -/
theorem size_eq_latestSize {cache : Cache K V} {history : List (K × V)} (measure : V → ℕ)
    (h : ∀ key, cache.object key = history.lookup key) : cache.size measure = latestSize measure history := by
  have hkeys : (cache.entries.map Entry.key).toFinset = (history.map Prod.fst).toFinset := by
    ext key
    rw [List.mem_toFinset, List.mem_toFinset, mem_keys_iff, mem_history_iff, h key]
  rw [size_eq_sum, latestSize, hkeys]
  exact Finset.sum_congr rfl fun key _ => by rw [h key]

end Cache

end CostCache
