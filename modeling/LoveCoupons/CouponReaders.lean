import LoveCoupons.ApiManager
import Mathlib.Data.Multiset.Basic

/-!
# The two readers of a coupons directory

`getMyCoupons` and `getPairCoupons` decode the children of the same kind of directory with the
same loop. Each makes one coupon of every child that is a dictionary and reads a missing field,
or a field that is no string, as empty. Both then set the coupon's key, but `getPairCoupons`
appends a second decoding of the child instead of the keyed coupon, so the coupons of the pair
have no key.
-/

namespace LoveCoupons

open KeyedTree

/-- The text of a field of a child, empty when it is missing or no string. -/
def fieldText (tree : Tree Key Leaf) (field : Key) : String := (asString (child (some tree) field)).getD ""

/-- The coupon that a dictionary-valued child stands for. -/
def childCoupon (entry : Key × Tree Key Leaf) : Coupon where
  key := some entry.1
  description := fieldText entry.2 Coupon.descriptionKey
  image := fieldText entry.2 Coupon.imageKey

/-- One coupon for each dictionary-valued child of a directory. -/
def childCoupons (dict : Dictionary) : List Coupon :=
  (dict.filter fun entry => (asDictionary (some entry.2)).isSome).map childCoupon

/-- Both readers produce the coupons of the directory's children. -/
def ReadersAgree (dict : Dictionary) : Prop :=
  (myCouponsOfDictionary dict : Multiset Coupon) = childCoupons dict ∧
    (pairCouponsOfDictionary dict : Multiset Coupon) = childCoupons dict

/-- The decoder reads the fields of a child. -/
theorem ofData_of_dictionary {entry : Key × Tree Key Leaf} {data : Dictionary}
    (h : asDictionary (some entry.2) = some data) :
    { Coupon.ofData data with key := some entry.1 } = childCoupon entry := by
  have hnode : entry.2 = .node data := Option.some.inj (eq_node_of_asDictionary h)
  simp only [childCoupon, fieldText, hnode]
  rfl

/-- The reader of the user's coupons produces the coupons of the children. -/
theorem myCouponsOfDictionary_eq (dict : Dictionary) : myCouponsOfDictionary dict = childCoupons dict := by
  induction dict with
  | nil => rfl
  | cons entry rest ih =>
    unfold myCouponsOfDictionary childCoupons at ih ⊢
    cases hentry : asDictionary (some entry.2) with
    | none => simp [hentry, ih]
    | some data => simp [hentry, ih, ← ofData_of_dictionary hentry]

/-- The reader of the pair's coupons produces the same coupons without their keys. -/
theorem pairCouponsOfDictionary_eq (dict : Dictionary) :
    pairCouponsOfDictionary dict = (childCoupons dict).map fun coupon => { coupon with key := none } := by
  induction dict with
  | nil => rfl
  | cons entry rest ih =>
    unfold pairCouponsOfDictionary childCoupons at ih ⊢
    cases hentry : asDictionary (some entry.2) with
    | none => simp [hentry, ih]
    | some data =>
      simp only [List.filterMap_cons, hentry, Option.map_some, ih]
      simp [hentry, ← ofData_of_dictionary hentry, Coupon.ofData]

/-- A directory has no coupon exactly when no child is a dictionary. -/
theorem childCoupons_eq_nil_iff (dict : Dictionary) :
    childCoupons dict = [] ↔ ∀ entry ∈ dict, asDictionary (some entry.2) = none := by
  simp [childCoupons]

/-- The two readers agree on a directory exactly when none of its children is a dictionary. -/
theorem readers_agree_iff (dict : Dictionary) :
    ReadersAgree dict ↔ ∀ entry ∈ dict, asDictionary (some entry.2) = none := by
  rw [← childCoupons_eq_nil_iff, ReadersAgree, myCouponsOfDictionary_eq, pairCouponsOfDictionary_eq]
  constructor
  · rintro ⟨-, hpair⟩
    by_contra hne
    obtain ⟨coupon, hcoupon⟩ := List.exists_mem_of_ne_nil _ hne
    obtain ⟨entry, -, rfl⟩ := List.mem_map.mp hcoupon
    have hread : childCoupon entry ∈ (childCoupons dict).map fun coupon => { coupon with key := none } :=
      Multiset.mem_coe.mp (hpair ▸ Multiset.mem_coe.mpr hcoupon)
    obtain ⟨other, -, hother⟩ := List.mem_map.mp hread
    have hkey : none = some entry.1 := congrArg Coupon.key hother
    cases hkey
  · intro hnil
    rw [hnil]
    exact ⟨rfl, rfl⟩

/-- A directory with one coupon is read with its key by one reader and without it by the other. -/
theorem readers_disagree_on_one_coupon :
    ¬ ∀ dict : Dictionary, (pairCouponsOfDictionary dict : Multiset Coupon) = myCouponsOfDictionary dict := by
  intro h
  have hsame := h [(⟨"gift", by decide⟩, .node [(Coupon.descriptionKey, stringNode "tea")])]
  rw [Multiset.coe_eq_coe, List.perm_comm] at hsame
  have hkey := hsame.mem_iff.mp List.mem_cons_self
  revert hkey
  decide

end LoveCoupons
