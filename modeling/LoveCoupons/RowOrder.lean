import LoveCoupons.CouponFeed
import LoveCoupons.CouponReaders

/-!
# The order of the rows

A dictionary has no order of its own. `getMyCoupons` decodes the children of a snapshot in the order
in which the dictionary enumerates them, and the view model sorts the coupons by description. The
sort is stable and compares nothing else, so coupons with the same description stay in the order of
the enumeration, and with them the numbers that their rows show.

The order is fixed by the data exactly when no two coupons have the same description.
-/

namespace LoveCoupons

open KeyedTree Reactive

/-- A stable sort leaves elements that compare equal in their order. -/
theorem filter_insertionSort {α : Type*} {r : α → α → Prop} [DecidableRel r] {p : α → Bool}
    (hp : ∀ a b, p a = true → p b = true → r a b) (l : List α) : (l.insertionSort r).filter p = l.filter p := by
  have hties : (l.filter p).Pairwise r := by
    rw [List.pairwise_iff_forall_sublist]
    intro a b hab
    have ha := List.mem_filter.mp (hab.subset List.mem_cons_self)
    have hb := List.mem_filter.mp (hab.subset (List.mem_cons_of_mem _ List.mem_cons_self))
    exact hp a b ha.2 hb.2
  have hsub : (l.filter p).Sublist ((l.insertionSort r).filter p) := by
    have hsorted := (List.sublist_insertionSort hties List.filter_sublist).filter p
    simpa only [List.filter_filter, Bool.and_self] using hsorted
  exact (hsub.eq_of_length ((List.perm_insertionSort r l).filter p).length_eq.symm).symm

/-- The rows that the view model shows after it received the children of a snapshot in this order. -/
def shownRows (nfc : String → String) (vm : CouponsViewModel) (enumeration : Dictionary) : List Coupon :=
  (vm.receive nfc (.value (some (FeedKind.mine.decode enumeration)))).coupons

/-- The view model shows the same rows for every enumeration of the dictionary, whatever it showed before. -/
def OrderFixed (nfc : String → String) (dict : Dictionary) : Prop :=
  ∀ vm vm' first second, first.Perm dict → second.Perm dict →
    shownRows nfc vm first = shownRows nfc vm' second

/-- No two dictionary-valued children have descriptions that compare equal. -/
def DistinctDescriptions (nfc : String → String) (dict : Dictionary) : Prop :=
  ∀ entry ∈ dict, ∀ other ∈ dict, (asDictionary (some entry.2)).isSome = true →
    (asDictionary (some other.2)).isSome = true → entry.1 ≠ other.1 →
      nfc (fieldText entry.2 Coupon.descriptionKey) ≠ nfc (fieldText other.2 Coupon.descriptionKey)

/-- The rows are the coupons of the children, sorted. -/
theorem shownRows_eq (nfc : String → String) (vm : CouponsViewModel) (enumeration : Dictionary) :
    shownRows nfc vm enumeration = (childCoupons enumeration).insertionSort (DescriptionLe nfc) := by
  rw [← myCouponsOfDictionary_eq]
  rfl

/-- Another enumeration makes the same coupons in another order. -/
theorem childCoupons_perm {first second : Dictionary} (h : first.Perm second) :
    (childCoupons first).Perm (childCoupons second) := (h.filter _).map _

/-- A child that is a dictionary makes a coupon, and every coupon comes from one. -/
theorem mem_childCoupons {dict : Dictionary} {coupon : Coupon} : coupon ∈ childCoupons dict ↔
    ∃ entry ∈ dict, (asDictionary (some entry.2)).isSome = true ∧ childCoupon entry = coupon := by
  simp [childCoupons, and_assoc]

/-- Without ties the order is fixed. -/
theorem orderFixed_of_distinct {nfc : String → String} {dict : Dictionary} (hkeys : (dict.map Prod.fst).Nodup)
    (hdistinct : DistinctDescriptions nfc dict) : OrderFixed nfc dict := by
  intro vm vm' first second hfirst hsecond
  rw [shownRows_eq, shownRows_eq]
  have hperm := (childCoupons_perm hfirst).trans (childCoupons_perm hsecond).symm
  have hrows := ((List.perm_insertionSort (DescriptionLe nfc) _).trans hperm).trans
    (List.perm_insertionSort (DescriptionLe nfc) _).symm
  refine hrows.eq_of_pairwise ?_ (List.pairwise_insertionSort _ _) (List.pairwise_insertionSort _ _)
  intro coupon other hcoupon hother hle hge
  rw [List.mem_insertionSort] at hcoupon hother
  obtain ⟨entry, hentry, hdict, rfl⟩ := mem_childCoupons.mp hcoupon
  obtain ⟨entry', hentry', hdict', rfl⟩ := mem_childCoupons.mp hother
  by_cases hkey : entry.1 = entry'.1
  · rw [List.inj_on_of_nodup_map hkeys (hfirst.mem_iff.mp hentry) (hsecond.mem_iff.mp hentry') hkey]
  · exact absurd (le_antisymm hle hge)
      (hdistinct entry (hfirst.mem_iff.mp hentry) entry' (hsecond.mem_iff.mp hentry') hdict hdict' hkey)

/-- The first child of an enumeration makes the first of the coupons that compare equal to its own. -/
theorem head?_filter_childCoupons {p : Coupon → Bool} {entry : Key × Tree Key Leaf} (rest : Dictionary)
    (hentry : (asDictionary (some entry.2)).isSome = true) (hp : p (childCoupon entry) = true) :
    ((childCoupons (entry :: rest)).filter p).head? = some (childCoupon entry) := by
  simp [childCoupons, hentry, hp]

/-- Two children with ties among their coupons are shown in the order of the enumeration. -/
theorem OrderFixed.distinct {nfc : String → String} {dict : Dictionary} (hfixed : OrderFixed nfc dict) :
    DistinctDescriptions nfc dict := by
  intro entry hentry other hother hdict hdict' hkey htie
  have hfront : ∀ e ∈ dict, ∃ rest, (e :: rest).Perm dict := by
    intro e he
    obtain ⟨before, after, rfl⟩ := List.append_of_mem he
    exact ⟨before ++ after, List.perm_middle.symm⟩
  obtain ⟨rest, hrest⟩ := hfront entry hentry
  obtain ⟨rest', hrest'⟩ := hfront other hother
  have hsame := hfixed {} {} _ _ hrest hrest'
  rw [shownRows_eq, shownRows_eq] at hsame
  let ties : Coupon → Bool := fun coupon => nfc coupon.description = nfc (childCoupon entry).description
  have hties : ∀ a b, ties a = true → ties b = true → DescriptionLe nfc a b := by
    intro a b ha hb
    exact le_of_eq ((of_decide_eq_true ha).trans (of_decide_eq_true hb).symm)
  have hfilter := congrArg (List.filter ties) hsame
  rw [filter_insertionSort hties, filter_insertionSort hties] at hfilter
  have hheads := congrArg List.head? hfilter
  rw [head?_filter_childCoupons rest hdict (decide_eq_true rfl),
    head?_filter_childCoupons rest' hdict' (decide_eq_true htie.symm)] at hheads
  exact hkey (Option.some.inj (congrArg Coupon.key (Option.some.inj hheads)))

/-- The rows depend on the data alone exactly when no two coupons of the snapshot have descriptions that
compare equal. -/
theorem row_order_fixed_iff (nfc : String → String) {dict : Dictionary} (hkeys : (dict.map Prod.fst).Nodup) :
    OrderFixed nfc dict ↔ DistinctDescriptions nfc dict :=
  ⟨OrderFixed.distinct, orderFixed_of_distinct hkeys⟩

/-- A coupon with only a description, as a child of a directory. -/
def teaChild : Tree Key Leaf := .node [(Coupon.descriptionKey, stringNode "tea")]

/-- A coupon with another description. -/
def wineChild : Tree Key Leaf := .node [(Coupon.descriptionKey, stringNode "wine")]

/-- Two coupons with different descriptions are always shown in the same order. -/
theorem tea_before_wine : OrderFixed id [(⟨"oak", by decide⟩, wineChild), (⟨"elm", by decide⟩, teaChild)] := by
  refine (row_order_fixed_iff id (by decide)).mpr ?_
  unfold DistinctDescriptions
  decide

/-- Two coupons with the same description change places with the enumeration. -/
theorem equal_descriptions_change_places :
    ¬ ∀ dict : Dictionary, (dict.map Prod.fst).Nodup → OrderFixed id dict := by
  intro h
  have hsame := h [(⟨"oak", by decide⟩, teaChild), (⟨"elm", by decide⟩, teaChild)] (by decide) {} {} _ _
    (List.Perm.refl _) (List.Perm.swap _ _ _)
  revert hsame
  decide

end LoveCoupons
