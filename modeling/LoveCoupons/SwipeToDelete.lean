import LoveCoupons.ViewModels
import Mathlib.Data.Finset.Card

/-!
# Deleting rows of the user's coupons

The list shows eight placeholder rows while `isShowLoading` is set and the coupons otherwise.
`deleteItems` takes the first of the offsets it is given and indexes the coupons with it,
whatever is shown. While the placeholders are shown there are no coupons, so a swipe on one of
them is out of range; of several offsets all but the first are left alone.
-/

namespace LoveCoupons

open Reactive StepSystem

/-- `Coupon.placeholder`, with the identifier it draws as its description. -/
def Coupon.placeholder (draw : UUID) : Coupon := { description := draw.val }

/-- `viewDataItemsPlaceholder` -/
def viewDataItemsPlaceholder (draws : Fin 8 → UUID) : List Coupon := List.ofFn fun i => Coupon.placeholder (draws i)

/-- The rows of `MyCouponsView`. -/
def rows (draws : Fin 8 → UUID) (vm : CouponsViewModel) : List Coupon :=
  if vm.isShowLoading then viewDataItemsPlaceholder draws else vm.coupons

/-- The coupon shown in a row, if it has a key. -/
def keyedRow (rows : List Coupon) (i : ℕ) : Option Coupon := rows[i]?.filter fun coupon => coupon.key.isSome

/-- The coupons with a key in the rows at these offsets. -/
def couponsAt (rows : List Coupon) (offsets : Finset ℕ) : Multiset Coupon := offsets.val.filterMap (keyedRow rows)

/-- `deleteItems` stays in range and asks for the deletion of the coupons in these rows and of nothing
else. -/
def DeletesShown (draws : Fin 8 → UUID) (vm : CouponsViewModel) (offsets : Finset ℕ) : Prop :=
  ∃ asked, deleteItems vm offsets = some asked ∧ (asked : Multiset Coupon) = couponsAt (rows draws vm) offsets

/-- The feed that the initializer of `MyCouponsViewModel` subscribes to: without a user it fails at once. -/
def Feed.launched (userUid : Option Key) : Feed :=
  match userUid with
  | some _ => .start
  | none => { Feed.start with subject := ⟨none, ⟨false, [.failure ⟨.defaultMessage⟩]⟩⟩, timerFired := true }

/-- What ties the flag, the coupons and the scheduled values together: nothing is listed while loading, and
every coupon has a key. -/
structure Feed.Listed (s : Feed) : Prop where
  loading : s.viewModel.isShowLoading = true → s.viewModel.coupons = []
  shown : ∀ coupon ∈ s.viewModel.coupons, coupon.key.isSome = true
  queued : ∀ coupons, .value (some coupons) ∈ s.subject.subscription.queue →
    ∀ coupon ∈ coupons, coupon.key.isSome = true

/-- Every coupon that the feed decodes has its key. -/
theorem key_of_myCouponsOfDictionary {dict : Dictionary} {coupon : Coupon}
    (h : coupon ∈ myCouponsOfDictionary dict) : coupon.key.isSome = true := by
  obtain ⟨entry, -, hentry⟩ := List.mem_filterMap.mp h
  obtain ⟨data, -, rfl⟩ := Option.map_eq_some_iff.mp hentry
  rfl

/-- A new view model lists nothing. -/
theorem Feed.listed_launched (userUid : Option Key) : (Feed.launched userUid).Listed := by
  cases userUid with
  | some uid =>
    refine ⟨fun _ => rfl, fun coupon hcoupon => ?_, fun coupons hvalue => ?_⟩
    · cases hcoupon
    · simp [launched, start, CurrentValueSubject.subscribed] at hvalue
  | none =>
    refine ⟨fun _ => rfl, fun coupon hcoupon => ?_, fun coupons hvalue => ?_⟩
    · cases hcoupon
    · simp [launched] at hvalue

/-- A failure schedules no value. -/
theorem Feed.Listed.fail {s : Feed} (hs : s.Listed) (error : ApiError) (fired : Bool) :
    Feed.Listed { s with subject := s.subject.sendFailure error, timerFired := fired } := by
  refine ⟨hs.loading, hs.shown, fun coupons hvalue => ?_⟩
  cases hopen : s.subject.subscription.isOpen with
  | false =>
    rw [CurrentValueSubject.sendFailure_of_closed hopen] at hvalue
    exact hs.queued coupons hvalue
  | true =>
    rw [CurrentValueSubject.sendFailure_of_open hopen] at hvalue
    exact hs.queued coupons (by simpa using hvalue)

/-- A dictionary schedules coupons with keys. -/
theorem Feed.Listed.send {s : Feed} (hs : s.Listed) (dict : Dictionary) :
    Feed.Listed { s with subject := s.subject.send (some (FeedKind.mine.decode dict)) } := by
  refine ⟨hs.loading, hs.shown, fun coupons hvalue => ?_⟩
  cases hopen : s.subject.subscription.isOpen with
  | false =>
    rw [CurrentValueSubject.send_of_closed hopen] at hvalue
    exact hs.queued coupons hvalue
  | true =>
    rw [CurrentValueSubject.send_of_open hopen] at hvalue
    rcases List.mem_append.mp hvalue with hold | hnew
    · exact hs.queued coupons hold
    · have hcoupons : coupons = myCouponsOfDictionary dict := by simpa [FeedKind.decode] using hnew
      rw [hcoupons]
      exact fun coupon => key_of_myCouponsOfDictionary

/-- Every delivered event leaves the list as the flag says. -/
theorem Feed.Listed.deliver {nfc : String → String} {s : Feed} (hs : s.Listed)
    {event : Event (Option (List Coupon)) ApiError} {queue : List (Event (Option (List Coupon)) ApiError)}
    (hqueue : s.subject.subscription.queue = event :: queue) :
    Feed.Listed { s with
      subject := { s.subject with subscription := ⟨s.subject.subscription.isOpen, queue⟩ }
      viewModel := s.viewModel.receive nfc event } := by
  have hrest : ∀ coupons, .value (some coupons) ∈ queue → ∀ coupon ∈ coupons, coupon.key.isSome = true := by
    intro coupons hvalue
    exact hs.queued coupons (hqueue ▸ List.mem_cons_of_mem _ hvalue)
  cases event with
  | value coupons =>
    refine ⟨fun hloading => absurd hloading Bool.false_ne_true, fun coupon hcoupon => ?_, hrest⟩
    cases coupons with
    | none => cases hcoupon
    | some coupons =>
      have hmem : coupon ∈ coupons := (List.perm_insertionSort (DescriptionLe nfc) coupons).mem_iff.mp hcoupon
      exact hs.queued coupons (hqueue ▸ List.mem_cons_self) coupon hmem
  | finished => exact ⟨hs.loading, hs.shown, hrest⟩
  | failure error => exact ⟨fun hloading => absurd hloading Bool.false_ne_true, hs.shown, hrest⟩

/-- Every step of the feed keeps the list as the flag says. -/
theorem Feed.Listed.step {nfc : String → String} {s t : Feed} {a : FeedStep} (hs : s.Listed)
    (h : s.step nfc .mine a = some t) : t.Listed := by
  cases a with
  | snapshot value =>
    simp only [Feed.step] at h
    split at h <;> cases h
    · exact hs.send _
    · exact hs.fail _ s.timerFired
  | listenerCancel message =>
    cases h
    exact hs.fail _ s.timerFired
  | timer =>
    simp only [Feed.step] at h
    split at h
    · contradiction
    · split at h <;> cases h
      · exact ⟨hs.loading, hs.shown, hs.queued⟩
      · exact hs.fail _ true
  | deliver =>
    simp only [Feed.step] at h
    split at h
    · contradiction
    · rename_i event queue hqueue
      cases h
      exact hs.deliver hqueue

/-- A row that is there and has a key. -/
theorem keyedRow_eq_some {rows : List Coupon} (hkeys : ∀ coupon ∈ rows, coupon.key.isSome = true) {i : ℕ}
    (hi : i < rows.length) : keyedRow rows i = some rows[i] := by
  rw [keyedRow, List.getElem?_eq_getElem hi, Option.filter_some, if_pos (hkeys _ (List.getElem_mem hi))]

/-- Rows that are all there and all have a key are counted by their offsets. -/
theorem card_couponsAt {rows : List Coupon} (hkeys : ∀ coupon ∈ rows, coupon.key.isSome = true)
    {offsets : Finset ℕ} (hvalid : ∀ i ∈ offsets, i < rows.length) :
    (couponsAt rows offsets).card = offsets.card := by
  change (offsets.val.filterMap (keyedRow rows)).card = offsets.val.card
  change ∀ i ∈ offsets.val, i < rows.length at hvalid
  generalize offsets.val = m at hvalid ⊢
  induction m using Multiset.induction_on with
  | empty => rfl
  | cons i m ih =>
    have hrow := keyedRow_eq_some hkeys (hvalid i (Multiset.mem_cons_self i m))
    rw [Multiset.filterMap_cons_some _ _ _ hrow, Multiset.card_cons, Multiset.card_cons,
      ih fun j hj => hvalid j (Multiset.mem_cons_of_mem hj)]

/-- In every reachable state and for every nonempty set of offsets of shown rows, `deleteItems` deletes the
coupons of these rows exactly when nothing is loading and there is one offset. -/
theorem deleteItems_hits_shown_rows_iff (nfc : String → String) (userUid : Option Key) (draws : Fin 8 → UUID)
    {steps : List FeedStep} {s : Feed} (hrun : run (Feed.step nfc .mine) (.launched userUid) steps = some s)
    {offsets : Finset ℕ} (hnonempty : offsets.Nonempty)
    (hvalid : ∀ i ∈ offsets, i < (rows draws s.viewModel).length) :
    DeletesShown draws s.viewModel offsets ↔ s.viewModel.isShowLoading = false ∧ offsets.card = 1 := by
  have hs : s.Listed := run_invariant Feed.Listed (fun _ _ _ hs h => hs.step h) (Feed.listed_launched userUid) hrun
  obtain ⟨first, hfirst⟩ := Finset.min_of_nonempty hnonempty
  have hdelete : deleteItems s.viewModel offsets = s.viewModel.coupons[first]?.map fun coupon => [coupon] := by
    rw [deleteItems, hfirst]
  cases hloading : s.viewModel.isShowLoading with
  | true =>
    refine iff_of_false ?_ (by simp)
    rintro ⟨asked, hasked, -⟩
    rw [hdelete, hs.loading hloading] at hasked
    cases hasked
  | false =>
    have hrows : rows draws s.viewModel = s.viewModel.coupons := by simp [rows, hloading]
    rw [hrows] at hvalid
    have hlt : first < s.viewModel.coupons.length := hvalid first (Finset.mem_of_min hfirst)
    have hget := List.getElem?_eq_getElem hlt
    have hcard := card_couponsAt hs.shown hvalid
    rw [DeletesShown, hdelete, hrows, hget]
    constructor
    · rintro ⟨asked, hasked, hshown⟩
      refine ⟨rfl, ?_⟩
      rw [← hcard, ← hshown, ← Option.some.inj hasked]
      rfl
    · rintro ⟨-, hone⟩
      obtain ⟨i, rfl⟩ := Finset.card_eq_one.mp hone
      obtain rfl : first = i := Finset.mem_singleton.mp (Finset.mem_of_min hfirst)
      refine ⟨_, rfl, ?_⟩
      exact (Multiset.filterMap_cons_some _ first 0 (keyedRow_eq_some hs.shown hlt)).symm

/-- The user of the examples. -/
def swiper : Key := ⟨"swiper", by decide⟩

/-- Two coupons arrive in one snapshot and are listed. -/
def twoCouponsFeed : List FeedStep :=
  [.deliver, .snapshot (some (.node [(⟨"first", by decide⟩, .node [(Coupon.descriptionKey, stringNode "tea")]),
    (⟨"second", by decide⟩, .node [(Coupon.descriptionKey, stringNode "wine")])])), .deliver]

/-- The identifiers drawn for the placeholders. -/
def placeholderDraws : Fin 8 → UUID := fun _ => ⟨"00000000-0000-0000-0000-0000000000E8", by decide⟩

/-- A swipe on the second of two listed coupons deletes it. -/
theorem swipe_deletes_second_row :
    ∃ s, run (Feed.step id .mine) (.launched (some swiper)) twoCouponsFeed = some s ∧
      s.viewModel.isShowLoading = false ∧ DeletesShown placeholderDraws s.viewModel {1} := by
  refine ⟨_, rfl, rfl, (@deleteItems_hits_shown_rows_iff id (some swiper) placeholderDraws twoCouponsFeed _ rfl {1}
    (Finset.singleton_nonempty 1) ?_).mpr ⟨rfl, rfl⟩⟩
  intro i hi
  rw [Finset.mem_singleton.mp hi]
  decide

/-- A swipe on a placeholder row, before anything is delivered, is out of range; and of two listed coupons whose rows
are both given, only the first one is deleted. -/
theorem swipes_miss_shown_rows :
    (¬ ∀ steps s, run (Feed.step id .mine) (.launched (some swiper)) steps = some s →
      ∀ offsets : Finset ℕ, offsets.Nonempty → (∀ i ∈ offsets, i < (rows placeholderDraws s.viewModel).length) →
        DeletesShown placeholderDraws s.viewModel offsets) ∧
    ¬ ∀ steps s, run (Feed.step id .mine) (.launched (some swiper)) steps = some s →
      s.viewModel.isShowLoading = false → ∀ offsets : Finset ℕ, offsets.Nonempty →
        (∀ i ∈ offsets, i < (rows placeholderDraws s.viewModel).length) →
          DeletesShown placeholderDraws s.viewModel offsets := by
  constructor
  · intro h
    obtain ⟨asked, hasked, -⟩ := h [] _ rfl {0} (Finset.singleton_nonempty 0) (by decide)
    revert hasked
    simp [deleteItems, Feed.launched, Feed.start]
  · intro h
    obtain ⟨asked, hasked, hshown⟩ := h twoCouponsFeed _ rfl rfl {0, 1} (Finset.insert_nonempty 0 {1}) (by decide)
    have hone : asked.length = 1 := by
      rw [← Option.some.inj hasked]
      rfl
    have htwo := congrArg Multiset.card hshown
    rw [Multiset.coe_card, hone] at htwo
    revert htwo
    decide

end LoveCoupons
