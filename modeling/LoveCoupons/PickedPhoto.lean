import LoveCoupons.ViewModels

/-!
# The picked photo and the saved one

The image store of the coupon screen is written by the image picker and by every image load
that responds, with the placeholder if the load failed. The loading flag keeps a pick out while
an image is being loaded, but the same flag is cleared by the end of a save and by the response
of another load. A load that responds after the pick then replaces the picked photo, and the
next press saves what the load brought.
-/

namespace LoveCoupons

open Reactive StepSystem

/-- The coupon screen with its requests. -/
abbrev CouponEditHost := Host CouponEditViewModel CouponEditRequest.Value CouponEditRequest.Error

/-- A step of the coupon screen. -/
abbrev CouponEditStep := HostStep CouponEditPress CouponEditRequest.Value CouponEditRequest.Error

/-- An identifier that a press draws. -/
def drawn : UUID := ⟨"00000000-0000-0000-0000-0000000000F2", by decide⟩

variable {isURL : String → Bool}

/-- If the user has picked an image, a press now passes the last picked image to `updateCoupon`. -/
def PassesPicked (s : CouponEditHost) : Prop :=
  ∀ picked ∈ s.fields.picked, ∀ object fresh vm request,
    s.fields.act (.sendButtonPressed object fresh) = some (vm, some request) →
      ∃ coupon, request = .updateCoupon object fresh coupon (imageData (some picked))

/-- The image that the response of a load puts into the store. -/
def CouponEditRequest.loaded : (request : CouponEditRequest) → Event request.Value request.Error → Option UIImage
  | .getMediaData _, .value image => some (image.getD addImage)
  | _, _ => none

/-- A load that responds after a pick brings the bytes of the picked image. -/
def loadsPicked (s : CouponEditHost) : CouponEditStep → Prop
  | .deliver i => ∀ r ∈ s.requests[i]?, ∀ event ∈ r.subscription.queue.head?, ∀ image ∈ r.kind.loaded event,
      ∀ picked ∈ s.fields.picked, imageData (some image) = imageData (some picked)
  | _ => True

instance (s : CouponEditHost) : (a : CouponEditStep) → Decidable (loadsPicked s a)
  | .deliver i => inferInstanceAs (Decidable (∀ r ∈ s.requests[i]?, ∀ event ∈ r.subscription.queue.head?,
      ∀ image ∈ r.kind.loaded event, ∀ picked ∈ s.fields.picked, imageData (some image) = imageData (some picked)))
  | .act _ => inferInstanceAs (Decidable True)
  | .complete _ _ => inferInstanceAs (Decidable True)
  | .send _ _ => inferInstanceAs (Decidable True)

/-- A press passes what is in the image store. -/
theorem passesPicked_iff (s : CouponEditHost) : PassesPicked s ↔
    ∀ picked ∈ s.fields.picked, imageData s.fields.image = imageData (some picked) := by
  constructor
  · intro h picked hpicked
    obtain ⟨coupon, hrequest⟩ := h picked hpicked drawn drawn _ _ rfl
    injection hrequest
  · intro h picked hpicked object fresh vm request hpress
    cases hpress
    exact ⟨_, by rw [h picked hpicked]⟩

/-- The store is untouched by every action but a pick, which makes its image the picked one. -/
theorem image_of_act {vm vm' : CouponEditViewModel} {press : CouponEditPress} {next : Option CouponEditRequest}
    (h : vm.act press = some (vm', next)) :
    (vm'.image = vm.image ∧ vm'.picked = vm.picked) ∨ ∃ image, vm'.image = some image ∧ vm'.picked = some image := by
  cases press with
  | pick image =>
    simp only [CouponEditViewModel.act] at h
    split at h <;> cases h
    exact .inr ⟨image, rfl, rfl⟩
  | _ =>
    cases h
    exact .inl ⟨rfl, rfl⟩

/-- A sink puts the image of a load into the store and leaves the picked one alone. -/
theorem image_of_receive (vm : CouponEditViewModel) (request : CouponEditRequest)
    (event : Event request.Value request.Error) :
    (vm.receive request event).image = (request.loaded event).or vm.image ∧
      (vm.receive request event).picked = vm.picked := by
  cases request with
  | updateCoupon object fresh coupon data => cases event <;> exact ⟨rfl, rfl⟩
  | getMediaData urlString =>
    cases event with
    | value image => exact ⟨rfl, rfl⟩
    | finished => exact ⟨rfl, rfl⟩
    | failure error => exact error.elim

/-- A step keeps the picked image in the store exactly when a load that responds brings it. -/
theorem passesPicked_step_iff {s t : CouponEditHost} {a : CouponEditStep} (hs : PassesPicked s)
    (h : s.step (couponEditViewModel isURL) a = some t) : PassesPicked t ↔ loadsPicked s a := by
  rw [passesPicked_iff] at hs ⊢
  cases Host.step_cases h with
  | complete _ _ => exact iff_of_true hs trivial
  | send _ _ => exact iff_of_true hs trivial
  | @act press vm next hact =>
    refine iff_of_true ?_ trivial
    change ∀ picked ∈ vm.picked, imageData vm.image = imageData (some picked)
    rcases image_of_act hact with ⟨himage, hpicked⟩ | ⟨image, himage, hpicked⟩
    · rw [himage, hpicked]
      exact hs
    · rw [himage, hpicked]
      intro picked hmem
      rw [Option.mem_some_iff.mp hmem]
  | @deliver i r event queue vm next hget hqueue hreceive =>
    cases hreceive
    obtain ⟨himage, hpicked⟩ := image_of_receive s.fields r.kind event
    change (∀ picked ∈ (s.fields.receive r.kind event).picked,
      imageData (s.fields.receive r.kind event).image = imageData (some picked)) ↔ _
    rw [himage, hpicked]
    have hcondition : loadsPicked s (.deliver i) ↔ ∀ image ∈ r.kind.loaded event,
        ∀ picked ∈ s.fields.picked, imageData (some image) = imageData (some picked) := by
      simp only [loadsPicked, hget, Option.mem_def, Option.some.injEq, forall_eq', hqueue, List.head?_cons]
    rw [hcondition]
    cases r.kind.loaded event with
    | none => exact iff_of_true hs (by simp)
    | some image => simp

/-- In every run of the coupon screen, every press passes the last picked image exactly when no load that
responds after a pick brings another image. -/
theorem press_passes_picked_iff (isURL : String → Bool) (coupon : Coupon) {steps : List CouponEditStep}
    {s : CouponEditHost}
    (hrun : run (Host.step (couponEditViewModel isURL)) (.opened (.opened coupon)) steps = some s) :
    Always (Host.step (couponEditViewModel isURL)) PassesPicked (.opened (.opened coupon)) steps ↔
      Along (Host.step (couponEditViewModel isURL)) loadsPicked (.opened (.opened coupon)) steps := by
  refine always_iff_along (fun _ => True) PassesPicked (fun _ _ _ _ _ => trivial)
    (fun _ _ _ _ hs h => passesPicked_step_iff hs h) trivial ?_ hrun
  rw [passesPicked_iff]
  intro picked hpicked
  cases hpicked

/-- The photo that is picked. -/
def photo : UIImage := ⟨false, some [7]⟩

/-- A coupon whose image is at a URL. -/
def picturedCoupon : Coupon := { description := "Dinner", image := "https://images.example/dinner.jpg" }

/-- Every string but the empty one makes a URL. -/
def nonemptyIsURL (urlString : String) : Bool := !urlString.isEmpty

/-- The response of the image load is delivered before the photo is picked. -/
def pickAfterLoad : List CouponEditStep :=
  [.act .updateImage, .complete 0 fun | .updateCoupon _ _ _ _ => .ok true | .getMediaData _ => .ok none, .deliver 0,
    .act (.pick photo)]

/-- After that a press passes the photo. -/
theorem pickAfterLoad_passes_photo :
    ∃ s, run (Host.step (couponEditViewModel nonemptyIsURL)) (.opened (.opened picturedCoupon)) pickAfterLoad = some s ∧
      Always (Host.step (couponEditViewModel nonemptyIsURL)) PassesPicked (.opened (.opened picturedCoupon))
        pickAfterLoad :=
  ⟨_, rfl, (press_passes_picked_iff nonemptyIsURL picturedCoupon rfl).mpr (by decide)⟩

/-- The image of the coupon is asked for at its URL, a save without an image is refused meanwhile, a photo is
picked, and the load fails. -/
def loadAfterPick : List CouponEditStep :=
  [.act .updateImage, .act (.sendButtonPressed drawn drawn),
    .complete 1 fun | .updateCoupon _ _ _ _ => .error ⟨.fields⟩ | .getMediaData _ => .ok none, .deliver 1,
    .act (.pick photo), .complete 0 fun | .updateCoupon _ _ _ _ => .ok true | .getMediaData _ => .ok none, .deliver 0]

/-- After that the placeholder has replaced the photo, and a press passes no image. -/
theorem picked_photo_replaced_by_placeholder : ¬ ∀ isURL coupon steps s,
    run (Host.step (couponEditViewModel isURL)) (.opened (.opened coupon)) steps = some s → PassesPicked s := by
  intro h
  have hdata := (passesPicked_iff _).mp (h nonemptyIsURL picturedCoupon loadAfterPick _ rfl) photo rfl
  revert hdata
  decide

end LoveCoupons
