import LoveCoupons.ViewModels

/-!
# Mails to the pair

A tap on a coupon of the pair reads the user's record and then the pair's e-mail, puts both
texts of the mail into the mail store and presents a mail view. All taps share the one store,
and the composer reads it when it is made. The e-mail is stored only if the pair's record has
one, so the store may still hold the e-mail of an earlier tap, and a later tap may write the
store before the composer of an earlier one is made.
-/

namespace LoveCoupons

open Reactive StepSystem

/-- The pair's coupon screen with its requests. -/
abbrev PairCouponsHost := Host PairCouponsViewModel PairCouponsRequest.Value (fun _ => ApiError)

/-- A step of the pair's coupon screen. -/
abbrev PairCouponsStep := HostStep PairCouponsPress PairCouponsRequest.Value (fun _ => ApiError)

/-- What the composer of a tap should read: the e-mail that the tap read, empty if there was none, and the
description of its coupon. -/
def Presentation.ownStore (p : Presentation) : MailDataStore := ⟨p.email.getD "", p.coupon.description⟩

/-- Every composer that was made is the one of its own tap, and so is every composer that is made now. -/
def OwnMails (s : PairCouponsHost) : Prop :=
  ∀ p ∈ s.fields.presentations, (∀ composer ∈ p.composer, composer = makeUIViewController p.ownStore) ∧
    (p.isWaiting = true → makeUIViewController s.fields.mailDataStore = makeUIViewController p.ownStore)

/-- The coupon and the e-mail with which a response writes the mail store. -/
def PairCouponsRequest.mail : (request : PairCouponsRequest) → Event request.Value ApiError →
    Option (Coupon × Option String)
  | .getPairEmail _ coupon, .value email => some (coupon, email)
  | _, _ => none

/-- A response without an e-mail comes while no e-mail is stored, and no mail view waits for its composer
unless its texts are the ones of the response. -/
def writesOwnMail (s : PairCouponsHost) : PairCouponsStep → Prop
  | .deliver i => ∀ r ∈ s.requests[i]?, ∀ event ∈ r.subscription.queue.head?, ∀ mail ∈ r.kind.mail event,
      (mail.2 = none → s.fields.mailDataStore.emailMessage = "") ∧
        ∀ p ∈ s.fields.presentations, p.isWaiting = true →
          p.ownStore = ⟨mail.2.getD "", mail.1.description⟩
  | _ => True

instance (s : PairCouponsHost) : (a : PairCouponsStep) → Decidable (writesOwnMail s a)
  | .deliver i => inferInstanceAs (Decidable (∀ r ∈ s.requests[i]?, ∀ event ∈ r.subscription.queue.head?,
      ∀ mail ∈ r.kind.mail event, (mail.2 = none → s.fields.mailDataStore.emailMessage = "") ∧
        ∀ p ∈ s.fields.presentations, p.isWaiting = true → p.ownStore = ⟨mail.2.getD "", mail.1.description⟩))
  | .act _ => inferInstanceAs (Decidable True)
  | .complete _ _ => inferInstanceAs (Decidable True)
  | .send _ _ => inferInstanceAs (Decidable True)

/-- A composer shows what was in the store. -/
theorem makeUIViewController_inj {store store' : MailDataStore} :
    makeUIViewController store = makeUIViewController store' ↔ store = store' := by
  constructor
  · intro h
    have hrecipients : store.emailMessage = store'.emailMessage :=
      List.singleton_inj.mp (congrArg MailComposer.recipients h)
    have hbody := congrArg MailComposer.body h
    simp only [makeUIViewController, String.append_left_inj, String.append_right_inj] at hbody
    cases store
    cases store'
    simp_all
  · intro h
    rw [h]

/-- What a sink does to the store and to the mail views. -/
theorem mail_of_receive {nfc : String → String} {vm vm' : PairCouponsViewModel} {request : PairCouponsRequest}
    {event : Event request.Value ApiError} {next : Option PairCouponsRequest}
    (h : vm.receive nfc request event = some (vm', next)) :
    match request.mail event with
    | some (coupon, email) => vm' = vm.showSendMailPicker coupon email
    | none => vm'.mailDataStore = vm.mailDataStore ∧ vm'.presentations = vm.presentations := by
  cases PairCouponsViewModel.receive_cases h with
  | mailFailed request error hmail => cases request <;> exact ⟨rfl, rfl⟩
  | finished request hfeed => cases request <;> exact ⟨rfl, rfl⟩
  | read pairId coupon email => rfl
  | _ => exact ⟨rfl, rfl⟩

/-- Mails are kept by what changes neither the store nor the mail views. -/
theorem ownMails_congr {s t : PairCouponsHost} (hstore : t.fields.mailDataStore = s.fields.mailDataStore)
    (hviews : t.fields.presentations = s.fields.presentations) : OwnMails t ↔ OwnMails s := by
  unfold OwnMails
  rw [hstore, hviews]

/-- A mail view that waits no more keeps the mails if its composer, if any, is its own. -/
theorem OwnMails.endPresentation {s : PairCouponsHost} (hs : OwnMails s) {i : ℕ} {composer : Option MailComposer}
    {vm : PairCouponsViewModel} (h : s.fields.endPresentation i composer = some vm)
    (hown : ∀ p, p ∈ s.fields.presentations → p.isWaiting = true →
      ∀ made ∈ composer, made = makeUIViewController p.ownStore)
    (requests : List (LiveRequest PairCouponsRequest.Value (fun _ => ApiError))) : OwnMails ⟨vm, requests⟩ := by
  obtain ⟨p, hget, hwaiting, rfl⟩ := PairCouponsViewModel.endPresentation_cases h
  intro p' hp'
  rcases List.mem_or_eq_of_mem_set hp' with hold | rfl
  · exact hs p' hold
  · refine ⟨hown p (List.mem_of_getElem? hget) hwaiting, fun hfalse => ?_⟩
    cases hfalse

/-- A response that writes the store keeps the mails exactly when it writes nothing that another tap left or
still needs. -/
theorem ownMails_showSendMailPicker_iff {s : PairCouponsHost} (hs : OwnMails s) (coupon : Coupon)
    (email : Option String) (requests : List (LiveRequest PairCouponsRequest.Value (fun _ => ApiError))) :
    OwnMails ⟨s.fields.showSendMailPicker coupon email, requests⟩ ↔
      (email = none → s.fields.mailDataStore.emailMessage = "") ∧
        ∀ p ∈ s.fields.presentations, p.isWaiting = true → p.ownStore = ⟨email.getD "", coupon.description⟩ := by
  have hstore : (⟨email.getD s.fields.mailDataStore.emailMessage, coupon.description⟩ : MailDataStore) =
      ⟨email.getD "", coupon.description⟩ ↔ (email = none → s.fields.mailDataStore.emailMessage = "") := by
    cases email <;> simp
  constructor
  · intro h
    have hnew := (h { coupon := coupon, email := email } (List.mem_append_right _ List.mem_cons_self)).2 rfl
    have hwritten := hstore.mp (makeUIViewController_inj.mp hnew)
    refine ⟨hwritten, fun p hp hwaiting => ?_⟩
    have hold := (h p (List.mem_append_left _ hp)).2 hwaiting
    exact (makeUIViewController_inj.mp hold).symm.trans (hstore.mpr hwritten)
  · rintro ⟨hwritten, hothers⟩ p hp
    rcases List.mem_append.mp hp with hold | hnew
    · refine ⟨(hs p hold).1, fun hwaiting => makeUIViewController_inj.mpr ?_⟩
      exact (hstore.mpr hwritten).trans (hothers p hold hwaiting).symm
    · rw [List.mem_singleton.mp hnew]
      refine ⟨fun composer hcomposer => ?_, fun _ => makeUIViewController_inj.mpr (hstore.mpr hwritten)⟩
      cases hcomposer

/-- A step keeps every composer the one of its own tap exactly when a response writes its own mail. -/
theorem ownMails_step_iff {nfc : String → String} {s t : PairCouponsHost} {a : PairCouponsStep}
    (hs : OwnMails s) (h : s.step (pairCouponsViewModel nfc) a = some t) : OwnMails t ↔ writesOwnMail s a := by
  cases Host.step_cases h with
  | complete _ _ => exact iff_of_true hs trivial
  | send _ _ => exact iff_of_true hs trivial
  | @act press vm next hact =>
    refine iff_of_true ?_ trivial
    cases press with
    | showSendEmailView canSendMail coupon =>
      cases canSendMail <;> cases hact <;> exact hs
    | makeUIViewController i =>
      obtain ⟨vm', hend, heq⟩ := Option.map_eq_some_iff.mp hact
      cases heq
      refine hs.endPresentation hend (fun p hp hwaiting made hmade => ?_) _
      rw [← Option.mem_some_iff.mp hmade]
      exact (hs p hp).2 hwaiting
    | dropPresentation i =>
      obtain ⟨vm', hend, heq⟩ := Option.map_eq_some_iff.mp hact
      cases heq
      refine hs.endPresentation hend (fun p hp hwaiting made hmade => ?_) _
      cases hmade
  | @deliver i r event queue vm next hget hqueue hreceive =>
    have hcondition : writesOwnMail s (.deliver i) ↔ ∀ mail ∈ r.kind.mail event,
        (mail.2 = none → s.fields.mailDataStore.emailMessage = "") ∧
          ∀ p ∈ s.fields.presentations, p.isWaiting = true →
            p.ownStore = ⟨mail.2.getD "", mail.1.description⟩ := by
      simp only [writesOwnMail, hget, Option.mem_def, Option.some.injEq, forall_eq', hqueue, List.head?_cons]
    rw [hcondition]
    have hmail := mail_of_receive hreceive
    cases hread : r.kind.mail event with
    | none =>
      rw [hread] at hmail
      exact iff_of_true ((ownMails_congr hmail.1 hmail.2).mpr hs) (by simp)
    | some mail =>
      rw [hread] at hmail
      obtain ⟨coupon, email⟩ := mail
      simp only at hmail
      subst hmail
      refine (ownMails_showSendMailPicker_iff hs coupon email _).trans ?_
      simp

/-- In every run of the pair's coupon screen, every composer is created with the e-mail and the description
of its own tap exactly when every response writes its own mail: without an e-mail only while none is
stored, and only while no mail view with other texts waits for its composer. -/
theorem mail_is_of_own_tap_iff (nfc : String → String) {steps : List PairCouponsStep} {s : PairCouponsHost}
    (hrun : run (Host.step (pairCouponsViewModel nfc)) (pairCouponsLaunched nfc) steps = some s) :
    Always (Host.step (pairCouponsViewModel nfc)) OwnMails (pairCouponsLaunched nfc) steps ↔
      Along (Host.step (pairCouponsViewModel nfc)) writesOwnMail (pairCouponsLaunched nfc) steps := by
  refine always_iff_along (fun _ => True) OwnMails (fun _ _ _ _ _ => trivial)
    (fun _ _ _ _ hs h => ownMails_step_iff hs h) trivial ?_ hrun
  intro p hp
  cases hp

/-- The replies for a tap whose pair has this e-mail. -/
def pairReplies (email : Option String) : (request : PairCouponsRequest) → Except ApiError request.Value
  | .getUserInfo => .ok none
  | .getPairCoupons _ => .ok none
  | .getUserInfoForMail _ => .ok (some ⟨some "Ann", none, some "bob"⟩)
  | .getPairEmail _ _ => .ok email

/-- A tap on a coupon, its two reads at these positions, and the composer of its mail view. -/
def tapAndMake (coupon : Coupon) (email : Option String) (first view : ℕ) : List PairCouponsStep :=
  [.act (.showSendEmailView true coupon), .complete first (pairReplies email), .deliver first,
    .complete (first + 1) (pairReplies email), .deliver (first + 1), .act (.makeUIViewController view)]

/-- One tap whose pair has an e-mail makes a composer with that e-mail and the coupon's description. -/
theorem first_tap_makes_own_mail :
    ∃ s, run (Host.step (pairCouponsViewModel id)) (pairCouponsLaunched id)
        (tapAndMake { description := "tea" } (some "bob@mail") 1 0) = some s ∧
      Always (Host.step (pairCouponsViewModel id)) OwnMails (pairCouponsLaunched id)
        (tapAndMake { description := "tea" } (some "bob@mail") 1 0) := by
  refine ⟨_, rfl, (@mail_is_of_own_tap_iff id (tapAndMake { description := "tea" } (some "bob@mail") 1 0) _ rfl).mpr
    ?_⟩
  decide

/-- The second tap reads a record without an e-mail, and its composer is made with the e-mail of the
first. -/
theorem second_tap_mails_first_recipient :
    ¬ ∀ steps s, run (Host.step (pairCouponsViewModel id)) (pairCouponsLaunched id) steps = some s →
      ∀ p ∈ s.fields.presentations, ∀ composer ∈ p.composer, composer = makeUIViewController p.ownStore := by
  intro h
  have hown := h (tapAndMake { description := "tea" } (some "bob@mail") 1 0 ++
    tapAndMake { description := "wine" } none 3 1) _ rfl _ (List.mem_cons_of_mem _ List.mem_cons_self) _ rfl
  revert hown
  decide

end LoveCoupons
