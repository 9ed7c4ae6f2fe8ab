import LoveCoupons.CouponWrites

/-!
# The order of the answered calls

In every run of the client, the write of a deletion comes after everything that was answered
before the deletion was issued, and no URL is asked for before its image was uploaded.
-/

namespace LoveCoupons

open KeyedTree Reactive StepSystem

/-- The chain of an issued operation. -/
def IsOrigin (uid key : Key) : Issued → ApiChain → Prop
  | .update image description, chain => ∃ coupon data, coupon.description = description ∧
      chain = updateCouponChain coupon data image (couponRef uid key)
  | .delete, chain => chain = deleteChain (.setValue (couponRef uid key) none)

/-- What holds in every state of the client: the requests run the chains of the operations on the
coupon, no write is waited for, deletions have made their write, updates have images of their own, and
the write of a deletion comes after everything that was answered before it was issued. -/
structure Client.Ordered (b₀ : Backend) (uid key : Key) (s : Client) : Prop where
  journaled : s.Journaled Backend.service b₀
  user : s.backend.currentUser = some uid
  origins : ∀ entry ∈ s.requests, IsOrigin uid key entry.1 entry.2.origin
  waiting : ∀ entry ∈ s.requests, entry.2.Waits Backend.service
  deleted : ∀ entry ∈ s.requests, entry.1 = .delete → entry.2.answers ≠ []
  distinct : ∀ i j op image, s.tagAt i = some op → op.image = some image →
    ∀ op', s.tagAt j = some op' → op'.image = some image → i = j
  issued : s.journal.Pairwise fun earlier later => s.tagAt later.1 = some .delete → earlier.1 ≤ later.1

/-- The pending call of an issued operation is none of the authentication service, and a deletion that
has made its write has none. -/
theorem IsOrigin.call {uid key : Key} {op : Issued} {r : ApiRequest} (horigin : IsOrigin uid key op r.origin)
    {call : Call} {next : Answer → ApiChain} (hrest : r.rest = some (.call call next)) :
    (∀ email password, call ≠ .signIn email password) ∧
      (∀ email password, call ≠ .createUser email password) ∧ (op = .delete → r.answers = []) := by
  cases op with
  | update image description =>
    obtain ⟨coupon, data, -, hchain⟩ := horigin
    rcases call_of_updateCouponChain hchain hrest with ⟨-, rfl⟩ | ⟨upload, -, rfl⟩ |
      ⟨upload, fetch, url, -, -, rfl⟩ <;> simp
  | delete =>
    rw [Request.rest, show r.origin = _ from horigin, deleteChain] at hrest
    rcases Chain.resume_single_cases (fun _ => ⟨_, rfl⟩) hrest with ⟨hanswers, hcall⟩ | ⟨a, -, hcall⟩
    · cases hcall
      simp [hanswers]
    · cases hcall

/-- A reply to an issued operation keeps the user, and goes to an update or to a deletion that has not
made its write. -/
theorem IsOrigin.acts {uid key : Key} {op : Issued} {b b' : Backend} {r r' : ApiRequest}
    (horigin : IsOrigin uid key op r.origin) (h : Request.Acts Backend.service b r b' r') :
    b'.currentUser = b.currentUser ∧ r'.origin = r.origin ∧
      (op = .delete → r.answers ≠ [] → r'.answers = r.answers) := by
  cases h with
  | idle hsame hanswers => exact ⟨rfl, hsame, fun _ _ => hanswers⟩
  | reply hrest hrespond =>
    obtain ⟨hsignIn, hcreate, hdelete⟩ := horigin.call hrest
    exact ⟨Backend.currentUser_of_respond hrespond hsignIn hcreate, rfl,
      fun hop hanswers => absurd (hdelete hop) hanswers⟩

/-- A step of an issued operation keeps the order. -/
theorem Client.Ordered.progress {b₀ : Backend} {uid key : Key} {s next : Client} {i : ℕ}
    {p : Progress Answer} (hs : s.Ordered b₀ uid key)
    (h : s.advance Backend.service timeoutError i p = some next) : next.Ordered b₀ uid key := by
  obtain ⟨op, r, b, r', hget, hadvance, rfl⟩ := Pool.advance_cases h
  have hadvances := Request.advance_cases hadvance
  have hacts := hadvances.acts
  have hmem := List.mem_of_getElem? hget
  obtain ⟨huser, horigin, hdelete⟩ := (hs.origins _ hmem).acts hacts
  refine ⟨hs.journaled.update hget hacts, huser.trans hs.user, ?_, ?_, ?_, ?_, ?_⟩
  · apply Pool.forall_update (P := fun op r => IsOrigin uid key op r.origin) hs.origins
    rw [horigin]
    exact hs.origins _ hmem
  · exact Pool.forall_update (P := fun _ r => r.Waits Backend.service) hs.waiting
      (hadvances.waits (hs.waiting _ hmem))
  · apply Pool.forall_update (P := fun op r => op = Issued.delete → r.answers ≠ []) hs.deleted
    intro hop
    rw [hdelete hop (hs.deleted _ hmem hop)]
    exact hs.deleted _ hmem hop
  · intro j k op₁ image h₁ himage₁ op₂ h₂ himage₂
    rw [Pool.tagAt_update hget] at h₁ h₂
    exact hs.distinct j k op₁ image h₁ himage₁ op₂ h₂ himage₂
  · change (s.journal ++ (r'.made.drop r.made.length).map fun call => (i, call)).Pairwise _
    simp only [Pool.tagAt_update hget]
    rw [List.pairwise_append]
    refine ⟨hs.issued, ?_, fun earlier _ later hlater hop => ?_⟩
    · rw [List.pairwise_map]
      exact List.pairwise_of_forall fun _ _ _ => le_refl i
    · obtain ⟨call, hcall, rfl⟩ := List.mem_map.mp hlater
      have hop' : op = .delete := by simpa [Pool.tagAt, hget] using hop
      have hmade : r'.made = r.made := by
        rw [Request.made, horigin, hdelete hop' (hs.deleted _ hmem hop'), Request.made]
      simp [hmade] at hcall

/-- Issuing an operation keeps the order. -/
theorem Client.Ordered.issue {b₀ : Backend} {uid key : Key} {s : Client} {op : Issued} {chain : ApiChain}
    {a : Answer} {b : Backend} {r : ApiRequest} (hs : s.Ordered b₀ uid key)
    (hsub : Request.subscribe Backend.service s.backend (.future chain) a = some (b, r))
    (hchain : IsOrigin uid key op chain) (hanswers : op = .delete → r.answers ≠ [])
    (himage : ∀ image, op.image = some image → ∀ j op', s.tagAt j = some op' → op'.image ≠ some image) :
    Client.Ordered b₀ uid key (s.add op b r) := by
  have hproceeds : Request.Proceeds Backend.service s.backend (Request.unstarted chain) a b r := by
    rcases Request.subscribe_cases hsub with ⟨error, hfail, -⟩ | ⟨chain', hfuture, hproceeds⟩
    · cases hfail
    · cases hfuture
      exact hproceeds
  have hstart : IsOrigin uid key op (Request.unstarted chain : ApiRequest).origin := hchain
  obtain ⟨huser, horigin, -⟩ := hstart.acts hproceeds.acts
  refine ⟨hs.journaled.add hsub, huser.trans hs.user, ?_, ?_, ?_, ?_, ?_⟩
  · apply Pool.forall_add (P := fun op r => IsOrigin uid key op r.origin) hs.origins
    rw [horigin]
    exact hchain
  · exact Pool.forall_add (P := fun _ r => r.Waits Backend.service) hs.waiting hproceeds.waits
  · exact Pool.forall_add (P := fun op r => op = Issued.delete → r.answers ≠ []) hs.deleted hanswers
  · intro j k op₁ image h₁ himage₁ op₂ h₂ himage₂
    rcases Pool.tagAt_add_cases h₁ with ⟨-, hold₁⟩ | ⟨hj, rfl⟩ <;>
      rcases Pool.tagAt_add_cases h₂ with ⟨-, hold₂⟩ | ⟨hk, rfl⟩
    · exact hs.distinct j k op₁ image hold₁ himage₁ op₂ hold₂ himage₂
    · exact absurd himage₁ (himage image himage₂ j op₁ hold₁)
    · exact absurd himage₂ (himage image himage₁ k op₂ hold₂)
    · exact hj.trans hk.symm
  · change (s.journal ++ r.made.map fun call => (s.requests.length, call)).Pairwise _
    rw [List.pairwise_append]
    refine ⟨?_, ?_, fun earlier hearlier later hlater _ => ?_⟩
    · refine hs.issued.imp_of_mem fun _ hlater himp hop => himp ?_
      rw [Pool.tagAt_add_of_lt (hs.journaled.bounded _ hlater)] at hop
      exact hop
    · rw [List.pairwise_map]
      exact List.pairwise_of_forall fun _ _ _ => le_refl _
    · obtain ⟨call, -, rfl⟩ := List.mem_map.mp hlater
      exact (hs.journaled.bounded earlier hearlier).le

/-- Every step of the client keeps the order. -/
theorem Client.Ordered.step {b₀ : Backend} {uid key : Key} {s next : Client} {step : ClientStep}
    (hs : s.Ordered b₀ uid key) (h : s.step key step = some next) : next.Ordered b₀ uid key := by
  cases step with
  | updateCoupon object fresh coupon data a =>
    simp only [Client.step, hs.user] at h
    split at h
    · exact Option.some.inj h ▸ hs
    · rename_i chain hpublisher
      split at h
      · rename_i hunused
        obtain ⟨b, r, hsub, rfl⟩ := Pool.subscribe_cases h
        refine hs.issue hsub ?_ (by simp) ?_
        · unfold updateCoupon at hpublisher
          split at hpublisher
          · cases hpublisher
          · cases data with
            | none => cases hpublisher
            | some data =>
              cases hpublisher
              exact ⟨{ coupon with key := some key }, data, rfl, rfl⟩
        · intro image himage j op' hop' hused
          obtain ⟨r', hget⟩ := Pool.exists_of_tagAt hop'
          cases himage
          simp only [Client.unusedImage, Bool.and_eq_true, List.all_eq_true, decide_eq_true_eq] at hunused
          exact hunused.2 _ (List.mem_of_getElem? hget) hused
      · contradiction
  | deleteCoupon coupon a =>
    simp only [Client.step, hs.user, deleteCoupon] at h
    obtain ⟨b, r, hsub, rfl⟩ := Pool.subscribe_cases h
    refine hs.issue hsub rfl (fun _ => ?_) (by simp [Issued.image])
    rw [(subscribe_deleteChain hsub).1]
    simp [Request.answered]
  | progress i p => exact hs.progress h

/-- The client starts in order. -/
theorem Client.ordered_empty {b : Backend} {uid : Key} (huser : b.currentUser = some uid) (key : Key) :
    Client.Ordered b uid key (Pool.empty b) :=
  ⟨Pool.journaled_empty _ b, huser, by simp [Pool.empty], by simp [Pool.empty], by simp [Pool.empty],
    by simp [Pool.tagAt, Pool.empty], List.Pairwise.nil⟩

/-- The calls of an update: nothing comes before its upload. -/
theorem trace_upload_first {coupon : Coupon} {data : Data} {image : String} {ref : Path}
    {answers : List Answer} : ((updateCouponChain coupon data image ref).trace answers).Pairwise
      fun _ later => ∀ image data, later.1 ≠ .putData image data := by
  rcases trace_updateCouponChain_cases coupon data image ref answers with h | ⟨upload, h⟩ |
    ⟨upload, fetch, h⟩ | ⟨upload, fetch, write, url, -, h⟩ <;> rw [h] <;> simp

/-- The image that a call of an operation is about is the operation's own. -/
theorem IsOrigin.image {uid key : Key} {op : Issued} {r : ApiRequest} (horigin : IsOrigin uid key op r.origin)
    {call : Call} {a : Answer} (hmade : (call, a) ∈ r.made) {image : String}
    (hcall : (∃ data, call = .putData image data) ∨ call = .downloadURL image) :
    op.image = some image := by
  unfold Request.made at hmade
  cases op with
  | update own description =>
    obtain ⟨coupon, data, -, hchain⟩ := horigin
    rw [hchain] at hmade
    rcases trace_updateCouponChain_cases coupon data own (couponRef uid key) r.answers with h | ⟨upload, h⟩ |
      ⟨upload, fetch, h⟩ | ⟨upload, fetch, write, url, -, h⟩ <;> rw [h] at hmade <;>
      rcases hcall with ⟨data', rfl⟩ | rfl <;> simp_all [Issued.image]
  | delete =>
    rw [show r.origin = _ from horigin, deleteChain] at hmade
    cases hanswers : r.answers with
    | nil => simp [hanswers] at hmade
    | cons first rest =>
      rw [hanswers, Chain.trace_call_cons] at hmade
      rcases List.mem_cons.mp hmade with heq | hrest
      · rcases hcall with ⟨data', rfl⟩ | rfl <;> cases heq
      · cases rest <;> cases hrest

/-- In every state the uploads come first. -/
theorem Client.Ordered.uploadsFirst {b₀ : Backend} {uid key : Key} {s : Client}
    (hs : s.Ordered b₀ uid key) : UploadsFirst s.journal := by
  unfold UploadsFirst
  rw [List.pairwise_iff_forall_sublist]
  rintro ⟨i, call, a⟩ ⟨j, call', a'⟩ hsub image data hput hfetch
  obtain rfl : call' = .putData image data := hput
  obtain rfl : call = .downloadURL image := hfetch
  have hfetched : (i, Call.downloadURL image, a) ∈ s.journal := hsub.subset (by simp)
  have huploaded : (j, Call.putData image data, a') ∈ s.journal := hsub.subset (by simp)
  obtain ⟨op, r, hget, hmade⟩ := hs.journaled.exists_made hfetched
  obtain ⟨op', r', hget', hmade'⟩ := hs.journaled.exists_made huploaded
  have horigin := hs.origins _ (List.mem_of_getElem? hget)
  have horigin' := hs.origins _ (List.mem_of_getElem? hget')
  have hij : i = j := hs.distinct i j op image (Pool.tagAt_of_get hget) (horigin.image hmade (.inr rfl)) op'
    (Pool.tagAt_of_get hget') (horigin'.image hmade' (.inl ⟨data, rfl⟩))
  subst hij
  have htrace : [(Call.downloadURL image, a), (.putData image data, a')].Sublist r.made := by
    rw [← hs.journaled.entries i op r hget]
    simpa using (hsub.filter fun entry => entry.1 = i).map Prod.snd
  cases op with
  | delete => exact absurd (horigin.image hmade (.inr rfl)) (by simp [Issued.image])
  | update own description =>
    obtain ⟨coupon, data', -, hchain⟩ := horigin
    unfold Request.made at htrace
    rw [hchain] at htrace
    exact List.pairwise_iff_forall_sublist.mp trace_upload_first htrace image data rfl

/-- The only call of a deletion. -/
theorem made_of_delete {uid key : Key} {r : ApiRequest} (horigin : IsOrigin uid key .delete r.origin)
    {call : Call × Answer} (h : call ∈ r.made) : call.1 = .setValue (couponRef uid key) none := by
  unfold Request.made at h
  rw [show r.origin = _ from horigin, deleteChain] at h
  cases hanswers : r.answers with
  | nil => simp [hanswers] at h
  | cons a rest =>
    rw [hanswers, Chain.trace_call_cons] at h
    rcases List.mem_cons.mp h with rfl | hrest
    · rfl
    · cases rest <;> cases hrest

end LoveCoupons
