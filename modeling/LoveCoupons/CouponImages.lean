import LoveCoupons.AddCoupon
import LoveCoupons.CouponWrites

/-!
# The images of coupon records

Any number of users call `updateCoupon` and `deleteCoupon` at any time. An update uploads its
image under a new path, asks for its URL and writes the record with it two callbacks later, and
all calls run on whatever happens to their subscribers. Each upload has its own path, so the
object under that path is the call's own, and a URL that was reported is the URL of that object.

Nothing in the app removes a stored object.
-/

namespace LoveCoupons

open KeyedTree Reactive StepSystem

/-- A call to the manager by a user, with the identifiers it draws. -/
inductive CouponCall where
  | updateCoupon (userUid : Option Key) (object fresh : UUID) (coupon : Coupon) (data : Option Data)
  | deleteCoupon (userUid : Option Key) (coupon : Coupon)

namespace CouponCall

/-- The publisher of an update, or the write of a deletion if it makes one. -/
def publisher : CouponCall → Option ApiPublisher
  | .updateCoupon userUid object fresh coupon data =>
    some (LoveCoupons.updateCoupon userUid object fresh coupon data)
  | .deleteCoupon userUid coupon =>
    (LoveCoupons.deleteCoupon userUid coupon).map fun call => .future (deleteChain call)

/-- The path of the image that a call uploads. -/
def image : CouponCall → Option String
  | .updateCoupon (some uid) object _ _ _ => some (imagePath uid object)
  | _ => none

/-- The place of the record that a call writes. -/
def ref : CouponCall → Option Path
  | .updateCoupon (some uid) _ fresh coupon _ => some (couponRef uid (coupon.key.getD fresh.toKey))
  | .deleteCoupon (some uid) coupon => coupon.key.map (couponRef uid)
  | _ => none

/-- The chain that a call runs: a deletion its write, an update its three stages unless it was refused. -/
def IsChain : CouponCall → ApiChain → Prop
  | .updateCoupon userUid object fresh coupon data, chain =>
    (∃ uid bytes, userUid = some uid ∧ data = some bytes ∧ chain =
      updateCouponChain coupon bytes (imagePath uid object) (couponRef uid (coupon.key.getD fresh.toKey))) ∨
    ∃ error, chain = .done (.error error)
  | .deleteCoupon userUid coupon, chain => ∃ uid key, userUid = some uid ∧ coupon.key = some key ∧
      chain = deleteChain (.setValue (couponRef uid key) none)

/-- The backend call that a call to the manager makes after these answers. -/
inductive Asks : CouponCall → List Answer → Call → Prop where
  | upload {uid : Key} {object fresh : UUID} {coupon : Coupon} {data : Data} :
      Asks (.updateCoupon (some uid) object fresh coupon (some data)) [] (.putData (imagePath uid object) data)
  | fetch {uid : Key} {object fresh : UUID} {coupon : Coupon} {data : Data} {upload : Answer} :
      Asks (.updateCoupon (some uid) object fresh coupon (some data)) [upload] (.downloadURL (imagePath uid object))
  | write {uid : Key} {object fresh : UUID} {coupon : Coupon} {data : Data} {upload fetch : Answer} {url : String}
      (hurl : fetch.url = some url) :
      Asks (.updateCoupon (some uid) object fresh coupon (some data)) [upload, fetch]
        (.updateChildValues (couponRef uid (coupon.key.getD fresh.toKey)) { coupon with image := url }.toAnyObject)
  | delete {uid key : Key} {coupon : Coupon} (hkey : coupon.key = some key) :
      Asks (.deleteCoupon (some uid) coupon) [] (.setValue (couponRef uid key) none)

/-- The chain of a call makes the calls of its stages. -/
theorem IsChain.asks {c : CouponCall} {r : ApiRequest} (hchain : c.IsChain r.origin) {call : Call}
    {next : Answer → ApiChain} (hrest : r.rest = some (.call call next)) : c.Asks r.answers call := by
  cases c with
  | updateCoupon userUid object fresh coupon data =>
    rcases hchain with ⟨uid, bytes, rfl, rfl, horigin⟩ | ⟨error, hrefused⟩
    · rcases call_of_updateCouponChain horigin hrest with ⟨hanswers, rfl⟩ | ⟨upload, hanswers, rfl⟩ |
        ⟨upload, fetch, url, hanswers, hurl, rfl⟩
      · exact hanswers ▸ .upload
      · exact hanswers ▸ .fetch
      · exact hanswers ▸ .write hurl
    · cases rest_of_refused hrefused hrest
  | deleteCoupon userUid coupon =>
    obtain ⟨uid, key, rfl, hkey, horigin⟩ := hchain
    rw [Request.rest, horigin, deleteChain] at hrest
    rcases Chain.resume_single_cases (fun _ => ⟨_, rfl⟩) hrest with ⟨hanswers, hcall⟩ | ⟨a, -, hcall⟩
    · cases hcall
      exact hanswers ▸ .delete hkey
    · cases hcall

/-- What holds of a call beside the storage: it runs its chain, an update's image is its own with its own
bytes under the URL that was reported to it, and nothing is stored under its path before it is answered. -/
structure Kept (b : Backend) (c : CouponCall) (r : ApiRequest) : Prop where
  chain : c.IsChain r.origin
  image : ∀ uid object fresh coupon data, c = .updateCoupon (some uid) object fresh coupon (some data) →
    ImageKept b (imagePath uid object) data r.answers
  unstored : r.answers = [] → ∀ image ∈ c.image, ∀ stored ∈ b.storage, stored.path ≠ image

/-- What a call leaves at the place of its record when its write is the last one there. -/
def Leaves (b : Backend) (ref : Path) : CouponCall → Prop
  | .updateCoupon (some uid) object _ coupon (some data) =>
    ∃ stored, b.object (imagePath uid object) = some stored ∧ stored.data = data ∧
      IsRecord (getChild b.database ref) coupon.description stored.url
  | .updateCoupon _ _ _ _ _ => False
  | .deleteCoupon _ _ => getChild b.database ref = none

end CouponCall

/-- The calls of all users against one backend. -/
abbrev CouponCalls := Pool Backend Call Answer Bool ApiError CouponCall

/-- A user makes a call, or a call takes a step. -/
inductive CouponCallStep where
  | call (c : CouponCall) (a : Answer)
  | progress (i : ℕ) (p : Progress Answer)

namespace CouponCalls

/-- No object is stored under this path and no call uploads one. -/
def unusedImage (s : CouponCalls) (image : String) : Bool :=
  s.backend.storage.all (fun stored => stored.path ≠ image) &&
    s.requests.all fun entry => entry.1.image ≠ some image

/-- One step of the calls. The identifier drawn for an image is new. -/
def step (s : CouponCalls) : CouponCallStep → Option CouponCalls
  | .call c a =>
    match c.publisher with
    | none => some s
    | some publisher => if c.image.all s.unusedImage then s.subscribe Backend.service c publisher a else none
  | .progress i p => s.advance Backend.service timeoutError i p

/-- What the calls and the storage keep: the answered calls are in the journal, each call has what it stored,
and no two calls upload under one path. -/
structure Stored (b₀ : Backend) (s : CouponCalls) : Prop where
  journaled : s.Journaled Backend.service b₀
  calls : ∀ entry ∈ s.requests, entry.1.Kept s.backend entry.2
  distinct : ∀ i j c c' image, s.tagAt i = some c → s.tagAt j = some c' → c.image = some image →
    c'.image = some image → i = j

end CouponCalls

/-- The object under a path depends on the storage only. -/
theorem object_of_storage {b b' : Backend} (h : b'.storage = b.storage) (image : String) :
    b'.object image = b.object image := by
  rw [Backend.object, h, Backend.object]

/-- A path that no object has is free. -/
theorem object_eq_none {b : Backend} {image : String} (h : ∀ stored ∈ b.storage, stored.path ≠ image) :
    b.object image = none := by
  rw [Backend.object, List.find?_eq_none]
  intro stored hstored
  simpa using h stored hstored

/-- What the answer of a call does to the storage: nothing, or it stores the call's image. -/
theorem CouponCall.Asks.storage {c : CouponCall} {answers : List Answer} {call : Call} {a : Answer} {b b' : Backend}
    (h : c.Asks answers call) (hrespond : b.respond call a = some b') : b'.storage = b.storage ∨
      ∃ uid object fresh coupon data url, c = .updateCoupon (some uid) object fresh coupon (some data) ∧
        answers = [] ∧ url ∉ b.storage.map StorageObject.url ∧ b'.storage =
          ⟨imagePath uid object, data, url⟩ :: b.storage.filter fun stored => stored.path ≠ imagePath uid object := by
  cases h with
  | upload =>
    rcases Backend.respond_putData hrespond with ⟨-, rfl⟩ | ⟨-, url, -, hurl, rfl⟩
    · exact .inl rfl
    · exact .inr ⟨_, _, _, _, _, url, rfl, rfl, hurl, rfl⟩
  | fetch => exact .inl (Backend.storage_of_respond hrespond (by simp))
  | write _ => exact .inl (Backend.storage_of_respond hrespond (by simp))
  | delete _ => exact .inl (Backend.storage_of_respond hrespond (by simp))

/-- The image of an update stays its own when a call of its chain is answered. -/
theorem CouponCall.Asks.imageKept {uid : Key} {object fresh : UUID} {coupon : Coupon} {data : Data}
    {answers : List Answer} {call : Call} {a : Answer} {b b' : Backend}
    (h : Asks (.updateCoupon (some uid) object fresh coupon (some data)) answers call)
    (hrespond : b.respond call a = some b') (hkept : ImageKept b (imagePath uid object) data answers) :
    ImageKept b' (imagePath uid object) data (answers ++ [a]) := by
  cases h with
  | upload => exact hkept.upload hrespond
  | fetch => exact hkept.fetch hrespond
  | write _ =>
    have hstorage := Backend.storage_of_respond hrespond (by simp)
    exact (hkept.of_object (object_of_storage hstorage _)).write a

namespace CouponCalls

variable {b₀ : Backend} {s : CouponCalls} {i : ℕ} {c : CouponCall} {r : ApiRequest}

/-- No call has been made. -/
theorem stored_empty (b : Backend) : Stored b (.empty b : CouponCalls) := by
  refine ⟨Pool.journaled_empty _ b, ?_, ?_⟩ <;> simp [Pool.empty, Pool.tagAt]

/-- The answer of a call stores at most its image, beside everything that was stored. -/
theorem Stored.storage_reply (hs : s.Stored b₀) (hget : s.requests[i]? = some (c, r)) {call : Call} {a : Answer}
    {b : Backend} (hasks : c.Asks r.answers call) (hrespond : s.backend.respond call a = some b) :
    b.storage = s.backend.storage ∨ ∃ uid object fresh coupon data url,
      c = .updateCoupon (some uid) object fresh coupon (some data) ∧ r.answers = [] ∧
        url ∉ s.backend.storage.map StorageObject.url ∧
        b.storage = ⟨imagePath uid object, data, url⟩ :: s.backend.storage := by
  rcases hasks.storage hrespond with hsame | ⟨uid, object, fresh, coupon, data, url, rfl, hanswers, hurl, hstorage⟩
  · exact .inl hsame
  · refine .inr ⟨uid, object, fresh, coupon, data, url, rfl, hanswers, hurl, ?_⟩
    have hfree := (hs.calls _ (List.mem_of_getElem? hget)).unstored hanswers _ rfl
    rw [hstorage, List.filter_eq_self.mpr fun stored hstored => by simpa using hfree stored hstored]

/-- The answer of a call leaves the images of the other calls as they are. -/
theorem Stored.others_reply (hs : s.Stored b₀) (hget : s.requests[i]? = some (c, r)) {call : Call} {a : Answer}
    {b : Backend} (hasks : c.Asks r.answers call) (hrespond : s.backend.respond call a = some b) {j : ℕ}
    {c' : CouponCall} {r' : ApiRequest} (hj : s.requests[j]? = some (c', r')) (hji : j ≠ i) {image : String}
    (himage : c'.image = some image) : b.object image = s.backend.object image ∧
      ((∀ stored ∈ s.backend.storage, stored.path ≠ image) → ∀ stored ∈ b.storage, stored.path ≠ image) := by
  rcases hs.storage_reply hget hasks hrespond with hsame | ⟨uid, object, fresh, coupon, data, url, rfl, -, -, hstorage⟩
  · exact ⟨object_of_storage hsame image, fun hfree => hsame ▸ hfree⟩
  · have hne : imagePath uid object ≠ image := by
      intro heq
      exact hji (hs.distinct j i _ _ image (Pool.tagAt_of_get hj) (Pool.tagAt_of_get hget) himage (congrArg some heq))
    refine ⟨?_, fun hfree stored hstored => ?_⟩
    · rw [Backend.object, hstorage, List.find?_cons_of_neg (by simpa using hne), Backend.object]
    · rw [hstorage] at hstored
      rcases List.mem_cons.mp hstored with rfl | hold
      · exact hne
      · exact hfree stored hold

/-- The answer of a call keeps what the other calls stored. -/
theorem Stored.kept_reply (hs : s.Stored b₀) (hget : s.requests[i]? = some (c, r)) {call : Call} {a : Answer}
    {b : Backend} (hasks : c.Asks r.answers call) (hrespond : s.backend.respond call a = some b) {j : ℕ}
    {c' : CouponCall} {r' : ApiRequest} (hj : s.requests[j]? = some (c', r')) (hji : j ≠ i) : c'.Kept b r' := by
  have hkept := hs.calls _ (List.mem_of_getElem? hj)
  refine ⟨hkept.chain, fun uid object fresh coupon data heq => ?_, fun hanswers image himage => ?_⟩
  · have himage : c'.image = some (imagePath uid object) := by rw [heq]; rfl
    exact (hkept.image uid object fresh coupon data heq).of_object
      (hs.others_reply hget hasks hrespond hj hji himage).1
  · exact (hs.others_reply hget hasks hrespond hj hji himage).2 (hkept.unstored hanswers image himage)

/-- A step of a call keeps what is stored. -/
theorem Stored.progress (hs : s.Stored b₀) {p : Progress Answer} {t : CouponCalls}
    (h : s.advance Backend.service timeoutError i p = some t) : t.Stored b₀ := by
  obtain ⟨c, r, b, r', hget, hadvance, rfl⟩ := Pool.advance_cases h
  have hacts := (Request.advance_cases hadvance).acts
  have hkept := hs.calls _ (List.mem_of_getElem? hget)
  refine ⟨hs.journaled.update hget hacts, ?_, fun i' j c₁ c₂ image hi' hj => ?_⟩
  · cases hacts with
    | idle horigin hanswers =>
      have hsame : c.Kept s.backend r' := ⟨horigin ▸ hkept.chain, hanswers ▸ hkept.image, hanswers ▸ hkept.unstored⟩
      exact Pool.forall_update (P := CouponCall.Kept s.backend) hs.calls hsame
    | @reply call next a _ hrest hrespond =>
      have hasks := hkept.chain.asks hrest
      intro entry hentry
      rcases Pool.mem_update_cases hentry with rfl | ⟨j, hji, hj⟩
      · refine ⟨hkept.chain, fun uid object fresh coupon data heq => ?_, fun hanswers => ?_⟩
        · obtain rfl : c = _ := heq
          exact hasks.imageKept hrespond (hkept.image uid object fresh coupon data rfl)
        · simp [Request.answered] at hanswers
      · exact hs.kept_reply hget hasks hrespond hj hji
  · rw [Pool.tagAt_update hget] at hi' hj
    exact hs.distinct i' j c₁ c₂ image hi' hj

end CouponCalls

/-- A new call runs its chain, stores nothing, and an update has received no answer. -/
theorem subscribe_couponCall {c : CouponCall} {publisher : ApiPublisher} (hpublisher : c.publisher = some publisher)
    {b b' : Backend} {a : Answer} {r : ApiRequest}
    (h : Request.subscribe Backend.service b publisher a = some (b', r)) :
    c.IsChain r.origin ∧ b'.storage = b.storage ∧ (∀ image ∈ c.image, r.answers = []) := by
  cases c with
  | updateCoupon userUid object fresh coupon data =>
    cases hpublisher
    rcases Request.subscribe_cases h with ⟨error, -, rfl, rfl⟩ | ⟨chain, hfuture, hproceeds⟩
    · exact ⟨.inr ⟨error, rfl⟩, rfl, fun _ _ => rfl⟩
    · obtain ⟨uid, bytes, rfl, rfl, rfl⟩ : Operation.IsChain userUid (.updateCoupon object fresh coupon data) chain :=
        Operation.isChain_of_future hfuture
      cases hproceeds with
      | resolve hrest => cases hrest
      | act hrest himm _ =>
        cases hrest
        cases himm
      | await _ _ => exact ⟨.inl ⟨uid, bytes, rfl, rfl, rfl⟩, rfl, fun _ _ => rfl⟩
  | deleteCoupon userUid coupon =>
    obtain ⟨call, hcall, rfl⟩ := Option.map_eq_some_iff.mp hpublisher
    obtain ⟨uid, key, rfl, hkey, rfl⟩ := deleteCoupon_eq_some hcall
    obtain ⟨rfl, hrespond⟩ := subscribe_deleteChain h
    refine ⟨⟨uid, key, rfl, hkey, rfl⟩, Backend.storage_of_respond hrespond (by simp), ?_⟩
    simp [CouponCall.image]

namespace CouponCalls

variable {b₀ : Backend} {s : CouponCalls}

/-- What an unused path means. -/
theorem unusedImage_iff (s : CouponCalls) (image : String) : s.unusedImage image = true ↔
    (∀ stored ∈ s.backend.storage, stored.path ≠ image) ∧ ∀ entry ∈ s.requests, entry.1.image ≠ some image := by
  simp [unusedImage]

/-- A new call keeps what is stored. -/
theorem Stored.call (hs : s.Stored b₀) {c : CouponCall} {publisher : ApiPublisher}
    (hpublisher : c.publisher = some publisher) (hunused : c.image.all s.unusedImage = true) {a : Answer}
    {t : CouponCalls} (h : s.subscribe Backend.service c publisher a = some t) : t.Stored b₀ := by
  obtain ⟨b, r, hstart, rfl⟩ := Pool.subscribe_cases h
  obtain ⟨hchain, hstorage, hanswers⟩ := subscribe_couponCall hpublisher hstart
  have hfree : ∀ image, c.image = some image → (∀ stored ∈ s.backend.storage, stored.path ≠ image) ∧
      ∀ entry ∈ s.requests, entry.1.image ≠ some image := by
    intro image himage
    rw [himage] at hunused
    exact (unusedImage_iff s image).mp hunused
  have hnew : ∀ j c' image, s.tagAt j = some c' → c.image = some image → c'.image ≠ some image := by
    intro j c' image hj himage
    obtain ⟨r', hget⟩ := Pool.exists_of_tagAt hj
    exact (hfree image himage).2 _ (List.mem_of_getElem? hget)
  refine ⟨hs.journaled.add hstart, Pool.forall_add (P := CouponCall.Kept b) ?_ ?_, ?_⟩
  · intro entry hentry
    have hkept := hs.calls entry hentry
    refine ⟨hkept.chain, fun uid object fresh coupon data heq => ?_, hstorage ▸ hkept.unstored⟩
    exact (hkept.image uid object fresh coupon data heq).of_object (object_of_storage hstorage _)
  · refine ⟨hchain, ?_, fun _ image himage => hstorage ▸ (hfree image himage).1⟩
    rintro uid object fresh coupon data rfl
    have hnone : b.object (imagePath uid object) = none :=
      (object_of_storage hstorage _).trans (object_eq_none (hfree _ rfl).1)
    rw [hanswers _ rfl]
    exact ⟨by simp [hnone], by simp⟩
  · intro i j c₁ c₂ image hi hj himage himage'
    rcases Pool.tagAt_add_cases hi with ⟨-, hold⟩ | ⟨rfl, rfl⟩
    · rcases Pool.tagAt_add_cases hj with ⟨-, hold'⟩ | ⟨rfl, rfl⟩
      · exact hs.distinct i j c₁ c₂ image hold hold' himage himage'
      · exact absurd himage (hnew i c₁ image hold himage')
    · rcases Pool.tagAt_add_cases hj with ⟨-, hold'⟩ | ⟨rfl, rfl⟩
      · exact absurd himage' (hnew j c₂ image hold' himage)
      · rfl

/-- Everything a step can do: a deletion without a write does nothing, any other call starts a request with
an unused image, and a request moves on. -/
inductive Steps (s t : CouponCalls) : Prop where
  | nothing (hsame : t = s)
  | started {c : CouponCall} {publisher : ApiPublisher} {a : Answer} (hpublisher : c.publisher = some publisher)
      (hunused : c.image.all s.unusedImage = true) (hstart : s.subscribe Backend.service c publisher a = some t)
  | moved {i : ℕ} {p : Progress Answer} (hadvance : s.advance Backend.service timeoutError i p = some t)

/-- A step does one of the listed things. -/
theorem step_cases {t : CouponCalls} {a : CouponCallStep} (h : s.step a = some t) : Steps s t := by
  cases a with
  | progress i p => exact .moved h
  | call c a =>
    simp only [CouponCalls.step] at h
    cases hpublisher : c.publisher with
    | none =>
      rw [hpublisher] at h
      exact .nothing (Option.some.inj h).symm
    | some publisher =>
      simp only [hpublisher] at h
      obtain ⟨hunused, hstart⟩ := Option.ite_none_right_eq_some.mp h
      exact .started hpublisher hunused hstart

/-- Every step keeps what is stored. -/
theorem Stored.step {t : CouponCalls} {a : CouponCallStep} (hs : s.Stored b₀) (h : s.step a = some t) :
    t.Stored b₀ := by
  cases step_cases h with
  | nothing hsame => exact hsame ▸ hs
  | started hpublisher hunused hstart => exact hs.call hpublisher hunused hstart
  | moved hadvance => exact hs.progress hadvance

/-- Every reachable state keeps what is stored. -/
theorem stored_run {steps : List CouponCallStep} (hrun : run CouponCalls.step (.empty b₀) steps = some s) :
    s.Stored b₀ :=
  run_invariant (Stored b₀) (fun _ _ _ hs h => hs.step h) (stored_empty b₀) hrun

end CouponCalls

end LoveCoupons
