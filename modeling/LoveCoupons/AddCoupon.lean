import LoveCoupons.Screens

/-!
# Adding one coupon

The add screen sends a coupon without a key, and `updateCoupon` draws a new key at every call.
A press that timed out keeps running, and its record can still be written after a second
press has written another one under another key. The loading flag does not prevent this: the
failure of the timer clears it, and so does the end of an image load.

When each press is made only after every earlier operation of the screen has come to an end
with a failure, at most one record is written, and a reported success is that record.
-/

namespace LoveCoupons

open KeyedTree Reactive StepSystem

/-- `CouponEditViewModel` opened to add a coupon, with its requests. -/
structure AddScreen where
  screen : AppScreen
  coupon : Coupon
  text : String

/-- The screen is opened with `Coupon()`. -/
def AddScreen.opened (b : Backend) : AddScreen := ⟨Screen.opened b, {}, ""⟩

/-- The user types, the picture of the coupon is loaded, a press, or a step of a request. -/
inductive AddStep where
  | write (text : String)
  | updateImage
  | imageLoaded
  | press (image : Option UIImage) (object fresh : UUID) (a : Answer)
  | progress (i : ℕ) (p : Progress Answer)
  | deliver (i : ℕ) (a : Answer)

/-- The path under which an operation of this user stores its image. -/
def Operation.image (userUid : Option Key) : Operation → Option String
  | .updateCoupon object _ _ _ => userUid.map fun uid => imagePath uid object
  | _ => none

/-- The identifier drawn for the image of an operation is new. -/
def drawsNewImage (pool : Pool Backend Call Answer Bool ApiError (ℕ × Operation)) (op : Operation) : Bool :=
  (op.image pool.backend.currentUser).all fun image =>
    (pool.backend.object image).isNone &&
      pool.requests.all fun entry => entry.1.2.image pool.backend.currentUser ≠ some image

/-- One step of the add screen. A press is possible while nothing is loading. -/
def AddScreen.step (s : AddScreen) : AddStep → Option AddScreen
  | .write text => some { s with text := text }
  | .updateImage => some { s with screen := { s.screen with isShowLoading := true } }
  | .imageLoaded => some { s with screen := { s.screen with isShowLoading := false } }
  | .press image object fresh a =>
    let op := CouponEditViewModel.sendButtonPressed s.coupon s.text image object fresh
    if !s.screen.isShowLoading && drawsNewImage s.screen.pool op then
      (s.screen.step (.press op a)).map fun screen =>
        { s with screen := screen, coupon := { s.coupon with description := s.text } }
    else none
  | .progress i p => (s.screen.step (.progress i p)).map fun screen => { s with screen := screen }
  | .deliver i a => (s.screen.step (.deliver i a)).map fun screen => { s with screen := screen }

/-- The operation has come to its own end, with a failure. -/
def failedForGood (r : ApiRequest) : Bool := r.phase = .over && !reportsSuccess r

/-- A press is made only after every earlier operation has failed for good. -/
def retriesAfterFailure (s : AddScreen) : AddStep → Bool
  | .press _ _ _ _ => s.screen.pool.requests.all fun entry => failedForGood entry.2
  | _ => true

/-- The screen has written a record at this place. -/
def Wrote (s : AddScreen) (ref : Path) : Prop :=
  ∃ entry ∈ s.screen.pool.requests, ∃ values a, (.updateChildValues ref values, a) ∈ entry.2.made ∧
    a.error = none

/-- The record that a press asked for: its text, with the URL under which its image is stored. -/
def HoldsPress (s : AddScreen) (press : ℕ) : Prop :=
  ∃ uid object fresh coupon data stored,
    s.screen.presses[press]? = some (.updateCoupon object fresh coupon (some data)) ∧
    s.screen.pool.backend.currentUser = some uid ∧
    s.screen.pool.backend.object (imagePath uid object) = some stored ∧ stored.data = data ∧
    IsRecord (getChild s.screen.pool.backend.database (couponRef uid fresh.toKey)) coupon.description stored.url

/-- A request of the add screen: an addition under the drawn key, or a refusal. -/
def IsAddition (userUid : Option Key) (op : Operation) (origin : ApiChain) : Prop :=
  ∃ object fresh coupon data, op = .updateCoupon object fresh coupon data ∧ coupon.key = none ∧
    ((∃ uid bytes, userUid = some uid ∧ data = some bytes ∧
      origin = updateCouponChain coupon bytes (imagePath uid object) (couponRef uid fresh.toKey)) ∨
    ∃ error, origin = .done (.error error))

/-- The storage beside one upload: nothing else is stored under its path, and a reported URL is the
one of the stored image. -/
structure ImageKept (b : Backend) (image : String) (data : Data) (answers : List Answer) : Prop where
  uploaded : ∀ stored, b.object image = some stored → stored.data = data
  fetched : ∀ upload fetch rest url, answers = upload :: fetch :: rest → fetch.url = some url →
    ∃ stored, b.object image = some stored ∧ stored.url = url

/-- What an addition has stored and written is there. -/
structure AdditionKept (userUid : Option Key) (b : Backend) (op : Operation) (answers : List Answer) : Prop where
  image : ∀ object fresh coupon data uid, op = .updateCoupon object fresh coupon (some data) →
    userUid = some uid → ImageKept b (imagePath uid object) data answers
  record : ∀ object fresh coupon data uid, op = .updateCoupon object fresh coupon (some data) →
    userUid = some uid → ∀ upload fetch write url, answers = [upload, fetch, write] → fetch.url = some url →
      write.error = none → IsRecord (getChild b.database (couponRef uid fresh.toKey)) coupon.description url

/-- What holds of the requests of the add screen while each press waits for the failure of the earlier
ones: only the last one is not a failure, and what they have stored and written is there. -/
structure OneAddition (userUid : Option Key) (pool : Pool Backend Call Answer Bool ApiError (ℕ × Operation)) :
    Prop where
  user : pool.backend.currentUser = userUid
  additions : ∀ entry ∈ pool.requests, IsAddition userUid entry.1.2 entry.2.origin
  failed : ∀ i entry, pool.requests[i]? = some entry → i + 1 < pool.requests.length →
    failedForGood entry.2 = true
  distinct : ∀ i j tag tag' image, pool.tagAt i = some tag → pool.tagAt j = some tag' →
    tag.2.image userUid = some image → tag'.2.image userUid = some image → i = j
  kept : ∀ entry ∈ pool.requests, AdditionKept userUid pool.backend entry.1.2 entry.2.answers

/-- The storage beside an upload depends on the object under its path only. -/
theorem ImageKept.of_object {b b' : Backend} {image : String} {data : Data} {answers : List Answer}
    (h : ImageKept b image data answers) (hobject : b'.object image = b.object image) :
    ImageKept b' image data answers :=
  ⟨fun stored hstored => h.uploaded stored (hobject ▸ hstored),
    fun upload fetch rest url hanswers hurl => hobject ▸ h.fetched upload fetch rest url hanswers hurl⟩

/-- An answered upload has stored the image or nothing. -/
theorem ImageKept.upload {b b' : Backend} {image : String} {data : Data} {a : Answer}
    (h : ImageKept b image data []) (hrespond : b.respond (.putData image data) a = some b') :
    ImageKept b' image data [a] := by
  refine ⟨fun stored hstored => ?_, by simp⟩
  rcases Backend.respond_putData hrespond with ⟨-, rfl⟩ | ⟨-, url, -, -, rfl⟩
  · exact h.uploaded stored hstored
  · rw [Backend.object_store_self, Option.some.injEq] at hstored
    rw [← hstored]

/-- A reported URL is the one of the stored image. -/
theorem ImageKept.fetch {b b' : Backend} {image : String} {data : Data} {upload a : Answer}
    (h : ImageKept b image data [upload]) (hrespond : b.respond (.downloadURL image) a = some b') :
    ImageKept b' image data [upload, a] := by
  obtain ⟨rfl, hfetch⟩ := Backend.respond_downloadURL hrespond
  refine ⟨h.uploaded, fun upload' fetch rest url heq hurl => ?_⟩
  simp only [List.cons.injEq] at heq
  exact hfetch url (heq.2.1 ▸ hurl)

/-- The write of the record leaves the image as it is. -/
theorem ImageKept.write {b : Backend} {image : String} {data : Data} {upload fetch : Answer}
    (h : ImageKept b image data [upload, fetch]) (a : Answer) : ImageKept b image data [upload, fetch, a] := by
  refine ⟨h.uploaded, fun upload' fetch' rest url heq hurl => ?_⟩
  simp only [List.cons.injEq] at heq
  exact h.fetched upload fetch [] url rfl (heq.2.1 ▸ hurl)

/-- An upload leaves the other images as they are. -/
theorem object_of_putData {b b' : Backend} {image : String} {data : Data} {a : Answer}
    (hrespond : b.respond (.putData image data) a = some b') {other : String} (hne : other ≠ image) :
    b'.object other = b.object other := by
  rcases Backend.respond_putData hrespond with ⟨-, rfl⟩ | ⟨-, url, -, -, rfl⟩
  · rfl
  · exact Backend.object_store_of_ne _ hne _ _

/-- A failure for good stays one. -/
theorem failedForGood_advances {b b' : Backend} {r r' : ApiRequest} {p : Progress Answer}
    (h : Request.Advances Backend.service timeoutError b r p b' r') (hfailed : failedForGood r = true) :
    failedForGood r' = true := by
  simp only [failedForGood, Bool.and_eq_true, decide_eq_true_eq, Bool.not_eq_true'] at hfailed ⊢
  obtain ⟨hover, hrest⟩ := h.over hfailed.1
  refine ⟨hover, ?_⟩
  rw [reportsSuccess, hrest]
  exact hfailed.2

/-- An addition that has written its record has not failed. -/
theorem not_failed_of_written {userUid : Option Key} {op : Operation} {r : ApiRequest}
    (hr : r.Valid timeoutError) (hop : IsAddition userUid op r.origin) {upload fetch write : Answer} {url : String}
    (hanswers : r.answers = [upload, fetch, write]) (hurl : fetch.url = some url)
    (herror : write.error = none) : failedForGood r = false := by
  obtain ⟨object, fresh, coupon, data, -, -, ⟨uid, bytes, -, -, hchain⟩ | ⟨error, hrefused⟩⟩ := hop
  · have hrest : r.rest = some (.done (.ok true)) := by
      rw [Request.rest, hchain, hanswers]
      simp [updateCouponChain, updateCouponRecord, hurl, promiseUnlessError, herror]
    simp [failedForGood, (reportsSuccess_iff r).mpr hrest]
  · obtain ⟨chain, hrest⟩ := hr.exists_rest
    rw [Request.rest, hrefused, hanswers] at hrest
    cases hrest

/-- The call that an addition waits for. -/
theorem call_of_addition {userUid : Option Key} {op : Operation} {r : ApiRequest}
    (hop : IsAddition userUid op r.origin) {call : Call} {next : Answer → ApiChain}
    (hrest : r.rest = some (.call call next)) :
    ∃ uid object fresh coupon data, userUid = some uid ∧ op = .updateCoupon object fresh coupon (some data) ∧
      ((r.answers = [] ∧ call = .putData (imagePath uid object) data) ∨
      (∃ upload, r.answers = [upload] ∧ call = .downloadURL (imagePath uid object)) ∨
      ∃ upload fetch url, r.answers = [upload, fetch] ∧ fetch.url = some url ∧
        call = .updateChildValues (couponRef uid fresh.toKey) { coupon with image := url }.toAnyObject) := by
  obtain ⟨object, fresh, coupon, data, rfl, -, ⟨uid, bytes, huid, rfl, hchain⟩ | ⟨error, hrefused⟩⟩ := hop
  · exact ⟨uid, object, fresh, coupon, bytes, huid, rfl, call_of_updateCouponChain hchain hrest⟩
  · cases rest_of_refused hrefused hrest

end LoveCoupons
