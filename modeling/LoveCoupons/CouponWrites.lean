import LoveCoupons.CouponRecord
import LoveCoupons.Lib.Journal

/-!
# Edits and deletions of one coupon

The client issues any number of `updateCoupon` and `deleteCoupon` calls on one coupon. A
deletion writes when it is issued; an update writes in the callback that brings the image's
URL, at any later time. Nothing orders these writes by the order of the calls, so the record
that is left is the one of the last write, which need not be the last issued operation's.

A call that is refused makes no backend call and issues nothing. Each update draws a new
identifier for its image, so no other object is stored under its path.
-/

namespace LoveCoupons

open KeyedTree Reactive StepSystem

/-- An operation issued on the coupon: an update with the path of its image and its description, or
a deletion. -/
inductive Issued where
  | update (image description : String)
  | delete
  deriving DecidableEq

/-- The path of the image that an operation uploads. -/
def Issued.image : Issued → Option String
  | .update image _ => some image
  | .delete => none

/-- The operations of the client on the coupon. -/
abbrev Client := Pool Backend Call Answer Bool ApiError Issued

/-- The client calls `updateCoupon` or `deleteCoupon` on the coupon, or an issued operation takes a step. -/
inductive ClientStep where
  | updateCoupon (object fresh : UUID) (coupon : Coupon) (data : Option Data) (a : Answer)
  | deleteCoupon (coupon : Coupon) (a : Answer)
  | progress (i : ℕ) (p : Progress Answer)

/-- The chain of a deletion: its write, whose answer nobody waits for. -/
def deleteChain (call : Call) : ApiChain := .call call fun _ => .done (.ok true)

/-- A deletion writes when it is made. -/
theorem subscribe_deleteChain {ref : Path} {b b' : Backend} {a : Answer} {r : ApiRequest}
    (h : Request.subscribe Backend.service b (.future (deleteChain (.setValue ref none))) a = some (b', r)) :
    r = (Request.unstarted (deleteChain (.setValue ref none))).answered a ∧
      b.respond (.setValue ref none) a = some b' := by
  rcases Request.subscribe_cases h with ⟨error, hfail, -⟩ | ⟨chain, hfuture, hproceeds⟩
  · cases hfail
  · cases hfuture
    cases hproceeds with
    | resolve hrest => cases hrest
    | act hrest _ hrespond =>
      cases hrest
      exact ⟨rfl, hrespond⟩
    | await hrest himm =>
      cases hrest
      cases himm

/-- No object is stored under this path and no operation uploads one. -/
def Client.unusedImage (s : Client) (image : String) : Bool :=
  s.backend.storage.all (fun stored => stored.path ≠ image) &&
    s.requests.all fun entry => entry.1.image ≠ some image

/-- One step of the client, all of whose calls are on the coupon with this key. -/
def Client.step (key : Key) (s : Client) : ClientStep → Option Client
  | .updateCoupon object fresh coupon data a =>
    match s.backend.currentUser with
    | none => some s
    | some uid =>
      match updateCoupon (some uid) object fresh { coupon with key := some key } data with
      | .fail _ => some s
      | .future chain =>
        if s.unusedImage (imagePath uid object) then
          s.subscribe Backend.service (.update (imagePath uid object) coupon.description) (.future chain) a
        else none
  | .deleteCoupon coupon a =>
    match deleteCoupon s.backend.currentUser { coupon with key := some key } with
    | none => some s
    | some call => s.subscribe Backend.service .delete (.future (deleteChain call)) a
  | .progress i p => s.advance Backend.service timeoutError i p

/-- The record of the coupon is the one that an operation asked for: absent after a deletion, and after
an update its description with the URL of its own image. -/
def AsAsked (b : Backend) (uid key : Key) : Issued → Prop
  | .delete => getChild b.database (couponRef uid key) = none
  | .update image description => ∃ stored, b.object image = some stored ∧
      IsRecord (getChild b.database (couponRef uid key)) description stored.url

/-- The operation has run to its end and each of its calls succeeded. -/
def Succeeded (r : ApiRequest) : Prop :=
  r.phase = .over ∧ r.rest = some (.done (.ok true)) ∧ ∀ call ∈ r.made, call.2.error = none

instance (r : ApiRequest) : Decidable (Succeeded r) :=
  decidable_of_iff (r.phase = .over ∧ reportsSuccess r = true ∧ ∀ call ∈ r.made, call.2.error = none) (by
    unfold Succeeded
    rw [reportsSuccess_iff])

/-- The next call of the operation is its write. -/
def aboutToWrite (r : ApiRequest) : Bool :=
  match r.rest with
  | some (.call call _) => call.isWrite
  | _ => false

/-- The operation has made its write. -/
def hasWritten (r : ApiRequest) : Bool := r.made.any fun call => call.1.isWrite

/-- The step is no callback with which another operation writes although this one has written. -/
def notOvertaken (last : ℕ) (s : Client) : ClientStep → Bool
  | .progress i (.callback _) =>
    i = last || !(s.requests[last]?.any fun entry => hasWritten entry.2) ||
      !(s.requests[i]?.any fun entry => aboutToWrite entry.2)
  | _ => true

/-- The calls that an update has made. -/
theorem trace_updateCouponChain_cases (coupon : Coupon) (data : Data) (image : String) (ref : Path)
    (answers : List Answer) :
    let trace := (updateCouponChain coupon data image ref).trace answers
    trace = [] ∨ (∃ upload, trace = [(.putData image data, upload)]) ∨
    (∃ upload fetch, trace = [(.putData image data, upload), (.downloadURL image, fetch)]) ∨
    ∃ upload fetch write url, fetch.url = some url ∧ trace = [(.putData image data, upload),
      (.downloadURL image, fetch), (.updateChildValues ref { coupon with image := url }.toAnyObject, write)] := by
  match answers with
  | [] => exact .inl rfl
  | [upload] => exact .inr (.inl ⟨upload, rfl⟩)
  | [upload, fetch] =>
    refine .inr (.inr (.inl ⟨upload, fetch, ?_⟩))
    simp [updateCouponChain]
  | upload :: fetch :: write :: more =>
    cases hurl : fetch.url with
    | none =>
      refine .inr (.inr (.inl ⟨upload, fetch, ?_⟩))
      simp [updateCouponChain, updateCouponRecord, hurl, Chain.trace]
    | some url =>
      refine .inr (.inr (.inr ⟨upload, fetch, write, url, hurl, ?_⟩))
      obtain ⟨result, hdone⟩ := promiseUnlessError_done write
      simp [updateCouponChain, updateCouponRecord, hurl, hdone, Chain.trace]

/-- The calls of a successful update. -/
theorem Succeeded.update {r : ApiRequest} (h : Succeeded r) {coupon : Coupon} {data : Data}
    {image : String} {ref : Path} (horigin : r.origin = updateCouponChain coupon data image ref) :
    ∃ upload fetch write url, fetch.url = some url ∧ r.made = [(.putData image data, upload),
      (.downloadURL image, fetch), (.updateChildValues ref { coupon with image := url }.toAnyObject, write)] := by
  obtain ⟨-, hrest, -⟩ := h
  unfold Request.rest at hrest
  unfold Request.made
  rw [horigin] at hrest ⊢
  obtain ⟨upload, fetch, write, url, hanswers, hurl, -⟩ := answers_of_updateCoupon_success hrest
  refine ⟨upload, fetch, write, url, hurl, ?_⟩
  rw [hanswers, trace_updateCouponChain coupon data image ref upload hurl write]

/-- Every call of a journal was answered without an error. -/
def AllSucceed (journal : List (ℕ × Call × Answer)) : Prop := ∀ entry ∈ journal, entry.2.2.error = none

/-- No URL was asked for before its image was uploaded. -/
def UploadsFirst (journal : List (ℕ × Call × Answer)) : Prop :=
  journal.Pairwise fun earlier later => ∀ image data, later.2.1 = .putData image data →
    earlier.2.1 ≠ .downloadURL image

/-- What the storage holds for the images of a journal: the reported URLs, each of one image only. -/
structure StoredImages (journal : List (ℕ × Call × Answer)) (b : Backend) : Prop where
  fetched : ∀ i image fetch url, (i, .downloadURL image, fetch) ∈ journal → fetch.url = some url →
    ∃ stored, b.object image = some stored ∧ stored.url = url
  unique : ∀ i image data upload, (i, .putData image data, upload) ∈ journal → ∀ stored,
    b.object image = some stored → ∀ other ∈ b.storage, other.url = stored.url → other.path = image

/-- A new upload keeps what the storage holds for the earlier images. -/
theorem StoredImages.upload {journal : List (ℕ × Call × Answer)} {b : Backend} (hb : StoredImages journal b)
    {image url : String} {data : Data} (hfresh : ∀ j fetch, (j, .downloadURL image, fetch) ∉ journal)
    (hurl : url ∉ b.storage.map StorageObject.url) (i : ℕ) (upload : Answer) :
    StoredImages (journal ++ [(i, .putData image data, upload)]) { b with
      storage := ⟨image, data, url⟩ :: b.storage.filter fun stored => stored.path ≠ image } := by
  refine ⟨fun j image' fetch url' hentry hfetch => ?_, fun j image' data' upload' hentry stored hstored
    other hother heq => ?_⟩
  · have hold : (j, Call.downloadURL image', fetch) ∈ journal := by simpa using hentry
    have hne : image' ≠ image := by
      rintro rfl
      exact hfresh j fetch hold
    rw [Backend.object_store_of_ne b hne]
    exact hb.fetched j image' fetch url' hold hfetch
  · by_cases himage : image' = image
    · subst himage
      rw [Backend.object_store_self, Option.some.injEq] at hstored
      subst hstored
      rcases List.mem_cons.mp hother with rfl | hold
      · rfl
      · exact absurd (List.mem_map.mpr ⟨other, (List.mem_filter.mp hold).1, heq⟩) hurl
    · rw [Backend.object_store_of_ne b himage] at hstored
      have hold : (j, Call.putData image' data', upload') ∈ journal := by
        simpa [himage] using hentry
      rcases List.mem_cons.mp hother with rfl | hmem
      · exact absurd (List.mem_map.mpr ⟨stored, (Backend.mem_of_object hstored).1, heq.symm⟩) hurl
      · exact hb.unique j image' data' upload' hold stored hstored other (List.mem_filter.mp hmem).1 heq

/-- After every journal of successful calls the storage holds the images as reported. -/
theorem storedImages_replay {b₀ b : Backend} {journal : List (ℕ × Call × Answer)}
    (hreplay : Pool.replay Backend.service b₀ journal = some b) (hok : AllSucceed journal)
    (hfirst : UploadsFirst journal) : StoredImages journal b := by
  have hhistory := run_history
    (fun past b => AllSucceed past → UploadsFirst past → StoredImages past b) ?_ ?_ hreplay
  · exact hhistory hok hfirst
  · intro _ _
    exact ⟨by simp, by simp⟩
  · rintro past s ⟨i, call, a⟩ next hpast hrespond hok hfirst
    obtain ⟨hpastFirst, -, hlast⟩ := List.pairwise_append.mp hfirst
    have hs : StoredImages past s :=
      hpast (fun entry hentry => hok entry (List.mem_append_left _ hentry)) hpastFirst
    have herror : a.error = none := hok (i, call, a) (by simp)
    change s.respond call a = some next at hrespond
    cases call with
    | putData image data =>
      rcases Backend.respond_putData hrespond with ⟨hfailed, -⟩ | ⟨-, url, -, hurl, rfl⟩
      · simp [herror] at hfailed
      · refine hs.upload (fun j fetch hfetch => ?_) hurl i a
        exact hlast _ hfetch _ List.mem_cons_self image data rfl rfl
    | downloadURL path =>
      obtain ⟨rfl, hfetch⟩ := Backend.respond_downloadURL hrespond
      refine ⟨fun j image fetch url hentry hurl => ?_, fun j image data upload hentry => ?_⟩
      · rcases List.mem_append.mp hentry with hold | hnew
        · exact hs.fetched j image fetch url hold hurl
        · cases List.mem_singleton.mp hnew
          exact hfetch url hurl
      · exact hs.unique j image data upload (by simpa using hentry)
    | _ =>
      have hstorage := Backend.storage_of_respond hrespond (by simp)
      have hobject : ∀ image, next.object image = s.object image := by
        intro image
        rw [Backend.object, hstorage, Backend.object]
      refine ⟨fun j image fetch url hentry hurl => ?_, fun j image data upload hentry stored hstored => ?_⟩
      · rw [hobject]
        exact hs.fetched j image fetch url (by simpa using hentry) hurl
      · rw [hobject] at hstored
        rw [hstorage]
        exact hs.unique j image data upload (by simpa using hentry) stored hstored

/-- The last write of a journal decides what is left at its place. -/
theorem database_of_last_write {b₀ b : Backend} {before after : List (ℕ × Call × Answer)} {i : ℕ}
    {call : Call} {a : Answer}
    (hreplay : Pool.replay Backend.service b₀ (before ++ (i, call, a) :: after) = some b)
    (hafter : ∀ entry ∈ after, entry.2.1.isWrite = false) :
    ∃ b₁ b₂, Backend.respond b₁ call a = some b₂ ∧ b.database = b₂.database := by
  obtain ⟨b₁, -, hrest⟩ := run_append_eq_some.mp hreplay
  obtain ⟨b₂, hrespond, hend⟩ := run_cons_eq_some.mp hrest
  refine ⟨b₁, b₂, hrespond, ?_⟩
  clear hreplay hrest hrespond
  induction after generalizing b₂ with
  | nil => rw [Option.some.inj hend]
  | cons entry more ih =>
    obtain ⟨b₃, hentry, hmore⟩ := run_cons_eq_some.mp hend
    rw [ih (fun e he => hafter e (List.mem_cons_of_mem _ he)) b₃ hmore]
    exact Backend.database_of_respond hentry (hafter entry List.mem_cons_self)

end LoveCoupons
