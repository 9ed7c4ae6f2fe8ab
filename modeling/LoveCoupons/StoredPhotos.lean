import LoveCoupons.CouponImages

/-!
# Records and stored photos

The record at a place is the one of the last accepted write there. Written by an update, it has
the URL of the update's own stored image; written by a deletion, it is gone.

A stored photo stays stored. It is the image of a record exactly as long as the write of its own
update is the last one at its place, so the photo of a deleted coupon, of a coupon that was
photographed again and of a save that failed stay behind.
-/

namespace LoveCoupons

open KeyedTree Reactive StepSystem

/-- The entry is an accepted write at this place. -/
def writesAt (ref : Path) (entry : ℕ × Call × Answer) : Bool :=
  entry.2.2.error.isNone && match entry.2.1 with
    | .setValue path _ => path = ref
    | .updateChildValues path _ => path = ref
    | _ => false

/-- The last accepted write at a place. -/
def CouponCalls.lastWrite (s : CouponCalls) (ref : Path) : Option (ℕ × Call × Answer) :=
  (s.journal.filter (writesAt ref)).getLast?

/-- The call that made the last accepted write at a place. -/
def CouponCalls.lastWriter (s : CouponCalls) (ref : Path) : Option ℕ := (s.lastWrite ref).map Prod.fst

/-- The photo with this URL is the image of a coupon of the user. -/
def IsImageOfRecord (b : Backend) (uid : Key) (url : String) : Prop :=
  ∃ key, child (getChild b.database (couponRef uid key)) Coupon.imageKey = some (stringNode url)

/-- The image of a record that a call left is the photo that the call stored. -/
theorem CouponCall.Leaves.exists_image {c : CouponCall} {b : Backend} {ref : Path} (h : c.Leaves b ref) {url : String}
    (himage : child (getChild b.database ref) Coupon.imageKey = some (stringNode url)) :
    ∃ image, c.image = some image ∧ ∃ stored, b.object image = some stored ∧ stored.url = url := by
  cases c with
  | deleteCoupon userUid coupon =>
    rw [CouponCall.Leaves] at h
    rw [h] at himage
    cases himage
  | updateCoupon userUid object fresh coupon data =>
    cases userUid with
    | none => cases h
    | some uid =>
      cases data with
      | none => cases h
      | some bytes =>
        obtain ⟨stored, hobject, -, -, hstored⟩ := h
        have hurl := hstored.symm.trans himage
        simp only [Option.some.injEq, stringNode, Tree.leaf.injEq, Leaf.string.injEq] at hurl
        exact ⟨_, rfl, stored, hobject, hurl⟩

/-- A call that is no accepted write at a place leaves the record there alone. -/
theorem CouponCall.Asks.frame {c : CouponCall} {answers : List Answer} {call : Call} {a : Answer} {b b' : Backend}
    (h : c.Asks answers call) (hrespond : b.respond call a = some b') {uid key : Key} {i : ℕ}
    (hnot : writesAt (couponRef uid key) (i, call, a) = false) :
    getChild b'.database (couponRef uid key) = getChild b.database (couponRef uid key) := by
  cases herror : a.error with
  | some error =>
    have hcreate : ∀ email password, call ≠ .createUser email password := by
      cases h <;> simp
    rw [Backend.respond_of_error hrespond (by simp [herror]) hcreate]
  | none =>
    have hother : ∀ {uid' key' : Key}, couponRef uid' key' ≠ couponRef uid key → (uid, key) ≠ (uid', key') := by
      intro uid' key' hne heq
      cases heq
      exact hne rfl
    cases h with
    | upload => rw [Backend.database_of_respond hrespond rfl]
    | fetch => rw [Backend.database_of_respond hrespond rfl]
    | write hurl =>
      rcases Backend.respond_updateChildValues hrespond with ⟨hfailed, -⟩ | ⟨-, rfl⟩
      · simp [herror] at hfailed
      · exact getChild_mergeChildren_coupon _ (hother (by simpa [writesAt, herror] using hnot)) _
    | delete hkey =>
      rcases Backend.respond_setValue hrespond with ⟨hfailed, -⟩ | ⟨-, rfl⟩
      · simp [herror] at hfailed
      · exact getChild_updateChild_coupon _ (hother (by simpa [writesAt, herror] using hnot)) _

/-- Every call of the journal is one that the calls of the users make. -/
def AllAsked (journal : List (ℕ × Call × Answer)) : Prop :=
  ∀ entry ∈ journal, ∃ c answers, CouponCall.Asks c answers entry.2.1

/-- A journal without an accepted write at a place leaves the record there alone. -/
theorem getChild_of_replay {b₀ b : Backend} {journal : List (ℕ × Call × Answer)} {uid key : Key}
    (hreplay : Pool.replay Backend.service b₀ journal = some b) (hasked : AllAsked journal)
    (hnone : ∀ entry ∈ journal, writesAt (couponRef uid key) entry = false) :
    getChild b.database (couponRef uid key) = getChild b₀.database (couponRef uid key) := by
  induction journal generalizing b₀ with
  | nil => rw [Option.some.inj hreplay]
  | cons entry rest ih =>
    obtain ⟨b₁, hrespond, hrest⟩ := run_cons_eq_some.mp hreplay
    obtain ⟨c, answers, hasks⟩ := hasked entry List.mem_cons_self
    have hlater := ih hrest (fun e he => hasked e (List.mem_cons_of_mem _ he))
      fun e he => hnone e (List.mem_cons_of_mem _ he)
    exact hlater.trans (hasks.frame hrespond (hnone entry List.mem_cons_self))

/-- The last accepted write at a place decides the record there. -/
theorem getChild_of_last_write {b₀ b : Backend} {journal : List (ℕ × Call × Answer)} {uid key : Key}
    {entry : ℕ × Call × Answer} (hreplay : Pool.replay Backend.service b₀ journal = some b)
    (hasked : AllAsked journal)
    (hlast : (journal.filter (writesAt (couponRef uid key))).getLast? = some entry) :
    ∃ b₁ b₂ : Backend, b₁.respond entry.2.1 entry.2.2 = some b₂ ∧
      getChild b.database (couponRef uid key) = getChild b₂.database (couponRef uid key) := by
  obtain ⟨before, after, rfl, -, hafter⟩ := Pool.split_of_getLast?_filter hlast
  obtain ⟨b₁, -, hrest⟩ := run_append_eq_some.mp hreplay
  obtain ⟨b₂, hrespond, hend⟩ := run_cons_eq_some.mp hrest
  refine ⟨b₁, b₂, hrespond, getChild_of_replay hend (fun e he => ?_) hafter⟩
  exact hasked e (List.mem_append_right _ (List.mem_cons_of_mem _ he))

namespace CouponCalls

variable {b₀ : Backend} {s : CouponCalls}

/-- An answered call of the journal belongs to a stage of a call of a user. -/
theorem Stored.asks_of_journal (hs : s.Stored b₀) {i : ℕ} {call : Call} {a : Answer}
    (h : (i, call, a) ∈ s.journal) : ∃ c r before after, s.requests[i]? = some (c, r) ∧
      r.answers = before ++ a :: after ∧ c.Asks before call := by
  obtain ⟨c, r, hget, hmade⟩ := hs.journaled.exists_made h
  obtain ⟨before, after, next, hanswers, hresume⟩ := Chain.exists_resume_of_mem_trace hmade
  have hchain := (hs.calls _ (List.mem_of_getElem? hget)).chain
  exact ⟨c, r, before, after, hget, hanswers,
    CouponCall.IsChain.asks (r := { r with answers := before }) hchain hresume⟩

/-- Every call of the journal is one that the calls of the users make. -/
theorem Stored.allAsked (hs : s.Stored b₀) : AllAsked s.journal := by
  intro ⟨i, call, a⟩ hentry
  obtain ⟨c, r, before, after, -, -, hasks⟩ := hs.asks_of_journal hentry
  exact ⟨c, before, hasks⟩

/-- The last accepted write at a place leaves the record of its call there: an update its description with
the URL of its own stored image, a deletion nothing. -/
theorem Stored.leaves_of_lastWriter (hs : s.Stored b₀) {uid key : Key} {i : ℕ}
    (hlast : s.lastWriter (couponRef uid key) = some i) :
    ∃ c, s.tagAt i = some c ∧ c.ref = some (couponRef uid key) ∧ c.Leaves s.backend (couponRef uid key) := by
  obtain ⟨⟨i, call, a⟩, hwrite, rfl⟩ := Option.map_eq_some_iff.mp hlast
  obtain ⟨b₁, b₂, hrespond, hrecord⟩ := getChild_of_last_write hs.journaled.replayed hs.allAsked hwrite
  have hmem := List.mem_of_getLast? hwrite
  obtain ⟨hjournal, hat⟩ := List.mem_filter.mp hmem
  obtain ⟨c, r, before, after, hget, hanswers, hasks⟩ := hs.asks_of_journal hjournal
  have herror : a.error = none := by
    cases herror : a.error with
    | none => rfl
    | some error => simp [writesAt, herror] at hat
  refine ⟨c, Pool.tagAt_of_get hget, ?_⟩
  cases hasks with
  | upload => simp [writesAt] at hat
  | fetch => simp [writesAt] at hat
  | @write uid' object fresh coupon data upload fetch url hurl =>
    have href : couponRef uid' (coupon.key.getD fresh.toKey) = couponRef uid key := by
      simpa [writesAt, herror] using hat
    have hkept := (hs.calls _ (List.mem_of_getElem? hget)).image uid' object fresh coupon data rfl
    obtain ⟨stored, hobject, rfl⟩ := hkept.fetched upload fetch (a :: after) url hanswers hurl
    refine ⟨congrArg some href, stored, hobject, hkept.uploaded stored hobject, ?_⟩
    rcases Backend.respond_updateChildValues hrespond with ⟨hfailed, -⟩ | ⟨-, rfl⟩
    · simp [herror] at hfailed
    · rw [hrecord, href]
      exact isRecord_merge _ _ _
  | @delete uid' key' coupon hkey =>
    have href : couponRef uid' key' = couponRef uid key := by simpa [writesAt, herror] using hat
    refine ⟨by rw [CouponCall.ref, hkey, Option.map_some, href], ?_⟩
    rcases Backend.respond_setValue hrespond with ⟨hfailed, -⟩ | ⟨-, rfl⟩
    · simp [herror] at hfailed
    · rw [CouponCall.Leaves, hrecord, href, getChild_updateChild_self]

/-- A place without an accepted write is as it was. -/
theorem Stored.unchanged_of_lastWriter (hs : s.Stored b₀) {uid key : Key}
    (hlast : s.lastWriter (couponRef uid key) = none) :
    getChild s.backend.database (couponRef uid key) = getChild b₀.database (couponRef uid key) := by
  apply getChild_of_replay hs.journaled.replayed hs.allAsked
  have hfilter := List.getLast?_eq_none_iff.mp (Option.map_eq_none_iff.mp hlast)
  intro entry hentry
  have hnot := List.filter_eq_nil_iff.mp hfilter entry hentry
  simpa using hnot

end CouponCalls

/-- In every reachable state, a coupon record that an update wrote last has the update's description and the
URL of a stored object that holds the bytes given to that update; after a deletion there is no record; and
a place without an accepted write is as it was. -/
theorem records_have_their_images {b₀ : Backend} {steps : List CouponCallStep} {s : CouponCalls}
    (hrun : run CouponCalls.step (.empty b₀) steps = some s) (uid key : Key) :
    match s.lastWriter (couponRef uid key) with
    | some i => ∃ c, s.tagAt i = some c ∧ c.ref = some (couponRef uid key) ∧
        c.Leaves s.backend (couponRef uid key)
    | none => getChild s.backend.database (couponRef uid key) = getChild b₀.database (couponRef uid key) := by
  have hs := CouponCalls.stored_run hrun
  cases hlast : s.lastWriter (couponRef uid key) with
  | some i => exact hs.leaves_of_lastWriter hlast
  | none => exact hs.unchanged_of_lastWriter hlast

/-- A user who saves a coupon with a photo. -/
def photographer : Key := ⟨"uid-pat", by decide⟩

/-- The identifier drawn for the photo. -/
def photoUuid : UUID := ⟨"00000000-0000-0000-0000-0000000000A7", by decide⟩

/-- The identifier drawn for the coupon. -/
def photographedUuid : UUID := ⟨"00000000-0000-0000-0000-0000000000B7", by decide⟩

/-- The call that saves the coupon. -/
def photoSave : CouponCall :=
  .updateCoupon (some photographer) photoUuid photographedUuid { description := "tea" } (some [7])

/-- A save that goes through. -/
def photoSaved : List CouponCallStep :=
  [.call photoSave {}, .progress 0 (.answer { url := some "photo" }), .progress 0 (.callback {}),
    .progress 0 (.answer { url := some "photo" }), .progress 0 (.callback {}), .progress 0 (.callback {}),
    .progress 0 .deliver]

/-- The record of a saved coupon has the URL of the photo given to the save. -/
theorem photoSaved_has_image : ∃ s, run CouponCalls.step (.empty {}) photoSaved = some s ∧
    photoSave.Leaves s.backend (couponRef photographer photographedUuid.toKey) := by
  refine ⟨_, rfl, ?_⟩
  obtain ⟨c, hc, -, hleaves⟩ := @records_have_their_images {} photoSaved _ rfl
    photographer photographedUuid.toKey
  cases hc
  exact hleaves

namespace CouponCalls

/-- What the stored photos keep: each has its own path and URL and was uploaded by an update of its user. -/
structure PhotosKept (s : CouponCalls) : Prop where
  paths : (s.backend.storage.map StorageObject.path).Nodup
  urls : (s.backend.storage.map StorageObject.url).Nodup
  uploaded : ∀ stored ∈ s.backend.storage, ∃ i uid object fresh coupon,
    s.tagAt i = some (.updateCoupon (some uid) object fresh coupon (some stored.data)) ∧
      stored.path = imagePath uid object

/-- What a step does to the storage: nothing, or it stores the photo of an update under a new path and URL. -/
inductive Stores (s t : CouponCalls) : Prop where
  | nothing (hstorage : t.backend.storage = s.backend.storage)
  | photo {i : ℕ} {uid : Key} {object fresh : UUID} {coupon : Coupon} {data : Data} {url : String}
      (htag : s.tagAt i = some (.updateCoupon (some uid) object fresh coupon (some data)))
      (hpath : imagePath uid object ∉ s.backend.storage.map StorageObject.path)
      (hurl : url ∉ s.backend.storage.map StorageObject.url)
      (hstorage : t.backend.storage = ⟨imagePath uid object, data, url⟩ :: s.backend.storage)

variable {b₀ : Backend} {s t : CouponCalls} {a : CouponCallStep}

/-- A step of a call stores at most one photo. -/
theorem Stored.stores_progress (hs : s.Stored b₀) {i : ℕ} {p : Progress Answer}
    (h : s.advance Backend.service timeoutError i p = some t) : Stores s t := by
  obtain ⟨c, r, b, r', hget, hadvance, rfl⟩ := Pool.advance_cases h
  have hkept := hs.calls _ (List.mem_of_getElem? hget)
  cases (Request.advance_cases hadvance).acts with
  | idle _ _ => exact .nothing rfl
  | reply hrest hrespond =>
    rcases hs.storage_reply hget (hkept.chain.asks hrest) hrespond with hsame |
      ⟨uid, object, fresh, coupon, data, url, rfl, hanswers, hurl, hstorage⟩
    · exact .nothing hsame
    · have hpath : imagePath uid object ∉ s.backend.storage.map StorageObject.path := by
        rintro hmem
        obtain ⟨stored, hstored, heq⟩ := List.mem_map.mp hmem
        exact hkept.unstored hanswers _ rfl stored hstored heq
      exact .photo (Pool.tagAt_of_get hget) hpath hurl hstorage

/-- Every step stores at most one photo and keeps the calls that were made. -/
theorem Stored.stores (hs : s.Stored b₀) (h : s.step a = some t) :
    Stores s t ∧ ∀ i c, s.tagAt i = some c → t.tagAt i = some c := by
  cases step_cases h with
  | nothing hsame =>
    subst hsame
    exact ⟨.nothing rfl, fun _ _ hi => hi⟩
  | started hpublisher _ hstart =>
    obtain ⟨b, r, hsubscribe, rfl⟩ := Pool.subscribe_cases hstart
    refine ⟨.nothing (subscribe_couponCall hpublisher hsubscribe).2.1, fun j c' hj => ?_⟩
    obtain ⟨r', hget⟩ := Pool.exists_of_tagAt hj
    rw [Pool.tagAt_add_of_lt (List.getElem?_eq_some_iff.mp hget).1]
    exact hj
  | moved hadvance =>
    refine ⟨hs.stores_progress hadvance, fun j c hj => ?_⟩
    obtain ⟨c', r, b, r', hget, -, rfl⟩ := Pool.advance_cases hadvance
    rw [Pool.tagAt_update hget]
    exact hj

/-- Nothing is stored and no call has been made. -/
theorem photosKept_empty {b : Backend} (hb : b.storage = []) : PhotosKept (.empty b : CouponCalls) := by
  refine ⟨?_, ?_, ?_⟩ <;> simp [Pool.empty, hb]

/-- Every step keeps the stored photos apart. -/
theorem PhotosKept.step (hphotos : s.PhotosKept) (hs : s.Stored b₀) (h : s.step a = some t) : t.PhotosKept := by
  obtain ⟨hstores, htags⟩ := hs.stores h
  have hold : ∀ stored ∈ s.backend.storage, ∃ i uid object fresh coupon,
      t.tagAt i = some (.updateCoupon (some uid) object fresh coupon (some stored.data)) ∧
        stored.path = imagePath uid object := by
    intro stored hstored
    obtain ⟨i, uid, object, fresh, coupon, htag, hpath⟩ := hphotos.uploaded stored hstored
    exact ⟨i, uid, object, fresh, coupon, htags _ _ htag, hpath⟩
  cases hstores with
  | nothing hstorage => exact ⟨hstorage ▸ hphotos.paths, hstorage ▸ hphotos.urls, hstorage ▸ hold⟩
  | photo htag hpath hurl hstorage =>
    refine ⟨?_, ?_, fun stored hstored => ?_⟩
    · rw [hstorage, List.map_cons]
      exact List.nodup_cons.mpr ⟨hpath, hphotos.paths⟩
    · rw [hstorage, List.map_cons]
      exact List.nodup_cons.mpr ⟨hurl, hphotos.urls⟩
    · rw [hstorage] at hstored
      rcases List.mem_cons.mp hstored with rfl | hearlier
      · exact ⟨_, _, _, _, _, htags _ _ htag, rfl⟩
      · exact hold stored hearlier

/-- Every reachable state keeps the stored photos apart. -/
theorem photosKept_run (hb : b₀.storage = []) {steps : List CouponCallStep}
    (hrun : run CouponCalls.step (.empty b₀) steps = some s) : s.PhotosKept := by
  have hinv := run_invariant (fun t : CouponCalls => t.Stored b₀ ∧ t.PhotosKept)
    (fun _ _ _ hs h => ⟨hs.1.step h, hs.2.step hs.1 h⟩) ⟨stored_empty b₀, photosKept_empty hb⟩ hrun
  exact hinv.2

/-- A stored photo stays stored. -/
theorem Stored.storage_subset (hs : s.Stored b₀) {steps : List CouponCallStep}
    (hrun : run CouponCalls.step s steps = some t) : s.backend.storage ⊆ t.backend.storage := by
  have hinv := run_invariant (fun t : CouponCalls => t.Stored b₀ ∧ s.backend.storage ⊆ t.backend.storage)
    (fun middle _ next hmiddle h => ?_) ⟨hs, List.Subset.refl _⟩ hrun
  · exact hinv.2
  · refine ⟨hmiddle.1.step h, fun stored hstored => ?_⟩
    cases (hmiddle.1.stores h).1 with
    | nothing hstorage => exact hstorage ▸ hmiddle.2 hstored
    | photo _ _ _ hstorage => exact hstorage ▸ List.mem_cons_of_mem _ (hmiddle.2 hstored)

/-- The object under the path of a stored photo is the photo. -/
theorem PhotosKept.object_eq (hphotos : s.PhotosKept) {stored : StorageObject}
    (hstored : stored ∈ s.backend.storage) : s.backend.object stored.path = some stored :=
  Replace.find?_key_eq_some hphotos.paths hstored

/-- A photo is the image of a record exactly when its update made the last accepted write at its place. -/
theorem PhotosKept.isImage_iff (hphotos : s.PhotosKept) (hs : s.Stored b₀)
    (hb : ∀ uid key, getChild b₀.database (couponRef uid key) = none) {stored : StorageObject}
    (hstored : stored ∈ s.backend.storage) {i : ℕ} {uid : Key} {object fresh : UUID} {coupon : Coupon}
    (htag : s.tagAt i = some (.updateCoupon (some uid) object fresh coupon (some stored.data)))
    (hpath : stored.path = imagePath uid object) : IsImageOfRecord s.backend uid stored.url ↔
      s.lastWriter (couponRef uid (coupon.key.getD fresh.toKey)) = some i := by
  constructor
  · rintro ⟨key, himage⟩
    cases hlast : s.lastWriter (couponRef uid key) with
    | none =>
      rw [hs.unchanged_of_lastWriter hlast, hb] at himage
      cases himage
    | some j =>
      obtain ⟨c, hj, href, hleaves⟩ := hs.leaves_of_lastWriter hlast
      obtain ⟨image, hcimage, found, hfound, hurl⟩ := hleaves.exists_image himage
      have hsame : found = stored := List.inj_on_of_nodup_map hphotos.urls
        (List.mem_of_find?_eq_some hfound) hstored hurl
      have hfoundPath : found.path = image := by simpa using List.find?_some hfound
      have hi : j = i := by
        apply hs.distinct j i c _ image hj htag hcimage
        rw [← hfoundPath, hsame, hpath]
        rfl
      subst hi
      obtain rfl := Option.some.inj (htag.symm.trans hj)
      rw [Option.some.inj href]
      exact hlast
  · intro hlast
    obtain ⟨c, hi, -, hleaves⟩ := hs.leaves_of_lastWriter hlast
    obtain rfl := Option.some.inj (htag.symm.trans hi)
    obtain ⟨found, hfound, -, hrecord⟩ := hleaves
    rw [← hpath, hphotos.object_eq hstored] at hfound
    cases hfound
    exact ⟨_, hrecord.2⟩

end CouponCalls

/-- Whatever calls follow, a stored photo stays stored. It was uploaded by an update of its user with its
bytes, and it is the image of a record exactly when that update made the last accepted write at its place. -/
theorem photos_stay_stored {before after : List CouponCallStep} {middle s : CouponCalls}
    (hbefore : run CouponCalls.step (.empty {}) before = some middle)
    (hafter : run CouponCalls.step middle after = some s) : middle.backend.storage ⊆ s.backend.storage ∧
      ∀ stored ∈ s.backend.storage, ∃ i uid object fresh coupon,
        s.tagAt i = some (.updateCoupon (some uid) object fresh coupon (some stored.data)) ∧
          stored.path = imagePath uid object ∧ (IsImageOfRecord s.backend uid stored.url ↔
            s.lastWriter (couponRef uid (coupon.key.getD fresh.toKey)) = some i) := by
  have hrun := run_append_eq_some.mpr ⟨middle, hbefore, hafter⟩
  have hphotos := CouponCalls.photosKept_run rfl hrun
  refine ⟨(CouponCalls.stored_run hbefore).storage_subset hafter, fun stored hstored => ?_⟩
  obtain ⟨i, uid, object, fresh, coupon, htag, hpath⟩ := hphotos.uploaded stored hstored
  exact ⟨i, uid, object, fresh, coupon, htag, hpath,
    hphotos.isImage_iff (CouponCalls.stored_run hrun) (fun _ _ => rfl) hstored htag hpath⟩

/-- The saved coupon is deleted. -/
def photoDeleted : List CouponCallStep :=
  [.call (.deleteCoupon (some photographer) { key := some photographedUuid.toKey, description := "tea" }) {},
    .progress 1 (.callback {}), .progress 1 .deliver]

/-- The photo of the saved coupon is still stored after its deletion. -/
theorem photo_stays_after_deletion : ∃ s, run CouponCalls.step (.empty {}) (photoSaved ++ photoDeleted) = some s ∧
    ⟨imagePath photographer photoUuid, [7], "photo"⟩ ∈ s.backend.storage := by
  refine ⟨_, rfl, ?_⟩
  exact (@photos_stay_stored photoSaved photoDeleted _ _ rfl rfl).1 List.mem_cons_self

/-- With every call over, the photo of a deleted coupon is stored and no record has it. -/
theorem deleted_coupon_leaves_photo : ¬ ∀ (steps : List CouponCallStep) (s : CouponCalls),
    run CouponCalls.step (.empty {}) steps = some s → (∀ entry ∈ s.requests, entry.2.phase = .over) →
      ∀ stored ∈ s.backend.storage, ∀ uid object, stored.path = imagePath uid object →
        IsImageOfRecord s.backend uid stored.url := by
  intro h
  obtain ⟨key, himage⟩ := h (photoSaved ++ photoDeleted) _ rfl (by decide) _ List.mem_cons_self photographer
    photoUuid rfl
  cases himage

end LoveCoupons
