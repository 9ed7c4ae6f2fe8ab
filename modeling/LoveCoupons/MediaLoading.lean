import LoveCoupons.Backend
import LoveCoupons.Lib.CostCache
import LoveCoupons.Lib.Replace
import LoveCoupons.Lib.Runs

/-!
# The image cache

`MediaLoadingService` keeps the bytes of the images it has loaded. A call looks its string up in the
cache and is served at once if bytes are stored there that decode. Otherwise it asks the network for
the URL that the string denotes, and stores the bytes of the response under the URL's own string,
whether they decode or not. The cache may drop entries at any time.

The string of a URL denotes the URL, so what is stored under a string is a response of the URL that
the string denotes.
-/

namespace LoveCoupons

open CostCache Reactive StepSystem

/-- What the service uses of the platform: `URL(string:)`, `absoluteString` and `UIImage(data:)`. -/
structure Platform (URL Image : Type) where
  url : String → Option URL
  absoluteString : URL → String
  image : Data → Option Image

/-- A call with the URL it asks the network for, if it does, and the values its subscriber has received. -/
structure MediaCall (URL Image : Type) where
  urlString : String
  request : Option URL
  subscription : Subscription (Option Image) Empty
  received : List (Option Image)

/-- The service with its calls in the order in which they were made, and the responses that arrived, the
last one first. -/
structure MediaLoading (URL Image : Type) where
  imageCache : Cache String Data
  calls : List (MediaCall URL Image)
  responses : List (URL × Data)

/-- A call, a response or an error of the network, the delivery of an event, a subscriber that is gone, or
entries that the cache drops. A response comes with the order in which the cache evicts. -/
inductive MediaStep where
  | getMediaData (urlString : String)
  | respond (i : ℕ) (data : Data) (victims : List String)
  | networkError (i : ℕ)
  | deliver (i : ℕ)
  | cancel (i : ℕ)
  | drop (keys : List String)

/-- `cache.totalCostLimit` -/
def imageCacheLimit : ℕ := 1024 * 1024 * 100

variable {URL Image : Type}

/-- `Just(image)`, or the result of a request. -/
def MediaCall.answered (call : MediaCall URL Image) (image : Option Image) : MediaCall URL Image :=
  { call with subscription := call.subscription.promise (.ok image) }

/-- `getMediaData(_:)` -/
def getMediaData (p : Platform URL Image) (imageCache : Cache String Data) (urlString : String) :
    MediaCall URL Image :=
  match (imageCache.object urlString).bind p.image with
  | some image => MediaCall.answered ⟨urlString, none, .fresh, []⟩ (some image)
  | none =>
    match p.url urlString with
    | none => MediaCall.answered ⟨urlString, none, .fresh, []⟩ none
    | some url => ⟨urlString, some url, .fresh, []⟩

namespace MediaLoading

/-- The service before its first call. -/
def launched : MediaLoading URL Image := ⟨.empty imageCacheLimit, [], []⟩

/-- One step of the service. The bytes of a response are stored without a cost. -/
def step (p : Platform URL Image) (s : MediaLoading URL Image) : MediaStep → Option (MediaLoading URL Image)
  | .getMediaData urlString => some { s with calls := s.calls ++ [getMediaData p s.imageCache urlString] }
  | .respond i data victims => s.calls[i]?.bind fun call => call.request.bind fun url =>
      if call.subscription.isOpen then
        (s.imageCache.setObject data (p.absoluteString url) 0 victims).map fun imageCache =>
          ⟨imageCache, s.calls.set i (call.answered (p.image data)), (url, data) :: s.responses⟩
      else none
  | .networkError i => s.calls[i]?.bind fun call =>
      if call.subscription.isOpen then some { s with calls := s.calls.set i (call.answered none) } else none
  | .deliver i => s.calls[i]?.bind fun call =>
      match call.subscription.queue with
      | [] => none
      | event :: queue => some { s with
          calls := s.calls.set i { call with
            subscription := ⟨call.subscription.isOpen, queue⟩
            received := call.received ++ event.value?.toList } }
  | .cancel i => s.calls[i]?.map fun call =>
      { s with calls := s.calls.set i { call with subscription := .cancelled } }
  | .drop keys => some { s with imageCache := s.imageCache.drop keys }

/-- Everything one step can do. -/
inductive Steps (p : Platform URL Image) (s : MediaLoading URL Image) :
    MediaStep → MediaLoading URL Image → Prop where
  | call (urlString : String) : Steps p s (.getMediaData urlString)
      { s with calls := s.calls ++ [getMediaData p s.imageCache urlString] }
  | response {i : ℕ} {data : Data} {victims : List String} {call : MediaCall URL Image} {url : URL}
      {imageCache : Cache String Data} (hget : s.calls[i]? = some call) (hrequest : call.request = some url)
      (hopen : call.subscription.isOpen = true)
      (hset : s.imageCache.setObject data (p.absoluteString url) 0 victims = some imageCache) :
      Steps p s (.respond i data victims)
        ⟨imageCache, s.calls.set i (call.answered (p.image data)), (url, data) :: s.responses⟩
  | error {i : ℕ} {call : MediaCall URL Image} (hget : s.calls[i]? = some call)
      (hopen : call.subscription.isOpen = true) :
      Steps p s (.networkError i) { s with calls := s.calls.set i (call.answered none) }
  | deliver {i : ℕ} {call : MediaCall URL Image} {event : Event (Option Image) Empty}
      {queue : List (Event (Option Image) Empty)} (hget : s.calls[i]? = some call)
      (hqueue : call.subscription.queue = event :: queue) :
      Steps p s (.deliver i) { s with
        calls := s.calls.set i { call with
          subscription := ⟨call.subscription.isOpen, queue⟩
          received := call.received ++ event.value?.toList } }
  | cancel {i : ℕ} {call : MediaCall URL Image} (hget : s.calls[i]? = some call) :
      Steps p s (.cancel i) { s with calls := s.calls.set i { call with subscription := .cancelled } }
  | drop (keys : List String) : Steps p s (.drop keys) { s with imageCache := s.imageCache.drop keys }

/-- A step does one of the listed things. -/
theorem step_cases {p : Platform URL Image} {s t : MediaLoading URL Image} {a : MediaStep}
    (h : s.step p a = some t) : Steps p s a t := by
  cases a with
  | getMediaData urlString =>
    cases h
    exact .call urlString
  | respond i data victims =>
    obtain ⟨call, hget, hcall⟩ := Option.bind_eq_some_iff.mp h
    obtain ⟨url, hrequest, hurl⟩ := Option.bind_eq_some_iff.mp hcall
    obtain ⟨hopen, hmap⟩ := Option.ite_none_right_eq_some.mp hurl
    obtain ⟨imageCache, hset, rfl⟩ := Option.map_eq_some_iff.mp hmap
    exact .response hget hrequest hopen hset
  | networkError i =>
    obtain ⟨call, hget, hcall⟩ := Option.bind_eq_some_iff.mp h
    obtain ⟨hopen, hsome⟩ := Option.ite_none_right_eq_some.mp hcall
    cases hsome
    exact .error hget hopen
  | deliver i =>
    obtain ⟨call, hget, hcall⟩ := Option.bind_eq_some_iff.mp h
    cases hqueue : call.subscription.queue with
    | nil => simp [hqueue] at hcall
    | cons event queue =>
      simp only [hqueue, Option.some.injEq] at hcall
      subst hcall
      exact .deliver hget hqueue
  | cancel i =>
    obtain ⟨call, hget, rfl⟩ := Option.map_eq_some_iff.mp h
    exact .cancel hget
  | drop keys =>
    cases h
    exact .drop keys

/-- The responses under the strings of their URLs, as the cache sees them. -/
def loaded (p : Platform URL Image) (s : MediaLoading URL Image) : List (String × Data) :=
  s.responses.map fun response => (p.absoluteString response.1, response.2)

end MediaLoading

/-- The call was or will be handed this image. -/
def MediaCall.Yields (call : MediaCall URL Image) (image : Image) : Prop :=
  .value (some image) ∈ call.subscription.queue ∨ some image ∈ call.received

/-- The image was decoded from a response for the URL that the string denotes. -/
def Decoded (p : Platform URL Image) (responses : List (URL × Data)) (urlString : String) (image : Image) : Prop :=
  ∃ url data, p.url urlString = some url ∧ (url, data) ∈ responses ∧ p.image data = some image

namespace MediaLoading

/-- What a step does to the cache: nothing, or it stores a response under the string of its URL beside all
other entries, or it drops entries. -/
inductive Stocks (p : Platform URL Image) (s : MediaLoading URL Image) :
    MediaStep → MediaLoading URL Image → Prop where
  | same {a : MediaStep} {t : MediaLoading URL Image} (hcache : t.imageCache = s.imageCache)
      (hresponses : t.responses = s.responses) (hresponse : ∀ i data victims, a ≠ .respond i data victims) :
      Stocks p s a t
  | stored {i : ℕ} {data : Data} {victims : List String} {call : MediaCall URL Image} {url : URL}
      {t : MediaLoading URL Image} (hget : s.calls[i]? = some call) (hrequest : call.request = some url)
      (hfree : t.imageCache.Free) (hresponses : t.responses = (url, data) :: s.responses)
      (hobject : ∀ key, t.imageCache.object key =
        if key = p.absoluteString url then some data else s.imageCache.object key) :
      Stocks p s (.respond i data victims) t
  | dropped {keys : List String} {t : MediaLoading URL Image} (hfree : t.imageCache.Free)
      (hresponses : t.responses = s.responses)
      (hobject : ∀ key, t.imageCache.object key = if key ∈ keys then none else s.imageCache.object key) :
      Stocks p s (.drop keys) t

/-- What every run keeps of the cache: it holds last responses, without a cost. -/
structure Stocked (p : Platform URL Image) (s : MediaLoading URL Image) : Prop where
  free : s.imageCache.Free
  latest : ∀ key data, s.imageCache.object key = some data → (s.loaded p).lookup key = some data

/-- What every run keeps: beside the cache, every request is for the URL of its call's string, and every image
was decoded from a response for it. -/
structure Kept (p : Platform URL Image) (s : MediaLoading URL Image) : Prop extends Stocked p s where
  requested : ∀ call ∈ s.calls, ∀ url, call.request = some url → p.url call.urlString = some url
  yielded : ∀ call ∈ s.calls, ∀ image, call.Yields image → Decoded p s.responses call.urlString image

end MediaLoading

/-- A result adds at most its image to what a call yields. -/
theorem MediaCall.yields_answered {call : MediaCall URL Image} {result : Option Image} {image : Image}
    (h : (call.answered result).Yields image) : call.Yields image ∨ result = some image := by
  rcases h with hqueue | hreceived
  · cases hopen : call.subscription.isOpen with
    | false =>
      rw [answered, Subscription.promise_of_closed hopen] at hqueue
      exact .inl (.inl hqueue)
    | true =>
      rw [answered, Subscription.promise_of_open hopen] at hqueue
      rcases List.mem_append.mp hqueue with hold | hnew
      · exact .inl (.inl hold)
      · simp only [List.mem_cons, Event.value.injEq, reduceCtorEq, List.not_mem_nil, or_false] at hnew
        exact .inr hnew.symm
  · exact .inl (.inr hreceived)

/-- A call that has not been answered yields nothing. -/
theorem MediaCall.not_yields_fresh {urlString : String} {request : Option URL} {image : Image} :
    ¬ MediaCall.Yields ⟨urlString, request, .fresh, []⟩ image := by
  rintro (h | h) <;> cases h

/-- A call that is served yields the image that the cached bytes decode to. -/
theorem getMediaData_of_cached {p : Platform URL Image} {imageCache : Cache String Data} {urlString : String}
    {image : Image} (h : (imageCache.object urlString).bind p.image = some image) :
    getMediaData p imageCache urlString = MediaCall.answered ⟨urlString, none, .fresh, []⟩ (some image) := by
  rw [getMediaData, h]

/-- A call that cannot be served asks the network for the URL of its string, if it denotes one. -/
theorem getMediaData_of_not_cached {p : Platform URL Image} {imageCache : Cache String Data} {urlString : String}
    (h : (imageCache.object urlString).bind p.image = none) : getMediaData p imageCache urlString =
      match p.url urlString with
      | none => MediaCall.answered ⟨urlString, none, .fresh, []⟩ none
      | some url => ⟨urlString, some url, .fresh, []⟩ := by
  rw [getMediaData, h]

/-- What a new call is: it is for its string, asks for the URL of the string, and yields at most the image of
the cached bytes. -/
theorem getMediaData_spec (p : Platform URL Image) (imageCache : Cache String Data) (urlString : String) :
    (getMediaData p imageCache urlString).urlString = urlString ∧
      (∀ url, (getMediaData p imageCache urlString).request = some url → p.url urlString = some url) ∧
      ∀ image, (getMediaData p imageCache urlString).Yields image →
        (imageCache.object urlString).bind p.image = some image := by
  cases hcached : (imageCache.object urlString).bind p.image with
  | some image =>
    rw [getMediaData_of_cached hcached]
    refine ⟨rfl, fun url hurl => (by cases hurl), fun image' hyields => ?_⟩
    exact (MediaCall.yields_answered hyields).resolve_left MediaCall.not_yields_fresh
  | none =>
    rw [getMediaData_of_not_cached hcached]
    cases hurl : p.url urlString with
    | none =>
      refine ⟨rfl, fun url hrequest => (by cases hrequest), fun image hyields => ?_⟩
      exact (MediaCall.yields_answered hyields).resolve_left MediaCall.not_yields_fresh
    | some url =>
      refine ⟨rfl, fun url' hrequest => hrequest, fun image hyields => ?_⟩
      exact absurd hyields MediaCall.not_yields_fresh

namespace MediaLoading

variable {p : Platform URL Image} {s t : MediaLoading URL Image} {a : MediaStep}

/-- A cache without declared costs is changed by a step in one of the listed ways. -/
theorem stocks_of_step (hfree : s.imageCache.Free) (h : s.step p a = some t) : Stocks p s a t := by
  cases step_cases h with
  | response hget hrequest _ hset =>
    obtain ⟨hfree', hobject⟩ := hfree.setObject hset
    exact .stored hget hrequest hfree' rfl hobject
  | drop keys =>
    refine .dropped (fun entry hentry => hfree entry (List.mem_of_mem_filter hentry)) rfl fun key => ?_
    exact Cache.object_drop s.imageCache keys key
  | _ => exact .same rfl rfl (by simp)

/-- The responses after one more. -/
theorem loaded_cons {url : URL} {data : Data} (h : t.responses = (url, data) :: s.responses) :
    t.loaded p = (p.absoluteString url, data) :: s.loaded p := by
  rw [loaded, h]
  rfl

/-- The responses depend on nothing else. -/
theorem loaded_congr (h : t.responses = s.responses) : t.loaded p = s.loaded p := by
  rw [loaded, h, loaded]

/-- The last response under a key after one more. -/
theorem lookup_loaded_cons {url : URL} {data : Data} (h : t.responses = (url, data) :: s.responses) (key : String) :
    (t.loaded p).lookup key = if key = p.absoluteString url then some data else (s.loaded p).lookup key := by
  rw [loaded_cons h, List.lookup_cons]
  by_cases hkey : key = p.absoluteString url
  · simp [hkey]
  · have hnot : (key == p.absoluteString url) = false := by simpa using hkey
    rw [hnot, if_neg hkey]

/-- Every step keeps the last responses in the cache. -/
theorem Stocked.step (hs : s.Stocked p) (h : s.step p a = some t) : t.Stocked p := by
  cases stocks_of_step hs.free h with
  | same hcache hresponses _ =>
    exact ⟨hcache ▸ hs.free, by rw [hcache, loaded_congr hresponses]; exact hs.latest⟩
  | stored _ _ hfree hresponses hobject =>
    refine ⟨hfree, fun key data hdata => ?_⟩
    rw [hobject] at hdata
    rw [lookup_loaded_cons hresponses]
    split
    · rwa [if_pos ‹_›] at hdata
    · rw [if_neg ‹_›] at hdata
      exact hs.latest key data hdata
  | dropped hfree hresponses hobject =>
    refine ⟨hfree, fun key data hdata => ?_⟩
    rw [hobject] at hdata
    rw [loaded_congr hresponses]
    split at hdata
    · cases hdata
    · exact hs.latest key data hdata

/-- The service starts with an empty cache. -/
theorem stocked_launched : (launched : MediaLoading URL Image).Stocked p := by
  refine ⟨?_, ?_⟩ <;> simp [launched, Cache.empty, Cache.Free, Cache.object]

/-- The service starts with nothing. -/
theorem kept_launched : (launched : MediaLoading URL Image).Kept p := by
  refine ⟨stocked_launched, ?_, ?_⟩ <;> simp [launched]

/-- What the cache holds under a string is a response for a URL with this string. -/
theorem Stocked.exists_response (hs : s.Stocked p) {key : String} {data : Data}
    (h : s.imageCache.object key = some data) :
    ∃ url, p.absoluteString url = key ∧ (url, data) ∈ s.responses := by
  obtain ⟨⟨url, bytes⟩, hresponse, heq⟩ := List.mem_map.mp (Replace.mem_of_lookup (hs.latest key data h))
  cases heq
  exact ⟨url, rfl, hresponse⟩

/-- A call may be replaced by one for the same string that yields more only what was decoded for it. -/
theorem Kept.replace (hs : s.Kept p) {i : ℕ} {call call' : MediaCall URL Image} (hget : s.calls[i]? = some call)
    (hstring : call'.urlString = call.urlString) (hrequest : call'.request = call.request)
    (hyields : ∀ image, call'.Yields image → call.Yields image ∨ Decoded p s.responses call.urlString image) :
    Kept p { s with calls := s.calls.set i call' } := by
  have hcall := List.mem_of_getElem? hget
  refine ⟨⟨hs.free, hs.latest⟩, fun other hother url hurl => ?_, fun other hother image himage => ?_⟩
  · rcases List.mem_or_eq_of_mem_set hother with hold | rfl
    · exact hs.requested other hold url hurl
    · rw [hstring]
      exact hs.requested call hcall url (hrequest ▸ hurl)
  · rcases List.mem_or_eq_of_mem_set hother with hold | rfl
    · exact hs.yielded other hold image himage
    · rw [hstring]
      exact (hyields image himage).elim (hs.yielded call hcall image) id

/-- An image that was decoded from a response stays so when more responses arrive. -/
theorem decoded_cons {responses : List (URL × Data)} {urlString : String} {image : Image}
    (h : Decoded p responses urlString image) (response : URL × Data) :
    Decoded p (response :: responses) urlString image := by
  obtain ⟨url, data, hurl, hmem, himage⟩ := h
  exact ⟨url, data, hurl, List.mem_cons_of_mem _ hmem, himage⟩

/-- A response is decoded for its own call. -/
theorem Kept.response (hs : s.Kept p) {i : ℕ} {data : Data} {call : MediaCall URL Image} {url : URL}
    {imageCache : Cache String Data} (hget : s.calls[i]? = some call) (hrequest : call.request = some url)
    (hstocked : Stocked p ⟨imageCache, s.calls.set i (call.answered (p.image data)), (url, data) :: s.responses⟩) :
    Kept p ⟨imageCache, s.calls.set i (call.answered (p.image data)), (url, data) :: s.responses⟩ := by
  have hurl := hs.requested call (List.mem_of_getElem? hget) url hrequest
  have harrived : Kept p ⟨imageCache, s.calls, (url, data) :: s.responses⟩ :=
    ⟨⟨hstocked.free, hstocked.latest⟩, hs.requested, fun other hother image himage =>
      decoded_cons (hs.yielded other hother image himage) _⟩
  refine harrived.replace hget rfl rfl fun image himage => ?_
  rcases MediaCall.yields_answered himage with hearlier | hnew
  · exact .inl hearlier
  · exact .inr ⟨url, data, hurl, List.mem_cons_self, hnew⟩

/-- A new call yields at most an image that was decoded from a response for its own URL. -/
theorem Kept.call (hs : s.Kept p) (hurl : ∀ url, p.url (p.absoluteString url) = some url) (urlString : String) :
    Kept p { s with calls := s.calls ++ [getMediaData p s.imageCache urlString] } := by
  obtain ⟨hstring, hrequest, hyields⟩ := getMediaData_spec p s.imageCache urlString
  refine ⟨⟨hs.free, hs.latest⟩, fun call hcall url hasks => ?_, fun call hcall image himage => ?_⟩
  · rcases List.mem_append.mp hcall with hold | hnew
    · exact hs.requested call hold url hasks
    · rw [List.mem_singleton.mp hnew] at hasks ⊢
      exact hstring.symm ▸ hrequest url hasks
  · rcases List.mem_append.mp hcall with hold | hnew
    · exact hs.yielded call hold image himage
    · rw [List.mem_singleton.mp hnew] at himage ⊢
      obtain ⟨data, hcached, hdecoded⟩ := Option.bind_eq_some_iff.mp (hyields image himage)
      obtain ⟨url, hkey, hresponse⟩ := hs.exists_response hcached
      rw [hstring, ← hkey]
      exact ⟨url, data, hurl url, hresponse, hdecoded⟩

/-- Every step keeps the cache and the calls right. -/
theorem Kept.step (hs : s.Kept p) (hurl : ∀ url, p.url (p.absoluteString url) = some url)
    (h : s.step p a = some t) : t.Kept p := by
  have hstocked := hs.toStocked.step h
  cases step_cases h with
  | call urlString => exact hs.call hurl urlString
  | response hget hrequest _ _ => exact hs.response hget hrequest hstocked
  | error hget _ =>
    refine hs.replace hget rfl rfl fun image himage => ?_
    exact .inl ((MediaCall.yields_answered himage).resolve_right (by simp))
  | @deliver i call event queue hget hqueue =>
    refine hs.replace hget rfl rfl fun image himage => ?_
    refine .inl ?_
    rcases himage with hlater | hreceived
    · exact .inl (hqueue ▸ List.mem_cons_of_mem _ hlater)
    · rcases List.mem_append.mp hreceived with hold | hnew
      · exact .inr hold
      · cases event with
        | value result =>
          cases List.mem_singleton.mp hnew
          exact .inl (hqueue ▸ List.mem_cons_self)
        | finished => cases hnew
        | failure error => cases hnew
  | cancel hget =>
    refine hs.replace hget rfl rfl fun image himage => ?_
    rcases himage with hqueue | hreceived
    · cases hqueue
    · exact .inl (.inr hreceived)
  | drop keys => exact ⟨hstocked, hs.requested, hs.yielded⟩

/-- Every reachable state keeps the cache and the calls right. -/
theorem kept_run (hurl : ∀ url, p.url (p.absoluteString url) = some url) {steps : List MediaStep}
    (hrun : run (step p) launched steps = some s) : s.Kept p :=
  run_invariant (Kept p) (fun _ _ _ hs h => hs.step hurl h) kept_launched hrun

/-- The step drops or replaces the entry under this key. -/
def touches (p : Platform URL Image) (key : String) (s : MediaLoading URL Image) : MediaStep → Bool
  | .drop keys => key ∈ keys
  | .respond i _ _ => s.calls[i]?.any fun call => call.request.any fun url => p.absoluteString url = key
  | _ => false

/-- The step brings a call for this string its image: from the cache when it is made, or by a response for a
URL with this very string. -/
def Brings (p : Platform URL Image) (s : MediaLoading URL Image) (urlString : String) (image : Image) :
    MediaStep → Prop
  | .getMediaData string => string = urlString ∧ (s.imageCache.object urlString).bind p.image = some image
  | .respond i data _ => p.image data = some image ∧ ∃ call url, s.calls[i]? = some call ∧
      call.urlString = urlString ∧ call.request = some url ∧ p.absoluteString url = urlString
  | _ => False

/-- An entry that is neither dropped nor replaced stays. -/
theorem Stocked.object_of_not_touched (hs : s.Stocked p) (h : s.step p a = some t) {key : String}
    (huntouched : touches p key s a = false) : t.imageCache.object key = s.imageCache.object key := by
  cases stocks_of_step hs.free h with
  | same hcache _ _ => rw [hcache]
  | stored hget hrequest _ _ hobject =>
    rw [hobject, if_neg]
    rintro rfl
    simp [touches, hget, hrequest] at huntouched
  | dropped _ _ hobject => rw [hobject, if_neg (by simpa [touches] using huntouched)]

/-- The bytes of an image that a call was brought are in the cache under its string. -/
theorem Stocked.cached_of_brings (hs : s.Stocked p) (h : s.step p a = some t) {urlString : String} {image : Image}
    (hbrings : Brings p s urlString image a) : (t.imageCache.object urlString).bind p.image = some image := by
  cases stocks_of_step hs.free h with
  | same hcache _ hresponse =>
    cases a with
    | getMediaData string =>
      obtain ⟨rfl, hcached⟩ := hbrings
      rw [hcache]
      exact hcached
    | respond i data victims => exact absurd rfl (hresponse i data victims)
    | _ => cases hbrings
  | stored hget hrequest _ _ hobject =>
    obtain ⟨himage, call', url', hget', -, hrequest', hstring⟩ := hbrings
    cases hget.symm.trans hget'
    cases hrequest.symm.trans hrequest'
    rw [hobject, if_pos hstring.symm]
    exact himage
  | dropped _ _ _ => cases hbrings

/-- An entry that is neither dropped nor replaced stays through a whole run. -/
theorem Stocked.object_of_run (hs : s.Stocked p) {steps : List MediaStep} {key : String}
    (hrun : run (MediaLoading.step p) s steps = some t)
    (huntouched : Along (MediaLoading.step p) (fun s a => touches p key s a = false) s steps) :
    t.imageCache.object key = s.imageCache.object key := by
  induction steps generalizing s with
  | nil => rw [Option.some.inj hrun]
  | cons a rest ih =>
    obtain ⟨next, ha, hrest⟩ := run_cons_eq_some.mp hrun
    rw [ih (hs.step ha) hrest (huntouched.2 next ha), hs.object_of_not_touched ha huntouched.1]

end MediaLoading

/-- In every reachable state, every image that a call has received was decoded from a response for the URL
that its string denotes; a call that finds no bytes that decode asks the network again; and once a call was
brought an image under the string of its URL, a later call for the string is served with it without a
request, as long as the entry is neither dropped nor replaced. -/
theorem image_cache_transparent {p : Platform URL Image} (hurl : ∀ url, p.url (p.absoluteString url) = some url)
    {steps : List MediaStep} {s : MediaLoading URL Image} (hrun : run (MediaLoading.step p) .launched steps = some s) :
    (∀ call ∈ s.calls, ∀ image, some image ∈ call.received → Decoded p s.responses call.urlString image) ∧
    (∀ urlString url, p.url urlString = some url → (s.imageCache.object urlString).bind p.image = none →
      (getMediaData p s.imageCache urlString).request = some url) ∧
    ∀ a urlString image next after t, MediaLoading.Brings p s urlString image a → s.step p a = some next →
      run (MediaLoading.step p) next after = some t →
      Along (MediaLoading.step p) (fun s a => MediaLoading.touches p urlString s a = false) next after →
        getMediaData p t.imageCache urlString = MediaCall.answered ⟨urlString, none, .fresh, []⟩ (some image) := by
  have hs := MediaLoading.kept_run hurl hrun
  refine ⟨fun call hcall image himage => hs.yielded call hcall image (.inr himage),
    fun urlString url hdenotes hmissing => ?_, ?_⟩
  · rw [getMediaData_of_not_cached hmissing, hdenotes]
  · intro a urlString image next after t hbrings hstep hafter huntouched
    apply getMediaData_of_cached
    rw [(hs.toStocked.step hstep).object_of_run hafter huntouched]
    exact hs.cached_of_brings hstep hbrings

/-- A platform whose URLs are the nonempty strings and whose images are the bytes with the signature of a GIF. -/
def gifPlatform : Platform { text : String // text ≠ "" } Data where
  url text := if h : text ≠ "" then some ⟨text, h⟩ else none
  absoluteString := Subtype.val
  image data := if data.take 4 = [71, 73, 70, 56] then some data else none

/-- A GIF of one pixel. -/
def onePixel : Data :=
  [71, 73, 70, 56, 57, 97, 1, 0, 1, 0, 128, 0, 0, 0, 0, 0, 255, 255, 255, 33, 249, 4, 1, 0, 0, 0, 0, 44, 0, 0, 0,
    0, 1, 0, 1, 0, 0, 2, 2, 68, 1, 0, 59]

/-- An image that was loaded once is served from the cache. -/
theorem onePixel_served : ∃ s, run (MediaLoading.step gifPlatform) .launched
      [.getMediaData "https://host/pixel.gif", .respond 0 onePixel [], .deliver 0] = some s ∧
    getMediaData gifPlatform s.imageCache "https://host/pixel.gif" =
      MediaCall.answered ⟨"https://host/pixel.gif", none, .fresh, []⟩ (some onePixel) := by
  have hurl : ∀ url, gifPlatform.url (gifPlatform.absoluteString url) = some url := by
    intro url
    simp [gifPlatform, url.property]
  refine ⟨_, rfl, ?_⟩
  refine (@image_cache_transparent _ _ gifPlatform hurl [.getMediaData "https://host/pixel.gif"] _ rfl).2.2
    (.respond 0 onePixel []) "https://host/pixel.gif" onePixel _ [.deliver 0] _ ?_ rfl rfl ⟨rfl, fun _ _ => trivial⟩
  exact ⟨rfl, _, _, rfl, rfl, rfl, rfl⟩

end LoveCoupons
