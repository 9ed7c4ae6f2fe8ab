import LoveCoupons.MediaLoading

/-!
# The limit of the image cache

The cache gets a limit of 100 MiB, but a limit is on the costs that are declared with the entries,
and the service stores every response without a cost. So the cache never evicts for its limit, and
it holds the last response of every URL that was loaded, however large they are together.
-/

namespace LoveCoupons

open CostCache Reactive StepSystem

variable {URL Image : Type}

/-- The step makes the cache drop entries for reasons of its own. -/
def MediaStep.isDrop : MediaStep → Bool
  | .drop _ => true
  | _ => false

namespace MediaLoading

/-- The number of bytes in the cache. -/
def bytesHeld (s : MediaLoading URL Image) : ℕ := s.imageCache.size List.length

/-- The cache holds at most as many bytes as its limit says. -/
def WithinLimit (s : MediaLoading URL Image) : Prop := s.bytesHeld ≤ imageCacheLimit

/-- With this response, the last responses of all URLs that were loaded have at most as many bytes together
as the limit says. -/
def fitsLimit (p : Platform URL Image) (s : MediaLoading URL Image) : MediaStep → Prop
  | .respond i data _ => ∀ call url, s.calls[i]? = some call → call.request = some url →
      latestSize List.length ((p.absoluteString url, data) :: s.loaded p) ≤ imageCacheLimit
  | _ => True

/-- The cache holds exactly the last responses, without a cost. -/
structure Full (p : Platform URL Image) (s : MediaLoading URL Image) : Prop where
  free : s.imageCache.Free
  object_eq : ∀ key, s.imageCache.object key = (s.loaded p).lookup key

variable {p : Platform URL Image} {s t : MediaLoading URL Image} {a : MediaStep}

/-- The service starts with an empty cache and no responses. -/
theorem full_launched : (launched : MediaLoading URL Image).Full p := by
  refine ⟨?_, fun key => ?_⟩ <;> simp [launched, Cache.empty, Cache.Free, Cache.object, loaded]

/-- Responses that fit keep the sum of the last responses within the limit. -/
theorem latestSize_step (hs : s.Stocked p) (hfits : s.fitsLimit p a) (h : s.step p a = some t)
    (hsum : latestSize List.length (s.loaded p) ≤ imageCacheLimit) :
    latestSize List.length (t.loaded p) ≤ imageCacheLimit := by
  cases stocks_of_step hs.free h with
  | same _ hresponses _ => rwa [loaded_congr hresponses]
  | stored hget hrequest _ hresponses _ =>
    rw [loaded_cons hresponses]
    exact hfits _ _ hget hrequest
  | dropped _ hresponses _ => rwa [loaded_congr hresponses]

/-- A run of responses that fit stays within the limit. -/
theorem within_of_fits {steps : List MediaStep} (hfits : Along (step p) (fitsLimit p) launched steps) :
    Always (step p) WithinLimit launched steps := by
  have hlaunched : (launched : MediaLoading URL Image).Stocked p ∧
      latestSize List.length ((launched : MediaLoading URL Image).loaded p) ≤ imageCacheLimit :=
    ⟨stocked_launched, Nat.zero_le _⟩
  refine (always_of_along (fun s => s.Stocked p ∧ latestSize List.length (s.loaded p) ≤ imageCacheLimit)
    (fun s a next hs hfits h => ⟨hs.1.step h, latestSize_step hs.1 hfits h hs.2⟩) hlaunched hfits).mono ?_
  rintro t ⟨hstocked, hsum⟩
  exact (Cache.size_le_latestSize List.length hstocked.latest).trans hsum

/-- A cache from which nothing is dropped holds the last response of every URL. -/
theorem Full.step (hs : s.Full p) (hkeeps : a.isDrop = false) (h : s.step p a = some t) : t.Full p := by
  cases stocks_of_step hs.free h with
  | same hcache hresponses _ =>
    refine ⟨hcache ▸ hs.free, fun key => ?_⟩
    rw [hcache, loaded_congr hresponses, hs.object_eq]
  | stored _ _ hfree hresponses hobject =>
    refine ⟨hfree, fun key => ?_⟩
    rw [hobject, lookup_loaded_cons hresponses, hs.object_eq]
  | dropped _ _ _ => cases hkeeps

/-- A cache from which nothing is dropped is within the limit after a response only if the response fits. -/
theorem Full.fits_of_within (hs : s.Full p) (hkeeps : a.isDrop = false) (h : s.step p a = some t)
    (hwithin : t.WithinLimit) : s.fitsLimit p a := by
  have ht := hs.step hkeeps h
  cases stocks_of_step hs.free h with
  | same _ _ hresponse =>
    cases a with
    | respond i data victims => exact absurd rfl (hresponse i data victims)
    | _ => trivial
  | stored hget hrequest _ hresponses _ =>
    intro call url hget' hrequest'
    cases hget.symm.trans hget'
    cases hrequest.symm.trans hrequest'
    rw [← loaded_cons hresponses, ← Cache.size_eq_latestSize List.length ht.object_eq]
    exact hwithin
  | dropped _ _ _ => trivial

/-- A run without drops stays within the limit only if every response fits. -/
theorem Full.fits_of_always (hs : s.Full p) {steps : List MediaStep} (hkeeps : ∀ a ∈ steps, a.isDrop = false)
    (hrun : run (MediaLoading.step p) s steps = some t)
    (hwithin : Always (MediaLoading.step p) WithinLimit s steps) :
    Along (MediaLoading.step p) (fitsLimit p) s steps := by
  induction steps generalizing s with
  | nil => trivial
  | cons a rest ih =>
    obtain ⟨next, ha, hrest⟩ := run_cons_eq_some.mp hrun
    have hkeep := hkeeps a List.mem_cons_self
    have hlater := ((always_cons ha).mp hwithin).2
    refine ⟨hs.fits_of_within hkeep ha (hlater [] rest next rfl rfl), fun next' ha' => ?_⟩
    obtain rfl : next = next' := Option.some.inj (ha.symm.trans ha')
    exact ih (hs.step hkeep ha) (fun b hb => hkeeps b (List.mem_cons_of_mem _ hb)) hrest hlater

end MediaLoading

/-- The cache stays within its limit along every run in which, at each response, the last responses of the
URLs loaded so far fit the limit together; and as long as the cache drops nothing else, along no other. -/
theorem image_cache_within_limit_iff (p : Platform URL Image) {steps : List MediaStep} {s : MediaLoading URL Image}
    (hrun : run (MediaLoading.step p) .launched steps = some s) :
    (Along (MediaLoading.step p) (MediaLoading.fitsLimit p) .launched steps →
      Always (MediaLoading.step p) MediaLoading.WithinLimit .launched steps) ∧
    ((∀ a ∈ steps, a.isDrop = false) →
      (Always (MediaLoading.step p) MediaLoading.WithinLimit .launched steps ↔
        Along (MediaLoading.step p) (MediaLoading.fitsLimit p) .launched steps)) := by
  refine ⟨MediaLoading.within_of_fits, fun hkeeps => ⟨fun hwithin => ?_, MediaLoading.within_of_fits⟩⟩
  exact MediaLoading.full_launched.fits_of_always hkeeps hrun hwithin

/-- Two images are loaded. -/
def twoLoads (first second : Data) : List MediaStep :=
  [.getMediaData "https://host/a.jpg", .getMediaData "https://host/b.jpg", .respond 0 first [], .respond 1 second []]

/-- After two loads the cache holds the bytes of both. -/
theorem bytesHeld_twoLoads (first second : Data) : ∃ s,
    run (MediaLoading.step gifPlatform) .launched (twoLoads first second) = some s ∧
      s.responses.map Prod.snd = [second, first] ∧ s.bytesHeld = second.length + (first.length + 0) :=
  ⟨_, rfl, rfl, rfl⟩

/-- Two images of one pixel stay within the limit. -/
theorem onePixel_twice_within_limit :
    Always (MediaLoading.step gifPlatform) MediaLoading.WithinLimit .launched (twoLoads onePixel onePixel) := by
  obtain ⟨s, hrun, -, -⟩ := bytesHeld_twoLoads onePixel onePixel
  apply (image_cache_within_limit_iff gifPlatform hrun).1
  refine ⟨trivial, fun s₁ h₁ => ⟨trivial, fun s₂ h₂ => ?_⟩⟩
  cases h₁
  cases h₂
  refine ⟨fun call url hget hrequest => ?_, fun s₃ h₃ => ⟨fun call url hget hrequest => ?_, fun _ _ => trivial⟩⟩
  · cases hget
    cases hrequest
    decide
  · cases h₃
    cases hget
    cases hrequest
    decide

/-- Two images of 60 MiB are both kept, in a cache with a limit of 100 MiB. -/
theorem two_large_images_exceed_limit :
    ¬ ∀ steps s, run (MediaLoading.step gifPlatform) .launched steps = some s →
      (∀ response ∈ s.responses, response.2.length ≤ imageCacheLimit) → s.WithinLimit := by
  intro hlimit
  obtain ⟨s, hrun, hresponses, hheld⟩ :=
    bytesHeld_twoLoads (List.replicate (60 * 1024 * 1024) 0) (List.replicate (60 * 1024 * 1024) 0)
  have hwithin : s.bytesHeld ≤ imageCacheLimit := by
    refine hlimit _ s hrun fun response hresponse => ?_
    have hdata := List.mem_map_of_mem hresponse (f := Prod.snd)
    rw [hresponses] at hdata
    have heq : response.2 = List.replicate (60 * 1024 * 1024) 0 := by
      simpa only [List.mem_cons, List.not_mem_nil, or_false, or_self] using hdata
    rw [heq, List.length_replicate, imageCacheLimit]
    omega
  rw [hheld, List.length_replicate, imageCacheLimit] at hwithin
  omega

end LoveCoupons
