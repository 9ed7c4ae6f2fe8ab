import LoveCoupons.AddCoupon

/-!
# At most one coupon from one add screen

While each press waits for the failure of the earlier ones, only the last operation of the
screen can still write. What it has stored and written stays in place, because every operation
stores its image under a path of its own.
-/

namespace LoveCoupons

open KeyedTree Reactive StepSystem

section Steps

variable {userUid : Option Key} {pool : Pool Backend Call Answer Bool ApiError (ℕ × Operation)} {i : ℕ}
  {tag : ℕ × Operation} {b : Backend} {r r' : ApiRequest} {p : Progress Answer}

/-- A step of one request keeps the additions when it keeps what each of them has stored and written. -/
theorem OneAddition.update (hs : OneAddition userUid pool) (hget : pool.requests[i]? = some (tag, r))
    (huser : b.currentUser = pool.backend.currentUser) (horigin : r'.origin = r.origin)
    (hfailed : i + 1 < pool.requests.length → failedForGood r' = true)
    (hself : AdditionKept userUid b tag.2 r'.answers)
    (hothers : ∀ j entry, j ≠ i → pool.requests[j]? = some entry →
      AdditionKept userUid b entry.1.2 entry.2.answers) :
    OneAddition userUid (pool.update i tag b r r') := by
  refine ⟨huser.trans hs.user, ?_, fun j entry hj hlt => ?_, ?_, fun entry hentry => ?_⟩
  · apply Pool.forall_update (P := fun (tag : ℕ × Operation) r => IsAddition userUid tag.2 r.origin) hs.additions
    rw [horigin]
    exact hs.additions _ (List.mem_of_getElem? hget)
  · change (pool.requests.set i (tag, r'))[j]? = some entry at hj
    change j + 1 < (pool.requests.set i (tag, r')).length at hlt
    rw [List.length_set] at hlt
    rcases Replace.getElem?_set_cases hj with ⟨rfl, rfl⟩ | ⟨-, hold⟩
    · exact hfailed hlt
    · exact hs.failed j entry hold hlt
  · intro j k tag₁ tag₂ image h₁ h₂
    rw [Pool.tagAt_update hget] at h₁ h₂
    exact hs.distinct j k tag₁ tag₂ image h₁ h₂
  · rcases Pool.mem_update_cases hentry with rfl | ⟨j, hne, hj⟩
    · exact hself
    · exact hothers j entry hne hj

/-- What an accepted addition has to keep. -/
theorem AdditionKept.intro {op : Operation} {answers : List Answer} {uid : Key} {object fresh : UUID}
    {coupon : Coupon} {data : Data} (hop : op = .updateCoupon object fresh coupon (some data))
    (huid : userUid = some uid) (himage : ImageKept b (imagePath uid object) data answers)
    (hrecord : ∀ upload fetch write url, answers = [upload, fetch, write] → fetch.url = some url →
      write.error = none → IsRecord (getChild b.database (couponRef uid fresh.toKey)) coupon.description url) :
    AdditionKept userUid b op answers := by
  subst hop huid
  refine ⟨fun object' fresh' coupon' data' uid' hop' huid' => ?_,
    fun object' fresh' coupon' data' uid' hop' huid' => ?_⟩
  · cases hop'
    cases huid'
    exact himage
  · cases hop'
    cases huid'
    exact hrecord

/-- A failed addition keeps what it has stored, whatever is written. -/
theorem AdditionKept.of_failed {op : Operation} {b' : Backend} (hr : r.Valid timeoutError)
    (hop : IsAddition userUid op r.origin) (hfailed : failedForGood r = true)
    (h : AdditionKept userUid b op r.answers)
    (hobject : ∀ image, op.image userUid = some image → b'.object image = b.object image) :
    AdditionKept userUid b' op r.answers := by
  refine ⟨fun object fresh coupon data uid heq huid => ?_,
    fun object fresh coupon data uid heq huid upload fetch write url hanswers hurl herror => ?_⟩
  · apply (h.image object fresh coupon data uid heq huid).of_object
    apply hobject
    rw [heq, huid]
    rfl
  · rw [not_failed_of_written hr hop hanswers hurl herror] at hfailed
    cases hfailed

/-- A reply goes to the last addition only: the earlier ones have come to their end. -/
theorem OneAddition.last_of_call (hs : OneAddition userUid pool)
    (hvalid : ∀ entry ∈ pool.requests, entry.2.Valid timeoutError)
    (hget : pool.requests[i]? = some (tag, r)) {call : Call} {next : Answer → ApiChain}
    (hrest : r.rest = some (.call call next)) : ¬ i + 1 < pool.requests.length := by
  intro hlt
  have hfailed := hs.failed i _ hget hlt
  simp only [failedForGood, Bool.and_eq_true, decide_eq_true_eq] at hfailed
  obtain ⟨result, hdone⟩ := (hvalid _ (List.mem_of_getElem? hget)).over_done hfailed.1
  cases hrest.symm.trans hdone

/-- The earlier additions keep what they have stored while the last one touches its own image only. -/
theorem OneAddition.others (hs : OneAddition userUid pool)
    (hvalid : ∀ entry ∈ pool.requests, entry.2.Valid timeoutError)
    (hget : pool.requests[i]? = some (tag, r)) (hlast : ¬ i + 1 < pool.requests.length) {image : String}
    (himage : tag.2.image userUid = some image)
    (hobject : ∀ other, other ≠ image → b.object other = pool.backend.object other) (j : ℕ)
    (entry : (ℕ × Operation) × ApiRequest) (hne : j ≠ i) (hj : pool.requests[j]? = some entry) :
    AdditionKept userUid b entry.1.2 entry.2.answers := by
  have hi : i < pool.requests.length := (List.getElem?_eq_some_iff.mp hget).1
  have hj' : j < pool.requests.length := (List.getElem?_eq_some_iff.mp hj).1
  have hentry := List.mem_of_getElem? hj
  refine AdditionKept.of_failed (hvalid _ hentry) (hs.additions _ hentry) (hs.failed j entry hj (by omega))
    (hs.kept _ hentry) fun other hother => hobject other ?_
  rintro rfl
  exact hne (hs.distinct j i entry.1 tag _ (Pool.tagAt_of_get hj) (Pool.tagAt_of_get hget) hother himage)

/-- A reply to the last addition keeps the additions. -/
theorem OneAddition.reply (hs : OneAddition userUid pool)
    (hvalid : ∀ entry ∈ pool.requests, entry.2.Valid timeoutError)
    (hget : pool.requests[i]? = some (tag, r)) {call : Call} {next : Answer → ApiChain} {a : Answer}
    (hrest : r.rest = some (.call call next)) (hrespond : pool.backend.respond call a = some b) :
    OneAddition userUid (pool.update i tag b r (r.answered a)) := by
  have hmem := List.mem_of_getElem? hget
  have hlast := hs.last_of_call hvalid hget hrest
  obtain ⟨uid, object, fresh, coupon, data, huid, hop, hcall⟩ := call_of_addition (hs.additions _ hmem) hrest
  have hown := (hs.kept _ hmem).image object fresh coupon data uid hop huid
  have himage : tag.2.image userUid = some (imagePath uid object) := by
    rw [hop, huid]
    rfl
  have hupdate : b.currentUser = pool.backend.currentUser →
      (∀ other, other ≠ imagePath uid object → b.object other = pool.backend.object other) →
      AdditionKept userUid b tag.2 (r.answers ++ [a]) → OneAddition userUid (pool.update i tag b r (r.answered a)) :=
    fun huser hobject hself => hs.update hget huser rfl (fun hlt => absurd hlt hlast) hself
      (hs.others hvalid hget hlast himage hobject)
  rcases hcall with ⟨hanswers, rfl⟩ | ⟨upload, hanswers, rfl⟩ | ⟨upload, fetch, url, hanswers, hurl, rfl⟩
  · rw [hanswers] at hown hupdate
    exact hupdate (Backend.currentUser_of_respond hrespond (by simp) (by simp))
      (fun other hne => object_of_putData hrespond hne) (.intro hop huid (hown.upload hrespond) (by simp))
  · rw [hanswers] at hown hupdate
    obtain rfl := (Backend.respond_downloadURL hrespond).1
    exact hupdate rfl (fun _ _ => rfl) (.intro hop huid (hown.fetch hrespond) (by simp))
  · rw [hanswers] at hown hupdate
    have hobject : ∀ image, b.object image = pool.backend.object image := by
      intro image
      rw [Backend.object, Backend.storage_of_respond hrespond (by simp), Backend.object]
    refine hupdate (Backend.currentUser_of_respond hrespond (by simp) (by simp)) (fun other _ => hobject other)
      (.intro hop huid ((hown.write a).of_object (hobject _)) ?_)
    intro upload' fetch' write url' heq hurl' herror
    simp only [List.cons_append, List.nil_append, List.cons.injEq] at heq
    obtain ⟨-, rfl, rfl, -⟩ := heq
    obtain rfl : url = url' := Option.some.inj (hurl.symm.trans hurl')
    rcases Backend.respond_updateChildValues hrespond with ⟨hfailed, -⟩ | ⟨-, rfl⟩
    · simp [herror] at hfailed
    · exact isRecord_merge _ _ { coupon with image := url }

/-- A step of a request keeps the additions. -/
theorem OneAddition.advance (hs : OneAddition userUid pool)
    (hvalid : ∀ entry ∈ pool.requests, entry.2.Valid timeoutError)
    (hget : pool.requests[i]? = some (tag, r))
    (hadvance : r.advance Backend.service timeoutError pool.backend p = some (b, r')) :
    OneAddition userUid (pool.update i tag b r r') := by
  have hadv := Request.advance_cases hadvance
  cases hadv.acts with
  | idle horigin hanswers =>
    refine hs.update hget rfl horigin (fun hlt => ?_) ?_ fun j entry _ hj => hs.kept _ (List.mem_of_getElem? hj)
    · exact failedForGood_advances hadv (hs.failed i _ hget hlt)
    · rw [hanswers]
      exact hs.kept _ (List.mem_of_getElem? hget)
  | reply hrest hrespond => exact hs.reply hvalid hget hrest hrespond

/-- A press after the failure of all the others keeps the additions. -/
theorem OneAddition.add (hs : OneAddition userUid pool) {press : ℕ} {op : Operation}
    (hfailed : ∀ entry ∈ pool.requests, failedForGood entry.2 = true)
    (hop : IsAddition userUid op r.origin) (hnew : drawsNewImage pool op = true) (hanswers : r.answers = []) :
    OneAddition userUid (pool.add (press, op) pool.backend r) := by
  have hunused : ∀ image, op.image userUid = some image → pool.backend.object image = none ∧
      ∀ entry ∈ pool.requests, entry.1.2.image userUid ≠ some image := by
    intro image himage
    rw [drawsNewImage, hs.user, himage] at hnew
    simpa using hnew
  refine ⟨hs.user, ?_, fun j entry hj hlt => ?_, fun j k tag tag' image hj hk hjmage hkmage => ?_,
    fun entry hentry => ?_⟩
  · exact Pool.forall_add (P := fun (tag : ℕ × Operation) r => IsAddition userUid tag.2 r.origin) hs.additions hop
  · change (pool.requests ++ [((press, op), r)])[j]? = some entry at hj
    change j + 1 < (pool.requests ++ [((press, op), r)]).length at hlt
    rw [List.length_append, List.length_singleton] at hlt
    rw [List.getElem?_append_left (by omega)] at hj
    exact hfailed entry (List.mem_of_getElem? hj)
  · rcases Pool.tagAt_add_cases hj with ⟨-, hj⟩ | ⟨rfl, rfl⟩ <;>
      rcases Pool.tagAt_add_cases hk with ⟨-, hk⟩ | ⟨rfl, rfl⟩
    · exact hs.distinct j k tag tag' image hj hk hjmage hkmage
    · obtain ⟨r₀, hget⟩ := Pool.exists_of_tagAt hj
      exact absurd hjmage ((hunused image hkmage).2 _ (List.mem_of_getElem? hget))
    · obtain ⟨r₀, hget⟩ := Pool.exists_of_tagAt hk
      exact absurd hkmage ((hunused image hjmage).2 _ (List.mem_of_getElem? hget))
    · rfl
  · rcases List.mem_append.mp hentry with hold | hlast
    · exact hs.kept entry hold
    · rw [List.mem_singleton.mp hlast]
      refine ⟨fun object fresh coupon data uid heq huid => ?_, by simp [hanswers]⟩
      have himage : op.image userUid = some (imagePath uid object) := by
        rw [huid]
        exact congrArg (Operation.image (some uid)) heq
      have hnone := (hunused _ himage).1
      refine ⟨fun stored hstored => ?_, by simp [hanswers]⟩
      cases hnone.symm.trans hstored

end Steps

/-- A new request of the add screen is an addition that has called nothing yet. -/
theorem subscribe_addition {object fresh : UUID} {coupon : Coupon} {data : Option Data} (hkey : coupon.key = none)
    {b b' : Backend} {a : Answer} {r : ApiRequest} (h : Request.subscribe Backend.service b
      (sinks.publisher b (.updateCoupon object fresh coupon data)) a = some (b', r)) :
    b' = b ∧ r.answers = [] ∧
      IsAddition b.currentUser (.updateCoupon object fresh coupon data) r.origin := by
  rcases Request.subscribe_cases h with ⟨error, -, rfl, rfl⟩ | ⟨chain, hfuture, hproceeds⟩
  · exact ⟨rfl, rfl, object, fresh, coupon, data, rfl, hkey, .inr ⟨error, rfl⟩⟩
  · obtain ⟨uid, bytes, huid, rfl, rfl⟩ :
        Operation.IsChain b.currentUser (.updateCoupon object fresh coupon data) chain :=
      Operation.isChain_of_future hfuture
    cases hproceeds with
    | resolve hrest => cases hrest
    | act hrest himm _ =>
      cases hrest
      cases himm
    | await _ _ =>
      refine ⟨rfl, rfl, object, fresh, coupon, some bytes, rfl, hkey, .inl ⟨uid, bytes, huid, rfl, ?_⟩⟩
      rw [hkey]
      rfl

/-- What holds of the add screen while each press waits for the failure of the earlier ones. -/
structure AddScreen.Kept (userUid : Option Key) (s : AddScreen) : Prop where
  key : s.coupon.key = none
  balanced : s.screen.Balanced timeoutError
  traced : s.screen.Traced sinks
  additions : OneAddition userUid s.screen.pool

/-- Every step of the add screen that retries only after a failure keeps the additions. -/
theorem AddScreen.Kept.step {userUid : Option Key} {s s' : AddScreen} {a : AddStep} (hs : s.Kept userUid)
    (hcond : retriesAfterFailure s a = true) (h : s.step a = some s') : s'.Kept userUid := by
  cases a with
  | write text =>
    cases h
    exact ⟨hs.key, hs.balanced, hs.traced, hs.additions⟩
  | updateImage =>
    cases h
    exact ⟨hs.key, ⟨hs.balanced.valid, hs.balanced.tally⟩, ⟨hs.traced.due, hs.traced.origin, hs.traced.earned⟩,
      hs.additions⟩
  | imageLoaded =>
    cases h
    exact ⟨hs.key, ⟨hs.balanced.valid, hs.balanced.tally⟩, ⟨hs.traced.due, hs.traced.origin, hs.traced.earned⟩,
      hs.additions⟩
  | press image object fresh a =>
    simp only [AddScreen.step] at h
    split at h
    · rename_i hready
      obtain ⟨screen, hstep, rfl⟩ := Option.map_eq_some_iff.mp h
      refine ⟨hs.key, hs.balanced.step hstep, hs.traced.step hs.balanced hstep, ?_⟩
      cases Screen.step_cases hstep with
      | press hstart =>
        obtain ⟨rfl, hanswers, hop⟩ := subscribe_addition (by exact hs.key) hstart
        rw [hs.additions.user] at hop
        rw [Bool.and_eq_true] at hready
        exact hs.additions.add (by simpa [retriesAfterFailure] using hcond) hop hready.2 hanswers
    · contradiction
  | progress i p =>
    obtain ⟨screen, hstep, rfl⟩ := Option.map_eq_some_iff.mp h
    refine ⟨hs.key, hs.balanced.step hstep, hs.traced.step hs.balanced hstep, ?_⟩
    cases Screen.step_cases hstep with
    | work _ hget hadvance => exact hs.additions.advance hs.balanced.valid hget hadvance
  | deliver i a =>
    obtain ⟨screen, hstep, rfl⟩ := Option.map_eq_some_iff.mp h
    refine ⟨hs.key, hs.balanced.step hstep, hs.traced.step hs.balanced hstep, ?_⟩
    cases Screen.step_cases hstep with
    | act hget hadvance _ _ => exact hs.additions.advance hs.balanced.valid hget hadvance
    | finish hget hadvance _ => exact hs.additions.advance hs.balanced.valid hget hadvance
    | fail hget hadvance _ => exact hs.additions.advance hs.balanced.valid hget hadvance
    | @next _ _ _ stage _ _ _ _ _ _ _ hget _ _ hvalue _ =>
      have hadd : IsAddition userUid stage _ := hs.additions.additions _ (List.mem_of_getElem? hget)
      obtain ⟨object, fresh, coupon, data, rfl, -⟩ := hadd
      cases hvalue

/-- The write of an addition comes last, at the place of its drawn key. -/
theorem written_of_addition {userUid : Option Key} {op : Operation} {r : ApiRequest}
    (hr : r.Valid timeoutError) (hop : IsAddition userUid op r.origin) {ref : Path} {values : List (Key × Node)}
    {a : Answer} (hmade : (.updateChildValues ref values, a) ∈ r.made) :
    ∃ upload fetch url, r.answers = [upload, fetch, a] ∧ fetch.url = some url ∧
      ∃ object fresh coupon data uid, op = .updateCoupon object fresh coupon data ∧ userUid = some uid ∧
        ref = couponRef uid fresh.toKey := by
  obtain ⟨object, fresh, coupon, data, rfl, -, ⟨uid, bytes, huid, -, hchain⟩ | ⟨error, hrefused⟩⟩ := hop
  · obtain ⟨rest, hrest⟩ := hr.exists_rest
    rw [Request.rest, hchain] at hrest
    unfold Request.made at hmade
    rw [hchain] at hmade
    rcases resume_updateCouponChain_cases hrest with ⟨h, -⟩ | ⟨upload, h, -⟩ | ⟨upload, fetch, h, -⟩ |
      ⟨upload, fetch, write, url, h, hurl, -⟩ <;> rw [h] at hmade
    · simp at hmade
    · simp [updateCouponChain] at hmade
    · simp [updateCouponChain] at hmade
    · rw [trace_updateCouponChain _ _ _ _ upload hurl write] at hmade
      obtain ⟨⟨rfl, -⟩, rfl⟩ : (ref = couponRef uid fresh.toKey ∧ _) ∧ a = write := by simpa using hmade
      exact ⟨upload, fetch, url, h, hurl, object, fresh, coupon, data, uid, rfl, huid, rfl⟩
  · rw [made_of_refused hrefused] at hmade
    cases hmade

/-- Only the last operation can have written. -/
theorem OneAddition.last_of_written {userUid : Option Key}
    {pool : Pool Backend Call Answer Bool ApiError (ℕ × Operation)} (hs : OneAddition userUid pool)
    (hvalid : ∀ entry ∈ pool.requests, entry.2.Valid timeoutError) {i : ℕ}
    {entry : (ℕ × Operation) × ApiRequest} (hget : pool.requests[i]? = some entry) {ref : Path}
    {values : List (Key × Node)} {a : Answer} (hmade : (.updateChildValues ref values, a) ∈ entry.2.made)
    (herror : a.error = none) : i + 1 = pool.requests.length := by
  have hi : i < pool.requests.length := (List.getElem?_eq_some_iff.mp hget).1
  have hmem := List.mem_of_getElem? hget
  obtain ⟨upload, fetch, url, hanswers, hurl, -⟩ :=
    written_of_addition (hvalid _ hmem) (hs.additions _ hmem) hmade
  by_contra hne
  have hfailed := hs.failed i entry hget (by omega)
  rw [not_failed_of_written (hvalid _ hmem) (hs.additions _ hmem) hanswers hurl herror] at hfailed
  cases hfailed

/-- The record of a press that reported success is there. -/
theorem AddScreen.Kept.holdsPress {userUid : Option Key} {s : AddScreen} (hs : s.Kept userUid) {press : ℕ}
    (h : (press, .navigateBack) ∈ s.screen.outcomes) : HoldsPress s press := by
  rcases hs.traced.earned _ h with ⟨error, herror⟩ | ⟨stage, ⟨start, hstart, hfollows⟩, hend, hvalue⟩
  · cases herror
  · obtain ⟨r, hmem, -, success, hrest⟩ := hend
    have hadd : IsAddition userUid stage r.origin := hs.additions.additions _ hmem
    have hkept : AdditionKept userUid s.screen.pool.backend stage r.answers := hs.additions.kept _ hmem
    obtain ⟨object, fresh, coupon, data, rfl, hkey, ⟨uid, bytes, huid, rfl, hchain⟩ | ⟨error, hrefused⟩⟩ := hadd
    · have hpress : s.screen.presses[press]? = some (.updateCoupon object fresh coupon (some bytes)) := by
        cases hfollows with
        | start => exact hstart
        | @next before _ _ _ hnext => cases before <;> cases hnext
      have hown : Operation.IsChain userUid (.updateCoupon object fresh coupon (some bytes)) r.origin := by
        refine ⟨uid, bytes, huid, rfl, ?_⟩
        rw [hkey]
        exact hchain
      obtain ⟨upload, fetch, write, url, hanswers, hurl, herror⟩ := Operation.confirms_of_success hown hrest
      have himage := hkept.image object fresh coupon bytes uid rfl huid
      obtain ⟨stored, hstored, rfl⟩ := himage.fetched upload fetch [write] url hanswers hurl
      exact ⟨uid, object, fresh, coupon, bytes, stored, hpress, hs.additions.user.trans huid, hstored,
        himage.uploaded stored hstored,
        hkept.record object fresh coupon bytes uid rfl huid upload fetch write _ hanswers hurl herror⟩
    · cases rest_of_refused hrefused hrest

/-- A new add screen keeps its additions. -/
theorem AddScreen.kept_opened (b : Backend) : (AddScreen.opened b).Kept b.currentUser := by
  refine ⟨rfl, Screen.balanced_opened b, Screen.traced_opened b, rfl, ?_, ?_, ?_, ?_⟩
  · simp [AddScreen.opened, Screen.opened, Pool.empty]
  · simp [AddScreen.opened, Screen.opened, Pool.empty]
  · simp [AddScreen.opened, Screen.opened, Pool.empty, Pool.tagAt]
  · simp [AddScreen.opened, Screen.opened, Pool.empty]

/-- In every run of the add screen in which a press is made only after all earlier operations failed for
good, at most one place is written, and every press that reported success finds its text and its image
in the record. -/
theorem add_screen_writes_one_coupon {b : Backend} {steps : List AddStep} {s : AddScreen}
    (hrun : run AddScreen.step (AddScreen.opened b) steps = some s)
    (hcond : Along AddScreen.step (fun s a => retriesAfterFailure s a = true) (AddScreen.opened b) steps) :
    (∀ ref ref', Wrote s ref → Wrote s ref' → ref = ref') ∧
      ∀ press, (press, .navigateBack) ∈ s.screen.outcomes → HoldsPress s press := by
  have hs : s.Kept b.currentUser :=
    run_invariant_along (fun s : AddScreen => s.Kept b.currentUser) (fun _ _ _ hs hretry hstep => hs.step hretry hstep)
      (AddScreen.kept_opened b) hcond hrun
  have hvalid := hs.balanced.valid
  refine ⟨fun ref ref' hwrote hwrote' => ?_, fun press h => hs.holdsPress h⟩
  obtain ⟨entry, hmem, values, a, hmade, herror⟩ := hwrote
  obtain ⟨entry', hmem', values', a', hmade', herror'⟩ := hwrote'
  obtain ⟨i, hget⟩ := List.mem_iff_getElem?.mp hmem
  obtain ⟨j, hget'⟩ := List.mem_iff_getElem?.mp hmem'
  have hi := hs.additions.last_of_written hvalid hget hmade herror
  have hj := hs.additions.last_of_written hvalid hget' hmade' herror'
  obtain rfl : i = j := by omega
  obtain rfl : entry = entry' := Option.some.inj (hget.symm.trans hget')
  obtain ⟨-, -, -, -, -, object, fresh, coupon, data, uid, hop, huid, rfl⟩ :=
    written_of_addition (hvalid _ hmem) (hs.additions.additions _ hmem) hmade
  obtain ⟨-, -, -, -, -, object', fresh', coupon', data', uid', hop', huid', rfl⟩ :=
    written_of_addition (hvalid _ hmem) (hs.additions.additions _ hmem) hmade'
  cases hop.symm.trans hop'
  cases huid.symm.trans huid'
  rfl

/-- A user is signed in. -/
def ownerSignedIn : Backend := { currentUser := some ⟨"adder", by decide⟩ }

/-- A picture that the user picked. -/
def picture : UIImage := ⟨false, some [1]⟩

/-- The first identifier drawn. -/
def firstUuid : UUID := ⟨"00000000-0000-0000-0000-0000000000C1", by decide⟩

/-- The second identifier drawn. -/
def secondUuid : UUID := ⟨"00000000-0000-0000-0000-0000000000C2", by decide⟩

/-- The first press fails because its upload does, and the second one goes through. -/
def retryAfterFailure : List AddStep :=
  [.write "Flowers", .press (some picture) firstUuid firstUuid {},
    .progress 0 (.answer { error := some "quota" }), .progress 0 (.callback {}),
    .progress 0 (.answer { error := some "no object" }), .progress 0 (.callback {}), .deliver 0 {},
    .press (some picture) secondUuid secondUuid {},
    .progress 1 (.answer { url := some "url" }), .progress 1 (.callback {}),
    .progress 1 (.answer { url := some "url" }), .progress 1 (.callback {}), .progress 1 (.callback {}),
    .deliver 1 {}, .deliver 1 {}]

/-- The second press finds its record. -/
theorem retryAfterFailure_holds_press : ∃ s,
    run AddScreen.step (AddScreen.opened ownerSignedIn) retryAfterFailure = some s ∧ HoldsPress s 1 :=
  ⟨_, rfl, (@add_screen_writes_one_coupon ownerSignedIn retryAfterFailure _ rfl (by decide)).2 1 (by decide)⟩

/-- The first press times out, the second one goes through, and then the first one writes its record. -/
def lateAddition : List AddStep :=
  [.write "Flowers", .press (some picture) firstUuid firstUuid {}, .progress 0 .timeout, .deliver 0 {},
    .press (some picture) secondUuid secondUuid {},
    .progress 1 (.answer { url := some "url" }), .progress 1 (.callback {}),
    .progress 1 (.answer { url := some "url" }), .progress 1 (.callback {}), .progress 1 (.callback {}),
    .deliver 1 {}, .deliver 1 {},
    .progress 0 (.answer { url := some "late" }), .progress 0 (.callback {}),
    .progress 0 (.answer { url := some "late" }), .progress 0 (.callback {})]

/-- The screen writes two coupons. -/
theorem add_screen_writes_two_coupons : ¬ ∀ (b : Backend) (steps : List AddStep) (s : AddScreen),
    run AddScreen.step (AddScreen.opened b) steps = some s →
      (∀ ref ref', Wrote s ref → Wrote s ref' → ref = ref') ∧
        ∀ press, (press, .navigateBack) ∈ s.screen.outcomes → HoldsPress s press := by
  intro h
  have hsame := (h ownerSignedIn lateAddition _ rfl).1
    (couponRef ⟨"adder", by decide⟩ firstUuid.toKey) (couponRef ⟨"adder", by decide⟩ secondUuid.toKey)
    ⟨_, List.mem_of_getElem? (i := 0) rfl, _, {}, List.mem_of_getElem? (i := 2) rfl, rfl⟩
    ⟨_, List.mem_of_getElem? (i := 1) rfl, _, {}, List.mem_of_getElem? (i := 2) rfl, rfl⟩
  revert hsame
  decide

end LoveCoupons
