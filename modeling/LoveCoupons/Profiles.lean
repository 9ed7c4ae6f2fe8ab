import LoveCoupons.Lib.Journal
import LoveCoupons.SessionTask

/-!
# The profile of a signed-in user

Creating an account and writing its profile are two calls, and nothing undoes the first one
when the second one does not happen. The tab bar is reached at the end of a sign-up, after a
login and at a launch, and only the first of these goes through the write of the profile. A
late sign-in can also change the user under a tab bar that is already shown.

A profile that the database accepted stays complete: only complete ones are ever written. So
the tab bar is shown to users with a complete profile only, as long as the app is relaunched
and logged into only with accounts whose profile was accepted, and no account is created while
the tab bar is shown or a value that will open it is arriving.
-/

namespace LoveCoupons

open KeyedTree Reactive StepSystem

/-- The call writes the profile of this user. -/
def Call.writesProfile (uid : Key) : Call → Bool
  | .setValue path _ => path = userInfoRef uid
  | _ => false

/-- The database has accepted a profile of this user. -/
def accepted (journal : List (ℕ × Call × Answer)) (uid : Key) : Bool :=
  journal.any fun entry => entry.2.1.writesProfile uid && entry.2.2.error.isNone

/-- The task opens the root screen with its value. -/
def Task.opensRoot (task : Task) : Bool := task.reaction matches .start

/-- A relaunch and a login find an account whose profile was accepted; an account is created while the tab
bar is not shown and no value that will open it is arriving. -/
def profileFirst (s : Session) : SessionStep → Bool
  | .relaunch _ => s.pool.backend.currentUser.all fun uid => accepted s.pool.journal uid
  | .progress i (.answer a) => a.error.isSome || s.pool.requests[i]?.all fun entry =>
      match entry.1.2 with
      | .send (.login email password) => s.pool.backend.accounts.all fun account =>
          !(account.email = email && account.password = password) || accepted s.pool.journal account.uid
      | .send (.createUser _ _ _) => !s.showsTabs &&
          s.pool.requests.all fun entry => !(entry.1.2.opensRoot && arriving entry.2)
      | _ => true
  | _ => true

/-- The database holds a record of this user with a nonempty name and a nonempty pair identifier. -/
def HasProfile (database : Node) (uid : Key) : Prop :=
  ∃ userInfo, userInfoOfSnapshot (getChild database (userInfoRef uid)) = .ok userInfo ∧
    userInfo.hasRequiredFields = true

/-- The signed-in user, if any, has had a profile accepted. -/
def SessionPool.Ready (pool : SessionPool) : Prop :=
  ∀ uid, pool.backend.currentUser = some uid → accepted pool.journal uid = true

/-- Accepted profiles are there, and the tab bar is shown or about to be opened only to a user who has
had one accepted. -/
structure Session.Completed (s : Session) : Prop where
  sound : s.pool.Sound
  profiles : ∀ uid, accepted s.pool.journal uid = true → HasProfile s.pool.backend.database uid
  shown : s.showsTabs = true → s.pool.Ready
  opening : ∀ entry ∈ s.pool.requests, entry.1.2.opensRoot = true → arriving entry.2 = true → s.pool.Ready

/-- One more answered call. -/
theorem accepted_concat (journal : List (ℕ × Call × Answer)) (i : ℕ) (call : Call) (a : Answer) (uid : Key) :
    accepted (journal ++ [(i, call, a)]) uid =
      (accepted journal uid || (call.writesProfile uid && a.error.isNone)) := by
  simp [accepted]

/-- A complete record that was written is a profile. -/
theorem hasProfile_updateChild (database : Node) (uid : Key) {userInfo : UserInfo}
    (hfields : userInfo.hasRequiredFields = true) :
    HasProfile (updateChild database (userInfoRef uid) userInfo.toAnyObject) uid := by
  refine ⟨userInfo.filled, ?_, ?_⟩
  · rw [getChild_updateChild_self, userInfoOfSnapshot_toAnyObject]
  · obtain ⟨⟨name, hname, hne⟩, pairUniqId, hpair, hne'⟩ := userInfo.hasRequiredFields_iff.mp hfields
    rw [UserInfo.hasRequiredFields_iff]
    exact ⟨⟨name, by simp [UserInfo.filled, hname], hne⟩, pairUniqId, by simp [UserInfo.filled, hpair], hne'⟩

/-- The record of another user is left alone. -/
theorem HasProfile.updateChild_of_ne {database : Node} {uid uid' : Key} (h : HasProfile database uid)
    (hne : uid ≠ uid') (value : Node) : HasProfile (updateChild database (userInfoRef uid') value) uid := by
  have hframe : getChild (updateChild database (userInfoRef uid') value) (userInfoRef uid) =
      getChild database (userInfoRef uid) :=
    getChild_updateChild_directory database (by simp [hne]) [] value
  rw [HasProfile, hframe]
  exact h

/-- The calls of the tasks keep the accepted profiles: only complete ones are written. -/
theorem profiles_respond {journal : List (ℕ × Call × Answer)} {b b' : Backend} {task : Task} {call : Call}
    {a : Answer} (hprofiles : ∀ uid, accepted journal uid = true → HasProfile b.database uid)
    (hmakes : task.Makes call) (hrespond : b.respond call a = some b') (i : ℕ) (uid : Key)
    (h : accepted (journal ++ [(i, call, a)]) uid = true) : HasProfile b'.database uid := by
  rw [accepted_concat, Bool.or_eq_true] at h
  have hwrite : ∀ userInfo : UserInfo, userInfo.hasRequiredFields = true →
      (∃ uid, call = .setValue (userInfoRef uid) userInfo.toAnyObject) → HasProfile b'.database uid := by
    rintro userInfo hfields ⟨uid', rfl⟩
    rcases Backend.respond_setValue hrespond with ⟨hfailed, rfl⟩ | ⟨-, rfl⟩
    · rcases h with hold | hnew
      · exact hprofiles uid hold
      · rw [Bool.and_eq_true, Option.isNone_iff_eq_none] at hnew
        simp [hnew.2] at hfailed
    · by_cases huid : uid = uid'
      · rw [huid]
        exact hasProfile_updateChild _ _ hfields
      · rcases h with hold | hnew
        · exact (hprofiles uid hold).updateChild_of_ne huid userInfo.toAnyObject
        · simp [Call.writesProfile, userInfoRef] at hnew
          exact absurd hnew.1.symm huid
  have hother : call.isWrite = false → HasProfile b'.database uid := by
    intro hread
    rw [Backend.database_of_respond hrespond hread]
    rcases h with hold | hnew
    · exact hprofiles uid hold
    · cases call <;> simp [Call.writesProfile] at hnew
      cases hread
  cases task with
  | send op =>
    cases op with
    | login email password => exact hother (by rw [show call = _ from hmakes]; rfl)
    | createUser userInfo email password => exact hother (by rw [hmakes.2]; rfl)
    | setUserInfo userInfo => exact hwrite userInfo hmakes.1 hmakes.2
    | resetPassword email => exact hother (by rw [show call = _ from hmakes]; rfl)
    | updateCoupon object fresh coupon data => cases hmakes
  | submit userInfo => exact hwrite userInfo hmakes.1 hmakes.2
  | logout => cases hmakes

/-- An accepted profile stays accepted. -/
theorem accepted_append {journal : List (ℕ × Call × Answer)} {uid : Key} (h : accepted journal uid = true)
    (more : List (ℕ × Call × Answer)) : accepted (journal ++ more) uid = true := by
  unfold accepted at h ⊢
  rw [List.any_append, h, Bool.true_or]

/-- Nothing is arriving at a request without an answer, unless it signed out at once. -/
theorem IsTask.not_arriving_of_nil {task : Task} {r : ApiRequest} (hr : IsTask task r)
    (hvalid : r.Valid timeoutError) (htask : task ≠ .logout) (hnil : r.answers = []) : arriving r = false := by
  apply not_arriving
  · rw [hnil]
    rfl
  · intro v hvalue
    obtain ⟨-, hrest⟩ := hvalid.value_promised v hvalue
    rcases hr with ⟨result, hdone, -, hlogout | ⟨error, rfl⟩⟩ | ⟨call, -, hcall, -⟩
    · exact absurd hlogout htask
    · cases rest_of_refused hdone hrest
    · rw [Request.rest, hcall, hnil] at hrest
      cases hrest

section Steps

variable {s : Session}

/-- A step of a request without an answer keeps the profiles. -/
theorem Session.Completed.idle (hs : s.Completed) {i : ℕ} {p : Progress Answer} {tag : ℕ × Task}
    {r r' : ApiRequest} (hget : s.pool.requests[i]? = some (tag, r))
    (hadvance : r.advance Backend.service timeoutError s.pool.backend p = some (s.pool.backend, r'))
    (horigin : r'.origin = r.origin) (hanswers : r'.answers = r.answers) :
    Session.Completed { s with pool := s.pool.update i tag s.pool.backend r r' } := by
  have hmem := List.mem_of_getElem? hget
  have hjournal := s.pool.journal_update_idle i tag s.pool.backend horigin hanswers
  have hready : s.pool.Ready → SessionPool.Ready (s.pool.update i tag s.pool.backend r r') := by
    intro h uid huid
    rw [hjournal]
    exact h uid huid
  refine ⟨hs.sound.update hget hadvance, fun uid huid => hs.profiles uid (hjournal ▸ huid),
    fun h => hready (hs.shown h), fun entry hentry hopens harriving => ?_⟩
  rcases List.mem_or_eq_of_mem_set hentry with hold | rfl
  · exact hready (hs.opening entry hold hopens harriving)
  · have htask : IsTask tag.2 r := hs.sound.isTask _ hmem
    have hbefore : arriving r = true := by
      refine arriving_of_advances (Request.advance_cases hadvance) hanswers (fun v hphase hrest => ?_) harriving
      obtain ⟨a, hanswer, hend⟩ := htask.ends hphase hrest
      simp [hanswer, (error_of_promiseUnlessError hend).1]
    exact hready (hs.opening _ hmem hopens hbefore)

/-- The tab bar is shown, or the value that opens it is arriving. -/
def Session.OpensTabs (s : Session) : Prop :=
  s.showsTabs = true ∨ ∃ entry ∈ s.pool.requests, entry.1.2.opensRoot = true ∧ arriving entry.2 = true

/-- The tab bar is opened only to a user who is ready. -/
theorem Session.Completed.ready (hs : s.Completed) (h : s.OpensTabs) : s.pool.Ready := by
  rcases h with hshown | ⟨entry, hmem, hopens, harriving⟩
  · exact hs.shown hshown
  · exact hs.opening entry hmem hopens harriving

section Reply

variable {i : ℕ} {tag : ℕ × Task} {r : ApiRequest} {b : Backend} {a : Answer} {call : Call}
  {next : Answer → ApiChain}

/-- An answer keeps the profiles when it leaves the signed-in user ready wherever the tab bar is opened. -/
theorem Session.Completed.answered (hs : s.Completed) (hget : s.pool.requests[i]? = some (tag, r))
    (hadvance : r.advance Backend.service timeoutError s.pool.backend (.answer a) = some (b, r.answered a))
    (hrest : r.rest = some (.call call next)) (hmakes : tag.2.Makes call)
    (hrespond : s.pool.backend.respond call a = some b)
    (hopens : s.OpensTabs → SessionPool.Ready (s.pool.update i tag b r (r.answered a)))
    (hself : tag.2.opensRoot = true → arriving (r.answered a) = true →
      SessionPool.Ready (s.pool.update i tag b r (r.answered a))) :
    Session.Completed { s with pool := s.pool.update i tag b r (r.answered a) } := by
  have hjournal := s.pool.journal_update_answered i tag b hrest a
  refine ⟨hs.sound.update hget hadvance, fun uid huid => ?_, fun hshown => hopens (.inl hshown),
    fun entry hentry hroot harriving => ?_⟩
  · rw [hjournal] at huid
    exact profiles_respond hs.profiles hmakes hrespond i uid huid
  · rcases List.mem_or_eq_of_mem_set hentry with hold | rfl
    · exact hopens (.inr ⟨entry, hold, hroot, harriving⟩)
    · exact hself hroot harriving

/-- An answer that leaves the signed-in user alone keeps that user ready. -/
theorem SessionPool.Ready.update {pool : SessionPool} (h : pool.Ready)
    (huser : b.currentUser = pool.backend.currentUser) (r' : ApiRequest) :
    SessionPool.Ready (pool.update i tag b r r') := by
  intro uid huid
  exact accepted_append (h uid (huser ▸ huid)) _

/-- A sign-in that meets the condition leaves its user ready. -/
theorem ready_of_signIn {email password : String} (hget : s.pool.requests[i]? = some (tag, r))
    (htask : tag.2 = .send (.login email password)) (hcond : profileFirst s (.progress i (.answer a)) = true)
    (herror : a.error = none) (hrespond : s.pool.backend.respond (.signIn email password) a = some b)
    (r' : ApiRequest) : SessionPool.Ready (s.pool.update i tag b r r') := by
  rcases Backend.respond_signIn hrespond with ⟨hfailed, -⟩ | ⟨-, account, hmem, hemail, hpassword, rfl⟩
  · simp [herror] at hfailed
  · have haccepted : accepted s.pool.journal account.uid = true := by
      simp only [profileFirst, herror, hget, Option.isSome_none, Bool.false_or, Option.all_some, htask,
        List.all_eq_true] at hcond
      simpa [hemail, hpassword] using hcond account hmem
    intro uid huid
    rw [← Option.some.inj huid]
    exact accepted_append haccepted _

/-- An account creation that meets the condition succeeds only while nothing opens the tab bar. -/
theorem not_opensTabs_of_createUser {userInfo : UserInfo} {email password : String}
    (hget : s.pool.requests[i]? = some (tag, r)) (htask : tag.2 = .send (.createUser userInfo email password))
    (hcond : profileFirst s (.progress i (.answer a)) = true) (herror : a.error = none) : ¬ s.OpensTabs := by
  simp only [profileFirst, herror, hget, Option.isSome_none, Bool.false_or, Option.all_some, htask,
    Bool.and_eq_true, Bool.not_eq_true', List.all_eq_true] at hcond
  rintro (hshown | ⟨entry, hmem, hopens, harriving⟩)
  · rw [hcond.1] at hshown
    cases hshown
  · have hnot := hcond.2 entry hmem
    simp [hopens, harriving] at hnot

/-- An answer keeps the profiles when it signs in an account with an accepted profile, or creates one while
nothing shows or opens the tab bar. -/
theorem Session.Completed.reply (hs : s.Completed) (hget : s.pool.requests[i]? = some (tag, r))
    (hadvance : r.advance Backend.service timeoutError s.pool.backend (.answer a) = some (b, r.answered a))
    (hcond : profileFirst s (.progress i (.answer a)) = true) (hphase : r.phase = .outstanding)
    (hrest : r.rest = some (.call call next)) (hnone : r.answers = []) (hmakes : tag.2.Makes call)
    (himm : Backend.service.immediate call = false) (hrespond : s.pool.backend.respond call a = some b) :
    Session.Completed { s with pool := s.pool.update i tag b r (r.answered a) } := by
  have hanswered := hs.answered hget hadvance hrest hmakes hrespond
  cases herror : a.error with
  | some error =>
    have huser := Backend.currentUser_of_error hrespond (by simp [herror])
    refine hanswered (fun hopens => (hs.ready hopens).update huser _) fun _ harriving => ?_
    rw [arriving_answered_of_error (hs.sound.valid _ (List.mem_of_getElem? hget)) (by simp [hphase]) hnone
      (by simp [herror])] at harriving
    cases harriving
  | none =>
    rcases hmakes.cases_of_read himm with ⟨email, password, htask, rfl⟩ |
      ⟨userInfo, email, password, htask, rfl⟩ | ⟨email, htask, rfl⟩
    · have hready := ready_of_signIn hget htask hcond herror hrespond (r.answered a)
      exact hanswered (fun _ => hready) fun _ _ => hready
    · refine hanswered (fun hopens => ?_) fun hopens => ?_
      · exact absurd hopens (not_opensTabs_of_createUser hget htask hcond herror)
      · rw [htask] at hopens
        cases hopens
    · have huser := Backend.currentUser_of_respond hrespond (by simp) (by simp)
      refine hanswered (fun hopens => (hs.ready hopens).update huser _) fun hopens => ?_
      rw [htask] at hopens
      cases hopens

end Reply

/-- A step of a request keeps the profiles. -/
theorem Session.Completed.update (hs : s.Completed) {i : ℕ} {p : Progress Answer} {tag : ℕ × Task}
    {r r' : ApiRequest} {b : Backend} (hget : s.pool.requests[i]? = some (tag, r))
    (hadvance : r.advance Backend.service timeoutError s.pool.backend p = some (b, r'))
    (hcond : ∀ a, p = .answer a → profileFirst s (.progress i (.answer a)) = true) :
    Session.Completed { s with pool := s.pool.update i tag b r r' } := by
  have htask : IsTask tag.2 r := hs.sound.isTask _ (List.mem_of_getElem? hget)
  rcases htask.advances_cases (Request.advance_cases hadvance) with ⟨rfl, horigin, hanswers⟩ |
    ⟨a, call, next, rfl, hphase, hrest, hnone, hmakes, himm, hrespond, rfl⟩
  · exact hs.idle hget hadvance horigin hanswers
  · exact hs.reply hget hadvance (hcond a rfl) hphase hrest hnone hmakes himm hrespond

/-- A new request keeps the profiles when it leaves the signed-in user ready, and opens the tab bar for
such a user only. -/
theorem Session.Completed.add (hs : s.Completed) {depth : ℕ} {task : Task} {b : Backend} {r : ApiRequest}
    (hsound : SessionPool.Sound (s.pool.add (depth, task) b r))
    (hprofiles : ∀ uid, accepted (s.pool.add (depth, task) b r).journal uid = true → HasProfile b.database uid)
    (huser : ∀ uid, b.currentUser = some uid → s.pool.backend.currentUser = some uid)
    (hopens : task.opensRoot = true → arriving r = true →
      SessionPool.Ready (s.pool.add (depth, task) b r)) :
    Session.Completed { s with pool := s.pool.add (depth, task) b r } := by
  have hready : s.pool.Ready → SessionPool.Ready (s.pool.add (depth, task) b r) := by
    intro h uid huid
    exact accepted_append (h uid (huser uid huid)) _
  refine ⟨hsound, hprofiles, fun h => hready (hs.shown h), fun entry hentry hroot harriving => ?_⟩
  rcases List.mem_append.mp hentry with hold | hnew
  · exact hready (hs.opening entry hold hroot harriving)
  · rw [List.mem_singleton.mp hnew] at hroot harriving
    exact hopens hroot harriving

/-- The profiles after a start: only complete ones are written. -/
theorem Session.Completed.profiles_add (hs : s.Completed) {depth : ℕ} {task : Task}
    (htask : task.isStarted = true) {b b' : Backend} (hdatabase : b.database = s.pool.backend.database)
    {userUid : Option Key} {a : Answer} {r : ApiRequest}
    (hstart : Request.subscribe Backend.service b (task.publisher userUid a) a = some (b', r)) (uid : Key)
    (h : accepted (s.pool.add (depth, task) b' r).journal uid = true) : HasProfile b'.database uid := by
  rcases Pool.journal_add_cases hstart with ⟨rfl, -, hjournal⟩ |
    ⟨call, next, hfuture, -, hrespond, -, hjournal⟩
  · rw [hjournal] at h
    exact hdatabase ▸ hs.profiles uid h
  · rw [hjournal] at h
    rcases task.publisher_cases htask userUid a with ⟨error, hfail⟩ | ⟨-, result, hdone⟩ | ⟨call', hmakes, hcall⟩
    · cases hfail.symm.trans hfuture
    · cases hdone.symm.trans hfuture
    · cases hcall.symm.trans hfuture
      exact profiles_respond (hdatabase ▸ hs.profiles) hmakes hrespond _ uid h

/-- A press keeps the profiles. -/
theorem Session.Completed.press (hs : s.Completed) {task : Task} {a : Answer} {page : Page} {b : Backend}
    {r : ApiRequest} (hpage : task.page = some page)
    (hstart : Request.subscribe Backend.service (task.begin s.pool.backend a)
      (task.publisher (task.begin s.pool.backend a).currentUser a) a = some (b, r)) :
    Session.Completed { s with pool := s.pool.add (s.stack.length - 1, task) b r } := by
  have htask := task.isStarted_of_page hpage
  obtain ⟨hdatabase, hsigned⟩ := task.begin_keeps s.pool.backend a
  have huser := currentUser_of_subscribe hstart
  refine hs.add (hs.sound.add _ htask hstart) (hs.profiles_add htask hdatabase hstart)
    (fun uid huid => hsigned uid (huser ▸ huid)) ?_
  intro hopens harriving uid huid
  cases task with
  | send op =>
    cases op with
    | login email password =>
      have hlogin : Request.subscribe Backend.service s.pool.backend
          (Operation.publisher s.pool.backend.currentUser (.login email password)) a = some (b, r) := hstart
      rw [(arriving_subscribe_operation (by simp) hlogin).2] at harriving
      cases harriving
    | setUserInfo userInfo => cases hpage
    | _ => cases hopens
  | submit userInfo => cases hopens
  | logout =>
    cases herror : a.error with
    | none =>
      have hnone : b.currentUser = none := by
        rw [huser]
        simp [Task.begin, Backend.signOut, herror]
      cases hnone.symm.trans huid
    | some error =>
      have hnot : arriving r = false := by
        refine (arriving_subscribe hstart (fun call next hfuture => ?_) fun v hfuture => ?_).2
        · cases hfuture
        · simp [Task.publisher, logout, herror] at hfuture
      rw [hnot] at harriving
      cases harriving

/-- The second stage of a sign-up keeps the profiles: its value is arriving only after the profile of the
signed-in user was accepted. -/
theorem Session.Completed.next (hs : s.Completed) {depth : ℕ} {a : Answer} {r : ApiRequest} {b : Backend}
    {userInfo : UserInfo} (hstart : Request.subscribe Backend.service s.pool.backend
      (Operation.publisher s.pool.backend.currentUser (.setUserInfo userInfo)) a = some (b, r)) :
    Session.Completed { s with pool := s.pool.add (depth, .send (.setUserInfo userInfo)) b r } := by
  have hsound : SessionPool.Sound (s.pool.add (depth, .send (.setUserInfo userInfo)) b r) :=
    hs.sound.add depth rfl hstart
  have huser := currentUser_of_subscribe hstart
  refine hs.add hsound (hs.profiles_add rfl rfl hstart) (fun uid huid => huser ▸ huid) ?_
  intro _ harriving uid huid
  have hmem := s.pool.mem_add_self (depth, .send (.setUserInfo userInfo)) b r
  rcases Pool.journal_add_cases hstart with ⟨-, hnil, -⟩ | ⟨call, next, hfuture, -, -, rfl, hjournal⟩
  · rw [IsTask.not_arriving_of_nil (hsound.isTask _ hmem) (hsound.valid _ hmem) (by simp) hnil] at harriving
    cases harriving
  · rw [hjournal, accepted_concat, Bool.or_eq_true]
    obtain ⟨-, uid', huid', hchain⟩ := Operation.isChain_of_future hfuture
    cases hchain
    obtain rfl : uid' = uid := Option.some.inj (huid'.symm.trans (huser ▸ huid))
    have herror : a.error = none := by
      simpa [arriving, Request.answered, Request.unstarted, Subscription.fresh] using harriving
    simp [Call.writesProfile, herror]

/-- Starting the root keeps the profiles when the signed-in user is ready. -/
theorem Session.Completed.start (hs : s.Completed) (hready : s.pool.Ready) (window : Bool) :
    (s.start window).Completed := by
  cases window with
  | false => exact hs
  | true =>
    refine ⟨hs.sound.cancelWhere fun _ => true, hs.profiles, fun _ => hready, fun _ _ _ _ => hready⟩

/-- What the service does for a process that is gone leaves the session and the database alone. -/
theorem Session.createLost_keeps (s : Session) {created : List (ℕ × Key)} {b : Backend}
    (h : run s.createLost s.pool.backend created = some b) :
    b.currentUser = s.pool.backend.currentUser ∧ b.database = s.pool.backend.database := by
  refine run_invariant (fun b => b.currentUser = s.pool.backend.currentUser ∧
    b.database = s.pool.backend.database) (fun b lost b' hb hstep => ?_) ⟨rfl, rfl⟩ h
  unfold Session.createLost at hstep
  split at hstep
  · split at hstep
    · obtain ⟨b₁, hrespond, rfl⟩ := Option.map_eq_some_iff.mp hstep
      exact ⟨hb.1, (Backend.database_of_respond hrespond rfl).trans hb.2⟩
    · contradiction
  · contradiction

/-- Every step that meets the condition keeps the profiles. -/
theorem Session.Completed.step {s' : Session} {a : SessionStep} (hs : s.Completed)
    (hcond : profileFirst s a = true) (h : s.step a = some s') : s'.Completed := by
  cases Session.step_cases h with
  | @relaunch created b hrun =>
    obtain ⟨huser, hdatabase⟩ := s.createLost_keeps hrun
    have hready : SessionPool.Ready ⟨b, [], s.pool.journal⟩ := by
      intro uid huid
      rw [show b.currentUser = some uid from huid] at huser
      simpa [profileFirst, ← huser] using hcond
    have hbefore : Session.Completed ⟨⟨b, [], s.pool.journal⟩, []⟩ :=
      ⟨⟨by simp, by simp⟩, fun uid huid => hdatabase ▸ hs.profiles uid huid, fun _ => hready, by simp⟩
    exact hbefore.start hready true
  | press hpage _ hstart => exact hs.press hpage hstart
  | @push page htop hpage =>
    exact ⟨hs.sound, hs.profiles, fun h => hs.shown (s.showsTabs_push page htop ▸ h), hs.opening⟩
  | pop hlength =>
    refine ⟨hs.sound.cancelWhere fun tag => s.stack.length - 1 ≤ tag.1, hs.profiles,
      fun h => hs.shown (s.showsTabs_pop hlength _ ▸ h), fun entry hentry hopens harriving => ?_⟩
    rcases Pool.mem_cancelWhere hentry with ⟨hold, -⟩ | ⟨r, -, hcancelled⟩
    · exact hs.opening entry hold hopens harriving
    · rw [hcancelled] at harriving
      simp [arriving, Subscription.cancelled] at harriving
  | work _ hget hadvance => exact hs.update hget hadvance fun a hp => hp ▸ hcond
  | quiet hget hadvance _ _ => exact hs.update hget hadvance fun a hp => by cases hp
  | @opens i window a tag r r' b v hget hadvance hevent hreaction =>
    have hupdate := hs.update hget hadvance fun a hp => by cases hp
    have hopens : tag.2.opensRoot = true := by rw [Task.opensRoot, hreaction]
    have hready := hs.opening _ (List.mem_of_getElem? hget) hopens (arriving_of_value (List.mem_of_mem_head? hevent))
    refine hupdate.start (fun uid huid => accepted_append (hready uid ?_) _) window
    cases Request.advance_cases hadvance
    exact huid
  | @next i depth window a task r r' r'' b b' v op hget hadvance hevent hreaction hstart =>
    have hupdate := hs.update hget hadvance fun a hp => by cases hp
    obtain ⟨userInfo, -, -, -, rfl⟩ := task.of_reaction_next hreaction
    exact hupdate.next hstart

end Steps

/-- In every run from an empty backend whose steps meet the condition, the tab bar is shown only to a user
whose record in the database has a nonempty name and a nonempty pair identifier. -/
theorem tabs_imply_profile {steps : List SessionStep} {s : Session}
    (hrun : run Session.step (Session.launched {}) steps = some s)
    (hcond : Along Session.step (fun s a => profileFirst s a = true) (Session.launched {}) steps)
    (hshown : s.showsTabs = true) {uid : Key} (huid : s.pool.backend.currentUser = some uid) :
    HasProfile s.pool.backend.database uid := by
  have hempty : Session.Completed ⟨.empty {}, []⟩ :=
    ⟨⟨by simp [Pool.empty], by simp [Pool.empty]⟩, by simp [Pool.empty, accepted], by simp [Session.showsTabs],
      by simp [Pool.empty]⟩
  have hs : s.Completed :=
    run_invariant_along Session.Completed (fun _ _ _ hs hfirst hstep => hs.step hfirst hstep)
      (hempty.start (fun uid huid => by cases huid) true) hcond hrun
  exact hs.profiles uid (hs.shown hshown uid huid)

/-- The app is relaunched after a sign-up that went through. -/
def signUpThenRelaunch : List SessionStep :=
  [.push .signUp, .press (.send (createUserButtonPressed "Ann" "ann@mail" "bob" "secret")) {},
    .progress 0 (.answer { uid := some ⟨"p", by decide⟩ }), .progress 0 (.callback {}), .deliver 0 true {},
    .progress 1 (.callback {}), .deliver 1 true {}, .relaunch []]

/-- After a sign-up that went through, a relaunch shows the tab bar to a user with a profile. -/
theorem signUpThenRelaunch_has_profile : ∃ s, run Session.step (Session.launched {}) signUpThenRelaunch = some s ∧
    s.showsTabs = true ∧ HasProfile s.pool.backend.database ⟨"p", by decide⟩ :=
  ⟨_, rfl, by decide, @tabs_imply_profile signUpThenRelaunch _ rfl (by decide) (by decide) _ rfl⟩

/-- The app is relaunched after an account was created and before its profile is written. -/
def createdThenRelaunch : List SessionStep :=
  [.push .signUp, .press (.send (createUserButtonPressed "Ann" "ann@mail" "bob" "secret")) {},
    .progress 0 (.answer { uid := some ⟨"p", by decide⟩ }), .relaunch []]

/-- The tab bar is shown to a user without a profile. -/
theorem tabs_shown_without_profile : ¬ ∀ (steps : List SessionStep) (s : Session) (uid : Key),
    run Session.step (Session.launched {}) steps = some s → s.showsTabs = true →
      s.pool.backend.currentUser = some uid → HasProfile s.pool.backend.database uid := by
  intro h
  obtain ⟨userInfo, hsnapshot, -⟩ := h createdThenRelaunch _ ⟨"p", by decide⟩ rfl (by decide) rfl
  cases hsnapshot

end LoveCoupons
