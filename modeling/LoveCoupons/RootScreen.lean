import LoveCoupons.SessionTask

/-!
# The root screen and the signed-in user

The session changes when the service answers; the root screen changes when a value is
delivered. In between a success is arriving. The two come apart for good when that success is
lost: its timer fires first, its page is left, the write of the profile fails after an account
was created, or the root is started without a key window.

While none of this happens, every state with nothing left to deliver shows the tab bar exactly
when a user is signed in.
-/

namespace LoveCoupons

open KeyedTree Reactive StepSystem

/-- A task whose success means that a user is signed in. -/
def Task.signsIn : Task → Bool
  | .send (.login _ _) => true
  | .send (.createUser _ _ _) => true
  | .send (.setUserInfo _) => true
  | _ => false

/-- `logoutButtonPressed` -/
def Task.isLogout : Task → Bool
  | .logout => true
  | _ => false

/-- The values of these tasks are acted on. -/
theorem Task.reaction_ne_none {task : Task} (h : task.signsIn = true ∨ task.isLogout = true) :
    task.reaction ≠ .none := by
  cases task with
  | send op => cases op <;> simp_all [signsIn, isLogout, reaction, sinks]
  | submit userInfo => simp [signsIn, isLogout] at h
  | logout => simp [reaction]

/-- The step loses no success of a task that signs in: it succeeds while its subscriber waits or the tabs
are shown anyway, its timer does not fire and its page is not left before the delivery, a delivery that
starts the root finds a key window, and one that writes a profile finds the write accepted. -/
def losesNoSuccess (s : Session) : SessionStep → Bool
  | .pop => s.pool.requests.all fun entry =>
      !(s.stack.length - 1 ≤ entry.1.1 && entry.1.2.signsIn && arriving entry.2)
  | .progress i (.answer a) => a.error.isSome || s.showsTabs ||
      s.pool.requests[i]?.all fun entry => !entry.1.2.signsIn || entry.2.subscription.isOpen
  | .progress i .timeout => s.pool.requests[i]?.all fun entry => !(entry.1.2.signsIn && arriving entry.2)
  | .deliver i window a => s.pool.requests[i]?.all fun entry =>
      !(entry.2.subscription.queue.head? matches some (.value _)) ||
        match entry.1.2.reaction with
        | .start => window
        | .next _ => a.error.isNone
        | .none => true
  | _ => true

/-- No call is outstanding, no callback is left to run and every event was delivered. -/
def Session.isQuiet (s : Session) : Bool :=
  s.pool.requests.all fun entry => entry.2.phase = .over && entry.2.subscription.queue.isEmpty

/-- The value of such a task is arriving. -/
def Awaits (pool : SessionPool) (kind : Task → Bool) : Prop :=
  ∃ entry ∈ pool.requests, kind entry.1.2 = true ∧ arriving entry.2 = true

/-- A step of a request that keeps its value arriving keeps the value awaited. -/
theorem Awaits.update {pool : SessionPool} {kind : Task → Bool} (h : Awaits pool kind) {i : ℕ}
    {tag : ℕ × Task} {r r' : ApiRequest} (hget : pool.requests[i]? = some (tag, r)) (b : Backend)
    (hkeep : kind tag.2 = true → arriving r = true → arriving r' = true) :
    Awaits (pool.update i tag b r r') kind :=
  Pool.exists_update (P := fun (tag : ℕ × Task) r => kind tag.2 = true ∧ arriving r = true) hget h
    fun hr => ⟨hr.1, hkeep hr.1 hr.2⟩

/-- A new request keeps the value awaited. -/
theorem Awaits.add {pool : SessionPool} {kind : Task → Bool} (h : Awaits pool kind) (tag : ℕ × Task)
    (b : Backend) (r : ApiRequest) : Awaits (pool.add tag b r) kind :=
  Pool.exists_add (P := fun (tag : ℕ × Task) r => kind tag.2 = true ∧ arriving r = true) h tag b r

/-- The root screen fits the session, or the value that will start the root again is arriving. -/
structure Session.Agrees (s : Session) : Prop where
  sound : s.pool.Sound
  root : s.stack = [.tabs] ∨ s.stack ≠ [] ∧ .tabs ∉ s.stack
  signedOut : s.showsTabs = true → s.pool.backend.currentUser = none → Awaits s.pool Task.isLogout
  signedIn : s.showsTabs = false → s.pool.backend.currentUser ≠ none → Awaits s.pool Task.signsIn

/-- The tab bar is shown alone. -/
theorem Session.Agrees.stack_of_shown {s : Session} (hs : s.Agrees) (hshown : s.showsTabs = true) :
    s.stack = [.tabs] := by
  rcases hs.root with htabs | ⟨-, hother⟩
  · exact htabs
  · exact absurd (List.mem_of_mem_head? (of_decide_eq_true hshown)) hother

/-- Work on a request other than its timer keeps a value arriving. -/
theorem IsTask.arriving_work {task : Task} {b b' : Backend} {r r' : ApiRequest} {p : Progress Answer}
    (hr : IsTask task r) (hvalid : r.Valid timeoutError)
    (h : Request.Advances Backend.service timeoutError b r p b' r') (hwork : p.isWork = true)
    (htimeout : p ≠ .timeout) (harriving : arriving r = true) : arriving r' = true := by
  have hanswered : ∀ a, arriving (r.answered a) = true := by
    intro a
    unfold arriving at harriving ⊢
    rw [Bool.or_eq_true, Bool.and_eq_true] at harriving ⊢
    rcases harriving with ⟨hopen, hany⟩ | hvalue
    · exact .inl ⟨hopen, by rw [Request.answered, List.any_append, hany, Bool.true_or]⟩
    · exact .inr hvalue
  cases h with
  | answer _ _ _ => exact hanswered _
  | callback hphase hproceeds =>
    cases hproceeds with
    | @resolve result hrest =>
      cases hopen : r.subscription.isOpen with
      | false =>
        have hsame : (r.resolved result).subscription = r.subscription :=
          Subscription.promise_of_closed hopen result
        simp only [arriving, hopen, Bool.false_and, Bool.false_or] at harriving
        rw [arriving, hsame, harriving, Bool.or_true]
      | true =>
        obtain ⟨a, hanswers, hend⟩ := hr.ends hphase hrest
        have herror : a.error = none := by
          simpa [arriving, hopen, (hvalid.open_queue hopen).1, hanswers] using harriving
        rw [promiseUnlessError, herror] at hend
        cases hend
        apply arriving_of_value
        change _ ∈ (r.subscription.promise _).queue
        rw [Subscription.promise_of_open hopen]
        exact List.mem_append_right _ List.mem_cons_self
    | act _ _ _ => exact hanswered _
    | await _ _ => exact harriving
  | timeout _ => exact (htimeout rfl).elim
  | deliver _ => cases hwork
  | cancel => cases hwork

/-- Delivering another event keeps a value arriving. -/
theorem arriving_deliver {b b' : Backend} {r r' : ApiRequest} {event : Event Bool ApiError}
    (h : r.advance Backend.service timeoutError b .deliver = some (b', r'))
    (hevent : r.subscription.queue.head? = some event) (hother : ∀ v, event ≠ .value v)
    (harriving : arriving r = true) : arriving r' = true := by
  cases Request.advance_cases h with
  | @deliver first queue hqueue =>
    rw [hqueue, List.head?_cons, Option.some.injEq] at hevent
    subst hevent
    unfold arriving at harriving ⊢
    rw [hqueue, List.any_cons] at harriving
    cases first with
    | value v => exact (hother v rfl).elim
    | finished => simpa using harriving
    | failure error => simpa using harriving

section Steps

variable {s : Session}

/-- The root was just started with a window. -/
theorem Session.agrees_start (hs : s.pool.Sound) : (s.start true).Agrees := by
  have hpool : (s.start true).pool = s.pool.cancelWhere fun _ => true := rfl
  have hbackend : (s.start true).pool.backend = s.pool.backend := rfl
  refine ⟨hpool ▸ hs.cancelWhere _, ?_, fun hshown huser => ?_, fun hshown huser => ?_⟩
  · have hstack : (s.start true).stack = [setupRootViewController s.pool.backend] := rfl
    rw [hstack, setupRootViewController]
    split <;> simp
  · rw [hbackend] at huser
    rw [s.showsTabs_start, huser] at hshown
    cases hshown
  · rw [s.showsTabs_start, Option.isSome_eq_false_iff, Option.isNone_iff_eq_none] at hshown
    exact absurd hshown huser

/-- A step of a request that leaves the session alone keeps the agreement, if it keeps what is arriving. -/
theorem Session.Agrees.update (hs : s.Agrees) {i : ℕ} {tag : ℕ × Task} {r r' : ApiRequest} {b b' : Backend}
    {p : Progress Answer} (hget : s.pool.requests[i]? = some (tag, r))
    (hadvance : r.advance Backend.service timeoutError b p = some (b', r'))
    (huser : b'.currentUser = s.pool.backend.currentUser)
    (hkeep : tag.2.signsIn = true ∨ tag.2.isLogout = true → arriving r = true → arriving r' = true) :
    Session.Agrees { s with pool := s.pool.update i tag b' r r' } := by
  refine ⟨hs.sound.update hget hadvance, hs.root, fun hshown hnone => ?_, fun hshown hsome => ?_⟩
  · exact (hs.signedOut hshown (huser ▸ hnone)).update hget b' fun hlogout => hkeep (.inr hlogout)
  · exact (hs.signedIn hshown (huser ▸ hsome)).update hget b' fun hsigns => hkeep (.inl hsigns)

/-- The timer of a task that ended at once does not fire. -/
theorem IsTask.not_open_of_logout {task : Task} {r : ApiRequest} (hr : IsTask task r)
    (hvalid : r.Valid timeoutError) (htask : task.isLogout = true) : r.subscription.isOpen = false := by
  cases task with
  | logout =>
    rcases hr with ⟨result, -, hover, -⟩ | ⟨call, hmakes, -⟩
    · by_contra hopen
      exact (hvalid.open_queue (by simpa using hopen)).2 hover
    · cases hmakes
  | _ => cases htask

/-- The step that changes the session answers a task that signs in without an error. -/
theorem IsTask.signs_in {task : Task} {b b' : Backend} {r r' : ApiRequest} {p : Progress Answer}
    (hr : IsTask task r) (h : Request.Advances Backend.service timeoutError b r p b' r')
    (hchange : b'.currentUser ≠ b.currentUser) :
    ∃ a, p = .answer a ∧ a.error = none ∧ task.signsIn = true ∧ b'.currentUser ≠ none ∧ r' = r.answered a := by
  rcases hr.advances_cases h with ⟨rfl, -⟩ | ⟨a, call, next, rfl, -, -, -, hmakes, himm, hrespond, rfl⟩
  · exact (hchange rfl).elim
  · refine ⟨a, rfl, ?_⟩
    rcases hmakes.cases_of_read himm with ⟨email, password, rfl, rfl⟩ | ⟨userInfo, email, password, rfl, rfl⟩ |
      ⟨email, rfl, rfl⟩
    · rcases Backend.respond_signIn hrespond with ⟨-, rfl⟩ | ⟨herror, account, -, -, -, rfl⟩
      · exact (hchange rfl).elim
      · exact ⟨herror, rfl, by simp, rfl⟩
    · rcases Backend.respond_createUser hrespond with ⟨herror, -⟩ | ⟨herror, uid, created, -, -, rfl⟩
      · exact (hchange (Backend.currentUser_of_error hrespond herror)).elim
      · exact ⟨herror, rfl, by simp, rfl⟩
    · exact (hchange (Backend.currentUser_of_respond hrespond (by simp) (by simp))).elim

/-- Work on a request keeps the agreement. -/
theorem Session.Agrees.work (hs : s.Agrees) {i : ℕ} {p : Progress Answer} {tag : ℕ × Task} {r r' : ApiRequest}
    {b : Backend} (hcond : losesNoSuccess s (.progress i p) = true) (hwork : p.isWork = true)
    (hget : s.pool.requests[i]? = some (tag, r))
    (hadvance : r.advance Backend.service timeoutError s.pool.backend p = some (b, r')) :
    Session.Agrees { s with pool := s.pool.update i tag b r r' } := by
  have hmem := List.mem_of_getElem? hget
  have htask : IsTask tag.2 r := hs.sound.isTask _ hmem
  have hvalid : r.Valid timeoutError := hs.sound.valid _ hmem
  have hadv := Request.advance_cases hadvance
  by_cases huser : b.currentUser = s.pool.backend.currentUser
  · refine hs.update hget hadvance huser fun hkind harriving => ?_
    by_cases htimeout : p = .timeout
    · subst htimeout
      rcases hkind with hsigns | hlogout
      · simp [losesNoSuccess, hget, hsigns, harriving] at hcond
      · cases hadv with
        | timeout hopen => simp [htask.not_open_of_logout hvalid hlogout] at hopen
    · exact htask.arriving_work hvalid hadv hwork htimeout harriving
  · obtain ⟨a, rfl, herror, hsigns, hsome, rfl⟩ := htask.signs_in hadv huser
    refine ⟨hs.sound.update hget hadvance, hs.root, fun _ hnone => absurd hnone hsome, fun hshown _ => ?_⟩
    have hopen : r.subscription.isOpen = true := by
      have hhidden : s.showsTabs = false := hshown
      simpa [losesNoSuccess, herror, hhidden, hget, hsigns] using hcond
    refine ⟨(tag, r.answered a), Replace.mem_set_self hget _, hsigns, ?_⟩
    simp [arriving, Request.answered, hopen, herror]

/-- A new request that leaves the session alone keeps the agreement. -/
theorem Session.Agrees.add (hs : s.Agrees) {depth : ℕ} {task : Task} {b : Backend} {r : ApiRequest}
    (hsound : SessionPool.Sound (s.pool.add (depth, task) b r))
    (huser : b.currentUser = s.pool.backend.currentUser) :
    Session.Agrees { s with pool := s.pool.add (depth, task) b r } := by
  refine ⟨hsound, hs.root, fun hshown hnone => ?_, fun hshown hsome => ?_⟩
  · exact (hs.signedOut hshown (huser ▸ hnone)).add _ _ _
  · exact (hs.signedIn hshown (huser ▸ hsome)).add _ _ _

/-- A press keeps the agreement: after a sign-out the value of `logout` is arriving. -/
theorem Session.Agrees.press (hs : s.Agrees) {task : Task} {a : Answer} {page : Page} {b : Backend}
    {r : ApiRequest} (hpage : task.page = some page)
    (hstart : Request.subscribe Backend.service (task.begin s.pool.backend a)
      (task.publisher (task.begin s.pool.backend a).currentUser a) a = some (b, r)) :
    Session.Agrees { s with pool := s.pool.add (s.stack.length - 1, task) b r } := by
  have hsound := hs.sound.add (s.stack.length - 1) (task.isStarted_of_page hpage) hstart
  have huser := currentUser_of_subscribe hstart
  cases task with
  | send op => exact hs.add hsound huser
  | submit userInfo => exact hs.add hsound huser
  | logout =>
    cases herror : a.error with
    | some error =>
      refine hs.add hsound (huser.trans ?_)
      simp [Task.begin, Backend.signOut, herror]
    | none =>
      have hnone : b.currentUser = none := by
        rw [huser]
        simp [Task.begin, Backend.signOut, herror]
      refine ⟨hsound, hs.root, fun _ _ => ?_, fun _ hsome => absurd hnone hsome⟩
      refine ⟨_, Pool.mem_add_self _ _ _ _, rfl, ?_⟩
      rcases Request.subscribe_cases hstart with ⟨error, hfail, -⟩ | ⟨chain, hfuture, hproceeds⟩
      · cases hfail
      · cases hfuture
        cases hproceeds with
        | resolve hrest =>
          simp only [herror, Option.isSome_none, Bool.false_eq_true, if_false] at hrest
          cases hrest
          rfl
        | act hrest _ _ => cases hrest
        | await hrest _ => cases hrest

/-- Leaving a page keeps the agreement when no success of the page is arriving. -/
theorem Session.Agrees.pop (hs : s.Agrees) (hcond : losesNoSuccess s .pop = true) (hlength : 1 < s.stack.length) :
    Session.Agrees ⟨s.pool.cancelWhere fun tag => s.stack.length - 1 ≤ tag.1, s.stack.dropLast⟩ := by
  have hhidden : s.showsTabs = false := by
    by_contra hshown
    rw [hs.stack_of_shown (by simpa using hshown)] at hlength
    simp at hlength
  have hshows := (s.showsTabs_pop hlength (s.pool.cancelWhere fun tag => s.stack.length - 1 ≤ tag.1)).trans hhidden
  refine ⟨hs.sound.cancelWhere fun tag => s.stack.length - 1 ≤ tag.1, ?_, fun hshown => ?_, fun _ hsome => ?_⟩
  · rcases hs.root with htabs | ⟨hnil, hother⟩
    · simp [htabs] at hlength
    · refine .inr ⟨fun hempty => ?_, fun hmem => hother (List.dropLast_subset _ hmem)⟩
      have hlength' := congrArg List.length hempty
      simp only [List.length_dropLast, List.length_nil] at hlength'
      omega
  · rw [hshows] at hshown
    cases hshown
  · obtain ⟨entry, hmem, hsigns, harriving⟩ := hs.signedIn hhidden hsome
    refine ⟨entry, Pool.mem_cancelWhere_of_stays hmem ?_, hsigns, harriving⟩
    simpa [hsigns, harriving] using List.all_eq_true.mp hcond entry hmem

/-- The value of an accepted profile write is arriving. -/
theorem arriving_of_setUserInfo {userInfo : UserInfo} (hfields : userInfo.hasRequiredFields = true) {b b' : Backend}
    {uid : Key} (huser : b.currentUser = some uid) {a : Answer} (haccepted : a.error = none) {r : ApiRequest}
    (hstart : Request.subscribe Backend.service b
      (Operation.publisher b.currentUser (.setUserInfo userInfo)) a = some (b', r)) : arriving r = true := by
  have hpublisher : Operation.publisher b.currentUser (.setUserInfo userInfo) =
      .future (.call (.setValue (userInfoRef uid) userInfo.toAnyObject) promiseUnlessError) := by
    simp [Operation.publisher, LoveCoupons.setUserInfo, hfields, huser]
  rw [hpublisher] at hstart
  rcases Request.subscribe_cases hstart with ⟨error, hfail, -⟩ | ⟨chain, hfuture, hproceeds⟩
  · cases hfail
  · cases hfuture
    cases hproceeds with
    | resolve hrest => cases hrest
    | act _ _ _ => simp [arriving, Request.answered, Request.unstarted, Subscription.fresh, haccepted]
    | await hrest himm =>
      cases hrest
      cases himm

/-- The value of an account creation keeps the agreement when the write of the profile is accepted. -/
theorem Session.Agrees.next (hs : s.Agrees) {i depth : ℕ} {window : Bool} {a : Answer} {task : Task}
    {r r' r'' : ApiRequest} {b b' : Backend} {v : Bool} {op : Operation}
    (hcond : losesNoSuccess s (.deliver i window a) = true)
    (hget : s.pool.requests[i]? = some ((depth, task), r))
    (hadvance : r.advance Backend.service timeoutError s.pool.backend .deliver = some (b, r'))
    (hevent : r.subscription.queue.head? = some (.value v)) (hreaction : task.reaction = .next op)
    (hstart : Request.subscribe Backend.service b (op.publisher b.currentUser) a = some (b', r'')) :
    Session.Agrees { s with pool := (s.pool.update i (depth, task) b r r').add (depth, .send op) b' r'' } := by
  have hmem := List.mem_of_getElem? hget
  have htask : IsTask task r := hs.sound.isTask _ hmem
  obtain ⟨-, hrest⟩ := (hs.sound.valid _ hmem).value_promised v (List.mem_of_mem_head? hevent)
  obtain ⟨userInfo, email, password, rfl, rfl⟩ := task.of_reaction_next hreaction
  have hfields : userInfo.hasRequiredFields = true := by
    rcases htask with ⟨result, hdone, -, hlogout | ⟨error, rfl⟩⟩ | ⟨call, hmakes, -⟩
    · cases hlogout
    · cases rest_of_refused hdone hrest
    · exact hmakes.1
  have hsame : b = s.pool.backend := by
    cases Request.advance_cases hadvance
    rfl
  subst hsame
  have hsound : SessionPool.Sound ((s.pool.update i (depth, .send (.createUser userInfo email password))
      s.pool.backend r r').add (depth, .send (.setUserInfo userInfo)) b' r'') :=
    (hs.sound.update hget hadvance).add depth rfl hstart
  have huser := currentUser_of_subscribe hstart
  refine ⟨hsound, hs.root, fun hshown hnone => ?_, fun hshown hsome => ?_⟩
  · have hawaits := hs.signedOut hshown (huser ▸ hnone)
    exact (hawaits.update hget _ fun hlogout => by cases hlogout).add _ _ _
  · obtain ⟨uid, hsome⟩ := Option.ne_none_iff_exists'.mp hsome
    have hcurrent : s.pool.backend.currentUser = some uid := huser ▸ hsome
    have haccepted : a.error = none := by
      simpa [losesNoSuccess, hget, hevent, hreaction] using hcond
    exact ⟨_, Pool.mem_add_self _ _ _ _, rfl, arriving_of_setUserInfo hfields hcurrent haccepted hstart⟩

/-- Every step that loses no success keeps the agreement. -/
theorem Session.Agrees.step {s' : Session} {a : SessionStep} (hs : s.Agrees) (hcond : losesNoSuccess s a = true)
    (h : s.step a = some s') : s'.Agrees := by
  cases Session.step_cases h with
  | relaunch hrun => exact Session.agrees_start ⟨by simp, by simp⟩
  | press hpage _ hstart => exact hs.press hpage hstart
  | @push page htop hpage =>
    have hshows := s.showsTabs_push page htop
    refine ⟨hs.sound, ?_, fun hshown => hs.signedOut (hshows ▸ hshown),
      fun hshown => hs.signedIn (hshows ▸ hshown)⟩
    rcases hs.root with htabs | ⟨-, hother⟩
    · simp [htabs] at htop
    · refine .inr ⟨by simp, ?_⟩
      rcases hpage with rfl | rfl <;> simpa using hother
  | pop hlength => exact hs.pop hcond hlength
  | work hwork hget hadvance => exact hs.work hcond hwork hget hadvance
  | @quiet i window a tag r r' b event hget hadvance hevent hquiet =>
    have huser : b.currentUser = s.pool.backend.currentUser := by
      cases Request.advance_cases hadvance
      rfl
    refine hs.update hget hadvance huser fun hkind => arriving_deliver hadvance hevent ?_
    rcases hquiet with hother | hnone
    · exact hother
    · exact absurd hnone (tag.2.reaction_ne_none hkind)
  | @opens i window a tag r r' b v hget hadvance hevent hreaction =>
    obtain rfl : window = true := by
      simpa [losesNoSuccess, hget, hevent, hreaction] using hcond
    exact Session.agrees_start (hs.sound.update hget hadvance)
  | next hget hadvance hevent hreaction hstart => exact hs.next hcond hget hadvance hevent hreaction hstart

end Steps

/-- Nothing is arriving at a request that is over and has delivered its events. -/
theorem not_arriving_of_quiet {r : ApiRequest} (hr : r.Valid timeoutError) (hover : r.phase = .over)
    (hqueue : r.subscription.queue = []) : arriving r = false := by
  cases hopen : r.subscription.isOpen with
  | true => exact ((hr.open_queue hopen).2 hover).elim
  | false => simp [arriving, hopen, hqueue]

/-- In every run that loses no success of a task that signs in, a state with nothing outstanding and
nothing left to deliver shows the tab bar exactly when a user is signed in, and otherwise another screen. -/
theorem tabs_shown_iff_signed_in {b : Backend} {steps : List SessionStep} {s : Session}
    (hrun : run Session.step (Session.launched b) steps = some s)
    (hcond : Along Session.step (fun s a => losesNoSuccess s a = true) (Session.launched b) steps)
    (hquiet : s.isQuiet = true) : (s.showsTabs = true ↔ s.pool.backend.currentUser.isSome = true) ∧
      (s.showsTabs = false → ∃ page, s.stack.getLast? = some page ∧ page ≠ .tabs) := by
  have hs : s.Agrees :=
    run_invariant_along Session.Agrees (fun _ _ _ hs hkeeps hstep => hs.step hkeeps hstep)
      (Session.agrees_start ⟨by simp [Pool.empty], by simp [Pool.empty]⟩) hcond hrun
  have hnone : ∀ kind, ¬ Awaits s.pool kind := by
    rintro kind ⟨entry, hmem, -, harriving⟩
    have hentry := List.all_eq_true.mp hquiet entry hmem
    simp only [Bool.and_eq_true, decide_eq_true_eq, List.isEmpty_iff] at hentry
    rw [not_arriving_of_quiet (hs.sound.valid entry hmem) hentry.1 hentry.2] at harriving
    cases harriving
  refine ⟨⟨?_, ?_⟩, fun hhidden => ?_⟩
  · intro hshown
    by_contra hout
    exact hnone _ (hs.signedOut hshown (by simpa using hout))
  · intro hin
    by_contra hhidden
    exact hnone _ (hs.signedIn (by simpa using hhidden) (Option.isSome_iff_ne_none.mp hin))
  · rcases hs.root with htabs | ⟨hnil, hother⟩
    · rw [Session.showsTabs, htabs] at hhidden
      cases hhidden
    · refine ⟨s.stack.getLast hnil, List.getLast?_eq_some_getLast hnil, fun htabs => hother ?_⟩
      rw [← htabs]
      exact List.getLast_mem hnil

/-- Sign up, log out, and log in again. -/
def signUpLogoutLogin : List SessionStep :=
  [.push .signUp, .press (.send (createUserButtonPressed "Ann" "ann@mail" "bob" "secret")) {},
    .progress 0 (.answer { uid := some ⟨"r", by decide⟩ }), .progress 0 (.callback {}), .deliver 0 true {},
    .progress 1 (.callback {}), .deliver 1 true {}, .press .logout {}, .deliver 2 true {},
    .press (.send (loginButtonPressed "ann@mail" "secret")) {}, .progress 3 (.answer {}),
    .progress 3 (.callback {}), .deliver 3 true {}]

/-- At the end the tab bar is shown. -/
theorem signUpLogoutLogin_shows_tabs : ∃ s, run Session.step (Session.launched {}) signUpLogoutLogin = some s ∧
    s.showsTabs = true :=
  ⟨_, rfl, (@tabs_shown_iff_signed_in {} signUpLogoutLogin _ rfl (by decide) (by decide)).1.mpr (by decide)⟩

/-- A login times out, its failure is shown, and then the service signs the user in. -/
def lateLogin : List SessionStep :=
  [.press (.send (loginButtonPressed "ann@mail" "secret")) {}, .progress 0 .timeout, .deliver 0 true {},
    .progress 0 (.answer {}), .progress 0 (.callback {})]

/-- The login screen is shown to a signed-in user. -/
theorem login_shown_while_signed_in : ¬ ∀ (b : Backend) (steps : List SessionStep) (s : Session),
    run Session.step (Session.launched b) steps = some s → s.isQuiet = true →
      (s.showsTabs = true ↔ s.pool.backend.currentUser.isSome = true) ∧
        (s.showsTabs = false → ∃ page, s.stack.getLast? = some page ∧ page ≠ .tabs) := by
  intro h
  have hiff := (h { accounts := [⟨⟨"r", by decide⟩, "ann@mail", "secret"⟩] } lateLogin _ rfl (by decide)).1
  revert hiff
  decide

end LoveCoupons
