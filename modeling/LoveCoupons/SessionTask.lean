import LoveCoupons.Session

/-!
# The requests of a session

Every task of a session makes at most one call. A write takes effect when it is made, so a
request that waits for its answer is a sign-in, an account creation or a password reset, and
only the first two of these change the signed-in user.
-/

namespace LoveCoupons

open KeyedTree Reactive StepSystem

/-- The one call that an accepted task makes. -/
def Task.Makes : Task → Call → Prop
  | .send (.login email password), call => call = .signIn email password
  | .send (.createUser userInfo email password), call =>
    userInfo.hasRequiredFields = true ∧ call = .createUser email password
  | .send (.setUserInfo userInfo), call =>
    userInfo.hasRequiredFields = true ∧ ∃ uid, call = .setValue (userInfoRef uid) userInfo.toAnyObject
  | .send (.resetPassword email), call => call = .sendPasswordReset email
  | .submit userInfo, call =>
    userInfo.hasRequiredFields = true ∧ ∃ uid, call = .setValue (userInfoRef uid) userInfo.toAnyObject
  | _, _ => False

/-- A task that a page or a first stage starts. -/
def Task.isStarted : Task → Bool
  | .send (.updateCoupon _ _ _ _) => false
  | _ => true

/-- The tasks of the pages are started. -/
theorem Task.isStarted_of_page {task : Task} {page : Page} (h : task.page = some page) :
    task.isStarted = true := by
  cases task with
  | send op => cases op <;> first | rfl | cases h
  | submit userInfo => rfl
  | logout => rfl

/-- Only the value of an account creation starts a next stage, the write of its profile. -/
theorem Task.of_reaction_next {task : Task} {op : Operation} (h : task.reaction = .next op) :
    ∃ userInfo email password, task = .send (.createUser userInfo email password) ∧
      op = .setUserInfo userInfo := by
  cases task with
  | send first =>
    cases first <;> cases h
    exact ⟨_, _, _, rfl, rfl⟩
  | submit userInfo => cases h
  | logout => cases h

/-- While its publisher is created, a task leaves the database alone and signs nobody in. -/
theorem Task.begin_keeps (task : Task) (b : Backend) (a : Answer) : (task.begin b a).database = b.database ∧
    ∀ uid, (task.begin b a).currentUser = some uid → b.currentUser = some uid := by
  cases task with
  | logout =>
    rw [Task.begin, Backend.signOut]
    split
    · exact ⟨rfl, fun uid huid => huid⟩
    · exact ⟨rfl, fun uid huid => by cases huid⟩
  | _ => exact ⟨rfl, fun uid huid => huid⟩

/-- The publisher of a task fails, has ended at once, or makes the one call of the task. -/
theorem Task.publisher_cases {task : Task} (htask : task.isStarted = true) (userUid : Option Key) (a : Answer) :
    (∃ error, task.publisher userUid a = .fail error) ∨
    (task = .logout ∧ ∃ result, task.publisher userUid a = .future (.done result)) ∨
    ∃ call, task.Makes call ∧ task.publisher userUid a = .future (.call call promiseUnlessError) := by
  cases task with
  | send op =>
    cases hpublisher : op.publisher userUid with
    | fail error => exact .inl ⟨error, hpublisher⟩
    | future chain =>
      have hchain := Operation.isChain_of_future hpublisher
      refine .inr (.inr ?_)
      cases op with
      | login email password => exact ⟨_, rfl, hpublisher.trans (congrArg _ hchain)⟩
      | createUser userInfo email password =>
        refine ⟨_, ⟨?_, rfl⟩, hpublisher.trans (congrArg _ hchain)⟩
        simp only [Operation.publisher, createUser] at hpublisher
        split at hpublisher
        · rename_i hfields
          exact (Bool.and_eq_true_iff.mp hfields).2
        · cases hpublisher
      | setUserInfo userInfo =>
        obtain ⟨hfields, uid, -, hchain⟩ := hchain
        exact ⟨_, ⟨hfields, uid, rfl⟩, hpublisher.trans (congrArg _ hchain)⟩
      | resetPassword email => exact ⟨_, rfl, hpublisher.trans (congrArg _ hchain)⟩
      | updateCoupon object fresh coupon data => cases htask
  | submit userInfo =>
    have hsame : (Task.submit userInfo).publisher userUid a = Operation.publisher userUid (.setUserInfo userInfo) := rfl
    rw [hsame]
    cases hpublisher : Operation.publisher userUid (.setUserInfo userInfo) with
    | fail error => exact .inl ⟨error, rfl⟩
    | future chain =>
      obtain ⟨hfields, uid, -, hchain⟩ := Operation.isChain_of_future hpublisher
      exact .inr (.inr ⟨_, ⟨hfields, uid, rfl⟩, congrArg _ hchain⟩)
  | logout => exact .inr (.inl ⟨rfl, _, rfl⟩)

/-- A request of a task was refused or signed out at once, or it makes the one call of the task; a call
that takes effect at once was answered at the start. -/
def IsTask (task : Task) (r : ApiRequest) : Prop :=
  (∃ result, r.origin = .done result ∧ r.phase = .over ∧ (task = .logout ∨ ∃ error, result = .error error)) ∨
    ∃ call, task.Makes call ∧ r.origin = .call call promiseUnlessError ∧
      (Backend.service.immediate call = true → r.answers ≠ [])

/-- A new request is one of its task. -/
theorem isTask_subscribe {task : Task} (htask : task.isStarted = true) {userUid : Option Key} {b b' : Backend}
    {a : Answer} {r : ApiRequest}
    (h : Request.subscribe Backend.service b (task.publisher userUid a) a = some (b', r)) : IsTask task r := by
  rcases Request.subscribe_cases h with ⟨error, -, -, rfl⟩ | ⟨chain, hfuture, hproceeds⟩
  · exact .inl ⟨_, rfl, rfl, .inr ⟨error, rfl⟩⟩
  · rcases task.publisher_cases htask userUid a with ⟨error, hfail⟩ | ⟨hlogout, result, hdone⟩ | ⟨call, hmakes, hcall⟩
    · cases hfail.symm.trans hfuture
    · cases hdone.symm.trans hfuture
      cases hproceeds with
      | resolve _ => exact .inl ⟨result, rfl, rfl, .inl hlogout⟩
      | act hrest _ _ => cases hrest
      | await hrest _ => cases hrest
    · cases hcall.symm.trans hfuture
      refine .inr ⟨call, hmakes, ?_⟩
      cases hproceeds with
      | resolve hrest => cases hrest
      | act _ _ _ => exact ⟨rfl, fun _ => by simp [Request.answered]⟩
      | await hrest himm =>
        cases hrest
        exact ⟨rfl, fun himm' => by simp [himm] at himm'⟩

/-- A step of a request keeps it one of its task. -/
theorem IsTask.advances {task : Task} {b b' : Backend} {r r' : ApiRequest} {p : Progress Answer}
    (hr : IsTask task r) (h : Request.Advances Backend.service timeoutError b r p b' r') : IsTask task r' := by
  obtain ⟨horigin, hanswers⟩ : r'.origin = r.origin ∧ (r.answers ≠ [] → r'.answers ≠ []) := by
    cases h.acts with
    | idle horigin hanswers => exact ⟨horigin, fun hne => hanswers ▸ hne⟩
    | reply _ _ => exact ⟨rfl, fun _ => by simp [Request.answered]⟩
  rcases hr with ⟨result, hdone, hover, hresult⟩ | ⟨call, hmakes, hcall, himm⟩
  · exact .inl ⟨result, horigin.trans hdone, (h.over hover).1, hresult⟩
  · exact .inr ⟨call, hmakes, horigin.trans hcall, fun h => hanswers (himm h)⟩

/-- The call that a request of a task waits for is the one call of the task, and no write. -/
theorem IsTask.call {task : Task} {r : ApiRequest} (hr : IsTask task r) {call : Call} {next : Answer → ApiChain}
    (hrest : r.rest = some (.call call next)) :
    r.answers = [] ∧ task.Makes call ∧ Backend.service.immediate call = false := by
  rcases hr with ⟨result, hdone, -⟩ | ⟨call', hmakes, hcall, himm⟩
  · rw [Request.rest, hdone] at hrest
    cases hanswers : r.answers <;> simp [hanswers] at hrest
  · obtain ⟨hanswers, rfl⟩ := reply_of_single hcall hrest
    exact ⟨hanswers, hmakes, by simpa [hanswers] using himm⟩

/-- A callback that ends a request reports success exactly for an answer without an error. -/
theorem IsTask.ends {task : Task} {r : ApiRequest} (hr : IsTask task r) (hphase : r.phase = .replied)
    {result : Except ApiError Bool} (hrest : r.rest = some (.done result)) :
    ∃ a, r.answers = [a] ∧ promiseUnlessError a = .done result := by
  rcases hr with ⟨_, -, hover, -⟩ | ⟨call, -, hcall, -⟩
  · simp [hphase] at hover
  · rw [Request.rest, hcall] at hrest
    rcases Chain.resume_single_cases promiseUnlessError_done hrest with ⟨-, hwait⟩ | ⟨a, hanswers, hend⟩
    · cases hwait
    · exact ⟨a, hanswers, hend.symm⟩

/-- Only an answer signs somebody in. -/
theorem currentUser_of_proceeds {b b' : Backend} {r r' : ApiRequest} {a : Answer}
    (h : Request.Proceeds Backend.service b r a b' r') : b'.currentUser = b.currentUser := by
  cases h with
  | resolve _ => rfl
  | @act call _ _ _ himm hrespond =>
    refine Backend.currentUser_of_respond hrespond (fun _ _ hcall => ?_) fun _ _ hcall => ?_
    · rw [hcall] at himm
      cases himm
    · rw [hcall] at himm
      cases himm
  | await _ _ => rfl

/-- A new request leaves the session alone. -/
theorem currentUser_of_subscribe {b b' : Backend} {publisher : ApiPublisher} {a : Answer} {r : ApiRequest}
    (h : Request.subscribe Backend.service b publisher a = some (b', r)) : b'.currentUser = b.currentUser := by
  rcases Request.subscribe_cases h with ⟨error, -, rfl, -⟩ | ⟨chain, -, hproceeds⟩
  · rfl
  · exact currentUser_of_proceeds hproceeds

/-- A step of a request leaves the backend alone or answers its one call, which is no write. -/
theorem IsTask.advances_cases {task : Task} {b b' : Backend} {r r' : ApiRequest} {p : Progress Answer}
    (hr : IsTask task r) (h : Request.Advances Backend.service timeoutError b r p b' r') :
    (b' = b ∧ r'.origin = r.origin ∧ r'.answers = r.answers) ∨
    ∃ a call next, p = .answer a ∧ r.phase = .outstanding ∧ r.rest = some (.call call next) ∧
      r.answers = [] ∧ task.Makes call ∧ Backend.service.immediate call = false ∧
      b.respond call a = some b' ∧ r' = r.answered a := by
  cases h with
  | @answer a call next _ hphase hrest hrespond =>
    obtain ⟨hanswers, hmakes, himm⟩ := hr.call hrest
    exact .inr ⟨a, call, next, rfl, hphase, hrest, hanswers, hmakes, himm, hrespond, rfl⟩
  | callback _ hproceeds =>
    cases hproceeds with
    | resolve _ => exact .inl ⟨rfl, rfl, rfl⟩
    | act hrest himm _ =>
      have hnot := (hr.call hrest).2.2
      rw [himm] at hnot
      cases hnot
    | await _ _ => exact .inl ⟨rfl, rfl, rfl⟩
  | timeout _ => exact .inl ⟨rfl, rfl, rfl⟩
  | deliver _ => exact .inl ⟨rfl, rfl, rfl⟩
  | cancel => exact .inl ⟨rfl, rfl, rfl⟩

/-- The tasks whose call is no write. -/
theorem Task.Makes.cases_of_read {task : Task} {call : Call} (h : task.Makes call)
    (himm : Backend.service.immediate call = false) :
    (∃ email password, task = .send (.login email password) ∧ call = .signIn email password) ∨
    (∃ userInfo email password, task = .send (.createUser userInfo email password) ∧
      call = .createUser email password) ∨
    ∃ email, task = .send (.resetPassword email) ∧ call = .sendPasswordReset email := by
  cases task with
  | send op =>
    cases op with
    | login email password => exact .inl ⟨email, password, rfl, h⟩
    | createUser userInfo email password => exact .inr (.inl ⟨userInfo, email, password, rfl, h.2⟩)
    | setUserInfo userInfo =>
      obtain ⟨-, uid, rfl⟩ := h
      cases himm
    | resetPassword email => exact .inr (.inr ⟨email, rfl, h⟩)
    | updateCoupon object fresh coupon data => cases h
  | submit userInfo =>
    obtain ⟨-, uid, rfl⟩ := h
    cases himm
  | logout => cases h

/-- Every request is valid and one of its task. -/
structure SessionPool.Sound (pool : SessionPool) : Prop where
  valid : ∀ entry ∈ pool.requests, entry.2.Valid timeoutError
  isTask : ∀ entry ∈ pool.requests, IsTask entry.1.2 entry.2

section Sound

variable {pool : SessionPool}

/-- A step of a request keeps the requests sound. -/
theorem SessionPool.Sound.update (hs : pool.Sound) {i : ℕ} {tag : ℕ × Task} {b b' : Backend} {r r' : ApiRequest}
    {p : Progress Answer} (hget : pool.requests[i]? = some (tag, r))
    (hadvance : r.advance Backend.service timeoutError b p = some (b', r')) :
    SessionPool.Sound (pool.update i tag b' r r') := by
  have hmem := List.mem_of_getElem? hget
  refine ⟨Pool.forall_update (P := fun _ r => r.Valid timeoutError) hs.valid ?_,
    Pool.forall_update (P := fun (tag : ℕ × Task) r => IsTask tag.2 r) hs.isTask ?_⟩
  · exact Request.Valid.advance (hs.valid _ hmem) hadvance
  · exact IsTask.advances (hs.isTask _ hmem) (Request.advance_cases hadvance)

/-- A new request keeps the requests sound. -/
theorem SessionPool.Sound.add (hs : pool.Sound) (depth : ℕ) {task : Task} (htask : task.isStarted = true)
    {userUid : Option Key} {b b' : Backend} {a : Answer} {r : ApiRequest}
    (hstart : Request.subscribe Backend.service b (task.publisher userUid a) a = some (b', r)) :
    SessionPool.Sound (pool.add (depth, task) b' r) :=
  ⟨Pool.forall_add (P := fun _ r => r.Valid timeoutError) hs.valid (Request.valid_subscribe hstart),
    Pool.forall_add (P := fun (tag : ℕ × Task) r => IsTask tag.2 r) hs.isTask (isTask_subscribe htask hstart)⟩

/-- Requests whose subscribers are gone are still sound. -/
theorem SessionPool.Sound.cancelWhere (hs : pool.Sound) (gone : ℕ × Task → Bool) :
    SessionPool.Sound (pool.cancelWhere gone) := by
  refine ⟨Pool.forall_cancelWhere (P := fun _ r => r.Valid timeoutError) hs.valid fun _ r hr => ?_,
    Pool.forall_cancelWhere (P := fun (tag : ℕ × Task) r => IsTask tag.2 r) hs.isTask fun _ _ hr => hr⟩
  have hcancel : r.advance Backend.service timeoutError {} .cancel =
      some ({}, { r with subscription := .cancelled }) := rfl
  exact hr.advance hcancel

end Sound

end LoveCoupons
