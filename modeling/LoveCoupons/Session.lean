import LoveCoupons.Screens

/-!
# The session and the screens

The app from its launch: the navigation stack, the requests of the view models on it, and the
signed-in user of the authentication service. `RootCoordinator.start` chooses the root screen
from the signed-in user, at a launch and whenever a delivered value asks for it. It replaces
the whole stack, and without a key window it replaces nothing. A view model that leaves the
stack cancels its subscriptions; its calls keep running.

When the process ends, its requests are gone. The service keeps the session, and it may still
carry out an account creation that was on its way. Settings hold two buttons that matter here,
`submit` and `logout`; the readers of the tabs change nothing.
-/

namespace LoveCoupons

open KeyedTree Reactive StepSystem

/-- The screens of the navigation stack. -/
inductive Page where
  | login
  | signUp
  | resetPassword
  | tabs
  deriving DecidableEq

/-- What a view model asks of the manager: a stage of a flow, or one of the buttons of the settings. -/
inductive Task where
  | send (op : Operation)
  | submit (userInfo : UserInfo)
  | logout

/-- The page whose button starts a task. -/
def Task.page : Task → Option Page
  | .send (.login _ _) => some .login
  | .send (.createUser _ _ _) => some .signUp
  | .send (.resetPassword _) => some .resetPassword
  | .send _ => none
  | .submit _ => some .tabs
  | .logout => some .tabs

/-- The publisher of a task; `logout` has signed out when its future is created. -/
def Task.publisher (userUid : Option Key) (a : Answer) : Task → ApiPublisher
  | .send op => op.publisher userUid
  | .submit userInfo => setUserInfo userUid userInfo
  | .logout => LoveCoupons.logout a

/-- What a task does to the session while its publisher is created. -/
def Task.begin (b : Backend) (a : Answer) : Task → Backend
  | .logout => b.signOut a
  | _ => b

/-- What a view model does with the value of a task. -/
inductive Reaction where
  | start
  | next (op : Operation)
  | none

/-- The value handlers of the view models. -/
def Task.reaction : Task → Reaction
  | .send op =>
    match sinks.onValue op with
    | .inl .navigateToTabs => .start
    | .inl _ => .none
    | .inr next => .next next
  | .submit _ => .none
  | .logout => .start

/-- The requests, each under the depth of its page and its task. -/
abbrev SessionPool := Pool Backend Call Answer Bool ApiError (ℕ × Task)

/-- The requests of the running app and its navigation stack, the root first. -/
structure Session where
  pool : SessionPool
  stack : List Page

/-- The tab bar is the root screen. -/
def Session.showsTabs (s : Session) : Bool := s.stack.head? = some .tabs

/-- `RootCoordinator.setupRootViewController` -/
def setupRootViewController (b : Backend) : Page := if b.currentUser.isSome then .tabs else .login

/-- `RootCoordinator.start`, with or without a window. -/
def Session.start (s : Session) (window : Bool) : Session :=
  if window then ⟨s.pool.cancelWhere fun _ => true, [setupRootViewController s.pool.backend]⟩ else s

/-- A root started with a window is the tab bar exactly for a signed-in user. -/
theorem Session.showsTabs_start (s : Session) :
    (s.start true).showsTabs = s.pool.backend.currentUser.isSome := by
  change decide (some (setupRootViewController s.pool.backend) = some .tabs) = _
  cases huser : s.pool.backend.currentUser <;> simp [setupRootViewController, huser]

/-- `SceneDelegate.scene(_:willConnectTo:options:)` -/
def Session.launched (b : Backend) : Session := Session.start ⟨.empty b, []⟩ true

/-- What happens to the app. -/
inductive SessionStep where
  | relaunch (created : List (ℕ × Key))
  | press (task : Task) (a : Answer)
  | push (page : Page)
  | pop
  | progress (i : ℕ) (p : Progress Answer)
  | deliver (i : ℕ) (window : Bool) (a : Answer)

/-- The service carries out an account creation whose process is gone: nobody is signed in by it. -/
def Session.createLost (s : Session) (b : Backend) (lost : ℕ × Key) : Option Backend :=
  match s.pool.requests[lost.1]? with
  | some (_, r) =>
    match r.phase, r.rest with
    | .outstanding, some (.call (.createUser email password) _) =>
      (b.respond (.createUser email password) { uid := some lost.2 }).map fun b' =>
        { b' with currentUser := b.currentUser }
    | _, _ => none
  | none => none

/-- What the subscriber of a task does with an event. -/
def Session.receive (s : Session) (depth : ℕ) (task : Task) (event : Event Bool ApiError) (window : Bool)
    (a : Answer) : Option Session :=
  match event with
  | .value _ =>
    match task.reaction with
    | .start => some (s.start window)
    | .next op =>
      (s.pool.subscribe Backend.service (depth, .send op) (op.publisher s.pool.backend.currentUser) a).map
        fun pool => { s with pool := pool }
    | .none => some s
  | _ => some s

/-- One step of the app. -/
def Session.step (s : Session) : SessionStep → Option Session
  | .relaunch created =>
    (run s.createLost s.pool.backend created).map fun b => Session.start ⟨⟨b, [], s.pool.journal⟩, []⟩ true
  | .press task a =>
    if task.page.isSome ∧ s.stack.getLast? = task.page then
      let b := task.begin s.pool.backend a
      (Request.subscribe Backend.service b (task.publisher b.currentUser a) a).map fun started =>
        { s with pool := s.pool.add (s.stack.length - 1, task) started.1 started.2 }
    else none
  | .push page =>
    if s.stack.getLast? = some .login ∧ (page = .signUp ∨ page = .resetPassword) then
      some { s with stack := s.stack ++ [page] }
    else none
  | .pop =>
    if 1 < s.stack.length then
      some ⟨s.pool.cancelWhere fun tag => s.stack.length - 1 ≤ tag.1, s.stack.dropLast⟩
    else none
  | .progress i p =>
    if p.isWork then
      (s.pool.advance Backend.service timeoutError i p).map fun pool => { s with pool := pool }
    else none
  | .deliver i window a =>
    s.pool.requests[i]?.bind fun entry => entry.2.subscription.queue.head?.bind fun event =>
      (s.pool.advance Backend.service timeoutError i .deliver).bind fun pool =>
        Session.receive { s with pool := pool } entry.1.1 entry.1.2 event window a

/-- Everything one step of the app can do. -/
inductive Session.Steps (s : Session) : SessionStep → Session → Prop where
  | relaunch {created : List (ℕ × Key)} {b : Backend} (hrun : run s.createLost s.pool.backend created = some b) :
      Steps s (.relaunch created) (Session.start ⟨⟨b, [], s.pool.journal⟩, []⟩ true)
  | press {task : Task} {a : Answer} {page : Page} {b : Backend} {r : ApiRequest}
      (hpage : task.page = some page) (htop : s.stack.getLast? = some page)
      (hstart : Request.subscribe Backend.service (task.begin s.pool.backend a)
        (task.publisher (task.begin s.pool.backend a).currentUser a) a = some (b, r)) :
      Steps s (.press task a) { s with pool := s.pool.add (s.stack.length - 1, task) b r }
  | push {page : Page} (htop : s.stack.getLast? = some .login)
      (hpage : page = .signUp ∨ page = .resetPassword) :
      Steps s (.push page) { s with stack := s.stack ++ [page] }
  | pop (hlength : 1 < s.stack.length) : Steps s .pop
      ⟨s.pool.cancelWhere fun tag => s.stack.length - 1 ≤ tag.1, s.stack.dropLast⟩
  | work {i : ℕ} {p : Progress Answer} {tag : ℕ × Task} {r r' : ApiRequest} {b : Backend}
      (hwork : p.isWork = true) (hget : s.pool.requests[i]? = some (tag, r))
      (hadvance : r.advance Backend.service timeoutError s.pool.backend p = some (b, r')) :
      Steps s (.progress i p) { s with pool := s.pool.update i tag b r r' }
  | quiet {i : ℕ} {window : Bool} {a : Answer} {tag : ℕ × Task} {r r' : ApiRequest} {b : Backend}
      {event : Event Bool ApiError} (hget : s.pool.requests[i]? = some (tag, r))
      (hadvance : r.advance Backend.service timeoutError s.pool.backend .deliver = some (b, r'))
      (hevent : r.subscription.queue.head? = some event)
      (hquiet : (∀ v, event ≠ .value v) ∨ tag.2.reaction = .none) :
      Steps s (.deliver i window a) { s with pool := s.pool.update i tag b r r' }
  | opens {i : ℕ} {window : Bool} {a : Answer} {tag : ℕ × Task} {r r' : ApiRequest} {b : Backend} {v : Bool}
      (hget : s.pool.requests[i]? = some (tag, r))
      (hadvance : r.advance Backend.service timeoutError s.pool.backend .deliver = some (b, r'))
      (hevent : r.subscription.queue.head? = some (.value v)) (hreaction : tag.2.reaction = .start) :
      Steps s (.deliver i window a) (Session.start { s with pool := s.pool.update i tag b r r' } window)
  | next {i depth : ℕ} {window : Bool} {a : Answer} {task : Task} {r r' r'' : ApiRequest} {b b' : Backend}
      {v : Bool} {op : Operation} (hget : s.pool.requests[i]? = some ((depth, task), r))
      (hadvance : r.advance Backend.service timeoutError s.pool.backend .deliver = some (b, r'))
      (hevent : r.subscription.queue.head? = some (.value v)) (hreaction : task.reaction = .next op)
      (hstart : Request.subscribe Backend.service b (op.publisher b.currentUser) a = some (b', r'')) :
      Steps s (.deliver i window a)
        { s with pool := (s.pool.update i (depth, task) b r r').add (depth, .send op) b' r'' }

/-- A step of the app does one of the listed things. -/
theorem Session.step_cases {s s' : Session} {a : SessionStep} (h : s.step a = some s') : s.Steps a s' := by
  cases a with
  | relaunch created =>
    obtain ⟨b, hrun, rfl⟩ := Option.map_eq_some_iff.mp h
    exact .relaunch hrun
  | press task a =>
    simp only [step] at h
    split at h
    · rename_i hpress
      obtain ⟨page, hpage⟩ := Option.isSome_iff_exists.mp hpress.1
      obtain ⟨⟨b, r⟩, hstart, rfl⟩ := Option.map_eq_some_iff.mp h
      exact .press hpage (hpress.2.trans hpage) hstart
    · contradiction
  | push page =>
    simp only [step] at h
    split at h
    · rename_i hpush
      cases h
      exact .push hpush.1 hpush.2
    · contradiction
  | pop =>
    simp only [step] at h
    split at h
    · cases h
      exact .pop ‹_›
    · contradiction
  | progress i p =>
    simp only [step] at h
    split at h
    · obtain ⟨pool, hadv, rfl⟩ := Option.map_eq_some_iff.mp h
      obtain ⟨tag, r, b, r', hget, hadvance, rfl⟩ := Pool.advance_cases hadv
      exact .work ‹_› hget hadvance
    · contradiction
  | deliver i window a =>
    obtain ⟨⟨⟨depth, task⟩, r⟩, hget, h⟩ := Option.bind_eq_some_iff.mp h
    obtain ⟨event, hevent, h⟩ := Option.bind_eq_some_iff.mp h
    obtain ⟨pool, hadv, hreceive⟩ := Option.bind_eq_some_iff.mp h
    obtain ⟨tag, r₀, b, r', hget', hadvance, rfl⟩ := Pool.advance_cases hadv
    obtain ⟨rfl, rfl⟩ : (depth, task) = tag ∧ r = r₀ := by simpa using hget.symm.trans hget'
    cases event with
    | value v =>
      simp only [receive] at hreceive
      cases hreaction : task.reaction with
      | start =>
        simp only [hreaction, Option.some.injEq] at hreceive
        subst hreceive
        exact .opens hget hadvance hevent hreaction
      | next op =>
        simp only [hreaction] at hreceive
        obtain ⟨pool, hsub, rfl⟩ := Option.map_eq_some_iff.mp hreceive
        obtain ⟨b', r'', hstart, rfl⟩ := Pool.subscribe_cases hsub
        exact .next hget hadvance hevent hreaction hstart
      | none =>
        simp only [hreaction, Option.some.injEq] at hreceive
        subst hreceive
        exact .quiet hget hadvance hevent (.inr hreaction)
    | finished =>
      simp only [receive, Option.some.injEq] at hreceive
      subst hreceive
      exact .quiet hget hadvance hevent (.inl (by simp))
    | failure error =>
      simp only [receive, Option.some.injEq] at hreceive
      subst hreceive
      exact .quiet hget hadvance hevent (.inl (by simp))

/-- Showing another page leaves the root. -/
theorem Session.showsTabs_push (s : Session) (page : Page) {top : Page} (htop : s.stack.getLast? = some top) :
    ({ s with stack := s.stack ++ [page] } : Session).showsTabs = s.showsTabs := by
  unfold Session.showsTabs
  cases hstack : s.stack with
  | nil => simp [hstack] at htop
  | cons first rest => rfl

/-- Leaving a page above the root leaves the root. -/
theorem Session.showsTabs_pop (s : Session) (hlength : 1 < s.stack.length) (pool : SessionPool) :
    (⟨pool, s.stack.dropLast⟩ : Session).showsTabs = s.showsTabs := by
  unfold Session.showsTabs
  cases hstack : s.stack with
  | nil => rfl
  | cons first rest =>
    rw [hstack] at hlength
    cases rest with
    | nil => simp at hlength
    | cons second rest => rfl

end LoveCoupons
