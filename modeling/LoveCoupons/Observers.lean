import LoveCoupons.CouponFeed
import LoveCoupons.Lib.Replace
import LoveCoupons.PairAccess

/-!
# The observers that the read calls register

All four read calls of the manager use the same registration, `observe` for value events: the two
coupon feeds to go on, the two requests for one result. Neither a result nor a timeout nor the end
of a subscription takes the registration back, and no handle of it is kept. It ends only when the
database itself cancels the listener.

Three of the calls register in a block on the serial queue. The blocks of the two requests hold the
manager weakly, so they register nothing once the view model that owns the manager is gone; the
block of `getMyCoupons` holds it strongly.
-/

namespace LoveCoupons

open KeyedTree Reactive StepSystem

/-- The read calls of the manager. -/
inductive ReadCall where
  | getUserInfo
  | getPairEmail (pairId : String)
  | getMyCoupons
  | getPairCoupons (pairUniqId : Option String)

/-- What the caller of a read call is subscribed to: the future of a request, or the subject of a feed. -/
inductive OpenRead where
  | userInfo (subscription : Subscription (Option UserInfo) ApiError)
  | pairEmail (pairId : String) (subscription : Subscription (Option String) ApiError)
  | coupons (kind : FeedKind) (subject : CurrentValueSubject (Option (List Coupon)) ApiError)

namespace OpenRead

/-- A coupon feed. -/
def isFeed : OpenRead → Bool
  | .coupons _ _ => true
  | _ => false

/-- The subscriber will still receive a result. -/
def pending : OpenRead → Bool
  | .userInfo subscription => subscription.pending
  | .pairEmail _ subscription => subscription.pending
  | .coupons _ subject => subject.subscription.pending

/-- The value handler of the observer. -/
def snapshot (value : Node) : OpenRead → OpenRead
  | .userInfo subscription => .userInfo (subscription.promise ((userInfoOfSnapshot value).map some))
  | .pairEmail pairId subscription => .pairEmail pairId (subscription.promise (pairEmailOfSnapshot value))
  | .coupons kind subject =>
    match asDictionary value with
    | some dict => .coupons kind (subject.send (some (kind.decode dict)))
    | none => .coupons kind (subject.sendFailure kind.missingError)

/-- The publisher fails. -/
def fail (error : ApiError) : OpenRead → OpenRead
  | .userInfo subscription => .userInfo (subscription.fail error)
  | .pairEmail pairId subscription => .pairEmail pairId (subscription.fail error)
  | .coupons kind subject => .coupons kind (subject.sendFailure error)

/-- The ten seconds are over: a request fails unless it has a result, a feed unless it holds a value. -/
def timeout : OpenRead → OpenRead
  | .coupons kind subject =>
    if subject.value.isSome then .coupons kind subject else .coupons kind (subject.sendFailure timeoutError)
  | read => read.fail timeoutError

/-- The run loop hands the next event to the subscriber. -/
def deliver : OpenRead → Option OpenRead
  | .userInfo ⟨isOpen, _ :: queue⟩ => some (.userInfo ⟨isOpen, queue⟩)
  | .pairEmail pairId ⟨isOpen, _ :: queue⟩ => some (.pairEmail pairId ⟨isOpen, queue⟩)
  | .coupons kind ⟨value, ⟨isOpen, _ :: queue⟩⟩ => some (.coupons kind ⟨value, ⟨isOpen, queue⟩⟩)
  | _ => none

/-- The subscriber cancels its subscription. -/
def cancel : OpenRead → OpenRead
  | .userInfo _ => .userInfo .cancelled
  | .pairEmail pairId _ => .pairEmail pairId .cancelled
  | .coupons kind subject => .coupons kind { subject with subscription := .cancelled }

end OpenRead

/-- What has become of the observer of a call: none was registered, its block waits on the serial queue, it
is registered, or the database has cancelled it. -/
inductive Observer where
  | absent
  | queued
  | registered
  | cancelled
  deriving DecidableEq

/-- A read call of a view model. -/
structure IssuedRead where
  owner : ℕ
  read : OpenRead
  observer : Observer
  timerFired : Bool := false

/-- The call as its caller gets it back; an invalid path string raises an exception. -/
def ReadCall.start (owner : ℕ) (userUid : Option Key) : ReadCall → Option IssuedRead
  | .getUserInfo =>
    match userUid with
    | none => some ⟨owner, .userInfo (.fail .fresh ⟨.defaultMessage⟩), .absent, false⟩
    | some _ => some ⟨owner, .userInfo .fresh, .queued, false⟩
  | .getPairEmail pairId => some ⟨owner, .pairEmail pairId .fresh, .queued, false⟩
  | .getMyCoupons =>
    match userUid with
    | none => some ⟨owner, .coupons .mine ⟨none, .fail .fresh ⟨.defaultMessage⟩⟩, .absent, false⟩
    | some _ => some ⟨owner, .coupons .mine (.subscribed none), .queued, false⟩
  | .getPairCoupons pairUniqId =>
    match LoveCoupons.getPairCoupons pairUniqId with
    | .raised => none
    | .failed _ => some ⟨owner, .coupons .pair ⟨none, .fail .fresh ⟨.defaultMessage⟩⟩, .absent, false⟩
    | .observing _ => some ⟨owner, .coupons .pair (.subscribed none), .registered, false⟩

/-- What can happen to a call: its block runs, the database sends a value or cancels the listener, the ten
seconds are over, or an event is delivered. -/
inductive ReadEvent where
  | register
  | snapshot (value : Node)
  | listenerCancel (message : String)
  | timeout
  | deliver

namespace IssuedRead

/-- The block of the call on the serial queue. -/
def register (isOwnerGone : Bool) (r : IssuedRead) : Option IssuedRead :=
  match r.read with
  | .coupons _ _ => some { r with observer := .registered }
  | .userInfo _ => some { r with observer := if isOwnerGone then .absent else .registered }
  | .pairEmail pairId _ =>
    if isOwnerGone then some { r with observer := .absent }
    else match getPairEmail pairId with
      | .raised => none
      | _ => some { r with observer := .registered }

/-- One step of a call. -/
def step (isOwnerGone : Bool) (r : IssuedRead) : ReadEvent → Option IssuedRead
  | .register => if r.observer = .queued then r.register isOwnerGone else none
  | .snapshot value => if r.observer = .registered then some { r with read := r.read.snapshot value } else none
  | .listenerCancel message =>
    if r.observer = .registered then
      some { r with observer := .cancelled, read := r.read.fail ⟨.other (some message)⟩ }
    else none
  | .timeout => if r.timerFired then none else some { r with read := r.read.timeout, timerFired := true }
  | .deliver => r.read.deliver.map fun read => { r with read := read }

/-- The observer of the call is active. -/
def isObserving (r : IssuedRead) : Bool := r.observer = .registered

end IssuedRead

/-- The read calls in the order in which they were made, and the view models that are gone. -/
structure Reads where
  calls : List IssuedRead := []
  gone : List ℕ := []

/-- A view model makes a call, something happens to a call, or a view model is deallocated. -/
inductive ReadsStep where
  | call (owner : ℕ) (userUid : Option Key) (c : ReadCall)
  | event (i : ℕ) (e : ReadEvent)
  | deinit (owner : ℕ)

namespace Reads

/-- One step of the calls. A deallocated view model cancels its subscriptions. -/
def step (s : Reads) : ReadsStep → Option Reads
  | .call owner userUid c =>
    if owner ∈ s.gone then none
    else (c.start owner userUid).map fun r => { s with calls := s.calls ++ [r] }
  | .event i e => s.calls[i]?.bind fun r =>
      (r.step (r.owner ∈ s.gone) e).map fun r' => { s with calls := s.calls.set i r' }
  | .deinit owner => some {
      calls := s.calls.map fun r => if r.owner = owner then { r with read := r.read.cancel } else r
      gone := owner :: s.gone }

/-- The number of active observers. -/
def observers (s : Reads) : ℕ := s.calls.countP IssuedRead.isObserving

/-- The number of live subscriptions to coupon feeds. -/
def liveFeeds (s : Reads) : ℕ := s.calls.countP fun r => r.read.isFeed && r.read.pending

/-- The number of requests whose result has not been delivered. -/
def pendingRequests (s : Reads) : ℕ := s.calls.countP fun r => !r.read.isFeed && r.read.pending

/-- The step registers an observer. -/
def registers (s : Reads) : ReadsStep → Bool
  | .call _ _ (.getPairCoupons pairUniqId) => pairUniqId.isSome
  | .event i .register => s.calls[i]?.any fun r => r.read.isFeed || r.owner ∉ s.gone
  | _ => false

/-- The call has an active observer. -/
def Observes (s : Reads) (i : ℕ) : Prop := ∃ r, s.calls[i]? = some r ∧ r.isObserving = true

end Reads

/-- The database cancels a listener. -/
def ReadsStep.cancelsListener : ReadsStep → Bool
  | .event _ (.listenerCancel _) => true
  | _ => false

namespace IssuedRead

variable {isOwnerGone : Bool} {r r' : IssuedRead} {e : ReadEvent}

/-- The block of a feed registers always, the block of a request as long as the view model is there. -/
theorem observer_of_register (h : r.register isOwnerGone = some r') :
    r'.isObserving = (r.read.isFeed || !isOwnerGone) := by
  unfold register at h
  cases hread : r.read with
  | coupons kind subject =>
    simp only [hread, Option.some.injEq] at h
    rw [← h]
    rfl
  | userInfo subscription =>
    simp only [hread, Option.some.injEq] at h
    rw [← h]
    cases isOwnerGone <;> rfl
  | pairEmail pairId subscription =>
    simp only [hread] at h
    cases isOwnerGone with
    | true =>
      cases h
      rfl
    | false =>
      simp only [Bool.false_eq_true, if_false] at h
      split at h
      · contradiction
      · cases h
        rfl

/-- What a step does to the observer: the block registers it, the database cancels it, and nothing else
touches it. -/
theorem isObserving_of_step (h : r.step isOwnerGone e = some r') : match e with
    | .register => r.isObserving = false ∧ r'.isObserving = (r.read.isFeed || !isOwnerGone)
    | .listenerCancel _ => r.isObserving = true ∧ r'.isObserving = false
    | _ => r'.isObserving = r.isObserving := by
  cases e with
  | register =>
    obtain ⟨hqueued, hregister⟩ := Option.ite_none_right_eq_some.mp h
    exact ⟨by simp [isObserving, hqueued], observer_of_register hregister⟩
  | snapshot value =>
    obtain ⟨-, hread⟩ := Option.ite_none_right_eq_some.mp h
    cases hread
    rfl
  | listenerCancel message =>
    obtain ⟨hregistered, hcancel⟩ := Option.ite_none_right_eq_some.mp h
    cases hcancel
    exact ⟨by simp [isObserving, hregistered], rfl⟩
  | timeout =>
    obtain ⟨-, htimeout⟩ := Option.ite_none_left_eq_some.mp h
    cases htimeout
    rfl
  | deliver =>
    obtain ⟨read, -, rfl⟩ := Option.map_eq_some_iff.mp h
    rfl

end IssuedRead

/-- A call registers at once only for the pair's coupons. -/
theorem ReadCall.isObserving_of_start {owner : ℕ} {userUid : Option Key} {c : ReadCall} {r : IssuedRead}
    (h : c.start owner userUid = some r) (s : Reads) :
    r.isObserving = s.registers (.call owner userUid c) := by
  cases c with
  | getUserInfo => cases userUid <;> cases h <;> rfl
  | getPairEmail pairId =>
    cases h
    rfl
  | getMyCoupons => cases userUid <;> cases h <;> rfl
  | getPairCoupons pairUniqId =>
    cases pairUniqId with
    | none =>
      cases h
      rfl
    | some pairUniqId =>
      simp only [start, LoveCoupons.getPairCoupons, pairReference] at h
      cases hpieces : rootChild pairUniqId with
      | none => simp [hpieces] at h
      | some pieces =>
        simp only [hpieces, Option.some.injEq] at h
        rw [← h]
        rfl

namespace Reads

variable {s t : Reads} {a : ReadsStep}

/-- Everything a step can do to the calls. -/
theorem step_cases (h : s.step a = some t) :
    (∃ owner userUid c r, a = .call owner userUid c ∧ c.start owner userUid = some r ∧
      t.calls = s.calls ++ [r]) ∨
    (∃ i e r r', a = .event i e ∧ s.calls[i]? = some r ∧ r.step (r.owner ∈ s.gone) e = some r' ∧
      t.calls = s.calls.set i r') ∨
    ∃ owner, a = .deinit owner ∧
      t.calls = s.calls.map fun r => if r.owner = owner then { r with read := r.read.cancel } else r := by
  cases a with
  | call owner userUid c =>
    obtain ⟨-, hcall⟩ := Option.ite_none_left_eq_some.mp h
    obtain ⟨r, hstart, rfl⟩ := Option.map_eq_some_iff.mp hcall
    exact .inl ⟨owner, userUid, c, r, rfl, hstart, rfl⟩
  | event i e =>
    obtain ⟨r, hget, hevent⟩ := Option.bind_eq_some_iff.mp h
    obtain ⟨r', hstep, rfl⟩ := Option.map_eq_some_iff.mp hevent
    exact .inr (.inl ⟨i, e, r, r', rfl, hget, hstep, rfl⟩)
  | deinit owner =>
    cases h
    exact .inr (.inr ⟨owner, rfl, rfl⟩)

/-- A deallocation leaves the observers of its calls. -/
theorem isObserving_cancel (owner : ℕ) (r : IssuedRead) :
    (if r.owner = owner then { r with read := r.read.cancel } else r).isObserving = r.isObserving := by
  split <;> rfl

/-- A step that registers adds an observer, a listener that the database cancels takes one away. -/
theorem observers_step (h : s.step a = some t) :
    t.observers + a.cancelsListener.toNat = s.observers + (s.registers a).toNat := by
  rcases step_cases h with ⟨owner, userUid, c, r, rfl, hstart, hcalls⟩ | ⟨i, e, r, r', rfl, hget, hstep, hcalls⟩ |
    ⟨owner, rfl, hcalls⟩
  · rw [observers, hcalls, List.countP_append, List.countP_singleton, ReadCall.isObserving_of_start hstart s]
    cases s.registers (.call owner userUid c) <;> rfl
  · have hset := Replace.countP_set_add IssuedRead.isObserving hget r'
    have hobserving := IssuedRead.isObserving_of_step hstep
    rw [observers, hcalls, observers]
    cases e with
    | register =>
      have hregisters : s.registers (.event i .register) = r'.isObserving := by
        rw [hobserving.2]
        simp [registers, hget]
      rw [hobserving.1] at hset
      rw [hregisters]
      exact hset
    | listenerCancel message =>
      rw [hobserving.1, hobserving.2] at hset
      exact hset
    | _ =>
      rw [hobserving] at hset
      exact Nat.add_right_cancel hset
  · rw [observers, hcalls, List.countP_map, observers]
    have hsame : IssuedRead.isObserving ∘ (fun r : IssuedRead =>
        if r.owner = owner then { r with read := r.read.cancel } else r) = IssuedRead.isObserving :=
      funext fun r => isObserving_cancel owner r
    rw [hsame]
    rfl

/-- An observer stays through every step but a cancellation of its listener. -/
theorem Observes.step {i : ℕ} (hi : s.Observes i) (h : s.step a = some t)
    (ha : ∀ message, a ≠ .event i (.listenerCancel message)) : t.Observes i := by
  obtain ⟨r, hget, hobserving⟩ := hi
  rcases step_cases h with ⟨owner, userUid, c, r', rfl, -, hcalls⟩ | ⟨j, e, r₁, r', rfl, hget', hstep, hcalls⟩ |
    ⟨owner, rfl, hcalls⟩
  · refine ⟨r, ?_, hobserving⟩
    rw [hcalls, List.getElem?_append_left (List.getElem?_eq_some_iff.mp hget).1, hget]
  · by_cases hji : j = i
    · subst hji
      obtain rfl : r = r₁ := Option.some.inj (hget.symm.trans hget')
      have hafter := IssuedRead.isObserving_of_step hstep
      refine ⟨r', ?_, ?_⟩
      · rw [hcalls, List.getElem?_set_self (List.getElem?_eq_some_iff.mp hget).1]
      · cases e with
        | register => exact absurd hafter.1 (by simp [hobserving])
        | listenerCancel message => exact absurd rfl (ha message)
        | _ => exact hafter.trans hobserving
    · refine ⟨r, ?_, hobserving⟩
      rw [hcalls, List.getElem?_set_ne hji, hget]
  · refine ⟨_, ?_, (isObserving_cancel owner r).trans hobserving⟩
    rw [hcalls, List.getElem?_map, hget]
    rfl

/-- An observer stays through every run in which its listener is not cancelled. -/
theorem Observes.run {i : ℕ} (hi : s.Observes i) {steps : List ReadsStep} (h : run Reads.step s steps = some t)
    (hsteps : ∀ message, .event i (.listenerCancel message) ∉ steps) : t.Observes i := by
  induction steps generalizing s with
  | nil => exact Option.some.inj h ▸ hi
  | cons a rest ih =>
    obtain ⟨next, ha, hrest⟩ := run_cons_eq_some.mp h
    have hnext : next.Observes i := by
      apply hi.step ha
      rintro message rfl
      exact hsteps message List.mem_cons_self
    exact ih hnext hrest fun message hmem => hsteps message (List.mem_cons_of_mem _ hmem)

end Reads

/-- Results, timeouts and deallocations release no observer: an active observer stays active until the
database cancels its listener, and the active observers are all that were registered less the cancelled
ones. -/
theorem observers_released_by_database {before after : List ReadsStep} {middle s : Reads}
    (hbefore : run Reads.step {} before = some middle) (hafter : run Reads.step middle after = some s) :
    (∀ i, middle.Observes i → (∀ message, .event i (.listenerCancel message) ∉ after) → s.Observes i) ∧
      s.observers + tally Reads.step (fun _ a => a.cancelsListener) {} (before ++ after) =
        tally Reads.step Reads.registers {} (before ++ after) := by
  have hrun := run_append_eq_some.mpr ⟨middle, hbefore, hafter⟩
  refine ⟨fun i hi hnot => hi.run hafter hnot, ?_⟩
  have hbalance := run_balance Reads.observers (fun _ _ _ h => Reads.observers_step h) hrun
  exact hbalance.trans (Nat.zero_add _)

/-- The user who opens the settings. -/
def settingsReader : Key := ⟨"uid-obs", by decide⟩

/-- The settings appear. -/
def settingsOpened : List ReadsStep :=
  [.call 0 (some settingsReader) .getUserInfo, .event 0 .register]

/-- The record is read and shown, and the settings are deallocated. -/
def settingsShownAndLeft : List ReadsStep :=
  [.event 0 (.snapshot (UserInfo.toAnyObject ⟨some "Ann", some "ann@mail", some "bob"⟩)), .event 0 .deliver,
    .event 0 .deliver, .deinit 0]

/-- The observer of the settings is active after they are gone. -/
theorem settingsShownAndLeft_observes : ∃ s,
    run Reads.step {} (settingsOpened ++ settingsShownAndLeft) = some s ∧ s.Observes 0 := by
  refine ⟨_, rfl, ?_⟩
  apply (@observers_released_by_database settingsOpened settingsShownAndLeft _ _ rfl rfl).1 0
  · exact ⟨_, rfl, rfl⟩
  · simp [settingsShownAndLeft]

/-- A request whose result was delivered has an active observer, and no call is live. -/
theorem observer_outlives_delivered_request : ¬ ∀ (steps : List ReadsStep) (s : Reads),
    run Reads.step {} steps = some s → s.observers ≤ s.liveFeeds + s.pendingRequests := by
  intro h
  have hbound := h (settingsOpened ++ settingsShownAndLeft) _ rfl
  revert hbound
  decide

end LoveCoupons
