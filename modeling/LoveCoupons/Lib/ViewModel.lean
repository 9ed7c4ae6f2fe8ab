import LoveCoupons.Lib.Runs
import LoveCoupons.Lib.Subscription

/-!
# View models and their requests

A view model has published fields and any number of subscriptions. An action of the user may
start a request. An event of a request is handled when the run loop delivers it, and its
handler may start a further request. A handler that raises an exception ends the process, so it
leaves no state.

What the publishers send, and when, is left open here: a future promises one result at any
time, a subject replays its value to the new subscriber and may send more until it fails. Only
a value that is there from the start is sent at once, and nothing after it.
-/

namespace Reactive

variable {M K A : Type} {Val Err : K → Type}

/-- How a publisher begins: a future has sent nothing, a subject replays its value, and a value that is there
from the start is sent and ends the publisher. -/
inductive Source (V : Type) where
  | future
  | subject (initial : V)
  | just (value : V)

/-- The publishers of a view model, its actions and its handlers. An action that is not possible and a
handler that raises have no result; the others change the fields and may start a request. -/
structure ViewModel (M K A : Type) (Val Err : K → Type) where
  source : (k : K) → Source (Val k)
  act : M → A → Option (M × Option K)
  receive : M → (k : K) → Event (Val k) (Err k) → Option (M × Option K)

/-- A request with its subscription and the number of results that its handler has received. -/
structure LiveRequest (Val Err : K → Type) where
  kind : K
  subscription : Subscription (Val kind) (Err kind)
  received : ℕ

namespace LiveRequest

/-- A new subscription. -/
def opened (vm : ViewModel M K A Val Err) (k : K) : LiveRequest Val Err :=
  match vm.source k with
  | .future => ⟨k, .fresh, 0⟩
  | .subject initial => ⟨k, ⟨true, [.value initial]⟩, 0⟩
  | .just value => ⟨k, ⟨false, [.value value, .finished]⟩, 0⟩

/-- The kind of a new request. -/
@[simp] theorem kind_opened (vm : ViewModel M K A Val Err) (k : K) : (opened vm k).kind = k := by
  unfold opened
  cases vm.source k <;> rfl

/-- A new request has received nothing. -/
@[simp] theorem received_opened (vm : ViewModel M K A Val Err) (k : K) : (opened vm k).received = 0 := by
  unfold opened
  cases vm.source k <;> rfl

/-- The publisher of the request completes: a future with its result, a subject with a failure. -/
def complete (vm : ViewModel M K A Val Err) (r : LiveRequest Val Err) (reply : Except (Err r.kind) (Val r.kind)) :
    Option (LiveRequest Val Err) :=
  match vm.source r.kind, reply with
  | .future, reply => some { r with subscription := r.subscription.promise reply }
  | .subject _, .error error => some { r with subscription := r.subscription.fail error }
  | .subject _, .ok _ => none
  | .just _, _ => none

/-- The subject of the request sends a value. -/
def send (vm : ViewModel M K A Val Err) (r : LiveRequest Val Err) (value : Val r.kind) :
    Option (LiveRequest Val Err) :=
  match vm.source r.kind with
  | .subject _ => some { r with subscription := r.subscription.send value }
  | _ => none

/-- The handler has received the event at the head of the queue. -/
def delivered (r : LiveRequest Val Err) (event : Event (Val r.kind) (Err r.kind))
    (queue : List (Event (Val r.kind) (Err r.kind))) : LiveRequest Val Err :=
  ⟨r.kind, ⟨r.subscription.isOpen, queue⟩, if event.isResult then r.received + 1 else r.received⟩

/-- A delivery takes no result back. -/
theorem received_le_delivered (r : LiveRequest Val Err) (event : Event (Val r.kind) (Err r.kind))
    (queue : List (Event (Val r.kind) (Err r.kind))) : r.received ≤ (r.delivered event queue).received := by
  unfold delivered
  cases event.isResult <;> simp

/-- A future has one result: it is still open, or the result is scheduled, or it was received. -/
def OneResult (vm : ViewModel M K A Val Err) (r : LiveRequest Val Err) : Prop :=
  vm.source r.kind = .future →
    r.subscription.isOpen.toNat + r.subscription.queue.countP Event.isResult + r.received = 1

/-- A new request has one result to come. -/
theorem oneResult_opened (vm : ViewModel M K A Val Err) (k : K) : (opened vm k).OneResult vm := by
  unfold opened
  cases hsource : vm.source k with
  | future =>
    intro _
    rfl
  | subject initial =>
    intro h
    cases hsource.symm.trans h
  | just value =>
    intro h
    cases hsource.symm.trans h

/-- A completion changes the subscription only, and a future completes once. -/
theorem complete_cases {vm : ViewModel M K A Val Err} {r r' : LiveRequest Val Err}
    {reply : Except (Err r.kind) (Val r.kind)} (h : r.complete vm reply = some r') :
    ∃ subscription, r' = { r with subscription := subscription } ∧ (r.OneResult vm → r'.OneResult vm) := by
  unfold complete at h
  cases hsource : vm.source r.kind with
  | future =>
    simp only [hsource, Option.some.injEq] at h
    subst h
    refine ⟨_, rfl, fun hone hfuture => ?_⟩
    have hsum := hone hfuture
    cases hopen : r.subscription.isOpen with
    | false => rwa [Subscription.promise_of_closed hopen]
    | true =>
      rw [hopen, Bool.toNat_true] at hsum
      rw [Subscription.promise_of_open hopen, List.countP_append]
      cases reply <;> simp [List.countP_cons, Event.isResult] <;> omega
  | subject initial =>
    have hkeep : ∀ subscription, ({ r with subscription := subscription } : LiveRequest Val Err).OneResult vm := by
      intro subscription hfuture
      cases hsource.symm.trans hfuture
    cases reply with
    | ok value => simp [hsource] at h
    | error error =>
      simp only [hsource, Option.some.injEq] at h
      subst h
      exact ⟨_, rfl, fun _ => hkeep _⟩
  | just value => simp [hsource] at h

/-- A value that is sent changes the subscription of a subject only. -/
theorem send_cases {vm : ViewModel M K A Val Err} {r r' : LiveRequest Val Err} {value : Val r.kind}
    (h : r.send vm value = some r') :
    ∃ subscription, r' = { r with subscription := subscription } ∧ (r.OneResult vm → r'.OneResult vm) := by
  unfold send at h
  cases hsource : vm.source r.kind with
  | future => simp [hsource] at h
  | subject initial =>
    simp only [hsource, Option.some.injEq] at h
    subst h
    refine ⟨_, rfl, fun _ hfuture => ?_⟩
    cases hsource.symm.trans hfuture
  | just value => simp [hsource] at h

/-- A delivery counts the result that it takes from the queue. -/
theorem OneResult.delivered {vm : ViewModel M K A Val Err} {r : LiveRequest Val Err} (hr : r.OneResult vm)
    {event : Event (Val r.kind) (Err r.kind)} {queue : List (Event (Val r.kind) (Err r.kind))}
    (hqueue : r.subscription.queue = event :: queue) : (r.delivered event queue).OneResult vm := by
  intro hfuture
  have hsum := hr hfuture
  rw [hqueue, List.countP_cons] at hsum
  unfold LiveRequest.delivered
  cases hresult : event.isResult <;> simp [hresult] at hsum ⊢ <;> omega

/-- A future whose result is scheduled has received nothing. -/
theorem OneResult.received_eq_zero {vm : ViewModel M K A Val Err} {r : LiveRequest Val Err}
    (hr : r.OneResult vm) (hfuture : vm.source r.kind = .future) {event : Event (Val r.kind) (Err r.kind)}
    {queue : List (Event (Val r.kind) (Err r.kind))} (hqueue : r.subscription.queue = event :: queue)
    (hresult : event.isResult = true) : r.received = 0 := by
  have hsum := hr hfuture
  rw [hqueue, List.countP_cons, if_pos hresult] at hsum
  omega

end LiveRequest

/-- The fields of a view model and the requests it has started, in their order. -/
structure Host (M : Type) (Val Err : K → Type) where
  fields : M
  requests : List (LiveRequest Val Err)

/-- An action, the completion of a publisher, a value of a subject, or the delivery of the next event
of a request. A reply is given for each kind of request; the one for the kind at hand is used. -/
inductive HostStep (A : Type) (Val Err : K → Type) where
  | act (a : A)
  | complete (i : ℕ) (reply : (k : K) → Except (Err k) (Val k))
  | send (i : ℕ) (value : (k : K) → Val k)
  | deliver (i : ℕ)

namespace Host

/-- Change the fields and start a request, if any. -/
def start (vm : ViewModel M K A Val Err) (s : Host M Val Err) (fields : M) (next : Option K) : Host M Val Err :=
  ⟨fields, s.requests ++ (next.map (LiveRequest.opened vm)).toList⟩

/-- A view model before it starts a request. -/
def opened (fields : M) : Host M Val Err := ⟨fields, []⟩

/-- A view model whose initializer starts a request. -/
def launched (vm : ViewModel M K A Val Err) (fields : M) (k : K) : Host M Val Err :=
  ⟨fields, [LiveRequest.opened vm k]⟩

/-- One step of a view model. -/
def step (vm : ViewModel M K A Val Err) (s : Host M Val Err) : HostStep A Val Err → Option (Host M Val Err)
  | .act a => (vm.act s.fields a).map fun result => s.start vm result.1 result.2
  | .complete i reply => s.requests[i]?.bind fun r =>
      (r.complete vm (reply r.kind)).map fun r' => { s with requests := s.requests.set i r' }
  | .send i value => s.requests[i]?.bind fun r =>
      (r.send vm (value r.kind)).map fun r' => { s with requests := s.requests.set i r' }
  | .deliver i => s.requests[i]?.bind fun r =>
      match r.subscription.queue with
      | [] => none
      | event :: queue => (vm.receive s.fields r.kind event).map fun result =>
          start vm { s with requests := s.requests.set i (r.delivered event queue) } result.1 result.2

/-- Everything one step of a view model can do. -/
inductive Steps (vm : ViewModel M K A Val Err) (s : Host M Val Err) :
    HostStep A Val Err → Host M Val Err → Prop where
  | act {a : A} {fields : M} {next : Option K} (hact : vm.act s.fields a = some (fields, next)) :
      Steps vm s (.act a) (s.start vm fields next)
  | complete {i : ℕ} {reply : (k : K) → Except (Err k) (Val k)} {r : LiveRequest Val Err}
      {subscription : Subscription (Val r.kind) (Err r.kind)} (hget : s.requests[i]? = some r)
      (hone : r.OneResult vm → LiveRequest.OneResult vm { r with subscription := subscription }) :
      Steps vm s (.complete i reply)
        { s with requests := s.requests.set i { r with subscription := subscription } }
  | send {i : ℕ} {value : (k : K) → Val k} {r : LiveRequest Val Err}
      {subscription : Subscription (Val r.kind) (Err r.kind)} (hget : s.requests[i]? = some r)
      (hone : r.OneResult vm → LiveRequest.OneResult vm { r with subscription := subscription }) :
      Steps vm s (.send i value)
        { s with requests := s.requests.set i { r with subscription := subscription } }
  | deliver {i : ℕ} {r : LiveRequest Val Err} {event : Event (Val r.kind) (Err r.kind)}
      {queue : List (Event (Val r.kind) (Err r.kind))} {fields : M} {next : Option K}
      (hget : s.requests[i]? = some r) (hqueue : r.subscription.queue = event :: queue)
      (hreceive : vm.receive s.fields r.kind event = some (fields, next)) :
      Steps vm s (.deliver i)
        (start vm { s with requests := s.requests.set i (r.delivered event queue) } fields next)

/-- A step of a view model does one of the listed things. -/
theorem step_cases {vm : ViewModel M K A Val Err} {s s' : Host M Val Err} {a : HostStep A Val Err}
    (h : s.step vm a = some s') : Steps vm s a s' := by
  cases a with
  | act a =>
    obtain ⟨⟨fields, next⟩, hact, rfl⟩ := Option.map_eq_some_iff.mp h
    exact .act hact
  | complete i reply =>
    obtain ⟨r, hget, h⟩ := Option.bind_eq_some_iff.mp h
    obtain ⟨r', hcomplete, rfl⟩ := Option.map_eq_some_iff.mp h
    obtain ⟨subscription, rfl, hone⟩ := LiveRequest.complete_cases hcomplete
    exact .complete hget hone
  | send i value =>
    obtain ⟨r, hget, h⟩ := Option.bind_eq_some_iff.mp h
    obtain ⟨r', hsend, rfl⟩ := Option.map_eq_some_iff.mp h
    obtain ⟨subscription, rfl, hone⟩ := LiveRequest.send_cases hsend
    exact .send hget hone
  | deliver i =>
    obtain ⟨r, hget, h⟩ := Option.bind_eq_some_iff.mp h
    cases hqueue : r.subscription.queue with
    | nil => simp [hqueue] at h
    | cons event queue =>
      simp only [hqueue] at h
      obtain ⟨⟨fields, next⟩, hreceive, rfl⟩ := Option.map_eq_some_iff.mp h
      exact .deliver hget hqueue hreceive

/-- The requests after a start: the earlier ones and the new one. -/
theorem mem_start {vm : ViewModel M K A Val Err} {s : Host M Val Err} {fields : M} {next : Option K}
    {r : LiveRequest Val Err} : r ∈ (s.start vm fields next).requests ↔
      r ∈ s.requests ∨ ∃ k, next = some k ∧ r = LiveRequest.opened vm k := by
  cases next with
  | none => simp [start]
  | some k => simp [start]

/-- Every request of the view model has one result if it is a future. -/
def OneResults (vm : ViewModel M K A Val Err) (s : Host M Val Err) : Prop := ∀ r ∈ s.requests, r.OneResult vm

/-- A view model that has started nothing. -/
theorem oneResults_opened {vm : ViewModel M K A Val Err} (fields : M) : OneResults vm (opened fields) := by
  intro r hr
  cases hr

/-- A view model that has started its first request. -/
theorem oneResults_launched {vm : ViewModel M K A Val Err} (fields : M) (k : K) :
    OneResults vm (launched vm fields k) := by
  intro r hr
  rw [List.mem_singleton.mp hr]
  exact LiveRequest.oneResult_opened vm k

/-- Starting a request keeps the one result of each. -/
theorem OneResults.start {vm : ViewModel M K A Val Err} {s : Host M Val Err} (hs : s.OneResults vm) (fields : M)
    (next : Option K) : (s.start vm fields next).OneResults vm := by
  intro r hr
  rcases mem_start.mp hr with hold | ⟨k, -, rfl⟩
  · exact hs r hold
  · exact LiveRequest.oneResult_opened vm k

/-- Replacing a request keeps the one result of each. -/
theorem OneResults.set {vm : ViewModel M K A Val Err} {s : Host M Val Err} (hs : s.OneResults vm) (i : ℕ)
    {r : LiveRequest Val Err} (hr : r.OneResult vm) :
    OneResults vm { s with requests := s.requests.set i r } := by
  intro r' hr'
  rcases List.mem_or_eq_of_mem_set hr' with hold | rfl
  · exact hs r' hold
  · exact hr

/-- Every step keeps the one result of each request. -/
theorem OneResults.step {vm : ViewModel M K A Val Err} {s s' : Host M Val Err} {a : HostStep A Val Err}
    (hs : s.OneResults vm) (h : s.step vm a = some s') : s'.OneResults vm := by
  cases step_cases h with
  | act hact => exact hs.start _ _
  | complete hget hone => exact hs.set _ (hone (hs _ (List.mem_of_getElem? hget)))
  | send hget hone => exact hs.set _ (hone (hs _ (List.mem_of_getElem? hget)))
  | deliver hget hqueue hreceive =>
    exact (hs.set _ ((hs _ (List.mem_of_getElem? hget)).delivered hqueue)).start _ _

end Host

end Reactive
