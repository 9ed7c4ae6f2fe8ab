import Mathlib.Data.List.Basic

/-!
# Subscriptions to publishers

A subscription is open until its publisher completes or the subscriber cancels it. Events
reach the subscriber through the queue of one run loop, in the order in which they were
scheduled. Whatever arrives at a closed subscription is dropped, so the first completion
wins: a promise keeps its first result, and a timeout that fired first hides every later
result without stopping the work behind it.

A current-value subject replays its value to a new subscriber and stores every value sent
before its completion.
-/

namespace Reactive

variable {V E : Type}

/-- What a subscriber can receive. -/
inductive Event (V E : Type) where
  | value (v : V)
  | finished
  | failure (error : E)
  deriving DecidableEq

/-- Whether the publisher may still send, and the events scheduled for the subscriber. -/
structure Subscription (V E : Type) where
  isOpen : Bool
  queue : List (Event V E)

/-- The event reports a result. -/
def Event.isResult : Event V E → Bool
  | .finished => false
  | _ => true

/-- The value that an event brings. -/
def Event.value? : Event V E → Option V
  | .value v => some v
  | _ => none

namespace Subscription

/-- A subscription to a publisher that has sent nothing yet. -/
def fresh : Subscription V E := ⟨true, []⟩

/-- A cancelled subscription receives nothing more, not even what was already scheduled. -/
def cancelled : Subscription V E := ⟨false, []⟩

/-- Schedule one value and stay open. -/
def send (s : Subscription V E) (v : V) : Subscription V E :=
  if s.isOpen then ⟨true, s.queue ++ [.value v]⟩ else s

/-- Complete with a failure. -/
def fail (s : Subscription V E) (error : E) : Subscription V E :=
  if s.isOpen then ⟨false, s.queue ++ [.failure error]⟩ else s

/-- Keep the first promised result: a value followed by the end, or a failure. -/
def promise (s : Subscription V E) : Except E V → Subscription V E
  | .ok v => if s.isOpen then ⟨false, s.queue ++ [.value v, .finished]⟩ else s
  | .error error => s.fail error

/-- The subscriber will still receive a result. -/
def pending (s : Subscription V E) : Bool := s.isOpen || s.queue.any Event.isResult

/-- A promise leaves a pending subscription pending and a settled one settled. -/
@[simp] theorem pending_promise (s : Subscription V E) (result : Except E V) :
    (s.promise result).pending = s.pending := by
  cases hopen : s.isOpen <;> cases result <;> simp [promise, fail, pending, hopen, Event.isResult]

/-- A result arriving at a closed subscription is dropped. -/
theorem promise_of_closed {s : Subscription V E} (h : s.isOpen = false) (result : Except E V) :
    s.promise result = s := by
  cases result <;> simp [promise, fail, h]

/-- An open subscription is closed by its first result. -/
theorem promise_of_open {s : Subscription V E} (h : s.isOpen = true) (result : Except E V) :
    s.promise result = ⟨false, s.queue ++ match result with
      | .ok v => [.value v, .finished]
      | .error error => [.failure error]⟩ := by
  cases result <;> simp [promise, fail, h]

end Subscription

/-- A subject that remembers its latest value, with its one subscriber. -/
structure CurrentValueSubject (V E : Type) where
  value : V
  subscription : Subscription V E

namespace CurrentValueSubject

/-- Subscribing at once to a new subject replays the initial value. -/
def subscribed (v : V) : CurrentValueSubject V E := ⟨v, ⟨true, [.value v]⟩⟩

/-- Send a value; after a completion it is neither stored nor scheduled. -/
def send (s : CurrentValueSubject V E) (v : V) : CurrentValueSubject V E :=
  if s.subscription.isOpen then ⟨v, s.subscription.send v⟩ else s

/-- Complete the subject with a failure. -/
def sendFailure (s : CurrentValueSubject V E) (error : E) : CurrentValueSubject V E :=
  { s with subscription := s.subscription.fail error }

/-- A value sent to an open subject is stored and scheduled. -/
theorem send_of_open {s : CurrentValueSubject V E} (h : s.subscription.isOpen = true) (v : V) :
    s.send v = ⟨v, ⟨true, s.subscription.queue ++ [.value v]⟩⟩ := by
  simp [send, Subscription.send, h]

/-- A completed subject ignores every value. -/
theorem send_of_closed {s : CurrentValueSubject V E} (h : s.subscription.isOpen = false) (v : V) :
    s.send v = s := by
  simp [send, h]

/-- A completed subject ignores a second completion. -/
theorem sendFailure_of_closed {s : CurrentValueSubject V E} (h : s.subscription.isOpen = false)
    (error : E) : s.sendFailure error = s := by
  simp [sendFailure, Subscription.fail, h]

/-- A failure closes an open subject and is scheduled after the values sent before it. -/
theorem sendFailure_of_open {s : CurrentValueSubject V E} (h : s.subscription.isOpen = true)
    (error : E) : s.sendFailure error =
      ⟨s.value, ⟨false, s.subscription.queue ++ [.failure error]⟩⟩ := by
  simp [sendFailure, Subscription.fail, h]

end CurrentValueSubject

end Reactive
