import LoveCoupons.Lib.Chain
import LoveCoupons.Lib.Subscription

/-!
# Requests: callback chains behind a promise

A request runs a chain of service calls. Each call is answered once, at any later time;
the answer's callback then runs the rest of the chain up to its next call or up to the
promise that ends it. Calls of an ordered kind take effect when they are made, in the
order in which they are made, and only their callback comes later.

The subscriber sees the promise through a subscription. A timeout or a cancellation closes
that subscription and leaves the chain running.
-/

namespace Reactive

variable {B Call Answer V E : Type}

/-- The progress of a chain: a call waits for its answer, a callback waits to run, or nothing is left. -/
inductive Phase where
  | outstanding
  | replied
  | over
  deriving DecidableEq

/-- A chain with the answers it has received, and the subscription to its promise. -/
structure Request (Call Answer V E : Type) where
  origin : Chain Call Answer (Except E V)
  answers : List Answer
  phase : Phase
  subscription : Subscription V E

/-- A publisher that fails at once, or a future that runs a chain. -/
inductive Publisher (Call Answer V E : Type) where
  | fail (error : E)
  | future (chain : Chain Call Answer (Except E V))

/-- What can happen to a request: its call is answered, its callback runs, its timer fires, its next
event is delivered, or its subscriber cancels. The answer given to a callback belongs to the call
that the callback makes, if that call takes effect at once. -/
inductive Progress (Answer : Type) where
  | answer (a : Answer)
  | callback (a : Answer)
  | timeout
  | deliver
  | cancel

namespace Request

/-- What is left of the chain. -/
def rest (r : Request Call Answer V E) : Option (Chain Call Answer (Except E V)) :=
  r.origin.resume r.answers

/-- Record an answer, whose callback now waits to run. -/
def answered (r : Request Call Answer V E) (a : Answer) : Request Call Answer V E :=
  { r with answers := r.answers ++ [a], phase := .replied }

/-- Fulfil the promise at the end of the chain. -/
def resolved (r : Request Call Answer V E) (result : Except E V) : Request Call Answer V E :=
  { r with phase := .over, subscription := r.subscription.promise result }

/-- Run the chain up to its next call or its end. -/
def proceed (svc : Service B Call Answer) (b : B) (r : Request Call Answer V E) (a : Answer) :
    Option (B × Request Call Answer V E) :=
  match r.rest with
  | none => none
  | some (.done result) => some (b, r.resolved result)
  | some (.call c _) =>
    if svc.immediate c then (svc.respond b c a).map fun b' => (b', r.answered a)
    else some (b, { r with phase := .outstanding })

/-- Start a publisher and subscribe to it. -/
def subscribe (svc : Service B Call Answer) (b : B) (publisher : Publisher Call Answer V E) (a : Answer) :
    Option (B × Request Call Answer V E) :=
  match publisher with
  | .fail error => some (b, ⟨.done (.error error), [], .over, ⟨false, [.failure error]⟩⟩)
  | .future chain => proceed svc b ⟨chain, [], .replied, .fresh⟩ a

/-- One step of a request; `late` is the failure its timer reports. -/
def advance (svc : Service B Call Answer) (late : E) (b : B) (r : Request Call Answer V E) :
    Progress Answer → Option (B × Request Call Answer V E)
  | .answer a =>
    if r.phase = .outstanding then
      match r.rest with
      | some (.call c _) => (svc.respond b c a).map fun b' => (b', r.answered a)
      | _ => none
    else none
  | .callback a => if r.phase = .replied then r.proceed svc b a else none
  | .timeout =>
    if r.subscription.isOpen then some (b, { r with subscription := r.subscription.fail late }) else none
  | .deliver =>
    match r.subscription.queue with
    | [] => none
    | _ :: queue => some (b, { r with subscription := ⟨r.subscription.isOpen, queue⟩ })
  | .cancel => some (b, { r with subscription := .cancelled })

/-- Everything one run of the chain can do. -/
inductive Proceeds (svc : Service B Call Answer) (b : B) (r : Request Call Answer V E) (a : Answer) :
    B → Request Call Answer V E → Prop where
  | resolve {result : Except E V} (hrest : r.rest = some (.done result)) :
      Proceeds svc b r a b (r.resolved result)
  | act {c : Call} {next : Answer → Chain Call Answer (Except E V)} {b' : B}
      (hrest : r.rest = some (.call c next)) (himm : svc.immediate c = true)
      (hrespond : svc.respond b c a = some b') : Proceeds svc b r a b' (r.answered a)
  | await {c : Call} {next : Answer → Chain Call Answer (Except E V)}
      (hrest : r.rest = some (.call c next)) (himm : svc.immediate c = false) :
      Proceeds svc b r a b { r with phase := .outstanding }

/-- Running the chain does one of the listed things. -/
theorem proceed_cases {svc : Service B Call Answer} {b b' : B} {r r' : Request Call Answer V E}
    {a : Answer} (h : r.proceed svc b a = some (b', r')) : Proceeds svc b r a b' r' := by
  unfold proceed at h
  cases hrest : r.rest with
  | none => simp [hrest] at h
  | some chain =>
    cases chain with
    | done result =>
      simp only [hrest, Option.some.injEq, Prod.mk.injEq] at h
      obtain ⟨rfl, rfl⟩ := h
      exact .resolve hrest
    | call c next =>
      simp only [hrest] at h
      cases himm : svc.immediate c with
      | true =>
        rw [himm, if_pos rfl] at h
        obtain ⟨next', hrespond, heq⟩ := Option.map_eq_some_iff.mp h
        cases heq
        exact .act hrest himm hrespond
      | false =>
        rw [himm, if_neg Bool.false_ne_true] at h
        cases h
        exact .await hrest himm

/-- Everything one step of a request can do. -/
inductive Advances (svc : Service B Call Answer) (late : E) (b : B) (r : Request Call Answer V E) :
    Progress Answer → B → Request Call Answer V E → Prop where
  | answer {a : Answer} {c : Call} {next : Answer → Chain Call Answer (Except E V)} {b' : B}
      (hphase : r.phase = .outstanding) (hrest : r.rest = some (.call c next))
      (hrespond : svc.respond b c a = some b') : Advances svc late b r (.answer a) b' (r.answered a)
  | callback {a : Answer} {b' : B} {r' : Request Call Answer V E} (hphase : r.phase = .replied)
      (hproceed : Proceeds svc b r a b' r') : Advances svc late b r (.callback a) b' r'
  | timeout (hopen : r.subscription.isOpen = true) : Advances svc late b r .timeout b
      { r with subscription := ⟨false, r.subscription.queue ++ [.failure late]⟩ }
  | deliver {event : Event V E} {queue : List (Event V E)}
      (hqueue : r.subscription.queue = event :: queue) : Advances svc late b r .deliver b
      { r with subscription := ⟨r.subscription.isOpen, queue⟩ }
  | cancel : Advances svc late b r .cancel b { r with subscription := .cancelled }

/-- A step of a request does one of the listed things. -/
theorem advance_cases {svc : Service B Call Answer} {late : E} {b b' : B}
    {r r' : Request Call Answer V E} {p : Progress Answer}
    (h : r.advance svc late b p = some (b', r')) : Advances svc late b r p b' r' := by
  cases p with
  | answer a =>
    simp only [advance] at h
    split at h
    · cases hrest : r.rest with
      | none => simp [hrest] at h
      | some chain =>
        cases chain with
        | done result => simp [hrest] at h
        | call c next =>
          simp only [hrest] at h
          obtain ⟨next', hrespond, heq⟩ := Option.map_eq_some_iff.mp h
          cases heq
          exact .answer ‹_› hrest hrespond
    · contradiction
  | callback a =>
    simp only [advance] at h
    split at h
    · exact .callback ‹_› (proceed_cases h)
    · contradiction
  | timeout =>
    simp only [advance] at h
    split at h
    · cases h
      rename_i hopen
      rw [Subscription.fail, if_pos hopen]
      exact .timeout hopen
    · contradiction
  | deliver =>
    simp only [advance] at h
    split at h
    · contradiction
    · cases h
      exact .deliver ‹_›
  | cancel =>
    simp only [advance] at h
    cases h
    exact .cancel

/-- A finished chain stays as it is. -/
theorem Advances.over {svc : Service B Call Answer} {late : E} {b b' : B} {r r' : Request Call Answer V E}
    {p : Progress Answer} (h : Advances svc late b r p b' r') (hover : r.phase = .over) :
    r'.phase = .over ∧ r'.rest = r.rest := by
  cases h with
  | answer hphase _ _ => simp [hover] at hphase
  | callback hphase _ => simp [hover] at hphase
  | timeout _ => exact ⟨hover, rfl⟩
  | deliver _ => exact ⟨hover, rfl⟩
  | cancel => exact ⟨hover, rfl⟩

/-- A chain that has come to its end changes nothing more. -/
theorem Advances.of_done {svc : Service B Call Answer} {late : E} {b b' : B} {r r' : Request Call Answer V E}
    {p : Progress Answer} (h : Advances svc late b r p b' r') {result : Except E V}
    (hdone : r.rest = some (.done result)) : b' = b ∧ r'.rest = r.rest := by
  cases h with
  | answer _ hrest _ => cases hdone.symm.trans hrest
  | callback _ hproceed =>
    cases hproceed with
    | resolve _ => exact ⟨rfl, rfl⟩
    | act hrest _ _ => cases hdone.symm.trans hrest
    | await hrest _ => cases hdone.symm.trans hrest
  | timeout _ => exact ⟨rfl, rfl⟩
  | deliver _ => exact ⟨rfl, rfl⟩
  | cancel => exact ⟨rfl, rfl⟩

end Request

end Reactive
