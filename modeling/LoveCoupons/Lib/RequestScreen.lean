import LoveCoupons.Lib.RequestPool

/-!
# Screens that act on the results of requests

A press on a screen starts a request. A failure of a request ends the press with an action;
a value ends it with an action or starts the request of a next stage. Presses overlap in any
order, and the answers, callbacks, timers and deliveries of their requests interleave.
-/

namespace Reactive

variable {B Call Answer V E S A : Type}

/-- What a screen does: the publisher of each stage, what a value and what a failure lead to. -/
structure Flow (B Call Answer V E S A : Type) where
  publisher : B → S → Publisher Call Answer V E
  onValue : S → A ⊕ S
  onFailure : E → A

/-- The requests of a screen, tagged with their press and stage, the stages that the presses started
with, the loading flag and the actions taken so far. -/
structure Screen (B Call Answer V E S A : Type) where
  pool : Pool B Call Answer V E (ℕ × S)
  presses : List S
  isShowLoading : Bool
  outcomes : List (ℕ × A)

/-- A press, a step of a request short of a delivery, or a delivery. The answers belong to calls that
take effect at once. -/
inductive ScreenStep (S Answer : Type) where
  | press (stage : S) (a : Answer)
  | progress (i : ℕ) (p : Progress Answer)
  | deliver (i : ℕ) (a : Answer)

/-- The steps that a request takes by itself. -/
def Progress.isWork : Progress Answer → Bool
  | .deliver => false
  | .cancel => false
  | _ => true

namespace Screen

/-- A screen that was just opened. -/
def opened (b : B) : Screen B Call Answer V E S A := ⟨.empty b, [], false, []⟩

/-- What the subscriber of a stage does with an event. -/
def receive (flow : Flow B Call Answer V E S A) (svc : Service B Call Answer)
    (s : Screen B Call Answer V E S A) (press : ℕ) (stage : S) (event : Event V E) (a : Answer) :
    Option (Screen B Call Answer V E S A) :=
  match event with
  | .value _ =>
    match flow.onValue stage with
    | .inl action => some { s with isShowLoading := false, outcomes := s.outcomes ++ [(press, action)] }
    | .inr next =>
      (s.pool.subscribe svc (press, next) (flow.publisher s.pool.backend next) a).map fun pool =>
        { s with pool := pool }
  | .finished => some { s with isShowLoading := false }
  | .failure error => some { s with
      isShowLoading := false
      outcomes := s.outcomes ++ [(press, flow.onFailure error)] }

/-- One step of the screen. -/
def step (flow : Flow B Call Answer V E S A) (svc : Service B Call Answer) (late : E)
    (s : Screen B Call Answer V E S A) : ScreenStep S Answer → Option (Screen B Call Answer V E S A)
  | .press stage a =>
    (s.pool.subscribe svc (s.presses.length, stage) (flow.publisher s.pool.backend stage) a).map fun pool =>
      { s with pool := pool, presses := s.presses ++ [stage], isShowLoading := true }
  | .progress i p =>
    if p.isWork then (s.pool.advance svc late i p).map fun pool => { s with pool := pool } else none
  | .deliver i a =>
    s.pool.requests[i]?.bind fun entry => entry.2.subscription.queue.head?.bind fun event =>
      (s.pool.advance svc late i .deliver).bind fun pool =>
        receive flow svc { s with pool := pool } entry.1.1 entry.1.2 event a

/-- Everything one step of a screen can do. -/
inductive Steps (flow : Flow B Call Answer V E S A) (svc : Service B Call Answer) (late : E)
    (s : Screen B Call Answer V E S A) :
    ScreenStep S Answer → Screen B Call Answer V E S A → Prop where
  | press {stage : S} {a : Answer} {b : B} {r : Request Call Answer V E}
      (hstart : Request.subscribe svc s.pool.backend (flow.publisher s.pool.backend stage) a = some (b, r)) :
      Steps flow svc late s (.press stage a) { s with
        pool := s.pool.add (s.presses.length, stage) b r
        presses := s.presses ++ [stage]
        isShowLoading := true }
  | work {i : ℕ} {p : Progress Answer} {tag : ℕ × S} {r r' : Request Call Answer V E} {b : B}
      (hwork : p.isWork = true) (hget : s.pool.requests[i]? = some (tag, r))
      (hadvance : r.advance svc late s.pool.backend p = some (b, r')) :
      Steps flow svc late s (.progress i p) { s with pool := s.pool.update i tag b r r' }
  | act {i press : ℕ} {a : Answer} {stage : S} {r r' : Request Call Answer V E} {b : B} {v : V} {action : A}
      (hget : s.pool.requests[i]? = some ((press, stage), r))
      (hadvance : r.advance svc late s.pool.backend .deliver = some (b, r'))
      (hevent : r.subscription.queue.head? = some (.value v)) (hvalue : flow.onValue stage = .inl action) :
      Steps flow svc late s (.deliver i a) { s with
        pool := s.pool.update i (press, stage) b r r'
        isShowLoading := false
        outcomes := s.outcomes ++ [(press, action)] }
  | next {i press : ℕ} {a : Answer} {stage next : S} {r r' r'' : Request Call Answer V E} {b b' : B} {v : V}
      (hget : s.pool.requests[i]? = some ((press, stage), r))
      (hadvance : r.advance svc late s.pool.backend .deliver = some (b, r'))
      (hevent : r.subscription.queue.head? = some (.value v)) (hvalue : flow.onValue stage = .inr next)
      (hstart : Request.subscribe svc b (flow.publisher b next) a = some (b', r'')) :
      Steps flow svc late s (.deliver i a) { s with
        pool := (s.pool.update i (press, stage) b r r').add (press, next) b' r'' }
  | finish {i press : ℕ} {a : Answer} {stage : S} {r r' : Request Call Answer V E} {b : B}
      (hget : s.pool.requests[i]? = some ((press, stage), r))
      (hadvance : r.advance svc late s.pool.backend .deliver = some (b, r'))
      (hevent : r.subscription.queue.head? = some .finished) :
      Steps flow svc late s (.deliver i a) { s with
        pool := s.pool.update i (press, stage) b r r'
        isShowLoading := false }
  | fail {i press : ℕ} {a : Answer} {stage : S} {r r' : Request Call Answer V E} {b : B} {error : E}
      (hget : s.pool.requests[i]? = some ((press, stage), r))
      (hadvance : r.advance svc late s.pool.backend .deliver = some (b, r'))
      (hevent : r.subscription.queue.head? = some (.failure error)) :
      Steps flow svc late s (.deliver i a) { s with
        pool := s.pool.update i (press, stage) b r r'
        isShowLoading := false
        outcomes := s.outcomes ++ [(press, flow.onFailure error)] }

/-- A step of a screen does one of the listed things. -/
theorem step_cases {flow : Flow B Call Answer V E S A} {svc : Service B Call Answer} {late : E}
    {s s' : Screen B Call Answer V E S A} {a : ScreenStep S Answer}
    (h : s.step flow svc late a = some s') : Steps flow svc late s a s' := by
  cases a with
  | press stage a =>
    obtain ⟨pool, hsub, rfl⟩ := Option.map_eq_some_iff.mp h
    obtain ⟨b, r, hstart, rfl⟩ := Pool.subscribe_cases hsub
    exact .press hstart
  | progress i p =>
    simp only [step] at h
    split at h
    · obtain ⟨pool, hadv, rfl⟩ := Option.map_eq_some_iff.mp h
      obtain ⟨tag, r, b, r', hget, hadvance, rfl⟩ := Pool.advance_cases hadv
      exact .work ‹_› hget hadvance
    · contradiction
  | deliver i a =>
    obtain ⟨⟨⟨press, stage⟩, r⟩, hget, h⟩ := Option.bind_eq_some_iff.mp h
    obtain ⟨event, hevent, h⟩ := Option.bind_eq_some_iff.mp h
    obtain ⟨pool, hadv, hreceive⟩ := Option.bind_eq_some_iff.mp h
    obtain ⟨tag, r₀, b, r', hget', hadvance, rfl⟩ := Pool.advance_cases hadv
    obtain ⟨rfl, rfl⟩ : (press, stage) = tag ∧ r = r₀ := by simpa using hget.symm.trans hget'
    cases event with
    | value v =>
      simp only [receive] at hreceive
      cases hvalue : flow.onValue stage with
      | inl action =>
        simp only [hvalue, Option.some.injEq] at hreceive
        subst hreceive
        exact .act hget hadvance hevent hvalue
      | inr next =>
        simp only [hvalue] at hreceive
        obtain ⟨pool, hsub, rfl⟩ := Option.map_eq_some_iff.mp hreceive
        obtain ⟨b', r'', hstart, rfl⟩ := Pool.subscribe_cases hsub
        exact .next hget hadvance hevent hvalue hstart
    | finished =>
      simp only [receive, Option.some.injEq] at hreceive
      subst hreceive
      exact .finish hget hadvance hevent
    | failure error =>
      simp only [receive, Option.some.injEq] at hreceive
      subst hreceive
      exact .fail hget hadvance hevent

end Screen

end Reactive
