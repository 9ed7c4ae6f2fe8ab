import LoveCoupons.Lib.Request

/-!
# Valid requests

The answers of a request fit its chain, its phase says what is left of the chain, and its
subscriber is sent at most one result: the one that the chain promised, or the failure of the
timer. Every request starts so and every step keeps it so. A call that takes effect at once is
never waited for.
-/

namespace Reactive

variable {B Call Answer V E : Type}

namespace Request

/-- What holds of every request from its start: its answers fit its chain, its phase fits what is
left of the chain, and the events scheduled for the subscriber come from the promise or the timer. -/
structure Valid (late : E) (r : Request Call Answer V E) : Prop where
  outstanding_call : r.phase = .outstanding → ∃ c next, r.rest = some (.call c next)
  replied_rest : r.phase = .replied → ∃ chain, r.rest = some chain
  over_done : r.phase = .over → ∃ result, r.rest = some (.done result)
  open_queue : r.subscription.isOpen = true → r.subscription.queue = [] ∧ r.phase ≠ .over
  value_promised : ∀ v, .value v ∈ r.subscription.queue →
    r.phase = .over ∧ r.rest = some (.done (.ok v))
  failure_cause : ∀ e, .failure e ∈ r.subscription.queue →
    e = late ∨ (r.phase = .over ∧ r.rest = some (.done (.error e)))
  queue_shape : r.subscription.queue = [] ∨ (∃ v, r.subscription.queue = [.value v, .finished]) ∨
    r.subscription.queue = [.finished] ∨ ∃ e, r.subscription.queue = [.failure e]

/-- The answers of a valid request fit its chain. -/
theorem Valid.exists_rest {late : E} {r : Request Call Answer V E} (hr : r.Valid late) :
    ∃ chain, r.rest = some chain := by
  match hphase : r.phase with
  | .outstanding =>
    obtain ⟨c, next, hrest⟩ := hr.outstanding_call hphase
    exact ⟨_, hrest⟩
  | .replied => exact hr.replied_rest hphase
  | .over =>
    obtain ⟨result, hrest⟩ := hr.over_done hphase
    exact ⟨_, hrest⟩

/-- An answer continues the call at the head of what is left. -/
theorem rest_answered {r : Request Call Answer V E} {c : Call}
    {next : Answer → Chain Call Answer (Except E V)} (h : r.rest = some (.call c next)) (a : Answer) :
    (r.answered a).rest = some (next a) := Chain.resume_concat h a

/-- Recording the answer of a pending call keeps a request valid. -/
theorem Valid.answered {late : E} {r : Request Call Answer V E} (hr : r.Valid late) {c : Call}
    {next : Answer → Chain Call Answer (Except E V)} (hrest : r.rest = some (.call c next)) (a : Answer) :
    (r.answered a).Valid late where
  outstanding_call := by simp [Request.answered]
  replied_rest := fun _ => ⟨_, rest_answered hrest a⟩
  over_done := by simp [Request.answered]
  open_queue := fun h => ⟨(hr.open_queue h).1, by simp [Request.answered]⟩
  value_promised := by
    intro v hv
    have := (hr.value_promised v hv).2
    simp [hrest] at this
  failure_cause := by
    intro e he
    rcases hr.failure_cause e he with h | ⟨_, h⟩
    · exact .inl h
    · simp [hrest] at h
  queue_shape := hr.queue_shape

/-- Fulfilling the promise at the end of the chain keeps a request valid. -/
theorem Valid.resolved {late : E} {r : Request Call Answer V E} (hr : r.Valid late) {result : Except E V}
    (hrest : r.rest = some (.done result)) (hphase : r.phase ≠ .over) : (r.resolved result).Valid late := by
  have hrest' : (r.resolved result).rest = some (.done result) := hrest
  cases hopen : r.subscription.isOpen with
  | false =>
    have hsub : (r.resolved result).subscription = r.subscription :=
      Subscription.promise_of_closed hopen result
    refine ⟨by simp [Request.resolved], by simp [Request.resolved], fun _ => ⟨_, hrest'⟩, ?_, ?_, ?_, ?_⟩
    · intro h
      simp [hsub, hopen] at h
    · intro v hv
      exact absurd (hr.value_promised v (hsub ▸ hv)).1 hphase
    · intro e he
      rcases hr.failure_cause e (hsub ▸ he) with h | ⟨h, _⟩
      · exact .inl h
      · exact absurd h hphase
    · rw [hsub]
      exact hr.queue_shape
  | true =>
    have hqueue := (hr.open_queue hopen).1
    have hsub : (r.resolved result).subscription = _ := Subscription.promise_of_open hopen result
    rw [hqueue] at hsub
    refine ⟨by simp [Request.resolved], by simp [Request.resolved], fun _ => ⟨_, hrest'⟩, ?_, ?_, ?_, ?_⟩
    · intro h
      simp [hsub] at h
    · intro v hv
      rw [hsub] at hv
      cases result with
      | ok value =>
        have : v = value := by simpa using hv
        exact ⟨rfl, this ▸ hrest'⟩
      | error error => simp at hv
    · intro e he
      rw [hsub] at he
      cases result with
      | ok value => simp at he
      | error error =>
        have : e = error := by simpa using he
        exact .inr ⟨rfl, this ▸ hrest'⟩
    · rw [hsub]
      cases result with
      | ok value => exact .inr (.inl ⟨value, rfl⟩)
      | error error => exact .inr (.inr (.inr ⟨error, rfl⟩))

/-- Running the chain keeps a request valid. -/
theorem Valid.proceeds {svc : Service B Call Answer} {late : E} {b b' : B}
    {r r' : Request Call Answer V E} {a : Answer} (hr : r.Valid late) (hphase : r.phase = .replied)
    (h : Proceeds svc b r a b' r') : r'.Valid late := by
  cases h with
  | resolve hrest => exact hr.resolved hrest (by simp [hphase])
  | act hrest _ _ => exact hr.answered hrest a
  | await hrest _ =>
    refine ⟨fun _ => ⟨_, _, hrest⟩, by simp, by simp, fun h => ⟨(hr.open_queue h).1, by simp⟩, ?_, ?_,
      hr.queue_shape⟩
    · intro v hv
      exact absurd (hr.value_promised v hv).1 (by simp [hphase])
    · intro e he
      rcases hr.failure_cause e he with h | ⟨h, _⟩
      · exact .inl h
      · exact absurd h (by simp [hphase])

/-- Every request starts valid. -/
theorem valid_subscribe {svc : Service B Call Answer} {late : E} {b b' : B}
    {publisher : Publisher Call Answer V E} {a : Answer} {r : Request Call Answer V E}
    (h : subscribe svc b publisher a = some (b', r)) : r.Valid late := by
  cases publisher with
  | fail error =>
    cases h
    exact ⟨by simp, by simp, fun _ => ⟨_, rfl⟩, by simp, by simp,
      fun e he => .inr ⟨rfl, by simp at he; rw [he]; rfl⟩, .inr (.inr (.inr ⟨error, rfl⟩))⟩
  | future chain =>
    have hstart : (⟨chain, [], .replied, .fresh⟩ : Request Call Answer V E).Valid late :=
      ⟨by simp, fun _ => ⟨chain, Chain.resume_nil chain⟩, by simp, fun _ => ⟨rfl, by simp⟩,
        by simp [Subscription.fresh], by simp [Subscription.fresh], .inl rfl⟩
    exact hstart.proceeds rfl (proceed_cases h)

/-- Every step keeps a request valid. -/
theorem Valid.advance {svc : Service B Call Answer} {late : E} {b b' : B}
    {r r' : Request Call Answer V E} {p : Progress Answer} (hr : r.Valid late)
    (h : r.advance svc late b p = some (b', r')) : r'.Valid late := by
  cases advance_cases h with
  | answer _ hrest _ => exact hr.answered hrest _
  | callback hphase hproceed => exact hr.proceeds hphase hproceed
  | timeout hopen =>
    have hqueue := (hr.open_queue hopen).1
    refine ⟨hr.outstanding_call, hr.replied_rest, hr.over_done, by simp, ?_, ?_, ?_⟩
    · intro v hv
      simp [hqueue] at hv
    · intro e he
      exact .inl (by simpa [hqueue] using he)
    · exact .inr (.inr (.inr ⟨late, by simp [hqueue]⟩))
  | @deliver event queue hqueue =>
    refine ⟨hr.outstanding_call, hr.replied_rest, hr.over_done, ?_, ?_, ?_, ?_⟩
    · intro hopen
      exact absurd (hr.open_queue hopen).1 (by simp [hqueue])
    · intro v hv
      exact hr.value_promised v (by rw [hqueue]; exact List.mem_cons_of_mem _ hv)
    · intro e he
      exact hr.failure_cause e (by rw [hqueue]; exact List.mem_cons_of_mem _ he)
    · rcases hr.queue_shape with h | ⟨v, h⟩ | h | ⟨e, h⟩ <;> rw [hqueue] at h
      · contradiction
      · exact .inr (.inr (.inl (List.cons.inj h).2))
      · exact .inl (List.cons.inj h).2
      · exact .inl (List.cons.inj h).2
  | cancel =>
    exact ⟨hr.outstanding_call, hr.replied_rest, hr.over_done, by simp [Subscription.cancelled],
      by simp [Subscription.cancelled], by simp [Subscription.cancelled], .inl rfl⟩

/-- A request waits only for calls that do not take effect at once. -/
def Waits (svc : Service B Call Answer) (r : Request Call Answer V E) : Prop :=
  r.phase = .outstanding → ∀ c next, r.rest = some (.call c next) → svc.immediate c = false

/-- After running the chain a request waits only for calls that do not take effect at once. -/
theorem Proceeds.waits {svc : Service B Call Answer} {b b' : B} {r r' : Request Call Answer V E}
    {a : Answer} (h : Proceeds svc b r a b' r') : r'.Waits svc := by
  intro hphase c next hnext
  cases h with
  | resolve _ => cases hphase
  | act _ _ _ => cases hphase
  | await hrest himm =>
    cases hrest.symm.trans hnext
    exact himm

/-- Every step keeps what a request waits for. -/
theorem Advances.waits {svc : Service B Call Answer} {late : E} {b b' : B}
    {r r' : Request Call Answer V E} {p : Progress Answer} (h : Advances svc late b r p b' r')
    (hr : r.Waits svc) : r'.Waits svc := by
  cases h with
  | answer _ _ _ =>
    intro hphase
    cases hphase
  | callback _ hproceed => exact hproceed.waits
  | timeout _ => exact hr
  | deliver _ => exact hr
  | cancel => exact hr

end Request

end Reactive
