import LoveCoupons.Lib.RequestScreen

/-!
# One outcome for each press

At any time a press has had one outcome or has one request that will still bring a result,
and never both.
-/

namespace Reactive

variable {B Call Answer V E S A : Type}

namespace Request

/-- A new request will bring a result. -/
theorem pending_subscribe {svc : Service B Call Answer} {b b' : B} {publisher : Publisher Call Answer V E}
    {a : Answer} {r : Request Call Answer V E} (h : subscribe svc b publisher a = some (b', r)) :
    r.subscription.pending = true := by
  rcases subscribe_cases h with ⟨error, -, -, rfl⟩ | ⟨chain, -, hproceeds⟩
  · rfl
  · cases hproceeds with
    | resolve _ => exact Subscription.pending_promise _ _
    | act _ _ _ => rfl
    | await _ _ => rfl

/-- Work on a request does not change whether it will bring a result. -/
theorem pending_work {svc : Service B Call Answer} {late : E} {b b' : B} {r r' : Request Call Answer V E}
    {p : Progress Answer} (h : Advances svc late b r p b' r') (hwork : p.isWork = true) :
    r'.subscription.pending = r.subscription.pending := by
  cases h with
  | answer _ _ _ => rfl
  | callback _ hproceeds =>
    cases hproceeds with
    | resolve _ => exact Subscription.pending_promise _ _
    | act _ _ _ => rfl
    | await _ _ => rfl
  | timeout hopen => simp [Subscription.pending, hopen, Event.isResult]
  | deliver _ => cases hwork
  | cancel => cases hwork

/-- A delivery takes the first event, and the result with it. -/
theorem pending_deliver {svc : Service B Call Answer} {late : E} {b b' : B} {r r' : Request Call Answer V E}
    (hvalid : r.Valid late) (h : r.advance svc late b .deliver = some (b', r')) {event : Event V E}
    (hevent : r.subscription.queue.head? = some event) :
    r.subscription.pending = event.isResult ∧ r'.subscription.pending = false := by
  cases advance_cases h with
  | @deliver first queue hqueue =>
    obtain rfl : first = event := by simpa [hqueue] using hevent
    have hclosed : r.subscription.isOpen = false := by
      by_contra hopen
      have hempty := (hvalid.open_queue (by simpa using hopen)).1
      simp [hqueue] at hempty
    rcases hvalid.queue_shape with hnil | ⟨v, hvalue⟩ | hfinished | ⟨error, hfailure⟩
    · simp [hqueue] at hnil
    · obtain ⟨rfl, rfl⟩ : first = .value v ∧ queue = [.finished] := by simpa [hqueue] using hvalue
      simp [Subscription.pending, hqueue, hclosed, Event.isResult]
    · obtain ⟨rfl, rfl⟩ : first = .finished ∧ queue = [] := by simpa [hqueue] using hfinished
      simp [Subscription.pending, hqueue, hclosed, Event.isResult]
    · obtain ⟨rfl, rfl⟩ : first = .failure error ∧ queue = [] := by simpa [hqueue] using hfailure
      simp [Subscription.pending, hqueue, hclosed, Event.isResult]

end Request

namespace Screen

variable {flow : Flow B Call Answer V E S A} {svc : Service B Call Answer} {late : E}

/-- The number of requests of a press that will still bring a result. -/
def pendingFor (pool : Pool B Call Answer V E (ℕ × S)) (press : ℕ) : ℕ :=
  pool.requests.countP fun entry => entry.1.1 = press && entry.2.subscription.pending

/-- The number of outcomes of a press. -/
def outcomesOf (s : Screen B Call Answer V E S A) (press : ℕ) : ℕ :=
  s.outcomes.countP fun outcome => outcome.1 = press

/-- A new request counts for its press. -/
theorem pendingFor_add (pool : Pool B Call Answer V E (ℕ × S)) (press : ℕ) (stage : S) (b : B)
    {r : Request Call Answer V E} (hr : r.subscription.pending = true) (p : ℕ) :
    pendingFor (pool.add (press, stage) b r) p = pendingFor pool p + if press = p then 1 else 0 := by
  unfold pendingFor Pool.add
  rw [List.countP_append, List.countP_singleton]
  simp [hr]

/-- A step of a request changes the count of its press by what it changes of the request. -/
theorem pendingFor_update {pool : Pool B Call Answer V E (ℕ × S)} {i press : ℕ} {stage : S}
    {r : Request Call Answer V E} (hget : pool.requests[i]? = some ((press, stage), r)) (b : B)
    (r' : Request Call Answer V E) (p : ℕ) :
    pendingFor (pool.update i (press, stage) b r r') p +
        (if press = p ∧ r.subscription.pending = true then 1 else 0) =
      pendingFor pool p + if press = p ∧ r'.subscription.pending = true then 1 else 0 := by
  obtain ⟨hi, hentry⟩ := List.getElem?_eq_some_iff.mp hget
  unfold pendingFor Pool.update
  have hle := List.boole_getElem_le_countP (p := fun entry : (ℕ × S) × Request Call Answer V E =>
    decide (entry.1.1 = p) && entry.2.subscription.pending) hi
  rw [List.countP_set hi]
  rw [hentry] at hle ⊢
  simp only [Bool.and_eq_true, decide_eq_true_eq] at hle ⊢
  omega

/-- A delivered result leaves its request. -/
theorem pendingFor_deliver {pool : Pool B Call Answer V E (ℕ × S)} {i press : ℕ} {stage : S} {b b' : B}
    {r r' : Request Call Answer V E} {event : Event V E}
    (hget : pool.requests[i]? = some ((press, stage), r)) (hr : r.Valid late)
    (hadvance : r.advance svc late b .deliver = some (b', r'))
    (hevent : r.subscription.queue.head? = some event) (p : ℕ) :
    pendingFor (pool.update i (press, stage) b' r r') p +
      (if press = p ∧ event.isResult = true then 1 else 0) = pendingFor pool p := by
  obtain ⟨hbefore, hafter⟩ := Request.pending_deliver hr hadvance hevent
  have hupdate := pendingFor_update hget b' r' p
  rw [hbefore, hafter] at hupdate
  simpa using hupdate

/-- An action counts for its press. -/
theorem outcomesOf_concat (s : Screen B Call Answer V E S A) (press : ℕ) (action : A) (p : ℕ) :
    (s.outcomes ++ [(press, action)]).countP (fun outcome => outcome.1 = p) =
      outcomesOf s p + if press = p then 1 else 0 := by
  rw [List.countP_append, List.countP_singleton]
  simp [outcomesOf]

/-- Every request is valid, and every press has had one outcome or has one request that will still
bring a result. -/
structure Balanced (late : E) (s : Screen B Call Answer V E S A) : Prop where
  valid : ∀ entry ∈ s.pool.requests, entry.2.Valid late
  tally : ∀ press, outcomesOf s press + pendingFor s.pool press = if press < s.presses.length then 1 else 0

/-- A new screen is balanced. -/
theorem balanced_opened (b : B) : (opened b : Screen B Call Answer V E S A).Balanced late :=
  ⟨by simp [opened, Pool.empty], by simp [opened, Pool.empty, outcomesOf, pendingFor]⟩

/-- Every step keeps a screen balanced. -/
theorem Balanced.step {s s' : Screen B Call Answer V E S A} {a : ScreenStep S Answer}
    (hs : s.Balanced late) (h : s.step flow svc late a = some s') : s'.Balanced late := by
  cases step_cases h with
  | @press stage a b r hstart =>
    refine ⟨Pool.forall_add (P := fun _ r => r.Valid late) hs.valid (Request.valid_subscribe hstart), fun p => ?_⟩
    have htally := hs.tally p
    have hadd := pendingFor_add s.pool s.presses.length stage b (Request.pending_subscribe hstart) p
    change outcomesOf s p + pendingFor (s.pool.add (s.presses.length, stage) b r) p =
      if p < (s.presses ++ [stage]).length then 1 else 0
    rw [List.length_append, List.length_singleton]
    split at htally <;> split at hadd <;> split <;> omega
  | @work i p tag r r' b hwork hget hadvance =>
    have hadv := Request.advance_cases hadvance
    have hr := hs.valid _ (List.mem_of_getElem? hget)
    refine ⟨Pool.forall_update (P := fun _ r => r.Valid late) hs.valid (hr.advance hadvance), fun p => ?_⟩
    have hupdate := pendingFor_update hget b r' p
    rw [Request.pending_work hadv hwork] at hupdate
    rw [← hs.tally p, ← Nat.add_right_cancel hupdate]
    rfl
  | @act i press a stage r r' b v action hget hadvance hevent hvalue =>
    have hr := hs.valid _ (List.mem_of_getElem? hget)
    refine ⟨Pool.forall_update (P := fun _ r => r.Valid late) hs.valid (hr.advance hadvance), fun p => ?_⟩
    have hdeliver := pendingFor_deliver hget hr hadvance hevent p
    change (s.outcomes ++ [(press, action)]).countP (fun outcome => outcome.1 = p) +
      pendingFor (s.pool.update i (press, stage) b r r') p = if p < s.presses.length then 1 else 0
    rw [← hs.tally p, outcomesOf_concat]
    simp only [Event.isResult, and_true] at hdeliver
    omega
  | @next i press a stage next r r' r'' b b' v hget hadvance hevent hvalue hstart =>
    have hr := hs.valid _ (List.mem_of_getElem? hget)
    refine ⟨Pool.forall_add (P := fun _ r => r.Valid late)
      (Pool.forall_update (P := fun _ r => r.Valid late) hs.valid (hr.advance hadvance))
      (Request.valid_subscribe hstart), fun p => ?_⟩
    have hdeliver := pendingFor_deliver hget hr hadvance hevent p
    have hadd := pendingFor_add (s.pool.update i (press, stage) b r r') press next b'
      (Request.pending_subscribe hstart) p
    change outcomesOf s p + pendingFor ((s.pool.update i (press, stage) b r r').add (press, next) b' r'') p =
      if p < s.presses.length then 1 else 0
    rw [← hs.tally p, hadd]
    simp only [Event.isResult, and_true] at hdeliver
    omega
  | @finish i press a stage r r' b hget hadvance hevent =>
    have hr := hs.valid _ (List.mem_of_getElem? hget)
    refine ⟨Pool.forall_update (P := fun _ r => r.Valid late) hs.valid (hr.advance hadvance), fun p => ?_⟩
    have hdeliver := pendingFor_deliver hget hr hadvance hevent p
    change outcomesOf s p + pendingFor (s.pool.update i (press, stage) b r r') p =
      if p < s.presses.length then 1 else 0
    rw [← hs.tally p]
    simp only [Event.isResult, Bool.false_eq_true, and_false, if_false] at hdeliver
    omega
  | @fail i press a stage r r' b error hget hadvance hevent =>
    have hr := hs.valid _ (List.mem_of_getElem? hget)
    refine ⟨Pool.forall_update (P := fun _ r => r.Valid late) hs.valid (hr.advance hadvance), fun p => ?_⟩
    have hdeliver := pendingFor_deliver hget hr hadvance hevent p
    change (s.outcomes ++ [(press, flow.onFailure error)]).countP (fun outcome => outcome.1 = p) +
      pendingFor (s.pool.update i (press, stage) b r r') p = if p < s.presses.length then 1 else 0
    rw [← hs.tally p, outcomesOf_concat]
    simp only [Event.isResult, and_true] at hdeliver
    omega

end Screen

end Reactive
