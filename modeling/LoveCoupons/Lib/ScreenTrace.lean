import LoveCoupons.Lib.Runs
import LoveCoupons.Lib.ScreenBalance

/-!
# The stages behind an outcome

Every request of a screen is due to its press: the stages before it have all ended in success.
An outcome that is not a failure's rests on requests that all succeeded.
-/

namespace Reactive

variable {B Call Answer V E S A : Type}

namespace Screen

variable {flow : Flow B Call Answer V E S A} {svc : Service B Call Answer} {late : E}

/-- The request of a stage of a press has ended in success. -/
def Confirmed (pool : Pool B Call Answer V E (ℕ × S)) (press : ℕ) (stage : S) : Prop :=
  ∃ r, ((press, stage), r) ∈ pool.requests ∧ r.phase = .over ∧ ∃ v, r.rest = some (.done (.ok v))

/-- A stage that is reached from the start of a press through stages with a property. -/
inductive Follows (flow : Flow B Call Answer V E S A) (P : S → Prop) (start : S) : S → Prop where
  | start : Follows flow P start start
  | next {stage next : S} (hstage : Follows flow P start stage) (hP : P stage)
      (hvalue : flow.onValue stage = .inr next) : Follows flow P start next

/-- A weaker property of the stages is enough for less. -/
theorem Follows.mono {P Q : S → Prop} (hPQ : ∀ stage, P stage → Q stage) {start stage : S}
    (h : Follows flow P start stage) : Follows flow Q start stage := by
  induction h with
  | start => exact .start
  | next _ hP hvalue ih => exact .next ih (hPQ _ hP) hvalue

/-- What has ended in success stays so when a request is added. -/
theorem Confirmed.add {pool : Pool B Call Answer V E (ℕ × S)} {press : ℕ} {stage : S}
    (h : Confirmed pool press stage) (tag : ℕ × S) (b : B) (r : Request Call Answer V E) :
    Confirmed (pool.add tag b r) press stage := by
  obtain ⟨r₀, hmem, hend⟩ := h
  exact ⟨r₀, List.mem_append_left _ hmem, hend⟩

/-- What has ended in success stays so when a request takes a step. -/
theorem Confirmed.update {pool : Pool B Call Answer V E (ℕ × S)} {press : ℕ} {stage : S}
    (h : Confirmed pool press stage) {i : ℕ} {tag : ℕ × S} {b b' : B} {r r' : Request Call Answer V E}
    {p : Progress Answer} (hget : pool.requests[i]? = some (tag, r))
    (hadvance : r.advance svc late b p = some (b', r')) :
    Confirmed (pool.update i tag b' r r') press stage := by
  obtain ⟨r₀, hmem, hend⟩ := h
  obtain ⟨⟨tag', r₁⟩, hmem', rfl, hend'⟩ := Pool.exists_update (b := b') (P := fun tag r => tag = (press, stage) ∧
    r.phase = .over ∧ ∃ v, r.rest = some (.done (.ok v))) hget ⟨_, hmem, rfl, hend⟩ (by
      rintro ⟨htag, hover, v, hrest⟩
      obtain ⟨hover', hrest'⟩ := (Request.advance_cases hadvance).over hover
      exact ⟨htag, hover', v, hrest'.trans hrest⟩)
  exact ⟨r₁, hmem', hend'⟩

/-- The chain that the publisher of a stage runs, or the failure it starts with. -/
def StartedBy (flow : Flow B Call Answer V E S A) (stage : S)
    (origin : Chain Call Answer (Except E V)) : Prop :=
  ∃ b, flow.publisher b stage = .future origin ∨
    ∃ error, flow.publisher b stage = .fail error ∧ origin = .done (.error error)

/-- A new request runs the chain of its stage. -/
theorem startedBy_subscribe {b b' : B} {stage : S} {a : Answer} {r : Request Call Answer V E}
    (h : Request.subscribe svc b (flow.publisher b stage) a = some (b', r)) :
    StartedBy flow stage r.origin := by
  rcases Request.subscribe_cases h with ⟨error, hfail, -, rfl⟩ | ⟨chain, hfuture, hproceeds⟩
  · exact ⟨b, .inr ⟨error, hfail, rfl⟩⟩
  · refine ⟨b, .inl ?_⟩
    rw [hfuture]
    cases hproceeds <;> rfl

/-- A stage whose request is due to the press: each stage before it has ended in success. -/
def Due (flow : Flow B Call Answer V E S A) (s : Screen B Call Answer V E S A) (press : ℕ) (stage : S) :
    Prop :=
  ∃ start, s.presses[press]? = some start ∧ Follows flow (Confirmed s.pool press) start stage

/-- Every request is due to its press and runs the chain of its stage, and every action of a value
is due to its press and to the success of its last stage. -/
structure Traced (flow : Flow B Call Answer V E S A) (s : Screen B Call Answer V E S A) : Prop where
  due : ∀ entry ∈ s.pool.requests, Due flow s entry.1.1 entry.1.2
  origin : ∀ entry ∈ s.pool.requests, StartedBy flow entry.1.2 entry.2.origin
  earned : ∀ outcome ∈ s.outcomes, (∃ error, outcome.2 = flow.onFailure error) ∨
    ∃ stage, Due flow s outcome.1 stage ∧ Confirmed s.pool outcome.1 stage ∧
      flow.onValue stage = .inl outcome.2

/-- A new screen is traced. -/
theorem traced_opened (b : B) : (opened b : Screen B Call Answer V E S A).Traced flow :=
  ⟨by simp [opened, Pool.empty], by simp [opened, Pool.empty], by simp [opened]⟩

/-- What is due stays due while presses and successes are added. -/
theorem Due.mono {s s' : Screen B Call Answer V E S A} {press : ℕ} {stage : S} (h : Due flow s press stage)
    (hpresses : ∀ start, s.presses[press]? = some start → s'.presses[press]? = some start)
    (hconfirmed : ∀ stage, Confirmed s.pool press stage → Confirmed s'.pool press stage) :
    Due flow s' press stage := by
  obtain ⟨start, hstart, hfollows⟩ := h
  exact ⟨start, hpresses start hstart, hfollows.mono hconfirmed⟩

/-- A step keeps a screen traced when its new requests and outcomes are due. -/
theorem Traced.grow {s s' : Screen B Call Answer V E S A} (hs : s.Traced flow)
    (hpresses : ∀ (press : ℕ) (start : S), s.presses[press]? = some start → s'.presses[press]? = some start)
    (hconfirmed : ∀ press stage, Confirmed s.pool press stage → Confirmed s'.pool press stage)
    (hrequests : ∀ entry ∈ s'.pool.requests,
      (∃ r, (entry.1, r) ∈ s.pool.requests ∧ entry.2.origin = r.origin) ∨
        Due flow s' entry.1.1 entry.1.2 ∧ StartedBy flow entry.1.2 entry.2.origin)
    (houtcomes : ∀ outcome ∈ s'.outcomes, outcome ∈ s.outcomes ∨
      (∃ error, outcome.2 = flow.onFailure error) ∨ ∃ stage, Due flow s' outcome.1 stage ∧
        Confirmed s'.pool outcome.1 stage ∧ flow.onValue stage = .inl outcome.2) : s'.Traced flow := by
  refine ⟨fun entry hentry => ?_, fun entry hentry => ?_, fun outcome houtcome => ?_⟩
  · rcases hrequests entry hentry with ⟨r, hmem, -⟩ | ⟨hdue, -⟩
    · exact (hs.due _ hmem).mono (hpresses _) (hconfirmed _)
    · exact hdue
  · rcases hrequests entry hentry with ⟨r, hmem, horigin⟩ | ⟨-, hstarted⟩
    · rw [horigin]
      exact hs.origin _ hmem
    · exact hstarted
  · rcases houtcomes outcome houtcome with hold | hnew
    · rcases hs.earned outcome hold with hfailure | ⟨stage, hdue, hend, hvalue⟩
      · exact .inl hfailure
      · exact .inr ⟨stage, hdue.mono (hpresses _) (hconfirmed _), hconfirmed _ _ hend, hvalue⟩
    · exact hnew

/-- The requests after a step of one of them. -/
theorem mem_update {pool : Pool B Call Answer V E (ℕ × S)} {i : ℕ} {tag : ℕ × S} {b b' : B}
    {r r' : Request Call Answer V E} {p : Progress Answer} (hget : pool.requests[i]? = some (tag, r))
    (hadvance : r.advance svc late b p = some (b', r')) {entry : (ℕ × S) × Request Call Answer V E}
    (hentry : entry ∈ (pool.update i tag b' r r').requests) :
    ∃ r₀, (entry.1, r₀) ∈ pool.requests ∧ entry.2.origin = r₀.origin := by
  rcases List.mem_or_eq_of_mem_set hentry with hold | rfl
  · exact ⟨entry.2, hold, rfl⟩
  · refine ⟨r, List.mem_of_getElem? hget, ?_⟩
    cases (Request.advance_cases hadvance).acts with
    | idle horigin _ => exact horigin
    | reply _ _ => rfl

/-- A step of one request keeps a screen traced when its new outcomes are due. -/
theorem Traced.update {s s' : Screen B Call Answer V E S A} (hs : s.Traced flow) {i : ℕ} {tag : ℕ × S} {b : B}
    {r r' : Request Call Answer V E} {p : Progress Answer} (hget : s.pool.requests[i]? = some (tag, r))
    (hadvance : r.advance svc late s.pool.backend p = some (b, r'))
    (hpool : s'.pool = s.pool.update i tag b r r') (hpresses : s'.presses = s.presses)
    (houtcomes : ∀ outcome ∈ s'.outcomes, outcome ∈ s.outcomes ∨
      (∃ error, outcome.2 = flow.onFailure error) ∨ ∃ stage, Due flow s outcome.1 stage ∧
        Confirmed s.pool outcome.1 stage ∧ flow.onValue stage = .inl outcome.2) : s'.Traced flow := by
  have hconfirmed : ∀ press stage, Confirmed s.pool press stage → Confirmed s'.pool press stage := by
    intro press stage hend
    rw [hpool]
    exact hend.update hget hadvance
  have hkept : ∀ (press : ℕ) (start : S), s.presses[press]? = some start → s'.presses[press]? = some start := by
    intro press start hpress
    rw [hpresses]
    exact hpress
  refine hs.grow hkept hconfirmed (fun entry hentry => ?_) fun outcome houtcome => ?_
  · rw [hpool] at hentry
    exact .inl (mem_update hget hadvance hentry)
  · rcases houtcomes outcome houtcome with hold | hfailure | ⟨stage, hdue, hend, hvalue⟩
    · exact .inl hold
    · exact .inr (.inl hfailure)
    · exact .inr (.inr ⟨stage, hdue.mono (hkept _) (hconfirmed _), hconfirmed _ _ hend, hvalue⟩)

/-- The request whose value is delivered has ended in success. -/
theorem confirmed_of_value {pool : Pool B Call Answer V E (ℕ × S)} {i press : ℕ} {stage : S}
    {r : Request Call Answer V E} {v : V} (hget : pool.requests[i]? = some ((press, stage), r))
    (hr : r.Valid late) (hevent : r.subscription.queue.head? = some (.value v)) :
    Confirmed pool press stage := by
  obtain ⟨hover, hrest⟩ := hr.value_promised v (List.mem_of_mem_head? hevent)
  exact ⟨r, List.mem_of_getElem? hget, hover, v, hrest⟩

/-- Every step of a balanced screen keeps it traced. -/
theorem Traced.step {s s' : Screen B Call Answer V E S A} {a : ScreenStep S Answer}
    (hs : s.Traced flow) (hb : s.Balanced late) (h : s.step flow svc late a = some s') :
    s'.Traced flow := by
  cases step_cases h with
  | @press stage a b r hstart =>
    apply hs.grow
    · intro press start hpress
      exact (List.getElem?_append_left (List.getElem?_eq_some_iff.mp hpress).1).trans hpress
    · intro press stage hend
      exact hend.add _ _ _
    · intro entry hentry
      rcases List.mem_append.mp hentry with hold | hnew
      · exact .inl ⟨entry.2, hold, rfl⟩
      · rw [List.mem_singleton.mp hnew]
        exact .inr ⟨⟨stage, List.getElem?_concat_length, .start⟩, startedBy_subscribe hstart⟩
    · intro outcome houtcome
      exact .inl houtcome
  | work hwork hget hadvance => exact hs.update hget hadvance rfl rfl fun _ houtcome => .inl houtcome
  | @act i press a stage r r' b v action hget hadvance hevent hvalue =>
    have hmem := List.mem_of_getElem? hget
    refine hs.update hget hadvance rfl rfl fun outcome houtcome => ?_
    rcases List.mem_append.mp houtcome with hold | hnew
    · exact .inl hold
    · rw [List.mem_singleton.mp hnew]
      exact .inr (.inr ⟨stage, hs.due _ hmem, confirmed_of_value hget (hb.valid _ hmem) hevent, hvalue⟩)
  | @next i press a stage next r r' r'' b b' v hget hadvance hevent hvalue hstart =>
    have hmem := List.mem_of_getElem? hget
    have hend := ((confirmed_of_value hget (hb.valid _ hmem) hevent).update hget hadvance).add
      (press, next) b' r''
    have hmono : ∀ (p : ℕ) (st : S), Confirmed s.pool p st →
        Confirmed ((s.pool.update i (press, stage) b r r').add (press, next) b' r'') p st :=
      fun _ _ hend => (hend.update hget hadvance).add _ _ _
    apply hs.grow
    · exact fun _ _ hpress => hpress
    · exact hmono
    · intro entry hentry
      rcases List.mem_append.mp hentry with hold | hnew
      · exact .inl (mem_update hget hadvance hold)
      · rw [List.mem_singleton.mp hnew]
        obtain ⟨start, hstart', hfollows⟩ := hs.due _ hmem
        exact .inr ⟨⟨start, hstart', .next (hfollows.mono (hmono press)) hend hvalue⟩,
          startedBy_subscribe hstart⟩
    · exact fun outcome houtcome => .inl houtcome
  | finish hget hadvance hevent => exact hs.update hget hadvance rfl rfl fun _ houtcome => .inl houtcome
  | @fail i press a stage r r' b error hget hadvance hevent =>
    refine hs.update hget hadvance rfl rfl fun outcome houtcome => ?_
    rcases List.mem_append.mp houtcome with hold | hnew
    · exact .inl hold
    · rw [List.mem_singleton.mp hnew]
      exact .inr (.inl ⟨error, rfl⟩)

end Screen

end Reactive
