import LoveCoupons.Lib.Replace
import LoveCoupons.Lib.ViewModel

/-!
# A loading flag for many requests

A view model shows with one flag that it waits for results. The actions that start a counted
request set the flag, and the handlers of some events clear it. Two properties are wanted of
such a flag: it is clear once every request has reported, and it is set as long as one of them
waits. The first holds when the handler of every result clears the flag or starts a further
request. The second holds exactly along the runs in which an event that clears the flag is
delivered last, while no request waits for more.

A request of a kind that is not counted expects no result. A subject counts until the result
after its replayed value.
-/

namespace Reactive

variable {M K A : Type} {Val Err : K → Type} {vm : ViewModel M K A Val Err}

/-- A flag of the view model, the number of results that each kind of request waits for, and the events
that clear the flag. -/
structure LoadingFlag (vm : ViewModel M K A Val Err) where
  isShowing : M → Bool
  expected : K → ℕ
  clears : (k : K) → Event (Val k) (Err k) → Bool
  act_eq : ∀ {m a m' next}, vm.act m a = some (m', next) →
    isShowing m' = (isShowing m || next.any fun k => decide (0 < expected k))
  receive_eq : ∀ {m k event m' next}, vm.receive m k event = some (m', next) →
    isShowing m' = (isShowing m && !clears k event)
  result : ∀ {m k event m' next}, vm.receive m k event = some (m', next) → event.isResult = true →
    0 < expected k → clears k event = true ∨ ∃ k', next = some k' ∧ 0 < expected k'
  nested : ∀ {m k event m' k'}, vm.receive m k event = some (m', some k') → 0 < expected k' →
    clears k event = false ∧ event.isResult = true ∧ 0 < expected k ∧ vm.source k = .future

namespace LoadingFlag

/-- The request waits for a result. -/
def waits (flag : LoadingFlag vm) (r : LiveRequest Val Err) : Bool := r.received < flag.expected r.kind

/-- The flag is set whenever a request waits. -/
def Locked (flag : LoadingFlag vm) (s : Host M Val Err) : Prop :=
  (∃ r ∈ s.requests, flag.waits r = true) → flag.isShowing s.fields = true

/-- Whenever the flag is set, a counted request has received nothing yet. -/
def Owed (flag : LoadingFlag vm) (s : Host M Val Err) : Prop :=
  flag.isShowing s.fields = true → ∃ r ∈ s.requests, 0 < flag.expected r.kind ∧ r.received = 0

/-- An event that clears the flag is delivered only while no other request waits and its own request
waits for nothing after it. -/
def clearsLast (flag : LoadingFlag vm) (s : Host M Val Err) : HostStep A Val Err → Prop
  | .deliver i => ∀ r event queue, s.requests[i]? = some r → r.subscription.queue = event :: queue →
      flag.clears r.kind event = true →
        flag.waits (r.delivered event queue) = false ∧ ∀ j r', j ≠ i → s.requests[j]? = some r' → flag.waits r' = false
  | _ => True

variable (flag : LoadingFlag vm)

/-- A view model that has started nothing and shows nothing owes nothing. -/
theorem owed_opened {fields : M} (h : flag.isShowing fields = false) : flag.Owed (Host.opened fields) := by
  intro hshowing
  exact absurd (h.symm.trans hshowing) Bool.false_ne_true

/-- A view model that starts with a counted request owes its result. -/
theorem owed_launched {fields : M} {k : K} (hk : 0 < flag.expected k) : flag.Owed (Host.launched vm fields k) :=
  fun _ => ⟨LiveRequest.opened vm k, List.mem_cons_self, by simpa using hk, by simp⟩

/-- A view model that has started nothing is locked. -/
theorem locked_opened (fields : M) : flag.Locked (Host.opened fields) := by
  rintro ⟨r, hr, -⟩
  cases hr

/-- A view model that shows the flag is locked. -/
theorem locked_of_showing {s : Host M Val Err} (h : flag.isShowing s.fields = true) : flag.Locked s := fun _ => h

variable {flag}

/-- A request that is replaced by one of its kind that has received as much is still owed. -/
theorem owed_set {s : Host M Val Err} (hs : flag.Owed s) {i : ℕ} {r r' : LiveRequest Val Err}
    (hget : s.requests[i]? = some r) (hkind : r'.kind = r.kind) (hreceived : r'.received = r.received) :
    flag.Owed { s with requests := s.requests.set i r' } := by
  intro hshowing
  obtain ⟨owed, hmem, hcounted, hzero⟩ := hs hshowing
  rcases Replace.eq_or_mem_set hget hmem r' with rfl | hstays
  · exact ⟨r', Replace.mem_set_self hget r', hkind ▸ hcounted, hreceived.trans hzero⟩
  · exact ⟨owed, hstays, hcounted, hzero⟩

/-- Every step keeps what is owed while the flag is set. -/
theorem Owed.step {s s' : Host M Val Err} {a : HostStep A Val Err} (hs : flag.Owed s)
    (h : s.step vm a = some s') : flag.Owed s' := by
  cases Host.step_cases h with
  | complete hget _ => exact owed_set hs hget rfl rfl
  | send hget _ => exact owed_set hs hget rfl rfl
  | @act a fields next hact =>
    intro hshowing
    have hflag : flag.isShowing fields = true := hshowing
    rw [flag.act_eq hact, Bool.or_eq_true] at hflag
    rcases hflag with hold | hnew
    · obtain ⟨r, hr, howed⟩ := hs hold
      exact ⟨r, Host.mem_start.mpr (.inl hr), howed⟩
    · obtain ⟨k, rfl, hk⟩ := (Option.any_eq_true _ _).mp hnew
      exact ⟨LiveRequest.opened vm k, Host.mem_start.mpr (.inr ⟨k, rfl, rfl⟩), by simpa using hk, by simp⟩
  | @deliver i r event queue fields next hget hqueue hreceive =>
    intro hshowing
    have hflag : flag.isShowing fields = true := hshowing
    rw [flag.receive_eq hreceive, Bool.and_eq_true, Bool.not_eq_true'] at hflag
    obtain ⟨hold, hkept⟩ := hflag
    obtain ⟨owed, hmem, hcounted, hzero⟩ := hs hold
    rcases Replace.eq_or_mem_set hget hmem (r.delivered event queue) with rfl | hstays
    · cases hresult : event.isResult with
      | true =>
        rcases flag.result hreceive hresult hcounted with hclears | ⟨k, rfl, hk⟩
        · exact absurd (hkept.symm.trans hclears) Bool.false_ne_true
        · exact ⟨LiveRequest.opened vm k, Host.mem_start.mpr (.inr ⟨k, rfl, rfl⟩), by simpa using hk, by simp⟩
      | false =>
        refine ⟨owed.delivered event queue, Host.mem_start.mpr (.inl (Replace.mem_set_self hget _)), hcounted, ?_⟩
        simp [LiveRequest.delivered, hresult, hzero]
    · exact ⟨owed, Host.mem_start.mpr (.inl hstays), hcounted, hzero⟩

/-- Once every request has received a result, the flag is clear. -/
theorem isShowing_eq_false_of_run {s t : Host M Val Err} {steps : List (HostStep A Val Err)} (hs : flag.Owed s)
    (hrun : StepSystem.run (Host.step vm) s steps = some t) (hall : ∀ r ∈ t.requests, 0 < r.received) :
    flag.isShowing t.fields = false := by
  have ht : flag.Owed t := StepSystem.run_invariant flag.Owed (fun _ _ _ hs h => hs.step h) hs hrun
  cases hshowing : flag.isShowing t.fields with
  | false => rfl
  | true =>
    obtain ⟨r, hr, -, hzero⟩ := ht hshowing
    exact absurd (hall r hr) (by omega)

/-- A step that only changes the subscription of a request changes nothing about the lock. -/
theorem locked_set_iff {s : Host M Val Err} {i : ℕ} {r : LiveRequest Val Err} (hget : s.requests[i]? = some r)
    (subscription : Subscription (Val r.kind) (Err r.kind)) :
    flag.Locked { s with requests := s.requests.set i { r with subscription := subscription } } ↔ flag.Locked s := by
  have hwaiting : (∃ r' ∈ s.requests.set i { r with subscription := subscription }, flag.waits r' = true) ↔
      ∃ r' ∈ s.requests, flag.waits r' = true := by
    constructor
    · rintro ⟨r', hr', hwaits⟩
      rcases List.mem_or_eq_of_mem_set hr' with hold | rfl
      · exact ⟨r', hold, hwaits⟩
      · exact ⟨r, List.mem_of_getElem? hget, hwaits⟩
    · rintro ⟨r', hr', hwaits⟩
      rcases Replace.eq_or_mem_set hget hr' { r with subscription := subscription } with rfl | hstays
      · exact ⟨_, Replace.mem_set_self hget _, hwaits⟩
      · exact ⟨r', hstays, hwaits⟩
  exact imp_congr_left hwaiting

/-- An action keeps the lock: it sets the flag if it starts a counted request. -/
theorem Locked.act {s : Host M Val Err} (hs : flag.Locked s) {a : A} {fields : M} {next : Option K}
    (hact : vm.act s.fields a = some (fields, next)) : flag.Locked (s.start vm fields next) := by
  rintro ⟨r, hr, hwaits⟩
  change flag.isShowing fields = true
  rw [flag.act_eq hact, Bool.or_eq_true]
  rcases Host.mem_start.mp hr with hold | ⟨k, rfl, rfl⟩
  · exact .inl (hs ⟨r, hold, hwaits⟩)
  · have hk : 0 < flag.expected k := by simpa [waits] using hwaits
    exact .inr (by simpa using hk)

/-- Delivering an event that leaves the flag alone keeps the lock. -/
theorem Locked.deliver_kept {s : Host M Val Err} (hs : flag.Locked s) (hone : s.OneResults vm) {i : ℕ}
    {r : LiveRequest Val Err} {event : Event (Val r.kind) (Err r.kind)}
    {queue : List (Event (Val r.kind) (Err r.kind))} {fields : M} {next : Option K}
    (hget : s.requests[i]? = some r) (hqueue : r.subscription.queue = event :: queue)
    (hreceive : vm.receive s.fields r.kind event = some (fields, next))
    (hclears : flag.clears r.kind event = false) :
    flag.Locked (Host.start vm { s with requests := s.requests.set i (r.delivered event queue) } fields next) := by
  have hr := List.mem_of_getElem? hget
  rintro ⟨r', hr', hwaits⟩
  change flag.isShowing fields = true
  rw [flag.receive_eq hreceive, hclears, Bool.not_false, Bool.and_true]
  apply hs
  rcases Host.mem_start.mp hr' with hmem | ⟨k, rfl, rfl⟩
  · rcases List.mem_or_eq_of_mem_set hmem with hold | rfl
    · exact ⟨r', hold, hwaits⟩
    · refine ⟨r, hr, ?_⟩
      have hless : (r.delivered event queue).received < flag.expected r.kind :=
        of_decide_eq_true hwaits
      exact decide_eq_true (Nat.lt_of_le_of_lt (r.received_le_delivered event queue) hless)
  · have hk : 0 < flag.expected k := by simpa [waits] using hwaits
    obtain ⟨-, hresult, hcounted, hfuture⟩ := flag.nested hreceive hk
    have hzero := (hone r hr).received_eq_zero hfuture hqueue hresult
    exact ⟨r, hr, by simpa [waits, hzero] using hcounted⟩

/-- Delivering an event that clears the flag keeps the lock exactly when no request waits after it. -/
theorem locked_deliver_cleared_iff {s : Host M Val Err} {i : ℕ} {r : LiveRequest Val Err}
    {event : Event (Val r.kind) (Err r.kind)} {queue : List (Event (Val r.kind) (Err r.kind))} {fields : M}
    {next : Option K} (hget : s.requests[i]? = some r)
    (hreceive : vm.receive s.fields r.kind event = some (fields, next))
    (hclears : flag.clears r.kind event = true) :
    flag.Locked (Host.start vm { s with requests := s.requests.set i (r.delivered event queue) } fields next) ↔
      flag.waits (r.delivered event queue) = false ∧
        ∀ j r', j ≠ i → s.requests[j]? = some r' → flag.waits r' = false := by
  have hclear : flag.isShowing fields = false := by
    rw [flag.receive_eq hreceive, hclears, Bool.not_true, Bool.and_false]
  constructor
  · intro hlocked
    have hnone : ∀ r', r' ∈ s.requests.set i (r.delivered event queue) → flag.waits r' = false := by
      intro r' hr'
      by_contra hwaits
      have hset := hlocked ⟨r', Host.mem_start.mpr (.inl hr'), by simpa using hwaits⟩
      exact absurd (hclear.symm.trans hset) Bool.false_ne_true
    exact ⟨hnone _ (Replace.mem_set_self hget _), fun j r' hji hj => hnone r' (Replace.mem_set_of_ne hji hj _)⟩
  · rintro ⟨hown, hothers⟩ ⟨r', hr', hwaits⟩
    rcases Host.mem_start.mp hr' with hmem | ⟨k, rfl, rfl⟩
    · rcases Replace.mem_set_cases hmem with rfl | ⟨j, hji, hj⟩
      · rw [hown] at hwaits
        cases hwaits
      · rw [hothers j r' hji hj] at hwaits
        cases hwaits
    · have hk : 0 < flag.expected k := by simpa [waits] using hwaits
      rw [(flag.nested hreceive hk).1] at hclears
      cases hclears

/-- A step keeps the lock exactly when an event that clears the flag is delivered last. -/
theorem locked_step_iff {s s' : Host M Val Err} {a : HostStep A Val Err} (hone : s.OneResults vm)
    (hs : flag.Locked s) (h : s.step vm a = some s') : flag.Locked s' ↔ flag.clearsLast s a := by
  cases Host.step_cases h with
  | act hact => exact iff_of_true (hs.act hact) trivial
  | complete hget _ => exact iff_of_true ((locked_set_iff hget _).mpr hs) trivial
  | send hget _ => exact iff_of_true ((locked_set_iff hget _).mpr hs) trivial
  | @deliver i r event queue fields next hget hqueue hreceive =>
    have hcondition : flag.clearsLast s (.deliver i) ↔ (flag.clears r.kind event = true →
        flag.waits (r.delivered event queue) = false ∧
          ∀ j r', j ≠ i → s.requests[j]? = some r' → flag.waits r' = false) := by
      constructor
      · intro hlast
        exact hlast r event queue hget hqueue
      · intro hlast r₁ event₁ queue₁ hget₁ hqueue₁
        obtain rfl : r = r₁ := Option.some.inj (hget.symm.trans hget₁)
        obtain ⟨rfl, rfl⟩ := List.cons.inj (hqueue.symm.trans hqueue₁)
        exact hlast
    rw [hcondition]
    cases hclears : flag.clears r.kind event with
    | false => exact iff_of_true (hs.deliver_kept hone hget hqueue hreceive hclears) (by simp)
    | true => simpa using locked_deliver_cleared_iff hget hreceive hclears

/-- The flag is set in every state of a run in which a request waits, exactly when every event of the
run that clears the flag is delivered last. -/
theorem always_locked_iff {s t : Host M Val Err} {steps : List (HostStep A Val Err)} (hone : s.OneResults vm)
    (hs : flag.Locked s) (hrun : StepSystem.run (Host.step vm) s steps = some t) :
    StepSystem.Always (Host.step vm) flag.Locked s steps ↔
      StepSystem.Along (Host.step vm) flag.clearsLast s steps :=
  StepSystem.always_iff_along (Host.OneResults vm) flag.Locked (fun _ _ _ hone h => hone.step h)
    (fun _ _ _ hone hs h => locked_step_iff hone hs h) hone hs hrun

end LoadingFlag

end Reactive
