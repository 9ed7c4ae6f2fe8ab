import LoveCoupons.ApiManager
import LoveCoupons.Lib.Runs
import Mathlib.Data.List.Sort
import Mathlib.Data.String.Basic

/-!
# The live coupon feeds

`getMyCoupons` and `getPairCoupons` turn the value events of a coupons directory into values
of a current-value subject, and the view models show the latest value sorted by description.
A snapshot that is no dictionary, in particular the null of an empty directory, completes the
subject with a failure. Ten seconds after the start the subject is completed too if it holds
no value yet. The database observer stays registered and keeps sending, but a completed
subject drops what is sent to it.

Strings are compared by their canonical form, which is a parameter here.
-/

namespace LoveCoupons

open KeyedTree Reactive StepSystem

/-- The feed of the signed-in user's coupons and the feed of the partner's coupons. -/
inductive FeedKind where
  | mine
  | pair
  deriving DecidableEq

/-- How the feed decodes a dictionary snapshot. -/
def FeedKind.decode : FeedKind → Dictionary → List Coupon
  | .mine => myCouponsOfDictionary
  | .pair => pairCouponsOfDictionary

/-- The failure that the feed reports for a snapshot that is no dictionary. -/
def FeedKind.missingError : FeedKind → ApiError
  | .mine => ⟨.defaultMessage⟩
  | .pair => ⟨.couponsMessage⟩

/-- `$0.description <= $1.description` on canonical forms. -/
def DescriptionLe (nfc : String → String) (left right : Coupon) : Prop :=
  nfc left.description ≤ nfc right.description

instance (nfc : String → String) : DecidableRel (DescriptionLe nfc) :=
  fun left right => inferInstanceAs (Decidable (nfc left.description ≤ nfc right.description))

instance (nfc : String → String) : Std.Total (DescriptionLe nfc) :=
  ⟨fun left right => le_total (nfc left.description) (nfc right.description)⟩

instance (nfc : String → String) : IsTrans Coupon (DescriptionLe nfc) :=
  ⟨fun _ _ _ => le_trans⟩

/-- `sorted { $0.description < $1.description }`, which is stable. -/
def sortedByDescription (nfc : String → String) (coupons : List Coupon) : List Coupon :=
  coupons.insertionSort (DescriptionLe nfc)

/-- The state that both coupon view models show, with the errors their coordinator was asked for. -/
structure CouponsViewModel where
  isShowLoading : Bool := false
  coupons : List Coupon := []
  errors : List String := []

/-- The sink of `MyCouponsViewModel.getCoupons` and of `PairCouponsViewModel.updateViewData`. -/
def CouponsViewModel.receive (nfc : String → String) (vm : CouponsViewModel) :
    Event (Option (List Coupon)) ApiError → CouponsViewModel
  | .value coupons => { vm with
      isShowLoading := false
      coupons := (coupons.map (sortedByDescription nfc)).getD [] }
  | .finished => vm
  | .failure error => { vm with isShowLoading := false, errors := vm.errors ++ [error.type.text] }

/-- A feed with the view model that is subscribed to it. -/
structure Feed where
  subject : CurrentValueSubject (Option (List Coupon)) ApiError
  timerFired : Bool
  viewModel : CouponsViewModel

/-- The view model has just subscribed. -/
def Feed.start : Feed := ⟨.subscribed none, false, { isShowLoading := true }⟩

/-- A value event of the directory, a cancelled listener, the ten-second timer, or the delivery of the
next event on the main run loop. -/
inductive FeedStep where
  | snapshot (value : Node)
  | listenerCancel (message : String)
  | timer
  | deliver

/-- One step of the feed of the given kind. -/
def Feed.step (nfc : String → String) (kind : FeedKind) (s : Feed) : FeedStep → Option Feed
  | .snapshot value =>
    match asDictionary value with
    | some dict => some { s with subject := s.subject.send (some (kind.decode dict)) }
    | none => some { s with subject := s.subject.sendFailure kind.missingError }
  | .listenerCancel message => some { s with subject := s.subject.sendFailure ⟨.other (some message)⟩ }
  | .timer =>
    if s.timerFired then none
    else if s.subject.value.isSome then some { s with timerFired := true }
    else some { s with timerFired := true, subject := s.subject.sendFailure timeoutError }
  | .deliver =>
    match s.subject.subscription.queue with
    | [] => none
    | event :: queue => some { s with
        subject := { s.subject with subscription := ⟨s.subject.subscription.isOpen, queue⟩ }
        viewModel := s.viewModel.receive nfc event }

/-- The value of the latest event, null before the first. -/
def latestSnapshot (steps : List FeedStep) : Node :=
  steps.foldl (fun latest step => match step with
    | .snapshot value => value
    | _ => latest) none

/-- The children of a snapshot as the feed decodes them; a null has none. -/
def FeedKind.children (kind : FeedKind) (value : Node) : List Coupon :=
  ((asDictionary value).map kind.decode).getD []

/-- Once every scheduled event is delivered, the view model shows exactly the decoded children of the
latest event of the run, sorted by description. -/
def ShowsLatest (nfc : String → String) (kind : FeedKind) (steps : List FeedStep) : Prop :=
  ∀ s, run (Feed.step nfc kind) .start steps = some s → s.subject.subscription.queue = [] →
    s.viewModel.coupons.Perm (kind.children (latestSnapshot steps)) ∧
      s.viewModel.coupons.Pairwise (DescriptionLe nfc)

/-- No event of the run is a null, and the timer did not fire before the first event. -/
def KeepsFeed (steps : List FeedStep) : Prop :=
  (∀ value, .snapshot value ∈ steps → (asDictionary value).isSome) ∧
    ∀ before after, steps = before ++ .timer :: after → ∃ value, .snapshot value ∈ before

/-- A later step of a run that only brings dictionaries and deliveries. -/
def FeedStep.IsDictionaryOrDelivery : FeedStep → Prop
  | .snapshot value => (asDictionary value).isSome
  | .deliver => True
  | _ => False

/-- What the view model shows once every scheduled event is delivered. -/
def Feed.settled (nfc : String → String) (s : Feed) : CouponsViewModel :=
  s.subject.subscription.queue.foldl (CouponsViewModel.receive nfc) s.viewModel

/-- The schedule splits before a timer either inside its past or at its last step. -/
private theorem split_concat {steps : List FeedStep} {a t : FeedStep} {Q : List FeedStep → Prop} :
    (∀ before after, steps ++ [a] = before ++ t :: after → Q before) ↔
      (∀ before after, steps = before ++ t :: after → Q before) ∧ (a = t → Q steps) := by
  constructor
  · intro h
    refine ⟨fun before after heq => h before (after ++ [a]) (by simp [heq]), ?_⟩
    rintro rfl
    exact h steps [] rfl
  · rintro ⟨hpast, hlast⟩ before after heq
    rcases List.eq_nil_or_concat after with rfl | ⟨init, last, rfl⟩
    · obtain ⟨rfl, hat⟩ := List.append_inj' heq rfl
      exact hlast (List.cons.inj hat).1
    · rw [List.concat_eq_append, ← List.cons_append, ← List.append_assoc] at heq
      exact hpast before init (List.append_inj' heq rfl).1

/-- A further event keeps the feed exactly when it is a dictionary. -/
theorem keepsFeed_snapshot {steps : List FeedStep} {value : Node} :
    KeepsFeed (steps ++ [.snapshot value]) ↔ KeepsFeed steps ∧ (asDictionary value).isSome := by
  unfold KeepsFeed
  rw [split_concat]
  simp only [List.mem_append, List.mem_singleton, FeedStep.snapshot.injEq, reduceCtorEq, false_implies,
    and_true]
  constructor
  · rintro ⟨hdict, htimer⟩
    exact ⟨⟨fun v hv => hdict v (.inl hv), htimer⟩, hdict value (.inr rfl)⟩
  · rintro ⟨⟨hdict, htimer⟩, hvalue⟩
    refine ⟨?_, htimer⟩
    rintro v (hv | rfl)
    · exact hdict v hv
    · exact hvalue

/-- The timer keeps the feed exactly when an event came before it. -/
theorem keepsFeed_timer {steps : List FeedStep} :
    KeepsFeed (steps ++ [.timer]) ↔ KeepsFeed steps ∧ ∃ value, .snapshot value ∈ steps := by
  unfold KeepsFeed
  rw [split_concat, ← and_assoc]
  simp

/-- A delivery keeps the feed. -/
theorem keepsFeed_deliver {steps : List FeedStep} :
    KeepsFeed (steps ++ [.deliver]) ↔ KeepsFeed steps := by
  unfold KeepsFeed
  rw [split_concat]
  simp

/-- The feed follows the run: it is live, holds a value once an event came and will show the latest
event, as long as no step ended it; after that it is closed. -/
structure Feed.Tracks (nfc : String → String) (kind : FeedKind) (steps : List FeedStep) (s : Feed) :
    Prop where
  live : KeepsFeed steps → s.subject.subscription.isOpen = true
  held : KeepsFeed steps → (s.subject.value.isSome ↔ ∃ value, .snapshot value ∈ steps)
  shown : KeepsFeed steps →
    (s.settled nfc).coupons = sortedByDescription nfc (kind.children (latestSnapshot steps))
  ended : ¬ KeepsFeed steps → s.subject.subscription.isOpen = false

/-- A new feed shows the empty list of no event. -/
theorem Feed.tracks_start (nfc : String → String) (kind : FeedKind) :
    Feed.start.Tracks nfc kind [] := by
  refine ⟨fun _ => rfl, fun _ => ?_, fun _ => rfl, fun h => absurd ?_ h⟩
  · simp [start, CurrentValueSubject.subscribed]
  · exact ⟨by simp, by simp⟩

/-- A feed that ended is not changed by a further event. -/
theorem Feed.step_snapshot_of_closed (nfc : String → String) (kind : FeedKind) {s : Feed}
    (h : s.subject.subscription.isOpen = false) (value : Node) :
    s.step nfc kind (.snapshot value) = some s := by
  cases hvalue : asDictionary value with
  | none => simp [step, hvalue, CurrentValueSubject.sendFailure_of_closed h]
  | some dict => simp [step, hvalue, CurrentValueSubject.send_of_closed h]

/-- Following the run is kept by a value event. -/
theorem Feed.Tracks.snapshot {nfc : String → String} {kind : FeedKind} {steps : List FeedStep}
    {s t : Feed} (hs : s.Tracks nfc kind steps) {value : Node}
    (h : s.step nfc kind (.snapshot value) = some t) :
    t.Tracks nfc kind (steps ++ [.snapshot value]) := by
  have hlatest : latestSnapshot (steps ++ [.snapshot value]) = value := by simp [latestSnapshot]
  by_cases hkeeps : KeepsFeed steps
  · have hopen := hs.live hkeeps
    cases hvalue : asDictionary value with
    | none =>
      simp only [step, hvalue, CurrentValueSubject.sendFailure_of_open hopen] at h
      cases h
      have hnot : ¬ KeepsFeed (steps ++ [.snapshot value]) := by simp [keepsFeed_snapshot, hvalue]
      exact ⟨fun h => absurd h hnot, fun h => absurd h hnot, fun h => absurd h hnot, fun _ => rfl⟩
    | some dict =>
      simp only [step, hvalue, CurrentValueSubject.send_of_open hopen] at h
      cases h
      refine ⟨fun _ => rfl, fun _ => ?_, fun _ => ?_, fun hnot => absurd ?_ hnot⟩
      · simp only [Option.isSome_some, true_iff]
        exact ⟨value, by simp⟩
      · rw [hlatest]
        simp [settled, CouponsViewModel.receive, FeedKind.children, hvalue]
      · exact keepsFeed_snapshot.mpr ⟨hkeeps, by simp [hvalue]⟩
  · have hclosed := hs.ended hkeeps
    rw [step_snapshot_of_closed nfc kind hclosed] at h
    cases h
    have hnot : ¬ KeepsFeed (steps ++ [.snapshot value]) := fun h => hkeeps (keepsFeed_snapshot.mp h).1
    exact ⟨fun h => absurd h hnot, fun h => absurd h hnot, fun h => absurd h hnot, fun _ => hclosed⟩

/-- Following the run is kept by the timer. -/
theorem Feed.Tracks.timer {nfc : String → String} {kind : FeedKind} {steps : List FeedStep} {s t : Feed}
    (hs : s.Tracks nfc kind steps) (h : s.step nfc kind .timer = some t) :
    t.Tracks nfc kind (steps ++ [.timer]) := by
  have hlatest : latestSnapshot (steps ++ [.timer]) = latestSnapshot steps := by simp [latestSnapshot]
  have hmem : (∃ value, FeedStep.snapshot value ∈ steps ++ [.timer]) ↔
      ∃ value, FeedStep.snapshot value ∈ steps := by simp
  simp only [step] at h
  split at h
  · contradiction
  · split at h
    · rename_i hvalue
      cases h
      refine ⟨fun hk => hs.live (keepsFeed_timer.mp hk).1, fun hk => ?_, fun hk => ?_, fun hnot => ?_⟩
      · rw [hmem]
        exact hs.held (keepsFeed_timer.mp hk).1
      · rw [hlatest]
        exact hs.shown (keepsFeed_timer.mp hk).1
      · apply hs.ended
        intro hkeeps
        exact hnot (keepsFeed_timer.mpr ⟨hkeeps, (hs.held hkeeps).mp hvalue⟩)
    · rename_i hvalue
      cases h
      have hnot : ¬ KeepsFeed (steps ++ [.timer]) := by
        intro hk
        obtain ⟨hkeeps, hevent⟩ := keepsFeed_timer.mp hk
        exact hvalue ((hs.held hkeeps).mpr hevent)
      refine ⟨fun h => absurd h hnot, fun h => absurd h hnot, fun h => absurd h hnot, fun _ => ?_⟩
      cases hopen : s.subject.subscription.isOpen with
      | true => simp [CurrentValueSubject.sendFailure_of_open hopen]
      | false => simp [CurrentValueSubject.sendFailure_of_closed hopen, hopen]

/-- Following the run is kept by a delivery. -/
theorem Feed.Tracks.deliver {nfc : String → String} {kind : FeedKind} {steps : List FeedStep} {s t : Feed}
    (hs : s.Tracks nfc kind steps) (h : s.step nfc kind .deliver = some t) :
    t.Tracks nfc kind (steps ++ [.deliver]) := by
  have hlatest : latestSnapshot (steps ++ [.deliver]) = latestSnapshot steps := by simp [latestSnapshot]
  have hmem : (∃ value, FeedStep.snapshot value ∈ steps ++ [.deliver]) ↔
      ∃ value, FeedStep.snapshot value ∈ steps := by simp
  simp only [step] at h
  split at h
  · contradiction
  · rename_i event queue hqueue
    cases h
    refine ⟨fun hk => hs.live (keepsFeed_deliver.mp hk), fun hk => ?_, fun hk => ?_,
      fun hnot => hs.ended fun hk => hnot (keepsFeed_deliver.mpr hk)⟩
    · rw [hmem]
      exact hs.held (keepsFeed_deliver.mp hk)
    · rw [hlatest, ← hs.shown (keepsFeed_deliver.mp hk)]
      simp [settled, hqueue]

/-- Every run without a cancelled listener is followed by its feed. -/
theorem Feed.tracks_run {nfc : String → String} {kind : FeedKind} {steps : List FeedStep} {s : Feed}
    (hcancel : ∀ message, .listenerCancel message ∉ steps)
    (h : run (Feed.step nfc kind) .start steps = some s) : s.Tracks nfc kind steps := by
  refine run_history (fun past s => (∀ message, .listenerCancel message ∉ past) → s.Tracks nfc kind past)
    (fun _ => Feed.tracks_start nfc kind) ?_ h hcancel
  intro past s a next ih ha hnone
  have hpast : s.Tracks nfc kind past := ih fun message hmem => hnone message (List.mem_append_left _ hmem)
  cases a with
  | snapshot value => exact hpast.snapshot ha
  | listenerCancel message => exact absurd (List.mem_append_right past List.mem_cons_self) (hnone message)
  | timer => exact hpast.timer ha
  | deliver => exact hpast.deliver ha

/-- A run that keeps the feed shows its latest event. -/
theorem showsLatest_of_keepsFeed (nfc : String → String) (kind : FeedKind) {steps : List FeedStep}
    (hcancel : ∀ message, .listenerCancel message ∉ steps) (hkeeps : KeepsFeed steps) :
    ShowsLatest nfc kind steps := by
  intro s hrun hqueue
  have hshown := (Feed.tracks_run hcancel hrun).shown hkeeps
  have hcoupons : s.viewModel.coupons = sortedByDescription nfc (kind.children (latestSnapshot steps)) := by
    rw [← hshown, Feed.settled, hqueue]
    rfl
  rw [hcoupons]
  exact ⟨List.perm_insertionSort _ _, List.pairwise_insertionSort _ _⟩

/-- Dictionaries and deliveries after a run that keeps the feed keep it. -/
theorem keepsFeed_append {steps later : List FeedStep} (hkeeps : KeepsFeed steps)
    (hlater : ∀ step ∈ later, step.IsDictionaryOrDelivery) : KeepsFeed (steps ++ later) := by
  induction later using List.reverseRecOn with
  | nil => simpa using hkeeps
  | append_singleton past a ih =>
    have hpast := ih fun step hstep => hlater step (List.mem_append_left _ hstep)
    have ha := hlater a (List.mem_append_right _ List.mem_cons_self)
    rw [← List.append_assoc]
    cases a with
    | snapshot value => exact keepsFeed_snapshot.mpr ⟨hpast, ha⟩
    | deliver => exact keepsFeed_deliver.mpr hpast
    | listenerCancel message => exact ha.elim
    | timer => exact ha.elim

/-- Deliveries empty the queue and leave the subject's completion as it is. -/
theorem Feed.exists_drained (nfc : String → String) (kind : FeedKind) (s : Feed) :
    ∃ n t, run (Feed.step nfc kind) s (List.replicate n .deliver) = some t ∧
      t.subject.subscription.queue = [] ∧
      t.subject.subscription.isOpen = s.subject.subscription.isOpen := by
  generalize hqueue : s.subject.subscription.queue = queue
  induction queue generalizing s with
  | nil => exact ⟨0, s, rfl, hqueue, rfl⟩
  | cons event queue ih =>
    let next : Feed := { s with
      subject := { s.subject with subscription := ⟨s.subject.subscription.isOpen, queue⟩ }
      viewModel := s.viewModel.receive nfc event }
    have hstep : s.step nfc kind .deliver = some next := by simp [step, hqueue, next]
    obtain ⟨n, t, hrun, hempty, hopen⟩ := ih next rfl
    exact ⟨n + 1, t, run_cons_eq_some.mpr ⟨next, hstep, hrun⟩, hempty, hopen⟩

/-- A directory with one coupon. -/
def oneCouponSnapshot : Node :=
  some (.node [(⟨"A", by decide⟩, .node [(Coupon.descriptionKey, stringNode "tea")])])

/-- A directory whose only child is not a coupon. -/
def noCouponSnapshot : Node := some (.node [(⟨"A", by decide⟩, stringNode "tea")])

/-- For every list there is a dictionary event that decodes to a list of another length. -/
theorem exists_other_snapshot (kind : FeedKind) (coupons : List Coupon) :
    ∃ value, (asDictionary value).isSome ∧ (kind.children value).length ≠ coupons.length := by
  cases coupons with
  | nil =>
    refine ⟨oneCouponSnapshot, by decide, ?_⟩
    cases kind <;> decide
  | cons first rest =>
    have hempty : (kind.children noCouponSnapshot).length = 0 := by cases kind <;> decide
    refine ⟨noCouponSnapshot, by decide, ?_⟩
    rw [hempty]
    simp

/-- A coupon feed goes on showing every later event exactly when its run so far had no null event and
no timer before the first event. -/
theorem feed_shows_later_events_iff (nfc : String → String) (kind : FeedKind) (steps : List FeedStep)
    (s : Feed) (hrun : run (Feed.step nfc kind) .start steps = some s)
    (hcancel : ∀ message, .listenerCancel message ∉ steps) :
    (∀ later, (∀ step ∈ later, step.IsDictionaryOrDelivery) → ShowsLatest nfc kind (steps ++ later)) ↔
      KeepsFeed steps := by
  constructor
  · intro hfresh
    by_contra hkeeps
    have hclosed := (Feed.tracks_run hcancel hrun).ended hkeeps
    obtain ⟨n, t, hdrain, hqueue, hopen⟩ := Feed.exists_drained nfc kind s
    obtain ⟨value, hdict, hlength⟩ := exists_other_snapshot kind t.viewModel.coupons
    have hlast : t.step nfc kind (.snapshot value) = some t :=
      Feed.step_snapshot_of_closed nfc kind (hopen.trans hclosed) value
    let later := List.replicate n FeedStep.deliver ++ [.snapshot value]
    have hlater : ∀ step ∈ later, step.IsDictionaryOrDelivery := by
      intro step hstep
      rcases List.mem_append.mp hstep with h | h
      · rw [List.eq_of_mem_replicate h]
        trivial
      · rw [List.mem_singleton.mp h]
        exact hdict
    have hfull : run (Feed.step nfc kind) .start (steps ++ later) = some t :=
      run_append_eq_some.mpr ⟨s, hrun, run_concat hdrain hlast⟩
    have hlatest : latestSnapshot (steps ++ later) = value := by simp [latestSnapshot, later]
    have hperm := (hfresh later hlater t hfull hqueue).1
    rw [hlatest] at hperm
    exact hlength hperm.length_eq.symm
  · intro hkeeps later hlater
    apply showsLatest_of_keepsFeed nfc kind ?_ (keepsFeed_append hkeeps hlater)
    intro message hmem
    rcases List.mem_append.mp hmem with h | h
    · exact hcancel message h
    · exact hlater _ h

/-- A first dictionary before the timer keeps the feed, and a later event is shown. -/
theorem feed_shows_event_after_timer :
    ShowsLatest id .mine
      ([.deliver, .snapshot oneCouponSnapshot, .timer] ++ [.snapshot noCouponSnapshot, .deliver, .deliver]) := by
  have hfirst : KeepsFeed ([] ++ [.deliver]) := keepsFeed_deliver.mpr ⟨by simp, by simp⟩
  have hevent : KeepsFeed ([.deliver] ++ [.snapshot oneCouponSnapshot]) :=
    keepsFeed_snapshot.mpr ⟨hfirst, by decide⟩
  have hkeeps : KeepsFeed ([.deliver, .snapshot oneCouponSnapshot] ++ [.timer]) :=
    keepsFeed_timer.mpr ⟨hevent, oneCouponSnapshot, by simp⟩
  apply (feed_shows_later_events_iff id .mine _ _ rfl (by simp)).mpr hkeeps
  intro step hstep
  simp only [List.mem_cons, List.not_mem_nil, or_false] at hstep
  rcases hstep with rfl | rfl | rfl
  · change (asDictionary noCouponSnapshot).isSome = true
    decide
  · trivial
  · trivial

/-- A new user has no coupon yet and adds one: the list stays empty. -/
theorem feed_frozen_after_null :
    ¬ ∀ (kind : FeedKind) (steps : List FeedStep), (∀ message, .listenerCancel message ∉ steps) →
      ShowsLatest id kind steps := by
  intro h
  have hfresh := h .mine [.snapshot none, .snapshot oneCouponSnapshot, .deliver, .deliver] (by simp) _ rfl rfl
  have hlength := hfresh.1.length_eq
  revert hlength
  decide

end LoveCoupons
