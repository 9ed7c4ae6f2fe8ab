import LoveCoupons.ViewModels

/-!
# The settings form and the stored record

The settings load the user's record at each appearance and write it at each submit. The response
of a load overwrites all three fields, whenever it is delivered and whatever was submitted in the
meantime. A load that read the record before a submit and is delivered after it brings the old
record back on the screen, from where the next submit stores it again.

A submit writes when it is issued, a load reads the record at any moment up to its response. Who
is signed in does not change here.
-/

namespace LoveCoupons

open KeyedTree Reactive StepSystem

/-- The fields of the settings, the loads and the submits in the order in which they were started, and
whether a field was edited since the last submit. A submit is kept under the record it sends. -/
structure SettingsForm where
  viewModel : SettingsViewModel
  loads : List (Subscription (Option UserInfo) ApiError)
  submits : Pool Backend Call Answer Bool ApiError UserInfo
  isEdited : Bool := false

/-- The settings appear, a field is edited, the record is submitted, a load gets its result, or an event is
delivered or another step of a request is taken. -/
inductive SettingsFormStep where
  | getUserInfo
  | editName (text : String)
  | editEmail (text : String)
  | editId (text : String)
  | submitButtonPressed (a : Answer)
  | answerLoad (i : ℕ) (outcome : ReadOutcome)
  | deliverLoad (i : ℕ)
  | progress (i : ℕ) (p : Progress Answer)

namespace SettingsForm

/-- The settings before they appear. -/
def opened (b : Backend) : SettingsForm := ⟨{}, [], .empty b, false⟩

/-- Edit a field. -/
def edit (s : SettingsForm) (press : SettingsPress) : SettingsForm :=
  { s with viewModel := (s.viewModel.act press).1, isEdited := true }

/-- What the sink of a submit does in a step of its request. -/
def sinkSubmit (vm : SettingsViewModel) (userInfo : UserInfo) (r : ApiRequest) : Progress Answer → SettingsViewModel
  | .deliver => (r.subscription.queue.head?.map (vm.receive (.setUserInfo userInfo))).getD vm
  | _ => vm

/-- One step of the settings. -/
def step (s : SettingsForm) : SettingsFormStep → Option SettingsForm
  | .getUserInfo => some { s with viewModel := (s.viewModel.act .getUserInfo).1, loads := s.loads ++ [.fresh] }
  | .editName text => some (s.edit (.editName text))
  | .editEmail text => some (s.edit (.editEmail text))
  | .editId text => some (s.edit (.editId text))
  | .submitButtonPressed a =>
    let item := s.viewModel.userInfoItem
    (s.submits.subscribe Backend.service item (setUserInfo s.submits.backend.currentUser item) a).map fun submits =>
      { s with viewModel := (s.viewModel.act .submitButtonPressed).1, submits := submits, isEdited := false }
  | .answerLoad i outcome => s.loads[i]?.map fun load =>
      { s with loads := s.loads.set i (load.promise ((getUserInfo s.submits.backend outcome).map some)) }
  | .deliverLoad i => s.loads[i]?.bind fun load =>
      match load.queue with
      | [] => none
      | event :: queue => some { s with
          viewModel := s.viewModel.receive .getUserInfo event
          loads := s.loads.set i ⟨load.isOpen, queue⟩ }
  | .progress i p => s.submits.requests[i]?.bind fun entry =>
      (s.submits.advance Backend.service timeoutError i p).map fun submits =>
        { s with viewModel := sinkSubmit s.viewModel entry.1 entry.2 p, submits := submits }

/-- The record stored under the user's identifier, as a load reads it. -/
def stored (s : SettingsForm) : Except ApiError UserInfo := getUserInfo s.submits.backend .snapshot

/-- The last submit was carried out without an error. -/
def lastSubmitSucceeded (s : SettingsForm) : Bool :=
  s.submits.requests.getLast?.any fun entry => reportsSuccess entry.2

/-- Every request has delivered its result. -/
def Quiet (s : SettingsForm) : Prop :=
  (∀ load ∈ s.loads, load.pending = false) ∧ ∀ entry ∈ s.submits.requests, entry.2.subscription.pending = false

instance (s : SettingsForm) : Decidable s.Quiet :=
  inferInstanceAs (Decidable ((∀ load ∈ s.loads, load.pending = false) ∧
    ∀ entry ∈ s.submits.requests, entry.2.subscription.pending = false))

/-- With no request outstanding, after a successful last submit and without an edit since, the form shows
the stored record. -/
def ShowsStored (s : SettingsForm) : Prop :=
  s.Quiet → s.lastSubmitSucceeded = true → s.isEdited = false → s.stored = .ok s.viewModel.userInfoItem

/-- A record that is delivered after a successful last submit, without an edit since, is the one stored at
that moment. -/
def deliversStored (s : SettingsForm) : SettingsFormStep → Prop
  | .deliverLoad i => ∀ load ∈ s.loads[i]?, ∀ event ∈ load.queue.head?, ∀ userInfo ∈ event.value?,
      s.lastSubmitSucceeded = true → s.isEdited = false → s.stored.map some = .ok userInfo
  | _ => True

instance (s : SettingsForm) : (a : SettingsFormStep) → Decidable (s.deliversStored a)
  | .deliverLoad i => inferInstanceAs (Decidable (∀ load ∈ s.loads[i]?, ∀ event ∈ load.queue.head?,
      ∀ userInfo ∈ event.value?, s.lastSubmitSucceeded = true → s.isEdited = false →
        s.stored.map some = .ok userInfo))
  | .getUserInfo => inferInstanceAs (Decidable True)
  | .editName _ => inferInstanceAs (Decidable True)
  | .editEmail _ => inferInstanceAs (Decidable True)
  | .editId _ => inferInstanceAs (Decidable True)
  | .submitButtonPressed _ => inferInstanceAs (Decidable True)
  | .answerLoad _ _ => inferInstanceAs (Decidable True)
  | .progress _ _ => inferInstanceAs (Decidable True)

/-- What the runs keep: every submit has made its write or was refused, and after a successful last submit
the record it sent is stored, and shown as long as no field is edited. -/
structure Kept (s : SettingsForm) : Prop where
  done : ∀ entry ∈ s.submits.requests, ∃ result, entry.2.rest = some (.done result)
  written : s.lastSubmitSucceeded = true → ∃ item, s.stored = .ok item ∧ item.filled = item
  shown : s.lastSubmitSucceeded = true → s.isEdited = false → s.stored = .ok s.viewModel.userInfoItem

end SettingsForm

/-- A submit comes to its end at once; if it succeeds, the user's record is replaced. -/
theorem subscribe_submit {b b' : Backend} {userInfo : UserInfo} {a : Answer} {r : ApiRequest}
    (h : Request.subscribe Backend.service b (setUserInfo b.currentUser userInfo) a = some (b', r)) :
    (∃ result, r.rest = some (.done result)) ∧
      (reportsSuccess r = true → getUserInfo b' .snapshot = .ok userInfo.filled) := by
  rcases Request.subscribe_cases h with ⟨error, -, -, rfl⟩ | ⟨chain, hfuture, hproceeds⟩
  · exact ⟨⟨_, rfl⟩, fun hsuccess => by cases hsuccess⟩
  · obtain ⟨-, uid, huid, rfl⟩ : Operation.IsChain b.currentUser (.setUserInfo userInfo) chain :=
      Operation.isChain_of_future hfuture
    cases hproceeds with
    | resolve hrest => cases hrest
    | await hrest himm =>
      cases hrest
      cases himm
    | @act call next _ hrest _ hrespond =>
      cases hrest
      have hend : ((Request.unstarted (.call (.setValue (userInfoRef uid) userInfo.toAnyObject) promiseUnlessError) :
          ApiRequest).answered a).rest = some (promiseUnlessError a) := Request.rest_answered rfl a
      obtain ⟨result, hdone⟩ := promiseUnlessError_done a
      refine ⟨⟨result, by rw [hend, hdone]⟩, fun hsuccess => ?_⟩
      rw [reportsSuccess_iff, hend, Option.some.injEq] at hsuccess
      have herror := (error_of_promiseUnlessError hsuccess).1
      rcases Backend.respond_setValue hrespond with ⟨hfailed, -⟩ | ⟨-, rfl⟩
      · simp [herror] at hfailed
      · simp only [getUserInfo, huid]
        rw [getChild_updateChild_self]
        exact userInfoOfSnapshot_toAnyObject userInfo

namespace SettingsForm

/-- The last submit is judged by its chain. -/
theorem lastSubmitSucceeded_update {s : SettingsForm} {i : ℕ} {tag : UserInfo} {b : Backend} {r r' : ApiRequest}
    (hget : s.submits.requests[i]? = some (tag, r)) (hrest : r'.rest = r.rest) (vm : SettingsViewModel) :
    lastSubmitSucceeded { s with viewModel := vm, submits := s.submits.update i tag b r r' } =
      s.lastSubmitSucceeded := by
  have hsame : reportsSuccess r' = reportsSuccess r := by rw [reportsSuccess, hrest, reportsSuccess]
  have hi : i < s.submits.requests.length := (List.getElem?_eq_some_iff.mp hget).1
  unfold lastSubmitSucceeded
  change ((s.submits.requests.set i (tag, r')).getLast?.any fun entry => reportsSuccess entry.2) = _
  rw [List.getLast?_eq_getElem?, List.getLast?_eq_getElem?, List.length_set]
  by_cases hlast : i = s.submits.requests.length - 1
  · rw [← hlast, List.getElem?_set_self hi, hget]
    exact hsame
  · rw [List.getElem?_set_ne hlast]

/-- New settings keep everything. -/
theorem kept_opened (b : Backend) : (opened b).Kept := by
  refine ⟨fun entry hentry => ?_, fun hsuccess => ?_, fun hsuccess => ?_⟩
  · cases hentry
  · cases hsuccess
  · cases hsuccess

/-- A submit sends what is shown, and a successful one stores it. -/
theorem Kept.submit {s t : SettingsForm} (hs : s.Kept) {a : Answer}
    (h : s.step (.submitButtonPressed a) = some t) : t.Kept := by
  obtain ⟨submits, hsubscribe, rfl⟩ := Option.map_eq_some_iff.mp h
  obtain ⟨b, r, hstart, rfl⟩ := Pool.subscribe_cases hsubscribe
  obtain ⟨hdone, hwritten⟩ := subscribe_submit hstart
  have hlast : lastSubmitSucceeded { s with
      viewModel := (s.viewModel.act .submitButtonPressed).1
      submits := s.submits.add s.viewModel.userInfoItem b r
      isEdited := false } = reportsSuccess r := by
    simp [lastSubmitSucceeded, Pool.add]
  refine ⟨Pool.forall_add (P := fun _ r => ∃ result, r.rest = some (.done result)) hs.done hdone, fun hsuccess => ?_,
    fun hsuccess _ => hwritten (hlast ▸ hsuccess)⟩
  exact ⟨_, hwritten (hlast ▸ hsuccess), rfl⟩

/-- A step of a submit changes neither the stored record nor what is shown. -/
theorem Kept.progress {s t : SettingsForm} (hs : s.Kept) {i : ℕ} {p : Progress Answer}
    (h : s.step (.progress i p) = some t) : t.Kept := by
  obtain ⟨⟨tag, r⟩, hget, h⟩ := Option.bind_eq_some_iff.mp h
  obtain ⟨submits, hadvance, rfl⟩ := Option.map_eq_some_iff.mp h
  obtain ⟨tag', r₀, b, r', hget', hadv, rfl⟩ := Pool.advance_cases hadvance
  cases hget.symm.trans hget'
  obtain ⟨result, hdone⟩ := hs.done _ (List.mem_of_getElem? hget)
  obtain ⟨rfl, hrest⟩ := (Request.advance_cases hadv).of_done hdone
  have hlast := fun vm => lastSubmitSucceeded_update (b := s.submits.backend) hget hrest vm
  have hshown : (sinkSubmit s.viewModel tag r p).userInfoItem = s.viewModel.userInfoItem := by
    cases p with
    | deliver =>
      cases hhead : r.subscription.queue.head? with
      | none => simp [sinkSubmit, hhead]
      | some event =>
        cases event <;> simp [sinkSubmit, hhead, SettingsViewModel.receive, SettingsViewModel.userInfoItem]
    | _ => rfl
  refine ⟨Pool.forall_update (P := fun _ r => ∃ result, r.rest = some (.done result)) hs.done
    ⟨result, hrest.trans hdone⟩, fun hsuccess => ?_, fun hsuccess hedited => ?_⟩
  · exact hs.written ((hlast _).symm.trans hsuccess)
  · exact (hs.shown ((hlast _).symm.trans hsuccess) hedited).trans (by rw [hshown])

/-- A delivered response keeps what is shown if it carries the stored record. -/
theorem Kept.deliverLoad {s t : SettingsForm} (hs : s.Kept) {i : ℕ} (hcond : s.deliversStored (.deliverLoad i))
    (h : s.step (.deliverLoad i) = some t) : t.Kept := by
  obtain ⟨load, hget, h⟩ := Option.bind_eq_some_iff.mp h
  cases hqueue : load.queue with
  | nil => simp [hqueue] at h
  | cons event queue =>
    simp only [hqueue, Option.some.injEq] at h
    subst h
    refine ⟨hs.done, hs.written, fun hsuccess hedited => ?_⟩
    cases event with
    | finished => exact hs.shown hsuccess hedited
    | failure error => exact hs.shown hsuccess hedited
    | value userInfo =>
      have hcurrent := hcond load hget _ (by rw [hqueue]; rfl) userInfo rfl hsuccess hedited
      obtain ⟨item, hstored, hfilled⟩ := hs.written hsuccess
      rw [hstored] at hcurrent
      obtain rfl : some item = userInfo := Except.ok.inj hcurrent
      exact hstored.trans (congrArg Except.ok hfilled.symm)

/-- Every step that delivers only stored records keeps everything. -/
theorem Kept.step {s t : SettingsForm} {a : SettingsFormStep} (hs : s.Kept) (hcond : s.deliversStored a)
    (h : s.step a = some t) : t.Kept := by
  have hedit : ∀ press, (s.edit press).Kept := fun press =>
    ⟨hs.done, hs.written, fun _ hedited => by cases hedited⟩
  cases a with
  | getUserInfo =>
    cases h
    exact ⟨hs.done, hs.written, hs.shown⟩
  | editName text =>
    cases h
    exact hedit _
  | editEmail text =>
    cases h
    exact hedit _
  | editId text =>
    cases h
    exact hedit _
  | submitButtonPressed a => exact hs.submit h
  | answerLoad i outcome =>
    obtain ⟨load, -, rfl⟩ := Option.map_eq_some_iff.mp h
    exact ⟨hs.done, hs.written, hs.shown⟩
  | deliverLoad i => exact hs.deliverLoad hcond h
  | progress i p => exact hs.progress h

end SettingsForm

/-- In every run in which each record that a load delivers after a successful last submit, without an edit
since, is the one stored at that moment, the form shows the stored record in every state with no request
outstanding, a successful last submit and no edit since. -/
theorem settings_show_stored_record (b : Backend) (steps : List SettingsFormStep)
    (hcond : Along SettingsForm.step SettingsForm.deliversStored (.opened b) steps) :
    Always SettingsForm.step SettingsForm.ShowsStored (.opened b) steps := by
  have hkept := always_of_along SettingsForm.Kept (fun _ _ _ hs hcond h => hs.step hcond h)
    (SettingsForm.kept_opened b) hcond
  exact hkept.mono fun s hs _ hsuccess hedited => hs.shown hsuccess hedited

/-- The user of the examples. -/
def settingsUser : Key := ⟨"uid-sam", by decide⟩

/-- A signed-in user with a stored record. -/
def storedProfile : Backend where
  currentUser := some settingsUser
  database := updateChild none (userInfoRef settingsUser) (UserInfo.toAnyObject ⟨some "Sam", some "", some "bob"⟩)

/-- The record is loaded, edited and submitted. -/
def loadEditSubmit : List SettingsFormStep :=
  [.getUserInfo, .answerLoad 0 .snapshot, .deliverLoad 0, .editName "Samuel", .submitButtonPressed {},
    .progress 0 (.callback {}), .progress 0 .deliver]

/-- After the submit the new record is stored and shown. -/
theorem loadEditSubmit_shows_stored :
    ∃ s, run SettingsForm.step (.opened storedProfile) loadEditSubmit = some s ∧ s.viewModel.name = "Samuel" ∧
      s.stored = .ok s.viewModel.userInfoItem := by
  have halways := settings_show_stored_record storedProfile loadEditSubmit (by decide)
  exact ⟨_, rfl, rfl, halways loadEditSubmit [] _ rfl rfl (by decide) rfl rfl⟩

/-- The record is loaded and edited, the settings appear again and their load reads the old record, the edited one
is submitted, and the response of the load is delivered before the success of the submit. -/
def submitBeforeResponse : List SettingsFormStep :=
  [.getUserInfo, .answerLoad 0 .snapshot, .deliverLoad 0, .deliverLoad 0, .editName "Samuel", .getUserInfo,
    .answerLoad 1 .snapshot, .submitButtonPressed {}, .progress 0 (.callback {}), .deliverLoad 1, .deliverLoad 1,
    .progress 0 .deliver]

/-- The saved record is replaced on the screen by the old one. -/
theorem stale_load_replaces_submitted_record :
    ¬ ∀ b steps s, run SettingsForm.step (.opened b) steps = some s → s.ShowsStored := by
  intro h
  have hshown := h storedProfile submitBeforeResponse _ rfl (by decide) rfl rfl
  revert hshown
  decide

end LoveCoupons
