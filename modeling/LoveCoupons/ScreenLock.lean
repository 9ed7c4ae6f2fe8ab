import LoveCoupons.ViewModels
import LoveCoupons.Lib.LoadingFlag

/-!
# The loading flag of the view models

Every view model has one `isShowLoading` for all its requests. Every result either clears the
flag or starts the next stage of its request, so a view model whose requests have all reported
is never left loading.

The other direction is not kept. Each handler clears the flag on its own, whatever else is
running. The end of `createUser` clears it while `setUserInfo` has just been started, and the
feeds replay a `nil` that clears it before the first snapshot.
-/

namespace LoveCoupons

open Reactive StepSystem

/-- The flag of the login, sign-up and reset view models: only the value that starts a second stage leaves
it as it is. -/
def formFlag {A : Type} (press : A → Option Operation) : LoadingFlag (formViewModel press) where
  isShowing := FormViewModel.isShowLoading
  expected _ := 1
  clears op event :=
    match event with
    | .value _ => (sinks.onValue op).isLeft
    | _ => true
  act_eq {vm a _ _} h := by
    cases hpress : press a <;> simp only [formViewModel, hpress] at h <;> cases h <;> simp
  receive_eq {vm op event vm' next} h := by
    have hreceive : vm.receive op event = (vm', next) := Option.some.inj h
    cases event with
    | value v =>
      cases hvalue : sinks.onValue op <;> simp only [FormViewModel.receive, hvalue] at hreceive <;>
        cases hreceive <;> simp
    | finished => cases hreceive; simp
    | failure error => cases hreceive; simp
  result {vm op event vm' next} h hresult _ := by
    have hreceive : vm.receive op event = (vm', next) := Option.some.inj h
    cases event with
    | value v =>
      cases hvalue : sinks.onValue op <;> simp only [FormViewModel.receive, hvalue] at hreceive <;>
        cases hreceive <;> simp
    | finished => cases hresult
    | failure error => exact .inl rfl
  nested {vm op event _ _} h _ := by
    simp only [formViewModel, Option.some.injEq] at h
    cases event with
    | value v =>
      cases hvalue : sinks.onValue op with
      | inl action => simp [FormViewModel.receive, hvalue] at h
      | inr next => exact ⟨rfl, rfl, Nat.one_pos, rfl⟩
    | finished => cases h
    | failure error => cases h

/-- The flag of the sign-up view model. -/
def signUpFlag : LoadingFlag signUpViewModel := formFlag _

/-- The flag of the settings: every event clears it. -/
def settingsFlag : LoadingFlag settingsViewModel where
  isShowing := SettingsViewModel.isShowLoading
  expected _ := 1
  clears _ _ := true
  act_eq {_ press _ _} h := by cases press <;> cases h <;> simp
  receive_eq {_ request event _ _} h := by
    cases request <;> cases event <;> cases h <;> simp [SettingsViewModel.receive, SettingsViewModel.load]
  result _ _ _ := .inl rfl
  nested h _ := by cases h

/-- The flag of the coupon screen: only the end of an image load leaves it as it is. -/
def couponEditFlag (isURL : String → Bool) : LoadingFlag (couponEditViewModel isURL) where
  isShowing := CouponEditViewModel.isShowLoading
  expected _ := 1
  clears
    | .updateCoupon _ _ _ _, _ => true
    | .getMediaData _, event => event.isResult
  act_eq {vm press _ _} h := by
    cases press with
    | pick image =>
      simp only [couponEditViewModel, CouponEditViewModel.act] at h
      split at h <;> cases h
      simp
    | _ => cases h; simp
  receive_eq {_ request event _ _} h := by
    cases h
    cases request with
    | updateCoupon => cases event <;> simp [CouponEditViewModel.receive]
    | getMediaData =>
      cases event with
      | value image => simp [CouponEditViewModel.receive, Event.isResult]
      | finished => simp [CouponEditViewModel.receive, Event.isResult]
      | failure error => exact error.elim
  result {_ request event _ _} _ hresult _ := by
    cases request with
    | updateCoupon => exact .inl rfl
    | getMediaData => exact .inl hresult
  nested h _ := by cases h

/-- The flag of the user's coupons: only an end that never comes leaves it as it is. A feed counts until
the result after its replayed value. -/
def myCouponsFlag (nfc : String → String) : LoadingFlag (myCouponsViewModel nfc) where
  isShowing := CouponsViewModel.isShowLoading
  expected request := if request.userUid.isSome then 2 else 1
  clears _ event := event.isResult
  act_eq {vm press _ _} h := by
    cases press with
    | deleteItems offsets =>
      obtain ⟨coupons, -, heq⟩ := Option.map_eq_some_iff.mp h
      cases heq
      simp
    | _ => cases h; simp
  receive_eq {_ _ event _ _} h := by
    cases h
    cases event <;> simp [CouponsViewModel.receive, Event.isResult]
  result _ hresult _ := .inl hresult
  nested h _ := by cases h

/-- The requests of a tap are not counted. -/
def PairCouponsRequest.expected : PairCouponsRequest → ℕ
  | .getUserInfo => 1
  | .getPairCoupons _ => 2
  | _ => 0

/-- The events that clear the flag of the pair's coupons. -/
def PairCouponsRequest.clears : (request : PairCouponsRequest) → Event request.Value ApiError → Bool
  | .getUserInfo, .failure _ => true
  | .getPairCoupons _, event => event.isResult
  | _, _ => false

/-- The flag of the pair's coupons. -/
def pairCouponsFlag (nfc : String → String) : LoadingFlag (pairCouponsViewModel nfc) where
  isShowing vm := vm.list.isShowLoading
  expected := PairCouponsRequest.expected
  clears := PairCouponsRequest.clears
  act_eq {vm press _ _} h := by
    cases press with
    | showSendEmailView canSendMail coupon =>
      cases canSendMail <;> cases h <;> simp [PairCouponsViewModel.showError, PairCouponsRequest.expected]
    | makeUIViewController i =>
      obtain ⟨vm', hend, heq⟩ := Option.map_eq_some_iff.mp h
      obtain ⟨p, -, -, rfl⟩ := PairCouponsViewModel.endPresentation_cases hend
      cases heq
      simp
    | dropPresentation i =>
      obtain ⟨vm', hend, heq⟩ := Option.map_eq_some_iff.mp h
      obtain ⟨p, -, -, rfl⟩ := PairCouponsViewModel.endPresentation_cases hend
      cases heq
      simp
  receive_eq {vm request event _ _} h := by
    cases PairCouponsViewModel.receive_cases h with
    | loaded => simp [PairCouponsRequest.clears]
    | notLoaded => simp [PairCouponsRequest.clears, PairCouponsViewModel.showError]
    | fed pairUniqId event =>
      cases event <;> simp [PairCouponsRequest.clears, CouponsViewModel.receive, Event.isResult]
    | asked => simp [PairCouponsRequest.clears]
    | read => simp [PairCouponsRequest.clears, PairCouponsViewModel.showSendMailPicker]
    | mailFailed request error hmail =>
      cases request <;>
        simp_all [PairCouponsRequest.clears, PairCouponsRequest.isForMail, PairCouponsViewModel.showError]
    | finished request hfeed =>
      cases request <;> simp_all [PairCouponsRequest.clears, PairCouponsRequest.isFeed]
  result {vm request event _ _} h hresult hcounted := by
    cases PairCouponsViewModel.receive_cases h with
    | loaded userInfo pairUniqId => exact .inr ⟨_, rfl, Nat.two_pos⟩
    | notLoaded => exact .inl rfl
    | fed => exact .inl hresult
    | asked => cases hcounted
    | read => cases hcounted
    | mailFailed request error hmail =>
      cases request <;> simp_all [PairCouponsRequest.expected, PairCouponsRequest.isForMail]
    | finished => cases hresult
  nested {vm request event _ _} h hcounted := by
    cases PairCouponsViewModel.receive_cases h with
    | loaded => exact ⟨rfl, rfl, Nat.one_pos, rfl⟩
    | asked => cases hcounted

/-- A view model whose requests have all delivered a result is not left loading, in any run of any of the
view models. -/
theorem no_view_model_left_loading (nfc : String → String) (isURL : String → Bool) (userUid : Option Key)
    (coupon : Coupon) :
    (∀ steps s, run (Host.step loginViewModel) (.opened {}) steps = some s →
      (∀ r ∈ s.requests, 0 < r.received) → s.fields.isShowLoading = false) ∧
    (∀ steps s, run (Host.step signUpViewModel) (.opened {}) steps = some s →
      (∀ r ∈ s.requests, 0 < r.received) → s.fields.isShowLoading = false) ∧
    (∀ steps s, run (Host.step resetPasswordViewModel) (.opened {}) steps = some s →
      (∀ r ∈ s.requests, 0 < r.received) → s.fields.isShowLoading = false) ∧
    (∀ steps s, run (Host.step settingsViewModel) (.opened {}) steps = some s →
      (∀ r ∈ s.requests, 0 < r.received) → s.fields.isShowLoading = false) ∧
    (∀ steps s, run (Host.step (couponEditViewModel isURL)) (.opened (.opened coupon)) steps = some s →
      (∀ r ∈ s.requests, 0 < r.received) → s.fields.isShowLoading = false) ∧
    (∀ steps s, run (Host.step (myCouponsViewModel nfc)) (myCouponsLaunched nfc userUid) steps = some s →
      (∀ r ∈ s.requests, 0 < r.received) → s.fields.isShowLoading = false) ∧
    ∀ steps s, run (Host.step (pairCouponsViewModel nfc)) (pairCouponsLaunched nfc) steps = some s →
      (∀ r ∈ s.requests, 0 < r.received) → s.fields.list.isShowLoading = false := by
  refine ⟨fun _ _ hrun hall => ?_, fun _ _ hrun hall => ?_, fun _ _ hrun hall => ?_, fun _ _ hrun hall => ?_,
    fun _ _ hrun hall => ?_, fun _ _ hrun hall => ?_, fun _ _ hrun hall => ?_⟩
  · exact LoadingFlag.isShowing_eq_false_of_run ((formFlag _).owed_opened rfl) hrun hall
  · exact LoadingFlag.isShowing_eq_false_of_run ((formFlag _).owed_opened rfl) hrun hall
  · exact LoadingFlag.isShowing_eq_false_of_run ((formFlag _).owed_opened rfl) hrun hall
  · exact LoadingFlag.isShowing_eq_false_of_run (settingsFlag.owed_opened rfl) hrun hall
  · exact LoadingFlag.isShowing_eq_false_of_run ((couponEditFlag isURL).owed_opened rfl) hrun hall
  · have hcounted : 0 < (myCouponsFlag nfc).expected ⟨userUid⟩ := by cases userUid <;> simp [myCouponsFlag]
    exact LoadingFlag.isShowing_eq_false_of_run ((myCouponsFlag nfc).owed_launched hcounted) hrun hall
  · have hcounted : 0 < (pairCouponsFlag nfc).expected .getUserInfo := Nat.one_pos
    exact LoadingFlag.isShowing_eq_false_of_run ((pairCouponsFlag nfc).owed_launched hcounted) hrun hall

/-- A press on the sign-up screen. -/
def signUpPress : SignUpPress := ⟨"Eve", "eve@mail", "bob", "secret"⟩

/-- The sign-up goes through: the account is created, then the profile is written. -/
def signUpThrough : List (HostStep SignUpPress (fun _ : Operation => Bool) (fun _ => ApiError)) :=
  [.act signUpPress, .complete 0 fun _ => .ok true, .deliver 0, .deliver 0, .complete 1 fun _ => .ok true,
    .deliver 1]

/-- After the sign-up both requests have delivered their results and nothing is loading. -/
theorem signUpThrough_not_loading : ∃ s, run (Host.step signUpViewModel) (.opened {}) signUpThrough = some s ∧
    (∀ r ∈ s.requests, 0 < r.received) ∧ s.fields.isShowLoading = false := by
  refine ⟨_, rfl, ?_, (no_view_model_left_loading id (fun _ => true) none {}).2.1 signUpThrough _ rfl ?_⟩ <;>
  · intro r hr
    rcases List.mem_cons.mp hr with rfl | hr
    · exact Nat.one_pos
    · rw [List.mem_singleton.mp hr]
      exact Nat.one_pos

/-- The flag of a view model is set in every state of a run in which a request waits for its result, exactly
when every event of the run that clears the flag is delivered while no other request waits, and is the
last that its own request waits for. -/
theorem loading_while_pending_iff (nfc : String → String) (isURL : String → Bool) (userUid : Option Key)
    (coupon : Coupon) :
    (∀ steps s, run (Host.step settingsViewModel) (.opened {}) steps = some s →
      (Always (Host.step settingsViewModel) settingsFlag.Locked (.opened {}) steps ↔
        Along (Host.step settingsViewModel) settingsFlag.clearsLast (.opened {}) steps)) ∧
    (∀ steps s, run (Host.step signUpViewModel) (.opened {}) steps = some s →
      (Always (Host.step signUpViewModel) signUpFlag.Locked (.opened {}) steps ↔
        Along (Host.step signUpViewModel) signUpFlag.clearsLast (.opened {}) steps)) ∧
    (∀ steps s, run (Host.step (couponEditViewModel isURL)) (.opened (.opened coupon)) steps = some s →
      (Always (Host.step (couponEditViewModel isURL)) (couponEditFlag isURL).Locked (.opened (.opened coupon)) steps ↔
        Along (Host.step (couponEditViewModel isURL)) (couponEditFlag isURL).clearsLast (.opened (.opened coupon))
          steps)) ∧
    (∀ steps s, run (Host.step (myCouponsViewModel nfc)) (myCouponsLaunched nfc userUid) steps = some s →
      (Always (Host.step (myCouponsViewModel nfc)) (myCouponsFlag nfc).Locked (myCouponsLaunched nfc userUid) steps ↔
        Along (Host.step (myCouponsViewModel nfc)) (myCouponsFlag nfc).clearsLast
          (myCouponsLaunched nfc userUid) steps)) ∧
    ∀ steps s, run (Host.step (pairCouponsViewModel nfc)) (pairCouponsLaunched nfc) steps = some s →
      (Always (Host.step (pairCouponsViewModel nfc)) (pairCouponsFlag nfc).Locked (pairCouponsLaunched nfc) steps ↔
        Along (Host.step (pairCouponsViewModel nfc)) (pairCouponsFlag nfc).clearsLast
          (pairCouponsLaunched nfc) steps) := by
  refine ⟨fun _ _ hrun => ?_, fun _ _ hrun => ?_, fun _ _ hrun => ?_, fun _ _ hrun => ?_, fun _ _ hrun => ?_⟩
  · exact LoadingFlag.always_locked_iff (Host.oneResults_opened _) (LoadingFlag.locked_opened _ _) hrun
  · exact LoadingFlag.always_locked_iff (Host.oneResults_opened _) (LoadingFlag.locked_opened _ _) hrun
  · exact LoadingFlag.always_locked_iff (Host.oneResults_opened _) (LoadingFlag.locked_opened _ _) hrun
  · exact LoadingFlag.always_locked_iff (Host.oneResults_launched _ _) (LoadingFlag.locked_of_showing _ rfl) hrun
  · exact LoadingFlag.always_locked_iff (Host.oneResults_launched _ _) (LoadingFlag.locked_of_showing _ rfl) hrun

/-- The account is not created, and the failure is delivered. -/
def signUpRefused : List (HostStep SignUpPress (fun _ : Operation => Bool) (fun _ => ApiError)) :=
  [.act signUpPress, .complete 0 fun _ => .error timeoutError, .deliver 0]

/-- A sign-up whose first stage fails is locked until the failure is delivered. -/
theorem signUpRefused_locked : ∃ s, run (Host.step signUpViewModel) (.opened {}) signUpRefused = some s ∧
    Always (Host.step signUpViewModel) signUpFlag.Locked (.opened {}) signUpRefused := by
  refine ⟨_, rfl, ((loading_while_pending_iff id (fun _ => true) none {}).2.1 signUpRefused _ rfl).mpr ?_⟩
  refine ⟨trivial, fun next hnext => ⟨trivial, fun next' hnext' => ⟨?_, fun _ _ => trivial⟩⟩⟩
  cases hnext
  cases hnext'
  intro r event queue hget hqueue _
  cases hget
  cases hqueue
  refine ⟨rfl, fun j r' hj hget' => ?_⟩
  cases j with
  | zero => exact absurd rfl hj
  | succ j => cases hget'

/-- The account is created; the end of that request clears the flag while the profile is being written. -/
theorem signUp_unlocked_while_pending :
    ¬ ∀ steps s, run (Host.step signUpViewModel) (.opened {}) steps = some s → signUpFlag.Locked s := by
  intro h
  have hlocked := h [.act signUpPress, .complete 0 fun _ => .ok true, .deliver 0, .deliver 0] _ rfl
  exact Bool.false_ne_true (hlocked ⟨_, List.mem_cons_of_mem _ List.mem_cons_self, rfl⟩)

end LoveCoupons
