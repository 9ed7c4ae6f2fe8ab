import LoveCoupons.Operation
import LoveCoupons.Lib.ScreenSettle
import LoveCoupons.Lib.ScreenTrace

/-!
# The screens with a button that sends

The login, sign-up, reset and coupon screens share one pattern: a press starts an operation
of the manager, a failure shows its text, and a value leads to the screen's success action.
Only sign-up has a second stage: the value of the account creation starts the write of the
profile, for the user who is signed in at that moment.

A screen stays alive while its requests run, so no subscription is cancelled here. The views
let no press through while the loading flag is set; the view models do not look at it, and
presses are possible here at any time.
-/

namespace LoveCoupons

open Reactive StepSystem

/-- What a coordinator is asked to do at the end of a press. -/
inductive Action where
  | navigateToTabs
  | showSuccessMessage
  | navigateBack
  | showError (text : String)
  deriving DecidableEq

/-- `LoginViewModel.loginButtonPressed` -/
def loginButtonPressed (userLogin userPass : String) : Operation := .login userLogin userPass

/-- `SignUpViewModel.createUserButtonPressed` -/
def createUserButtonPressed (name email pairUniqId password : String) : Operation :=
  .createUser ⟨some name, some email, some pairUniqId⟩ email password

/-- `sendButtonPressed(email:)` -/
def ResetPasswordViewModel.sendButtonPressed (email : String) : Operation := .resetPassword email

/-- An image as the coupon screen uses it: whether it is the placeholder, and its compressed bytes. -/
structure UIImage where
  isAddImage : Bool
  jpegData : Option Data

/-- `image != UIImage(asset: Asset.addImage) ? image?.jpegData(compressionQuality: 0.5) : nil` -/
def imageData (image : Option UIImage) : Option Data :=
  image.bind fun image => if image.isAddImage then none else image.jpegData

/-- `sendButtonPressed(image:)`, with the identifiers that the operation draws. -/
def CouponEditViewModel.sendButtonPressed (coupon : Coupon) (text : String) (image : Option UIImage)
    (object fresh : UUID) : Operation :=
  .updateCoupon object fresh { coupon with description := text } (imageData image)

/-- The sinks of the view models. -/
def sinks : Flow Backend Call Answer Bool ApiError Operation Action where
  publisher b op := op.publisher b.currentUser
  onValue
    | .login _ _ => .inl .navigateToTabs
    | .createUser userInfo _ _ => .inr (.setUserInfo userInfo)
    | .setUserInfo _ => .inl .navigateToTabs
    | .resetPassword _ => .inl .showSuccessMessage
    | .updateCoupon _ _ _ _ => .inl .navigateBack
  onFailure error := .showError error.type.text

/-- A screen with its requests and the actions it has taken. -/
abbrev AppScreen := Screen Backend Call Answer Bool ApiError Operation Action

/-- A step of a screen. -/
abbrev AppScreen.step (s : AppScreen) (a : ScreenStep Operation Answer) : Option AppScreen :=
  Screen.step sinks Backend.service timeoutError s a

/-- The operations that a press leads through before its success action. -/
def Operation.stages : Operation → List Operation
  | .createUser userInfo email password => [.createUser userInfo email password, .setUserInfo userInfo]
  | op => [op]

/-- The answers by which the backend confirms an operation: of each call without an error, and for a
coupon of the record's write with the URL that the storage reported. -/
def Operation.Confirms : Operation → List Answer → Prop
  | .updateCoupon _ _ _ _, answers => ∃ upload fetch write url, answers = [upload, fetch, write] ∧
      fetch.url = some url ∧ write.error = none
  | _, answers => ∃ a, answers = [a] ∧ a.error = none

/-- A chain of one call that ended in success was confirmed. -/
theorem confirms_of_single {call : Call} {answers : List Answer} {success : Bool}
    (h : (Chain.call call promiseUnlessError).resume answers = some (.done (.ok success))) :
    ∃ a, answers = [a] ∧ a.error = none := by
  rcases Chain.resume_single_cases promiseUnlessError_done h with ⟨-, hwait⟩ | ⟨a, hanswers, hend⟩
  · cases hwait
  · exact ⟨a, hanswers, (error_of_promiseUnlessError hend.symm).1⟩

/-- An operation whose chain ended in success was confirmed by the backend. -/
theorem Operation.confirms_of_success {op : Operation} {userUid : Option Key} {chain : ApiChain}
    {answers : List Answer} {success : Bool} (hchain : op.IsChain userUid chain)
    (h : chain.resume answers = some (.done (.ok success))) : op.Confirms answers := by
  cases op with
  | login email password =>
    obtain rfl : chain = _ := hchain
    exact confirms_of_single h
  | createUser userInfo email password =>
    obtain rfl : chain = _ := hchain
    exact confirms_of_single h
  | setUserInfo userInfo =>
    obtain ⟨-, uid, -, rfl⟩ := hchain
    exact confirms_of_single h
  | resetPassword email =>
    obtain rfl : chain = _ := hchain
    exact confirms_of_single h
  | updateCoupon object fresh coupon data =>
    obtain ⟨uid, bytes, -, -, rfl⟩ := hchain
    exact answers_of_updateCoupon_success h

/-- A request runs the chain of its operation or was refused. -/
theorem startedBy_cases {op : Operation} {origin : ApiChain} (h : Screen.StartedBy sinks op origin) :
    (∃ userUid, op.IsChain userUid origin) ∨ ∃ error, origin = .done (.error error) := by
  obtain ⟨b, hfuture | ⟨error, -, hfail⟩⟩ := h
  · exact .inl ⟨b.currentUser, Operation.isChain_of_future hfuture⟩
  · exact .inr ⟨error, hfail⟩

/-- A chain of one call makes only that call. -/
theorem made_of_single {r : ApiRequest} {call : Call} (horigin : r.origin = .call call promiseUnlessError)
    {entry : Call × Answer} (h : entry ∈ r.made) : entry.1 = call := by
  unfold Request.made at h
  rw [horigin] at h
  cases hanswers : r.answers with
  | nil => simp [hanswers] at h
  | cons a more =>
    obtain ⟨result, hdone⟩ := promiseUnlessError_done a
    rw [hanswers, Chain.trace_call_cons, hdone] at h
    rcases List.mem_cons.mp h with rfl | hmore
    · rfl
    · cases more <;> cases hmore

/-- A refused request makes no call. -/
theorem made_of_refused {r : ApiRequest} {error : ApiError} (horigin : r.origin = .done (.error error)) :
    r.made = [] := by
  unfold Request.made
  rw [horigin]
  cases r.answers <;> rfl

/-- The operation was answered without an error and its subscriber will receive the value. -/
def arriving (r : ApiRequest) : Bool :=
  (r.subscription.isOpen && r.answers.any fun a => a.error.isNone) ||
    r.subscription.queue.any fun event => event matches .value _

/-- A value in the queue is arriving. -/
theorem arriving_of_value {r : ApiRequest} {v : Bool} (h : .value v ∈ r.subscription.queue) :
    arriving r = true := by
  rw [arriving, Bool.or_eq_true]
  exact .inr (List.any_eq_true.mpr ⟨_, h, rfl⟩)

/-- Nothing is arriving without an answer and without a value in the queue. -/
theorem not_arriving {r : ApiRequest} (hanswers : (r.answers.any fun a => a.error.isNone) = false)
    (hqueue : ∀ v, .value v ∉ r.subscription.queue) : arriving r = false := by
  rw [arriving, hanswers, Bool.and_false, Bool.false_or, List.any_eq_false]
  intro event hevent
  cases event with
  | value v => exact absurd hevent (hqueue v)
  | finished => simp
  | failure error => simp

/-- An answer with an error brings no value. -/
theorem arriving_answered_of_error {r : ApiRequest} (hr : r.Valid timeoutError) (hphase : r.phase ≠ .over)
    (hanswers : r.answers = []) {a : Answer} (herror : a.error.isSome = true) :
    arriving (r.answered a) = false := by
  obtain ⟨error, herror⟩ := Option.isSome_iff_exists.mp herror
  apply not_arriving
  · simp [Request.answered, hanswers, herror]
  · intro v hvalue
    exact hphase (hr.value_promised v hvalue).1

/-- Nothing is arriving at a new request whose call waits for its answer. -/
theorem arriving_subscribe {b b' : Backend} {publisher : ApiPublisher} {a : Answer} {r : ApiRequest}
    (h : Request.subscribe Backend.service b publisher a = some (b', r))
    (hcall : ∀ call next, publisher = .future (.call call next) → Backend.service.immediate call = false)
    (hdone : ∀ v, publisher ≠ .future (.done (.ok v))) : b' = b ∧ arriving r = false := by
  rcases Request.subscribe_cases h with ⟨error, -, rfl, rfl⟩ | ⟨chain, rfl, hproceeds⟩
  · exact ⟨rfl, rfl⟩
  · cases hproceeds with
    | @resolve result hrest =>
      obtain rfl : chain = .done result := Option.some.inj ((Chain.resume_nil chain).symm.trans hrest)
      cases result with
      | ok v => exact absurd rfl (hdone v)
      | error error => exact ⟨rfl, rfl⟩
    | @act call next _ hrest himm _ =>
      obtain rfl : chain = .call call next := Option.some.inj ((Chain.resume_nil chain).symm.trans hrest)
      rw [hcall call next rfl] at himm
      cases himm
    | await _ _ => exact ⟨rfl, rfl⟩

/-- Every operation but the write of a profile starts with a call whose callback comes later. -/
theorem Operation.IsChain.exists_call {userUid : Option Key} {op : Operation} {chain : ApiChain}
    (hop : ∀ userInfo, op ≠ .setUserInfo userInfo) (h : op.IsChain userUid chain) :
    ∃ call next, chain = .call call next ∧ Backend.service.immediate call = false := by
  cases op with
  | setUserInfo userInfo => exact absurd rfl (hop userInfo)
  | updateCoupon object fresh coupon data =>
    obtain ⟨uid, bytes, -, -, hchain⟩ := h
    exact ⟨_, _, hchain, rfl⟩
  | _ => exact ⟨_, _, h, rfl⟩

/-- Nothing is arriving at a new request of an operation other than the write of a profile. -/
theorem arriving_subscribe_operation {userUid : Option Key} {op : Operation}
    (hop : ∀ userInfo, op ≠ .setUserInfo userInfo) {b b' : Backend} {a : Answer} {r : ApiRequest}
    (h : Request.subscribe Backend.service b (op.publisher userUid) a = some (b', r)) :
    b' = b ∧ arriving r = false := by
  refine arriving_subscribe h (fun call next hfuture => ?_) fun v hfuture => ?_
  · obtain ⟨call', next', hcall, hlater⟩ := (Operation.isChain_of_future hfuture).exists_call hop
    cases hcall
    exact hlater
  · obtain ⟨call', next', hcall, -⟩ := (Operation.isChain_of_future hfuture).exists_call hop
    cases hcall

/-- Without a new answer, a value is arriving only if it was before. -/
theorem arriving_of_advances {b b' : Backend} {r r' : ApiRequest} {p : Progress Answer}
    (h : Request.Advances Backend.service timeoutError b r p b' r') (hanswers : r'.answers = r.answers)
    (hsuccess : ∀ v, r.phase = .replied → r.rest = some (.done (.ok v)) →
      (r.answers.any fun a => a.error.isNone) = true)
    (harriving : arriving r' = true) : arriving r = true := by
  unfold arriving at harriving ⊢
  rw [hanswers] at harriving
  cases h with
  | answer _ _ _ => exact harriving
  | callback hphase hproceeds =>
    cases hproceeds with
    | @resolve result hrest =>
      cases hopen : r.subscription.isOpen with
      | false =>
        have hsame : (r.resolved result).subscription = r.subscription :=
          Subscription.promise_of_closed hopen result
        rw [hsame, hopen] at harriving
        exact harriving
      | true =>
        cases result with
        | ok v => simp [hsuccess v hphase hrest]
        | error error =>
          rw [Bool.or_eq_true]
          exact .inr (by simpa [Request.resolved, Subscription.promise, Subscription.fail, hopen] using harriving)
    | act _ _ _ => exact harriving
    | await _ _ => exact harriving
  | timeout hopen =>
    rw [Bool.or_eq_true]
    exact .inr (by simpa using harriving)
  | deliver hqueue =>
    rw [Bool.or_eq_true, hqueue, List.any_cons, Bool.or_eq_true]
    rw [Bool.or_eq_true] at harriving
    rcases harriving with hopen | hvalue
    · exact .inl hopen
    · exact .inr (.inr hvalue)
  | cancel => simp [Subscription.cancelled] at harriving

end LoveCoupons
