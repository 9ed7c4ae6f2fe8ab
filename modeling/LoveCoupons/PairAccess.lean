import LoveCoupons.StoreRefinement

/-!
# Reaching the pair's data

The identifier of the pair is part of the user's record. The tabs read the record and hand
the identifier to `child` of the root reference: once when they are launched, for the pair's
coupons, and again at each tap on a coupon, for the pair's e-mail. `child` raises an exception
on an invalid path string, and nothing between the form and this call looks at more than
whether the identifier is empty.
-/

namespace LoveCoupons

open KeyedTree StepSystem

/-- What reaches the subscriber of a one-time read first: the snapshot, an error of the listener, or
the timeout. -/
inductive ReadOutcome where
  | snapshot
  | cancelled (error : String)
  | timeout

/-- A read of the pair's data raises an exception, reports a failure, or observes a place. -/
inductive PairRead where
  | raised
  | failed (text : String)
  | observing (place : List String)
  deriving DecidableEq

/-- `getUserInfo()`: the first result that its subscriber receives. -/
def getUserInfo (b : Backend) (outcome : ReadOutcome) : Except ApiError UserInfo :=
  match b.currentUser with
  | none => .error ⟨.defaultMessage⟩
  | some uid =>
    match outcome with
    | .snapshot => userInfoOfSnapshot (getChild b.database (userInfoRef uid))
    | .cancelled error => .error ⟨.other (some error)⟩
    | .timeout => .error timeoutError

/-- `child(pairId).child(directory)` -/
def pairReference (pairId : String) (directory : Key) : PairRead :=
  match rootChild pairId with
  | some pieces => .observing (pieces ++ [directory.val])
  | none => .raised

/-- `getPairCoupons(pairUniqId:)` -/
def getPairCoupons (pairUniqId : Option String) : PairRead :=
  match pairUniqId with
  | none => .failed ApiErrorType.defaultMessage.text
  | some pairUniqId => pairReference pairUniqId couponsDirectory

/-- `getPairEmail(pairId:)` -/
def getPairEmail (pairId : String) : PairRead := pairReference pairId userInfoDirectory

/-- `L10n.Alert.mail` -/
def alertMail : String := "Can't send emails from this device"

/-- `PairCouponsViewModel.updateViewData`, which runs when the tabs are launched. -/
def updateViewData (b : Backend) (outcome : ReadOutcome) : PairRead :=
  match getUserInfo b outcome with
  | .error error => .failed error.type.text
  | .ok userInfo => getPairCoupons (some (userInfo.pairUniqId.getD ""))

/-- `PairCouponsViewModel.showSendEmailView`, which runs at a tap on a coupon of the pair. -/
def showSendEmailView (canSendMail : Bool) (b : Backend) (outcome : ReadOutcome) : PairRead :=
  if canSendMail then
    match getUserInfo b outcome with
    | .error error => .failed error.type.text
    | .ok userInfo => getPairEmail (userInfo.pairUniqId.getD "")
  else .failed alertMail

/-- The reference is refused exactly for an invalid path string. -/
theorem pairReference_eq_raised (pairId : String) (directory : Key) :
    pairReference pairId directory = .raised ↔ validRootPathString pairId = false := by
  unfold pairReference rootChild
  cases validRootPathString pairId <;> simp

/-- Replacing a leading `.info` leaves a nonempty string nonempty. -/
theorem replaceDotInfo_ne_nil {path : List Char} (h : path ≠ []) : replaceDotInfo path ≠ [] := by
  unfold replaceDotInfo
  split
  · simp
  · split
    · simp
    · exact h
  · exact h

/-- A nonempty string is a valid root path exactly when no invalid character is left in it. -/
theorem validRootPathString_iff {path : String} (h : path ≠ "") : validRootPathString path = true ↔
    ∀ c ∈ replaceDotInfo path.toList, c ∉ invalidPathCharacters := by
  have hne : replaceDotInfo path.toList ≠ [] := replaceDotInfo_ne_nil (by simpa using h)
  simp [validRootPathString, isValidPathString, hne]

/-- A delivered record reaches `child` at the launch of the tabs. -/
theorem updateViewData_eq_raised {b : Backend} {outcome : ReadOutcome} {userInfo : UserInfo}
    (h : getUserInfo b outcome = .ok userInfo) : updateViewData b outcome = .raised ↔
      validRootPathString (userInfo.pairUniqId.getD "") = false := by
  unfold updateViewData
  rw [h]
  exact pairReference_eq_raised _ _

/-- A delivered record reaches `child` at a tap, where mail can be sent. -/
theorem showSendEmailView_eq_raised {b : Backend} {outcome : ReadOutcome} {userInfo : UserInfo}
    (h : getUserInfo b outcome = .ok userInfo) (canSendMail : Bool) :
    showSendEmailView canSendMail b outcome = .raised ↔
      canSendMail = true ∧ validRootPathString (userInfo.pairUniqId.getD "") = false := by
  unfold showSendEmailView
  cases canSendMail with
  | false => simp
  | true =>
    rw [if_pos rfl, h]
    exact ⟨fun hraised => ⟨rfl, (pairReference_eq_raised _ _).mp hraised⟩,
      fun hinvalid => (pairReference_eq_raised _ _).mpr hinvalid.2⟩

/-- A read that fails reaches no reference. -/
theorem not_raised_of_error {b : Backend} {outcome : ReadOutcome} {error : ApiError}
    (h : getUserInfo b outcome = .error error) (canSendMail : Bool) :
    updateViewData b outcome ≠ .raised ∧ showSendEmailView canSendMail b outcome ≠ .raised := by
  unfold updateViewData showSendEmailView
  rw [h]
  cases canSendMail <;> simp

/-- After every run, the launch of the tabs and the taps of a user never raise exactly when the pair
identifier that the user set last has no character that is invalid in a path. -/
theorem pair_reads_never_raise_iff {ops : List (Key × StoreOp)} {s : StoreState}
    (h : run StoreState.step .start ops = some s) {uid : Key} {userInfo : UserInfo}
    (hlast : (Store.after ops uid).userInfo = some userInfo) :
    (∀ outcome canSendMail, updateViewData { s.backend with currentUser := some uid } outcome ≠ .raised ∧
      showSendEmailView canSendMail { s.backend with currentUser := some uid } outcome ≠ .raised) ↔
    ∀ c ∈ replaceDotInfo (userInfo.pairUniqId.getD "").toList, c ∉ invalidPathCharacters := by
  have hr := represents_run h
  obtain ⟨-, pairUniqId, hpair, hne⟩ := userInfo.hasRequiredFields_iff.mp (hr.accepted uid userInfo hlast)
  have hread : getUserInfo { s.backend with currentUser := some uid } .snapshot = .ok userInfo.filled :=
    hr.userInfoOfSnapshot hlast
  have hfilled : userInfo.filled.pairUniqId.getD "" = userInfo.pairUniqId.getD "" := rfl
  have hvalid : validRootPathString (userInfo.pairUniqId.getD "") = true ↔ _ :=
    validRootPathString_iff (by simpa [hpair] using hne)
  rw [← hvalid]
  constructor
  · intro hnever
    by_contra hinvalid
    have hraised := (updateViewData_eq_raised hread).mpr (by simpa [hfilled] using hinvalid)
    exact (hnever .snapshot true).1 hraised
  · intro hpath outcome canSendMail
    cases outcome with
    | snapshot =>
      rw [ne_eq, ne_eq, updateViewData_eq_raised hread, showSendEmailView_eq_raised hread, hfilled, hpath]
      simp
    | cancelled error => exact not_raised_of_error rfl canSendMail
    | timeout => exact not_raised_of_error rfl canSendMail

/-- One user of the examples. -/
def ann : Key := ⟨"uid-ann", by decide⟩

/-- The run in which that user sets a record with this pair identifier. -/
def setsPairIdentifier (pairUniqId : String) : List (Key × StoreOp) :=
  [(ann, .setUserInfo ⟨some "Ann", none, some pairUniqId⟩ [{}])]

/-- With a plain pair identifier nothing raises. -/
theorem pair_reads_plain_identifier :
    ∃ s, run StoreState.step .start (setsPairIdentifier "bob") = some s ∧ ∀ outcome canSendMail,
      updateViewData { s.backend with currentUser := some ann } outcome ≠ .raised ∧
      showSendEmailView canSendMail { s.backend with currentUser := some ann } outcome ≠ .raised := by
  have hplain : ((replaceDotInfo "bob".toList).all fun c => !invalidPathCharacters.contains c) = true := by decide
  refine ⟨_, rfl, (@pair_reads_never_raise_iff (setsPairIdentifier "bob") _ rfl ann
    ⟨some "Ann", none, some "bob"⟩ (by decide)).mpr fun c hc => ?_⟩
  simpa using List.all_eq_true.mp hplain c hc

/-- A pair identifier with a dot is accepted and stored; the next launch and the next tap raise. -/
theorem launch_raises_on_dotted_identifier :
    ∃ s, run StoreState.step .start (setsPairIdentifier "bob.smith") = some s ∧
      updateViewData { s.backend with currentUser := some ann } .snapshot = .raised ∧
      showSendEmailView true { s.backend with currentUser := some ann } .snapshot = .raised :=
  ⟨_, rfl, by decide, by decide⟩

end LoveCoupons
