import LoveCoupons.Backend

/-!
# The API manager

Each operation checks its arguments and the signed-in user when it is called. A failed check
is a publisher that fails at once; otherwise the operation is a future whose chain of calls
follows the nested completion handlers. The serial queue hands the first call of each
operation to the service in the order of the calls to the manager, so an operation's first
call is made when the operation is.

Every future is wrapped in a timeout that reports `disconnect`. The identifiers drawn by an
operation are arguments here.
-/

namespace LoveCoupons

open KeyedTree Reactive

/-- The publishers the manager returns for operations that report success only. -/
abbrev ApiPublisher := Publisher Call Answer Bool ApiError

/-- The chain behind such a publisher. -/
abbrev ApiChain := Chain Call Answer (Except ApiError Bool)

/-- A request for such an operation. -/
abbrev ApiRequest := Request Call Answer Bool ApiError

/-- The failure reported by the ten-second timeout. -/
def timeoutError : ApiError := ⟨.disconnect⟩

/-- The reference of a user's record. -/
def userInfoRef (uid : Key) : Path := [uid, userInfoDirectory]

/-- The reference of a user's coupons. -/
def couponsRef (uid : Key) : Path := [uid, couponsDirectory]

/-- The reference of one coupon of a user. -/
def couponRef (uid key : Key) : Path := [uid, couponsDirectory, key]

/-- The completion handler that fails with the callback's error and succeeds without one. -/
def promiseUnlessError (a : Answer) : ApiChain :=
  match a.error with
  | some error => .done (.error ⟨.other (some error)⟩)
  | none => .done (.ok true)

/-- The handler ends the chain. -/
theorem promiseUnlessError_done (a : Answer) : ∃ result, promiseUnlessError a = .done result := by
  unfold promiseUnlessError
  cases a.error <;> exact ⟨_, rfl⟩

/-- The handler reports success only for an answer without an error. -/
theorem error_of_promiseUnlessError {a : Answer} {success : Bool}
    (h : promiseUnlessError a = .done (.ok success)) : a.error = none ∧ success = true := by
  unfold promiseUnlessError at h
  cases herror : a.error with
  | none => simpa [herror, eq_comm] using h
  | some error => simp [herror] at h

/-- The chain of a request has ended in success. -/
def reportsSuccess (r : ApiRequest) : Bool :=
  match r.rest with
  | some (.done (.ok success)) => success
  | _ => false

/-- A chain reports success exactly when it has ended so. -/
theorem reportsSuccess_iff (r : ApiRequest) :
    reportsSuccess r = true ↔ r.rest = some (.done (.ok true)) := by
  unfold reportsSuccess
  split
  · simp_all
  · rename_i hnot
    exact ⟨by simp, fun hrest => absurd hrest (hnot true)⟩

/-- A chain of one call makes that call first. -/
theorem reply_of_single {r : ApiRequest} {call call' : Call} {next : Answer → ApiChain}
    (horigin : r.origin = .call call promiseUnlessError) (hrest : r.rest = some (.call call' next)) :
    r.answers = [] ∧ call' = call := by
  unfold Request.rest at hrest
  rw [horigin] at hrest
  rcases Chain.resume_single_cases promiseUnlessError_done hrest with ⟨hanswers, hcall⟩ | ⟨a, -, hend⟩
  · cases hcall
    exact ⟨hanswers, rfl⟩
  · obtain ⟨result, hdone⟩ := promiseUnlessError_done a
    rw [hdone] at hend
    cases hend

/-- A request that was refused stays at its failure. -/
theorem rest_of_refused {r : ApiRequest} {error : ApiError} {rest : ApiChain}
    (horigin : r.origin = .done (.error error)) (hrest : r.rest = some rest) :
    rest = .done (.error error) := by
  unfold Request.rest at hrest
  rw [horigin] at hrest
  cases hanswers : r.answers with
  | nil => simpa [hanswers, eq_comm] using hrest
  | cons a more => simp [hanswers] at hrest

/-- A chain of one call that creates no account has left the backend alone, or its call was answered without an
error. -/
theorem drive_promiseUnlessError {b b' : Backend} {call : Call} {answers : List Answer} {rest : ApiChain}
    (h : Backend.service.drive b (.call call promiseUnlessError) answers = some (b', rest))
    (hcreate : ∀ email password, call ≠ .createUser email password) :
    b' = b ∨ ∃ a, a.error = none ∧ b.respond call a = some b' ∧ rest = .done (.ok true) := by
  rcases Backend.service.drive_single_cases promiseUnlessError_done h with
    ⟨-, rfl, -⟩ | ⟨a, -, hrespond, rfl⟩
  · exact .inl rfl
  · cases herror : a.error with
    | some error => exact .inl (Backend.respond_of_error hrespond (by simp [herror]) hcreate)
    | none => exact .inr ⟨a, herror, hrespond, by simp [promiseUnlessError, herror]⟩

/-- `login(email:password:)` -/
def login (email password : String) : ApiPublisher :=
  if !email.isEmpty && !password.isEmpty then .future (.call (.signIn email password) promiseUnlessError)
  else .fail ⟨.fields⟩

/-- `logout()`: the sign-out runs while the future is created. -/
def logout (a : Answer) : ApiPublisher :=
  .future (.done (if a.error.isSome then .error ⟨.defaultMessage⟩ else .ok true))

/-- `createUser(userInfo:email:password:)` -/
def createUser (userInfo : UserInfo) (email password : String) : ApiPublisher :=
  if !email.isEmpty && !password.isEmpty && userInfo.hasRequiredFields then
    .future (.call (.createUser email password) promiseUnlessError)
  else .fail ⟨.fields⟩

/-- `setUserInfo(_:)` -/
def setUserInfo (userUid : Option Key) (userInfo : UserInfo) : ApiPublisher :=
  if userInfo.hasRequiredFields then
    match userUid with
    | none => .fail ⟨.defaultMessage⟩
    | some uid => .future (.call (.setValue (userInfoRef uid) userInfo.toAnyObject) promiseUnlessError)
  else .fail ⟨.fields⟩

/-- `resetPassword(email:)` -/
def resetPassword (email : String) : ApiPublisher :=
  if !email.isEmpty then .future (.call (.sendPasswordReset email) promiseUnlessError)
  else .fail ⟨.fields⟩

/-- The storage path of a new image. -/
def imagePath (uid : Key) (object : UUID) : String := uid.val ++ "/" ++ object.val ++ ".jpg"

/-- The `downloadURL` handler of `updateCoupon`: with a URL the record is written. -/
def updateCouponRecord (coupon : Coupon) (ref : Path) (a : Answer) : ApiChain :=
  match a.url with
  | some url => .call (.updateChildValues ref { coupon with image := url }.toAnyObject) promiseUnlessError
  | none => .done (.error ⟨.other a.error⟩)

/-- The chain of `updateCoupon`: the upload, whose error is ignored, the URL, the record. -/
def updateCouponChain (coupon : Coupon) (data : Data) (image : String) (ref : Path) : ApiChain :=
  .call (.putData image data) fun _ => .call (.downloadURL image) (updateCouponRecord coupon ref)

/-- `updateCoupon(_:data:)`, with the identifiers drawn for the image and for a new coupon. -/
def updateCoupon (userUid : Option Key) (object fresh : UUID) (coupon : Coupon) (data : Option Data) :
    ApiPublisher :=
  if coupon.description.isEmpty then .fail ⟨.fields⟩
  else match data with
    | none => .fail ⟨.fields⟩
    | some data =>
      match userUid with
      | none => .fail ⟨.defaultMessage⟩
      | some uid => .future (updateCouponChain coupon data (imagePath uid object)
          (couponRef uid (coupon.key.getD fresh.toKey)))

/-- `deleteCoupon(_:)`: the call it makes, if any. -/
def deleteCoupon (userUid : Option Key) (coupon : Coupon) : Option Call :=
  match userUid, coupon.key with
  | some uid, some key => some (.setValue (couponRef uid key) none)
  | _, _ => none

/-- A deletion is made for a signed-in user and a coupon with a key only. -/
theorem deleteCoupon_eq_some {userUid : Option Key} {coupon : Coupon} {call : Call}
    (h : deleteCoupon userUid coupon = some call) :
    ∃ uid key, userUid = some uid ∧ coupon.key = some key ∧ call = .setValue (couponRef uid key) none := by
  unfold deleteCoupon at h
  split at h
  · exact ⟨_, _, rfl, ‹_›, (Option.some.inj h).symm⟩
  · cases h

/-- The value handler of `getUserInfo`. -/
def userInfoOfSnapshot (snapshot : Node) : Except ApiError UserInfo :=
  match asDictionary snapshot with
  | some data => .ok (UserInfo.ofData data)
  | none => .error ⟨.defaultMessage⟩

/-- A written record is read back with its absent fields empty. -/
theorem userInfoOfSnapshot_toAnyObject (userInfo : UserInfo) :
    userInfoOfSnapshot userInfo.toAnyObject = .ok userInfo.filled := by
  obtain ⟨data, hdata, hfilled⟩ := Option.map_eq_some_iff.mp userInfo.map_ofData_toAnyObject
  rw [userInfoOfSnapshot, hdata, ← hfilled]

/-- The value handler of `getPairEmail`. -/
def pairEmailOfSnapshot (snapshot : Node) : Except ApiError (Option String) :=
  match asDictionary snapshot with
  | some data => .ok (UserInfo.ofData data).email
  | none => .error ⟨.defaultMessage⟩

/-- The value handler of `getMyCoupons` on a dictionary: each dictionary child with its key. -/
def myCouponsOfDictionary (dict : Dictionary) : List Coupon :=
  dict.filterMap fun entry =>
    (asDictionary (some entry.2)).map fun data => { Coupon.ofData data with key := some entry.1 }

/-- The value handler of `getPairCoupons` on a dictionary: the keyed copy is dropped and the child
is decoded again without its key. -/
def pairCouponsOfDictionary (dict : Dictionary) : List Coupon :=
  dict.filterMap fun entry => (asDictionary (some entry.2)).map Coupon.ofData

end LoveCoupons
