import LoveCoupons.CouponRecord
import LoveCoupons.Lib.Runs

/-!
# A store of users and coupons

Operations of any number of users run one after the other, each to its successful end. The
abstract store keeps, for each user, the last record that the user set and the last
description and image of each live coupon.

A coupon given to `updateCoupon` has no key yet or was read by `getMyCoupons` before. Reads
are therefore steps of the run too.
-/

namespace LoveCoupons

open KeyedTree Reactive StepSystem

/-- Run a publisher on its own to its successful end. -/
def completed (b : Backend) (publisher : ApiPublisher) (answers : List Answer) : Option Backend :=
  match publisher with
  | .fail _ => none
  | .future chain =>
    match Backend.service.drive b chain answers with
    | some (b', .done (.ok _)) => some b'
    | _ => none

/-- An operation of the signed-in user, with the answers it receives. -/
inductive StoreOp where
  | setUserInfo (userInfo : UserInfo) (answers : List Answer)
  | updateCoupon (object fresh : UUID) (coupon : Coupon) (data : Option Data) (answers : List Answer)
  | deleteCoupon (coupon : Coupon) (answer : Answer)
  | getMyCoupons

/-- The backend and the coupons that each user has read. -/
structure StoreState where
  backend : Backend
  read : List (Key × Coupon)

/-- An empty database; nothing has been read. -/
def StoreState.start : StoreState := ⟨{}, []⟩

/-- The coupons that `getMyCoupons` delivers for the present database. -/
def myCoupons (database : Node) (uid : Key) : List Coupon :=
  ((asDictionary (getChild database (couponsRef uid))).map myCouponsOfDictionary).getD []

/-- One completed operation of one user. -/
def StoreState.step (s : StoreState) : Key × StoreOp → Option StoreState
  | (uid, .setUserInfo userInfo answers) =>
    (completed s.backend (setUserInfo (some uid) userInfo) answers).map fun b => { s with backend := b }
  | (uid, .updateCoupon object fresh coupon data answers) =>
    if coupon.key = none ∨ ∃ entry ∈ s.read, entry.1 = uid ∧ entry.2.key = coupon.key then
      (completed s.backend (updateCoupon (some uid) object fresh coupon data) answers).map
        fun b => { s with backend := b }
    else none
  | (uid, .deleteCoupon coupon answer) =>
    if answer.error = none then
      (deleteCoupon (some uid) coupon).bind fun call =>
        (s.backend.respond call answer).map fun b => { s with backend := b }
    else none
  | (uid, .getMyCoupons) =>
    some { s with read := s.read ++ (myCoupons s.backend.database uid).map fun coupon => (uid, coupon) }

/-- What the store remembers of one user: the last record set, and the last description and image of
each live coupon. -/
structure UserStore where
  userInfo : Option UserInfo := none
  coupons : Key → Option (String × String) := fun _ => none

/-- The store of all users. -/
abbrev Store := Key → UserStore

/-- The image URL that the storage reported to an `updateCoupon`. -/
def reportedUrl (answers : List Answer) : String := (answers[1]?.bind Answer.url).getD ""

/-- Remember or forget one coupon of one user. -/
def Store.setCoupon (store : Store) (uid key : Key) (entry : Option (String × String)) : Store :=
  Function.update store uid { store uid with coupons := Function.update (store uid).coupons key entry }

/-- The records are left alone by a change of a coupon. -/
@[simp] theorem Store.userInfo_setCoupon (store : Store) (uid key : Key) (entry : Option (String × String))
    (uid' : Key) : (store.setCoupon uid key entry uid').userInfo = (store uid').userInfo := by
  by_cases huid : uid' = uid
  · subst huid
    simp [Store.setCoupon]
  · simp [Store.setCoupon, huid]

/-- A changed coupon is read back, and the others are left alone. -/
theorem Store.coupons_setCoupon (store : Store) (uid key : Key) (entry : Option (String × String))
    (uid' key' : Key) : (store.setCoupon uid key entry uid').coupons key' =
      if (uid', key') = (uid, key) then entry else (store uid').coupons key' := by
  by_cases huid : uid' = uid
  · subst huid
    by_cases hkey : key' = key
    · simp [Store.setCoupon, hkey]
    · simp [Store.setCoupon, hkey]
  · simp [Store.setCoupon, huid]

/-- The meaning of an operation on the store. -/
def Store.apply (store : Store) : Key × StoreOp → Store
  | (uid, .setUserInfo userInfo _) =>
    Function.update store uid { store uid with userInfo := some userInfo }
  | (uid, .updateCoupon _ fresh coupon _ answers) =>
    store.setCoupon uid (coupon.key.getD fresh.toKey) (some (coupon.description, reportedUrl answers))
  | (uid, .deleteCoupon coupon _) =>
    match coupon.key with
    | some key => store.setCoupon uid key none
    | none => store
  | (_, .getMyCoupons) => store

/-- The store after a sequence of operations. -/
def Store.after (ops : List (Key × StoreOp)) : Store := ops.foldl Store.apply fun _ => {}

/-- The directory an operation writes. -/
def StoreOp.directory : StoreOp → Key
  | .setUserInfo _ _ => userInfoDirectory
  | _ => couponsDirectory

/-- What is completed was driven to a success. -/
theorem drive_of_completed {b b' : Backend} {chain : ApiChain} {answers : List Answer}
    (h : completed b (.future chain) answers = some b') :
    ∃ success, Backend.service.drive b chain answers = some (b', .done (.ok success)) := by
  simp only [completed] at h
  split at h
  · next success hdrive =>
    cases h
    exact ⟨success, hdrive⟩
  · cases h

/-- A completed `setUserInfo` replaced the user's record by an accepted one. -/
theorem completed_setUserInfo {b b' : Backend} {uid : Key} {userInfo : UserInfo} {answers : List Answer}
    (h : completed b (setUserInfo (some uid) userInfo) answers = some b') :
    userInfo.hasRequiredFields = true ∧
      b' = { b with database := updateChild b.database (userInfoRef uid) userInfo.toAnyObject } := by
  unfold setUserInfo at h
  split at h
  · rename_i hfields
    refine ⟨hfields, ?_⟩
    obtain ⟨success, hdrive⟩ := drive_of_completed h
    rcases Backend.service.drive_single_cases promiseUnlessError_done hdrive with
      ⟨-, -, hrest⟩ | ⟨a, -, hrespond, hrest⟩
    · cases hrest
    · have hnoError := (error_of_promiseUnlessError hrest.symm).1
      rcases Backend.respond_setValue hrespond with ⟨herror, -⟩ | ⟨-, rfl⟩
      · simp [hnoError] at herror
      · rfl
  · simp [completed] at h

/-- A completed `updateCoupon` merged the coupon with the reported URL into its node. -/
theorem completed_updateCoupon {b b' : Backend} {uid : Key} {object fresh : UUID} {coupon : Coupon}
    {data : Option Data} {answers : List Answer}
    (h : completed b (updateCoupon (some uid) object fresh coupon data) answers = some b') :
    b'.database = mergeChildren b.database (couponRef uid (coupon.key.getD fresh.toKey))
      { coupon with image := reportedUrl answers }.toAnyObject := by
  unfold updateCoupon at h
  split at h
  · simp [completed] at h
  · cases data with
    | none => simp [completed] at h
    | some data =>
      obtain ⟨success, hdrive⟩ := drive_of_completed h
      obtain ⟨upload, fetch, write, url, b₁, rfl, hput, hurl, hwrite, herror⟩ := drive_updateCoupon_success hdrive
      have hdatabase : b₁.database = b.database := Backend.database_of_respond hput rfl
      rcases Backend.respond_updateChildValues hwrite with ⟨hfailed, -⟩ | ⟨-, rfl⟩
      · simp [herror] at hfailed
      · simp [reportedUrl, hurl, hdatabase]

end LoveCoupons
