import LoveCoupons.Database

/-!
# Coupons, user records and API errors

The encoders and decoders are written out by hand in the app. A coupon's decoder reads a
missing or non-string field as the empty string, a user record's decoder reads it as `nil`;
the encoders always write every field. A coupon's key is not part of its record: it is the
name of the record's node.

The identity that a coupon value carries for list views is left out.
-/

namespace LoveCoupons

/-- `ApiErrorType` -/
inductive ApiErrorType where
  | defaultMessage
  | fields
  | couponsMessage
  | disconnect
  | other (text : Option String)
  deriving DecidableEq

/-- The localized texts of the errors. -/
def apiDefaultError : String := "An error has occurred; try again later"

/-- `L10n.errorFields` -/
def errorFields : String := "Fill in all the fields"

/-- `L10n.Alert.coupons` -/
def alertCoupons : String := "Coupons not found"

/-- `L10n.noInternetConnection` -/
def noInternetConnection : String := "No internet connection.\nPlease connect and try again"

/-- `ApiErrorType.text` -/
def ApiErrorType.text : ApiErrorType → String
  | .defaultMessage => apiDefaultError
  | .fields => errorFields
  | .couponsMessage => alertCoupons
  | .disconnect => noInternetConnection
  | .other text => text.getD apiDefaultError

/-- `ApiError` -/
structure ApiError where
  type : ApiErrorType
  deriving DecidableEq

/-- `Constants.userInfoDirectory` -/
def userInfoDirectory : Key := ⟨"userInfo", by decide⟩

/-- `Constants.couponsDirectory` -/
def couponsDirectory : Key := ⟨"coupons", by decide⟩

/-- `Coupon` -/
structure Coupon where
  key : Option Key := none
  description : String := ""
  image : String := ""
  deriving DecidableEq

namespace Coupon

/-- `CodingCases.description` -/
def descriptionKey : Key := ⟨"description", by decide⟩

/-- `CodingCases.image` -/
def imageKey : Key := ⟨"image", by decide⟩

/-- `Coupon.init(data:)` -/
def ofData (data : Dictionary) : Coupon where
  description := (stringField data descriptionKey).getD ""
  image := (stringField data imageKey).getD ""

/-- `Coupon.toAnyObject`, as the child values it is written with. -/
def toAnyObject (coupon : Coupon) : List (Key × Node) :=
  [(descriptionKey, some (stringNode coupon.description)), (imageKey, some (stringNode coupon.image))]

end Coupon

/-- `UserInfo` -/
structure UserInfo where
  name : Option String
  email : Option String
  pairUniqId : Option String
  deriving DecidableEq

namespace UserInfo

/-- `CodingCases.name` -/
def nameKey : Key := ⟨"name", by decide⟩

/-- `CodingCases.email` -/
def emailKey : Key := ⟨"email", by decide⟩

/-- `CodingCases.pairUniqId` -/
def pairUniqIdKey : Key := ⟨"pairUniqId", by decide⟩

/-- `UserInfo.init(data:)` -/
def ofData (data : Dictionary) : UserInfo where
  name := stringField data nameKey
  email := stringField data emailKey
  pairUniqId := stringField data pairUniqIdKey

/-- `UserInfo.toAnyObject`, as the node it is stored as. -/
def toAnyObject (userInfo : UserInfo) : Node :=
  some (.node [(nameKey, stringNode (userInfo.name.getD "")),
    (emailKey, stringNode (userInfo.email.getD "")),
    (pairUniqIdKey, stringNode (userInfo.pairUniqId.getD ""))])

/-- The record with its absent fields read back as empty. -/
def filled (userInfo : UserInfo) : UserInfo :=
  ⟨some (userInfo.name.getD ""), some (userInfo.email.getD ""), some (userInfo.pairUniqId.getD "")⟩

/-- The check that `createUser` and `setUserInfo` make of a record. -/
def hasRequiredFields (userInfo : UserInfo) : Bool :=
  !(userInfo.name.elim true String.isEmpty) && !(userInfo.pairUniqId.elim true String.isEmpty)

/-- The stored record is exported as a dictionary: its keys are not integers. -/
theorem asDictionary_toAnyObject (userInfo : UserInfo) :
    asDictionary userInfo.toAnyObject = some [(nameKey, stringNode (userInfo.name.getD "")),
      (emailKey, stringNode (userInfo.email.getD "")),
      (pairUniqIdKey, stringNode (userInfo.pairUniqId.getD ""))] :=
  asDictionary_of_nonInteger List.mem_cons_self (by decide : integerKey nameKey = none)

/-- Decoding a stored record gives it back with absent fields empty. -/
theorem map_ofData_toAnyObject (userInfo : UserInfo) :
    (asDictionary userInfo.toAnyObject).map ofData = some userInfo.filled := by
  rw [asDictionary_toAnyObject]
  rfl

/-- An accepted record has a nonempty name and a nonempty pair identifier. -/
theorem hasRequiredFields_iff (userInfo : UserInfo) : userInfo.hasRequiredFields = true ↔
    (∃ name, userInfo.name = some name ∧ name ≠ "") ∧
      ∃ pairUniqId, userInfo.pairUniqId = some pairUniqId ∧ pairUniqId ≠ "" := by
  obtain ⟨name, email, pairUniqId⟩ := userInfo
  cases name <;> cases pairUniqId <;> simp [hasRequiredFields]

end UserInfo

end LoveCoupons
