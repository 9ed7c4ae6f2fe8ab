import LoveCoupons.CouponFeed
import LoveCoupons.PairAccess
import LoveCoupons.Screens
import LoveCoupons.Lib.ViewModel
import Mathlib.Data.Finset.Max

/-!
# The view models

The published fields of each view model, the actions of its user and the sinks of its
requests. A request is known by the call to the manager or to the media service that it comes
from; what a nested sink captures is part of it. When and with what a publisher replies is left
open: a reply is the result of the service, an error of it, or the timeout.

The view models live as long as their requests here, so no `self` is gone in a sink.
-/

namespace LoveCoupons

open Reactive

/-- The fields of the login, sign-up and reset view models, with what their coordinator was asked for. -/
structure FormViewModel where
  isShowLoading : Bool := false
  actions : List Action := []

/-- The sinks of the login, sign-up and reset view models. -/
def FormViewModel.receive (vm : FormViewModel) (op : Operation) :
    Event Bool ApiError → FormViewModel × Option Operation
  | .value _ =>
    match sinks.onValue op with
    | .inl action => (⟨false, vm.actions ++ [action]⟩, none)
    | .inr next => (vm, some next)
  | .finished => ({ vm with isShowLoading := false }, none)
  | .failure error => (⟨false, vm.actions ++ [sinks.onFailure error]⟩, none)

/-- A view model whose buttons start operations; the other buttons only navigate. -/
def formViewModel {A : Type} (press : A → Option Operation) :
    ViewModel FormViewModel Operation A (fun _ => Bool) (fun _ => ApiError) where
  source _ := .future
  act vm a := some (match press a with
    | some op => ({ vm with isShowLoading := true }, some op)
    | none => (vm, none))
  receive vm op event := some (vm.receive op event)

/-- The buttons of the login screen. -/
inductive LoginPress where
  | loginButtonPressed (userLogin userPass : String)
  | signUpButtonPressed
  | restPasswordButtonPressed

/-- The operation that a button of the login screen starts. -/
def LoginPress.operation : LoginPress → Option Operation
  | .loginButtonPressed userLogin userPass => some (LoveCoupons.loginButtonPressed userLogin userPass)
  | _ => none

/-- What the sign-up screen hands to `createUserButtonPressed`. -/
structure SignUpPress where
  name : String
  email : String
  pairUniqId : String
  password : String

/-- `LoginViewModel` -/
def loginViewModel : ViewModel FormViewModel Operation LoginPress (fun _ => Bool) (fun _ => ApiError) :=
  formViewModel LoginPress.operation

/-- `SignUpViewModel` -/
def signUpViewModel : ViewModel FormViewModel Operation SignUpPress (fun _ => Bool) (fun _ => ApiError) :=
  formViewModel fun press => some (createUserButtonPressed press.name press.email press.pairUniqId press.password)

/-- `ResetPasswordViewModel` -/
def resetPasswordViewModel : ViewModel FormViewModel Operation String (fun _ => Bool) (fun _ => ApiError) :=
  formViewModel fun email => some (ResetPasswordViewModel.sendButtonPressed email)

/-- What the coordinator of the settings is asked for. -/
inductive SettingsAction where
  | showError (text : String)
  | navigateToLogin
  deriving DecidableEq

/-- The fields of `SettingsViewModel`. -/
structure SettingsViewModel where
  isShowLoading : Bool := false
  name : String := ""
  email : String := ""
  id : String := ""
  actions : List SettingsAction := []

/-- The requests of the settings. -/
inductive SettingsRequest where
  | getUserInfo
  | resetPassword (email : String)
  | logout
  | setUserInfo (userInfo : UserInfo)

/-- What a request of the settings reports. -/
abbrev SettingsRequest.Value : SettingsRequest → Type
  | .getUserInfo => Option UserInfo
  | _ => Bool

/-- The settings appear, one of their buttons is pressed, or one of their fields is edited. -/
inductive SettingsPress where
  | getUserInfo
  | sendButtonPressed (email : String)
  | logoutButtonPressed
  | submitButtonPressed
  | editName (text : String)
  | editEmail (text : String)
  | editId (text : String)

namespace SettingsViewModel

/-- The record that `submitButtonPressed` sends. -/
def userInfoItem (vm : SettingsViewModel) : UserInfo := ⟨some vm.name, some vm.email, some vm.id⟩

/-- What an action does to the settings and which request it starts. -/
def act (vm : SettingsViewModel) : SettingsPress → SettingsViewModel × Option SettingsRequest
  | .getUserInfo => ({ vm with isShowLoading := true }, some .getUserInfo)
  | .sendButtonPressed email => ({ vm with isShowLoading := true }, some (.resetPassword email))
  | .logoutButtonPressed => ({ vm with isShowLoading := true }, some .logout)
  | .submitButtonPressed => ({ vm with isShowLoading := true }, some (.setUserInfo vm.userInfoItem))
  | .editName text => ({ vm with name := text }, none)
  | .editEmail text => ({ vm with email := text }, none)
  | .editId text => ({ vm with id := text }, none)

/-- The value sink of `getUserInfo`. -/
def load (vm : SettingsViewModel) (userInfo : Option UserInfo) : SettingsViewModel := { vm with
  isShowLoading := false
  name := (userInfo.bind UserInfo.name).getD ""
  id := (userInfo.bind UserInfo.pairUniqId).getD ""
  email := (userInfo.bind UserInfo.email).getD "" }

/-- The sinks of the settings. -/
def receive (vm : SettingsViewModel) : (request : SettingsRequest) → Event request.Value ApiError → SettingsViewModel
  | .getUserInfo, .value userInfo => vm.load userInfo
  | .logout, .value _ => { vm with isShowLoading := false, actions := vm.actions ++ [.navigateToLogin] }
  | .resetPassword _, .value _ => { vm with isShowLoading := false }
  | .setUserInfo _, .value _ => { vm with isShowLoading := false }
  | _, .finished => { vm with isShowLoading := false }
  | _, .failure error => { vm with
      isShowLoading := false
      actions := vm.actions ++ [.showError error.type.text] }

end SettingsViewModel

/-- `SettingsViewModel` with its requests. -/
def settingsViewModel :
    ViewModel SettingsViewModel SettingsRequest SettingsPress SettingsRequest.Value (fun _ => ApiError) where
  source _ := .future
  act vm press := some (vm.act press)
  receive vm request event := some (vm.receive request event, none)

/-- `UIImage(asset: Asset.addImage)` -/
def addImage : UIImage := ⟨true, none⟩

/-- The fields of `CouponEditViewModel` and the image of its store. The image that the user picked last is
kept beside them; nothing reads it. -/
structure CouponEditViewModel where
  isShowLoading : Bool := false
  coupon : Coupon
  text : String
  image : Option UIImage := some addImage
  actions : List Action := []
  picked : Option UIImage := none

/-- The requests of the coupon screen. -/
inductive CouponEditRequest where
  | updateCoupon (object fresh : UUID) (coupon : Coupon) (data : Option Data)
  | getMediaData (urlString : String)

/-- What a request of the coupon screen reports. -/
abbrev CouponEditRequest.Value : CouponEditRequest → Type
  | .updateCoupon _ _ _ _ => Bool
  | .getMediaData _ => Option UIImage

/-- How a request of the coupon screen can fail; an image load cannot. -/
abbrev CouponEditRequest.Error : CouponEditRequest → Type
  | .updateCoupon _ _ _ _ => ApiError
  | .getMediaData _ => Empty

/-- The screen appears, the user types, picks an image or presses the button. -/
inductive CouponEditPress where
  | updateImage
  | write (text : String)
  | pick (image : UIImage)
  | sendButtonPressed (object fresh : UUID)

namespace CouponEditViewModel

/-- `CouponEditViewModel.init` -/
def opened (coupon : Coupon) : CouponEditViewModel := { coupon := coupon, text := coupon.description }

/-- What an action does to the coupon screen and which request it starts. The view lets an image be picked
while nothing is loading. -/
def act (vm : CouponEditViewModel) : CouponEditPress → Option (CouponEditViewModel × Option CouponEditRequest)
  | .updateImage => some ({ vm with isShowLoading := true }, some (.getMediaData vm.coupon.image))
  | .write text => some ({ vm with text := text }, none)
  | .pick image =>
    if vm.isShowLoading then none else some ({ vm with image := some image, picked := some image }, none)
  | .sendButtonPressed object fresh =>
    let coupon := { vm.coupon with description := vm.text }
    some ({ vm with isShowLoading := true, coupon := coupon },
      some (.updateCoupon object fresh coupon (imageData vm.image)))

/-- The sinks of the coupon screen. -/
def receive (vm : CouponEditViewModel) :
    (request : CouponEditRequest) → Event request.Value request.Error → CouponEditViewModel
  | .updateCoupon _ _ _ _, .value _ => { vm with isShowLoading := false, actions := vm.actions ++ [.navigateBack] }
  | .updateCoupon _ _ _ _, .finished => { vm with isShowLoading := false }
  | .updateCoupon _ _ _ _, .failure error => { vm with
      isShowLoading := false
      actions := vm.actions ++ [.showError error.type.text] }
  | .getMediaData _, .value image => { vm with isShowLoading := false, image := some (image.getD addImage) }
  | .getMediaData _, .finished => vm

end CouponEditViewModel

/-- `CouponEditViewModel` with its requests, given for which strings `URL(string:)` makes a URL. The load of another
string brings no image at once. -/
def couponEditViewModel (isURL : String → Bool) :
    ViewModel CouponEditViewModel CouponEditRequest CouponEditPress CouponEditRequest.Value
      CouponEditRequest.Error where
  source
    | .getMediaData urlString => if isURL urlString then .future else .just none
    | .updateCoupon _ _ _ _ => .future
  act := CouponEditViewModel.act
  receive vm request event := some (vm.receive request event, none)

/-- `MyCouponsViewModel.deleteItems(at:)`: the coupons that it asks the manager to delete. An index out of
range ends the process. -/
def deleteItems (vm : CouponsViewModel) (offsets : Finset ℕ) : Option (List Coupon) :=
  match offsets.min with
  | none => some []
  | some first => vm.coupons[first]?.map fun coupon => [coupon]

/-- The request of the user's coupon screen: `getMyCoupons`, called with this user signed in. -/
structure MyCouponsRequest where
  userUid : Option Key

/-- The actions on the user's coupon screen. -/
inductive MyCouponsPress where
  | deleteItems (offsets : Finset ℕ)
  | couponSelected (coupon : Coupon) (id : ℕ)
  | addCouponButtonSelected

/-- `MyCouponsViewModel` with its request. -/
def myCouponsViewModel (nfc : String → String) : ViewModel CouponsViewModel MyCouponsRequest MyCouponsPress
    (fun _ => Option (List Coupon)) (fun _ => ApiError) where
  source request :=
    match request.userUid with
    | some _ => .subject none
    | none => .future
  act vm
    | .deleteItems offsets => (deleteItems vm offsets).map fun _ => (vm, none)
    | _ => some (vm, none)
  receive vm _ event := some (vm.receive nfc event, none)

/-- `PairCouponsMailDataStore` -/
structure MailDataStore where
  emailMessage : String := ""
  bodyMessage : String := ""
  deriving DecidableEq

/-- What a mail composer is created with. -/
structure MailComposer where
  recipients : List String
  subject : String
  body : String
  isHTML : Bool
  deriving DecidableEq

/-- `L10n.Mail.subject` -/
def mailSubject : String := "Coupon Request ❤️"

/-- `MailView.makeUIViewController` -/
def makeUIViewController (store : MailDataStore) : MailComposer where
  recipients := [store.emailMessage]
  subject := mailSubject
  isHTML := true
  body := "<p>&nbsp;</p>\n<h3 style=\"text-align: center; color: #FF5023;\">" ++ store.bodyMessage ++ "</h3>"

/-- A mail view that the coordinator was asked to present, with the coupon of its tap and the e-mail that
its tap read. Its composer is still to be made, was made, or will not be made. -/
structure Presentation where
  coupon : Coupon
  email : Option String
  composer : Option MailComposer := none
  isWaiting : Bool := true

/-- The fields of `PairCouponsViewModel` and the mail views it has presented. -/
structure PairCouponsViewModel where
  list : CouponsViewModel := {}
  mailDataStore : MailDataStore := {}
  presentations : List Presentation := []

/-- The requests of the pair's coupon screen: the two of `updateViewData` and the two of
`showSendEmailView`. -/
inductive PairCouponsRequest where
  | getUserInfo
  | getPairCoupons (pairUniqId : String)
  | getUserInfoForMail (coupon : Coupon)
  | getPairEmail (pairId : String) (coupon : Coupon)

/-- What a request of the pair's coupon screen reports. -/
abbrev PairCouponsRequest.Value : PairCouponsRequest → Type
  | .getUserInfo => Option UserInfo
  | .getPairCoupons _ => Option (List Coupon)
  | .getUserInfoForMail _ => Option UserInfo
  | .getPairEmail _ _ => Option String

/-- A request of `showSendEmailView`. -/
def PairCouponsRequest.isForMail : PairCouponsRequest → Bool
  | .getUserInfoForMail _ => true
  | .getPairEmail _ _ => true
  | _ => false

/-- The request for the pair's coupons. -/
def PairCouponsRequest.isFeed : PairCouponsRequest → Bool
  | .getPairCoupons _ => true
  | _ => false

/-- A tap on a coupon of the pair, and what becomes of a mail view that is presented: its composer is made,
or the presentation is dropped because another view is presented. -/
inductive PairCouponsPress where
  | showSendEmailView (canSendMail : Bool) (coupon : Coupon)
  | makeUIViewController (i : ℕ)
  | dropPresentation (i : ℕ)

namespace PairCouponsViewModel

/-- Show an error. -/
def showError (vm : PairCouponsViewModel) (text : String) : PairCouponsViewModel :=
  { vm with list := { vm.list with errors := vm.list.errors ++ [text] } }

/-- A presented mail view waits no more: its composer was made, or it will not be shown. -/
def endPresentation (vm : PairCouponsViewModel) (i : ℕ) (composer : Option MailComposer) :
    Option PairCouponsViewModel :=
  vm.presentations[i]?.bind fun p =>
    let ended := { p with composer := composer, isWaiting := false }
    if p.isWaiting then some { vm with presentations := vm.presentations.set i ended } else none

/-- What the end of a presentation changes. -/
theorem endPresentation_cases {vm vm' : PairCouponsViewModel} {i : ℕ} {composer : Option MailComposer}
    (h : vm.endPresentation i composer = some vm') :
    ∃ p, vm.presentations[i]? = some p ∧ p.isWaiting = true ∧ vm' = { vm with
      presentations := vm.presentations.set i { p with composer := composer, isWaiting := false } } := by
  obtain ⟨p, hget, h⟩ := Option.bind_eq_some_iff.mp h
  split at h
  · exact ⟨p, hget, ‹_›, (Option.some.inj h).symm⟩
  · contradiction

/-- What an action does to the pair's coupon screen and which request it starts. -/
def act (vm : PairCouponsViewModel) : PairCouponsPress → Option (PairCouponsViewModel × Option PairCouponsRequest)
  | .showSendEmailView canSendMail coupon =>
    some (if canSendMail then (vm, some (.getUserInfoForMail coupon)) else (vm.showError alertMail, none))
  | .makeUIViewController i =>
    (vm.endPresentation i (some (makeUIViewController vm.mailDataStore))).map fun vm' => (vm', none)
  | .dropPresentation i => (vm.endPresentation i none).map fun vm' => (vm', none)

/-- The value sink of `getPairEmail`: the e-mail is stored only if there is one. -/
def showSendMailPicker (vm : PairCouponsViewModel) (coupon : Coupon) (email : Option String) :
    PairCouponsViewModel := { vm with
  mailDataStore := ⟨email.getD vm.mailDataStore.emailMessage, coupon.description⟩
  presentations := vm.presentations ++ [{ coupon := coupon, email := email }] }

/-- The sinks of the pair's coupon screen. A reference that raises ends the process. -/
def receive (nfc : String → String) (vm : PairCouponsViewModel) : (request : PairCouponsRequest) →
    Event request.Value ApiError → Option (PairCouponsViewModel × Option PairCouponsRequest)
  | .getUserInfo, .value userInfo =>
    let pairUniqId := (userInfo.bind UserInfo.pairUniqId).getD ""
    if getPairCoupons (some pairUniqId) = .raised then none else some (vm, some (.getPairCoupons pairUniqId))
  | .getUserInfo, .finished => some (vm, none)
  | .getUserInfo, .failure error =>
    some ({ vm with list := { vm.list with isShowLoading := false } }.showError error.type.text, none)
  | .getPairCoupons _, event => some ({ vm with list := vm.list.receive nfc event }, none)
  | .getUserInfoForMail coupon, .value userInfo =>
    let pairId := (userInfo.bind UserInfo.pairUniqId).getD ""
    if getPairEmail pairId = .raised then none else some (vm, some (.getPairEmail pairId coupon))
  | .getUserInfoForMail _, .finished => some (vm, none)
  | .getUserInfoForMail _, .failure error => some (vm.showError error.type.text, none)
  | .getPairEmail _ coupon, .value email => some (vm.showSendMailPicker coupon email, none)
  | .getPairEmail _ _, .finished => some (vm, none)
  | .getPairEmail _ _, .failure error => some (vm.showError error.type.text, none)

/-- Everything a sink of the pair's coupon screen can do. -/
inductive Receives (nfc : String → String) (vm : PairCouponsViewModel) : (request : PairCouponsRequest) →
    Event request.Value ApiError → PairCouponsViewModel → Option PairCouponsRequest → Prop where
  | loaded (userInfo : Option UserInfo) (pairUniqId : String) :
      Receives nfc vm .getUserInfo (.value userInfo) vm (some (.getPairCoupons pairUniqId))
  | notLoaded (error : ApiError) : Receives nfc vm .getUserInfo (.failure error)
      ({ vm with list := { vm.list with isShowLoading := false } }.showError error.type.text) none
  | fed (pairUniqId : String) (event : Event (Option (List Coupon)) ApiError) :
      Receives nfc vm (.getPairCoupons pairUniqId) event { vm with list := vm.list.receive nfc event } none
  | asked (coupon : Coupon) (userInfo : Option UserInfo) (pairId : String) :
      Receives nfc vm (.getUserInfoForMail coupon) (.value userInfo) vm (some (.getPairEmail pairId coupon))
  | read (pairId : String) (coupon : Coupon) (email : Option String) :
      Receives nfc vm (.getPairEmail pairId coupon) (.value email) (vm.showSendMailPicker coupon email) none
  | mailFailed (request : PairCouponsRequest) (error : ApiError) (hmail : request.isForMail = true) :
      Receives nfc vm request (.failure error) (vm.showError error.type.text) none
  | finished (request : PairCouponsRequest) (hfeed : request.isFeed = false) :
      Receives nfc vm request .finished vm none

/-- A sink does one of the listed things. -/
theorem receive_cases {nfc : String → String} {vm vm' : PairCouponsViewModel} {request : PairCouponsRequest}
    {event : Event request.Value ApiError} {next : Option PairCouponsRequest}
    (h : vm.receive nfc request event = some (vm', next)) : Receives nfc vm request event vm' next := by
  cases request with
  | getUserInfo =>
    cases event with
    | value userInfo =>
      simp only [receive] at h
      split at h <;> cases h
      exact .loaded _ _
    | finished => cases h; exact .finished _ rfl
    | failure error => cases h; exact .notLoaded error
  | getPairCoupons pairUniqId => cases h; exact .fed _ event
  | getUserInfoForMail coupon =>
    cases event with
    | value userInfo =>
      simp only [receive] at h
      split at h <;> cases h
      exact .asked _ _ _
    | finished => cases h; exact .finished _ rfl
    | failure error => cases h; exact .mailFailed _ error rfl
  | getPairEmail pairId coupon =>
    cases event with
    | value email => cases h; exact .read _ _ _
    | finished => cases h; exact .finished _ rfl
    | failure error => cases h; exact .mailFailed _ error rfl

end PairCouponsViewModel

/-- `PairCouponsViewModel` with its requests. -/
def pairCouponsViewModel (nfc : String → String) : ViewModel PairCouponsViewModel PairCouponsRequest PairCouponsPress
    PairCouponsRequest.Value (fun _ => ApiError) where
  source
    | .getPairCoupons _ => .subject none
    | _ => .future
  act := PairCouponsViewModel.act
  receive vm request event := vm.receive nfc request event

/-- `MyCouponsViewModel.init`: the feed is requested at once. -/
def myCouponsLaunched (nfc : String → String) (userUid : Option Key) :
    Host CouponsViewModel (fun _ : MyCouponsRequest => Option (List Coupon)) (fun _ => ApiError) :=
  .launched (myCouponsViewModel nfc) { isShowLoading := true } ⟨userUid⟩

/-- `PairCouponsViewModel.init`: the record of the user is requested at once. -/
def pairCouponsLaunched (nfc : String → String) :
    Host PairCouponsViewModel PairCouponsRequest.Value (fun _ => ApiError) :=
  .launched (pairCouponsViewModel nfc) { list := { isShowLoading := true } } .getUserInfo

end LoveCoupons
