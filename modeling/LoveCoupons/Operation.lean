import LoveCoupons.CouponRecord
import LoveCoupons.Lib.RequestPool
import LoveCoupons.Lib.Runs

/-!
# One operation and what its failure says

An attempt is one operation with nothing else running: its chain, its timer and the events
its subscriber has received. The timer closes the subscription and leaves the chain running,
and nothing is rolled back. So a failure reported by the timer says only that the backend
differs from the state before the call by effects of the same operation, and a failure
reported by the chain says that nothing happened, except that an account may have been created
before its sign-in failed, and a coupon's image stored before its URL or its record failed.
-/

namespace LoveCoupons

open KeyedTree Reactive StepSystem

/-- The operations that report success or a failure, with the identifiers they draw. -/
inductive Operation where
  | login (email password : String)
  | createUser (userInfo : UserInfo) (email password : String)
  | setUserInfo (userInfo : UserInfo)
  | resetPassword (email : String)
  | updateCoupon (object fresh : UUID) (coupon : Coupon) (data : Option Data)

/-- The publisher that the manager returns for an operation. -/
def Operation.publisher (userUid : Option Key) : Operation → ApiPublisher
  | .login email password => LoveCoupons.login email password
  | .createUser userInfo email password => LoveCoupons.createUser userInfo email password
  | .setUserInfo userInfo => LoveCoupons.setUserInfo userUid userInfo
  | .resetPassword email => LoveCoupons.resetPassword email
  | .updateCoupon object fresh coupon data => LoveCoupons.updateCoupon userUid object fresh coupon data

/-- The chain of an accepted operation. -/
def Operation.IsChain (userUid : Option Key) : Operation → ApiChain → Prop
  | .login email password, chain => chain = .call (.signIn email password) promiseUnlessError
  | .createUser _ email password, chain => chain = .call (.createUser email password) promiseUnlessError
  | .setUserInfo userInfo, chain => userInfo.hasRequiredFields = true ∧ ∃ uid, userUid = some uid ∧
      chain = .call (.setValue (userInfoRef uid) userInfo.toAnyObject) promiseUnlessError
  | .resetPassword email, chain => chain = .call (.sendPasswordReset email) promiseUnlessError
  | .updateCoupon object fresh coupon data, chain => ∃ uid bytes, userUid = some uid ∧ data = some bytes ∧
      chain = updateCouponChain coupon bytes (imagePath uid object)
        (couponRef uid (coupon.key.getD fresh.toKey))

/-- A publisher that does not fail at once runs the operation's chain. -/
theorem Operation.isChain_of_future {userUid : Option Key} {op : Operation} {chain : ApiChain}
    (h : op.publisher userUid = .future chain) : op.IsChain userUid chain := by
  cases op with
  | login email password =>
    simp only [publisher, LoveCoupons.login] at h
    split at h
    · exact (Publisher.future.inj h).symm
    · cases h
  | createUser userInfo email password =>
    simp only [publisher, LoveCoupons.createUser] at h
    split at h
    · exact (Publisher.future.inj h).symm
    · cases h
  | setUserInfo userInfo =>
    simp only [publisher, LoveCoupons.setUserInfo] at h
    split at h
    · cases userUid with
      | none => cases h
      | some uid => exact ⟨‹_›, uid, rfl, (Publisher.future.inj h).symm⟩
    · cases h
  | resetPassword email =>
    simp only [publisher, LoveCoupons.resetPassword] at h
    split at h
    · exact (Publisher.future.inj h).symm
    · cases h
  | updateCoupon object fresh coupon data =>
    simp only [publisher, LoveCoupons.updateCoupon] at h
    split at h
    · cases h
    · cases data with
      | none => cases h
      | some bytes =>
        cases userUid with
        | none => cases h
        | some uid => exact ⟨uid, bytes, rfl, rfl, (Publisher.future.inj h).symm⟩

/-- An operation that runs alone, with the events delivered to its subscriber. -/
structure Attempt where
  backend : Backend
  request : ApiRequest
  delivered : List (Event Bool ApiError)

/-- Call the operation and subscribe to its publisher. -/
def Attempt.start (b : Backend) (op : Operation) (a : Answer) : Option Attempt :=
  (Request.subscribe Backend.service b (op.publisher b.currentUser) a).map fun started =>
    ⟨started.1, started.2, []⟩

/-- The event that a step delivers. -/
def deliveredBy (request : ApiRequest) : Progress Answer → List (Event Bool ApiError)
  | .deliver => request.subscription.queue.head?.toList
  | _ => []

/-- One step of the attempt. -/
def Attempt.step (s : Attempt) (p : Progress Answer) : Option Attempt :=
  (s.request.advance Backend.service timeoutError s.backend p).map fun next =>
    ⟨next.1, next.2, s.delivered ++ deliveredBy s.request p⟩

/-- The upload of an image was answered: it failed, or the image is stored under some URL. -/
def Uploaded (image : String) (data : Data) (b b' : Backend) : Prop :=
  b' = b ∨ ∃ url, b' = { b with
    storage := ⟨image, data, url⟩ :: b.storage.filter fun stored => stored.path ≠ image }

/-- The effects that an operation can have had on the backend so far. -/
def Operation.Effect (b : Backend) : Operation → Backend → Prop
  | .login email password, b' => ∃ account ∈ b.accounts, account.email = email ∧
      account.password = password ∧ b' = { b with currentUser := some account.uid }
  | .createUser _ email password, b' => ∃ uid created, b.Creates email password uid created ∧
      (b' = created ∨ b' = { created with currentUser := some uid })
  | .setUserInfo userInfo, b' => ∃ uid, b.currentUser = some uid ∧
      b' = { b with database := updateChild b.database (userInfoRef uid) userInfo.toAnyObject }
  | .resetPassword _, b' => b' = b
  | .updateCoupon object fresh coupon data, b' => ∃ uid bytes b₁, b.currentUser = some uid ∧
      data = some bytes ∧ Uploaded (imagePath uid object) bytes b b₁ ∧
      (b' = b₁ ∨ ∃ url, b' = { b₁ with
        database := mergeChildren b₁.database (couponRef uid (coupon.key.getD fresh.toKey))
          { coupon with image := url }.toAnyObject })

/-- What an operation that failed on its own can leave behind: an account that was not signed in, or an uploaded
image. -/
def Operation.Remnant (b : Backend) : Operation → Backend → Prop
  | .createUser _ email password, b' => b' = b ∨ ∃ uid, b.Creates email password uid b'
  | .updateCoupon object _ _ data, b' => b' = b ∨ ∃ uid bytes, b.currentUser = some uid ∧
      data = some bytes ∧ Uploaded (imagePath uid object) bytes b b'
  | _, b' => b' = b

/-- An operation may leave nothing behind. -/
theorem Operation.remnant_self (b : Backend) (op : Operation) : op.Remnant b b := by
  cases op with
  | createUser => exact .inl rfl
  | updateCoupon => exact .inl rfl
  | _ => rfl

/-- What holds of an attempt in every state: its backend is driven by its own answers, and a delivered
failure comes from the timer or from the end of the chain. -/
structure Attempt.Sound (b : Backend) (op : Operation) (s : Attempt) : Prop where
  valid : s.request.Valid timeoutError
  origin : op.publisher b.currentUser = .future s.request.origin ∨
    ∃ error, op.publisher b.currentUser = .fail error ∧ s.request.origin = .done (.error error)
  driven : ∃ rest, Backend.service.drive b s.request.origin s.request.answers = some (s.backend, rest)
  failed : ∀ error, .failure error ∈ s.delivered →
    error = timeoutError ∨ s.request.phase = .over ∧ s.request.rest = some (.done (.error error))

/-- A reply drives the chain of a request on. -/
theorem drive_acts {b₀ b b' : Backend} {r r' : ApiRequest}
    (hdriven : ∃ rest, Backend.service.drive b₀ r.origin r.answers = some (b, rest))
    (h : Request.Acts Backend.service b r b' r') :
    r'.origin = r.origin ∧ ∃ rest, Backend.service.drive b₀ r'.origin r'.answers = some (b', rest) := by
  obtain ⟨rest, hdriven⟩ := hdriven
  cases h with
  | idle horigin hanswers => exact ⟨horigin, rest, by rw [horigin, hanswers]; exact hdriven⟩
  | @reply c next a _ hrest hrespond =>
    have hrest' : rest = .call c next :=
      Option.some.inj ((Backend.service.resume_of_drive hdriven).symm.trans hrest)
    subst hrest'
    exact ⟨rfl, next a, Backend.service.drive_concat hdriven hrespond⟩

/-- Every attempt starts sound. -/
theorem Attempt.sound_start {b : Backend} {op : Operation} {a : Answer} {s : Attempt}
    (h : Attempt.start b op a = some s) : s.Sound b op := by
  obtain ⟨⟨b', r⟩, hsub, rfl⟩ := Option.map_eq_some_iff.mp h
  have hvalid : r.Valid timeoutError := Request.valid_subscribe hsub
  rcases Request.subscribe_cases hsub with ⟨error, hpub, rfl, rfl⟩ | ⟨chain, hpub, hproceeds⟩
  · exact ⟨hvalid, .inr ⟨error, hpub, rfl⟩, ⟨_, rfl⟩, by simp⟩
  · obtain ⟨horigin, hdriven⟩ := drive_acts ⟨chain, Service.drive_nil _ b chain⟩ hproceeds.acts
    refine ⟨hvalid, .inl ?_, hdriven, by simp⟩
    rw [hpub, horigin]
    rfl

/-- Every step keeps an attempt sound. -/
theorem Attempt.Sound.step {b : Backend} {op : Operation} {s next : Attempt} {p : Progress Answer}
    (hs : s.Sound b op) (h : s.step p = some next) : next.Sound b op := by
  obtain ⟨⟨b', r'⟩, hadvance, rfl⟩ := Option.map_eq_some_iff.mp h
  have hadv := Request.advance_cases hadvance
  obtain ⟨horigin, hdriven⟩ := drive_acts hs.driven hadv.acts
  refine ⟨hs.valid.advance hadvance, by rw [horigin]; exact hs.origin, hdriven, fun error herror => ?_⟩
  rcases List.mem_append.mp herror with hold | hnew
  · rcases hs.failed error hold with hlate | ⟨hover, hrest⟩
    · exact .inl hlate
    · obtain ⟨hover', hrest'⟩ := hadv.over hover
      exact .inr ⟨hover', hrest'.trans hrest⟩
  · cases hadv with
    | answer => simp [deliveredBy] at hnew
    | callback => simp [deliveredBy] at hnew
    | timeout => simp [deliveredBy] at hnew
    | cancel => simp [deliveredBy] at hnew
    | deliver hqueue =>
      have hmem : .failure error ∈ s.request.subscription.queue := by
        rw [deliveredBy, hqueue] at hnew
        rw [hqueue, List.mem_singleton.mp hnew]
        exact List.mem_cons_self
      exact hs.valid.failure_cause error hmem

/-- What the answers of an accepted operation have done to the backend, and what they have done when
they made it fail. -/
theorem Operation.effect_of_drive {b b' : Backend} {op : Operation} {chain rest : ApiChain}
    {answers : List Answer} (hchain : op.IsChain b.currentUser chain)
    (h : Backend.service.drive b chain answers = some (b', rest)) :
    (b' = b ∨ op.Effect b b') ∧ ∀ error, rest = .done (.error error) → op.Remnant b b' := by
  cases op with
  | login email password =>
    obtain rfl : chain = _ := hchain
    rcases drive_promiseUnlessError h (by simp) with rfl | ⟨a, herror, hrespond, rfl⟩
    · exact ⟨.inl rfl, fun _ _ => rfl⟩
    · refine ⟨.inr ?_, by simp⟩
      rcases Backend.respond_signIn hrespond with ⟨hfailed, -⟩ | ⟨-, heffect⟩
      · simp [herror] at hfailed
      · exact heffect
  | createUser userInfo email password =>
    obtain rfl : chain = _ := hchain
    rcases Backend.service.drive_single_cases promiseUnlessError_done h with ⟨-, rfl, -⟩ | ⟨a, -, hrespond, rfl⟩
    · exact ⟨.inl rfl, fun _ _ => .inl rfl⟩
    · rcases Backend.respond_createUser hrespond with ⟨-, rfl | ⟨uid, hcreates⟩⟩ |
        ⟨herror, uid, created, -, hcreates, rfl⟩
      · exact ⟨.inl rfl, fun _ _ => .inl rfl⟩
      · exact ⟨.inr ⟨uid, b', hcreates, .inl rfl⟩, fun _ _ => .inr ⟨uid, hcreates⟩⟩
      · exact ⟨.inr ⟨uid, created, hcreates, .inr rfl⟩, fun error hfail => by
          simp [promiseUnlessError, herror] at hfail⟩
  | setUserInfo userInfo =>
    obtain ⟨-, uid, huid, rfl⟩ := hchain
    rcases drive_promiseUnlessError h (by simp) with rfl | ⟨a, herror, hrespond, rfl⟩
    · exact ⟨.inl rfl, fun _ _ => rfl⟩
    · refine ⟨.inr ?_, by simp⟩
      rcases Backend.respond_setValue hrespond with ⟨hfailed, -⟩ | ⟨-, rfl⟩
      · simp [herror] at hfailed
      · exact ⟨uid, huid, rfl⟩
  | resetPassword email =>
    obtain rfl : chain = _ := hchain
    rcases drive_promiseUnlessError h (by simp) with rfl | ⟨a, -, hrespond, rfl⟩
    · exact ⟨.inl rfl, fun _ _ => rfl⟩
    · cases hrespond
      exact ⟨.inl rfl, by simp⟩
  | updateCoupon object fresh coupon data =>
    obtain ⟨uid, bytes, huid, rfl, rfl⟩ := hchain
    have huploaded : ∀ {b₁ : Backend} {upload : Answer},
        b.respond (.putData (imagePath uid object) bytes) upload = some b₁ →
          Uploaded (imagePath uid object) bytes b b₁ := by
      intro b₁ upload hput
      rcases Backend.respond_putData hput with ⟨-, rfl⟩ | ⟨-, url, -, -, rfl⟩
      · exact .inl rfl
      · exact .inr ⟨url, rfl⟩
    rcases drive_updateCouponChain_cases h with ⟨-, rfl, -⟩ | ⟨upload, -, hput, -⟩ |
      ⟨upload, fetch, -, hput, -, -⟩ | ⟨upload, fetch, write, url, b₁, -, hput, -, -, hwrite, rfl⟩
    · exact ⟨.inl rfl, fun _ _ => .inl rfl⟩
    · exact ⟨.inr ⟨uid, bytes, b', huid, rfl, huploaded hput, .inl rfl⟩,
        fun _ _ => .inr ⟨uid, bytes, huid, rfl, huploaded hput⟩⟩
    · exact ⟨.inr ⟨uid, bytes, b', huid, rfl, huploaded hput, .inl rfl⟩,
        fun _ _ => .inr ⟨uid, bytes, huid, rfl, huploaded hput⟩⟩
    · rcases Backend.respond_updateChildValues hwrite with ⟨-, rfl⟩ | ⟨herror, rfl⟩
      · exact ⟨.inr ⟨uid, bytes, b', huid, rfl, huploaded hput, .inl rfl⟩,
          fun _ _ => .inr ⟨uid, bytes, huid, rfl, huploaded hput⟩⟩
      · exact ⟨.inr ⟨uid, bytes, b₁, huid, rfl, huploaded hput, .inr ⟨url, rfl⟩⟩,
          fun error hfail => by simp [promiseUnlessError, herror] at hfail⟩

/-- After a reported failure, at every later point, the backend differs from the one before the call at
most by effects of that operation. If the timer did not report the failure, the backend is the one
before the call, up to the account that a failed `createUser` may have created without signing it in and
the image that a failed `updateCoupon` may have stored. If the call was refused at once, the backend is the
one before the call. -/
theorem backend_after_failure {b : Backend} {op : Operation} {a : Answer} {s₀ s : Attempt}
    {steps : List (Progress Answer)} (hstart : Attempt.start b op a = some s₀)
    (hrun : run Attempt.step s₀ steps = some s) {error : ApiError}
    (hfail : .failure error ∈ s.delivered) :
    (s.backend = b ∨ op.Effect b s.backend) ∧ (error ≠ timeoutError → op.Remnant b s.backend) ∧
      ((∃ refusal, op.publisher b.currentUser = .fail refusal) → s.backend = b) := by
  have hs : s.Sound b op := run_invariant (Attempt.Sound b op)
    (fun _ _ _ hsound hstep => hsound.step hstep) (Attempt.sound_start hstart) hrun
  obtain ⟨rest, hdriven⟩ := hs.driven
  rcases hs.origin with hfuture | ⟨refusal, -, horigin⟩
  · obtain ⟨heffect, hremnant⟩ := Operation.effect_of_drive (Operation.isChain_of_future hfuture) hdriven
    refine ⟨heffect, fun hne => ?_, fun ⟨refusal, hrefused⟩ => by simp [hfuture] at hrefused⟩
    rcases hs.failed error hfail with hlate | ⟨-, hrest⟩
    · exact absurd hlate hne
    · have hdone : rest = .done (.error error) :=
        Option.some.inj ((Backend.service.resume_of_drive hdriven).symm.trans hrest)
      exact hremnant error hdone
  · have hsame : s.backend = b := by
      rw [horigin] at hdriven
      cases hanswers : s.request.answers with
      | nil =>
        rw [hanswers, Service.drive_nil, Option.some.injEq, Prod.mk.injEq] at hdriven
        exact hdriven.1.symm
      | cons a more => simp [hanswers] at hdriven
    rw [hsame]
    exact ⟨.inl rfl, fun _ => op.remnant_self b, fun _ => rfl⟩

/-- One account, signed out. -/
def signedOut : Backend := { accounts := [⟨⟨"uid-dan", by decide⟩, "ann@mail", "secret"⟩] }

/-- The operation's timer fires first, its answer comes later. -/
def lateAnswer (a : Answer) : List (Progress Answer) := [.timeout, .deliver, .answer a, .callback {}]

/-- A sign-in whose timer fires before its answer. -/
theorem backend_after_timed_out_login : ∃ s₀ s,
    Attempt.start signedOut (.login "ann@mail" "secret") {} = some s₀ ∧
    run Attempt.step s₀ (lateAnswer {}) = some s ∧ .failure timeoutError ∈ s.delivered ∧
    (s.backend = signedOut ∨ (Operation.login "ann@mail" "secret").Effect signedOut s.backend) :=
  ⟨_, _, rfl, rfl, by decide, (@backend_after_failure signedOut (.login "ann@mail" "secret") {} _ _
    (lateAnswer {}) rfl rfl timeoutError (by decide)).1⟩

/-- The account is created, and then the data of the new user cannot be fetched. -/
def createdNotSignedIn : List (Progress Answer) :=
  [.answer { error := some "network error", uid := some ⟨"uid-eve", by decide⟩ }, .callback {}, .deliver]

/-- The subscriber is told that the sign-in failed, and then the user is signed in; and without any timeout it is
told that the sign-up failed, and its account is there. -/
theorem failures_leave_effects :
    (¬ ∀ (b : Backend) (op : Operation) (a : Answer) (s₀ s : Attempt) (steps : List (Progress Answer))
      (error : ApiError), Attempt.start b op a = some s₀ → run Attempt.step s₀ steps = some s →
        .failure error ∈ s.delivered → s.backend = b) ∧
    ¬ ∀ (b : Backend) (op : Operation) (a : Answer) (s₀ s : Attempt) (steps : List (Progress Answer))
      (error : ApiError), Attempt.start b op a = some s₀ → run Attempt.step s₀ steps = some s →
        .failure error ∈ s.delivered → error ≠ timeoutError → s.backend = b := by
  constructor
  · intro h
    have hsame := h signedOut (.login "ann@mail" "secret") {} _ _ (lateAnswer {}) timeoutError rfl rfl (by decide)
    have huser := congrArg Backend.currentUser hsame
    revert huser
    decide
  · intro h
    have hsame := h signedOut (.createUser ⟨some "Eve", some "eve@mail", some "bob"⟩ "eve@mail" "secret") {} _ _
      createdNotSignedIn ⟨.other (some "network error")⟩ rfl rfl (by decide) (by decide)
    have haccounts := congrArg Backend.accounts hsame
    revert haccounts
    decide

end LoveCoupons
