import LoveCoupons.Models
import LoveCoupons.Lib.Request

/-!
# The services behind the app

The backend is what outlives a call: the accounts, the signed-in user, the database tree and
the stored image objects. A call is answered with the arguments of its completion callback.
The service decides the outcome, and an answer is possible only where the documented
behaviour allows it: a sign-in needs an account with these credentials, a new account needs
an unused e-mail and gets an unused identifier, a download URL belongs to a stored object.
An answer with an error leaves the backend as it was, but for an account creation. That can
fail once the account is there, when the data of the new user cannot be fetched or saved;
then the account stays and nobody is signed in by it.

Database writes take effect in the order in which they are made, so they are the ordered
calls of the service. A sign-in or an account creation that succeeds sets the current user
before its callback runs.
-/

namespace LoveCoupons

open KeyedTree Reactive

/-- The bytes of an image. -/
abbrev Data := List UInt8

/-- An account of the authentication service. -/
structure Account where
  uid : Key
  email : String
  password : String
  deriving DecidableEq

/-- A stored object, with the download URL it received. -/
structure StorageObject where
  path : String
  data : Data
  url : String
  deriving DecidableEq

/-- Everything the app's calls can change outside the app. -/
structure Backend where
  accounts : List Account := []
  currentUser : Option Key := none
  database : Node := none
  storage : List StorageObject := []

/-- The calls that the app makes. -/
inductive Call where
  | signIn (email password : String)
  | createUser (email password : String)
  | sendPasswordReset (email : String)
  | setValue (path : Path) (value : Node)
  | updateChildValues (path : Path) (values : List (Key × Node))
  | putData (path : String) (data : Data)
  | downloadURL (path : String)

/-- The arguments of a completion callback. An upload's answer also fixes the download URL of the
stored object, and the error of an account creation the identifier of an account that it leaves;
the callback does not see them. -/
structure Answer where
  error : Option String := none
  uid : Option Key := none
  url : Option String := none
  deriving DecidableEq

/-- A call that writes to the database. -/
def Call.isWrite : Call → Bool
  | .setValue _ _ => true
  | .updateChildValues _ _ => true
  | _ => false

namespace Backend

/-- The stored object at a path. -/
def object (b : Backend) (path : String) : Option StorageObject :=
  b.storage.find? fun stored => stored.path = path

/-- The backend after a call was answered. -/
def respond (b : Backend) (call : Call) (a : Answer) : Option Backend :=
  match call with
  | .signIn email password =>
    if a.error.isSome then some b
    else (b.accounts.find? fun account => account.email = email ∧ account.password = password).map
      fun account => { b with currentUser := some account.uid }
  | .createUser email password =>
    match a.uid with
    | none => if a.error.isSome then some b else none
    | some uid =>
      if uid ∈ b.accounts.map Account.uid ∨ email ∈ b.accounts.map Account.email then none
      else
        let created := { b with accounts := b.accounts ++ [⟨uid, email, password⟩] }
        some (if a.error.isSome then created else { created with currentUser := some uid })
  | .sendPasswordReset _ => some b
  | .setValue path value =>
    if a.error.isSome then some b else some { b with database := updateChild b.database path value }
  | .updateChildValues path values =>
    if a.error.isSome then some b else some { b with database := mergeChildren b.database path values }
  | .putData path data =>
    if a.error.isSome then some b
    else a.url.bind fun url =>
      if url ∈ b.storage.map StorageObject.url then none
      else some { b with
        storage := ⟨path, data, url⟩ :: b.storage.filter fun stored => stored.path ≠ path }
  | .downloadURL path =>
    match a.url with
    | none => some b
    | some url => if (b.object path).map StorageObject.url = some url then some b else none

/-- `Auth.signOut`, which may throw. -/
def signOut (b : Backend) (a : Answer) : Backend :=
  if a.error.isSome then b else { b with currentUser := none }

/-- The services, with database writes taking effect in the order in which they are made. -/
def service : Service Backend Call Answer where
  respond := respond
  immediate
    | .setValue _ _ => true
    | .updateChildValues _ _ => true
    | _ => false

/-- An answer with an error leaves the backend as it was, unless it is one to an account creation. -/
theorem respond_of_error {b b' : Backend} {call : Call} {a : Answer} (h : b.respond call a = some b')
    (herror : a.error.isSome = true) (hcreate : ∀ email password, call ≠ .createUser email password) : b' = b := by
  cases call with
  | createUser email password => exact absurd rfl (hcreate email password)
  | downloadURL path =>
    simp only [respond] at h
    split at h
    · exact (Option.some.inj h).symm
    · split at h
      · exact (Option.some.inj h).symm
      · contradiction
  | sendPasswordReset email => exact (Option.some.inj h).symm
  | _ =>
    simp only [respond, if_pos herror] at h
    exact (Option.some.inj h).symm

/-- A sign-in is refused or signs in the account with these credentials. -/
theorem respond_signIn {b b' : Backend} {email password : String} {a : Answer}
    (h : b.respond (.signIn email password) a = some b') :
    (a.error.isSome ∧ b' = b) ∨ (a.error = none ∧ ∃ account ∈ b.accounts, account.email = email ∧
      account.password = password ∧ b' = { b with currentUser := some account.uid }) := by
  simp only [respond] at h
  cases herror : a.error with
  | some error => exact .inl ⟨rfl, by simpa [herror, eq_comm] using h⟩
  | none =>
    simp only [herror, Option.isSome_none, Bool.false_eq_true, if_false] at h
    obtain ⟨account, hfind, rfl⟩ := Option.map_eq_some_iff.mp h
    have hmatch := List.find?_some hfind
    simp only [decide_eq_true_eq] at hmatch
    exact .inr ⟨rfl, account, List.mem_of_find?_eq_some hfind, hmatch.1, hmatch.2, rfl⟩

/-- A new account with an unused identifier and an unused e-mail. -/
def Creates (b : Backend) (email password : String) (uid : Key) (created : Backend) : Prop :=
  uid ∉ b.accounts.map Account.uid ∧ email ∉ b.accounts.map Account.email ∧
    created = { b with accounts := b.accounts ++ [⟨uid, email, password⟩] }

/-- An account creation fails, with or without a new account, or adds an account and signs it in. -/
theorem respond_createUser {b b' : Backend} {email password : String} {a : Answer}
    (h : b.respond (.createUser email password) a = some b') :
    (a.error.isSome ∧ (b' = b ∨ ∃ uid, b.Creates email password uid b')) ∨
      (a.error = none ∧ ∃ uid created, a.uid = some uid ∧ b.Creates email password uid created ∧
        b' = { created with currentUser := some uid }) := by
  simp only [respond] at h
  cases huid : a.uid with
  | none =>
    simp only [huid] at h
    split at h
    · exact .inl ⟨‹_›, .inl (Option.some.inj h).symm⟩
    · contradiction
  | some uid =>
    simp only [huid] at h
    split at h
    · contradiction
    · rename_i hfree
      obtain ⟨hunused, hemail⟩ := not_or.mp hfree
      cases herror : a.error with
      | some error =>
        simp only [herror, Option.isSome_some, if_true, Option.some.injEq] at h
        exact .inl ⟨rfl, .inr ⟨uid, hunused, hemail, h.symm⟩⟩
      | none =>
        simp only [herror, Option.isSome_none, Bool.false_eq_true, if_false, Option.some.injEq] at h
        exact .inr ⟨rfl, uid, _, rfl, ⟨hunused, hemail, rfl⟩, h.symm⟩

/-- An answer with an error signs nobody in. -/
theorem currentUser_of_error {b b' : Backend} {call : Call} {a : Answer} (h : b.respond call a = some b')
    (herror : a.error.isSome = true) : b'.currentUser = b.currentUser := by
  by_cases hcreate : ∃ email password, call = .createUser email password
  · obtain ⟨email, password, rfl⟩ := hcreate
    rcases respond_createUser h with ⟨-, rfl | ⟨uid, -, -, rfl⟩⟩ | ⟨hnone, -⟩
    · rfl
    · rfl
    · simp [hnone] at herror
  · rw [respond_of_error h herror fun email password heq => hcreate ⟨email, password, heq⟩]

/-- A write is refused or replaces the node at its path. -/
theorem respond_setValue {b b' : Backend} {path : Path} {value : Node} {a : Answer}
    (h : b.respond (.setValue path value) a = some b') :
    (a.error.isSome ∧ b' = b) ∨
      (a.error = none ∧ b' = { b with database := updateChild b.database path value }) := by
  simp only [respond] at h
  cases herror : a.error with
  | some error => exact .inl ⟨rfl, by simpa [herror, eq_comm] using h⟩
  | none => exact .inr ⟨rfl, by simpa [herror, eq_comm] using h⟩

/-- A merge is refused or merges its values at its path. -/
theorem respond_updateChildValues {b b' : Backend} {path : Path} {values : List (Key × Node)}
    {a : Answer} (h : b.respond (.updateChildValues path values) a = some b') :
    (a.error.isSome ∧ b' = b) ∨
      (a.error = none ∧ b' = { b with database := mergeChildren b.database path values }) := by
  simp only [respond] at h
  cases herror : a.error with
  | some error => exact .inl ⟨rfl, by simpa [herror, eq_comm] using h⟩
  | none => exact .inr ⟨rfl, by simpa [herror, eq_comm] using h⟩

/-- An upload is refused or stores the bytes under a new URL. -/
theorem respond_putData {b b' : Backend} {path : String} {data : Data} {a : Answer}
    (h : b.respond (.putData path data) a = some b') :
    (a.error.isSome ∧ b' = b) ∨ (a.error = none ∧ ∃ url, a.url = some url ∧
      url ∉ b.storage.map StorageObject.url ∧ b' = { b with
        storage := ⟨path, data, url⟩ :: b.storage.filter fun stored => stored.path ≠ path }) := by
  simp only [respond] at h
  cases herror : a.error with
  | some error => exact .inl ⟨rfl, by simpa [herror, eq_comm] using h⟩
  | none =>
    simp only [herror, Option.isSome_none, Bool.false_eq_true, if_false] at h
    obtain ⟨url, hurl, h⟩ := Option.bind_eq_some_iff.mp h
    split at h
    · contradiction
    · rename_i hfree
      exact .inr ⟨rfl, url, hurl, hfree, (Option.some.inj h).symm⟩

/-- Asking for a URL changes nothing, and an answered URL is the one of the object at the path. -/
theorem respond_downloadURL {b b' : Backend} {path : String} {a : Answer}
    (h : b.respond (.downloadURL path) a = some b') :
    b' = b ∧ ∀ url, a.url = some url → ∃ stored, b.object path = some stored ∧ stored.url = url := by
  simp only [respond] at h
  cases hurl : a.url with
  | none => exact ⟨by simpa [hurl, eq_comm] using h, by simp⟩
  | some url =>
    simp only [hurl] at h
    split at h
    · rename_i hobject
      refine ⟨(Option.some.inj h).symm, ?_⟩
      rintro url' heq
      cases heq
      exact Option.map_eq_some_iff.mp hobject
    · contradiction

/-- Only uploads change the stored objects. -/
theorem storage_of_respond {b b' : Backend} {call : Call} {a : Answer} (h : b.respond call a = some b')
    (hput : ∀ image data, call ≠ .putData image data) : b'.storage = b.storage := by
  cases call with
  | signIn email password => rcases respond_signIn h with ⟨-, rfl⟩ | ⟨-, _, -, -, -, rfl⟩ <;> rfl
  | createUser email password =>
    rcases respond_createUser h with ⟨-, rfl | ⟨_, -, -, rfl⟩⟩ | ⟨-, _, _, -, ⟨-, -, rfl⟩, rfl⟩ <;> rfl
  | sendPasswordReset email => rw [← Option.some.inj h]
  | setValue path value => rcases respond_setValue h with ⟨-, rfl⟩ | ⟨-, rfl⟩ <;> rfl
  | updateChildValues path values =>
    rcases respond_updateChildValues h with ⟨-, rfl⟩ | ⟨-, rfl⟩ <;> rfl
  | putData image data => exact absurd rfl (hput image data)
  | downloadURL path => rw [(respond_downloadURL h).1]

/-- Only writes change the database. -/
theorem database_of_respond {b b' : Backend} {call : Call} {a : Answer} (h : b.respond call a = some b')
    (hwrite : call.isWrite = false) : b'.database = b.database := by
  cases call with
  | signIn email password => rcases respond_signIn h with ⟨-, rfl⟩ | ⟨-, _, -, -, -, rfl⟩ <;> rfl
  | createUser email password =>
    rcases respond_createUser h with ⟨-, rfl | ⟨_, -, -, rfl⟩⟩ | ⟨-, _, _, -, ⟨-, -, rfl⟩, rfl⟩ <;> rfl
  | sendPasswordReset email => rw [← Option.some.inj h]
  | setValue path value => cases hwrite
  | updateChildValues path values => cases hwrite
  | putData image data => rcases respond_putData h with ⟨-, rfl⟩ | ⟨-, _, -, -, rfl⟩ <;> rfl
  | downloadURL path => rw [(respond_downloadURL h).1]

/-- Only a sign-in and an account creation change the signed-in user. -/
theorem currentUser_of_respond {b b' : Backend} {call : Call} {a : Answer} (h : b.respond call a = some b')
    (hsignIn : ∀ email password, call ≠ .signIn email password)
    (hcreate : ∀ email password, call ≠ .createUser email password) : b'.currentUser = b.currentUser := by
  cases call with
  | signIn email password => exact absurd rfl (hsignIn email password)
  | createUser email password => exact absurd rfl (hcreate email password)
  | sendPasswordReset email => rw [← Option.some.inj h]
  | setValue path value => rcases respond_setValue h with ⟨-, rfl⟩ | ⟨-, rfl⟩ <;> rfl
  | updateChildValues path values =>
    rcases respond_updateChildValues h with ⟨-, rfl⟩ | ⟨-, rfl⟩ <;> rfl
  | putData image data => rcases respond_putData h with ⟨-, rfl⟩ | ⟨-, _, -, -, rfl⟩ <;> rfl
  | downloadURL path => rw [(respond_downloadURL h).1]

/-- The object at a path is stored under that path. -/
theorem mem_of_object {b : Backend} {path : String} {stored : StorageObject}
    (h : b.object path = some stored) : stored ∈ b.storage ∧ stored.path = path :=
  ⟨List.mem_of_find?_eq_some h, by simpa using List.find?_some h⟩

/-- Storing an object under another path leaves the object at this path. -/
theorem object_store_of_ne (b : Backend) {path other : String} (hne : path ≠ other) (data : Data)
    (url : String) : ({ b with storage :=
      ⟨other, data, url⟩ :: b.storage.filter fun stored => stored.path ≠ other } : Backend).object path =
      b.object path := by
  unfold object
  rw [List.find?_cons_of_neg (by simpa using hne.symm), List.find?_filter]
  congr 1
  funext stored
  by_cases hpath : stored.path = path
  · simp [hpath, hne]
  · simp [hpath]

/-- The object just stored is the one at its path. -/
theorem object_store_self (b : Backend) (path : String) (data : Data) (url : String) :
    ({ b with storage :=
      ⟨path, data, url⟩ :: b.storage.filter fun stored => stored.path ≠ path } : Backend).object path =
      some ⟨path, data, url⟩ := by
  simp [object]

end Backend

end LoveCoupons
