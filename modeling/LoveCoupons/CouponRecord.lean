import LoveCoupons.ApiManager
import LoveCoupons.Lib.RequestPool

/-!
# Coupon records in the tree

`updateCoupon` merges a description and an image into the node of a coupon, `deleteCoupon`
removes that node and `setUserInfo` replaces a user's record. Each write is read back at its
own place and changes no other user, directory or coupon.
-/

namespace LoveCoupons

open KeyedTree Reactive

/-- The node holds a coupon record with this description and image, among any other fields. -/
def IsRecord (node : Node) (description image : String) : Prop :=
  child node Coupon.descriptionKey = some (stringNode description) ∧
    child node Coupon.imageKey = some (stringNode image)

/-- A record is there. -/
theorem IsRecord.ne_none {node : Node} {description image : String} (h : IsRecord node description image) :
    node ≠ none := by
  rintro rfl
  cases h.1

/-- A node holds one description and one image. -/
theorem IsRecord.unique {node : Node} {description image description' image' : String}
    (h : IsRecord node description image) (h' : IsRecord node description' image') :
    description = description' ∧ image = image' := by
  have hd := h.1.symm.trans h'.1
  have hi := h.2.symm.trans h'.2
  simp only [Option.some.injEq, stringNode, Tree.leaf.injEq, Leaf.string.injEq] at hd hi
  exact ⟨hd, hi⟩

/-- A record is exported as a dictionary that decodes to its description and image. -/
theorem IsRecord.decodes {node : Node} {description image : String}
    (h : IsRecord node description image) :
    (asDictionary node).map Coupon.ofData = some { description := description, image := image } := by
  obtain ⟨hd, hi⟩ := h
  cases node with
  | none => cases hd
  | some tree =>
    cases tree with
    | leaf value => cases hd
    | node children =>
      change findChild children Coupon.descriptionKey = _ at hd
      change findChild children Coupon.imageKey = _ at hi
      rw [asDictionary_of_nonInteger (mem_of_findChild hd) (by decide : integerKey Coupon.descriptionKey = none)]
      simp [Coupon.ofData, stringField, hd, hi]

/-- Merging a coupon's values into its node leaves a record of it there. -/
theorem isRecord_merge (database : Node) (path : Path) (coupon : Coupon) :
    IsRecord (getChild (mergeChildren database path coupon.toAnyObject) path)
      coupon.description coupon.image := by
  have hne : Coupon.descriptionKey ≠ Coupon.imageKey := by decide
  rw [getChild_mergeChildren_self]
  simp only [Coupon.toAnyObject, List.foldl_cons, List.foldl_nil]
  constructor
  · rw [child_updateImmediateChild_ne _ hne, child_updateImmediateChild_self]
  · rw [child_updateImmediateChild_self]

/-- The directory with this name of this user. -/
def directoryRef (uid directory : Key) : Path := [uid, directory]

/-- Writing inside one user's directory leaves every other directory alone. -/
theorem getChild_updateChild_directory (database : Node) {uid directory uid' directory' : Key}
    (hne : (uid', directory') ≠ (uid, directory)) (below : Path) (value : Node) :
    getChild (updateChild database (uid :: directory :: below) value) (directoryRef uid' directory') =
      getChild database (directoryRef uid' directory') := by
  by_cases huid : uid' = uid
  · subst huid
    have hdir : directory' ≠ directory := fun h => hne (by rw [h])
    exact getChild_updateChild_fork database [uid'] hdir below [] value
  · exact getChild_updateChild_fork database [] huid (directory :: below) [directory'] value

/-- Merging inside one user's directory leaves every other directory alone. -/
theorem getChild_mergeChildren_directory (database : Node) {uid directory uid' directory' : Key}
    (hne : (uid', directory') ≠ (uid, directory)) (below : Path) (values : List (Key × Node)) :
    getChild (mergeChildren database (uid :: directory :: below) values) (directoryRef uid' directory') =
      getChild database (directoryRef uid' directory') := by
  by_cases huid : uid' = uid
  · subst huid
    have hdir : directory' ≠ directory := fun h => hne (by rw [h])
    exact getChild_mergeChildren_fork database [uid'] hdir below [] values
  · exact getChild_mergeChildren_fork database [] huid (directory :: below) [directory'] values

/-- Merging into one coupon leaves the others alone. -/
theorem getChild_mergeChildren_coupon (database : Node) {uid key uid' key' : Key}
    (hne : (uid', key') ≠ (uid, key)) (values : List (Key × Node)) :
    getChild (mergeChildren database (couponRef uid key) values) (couponRef uid' key') =
      getChild database (couponRef uid' key') := by
  by_cases huid : uid' = uid
  · subst huid
    have hkey : key' ≠ key := fun h => hne (by rw [h])
    exact getChild_mergeChildren_fork database [uid', couponsDirectory] hkey [] [] values
  · exact getChild_mergeChildren_fork database [] huid [couponsDirectory, key] [couponsDirectory, key'] values

/-- Replacing one coupon leaves the others alone. -/
theorem getChild_updateChild_coupon (database : Node) {uid key uid' key' : Key}
    (hne : (uid', key') ≠ (uid, key)) (value : Node) :
    getChild (updateChild database (couponRef uid key) value) (couponRef uid' key') =
      getChild database (couponRef uid' key') := by
  by_cases huid : uid' = uid
  · subst huid
    have hkey : key' ≠ key := fun h => hne (by rw [h])
    exact getChild_updateChild_fork database [uid', couponsDirectory] hkey [] [] value
  · exact getChild_updateChild_fork database [] huid [couponsDirectory, key] [couponsDirectory, key'] value

/-- Writing a user's record leaves every coupon alone. -/
theorem getChild_updateChild_userInfo (database : Node) (uid uid' key : Key) (value : Node) :
    getChild (updateChild database (userInfoRef uid) value) (couponRef uid' key) =
      getChild database (couponRef uid' key) := by
  by_cases huid : uid' = uid
  · subst huid
    exact getChild_updateChild_fork database [uid'] (by decide : couponsDirectory ≠ userInfoDirectory)
      [] [key] value
  · exact getChild_updateChild_fork database [] huid [userInfoDirectory] [couponsDirectory, key] value

/-- How far the answers carry the chain of `updateCoupon`. -/
theorem resume_updateCouponChain_cases {coupon : Coupon} {data : Data} {image : String} {ref : Path}
    {answers : List Answer} {rest : ApiChain}
    (h : (updateCouponChain coupon data image ref).resume answers = some rest) :
    (answers = [] ∧ rest = updateCouponChain coupon data image ref) ∨
    (∃ upload, answers = [upload] ∧ rest = .call (.downloadURL image) (updateCouponRecord coupon ref)) ∨
    (∃ upload fetch, answers = [upload, fetch] ∧ rest = updateCouponRecord coupon ref fetch) ∨
    (∃ upload fetch write url, answers = [upload, fetch, write] ∧ fetch.url = some url ∧
      rest = promiseUnlessError write) := by
  match answers, h with
  | [], h => exact .inl ⟨rfl, (Option.some.inj ((Chain.resume_nil _).symm.trans h)).symm⟩
  | [upload], h => exact .inr (.inl ⟨upload, rfl, (Option.some.inj h).symm⟩)
  | [upload, fetch], h =>
    change (updateCouponRecord coupon ref fetch).resume [] = some rest at h
    rw [Chain.resume_nil] at h
    exact .inr (.inr (.inl ⟨upload, fetch, rfl, (Option.some.inj h).symm⟩))
  | upload :: fetch :: write :: more, h =>
    change (updateCouponRecord coupon ref fetch).resume (write :: more) = some rest at h
    unfold updateCouponRecord at h
    cases hurl : fetch.url with
    | none => simp [hurl] at h
    | some url =>
      simp only [hurl, Chain.resume_call_cons] at h
      cases more with
      | nil =>
        rw [Chain.resume_nil] at h
        exact .inr (.inr (.inr ⟨upload, fetch, write, url, rfl, hurl, (Option.some.inj h).symm⟩))
      | cons a more =>
        unfold promiseUnlessError at h
        cases herror : write.error <;> simp [herror] at h

/-- The call that a running `updateCoupon` waits for. -/
theorem call_of_updateCouponChain {r : ApiRequest} {coupon : Coupon} {data : Data} {image : String} {ref : Path}
    (horigin : r.origin = updateCouponChain coupon data image ref) {call : Call} {next : Answer → ApiChain}
    (hrest : r.rest = some (.call call next)) :
    (r.answers = [] ∧ call = .putData image data) ∨
    (∃ upload, r.answers = [upload] ∧ call = .downloadURL image) ∨
    ∃ upload fetch url, r.answers = [upload, fetch] ∧ fetch.url = some url ∧
      call = .updateChildValues ref { coupon with image := url }.toAnyObject := by
  unfold Request.rest at hrest
  rw [horigin] at hrest
  rcases resume_updateCouponChain_cases hrest with ⟨hanswers, hcall⟩ | ⟨upload, hanswers, hcall⟩ |
    ⟨upload, fetch, hanswers, hcall⟩ | ⟨upload, fetch, write, url, -, -, hcall⟩
  · cases hcall
    exact .inl ⟨hanswers, rfl⟩
  · cases hcall
    exact .inr (.inl ⟨upload, hanswers, rfl⟩)
  · unfold updateCouponRecord at hcall
    split at hcall <;> cases hcall
    exact .inr (.inr ⟨upload, fetch, _, hanswers, ‹_›, rfl⟩)
  · obtain ⟨result, hdone⟩ := promiseUnlessError_done write
    rw [hdone] at hcall
    cases hcall

/-- An update that ends in success got all its answers, the last one without an error. -/
theorem answers_of_updateCoupon_success {coupon : Coupon} {data : Data} {image : String} {ref : Path}
    {answers : List Answer} {success : Bool}
    (h : (updateCouponChain coupon data image ref).resume answers = some (.done (.ok success))) :
    ∃ upload fetch write url, answers = [upload, fetch, write] ∧ fetch.url = some url ∧ write.error = none := by
  rcases resume_updateCouponChain_cases h with ⟨-, hend⟩ | ⟨upload, -, hend⟩ |
    ⟨upload, fetch, -, hend⟩ | ⟨upload, fetch, write, url, hanswers, hurl, hend⟩
  · simp [updateCouponChain] at hend
  · simp at hend
  · unfold updateCouponRecord at hend
    split at hend <;> simp at hend
  · exact ⟨upload, fetch, write, url, hanswers, hurl, (error_of_promiseUnlessError hend.symm).1⟩

/-- The calls of an update that was answered to its end. -/
theorem trace_updateCouponChain (coupon : Coupon) (data : Data) (image : String) (ref : Path) (upload : Answer)
    {fetch : Answer} {url : String} (hurl : fetch.url = some url) (write : Answer) :
    (updateCouponChain coupon data image ref).trace [upload, fetch, write] = [(.putData image data, upload),
      (.downloadURL image, fetch), (.updateChildValues ref { coupon with image := url }.toAnyObject, write)] := by
  simp [updateCouponChain, updateCouponRecord, hurl]

/-- The backend after the answers that the chain of `updateCoupon` has received on its own: the upload
may have stored the image, and the record is written last. -/
theorem drive_updateCouponChain_cases {b b' : Backend} {coupon : Coupon} {data : Data} {image : String}
    {ref : Path} {answers : List Answer} {rest : ApiChain}
    (h : Backend.service.drive b (updateCouponChain coupon data image ref) answers = some (b', rest)) :
    (answers = [] ∧ b' = b ∧ rest = updateCouponChain coupon data image ref) ∨
    (∃ upload, answers = [upload] ∧ b.respond (.putData image data) upload = some b' ∧
      rest = .call (.downloadURL image) (updateCouponRecord coupon ref)) ∨
    (∃ upload fetch, answers = [upload, fetch] ∧ b.respond (.putData image data) upload = some b' ∧
      b'.respond (.downloadURL image) fetch = some b' ∧ rest = updateCouponRecord coupon ref fetch) ∨
    (∃ upload fetch write url b₁, answers = [upload, fetch, write] ∧
      b.respond (.putData image data) upload = some b₁ ∧
      b₁.respond (.downloadURL image) fetch = some b₁ ∧ fetch.url = some url ∧
      b₁.respond (.updateChildValues ref { coupon with image := url }.toAnyObject) write = some b' ∧
      rest = promiseUnlessError write) := by
  match answers, h with
  | [], h =>
    rw [Service.drive_nil] at h
    cases h
    exact .inl ⟨rfl, rfl, rfl⟩
  | [upload], h =>
    obtain ⟨b₁, hput, h⟩ := Option.bind_eq_some_iff.mp h
    rw [Service.drive_nil] at h
    cases h
    exact .inr (.inl ⟨upload, rfl, hput, rfl⟩)
  | [upload, fetch], h =>
    obtain ⟨b₁, hput, hrest⟩ := Option.bind_eq_some_iff.mp h
    obtain ⟨b₂, hget, hend⟩ := Option.bind_eq_some_iff.mp hrest
    have hsame : b₂ = b₁ := (Backend.respond_downloadURL hget).1
    subst hsame
    rw [Service.drive_nil] at hend
    cases hend
    exact .inr (.inr (.inl ⟨upload, fetch, rfl, hput, hget, rfl⟩))
  | upload :: fetch :: write :: more, h =>
    obtain ⟨b₁, hput, hrest⟩ := Option.bind_eq_some_iff.mp h
    obtain ⟨b₂, hget, hrecord⟩ := Option.bind_eq_some_iff.mp hrest
    have hsame : b₂ = b₁ := (Backend.respond_downloadURL hget).1
    subst hsame
    unfold updateCouponRecord at hrecord
    cases hurl : fetch.url with
    | none => simp [hurl] at hrecord
    | some url =>
      simp only [hurl, Service.drive_call_cons] at hrecord
      obtain ⟨b₃, hwrite, hend⟩ := Option.bind_eq_some_iff.mp hrecord
      cases more with
      | nil =>
        rw [Service.drive_nil] at hend
        cases hend
        exact .inr (.inr (.inr ⟨upload, fetch, write, url, b₂, rfl, hput, hget, hurl, hwrite, rfl⟩))
      | cons a more =>
        unfold promiseUnlessError at hend
        cases herror : write.error <;> simp [herror] at hend

/-- An update that ends in success stored its image and then wrote the record with the reported URL. -/
theorem drive_updateCoupon_success {b b' : Backend} {coupon : Coupon} {data : Data} {image : String}
    {ref : Path} {answers : List Answer} {success : Bool}
    (h : Backend.service.drive b (updateCouponChain coupon data image ref) answers =
      some (b', .done (.ok success))) :
    ∃ upload fetch write url b₁, answers = [upload, fetch, write] ∧
      b.respond (.putData image data) upload = some b₁ ∧ fetch.url = some url ∧
      b₁.respond (.updateChildValues ref { coupon with image := url }.toAnyObject) write = some b' ∧
      write.error = none := by
  obtain ⟨upload, fetch, write, url, rfl, -, herror⟩ :=
    answers_of_updateCoupon_success (Backend.service.resume_of_drive h)
  rcases drive_updateCouponChain_cases h with ⟨hanswers, -⟩ | ⟨upload', hanswers, -⟩ |
    ⟨upload', fetch', hanswers, -⟩ | ⟨upload', fetch', write', url', b₁, hanswers, hput, -, hurl, hwrite, -⟩
  · cases hanswers
  · cases hanswers
  · cases hanswers
  · cases hanswers
    exact ⟨upload, fetch, write, url', b₁, rfl, hput, hurl, hwrite, herror⟩

end LoveCoupons
