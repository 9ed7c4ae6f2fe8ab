import LoveCoupons.Store

/-!
# The database refines the store

The database tree represents the store: the two directories of a user are read back through
the app's decoders, and a directory of coupons is always exported as a dictionary, because its
keys are generated identifiers.
-/

namespace LoveCoupons

open KeyedTree Reactive StepSystem

/-- A coupon's node holds the entry the store keeps for it. -/
def Holds (node : Node) : Option (String × String) → Prop
  | some (description, image) => IsRecord node description image
  | none => node = none

/-- The database represents the store: each user's record is the last one set, an accepted one, each
coupon's node holds the store's entry, and the names of the coupons are distinct generated
identifiers. -/
structure Represents (s : StoreState) (store : Store) : Prop where
  userInfo : ∀ uid, getChild s.backend.database (userInfoRef uid) =
    (store uid).userInfo.bind UserInfo.toAnyObject
  accepted : ∀ uid userInfo, (store uid).userInfo = some userInfo → userInfo.hasRequiredFields = true
  coupons : ∀ uid key, Holds (getChild s.backend.database (couponRef uid key)) ((store uid).coupons key)
  distinct : ∀ uid, DistinctKeys (getChild s.backend.database (couponsRef uid))
  generated : ∀ uid key, (store uid).coupons key ≠ none → ∃ uuid : UUID, key = uuid.toKey
  read_generated : ∀ entry ∈ s.read, ∃ uuid : UUID, entry.2.key = some uuid.toKey

/-- The empty database represents the empty store. -/
theorem represents_start : Represents .start fun _ => {} := by
  refine ⟨fun uid => rfl, ?_, fun uid key => ?_, fun uid => ?_, fun uid key h => absurd rfl h, ?_⟩
  · intro uid userInfo hnone
    cases hnone
  · change getChild none (couponRef uid key) = none
    exact getChild_none _
  · change DistinctKeys (getChild none (couponsRef uid))
    rw [getChild_none]
    exact List.nodup_nil
  · intro entry hentry
    cases hentry

/-- A write that reads back as an entry at one coupon, and changes no other coupon and no other
directory, is the store's change of that coupon. -/
theorem Represents.setCoupon {s : StoreState} {store : Store} (hr : Represents s store) {b : Backend}
    {uid key : Key} {entry : Option (String × String)}
    (hdirectory : ∀ uid' directory', (uid', directory') ≠ (uid, couponsDirectory) →
      getChild b.database (directoryRef uid' directory') =
        getChild s.backend.database (directoryRef uid' directory'))
    (hcoupon : ∀ uid' key', (uid', key') ≠ (uid, key) →
      getChild b.database (couponRef uid' key') = getChild s.backend.database (couponRef uid' key'))
    (hentry : Holds (getChild b.database (couponRef uid key)) entry)
    (hdistinct : DistinctKeys (getChild b.database (couponsRef uid)))
    (hgenerated : entry ≠ none → ∃ uuid : UUID, key = uuid.toKey) :
    Represents { s with backend := b } (store.setCoupon uid key entry) := by
  have hdirectories : userInfoDirectory ≠ couponsDirectory := by decide
  refine ⟨fun uid' => ?_, fun uid' userInfo hlast => ?_, fun uid' key' => ?_, fun uid' => ?_,
    fun uid' key' hne => ?_, hr.read_generated⟩
  · rw [Store.userInfo_setCoupon, ← hr.userInfo uid']
    exact hdirectory uid' userInfoDirectory (by simp [hdirectories])
  · rw [Store.userInfo_setCoupon] at hlast
    exact hr.accepted uid' userInfo hlast
  · rw [Store.coupons_setCoupon]
    by_cases heq : (uid', key') = (uid, key)
    · rw [if_pos heq]
      cases heq
      exact hentry
    · rw [if_neg heq]
      change Holds (getChild b.database (couponRef uid' key')) _
      rw [hcoupon uid' key' heq]
      exact hr.coupons uid' key'
  · by_cases huid : uid' = uid
    · subst huid
      exact hdistinct
    · change DistinctKeys (getChild b.database (directoryRef uid' couponsDirectory))
      rw [hdirectory uid' couponsDirectory (by simp [huid])]
      exact hr.distinct uid'
  · rw [Store.coupons_setCoupon] at hne
    by_cases heq : (uid', key') = (uid, key)
    · rw [if_pos heq] at hne
      cases heq
      exact hgenerated hne
    · rw [if_neg heq] at hne
      exact hr.generated uid' key' hne

/-- A user's new record. -/
theorem Represents.setUserInfo {s : StoreState} {store : Store} (hr : Represents s store) (uid : Key)
    {userInfo : UserInfo} (hfields : userInfo.hasRequiredFields = true) :
    Represents { s with backend := { s.backend with
        database := updateChild s.backend.database (userInfoRef uid) userInfo.toAnyObject } }
      (Function.update store uid { store uid with userInfo := some userInfo }) := by
  have hcoupons : ∀ uid', (Function.update store uid
      { store uid with userInfo := some userInfo } uid').coupons = (store uid').coupons := by
    intro uid'
    by_cases huid : uid' = uid
    · subst huid
      simp
    · simp [huid]
  have hdirectories : couponsDirectory ≠ userInfoDirectory := by decide
  refine ⟨fun uid' => ?_, fun uid' last hlast => ?_, fun uid' key => ?_, fun uid' => ?_,
    fun uid' key hne => ?_, hr.read_generated⟩
  · by_cases huid : uid' = uid
    · subst huid
      rw [Function.update_self]
      exact getChild_updateChild_self _ _ _
    · have hne : (uid', userInfoDirectory) ≠ (uid, userInfoDirectory) := by simp [huid]
      rw [Function.update_of_ne huid, ← hr.userInfo uid']
      exact getChild_updateChild_directory s.backend.database hne [] userInfo.toAnyObject
  · by_cases huid : uid' = uid
    · subst huid
      rw [Function.update_self] at hlast
      exact Option.some.inj hlast ▸ hfields
    · rw [Function.update_of_ne huid] at hlast
      exact hr.accepted uid' last hlast
  · rw [hcoupons]
    have hframe := getChild_updateChild_userInfo s.backend.database uid uid' key userInfo.toAnyObject
    exact hframe ▸ hr.coupons uid' key
  · have hne : (uid', couponsDirectory) ≠ (uid, userInfoDirectory) := by simp [hdirectories]
    have hframe := getChild_updateChild_directory s.backend.database hne [] userInfo.toAnyObject
    exact hframe ▸ hr.distinct uid'
  · rw [hcoupons] at hne
    exact hr.generated uid' key hne

/-- The keys of the decoded coupons are keys of the dictionary, in its order. -/
theorem keys_myCouponsOfDictionary (dict : Dictionary) :
    ((myCouponsOfDictionary dict).map Coupon.key).Sublist ((dict.map Prod.fst).map some) := by
  induction dict with
  | nil => exact List.Sublist.refl _
  | cons entry rest ih =>
    unfold myCouponsOfDictionary at ih ⊢
    cases hdata : asDictionary (some entry.2) with
    | none =>
      rw [List.filterMap_cons_none (by simp [hdata])]
      exact ih.cons _
    | some data =>
      rw [List.filterMap_cons_some (by rw [hdata]; rfl)]
      exact ih.cons_cons _

/-- The decoded coupons are the live coupons of the store, with their keys. -/
theorem Represents.mem_myCoupons {s : StoreState} {store : Store} (hr : Represents s store) {uid : Key}
    {dict : Dictionary} (hdict : asDictionary (getChild s.backend.database (couponsRef uid)) = some dict)
    (coupon : Coupon) : coupon ∈ myCouponsOfDictionary dict ↔ ∃ key, coupon.key = some key ∧
      (store uid).coupons key = some (coupon.description, coupon.image) := by
  have hnode := eq_node_of_asDictionary hdict
  have hmem : ∀ key tree, (key, tree) ∈ dict ↔
      getChild s.backend.database (couponRef uid key) = some tree := by
    intro key tree
    have hchild := mem_childList_iff (hr.distinct uid) key tree
    rw [hnode] at hchild
    have hpath : getChild s.backend.database (couponRef uid key) =
        child (getChild s.backend.database (couponsRef uid)) key := rfl
    rw [hpath, hnode]
    exact hchild
  unfold myCouponsOfDictionary
  rw [List.mem_filterMap]
  constructor
  · rintro ⟨⟨key, tree⟩, hentry, hdecode⟩
    have hholds := hr.coupons uid key
    rw [(hmem key tree).mp hentry] at hholds
    cases hlive : (store uid).coupons key with
    | none =>
      rw [hlive] at hholds
      cases hholds
    | some fields =>
      obtain ⟨description, image⟩ := fields
      rw [hlive] at hholds
      obtain ⟨data, hdata, hcoupon⟩ := Option.map_eq_some_iff.mp hdecode
      have hfields := hholds.decodes
      rw [hdata, Option.map_some, Option.some.injEq] at hfields
      rw [hfields] at hcoupon
      subst hcoupon
      exact ⟨key, rfl, hlive⟩
  · rintro ⟨key, hkey, hlive⟩
    have hholds := hr.coupons uid key
    rw [hlive] at hholds
    obtain ⟨tree, htree⟩ := Option.ne_none_iff_exists'.mp hholds.ne_none
    refine ⟨(key, tree), (hmem key tree).mpr htree, ?_⟩
    have hfields := hholds.decodes
    rw [htree] at hfields
    obtain ⟨data, hdata, hcoupon⟩ := Option.map_eq_some_iff.mp hfields
    rw [hdata, Option.map_some, hcoupon, ← hkey]

/-- With a live coupon the directory is a dictionary, because a generated key is not an integer. -/
theorem Represents.exists_dictionary {s : StoreState} {store : Store} (hr : Represents s store)
    {uid key : Key} (hlive : (store uid).coupons key ≠ none) :
    ∃ dict, asDictionary (getChild s.backend.database (couponsRef uid)) = some dict := by
  obtain ⟨uuid, rfl⟩ := hr.generated uid key hlive
  obtain ⟨⟨description, image⟩, hentry⟩ := Option.ne_none_iff_exists'.mp hlive
  have hholds := hr.coupons uid uuid.toKey
  rw [hentry] at hholds
  obtain ⟨tree, htree⟩ := Option.ne_none_iff_exists'.mp hholds.ne_none
  have hchild : child (getChild s.backend.database (couponsRef uid)) uuid.toKey = some tree := htree
  cases hnode : getChild s.backend.database (couponsRef uid) with
  | none => simp [hnode] at hchild
  | some node =>
    rw [hnode] at hchild
    cases node with
    | leaf value => cases hchild
    | node children =>
      exact ⟨children, asDictionary_of_nonInteger (mem_of_findChild hchild) (integerKey_uuid uuid)⟩

/-- Reading delivers coupons with generated keys. -/
theorem Represents.getMyCoupons {s : StoreState} {store : Store} (hr : Represents s store) (uid : Key) :
    Represents { s with
      read := s.read ++ (myCoupons s.backend.database uid).map fun coupon => (uid, coupon) } store := by
  refine ⟨hr.userInfo, hr.accepted, hr.coupons, hr.distinct, hr.generated, ?_⟩
  intro entry hentry
  rcases List.mem_append.mp hentry with hold | hnew
  · exact hr.read_generated entry hold
  · obtain ⟨coupon, hcoupon, rfl⟩ := List.mem_map.mp hnew
    unfold myCoupons at hcoupon
    cases hdict : asDictionary (getChild s.backend.database (couponsRef uid)) with
    | none => simp [hdict] at hcoupon
    | some dict =>
      rw [hdict] at hcoupon
      obtain ⟨key, hkey, hlive⟩ := (hr.mem_myCoupons hdict coupon).mp hcoupon
      obtain ⟨uuid, rfl⟩ := hr.generated uid key (by simp [hlive])
      exact ⟨uuid, hkey⟩

/-- What a completed operation does to the backend. -/
theorem StoreState.step_cases {s next : StoreState} {uid : Key} {op : StoreOp} (h : s.step (uid, op) = some next) :
    (∃ userInfo answers, op = .setUserInfo userInfo answers ∧ userInfo.hasRequiredFields = true ∧
      next = { s with backend := { s.backend with
        database := updateChild s.backend.database (userInfoRef uid) userInfo.toAnyObject } }) ∨
    (∃ object fresh coupon data answers b, op = .updateCoupon object fresh coupon data answers ∧
      (coupon.key = none ∨ ∃ entry ∈ s.read, entry.1 = uid ∧ entry.2.key = coupon.key) ∧
      b.database = mergeChildren s.backend.database (couponRef uid (coupon.key.getD fresh.toKey))
        { coupon with image := reportedUrl answers }.toAnyObject ∧ next = { s with backend := b }) ∨
    (∃ coupon answer key, op = .deleteCoupon coupon answer ∧ coupon.key = some key ∧
      next = { s with backend := { s.backend with
        database := updateChild s.backend.database (couponRef uid key) none } }) ∨
    (op = .getMyCoupons ∧ next = { s with
      read := s.read ++ (myCoupons s.backend.database uid).map fun coupon => (uid, coupon) }) := by
  cases op with
  | setUserInfo userInfo answers =>
    obtain ⟨b, hb, rfl⟩ := Option.map_eq_some_iff.mp h
    obtain ⟨hfields, rfl⟩ := completed_setUserInfo hb
    exact .inl ⟨userInfo, answers, rfl, hfields, rfl⟩
  | updateCoupon object fresh coupon data answers =>
    simp only [StoreState.step] at h
    split at h
    · obtain ⟨b, hb, rfl⟩ := Option.map_eq_some_iff.mp h
      exact .inr (.inl ⟨object, fresh, coupon, data, answers, b, rfl, ‹_›, completed_updateCoupon hb, rfl⟩)
    · contradiction
  | deleteCoupon coupon answer =>
    simp only [StoreState.step] at h
    split at h
    · rename_i herror
      obtain ⟨call, hcall, hmade⟩ := Option.bind_eq_some_iff.mp h
      obtain ⟨uid', key, huid, hkey, rfl⟩ := deleteCoupon_eq_some hcall
      cases huid
      obtain ⟨b, hb, rfl⟩ := Option.map_eq_some_iff.mp hmade
      rcases Backend.respond_setValue hb with ⟨hfailed, -⟩ | ⟨-, rfl⟩
      · simp [herror] at hfailed
      · exact .inr (.inr (.inl ⟨coupon, answer, key, rfl, hkey, rfl⟩))
    · contradiction
  | getMyCoupons => exact .inr (.inr (.inr ⟨rfl, (Option.some.inj h).symm⟩))

/-- Every completed operation keeps the representation. -/
theorem Represents.step {s next : StoreState} {store : Store} {op : Key × StoreOp}
    (hr : Represents s store) (h : s.step op = some next) : Represents next (store.apply op) := by
  obtain ⟨uid, op⟩ := op
  obtain ⟨userInfo, answers, rfl, hfields, rfl⟩ |
    ⟨object, fresh, coupon, data, answers, b, rfl, hkey, hb, rfl⟩ |
    ⟨coupon, answer, key, rfl, hkey, rfl⟩ | ⟨rfl, rfl⟩ := StoreState.step_cases h
  · exact hr.setUserInfo uid hfields
  · apply hr.setCoupon
    · intro uid' directory' hne
      rw [hb]
      exact getChild_mergeChildren_directory _ hne [_] _
    · intro uid' key' hne
      rw [hb]
      exact getChild_mergeChildren_coupon _ hne _
    · rw [hb]
      exact isRecord_merge _ _ _
    · rw [hb]
      exact (hr.distinct uid).mergeChildren_below _ [] _
    · intro _
      rcases hkey with hnew | ⟨entry, hentry, -, hread⟩
      · exact ⟨fresh, by rw [hnew]; rfl⟩
      · obtain ⟨uuid, huuid⟩ := hr.read_generated entry hentry
        exact ⟨uuid, by rw [← hread, huuid]; rfl⟩
  · have happly : store.apply (uid, .deleteCoupon coupon answer) = store.setCoupon uid key none := by
      simp [Store.apply, hkey]
    rw [happly]
    apply hr.setCoupon
    · intro uid' directory' hne
      exact getChild_updateChild_directory _ hne [key] none
    · intro uid' key' hne
      exact getChild_updateChild_coupon _ hne none
    · exact getChild_updateChild_self _ _ _
    · exact (hr.distinct uid).updateChild_below key [] none
    · intro hne
      exact absurd rfl hne
  · exact hr.getMyCoupons uid

/-- The database represents the store after every run. -/
theorem represents_run {ops : List (Key × StoreOp)} {s : StoreState}
    (h : run StoreState.step .start ops = some s) : Represents s (Store.after ops) := by
  apply run_history (fun past s => Represents s (Store.after past)) represents_start ?_ h
  intro past s op next hr hstep
  unfold Store.after at hr ⊢
  rw [List.foldl_concat]
  exact hr.step hstep

/-- A user's record is read back as the last one set. -/
theorem Represents.userInfoOfSnapshot {s : StoreState} {store : Store} (hr : Represents s store) {uid : Key}
    {userInfo : UserInfo} (hlast : (store uid).userInfo = some userInfo) :
    userInfoOfSnapshot (getChild s.backend.database (userInfoRef uid)) = .ok userInfo.filled := by
  rw [hr.userInfo uid, hlast, Option.bind_some, userInfoOfSnapshot_toAnyObject]

/-- A completed operation leaves every directory but its own as it was. -/
theorem StoreState.step_frame {s next : StoreState} {uid uid' directory : Key} {op : StoreOp}
    (h : s.step (uid, op) = some next) (hne : (uid', directory) ≠ (uid, op.directory)) :
    getChild next.backend.database (directoryRef uid' directory) =
      getChild s.backend.database (directoryRef uid' directory) := by
  obtain ⟨userInfo, answers, rfl, hfields, rfl⟩ |
    ⟨object, fresh, coupon, data, answers, b, rfl, hkey, hb, rfl⟩ |
    ⟨coupon, answer, key, rfl, hkey, rfl⟩ | ⟨rfl, rfl⟩ := StoreState.step_cases h
  · exact getChild_updateChild_directory s.backend.database hne [] userInfo.toAnyObject
  · rw [hb]
    exact getChild_mergeChildren_directory _ hne [_] _
  · exact getChild_updateChild_directory s.backend.database hne [key] none
  · rfl

/-- After every sequence of completed operations, a user's record is read back as the last one set,
a user with a live coupon reads exactly the live coupons, once each, and the next operation changes
no other user and not the user's other directory. -/
theorem database_refines_store {ops : List (Key × StoreOp)} {s : StoreState}
    (h : run StoreState.step .start ops = some s) :
    (∀ uid userInfo, (Store.after ops uid).userInfo = some userInfo →
      userInfoOfSnapshot (getChild s.backend.database (userInfoRef uid)) = .ok userInfo.filled) ∧
    (∀ uid, (∃ key, (Store.after ops uid).coupons key ≠ none) →
      ∃ dict, asDictionary (getChild s.backend.database (couponsRef uid)) = some dict ∧
        ((myCouponsOfDictionary dict).map Coupon.key).Nodup ∧
        ∀ coupon, coupon ∈ myCouponsOfDictionary dict ↔ ∃ key, coupon.key = some key ∧
          (Store.after ops uid).coupons key = some (coupon.description, coupon.image)) ∧
    (∀ uid op next, s.step (uid, op) = some next →
      ∀ uid' directory, (uid', directory) ≠ (uid, op.directory) →
        getChild next.backend.database (directoryRef uid' directory) =
          getChild s.backend.database (directoryRef uid' directory)) := by
  have hr := represents_run h
  refine ⟨fun uid userInfo hlast => hr.userInfoOfSnapshot hlast, ?_,
    fun uid op next hstep uid' directory hne => StoreState.step_frame hstep hne⟩
  · rintro uid ⟨key, hlive⟩
    obtain ⟨dict, hdict⟩ := hr.exists_dictionary hlive
    refine ⟨dict, hdict, ?_, hr.mem_myCoupons hdict⟩
    have hkeys := hr.distinct uid
    rw [eq_node_of_asDictionary hdict] at hkeys
    exact (hkeys.map fun _ _ => Option.some.inj).sublist (keys_myCouponsOfDictionary dict)

/-- Two users: one sets a record, adds a coupon, reads it and edits it, the other adds one. -/
def twoUsersRun : List (Key × StoreOp) :=
  let amy : Key := ⟨"amy", by decide⟩
  let ben : Key := ⟨"ben", by decide⟩
  let object : UUID := ⟨"00000000-0000-0000-0000-0000000000DA", by decide⟩
  let object' : UUID := ⟨"00000000-0000-0000-0000-0000000000DB", by decide⟩
  let fresh : UUID := ⟨"00000000-0000-0000-0000-0000000000D1", by decide⟩
  let answers := fun url => [({ url := some url } : Answer), { url := some url }, {}]
  [(amy, .setUserInfo ⟨some "Ann", none, some "bob"⟩ [{}]),
    (amy, .updateCoupon object fresh { description := "Dinner" } (some [1]) (answers "https://a")),
    (amy, .getMyCoupons),
    (amy, .updateCoupon object' fresh { key := some fresh.toKey, description := "Lunch" } (some [2])
      (answers "https://b")),
    (ben, .updateCoupon object fresh { description := "Walk" } (some [3]) (answers "https://c"))]

/-- The first user reads the edited coupon with its new image. -/
theorem database_refines_twoUsersRun : ∃ s, run StoreState.step .start twoUsersRun = some s ∧
    ∃ dict, asDictionary (getChild s.backend.database (couponsRef ⟨"amy", by decide⟩)) = some dict ∧
      ⟨some (UUID.toKey ⟨"00000000-0000-0000-0000-0000000000D1", by decide⟩), "Lunch", "https://b"⟩ ∈
        myCouponsOfDictionary dict := by
  refine ⟨_, rfl, ?_⟩
  have hentry : (Store.after twoUsersRun ⟨"amy", by decide⟩).coupons
      (UUID.toKey ⟨"00000000-0000-0000-0000-0000000000D1", by decide⟩) = some ("Lunch", "https://b") := by
    decide
  obtain ⟨-, hcoupons, -⟩ := @database_refines_store twoUsersRun _ rfl
  obtain ⟨dict, hdict, -, hmem⟩ := hcoupons ⟨"amy", by decide⟩ ⟨_, by rw [hentry]; simp⟩
  exact ⟨dict, hdict, (hmem _).mpr ⟨_, rfl, hentry⟩⟩

end LoveCoupons
