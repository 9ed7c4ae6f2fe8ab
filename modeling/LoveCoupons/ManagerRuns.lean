import LoveCoupons.ManagerWrites

/-!
# What the app sees of its own writes

A coupon that is sent and a record that is saved are shown on their screens before the server
answers: the observer of the user's coupons is told the coupon, and that of the user's record
the record, until a later write of the app is about the same one. In no schedule of the
manager's writes, the registrations, the server's data and its answers does the repository
fail.
-/

namespace LoveCoupons

open KeyedTree PathContents StepSystem

section Decoding

/-- A part with a value at its root is that value. -/
theorem child_of_contents {snap : Snap Key Leaf} {field : Key} {text : String}
    (h : snap.contents [field] = some (.string text)) : child snap.tree field = some (stringNode text) := by
  apply leafAt_nil_eq_some
  rw [← leafAt_cons]
  exact h

/-- A snapshot with the contents of a stored record is read as that record. -/
theorem userInfoOfSnapshot_of_contents {snap : Snap Key Leaf} {userInfo : UserInfo}
    (h : snap.contents = userInfo.snapshot.contents) : userInfoOfSnapshot snap.tree = .ok userInfo.filled := by
  have hname : child snap.tree UserInfo.nameKey = some (stringNode (userInfo.name.getD "")) :=
    child_of_contents (congrFun h [UserInfo.nameKey])
  have hemail : child snap.tree UserInfo.emailKey = some (stringNode (userInfo.email.getD "")) :=
    child_of_contents (congrFun h [UserInfo.emailKey])
  have hpair : child snap.tree UserInfo.pairUniqIdKey = some (stringNode (userInfo.pairUniqId.getD "")) :=
    child_of_contents (congrFun h [UserInfo.pairUniqIdKey])
  cases htree : snap.tree with
  | none =>
    rw [htree] at hname
    cases hname
  | some tree =>
    rw [htree] at hname hemail hpair
    cases tree with
    | leaf value => cases hname
    | node children =>
      change findChild children UserInfo.nameKey = _ at hname
      change findChild children UserInfo.emailKey = _ at hemail
      change findChild children UserInfo.pairUniqIdKey = _ at hpair
      have hdata := asDictionary_of_nonInteger (mem_of_findChild hname) (by decide : integerKey UserInfo.nameKey = none)
      rw [userInfoOfSnapshot, hdata]
      simp [UserInfo.ofData, UserInfo.filled, stringField, hname, hemail, hpair]

/-- A record under a key that is not an integer is one of the coupons that are read. -/
theorem exists_myCoupons {directory : Node} {key : Key} (hkey : integerKey key = none) {description image : String}
    (h : IsRecord (getChild directory [key]) description image) :
    ∃ dict, asDictionary directory = some dict ∧
      { key := some key, description := description, image := image } ∈ myCouponsOfDictionary dict := by
  obtain ⟨tree, htree⟩ := Option.ne_none_iff_exists'.mp h.ne_none
  have hfields := h.decodes
  rw [htree] at hfields
  obtain ⟨data, hdata, hcoupon⟩ := Option.map_eq_some_iff.mp hfields
  have hchild : child directory key = some tree := htree
  cases directory with
  | none => cases hchild
  | some directory =>
    cases directory with
    | leaf value => cases hchild
    | node children =>
      have hmem : (key, tree) ∈ children := mem_of_findChild hchild
      refine ⟨children, asDictionary_of_nonInteger hmem hkey, List.mem_filterMap.mpr ⟨(key, tree), hmem, ?_⟩⟩
      rw [hdata, Option.map_some, hcoupon]

end Decoding

section Runs

variable {ρ : Type} [DecidableEq ρ]

/-- Every schedule of the manager's writes and of what the server sends has a run, at whose end the repository is
sound, what was told is up to date and the pending writes are the manager's. -/
theorem exists_managed_run {messages : List (Repo.Message Key Leaf ρ)}
    (h : Along Repo.hear (fun heard => ManagerPermitted heard.1) (({}, []) : Repo.Heard Key Leaf ρ) messages) :
    ∃ heard, run Repo.hear (({}, []) : Repo.Heard Key Leaf ρ) messages = some heard ∧
      heard.1.Sound IsDirectory ∧ Repo.UpToDate heard ∧ AllManaged heard.1 := by
  refine exists_run_of_along
    (fun heard : Repo.Heard Key Leaf ρ => heard.1.Sound IsDirectory ∧ Repo.UpToDate heard ∧ AllManaged heard.1)
    ?_ ⟨Repo.sound_start, Repo.upToDate_start, by simp [AllManaged]⟩ h
  intro heard message hinv hmessage
  obtain ⟨hsound, hup, hmanaged⟩ := hinv
  obtain ⟨next, hhear, hsound', hup'⟩ := Repo.exists_hear hsound hup (hmanaged.permitted hmessage)
  refine ⟨next, hhear, hsound', hup', ?_⟩
  obtain ⟨⟨repo', events⟩, hreceive, rfl⟩ := Option.map_eq_some_iff.mp hhear
  exact hmanaged.receive hmessage hreceive

/-- Whatever the order of the manager's writes, the registrations, the server's data and its answers, no assertion
fails and no exception is raised; and a registration at a location whose server data is complete, or that a pending
write covers, has last been told a value that shows the pending writes, in order, over the server's data. -/
theorem manager_run_shows {messages : List (Repo.Message Key Leaf ρ)}
    (h : Along Repo.hear (fun heard => ManagerPermitted heard.1) (({}, []) : Repo.Heard Key Leaf ρ) messages) :
    ∃ heard, run Repo.hear (({}, []) : Repo.Heard Key Leaf ρ) messages = some heard ∧
      ∀ path syncPoint, heard.1.serverSyncTree.syncPointTree.valueAtPath path = some syncPoint →
        (syncPoint.viewCache.cachedServerSnap.isFullyInitialized = true ∨
          ∃ w ∈ heard.1.serverSyncTree.pendingWriteTree.pendingWrites, w.1 <+: path) →
        ∀ eventRegistration ∈ syncPoint.eventRegistrations, ∃ node,
          Repo.lastValue (Repo.told heard.2 path eventRegistration) = some node ∧
            Shows IsDirectory heard.1.serverSyncTree.pendingWriteTree.pendingWrites path
              syncPoint.viewCache.cachedServerSnap.node.contents node.contents := by
  obtain ⟨heard, hrun, hsound, hup, -⟩ := exists_managed_run h
  refine ⟨heard, hrun, ?_⟩
  intro path syncPoint hsyncPoint hcase eventRegistration hmem
  exact hsound.told_shows hup hsyncPoint hcase hmem

/-- The key of the coupon that the user sends. -/
def dinnerKey : Key := UUID.toKey ⟨"00000000-0000-0000-0000-0000000000E2", by decide⟩

/-- The coupon that the user sends. -/
def dinner : Coupon := { key := some dinnerKey, description := "Dinner", image := "https://d" }

/-- The observer of the coupons is told that there are none, and a coupon is sent. -/
def sendsDinner : List (Repo.Message Key Leaf Unit) :=
  [.addEventRegistration (couponsRef writer) (), .dataUpdate (couponsRef writer) .emptyNode,
    .update (couponRef writer dinnerKey) dinner.update]

/-- The coupon is removed before the server answers. -/
def removesDinner : List (Repo.Message Key Leaf Unit) := sendsDinner ++ [.set (couponRef writer dinnerKey) .emptyNode]

/-- Both are messages of the manager and of the server. -/
theorem along_removesDinner : Along Repo.hear (fun heard => ManagerPermitted heard.1)
    (({}, []) : Repo.Heard Key Leaf Unit) removesDinner :=
  ⟨trivial, fun _ _ => ⟨fits_emptyNode (by simp [couponsRef]), fun _ _ => ⟨.coupon writer dinnerKey dinner,
    fun _ _ => ⟨.deleted writer dinnerKey, fun _ _ => trivial⟩⟩⟩⟩

/-- A coupon that is sent and removed again. -/
theorem manager_run_shows_removed :
    ∃ heard, run Repo.hear (({}, []) : Repo.Heard Key Leaf Unit) removesDinner = some heard ∧
      ∀ path syncPoint, heard.1.serverSyncTree.syncPointTree.valueAtPath path = some syncPoint →
        (syncPoint.viewCache.cachedServerSnap.isFullyInitialized = true ∨
          ∃ w ∈ heard.1.serverSyncTree.pendingWriteTree.pendingWrites, w.1 <+: path) →
        ∀ eventRegistration ∈ syncPoint.eventRegistrations, ∃ node,
          Repo.lastValue (Repo.told heard.2 path eventRegistration) = some node ∧
            Shows IsDirectory heard.1.serverSyncTree.pendingWriteTree.pendingWrites path
              syncPoint.viewCache.cachedServerSnap.node.contents node.contents :=
  manager_run_shows along_removesDinner

section OwnWrites

variable {heard : Repo.Heard Key Leaf ρ} {before after : List (WriteRecord Key Leaf)} {record : WriteRecord Key Leaf}
  {uid key : Key}

/-- A field of a coupon that is sent is what the observer of the coupons was last told there. -/
theorem AllManaged.told_field (h : AllManaged heard.1) (hsound : heard.1.Sound IsDirectory) (hup : Repo.UpToDate heard)
    (hpending : heard.1.serverSyncTree.pendingWriteTree.allWrites = before ++ record :: after)
    (hother : ∀ later ∈ after, later.path ≠ record.path) {coupon : Coupon} (hpath : record.path = couponRef uid key)
    (hdata : record.data = .merge coupon.update) {syncPoint : SyncPoint Key Leaf ρ}
    (hsyncPoint : heard.1.serverSyncTree.syncPointTree.valueAtPath (couponsRef uid) = some syncPoint)
    (hserver : syncPoint.viewCache.cachedServerSnap.isFullyInitialized = true) {eventRegistration : ρ}
    (hmem : eventRegistration ∈ syncPoint.eventRegistrations) {field : Key} {text : String}
    (hfield : (field, Snap.leafNode (.string text)) ∈ coupon.values) :
    ∃ node, Repo.lastValue (Repo.told heard.2 (couponsRef uid) eventRegistration) = some node ∧
      getChild node.tree [key, field] = some (stringNode text) := by
  have hw : (couponsRef uid ++ [key, field], (Snap.leafNode (.string text) : Snap Key Leaf).contents) ∈
      record.writes := by
    have hplaced := record.mem_writes_of_merge hdata ((coupon.writes_update [field] _).mpr ⟨_, hfield, rfl, rfl⟩)
    rw [hpath] at hplaced
    exact hplaced
  have hlater : ∀ later ∈ after, ∀ u ∈ later.writes, Apart u.1 (couponsRef uid ++ [key, field]) := by
    have hapart := h.apart_of_later hpending hother [field]
    rw [hpath] at hapart
    exact hapart
  obtain ⟨node, hnode, hcontents⟩ := hsound.told_own_write hup hpending hw hlater hsyncPoint (.inl hserver) hmem
  exact ⟨node, hnode, leafAt_nil_eq_some (congrFun hcontents [])⟩

end OwnWrites

/-- A coupon that is sent is among the coupons that the observer of the user's coupons was last told before the server
answers, as long as no later write of the app is about the same coupon. -/
theorem my_coupons_show_sent_coupon {messages : List (Repo.Message Key Leaf ρ)}
    (h : Along Repo.hear (fun heard => ManagerPermitted heard.1) (({}, []) : Repo.Heard Key Leaf ρ) messages)
    {heard : Repo.Heard Key Leaf ρ} (hrun : run Repo.hear (({}, []) : Repo.Heard Key Leaf ρ) messages = some heard)
    {before after : List (WriteRecord Key Leaf)} {record : WriteRecord Key Leaf}
    (hpending : heard.1.serverSyncTree.pendingWriteTree.allWrites = before ++ record :: after)
    (hother : ∀ later ∈ after, later.path ≠ record.path) {uid key : Key} {coupon : Coupon}
    (hpath : record.path = couponRef uid key) (hdata : record.data = .merge coupon.update)
    (hkey : integerKey key = none) {syncPoint : SyncPoint Key Leaf ρ}
    (hsyncPoint : heard.1.serverSyncTree.syncPointTree.valueAtPath (couponsRef uid) = some syncPoint)
    (hserver : syncPoint.viewCache.cachedServerSnap.isFullyInitialized = true) {eventRegistration : ρ}
    (hmem : eventRegistration ∈ syncPoint.eventRegistrations) :
    ∃ node dict, Repo.lastValue (Repo.told heard.2 (couponsRef uid) eventRegistration) = some node ∧
      asDictionary node.tree = some dict ∧ { coupon with key := some key } ∈ myCouponsOfDictionary dict := by
  obtain ⟨heard', hrun', hsound, hup, hmanaged⟩ := exists_managed_run h
  obtain rfl := Option.some.inj (hrun.symm.trans hrun')
  obtain ⟨node, hnode, hdescription⟩ := hmanaged.told_field hsound hup hpending hother hpath hdata hsyncPoint hserver
    hmem (List.mem_cons_self : (Coupon.descriptionKey, Snap.leafNode (.string coupon.description)) ∈ coupon.values)
  obtain ⟨node', hnode', himage⟩ := hmanaged.told_field hsound hup hpending hother hpath hdata hsyncPoint hserver hmem
    (List.mem_cons_of_mem _ List.mem_cons_self :
      (Coupon.imageKey, Snap.leafNode (.string coupon.image)) ∈ coupon.values)
  obtain rfl := Option.some.inj (hnode.symm.trans hnode')
  obtain ⟨dict, hdict, hcoupon⟩ := exists_myCoupons hkey ⟨hdescription, himage⟩
  exact ⟨node, dict, hnode, hdict, hcoupon⟩

/-- The coupon is shown before the server answers. -/
theorem my_coupons_show_dinner : ∃ heard,
    run Repo.hear (({}, []) : Repo.Heard Key Leaf Unit) sendsDinner = some heard ∧
    ∃ node dict, Repo.lastValue (Repo.told heard.2 (couponsRef writer) ()) = some node ∧
      asDictionary node.tree = some dict ∧ dinner ∈ myCouponsOfDictionary dict := by
  have halong : Along Repo.hear (fun heard => ManagerPermitted heard.1) (({}, []) : Repo.Heard Key Leaf Unit)
      sendsDinner :=
    ⟨trivial, fun _ _ => ⟨fits_emptyNode (by simp [couponsRef]), fun _ _ => ⟨.coupon writer dinnerKey dinner,
      fun _ _ => trivial⟩⟩⟩
  exact ⟨_, rfl, my_coupons_show_sent_coupon halong rfl
    (rfl : _ = [] ++ (⟨couponRef writer dinnerKey, .merge dinner.update, 0, true⟩ : WriteRecord Key Leaf) :: [])
    (by simp) rfl rfl (integerKey_uuid _) rfl rfl List.mem_cons_self⟩

/-- A coupon that is removed is not among the coupons that the observer of the user's coupons was last told, as long
as no later write of the app is about the same coupon. -/
theorem my_coupons_hide_removed_coupon {messages : List (Repo.Message Key Leaf ρ)}
    (h : Along Repo.hear (fun heard => ManagerPermitted heard.1) (({}, []) : Repo.Heard Key Leaf ρ) messages)
    {heard : Repo.Heard Key Leaf ρ} (hrun : run Repo.hear (({}, []) : Repo.Heard Key Leaf ρ) messages = some heard)
    {before after : List (WriteRecord Key Leaf)} {record : WriteRecord Key Leaf}
    (hpending : heard.1.serverSyncTree.pendingWriteTree.allWrites = before ++ record :: after)
    (hother : ∀ later ∈ after, later.path ≠ record.path) {uid key : Key} (hpath : record.path = couponRef uid key)
    (hdata : record.data = .overwrite .emptyNode) {syncPoint : SyncPoint Key Leaf ρ}
    (hsyncPoint : heard.1.serverSyncTree.syncPointTree.valueAtPath (couponsRef uid) = some syncPoint)
    (hserver : syncPoint.viewCache.cachedServerSnap.isFullyInitialized = true) {eventRegistration : ρ}
    (hmem : eventRegistration ∈ syncPoint.eventRegistrations) :
    ∃ node, Repo.lastValue (Repo.told heard.2 (couponsRef uid) eventRegistration) = some node ∧
      ∀ dict, asDictionary node.tree = some dict → ∀ coupon ∈ myCouponsOfDictionary dict, coupon.key ≠ some key := by
  obtain ⟨heard', hrun', hsound, hup, hmanaged⟩ := exists_managed_run h
  obtain rfl := Option.some.inj (hrun.symm.trans hrun')
  have hw : (couponsRef uid ++ [key], (Snap.emptyNode : Snap Key Leaf).contents) ∈ record.writes := by
    rw [record.writes_of_overwrite hdata, hpath]
    exact List.mem_singleton_self _
  have hlater : ∀ later ∈ after, ∀ u ∈ later.writes, Apart u.1 (couponsRef uid ++ [key]) := by
    have hapart := hmanaged.apart_of_later hpending hother []
    rw [hpath] at hapart
    exact hapart
  obtain ⟨node, hnode, hcontents⟩ := hsound.told_own_write hup hpending hw hlater hsyncPoint (.inl hserver) hmem
  refine ⟨node, hnode, ?_⟩
  have hnone : child node.tree key = none := by
    rw [Snap.contents_emptyNode] at hcontents
    exact (leafAt_eq_empty (node.getChild [key]).wellFormed).mp hcontents
  intro dict hdict coupon hcoupon hsome
  obtain ⟨entry, hentry, hdecode⟩ := List.mem_filterMap.mp hcoupon
  obtain ⟨data, -, rfl⟩ := Option.map_eq_some_iff.mp hdecode
  obtain rfl := Option.some.inj hsome
  rw [eq_node_of_asDictionary hdict] at hnone
  obtain ⟨subtree, hsubtree⟩ := (mem_keys_iff dict entry.1).mp (List.mem_map_of_mem hentry)
  exact absurd (hsubtree.symm.trans hnone) (by simp)

/-- The coupon that was sent is hidden again. -/
theorem my_coupons_hide_dinner : ∃ heard,
    run Repo.hear (({}, []) : Repo.Heard Key Leaf Unit) removesDinner = some heard ∧
    ∃ node, Repo.lastValue (Repo.told heard.2 (couponsRef writer) ()) = some node ∧
      ∀ dict, asDictionary node.tree = some dict → ∀ coupon ∈ myCouponsOfDictionary dict,
        coupon.key ≠ some dinnerKey :=
  ⟨_, rfl, my_coupons_hide_removed_coupon along_removesDinner rfl
    (rfl : _ = [⟨couponRef writer dinnerKey, .merge dinner.update, 0, true⟩] ++
      (⟨couponRef writer dinnerKey, .overwrite .emptyNode, 1, true⟩ : WriteRecord Key Leaf) :: [])
    (by simp) rfl rfl rfl rfl List.mem_cons_self⟩

/-- A record that is saved is what the observers of the user's record read before the server answers, as long as no
later write of the app replaces it. -/
theorem settings_show_saved_record {messages : List (Repo.Message Key Leaf ρ)}
    (h : Along Repo.hear (fun heard => ManagerPermitted heard.1) (({}, []) : Repo.Heard Key Leaf ρ) messages)
    {heard : Repo.Heard Key Leaf ρ} (hrun : run Repo.hear (({}, []) : Repo.Heard Key Leaf ρ) messages = some heard)
    {before after : List (WriteRecord Key Leaf)} {record : WriteRecord Key Leaf}
    (hpending : heard.1.serverSyncTree.pendingWriteTree.allWrites = before ++ record :: after)
    (hother : ∀ later ∈ after, later.path ≠ record.path) {uid : Key} {userInfo : UserInfo}
    (hpath : record.path = userInfoRef uid) (hdata : record.data = .overwrite userInfo.snapshot)
    {syncPoint : SyncPoint Key Leaf ρ}
    (hsyncPoint : heard.1.serverSyncTree.syncPointTree.valueAtPath (userInfoRef uid) = some syncPoint)
    {eventRegistration : ρ} (hmem : eventRegistration ∈ syncPoint.eventRegistrations) :
    ∃ node, Repo.lastValue (Repo.told heard.2 (userInfoRef uid) eventRegistration) = some node ∧
      userInfoOfSnapshot node.tree = .ok userInfo.filled := by
  obtain ⟨heard', hrun', hsound, hup, hmanaged⟩ := exists_managed_run h
  obtain rfl := Option.some.inj (hrun.symm.trans hrun')
  have hw : (userInfoRef uid ++ [], userInfo.snapshot.contents) ∈ record.writes := by
    rw [record.writes_of_overwrite hdata, hpath]
    exact List.mem_singleton_self _
  have hlater : ∀ later ∈ after, ∀ u ∈ later.writes, Apart u.1 (userInfoRef uid ++ []) := by
    have hapart := hmanaged.apart_of_later hpending hother []
    rw [hpath] at hapart
    exact hapart
  have hcovered : ∃ w ∈ heard.1.serverSyncTree.pendingWriteTree.pendingWrites, w.1 <+: userInfoRef uid := by
    refine ⟨_, List.mem_flatMap.mpr ⟨record, ?_, hw⟩, ?_⟩
    · rw [hpending]
      simp
    · exact List.prefix_rfl
  obtain ⟨node, hnode, hcontents⟩ := hsound.told_own_write hup hpending hw hlater hsyncPoint (.inr hcovered) hmem
  exact ⟨node, hnode, userInfoOfSnapshot_of_contents hcontents⟩

/-- The record is read before the server answers. -/
theorem settings_show_saved_name : ∃ heard,
    run Repo.hear (({}, []) : Repo.Heard Key Leaf Unit) [.addEventRegistration (userInfoRef writer) (),
      .set (userInfoRef writer) (UserInfo.snapshot ⟨some "Ivy", none, some "uid-max"⟩)] = some heard ∧
    ∃ node, Repo.lastValue (Repo.told heard.2 (userInfoRef writer) ()) = some node ∧
      userInfoOfSnapshot node.tree = .ok ⟨some "Ivy", some "", some "uid-max"⟩ := by
  have halong : Along Repo.hear (fun heard => ManagerPermitted heard.1) (({}, []) : Repo.Heard Key Leaf Unit)
      [.addEventRegistration (userInfoRef writer) (),
        .set (userInfoRef writer) (UserInfo.snapshot ⟨some "Ivy", none, some "uid-max"⟩)] :=
    ⟨trivial, fun _ _ => ⟨.userInfo writer _, fun _ _ => trivial⟩⟩
  exact ⟨_, rfl, settings_show_saved_record halong rfl
    (rfl : _ = [] ++ (⟨userInfoRef writer, .overwrite (UserInfo.snapshot ⟨some "Ivy", none, some "uid-max"⟩), 0,
      true⟩ : WriteRecord Key Leaf) :: []) (by simp) rfl rfl rfl List.mem_cons_self⟩

end Runs

end LoveCoupons
