import LoveCoupons.SyncInvariant

/-!
# The views of the whole tree

All views of the tree of listened locations are kept at once: whichever locations are listened
to, each operation visits those that it is about, and the others do not depend on it. A view
that is added starts from what the other views know.
-/

namespace LoveCoupons

open KeyedTree PathContents

variable {κ ν ρ : Type} [DecidableEq κ]

section Records

variable {D : List κ → Prop} {tree : WriteTree κ ν}

/-- The pending records are layered, visible and in place, and none of them reaches below an older one from
above it. -/
structure WriteTree.Sound (D : List κ → Prop) (tree : WriteTree κ ν) : Prop where
  layered : tree.Layered
  fits : tree.FitsAll D
  visible : ∀ record ∈ tree.allWrites, record.visible = true
  reached : ∀ record ∈ tree.allWrites, Reached D record.path
  noDeepReach : tree.allWrites.Pairwise fun earlier later => WriteTree.NoDeepReach earlier.path later

/-- Without writes, a write tree is sound. -/
theorem WriteTree.sound_of_nil (h : tree.allWrites = []) (hlayered : tree.Layered) : tree.Sound D where
  layered := hlayered
  fits := by simp [WriteTree.FitsAll, WriteTree.pendingWrites, h]
  visible := by simp [h]
  reached := by simp [h]
  noDeepReach := by simp [h]

/-- A further record keeps the records sound. -/
theorem WriteTree.Sound.concat (h : tree.Sound D) {tree' : WriteTree κ ν} {record : WriteRecord κ ν}
    (hall : tree'.allWrites = tree.allWrites ++ [record]) (hlayered : tree'.Layered)
    (hvisible : record.visible = true) (hfits : ∀ w ∈ record.writes, Fits D w.1 w.2)
    (hreached : Reached D record.path)
    (hdeep : ∀ earlier ∈ tree.allWrites, WriteTree.NoDeepReach earlier.path record) : tree'.Sound D where
  layered := hlayered
  fits := by
    intro w hw
    rw [WriteTree.pendingWrites, hall, List.flatMap_append, List.mem_append] at hw
    rcases hw with hold | hnew
    · exact h.fits w hold
    · exact hfits w (by simpa using hnew)
  visible := by
    intro other hother
    rw [hall, List.mem_append, List.mem_singleton] at hother
    rcases hother with hold | rfl
    · exact h.visible other hold
    · exact hvisible
  reached := by
    intro other hother
    rw [hall, List.mem_append, List.mem_singleton] at hother
    rcases hother with hold | rfl
    · exact h.reached other hold
    · exact hreached
  noDeepReach := by
    rw [hall, List.pairwise_append]
    refine ⟨h.noDeepReach, List.pairwise_singleton _ _, ?_⟩
    intro earlier hearlier later hlater
    rw [List.mem_singleton.mp hlater]
    exact hdeep earlier hearlier

/-- Removing the first record keeps the records sound. -/
theorem WriteTree.Sound.removeFirst (h : tree.Sound D) {tree' : WriteTree κ ν} {first : WriteRecord κ ν}
    {rest : List (WriteRecord κ ν)} (hall : tree.allWrites = first :: rest) {reevaluate : Bool}
    (hremove : tree.removeWriteId first.writeId = some (reevaluate, tree')) :
    tree'.Sound D ∧ tree.pendingWrites = first.writes ++ tree'.pendingWrites := by
  have hdeep := h.noDeepReach
  rw [hall, List.pairwise_cons] at hdeep
  obtain ⟨hlayered, hrest⟩ := h.layered.removeFirst hall h.visible hdeep.1 hremove
  have hpending : tree.pendingWrites = first.writes ++ tree'.pendingWrites := by
    rw [WriteTree.pendingWrites, WriteTree.pendingWrites, hall, hrest, List.flatMap_cons]
  have hold : ∀ record ∈ tree'.allWrites, record ∈ tree.allWrites := by
    intro record hrecord
    rw [hrest] at hrecord
    rw [hall]
    exact List.mem_cons_of_mem first hrecord
  refine ⟨⟨hlayered, ?_, ?_, ?_, ?_⟩, hpending⟩
  · exact fun w hw => h.fits w (by rw [hpending]; exact List.mem_append_right _ hw)
  · exact fun record hrecord => h.visible record (hold record hrecord)
  · exact fun record hrecord => h.reached record (hold record hrecord)
  · rw [hrest]
    exact hdeep.2

end Records

variable [DecidableEq ν] {D : List κ → Prop}

namespace SyncTree

/-- Every view shows what it should for the pending writes. -/
structure ViewsOk (D : List κ → Prop) (tree : WriteTree κ ν) (syncPointTree : SyncPointTree κ ν ρ) : Prop where
  distinctKeys : syncPointTree.DistinctKeys
  ok : ∀ path syncPoint, syncPointTree.valueAtPath path = some syncPoint →
    ViewOk D tree path (fun _ => False) syncPoint.viewCache

/-- The pending writes are sound, and every view shows what it should. -/
structure Sound (D : List κ → Prop) (syncTree : SyncTree κ ν ρ) : Prop where
  writes : syncTree.pendingWriteTree.Sound D
  views : ViewsOk D syncTree.pendingWriteTree syncTree.syncPointTree

omit [DecidableEq ν] in
/-- The empty sync tree is sound. -/
theorem sound_empty : Sound D ({} : SyncTree κ ν ρ) where
  writes := WriteTree.sound_of_nil rfl WriteTree.layered_empty
  views := ⟨ImmutableTree.distinctKeys_empty, fun path syncPoint hsyncPoint => by simp at hsyncPoint⟩

/-- What a location is after a step, and what its registrations are told: nothing where the step is not about the
location, and else what an operation changed there. -/
def InformedAt (path : List κ) (before after : SyncPoint κ ν ρ) (raised : RaisedEvents κ ν ρ) : Prop :=
  (after = before ∧ raised = []) ∨
    ∃ operation writesCache serverCache changes,
      before.applyOperation operation writesCache serverCache = some (after, changes) ∧
        raised = [⟨path, before.eventRegistrations, changes⟩]

/-- A step that adds and removes no location tells the registrations of each what changed there. -/
def Informed (before after : SyncPointTree κ ν ρ) (events : RaisedEvents κ ν ρ) : Prop :=
  ∀ path, match before.valueAtPath path with
    | none => after.valueAtPath path = none ∧ raisedAt events path = []
    | some syncPoint => ∃ syncPoint', after.valueAtPath path = some syncPoint' ∧
        InformedAt path syncPoint syncPoint' (raisedAt events path)

/-- Where nothing changes, nothing need be told. -/
theorem informed_self (syncPointTree : SyncPointTree κ ν ρ) : Informed syncPointTree syncPointTree [] := by
  intro path
  cases syncPointTree.valueAtPath path with
  | none => exact ⟨rfl, rfl⟩
  | some syncPoint => exact ⟨syncPoint, rfl, .inl ⟨rfl, rfl⟩⟩

/-- An operation that visits locations informs them. -/
theorem informed_of_routed {operation : ViewOperation κ ν} {tree : WriteTree κ ν}
    {before after : SyncPointTree κ ν ρ} {events : RaisedEvents κ ν ρ}
    (h : Routed operation ⟨[], tree⟩ before after events) : Informed before after events := by
  intro path
  have hpath := h.visits path
  rw [List.nil_append] at hpath
  cases hbefore : before.valueAtPath path with
  | none =>
    rw [hbefore] at hpath
    exact hpath
  | some syncPoint =>
    rw [hbefore] at hpath
    obtain ⟨visited, hafter, hvisited⟩ := hpath
    refine ⟨visited, hafter, ?_⟩
    cases hroute : operation.route path with
    | none =>
      rw [hroute] at hvisited
      exact .inl hvisited
    | some routed =>
      rw [hroute] at hvisited
      obtain ⟨serverCache, changes, happly, hraised⟩ := hvisited
      exact .inr ⟨routed, ⟨path, tree⟩, serverCache, changes, happly, hraised⟩

/-- A visit changes the caches of a location only. -/
theorem syncPoint_of_applyOperation {syncPoint syncPoint' : SyncPoint κ ν ρ} {operation : ViewOperation κ ν}
    {writesCache : WriteTreeRef κ ν} {serverCache : Option (Snap κ ν)} {changes : List (Change κ ν)}
    (h : syncPoint.applyOperation operation writesCache serverCache = some (syncPoint', changes)) :
    syncPoint' = { syncPoint with
      viewCache := (ViewProcessor.process syncPoint.viewCache operation writesCache serverCache).1 } := by
  obtain ⟨result, happly, hresult⟩ := Option.bind_eq_some_iff.mp h
  obtain ⟨changeMap, -, rfl⟩ := Option.map_eq_some_iff.mp happly
  split at hresult
  · exact (Prod.mk.inj (Option.some.inj hresult)).1.symm
  · contradiction

/-- An operation that every location carries to the new pending writes is applied without an exception. -/
theorem exists_applyOperationToSyncPoints {tree : WriteTree κ ν} (syncTree : SyncTree κ ν ρ)
    (h : ViewsOk D tree syncTree.syncPointTree) (operation : ViewOperation κ ν)
    (hcarries : ∀ location, Carries D tree syncTree.pendingWriteTree location (operation.route location)) :
    ∃ syncTree' events, syncTree.applyOperationToSyncPoints operation = some (syncTree', events) ∧
      syncTree'.pendingWriteTree = syncTree.pendingWriteTree ∧
      ViewsOk D syncTree.pendingWriteTree syncTree'.syncPointTree ∧
      Informed syncTree.syncPointTree syncTree'.syncPointTree events := by
  obtain ⟨after, events, happly, hrouted⟩ := exists_applyOperationHelper operation.path syncTree.syncPointTree
    h.distinctKeys operation none ⟨[], syncTree.pendingWriteTree⟩ rfl
  refine ⟨{ syncTree with syncPointTree := after }, events, ?_, rfl, ⟨?_, ?_⟩, informed_of_routed hrouted⟩
  · rw [applyOperationToSyncPoints, happly]
    rfl
  · intro path
    rw [hrouted.keys]
    exact h.distinctKeys path
  · intro path visited hvisited
    have hpath := hrouted.visits path
    rw [List.nil_append] at hpath
    change after.valueAtPath path = some visited at hvisited
    cases hbefore : syncTree.syncPointTree.valueAtPath path with
    | none =>
      rw [hbefore] at hpath
      rw [hpath.1] at hvisited
      contradiction
    | some syncPoint =>
      rw [hbefore] at hpath
      obtain ⟨other, hother, hvisit⟩ := hpath
      obtain rfl := Option.some.inj (hother.symm.trans hvisited)
      have hcarried := hcarries path syncPoint.viewCache (h.ok path syncPoint hbefore)
      cases hroute : operation.route path with
      | none =>
        rw [hroute] at hcarried hvisit
        rw [hvisit.1]
        exact hcarried
      | some routed =>
        rw [hroute] at hcarried hvisit
        obtain ⟨serverCache, changes, happlied, -⟩ := hvisit
        rw [syncPoint_of_applyOperation happlied]
        exact hcarried serverCache

section Writes

variable {syncTree : SyncTree κ ν ρ}

/-- A user's overwrite is applied, and the views show it. -/
theorem Sound.exists_applyUserOverwriteAtPath (h : syncTree.Sound D) {path : List κ} {newData : Snap κ ν}
    {writeId : ℤ} (hid : syncTree.pendingWriteTree.lastWriteId < writeId) (hfits : Fits D path newData.contents) :
    ∃ syncTree' events, syncTree.applyUserOverwriteAtPath path newData writeId true = some (syncTree', events) ∧
      syncTree'.pendingWriteTree = syncTree.pendingWriteTree.addOverwriteAtPath path newData writeId true ∧
      syncTree'.Sound D ∧ Informed syncTree.syncPointTree syncTree'.syncPointTree events := by
  let written := syncTree.pendingWriteTree.addOverwriteAtPath path newData writeId true
  have hpending : written.pendingWrites = syncTree.pendingWriteTree.pendingWrites ++ [(path, newData.contents)] := by
    change (syncTree.pendingWriteTree.allWrites ++ [_]).flatMap WriteRecord.writes = _
    rw [List.flatMap_append]
    rfl
  have hsound : written.Sound D := by
    refine h.writes.concat rfl (h.writes.layered.addOverwriteAtPath path newData writeId) rfl ?_ hfits.above ?_
    · intro w hw
      rw [List.mem_singleton.mp hw]
      exact hfits
    · intro earlier _ w hw hle
      rw [List.mem_singleton.mp hw] at hle
      exact .inl hle
  obtain ⟨syncTree', events, happly, hwrites, hviews, hinformed⟩ := exists_applyOperationToSyncPoints
    { syncTree with pendingWriteTree := written } h.views (.overwrite true path newData)
    (carries_userOverwrite hfits hpending)
  refine ⟨syncTree', events, ?_, hwrites, ⟨hwrites ▸ hsound, hwrites ▸ hviews⟩, hinformed⟩
  rw [applyUserOverwriteAtPath, if_pos hid]
  exact happly

/-- A user's update is applied, and the views show it. -/
theorem Sound.exists_applyUserMergeAtPath (h : syncTree.Sound D) {path : List κ} {changedChildren : CompoundWrite κ ν}
    {writeId : ℤ} (hid : syncTree.pendingWriteTree.lastWriteId < writeId)
    (hfits : ∀ k n, changedChildren.writes k = some n → Fits D (path ++ k) n) (hreached : Reached D path)
    (hdeep : ∀ earlier ∈ syncTree.pendingWriteTree.allWrites,
      WriteTree.NoDeepReach earlier.path ⟨path, .merge changedChildren, writeId, true⟩) :
    ∃ syncTree' events, syncTree.applyUserMergeAtPath path changedChildren writeId = some (syncTree', events) ∧
      syncTree'.pendingWriteTree = syncTree.pendingWriteTree.addMergeAtPath path changedChildren writeId ∧
      syncTree'.Sound D ∧ Informed syncTree.syncPointTree syncTree'.syncPointTree events := by
  let written := syncTree.pendingWriteTree.addMergeAtPath path changedChildren writeId
  have hrecord : (WriteRecord.mk path (.merge changedChildren) writeId true).writes = placed path changedChildren := by
    simp [WriteRecord.writes, WriteRecord.entries, placed, Function.comp_def]
  have hpending : written.pendingWrites =
      syncTree.pendingWriteTree.pendingWrites ++ placed path changedChildren := by
    change (syncTree.pendingWriteTree.allWrites ++ [_]).flatMap WriteRecord.writes = _
    rw [List.flatMap_append, List.flatMap_singleton, hrecord]
    rfl
  have hsound : written.Sound D := by
    refine h.writes.concat rfl (h.writes.layered.addMergeAtPath path changedChildren writeId) rfl ?_ hreached hdeep
    intro w hw
    rw [hrecord, mem_placed] at hw
    obtain ⟨k, hplace, hk⟩ := hw
    rw [hplace]
    exact hfits k w.2 hk
  obtain ⟨syncTree', events, happly, hwrites, hviews, hinformed⟩ := exists_applyOperationToSyncPoints
    { syncTree with pendingWriteTree := written } h.views (.merge true path changedChildren)
    (carries_userMerge hfits hpending)
  refine ⟨syncTree', events, ?_, hwrites, ⟨hwrites ▸ hsound, hwrites ▸ hviews⟩, hinformed⟩
  rw [applyUserMergeAtPath, if_pos hid]
  exact happly

/-- The answer to the oldest write is applied, and the views no longer count on the write. -/
theorem Sound.exists_ackUserWriteWithWriteId (h : syncTree.Sound D) {first : WriteRecord κ ν}
    {rest : List (WriteRecord κ ν)} (hall : syncTree.pendingWriteTree.allWrites = first :: rest) (revert : Bool) :
    ∃ syncTree' events, syncTree.ackUserWriteWithWriteId first.writeId revert = some (syncTree', events) ∧
      syncTree'.Sound D ∧ syncTree'.pendingWriteTree.allWrites = rest ∧
      (syncTree'.pendingWriteTree.lastWriteId = syncTree.pendingWriteTree.lastWriteId ∨
        syncTree'.pendingWriteTree.lastWriteId = -1 ∨
        ∃ record ∈ rest, syncTree'.pendingWriteTree.lastWriteId = record.writeId) ∧
      Informed syncTree.syncPointTree syncTree'.syncPointTree events := by
  have hfirst : first ∈ syncTree.pendingWriteTree.allWrites := by simp [hall]
  obtain ⟨reevaluate, tree', hremove, hrest, hshadowed, hlast⟩ :=
    WriteTree.exists_removeWriteId_first hall (h.writes.visible first hfirst)
  obtain ⟨hsound, hpending⟩ := h.writes.removeFirst hall hremove
  have hfind : syncTree.pendingWriteTree.writeForId first.writeId = some first := by
    simp [WriteTree.writeForId, hall]
  have hplaces : ∀ w ∈ first.writes, first.path <+: w.1 := fun w hw => WriteRecord.path_prefix_of_mem_writes hw
  let answered : SyncTree κ ν ρ := { syncTree with pendingWriteTree := tree' }
  cases reevaluate with
  | false =>
    refine ⟨answered, [], ?_, ⟨hsound, ?_⟩, hrest, hlast, informed_self _⟩
    · rw [ackUserWriteWithWriteId, hfind, Option.bind_some, hremove]
      rfl
    · refine ⟨h.views.distinctKeys, fun path syncPoint hsyncPoint => ?_⟩
      exact carries_shadowed hpending hplaces (hshadowed rfl) path syncPoint.viewCache
        (h.views.ok path syncPoint hsyncPoint)
  | true =>
    have hcarries : ∀ location, Carries D syncTree.pendingWriteTree tree' location
        ((ViewOperation.ackUserWrite first.path (affectedTree first) revert).route location) := by
      cases revert with
      | false =>
        refine carries_acknowledged hsound.layered hsound.fits hpending fun w hw => h.writes.fits w ?_
        rw [hpending]
        exact List.mem_append_left _ hw
      | true =>
        exact carries_reverted hsound.layered hsound.fits hpending hplaces (h.writes.reached first hfirst)
          (affected_affectedTree first)
    obtain ⟨syncTree', events, happly, hwrites, hviews, hinformed⟩ := exists_applyOperationToSyncPoints answered h.views
      (.ackUserWrite first.path (affectedTree first) revert) hcarries
    refine ⟨syncTree', events, ?_, ⟨hwrites ▸ hsound, hwrites ▸ hviews⟩, ?_⟩
    · rw [ackUserWriteWithWriteId, hfind, Option.bind_some, hremove]
      exact happly
    · rw [hwrites]
      exact ⟨hrest, hlast, hinformed⟩

/-- All pending writes are given up, and the views show the server's data. -/
theorem Sound.exists_removeAllWrites (h : syncTree.Sound D) :
    ∃ syncTree' events, syncTree.removeAllWrites = some (syncTree', events) ∧ syncTree'.Sound D ∧
      syncTree'.pendingWriteTree = syncTree.pendingWriteTree.removeAllWrites.2 ∧
      Informed syncTree.syncPointTree syncTree'.syncPointTree events := by
  let purged : SyncTree κ ν ρ := { syncTree with pendingWriteTree := syncTree.pendingWriteTree.removeAllWrites.2 }
  have hsound : purged.pendingWriteTree.Sound D :=
    WriteTree.sound_of_nil rfl CompoundWrite.writes_emptyWrite
  have hpending : syncTree.pendingWriteTree.pendingWrites =
      syncTree.pendingWriteTree.pendingWrites ++ purged.pendingWriteTree.pendingWrites :=
    (List.append_nil _).symm
  have haffected : Affected (ImmutableTree.empty.setValue true [] : ImmutableTree κ Bool) := by
    refine ⟨ImmutableTree.distinctKeys_empty.setValue true [], ?_⟩
    intro p q _ hq
    by_cases hnil : p ++ q = []
    · exact (List.append_eq_nil_iff.mp hnil).2
    · simp [ImmutableTree.valueAtPath_setValue, hnil] at hq
  cases hall : syncTree.pendingWriteTree.allWrites with
  | nil =>
    refine ⟨purged, [], ?_, ⟨hsound, ?_⟩, rfl, informed_self _⟩
    · rw [removeAllWrites, WriteTree.removeAllWrites, hall]
      rfl
    · refine ⟨h.views.distinctKeys, fun path syncPoint hsyncPoint => ?_⟩
      have hnone : syncTree.pendingWriteTree.pendingWrites = [] := by simp [WriteTree.pendingWrites, hall]
      exact ((h.views.ok path syncPoint hsyncPoint).remove hpending).mono fun q hq => by simp [hnone] at hq
  | cons first rest =>
    obtain ⟨syncTree', events, happly, hwrites, hviews, hinformed⟩ := exists_applyOperationToSyncPoints purged h.views
      (.ackUserWrite [] (ImmutableTree.empty.setValue true []) true)
      (carries_reverted hsound.layered hsound.fits hpending (fun w _ => List.nil_prefix) (reached_nil D) haffected)
    refine ⟨syncTree', events, ?_, ⟨hwrites ▸ hsound, hwrites ▸ hviews⟩, hwrites, hinformed⟩
    have hsome : syncTree.pendingWriteTree.removeAllWrites.1.isEmpty = false := by
      simp [WriteTree.removeAllWrites, hall]
    rw [removeAllWrites, hsome]
    exact happly

end Writes

section ServerData

variable {syncTree : SyncTree κ ν ρ}

/-- An operation that leaves the pending writes alone. -/
theorem Sound.exists_of_carries (h : syncTree.Sound D) (operation : ViewOperation κ ν)
    (hcarries : ∀ location, Carries D syncTree.pendingWriteTree syncTree.pendingWriteTree location
      (operation.route location)) :
    ∃ syncTree' events, syncTree.applyOperationToSyncPoints operation = some (syncTree', events) ∧
      syncTree'.Sound D ∧ syncTree'.pendingWriteTree = syncTree.pendingWriteTree ∧
      Informed syncTree.syncPointTree syncTree'.syncPointTree events := by
  obtain ⟨syncTree', events, happly, hwrites, hviews, hinformed⟩ :=
    exists_applyOperationToSyncPoints syncTree h.views operation hcarries
  exact ⟨syncTree', events, happly, ⟨hwrites ▸ h.writes, hwrites ▸ hviews⟩, hwrites, hinformed⟩

omit [DecidableEq ν] in
/-- The complete server data of a location, or of a place below it, has no value at a parent. -/
theorem clean_completeServerCacheAtPath {path place : List κ} {syncPoint : SyncPoint κ ν ρ}
    (h : ViewBase D path syncPoint.viewCache) {node : Snap κ ν}
    (hnode : syncPoint.completeServerCacheAtPath place = some node) : Clean D (path ++ place) node.contents := by
  obtain ⟨complete, hcomplete, rfl⟩ := Option.map_eq_some_iff.mp hnode
  rw [ViewCache.completeServerSnap] at hcomplete
  split at hcomplete
  · obtain rfl := Option.some.inj hcomplete
    rw [Snap.contents_getChild]
    exact h.clean.below place
  · contradiction

omit [DecidableEq ν] in
/-- The first complete server data on a path has no value at a parent. -/
theorem clean_serverCacheOnPath {syncPointTree : SyncPointTree κ ν ρ} (above : List κ) {path : List κ}
    (h : ∀ place syncPoint, syncPointTree.valueAtPath place = some syncPoint →
      ViewBase D (above ++ place) syncPoint.viewCache) {node : Snap κ ν}
    (hnode : serverCacheOnPath syncPointTree path = some node) : Clean D (above ++ path) node.contents := by
  have hroot : ∀ syncPoint, syncPointTree.value = some syncPoint → ViewBase D above syncPoint.viewCache := by
    intro syncPoint hvalue
    have hbase := h [] syncPoint (by rw [ImmutableTree.valueAtPath_nil, hvalue])
    rwa [List.append_nil] at hbase
  induction path generalizing syncPointTree above with
  | nil =>
    rw [serverCacheOnPath] at hnode
    obtain ⟨syncPoint, hvalue, hcache⟩ := Option.bind_eq_some_iff.mp hnode
    exact clean_completeServerCacheAtPath (hroot syncPoint hvalue) hcache
  | cons front rest ih =>
    rw [serverCacheOnPath] at hnode
    split at hnode
    · rename_i found hfound
      obtain rfl := Option.some.inj hnode
      obtain ⟨syncPoint, hvalue, hcache⟩ := Option.bind_eq_some_iff.mp hfound
      exact clean_completeServerCacheAtPath (hroot syncPoint hvalue) hcache
    · split at hnode
      · rename_i childTree hchild
        have hbelow : ∀ place syncPoint, childTree.valueAtPath place = some syncPoint →
            ViewBase D ((above ++ [front]) ++ place) syncPoint.viewCache := by
          intro place syncPoint hplace
          rw [List.append_assoc, List.singleton_append]
          apply h
          rw [ImmutableTree.valueAtPath_cons, ImmutableTree.childOrEmpty, hchild]
          exact hplace
        have hclean := ih (above ++ [front]) hbelow hnode fun syncPoint hvalue => by
          have hbase := hbelow [] syncPoint (by rw [ImmutableTree.valueAtPath_nil, hvalue])
          rwa [List.append_nil] at hbase
        rwa [List.append_assoc, List.singleton_append] at hclean
      · contradiction

omit [DecidableEq ν] in
/-- The server data put together from the locations right below has no value at a parent. -/
theorem clean_foldl_children {path : List κ} (entries : List (κ × SyncPointTree κ ν ρ)) {start : Snap κ ν}
    (h : ∀ entry ∈ entries, ∀ syncPoint, entry.2.value = some syncPoint →
      ViewBase D (path ++ [entry.1]) syncPoint.viewCache) (hstart : Clean D path start.contents) :
    Clean D path (entries.foldl (fun (serverCacheNode : Snap κ ν) entry =>
      match entry.2.value.bind fun childSyncPoint => childSyncPoint.completeServerCacheAtPath [] with
      | some completeCache => serverCacheNode.updateImmediateChild entry.1 completeCache
      | none => serverCacheNode) start).contents := by
  induction entries generalizing start with
  | nil => exact hstart
  | cons entry rest ih =>
    rw [List.foldl_cons]
    apply ih fun other hother => h other (List.mem_cons_of_mem entry hother)
    split
    · rename_i complete hcomplete
      obtain ⟨syncPoint, hvalue, hcache⟩ := Option.bind_eq_some_iff.mp hcomplete
      have hclean := clean_completeServerCacheAtPath (h entry List.mem_cons_self syncPoint hvalue) hcache
      rw [List.append_nil] at hclean
      rw [Snap.updateImmediateChild, Snap.contents_updateChild]
      exact hstart.write hclean
    · exact hstart

omit [DecidableEq ν] in
/-- What is known of the server's data at a location has no value at a parent. -/
theorem clean_serverCacheForQuery {tree : WriteTree κ ν} (h : ViewsOk D tree syncTree.syncPointTree)
    (path : List κ) : Clean D path (syncTree.serverCacheForQuery path).node.contents := by
  unfold serverCacheForQuery
  split
  · rename_i node hnode
    exact clean_serverCacheOnPath [] (fun place syncPoint hplace => (h.ok place syncPoint hplace).toViewBase) hnode
  · refine clean_foldl_children _ ?_ ?_
    · intro entry hentry syncPoint hvalue
      apply (h.ok (path ++ [entry.1]) syncPoint _).toViewBase
      have hchild := (h.distinctKeys.subtreeAtPath path).childOrEmpty_eq hentry
      rw [← ImmutableTree.valueAtPath_subtreeAtPath, ImmutableTree.valueAtPath_cons, hchild,
        ImmutableTree.valueAtPath_nil, hvalue]
    · intro q _
      simp [PathContents.empty]

omit [DecidableEq ν] in
/-- A new view shows what it should. -/
theorem viewOk_getView {tree : WriteTree κ ν} (hlayered : tree.Layered) (hfits : tree.FitsAll D) {path : List κ}
    {serverCache : CacheNode κ ν} (hclean : Clean D path serverCache.node.contents) :
    ViewOk D tree path (fun _ => False) (SyncPoint.getView ⟨path, tree⟩ serverCache) where
  serverUnfiltered := rfl
  eventUnfiltered := by
    unfold SyncPoint.getView
    dsimp only
    split <;> rfl
  clean := hclean
  shows := by
    intro hcase
    have hevent : ∃ event, (WriteTreeRef.mk path tree).calculateCompleteEventCache
        (if serverCache.isFullyInitialized then some serverCache.node else none) = some event ∧
        Shows D tree.pendingWrites path serverCache.node.contents event.contents := by
      cases hcomplete : serverCache.isFullyInitialized with
      | true => exact shows_calculateCompleteEventCache hlayered hfits hclean
      | false =>
        have hcov := (hlayered.covered_iff path).mpr (hcase.resolve_left (by simp [SyncPoint.getView, hcomplete]))
        have hshadow : tree.visibleWrites.completeNodeAtPath path ≠ none := fun hnone =>
          CompoundWrite.completeNodeAtPath_eq_none.mp hnone hcov
        obtain ⟨node, hnode⟩ := Option.ne_none_iff_exists'.mp hshadow
        refine ⟨node, ?_, shows_completeNodeAtPath hlayered hfits hnode _⟩
        simp [WriteTreeRef.calculateCompleteEventCache, WriteTree.calculateCompleteEventCacheAtPath, hnode]
    obtain ⟨event, hsome, hshows⟩ := hevent
    have hcache : (SyncPoint.getView ⟨path, tree⟩ serverCache).cachedEventSnap = ⟨event, true, false⟩ := by
      unfold SyncPoint.getView
      dsimp only
      rw [hsome]
    rw [hcache]
    exact ⟨rfl, hshows.except _⟩

omit [DecidableEq ν] in
/-- A further registration keeps the views right, whether or not it is the first one at its location. -/
theorem Sound.addEventRegistration (h : syncTree.Sound D) (path : List κ) (eventRegistration : ρ) :
    (syncTree.addEventRegistration path eventRegistration).1.Sound D := by
  refine ⟨h.writes, h.views.distinctKeys.setValue _ path, ?_⟩
  intro other syncPoint hsyncPoint
  change (syncTree.syncPointTree.setValue _ path).valueAtPath other = some syncPoint at hsyncPoint
  rw [ImmutableTree.valueAtPath_setValue] at hsyncPoint
  split at hsyncPoint
  · rename_i hother
    subst hother
    obtain rfl := Option.some.inj hsyncPoint
    unfold registeredSyncPoint
    cases hthere : syncTree.syncPointTree.valueAtPath other with
    | some existing => exact h.views.ok other existing hthere
    | none => exact viewOk_getView h.writes.layered h.writes.fits (clean_serverCacheForQuery h.views other)
  · exact h.views.ok other syncPoint hsyncPoint

omit [DecidableEq ν] in
/-- Removing registrations leaves the pending writes alone. -/
@[simp] theorem pendingWriteTree_removeEventRegistration [DecidableEq ρ] (syncTree : SyncTree κ ν ρ) (path : List κ)
    (eventRegistration : Option ρ) :
    (syncTree.removeEventRegistration path eventRegistration).pendingWriteTree = syncTree.pendingWriteTree := by
  unfold SyncTree.removeEventRegistration
  split
  · rfl
  · exact iteInduction (motive := fun after : SyncTree κ ν ρ => after.pendingWriteTree = syncTree.pendingWriteTree)
      (fun _ => rfl) fun _ => rfl

omit [DecidableEq ν] in
/-- A location that is left when registrations are removed keeps its caches, and gets no registrations. -/
theorem exists_of_removeEventRegistration [DecidableEq ρ] {path other : List κ} {eventRegistration : Option ρ}
    {left : SyncPoint κ ν ρ}
    (h : (syncTree.removeEventRegistration path eventRegistration).syncPointTree.valueAtPath other = some left) :
    ∃ before, syncTree.syncPointTree.valueAtPath other = some before ∧ left.viewCache = before.viewCache ∧
      ∀ registration ∈ left.eventRegistrations, registration ∈ before.eventRegistrations := by
  unfold SyncTree.removeEventRegistration at h
  cases hthere : syncTree.syncPointTree.valueAtPath path with
  | none =>
    rw [hthere] at h
    exact ⟨left, h, rfl, fun _ hmem => hmem⟩
  | some syncPoint =>
    rw [hthere] at h
    dsimp only at h
    split_ifs at h with hempty
    · change (syncTree.syncPointTree.removeValueAtPath path).valueAtPath other = some left at h
      rw [ImmutableTree.valueAtPath_removeValueAtPath] at h
      split_ifs at h
      exact ⟨left, h, rfl, fun _ hmem => hmem⟩
    · change (syncTree.syncPointTree.setValue _ path).valueAtPath other = some left at h
      rw [ImmutableTree.valueAtPath_setValue] at h
      split_ifs at h with hother
      · subst hother
        obtain rfl := Option.some.inj h
        refine ⟨syncPoint, hthere, rfl, fun registration hmem => ?_⟩
        cases eventRegistration with
        | none => simp at hmem
        | some eventRegistration => exact List.mem_of_mem_filter hmem
      · exact ⟨left, h, rfl, fun _ hmem => hmem⟩

omit [DecidableEq ν] in
/-- Removing registrations keeps the other views right. -/
theorem Sound.removeEventRegistration [DecidableEq ρ] (h : syncTree.Sound D) (path : List κ)
    (eventRegistration : Option ρ) : (syncTree.removeEventRegistration path eventRegistration).Sound D := by
  refine ⟨?_, ?_, ?_⟩
  · rw [pendingWriteTree_removeEventRegistration]
    exact h.writes
  · unfold SyncTree.removeEventRegistration
    split
    · exact h.views.distinctKeys
    · exact iteInduction (motive := fun after : SyncTree κ ν ρ => after.syncPointTree.DistinctKeys)
        (fun _ => h.views.distinctKeys.removeValueAtPath path) fun _ => h.views.distinctKeys.setValue _ path
  · intro other left hleft
    obtain ⟨before, hbefore, hcache, -⟩ := exists_of_removeEventRegistration hleft
    rw [pendingWriteTree_removeEventRegistration, hcache]
    exact h.views.ok other before hbefore

end ServerData

end SyncTree

end LoveCoupons
