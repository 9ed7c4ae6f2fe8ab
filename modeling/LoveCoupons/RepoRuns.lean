import LoveCoupons.Repo

/-!
# Runs of the repository

The app writes, registers and removes registrations whenever it likes, and the server's data
and answers come whenever they come. As long as the data and the writes put values only where
the parents allow it, and the server answers the writes in order, no assertion fails and no
exception is raised; every complete view shows the pending writes over the server's data; and
the registrations of a location have last been told what its complete view shows.
-/

namespace LoveCoupons

open KeyedTree PathContents StepSystem

variable {κ ν ρ : Type} [DecidableEq κ] {D : List κ → Prop}

namespace Repo

/-- The sync tree is sound, and the identifiers of its records have been given out. -/
structure Sound (D : List κ → Prop) (repo : Repo κ ν ρ) : Prop where
  syncTree : repo.serverSyncTree.Sound D
  counter : 0 ≤ repo.writeIdCounter
  lastWriteId : repo.serverSyncTree.pendingWriteTree.lastWriteId < repo.writeIdCounter
  writeIds : ∀ record ∈ repo.serverSyncTree.pendingWriteTree.allWrites, record.writeId < repo.writeIdCounter

/-- A new repository is sound. -/
theorem sound_start : Sound D ({} : Repo κ ν ρ) where
  syncTree := SyncTree.sound_empty
  counter := Int.le_refl 0
  lastWriteId := show (-1 : ℤ) < 0 by decide
  writeIds := by simp

/-- What the repository may be told: writes and data put values only where the parents allow it, no update reaches
below a pending write from above it, and an answer is one to the oldest pending write. -/
def Permitted (D : List κ → Prop) (repo : Repo κ ν ρ) : Message κ ν ρ → Prop
  | .set path newNode => Fits D path newNode.contents
  | .update path resolved =>
    (∀ k n, resolved.writes k = some n → Fits D (path ++ k) n) ∧
      ∀ earlier ∈ repo.serverSyncTree.pendingWriteTree.allWrites,
        WriteTree.NoDeepReach earlier.path ⟨path, .merge resolved, repo.writeIdCounter, true⟩
  | .ackWrite writeId status =>
    status = errorWriteCanceled ∨
      repo.serverSyncTree.pendingWriteTree.allWrites.head?.map WriteRecord.writeId = some writeId
  | .dataUpdate path snap => Fits D path snap.contents
  | .dataMerge path changedChildren => ∀ k n, changedChildren.writes k = some n → Fits D (path ++ k) n
  | .listenComplete path => Reached D path
  | _ => True

/-- The identifiers of the pending writes, the oldest one first. -/
def pendingIds (repo : Repo κ ν ρ) : List ℤ := repo.serverSyncTree.pendingWriteTree.allWrites.map WriteRecord.writeId

/-- The identifiers of the pending writes after a message. -/
def idsAfter (repo : Repo κ ν ρ) : Message κ ν ρ → List ℤ
  | .set _ _ => repo.pendingIds ++ [repo.writeIdCounter]
  | .update _ resolved => if resolved.isEmpty then repo.pendingIds else repo.pendingIds ++ [repo.writeIdCounter]
  | .ackWrite _ status => if status = errorWriteCanceled then repo.pendingIds else repo.pendingIds.tail
  | .purgeOutstandingWrites => []
  | _ => repo.pendingIds

variable [DecidableEq ν]

section Steps

variable {repo : Repo κ ν ρ}

/-- What a message does to the listened locations, and the events that it raises. -/
def Heeded [DecidableEq ρ] (message : Message κ ν ρ) (before after : SyncTree κ ν ρ) (events : RaisedEvents κ ν ρ) :
    Prop :=
  match message with
  | .addEventRegistration path eventRegistration => before.addEventRegistration path eventRegistration = (after, events)
  | .removeEventRegistration path eventRegistration =>
    after = before.removeEventRegistration path eventRegistration ∧ events = []
  | _ => SyncTree.Informed before.syncPointTree after.syncPointTree events

omit [DecidableEq ν] in
/-- A step that leaves the pending writes alone keeps the repository sound. -/
theorem Sound.of_same_writes (h : repo.Sound D) {syncTree : SyncTree κ ν ρ} (hsound : syncTree.Sound D)
    (hwrites : syncTree.pendingWriteTree = repo.serverSyncTree.pendingWriteTree) :
    Sound D { repo with serverSyncTree := syncTree } where
  syncTree := hsound
  counter := h.counter
  lastWriteId := by
    rw [hwrites]
    exact h.lastWriteId
  writeIds := by
    rw [hwrites]
    exact h.writeIds

omit [DecidableEq ν] in
/-- A further record takes the next identifier. -/
theorem Sound.of_further_write (h : repo.Sound D) {syncTree : SyncTree κ ν ρ} (hsound : syncTree.Sound D)
    (record : WriteRecord κ ν) (hid : record.writeId = repo.writeIdCounter)
    (hall : syncTree.pendingWriteTree.allWrites = repo.serverSyncTree.pendingWriteTree.allWrites ++ [record])
    (hlast : syncTree.pendingWriteTree.lastWriteId = repo.writeIdCounter) :
    Sound D ⟨syncTree, repo.writeIdCounter + 1⟩ where
  syncTree := hsound
  counter := by
    have hcounter := h.counter
    change (0 : ℤ) ≤ repo.writeIdCounter + 1
    omega
  lastWriteId := by
    change syncTree.pendingWriteTree.lastWriteId < repo.writeIdCounter + 1
    omega
  writeIds := by
    intro other hother
    change other ∈ syncTree.pendingWriteTree.allWrites at hother
    change other.writeId < repo.writeIdCounter + 1
    rw [hall, List.mem_append, List.mem_singleton] at hother
    rcases hother with hold | rfl
    · have hbefore := h.writeIds other hold
      omega
    · omega

/-- A user's overwrite is taken in. -/
theorem Sound.exists_set (h : repo.Sound D) {path : List κ} {newNode : Snap κ ν}
    (hfits : Fits D path newNode.contents) :
    ∃ repo' events, repo.set path newNode = some (repo', events) ∧ repo'.Sound D ∧
      SyncTree.Informed repo.serverSyncTree.syncPointTree repo'.serverSyncTree.syncPointTree events ∧
      repo'.pendingIds = repo.pendingIds ++ [repo.writeIdCounter] := by
  obtain ⟨syncTree', events, happly, hwrites, hsound, hinformed⟩ :=
    h.syncTree.exists_applyUserOverwriteAtPath h.lastWriteId hfits
  have hall : syncTree'.pendingWriteTree.allWrites = repo.serverSyncTree.pendingWriteTree.allWrites ++
      [⟨path, .overwrite newNode, repo.writeIdCounter, true⟩] := by rw [hwrites]; rfl
  refine ⟨⟨syncTree', repo.writeIdCounter + 1⟩, events, ?_, ?_, hinformed, ?_⟩
  · rw [set, withSyncTree, happly]
    rfl
  · exact h.of_further_write hsound _ rfl hall (by rw [hwrites]; rfl)
  · rw [pendingIds, hall, List.map_append]
    rfl

omit [DecidableEq ν] in
/-- A compound write that is not empty writes somewhere. -/
theorem exists_writes {compoundWrite : CompoundWrite κ ν} (h : compoundWrite.isEmpty = false) :
    ∃ k n, compoundWrite.writes k = some n := by
  obtain ⟨k, node, hnode⟩ := compoundWrite.pruned.exists_value compoundWrite.distinctKeys h
  exact ⟨k, _, treeWrites_of_value hnode⟩

/-- A user's update is taken in; an empty one changes nothing. -/
theorem Sound.exists_update (h : repo.Sound D) {path : List κ} {resolved : CompoundWrite κ ν}
    (hfits : ∀ k n, resolved.writes k = some n → Fits D (path ++ k) n)
    (hdeep : ∀ earlier ∈ repo.serverSyncTree.pendingWriteTree.allWrites,
      WriteTree.NoDeepReach earlier.path ⟨path, .merge resolved, repo.writeIdCounter, true⟩) :
    ∃ repo' events, repo.update path resolved = some (repo', events) ∧ repo'.Sound D ∧
      SyncTree.Informed repo.serverSyncTree.syncPointTree repo'.serverSyncTree.syncPointTree events ∧
      repo'.pendingIds = if resolved.isEmpty then repo.pendingIds else repo.pendingIds ++ [repo.writeIdCounter] := by
  cases hempty : resolved.isEmpty with
  | true =>
    refine ⟨repo, [], ?_, h, SyncTree.informed_self _, rfl⟩
    rw [update, if_pos hempty]
  | false =>
    obtain ⟨k, n, hk⟩ := exists_writes hempty
    have hreached : Reached D path := Reached.of_append (hfits k n hk).above
    obtain ⟨syncTree', events, happly, hwrites, hsound, hinformed⟩ :=
      h.syncTree.exists_applyUserMergeAtPath h.lastWriteId hfits hreached hdeep
    have hall : syncTree'.pendingWriteTree.allWrites = repo.serverSyncTree.pendingWriteTree.allWrites ++
        [⟨path, .merge resolved, repo.writeIdCounter, true⟩] := by rw [hwrites]; rfl
    refine ⟨⟨syncTree', repo.writeIdCounter + 1⟩, events, ?_, ?_, hinformed, ?_⟩
    · rw [update, if_neg (by simp [hempty]), withSyncTree, happly]
      rfl
    · exact h.of_further_write hsound _ rfl hall (by rw [hwrites]; rfl)
    · rw [pendingIds, hall, List.map_append]
      rfl

/-- An answer to the oldest pending write is taken in; that a write was canceled changes nothing. -/
theorem Sound.exists_ackWrite (h : repo.Sound D) {writeId : ℤ} {status : String}
    (holdest : status = errorWriteCanceled ∨
      repo.serverSyncTree.pendingWriteTree.allWrites.head?.map WriteRecord.writeId = some writeId) :
    ∃ repo' events, repo.ackWrite writeId status = some (repo', events) ∧ repo'.Sound D ∧
      SyncTree.Informed repo.serverSyncTree.syncPointTree repo'.serverSyncTree.syncPointTree events ∧
      repo'.pendingIds = if status = errorWriteCanceled then repo.pendingIds else repo.pendingIds.tail := by
  by_cases hcanceled : status = errorWriteCanceled
  · refine ⟨repo, [], ?_, h, SyncTree.informed_self _, by rw [if_pos hcanceled]⟩
    rw [ackWrite, if_pos hcanceled]
  · obtain ⟨first, hfirst, rfl⟩ := Option.map_eq_some_iff.mp (holdest.resolve_left hcanceled)
    obtain ⟨rest, hall⟩ := List.head?_eq_some_iff.mp hfirst
    obtain ⟨syncTree', events, happly, hsound, hrest, hlast, hinformed⟩ :=
      h.syncTree.exists_ackUserWriteWithWriteId hall (!decide (status = responseForActionStatusOk))
    have hids : ∀ record ∈ rest, record.writeId < repo.writeIdCounter := by
      intro record hrecord
      apply h.writeIds
      rw [hall]
      exact List.mem_cons_of_mem first hrecord
    refine ⟨{ repo with serverSyncTree := syncTree' }, events, ?_, ⟨hsound, h.counter, ?_, ?_⟩, hinformed, ?_⟩
    · rw [ackWrite, if_neg hcanceled, withSyncTree, happly]
      rfl
    · change syncTree'.pendingWriteTree.lastWriteId < repo.writeIdCounter
      rcases hlast with hsame | hnone | ⟨record, hrecord, hlast⟩
      · rw [hsame]
        exact h.lastWriteId
      · have hcounter := h.counter
        omega
      · rw [hlast]
        exact hids record hrecord
    · intro record hrecord
      change record ∈ syncTree'.pendingWriteTree.allWrites at hrecord
      rw [hrest] at hrecord
      exact hids record hrecord
    · rw [if_neg hcanceled, pendingIds, pendingIds, hrest, hall]
      rfl

/-- An operation of the server is taken in. -/
theorem Sound.exists_withSyncTree (h : repo.Sound D) (operation : ViewOperation κ ν)
    (hcarries : ∀ location, Carries D repo.serverSyncTree.pendingWriteTree repo.serverSyncTree.pendingWriteTree location
      (operation.route location)) :
    ∃ repo' events, repo.withSyncTree (repo.serverSyncTree.applyOperationToSyncPoints operation) =
        some (repo', events) ∧ repo'.Sound D ∧
      SyncTree.Informed repo.serverSyncTree.syncPointTree repo'.serverSyncTree.syncPointTree events ∧
      repo'.pendingIds = repo.pendingIds := by
  obtain ⟨syncTree', events, happly, hsound, hwrites, hinformed⟩ := h.syncTree.exists_of_carries operation hcarries
  refine ⟨{ repo with serverSyncTree := syncTree' }, events, ?_, h.of_same_writes hsound hwrites, hinformed, ?_⟩
  · rw [withSyncTree, happly]
    rfl
  · rw [pendingIds, hwrites]
    rfl

/-- A permitted message is taken in without a failing assertion or an exception, and keeps the repository sound. -/
theorem Sound.exists_receive [DecidableEq ρ] (h : repo.Sound D) {message : Message κ ν ρ}
    (hpermitted : Permitted D repo message) :
    ∃ repo' events, repo.receive message = some (repo', events) ∧ repo'.Sound D ∧
      Heeded message repo.serverSyncTree repo'.serverSyncTree events ∧
      repo'.pendingIds = repo.idsAfter message := by
  have hlayered := h.syncTree.writes.layered
  have hfits := h.syncTree.writes.fits
  cases message with
  | set path newNode => exact h.exists_set hpermitted
  | update path resolved => exact h.exists_update hpermitted.1 hpermitted.2
  | ackWrite writeId status => exact h.exists_ackWrite hpermitted
  | dataUpdate path snap => exact h.exists_withSyncTree _ (carries_serverOverwrite hlayered hfits hpermitted)
  | dataMerge path changedChildren => exact h.exists_withSyncTree _ (carries_serverMerge hlayered hfits hpermitted)
  | listenComplete path => exact h.exists_withSyncTree _ (carries_listenComplete hlayered hfits hpermitted)
  | addEventRegistration path eventRegistration =>
    exact ⟨_, _, rfl, h.of_same_writes (h.syncTree.addEventRegistration path eventRegistration) rfl, rfl, rfl⟩
  | removeEventRegistration path eventRegistration =>
    have hwrites := SyncTree.pendingWriteTree_removeEventRegistration repo.serverSyncTree path eventRegistration
    refine ⟨_, _, rfl, h.of_same_writes (h.syncTree.removeEventRegistration path eventRegistration) hwrites,
      ⟨rfl, rfl⟩, ?_⟩
    rw [pendingIds, hwrites]
    rfl
  | purgeOutstandingWrites =>
    obtain ⟨syncTree', events, happly, hsound, hwrites, hinformed⟩ := h.syncTree.exists_removeAllWrites
    refine ⟨{ repo with serverSyncTree := syncTree' }, events, ?_, ⟨hsound, h.counter, ?_, ?_⟩, hinformed, ?_⟩
    · rw [receive, withSyncTree, happly]
      rfl
    · change syncTree'.pendingWriteTree.lastWriteId < repo.writeIdCounter
      rw [hwrites]
      exact h.lastWriteId
    · intro record hrecord
      change record ∈ syncTree'.pendingWriteTree.allWrites at hrecord
      rw [hwrites] at hrecord
      simp [WriteTree.removeAllWrites] at hrecord
    · rw [pendingIds, hwrites]
      rfl

end Steps

section Written

variable [DecidableEq ρ]

/-- The record is the one of a write that the message makes. -/
def Message.IsWrite (message : Message κ ν ρ) (record : WriteRecord κ ν) : Prop :=
  match message with
  | .set path newNode => record.path = path ∧ record.data = .overwrite newNode
  | .update path resolved => record.path = path ∧ record.data = .merge resolved
  | _ => False

omit [DecidableEq ρ] in
/-- An operation on the locations leaves the pending writes alone. -/
theorem pendingWriteTree_of_apply {syncTree syncTree' : SyncTree κ ν ρ} {operation : ViewOperation κ ν}
    {events : RaisedEvents κ ν ρ} (h : syncTree.applyOperationToSyncPoints operation = some (syncTree', events)) :
    syncTree'.pendingWriteTree = syncTree.pendingWriteTree := by
  obtain ⟨result, -, heq⟩ := Option.map_eq_some_iff.mp h
  obtain ⟨rfl, -⟩ := Prod.mk.inj heq
  rfl

omit [DecidableEq ν] [DecidableEq ρ] in
/-- The repository after an operation of its sync tree has the sync tree after it. -/
theorem exists_of_withSyncTree {repo repo' : Repo κ ν ρ} {result : Option (SyncTree κ ν ρ × RaisedEvents κ ν ρ)}
    {events : RaisedEvents κ ν ρ} (h : repo.withSyncTree result = some (repo', events)) :
    result = some (repo'.serverSyncTree, events) := by
  obtain ⟨⟨syncTree, raised⟩, hresult, heq⟩ := Option.map_eq_some_iff.mp h
  obtain ⟨rfl, rfl⟩ := Prod.mk.inj heq
  exact hresult

/-- After a message, a pending write is an older one or the one that the message makes. -/
theorem mem_allWrites_of_receive {repo repo' : Repo κ ν ρ} {message : Message κ ν ρ} {events : RaisedEvents κ ν ρ}
    (h : repo.receive message = some (repo', events)) {record : WriteRecord κ ν}
    (hrecord : record ∈ repo'.serverSyncTree.pendingWriteTree.allWrites) :
    record ∈ repo.serverSyncTree.pendingWriteTree.allWrites ∨ message.IsWrite record := by
  cases message with
  | set path newNode =>
    have hresult := exists_of_withSyncTree h
    rw [SyncTree.applyUserOverwriteAtPath] at hresult
    simp only [if_true] at hresult
    split_ifs at hresult
    rw [pendingWriteTree_of_apply hresult, WriteTree.addOverwriteAtPath, List.mem_append, List.mem_singleton] at hrecord
    exact hrecord.imp id fun heq => by rw [heq]; exact ⟨rfl, rfl⟩
  | update path resolved =>
    rw [receive, update] at h
    split_ifs at h
    · obtain ⟨rfl, -⟩ := Prod.mk.inj (Option.some.inj h)
      exact .inl hrecord
    · have hresult := exists_of_withSyncTree h
      rw [SyncTree.applyUserMergeAtPath] at hresult
      split_ifs at hresult
      rw [pendingWriteTree_of_apply hresult, WriteTree.addMergeAtPath, List.mem_append, List.mem_singleton] at hrecord
      exact hrecord.imp id fun heq => by rw [heq]; exact ⟨rfl, rfl⟩
  | ackWrite writeId status =>
    rw [receive, ackWrite] at h
    split_ifs at h
    · obtain ⟨rfl, -⟩ := Prod.mk.inj (Option.some.inj h)
      exact .inl hrecord
    · obtain ⟨write, -, hresult⟩ := Option.bind_eq_some_iff.mp (exists_of_withSyncTree h)
      obtain ⟨⟨reevaluate, tree⟩, hremoved, hresult⟩ := Option.bind_eq_some_iff.mp hresult
      left
      apply WriteTree.mem_allWrites_of_removeWriteId hremoved
      dsimp only at hresult
      split_ifs at hresult
      · rwa [pendingWriteTree_of_apply hresult] at hrecord
      · obtain ⟨hsame, -⟩ := Prod.mk.inj (Option.some.inj hresult)
        rwa [← hsame] at hrecord
  | dataUpdate path snap =>
    rw [pendingWriteTree_of_apply (exists_of_withSyncTree h)] at hrecord
    exact .inl hrecord
  | dataMerge path changedChildren =>
    rw [pendingWriteTree_of_apply (exists_of_withSyncTree h)] at hrecord
    exact .inl hrecord
  | listenComplete path =>
    rw [pendingWriteTree_of_apply (exists_of_withSyncTree h)] at hrecord
    exact .inl hrecord
  | addEventRegistration path eventRegistration =>
    obtain ⟨hsame, -⟩ := Prod.mk.inj (Option.some.inj (exists_of_withSyncTree h))
    rw [← hsame] at hrecord
    exact .inl hrecord
  | removeEventRegistration path eventRegistration =>
    obtain ⟨hsame, -⟩ := Prod.mk.inj (Option.some.inj (exists_of_withSyncTree h))
    rw [← hsame, SyncTree.pendingWriteTree_removeEventRegistration] at hrecord
    exact .inl hrecord
  | purgeOutstandingWrites =>
    have hresult := exists_of_withSyncTree h
    rw [SyncTree.removeAllWrites] at hresult
    split_ifs at hresult
    · obtain ⟨hsame, -⟩ := Prod.mk.inj (Option.some.inj hresult)
      rw [← hsame] at hrecord
      simp [WriteTree.removeAllWrites] at hrecord
    · rw [pendingWriteTree_of_apply hresult] at hrecord
      simp [WriteTree.removeAllWrites] at hrecord

end Written

section Told

/-- The changes that a registration at a location has been told, in order. -/
def told [DecidableEq ρ] (events : RaisedEvents κ ν ρ) (path : List κ) (eventRegistration : ρ) : List (Change κ ν) :=
  (raisedAt events path).flatMap fun event =>
    if eventRegistration ∈ event.eventRegistrations then event.changes else []

/-- The snapshot of a value event. -/
def valueOf : Change κ ν → Option (Snap κ ν)
  | .value node => some node
  | _ => none

/-- The last value among some changes. -/
def lastValue (changes : List (Change κ ν)) : Option (Snap κ ν) := (changes.filterMap valueOf).getLast?

omit [DecidableEq ν] in
/-- The last value of two stretches of changes is that of the second one if it has any. -/
theorem lastValue_append (first second : List (Change κ ν)) :
    lastValue (first ++ second) = (lastValue second).or (lastValue first) := by
  rw [lastValue, List.filterMap_append, List.getLast?_append]
  rfl

omit [DecidableEq ν] in
/-- What is told in two stretches of events is told one after the other. -/
theorem told_append [DecidableEq ρ] (first second : RaisedEvents κ ν ρ) (path : List κ) (eventRegistration : ρ) :
    told (first ++ second) path eventRegistration =
      told first path eventRegistration ++ told second path eventRegistration := by
  rw [told, raisedAt, List.filter_append, List.flatMap_append]
  rfl

/-- Every registration at a complete view has last been told what the view shows. -/
def UpToDate [DecidableEq ρ] (heard : Heard κ ν ρ) : Prop :=
  ∀ path syncPoint, heard.1.serverSyncTree.syncPointTree.valueAtPath path = some syncPoint →
    syncPoint.viewCache.cachedEventSnap.isFullyInitialized = true →
      ∀ eventRegistration ∈ syncPoint.eventRegistrations, ∃ node,
        lastValue (told heard.2 path eventRegistration) = some node ∧
          node.contents = syncPoint.viewCache.cachedEventSnap.node.contents

/-- An operation on a view that is complete afterwards either tells its value or leaves it what it was. -/
theorem lastValue_of_applyOperation {syncPoint syncPoint' : SyncPoint κ ν ρ} {operation : ViewOperation κ ν}
    {writesCache : WriteTreeRef κ ν} {serverCache : Option (Snap κ ν)} {changes : List (Change κ ν)}
    (h : syncPoint.applyOperation operation writesCache serverCache = some (syncPoint', changes))
    (hcomplete : syncPoint'.viewCache.cachedEventSnap.isFullyInitialized = true) :
    lastValue changes = some syncPoint'.viewCache.cachedEventSnap.node ∨
      (changes = [] ∧ syncPoint.viewCache.cachedEventSnap.isFullyInitialized = true ∧
        syncPoint'.viewCache.cachedEventSnap.node.contents = syncPoint.viewCache.cachedEventSnap.node.contents) := by
  obtain ⟨changeMap, hfold, htracks⟩ :=
    ViewProcessor.exists_changeMap syncPoint.viewCache operation writesCache serverCache
  rw [SyncPoint.applyOperation, ViewProcessor.applyOperationOn, hfold, Option.map_some, Option.bind_some] at h
  split at h
  · obtain ⟨rfl, rfl⟩ := Prod.mk.inj (Option.some.inj h)
    rcases ViewProcessor.maybeAddValue_cases syncPoint.viewCache (changeMap.map Prod.snd) hcomplete with
      hvalue | hnone
    · left
      rw [hvalue, lastValue_append]
      rfl
    · exact .inr ⟨hnone, ViewProcessor.contents_eq_of_maybeAddValue htracks hcomplete hnone⟩
  · contradiction

/-- What a step that adds and removes no location tells is up to date. -/
theorem UpToDate.informed [DecidableEq ρ] {heard : Heard κ ν ρ} (h : UpToDate heard) {repo : Repo κ ν ρ}
    {events : RaisedEvents κ ν ρ}
    (hinformed : SyncTree.Informed heard.1.serverSyncTree.syncPointTree repo.serverSyncTree.syncPointTree events) :
    UpToDate (repo, heard.2 ++ events) := by
  intro path syncPoint' hafter hcomplete eventRegistration hmem
  have hpath := hinformed path
  cases hbefore : heard.1.serverSyncTree.syncPointTree.valueAtPath path with
  | none =>
    rw [hbefore] at hpath
    rw [hpath.1] at hafter
    contradiction
  | some syncPoint =>
    rw [hbefore] at hpath
    obtain ⟨other, hother, hinformedAt⟩ := hpath
    obtain rfl := Option.some.inj (hother.symm.trans hafter)
    rw [told_append, lastValue_append]
    rcases hinformedAt with ⟨rfl, hraised⟩ | ⟨operation, writesCache, serverCache, changes, happly, hraised⟩
    · obtain ⟨node, hnode, hcontents⟩ := h path _ hbefore hcomplete eventRegistration hmem
      refine ⟨node, ?_, hcontents⟩
      rw [told, hraised, hnode]
      rfl
    · have hsame : other.eventRegistrations = syncPoint.eventRegistrations := by
        rw [SyncTree.syncPoint_of_applyOperation happly]
      rw [hsame] at hmem
      have htold : told events path eventRegistration = changes := by
        rw [told, hraised, List.flatMap_singleton, if_pos hmem]
      rw [htold]
      rcases lastValue_of_applyOperation happly hcomplete with hvalue | ⟨rfl, hold, hcontents⟩
      · exact ⟨_, by rw [hvalue]; rfl, rfl⟩
      · obtain ⟨node, hnode, hequal⟩ := h path syncPoint hbefore hold eventRegistration hmem
        exact ⟨node, by rw [hnode]; rfl, hequal.trans hcontents.symm⟩

omit [DecidableEq ν] in
/-- The initial events of a complete view end with its value. -/
theorem lastValue_initialEvents {syncPoint : SyncPoint κ ν ρ}
    (hcomplete : syncPoint.viewCache.cachedEventSnap.isFullyInitialized = true) :
    lastValue syncPoint.initialEvents = some syncPoint.viewCache.cachedEventSnap.node := by
  rw [SyncPoint.initialEvents, if_pos hcomplete, lastValue_append]
  rfl

omit [DecidableEq ν] in
/-- A registration that is added is told what a complete view shows. -/
theorem UpToDate.addEventRegistration [DecidableEq ρ] {heard : Heard κ ν ρ} (h : UpToDate heard) (path : List κ)
    (eventRegistration : ρ) {repo : Repo κ ν ρ} {events : RaisedEvents κ ν ρ}
    (hadd : heard.1.serverSyncTree.addEventRegistration path eventRegistration = (repo.serverSyncTree, events)) :
    UpToDate (repo, heard.2 ++ events) := by
  obtain ⟨htree, hevents⟩ := Prod.mk.inj hadd
  intro other syncPoint hsyncPoint hcomplete registration hmem
  change repo.serverSyncTree.syncPointTree.valueAtPath other = some syncPoint at hsyncPoint
  rw [← htree, ImmutableTree.valueAtPath_setValue] at hsyncPoint
  rw [told_append, lastValue_append]
  by_cases hother : other = path
  · subst hother
    rw [if_pos rfl] at hsyncPoint
    have hthere := Option.some.inj hsyncPoint
    have htold : told events other registration =
        if registration = eventRegistration then syncPoint.initialEvents else [] := by
      rw [← hevents, ← hthere]
      by_cases hnew : registration = eventRegistration <;> simp [told, raisedAt, hnew]
    rw [htold]
    by_cases hnew : registration = eventRegistration
    · rw [if_pos hnew, lastValue_initialEvents hcomplete]
      exact ⟨_, rfl, rfl⟩
    · rw [if_neg hnew]
      unfold SyncTree.registeredSyncPoint at hthere
      cases hexisting : heard.1.serverSyncTree.syncPointTree.valueAtPath other with
      | none =>
        rw [hexisting] at hthere
        rw [← hthere, List.mem_singleton] at hmem
        exact absurd hmem hnew
      | some existing =>
        rw [hexisting] at hthere
        subst hthere
        rw [List.mem_append, List.mem_singleton] at hmem
        exact h other existing hexisting hcomplete registration (hmem.resolve_right hnew)
  · rw [if_neg hother] at hsyncPoint
    have htold : told events other registration = [] := by
      rw [← hevents]
      simp [told, raisedAt, Ne.symm hother]
    rw [htold]
    exact h other syncPoint hsyncPoint hcomplete registration hmem

omit [DecidableEq ν] in
/-- The registrations that are left know what they knew. -/
theorem UpToDate.removeEventRegistration [DecidableEq ρ] {heard : Heard κ ν ρ} (h : UpToDate heard) (path : List κ)
    (eventRegistration : Option ρ) {repo : Repo κ ν ρ}
    (hremove : repo.serverSyncTree = heard.1.serverSyncTree.removeEventRegistration path eventRegistration) :
    UpToDate (repo, heard.2 ++ []) := by
  rw [List.append_nil]
  intro other syncPoint hsyncPoint hcomplete registration hmem
  change repo.serverSyncTree.syncPointTree.valueAtPath other = some syncPoint at hsyncPoint
  rw [hremove] at hsyncPoint
  obtain ⟨before, hbefore, hcache, hregistrations⟩ := SyncTree.exists_of_removeEventRegistration hsyncPoint
  rw [hcache] at hcomplete ⊢
  exact h other before hbefore hcomplete registration (hregistrations registration hmem)

end Told

section Runs

variable [DecidableEq ρ]

/-- A permitted message is heeded, and what is told stays up to date. -/
theorem exists_hear {heard : Heard κ ν ρ} (hsound : heard.1.Sound D) (hup : UpToDate heard) {message : Message κ ν ρ}
    (hpermitted : Permitted D heard.1 message) :
    ∃ next, hear heard message = some next ∧ next.1.Sound D ∧ UpToDate next := by
  obtain ⟨repo', events, hreceive, hsound', hheeded, -⟩ := hsound.exists_receive hpermitted
  refine ⟨(repo', heard.2 ++ events), ?_, hsound', ?_⟩
  · rw [hear, hreceive]
    rfl
  · cases message with
    | addEventRegistration path eventRegistration => exact hup.addEventRegistration path eventRegistration hheeded
    | removeEventRegistration path eventRegistration =>
      obtain ⟨hremove, rfl⟩ := hheeded
      exact hup.removeEventRegistration path eventRegistration hremove
    | _ => exact hup.informed hheeded

omit [DecidableEq ν] in
/-- At the start there is nobody to be told. -/
theorem upToDate_start : UpToDate (({}, []) : Heard κ ν ρ) := by
  intro path syncPoint hsyncPoint
  simp at hsyncPoint

omit [DecidableEq ν] in
/-- What a registration has last been told shows the pending writes over the server's data. -/
theorem Sound.told_shows {heard : Heard κ ν ρ} (hsound : heard.1.Sound D) (hup : UpToDate heard) {path : List κ}
    {syncPoint : SyncPoint κ ν ρ} (hsyncPoint : heard.1.serverSyncTree.syncPointTree.valueAtPath path = some syncPoint)
    (hcase : syncPoint.viewCache.cachedServerSnap.isFullyInitialized = true ∨
      ∃ w ∈ heard.1.serverSyncTree.pendingWriteTree.pendingWrites, w.1 <+: path) {eventRegistration : ρ}
    (hmem : eventRegistration ∈ syncPoint.eventRegistrations) :
    ∃ node, lastValue (told heard.2 path eventRegistration) = some node ∧
      Shows D heard.1.serverSyncTree.pendingWriteTree.pendingWrites path
        syncPoint.viewCache.cachedServerSnap.node.contents node.contents := by
  obtain ⟨hcomplete, hshows⟩ := (hsound.syncTree.views.ok path syncPoint hsyncPoint).shows hcase
  obtain ⟨node, hnode, hcontents⟩ := hup path syncPoint hsyncPoint hcomplete eventRegistration hmem
  refine ⟨node, hnode, ?_⟩
  rw [hcontents]
  exact hshows.shows fun q hq => absurd hq id

omit [DecidableEq ν] in
/-- Of the pending writes, those after one of an earlier record are its later ones and those of the later records. -/
theorem exists_pendingWrites {tree : WriteTree κ ν} {before after : List (WriteRecord κ ν)} {record : WriteRecord κ ν}
    (hpending : tree.allWrites = before ++ record :: after) {w : List κ × Contents κ ν} (hw : w ∈ record.writes)
    (hlater : ∀ later ∈ after, ∀ u ∈ later.writes, Apart u.1 w.1) :
    ∃ first rest, tree.pendingWrites = first ++ w :: rest ∧ ∀ u ∈ rest, Apart u.1 w.1 := by
  obtain ⟨start, rest, hsplit⟩ := List.append_of_mem hw
  have hpairwise := record.pairwise_writes
  rw [hsplit, List.pairwise_append, List.pairwise_cons] at hpairwise
  refine ⟨before.flatMap WriteRecord.writes ++ start, rest ++ after.flatMap WriteRecord.writes, ?_, ?_⟩
  · rw [WriteTree.pendingWrites, hpending, List.flatMap_append, List.flatMap_cons, hsplit]
    simp
  · intro u hu
    rcases List.mem_append.mp hu with hsame | hother
    · exact (hpairwise.2.1.1 u hsame).symm
    · obtain ⟨later, hmem, hu'⟩ := List.mem_flatMap.mp hother
      exact hlater later hmem u hu'

omit [DecidableEq ν] in
/-- What a registration has last been told shows a pending write that no later one is about. -/
theorem Sound.told_own_write {heard : Heard κ ν ρ} (hsound : heard.1.Sound D) (hup : UpToDate heard)
    {before after : List (WriteRecord κ ν)} {record : WriteRecord κ ν}
    (hpending : heard.1.serverSyncTree.pendingWriteTree.allWrites = before ++ record :: after)
    {path place : List κ} {n : Contents κ ν} (hw : (path ++ place, n) ∈ record.writes)
    (hlater : ∀ later ∈ after, ∀ u ∈ later.writes, Apart u.1 (path ++ place)) {syncPoint : SyncPoint κ ν ρ}
    (hsyncPoint : heard.1.serverSyncTree.syncPointTree.valueAtPath path = some syncPoint)
    (hcase : syncPoint.viewCache.cachedServerSnap.isFullyInitialized = true ∨
      ∃ w ∈ heard.1.serverSyncTree.pendingWriteTree.pendingWrites, w.1 <+: path) {eventRegistration : ρ}
    (hmem : eventRegistration ∈ syncPoint.eventRegistrations) :
    ∃ node, lastValue (told heard.2 path eventRegistration) = some node ∧ (node.getChild place).contents = n := by
  obtain ⟨node, hnode, hshown⟩ := hsound.told_shows hup hsyncPoint hcase hmem
  obtain ⟨first, rest, hsplit, hapart⟩ := exists_pendingWrites hpending hw hlater
  have hfits : Fits D (path ++ place) n := by
    apply hsound.syncTree.writes.fits (path ++ place, n)
    rw [hsplit]
    simp
  rw [hsplit] at hshown
  refine ⟨node, hnode, ?_⟩
  rw [Snap.contents_getChild]
  exact hshown.below_pending hfits hapart

end Runs

end Repo

end LoveCoupons
