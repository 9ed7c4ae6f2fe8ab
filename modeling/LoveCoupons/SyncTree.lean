import LoveCoupons.ViewProcessor

/-!
# The tree of listened locations

`FSyncTree` keeps a view for each listened location and the tree of pending writes that all
views share. Whatever happens, a user's write, its answer or data from the server, is made an
operation that visits the listened locations at, above and below its path, each with the
operation made relative to the location.

Locations are listened to with the default query only, nothing is persisted on the device, and
the connection's listens are left out. A step has no result where the code asserts or raises
an exception.
-/

namespace LoveCoupons

open KeyedTree

variable {κ ν ρ : Type} [DecidableEq κ] [DecidableEq ν]

/-- `FSyncPoint` with its `FView` of the default query. -/
structure SyncPoint (κ ν ρ : Type) [DecidableEq κ] where
  viewCache : ViewCache κ ν
  eventRegistrations : List ρ

namespace SyncPoint

/-- `-[FSyncPoint completeServerCacheAtPath:]`. -/
def completeServerCacheAtPath (syncPoint : SyncPoint κ ν ρ) (path : List κ) : Option (Snap κ ν) :=
  syncPoint.viewCache.completeServerSnap.map fun node => node.getChild path

/-- `-[FSyncPoint applyOperation:writesCache:serverCache:]` with `-[FView applyOperation:writesCache:serverCache:]`,
which asserts that complete server data stays complete. -/
def applyOperation (syncPoint : SyncPoint κ ν ρ) (operation : ViewOperation κ ν) (writesCache : WriteTreeRef κ ν)
    (serverCache : Option (Snap κ ν)) : Option (SyncPoint κ ν ρ × List (Change κ ν)) :=
  (ViewProcessor.applyOperationOn syncPoint.viewCache operation writesCache serverCache).bind fun result =>
    if result.1.cachedServerSnap.isFullyInitialized || !syncPoint.viewCache.cachedServerSnap.isFullyInitialized then
      some ({ syncPoint with viewCache := result.1 }, result.2)
    else none

/-- `-[FView initialEvents:]`. -/
def initialEvents (syncPoint : SyncPoint κ ν ρ) : List (Change κ ν) :=
  let eventSnap := syncPoint.viewCache.cachedEventSnap
  let initialChanges := eventSnap.node.children.map fun child => Change.childAdded child.1 child.2
  if eventSnap.isFullyInitialized then initialChanges ++ [.value eventSnap.node] else initialChanges

/-- `-[FSyncPoint getView:writesCache:serverCache:]` where there is no view yet. -/
def getView (writesCache : WriteTreeRef κ ν) (serverCache : CacheNode κ ν) : ViewCache κ ν :=
  let completeServerCache := if serverCache.isFullyInitialized then some serverCache.node else none
  let eventCache : CacheNode κ ν :=
    match writesCache.calculateCompleteEventCache completeServerCache with
    | some eventCache => ⟨eventCache, true, false⟩
    | none => ⟨writesCache.calculateCompleteEventChildren serverCache.node, false, false⟩
  ⟨eventCache, ⟨serverCache.node, serverCache.isFullyInitialized, false⟩⟩

end SyncPoint

/-- The listened locations. -/
abbrev SyncPointTree (κ ν ρ : Type) [DecidableEq κ] := ImmutableTree κ (SyncPoint κ ν ρ)

/-- The changes that some registrations at a location are told. -/
structure RaisedEvent (κ ν ρ : Type) [DecidableEq κ] where
  path : List κ
  eventRegistrations : List ρ
  changes : List (Change κ ν)

/-- The events that an operation raises. -/
abbrev RaisedEvents (κ ν ρ : Type) [DecidableEq κ] := List (RaisedEvent κ ν ρ)

/-- The server cache of a location above, or of the location itself. -/
def resolveServerCache (syncPoint : Option (SyncPoint κ ν ρ)) (serverCache : Option (Snap κ ν)) :
    Option (Snap κ ν) :=
  match serverCache with
  | some node => some node
  | none => syncPoint.bind fun syncPoint => syncPoint.completeServerCacheAtPath []

/-- A location with the operation applied to its view, after the locations below it. -/
def applyAtSyncPoint (syncPoint : Option (SyncPoint κ ν ρ)) (operation : ViewOperation κ ν)
    (writesCache : WriteTreeRef κ ν) (serverCache : Option (Snap κ ν))
    (below : List (κ × SyncPointTree κ ν ρ) × RaisedEvents κ ν ρ) :
    Option (SyncPointTree κ ν ρ × RaisedEvents κ ν ρ) :=
  match syncPoint with
  | none => some (.mk none below.1, below.2)
  | some syncPoint => (syncPoint.applyOperation operation writesCache serverCache).map fun result =>
      (.mk (some result.1) below.1, below.2 ++ [⟨writesCache.path, syncPoint.eventRegistrations, result.2⟩])

mutual

/-- `-[FSyncTree applyOperationDescendantsHelper:syncPointTree:serverCache:writesCache:]`. -/
def applyOperationDescendantsHelper : SyncPointTree κ ν ρ → ViewOperation κ ν → Option (Snap κ ν) →
    WriteTreeRef κ ν → Option (SyncPointTree κ ν ρ × RaisedEvents κ ν ρ)
  | .mk syncPoint children, operation, serverCache, writesCache =>
    let resolvedServerCache := resolveServerCache syncPoint serverCache
    (applyOperationToChildren children operation resolvedServerCache writesCache).bind
      (applyAtSyncPoint syncPoint operation writesCache resolvedServerCache)

/-- The enumeration of the children in `applyOperationDescendantsHelper`. -/
def applyOperationToChildren : List (κ × SyncPointTree κ ν ρ) → ViewOperation κ ν → Option (Snap κ ν) →
    WriteTreeRef κ ν → Option (List (κ × SyncPointTree κ ν ρ) × RaisedEvents κ ν ρ)
  | [], _, _, _ => some ([], [])
  | (childKey, childTree) :: rest, operation, serverCache, writesCache =>
    let child : Option (SyncPointTree κ ν ρ × RaisedEvents κ ν ρ) :=
      match operation.operationForChild childKey with
      | some childOperation => applyOperationDescendantsHelper childTree childOperation
          (serverCache.map fun node => node.getImmediateChild childKey) (writesCache.childWriteTreeRef childKey)
      | none => some (childTree, [])
    child.bind fun child =>
      (applyOperationToChildren rest operation serverCache writesCache).map fun others =>
        ((childKey, child.1) :: others.1, child.2 ++ others.2)

end

/-- The children with another tree under a key that is there. -/
def replaceChild (childKey : κ) (childTree : SyncPointTree κ ν ρ) (children : List (κ × SyncPointTree κ ν ρ)) :
    List (κ × SyncPointTree κ ν ρ) :=
  children.map fun entry => if entry.1 = childKey then (childKey, childTree) else entry

/-- `-[FSyncTree applyOperationHelper:syncPointTree:serverCache:writesCache:]`, by the path that the operation
still has to go. -/
def applyOperationHelper : List κ → SyncPointTree κ ν ρ → ViewOperation κ ν → Option (Snap κ ν) →
    WriteTreeRef κ ν → Option (SyncPointTree κ ν ρ × RaisedEvents κ ν ρ)
  | [], tree, operation, serverCache, writesCache =>
    applyOperationDescendantsHelper tree operation serverCache writesCache
  | childKey :: rest, tree, operation, serverCache, writesCache =>
    let serverCache := resolveServerCache tree.value serverCache
    let below : Option (List (κ × SyncPointTree κ ν ρ) × RaisedEvents κ ν ρ) :=
      match tree.children.lookup childKey, operation.operationForChild childKey with
      | some childTree, some childOperation =>
        (applyOperationHelper rest childTree childOperation
          (serverCache.map fun node => node.getImmediateChild childKey)
          (writesCache.childWriteTreeRef childKey)).map fun child =>
            (replaceChild childKey child.1 tree.children, child.2)
      | _, _ => some (tree.children, [])
    below.bind (applyAtSyncPoint tree.value operation writesCache serverCache)

/-- `FSyncTree`. -/
structure SyncTree (κ ν ρ : Type) [DecidableEq κ] where
  syncPointTree : SyncPointTree κ ν ρ := .empty
  pendingWriteTree : WriteTree κ ν := {}

namespace SyncTree

/-- `-[FSyncTree applyOperationToSyncPoints:]`. -/
def applyOperationToSyncPoints (syncTree : SyncTree κ ν ρ) (operation : ViewOperation κ ν) :
    Option (SyncTree κ ν ρ × RaisedEvents κ ν ρ) :=
  (applyOperationHelper operation.path syncTree.syncPointTree operation none
    ⟨[], syncTree.pendingWriteTree⟩).map fun result => ({ syncTree with syncPointTree := result.1 }, result.2)

/-- `-[FSyncTree applyUserOverwriteAtPath:newData:writeId:isVisible:]`; the write tree asserts that the identifier
is a new one. -/
def applyUserOverwriteAtPath (syncTree : SyncTree κ ν ρ) (path : List κ) (newData : Snap κ ν) (writeId : ℤ)
    (visible : Bool) : Option (SyncTree κ ν ρ × RaisedEvents κ ν ρ) :=
  if syncTree.pendingWriteTree.lastWriteId < writeId then
    let written : SyncTree κ ν ρ :=
      { syncTree with
        pendingWriteTree := syncTree.pendingWriteTree.addOverwriteAtPath path newData writeId visible }
    if visible then written.applyOperationToSyncPoints (.overwrite true path newData) else some (written, [])
  else none

/-- `-[FSyncTree applyUserMergeAtPath:changedChildren:writeId:]`; the write tree asserts that the identifier is a
new one. -/
def applyUserMergeAtPath (syncTree : SyncTree κ ν ρ) (path : List κ) (changedChildren : CompoundWrite κ ν)
    (writeId : ℤ) : Option (SyncTree κ ν ρ × RaisedEvents κ ν ρ) :=
  if syncTree.pendingWriteTree.lastWriteId < writeId then
    let written : SyncTree κ ν ρ :=
      { syncTree with pendingWriteTree := syncTree.pendingWriteTree.addMergeAtPath path changedChildren writeId }
    written.applyOperationToSyncPoints (.merge true path changedChildren)
  else none

/-- The places that a write is about, relative to its path. -/
def affectedTree (write : WriteRecord κ ν) : ImmutableTree κ Bool :=
  match write.data with
  | .overwrite _ => ImmutableTree.empty.setValue true []
  | .merge children => children.enumerateWrites.foldl (fun affectedTree entry => affectedTree.setValue true entry.1)
      .empty

/-- `-[FSyncTree ackUserWriteWithWriteId:revert:persist:clock:]`. -/
def ackUserWriteWithWriteId (syncTree : SyncTree κ ν ρ) (writeId : ℤ) (revert : Bool) :
    Option (SyncTree κ ν ρ × RaisedEvents κ ν ρ) :=
  (syncTree.pendingWriteTree.writeForId writeId).bind fun write =>
    (syncTree.pendingWriteTree.removeWriteId writeId).bind fun removed =>
      let answered : SyncTree κ ν ρ := { syncTree with pendingWriteTree := removed.2 }
      if removed.1 then
        answered.applyOperationToSyncPoints (.ackUserWrite write.path (affectedTree write) revert)
      else some (answered, [])

/-- `-[FSyncTree removeAllWrites]`. -/
def removeAllWrites (syncTree : SyncTree κ ν ρ) : Option (SyncTree κ ν ρ × RaisedEvents κ ν ρ) :=
  let removed := syncTree.pendingWriteTree.removeAllWrites
  let purged : SyncTree κ ν ρ := { syncTree with pendingWriteTree := removed.2 }
  if removed.1.isEmpty then some (purged, [])
  else purged.applyOperationToSyncPoints (.ackUserWrite [] (ImmutableTree.empty.setValue true []) true)

/-- `-[FSyncTree applyServerOverwriteAtPath:newData:]`. -/
def applyServerOverwriteAtPath (syncTree : SyncTree κ ν ρ) (path : List κ) (newData : Snap κ ν) :
    Option (SyncTree κ ν ρ × RaisedEvents κ ν ρ) :=
  syncTree.applyOperationToSyncPoints (.overwrite false path newData)

/-- `-[FSyncTree applyServerMergeAtPath:changedChildren:]`. -/
def applyServerMergeAtPath (syncTree : SyncTree κ ν ρ) (path : List κ) (changedChildren : CompoundWrite κ ν) :
    Option (SyncTree κ ν ρ × RaisedEvents κ ν ρ) :=
  syncTree.applyOperationToSyncPoints (.merge false path changedChildren)

/-- `-[FSyncTree applyListenCompleteAtPath:]`. -/
def applyListenCompleteAtPath (syncTree : SyncTree κ ν ρ) (path : List κ) :
    Option (SyncTree κ ν ρ × RaisedEvents κ ν ρ) :=
  syncTree.applyOperationToSyncPoints (.listenComplete path)

/-- The complete server cache of the first location on a path that has one. -/
def serverCacheOnPath (tree : SyncPointTree κ ν ρ) : List κ → Option (Snap κ ν)
  | [] => tree.value.bind fun syncPoint => syncPoint.completeServerCacheAtPath []
  | front :: rest =>
    match tree.value.bind fun syncPoint => syncPoint.completeServerCacheAtPath (front :: rest) with
    | some node => some node
    | none =>
      match tree.children.lookup front with
      | some childTree => serverCacheOnPath childTree rest
      | none => none

/-- `-[FSyncTree serverCacheForQuery:]`. -/
def serverCacheForQuery (syncTree : SyncTree κ ν ρ) (path : List κ) : CacheNode κ ν :=
  match serverCacheOnPath syncTree.syncPointTree path with
  | some node => ⟨node, true, false⟩
  | none =>
    let subtree := syncTree.syncPointTree.subtreeAtPath path
    let serverCacheNode := subtree.children.foldl (fun (serverCacheNode : Snap κ ν) entry =>
      match entry.2.value.bind fun childSyncPoint => childSyncPoint.completeServerCacheAtPath [] with
      | some completeCache => serverCacheNode.updateImmediateChild entry.1 completeCache
      | none => serverCacheNode) .emptyNode
    ⟨serverCacheNode, false, false⟩

/-- The location that `-[FSyncTree addEventRegistration:forQuery:]` registers at, the registration included. -/
def registeredSyncPoint (syncTree : SyncTree κ ν ρ) (path : List κ) (eventRegistration : ρ) : SyncPoint κ ν ρ :=
  match syncTree.syncPointTree.valueAtPath path with
  | some syncPoint =>
    { syncPoint with eventRegistrations := syncPoint.eventRegistrations ++ [eventRegistration] }
  | none =>
    ⟨SyncPoint.getView ⟨path, syncTree.pendingWriteTree⟩ (syncTree.serverCacheForQuery path), [eventRegistration]⟩

/-- `-[FSyncTree addEventRegistration:forQuery:]`; only the new registration is told the initial events. -/
def addEventRegistration (syncTree : SyncTree κ ν ρ) (path : List κ) (eventRegistration : ρ) :
    SyncTree κ ν ρ × RaisedEvents κ ν ρ :=
  let syncPoint := syncTree.registeredSyncPoint path eventRegistration
  ({ syncTree with syncPointTree := syncTree.syncPointTree.setValue syncPoint path },
    [⟨path, [eventRegistration], syncPoint.initialEvents⟩])

/-- `-[FSyncTree removeEventRegistration:forQuery:cancelError:]`; without a registration all are removed. -/
def removeEventRegistration [DecidableEq ρ] (syncTree : SyncTree κ ν ρ) (path : List κ)
    (eventRegistration : Option ρ) : SyncTree κ ν ρ :=
  match syncTree.syncPointTree.valueAtPath path with
  | none => syncTree
  | some syncPoint =>
    let eventRegistrations :=
      match eventRegistration with
      | some eventRegistration => syncPoint.eventRegistrations.filter fun existing => existing ≠ eventRegistration
      | none => []
    if eventRegistrations.isEmpty then
      { syncTree with syncPointTree := syncTree.syncPointTree.removeValueAtPath path }
    else { syncTree with syncPointTree := syncTree.syncPointTree.setValue { syncPoint with eventRegistrations } path }

end SyncTree

end LoveCoupons
