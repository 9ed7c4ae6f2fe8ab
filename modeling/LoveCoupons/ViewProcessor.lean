import LoveCoupons.EventCache

/-!
# The processor of a view

`FViewProcessor` keeps, for one listened location, what the server has sent and what the
users of the location see. Each operation updates both caches in place, child by child, and
reports how the children of the event cache changed. The changes of one operation are
collected by `FChildChangeAccumulator`, which raises an exception on a sequence of changes
that makes no sense, and a value event is added when anything changed.

Views are those of the default query, whose filter is `FIndexedFilter`: it keeps all children
and never asks the source for others. Priorities are left out.
-/

namespace LoveCoupons

open KeyedTree PathContents

variable {κ ν : Type} [DecidableEq κ] [DecidableEq ν]

/-- `FChange`. -/
inductive Change (κ ν : Type) [DecidableEq κ] where
  | childAdded (childKey : κ) (node : Snap κ ν)
  | childRemoved (childKey : κ) (node : Snap κ ν)
  | childChanged (childKey : κ) (node oldNode : Snap κ ν)
  | value (node : Snap κ ν)

/-- The changes tracked so far, by child. -/
abbrev ChangeMap (κ ν : Type) [DecidableEq κ] := List (κ × Change κ ν)

/-- `-[FChildChangeAccumulator trackChildChange:]`; there is no result for an illegal combination. -/
def trackChildChange (changeMap : ChangeMap κ ν) (change : Change κ ν) : Option (ChangeMap κ ν) :=
  match change with
  | .childAdded childKey node =>
    match changeMap.lookup childKey with
    | none => some (Dictionary.insertKey childKey change changeMap)
    | some (.childRemoved _ oldNode) =>
      some (Dictionary.insertKey childKey (.childChanged childKey node oldNode) changeMap)
    | some _ => none
  | .childRemoved childKey _ =>
    match changeMap.lookup childKey with
    | none => some (Dictionary.insertKey childKey change changeMap)
    | some (.childAdded _ _) => some (Dictionary.removeKey childKey changeMap)
    | some (.childChanged _ _ oldNode) =>
      some (Dictionary.insertKey childKey (.childRemoved childKey oldNode) changeMap)
    | some _ => none
  | .childChanged childKey node _ =>
    match changeMap.lookup childKey with
    | none => some (Dictionary.insertKey childKey change changeMap)
    | some (.childAdded _ _) => some (Dictionary.insertKey childKey (.childAdded childKey node) changeMap)
    | some (.childChanged _ _ oldNode) =>
      some (Dictionary.insertKey childKey (.childChanged childKey node oldNode) changeMap)
    | some _ => none
  | .value _ => none

/-- `-[FIndexedFilter updateChildIn:forChildKey:newChild:affectedPath:fromSource:accumulator:]`, with the change
that it tracks when it has an accumulator. -/
def updateChildIn (node : Snap κ ν) (childKey : κ) (newChild : Snap κ ν) (affectedPath : List κ) :
    Snap κ ν × List (Change κ ν) :=
  let oldChild := node.getImmediateChild childKey
  if (oldChild.getChild affectedPath).isEqual (newChild.getChild affectedPath) &&
      oldChild.isEmpty == newChild.isEmpty then (node, [])
  else
    let changes :=
      if newChild.isEmpty then
        if node.hasChild childKey then [.childRemoved childKey oldChild] else []
      else if oldChild.isEmpty then [.childAdded childKey newChild]
      else [.childChanged childKey newChild oldChild]
    if node.isLeafNode && newChild.isEmpty then (node, changes)
    else (node.updateImmediateChild childKey newChild, changes)

/-- `-[FIndexedFilter updateFullNode:withNewNode:accumulator:]`, with the changes that it tracks when it has an
accumulator. -/
def updateFullNode (oldSnap newSnap : Snap κ ν) : Snap κ ν × List (Change κ ν) :=
  let removed := oldSnap.children.filterMap fun entry =>
    if newSnap.hasChild entry.1 then none else some (Change.childRemoved entry.1 entry.2)
  let kept := newSnap.children.filterMap fun entry =>
    if oldSnap.hasChild entry.1 then
      if (oldSnap.getImmediateChild entry.1).isEqual entry.2 then none
      else some (Change.childChanged entry.1 entry.2 (oldSnap.getImmediateChild entry.1))
    else some (.childAdded entry.1 entry.2)
  (newSnap, removed ++ kept)

/-- `FViewCache`. -/
structure ViewCache (κ ν : Type) [DecidableEq κ] where
  cachedEventSnap : CacheNode κ ν
  cachedServerSnap : CacheNode κ ν

namespace ViewCache

/-- `-[FViewCache updateEventSnap:isComplete:isFiltered:]`; the filter of a default query filters nothing. -/
def updateEventSnap (cache : ViewCache κ ν) (eventSnap : Snap κ ν) (complete : Bool) : ViewCache κ ν :=
  { cache with cachedEventSnap := ⟨eventSnap, complete, false⟩ }

/-- `-[FViewCache updateServerSnap:isComplete:isFiltered:]`. -/
def updateServerSnap (cache : ViewCache κ ν) (serverSnap : Snap κ ν) (complete filtered : Bool) : ViewCache κ ν :=
  { cache with cachedServerSnap := ⟨serverSnap, complete, filtered⟩ }

/-- `-[FViewCache completeEventSnap]`. -/
def completeEventSnap (cache : ViewCache κ ν) : Option (Snap κ ν) :=
  if cache.cachedEventSnap.isFullyInitialized then some cache.cachedEventSnap.node else none

/-- `-[FViewCache completeServerSnap]`. -/
def completeServerSnap (cache : ViewCache κ ν) : Option (Snap κ ν) :=
  if cache.cachedServerSnap.isFullyInitialized then some cache.cachedServerSnap.node else none

end ViewCache

/-- The caches after an operation, with the changes that it tracked. -/
abbrev Processed (κ ν : Type) [DecidableEq κ] := ViewCache κ ν × List (Change κ ν)

namespace ViewProcessor

/-- `-[FWriteTreeCompleteChildSource completeChild:]`. -/
def completeChild (writes : WriteTreeRef κ ν) (viewCache : ViewCache κ ν)
    (optCompleteServerCache : Option (Snap κ ν)) (childKey : κ) : Option (Snap κ ν) :=
  if viewCache.cachedEventSnap.isCompleteForChild childKey then
    some (viewCache.cachedEventSnap.node.getImmediateChild childKey)
  else
    let serverNode : CacheNode κ ν :=
      match optCompleteServerCache with
      | some node => ⟨node, true, false⟩
      | none => viewCache.cachedServerSnap
    writes.calculateCompleteChild childKey serverNode

/-- The event cache of a view whose server data is complete. -/
def nodeWithLocalWrites (writesCache : WriteTreeRef κ ν) (viewCache : ViewCache κ ν) : Snap κ ν :=
  if viewCache.cachedServerSnap.isFiltered then
    let serverCache := viewCache.completeServerSnap.getD .emptyNode
    writesCache.calculateCompleteEventChildren (if serverCache.isLeafNode then .emptyNode else serverCache)
  else (writesCache.calculateCompleteEventCache viewCache.completeServerSnap).getD .emptyNode

/-- `-[FViewProcessor generateEventCacheAfterServerEvent:path:writesCache:source:accumulator:]`. -/
def generateEventCacheAfterServerEvent (viewCache : ViewCache κ ν) (changePath : List κ)
    (writesCache : WriteTreeRef κ ν) : Processed κ ν :=
  let oldEventSnap := viewCache.cachedEventSnap
  if (writesCache.shadowingWriteAtPath changePath).isSome then (viewCache, [])
  else
    match changePath with
    | [] =>
      let updated := updateFullNode oldEventSnap.node (nodeWithLocalWrites writesCache viewCache)
      (viewCache.updateEventSnap updated.1 true, updated.2)
    | childKey :: childChangePath =>
      let oldChild := oldEventSnap.node.getImmediateChild childKey
      let newEventChild :=
        if oldEventSnap.isCompleteForChild childKey then
          match writesCache.calculateEventCacheAfterServerOverwrite changePath viewCache.cachedServerSnap.node with
          | some eventChildUpdate => some (oldChild.updateChild childChangePath eventChildUpdate)
          | none => some oldChild
        else writesCache.calculateCompleteChild childKey viewCache.cachedServerSnap
      match newEventChild with
      | some newEventChild =>
        let updated := updateChildIn oldEventSnap.node childKey newEventChild childChangePath
        (viewCache.updateEventSnap updated.1 oldEventSnap.isFullyInitialized, updated.2)
      | none => (viewCache.updateEventSnap oldEventSnap.node oldEventSnap.isFullyInitialized, [])

/-- `-[FViewProcessor applyServerOverwriteTo:changePath:snap:writesCache:completeCache:filterServerNode:accumulator:]`. -/
def applyServerOverwriteTo (oldViewCache : ViewCache κ ν) (changePath : List κ) (changedSnap : Snap κ ν)
    (writesCache : WriteTreeRef κ ν) : Processed κ ν :=
  let oldServerSnap := oldViewCache.cachedServerSnap
  match changePath with
  | [] => generateEventCacheAfterServerEvent (oldViewCache.updateServerSnap changedSnap true false) [] writesCache
  | childKey :: childChangePath =>
    if !oldServerSnap.isCompleteForPath changePath && childChangePath ≠ [] then (oldViewCache, [])
    else
      let newChildNode := (oldServerSnap.node.getImmediateChild childKey).updateChild childChangePath changedSnap
      let newServerCache := (updateChildIn oldServerSnap.node childKey newChildNode childChangePath).1
      generateEventCacheAfterServerEvent
        (oldViewCache.updateServerSnap newServerCache oldServerSnap.isFullyInitialized false) changePath writesCache

/-- The child of the event cache with the user's write in it. -/
def userChild (oldViewCache : ViewCache κ ν) (childKey : κ) (childChangePath : List κ) (changedSnap : Snap κ ν)
    (writesCache : WriteTreeRef κ ν) (optCompleteCache : Option (Snap κ ν)) : Snap κ ν :=
  if childChangePath.isEmpty then changedSnap
  else
    match completeChild writesCache oldViewCache optCompleteCache childKey with
    | some childNode => childNode.updateChild childChangePath changedSnap
    | none => .emptyNode

/-- `-[FViewProcessor applyUserOverwriteTo:changePath:changedSnap:writesCache:completeCache:accumulator:]`. -/
def applyUserOverwriteTo (oldViewCache : ViewCache κ ν) (changePath : List κ) (changedSnap : Snap κ ν)
    (writesCache : WriteTreeRef κ ν) (optCompleteCache : Option (Snap κ ν)) : Processed κ ν :=
  let oldEventSnap := oldViewCache.cachedEventSnap
  match changePath with
  | [] =>
    let updated := updateFullNode oldEventSnap.node changedSnap
    (oldViewCache.updateEventSnap updated.1 true, updated.2)
  | childKey :: childChangePath =>
    let oldChild := oldEventSnap.node.getImmediateChild childKey
    let newChild := userChild oldViewCache childKey childChangePath changedSnap writesCache optCompleteCache
    if oldChild.isEqual newChild then (oldViewCache, [])
    else
      let updated := updateChildIn oldEventSnap.node childKey newChild childChangePath
      (oldViewCache.updateEventSnap updated.1 oldEventSnap.isFullyInitialized, updated.2)

/-- `+[FViewProcessor cache:hasChild:]`. -/
def cacheHasChild (viewCache : ViewCache κ ν) (childKey : Option κ) : Bool :=
  match childKey with
  | some childKey => viewCache.cachedEventSnap.isCompleteForChild childKey
  | none => viewCache.cachedEventSnap.isFullyInitialized && !viewCache.cachedEventSnap.isFiltered

/-- One operation after another, with the changes of both. -/
def andThen (processed : Processed κ ν) (next : ViewCache κ ν → Processed κ ν) : Processed κ ν :=
  ((next processed.1).1, processed.2 ++ (next processed.1).2)

/-- The user's overwrites at several paths, one after the other. -/
def applyUserWrites (entries : List (List κ × Snap κ ν)) (writesCache : WriteTreeRef κ ν)
    (serverCache : Option (Snap κ ν)) (processed : Processed κ ν) : Processed κ ν :=
  entries.foldl (fun processed entry => andThen processed fun curViewCache =>
    applyUserOverwriteTo curViewCache entry.1 entry.2 writesCache serverCache) processed

/-- `-[FViewProcessor applyUserMergeTo:path:changedChildren:writesCache:completeCache:accumulator:]`. -/
def applyUserMergeTo (viewCache : ViewCache κ ν) (path : List κ) (changedChildren : CompoundWrite κ ν)
    (writesCache : WriteTreeRef κ ν) (serverCache : Option (Snap κ ν)) : Processed κ ν :=
  let entries := changedChildren.enumerateWrites.map fun entry => (path ++ entry.1, entry.2)
  let inView := fun entry : List κ × Snap κ ν => cacheHasChild viewCache entry.1.head?
  let seen := applyUserWrites (entries.filter inView) writesCache serverCache (viewCache, [])
  applyUserWrites (entries.filter fun entry => !inView entry) writesCache serverCache seen

/-- The merge of the server seen from the view's place. -/
def actualMerge (changedChildren : CompoundWrite κ ν) (path : List κ) : CompoundWrite κ ν :=
  if path.isEmpty then changedChildren else CompoundWrite.emptyWrite.addCompoundWrite changedChildren path

/-- `-[FViewProcessor applyServerMergeTo:path:changedChildren:writesCache:completeCache:filterServerNode:accumulator:]`. -/
def applyServerMergeTo (viewCache : ViewCache κ ν) (path : List κ) (changedChildren : CompoundWrite κ ν)
    (writesCache : WriteTreeRef κ ν) : Processed κ ν :=
  if viewCache.cachedServerSnap.node.isEmpty && !viewCache.cachedServerSnap.isFullyInitialized then (viewCache, [])
  else
    let childCompoundWrites := (actualMerge changedChildren path).childCompoundWrites
    let serverNode := viewCache.cachedServerSnap.node
    let apply := fun (processed : Processed κ ν) (entry : κ × CompoundWrite κ ν) =>
      andThen processed fun curViewCache =>
        applyServerOverwriteTo curViewCache [entry.1] (entry.2.applyToNode (serverNode.getImmediateChild entry.1))
          writesCache
    let seen := (childCompoundWrites.filter fun entry => serverNode.hasChild entry.1).foldl apply (viewCache, [])
    let isUnknownDeepMerge := fun entry : κ × CompoundWrite κ ν =>
      !viewCache.cachedServerSnap.isCompleteForChild entry.1 && entry.2.rootWrite.isNone
    (childCompoundWrites.filter fun entry =>
      !serverNode.hasChild entry.1 && !isUnknownDeepMerge entry).foldl apply seen

/-- `-[FViewProcessor ackUserWriteOn:ackPath:affectedTree:writesCache:completeCache:accumulator:]`. -/
def ackUserWriteOn (viewCache : ViewCache κ ν) (ackPath : List κ) (affectedTree : ImmutableTree κ Bool)
    (writesCache : WriteTreeRef κ ν) : Processed κ ν :=
  if (writesCache.shadowingWriteAtPath ackPath).isSome then (viewCache, [])
  else
    let serverCache := viewCache.cachedServerSnap
    if affectedTree.value.isSome then
      if (ackPath.isEmpty && serverCache.isFullyInitialized) || serverCache.isCompleteForPath ackPath then
        applyServerOverwriteTo viewCache ackPath (serverCache.node.getChild ackPath) writesCache
      else if ackPath.isEmpty then
        let changedChildren := serverCache.node.children.foldl
          (fun (changedChildren : CompoundWrite κ ν) child => changedChildren.addWriteAtKey child.2 child.1)
          .emptyWrite
        applyServerMergeTo viewCache ackPath changedChildren writesCache
      else (viewCache, [])
    else
      let changedChildren := affectedTree.forEach.foldl (fun (changedChildren : CompoundWrite κ ν) affected =>
        let serverCachePath := ackPath ++ affected.1
        if serverCache.isCompleteForPath serverCachePath then
          changedChildren.addWrite (serverCache.node.getChild serverCachePath) affected.1
        else changedChildren) .emptyWrite
      applyServerMergeTo viewCache ackPath changedChildren writesCache

/-- The event cache of a view with the child of a reverted write computed anew. -/
def revertChild (viewCache : ViewCache κ ν) (childKey : κ) (rest : List κ) (writesCache : WriteTreeRef κ ν) :
    Snap κ ν × List (Change κ ν) :=
  let oldEventCache := viewCache.cachedEventSnap.node
  let newChild :=
    match writesCache.calculateCompleteChild childKey viewCache.cachedServerSnap with
    | some newChild => some newChild
    | none =>
      if viewCache.cachedServerSnap.isCompleteForChild childKey then
        some (oldEventCache.getImmediateChild childKey)
      else none
  match newChild with
  | some newChild => updateChildIn oldEventCache childKey newChild rest
  | none =>
    if oldEventCache.hasChild childKey then updateChildIn oldEventCache childKey .emptyNode rest
    else (oldEventCache, [])

/-- The complete event cache when nothing is left but a leaf comes back. -/
def revertToLeaf (viewCache : ViewCache κ ν) (changed : Snap κ ν × List (Change κ ν))
    (writesCache : WriteTreeRef κ ν) : Snap κ ν × List (Change κ ν) :=
  if changed.1.isEmpty && viewCache.cachedServerSnap.isFullyInitialized then
    let complete := (writesCache.calculateCompleteEventCache viewCache.completeServerSnap).getD .emptyNode
    if complete.isLeafNode then
      let full := updateFullNode changed.1 complete
      (full.1, changed.2 ++ full.2)
    else changed
  else changed

/-- `-[FViewProcessor revertUserWriteOn:path:writesCache:completeCache:accumulator:]`. -/
def revertUserWriteOn (viewCache : ViewCache κ ν) (path : List κ) (writesCache : WriteTreeRef κ ν) :
    Processed κ ν :=
  if (writesCache.shadowingWriteAtPath path).isSome then (viewCache, [])
  else
    let updated :=
      match path with
      | [] =>
        let newNode :=
          if viewCache.cachedServerSnap.isFullyInitialized then
            (writesCache.calculateCompleteEventCache viewCache.completeServerSnap).getD .emptyNode
          else writesCache.calculateCompleteEventChildren viewCache.cachedServerSnap.node
        updateFullNode viewCache.cachedEventSnap.node newNode
      | childKey :: rest => revertToLeaf viewCache (revertChild viewCache childKey rest writesCache) writesCache
    let complete := viewCache.cachedServerSnap.isFullyInitialized || (writesCache.shadowingWriteAtPath []).isSome
    (viewCache.updateEventSnap updated.1 complete, updated.2)

/-- `-[FViewProcessor listenCompleteOldCache:path:writesCache:serverCache:accumulator:]`. -/
def listenComplete (viewCache : ViewCache κ ν) (path : List κ) (writesCache : WriteTreeRef κ ν) : Processed κ ν :=
  let oldServerNode := viewCache.cachedServerSnap
  generateEventCacheAfterServerEvent
    (viewCache.updateServerSnap oldServerNode.node (oldServerNode.isFullyInitialized || path.isEmpty)
      oldServerNode.isFiltered) path writesCache

end ViewProcessor

/-- `FOverwrite`, `FMerge`, `FAckUserWrite` and `FListenComplete`. -/
inductive ViewOperation (κ ν : Type) [DecidableEq κ] where
  | overwrite (fromUser : Bool) (path : List κ) (snap : Snap κ ν)
  | merge (fromUser : Bool) (path : List κ) (children : CompoundWrite κ ν)
  | ackUserWrite (path : List κ) (affectedTree : ImmutableTree κ Bool) (revert : Bool)
  | listenComplete (path : List κ)

namespace ViewOperation

/-- The place that an operation is about. -/
def path : ViewOperation κ ν → List κ
  | overwrite _ path _ => path
  | merge _ path _ => path
  | ackUserWrite path _ _ => path
  | listenComplete path => path

/-- `operationForChild:` of the four operations. -/
def operationForChild (childKey : κ) : ViewOperation κ ν → Option (ViewOperation κ ν)
  | overwrite fromUser [] snap => some (.overwrite fromUser [] (snap.getImmediateChild childKey))
  | overwrite fromUser (_ :: path) snap => some (.overwrite fromUser path snap)
  | merge fromUser [] children =>
    let childTree := children.childCompoundWriteAtPath [childKey]
    if childTree.isEmpty then none
    else
      match childTree.rootWrite with
      | some snap => some (.overwrite fromUser [] snap)
      | none => some (.merge fromUser [] childTree)
  | merge fromUser (_ :: path) children => some (.merge fromUser path children)
  | ackUserWrite (_ :: path) affectedTree revert => some (.ackUserWrite path affectedTree revert)
  | ackUserWrite [] affectedTree revert =>
    if affectedTree.value.isSome then some (.ackUserWrite [] affectedTree revert)
    else some (.ackUserWrite [] (affectedTree.subtreeAtPath [childKey]) revert)
  | listenComplete [] => some (.listenComplete [])
  | listenComplete (_ :: path) => some (.listenComplete path)

end ViewOperation

namespace ViewProcessor

/-- The caches after an operation, with the changes that it tracked. -/
def process (oldViewCache : ViewCache κ ν) (operation : ViewOperation κ ν) (writesCache : WriteTreeRef κ ν)
    (optCompleteCache : Option (Snap κ ν)) : Processed κ ν :=
  match operation with
  | .overwrite true path snap => applyUserOverwriteTo oldViewCache path snap writesCache optCompleteCache
  | .overwrite false path snap => applyServerOverwriteTo oldViewCache path snap writesCache
  | .merge true path children => applyUserMergeTo oldViewCache path children writesCache optCompleteCache
  | .merge false path children => applyServerMergeTo oldViewCache path children writesCache
  | .ackUserWrite path affectedTree false => ackUserWriteOn oldViewCache path affectedTree writesCache
  | .ackUserWrite path _ true => revertUserWriteOn oldViewCache path writesCache
  | .listenComplete path => listenComplete oldViewCache path writesCache

/-- `-[FViewProcessor maybeAddValueFromOldViewCache:newViewCache:changes:]`. -/
def maybeAddValue (oldViewCache newViewCache : ViewCache κ ν) (changes : List (Change κ ν)) :
    List (Change κ ν) :=
  let eventSnap := newViewCache.cachedEventSnap
  if eventSnap.isFullyInitialized then
    let isLeafOrEmpty := eventSnap.node.isLeafNode || eventSnap.node.isEmpty
    let differs :=
      match oldViewCache.completeEventSnap with
      | some old => !eventSnap.node.isEqual old
      | none => true
    if !changes.isEmpty || !oldViewCache.cachedEventSnap.isFullyInitialized || (isLeafOrEmpty && differs) then
      changes ++ [.value eventSnap.node]
    else changes
  else changes

/-- `-[FViewProcessor applyOperationOn:operation:writesCache:completeCache:]`; there is no result when the
accumulator raises its exception. -/
def applyOperationOn (oldViewCache : ViewCache κ ν) (operation : ViewOperation κ ν) (writesCache : WriteTreeRef κ ν)
    (optCompleteCache : Option (Snap κ ν)) : Option (Processed κ ν) :=
  let processed := process oldViewCache operation writesCache optCompleteCache
  (processed.2.foldlM trackChildChange []).map fun changeMap =>
    (processed.1, maybeAddValue oldViewCache processed.1 (changeMap.map Prod.snd))

end ViewProcessor

end LoveCoupons
