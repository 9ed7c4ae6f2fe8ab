import LoveCoupons.CompoundWrite
import LoveCoupons.Lib.Runs

/-!
# The tree of pending writes

`FWriteTree` keeps the records of the writes that the server has not acknowledged, in the
order in which they were made, and beside them the compound write of the visible ones. A
record that is removed is subtracted from the compound write without rebuilding it where the
code finds that this is enough.

The compound write is the layering of the records, as long as the server answers the writes
in the order in which they were made, none of them is hidden, and no later update of several
locations reaches below the place of the removed write from above it.
-/

namespace LoveCoupons

open KeyedTree PathContents

variable {κ ν : Type} [DecidableEq κ]

/-- `-[FPath contains:]`. -/
def pathContains (path other : List κ) : Bool := path.isPrefixOf other

/-- `-[FPath contains:]` is being a prefix. -/
@[simp] theorem pathContains_iff (path other : List κ) : pathContains path other = true ↔ path <+: other :=
  List.isPrefixOf_iff_prefix

/-- `FCacheNode`. -/
structure CacheNode (κ ν : Type) [DecidableEq κ] where
  node : Snap κ ν
  isFullyInitialized : Bool
  isFiltered : Bool

/-- `-[FCacheNode isCompleteForChild:]`. -/
def CacheNode.isCompleteForChild (cache : CacheNode κ ν) (childKey : κ) : Bool :=
  (cache.isFullyInitialized && !cache.isFiltered) || cache.node.hasChild childKey

/-- `-[FCacheNode isCompleteForPath:]`. -/
def CacheNode.isCompleteForPath (cache : CacheNode κ ν) : List κ → Bool
  | [] => cache.isFullyInitialized && !cache.isFiltered
  | childKey :: _ => cache.isCompleteForChild childKey

/-- A complete cache is complete for each of its children. -/
theorem CacheNode.isCompleteForChild_of_complete {cache : CacheNode κ ν} (hcomplete : cache.isFullyInitialized = true)
    (hunfiltered : cache.isFiltered = false) (childKey : κ) : cache.isCompleteForChild childKey = true := by
  simp [isCompleteForChild, hcomplete, hunfiltered]

/-- A complete cache is complete for each of its places. -/
theorem CacheNode.isCompleteForPath_of_complete {cache : CacheNode κ ν} (hcomplete : cache.isFullyInitialized = true)
    (hunfiltered : cache.isFiltered = false) (path : List κ) : cache.isCompleteForPath path = true := by
  cases path with
  | nil => simp [isCompleteForPath, hcomplete, hunfiltered]
  | cons childKey rest => exact isCompleteForChild_of_complete hcomplete hunfiltered childKey

/-- What a write record writes. -/
inductive WriteData (κ ν : Type) [DecidableEq κ] where
  | overwrite (node : Snap κ ν)
  | merge (children : CompoundWrite κ ν)

/-- `FWriteRecord`. -/
structure WriteRecord (κ ν : Type) [DecidableEq κ] where
  path : List κ
  data : WriteData κ ν
  writeId : ℤ
  visible : Bool := true

namespace WriteRecord

/-- The single writes of a record with their paths. -/
def entries (record : WriteRecord κ ν) : List (List κ × Snap κ ν) :=
  match record.data with
  | .overwrite node => [(record.path, node)]
  | .merge children => children.enumerateWrites.map fun entry => (record.path ++ entry.1, entry.2)

/-- The contents that a record writes. -/
def writes (record : WriteRecord κ ν) : List (List κ × Contents κ ν) :=
  record.entries.map fun entry => (entry.1, entry.2.contents)

/-- An overwrite writes its node at its path. -/
theorem writes_of_overwrite (record : WriteRecord κ ν) {node : Snap κ ν} (hdata : record.data = .overwrite node) :
    record.writes = [(record.path, node.contents)] := by
  simp [writes, entries, hdata]

/-- A merge writes what its compound write does, below its path. -/
theorem mem_writes_of_merge (record : WriteRecord κ ν) {children : CompoundWrite κ ν}
    (hdata : record.data = .merge children) {k : List κ} {n : Contents κ ν} (hk : children.writes k = some n) :
    (record.path ++ k, n) ∈ record.writes := by
  obtain ⟨node, hnode, rfl⟩ := treeWrites_eq_some hk
  have hmem := (children.mem_enumerateWrites_iff k node).mpr hnode
  rw [writes, entries, hdata, List.map_map]
  exact List.mem_map.mpr ⟨(k, node), hmem, rfl⟩

/-- The writes of one record lie apart. -/
theorem pairwise_writes (record : WriteRecord κ ν) : record.writes.Pairwise fun w u => Apart w.1 u.1 := by
  rw [writes, entries, List.pairwise_map]
  cases record.data with
  | overwrite node => exact List.pairwise_singleton _ _
  | merge children =>
    rw [List.pairwise_map]
    exact children.pairwise_apart.imp fun h => h.append_left record.path

/-- `-[FWriteTree record:containsPath:]`. -/
def containsPath (record : WriteRecord κ ν) (path : List κ) : Bool :=
  match record.data with
  | .overwrite _ => pathContains record.path path
  | .merge children => children.enumerateWrites.any fun entry => pathContains (record.path ++ entry.1) path

/-- A record contains a path when one of its writes is at or above it. -/
theorem containsPath_iff (record : WriteRecord κ ν) (path : List κ) :
    record.containsPath path = true ↔ ∃ w ∈ record.writes, w.1 <+: path := by
  unfold containsPath writes entries
  cases record.data with
  | overwrite node => simp
  | merge children => simp

/-- The writes of a record are at or below its path. -/
theorem path_prefix_of_mem_writes {record : WriteRecord κ ν} {w : List κ × Contents κ ν}
    (h : w ∈ record.writes) : record.path <+: w.1 := by
  obtain ⟨entry, hentry, rfl⟩ := List.mem_map.mp h
  unfold entries at hentry
  cases hdata : record.data with
  | overwrite node =>
    rw [hdata, List.mem_singleton] at hentry
    rw [hentry]
  | merge children =>
    rw [hdata] at hentry
    obtain ⟨other, -, rfl⟩ := List.mem_map.mp hentry
    exact List.prefix_append _ _

end WriteRecord

/-- `FWriteTree`. -/
structure WriteTree (κ ν : Type) [DecidableEq κ] where
  visibleWrites : CompoundWrite κ ν := .emptyWrite
  allWrites : List (WriteRecord κ ν) := []
  lastWriteId : ℤ := -1

namespace WriteTree

/-- `-[FWriteTree addOverwriteAtPath:newData:writeId:isVisible:]`. -/
def addOverwriteAtPath (tree : WriteTree κ ν) (path : List κ) (newData : Snap κ ν) (writeId : ℤ)
    (visible : Bool) : WriteTree κ ν where
  allWrites := tree.allWrites ++ [⟨path, .overwrite newData, writeId, visible⟩]
  visibleWrites := if visible then tree.visibleWrites.addWrite newData path else tree.visibleWrites
  lastWriteId := writeId

/-- `-[FWriteTree addMergeAtPath:changedChildren:writeId:]`. -/
def addMergeAtPath (tree : WriteTree κ ν) (path : List κ) (changedChildren : CompoundWrite κ ν)
    (writeId : ℤ) : WriteTree κ ν where
  allWrites := tree.allWrites ++ [⟨path, .merge changedChildren, writeId, true⟩]
  visibleWrites := tree.visibleWrites.addCompoundWrite changedChildren path
  lastWriteId := writeId

/-- `-[FWriteTree writeForId:]`. -/
def writeForId (tree : WriteTree κ ν) (writeId : ℤ) : Option (WriteRecord κ ν) :=
  tree.allWrites.find? fun write => write.writeId = writeId

/-- `+[FWriteTree layerTreeFromWrites:filter:treeRoot:]`. -/
def layerTreeFromWrites (writes : List (WriteRecord κ ν)) (filter : WriteRecord κ ν → Bool)
    (treeRoot : List κ) : CompoundWrite κ ν :=
  writes.foldl (fun compoundWrite record =>
    if filter record then
      match record.data with
      | .overwrite node =>
        if pathContains treeRoot record.path then
          compoundWrite.addWrite node (relativePath treeRoot record.path)
        else if pathContains record.path treeRoot then
          compoundWrite.addWrite (node.getChild (relativePath record.path treeRoot)) []
        else compoundWrite
      | .merge children =>
        if pathContains treeRoot record.path then
          compoundWrite.addCompoundWrite children (relativePath treeRoot record.path)
        else if pathContains record.path treeRoot then
          match relativePath record.path treeRoot with
          | [] => compoundWrite.addCompoundWrite children []
          | front :: rest =>
            match children.completeNodeAtPath (front :: rest) with
            | some child => compoundWrite.addWrite (child.getChild rest) []
            | none => compoundWrite
        else compoundWrite
    else compoundWrite) .emptyWrite

/-- `+[FWriteTree defaultFilter]`: every record, hidden ones included. -/
def defaultFilter : WriteRecord κ ν → Bool := fun _ => true

/-- `-[FWriteTree resetTree]`. -/
def resetTree (tree : WriteTree κ ν) : WriteTree κ ν where
  allWrites := tree.allWrites
  visibleWrites := layerTreeFromWrites tree.allWrites defaultFilter []
  lastWriteId := (tree.allWrites.getLast?.map WriteRecord.writeId).getD (-1)

/-- The loop of `-[FWriteTree removeWriteId:]` over the other records, the last one first: whether the
removed write may have been visible, and whether it overlaps with another one. -/
def removalLoop (writeToRemove : WriteRecord κ ν) (index : ℕ) :
    List (WriteRecord κ ν × ℕ) → Bool → Bool → Bool × Bool
  | [], wasVisible, overlaps => (wasVisible, overlaps)
  | (currentWrite, i) :: rest, wasVisible, overlaps =>
    if wasVisible then
      if currentWrite.visible then
        if index ≤ i ∧ currentWrite.containsPath writeToRemove.path then
          removalLoop writeToRemove index rest false overlaps
        else if pathContains writeToRemove.path currentWrite.path then
          removalLoop writeToRemove index rest wasVisible true
        else removalLoop writeToRemove index rest wasVisible overlaps
      else removalLoop writeToRemove index rest wasVisible overlaps
    else (wasVisible, overlaps)

/-- The visible writes without those of a record, removed place by place. -/
def removeWrites (visibleWrites : CompoundWrite κ ν) (writeToRemove : WriteRecord κ ν) : CompoundWrite κ ν :=
  match writeToRemove.data with
  | .overwrite _ => visibleWrites.removeWriteAtPath writeToRemove.path
  | .merge children => children.enumerateWrites.foldl
      (fun visibleWrites entry => visibleWrites.removeWriteAtPath (writeToRemove.path ++ entry.1)) visibleWrites

/-- `-[FWriteTree removeWriteId:]`: whether views need to reevaluate, and the tree without the record. There
is no result for an identifier without a record, on which the code asserts. -/
def removeWriteId (tree : WriteTree κ ν) (writeId : ℤ) : Option (Bool × WriteTree κ ν) :=
  (tree.allWrites.findIdx? fun record => record.writeId = writeId).bind fun index =>
    tree.allWrites[index]?.map fun writeToRemove =>
      let allWrites := tree.allWrites.eraseIdx index
      let loop := removalLoop writeToRemove index allWrites.zipIdx.reverse writeToRemove.visible false
      if !loop.1 then (false, { tree with allWrites })
      else if loop.2 then (true, { tree with allWrites }.resetTree)
      else (true, { tree with allWrites, visibleWrites := removeWrites tree.visibleWrites writeToRemove })

/-- `-[FWriteTree removeAllWrites]`. -/
def removeAllWrites (tree : WriteTree κ ν) : List (WriteRecord κ ν) × WriteTree κ ν :=
  (tree.allWrites, { tree with visibleWrites := .emptyWrite, allWrites := [] })

/-- `-[FWriteTree completeWriteDataAtPath:]`, `-[FWriteTree shadowingWriteAtPath:]`. -/
def shadowingWriteAtPath (tree : WriteTree κ ν) (path : List κ) : Option (Snap κ ν) :=
  tree.visibleWrites.completeNodeAtPath path

/-- `-[FWriteTree calculateCompleteEventCacheAtPath:completeServerCache:excludeWriteIds:includeHiddenWrites:]`. -/
def calculateCompleteEventCacheAtPath (tree : WriteTree κ ν) (treePath : List κ)
    (completeServerCache : Option (Snap κ ν)) (writeIdsToExclude : Option (List ℤ) := none)
    (includeHiddenWrites : Bool := false) : Option (Snap κ ν) :=
  if writeIdsToExclude.isNone && !includeHiddenWrites then
    match tree.visibleWrites.completeNodeAtPath treePath with
    | some shadowingNode => some shadowingNode
    | none =>
      let subMerge := tree.visibleWrites.childCompoundWriteAtPath treePath
      if subMerge.isEmpty then completeServerCache
      else if completeServerCache.isNone && !subMerge.hasCompleteWriteAtPath [] then none
      else some (subMerge.applyToNode (completeServerCache.getD .emptyNode))
  else
    let merge := tree.visibleWrites.childCompoundWriteAtPath treePath
    if !includeHiddenWrites && merge.isEmpty then completeServerCache
    else if !includeHiddenWrites && completeServerCache.isNone && !merge.hasCompleteWriteAtPath [] then none
    else
      let filter := fun record : WriteRecord κ ν =>
        (record.visible || includeHiddenWrites) &&
          (writeIdsToExclude.all fun excluded => record.writeId ∉ excluded) &&
          (pathContains record.path treePath || pathContains treePath record.path)
      some ((layerTreeFromWrites tree.allWrites filter treePath).applyToNode
        (completeServerCache.getD .emptyNode))

/-- `-[FWriteTree calculateCompleteEventChildrenAtPath:completeServerChildren:]`. -/
def calculateCompleteEventChildrenAtPath (tree : WriteTree κ ν) (treePath : List κ)
    (completeServerChildren : Snap κ ν) : Snap κ ν :=
  match tree.visibleWrites.completeNodeAtPath treePath with
  | some topLevelSet =>
    if topLevelSet.isLeafNode then .emptyNode
    else topLevelSet.children.foldl
      (fun completeChildren entry => completeChildren.updateImmediateChild entry.1 entry.2) .emptyNode
  | none =>
    let merge := tree.visibleWrites.childCompoundWriteAtPath treePath
    let layered := completeServerChildren.children.foldl (fun completeChildren entry =>
      completeChildren.updateImmediateChild entry.1
        ((merge.childCompoundWriteAtPath [entry.1]).applyToNode entry.2)) .emptyNode
    merge.completeChildren.foldl
      (fun completeChildren entry => completeChildren.updateImmediateChild entry.1 entry.2) layered

/-- `-[FWriteTree calculateEventCacheAfterServerOverwriteAtPath:childPath:existingEventSnap:existingServerSnap:]`;
the event snapshot is only asserted on. -/
def calculateEventCacheAfterServerOverwriteAtPath (tree : WriteTree κ ν) (treePath childPath : List κ)
    (existingServerSnap : Snap κ ν) : Option (Snap κ ν) :=
  let path := treePath ++ childPath
  if tree.visibleWrites.hasCompleteWriteAtPath path then none
  else
    let childMerge := tree.visibleWrites.childCompoundWriteAtPath path
    if childMerge.isEmpty then some (existingServerSnap.getChild childPath)
    else some (childMerge.applyToNode (existingServerSnap.getChild childPath))

/-- `-[FWriteTree calculateCompleteChildAtPath:childKey:cache:]`. -/
def calculateCompleteChildAtPath (tree : WriteTree κ ν) (treePath : List κ) (childKey : κ)
    (existingServerCache : CacheNode κ ν) : Option (Snap κ ν) :=
  let path := treePath ++ [childKey]
  match tree.visibleWrites.completeNodeAtPath path with
  | some shadowingNode => some shadowingNode
  | none =>
    if existingServerCache.isCompleteForChild childKey then
      let childMerge := tree.visibleWrites.childCompoundWriteAtPath path
      some (childMerge.applyToNode (existingServerCache.node.getImmediateChild childKey))
    else none

/-- The writes of all records, in order. -/
def pendingWrites (tree : WriteTree κ ν) : List (List κ × Contents κ ν) :=
  tree.allWrites.flatMap WriteRecord.writes

/-- The visible writes are the layered records. -/
def Layered (tree : WriteTree κ ν) : Prop := tree.visibleWrites.writes = layer tree.pendingWrites

/-- Without writes, the visible writes are none. -/
theorem layered_empty : Layered ({} : WriteTree κ ν) := CompoundWrite.writes_emptyWrite

/-- A further overwrite is laid over the visible writes. -/
theorem Layered.addOverwriteAtPath {tree : WriteTree κ ν} (h : tree.Layered) (path : List κ)
    (newData : Snap κ ν) (writeId : ℤ) : (tree.addOverwriteAtPath path newData writeId true).Layered := by
  change (tree.visibleWrites.addWrite newData path).writes =
    layer ((tree.allWrites ++ [_]).flatMap WriteRecord.writes)
  rw [CompoundWrite.writes_addWrite, h, List.flatMap_append]
  exact (layer_concat tree.pendingWrites (path, newData.contents)).symm

/-- A further merge is laid over the visible writes. -/
theorem Layered.addMergeAtPath {tree : WriteTree κ ν} (h : tree.Layered) (path : List κ)
    (changedChildren : CompoundWrite κ ν) (writeId : ℤ) :
    (tree.addMergeAtPath path changedChildren writeId).Layered := by
  change (tree.visibleWrites.addCompoundWrite changedChildren path).writes =
    layer ((tree.allWrites ++ [_]).flatMap WriteRecord.writes)
  rw [CompoundWrite.writes_addCompoundWrite, h, List.flatMap_append, layer, layer, layerOn_append]
  simp [WriteRecord.writes, WriteRecord.entries, List.map_map, Function.comp_def, pendingWrites]

/-- Rebuilding layers all records. -/
theorem writes_layerTreeFromWrites (records : List (WriteRecord κ ν)) :
    (layerTreeFromWrites records defaultFilter []).writes = layer (records.flatMap WriteRecord.writes) := by
  induction records using List.reverseRecOn with
  | nil => exact CompoundWrite.writes_emptyWrite
  | append_singleton records record ih =>
    have hstep : layerTreeFromWrites (records ++ [record]) defaultFilter [] =
        match record.data with
        | .overwrite node => (layerTreeFromWrites records defaultFilter []).addWrite node record.path
        | .merge children => (layerTreeFromWrites records defaultFilter []).addCompoundWrite children record.path := by
      rw [layerTreeFromWrites, List.foldl_append]
      cases hdata : record.data with
      | overwrite node => simp [hdata, defaultFilter, pathContains, relativePath, layerTreeFromWrites]
      | merge children => simp [hdata, defaultFilter, pathContains, relativePath, layerTreeFromWrites]
    rw [hstep, List.flatMap_append, layer, layerOn_append]
    cases hdata : record.data with
    | overwrite node =>
      simp only [CompoundWrite.writes_addWrite, ih, List.flatMap_cons, List.flatMap_nil, WriteRecord.writes,
        WriteRecord.entries, hdata]
      rfl
    | merge children =>
      simp only [CompoundWrite.writes_addCompoundWrite, ih, List.flatMap_cons, List.flatMap_nil, WriteRecord.writes,
        WriteRecord.entries, hdata, List.map_map, List.append_nil]
      rfl

/-- The visible writes that are made anew are those of the pending ones. -/
theorem Layered.resetTree (tree : WriteTree κ ν) : tree.resetTree.Layered :=
  writes_layerTreeFromWrites tree.allWrites

section RemovalLoop

variable {writeToRemove : WriteRecord κ ν} {index : ℕ} {others : List (WriteRecord κ ν × ℕ)} {overlaps : Bool}

/-- One turn of the loop: it is over for a removed write that a later one contains, and else notes an overlap. -/
theorem removalLoop_cons (current : WriteRecord κ ν) (i : ℕ) :
    removalLoop writeToRemove index ((current, i) :: others) true overlaps =
      if current.visible = true ∧ index ≤ i ∧ current.containsPath writeToRemove.path = true then (false, overlaps)
      else removalLoop writeToRemove index others true
        (overlaps || (current.visible && pathContains writeToRemove.path current.path)) := by
  have hover : removalLoop writeToRemove index others false overlaps = (false, overlaps) := by
    cases others <;> rfl
  rw [removalLoop, if_pos rfl]
  cases hvisible : current.visible with
  | false => simp
  | true =>
    by_cases hcontains : index ≤ i ∧ current.containsPath writeToRemove.path = true
    · simp [hcontains, hover]
    · cases hpath : pathContains writeToRemove.path current.path with
      | false => simp [hcontains]
      | true => simp [hcontains]

/-- The loop ends early when a later record contains the removed path. -/
theorem exists_of_removalLoop (h : (removalLoop writeToRemove index others true overlaps).1 = false) :
    ∃ other ∈ others, other.1.visible = true ∧ other.1.containsPath writeToRemove.path = true := by
  induction others generalizing overlaps with
  | nil => simp [removalLoop] at h
  | cons other rest ih =>
    obtain ⟨current, i⟩ := other
    rw [removalLoop_cons] at h
    split at h
    · rename_i hcontains
      exact ⟨(current, i), List.mem_cons_self, hcontains.1, hcontains.2.2⟩
    · obtain ⟨other, hmem, hother⟩ := ih h
      exact ⟨other, List.mem_cons_of_mem _ hmem, hother⟩

/-- A removed write that stays visible is contained in no later one. -/
theorem not_contains_of_removalLoop (h : (removalLoop writeToRemove index others true overlaps).1 = true) :
    ∀ other ∈ others, other.1.visible = true → index ≤ other.2 →
      other.1.containsPath writeToRemove.path = false := by
  induction others generalizing overlaps with
  | nil => simp
  | cons other rest ih =>
    obtain ⟨current, i⟩ := other
    rw [removalLoop_cons] at h
    split at h
    · contradiction
    · rename_i hnot
      intro other hmem hvisible hindex
      rcases List.mem_cons.mp hmem with rfl | hmem'
      · exact Bool.eq_false_iff.mpr fun hcontains => hnot ⟨hvisible, hindex, hcontains⟩
      · exact ih h other hmem' hvisible hindex

/-- Without an overlap, none was noted before and the removed path contains no visible record. -/
theorem not_prefix_of_removalLoop (h : (removalLoop writeToRemove index others true overlaps).1 = true)
    (hoverlaps : (removalLoop writeToRemove index others true overlaps).2 = false) :
    overlaps = false ∧ ∀ other ∈ others, other.1.visible = true → ¬ writeToRemove.path <+: other.1.path := by
  induction others generalizing overlaps with
  | nil => exact ⟨hoverlaps, by simp⟩
  | cons other rest ih =>
    obtain ⟨current, i⟩ := other
    rw [removalLoop_cons] at h hoverlaps
    split at h
    · contradiction
    · rename_i hnot
      rw [if_neg hnot] at hoverlaps
      obtain ⟨hnoted, hrest⟩ := ih h hoverlaps
      rw [Bool.or_eq_false_iff, Bool.and_eq_false_iff] at hnoted
      refine ⟨hnoted.1, ?_⟩
      intro other hmem hvisible
      rcases List.mem_cons.mp hmem with rfl | hmem'
      · intro hle
        rcases hnoted.2 with hhidden | hapart
        · exact absurd (hvisible.symm.trans hhidden) (by simp)
        · rw [(pathContains_iff _ _).mpr hle] at hapart
          contradiction
      · exact hrest other hmem' hvisible

end RemovalLoop

/-- The removed places are dropped one after the other. -/
theorem writes_removeWrites (visibleWrites : CompoundWrite κ ν) (record : WriteRecord κ ν) :
    (removeWrites visibleWrites record).writes =
      record.writes.foldl (fun W w => removeBelow W w.1) visibleWrites.writes := by
  unfold removeWrites WriteRecord.writes WriteRecord.entries
  cases record.data with
  | overwrite node => exact CompoundWrite.writes_removeWriteAtPath visibleWrites record.path
  | merge children =>
    dsimp only
    rw [List.map_map, List.foldl_map]
    generalize children.enumerateWrites = entries
    induction entries generalizing visibleWrites with
    | nil => rfl
    | cons entry rest ih =>
      rw [List.foldl_cons, List.foldl_cons, ih, CompoundWrite.writes_removeWriteAtPath]
      rfl

/-- The record has no write strictly below a path that it reaches from above the path. -/
def NoDeepReach (path : List κ) (record : WriteRecord κ ν) : Prop :=
  ∀ w ∈ record.writes, path <+: w.1 → path <+: record.path ∨ w.1 <+: path

/-- Removing a record leaves records that were there. -/
theorem mem_allWrites_of_removeWriteId {tree tree' : WriteTree κ ν} {writeId : ℤ} {reevaluate : Bool}
    (h : tree.removeWriteId writeId = some (reevaluate, tree')) :
    ∀ record ∈ tree'.allWrites, record ∈ tree.allWrites := by
  obtain ⟨index, -, h⟩ := Option.bind_eq_some_iff.mp h
  obtain ⟨writeToRemove, -, h⟩ := Option.map_eq_some_iff.mp h
  have hall : tree'.allWrites = tree.allWrites.eraseIdx index := by
    dsimp only at h
    split_ifs at h
    all_goals
      obtain ⟨-, rfl⟩ := Prod.mk.inj h
      rfl
  intro record hrecord
  rw [hall] at hrecord
  exact List.mem_of_mem_eraseIdx hrecord

/-- Removing the first of the records. -/
theorem removeWriteId_first {tree : WriteTree κ ν} {first : WriteRecord κ ν} {rest : List (WriteRecord κ ν)}
    (hall : tree.allWrites = first :: rest) (hvisible : first.visible = true) :
    tree.removeWriteId first.writeId =
      let loop := removalLoop first 0 rest.zipIdx.reverse true false
      some (if !loop.1 then (false, { tree with allWrites := rest })
        else if loop.2 then (true, { tree with allWrites := rest }.resetTree)
        else (true, { tree with allWrites := rest, visibleWrites := removeWrites tree.visibleWrites first })) := by
  have hindex : tree.allWrites.findIdx? (fun record => record.writeId = first.writeId) = some 0 := by
    rw [hall, List.findIdx?_cons]
    simp
  rw [removeWriteId, hindex, Option.bind_some, hall]
  simp [hvisible]

/-- The last identifier of a rebuilt tree is that of a record, or the one before the first. -/
theorem lastWriteId_resetTree (tree : WriteTree κ ν) :
    tree.resetTree.lastWriteId = -1 ∨ ∃ record ∈ tree.allWrites, tree.resetTree.lastWriteId = record.writeId := by
  rw [resetTree]
  cases hlast : tree.allWrites.getLast? with
  | none => exact .inl rfl
  | some record => exact .inr ⟨record, List.mem_of_getLast? hlast, rfl⟩

/-- The first record can be removed, and views need not reevaluate only where a later write contains its path. -/
theorem exists_removeWriteId_first {tree : WriteTree κ ν} {first : WriteRecord κ ν} {rest : List (WriteRecord κ ν)}
    (hall : tree.allWrites = first :: rest) (hvisible : first.visible = true) :
    ∃ reevaluate tree', tree.removeWriteId first.writeId = some (reevaluate, tree') ∧ tree'.allWrites = rest ∧
      (reevaluate = false → ∃ w ∈ tree'.pendingWrites, w.1 <+: first.path) ∧
      (tree'.lastWriteId = tree.lastWriteId ∨ tree'.lastWriteId = -1 ∨
        ∃ record ∈ rest, tree'.lastWriteId = record.writeId) := by
  rw [removeWriteId_first hall hvisible]
  dsimp only
  cases hshown : (removalLoop first 0 rest.zipIdx.reverse true false).1 with
  | false =>
    refine ⟨_, _, rfl, rfl, fun _ => ?_, .inl rfl⟩
    obtain ⟨⟨other, i⟩, hin, -, hcontains⟩ := exists_of_removalLoop hshown
    have hother : other ∈ rest := List.fst_mem_of_mem_zipIdx (List.mem_reverse.mp hin)
    obtain ⟨w, hw, hle⟩ := (other.containsPath_iff first.path).mp hcontains
    exact ⟨w, List.mem_flatMap.mpr ⟨other, hother, hw⟩, hle⟩
  | true =>
    cases (removalLoop first 0 rest.zipIdx.reverse true false).2 with
    | true => exact ⟨_, _, rfl, rfl, by simp, .inr (lastWriteId_resetTree { tree with allWrites := rest })⟩
    | false => exact ⟨_, _, rfl, rfl, by simp, .inl rfl⟩

/-- A removed first record has no place among the layered writes that are not below its path. -/
theorem removeBelow_layer_writes (record : WriteRecord κ ν) :
    removeBelow (layer record.writes) record.path = removeBelow (fun _ => none) record.path := by
  funext q
  by_cases hle : record.path <+: q
  · obtain ⟨r, rfl⟩ := hle
    rw [removeBelow_append, removeBelow_append]
  · rw [removeBelow_of_not _ hle, removeBelow_of_not _ hle]
    cases hq : layer record.writes q with
    | none => rfl
    | some v =>
      obtain ⟨w, hw, rfl⟩ := List.mem_map.mp ((layerOn_support hq).resolve_right (by simp))
      exact absurd (WriteRecord.path_prefix_of_mem_writes hw) hle

/-- Removing the first record leaves the layering of the others. -/
theorem Layered.removeFirst {tree tree' : WriteTree κ ν} (h : tree.Layered) {first : WriteRecord κ ν}
    {rest : List (WriteRecord κ ν)} (hall : tree.allWrites = first :: rest)
    (hvisible : ∀ record ∈ tree.allWrites, record.visible = true)
    (hreach : ∀ record ∈ rest, NoDeepReach first.path record) {reevaluate : Bool}
    (hremove : tree.removeWriteId first.writeId = some (reevaluate, tree')) :
    tree'.Layered ∧ tree'.allWrites = rest := by
  have hfirst : first.visible = true := hvisible first (by simp [hall])
  have hlayer : tree.visibleWrites.writes = layerOn (layer first.writes) (rest.flatMap WriteRecord.writes) := by
    rw [h, pendingWrites, hall, List.flatMap_cons, layer, layerOn_append]
    rfl
  have hmem : ∀ record ∈ rest, ∃ i, (record, i) ∈ rest.zipIdx.reverse := by
    intro record hrecord
    obtain ⟨i, hi, rfl⟩ := List.mem_iff_getElem.mp hrecord
    exact ⟨i, by simp [List.mem_zipIdx_iff_getElem?, hi]⟩
  rw [removeWriteId_first hall hfirst, Option.some.injEq] at hremove
  cases hshown : (removalLoop first 0 rest.zipIdx.reverse true false).1 with
  | false =>
    rw [hshown] at hremove
    obtain ⟨-, rfl⟩ := Prod.mk.inj hremove
    refine ⟨?_, rfl⟩
    obtain ⟨⟨other, i⟩, hin, -, hcontains⟩ := exists_of_removalLoop hshown
    have hother : other ∈ rest := List.fst_mem_of_mem_zipIdx (List.mem_reverse.mp hin)
    obtain ⟨w, hw, hwle⟩ := (other.containsPath_iff first.path).mp hcontains
    change tree.visibleWrites.writes = layer (rest.flatMap WriteRecord.writes)
    rw [hlayer]
    exact layerOn_eq_of_shadowed (removeBelow_layer_writes first) (independent_layer _) independent_nothing
      ⟨w, List.mem_flatMap.mpr ⟨other, hother, hw⟩, hwle⟩
  | true =>
    rw [hshown] at hremove
    cases hoverlaps : (removalLoop first 0 rest.zipIdx.reverse true false).2 with
    | true =>
      rw [hoverlaps] at hremove
      obtain ⟨-, rfl⟩ := Prod.mk.inj hremove
      exact ⟨Layered.resetTree _, rfl⟩
    | false =>
      rw [hoverlaps] at hremove
      obtain ⟨-, rfl⟩ := Prod.mk.inj hremove
      refine ⟨?_, rfl⟩
      have hapart : ∀ w ∈ first.writes, ∀ u ∈ rest.flatMap WriteRecord.writes, ¬ w.1 <+: u.1 := by
        intro w hw u hu hle
        obtain ⟨record, hrecord, hu'⟩ := List.mem_flatMap.mp hu
        obtain ⟨i, hi⟩ := hmem record hrecord
        have hseen : record.visible = true := hvisible record (by simp [hall, hrecord])
        have hpath := (WriteRecord.path_prefix_of_mem_writes hw).trans hle
        rcases hreach record hrecord u hu' hpath with hbelow | habove
        · exact (not_prefix_of_removalLoop hshown hoverlaps).2 (record, i) hi hseen hbelow
        · have hcontains := not_contains_of_removalLoop hshown (record, i) hi hseen (Nat.zero_le i)
          rw [(record.containsPath_iff first.path).mpr ⟨u, hu', habove⟩] at hcontains
          contradiction
      change (removeWrites tree.visibleWrites first).writes = layer (rest.flatMap WriteRecord.writes)
      rw [writes_removeWrites, hlayer, foldl_removeBelow_layerOn _ _ _ hapart]
      have hnone : first.writes.foldl (fun W w => removeBelow W w.1) (layer first.writes) = fun _ => none := by
        apply foldl_removeBelow_layer
        intro q v hq
        obtain ⟨w, hw, rfl⟩ := List.mem_map.mp ((layerOn_support hq).resolve_right (by simp))
        exact ⟨w, hw, List.prefix_rfl⟩
      rw [hnone]
      rfl

end WriteTree

end LoveCoupons
