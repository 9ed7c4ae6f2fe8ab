import LoveCoupons.WriteTree
import LoveCoupons.Lib.Shown

/-!
# Event caches computed from pending writes

A view at a path asks the write tree what its users should see, given what the server has
sent. Every computation of the write tree gives contents that show the pending writes over
the server's data, whether it uses a write that covers the whole view, the writes below it,
or only the server's data.
-/

namespace LoveCoupons

open KeyedTree PathContents

variable {κ ν : Type} [DecidableEq κ]

/-- `FWriteTreeRef`: the write tree as seen from a path. -/
structure WriteTreeRef (κ ν : Type) [DecidableEq κ] where
  path : List κ
  writeTree : WriteTree κ ν

namespace WriteTreeRef

/-- `-[FWriteTreeRef calculateCompleteEventCacheWithCompleteServerCache:]`. -/
def calculateCompleteEventCache (writes : WriteTreeRef κ ν) (completeServerCache : Option (Snap κ ν)) :
    Option (Snap κ ν) :=
  writes.writeTree.calculateCompleteEventCacheAtPath writes.path completeServerCache

/-- `-[FWriteTreeRef calculateCompleteEventChildrenWithCompleteServerChildren:]`. -/
def calculateCompleteEventChildren (writes : WriteTreeRef κ ν) (completeServerChildren : Snap κ ν) : Snap κ ν :=
  writes.writeTree.calculateCompleteEventChildrenAtPath writes.path completeServerChildren

/-- `-[FWriteTreeRef calculateEventCacheAfterServerOverwriteWithChildPath:existingEventSnap:existingServerSnap:]`. -/
def calculateEventCacheAfterServerOverwrite (writes : WriteTreeRef κ ν) (childPath : List κ)
    (existingServerSnap : Snap κ ν) : Option (Snap κ ν) :=
  writes.writeTree.calculateEventCacheAfterServerOverwriteAtPath writes.path childPath existingServerSnap

/-- `-[FWriteTreeRef shadowingWriteAtPath:]`. -/
def shadowingWriteAtPath (writes : WriteTreeRef κ ν) (path : List κ) : Option (Snap κ ν) :=
  writes.writeTree.shadowingWriteAtPath (writes.path ++ path)

/-- `-[FWriteTreeRef calculateCompleteChild:cache:]`. -/
def calculateCompleteChild (writes : WriteTreeRef κ ν) (childKey : κ) (existingServerCache : CacheNode κ ν) :
    Option (Snap κ ν) :=
  writes.writeTree.calculateCompleteChildAtPath writes.path childKey existingServerCache

/-- `-[FWriteTreeRef childWriteTreeRef:]`. -/
def childWriteTreeRef (writes : WriteTreeRef κ ν) (childKey : κ) : WriteTreeRef κ ν :=
  ⟨writes.path ++ [childKey], writes.writeTree⟩

end WriteTreeRef

section Computed

variable {D : List κ → Prop} {tree : WriteTree κ ν}

/-- Every pending write fits the parents. -/
def WriteTree.FitsAll (D : List κ → Prop) (tree : WriteTree κ ν) : Prop :=
  ∀ w ∈ tree.pendingWrites, Fits D w.1 w.2

/-- A place is covered exactly when a pending write is at or above it. -/
theorem WriteTree.Layered.covered_iff (h : tree.Layered) (path : List κ) :
    Covered tree.visibleWrites.writes path ↔ ∃ w ∈ tree.pendingWrites, w.1 <+: path := by
  rw [h, covered_layer]

/-- A write that covers a view is what the view shows. -/
theorem shows_completeNodeAtPath (h : tree.Layered) (hfits : tree.FitsAll D) {path : List κ}
    {complete : Snap κ ν} (hcomplete : tree.visibleWrites.completeNodeAtPath path = some complete)
    (server : Contents κ ν) : Shows D tree.pendingWrites path server complete.contents := by
  obtain ⟨r, s, v, rfl, hr, hcontents⟩ := CompoundWrite.completeNodeAtPath_eq_some hcomplete
  rw [h] at hr
  rw [hcontents]
  constructor
  · intro q hq
    rw [List.append_assoc] at hq
    exact (layer_written hfits hr).1 hq
  · intro q hq
    rw [List.append_assoc] at hq ⊢
    exact ((layer_written hfits hr).2 hq _).symm

/-- Applying the writes below a view to the server's data gives what the view shows. -/
theorem shows_applyToNode (h : tree.Layered) (hfits : tree.FitsAll D) {path : List κ} {node : Snap κ ν}
    (hclean : Clean D path node.contents) : Shows D tree.pendingWrites path node.contents
      ((tree.visibleWrites.childCompoundWriteAtPath path).applyToNode node).contents := by
  let whole : Snap κ ν := Snap.emptyNode.updateChild path node
  have hwhole : (whole.getChild path).contents = node.contents := by
    funext q
    simp [whole, below]
  have hsame : ((tree.visibleWrites.childCompoundWriteAtPath path).applyToNode node).contents =
      below (tree.visibleWrites.applyToNode whole).contents path := by
    rw [← CompoundWrite.applyToNode_childCompoundWriteAtPath]
    have hover := (tree.visibleWrites.childCompoundWriteAtPath path).overlays_applyToNode (whole.getChild path)
    rw [hwhole] at hover
    exact ((tree.visibleWrites.childCompoundWriteAtPath path).overlays_applyToNode node).unique hover
  have hover := tree.visibleWrites.overlays_applyToNode whole
  rw [h] at hover
  have hplace : ∀ q, whole.contents (path ++ q) = node.contents q := by
    intro q
    simp [whole]
  rw [hsame]
  constructor
  · intro q hq
    exact hover.none_of_parent hfits hq ((hplace q).trans (hclean q hq))
  · intro q hq
    have hlatest := hover.eq_latest hfits hq
    rwa [hplace] at hlatest

/-- A compound write without writes changes nothing. -/
theorem CompoundWrite.applyToNode_of_isEmpty {compoundWrite : CompoundWrite κ ν}
    (h : compoundWrite.isEmpty = true) (node : Snap κ ν) :
    (compoundWrite.applyToNode node).contents = node.contents := by
  have hwrites : compoundWrite.writes = fun _ => none := by
    rw [CompoundWrite.writes, ImmutableTree.eq_empty_of_isEmpty h, treeWrites_empty]
  have hover := compoundWrite.overlays_applyToNode node
  rw [hwrites] at hover
  exact hover.unique (overlays_nothing node.contents)

/-- The complete event cache of a view with complete server data. -/
theorem shows_calculateCompleteEventCache (h : tree.Layered) (hfits : tree.FitsAll D) {path : List κ}
    {server : Snap κ ν} (hclean : Clean D path server.contents) :
    ∃ event, tree.calculateCompleteEventCacheAtPath path (some server) = some event ∧
      Shows D tree.pendingWrites path server.contents event.contents := by
  unfold WriteTree.calculateCompleteEventCacheAtPath
  simp only [Option.isNone_none, Bool.not_false, Bool.and_self, if_true]
  split
  · rename_i complete hcomplete
    exact ⟨complete, rfl, shows_completeNodeAtPath h hfits hcomplete _⟩
  · have happly := shows_applyToNode h hfits hclean
    split
    · rename_i hempty
      rw [CompoundWrite.applyToNode_of_isEmpty hempty] at happly
      exact ⟨server, rfl, happly⟩
    · exact ⟨_, rfl, happly⟩

/-- After a server event at a place that no pending write covers, what a view there shows. -/
theorem shows_calculateEventCacheAfterServerOverwrite (h : tree.Layered) (hfits : tree.FitsAll D)
    {path childPath : List κ} {server event : Snap κ ν} (hclean : Clean D path server.contents)
    (hevent : tree.calculateEventCacheAfterServerOverwriteAtPath path childPath server = some event) :
    Shows D tree.pendingWrites (path ++ childPath) (below server.contents childPath) event.contents := by
  have hclean' : Clean D (path ++ childPath) (server.getChild childPath).contents := by
    rw [Snap.contents_getChild]
    exact hclean.below childPath
  have happly := shows_applyToNode h hfits hclean'
  rw [Snap.contents_getChild] at happly
  unfold WriteTree.calculateEventCacheAfterServerOverwriteAtPath at hevent
  dsimp only at hevent
  split at hevent
  · contradiction
  · split at hevent
    · rename_i hempty
      obtain rfl := Option.some.inj hevent
      rw [CompoundWrite.applyToNode_of_isEmpty hempty] at happly
      exact happly
    · obtain rfl := Option.some.inj hevent
      exact happly

/-- There is no such event cache exactly where a pending write covers the place. -/
theorem calculateEventCacheAfterServerOverwrite_eq_none (path childPath : List κ) (server : Snap κ ν) :
    tree.calculateEventCacheAfterServerOverwriteAtPath path childPath server = none ↔
      tree.visibleWrites.completeNodeAtPath (path ++ childPath) ≠ none := by
  unfold WriteTree.calculateEventCacheAfterServerOverwriteAtPath
  dsimp only
  rw [← Option.isSome_iff_ne_none]
  split
  · rename_i hcomplete
    exact iff_of_true rfl hcomplete
  · rename_i hcomplete
    refine iff_of_false ?_ hcomplete
    split <;> simp

/-- The complete child of a view whose server data is complete for it. -/
theorem shows_calculateCompleteChild (h : tree.Layered) (hfits : tree.FitsAll D) {path : List κ} {childKey : κ}
    {cache : CacheNode κ ν} (hclean : Clean D path cache.node.contents)
    (hcomplete : cache.isCompleteForChild childKey = true) :
    ∃ event, tree.calculateCompleteChildAtPath path childKey cache = some event ∧
      Shows D tree.pendingWrites (path ++ [childKey]) (below cache.node.contents [childKey]) event.contents := by
  unfold WriteTree.calculateCompleteChildAtPath
  dsimp only
  split
  · rename_i complete hshadow
    exact ⟨complete, rfl, shows_completeNodeAtPath h hfits hshadow _⟩
  · rw [if_pos hcomplete]
    have hclean' : Clean D (path ++ [childKey]) (cache.node.getImmediateChild childKey).contents := by
      rw [Snap.getImmediateChild, Snap.contents_getChild]
      exact hclean.below [childKey]
    have happly := shows_applyToNode h hfits hclean'
    rw [Snap.getImmediateChild, Snap.contents_getChild] at happly
    exact ⟨_, rfl, happly⟩

end Computed

end LoveCoupons
