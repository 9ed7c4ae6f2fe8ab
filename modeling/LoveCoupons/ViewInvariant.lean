import LoveCoupons.ViewChanges
import LoveCoupons.Lib.Stale

/-!
# What a view shows

A view whose server data is complete, or whose place a pending write covers, shows the pending
writes over the server's data. Every operation of the processor keeps this, although it
recomputes only the part of the event cache that the operation is about: what is stale when it
starts is computed anew, or covered by a pending write.
-/

namespace LoveCoupons

open KeyedTree PathContents

variable {κ ν : Type} [DecidableEq κ] [DecidableEq ν]

/-- The caches of a view are not filtered, and its server data has no value at a parent. -/
structure ViewBase (D : List κ → Prop) (path : List κ) (cache : ViewCache κ ν) : Prop where
  serverUnfiltered : cache.cachedServerSnap.isFiltered = false
  eventUnfiltered : cache.cachedEventSnap.isFiltered = false
  clean : Clean D path cache.cachedServerSnap.node.contents

/-- The caches of a view show the pending writes over the server's data, except at stale places. -/
structure ViewOk (D : List κ → Prop) (tree : WriteTree κ ν) (path : List κ) (stale : List κ → Prop)
    (cache : ViewCache κ ν) : Prop extends ViewBase D path cache where
  shows : cache.cachedServerSnap.isFullyInitialized = true ∨ (∃ w ∈ tree.pendingWrites, w.1 <+: path) →
    cache.cachedEventSnap.isFullyInitialized = true ∧
      ShowsExcept stale D tree.pendingWrites path cache.cachedServerSnap.node.contents
        cache.cachedEventSnap.node.contents

open ViewProcessor

variable {D stale : List κ → Prop} {tree : WriteTree κ ν} {path : List κ} {cache : ViewCache κ ν}

section Cover

omit [DecidableEq ν]

/-- A place is shadowed exactly when a pending write covers it. -/
theorem shadowingWriteAtPath_iff (h : tree.Layered) (path place : List κ) :
    ((WriteTreeRef.mk path tree).shadowingWriteAtPath place).isSome = true ↔
      ∃ w ∈ tree.pendingWrites, w.1 <+: path ++ place := by
  rw [← h.covered_iff, Option.isSome_iff_ne_none, Ne, WriteTreeRef.shadowingWriteAtPath,
    WriteTree.shadowingWriteAtPath, CompoundWrite.completeNodeAtPath_eq_none, not_not]

/-- A pending write that covers a place covers what is below it. -/
theorem covered_append {place other : List κ} (hle : place <+: other)
    (h : ∃ w ∈ tree.pendingWrites, w.1 <+: path ++ place) : ∃ w ∈ tree.pendingWrites, w.1 <+: path ++ other := by
  obtain ⟨w, hw, hwle⟩ := h
  exact ⟨w, hw, hwle.trans ((List.prefix_append_right_inj path).mpr hle)⟩

/-- Where a pending write covers the view, it covers all of its places. -/
theorem covered_below (h : ∃ w ∈ tree.pendingWrites, w.1 <+: path) (q : List κ) :
    ∃ w ∈ tree.pendingWrites, w.1 <+: path ++ q :=
  covered_append (List.nil_prefix) (by simpa using h)

/-- Fewer places may be stale when the others are covered. -/
theorem ViewOk.mono {fewer : List κ → Prop} (h : ViewOk D tree path stale cache)
    (himp : ∀ q, stale q → fewer q ∨ ∃ w ∈ tree.pendingWrites, w.1 <+: path ++ q) :
    ViewOk D tree path fewer cache where
  toViewBase := h.toViewBase
  shows := fun hcase => ⟨(h.shows hcase).1, (h.shows hcase).2.mono himp⟩

/-- Stale places below a covered one need not be counted. -/
theorem ViewOk.of_covered (h : ViewOk D tree path stale cache) {place : List κ}
    (hcov : ∃ w ∈ tree.pendingWrites, w.1 <+: path ++ place) :
    ViewOk D tree path (fun q => stale q ∧ ¬ place <+: q) cache := by
  apply h.mono
  intro q hq
  by_cases hle : place <+: q
  · exact .inr (covered_append hle hcov)
  · exact .inl ⟨hq, hle⟩

/-- A view of which nothing is known to be complete has no stale places, or only covered ones. -/
theorem ViewOk.of_incomplete (h : ViewOk D tree path stale cache)
    (hincomplete : cache.cachedServerSnap.isFullyInitialized = false) (fewer : List κ → Prop) :
    ViewOk D tree path fewer cache where
  toViewBase := h.toViewBase
  shows := by
    intro hcase
    have hcov := hcase.resolve_left (by simp [hincomplete])
    exact ⟨(h.shows hcase).1, (h.shows hcase).2.mono fun q _ => .inr (covered_below hcov q)⟩

/-- New server data at a place makes the view stale there. -/
theorem ViewOk.updateServerSnap (h : ViewOk D tree path stale cache) {place : List κ} {n : Contents κ ν}
    (hfits : Fits D (path ++ place) n) {newSnap : Snap κ ν}
    (hnew : newSnap.contents = write cache.cachedServerSnap.node.contents place n) :
    ViewOk D tree path (fun q => stale q ∨ place <+: q)
      (cache.updateServerSnap newSnap cache.cachedServerSnap.isFullyInitialized false) where
  serverUnfiltered := rfl
  eventUnfiltered := h.eventUnfiltered
  clean := by
    change Clean D path newSnap.contents
    rw [hnew]
    exact h.clean.write hfits.inside
  shows := by
    intro hcase
    refine ⟨(h.shows hcase).1, ?_⟩
    change ShowsExcept _ D _ path newSnap.contents cache.cachedEventSnap.node.contents
    rw [hnew]
    exact (h.shows hcase).2.serverWrite hfits

end Cover

section Base

omit [DecidableEq ν] in
/-- The writes of a merge are below its path. -/
theorem writes_actualMerge (children : CompoundWrite κ ν) (mergePath q : List κ) (n : Contents κ ν) :
    (actualMerge children mergePath).writes q = some n ↔
      ∃ k, q = mergePath ++ k ∧ children.writes k = some n := by
  unfold actualMerge
  split
  · rename_i hnil
    rw [List.isEmpty_iff.mp hnil]
    simp
  · exact CompoundWrite.writes_addCompoundWrite_emptyWrite children mergePath q n

omit [DecidableEq ν] in
/-- The server's data of a child with the merge applied to it. -/
theorem clean_childCompoundWrite {node : Snap κ ν} (h : Clean D path node.contents) {mergePath : List κ}
    {children : CompoundWrite κ ν}
    (hmerge : ∀ k n, children.writes k = some n → Clean D (path ++ (mergePath ++ k)) n)
    (entry : κ × CompoundWrite κ ν) (hentry : entry ∈ (actualMerge children mergePath).childCompoundWrites) :
    Clean D (path ++ [entry.1]) (entry.2.applyToNode (node.getImmediateChild entry.1)).contents := by
  obtain ⟨hchild, -⟩ := CompoundWrite.mem_childCompoundWrites hentry
  have hover := entry.2.overlays_applyToNode (node.getImmediateChild entry.1)
  rw [Snap.getImmediateChild, Snap.contents_getChild] at hover
  refine (h.below [entry.1]).overlays ?_ hover
  intro k n hk
  rw [hchild, CompoundWrite.writes_subtree] at hk
  obtain ⟨k', hplace, hk'⟩ := (writes_actualMerge children mergePath _ n).mp hk
  rw [List.append_assoc, hplace]
  exact hmerge k' n hk'

/-- An event cache computed anew after a server event stays unfiltered. -/
theorem generate_isFiltered (h : cache.cachedEventSnap.isFiltered = false) (changePath : List κ)
    (writesCache : WriteTreeRef κ ν) :
    (generateEventCacheAfterServerEvent cache changePath writesCache).1.cachedEventSnap.isFiltered = false := by
  unfold generateEventCacheAfterServerEvent
  dsimp only
  split
  · exact h
  · split
    · rfl
    · split <;> rfl

/-- The server's new data of a child is taken in. -/
theorem ViewBase.applyServerOverwriteTo (h : ViewBase D path cache) {childKey : κ} {snap : Snap κ ν}
    (hclean : Clean D (path ++ [childKey]) snap.contents) (writesCache : WriteTreeRef κ ν) :
    ViewBase D path (applyServerOverwriteTo cache [childKey] snap writesCache).1 ∧
      (applyServerOverwriteTo cache [childKey] snap writesCache).1.cachedServerSnap.isFullyInitialized =
        cache.cachedServerSnap.isFullyInitialized := by
  have hwritten := contents_updateChildIn_updateChild cache.cachedServerSnap.node childKey [] snap
  unfold ViewProcessor.applyServerOverwriteTo
  dsimp only
  rw [if_neg (by simp)]
  refine ⟨⟨?_, ?_, ?_⟩, ?_⟩
  · rw [generate_cachedServerSnap]
    rfl
  · apply generate_isFiltered
    exact h.eventUnfiltered
  · rw [generate_cachedServerSnap]
    change Clean D path (Snap.contents (updateChildIn _ _ _ _).1)
    rw [hwritten]
    exact h.clean.write hclean
  · rw [generate_cachedServerSnap]
    rfl

/-- The server's new data of several places is taken in. -/
theorem ViewBase.applyServerMergeTo (h : ViewBase D path cache) {mergePath : List κ}
    {children : CompoundWrite κ ν}
    (hmerge : ∀ k n, children.writes k = some n → Clean D (path ++ (mergePath ++ k)) n)
    (writesCache : WriteTreeRef κ ν) :
    ViewBase D path (applyServerMergeTo cache mergePath children writesCache).1 ∧
      (applyServerMergeTo cache mergePath children writesCache).1.cachedServerSnap.isFullyInitialized =
        cache.cachedServerSnap.isFullyInitialized := by
  have hfold : ∀ (entries : List (κ × CompoundWrite κ ν)) (processed : Processed κ ν),
      entries ⊆ (actualMerge children mergePath).childCompoundWrites →
      ViewBase D path processed.1 ∧ processed.1.cachedServerSnap.isFullyInitialized =
        cache.cachedServerSnap.isFullyInitialized →
      ViewBase D path (entries.foldl (fun processed entry => andThen processed fun curViewCache =>
          ViewProcessor.applyServerOverwriteTo curViewCache [entry.1]
            (entry.2.applyToNode (cache.cachedServerSnap.node.getImmediateChild entry.1)) writesCache)
        processed).1 ∧ (entries.foldl (fun processed entry => andThen processed fun curViewCache =>
          ViewProcessor.applyServerOverwriteTo curViewCache [entry.1]
            (entry.2.applyToNode (cache.cachedServerSnap.node.getImmediateChild entry.1)) writesCache)
        processed).1.cachedServerSnap.isFullyInitialized = cache.cachedServerSnap.isFullyInitialized := by
    intro entries
    induction entries with
    | nil => exact fun processed _ hprocessed => hprocessed
    | cons entry rest ih =>
      intro processed hsub hprocessed
      have hclean := clean_childCompoundWrite h.clean hmerge entry (hsub (by simp))
      have hnext := hprocessed.1.applyServerOverwriteTo hclean writesCache
      exact ih _ (fun entry hentry => hsub (by simp [hentry])) ⟨hnext.1, hnext.2.trans hprocessed.2⟩
  unfold ViewProcessor.applyServerMergeTo
  dsimp only
  split
  · exact ⟨h, rfl⟩
  · exact hfold _ _ (List.filter_subset_self _) (hfold _ _ (List.filter_subset_self _) ⟨h, rfl⟩)

end Base

section Affected

omit [DecidableEq ν]

/-- The places affected by a write lie apart. -/
structure Affected (affectedTree : ImmutableTree κ Bool) : Prop where
  distinctKeys : affectedTree.DistinctKeys
  independent : ∀ p q, affectedTree.valueAtPath p ≠ none → affectedTree.valueAtPath (p ++ q) ≠ none → q = []

/-- The affected places are the ones that are enumerated. -/
theorem Affected.mem_forEach {affectedTree : ImmutableTree κ Bool} (h : Affected affectedTree) (k : List κ) :
    (∃ flag, (k, flag) ∈ affectedTree.forEach) ↔ affectedTree.valueAtPath k ≠ none := by
  rw [← Option.isSome_iff_ne_none, Option.isSome_iff_exists]
  exact exists_congr fun flag => ImmutableTree.mem_forEach_iff h.distinctKeys k flag

/-- The enumerated places lie apart. -/
theorem Affected.pairwise {affectedTree : ImmutableTree κ Bool} (h : Affected affectedTree) :
    affectedTree.forEach.Pairwise fun first second => Apart first.1 second.1 := by
  have hnodup := List.pairwise_map.mp (ImmutableTree.nodup_forEach h.distinctKeys)
  refine hnodup.imp_of_mem ?_
  intro first second hfirst hsecond hne
  have hfirst' := (h.mem_forEach first.1).mp ⟨first.2, hfirst⟩
  have hsecond' := (h.mem_forEach second.1).mp ⟨second.2, hsecond⟩
  constructor
  · rintro ⟨r, hr⟩
    obtain rfl := h.independent first.1 r hfirst' (hr ▸ hsecond')
    exact hne (by simpa using hr)
  · rintro ⟨r, hr⟩
    obtain rfl := h.independent second.1 r hsecond' (hr ▸ hfirst')
    exact hne (by simpa using hr.symm)

/-- The server's data at the affected places, collected where it is known. -/
theorem writes_affected {affectedTree : ImmutableTree κ Bool} (h : Affected affectedTree) (known : List κ → Bool)
    (data : List κ → Snap κ ν) (k : List κ) (n : Contents κ ν) :
    (affectedTree.forEach.foldl (fun (changedChildren : CompoundWrite κ ν) affected =>
      if known affected.1 then changedChildren.addWrite (data affected.1) affected.1 else changedChildren)
      .emptyWrite).writes k = some n ↔
      affectedTree.valueAtPath k ≠ none ∧ known k = true ∧ (data k).contents = n := by
  rw [← List.foldl_filter, ← List.foldl_map (f := fun affected : List κ × Bool => (affected.1, data affected.1))
    (g := fun (changedChildren : CompoundWrite κ ν) entry => changedChildren.addWrite entry.2 entry.1)]
  have hapart : ((affectedTree.forEach.filter fun affected => known affected.1).map
      fun affected => (affected.1, data affected.1)).Pairwise fun first second => Apart first.1 second.1 :=
    List.pairwise_map.mpr (h.pairwise.filter _)
  refine (CompoundWrite.writes_collect hapart k n).trans ?_
  rw [← h.mem_forEach]
  constructor
  · rintro ⟨node, hnode, rfl⟩
    obtain ⟨affected, haffected, heq⟩ := List.mem_map.mp hnode
    obtain ⟨rfl, rfl⟩ := Prod.mk.inj heq
    obtain ⟨hmem, hknown⟩ := List.mem_filter.mp haffected
    exact ⟨⟨affected.2, hmem⟩, hknown, rfl⟩
  · rintro ⟨⟨flag, hmem⟩, hknown, rfl⟩
    exact ⟨data k, List.mem_map.mpr ⟨(k, flag), List.mem_filter.mpr ⟨hmem, hknown⟩, rfl⟩, rfl⟩

/-- The server's children, collected. -/
theorem writes_children (node : Snap κ ν) (k : List κ) (n : Contents κ ν) :
    (node.children.foldl (fun (changedChildren : CompoundWrite κ ν) child =>
      changedChildren.addWriteAtKey child.2 child.1) .emptyWrite).writes k = some n →
      ∃ key, k = [key] ∧ n = below node.contents [key] := by
  have hapart : (node.children.map fun child => ([child.1], child.2)).Pairwise
      fun first second => Apart first.1 second.1 := by
    rw [List.pairwise_map]
    refine (List.pairwise_map.mp node.nodup_children).imp ?_
    intro first second hne
    simp [Apart, hne, Ne.symm hne]
  intro hk
  have hcollect : (node.children.foldl (fun (changedChildren : CompoundWrite κ ν) child =>
      changedChildren.addWriteAtKey child.2 child.1) .emptyWrite) =
      CompoundWrite.collect (node.children.map fun child => ([child.1], child.2)) := by
    rw [CompoundWrite.collect, List.foldl_map]
    rfl
  rw [hcollect, CompoundWrite.writes_collect hapart] at hk
  obtain ⟨snap, hsnap, rfl⟩ := hk
  obtain ⟨child, hchild, heq⟩ := List.mem_map.mp hsnap
  obtain ⟨rfl, rfl⟩ := Prod.mk.inj heq
  obtain ⟨-, hnode⟩ := (node.mem_children_iff child.1 child.2).mp hchild
  exact ⟨child.1, rfl, by rw [hnode, Snap.getImmediateChild, Snap.contents_getChild]⟩

end Affected

/-- Taking in once more the children that a view without complete data has. -/
theorem ViewOk.applyServerMergeTo_children (h : ViewOk D tree path stale cache)
    (hincomplete : cache.cachedServerSnap.isFullyInitialized = false)
    (hfree : ¬ ∃ w ∈ tree.pendingWrites, w.1 <+: path) (fewer : List κ → Prop) :
    ViewOk D tree path fewer (ViewProcessor.applyServerMergeTo cache [] (cache.cachedServerSnap.node.children.foldl
      (fun (changedChildren : CompoundWrite κ ν) child => changedChildren.addWriteAtKey child.2 child.1)
      .emptyWrite) ⟨path, tree⟩).1 := by
  have hchildren : ∀ k n, (cache.cachedServerSnap.node.children.foldl
      (fun (changedChildren : CompoundWrite κ ν) child => changedChildren.addWriteAtKey child.2 child.1)
      .emptyWrite).writes k = some n → Clean D (path ++ ([] ++ k)) n := by
    intro k n hk
    obtain ⟨key, rfl, rfl⟩ := writes_children cache.cachedServerSnap.node k n hk
    exact h.clean.below [key]
  obtain ⟨hbase, hsame⟩ := h.toViewBase.applyServerMergeTo hchildren ⟨path, tree⟩
  refine ⟨hbase, ?_⟩
  rintro (hfull | hcov)
  · rw [hsame, hincomplete] at hfull
    contradiction
  · exact absurd hcov hfree

section Server

variable (hlayered : tree.Layered) (hfits : tree.FitsAll D)

include hlayered hfits

/-- A server event at a place below the view brings what the view shows there up to date. -/
theorem ViewOk.generateChild (h : ViewOk D tree path stale cache) (childKey : κ) (rest : List κ)
    (hreached : Reached D (path ++ childKey :: rest)) :
    ViewOk D tree path (fun q => stale q ∧ ¬ childKey :: rest <+: q)
      (generateEventCacheAfterServerEvent cache (childKey :: rest) ⟨path, tree⟩).1 := by
  unfold generateEventCacheAfterServerEvent
  dsimp only
  split
  · rename_i hshadow
    exact h.of_covered ((shadowingWriteAtPath_iff hlayered path _).mp hshadow)
  · rename_i hshadow
    have hfree : ¬ ∃ w ∈ tree.pendingWrites, w.1 <+: path ++ childKey :: rest := fun hcov =>
      hshadow ((shadowingWriteAtPath_iff hlayered path _).mpr hcov)
    split
    · rename_i newEventChild hchild
      refine ⟨⟨h.serverUnfiltered, rfl, h.clean⟩, fun hcase => ?_⟩
      obtain ⟨hcomplete, hshows⟩ := h.shows hcase
      have hknown := CacheNode.isCompleteForChild_of_complete hcomplete h.eventUnfiltered childKey
      rw [if_pos hknown] at hchild
      split at hchild
      · rename_i update hupdate
        obtain rfl := Option.some.inj hchild
        have hpart := shows_calculateEventCacheAfterServerOverwrite hlayered hfits h.clean hupdate
        refine ⟨hcomplete, ?_⟩
        have hwritten := hshows.recompute hreached hpart
        rw [← contents_updateChildIn_updateChild] at hwritten
        exact hwritten
      · rename_i hnone
        rw [WriteTreeRef.calculateEventCacheAfterServerOverwrite,
          calculateEventCacheAfterServerOverwrite_eq_none, Ne, CompoundWrite.completeNodeAtPath_eq_none,
          not_not, hlayered.covered_iff] at hnone
        exact absurd hnone hfree
    · rename_i hchild
      refine ⟨⟨h.serverUnfiltered, rfl, h.clean⟩, fun hcase => ?_⟩
      obtain ⟨hcomplete, hshows⟩ := h.shows hcase
      have hknown := CacheNode.isCompleteForChild_of_complete hcomplete h.eventUnfiltered childKey
      rw [if_pos hknown] at hchild
      split at hchild <;> contradiction

/-- New complete server data of the view brings all that it shows up to date. -/
theorem ViewOk.generateRoot (h : ViewOk D tree path stale cache) {snap : Snap κ ν}
    (hclean : Clean D path snap.contents) (fewer : List κ → Prop) :
    ViewOk D tree path fewer
      (generateEventCacheAfterServerEvent (cache.updateServerSnap snap true false) [] ⟨path, tree⟩).1 := by
  unfold generateEventCacheAfterServerEvent
  dsimp only
  split
  · rename_i hshadow
    have hcov := (shadowingWriteAtPath_iff hlayered path _).mp hshadow
    rw [List.append_nil] at hcov
    obtain ⟨hcomplete, hshows⟩ := h.shows (.inr hcov)
    exact ⟨⟨rfl, h.eventUnfiltered, hclean⟩, fun _ => ⟨hcomplete, (hshows.congr hcov).except fewer⟩⟩
  · obtain ⟨event, hevent, hshows⟩ := shows_calculateCompleteEventCache hlayered hfits hclean
    have hnode : nodeWithLocalWrites ⟨path, tree⟩ (cache.updateServerSnap snap true false) = event := by
      simp [nodeWithLocalWrites, ViewCache.completeServerSnap, ViewCache.updateServerSnap,
        WriteTreeRef.calculateCompleteEventCache, hevent]
    refine ⟨⟨rfl, rfl, hclean⟩, fun _ => ⟨rfl, ?_⟩⟩
    rw [hnode]
    exact hshows.except fewer

/-- The server's new data at or below the view's place is taken in, and shown. -/
theorem ViewOk.applyServerOverwriteTo (h : ViewOk D tree path stale cache) (changePath : List κ)
    {snap : Snap κ ν} (hclean : Clean D (path ++ changePath) snap.contents)
    (hreached : changePath ≠ [] → Reached D (path ++ changePath)) :
    ViewOk D tree path (fun q => stale q ∧ ¬ changePath <+: q)
      (applyServerOverwriteTo cache changePath snap ⟨path, tree⟩).1 := by
  unfold ViewProcessor.applyServerOverwriteTo
  dsimp only
  split
  · rw [List.append_nil] at hclean
    exact h.generateRoot hlayered hfits hclean _
  · rename_i childKey rest
    have hfitsSnap : Fits D (path ++ childKey :: rest) snap.contents :=
      ⟨hreached (by simp), fun r hr => hclean r hr⟩
    split
    · rename_i hpartial
      have hincomplete : cache.cachedServerSnap.isFullyInitialized = false := by
        rw [Bool.and_eq_true, Bool.not_eq_true'] at hpartial
        by_contra hfull
        rw [Bool.not_eq_false] at hfull
        have hknown := CacheNode.isCompleteForPath_of_complete hfull h.serverUnfiltered (childKey :: rest)
        simp [hknown] at hpartial
      exact h.of_incomplete hincomplete _
    · have hwritten := contents_updateChildIn_updateChild cache.cachedServerSnap.node childKey rest snap
      have hmiddle := h.updateServerSnap hfitsSnap hwritten
      refine (hmiddle.generateChild hlayered hfits childKey rest hfitsSnap.above).mono ?_
      rintro q ⟨hq, hnot⟩
      exact .inl ⟨hq.resolve_right hnot, hnot⟩

/-- The server has sent all of what it has at the view's place, or at one below it. -/
theorem ViewOk.listenComplete (h : ViewOk D tree path stale cache) (changePath : List κ)
    (hreached : changePath ≠ [] → Reached D (path ++ changePath)) :
    ViewOk D tree path (fun q => stale q ∧ ¬ changePath <+: q)
      (listenComplete cache changePath ⟨path, tree⟩).1 := by
  unfold ViewProcessor.listenComplete
  dsimp only
  cases changePath with
  | nil =>
    rw [List.isEmpty_nil, Bool.or_true, h.serverUnfiltered]
    exact h.generateRoot hlayered hfits h.clean _
  | cons childKey rest =>
    rw [List.isEmpty_cons, Bool.or_false]
    exact ViewOk.generateChild hlayered hfits ⟨⟨h.serverUnfiltered, h.eventUnfiltered, h.clean⟩, h.shows⟩ childKey rest
      (hreached (by simp))

/-- The server's new data of some children is taken in one child after the other. -/
theorem ViewOk.foldl_applyServerOverwriteTo {α : Type} (entries : List α) (key : α → κ) (snap : α → Snap κ ν)
    (processed : Processed κ ν) (h : ViewOk D tree path stale processed.1)
    (hclean : ∀ entry ∈ entries, Clean D (path ++ [key entry]) (snap entry).contents)
    (hreached : ∀ entry ∈ entries, Reached D (path ++ [key entry])) :
    ViewOk D tree path (fun q => stale q ∧ ∀ entry ∈ entries, ¬ [key entry] <+: q)
      (entries.foldl (fun processed entry => andThen processed fun curViewCache =>
        ViewProcessor.applyServerOverwriteTo curViewCache [key entry] (snap entry) ⟨path, tree⟩) processed).1 := by
  induction entries generalizing stale processed with
  | nil => exact h.mono fun q hq => .inl ⟨hq, by simp⟩
  | cons entry rest ih =>
    have hfirst := h.applyServerOverwriteTo hlayered hfits [key entry] (hclean entry (by simp))
      fun _ => hreached entry (by simp)
    have hrest := ih (andThen processed fun curViewCache =>
        ViewProcessor.applyServerOverwriteTo curViewCache [key entry] (snap entry) ⟨path, tree⟩) hfirst
      (fun entry hentry => hclean entry (by simp [hentry])) fun entry hentry => hreached entry (by simp [hentry])
    refine ViewOk.mono hrest ?_
    rintro q ⟨⟨hq, hnot⟩, hothers⟩
    left
    refine ⟨hq, ?_⟩
    intro other hother
    rcases List.mem_cons.mp hother with rfl | hmem
    · exact hnot
    · exact hothers other hmem

/-- The server's new data of several places at or below the view's place is taken in, and shown. -/
theorem ViewOk.applyServerMergeTo (h : ViewOk D tree path stale cache) (mergePath : List κ)
    {children : CompoundWrite κ ν}
    (hmerge : ∀ k n, children.writes k = some n → Fits D (path ++ (mergePath ++ k)) n) :
    ViewOk D tree path (fun q => stale q ∧ ∀ k n, children.writes k = some n → mergePath ++ k ≠ [] →
        ¬ mergePath ++ k <+: q)
      (applyServerMergeTo cache mergePath children ⟨path, tree⟩).1 := by
  unfold ViewProcessor.applyServerMergeTo
  dsimp only
  split
  · rename_i hnothing
    rw [Bool.and_eq_true, Bool.not_eq_true'] at hnothing
    exact h.of_incomplete hnothing.2 _
  · have hreached : ∀ entry ∈ (actualMerge children mergePath).childCompoundWrites,
        Reached D (path ++ [entry.1]) := by
      intro entry hentry
      obtain ⟨-, rest, n, hn⟩ := CompoundWrite.mem_childCompoundWrites hentry
      obtain ⟨k, hplace, hk⟩ := (writes_actualMerge children mergePath _ n).mp hn
      have hlong := (hmerge k n hk).above
      rw [← hplace, ← List.singleton_append, ← List.append_assoc] at hlong
      exact Reached.of_append hlong
    have hclean := clean_childCompoundWrite h.clean fun k n hk => (hmerge k n hk).inside
    have hfold := fun (stale : List κ → Prop) (h : ViewOk D tree path stale cache)
        (seen others : List (κ × CompoundWrite κ ν))
        (hseen : seen ⊆ (actualMerge children mergePath).childCompoundWrites)
        (hothers : others ⊆ (actualMerge children mergePath).childCompoundWrites) =>
      ViewOk.foldl_applyServerOverwriteTo hlayered hfits others Prod.fst
        (fun entry => entry.2.applyToNode (cache.cachedServerSnap.node.getImmediateChild entry.1)) _
        (ViewOk.foldl_applyServerOverwriteTo hlayered hfits seen Prod.fst
          (fun entry => entry.2.applyToNode (cache.cachedServerSnap.node.getImmediateChild entry.1)) (cache, []) h
          (fun entry hentry => hclean entry (hseen hentry)) fun entry hentry => hreached entry (hseen hentry))
        (fun entry hentry => hclean entry (hothers hentry)) fun entry hentry => hreached entry (hothers hentry)
    cases hcomplete : cache.cachedServerSnap.isFullyInitialized with
    | false =>
      refine (hfold _ (h.of_incomplete hcomplete fun _ => False) _ _ (List.filter_subset_self _)
        (List.filter_subset_self _)).mono ?_
      rintro q ⟨⟨hnone, -⟩, -⟩
      exact absurd hnone id
    | true =>
      refine (hfold _ h _ _ (List.filter_subset_self _) (List.filter_subset_self _)).mono ?_
      rintro q ⟨⟨hq, hseen⟩, hothers⟩
      refine .inl ⟨hq, ?_⟩
      intro k n hk hne hle
      obtain ⟨key, rest, hplace⟩ := List.exists_cons_of_ne_nil hne
      have hwritten := (writes_actualMerge children mergePath (key :: rest) n).mpr ⟨k, hplace.symm, hk⟩
      have hmem := CompoundWrite.subtree_mem_childCompoundWrites hwritten
      have hbelow : [key] <+: q := by
        rw [hplace] at hle
        exact List.IsPrefix.trans (by simp) hle
      have hknown := CacheNode.isCompleteForChild_of_complete hcomplete h.serverUnfiltered key
      cases hchild : cache.cachedServerSnap.node.hasChild key with
      | true => exact hseen _ (List.mem_filter.mpr ⟨hmem, hchild⟩) hbelow
      | false => exact hothers _ (List.mem_filter.mpr ⟨hmem, by simp [hchild, hknown]⟩) hbelow

/-- Taking in once more what the view has of the places of an acknowledged update. -/
theorem ViewOk.applyServerMergeTo_affected (h : ViewOk D tree path stale cache) (ackPath : List κ)
    {affectedTree : ImmutableTree κ Bool} (haffected : Affected affectedTree)
    (hnotRoot : ∀ k, affectedTree.valueAtPath k ≠ none → ackPath ++ k ≠ [])
    (hreached : ∀ k, affectedTree.valueAtPath k ≠ none → Reached D (path ++ (ackPath ++ k)))
    (hstale : ∀ q, stale q → ∃ k, affectedTree.valueAtPath k ≠ none ∧ ackPath ++ k <+: q) :
    ViewOk D tree path (fun _ => False) (ViewProcessor.applyServerMergeTo cache ackPath
      (affectedTree.forEach.foldl (fun (changedChildren : CompoundWrite κ ν) affected =>
        if cache.cachedServerSnap.isCompleteForPath (ackPath ++ affected.1) then
          changedChildren.addWrite (cache.cachedServerSnap.node.getChild (ackPath ++ affected.1)) affected.1
        else changedChildren) .emptyWrite) ⟨path, tree⟩).1 := by
  have hwrites := writes_affected haffected
    (fun k => cache.cachedServerSnap.isCompleteForPath (ackPath ++ k))
    fun k => cache.cachedServerSnap.node.getChild (ackPath ++ k)
  have hmerge := fun stale (h : ViewOk D tree path stale cache) =>
    h.applyServerMergeTo hlayered hfits ackPath fun k n hk => by
      obtain ⟨hthere, -, rfl⟩ := (hwrites k n).mp hk
      refine ⟨hreached k hthere, ?_⟩
      rw [Snap.contents_getChild]
      exact h.clean.below (ackPath ++ k)
  cases hcomplete : cache.cachedServerSnap.isFullyInitialized with
  | false =>
    refine (hmerge _ (h.of_incomplete hcomplete fun _ => False)).mono ?_
    rintro q ⟨hnone, -⟩
    exact absurd hnone id
  | true =>
    refine (hmerge _ h).mono ?_
    rintro q ⟨hq, hnot⟩
    obtain ⟨k, hk, hle⟩ := hstale q hq
    have hknown := CacheNode.isCompleteForPath_of_complete hcomplete h.serverUnfiltered (ackPath ++ k)
    exact absurd hle (hnot k _ ((hwrites k _).mpr ⟨hk, hknown, rfl⟩) (hnotRoot k hk))

/-- An acknowledged write that is no longer pending: what the server has sent is shown in its place. -/
theorem ViewOk.ackUserWriteOn (h : ViewOk D tree path stale cache) (ackPath : List κ)
    {affectedTree : ImmutableTree κ Bool} (haffected : Affected affectedTree)
    (hreached : ∀ k, affectedTree.valueAtPath k ≠ none → ackPath ++ k ≠ [] → Reached D (path ++ (ackPath ++ k)))
    (hstale : ∀ q, stale q → ∃ k, affectedTree.valueAtPath k ≠ none ∧ ackPath ++ k <+: q) :
    ViewOk D tree path (fun _ => False) (ackUserWriteOn cache ackPath affectedTree ⟨path, tree⟩).1 := by
  have hbelow : ∀ q, stale q → ackPath <+: q := by
    intro q hq
    obtain ⟨k, -, hle⟩ := hstale q hq
    exact (List.prefix_append ackPath k).trans hle
  unfold ViewProcessor.ackUserWriteOn
  dsimp only
  split
  · rename_i hshadow
    have hcov := (shadowingWriteAtPath_iff hlayered path ackPath).mp hshadow
    exact h.mono fun q hq => .inr (covered_append (hbelow q hq) hcov)
  · rename_i hshadow
    have hfree : ¬ ∃ w ∈ tree.pendingWrites, w.1 <+: path ++ ackPath := fun hcov =>
      hshadow ((shadowingWriteAtPath_iff hlayered path ackPath).mpr hcov)
    split
    · rename_i hvalue
      rw [Option.isSome_iff_ne_none, ← ImmutableTree.valueAtPath_nil] at hvalue
      split
      · have hclean : Clean D (path ++ ackPath) (cache.cachedServerSnap.node.getChild ackPath).contents := by
          rw [Snap.contents_getChild]
          exact h.clean.below ackPath
        refine (h.applyServerOverwriteTo hlayered hfits ackPath hclean ?_).mono ?_
        · intro hne
          simpa using hreached [] hvalue (by simpa using hne)
        · rintro q ⟨hq, hnot⟩
          exact absurd (hbelow q hq) hnot
      · rename_i hunknown
        have hincomplete : cache.cachedServerSnap.isFullyInitialized = false := by
          by_contra hfull
          rw [Bool.not_eq_false] at hfull
          apply hunknown
          rw [CacheNode.isCompleteForPath_of_complete hfull h.serverUnfiltered, Bool.or_true]
        split
        · rename_i hnil
          obtain rfl := List.isEmpty_iff.mp hnil
          exact h.applyServerMergeTo_children hincomplete (by simpa using hfree) _
        · exact h.of_incomplete hincomplete _
    · rename_i hvalue
      have hnotRoot : ∀ k, affectedTree.valueAtPath k ≠ none → ackPath ++ k ≠ [] := by
        rintro k hk hnil
        obtain ⟨-, rfl⟩ := List.append_eq_nil_iff.mp hnil
        rw [ImmutableTree.valueAtPath_nil, ← Option.isSome_iff_ne_none] at hk
        exact hvalue hk
      exact h.applyServerMergeTo_affected hlayered hfits ackPath haffected hnotRoot
        (fun k hk => hreached k hk (hnotRoot k hk)) hstale

omit [DecidableEq ν] in
/-- The complete event cache of a view with complete server data. -/
theorem ViewBase.calculateCompleteEventCache (h : ViewBase D path cache)
    (hcomplete : cache.cachedServerSnap.isFullyInitialized = true) :
    Shows D tree.pendingWrites path cache.cachedServerSnap.node.contents
      (((WriteTreeRef.mk path tree).calculateCompleteEventCache
        cache.completeServerSnap).getD .emptyNode).contents := by
  obtain ⟨event, hevent, hshows⟩ := shows_calculateCompleteEventCache hlayered hfits h.clean
  rw [ViewCache.completeServerSnap, if_pos hcomplete, WriteTreeRef.calculateCompleteEventCache, hevent]
  exact hshows

/-- The child of a reverted write is computed anew. -/
theorem ViewOk.shows_revertChild (h : ViewOk D tree path stale cache)
    (hcomplete : cache.cachedServerSnap.isFullyInitialized = true) (childKey : κ) (rest : List κ)
    (hreached : Reached D (path ++ childKey :: rest)) (hstale : ∀ q, stale q → childKey :: rest <+: q) :
    Shows D tree.pendingWrites path cache.cachedServerSnap.node.contents
      (revertChild cache childKey rest ⟨path, tree⟩).1.contents := by
  have hshows := (h.shows (.inl hcomplete)).2
  have hknown := CacheNode.isCompleteForChild_of_complete hcomplete h.serverUnfiltered childKey
  obtain ⟨child, hchild, hpart⟩ := shows_calculateCompleteChild hlayered hfits h.clean hknown
  have hkey : Reached D (path ++ [childKey]) := by
    rw [← List.singleton_append, ← List.append_assoc] at hreached
    exact hreached.of_append
  have hwritten : (revertChild cache childKey rest ⟨path, tree⟩).1.contents =
      write cache.cachedEventSnap.node.contents [childKey] child.contents := by
    unfold revertChild
    rw [WriteTreeRef.calculateCompleteChild, hchild]
    apply contents_updateChildIn
    intro hagree _
    funext r
    by_cases hparent : D (path ++ childKey :: r)
    · rw [hpart.parent r (by rwa [List.append_assoc])]
      exact hshows.parent (childKey :: r) hparent
    · by_cases hle : rest <+: r
      · obtain ⟨s, rfl⟩ := hle
        exact congrFun hagree s
      · have hfresh : ¬ stale (childKey :: r) := fun hq =>
          hle (List.cons_prefix_cons.mp (hstale _ hq)).2
        have hevent := hshows.latest (childKey :: r) hparent fun hq => absurd hq hfresh
        have hnew := hpart.latest r (by rwa [List.append_assoc])
        rw [List.append_assoc] at hnew
        exact hevent.trans hnew.symm
  rw [hwritten]
  refine (hshows.recompute hkey hpart).shows ?_
  rintro q ⟨hq, hnot⟩
  exact absurd (List.IsPrefix.trans (by simp) (hstale q hq)) hnot

/-- A reverted write that is no longer pending is no longer shown. -/
theorem ViewOk.revertUserWriteOn (h : ViewOk D tree path stale cache) (revertPath : List κ)
    (hreached : revertPath ≠ [] → Reached D (path ++ revertPath)) (hstale : ∀ q, stale q → revertPath <+: q) :
    ViewOk D tree path (fun _ => False) (revertUserWriteOn cache revertPath ⟨path, tree⟩).1 := by
  unfold ViewProcessor.revertUserWriteOn
  dsimp only
  split
  · rename_i hshadow
    have hcov := (shadowingWriteAtPath_iff hlayered path revertPath).mp hshadow
    exact h.mono fun q hq => .inr (covered_append (hstale q hq) hcov)
  · rename_i hshadow
    have hfree : ¬ ∃ w ∈ tree.pendingWrites, w.1 <+: path := by
      intro hcov
      exact hshadow ((shadowingWriteAtPath_iff hlayered path revertPath).mpr (covered_below hcov revertPath))
    refine ⟨⟨h.serverUnfiltered, rfl, h.clean⟩, fun hcase => ?_⟩
    have hcomplete : cache.cachedServerSnap.isFullyInitialized = true := hcase.resolve_right hfree
    have hwhole := h.toViewBase.calculateCompleteEventCache hlayered hfits hcomplete
    refine ⟨by simp [ViewCache.updateEventSnap, hcomplete], ?_⟩
    cases revertPath with
    | nil =>
      rw [if_pos hcomplete]
      exact hwhole.except _
    | cons childKey rest =>
      have hchild := h.shows_revertChild hlayered hfits hcomplete childKey rest (hreached (by simp)) hstale
      change ShowsExcept _ D _ path _ (revertToLeaf cache _ _).1.contents
      unfold revertToLeaf
      dsimp only
      split
      · split
        · exact hwhole.except _
        · exact hchild.except _
      · exact hchild.except _

end Server

section User

/-- A user's write leaves the server's data alone. -/
theorem applyUserOverwriteTo_base (h : ViewBase D path cache) (changePath : List κ) (snap : Snap κ ν)
    (writesCache : WriteTreeRef κ ν) (optCompleteCache : Option (Snap κ ν)) :
    ViewBase D path (applyUserOverwriteTo cache changePath snap writesCache optCompleteCache).1 ∧
      (applyUserOverwriteTo cache changePath snap writesCache optCompleteCache).1.cachedServerSnap =
        cache.cachedServerSnap := by
  unfold applyUserOverwriteTo
  dsimp only
  split
  · exact ⟨⟨h.serverUnfiltered, rfl, h.clean⟩, rfl⟩
  · split
    · exact ⟨h, rfl⟩
    · exact ⟨⟨h.serverUnfiltered, rfl, h.clean⟩, rfl⟩

/-- A user's write is written into a complete event cache. -/
theorem applyUserOverwriteTo_event (hunfiltered : cache.cachedEventSnap.isFiltered = false)
    (hcomplete : cache.cachedEventSnap.isFullyInitialized = true) (changePath : List κ) (snap : Snap κ ν)
    (writesCache : WriteTreeRef κ ν) (optCompleteCache : Option (Snap κ ν)) :
    (applyUserOverwriteTo cache changePath snap writesCache optCompleteCache).1.cachedEventSnap.isFullyInitialized =
        true ∧
      (applyUserOverwriteTo cache changePath snap writesCache optCompleteCache).1.cachedEventSnap.node.contents =
        write cache.cachedEventSnap.node.contents changePath snap.contents := by
  cases changePath with
  | nil =>
    rw [write_nil]
    exact ⟨rfl, rfl⟩
  | cons childKey rest =>
    have hchild : (userChild cache childKey rest snap writesCache optCompleteCache).contents =
        write (childContents cache.cachedEventSnap.node childKey) rest snap.contents := by
      have hknown := CacheNode.isCompleteForChild_of_complete hcomplete hunfiltered childKey
      unfold userChild
      split
      · rename_i hnil
        rw [List.isEmpty_iff.mp hnil, write_nil]
      · have hsource : completeChild writesCache cache optCompleteCache childKey =
            some (cache.cachedEventSnap.node.getImmediateChild childKey) := by simp [completeChild, hknown]
        rw [hsource, Snap.contents_updateChild, childContents_eq]
    unfold applyUserOverwriteTo
    dsimp only
    split
    · rename_i hequal
      rw [Snap.isEqual_iff, hchild, childContents_eq] at hequal
      refine ⟨hcomplete, ?_⟩
      rw [← List.singleton_append, ← write_write_below cache.cachedEventSnap.node.exclusive_contents]
      change _ = write _ [childKey] (write (childContents cache.cachedEventSnap.node childKey) rest snap.contents)
      rw [← hequal]
      exact (write_below_self cache.cachedEventSnap.node.exclusive_contents [childKey]).symm
    · exact ⟨hcomplete, contents_updateChildIn_write _ _ _ hchild⟩

/-- A sequence of user's writes is written into a complete event cache. -/
theorem applyUserWrites_event (entries : List (List κ × Snap κ ν)) (writesCache : WriteTreeRef κ ν)
    (optCompleteCache : Option (Snap κ ν)) (processed : Processed κ ν) (h : ViewBase D path processed.1) :
    let result := (applyUserWrites entries writesCache optCompleteCache processed).1
    (ViewBase D path result ∧ result.cachedServerSnap = processed.1.cachedServerSnap) ∧
      (processed.1.cachedEventSnap.isFullyInitialized = true →
        result.cachedEventSnap.isFullyInitialized = true ∧
        result.cachedEventSnap.node.contents = (entries.map fun entry => (entry.1, entry.2.contents)).foldl
          (fun event u => write event u.1 u.2) processed.1.cachedEventSnap.node.contents) := by
  induction entries generalizing processed with
  | nil => exact ⟨⟨h, rfl⟩, fun hcomplete => ⟨hcomplete, rfl⟩⟩
  | cons entry rest ih =>
    have hbase := applyUserOverwriteTo_base h entry.1 entry.2 writesCache optCompleteCache
    obtain ⟨hserver, hevent⟩ := ih (andThen processed fun curViewCache =>
      applyUserOverwriteTo curViewCache entry.1 entry.2 writesCache optCompleteCache) hbase.1
    refine ⟨⟨hserver.1, hserver.2.trans hbase.2⟩, fun hcomplete => ?_⟩
    have hfirst := applyUserOverwriteTo_event h.eventUnfiltered hcomplete entry.1 entry.2 writesCache
      optCompleteCache
    obtain ⟨hresult, hcontents⟩ := hevent hfirst.1
    refine ⟨hresult, hcontents.trans ?_⟩
    rw [List.map_cons, List.foldl_cons, ← hfirst.2]
    rfl

/-- In a view with a complete event cache, the places of an update are written in order. -/
theorem applyUserMergeTo_of_complete (hunfiltered : cache.cachedEventSnap.isFiltered = false)
    (hcomplete : cache.cachedEventSnap.isFullyInitialized = true) (mergePath : List κ)
    (children : CompoundWrite κ ν) (writesCache : WriteTreeRef κ ν) (serverCache : Option (Snap κ ν)) :
    applyUserMergeTo cache mergePath children writesCache serverCache =
      applyUserWrites (children.enumerateWrites.map fun entry => (mergePath ++ entry.1, entry.2)) writesCache
        serverCache (cache, []) := by
  have hinView : ∀ entry : List κ × Snap κ ν, cacheHasChild cache entry.1.head? = true := by
    intro entry
    cases entry.1.head? with
    | none => simp [cacheHasChild, hcomplete, hunfiltered]
    | some childKey => exact CacheNode.isCompleteForChild_of_complete hcomplete hunfiltered childKey
  simp only [applyUserMergeTo, hinView, List.filter_true, Bool.not_true, List.filter_false]
  rfl

/-- An update that is a write of the whole view replaces what it shows. -/
theorem applyUserMergeTo_of_root {children : CompoundWrite κ ν} {node : Snap κ ν}
    (h : ([], node) ∈ children.enumerateWrites) (writesCache : WriteTreeRef κ ν)
    (serverCache : Option (Snap κ ν)) :
    (applyUserMergeTo cache [] children writesCache serverCache).1 =
      (applyUserOverwriteTo cache [] node writesCache serverCache).1 := by
  unfold applyUserMergeTo
  rw [CompoundWrite.enumerateWrites_of_root h]
  cases hinView : cacheHasChild cache none <;> simp [hinView, applyUserWrites, andThen]

/-- Seen from the view's place, the pending writes are the old ones with some further ones. -/
structure Extended (tree tree' : WriteTree κ ν) (path : List κ) (us : List (List κ × Contents κ ν)) : Prop where
  covered : (∃ w ∈ tree'.pendingWrites, w.1 <+: path) →
    (∃ u ∈ us, u.1 = []) ∨ ∃ w ∈ tree.pendingWrites, w.1 <+: path
  latest : ∀ value q, latest (tree.pendingWrites ++ us.map fun u => (path ++ u.1, u.2)) value (path ++ q) =
    latest tree'.pendingWrites value (path ++ q)

omit [DecidableEq ν] in
/-- A view shows further pending writes when they are written into its complete event cache, or replace it. -/
theorem ViewOk.extended {tree' : WriteTree κ ν} {us : List (List κ × Contents κ ν)} {result : ViewCache κ ν}
    (h : ViewOk D tree path (fun _ => False) cache) (hextended : Extended tree tree' path us)
    (hclean : ∀ u ∈ us, Clean D (path ++ u.1) u.2) (hreached : ∀ u ∈ us, u.1 ≠ [] → Reached D (path ++ u.1))
    (hbase : ViewBase D path result ∧ result.cachedServerSnap = cache.cachedServerSnap)
    (hevent : cache.cachedEventSnap.isFullyInitialized = true →
      result.cachedEventSnap.isFullyInitialized = true ∧ result.cachedEventSnap.node.contents =
        us.foldl (fun event u => write event u.1 u.2) cache.cachedEventSnap.node.contents)
    (hroot : ∀ n, ([], n) ∈ us → us = [([], n)] ∧ result.cachedEventSnap.isFullyInitialized = true ∧
      result.cachedEventSnap.node.contents = n) :
    ViewOk D tree' path (fun _ => False) result := by
  refine ⟨hbase.1, fun hcase => ?_⟩
  rw [hbase.2] at hcase ⊢
  by_cases hwhole : ∃ u ∈ us, u.1 = []
  · obtain ⟨⟨place, n⟩, hu, rfl⟩ := hwhole
    obtain ⟨hus, hcomplete, hcontents⟩ := hroot n hu
    have hself := hclean _ hu
    have hlatest := hextended.latest
    rw [hus] at hlatest
    simp only [List.map_cons, List.map_nil, List.append_nil] at hself hlatest
    have hshows := shows_concat_self tree.pendingWrites cache.cachedServerSnap.node.contents hself
    rw [← hcontents] at hshows
    rw [← hcontents] at hlatest
    exact ⟨hcomplete, (hshows.congr_latest hlatest).except _⟩
  · have hbefore := h.shows (hcase.imp id fun hcov => (hextended.covered hcov).resolve_left hwhole)
    obtain ⟨hcomplete, hcontents⟩ := hevent hbefore.1
    have hfits : ∀ u ∈ us, Fits D (path ++ u.1) u.2 := fun u hu =>
      ⟨hreached u hu fun hnil => hwhole ⟨u, hu, hnil⟩, hclean u hu⟩
    have hshows := (hbefore.2.shows fun q hq => absurd hq id).concat_list us hfits
    rw [← hcontents] at hshows
    exact ⟨hcomplete, (hshows.congr_latest hextended.latest).except _⟩

/-- A user's overwrite at or below the view's place is shown. -/
theorem ViewOk.applyUserOverwriteTo {tree' : WriteTree κ ν} (h : ViewOk D tree path (fun _ => False) cache)
    (changePath : List κ) {snap : Snap κ ν} (hextended : Extended tree tree' path [(changePath, snap.contents)])
    (hclean : Clean D (path ++ changePath) snap.contents)
    (hreached : changePath ≠ [] → Reached D (path ++ changePath)) (writesCache : WriteTreeRef κ ν)
    (optCompleteCache : Option (Snap κ ν)) :
    ViewOk D tree' path (fun _ => False)
      (applyUserOverwriteTo cache changePath snap writesCache optCompleteCache).1 := by
  apply h.extended hextended
  · simpa using hclean
  · simpa using hreached
  · exact applyUserOverwriteTo_base h.toViewBase changePath snap writesCache optCompleteCache
  · exact fun hcomplete => applyUserOverwriteTo_event h.eventUnfiltered hcomplete changePath snap writesCache
      optCompleteCache
  · intro n hn
    obtain ⟨rfl, rfl⟩ := Prod.mk.inj (List.mem_singleton.mp hn)
    exact ⟨rfl, rfl, rfl⟩

/-- A user's update of several places at or below the view's place is shown. -/
theorem ViewOk.applyUserMergeTo {tree' : WriteTree κ ν} (h : ViewOk D tree path (fun _ => False) cache)
    (mergePath : List κ) {children : CompoundWrite κ ν}
    (hextended : Extended tree tree' path
      ((children.enumerateWrites.map fun entry => (mergePath ++ entry.1, entry.2)).map
        fun entry => (entry.1, entry.2.contents)))
    (hclean : ∀ k n, children.writes k = some n → Clean D (path ++ (mergePath ++ k)) n)
    (hreached : ∀ k n, children.writes k = some n → mergePath ++ k ≠ [] → Reached D (path ++ (mergePath ++ k)))
    (writesCache : WriteTreeRef κ ν) (serverCache : Option (Snap κ ν)) :
    ViewOk D tree' path (fun _ => False) (applyUserMergeTo cache mergePath children writesCache serverCache).1 := by
  have hwritten : ∀ entry ∈ children.enumerateWrites, children.writes entry.1 = some entry.2.contents :=
    fun entry hentry => treeWrites_of_value ((children.mem_enumerateWrites_iff _ _).mp hentry)
  apply h.extended hextended
  · intro u hu
    obtain ⟨placed, hplaced, rfl⟩ := List.mem_map.mp hu
    obtain ⟨entry, hentry, rfl⟩ := List.mem_map.mp hplaced
    exact hclean _ _ (hwritten entry hentry)
  · intro u hu
    obtain ⟨placed, hplaced, rfl⟩ := List.mem_map.mp hu
    obtain ⟨entry, hentry, rfl⟩ := List.mem_map.mp hplaced
    exact hreached _ _ (hwritten entry hentry)
  · have hseen := (applyUserWrites_event (((children.enumerateWrites.map fun entry =>
      (mergePath ++ entry.1, entry.2)).filter fun entry => cacheHasChild cache entry.1.head?))
      writesCache serverCache (cache, []) h.toViewBase).1
    have hothers := (applyUserWrites_event (((children.enumerateWrites.map fun entry =>
      (mergePath ++ entry.1, entry.2)).filter fun entry => !cacheHasChild cache entry.1.head?))
      writesCache serverCache _ hseen.1).1
    exact ⟨hothers.1, hothers.2.trans hseen.2⟩
  · intro hcomplete
    rw [applyUserMergeTo_of_complete h.eventUnfiltered hcomplete]
    exact (applyUserWrites_event _ writesCache serverCache (cache, []) h.toViewBase).2 hcomplete
  · intro n hn
    obtain ⟨placed, hplaced, heq⟩ := List.mem_map.mp hn
    obtain ⟨⟨k, node⟩, hentry, rfl⟩ := List.mem_map.mp hplaced
    obtain ⟨hnil, rfl⟩ := Prod.mk.inj heq
    obtain ⟨rfl, rfl⟩ := List.append_eq_nil_iff.mp hnil
    rw [applyUserMergeTo_of_root hentry, CompoundWrite.enumerateWrites_of_root hentry]
    exact ⟨rfl, rfl, rfl⟩

end User

end LoveCoupons
