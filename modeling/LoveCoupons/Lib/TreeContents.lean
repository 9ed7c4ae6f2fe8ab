import LoveCoupons.Lib.Contents
import LoveCoupons.Lib.KeyedTree
import Mathlib.Data.List.Nodup
import Mathlib.Data.List.Perm.Subperm

/-!
# Snapshots and their contents

A snapshot is a keyed tree without empty nodes and without repeated keys. Its contents are
the values of its leaves, and two snapshots with the same contents differ in the order of
their children only. The comparison that walks both trees decides exactly this.

Writing into a snapshot writes into its contents, and reading below a path reads the contents
below it, so everything else about snapshots can be argued on contents.
-/

namespace KeyedTree

open PathContents

variable {κ ν : Type} [DecidableEq κ]

/-- The value of the leaf at a path. -/
def leafAt (tree : Option (Tree κ ν)) : Contents κ ν := fun path =>
  match getChild tree path with
  | some (.leaf value) => some value
  | _ => none

/-- No node is empty and no node repeats a key. -/
structure WellFormed (tree : Option (Tree κ ν)) : Prop where
  noEmptyNode : ∀ path, getChild tree path ≠ some (.node [])
  distinctKeys : ∀ path, DistinctKeys (getChild tree path)

/-- The leaves of a subtree are those below its path. -/
theorem leafAt_getChild (tree : Option (Tree κ ν)) (path : List κ) :
    leafAt (getChild tree path) = below (leafAt tree) path := by
  funext q
  simp only [leafAt, below, getChild_append]

/-- Where there is no tree, there is no leaf. -/
@[simp] theorem leafAt_none : leafAt (none : Option (Tree κ ν)) = empty := by
  funext q
  simp [leafAt, empty]

/-- A leaf has its value at its root. -/
@[simp] theorem leafAt_leaf_nil (value : ν) : leafAt (some (.leaf value) : Option (Tree κ ν)) [] = some value := rfl

/-- A node with children has no value at its root. -/
@[simp] theorem leafAt_node_nil (children : List (κ × Tree κ ν)) :
    leafAt (some (.node children)) [] = none := rfl

/-- A tree with a value at its root is that leaf. -/
theorem leafAt_nil_eq_some {tree : Option (Tree κ ν)} {value : ν} (h : leafAt tree [] = some value) :
    tree = some (.leaf value) := by
  cases tree with
  | none => simp [leafAt] at h
  | some tree =>
    cases tree with
    | leaf other => rw [Option.some.inj h]
    | node children => simp at h

/-- A leaf is looked for below the child that the path enters. -/
theorem leafAt_cons (tree : Option (Tree κ ν)) (key : κ) (path : List κ) :
    leafAt tree (key :: path) = leafAt (child tree key) path := rfl

/-- No tree at all is well formed. -/
theorem wellFormed_none : WellFormed (none : Option (Tree κ ν)) where
  noEmptyNode := by simp
  distinctKeys := by simp [DistinctKeys, childList]

/-- A leaf is well formed. -/
theorem wellFormed_leaf (value : ν) : WellFormed (some (.leaf value) : Option (Tree κ ν)) where
  noEmptyNode := by
    intro path
    cases path with
    | nil => simp [KeyedTree.getChild]
    | cons key path => exact wellFormed_none.noEmptyNode path
  distinctKeys := by
    intro path
    cases path with
    | nil => simp [KeyedTree.getChild, DistinctKeys, childList]
    | cons key path => exact wellFormed_none.distinctKeys path

/-- A node is well formed when it has children, no key twice, and well-formed children. -/
theorem wellFormed_node {children : List (κ × Tree κ ν)} (hne : children ≠ [])
    (hkeys : (children.map Prod.fst).Nodup) (hchildren : ∀ entry ∈ children, WellFormed (some entry.2)) :
    WellFormed (some (.node children)) := by
  have hchild : ∀ key, WellFormed (child (some (.node children)) key) := by
    intro key
    change WellFormed (findChild children key)
    cases hfind : findChild children key with
    | none => exact wellFormed_none
    | some subtree => exact hchildren (key, subtree) (mem_of_findChild hfind)
  constructor
  · intro path
    cases path with
    | nil => simpa [KeyedTree.getChild] using hne
    | cons key path => exact (hchild key).noEmptyNode path
  · intro path
    cases path with
    | nil => exact hkeys
    | cons key path => exact (hchild key).distinctKeys path

/-- A subtree is well formed. -/
theorem WellFormed.getChild {tree : Option (Tree κ ν)} (h : WellFormed tree) (path : List κ) :
    WellFormed (getChild tree path) where
  noEmptyNode := fun q => getChild_append tree path q ▸ h.noEmptyNode (path ++ q)
  distinctKeys := fun q => getChild_append tree path q ▸ h.distinctKeys (path ++ q)

/-- A child is well formed. -/
theorem WellFormed.child {tree : Option (Tree κ ν)} (h : WellFormed tree) (key : κ) :
    WellFormed (child tree key) := h.getChild [key]

/-- A found child is smaller than the tree it is found in. -/
theorem sizeOf_child_lt {children : List (κ × Tree κ ν)} {key : κ} {subtree : Tree κ ν}
    (h : findChild children key = some subtree) :
    sizeOf subtree < sizeOf (Tree.node children) := by
  have hmem := List.sizeOf_lt_of_mem (mem_of_findChild h)
  simp only [Prod.mk.sizeOf_spec, Tree.node.sizeOf_spec] at hmem ⊢
  omega

/-- A well-formed tree that is not missing has a leaf. -/
theorem exists_leaf {tree : Tree κ ν} (h : WellFormed (some tree)) :
    ∃ path, leafAt (some tree) path ≠ none := by
  match tree with
  | .leaf value => exact ⟨[], by simp⟩
  | .node [] => exact absurd rfl (h.noEmptyNode [])
  | .node ((key, first) :: rest) =>
    have hchild : KeyedTree.child (some (.node ((key, first) :: rest))) key = some first := by
      simp [KeyedTree.child, childList, findChild]
    have hfind : findChild ((key, first) :: rest) key = some first := hchild
    have hsize := sizeOf_child_lt hfind
    obtain ⟨path, hpath⟩ := exists_leaf (hchild ▸ h.child key)
    exact ⟨key :: path, by rwa [leafAt_cons, hchild]⟩
termination_by sizeOf tree

/-- A well-formed tree without leaves is missing. -/
theorem leafAt_eq_empty {tree : Option (Tree κ ν)} (h : WellFormed tree) :
    leafAt tree = empty ↔ tree = none := by
  constructor
  · intro hempty
    cases tree with
    | none => rfl
    | some tree =>
      obtain ⟨path, hpath⟩ := exists_leaf h
      exact absurd (congrFun hempty path) hpath
  · rintro rfl
    exact leafAt_none

/-- Writing a tree that is not missing leaves no missing tree. -/
theorem updateChild_ne_none (tree : Option (Tree κ ν)) (path : List κ) (new : Tree κ ν) :
    updateChild tree path (some new) ≠ none := by
  induction path generalizing tree with
  | nil => simp [updateChild]
  | cons key path ih =>
    change updateImmediateChild tree key (updateChild (child tree key) path (some new)) ≠ none
    obtain ⟨inner, hinner⟩ := Option.ne_none_iff_exists'.mp (ih (child tree key))
    simp [hinner, updateImmediateChild]

/-- Removing something from the missing tree leaves it missing. -/
@[simp] theorem updateChild_none_none (path : List κ) :
    updateChild (none : Option (Tree κ ν)) path none = none := by
  induction path with
  | nil => rfl
  | cons key path ih =>
    change updateImmediateChild none key (updateChild none path none) = none
    rw [ih]
    rfl

/-- Writing a child that is there makes a node. -/
theorem leafAt_updateImmediateChild_some (tree : Option (Tree κ ν)) (key : κ) (new : Tree κ ν) :
    leafAt (updateImmediateChild tree key (some new)) [] = none := rfl

/-- Removing a child keeps a leaf and makes none. -/
theorem leafAt_updateImmediateChild_none (tree : Option (Tree κ ν)) (key : κ) :
    leafAt (updateImmediateChild tree key none) [] = leafAt tree [] := by
  cases tree with
  | none => rfl
  | some tree =>
    cases tree with
    | leaf value => rfl
    | node children =>
      change leafAt (ofChildren (without key children)) [] = none
      cases without key children <;> rfl

/-- Paths that are apart fork at some place. -/
theorem exists_fork {p q : List κ} (h : Apart p q) :
    ∃ c k l r s, l ≠ k ∧ p = c ++ k :: r ∧ q = c ++ l :: s := by
  induction p generalizing q with
  | nil => exact absurd (List.nil_prefix) h.1
  | cons k p ih =>
    cases q with
    | nil => exact absurd (List.nil_prefix) h.2
    | cons l q =>
      by_cases hkl : l = k
      · subst hkl
        have hpq : Apart p q := by
          constructor
          · exact fun hle => h.1 ((List.prefix_cons_inj l).mpr hle)
          · exact fun hle => h.2 ((List.prefix_cons_inj l).mpr hle)
        obtain ⟨c, k, m, r, s, hne, rfl, rfl⟩ := ih hpq
        exact ⟨l :: c, k, m, r, s, hne, rfl, rfl⟩
      · exact ⟨[], k, l, p, q, hkl, rfl, rfl⟩

/-- Writing into a tree writes into its contents. -/
theorem leafAt_updateChild (tree : Option (Tree κ ν)) (path : List κ) {new : Option (Tree κ ν)}
    (hnew : WellFormed new) : leafAt (updateChild tree path new) = write (leafAt tree) path (leafAt new) := by
  funext q
  rcases related path q with ⟨r, rfl⟩ | ⟨k, r, rfl⟩ | hapart
  · simp only [leafAt, getChild_append, getChild_updateChild_self, write_append]
  · have hread : leafAt (updateChild tree (q ++ k :: r) new) q =
        leafAt (updateImmediateChild (getChild tree q) k
          (updateChild (child (getChild tree q) k) r new)) [] := by
      simp only [leafAt, getChild_updateChild_above]
      rfl
    rw [hread]
    cases new with
    | some new =>
      have hne : leafAt (some new) ≠ empty := fun h => by simpa using (leafAt_eq_empty hnew).mp h
      obtain ⟨inner, hinner⟩ :=
        Option.ne_none_iff_exists'.mp (updateChild_ne_none (child (getChild tree q) k) r new)
      rw [hinner, leafAt_updateImmediateChild_some, write_above _ _ _ _ hne]
    | none =>
      rw [leafAt_none, write_empty_above]
      have hleaf : ∀ value, getChild tree q = some (.leaf value) →
          updateChild (child (getChild tree q) k) r none = none := by
        intro value hq
        rw [hq]
        exact updateChild_none_none r
      cases hq : getChild tree q with
      | none =>
        have : updateChild (child (none : Option (Tree κ ν)) k) r none = none := updateChild_none_none r
        rw [this, leafAt_updateImmediateChild_none]
        simp [leafAt, hq, getChild]
      | some subtree =>
        cases subtree with
        | leaf value =>
          rw [← hq, hleaf value hq, leafAt_updateImmediateChild_none]
          simp [leafAt, getChild]
        | node children =>
          have hnone : leafAt tree q = none := by simp [leafAt, hq]
          rw [hnone]
          cases updateChild (child (some (Tree.node children)) k) r none with
          | none => exact leafAt_updateImmediateChild_none _ k
          | some inner => exact leafAt_updateImmediateChild_some _ k inner
  · obtain ⟨c, k, l, r, s, hne, rfl, rfl⟩ := exists_fork hapart
    rw [write_apart _ hapart]
    simp only [leafAt, getChild_updateChild_fork tree c hne r s new]

/-- Writing one child makes no empty node. -/
theorem updateImmediateChild_ne_empty {tree : Option (Tree κ ν)} (h : tree ≠ some (.node [])) (key : κ)
    (new : Option (Tree κ ν)) : updateImmediateChild tree key new ≠ some (.node []) := by
  cases new with
  | some new => simp [updateImmediateChild]
  | none =>
    cases tree with
    | none => simp [updateImmediateChild, ofChildren, without, childList]
    | some tree =>
      cases tree with
      | leaf value => simp [updateImmediateChild]
      | node children =>
        change ofChildren (without key children) ≠ _
        cases without key children <;> simp [ofChildren]

/-- Writing a well-formed tree keeps a tree well-formed. -/
theorem WellFormed.updateChild {tree new : Option (Tree κ ν)} (h : WellFormed tree) (hnew : WellFormed new)
    (path : List κ) : WellFormed (updateChild tree path new) := by
  constructor
  · intro q
    rcases related path q with ⟨r, rfl⟩ | ⟨k, r, rfl⟩ | hapart
    · rw [getChild_append, getChild_updateChild_self]
      exact hnew.noEmptyNode r
    · rw [getChild_updateChild_above]
      exact updateImmediateChild_ne_empty (h.noEmptyNode q) k _
    · obtain ⟨c, k, l, r, s, hne, rfl, rfl⟩ := exists_fork hapart
      rw [getChild_updateChild_fork tree c hne]
      exact h.noEmptyNode _
  · intro q
    rcases related path q with ⟨r, rfl⟩ | ⟨k, r, rfl⟩ | hapart
    · rw [getChild_append, getChild_updateChild_self]
      exact hnew.distinctKeys r
    · rw [getChild_updateChild_above]
      exact (h.distinctKeys q).updateImmediateChild k _
    · obtain ⟨c, k, l, r, s, hne, rfl, rfl⟩ := exists_fork hapart
      rw [getChild_updateChild_fork tree c hne]
      exact h.distinctKeys _

/-- A key is listed exactly when a child is found under it. -/
theorem mem_keys_iff (children : List (κ × Tree κ ν)) (key : κ) :
    key ∈ children.map Prod.fst ↔ ∃ subtree, findChild children key = some subtree := by
  constructor
  · intro hmem
    cases hfind : findChild children key with
    | some subtree => exact ⟨subtree, rfl⟩
    | none =>
      obtain ⟨entry, hentry, rfl⟩ := List.mem_map.mp hmem
      rw [findChild, List.lookup_eq_none_iff] at hfind
      simpa using hfind entry hentry
  · rintro ⟨subtree, hfind⟩
    exact List.mem_map.mpr ⟨(key, subtree), mem_of_findChild hfind, rfl⟩

/-- A child with contents is found wherever the contents are the same. -/
theorem findChild_of_leafAt_eq {children others : List (κ × Tree κ ν)}
    (hwf : WellFormed (some (.node children)))
    (h : leafAt (some (.node children)) = leafAt (some (.node others))) {key : κ} {subtree : Tree κ ν}
    (hfind : findChild children key = some subtree) :
    ∃ other, findChild others key = some other ∧ leafAt (some subtree) = leafAt (some other) := by
  have hchild : child (some (.node children)) key = some subtree := hfind
  have hbelow : leafAt (some subtree) = leafAt (child (some (.node others)) key) := by
    funext path
    have hpath := congrFun h (key :: path)
    rwa [leafAt_cons, leafAt_cons, hchild] at hpath
  cases hother : findChild others key with
  | some other =>
    have hchild' : child (some (.node others)) key = some other := hother
    exact ⟨other, rfl, hchild' ▸ hbelow⟩
  | none =>
    have hchild' : child (some (.node others)) key = none := hother
    obtain ⟨path, hpath⟩ := exists_leaf (hchild ▸ hwf.child key)
    rw [hbelow, hchild', leafAt_none] at hpath
    exact absurd rfl hpath

/-- Where the contents are the same, so are the keys. -/
theorem keys_subset_of_leafAt_eq {children others : List (κ × Tree κ ν)} (hwf : WellFormed (some (.node children)))
    (h : leafAt (some (.node children)) = leafAt (some (.node others))) :
    children.map Prod.fst ⊆ others.map Prod.fst := by
  intro key hkey
  obtain ⟨subtree, hfind⟩ := (mem_keys_iff children key).mp hkey
  obtain ⟨subtree', hfind', -⟩ := findChild_of_leafAt_eq hwf h hfind
  exact (mem_keys_iff others key).mpr ⟨subtree', hfind'⟩

/-- Nodes with as many children have the same contents when each child of the first has one with its contents under
its key. -/
theorem leafAt_node_congr {children others : List (κ × Tree κ ν)} (hdistinct : (children.map Prod.fst).Nodup)
    (hlen : children.length = others.length)
    (hall : ∀ key subtree, findChild children key = some subtree →
      ∃ other, findChild others key = some other ∧ leafAt (some subtree) = leafAt (some other)) :
    leafAt (some (.node children)) = leafAt (some (.node others)) := by
  have hsub : children.map Prod.fst ⊆ others.map Prod.fst := by
    intro key hkey
    obtain ⟨subtree, hfind⟩ := (mem_keys_iff children key).mp hkey
    obtain ⟨other, hother, -⟩ := hall key subtree hfind
    exact (mem_keys_iff others key).mpr ⟨other, hother⟩
  have hperm : (children.map Prod.fst).Perm (others.map Prod.fst) :=
    (List.subperm_of_subset hdistinct hsub).perm_of_length_le (by simp [hlen])
  funext path
  cases path with
  | nil => rfl
  | cons key path =>
    rw [leafAt_cons, leafAt_cons]
    change leafAt (findChild children key) path = leafAt (findChild others key) path
    cases hfind : findChild children key with
    | some subtree =>
      obtain ⟨other, hother, hsame⟩ := hall key subtree hfind
      rw [hother, hsame]
    | none =>
      cases hother : findChild others key with
      | none => rfl
      | some other =>
        have hmem := hperm.mem_iff.mpr ((mem_keys_iff others key).mpr ⟨other, hother⟩)
        obtain ⟨subtree, hfound⟩ := (mem_keys_iff children key).mp hmem
        rw [hfind] at hfound
        contradiction

section Equality

variable [DecidableEq ν]

mutual

/-- The comparison that walks both trees. -/
def Tree.isEqual : Tree κ ν → Tree κ ν → Bool
  | .leaf value, .leaf other => decide (value = other)
  | .node children, .node others => children.length == others.length && childrenEqual children others
  | _, _ => false

/-- Every listed child equals the other tree's child under the same key. -/
def childrenEqual : List (κ × Tree κ ν) → List (κ × Tree κ ν) → Bool
  | [], _ => true
  | (key, subtree) :: rest, others =>
    (match findChild others key with
      | some other => Tree.isEqual subtree other
      | none => false) && childrenEqual rest others

end

/-- Children are equal when each one has an equal one under its key. -/
theorem childrenEqual_iff (children others : List (κ × Tree κ ν)) :
    childrenEqual children others = true ↔ ∀ entry ∈ children,
      ∃ other, findChild others entry.1 = some other ∧ Tree.isEqual entry.2 other = true := by
  induction children with
  | nil => simp [childrenEqual]
  | cons entry rest ih =>
    obtain ⟨key, subtree⟩ := entry
    rw [List.forall_mem_cons, ← ih, childrenEqual, Bool.and_eq_true]
    refine and_congr_left fun _ => ?_
    cases findChild others key <;> simp

/-- Equal well-formed trees have the same contents, and the other way round. -/
theorem Tree.isEqual_iff {tree other : Tree κ ν} (h : WellFormed (some tree)) (hother : WellFormed (some other)) :
    Tree.isEqual tree other = true ↔ leafAt (some tree) = leafAt (some other) := by
  match tree, other with
  | .leaf value, .leaf value' =>
    simp only [Tree.isEqual, decide_eq_true_eq]
    constructor
    · rintro rfl
      rfl
    · intro heq
      simpa using congrFun heq []
  | .leaf value, .node others =>
    simp only [Tree.isEqual, Bool.false_eq_true, false_iff]
    intro heq
    simpa using congrFun heq []
  | .node children, .leaf value =>
    simp only [Tree.isEqual, Bool.false_eq_true, false_iff]
    intro heq
    simpa using congrFun heq []
  | .node children, .node others =>
    have hdistinct : (children.map Prod.fst).Nodup := h.distinctKeys []
    have hdistinct' : (others.map Prod.fst).Nodup := hother.distinctKeys []
    have ih : ∀ key subtree subtree', findChild children key = some subtree →
        findChild others key = some subtree' →
        (Tree.isEqual subtree subtree' = true ↔ leafAt (some subtree) = leafAt (some subtree')) := by
      intro key subtree subtree' hfind hfind'
      have hsize : sizeOf subtree < 1 + sizeOf children := by simpa using sizeOf_child_lt hfind
      exact Tree.isEqual_iff (hfind ▸ h.child key) (hfind' ▸ hother.child key)
    rw [Tree.isEqual, Bool.and_eq_true, beq_iff_eq, childrenEqual_iff]
    constructor
    · rintro ⟨hlen, hall⟩
      apply leafAt_node_congr hdistinct hlen
      intro key subtree hfind
      obtain ⟨subtree', hfind', heq⟩ := hall (key, subtree) (mem_of_findChild hfind)
      exact ⟨subtree', hfind', (ih key subtree subtree' hfind hfind').mp heq⟩
    · intro heq
      have hle := (List.subperm_of_subset hdistinct (keys_subset_of_leafAt_eq h heq)).length_le
      have hle' := (List.subperm_of_subset hdistinct' (keys_subset_of_leafAt_eq hother heq.symm)).length_le
      simp only [List.length_map] at hle hle'
      refine ⟨by omega, ?_⟩
      rintro ⟨key, subtree⟩ hmem
      have hkeys : DistinctKeys (some (Tree.node children)) := hdistinct
      have hfind : findChild children key = some subtree := (mem_childList_iff hkeys key subtree).mp hmem
      obtain ⟨subtree', hfind', hsame⟩ := findChild_of_leafAt_eq h heq hfind
      exact ⟨subtree', hfind', (ih key subtree subtree' hfind hfind').mpr hsame⟩
termination_by sizeOf tree

end Equality

/-- A well-formed tree or the missing one. -/
structure Snap (κ ν : Type) [DecidableEq κ] where
  tree : Option (Tree κ ν)
  wellFormed : WellFormed tree

namespace Snap

/-- The values of a snapshot's leaves. -/
def contents (snap : Snap κ ν) : Contents κ ν := leafAt snap.tree

/-- The empty snapshot. -/
def emptyNode : Snap κ ν := ⟨none, wellFormed_none⟩

/-- A single value. -/
def leafNode (value : ν) : Snap κ ν := ⟨some (.leaf value), wellFormed_leaf value⟩

/-- Whether nothing is stored. -/
def isEmpty (snap : Snap κ ν) : Bool := snap.tree.isNone

/-- Whether a single value is stored. -/
def isLeafNode (snap : Snap κ ν) : Bool :=
  match snap.tree with
  | some (.leaf _) => true
  | _ => false

/-- The snapshot at the end of a path. -/
def getChild (snap : Snap κ ν) (path : List κ) : Snap κ ν :=
  ⟨KeyedTree.getChild snap.tree path, snap.wellFormed.getChild path⟩

/-- The snapshot under one key. -/
def getImmediateChild (snap : Snap κ ν) (key : κ) : Snap κ ν := snap.getChild [key]

/-- Whether something is stored under a key. -/
def hasChild (snap : Snap κ ν) (key : κ) : Bool := !(snap.getImmediateChild key).isEmpty

/-- The snapshot with the one at the end of a path replaced. -/
def updateChild (snap : Snap κ ν) (path : List κ) (new : Snap κ ν) : Snap κ ν :=
  ⟨KeyedTree.updateChild snap.tree path new.tree, snap.wellFormed.updateChild new.wellFormed path⟩

/-- The snapshot with the one under a key replaced. -/
def updateImmediateChild (snap : Snap κ ν) (key : κ) (new : Snap κ ν) : Snap κ ν := snap.updateChild [key] new

/-- The children of a snapshot with their keys. -/
def children (snap : Snap κ ν) : List (κ × Snap κ ν) :=
  (childList snap.tree).map fun entry => (entry.1, snap.getImmediateChild entry.1)

/-- Whether two snapshots are equal as trees, whatever the order of their children. -/
def isEqual [DecidableEq ν] (snap other : Snap κ ν) : Bool :=
  match snap.tree, other.tree with
  | none, none => true
  | some tree, some tree' => Tree.isEqual tree tree'
  | _, _ => false

/-- The empty snapshot has no contents. -/
@[simp] theorem contents_emptyNode : (emptyNode : Snap κ ν).contents = empty := leafAt_none

/-- The contents of a part are those below its path. -/
@[simp] theorem contents_getChild (snap : Snap κ ν) (path : List κ) :
    (snap.getChild path).contents = below snap.contents path := leafAt_getChild snap.tree path

/-- Updating a part writes its contents. -/
@[simp] theorem contents_updateChild (snap : Snap κ ν) (path : List κ) (new : Snap κ ν) :
    (snap.updateChild path new).contents = write snap.contents path new.contents :=
  leafAt_updateChild snap.tree path new.wellFormed

/-- A leaf has nothing below it. -/
theorem exclusive_contents (snap : Snap κ ν) : Exclusive snap.contents := by
  intro q value key rest hq
  have hleaf : KeyedTree.getChild snap.tree q = some (.leaf value) := by
    unfold contents leafAt at hq
    split at hq
    · rename_i found hfound
      rw [hfound, Option.some.inj hq]
    · contradiction
  have hbelow : KeyedTree.getChild snap.tree (q ++ key :: rest) = none := by
    rw [getChild_append, hleaf]
    exact getChild_none rest
  simp [contents, leafAt, hbelow]

/-- A snapshot is empty when it has no values. -/
theorem isEmpty_iff (snap : Snap κ ν) : snap.isEmpty = true ↔ snap.contents = empty := by
  rw [isEmpty, Option.isNone_iff_eq_none]
  exact (leafAt_eq_empty snap.wellFormed).symm

/-- A snapshot has a child when there is a value below its key. -/
theorem hasChild_iff (snap : Snap κ ν) (key : κ) :
    snap.hasChild key = true ↔ below snap.contents [key] ≠ empty := by
  rw [hasChild, Bool.not_eq_true', ← Bool.not_eq_true, isEmpty_iff]
  simp [getImmediateChild]

/-- Snapshots are equal when they have the same contents. -/
theorem isEqual_iff [DecidableEq ν] (snap other : Snap κ ν) :
    snap.isEqual other = true ↔ snap.contents = other.contents := by
  obtain ⟨tree, h⟩ := snap
  obtain ⟨tree', h'⟩ := other
  cases tree with
  | none =>
    cases tree' with
    | none => simp [isEqual, contents]
    | some tree' =>
      simp only [isEqual, contents, Bool.false_eq_true, leafAt_none, false_iff]
      intro heq
      simpa using (leafAt_eq_empty h').mp heq.symm
  | some tree =>
    cases tree' with
    | none =>
      simp only [isEqual, contents, Bool.false_eq_true, leafAt_none, false_iff]
      intro heq
      simpa using (leafAt_eq_empty h).mp heq
    | some tree' => exact Tree.isEqual_iff h h'

/-- A snapshot is a leaf when it has a value at its root. -/
theorem isLeafNode_iff (snap : Snap κ ν) : snap.isLeafNode = true ↔ snap.contents [] ≠ none := by
  obtain ⟨tree, h⟩ := snap
  cases tree with
  | none => simp [isLeafNode, contents, empty]
  | some tree => cases tree <;> simp [isLeafNode, contents]

/-- A child is listed under each key that has values, and no other. -/
theorem mem_children_iff (snap : Snap κ ν) (key : κ) (other : Snap κ ν) :
    (key, other) ∈ snap.children ↔ snap.hasChild key = true ∧ other = snap.getImmediateChild key := by
  have hkey : key ∈ (childList snap.tree).map Prod.fst ↔ snap.hasChild key = true := by
    rw [mem_keys_iff, hasChild, isEmpty, Bool.not_eq_true', Option.isNone_eq_false_iff, Option.isSome_iff_exists]
    rfl
  rw [← hkey, children, List.mem_map]
  constructor
  · rintro ⟨entry, hmem, hentry⟩
    obtain ⟨rfl, rfl⟩ := Prod.mk.inj hentry
    exact ⟨List.mem_map.mpr ⟨entry, hmem, rfl⟩, rfl⟩
  · rintro ⟨hmem, rfl⟩
    obtain ⟨entry, hentry, rfl⟩ := List.mem_map.mp hmem
    exact ⟨entry, hentry, rfl⟩

/-- Each key is listed once. -/
theorem nodup_children (snap : Snap κ ν) : (snap.children.map Prod.fst).Nodup := by
  have hmap : snap.children.map Prod.fst = (childList snap.tree).map Prod.fst := by
    simp [children, List.map_map, Function.comp_def]
  rw [hmap]
  exact snap.wellFormed.distinctKeys []

end Snap

end KeyedTree
