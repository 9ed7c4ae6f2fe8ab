import LoveCoupons.Lib.Replace
import Mathlib.Data.List.Nodup
import Mathlib.Data.List.Lookmap

/-!
# Trees with keyed edges

A tree is a leaf value or a node with keyed children, and a missing tree stands for the
empty one. Writing a missing tree removes a child; a node left without children becomes
missing, so empty parents disappear. A path is the list of keys from the root.

Reading after writing is determined by how the two paths meet: at or below the written
place the new tree is read, past a fork nothing has changed, and above the written place
the old subtree is read with the same write applied to it.
-/

namespace KeyedTree

variable {κ ν : Type}

/-- A leaf value, or a node listing its children by key. -/
inductive Tree (κ ν : Type) where
  | leaf (value : ν)
  | node (children : List (κ × Tree κ ν))

/-- The children of a tree; a leaf and the missing tree have none. -/
def childList : Option (Tree κ ν) → List (κ × Tree κ ν)
  | some (.node children) => children
  | _ => []

/-- A node with the given children, missing when there are none. -/
def ofChildren : List (κ × Tree κ ν) → Option (Tree κ ν)
  | [] => none
  | children => some (.node children)

/-- Listing the children of a rebuilt node gives them back. -/
@[simp] theorem childList_ofChildren (children : List (κ × Tree κ ν)) :
    childList (ofChildren children) = children := by
  cases children <;> rfl

variable [DecidableEq κ]

/-- The entry of a list of children under one key. -/
def findChild (children : List (κ × Tree κ ν)) (key : κ) : Option (Tree κ ν) := children.lookup key

/-- The subtree under one key. -/
def child (tree : Option (Tree κ ν)) (key : κ) : Option (Tree κ ν) := findChild (childList tree) key

/-- The subtree at the end of a path. -/
def getChild (tree : Option (Tree κ ν)) : List κ → Option (Tree κ ν)
  | [] => tree
  | key :: path => getChild (child tree key) path

/-- All children but the one under the given key. -/
def without (key : κ) (children : List (κ × Tree κ ν)) : List (κ × Tree κ ν) :=
  children.filter fun entry => entry.1 ≠ key

/-- Replace the subtree under one key. A leaf stays as it is when nothing is written under it. -/
def updateImmediateChild (tree : Option (Tree κ ν)) (key : κ) :
    Option (Tree κ ν) → Option (Tree κ ν)
  | some new => some (.node ((key, new) :: without key (childList tree)))
  | none =>
    match tree with
    | some (.leaf value) => some (.leaf value)
    | tree => ofChildren (without key (childList tree))

/-- Replace the subtree at the end of a path. -/
def updateChild (tree : Option (Tree κ ν)) : List κ → Option (Tree κ ν) → Option (Tree κ ν)
  | [], new => new
  | key :: path, new => updateImmediateChild tree key (updateChild (child tree key) path new)

/-- Write several children of the node at a path, leaving its other children alone. -/
def mergeChildren (tree : Option (Tree κ ν)) (path : List κ)
    (values : List (κ × Option (Tree κ ν))) : Option (Tree κ ν) :=
  values.foldl (fun tree entry => updateChild tree (path ++ [entry.1]) entry.2) tree

@[simp] theorem child_none (key : κ) : child (none : Option (Tree κ ν)) key = none := rfl

@[simp] theorem getChild_none (path : List κ) : getChild (none : Option (Tree κ ν)) path = none := by
  induction path with
  | nil => rfl
  | cons key path ih => exact ih

/-- A child that is found is listed. -/
theorem mem_of_findChild {children : List (κ × Tree κ ν)} {key : κ} {subtree : Tree κ ν}
    (h : findChild children key = some subtree) : (key, subtree) ∈ children :=
  Replace.mem_of_lookup h

/-- A removed key is not found. -/
theorem lookup_without_self (key : κ) (children : List (κ × Tree κ ν)) :
    (without key children).lookup key = none := by
  rw [List.lookup_eq_none_iff]
  intro entry hentry
  have hne : entry.1 ≠ key := by simpa using (List.mem_filter.mp hentry).2
  exact bne_iff_ne.mpr hne.symm

/-- Removing one key leaves the others. -/
theorem lookup_without_ne {key other : κ} (hne : other ≠ key) (children : List (κ × Tree κ ν)) :
    (without key children).lookup other = children.lookup other := by
  induction children with
  | nil => rfl
  | cons entry rest ih =>
    obtain ⟨name, tree⟩ := entry
    by_cases hname : name = key
    · subst hname
      have hdrop : without name ((name, tree) :: rest) = without name rest := by simp [without]
      rw [hdrop, ih, List.lookup_cons, beq_eq_false_iff_ne.mpr hne]
    · have hkeep : without key ((name, tree) :: rest) = (name, tree) :: without key rest := by
        simp [without, hname]
      rw [hkeep, List.lookup_cons, List.lookup_cons, ih]

/-- The written child is read back. -/
@[simp] theorem child_updateImmediateChild_self (tree : Option (Tree κ ν)) (key : κ)
    (new : Option (Tree κ ν)) : child (updateImmediateChild tree key new) key = new := by
  cases new with
  | some new => simp [updateImmediateChild, child, childList, findChild]
  | none =>
    cases tree with
    | none => rfl
    | some tree =>
      cases tree with
      | leaf value => rfl
      | node children =>
        change findChild (childList (ofChildren (without key children))) key = none
        rw [childList_ofChildren, findChild, lookup_without_self]

/-- The other children are unchanged. -/
theorem child_updateImmediateChild_ne (tree : Option (Tree κ ν)) {key other : κ} (hne : other ≠ key)
    (new : Option (Tree κ ν)) :
    child (updateImmediateChild tree key new) other = child tree other := by
  cases new with
  | some new =>
    change ((key, new) :: without key (childList tree)).lookup other = (childList tree).lookup other
    rw [List.lookup_cons, lookup_without_ne hne, beq_eq_false_iff_ne.mpr hne]
  | none =>
    cases tree with
    | none => rfl
    | some tree =>
      cases tree with
      | leaf value => rfl
      | node children =>
        change findChild (childList (ofChildren (without key children))) other = findChild children other
        rw [childList_ofChildren, findChild, lookup_without_ne hne, findChild]

/-- Paths compose. -/
theorem getChild_append (tree : Option (Tree κ ν)) (path below : List κ) :
    getChild tree (path ++ below) = getChild (getChild tree path) below := by
  induction path generalizing tree with
  | nil => rfl
  | cons key path ih => exact ih (child tree key)

/-- Reading above the written place gives the old subtree with the write applied to it. -/
theorem getChild_updateChild_above (tree : Option (Tree κ ν)) (path below : List κ)
    (new : Option (Tree κ ν)) :
    getChild (updateChild tree (path ++ below) new) path =
      updateChild (getChild tree path) below new := by
  induction path generalizing tree with
  | nil => rfl
  | cons key path ih =>
    change getChild (child (updateImmediateChild tree key
      (updateChild (child tree key) (path ++ below) new)) key) path = _
    rw [child_updateImmediateChild_self]
    exact ih (child tree key)

/-- The written subtree is read back at its own path. -/
@[simp] theorem getChild_updateChild_self (tree : Option (Tree κ ν)) (path : List κ)
    (new : Option (Tree κ ν)) : getChild (updateChild tree path new) path = new := by
  have h := getChild_updateChild_above tree path [] new
  rwa [List.append_nil] at h

/-- Past a fork in the paths nothing has changed. -/
theorem getChild_updateChild_fork (tree : Option (Tree κ ν)) (path : List κ) {key other : κ}
    (hne : other ≠ key) (below beside : List κ) (new : Option (Tree κ ν)) :
    getChild (updateChild tree (path ++ key :: below) new) (path ++ other :: beside) =
      getChild tree (path ++ other :: beside) := by
  rw [getChild_append, getChild_updateChild_above, getChild_append tree]
  change getChild (child (updateImmediateChild (getChild tree path) key _) other) beside = _
  rw [child_updateImmediateChild_ne _ hne]
  rfl

/-- Merging children into a node reads, at that node, as writing them one after the other. -/
theorem getChild_mergeChildren_self (tree : Option (Tree κ ν)) (path : List κ)
    (values : List (κ × Option (Tree κ ν))) :
    getChild (mergeChildren tree path values) path =
      values.foldl (fun node entry => updateImmediateChild node entry.1 entry.2)
        (getChild tree path) := by
  induction values generalizing tree with
  | nil => rfl
  | cons entry rest ih =>
    change getChild (mergeChildren (updateChild tree (path ++ [entry.1]) entry.2) path rest) path = _
    rw [ih, getChild_updateChild_above]
    rfl

/-- Past a fork from the merged node nothing has changed. -/
theorem getChild_mergeChildren_fork (tree : Option (Tree κ ν)) (path : List κ) {key other : κ}
    (hne : other ≠ key) (below beside : List κ) (values : List (κ × Option (Tree κ ν))) :
    getChild (mergeChildren tree (path ++ key :: below) values) (path ++ other :: beside) =
      getChild tree (path ++ other :: beside) := by
  induction values generalizing tree with
  | nil => rfl
  | cons entry rest ih =>
    change getChild (mergeChildren (updateChild tree ((path ++ key :: below) ++ [entry.1]) entry.2)
      (path ++ key :: below) rest) (path ++ other :: beside) = _
    rw [ih, List.append_assoc, List.cons_append]
    exact getChild_updateChild_fork tree path hne (below ++ [entry.1]) beside entry.2

/-- The keys of a node's children are pairwise different. -/
def DistinctKeys (tree : Option (Tree κ ν)) : Prop := ((childList tree).map Prod.fst).Nodup

/-- Removing a key keeps the remaining keys distinct. -/
theorem nodup_without (key : κ) {children : List (κ × Tree κ ν)}
    (h : (children.map Prod.fst).Nodup) : ((without key children).map Prod.fst).Nodup :=
  h.sublist (List.filter_sublist.map Prod.fst)

/-- Writing one child keeps a node's keys distinct. -/
theorem DistinctKeys.updateImmediateChild {tree : Option (Tree κ ν)} (h : DistinctKeys tree) (key : κ)
    (new : Option (Tree κ ν)) : DistinctKeys (updateImmediateChild tree key new) := by
  cases new with
  | some new =>
    refine List.nodup_cons.mpr ⟨?_, nodup_without key h⟩
    intro hmem
    obtain ⟨entry, hentry, hkey⟩ := List.mem_map.mp hmem
    simpa [hkey] using (List.mem_filter.mp hentry).2
  | none =>
    cases tree with
    | none => exact List.nodup_nil
    | some tree =>
      cases tree with
      | leaf value => exact List.nodup_nil
      | node children =>
        change ((childList (ofChildren (without key children))).map Prod.fst).Nodup
        rw [childList_ofChildren]
        exact nodup_without key h

/-- Writing below a node keeps that node's keys distinct. -/
theorem DistinctKeys.updateChild_below {tree : Option (Tree κ ν)} {path : List κ}
    (h : DistinctKeys (getChild tree path)) (key : κ) (below : List κ) (new : Option (Tree κ ν)) :
    DistinctKeys (getChild (updateChild tree (path ++ key :: below) new) path) := by
  rw [getChild_updateChild_above]
  exact h.updateImmediateChild key _

/-- Merging below a node keeps that node's keys distinct. -/
theorem DistinctKeys.mergeChildren_below {tree : Option (Tree κ ν)} {path : List κ}
    (h : DistinctKeys (getChild tree path)) (key : κ) (below : List κ)
    (values : List (κ × Option (Tree κ ν))) :
    DistinctKeys (getChild (mergeChildren tree (path ++ key :: below) values) path) := by
  induction values generalizing tree with
  | nil => exact h
  | cons entry rest ih =>
    change DistinctKeys (getChild (mergeChildren
      (updateChild tree ((path ++ key :: below) ++ [entry.1]) entry.2) (path ++ key :: below) rest) path)
    apply ih
    rw [List.append_assoc]
    exact h.updateChild_below key (below ++ [entry.1]) entry.2

/-- With distinct keys, listing a child and finding it under its key are the same. -/
theorem mem_childList_iff {tree : Option (Tree κ ν)} (h : DistinctKeys tree) (key : κ)
    (subtree : Tree κ ν) : (key, subtree) ∈ childList tree ↔ child tree key = some subtree := by
  unfold DistinctKeys at h
  unfold child findChild
  generalize childList tree = children at h
  induction children with
  | nil => simp
  | cons entry rest ih =>
    obtain ⟨name, first⟩ := entry
    rw [List.map_cons, List.nodup_cons] at h
    rw [List.lookup_cons, List.mem_cons, ih h.2]
    by_cases hkey : key = name
    · subst hkey
      have hrest : rest.lookup key = none := by
        rw [List.lookup_eq_none_iff]
        intro entry hentry
        have hne : entry.1 ≠ key := fun heq => h.1 (List.mem_map.mpr ⟨entry, hentry, heq⟩)
        exact bne_iff_ne.mpr hne.symm
      simp [hrest, eq_comm]
    · simp [hkey, beq_eq_false_iff_ne.mpr hkey]

end KeyedTree
