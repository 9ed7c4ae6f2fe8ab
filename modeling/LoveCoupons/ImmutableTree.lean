import LoveCoupons.Lib.Dictionary
import Mathlib.Data.List.Infix

/-!
# Trees of optional values

`FImmutableTree` holds an optional value and children by key. It maps paths to values, and
each operation is determined by what it does to that map: setting a value changes one path,
setting a tree replaces everything at and below a path, and the root-most value on a path is
the first one that is met on the way down.
-/

namespace LoveCoupons

open Dictionary

variable {κ α : Type}

/-- `FImmutableTree`. -/
inductive ImmutableTree (κ α : Type) where
  | mk (value : Option α) (children : List (κ × ImmutableTree κ α))

namespace ImmutableTree

/-- The value at the root. -/
def value : ImmutableTree κ α → Option α
  | mk value _ => value

/-- The subtrees, each under its key. -/
def children : ImmutableTree κ α → List (κ × ImmutableTree κ α)
  | mk _ children => children

/-- The tree without a value. -/
def empty : ImmutableTree κ α := mk none []

/-- `-[FImmutableTree initWithValue:]`. -/
def initWithValue (value : α) : ImmutableTree κ α := mk (some value) []

/-- `-[FImmutableTree isEmpty]`. -/
def isEmpty (tree : ImmutableTree κ α) : Bool := tree.value.isNone && tree.children.isEmpty

/-- The value of a tree that is put together. -/
@[simp] theorem value_mk (value : Option α) (children : List (κ × ImmutableTree κ α)) :
    (mk value children).value = value := rfl

/-- The children of a tree that is put together. -/
@[simp] theorem children_mk (value : Option α) (children : List (κ × ImmutableTree κ α)) :
    (mk value children).children = children := rfl

/-- A tree without a value and without children has no values. -/
theorem eq_empty_of_isEmpty {tree : ImmutableTree κ α} (h : tree.isEmpty = true) : tree = empty := by
  obtain ⟨value, children⟩ := tree
  simp only [isEmpty, value_mk, children_mk, Bool.and_eq_true, Option.isNone_iff_eq_none,
    List.isEmpty_iff] at h
  rw [h.1, h.2]
  rfl

mutual

/-- `-[FImmutableTree forEachPathSoFar:withBlock:]`: the values with their paths, children first. -/
def forEachPathSoFar : ImmutableTree κ α → List κ → List (List κ × α)
  | mk value children, pathSoFar =>
    forEachChildPathSoFar children pathSoFar ++ (value.map fun value => (pathSoFar, value)).toList

/-- The enumeration of the children in `-[FImmutableTree forEachPathSoFar:withBlock:]`. -/
def forEachChildPathSoFar : List (κ × ImmutableTree κ α) → List κ → List (List κ × α)
  | [], _ => []
  | (childKey, childTree) :: rest, pathSoFar =>
    forEachPathSoFar childTree (pathSoFar ++ [childKey]) ++ forEachChildPathSoFar rest pathSoFar

end

/-- `-[FImmutableTree forEach:]`. -/
def forEach (tree : ImmutableTree κ α) : List (List κ × α) := tree.forEachPathSoFar []

/-- What holds of a tree whenever it holds of its listed children holds of every tree. -/
@[elab_as_elim]
theorem childrenInduction {motive : ImmutableTree κ α → Prop}
    (node : ∀ value children, (∀ entry ∈ children, motive entry.2) → motive (mk value children)) :
    ∀ tree, motive tree
  | mk value children => node value children fun entry hmem =>
    have hsize : sizeOf entry.2 < sizeOf (mk value children) := by
      have hentry := List.sizeOf_lt_of_mem hmem
      obtain ⟨key, child⟩ := entry
      simp only [Prod.mk.sizeOf_spec, mk.sizeOf_spec] at hentry ⊢
      omega
    childrenInduction node entry.2
termination_by tree => sizeOf tree
decreasing_by exact hsize

/-- The children are walked one after the other, each under its key. -/
theorem forEachChildPathSoFar_eq (children : List (κ × ImmutableTree κ α)) (pathSoFar : List κ) :
    forEachChildPathSoFar children pathSoFar =
      children.flatMap fun entry => forEachPathSoFar entry.2 (pathSoFar ++ [entry.1]) := by
  induction children with
  | nil => rfl
  | cons entry rest ih =>
    obtain ⟨key, child⟩ := entry
    rw [forEachChildPathSoFar, ih, List.flatMap_cons]

variable [DecidableEq κ]

/-- The child under a key, or the empty tree. -/
def childOrEmpty (tree : ImmutableTree κ α) (key : κ) : ImmutableTree κ α :=
  (tree.children.lookup key).getD empty

/-- `-[FImmutableTree subtreeAtPath:]`. -/
def subtreeAtPath (tree : ImmutableTree κ α) : List κ → ImmutableTree κ α
  | [] => tree
  | front :: path =>
    match tree.children.lookup front with
    | some childTree => childTree.subtreeAtPath path
    | none => empty

/-- `-[FImmutableTree valueAtPath:]`. -/
def valueAtPath (tree : ImmutableTree κ α) : List κ → Option α
  | [] => tree.value
  | front :: path =>
    match tree.children.lookup front with
    | some child => child.valueAtPath path
    | none => none

/-- `-[FImmutableTree findRootMostMatchingPath:predicate:]`. -/
def findRootMostMatchingPath (tree : ImmutableTree κ α) (predicate : α → Bool) :
    List κ → Option (List κ × α)
  | [] => (tree.value.filter predicate).map fun value => ([], value)
  | front :: path =>
    match tree.value.filter predicate with
    | some value => some ([], value)
    | none =>
      match tree.children.lookup front with
      | some child =>
        (child.findRootMostMatchingPath predicate path).map fun found => (front :: found.1, found.2)
      | none => none

/-- `-[FImmutableTree findRootMostValueAndPath:]`. -/
def findRootMostValueAndPath (tree : ImmutableTree κ α) (path : List κ) : Option (List κ × α) :=
  tree.findRootMostMatchingPath (fun _ => true) path

/-- `-[FImmutableTree setValue:atPath:]`. -/
def setValue (tree : ImmutableTree κ α) (newValue : α) : List κ → ImmutableTree κ α
  | [] => mk (some newValue) tree.children
  | front :: path =>
    mk tree.value (insertKey front ((tree.childOrEmpty front).setValue newValue path) tree.children)

/-- `-[FImmutableTree setTree:atPath:]`. -/
def setTree (tree newTree : ImmutableTree κ α) : List κ → ImmutableTree κ α
  | [] => newTree
  | front :: path =>
    let newChild := (tree.childOrEmpty front).setTree newTree path
    mk tree.value
      (if newChild.isEmpty then removeKey front tree.children else insertKey front newChild tree.children)

/-- `-[FImmutableTree removeValueAtPath:]`. -/
def removeValueAtPath (tree : ImmutableTree κ α) : List κ → ImmutableTree κ α
  | [] => if tree.children.isEmpty then empty else mk none tree.children
  | front :: path =>
    match tree.children.lookup front with
    | some child =>
      let newChild := child.removeValueAtPath path
      let newChildren :=
        if newChild.isEmpty then removeKey front tree.children else insertKey front newChild tree.children
      if tree.value.isNone && newChildren.isEmpty then empty else mk tree.value newChildren
    | none => tree

/-- The value at the empty path is that of the root. -/
@[simp] theorem valueAtPath_nil (tree : ImmutableTree κ α) : tree.valueAtPath [] = tree.value := by
  unfold valueAtPath
  rfl

/-- The empty tree has no value anywhere. -/
@[simp] theorem valueAtPath_empty (path : List κ) : (empty : ImmutableTree κ α).valueAtPath path = none := by
  cases path <;> rfl

/-- A value is looked for below the child that the path enters. -/
theorem valueAtPath_cons (tree : ImmutableTree κ α) (key : κ) (path : List κ) :
    tree.valueAtPath (key :: path) = (tree.childOrEmpty key).valueAtPath path := by
  rw [childOrEmpty, valueAtPath]
  cases tree.children.lookup key with
  | none => simp
  | some child => rfl

/-- The subtree at the empty path is the tree. -/
@[simp] theorem subtreeAtPath_nil (tree : ImmutableTree κ α) : tree.subtreeAtPath [] = tree := by
  unfold subtreeAtPath
  rfl

/-- Every subtree of the empty tree is empty. -/
@[simp] theorem subtreeAtPath_empty (path : List κ) : (empty : ImmutableTree κ α).subtreeAtPath path = empty := by
  cases path <;> rfl

/-- A subtree is looked for below the child that the path enters. -/
theorem subtreeAtPath_cons (tree : ImmutableTree κ α) (key : κ) (path : List κ) :
    tree.subtreeAtPath (key :: path) = (tree.childOrEmpty key).subtreeAtPath path := by
  rw [childOrEmpty, subtreeAtPath]
  cases tree.children.lookup key with
  | none => simp
  | some child => rfl

/-- Paths compose. -/
theorem subtreeAtPath_append (tree : ImmutableTree κ α) (path below : List κ) :
    tree.subtreeAtPath (path ++ below) = (tree.subtreeAtPath path).subtreeAtPath below := by
  induction path generalizing tree with
  | nil => simp
  | cons key path ih => rw [List.cons_append, subtreeAtPath_cons, subtreeAtPath_cons, ih]

/-- The values of a subtree are the values below its path. -/
theorem valueAtPath_subtreeAtPath (tree : ImmutableTree κ α) (path below : List κ) :
    (tree.subtreeAtPath path).valueAtPath below = tree.valueAtPath (path ++ below) := by
  induction path generalizing tree with
  | nil => simp
  | cons key path ih => rw [List.cons_append, subtreeAtPath_cons, valueAtPath_cons, ih]

/-- A child that is removed is not there. -/
theorem childOrEmpty_mk_removeKey_self (value : Option α) (key : κ) (entries : List (κ × ImmutableTree κ α)) :
    (mk value (removeKey key entries)).childOrEmpty key = empty := by
  simp [childOrEmpty]

/-- A child that is put in is there. -/
theorem childOrEmpty_mk_insertKey_self (value : Option α) (key : κ) (child : ImmutableTree κ α)
    (entries : List (κ × ImmutableTree κ α)) :
    (mk value (insertKey key child entries)).childOrEmpty key = child := by
  simp [childOrEmpty]

/-- The child under a key at which a tree was put, or dropped when it is empty. -/
theorem childOrEmpty_mk_ite_self (value : Option α) (key : κ) (child : ImmutableTree κ α)
    (entries : List (κ × ImmutableTree κ α)) :
    (mk value (if child.isEmpty then removeKey key entries else insertKey key child entries)).childOrEmpty key =
      child := by
  split
  · rename_i hempty
    rw [childOrEmpty_mk_removeKey_self, eq_empty_of_isEmpty hempty]
  · rw [childOrEmpty_mk_insertKey_self]

/-- The other children stay when a tree is put under a key, or dropped. -/
theorem childOrEmpty_mk_ite_ne (tree : ImmutableTree κ α) (value : Option α) {key other : κ} (hne : other ≠ key)
    (child : ImmutableTree κ α) :
    (mk value (if child.isEmpty then removeKey key tree.children
      else insertKey key child tree.children)).childOrEmpty other = tree.childOrEmpty other := by
  unfold childOrEmpty
  rw [children_mk]
  split
  · rw [lookup_removeKey_ne hne]
  · rw [lookup_insertKey_ne hne]

/-- The child under the key at which a tree is set. -/
theorem childOrEmpty_setTree_self (tree newTree : ImmutableTree κ α) (key : κ) (path : List κ) :
    (tree.setTree newTree (key :: path)).childOrEmpty key = (tree.childOrEmpty key).setTree newTree path := by
  rw [setTree]
  exact childOrEmpty_mk_ite_self tree.value key _ tree.children

/-- The other children stay when a tree is set. -/
theorem childOrEmpty_setTree_ne (tree newTree : ImmutableTree κ α) {key other : κ} (hne : other ≠ key)
    (path : List κ) : (tree.setTree newTree (key :: path)).childOrEmpty other = tree.childOrEmpty other := by
  rw [setTree]
  exact childOrEmpty_mk_ite_ne tree tree.value hne _

/-- The child under the key at which a value is set. -/
theorem childOrEmpty_setValue_self (tree : ImmutableTree κ α) (newValue : α) (key : κ) (path : List κ) :
    (tree.setValue newValue (key :: path)).childOrEmpty key = (tree.childOrEmpty key).setValue newValue path := by
  rw [setValue, childOrEmpty_mk_insertKey_self]

/-- The other children stay when a value is set. -/
theorem childOrEmpty_setValue_ne (tree : ImmutableTree κ α) (newValue : α) {key other : κ} (hne : other ≠ key)
    (path : List κ) : (tree.setValue newValue (key :: path)).childOrEmpty other = tree.childOrEmpty other := by
  rw [setValue]
  unfold childOrEmpty
  rw [children_mk, lookup_insertKey_ne hne]

/-- At and below its path, a tree that was set is read. -/
theorem valueAtPath_setTree_append (tree newTree : ImmutableTree κ α) (path below : List κ) :
    (tree.setTree newTree path).valueAtPath (path ++ below) = newTree.valueAtPath below := by
  induction path generalizing tree with
  | nil => rfl
  | cons key path ih => rw [List.cons_append, valueAtPath_cons, childOrEmpty_setTree_self, ih]

/-- Elsewhere a tree that was set changes nothing. -/
theorem valueAtPath_setTree_of_not (tree newTree : ImmutableTree κ α) {path other : List κ}
    (h : ¬ path <+: other) : (tree.setTree newTree path).valueAtPath other = tree.valueAtPath other := by
  induction path generalizing tree other with
  | nil => exact absurd List.nil_prefix h
  | cons key path ih =>
    cases other with
    | nil =>
      rw [valueAtPath_nil, valueAtPath_nil, setTree]
      rfl
    | cons name other =>
      rw [valueAtPath_cons, valueAtPath_cons]
      by_cases hname : name = key
      · subst hname
        rw [childOrEmpty_setTree_self]
        exact ih _ fun hle => h ((List.prefix_cons_inj name).mpr hle)
      · rw [childOrEmpty_setTree_ne _ _ hname]

/-- Setting a value changes the map at its path. -/
theorem valueAtPath_setValue (tree : ImmutableTree κ α) (newValue : α) (path other : List κ) :
    (tree.setValue newValue path).valueAtPath other =
      if other = path then some newValue else tree.valueAtPath other := by
  induction path generalizing tree other with
  | nil =>
    cases other with
    | nil => rw [setValue, valueAtPath_nil, if_pos rfl, value_mk]
    | cons name other =>
      rw [if_neg (by simp), valueAtPath_cons, valueAtPath_cons]
      rfl
  | cons key path ih =>
    cases other with
    | nil =>
      rw [if_neg (by simp), valueAtPath_nil, valueAtPath_nil, setValue]
      rfl
    | cons name other =>
      rw [valueAtPath_cons, valueAtPath_cons]
      by_cases hname : name = key
      · subst hname
        rw [childOrEmpty_setValue_self, ih]
        simp
      · rw [childOrEmpty_setValue_ne _ _ hname, if_neg (by simp [hname])]

/-- A tree without a value and without children is stored as the empty tree. -/
theorem valueAtPath_ite_empty (value : Option α) (children : List (κ × ImmutableTree κ α)) (path : List κ) :
    (if value.isNone && children.isEmpty then empty else mk value children).valueAtPath path =
      (mk value children).valueAtPath path := by
  split
  · rename_i hempty
    rw [Bool.and_eq_true, Option.isNone_iff_eq_none, List.isEmpty_iff] at hempty
    rw [hempty.1, hempty.2, empty]
  · rfl

/-- Removing a value changes the map at its path. -/
theorem valueAtPath_removeValueAtPath (tree : ImmutableTree κ α) (path other : List κ) :
    (tree.removeValueAtPath path).valueAtPath other = if other = path then none else tree.valueAtPath other := by
  induction path generalizing tree other with
  | nil =>
    have hroot := valueAtPath_ite_empty none tree.children other
    rw [Option.isNone_none, Bool.true_and] at hroot
    rw [removeValueAtPath, hroot]
    cases other with
    | nil => rw [valueAtPath_nil, if_pos rfl, value_mk]
    | cons name other =>
      rw [if_neg (by simp), valueAtPath_cons, valueAtPath_cons]
      rfl
  | cons key path ih =>
    rw [removeValueAtPath]
    cases hchild : tree.children.lookup key with
    | none =>
      by_cases hother : other = key :: path
      · rw [if_pos hother, hother, valueAtPath_cons, childOrEmpty, hchild]
        exact valueAtPath_empty path
      · rw [if_neg hother]
    | some child =>
      have hthere : tree.childOrEmpty key = child := by rw [childOrEmpty, hchild, Option.getD_some]
      refine (valueAtPath_ite_empty _ _ other).trans ?_
      cases other with
      | nil => simp
      | cons name other =>
        rw [valueAtPath_cons, valueAtPath_cons]
        by_cases hname : name = key
        · subst hname
          rw [childOrEmpty_mk_ite_self, ih, hthere]
          simp
        · rw [childOrEmpty_mk_ite_ne tree _ hname, if_neg (by simp [hname])]

/-- On the empty path, only the value at the root is found. -/
theorem findRootMostValueAndPath_nil (tree : ImmutableTree κ α) :
    tree.findRootMostValueAndPath [] = tree.value.map fun value => ([], value) := by
  rw [findRootMostValueAndPath, findRootMostMatchingPath]
  cases tree.value <;> rfl

/-- In the empty tree nothing is found. -/
theorem findRootMostValueAndPath_empty (path : List κ) :
    (empty : ImmutableTree κ α).findRootMostValueAndPath path = none := by
  cases path <;> rfl

/-- A value at the root hides those below it. -/
theorem findRootMostValueAndPath_cons_of_value {tree : ImmutableTree κ α} {value : α}
    (h : tree.value = some value) (key : κ) (path : List κ) :
    tree.findRootMostValueAndPath (key :: path) = some ([], value) := by
  rw [findRootMostValueAndPath, findRootMostMatchingPath, h]
  rfl

/-- Without a value at the root, the search goes on below the child that the path enters. -/
theorem findRootMostValueAndPath_cons {tree : ImmutableTree κ α} (h : tree.value = none) (key : κ)
    (path : List κ) : tree.findRootMostValueAndPath (key :: path) =
      ((tree.childOrEmpty key).findRootMostValueAndPath path).map fun found => (key :: found.1, found.2) := by
  rw [findRootMostValueAndPath, findRootMostMatchingPath, h, childOrEmpty]
  cases tree.children.lookup key with
  | none => simp [findRootMostValueAndPath_empty]
  | some child => rfl

/-- A value at the root is the first one on every path. -/
theorem rootMost_nil {tree : ImmutableTree κ α} {value : α} (h : tree.value = some value) (path : List κ) :
    [] <+: path ∧ tree.valueAtPath [] = some value ∧
      ∀ above, above <+: [] → above ≠ [] → tree.valueAtPath above = none := by
  refine ⟨List.nil_prefix, by rw [valueAtPath_nil, h], ?_⟩
  intro above hle hne
  exact absurd (List.prefix_nil.mp hle) hne

/-- A found value is the first one on the path. -/
theorem findRootMostValueAndPath_eq_some (tree : ImmutableTree κ α) {path found : List κ} {value : α}
    (h : tree.findRootMostValueAndPath path = some (found, value)) :
    found <+: path ∧ tree.valueAtPath found = some value ∧
      ∀ above, above <+: found → above ≠ found → tree.valueAtPath above = none := by
  induction path generalizing tree found with
  | nil =>
    rw [findRootMostValueAndPath_nil, Option.map_eq_some_iff] at h
    obtain ⟨v, hv, heq⟩ := h
    obtain ⟨rfl, rfl⟩ := Prod.mk.inj heq
    exact rootMost_nil hv []
  | cons key path ih =>
    cases hvalue : tree.value with
    | some v =>
      rw [findRootMostValueAndPath_cons_of_value hvalue] at h
      obtain ⟨rfl, rfl⟩ := Prod.mk.inj (Option.some.inj h)
      exact rootMost_nil hvalue _
    | none =>
      rw [findRootMostValueAndPath_cons hvalue, Option.map_eq_some_iff] at h
      obtain ⟨⟨rest, v⟩, hrest, heq⟩ := h
      obtain ⟨rfl, rfl⟩ := Prod.mk.inj heq
      obtain ⟨hle, hat, habove⟩ := ih _ hrest
      refine ⟨(List.prefix_cons_inj key).mpr hle, by rw [valueAtPath_cons, hat], ?_⟩
      intro above hpre hne
      cases above with
      | nil => rw [valueAtPath_nil, hvalue]
      | cons name above =>
        obtain ⟨rfl, hpre'⟩ := List.cons_prefix_cons.mp hpre
        rw [valueAtPath_cons]
        exact habove above hpre' fun heq => hne (by rw [heq])

/-- When nothing is found, the path has no value. -/
theorem findRootMostValueAndPath_eq_none (tree : ImmutableTree κ α) {path : List κ}
    (h : tree.findRootMostValueAndPath path = none) :
    ∀ above, above <+: path → tree.valueAtPath above = none := by
  induction path generalizing tree with
  | nil =>
    rw [findRootMostValueAndPath_nil, Option.map_eq_none_iff] at h
    intro above hle
    rw [List.prefix_nil.mp hle, valueAtPath_nil, h]
  | cons key path ih =>
    cases hvalue : tree.value with
    | some v =>
      rw [findRootMostValueAndPath_cons_of_value hvalue] at h
      contradiction
    | none =>
      rw [findRootMostValueAndPath_cons hvalue, Option.map_eq_none_iff] at h
      intro above hle
      cases above with
      | nil => rw [valueAtPath_nil, hvalue]
      | cons name above =>
        obtain ⟨rfl, hle'⟩ := List.cons_prefix_cons.mp hle
        rw [valueAtPath_cons]
        exact ih _ h above hle'

/-- No node of the tree repeats a key. -/
def DistinctKeys (tree : ImmutableTree κ α) : Prop :=
  ∀ path, ((tree.subtreeAtPath path).children.map Prod.fst).Nodup

/-- The empty tree has no key twice. -/
theorem distinctKeys_empty : DistinctKeys (empty : ImmutableTree κ α) := by
  intro path
  rw [subtreeAtPath_empty]
  exact List.nodup_nil

/-- A tree with one value only has no key twice. -/
theorem distinctKeys_initWithValue (value : α) : DistinctKeys (initWithValue value : ImmutableTree κ α) := by
  intro path
  cases path with
  | nil => exact List.nodup_nil
  | cons key path =>
    rw [subtreeAtPath_cons]
    exact distinctKeys_empty path

/-- A subtree has no key twice. -/
theorem DistinctKeys.subtreeAtPath {tree : ImmutableTree κ α} (h : DistinctKeys tree) (path : List κ) :
    DistinctKeys (tree.subtreeAtPath path) := by
  intro below
  rw [← subtreeAtPath_append]
  exact h (path ++ below)

/-- A child has no key twice. -/
theorem DistinctKeys.childOrEmpty {tree : ImmutableTree κ α} (h : DistinctKeys tree) (key : κ) :
    DistinctKeys (tree.childOrEmpty key) := by
  have hsub := h.subtreeAtPath [key]
  rwa [subtreeAtPath_cons, subtreeAtPath_nil] at hsub

/-- A tree has distinct keys when its root and its children have. -/
theorem distinctKeys_of_children {tree : ImmutableTree κ α} (hroot : (tree.children.map Prod.fst).Nodup)
    (hchild : ∀ key, DistinctKeys (tree.childOrEmpty key)) : DistinctKeys tree := by
  intro path
  cases path with
  | nil => rwa [subtreeAtPath_nil]
  | cons key path =>
    rw [subtreeAtPath_cons]
    exact hchild key path

/-- Putting in a subtree repeats no key. -/
theorem DistinctKeys.setTree {tree newTree : ImmutableTree κ α} (h : DistinctKeys tree)
    (hnew : DistinctKeys newTree) (path : List κ) : DistinctKeys (tree.setTree newTree path) := by
  induction path generalizing tree with
  | nil => exact hnew
  | cons key path ih =>
    have hkeys := h []
    rw [subtreeAtPath_nil] at hkeys
    apply distinctKeys_of_children
    · rw [ImmutableTree.setTree, children_mk]
      split
      · exact nodup_removeKey key hkeys
      · exact nodup_insertKey key _ hkeys
    · intro other
      by_cases hne : other = key
      · subst hne
        rw [childOrEmpty_setTree_self]
        exact ih (h.childOrEmpty other)
      · rw [childOrEmpty_setTree_ne _ _ hne]
        exact h.childOrEmpty other

/-- Setting a value repeats no key. -/
theorem DistinctKeys.setValue {tree : ImmutableTree κ α} (h : DistinctKeys tree) (newValue : α)
    (path : List κ) : DistinctKeys (tree.setValue newValue path) := by
  induction path generalizing tree with
  | nil =>
    have hkeys := h []
    rw [subtreeAtPath_nil] at hkeys
    exact distinctKeys_of_children hkeys h.childOrEmpty
  | cons key path ih =>
    have hkeys := h []
    rw [subtreeAtPath_nil] at hkeys
    apply distinctKeys_of_children
    · exact nodup_insertKey key _ hkeys
    · intro other
      by_cases hne : other = key
      · subst hne
        rw [childOrEmpty_setValue_self]
        exact ih (h.childOrEmpty other)
      · rw [childOrEmpty_setValue_ne _ _ hne]
        exact h.childOrEmpty other

/-- Removing a value repeats no key. -/
theorem DistinctKeys.removeValueAtPath {tree : ImmutableTree κ α} (h : DistinctKeys tree) (path : List κ) :
    DistinctKeys (tree.removeValueAtPath path) := by
  have hroot := h []
  rw [subtreeAtPath_nil] at hroot
  induction path generalizing tree with
  | nil =>
    rw [ImmutableTree.removeValueAtPath]
    split
    · exact distinctKeys_empty
    · exact distinctKeys_of_children hroot h.childOrEmpty
  | cons key path ih =>
    rw [ImmutableTree.removeValueAtPath]
    split
    · rename_i child hchild
      have hthere : tree.childOrEmpty key = child := by rw [ImmutableTree.childOrEmpty, hchild, Option.getD_some]
      have hkeys : DistinctKeys child := hthere ▸ h.childOrEmpty key
      have hmk : DistinctKeys (mk tree.value (if (child.removeValueAtPath path).isEmpty then
          removeKey key tree.children else insertKey key (child.removeValueAtPath path) tree.children)) := by
        apply distinctKeys_of_children
        · rw [children_mk]
          split
          · exact nodup_removeKey key hroot
          · exact nodup_insertKey key _ hroot
        · intro other
          by_cases hother : other = key
          · subst hother
            rw [childOrEmpty_mk_ite_self]
            exact ih hkeys (hkeys [])
          · rw [childOrEmpty_mk_ite_ne tree _ hother]
            exact h.childOrEmpty other
      exact iteInduction (motive := DistinctKeys) (fun _ => distinctKeys_empty) fun _ => hmk
    · exact h

/-- A listed child is the one found under its key. -/
theorem DistinctKeys.childOrEmpty_eq {tree : ImmutableTree κ α} (h : DistinctKeys tree) {key : κ}
    {child : ImmutableTree κ α} (hmem : (key, child) ∈ tree.children) : tree.childOrEmpty key = child := by
  have hkeys := h []
  rw [subtreeAtPath_nil] at hkeys
  rw [ImmutableTree.childOrEmpty, (mem_iff_lookup hkeys key child).mp hmem]
  rfl

/-- No child in the tree is empty. -/
def Pruned (tree : ImmutableTree κ α) : Prop :=
  ∀ path, ∀ entry ∈ (tree.subtreeAtPath path).children, entry.2.isEmpty = false

/-- The empty tree has no empty child. -/
theorem pruned_empty : Pruned (empty : ImmutableTree κ α) := by
  intro path entry hentry
  rw [subtreeAtPath_empty] at hentry
  simp [empty] at hentry

/-- A tree with one value only has no empty child. -/
theorem pruned_initWithValue (value : α) : Pruned (initWithValue value : ImmutableTree κ α) := by
  intro path
  cases path with
  | nil => simp [initWithValue]
  | cons key path =>
    rw [subtreeAtPath_cons]
    exact pruned_empty path

/-- A subtree has no empty child. -/
theorem Pruned.subtreeAtPath {tree : ImmutableTree κ α} (h : Pruned tree) (path : List κ) :
    Pruned (tree.subtreeAtPath path) := by
  intro below
  rw [← subtreeAtPath_append]
  exact h (path ++ below)

/-- A child has no empty child. -/
theorem Pruned.childOrEmpty {tree : ImmutableTree κ α} (h : Pruned tree) (key : κ) :
    Pruned (tree.childOrEmpty key) := by
  have hsub := h.subtreeAtPath [key]
  rwa [subtreeAtPath_cons, subtreeAtPath_nil] at hsub

/-- A tree is pruned when its root and its children are. -/
theorem pruned_of_children {tree : ImmutableTree κ α} (hroot : ∀ entry ∈ tree.children, entry.2.isEmpty = false)
    (hchild : ∀ key, Pruned (tree.childOrEmpty key)) : Pruned tree := by
  intro path
  cases path with
  | nil => rwa [subtreeAtPath_nil]
  | cons key path =>
    rw [subtreeAtPath_cons]
    exact hchild key path

/-- Putting in a subtree leaves no empty child. -/
theorem Pruned.setTree {tree newTree : ImmutableTree κ α} (h : Pruned tree) (hnew : Pruned newTree)
    (path : List κ) : Pruned (tree.setTree newTree path) := by
  induction path generalizing tree with
  | nil => exact hnew
  | cons key path ih =>
    have hkeys := h []
    rw [subtreeAtPath_nil] at hkeys
    apply pruned_of_children
    · intro entry hentry
      rw [ImmutableTree.setTree, children_mk] at hentry
      split at hentry
      · exact hkeys entry (List.mem_of_mem_filter hentry)
      · rename_i hthere
        rcases List.mem_cons.mp hentry with rfl | hold
        · exact Bool.not_eq_true _ ▸ hthere
        · exact hkeys entry (List.mem_of_mem_filter hold)
    · intro other
      by_cases hne : other = key
      · subst hne
        rw [childOrEmpty_setTree_self]
        exact ih (h.childOrEmpty other)
      · rw [childOrEmpty_setTree_ne _ _ hne]
        exact h.childOrEmpty other

/-- A tree in which a value is set is not empty. -/
theorem isEmpty_setValue (tree : ImmutableTree κ α) (newValue : α) (path : List κ) :
    (tree.setValue newValue path).isEmpty = false := by
  cases path <;> simp [ImmutableTree.setValue, isEmpty, insertKey]

/-- Setting a value leaves no empty child. -/
theorem Pruned.setValue {tree : ImmutableTree κ α} (h : Pruned tree) (newValue : α) (path : List κ) :
    Pruned (tree.setValue newValue path) := by
  induction path generalizing tree with
  | nil =>
    have hkeys := h []
    rw [subtreeAtPath_nil] at hkeys
    exact pruned_of_children hkeys h.childOrEmpty
  | cons key path ih =>
    have hkeys := h []
    rw [subtreeAtPath_nil] at hkeys
    apply pruned_of_children
    · intro entry hentry
      rcases List.mem_cons.mp hentry with rfl | hold
      · exact isEmpty_setValue _ newValue path
      · exact hkeys entry (List.mem_of_mem_filter hold)
    · intro other
      by_cases hne : other = key
      · subst hne
        rw [childOrEmpty_setValue_self]
        exact ih (h.childOrEmpty other)
      · rw [childOrEmpty_setValue_ne _ _ hne]
        exact h.childOrEmpty other

/-- A pruned tree that is not empty holds a value. -/
theorem Pruned.exists_value {tree : ImmutableTree κ α} (h : Pruned tree) (hkeys : DistinctKeys tree)
    (hthere : tree.isEmpty = false) : ∃ path value, tree.valueAtPath path = some value := by
  induction tree using childrenInduction with
  | node rootValue children ih =>
    cases rootValue with
    | some value => exact ⟨[], value, by simp⟩
    | none =>
      cases children with
      | nil => simp [isEmpty] at hthere
      | cons entry rest =>
        have hchild := hkeys.childOrEmpty_eq (List.mem_cons_self : entry ∈ entry :: rest)
        have hpruned := h.childOrEmpty entry.1
        have hdistinct := hkeys.childOrEmpty entry.1
        have hnot := h [] entry (by simp)
        rw [hchild] at hpruned hdistinct
        obtain ⟨path, value, hvalue⟩ := ih entry (by simp) hpruned hdistinct hnot
        refine ⟨entry.1 :: path, value, ?_⟩
        rw [valueAtPath_cons, hchild, hvalue]

/-- The enumeration lists each value with its path. -/
theorem mem_forEachPathSoFar_iff {tree : ImmutableTree κ α} (h : DistinctKeys tree) (pathSoFar path : List κ)
    (value : α) : (path, value) ∈ tree.forEachPathSoFar pathSoFar ↔
      ∃ rest, path = pathSoFar ++ rest ∧ tree.valueAtPath rest = some value := by
  induction tree using childrenInduction generalizing pathSoFar path with
  | node rootValue children ih =>
    rw [forEachPathSoFar, List.mem_append, forEachChildPathSoFar_eq, List.mem_flatMap]
    constructor
    · rintro (⟨⟨key, child⟩, hmem, hin⟩ | hroot)
      · have hchild := h.childOrEmpty_eq hmem
        obtain ⟨rest, rfl, hrest⟩ := (ih _ hmem (hchild ▸ h.childOrEmpty key) _ _).mp hin
        refine ⟨key :: rest, by simp, ?_⟩
        rw [valueAtPath_cons, hchild, hrest]
      · refine ⟨[], ?_, ?_⟩
        · simp only [Option.mem_toList, Option.map_eq_some_iff, Prod.mk.injEq] at hroot
          obtain ⟨v, -, rfl, -⟩ := hroot
          simp
        · simp only [Option.mem_toList, Option.map_eq_some_iff, Prod.mk.injEq] at hroot
          obtain ⟨v, hv, -, rfl⟩ := hroot
          simpa using hv
    · rintro ⟨rest, rfl, hrest⟩
      cases rest with
      | nil =>
        right
        simpa using hrest
      | cons key rest =>
        left
        rw [valueAtPath_cons] at hrest
        cases hlookup : children.lookup key with
        | none => simp [childOrEmpty, hlookup] at hrest
        | some child =>
          have hmem := Replace.mem_of_lookup hlookup
          have hchild : (mk rootValue children).childOrEmpty key = child := h.childOrEmpty_eq hmem
          refine ⟨(key, child), hmem, ?_⟩
          rw [ih _ hmem (hchild ▸ h.childOrEmpty key)]
          exact ⟨rest, by simp, hchild ▸ hrest⟩

/-- The enumeration lists the values with their paths. -/
theorem mem_forEach_iff {tree : ImmutableTree κ α} (h : DistinctKeys tree) (path : List κ) (value : α) :
    (path, value) ∈ tree.forEach ↔ tree.valueAtPath path = some value := by
  rw [forEach, mem_forEachPathSoFar_iff h]
  simp

/-- The enumeration lists each path once. -/
theorem nodup_forEachPathSoFar {tree : ImmutableTree κ α} (h : DistinctKeys tree) (pathSoFar : List κ) :
    ((tree.forEachPathSoFar pathSoFar).map Prod.fst).Nodup := by
  induction tree using childrenInduction generalizing pathSoFar with
  | node rootValue children ih =>
    have hkeys : (children.map Prod.fst).Nodup := h []
    have hbelow : ∀ entry ∈ children, ∀ path ∈ (forEachPathSoFar entry.2 (pathSoFar ++ [entry.1])).map Prod.fst,
        ∃ rest, path = pathSoFar ++ entry.1 :: rest := by
      rintro ⟨key, child⟩ hmem path hpath
      obtain ⟨⟨_, value⟩, hin, rfl⟩ := List.mem_map.mp hpath
      have hchild := h.childOrEmpty_eq hmem
      obtain ⟨rest, heq, -⟩ := (mem_forEachPathSoFar_iff (hchild ▸ h.childOrEmpty key) _ _ _).mp hin
      exact ⟨rest, by simp [heq]⟩
    rw [forEachPathSoFar, forEachChildPathSoFar_eq, List.map_append, List.map_flatMap, List.nodup_append]
    refine ⟨?_, ?_, ?_⟩
    · rw [List.nodup_flatMap]
      constructor
      · rintro ⟨key, child⟩ hmem
        have hchild := h.childOrEmpty_eq hmem
        exact ih _ hmem (hchild ▸ h.childOrEmpty key) _
      · have hpair := List.pairwise_map.mp hkeys
        refine hpair.imp_of_mem ?_
        intro first second hfirst hsecond hne path hpath hpath'
        obtain ⟨rest, hrest⟩ := hbelow first hfirst path hpath
        obtain ⟨rest', hrest'⟩ := hbelow second hsecond path hpath'
        rw [hrest, List.append_cancel_left_eq, List.cons.injEq] at hrest'
        exact hne hrest'.1
    · cases rootValue <;> simp
    · intro path hpath other hother
      obtain ⟨entry, hmem, hin⟩ := List.mem_flatMap.mp hpath
      obtain ⟨rest, rfl⟩ := hbelow entry hmem path hin
      cases rootValue with
      | none => simp at hother
      | some value =>
        obtain rfl : other = pathSoFar := by simpa using hother
        simp

/-- No path is walked twice. -/
theorem nodup_forEach {tree : ImmutableTree κ α} (h : DistinctKeys tree) : (tree.forEach.map Prod.fst).Nodup :=
  nodup_forEachPathSoFar h []

end ImmutableTree

end LoveCoupons
