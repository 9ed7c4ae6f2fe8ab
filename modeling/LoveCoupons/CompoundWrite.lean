import LoveCoupons.ImmutableTree
import LoveCoupons.Lib.PendingWrites
import LoveCoupons.Lib.TreeContents

/-!
# Compound writes

`FCompoundWrite` collects pending writes in a tree of snapshots. A write inside a collected
one is applied to that one, and a write over collected ones replaces them, so no collected
write lies below another. Priorities are left out: the app writes none, and a key has no dot.

Applied to a node, a compound write lays its writes over the node's contents. Collecting a
sequence of writes and applying the result is the same as applying them one after the other,
for a node without a value above the written places.
-/

namespace LoveCoupons

open KeyedTree PathContents

variable {κ ν : Type} [DecidableEq κ]

/-- `+[FPath relativePathFrom:to:]`. -/
def relativePath (outer inner : List κ) : List κ := inner.drop outer.length

omit [DecidableEq κ] in
/-- The path below an outer one is what is left of it. -/
@[simp] theorem relativePath_append (outer rest : List κ) : relativePath outer (outer ++ rest) = rest := by
  simp [relativePath]

/-- The contents that a tree of snapshots writes at each path. -/
def treeWrites (tree : ImmutableTree κ (Snap κ ν)) : Writes κ ν := fun path =>
  (tree.valueAtPath path).map Snap.contents

/-- `FCompoundWrite`, with what its operations maintain: a write is always a leaf, and there is one in every part. -/
structure CompoundWrite (κ ν : Type) [DecidableEq κ] where
  writeTree : ImmutableTree κ (Snap κ ν)
  distinctKeys : writeTree.DistinctKeys
  pruned : writeTree.Pruned
  independent : Independent (treeWrites writeTree)

/-- A write comes from a value of the tree. -/
theorem treeWrites_eq_some {tree : ImmutableTree κ (Snap κ ν)} {path : List κ} {n : Contents κ ν}
    (h : treeWrites tree path = some n) : ∃ node, tree.valueAtPath path = some node ∧ node.contents = n :=
  Option.map_eq_some_iff.mp h

/-- A value of the tree is a write. -/
theorem treeWrites_of_value {tree : ImmutableTree κ (Snap κ ν)} {path : List κ} {node : Snap κ ν}
    (h : tree.valueAtPath path = some node) : treeWrites tree path = some node.contents := by
  simp [treeWrites, h]

/-- Where the tree has no value, nothing is written. -/
theorem treeWrites_of_none {tree : ImmutableTree κ (Snap κ ν)} {path : List κ}
    (h : tree.valueAtPath path = none) : treeWrites tree path = none := by
  simp [treeWrites, h]

/-- The empty tree writes nothing. -/
@[simp] theorem treeWrites_empty : treeWrites (ImmutableTree.empty : ImmutableTree κ (Snap κ ν)) = fun _ => none := by
  funext path
  simp [treeWrites]

/-- A tree with a value at its root writes nothing below it. -/
theorem treeWrites_initWithValue_cons (node : Snap κ ν) (key : κ) (path : List κ) :
    treeWrites (ImmutableTree.initWithValue node) (key :: path) = none := rfl

/-- A tree with a value at its root writes it there. -/
theorem treeWrites_initWithValue_nil (node : Snap κ ν) :
    treeWrites (ImmutableTree.initWithValue node : ImmutableTree κ (Snap κ ν)) [] = some node.contents := rfl

/-- The path is covered when a value is found on it. -/
theorem covered_of_findRootMost {tree : ImmutableTree κ (Snap κ ν)} {path found : List κ} {node : Snap κ ν}
    (h : tree.findRootMostValueAndPath path = some (found, node)) :
    ∃ rest, path = found ++ rest ∧ tree.valueAtPath found = some node := by
  obtain ⟨⟨rest, rfl⟩, hvalue, -⟩ := tree.findRootMostValueAndPath_eq_some h
  exact ⟨rest, rfl, hvalue⟩

/-- The path is not covered when no value is found on it. -/
theorem not_covered_of_findRootMost {tree : ImmutableTree κ (Snap κ ν)} {path : List κ}
    (h : tree.findRootMostValueAndPath path = none) : ¬ Covered (treeWrites tree) path := by
  rintro ⟨above, n, hle, habove⟩
  rw [treeWrites_of_none (tree.findRootMostValueAndPath_eq_none h above hle)] at habove
  contradiction

/-- The tree with one more write. -/
def addWriteTree (writeTree : ImmutableTree κ (Snap κ ν)) (node : Snap κ ν) (path : List κ) :
    ImmutableTree κ (Snap κ ν) :=
  if path.isEmpty then .initWithValue node
  else
    match writeTree.findRootMostValueAndPath path with
    | some (rootMost, value) =>
      writeTree.setValue (value.updateChild (relativePath rootMost path) node) rootMost
    | none => writeTree.setTree (.initWithValue node) path

/-- A write that lies in a collected one is applied to it. -/
theorem addWriteTree_of_some {writeTree : ImmutableTree κ (Snap κ ν)} {path rootMost : List κ} {value : Snap κ ν}
    (hpath : path ≠ []) (h : writeTree.findRootMostValueAndPath path = some (rootMost, value)) (node : Snap κ ν) :
    addWriteTree writeTree node path =
      writeTree.setValue (value.updateChild (relativePath rootMost path) node) rootMost := by
  simp [addWriteTree, hpath, h]

/-- A write that lies in no collected one takes its place in the tree. -/
theorem addWriteTree_of_none {writeTree : ImmutableTree κ (Snap κ ν)} {path : List κ}
    (hpath : path ≠ []) (h : writeTree.findRootMostValueAndPath path = none) (node : Snap κ ν) :
    addWriteTree writeTree node path = writeTree.setTree (.initWithValue node) path := by
  simp [addWriteTree, hpath, h]

/-- A write at the root replaces all the others. -/
theorem treeWrites_initWithValue {writeTree : ImmutableTree κ (Snap κ ν)}
    (hind : Independent (treeWrites writeTree)) (node : Snap κ ν) :
    treeWrites (.initWithValue node) = addTo (treeWrites writeTree) [] node.contents := by
  funext q
  cases hroot : treeWrites writeTree [] with
  | some v =>
    cases q with
    | nil =>
      have hself := addTo_inside_self hroot [] node.contents
      rw [List.append_nil, write_nil] at hself
      rw [hself, treeWrites_initWithValue_nil]
    | cons key q =>
      have hother := addTo_inside_ne hind hroot [] node.contents (q := key :: q) (by simp)
      rw [List.append_nil] at hother
      rw [hother, treeWrites_initWithValue_cons]
      cases hq : treeWrites writeTree (key :: q) with
      | none => rfl
      | some m => exact absurd (hind [] (key :: q) v m hroot hq) (by simp)
  | none =>
    have hfree : ¬ Covered (treeWrites writeTree) [] := by
      rintro ⟨above, n, hle, habove⟩
      rw [List.prefix_nil.mp hle, hroot] at habove
      contradiction
    cases q with
    | nil => rw [addTo_over_self hfree, treeWrites_initWithValue_nil]
    | cons key q =>
      have hbelow := addTo_over_below hfree node.contents (r := key :: q) (by simp)
      rw [List.nil_append] at hbelow
      rw [hbelow, treeWrites_initWithValue_cons]

/-- The tree with one more write holds the writes with one more. -/
theorem treeWrites_addWriteTree {writeTree : ImmutableTree κ (Snap κ ν)}
    (hind : Independent (treeWrites writeTree)) (node : Snap κ ν) (path : List κ) :
    treeWrites (addWriteTree writeTree node path) = addTo (treeWrites writeTree) path node.contents := by
  by_cases hpath : path = []
  · subst hpath
    exact treeWrites_initWithValue hind node
  · funext q
    cases hfind : writeTree.findRootMostValueAndPath path with
    | some found =>
      obtain ⟨rootMost, value⟩ := found
      obtain ⟨rest, rfl, hvalue⟩ := covered_of_findRootMost hfind
      rw [addWriteTree_of_some hpath hfind, relativePath_append, treeWrites, ImmutableTree.valueAtPath_setValue]
      by_cases hq : q = rootMost
      · subst hq
        rw [if_pos rfl, addTo_inside_self (treeWrites_of_value hvalue)]
        simp
      · rw [if_neg hq, addTo_inside_ne hind (treeWrites_of_value hvalue) rest _ hq]
        rfl
    | none =>
      have hfree := not_covered_of_findRootMost hfind
      rw [addWriteTree_of_none hpath hfind, treeWrites]
      by_cases hle : path <+: q
      · obtain ⟨r, rfl⟩ := hle
        rw [ImmutableTree.valueAtPath_setTree_append]
        cases r with
        | nil =>
          rw [List.append_nil, addTo_over_self hfree]
          rfl
        | cons key r =>
          rw [addTo_over_below hfree _ (by simp)]
          rfl
      · rw [ImmutableTree.valueAtPath_setTree_of_not _ _ hle, addTo_over_of_not hfree _ hle]
        rfl

namespace CompoundWrite

/-- The contents written at each path. -/
def writes (compoundWrite : CompoundWrite κ ν) : Writes κ ν := treeWrites compoundWrite.writeTree

/-- `+[FCompoundWrite emptyWrite]`. -/
def emptyWrite : CompoundWrite κ ν where
  writeTree := .empty
  distinctKeys := ImmutableTree.distinctKeys_empty
  pruned := ImmutableTree.pruned_empty
  independent := by
    intro p q n m hp
    simp at hp

/-- A compound write of one node at the root. -/
def ofNode (node : Snap κ ν) : CompoundWrite κ ν where
  writeTree := .initWithValue node
  distinctKeys := ImmutableTree.distinctKeys_initWithValue node
  pruned := ImmutableTree.pruned_initWithValue node
  independent := by
    intro p q n m hp hq
    cases p with
    | nil =>
      cases q with
      | nil => rfl
      | cons key q => rw [List.nil_append, treeWrites_initWithValue_cons] at hq; contradiction
    | cons key p => rw [treeWrites_initWithValue_cons] at hp; contradiction

/-- `-[FCompoundWrite addWrite:atPath:]`. -/
def addWrite (compoundWrite : CompoundWrite κ ν) (node : Snap κ ν) (path : List κ) : CompoundWrite κ ν where
  writeTree := addWriteTree compoundWrite.writeTree node path
  distinctKeys := by
    unfold addWriteTree
    split
    · exact ImmutableTree.distinctKeys_initWithValue node
    · split
      · exact compoundWrite.distinctKeys.setValue _ _
      · exact compoundWrite.distinctKeys.setTree (ImmutableTree.distinctKeys_initWithValue node) path
  pruned := by
    unfold addWriteTree
    split
    · exact ImmutableTree.pruned_initWithValue node
    · split
      · exact compoundWrite.pruned.setValue _ _
      · exact compoundWrite.pruned.setTree (ImmutableTree.pruned_initWithValue node) path
  independent := by
    rw [treeWrites_addWriteTree compoundWrite.independent]
    exact compoundWrite.independent.addTo path node.contents

/-- `-[FCompoundWrite addWrite:atKey:]`. -/
def addWriteAtKey (compoundWrite : CompoundWrite κ ν) (node : Snap κ ν) (key : κ) : CompoundWrite κ ν :=
  compoundWrite.addWrite node [key]

/-- `-[FCompoundWrite enumerateWrites:]`: the writes with their paths, in the tree's order. -/
def enumerateWrites (compoundWrite : CompoundWrite κ ν) : List (List κ × Snap κ ν) :=
  compoundWrite.writeTree.forEach

/-- `-[FCompoundWrite addCompoundWrite:atPath:]`. -/
def addCompoundWrite (compoundWrite other : CompoundWrite κ ν) (path : List κ) : CompoundWrite κ ν :=
  other.enumerateWrites.foldl (fun newWrite entry => newWrite.addWrite entry.2 (path ++ entry.1)) compoundWrite

/-- `-[FCompoundWrite removeWriteAtPath:]`. -/
def removeWriteAtPath (compoundWrite : CompoundWrite κ ν) (path : List κ) : CompoundWrite κ ν where
  writeTree := if path.isEmpty then .empty else compoundWrite.writeTree.setTree .empty path
  distinctKeys := by
    split
    · exact ImmutableTree.distinctKeys_empty
    · exact compoundWrite.distinctKeys.setTree ImmutableTree.distinctKeys_empty path
  pruned := by
    split
    · exact ImmutableTree.pruned_empty
    · exact compoundWrite.pruned.setTree ImmutableTree.pruned_empty path
  independent := by
    intro p q n m hp hq
    have hkeep : ∀ r k, treeWrites (if path.isEmpty then ImmutableTree.empty
        else compoundWrite.writeTree.setTree .empty path) r = some k →
        treeWrites compoundWrite.writeTree r = some k := by
      intro r k hr
      split at hr
      · simp at hr
      · by_cases hle : path <+: r
        · obtain ⟨s, rfl⟩ := hle
          rw [treeWrites, ImmutableTree.valueAtPath_setTree_append] at hr
          simp at hr
        · rwa [treeWrites, ImmutableTree.valueAtPath_setTree_of_not _ _ hle] at hr
    exact compoundWrite.independent p q n m (hkeep p n hp) (hkeep _ m hq)

/-- `-[FCompoundWrite completeNodeAtPath:]`. -/
def completeNodeAtPath (compoundWrite : CompoundWrite κ ν) (path : List κ) : Option (Snap κ ν) :=
  (compoundWrite.writeTree.findRootMostValueAndPath path).map fun rootMost =>
    rootMost.2.getChild (relativePath rootMost.1 path)

/-- `-[FCompoundWrite hasCompleteWriteAtPath:]`. -/
def hasCompleteWriteAtPath (compoundWrite : CompoundWrite κ ν) (path : List κ) : Bool :=
  (compoundWrite.completeNodeAtPath path).isSome

/-- `-[FCompoundWrite rootWrite]`. -/
def rootWrite (compoundWrite : CompoundWrite κ ν) : Option (Snap κ ν) := compoundWrite.writeTree.value

/-- `-[FCompoundWrite isEmpty]`. -/
def isEmpty (compoundWrite : CompoundWrite κ ν) : Bool := compoundWrite.writeTree.isEmpty

/-- The compound write of a subtree of the collected writes. -/
def subtree (compoundWrite : CompoundWrite κ ν) (path : List κ) : CompoundWrite κ ν where
  writeTree := compoundWrite.writeTree.subtreeAtPath path
  distinctKeys := compoundWrite.distinctKeys.subtreeAtPath path
  pruned := compoundWrite.pruned.subtreeAtPath path
  independent := by
    intro p q n m hp hq
    simp only [treeWrites, ImmutableTree.valueAtPath_subtreeAtPath] at hp hq
    rw [← List.append_assoc] at hq
    exact compoundWrite.independent (path ++ p) q n m hp hq

/-- `-[FCompoundWrite childCompoundWriteAtPath:]`. -/
def childCompoundWriteAtPath (compoundWrite : CompoundWrite κ ν) (path : List κ) : CompoundWrite κ ν :=
  if path.isEmpty then compoundWrite
  else
    match compoundWrite.completeNodeAtPath path with
    | some shadowingNode => ofNode shadowingNode
    | none => compoundWrite.subtree path

/-- `-[FCompoundWrite completeChildren]`. -/
def completeChildren (compoundWrite : CompoundWrite κ ν) : List (κ × Snap κ ν) :=
  match compoundWrite.writeTree.value with
  | some node => node.children
  | none => compoundWrite.writeTree.children.filterMap fun entry =>
      entry.2.value.map fun node => (entry.1, node)

/-- `-[FCompoundWrite childCompoundWrites]`. -/
def childCompoundWrites (compoundWrite : CompoundWrite κ ν) : List (κ × CompoundWrite κ ν) :=
  compoundWrite.writeTree.children.map fun entry => (entry.1, compoundWrite.subtree [entry.1])

mutual

/-- `-[FCompoundWrite applySubtreeWrite:atPath:toNode:]`. -/
def applySubtreeWrite : ImmutableTree κ (Snap κ ν) → List κ → Snap κ ν → Snap κ ν
  | .mk (some value) _, relativePath, node => node.updateChild relativePath value
  | .mk none children, relativePath, node => applyChildWrites children relativePath node

/-- The enumeration of the children in `-[FCompoundWrite applySubtreeWrite:atPath:toNode:]`. -/
def applyChildWrites : List (κ × ImmutableTree κ (Snap κ ν)) → List κ → Snap κ ν → Snap κ ν
  | [], _, node => node
  | (childKey, childTree) :: rest, relativePath, node =>
    applyChildWrites rest relativePath (applySubtreeWrite childTree (relativePath ++ [childKey]) node)

end

/-- `-[FCompoundWrite applyToNode:]`. -/
def applyToNode (compoundWrite : CompoundWrite κ ν) (node : Snap κ ν) : Snap κ ν :=
  applySubtreeWrite compoundWrite.writeTree [] node

/-- The writes are the ones that are enumerated. -/
theorem mem_enumerateWrites_iff (compoundWrite : CompoundWrite κ ν) (path : List κ) (node : Snap κ ν) :
    (path, node) ∈ compoundWrite.enumerateWrites ↔ compoundWrite.writeTree.valueAtPath path = some node :=
  ImmutableTree.mem_forEach_iff compoundWrite.distinctKeys path node

/-- Looking up a path among the enumerated writes gives what is written there. -/
theorem lookup_enumerateWrites (compoundWrite : CompoundWrite κ ν) (path : List κ) :
    (compoundWrite.enumerateWrites.map fun entry => (entry.1, entry.2.contents)).lookup path =
      compoundWrite.writes path := by
  have hnodup := ImmutableTree.nodup_forEach compoundWrite.distinctKeys
  have hmem := Dictionary.mem_iff_lookup hnodup path
  have hlookup : compoundWrite.enumerateWrites.lookup path = compoundWrite.writeTree.valueAtPath path := by
    ext node
    rw [← Option.mem_def, Option.mem_def, ← mem_enumerateWrites_iff]
    exact (hmem node).symm
  rw [writes, treeWrites, ← hlookup]
  generalize compoundWrite.enumerateWrites = entries
  induction entries with
  | nil => rfl
  | cons entry rest ih =>
    rw [List.map_cons, List.lookup_cons, List.lookup_cons, ih]
    cases path == entry.1 <;> rfl

/-- The enumerated writes lie apart. -/
theorem pairwise_apart (compoundWrite : CompoundWrite κ ν) :
    compoundWrite.enumerateWrites.Pairwise fun first second => Apart first.1 second.1 := by
  have hnodup := List.pairwise_map.mp (ImmutableTree.nodup_forEach compoundWrite.distinctKeys)
  refine hnodup.imp_of_mem ?_
  intro first second hfirst hsecond hne
  have hfirst' := treeWrites_of_value ((compoundWrite.mem_enumerateWrites_iff _ _).mp hfirst)
  have hsecond' := treeWrites_of_value ((compoundWrite.mem_enumerateWrites_iff _ _).mp hsecond)
  exact compoundWrite.independent.apart hfirst' hsecond' hne

/-- A tree whose writes are leaves is applied write by write, in the order of the enumeration. -/
theorem applySubtreeWrite_eq_foldl {tree : ImmutableTree κ (Snap κ ν)} (hkeys : tree.DistinctKeys)
    (hind : Independent (treeWrites tree)) (path : List κ) (node : Snap κ ν) :
    applySubtreeWrite tree path node =
      (tree.forEachPathSoFar path).foldl (fun node entry => node.updateChild entry.1 entry.2) node := by
  induction tree using ImmutableTree.childrenInduction generalizing path node with
  | node value children ih =>
    have hchild : ∀ entry ∈ children, entry.2.DistinctKeys ∧ Independent (treeWrites entry.2) := by
      rintro ⟨key, child⟩ hmem
      have heq := hkeys.childOrEmpty_eq hmem
      refine ⟨heq ▸ hkeys.childOrEmpty key, ?_⟩
      intro p q n m hp hq
      apply hind (key :: p) q n m
      · rw [treeWrites, ImmutableTree.valueAtPath_cons, heq]
        exact hp
      · rw [List.cons_append, treeWrites, ImmutableTree.valueAtPath_cons, heq]
        exact hq
    have hchildren : applyChildWrites children path node =
        (ImmutableTree.forEachChildPathSoFar children path).foldl
          (fun node entry => node.updateChild entry.1 entry.2) node := by
      clear hkeys hind
      induction children generalizing node with
      | nil => rfl
      | cons entry rest ihrest =>
        obtain ⟨key, child⟩ := entry
        have hhead := hchild (key, child) (by simp)
        rw [applyChildWrites, ImmutableTree.forEachChildPathSoFar, List.foldl_append,
          ← ih (key, child) (by simp) hhead.1 hhead.2]
        exact ihrest (fun entry hmem => ih entry (by simp [hmem])) _ fun entry hmem => hchild entry (by simp [hmem])
    cases value with
    | none =>
      rw [applySubtreeWrite, ImmutableTree.forEachPathSoFar, hchildren]
      simp
    | some value =>
      have hnone : ImmutableTree.forEachChildPathSoFar children path = [] := by
        rw [ImmutableTree.forEachChildPathSoFar_eq, List.flatMap_eq_nil_iff]
        rintro ⟨key, child⟩ hmem
        have heq := hkeys.childOrEmpty_eq hmem
        rw [List.eq_nil_iff_forall_not_mem]
        rintro ⟨q, found⟩ hin
        obtain ⟨rest, -, hvalue⟩ :=
          (ImmutableTree.mem_forEachPathSoFar_iff (hchild _ hmem).1 _ _ _).mp hin
        have hbelow : treeWrites (.mk (some value) children) ([] ++ key :: rest) = some found.contents := by
          apply treeWrites_of_value
          rw [List.nil_append, ImmutableTree.valueAtPath_cons, heq]
          exact hvalue
        have hroot : treeWrites (.mk (some value) children) [] = some value.contents := rfl
        exact absurd (hind [] (key :: rest) _ _ hroot hbelow) (by simp)
      rw [applySubtreeWrite, ImmutableTree.forEachPathSoFar, hnone]
      simp

end CompoundWrite

/-- Writes that lie apart, made one after the other, are laid over the contents. -/
theorem overlays_foldl (entries : List (List κ × Snap κ ν))
    (hapart : entries.Pairwise fun first second => Apart first.1 second.1) (node : Snap κ ν) :
    Overlays (fun path => (entries.map fun entry => (entry.1, entry.2.contents)).lookup path) node.contents
      (entries.foldl (fun node entry => node.updateChild entry.1 entry.2) node).contents := by
  induction entries generalizing node with
  | nil => exact overlays_nothing node.contents
  | cons entry rest ih =>
    obtain ⟨path, new⟩ := entry
    rw [List.pairwise_cons] at hapart
    have hrest := ih hapart.2 (node.updateChild path new)
    rw [Snap.contents_updateChild] at hrest
    refine hrest.cons (by simp) ?_ ?_
    · intro q hq
      rw [List.map_cons, List.lookup_cons, beq_eq_false_iff_ne.mpr hq]
    · intro q m hq
      have hmem := Replace.mem_of_lookup hq
      obtain ⟨other, hother, heq⟩ := List.mem_map.mp hmem
      obtain ⟨rfl, -⟩ := Prod.mk.inj heq
      exact hapart.1 other hother

namespace CompoundWrite

/-- Applying a compound write lays its writes over the node. -/
theorem overlays_applyToNode (compoundWrite : CompoundWrite κ ν) (node : Snap κ ν) :
    Overlays compoundWrite.writes node.contents (compoundWrite.applyToNode node).contents := by
  have hfold := overlays_foldl compoundWrite.enumerateWrites compoundWrite.pairwise_apart node
  have hwrites : (fun path => (compoundWrite.enumerateWrites.map fun entry =>
      (entry.1, entry.2.contents)).lookup path) = compoundWrite.writes :=
    funext compoundWrite.lookup_enumerateWrites
  rw [hwrites] at hfold
  rw [applyToNode, applySubtreeWrite_eq_foldl compoundWrite.distinctKeys compoundWrite.independent]
  exact hfold

/-- The empty write writes nothing. -/
@[simp] theorem writes_emptyWrite : (emptyWrite : CompoundWrite κ ν).writes = fun _ => none := treeWrites_empty

/-- Adding a write to a compound write adds it to its writes. -/
@[simp] theorem writes_addWrite (compoundWrite : CompoundWrite κ ν) (node : Snap κ ν) (path : List κ) :
    (compoundWrite.addWrite node path).writes = addTo compoundWrite.writes path node.contents :=
  treeWrites_addWriteTree compoundWrite.independent node path

/-- The compound write that collects a sequence of writes. -/
def collect (entries : List (List κ × Snap κ ν)) : CompoundWrite κ ν :=
  entries.foldl (fun newWrite entry => newWrite.addWrite entry.2 entry.1) emptyWrite

/-- No value of the contents stands above a write that is collected. -/
def OpensAll (compoundWrite : CompoundWrite κ ν) (f : Contents κ ν) : Prop :=
  ∀ path n, compoundWrite.writes path = some n → Opens f path

/-- A further write at an open place leaves all places open. -/
theorem OpensAll.addWrite {compoundWrite : CompoundWrite κ ν} {f : Contents κ ν}
    (h : compoundWrite.OpensAll f) (node : Snap κ ν) {path : List κ} (hopen : Opens f path) :
    (compoundWrite.addWrite node path).OpensAll f := by
  intro q n hq
  rw [writes_addWrite] at hq
  rcases addTo_support hq with rfl | ⟨v, hv⟩
  · exact hopen
  · exact h q v hv

/-- Adding writes one after the other is writing on top. -/
theorem overlays_foldl_addWrite (entries : List (List κ × Snap κ ν)) {compoundWrite : CompoundWrite κ ν}
    {f : Contents κ ν} {node : Snap κ ν} (h : Overlays compoundWrite.writes f node.contents)
    (hopens : compoundWrite.OpensAll f) (hopen : ∀ entry ∈ entries, Opens f entry.1) :
    Overlays (entries.foldl (fun newWrite entry => newWrite.addWrite entry.2 entry.1) compoundWrite).writes f
      (entries.foldl (fun node entry => node.updateChild entry.1 entry.2) node).contents := by
  induction entries generalizing compoundWrite node with
  | nil => exact h
  | cons entry rest ih =>
    have hhead := hopen entry (by simp)
    apply ih
    · rw [Snap.contents_updateChild, writes_addWrite]
      exact h.addTo compoundWrite.independent hopens hhead entry.2.contents
    · exact hopens.addWrite entry.2 hhead
    · exact fun entry hmem => hopen entry (by simp [hmem])

/-- Collecting writes and applying them at once is the same as applying them one after the other. -/
theorem contents_applyToNode_collect (entries : List (List κ × Snap κ ν)) (node : Snap κ ν)
    (hopen : ∀ entry ∈ entries, Opens node.contents entry.1) :
    ((collect entries).applyToNode node).contents =
      (entries.foldl (fun node entry => node.updateChild entry.1 entry.2) node).contents := by
  have hstart : Overlays (emptyWrite : CompoundWrite κ ν).writes node.contents node.contents := by
    rw [writes_emptyWrite]
    exact overlays_nothing node.contents
  have hopens : (emptyWrite : CompoundWrite κ ν).OpensAll node.contents := by
    intro path n hpath
    simp at hpath
  have hfold := overlays_foldl_addWrite entries hstart hopens hopen
  exact ((collect entries).overlays_applyToNode node).unique hfold

/-- Two writes at one place are collected and applied to nothing. -/
theorem contents_applyToNode_collect_again :
    ((collect [([true], Snap.leafNode 1), ([true], Snap.leafNode 2)]).applyToNode
        (Snap.emptyNode : Snap Bool ℕ)).contents =
      ([([true], Snap.leafNode 1), ([true], Snap.leafNode 2)].foldl
        (fun node entry => node.updateChild entry.1 entry.2) (Snap.emptyNode : Snap Bool ℕ)).contents := by
  apply contents_applyToNode_collect
  intro entry _ q k r _
  rw [Snap.contents_emptyNode]
  rfl

/-- A complete node is a part of the write that covers its path. -/
theorem completeNodeAtPath_eq_some {compoundWrite : CompoundWrite κ ν} {path : List κ} {node : Snap κ ν}
    (h : compoundWrite.completeNodeAtPath path = some node) :
    ∃ r s v, path = r ++ s ∧ compoundWrite.writes r = some v ∧ node.contents = below v s := by
  obtain ⟨⟨rootMost, value⟩, hfind, rfl⟩ := Option.map_eq_some_iff.mp h
  obtain ⟨rest, rfl, hvalue⟩ := covered_of_findRootMost hfind
  refine ⟨rootMost, rest, value.contents, rfl, treeWrites_of_value hvalue, ?_⟩
  rw [relativePath_append, Snap.contents_getChild]

/-- There is a complete node exactly where a write covers the path. -/
theorem completeNodeAtPath_eq_none {compoundWrite : CompoundWrite κ ν} {path : List κ} :
    compoundWrite.completeNodeAtPath path = none ↔ ¬ Covered compoundWrite.writes path := by
  constructor
  · intro h
    exact not_covered_of_findRootMost (Option.map_eq_none_iff.mp h)
  · intro hfree
    cases h : compoundWrite.completeNodeAtPath path with
    | none => rfl
    | some node =>
      obtain ⟨r, s, v, rfl, hr, -⟩ := completeNodeAtPath_eq_some h
      exact absurd ⟨r, v, List.prefix_append r s, hr⟩ hfree

/-- What a compound write says of a covered place does not depend on the node it is applied to. -/
theorem below_applyToNode_of_complete {compoundWrite : CompoundWrite κ ν} {path : List κ} {complete : Snap κ ν}
    (h : compoundWrite.completeNodeAtPath path = some complete) (node : Snap κ ν) :
    below (compoundWrite.applyToNode node).contents path = complete.contents := by
  obtain ⟨r, s, v, rfl, hr, hcontents⟩ := completeNodeAtPath_eq_some h
  funext q
  rw [hcontents, below, below, List.append_assoc]
  exact (compoundWrite.overlays_applyToNode node).written r v (s ++ q) hr

/-- A write of a whole value leaves that value. -/
@[simp] theorem applyToNode_ofNode (value node : Snap κ ν) :
    ((ofNode value).applyToNode node).contents = value.contents := by
  have hroot : (ofNode value).writes [] = some value.contents := rfl
  funext q
  exact ((ofNode value).overlays_applyToNode node).written [] value.contents q hroot

/-- The writes at a place are those below it. -/
theorem writes_subtree (compoundWrite : CompoundWrite κ ν) (path : List κ) :
    (compoundWrite.subtree path).writes = fun q => compoundWrite.writes (path ++ q) := by
  funext q
  simp only [writes, subtree, treeWrites, ImmutableTree.valueAtPath_subtreeAtPath]

/-- Going down with the compound write and with the node is going down after applying. -/
theorem applyToNode_childCompoundWriteAtPath (compoundWrite : CompoundWrite κ ν) (node : Snap κ ν)
    (path : List κ) : ((compoundWrite.childCompoundWriteAtPath path).applyToNode (node.getChild path)).contents =
      below (compoundWrite.applyToNode node).contents path := by
  unfold childCompoundWriteAtPath
  split
  · rename_i hnil
    rw [List.isEmpty_iff.mp hnil]
    rfl
  · split
    · rename_i complete hcomplete
      rw [applyToNode_ofNode, below_applyToNode_of_complete hcomplete]
    · rename_i hnone
      have hfree := completeNodeAtPath_eq_none.mp hnone
      have hbelow := (compoundWrite.overlays_applyToNode node).below hfree
      rw [← Snap.contents_getChild, ← writes_subtree] at hbelow
      exact ((compoundWrite.subtree path).overlays_applyToNode (node.getChild path)).unique hbelow

/-- Removing a write puts the empty tree at its place. -/
theorem writeTree_removeWriteAtPath (compoundWrite : CompoundWrite κ ν) (path : List κ) :
    (compoundWrite.removeWriteAtPath path).writeTree = compoundWrite.writeTree.setTree .empty path := by
  cases path <;> rfl

/-- Removing at a path drops the writes at and below it. -/
theorem writes_removeWriteAtPath (compoundWrite : CompoundWrite κ ν) (path : List κ) :
    (compoundWrite.removeWriteAtPath path).writes = removeBelow compoundWrite.writes path := by
  funext q
  rw [writes, treeWrites, writeTree_removeWriteAtPath]
  by_cases hle : path <+: q
  · obtain ⟨r, rfl⟩ := hle
    rw [ImmutableTree.valueAtPath_setTree_append, removeBelow_append]
    simp
  · rw [ImmutableTree.valueAtPath_setTree_of_not _ _ hle, removeBelow_of_not _ hle]
    rfl

/-- Adding writes one after the other lays them on the writes. -/
theorem writes_foldl_addWrite (compoundWrite : CompoundWrite κ ν) (entries : List (List κ × Snap κ ν)) :
    (entries.foldl (fun newWrite entry => newWrite.addWrite entry.2 entry.1) compoundWrite).writes =
      layerOn compoundWrite.writes (entries.map fun entry => (entry.1, entry.2.contents)) := by
  induction entries generalizing compoundWrite with
  | nil => rfl
  | cons entry rest ih =>
    rw [List.foldl_cons, ih, writes_addWrite]
    rfl

/-- Adding a compound write adds its writes one after the other. -/
theorem writes_addCompoundWrite (compoundWrite other : CompoundWrite κ ν) (path : List κ) :
    (compoundWrite.addCompoundWrite other path).writes = layerOn compoundWrite.writes
      (other.enumerateWrites.map fun entry => (path ++ entry.1, entry.2.contents)) := by
  have hmap : other.enumerateWrites.foldl
      (fun newWrite entry => newWrite.addWrite entry.2 (path ++ entry.1)) compoundWrite =
      (other.enumerateWrites.map fun entry => (path ++ entry.1, entry.2)).foldl
        (fun newWrite entry => newWrite.addWrite entry.2 entry.1) compoundWrite := by
    rw [List.foldl_map]
  rw [addCompoundWrite, hmap, writes_foldl_addWrite, List.map_map]
  rfl

/-- Collected writes that are apart are kept as they are. -/
theorem writes_collect {entries : List (List κ × Snap κ ν)}
    (hapart : entries.Pairwise fun first second => Apart first.1 second.1) (k : List κ) (n : Contents κ ν) :
    (collect entries).writes k = some n ↔ ∃ node, (k, node) ∈ entries ∧ node.contents = n := by
  have hlayer : (collect entries).writes = layer (entries.map fun entry => (entry.1, entry.2.contents)) := by
    rw [collect, writes_foldl_addWrite, writes_emptyWrite]
    rfl
  rw [hlayer, layer_of_apart (List.pairwise_map.mpr hapart), List.mem_map]
  constructor
  · rintro ⟨entry, hentry, heq⟩
    obtain ⟨rfl, rfl⟩ := Prod.mk.inj heq
    exact ⟨entry.2, hentry, rfl⟩
  · rintro ⟨node, hnode, rfl⟩
    exact ⟨(k, node), hnode, rfl⟩

/-- Added at a path to nothing, a compound write has its writes below the path. -/
theorem writes_addCompoundWrite_emptyWrite (other : CompoundWrite κ ν) (path q : List κ) (n : Contents κ ν) :
    (emptyWrite.addCompoundWrite other path).writes q = some n ↔ ∃ k, q = path ++ k ∧ other.writes k = some n := by
  have hcollect : emptyWrite.addCompoundWrite other path =
      collect (other.enumerateWrites.map fun entry => (path ++ entry.1, entry.2)) := by
    rw [collect, List.foldl_map]
    rfl
  have hapart : (other.enumerateWrites.map fun entry => (path ++ entry.1, entry.2)).Pairwise
      fun first second => Apart first.1 second.1 := by
    rw [List.pairwise_map]
    exact other.pairwise_apart.imp fun h => h.append_left path
  rw [hcollect, writes_collect hapart]
  constructor
  · rintro ⟨node, hnode, rfl⟩
    obtain ⟨entry, hentry, heq⟩ := List.mem_map.mp hnode
    obtain ⟨rfl, rfl⟩ := Prod.mk.inj heq
    exact ⟨entry.1, rfl, treeWrites_of_value ((other.mem_enumerateWrites_iff _ _).mp hentry)⟩
  · rintro ⟨k, rfl, hk⟩
    obtain ⟨node, hnode, rfl⟩ := treeWrites_eq_some hk
    exact ⟨node, List.mem_map.mpr ⟨(k, node), (other.mem_enumerateWrites_iff _ _).mpr hnode, rfl⟩, rfl⟩

/-- The compound writes of the children are parts with a write in them. -/
theorem mem_childCompoundWrites {compoundWrite child : CompoundWrite κ ν} {key : κ}
    (h : (key, child) ∈ compoundWrite.childCompoundWrites) :
    child = compoundWrite.subtree [key] ∧ ∃ rest n, compoundWrite.writes (key :: rest) = some n := by
  obtain ⟨⟨name, childTree⟩, hentry, heq⟩ := List.mem_map.mp h
  obtain ⟨rfl, rfl⟩ := Prod.mk.inj heq
  refine ⟨rfl, ?_⟩
  have hfound := compoundWrite.distinctKeys.childOrEmpty_eq hentry
  have hpruned := compoundWrite.pruned.childOrEmpty name
  have hdistinct := compoundWrite.distinctKeys.childOrEmpty name
  rw [hfound] at hpruned hdistinct
  obtain ⟨rest, node, hnode⟩ := hpruned.exists_value hdistinct (compoundWrite.pruned [] _ hentry)
  refine ⟨rest, node.contents, treeWrites_of_value ?_⟩
  rw [ImmutableTree.valueAtPath_cons, hfound, hnode]

/-- Every part with a write in it is among the children. -/
theorem subtree_mem_childCompoundWrites {compoundWrite : CompoundWrite κ ν} {key : κ} {rest : List κ}
    {n : Contents κ ν} (h : compoundWrite.writes (key :: rest) = some n) :
    (key, compoundWrite.subtree [key]) ∈ compoundWrite.childCompoundWrites := by
  obtain ⟨node, hnode, -⟩ := treeWrites_eq_some h
  cases hlookup : compoundWrite.writeTree.children.lookup key with
  | none =>
    rw [ImmutableTree.valueAtPath_cons, ImmutableTree.childOrEmpty, hlookup, Option.getD_none,
      ImmutableTree.valueAtPath_empty] at hnode
    contradiction
  | some child =>
    have hkeys := compoundWrite.distinctKeys []
    exact List.mem_map.mpr ⟨(key, child), (Dictionary.mem_iff_lookup hkeys key child).mpr hlookup, rfl⟩

/-- A write at the root is the only one. -/
theorem enumerateWrites_of_root {compoundWrite : CompoundWrite κ ν} {node : Snap κ ν}
    (h : ([], node) ∈ compoundWrite.enumerateWrites) : compoundWrite.enumerateWrites = [([], node)] := by
  have hapart := compoundWrite.pairwise_apart
  cases hentries : compoundWrite.enumerateWrites with
  | nil => simp [hentries] at h
  | cons entry rest =>
    rw [hentries] at h hapart
    rw [List.pairwise_cons] at hapart
    rcases List.mem_cons.mp h with rfl | hmem
    · cases rest with
      | nil => rfl
      | cons other rest => exact absurd List.nil_prefix (hapart.1 other (by simp)).1
    · exact absurd List.nil_prefix (hapart.1 _ hmem).2

end CompoundWrite

end LoveCoupons
