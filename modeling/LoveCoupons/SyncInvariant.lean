import LoveCoupons.SyncRouting
import LoveCoupons.ViewInvariant

/-!
# What every view shows

The writes of the app, their answers and the data from the server come in any order, and views
come and go. As long as no write goes below a place that may hold a value, and the server
answers the writes in the order in which they were made, every view whose server data is
complete shows the pending writes over that data.
-/

namespace LoveCoupons

open KeyedTree PathContents

variable {κ ν ρ : Type} [DecidableEq κ]

namespace ViewOperation

/-- Below an answered write, the affected places there. -/
theorem route_ackUserWrite {affectedTree : ImmutableTree κ Bool} (h : Affected affectedTree) (revert : Bool)
    (location : List κ) :
    ∃ part, (ackUserWrite [] affectedTree revert : ViewOperation κ ν).route location =
        some (.ackUserWrite [] part revert) ∧ Affected part ∧
      (∀ q k, affectedTree.valueAtPath k ≠ none → k <+: location ++ q →
        ∃ k', part.valueAtPath k' ≠ none ∧ k' <+: q) ∧
      (∀ k, part.valueAtPath k ≠ none → k ≠ [] → affectedTree.valueAtPath (location ++ k) ≠ none) := by
  induction location generalizing affectedTree with
  | nil => exact ⟨affectedTree, rfl, h, fun q k hk hle => ⟨k, hk, hle⟩, fun k hk _ => hk⟩
  | cons key location ih =>
    by_cases hvalue : affectedTree.value.isSome = true
    · have hroot : affectedTree.valueAtPath [] ≠ none := by
        rwa [ImmutableTree.valueAtPath_nil, ← Option.isSome_iff_ne_none]
      have hnext : (ackUserWrite [] affectedTree revert : ViewOperation κ ν).route (key :: location) =
          (ackUserWrite [] affectedTree revert : ViewOperation κ ν).route location := by
        rw [route, towards_of_nil rfl, operationForChild, if_pos hvalue, Option.bind_some]
      obtain ⟨part, hroute, hpart, hcover, hback⟩ := ih h
      refine ⟨part, hnext.trans hroute, hpart, ?_, ?_⟩
      · intro q _ _ _
        exact hcover q [] hroot List.nil_prefix
      · intro k hk hne
        have hdeep := hback k hk hne
        have hnil := h.independent [] (location ++ k) hroot hdeep
        exact absurd (List.append_eq_nil_iff.mp hnil).2 hne
    · have hnext : (ackUserWrite [] affectedTree revert : ViewOperation κ ν).route (key :: location) =
          (ackUserWrite [] (affectedTree.subtreeAtPath [key]) revert : ViewOperation κ ν).route location := by
        rw [route, towards_of_nil rfl, operationForChild, if_neg hvalue, Option.bind_some]
      have hsub : ∀ k, (affectedTree.subtreeAtPath [key]).valueAtPath k = affectedTree.valueAtPath (key :: k) :=
        fun k => ImmutableTree.valueAtPath_subtreeAtPath affectedTree [key] k
      have hindependent : Affected (affectedTree.subtreeAtPath [key]) := by
        refine ⟨h.distinctKeys.subtreeAtPath [key], ?_⟩
        intro p q hp hq
        rw [hsub] at hp hq
        exact h.independent (key :: p) q hp hq
      obtain ⟨part, hroute, hpart, hcover, hback⟩ := ih hindependent
      refine ⟨part, hnext.trans hroute, hpart, ?_, ?_⟩
      · intro q k hk hle
        cases k with
        | nil =>
          rw [ImmutableTree.valueAtPath_nil, ← Option.isSome_iff_ne_none] at hk
          exact absurd hk hvalue
        | cons name k =>
          obtain ⟨rfl, hle'⟩ := List.cons_prefix_cons.mp hle
          exact hcover q k (by rwa [hsub]) hle'
      · intro k hk hne
        have hdeep := hback k hk hne
        rwa [hsub] at hdeep

/-- What a merge at the root means at a location below it: nothing, the data of a place above, or the writes below. -/
def MergedAs (fromUser : Bool) (children : CompoundWrite κ ν) (location : List κ)
    (operation : Option (ViewOperation κ ν)) : Prop :=
  (operation = none ∧ ∀ k n, children.writes k = some n → Apart k location) ∨
    (∃ part k rest n, operation = some (.overwrite fromUser [] part) ∧
      children.writes k = some n ∧ location = k ++ rest ∧ part.contents = below n rest) ∨
    (∃ part, operation = some (.merge fromUser [] part) ∧
      (∀ q, part.writes q = children.writes (location ++ q)) ∧
      ∀ k n, children.writes k = some n → k <+: location → k = location)

/-- Where nothing at or above a child is written, a write that is not apart from a place below it is below the child. -/
theorem exists_below_child {children : CompoundWrite κ ν} {key : κ} (hfree : ¬ Covered children.writes [key])
    {k location : List κ} {n : Contents κ ν} (hk : children.writes k = some n)
    (hrelated : ¬ Apart k (key :: location)) :
    ∃ k', k = key :: k' ∧ (children.subtree [key]).writes k' = some n := by
  cases k with
  | nil => exact absurd ⟨[], n, List.nil_prefix, hk⟩ hfree
  | cons name k =>
    obtain rfl : name = key := by
      by_contra hne
      apply hrelated
      constructor
      · intro hle
        exact hne (List.cons_prefix_cons.mp hle).1
      · intro hle
        exact hne (List.cons_prefix_cons.mp hle).1.symm
    exact ⟨k, rfl, by rwa [CompoundWrite.writes_subtree]⟩

/-- What the writes below a child mean there is what all of them mean. -/
theorem MergedAs.cons {fromUser : Bool} {children : CompoundWrite κ ν} {key : κ} {location : List κ}
    {operation : Option (ViewOperation κ ν)} (hfree : ¬ Covered children.writes [key])
    (h : MergedAs fromUser (children.subtree [key]) location operation) :
    MergedAs fromUser children (key :: location) operation := by
  rcases h with ⟨hnone, hapart⟩ | ⟨part, k, rest, n, hpart, hk, rfl, hcontents⟩ | ⟨part, hpart, hwrites, habove⟩
  · refine .inl ⟨hnone, ?_⟩
    intro k n hk
    by_contra hrelated
    obtain ⟨k', rfl, hk'⟩ := exists_below_child hfree hk hrelated
    apply hrelated
    constructor
    · intro hle
      exact (hapart k' n hk').1 (List.cons_prefix_cons.mp hle).2
    · intro hle
      exact (hapart k' n hk').2 (List.cons_prefix_cons.mp hle).2
  · rw [CompoundWrite.writes_subtree] at hk
    exact .inr (.inl ⟨part, key :: k, rest, n, hpart, hk, rfl, hcontents⟩)
  · refine .inr (.inr ⟨part, hpart, fun q => ?_, ?_⟩)
    · rw [hwrites, CompoundWrite.writes_subtree]
      rfl
    · intro k n hk hle
      obtain ⟨k', rfl, hk'⟩ := exists_below_child hfree hk fun hapart => hapart.1 hle
      rw [habove k' n hk' (List.cons_prefix_cons.mp hle).2]

/-- The data of a place above a child is what a merge means there. -/
theorem mergedAs_of_complete (fromUser : Bool) {children : CompoundWrite κ ν} {key : κ} {complete : Snap κ ν}
    (hcomplete : children.completeNodeAtPath [key] = some complete) (location : List κ) :
    MergedAs fromUser children (key :: location) ((overwrite fromUser [] complete).route location) := by
  obtain ⟨k, rest, n, hkey, hk, hcontents⟩ := CompoundWrite.completeNodeAtPath_eq_some hcomplete
  obtain ⟨part, hroute, hpart⟩ := route_overwrite fromUser complete location
  refine .inr (.inl ⟨part, k, rest ++ location, n, hroute, hk, ?_, ?_⟩)
  · rw [← List.append_assoc, ← hkey]
    rfl
  · rw [hpart, hcontents]
    funext q
    rw [below, below, below, List.append_assoc]

/-- Where nothing is written below a child, nothing reaches a place there. -/
theorem mergedAs_none (fromUser : Bool) {children : CompoundWrite κ ν} {key : κ}
    (hfree : ¬ Covered children.writes [key]) (hempty : (children.subtree [key]).isEmpty = true) (location : List κ) :
    MergedAs fromUser children (key :: location) none := by
  refine .inl ⟨rfl, ?_⟩
  intro k n hk
  by_contra hrelated
  obtain ⟨k', -, hk'⟩ := exists_below_child hfree hk hrelated
  rw [CompoundWrite.writes, ImmutableTree.eq_empty_of_isEmpty hempty, treeWrites_empty] at hk'
  contradiction

/-- Where nothing at or above a child is written, the writes below it have none at their root. -/
theorem rootWrite_subtree {children : CompoundWrite κ ν} {key : κ} (hfree : ¬ Covered children.writes [key]) :
    (children.subtree [key]).rootWrite = none := by
  cases hvalue : (children.subtree [key]).rootWrite with
  | none => rfl
  | some node =>
    have hthere : (children.subtree [key]).writes [] = some node.contents :=
      treeWrites_of_value ((ImmutableTree.valueAtPath_nil _).trans hvalue)
    rw [CompoundWrite.writes_subtree] at hthere
    exact absurd ⟨[key], _, List.prefix_rfl, hthere⟩ hfree

/-- A merge at the root is routed to each location as what it means there. -/
theorem route_merge (fromUser : Bool) (children : CompoundWrite κ ν) (location : List κ) :
    MergedAs fromUser children location ((merge fromUser [] children).route location) := by
  induction location generalizing children with
  | nil =>
    refine .inr (.inr ⟨children, rfl, fun q => rfl, ?_⟩)
    intro k n _ hle
    exact List.prefix_nil.mp hle
  | cons key location ih =>
    cases hcomplete : children.completeNodeAtPath [key] with
    | some complete =>
      have hchild : children.childCompoundWriteAtPath [key] = .ofNode complete := by
        simp [CompoundWrite.childCompoundWriteAtPath, hcomplete]
      rw [route, towards_of_nil rfl, operationForChild, hchild]
      exact mergedAs_of_complete fromUser hcomplete location
    | none =>
      have hfree := CompoundWrite.completeNodeAtPath_eq_none.mp hcomplete
      have hchild : children.childCompoundWriteAtPath [key] = children.subtree [key] := by
        simp [CompoundWrite.childCompoundWriteAtPath, hcomplete]
      rw [route, towards_of_nil rfl, operationForChild, hchild]
      by_cases hempty : (children.subtree [key]).isEmpty = true
      · rw [if_pos hempty]
        exact mergedAs_none fromUser hfree hempty location
      · rw [if_neg hempty, rootWrite_subtree hfree]
        exact (ih (children.subtree [key])).cons hfree

/-- A location is on the way to the operation's path, below it, or apart from it. -/
theorem route_cases (operation : ViewOperation κ ν) (path location : List κ) :
    (∃ rest, path = location ++ rest ∧
        (operation.withPath path).route location = some (operation.withPath rest)) ∨
      (∃ below, location = path ++ below ∧
        (operation.withPath path).route location = (operation.withPath []).route below) ∨
      (Apart path location ∧ (operation.withPath path).route location = none) := by
  rcases related location path with ⟨rest, rfl⟩ | ⟨key, rest, rfl⟩ | hapart
  · exact .inl ⟨rest, rfl, route_withPath operation location rest⟩
  · exact .inr (.inl ⟨key :: rest, rfl, route_withPath_append operation path (key :: rest)⟩)
  · exact .inr (.inr ⟨hapart.symm, route_of_apart operation hapart.symm⟩)

end ViewOperation

section Carried

variable [DecidableEq ν] {D : List κ → Prop} {tree tree' : WriteTree κ ν}

/-- Getting the operation, or nothing, a view at the location goes on showing what it should while the pending
writes change. -/
def Carries (D : List κ → Prop) (tree tree' : WriteTree κ ν) (location : List κ)
    (operation : Option (ViewOperation κ ν)) : Prop :=
  ∀ cache, ViewOk D tree location (fun _ => False) cache →
    match operation with
    | none => ViewOk D tree' location (fun _ => False) cache
    | some operation => ∀ serverCache, ViewOk D tree' location (fun _ => False)
        (ViewProcessor.process cache operation ⟨location, tree'⟩ serverCache).1

section FromServer

variable (hlayered : tree.Layered) (hfits : tree.FitsAll D)

include hlayered hfits

/-- Getting what an overwrite of the server means there, every view goes on showing what it should. -/
theorem carries_serverOverwrite {path : List κ} {snap : Snap κ ν} (h : Fits D path snap.contents)
    (location : List κ) : Carries D tree tree location ((ViewOperation.overwrite false path snap).route location) := by
  intro cache hcache
  rcases ViewOperation.route_cases (.overwrite false path snap) path location with
    ⟨rest, rfl, hroute⟩ | ⟨below, rfl, hroute⟩ | ⟨-, hroute⟩
  · rw [ViewOperation.withPath] at hroute
    rw [hroute]
    intro serverCache
    exact (hcache.applyServerOverwriteTo hlayered hfits rest h.inside fun _ => h.above).mono
      fun q hq => absurd hq.1 id
  · obtain ⟨part, hpart, hcontents⟩ := ViewOperation.route_overwrite false snap below
    rw [ViewOperation.withPath, ViewOperation.withPath, hpart] at hroute
    rw [hroute]
    intro serverCache
    have hclean : Clean D ((path ++ below) ++ []) part.contents := by
      rw [hcontents, List.append_nil]
      exact Clean.below h.inside below
    exact (hcache.applyServerOverwriteTo hlayered hfits [] hclean fun hne => absurd rfl hne).mono
      fun q hq => absurd hq.1 id
  · rw [ViewOperation.withPath] at hroute
    rw [hroute]
    exact hcache

/-- Getting what a merge of the server means there, every view goes on showing what it should. -/
theorem carries_serverMerge {path : List κ} {children : CompoundWrite κ ν}
    (h : ∀ k n, children.writes k = some n → Fits D (path ++ k) n) (location : List κ) :
    Carries D tree tree location ((ViewOperation.merge false path children).route location) := by
  intro cache hcache
  rcases ViewOperation.route_cases (.merge false path children) path location with
    ⟨rest, rfl, hroute⟩ | ⟨below, rfl, hroute⟩ | ⟨-, hroute⟩
  · rw [ViewOperation.withPath] at hroute
    rw [hroute]
    intro serverCache
    refine (hcache.applyServerMergeTo hlayered hfits rest ?_).mono fun q hq => absurd hq.1 id
    intro k n hk
    rw [← List.append_assoc]
    exact h k n hk
  · rw [ViewOperation.withPath, ViewOperation.withPath] at hroute
    rw [hroute]
    rcases ViewOperation.route_merge false children below with ⟨hnone, -⟩ |
      ⟨part, k, rest, n, hpart, hk, rfl, hcontents⟩ | ⟨part, hpart, hwrites, -⟩
    · rw [hnone]
      exact hcache
    · rw [hpart]
      intro serverCache
      have hclean : Clean D ((path ++ (k ++ rest)) ++ []) part.contents := by
        rw [hcontents, List.append_nil, ← List.append_assoc]
        exact Clean.below (h k n hk).inside rest
      exact (hcache.applyServerOverwriteTo hlayered hfits [] hclean fun hne => absurd rfl hne).mono
        fun q hq => absurd hq.1 id
    · rw [hpart]
      intro serverCache
      refine (hcache.applyServerMergeTo hlayered hfits [] ?_).mono fun q hq => absurd hq.1 id
      intro k n hk
      rw [hwrites] at hk
      rw [List.nil_append, List.append_assoc]
      exact h _ n hk
  · rw [ViewOperation.withPath] at hroute
    rw [hroute]
    exact hcache

/-- Told that a listen above is complete, every view goes on showing what it should. -/
theorem carries_listenComplete {path : List κ} (h : Reached D path) (location : List κ) :
    Carries D tree tree location ((ViewOperation.listenComplete path).route location) := by
  intro cache hcache
  rcases ViewOperation.route_cases (.listenComplete path) path location with
    ⟨rest, rfl, hroute⟩ | ⟨below, rfl, hroute⟩ | ⟨-, hroute⟩
  · rw [ViewOperation.withPath] at hroute
    rw [hroute]
    intro serverCache
    exact (hcache.listenComplete hlayered hfits rest fun _ => h).mono fun q hq => absurd hq.1 id
  · rw [ViewOperation.withPath, ViewOperation.withPath, ViewOperation.route_listenComplete] at hroute
    rw [hroute]
    intro serverCache
    exact (hcache.listenComplete hlayered hfits [] fun hne => absurd rfl hne).mono fun q hq => absurd hq.1 id
  · rw [ViewOperation.withPath] at hroute
    rw [hroute]
    exact hcache

end FromServer

section FromUser

omit [DecidableEq ν] in
/-- A view that no further pending write is about. -/
theorem ViewOk.unaffected {location : List κ} {cache : ViewCache κ ν}
    (h : ViewOk D tree location (fun _ => False) cache) (hextended : Extended tree tree' location []) :
    ViewOk D tree' location (fun _ => False) cache :=
  h.extended hextended (by simp) (by simp) ⟨h.toViewBase, rfl⟩ (fun hcomplete => ⟨hcomplete, rfl⟩) (by simp)

/-- Getting what an overwrite of the user means there, every view goes on showing what it should. -/
theorem carries_userOverwrite {path : List κ} {snap : Snap κ ν} (h : Fits D path snap.contents)
    (hpending : tree'.pendingWrites = tree.pendingWrites ++ [(path, snap.contents)]) (location : List κ) :
    Carries D tree tree' location ((ViewOperation.overwrite true path snap).route location) := by
  intro cache hcache
  rcases ViewOperation.route_cases (.overwrite true path snap) path location with
    ⟨rest, rfl, hroute⟩ | ⟨below, rfl, hroute⟩ | ⟨hapart, hroute⟩
  · rw [ViewOperation.withPath] at hroute
    rw [hroute]
    intro serverCache
    refine hcache.applyUserOverwriteTo rest ⟨?_, ?_⟩ h.inside (fun _ => h.above) ⟨_, tree'⟩ serverCache
    · rintro ⟨w, hw, hle⟩
      rw [hpending, List.mem_append, List.mem_singleton] at hw
      rcases hw with hold | rfl
      · exact .inr ⟨w, hold, hle⟩
      · exact .inl ⟨(rest, snap.contents), by simp, eq_nil_of_prefix_self hle⟩
    · intro value q
      rw [hpending]
      rfl
  · obtain ⟨part, hpart, hcontents⟩ := ViewOperation.route_overwrite true snap below
    rw [ViewOperation.withPath, ViewOperation.withPath, hpart] at hroute
    rw [hroute]
    intro serverCache
    refine hcache.applyUserOverwriteTo [] ⟨?_, ?_⟩ ?_ (fun hne => absurd rfl hne) ⟨path ++ below, tree'⟩ serverCache
    · exact fun _ => .inl ⟨([], part.contents), by simp, rfl⟩
    · intro value q
      rw [hpending, List.map_singleton, List.append_nil, latest_concat_append, List.append_assoc,
        latest_concat_append, hcontents]
      rfl
    · rw [hcontents, List.append_nil]
      exact Clean.below h.inside below
  · rw [ViewOperation.withPath] at hroute
    rw [hroute]
    refine hcache.unaffected ⟨?_, ?_⟩
    · rintro ⟨w, hw, hle⟩
      rw [hpending, List.mem_append, List.mem_singleton] at hw
      rcases hw with hold | rfl
      · exact .inr ⟨w, hold, hle⟩
      · exact absurd hle hapart.1
    · intro value q
      rw [hpending, latest_concat_of_not _ (hapart.not_prefix_append q), List.map_nil, List.append_nil]

/-- The writes of an update, with their places. -/
def placed (path : List κ) (children : CompoundWrite κ ν) : List (List κ × Contents κ ν) :=
  children.enumerateWrites.map fun entry => (path ++ entry.1, entry.2.contents)

omit [DecidableEq ν] in
/-- A placed write is one of the compound write, at its place. -/
theorem mem_placed (path : List κ) (children : CompoundWrite κ ν) (w : List κ × Contents κ ν) :
    w ∈ placed path children ↔ ∃ k, w.1 = path ++ k ∧ children.writes k = some w.2 := by
  rw [placed, List.mem_map]
  constructor
  · rintro ⟨entry, hentry, rfl⟩
    exact ⟨entry.1, rfl, treeWrites_of_value ((children.mem_enumerateWrites_iff _ _).mp hentry)⟩
  · rintro ⟨k, hplace, hk⟩
    obtain ⟨node, hnode, hcontents⟩ := treeWrites_eq_some hk
    refine ⟨(k, node), (children.mem_enumerateWrites_iff _ _).mpr hnode, ?_⟩
    rw [hcontents, ← hplace]

omit [DecidableEq ν] in
/-- No placed write is above another one. -/
theorem pairwise_placed (path : List κ) (children : CompoundWrite κ ν) :
    (placed path children).Pairwise fun w u => Apart w.1 u.1 := by
  rw [placed, List.pairwise_map]
  exact children.pairwise_apart.imp fun h => h.append_left path

omit [DecidableEq ν] in
/-- What an update says of a place below one of its writes. -/
theorem latest_placed {path : List κ} {children : CompoundWrite κ ν} {k : List κ} {n : Contents κ ν}
    (hk : children.writes k = some n) (value : Option ν) (r : List κ) :
    latest (placed path children) value (path ++ (k ++ r)) = n r := by
  rw [← List.append_assoc]
  exact latest_of_mem (pairwise_placed path children) ((mem_placed path children (path ++ k, n)).mpr ⟨k, rfl, hk⟩)
    value r

omit [DecidableEq ν] in
/-- An update says nothing of a place that is below none of its writes. -/
theorem latest_placed_of_not {path : List κ} {children : CompoundWrite κ ν} {q : List κ}
    (h : ∀ k n, children.writes k = some n → ¬ path ++ k <+: q) (value : Option ν) :
    latest (placed path children) value q = value := by
  apply latest_of_forall_not
  intro w hw hle
  obtain ⟨k, hplace, hk⟩ := (mem_placed path children w).mp hw
  exact h k w.2 hk (hplace ▸ hle)

omit [DecidableEq ν] in
/-- Seen from a location below it, an update is the part of it there. -/
theorem latest_placed_part {path below : List κ} {children part : CompoundWrite κ ν}
    (hwrites : ∀ q, part.writes q = children.writes (below ++ q))
    (habove : ∀ k n, children.writes k = some n → k <+: below → k = below) (value : Option ν) (q : List κ) :
    latest (placed (path ++ below) part) value ((path ++ below) ++ q) =
      latest (placed path children) value ((path ++ below) ++ q) := by
  by_cases hcov : ∃ k n r, part.writes k = some n ∧ q = k ++ r
  · obtain ⟨k, n, r, hk, rfl⟩ := hcov
    rw [latest_placed hk]
    rw [hwrites] at hk
    rw [List.append_assoc, ← List.append_assoc below, latest_placed hk]
  · have hnone : ∀ k n, part.writes k = some n → ¬ k <+: q := by
      rintro k n hk ⟨r, rfl⟩
      exact hcov ⟨k, n, r, hk, rfl⟩
    rw [latest_placed_of_not, latest_placed_of_not]
    · intro k n hk hle
      rw [List.append_assoc, List.prefix_append_right_inj] at hle
      rcases List.prefix_or_prefix_of_prefix hle (List.prefix_append below q) with hshort | ⟨k', rfl⟩
      · obtain rfl := habove k n hk hshort
        exact hnone [] n (by rw [hwrites, List.append_nil, hk]) List.nil_prefix
      · exact hnone k' n ((hwrites k').trans hk) ((List.prefix_append_right_inj below).mp hle)
    · intro k n hk hle
      exact hnone k n hk ((List.prefix_append_right_inj (path ++ below)).mp hle)

omit [DecidableEq ν] in
/-- The writes of an update, as a view at or above its place gets them. -/
theorem placed_eq (path : List κ) (children : CompoundWrite κ ν) :
    ((children.enumerateWrites.map fun entry => (path ++ entry.1, entry.2)).map
      fun entry => (entry.1, entry.2.contents)) = placed path children := by
  rw [placed, List.map_map]
  rfl

omit [DecidableEq ν] in
/-- A write of an update at its root is listed there. -/
theorem exists_placed_nil {rest k : List κ} {children : CompoundWrite κ ν} {n : Contents κ ν}
    (hk : children.writes k = some n) (hnil : rest ++ k = []) : ∃ u ∈ placed rest children, u.1 = [] :=
  ⟨(rest ++ k, n), (mem_placed rest children _).mpr ⟨k, rfl, hk⟩, hnil⟩

section Update

variable {path : List κ} {children : CompoundWrite κ ν}

omit [DecidableEq ν] in
/-- After an update, a pending write is an older one or one of the update. -/
theorem mem_pendingWrites_update (hpending : tree'.pendingWrites = tree.pendingWrites ++ placed path children)
    {w : List κ × Contents κ ν} (hw : w ∈ tree'.pendingWrites) :
    w ∈ tree.pendingWrites ∨ ∃ k, w.1 = path ++ k ∧ children.writes k = some w.2 := by
  rw [hpending, List.mem_append] at hw
  exact hw.imp id (mem_placed path children w).mp

omit [DecidableEq ν] in
/-- A view at or above the place of an update sees all of its writes. -/
theorem extended_update_above {location rest : List κ}
    (hpending : tree'.pendingWrites = tree.pendingWrites ++ placed (location ++ rest) children) :
    Extended tree tree' location (placed rest children) where
  covered := by
    rintro ⟨w, hw, hle⟩
    rcases mem_pendingWrites_update hpending hw with hold | ⟨k, hplace, hk⟩
    · exact .inr ⟨w, hold, hle⟩
    · rw [hplace, List.append_assoc] at hle
      exact .inl (exists_placed_nil hk (eq_nil_of_prefix_self hle))
  latest := by
    intro value q
    have hsame : (placed rest children).map (fun u => (location ++ u.1, u.2)) = placed (location ++ rest) children := by
      rw [placed, placed, List.map_map]
      apply List.map_congr_left
      intro entry _
      simp
    rw [hpending, hsame]

omit [DecidableEq ν] in
/-- A view whose place is apart from all writes of an update sees none of them. -/
theorem extended_update_apart {location : List κ}
    (hpending : tree'.pendingWrites = tree.pendingWrites ++ placed path children)
    (hapart : ∀ k n, children.writes k = some n → Apart (path ++ k) location) : Extended tree tree' location [] where
  covered := by
    rintro ⟨w, hw, hle⟩
    rcases mem_pendingWrites_update hpending hw with hold | ⟨k, hplace, hk⟩
    · exact .inr ⟨w, hold, hle⟩
    · rw [hplace] at hle
      exact absurd hle (hapart k w.2 hk).1
  latest := by
    intro value q
    rw [hpending, List.map_nil, List.append_nil, latest_append, latest_placed_of_not]
    intro k n hk hle
    exact (hapart k n hk).not_prefix_append q hle

omit [DecidableEq ν] in
/-- A view inside one of the written places sees its part of that write. -/
theorem extended_update_inside {k rest : List κ} {n : Contents κ ν}
    (hpending : tree'.pendingWrites = tree.pendingWrites ++ placed path children) (hk : children.writes k = some n) :
    Extended tree tree' (path ++ (k ++ rest)) [([], below n rest)] where
  covered := fun _ => .inl ⟨([], below n rest), by simp, rfl⟩
  latest := by
    intro value q
    rw [hpending, List.map_singleton, List.append_nil, latest_concat_append, List.append_assoc,
      List.append_assoc, latest_append, latest_placed hk]
    rfl

omit [DecidableEq ν] in
/-- A view below the place of an update, with no written place above it, sees the writes below it. -/
theorem extended_update_below {location : List κ} {part : CompoundWrite κ ν}
    (hpending : tree'.pendingWrites = tree.pendingWrites ++ placed path children)
    (hwrites : ∀ q, part.writes q = children.writes (location ++ q))
    (habove : ∀ k n, children.writes k = some n → k <+: location → k = location) :
    Extended tree tree' (path ++ location) (placed [] part) where
  covered := by
    rintro ⟨w, hw, hle⟩
    rcases mem_pendingWrites_update hpending hw with hold | ⟨k, hplace, hk⟩
    · exact .inr ⟨w, hold, hle⟩
    · rw [hplace, List.prefix_append_right_inj] at hle
      obtain rfl := habove k w.2 hk hle
      have hroot : part.writes [] = some w.2 := by rw [hwrites, List.append_nil, hk]
      exact .inl (exists_placed_nil hroot rfl)
  latest := by
    intro value q
    rw [hpending, latest_append, latest_append, ← latest_placed_part hwrites habove, placed, placed, List.map_map]
    rfl

/-- Getting what a merge of the user means there, every view goes on showing what it should. -/
theorem carries_userMerge (h : ∀ k n, children.writes k = some n → Fits D (path ++ k) n)
    (hpending : tree'.pendingWrites = tree.pendingWrites ++ placed path children) (location : List κ) :
    Carries D tree tree' location ((ViewOperation.merge true path children).route location) := by
  intro cache hcache
  rcases ViewOperation.route_cases (.merge true path children) path location with
    ⟨rest, rfl, hroute⟩ | ⟨below, rfl, hroute⟩ | ⟨hapart, hroute⟩
  · rw [ViewOperation.withPath] at hroute
    rw [hroute]
    intro serverCache
    refine hcache.applyUserMergeTo rest ?_ ?_ ?_ ⟨_, tree'⟩ serverCache
    · rw [placed_eq]
      exact extended_update_above hpending
    · intro k n hk
      rw [← List.append_assoc]
      exact (h k n hk).inside
    · intro k n hk _
      rw [← List.append_assoc]
      exact (h k n hk).above
  · rw [ViewOperation.withPath, ViewOperation.withPath] at hroute
    rw [hroute]
    rcases ViewOperation.route_merge true children below with ⟨hnone, hapart⟩ |
      ⟨part, k, rest, n, hpart, hk, rfl, hcontents⟩ | ⟨part, hpart, hwrites, habove⟩
    · rw [hnone]
      refine hcache.unaffected (extended_update_apart hpending fun k n hk => ?_)
      exact (hapart k n hk).append_left path
    · rw [hpart]
      intro serverCache
      refine hcache.applyUserOverwriteTo [] ?_ ?_ (fun hne => absurd rfl hne) ⟨path ++ (k ++ rest), tree'⟩ serverCache
      · rw [hcontents]
        exact extended_update_inside hpending hk
      · rw [hcontents, List.append_nil, ← List.append_assoc]
        exact Clean.below (h k n hk).inside rest
    · rw [hpart]
      intro serverCache
      refine hcache.applyUserMergeTo [] ?_ ?_ ?_ ⟨_, tree'⟩ serverCache
      · rw [placed_eq]
        exact extended_update_below hpending hwrites habove
      · intro k n hk
        rw [hwrites] at hk
        rw [List.nil_append, List.append_assoc]
        exact (h _ n hk).inside
      · intro k n hk _
        rw [hwrites] at hk
        rw [List.nil_append, List.append_assoc]
        exact (h _ n hk).above
  · rw [ViewOperation.withPath] at hroute
    rw [hroute]
    refine hcache.unaffected (extended_update_apart hpending fun k n _ => ?_)
    simpa using hapart.append k []

end Update

end FromUser

section Answered

omit [DecidableEq ν] in
/-- When the oldest pending writes are no longer pending, their places are stale. -/
theorem ViewOk.remove {location : List κ} {cache : ViewCache κ ν} {us : List (List κ × Contents κ ν)}
    (h : ViewOk D tree location (fun _ => False) cache) (hpending : tree.pendingWrites = us ++ tree'.pendingWrites) :
    ViewOk D tree' location (fun q => ∃ w ∈ us, w.1 <+: location ++ q) cache where
  toViewBase := h.toViewBase
  shows := by
    intro hcase
    have hbefore := h.shows (hcase.imp id fun ⟨w, hw, hle⟩ => ⟨w, by simp [hpending, hw], hle⟩)
    have hshows := hbefore.2.shows fun q hq => absurd hq id
    rw [hpending] at hshows
    exact ⟨hbefore.1, hshows.remove⟩

omit [DecidableEq ν] in
/-- The paths that are marked are those marked before and the further ones. -/
theorem valueAtPath_foldl_setValue (paths : List (List κ × Snap κ ν)) (affectedTree : ImmutableTree κ Bool)
    (k : List κ) :
    (paths.foldl (fun affectedTree entry => affectedTree.setValue true entry.1) affectedTree).valueAtPath k ≠ none ↔
      affectedTree.valueAtPath k ≠ none ∨ k ∈ paths.map Prod.fst := by
  induction paths generalizing affectedTree with
  | nil => simp
  | cons entry rest ih =>
    rw [List.foldl_cons, ih, ImmutableTree.valueAtPath_setValue]
    by_cases hk : k = entry.1 <;> simp [hk]

omit [DecidableEq ν] in
/-- Marking paths repeats no key. -/
theorem distinctKeys_foldl_setValue (paths : List (List κ × Snap κ ν)) {affectedTree : ImmutableTree κ Bool}
    (h : affectedTree.DistinctKeys) :
    (paths.foldl (fun affectedTree entry => affectedTree.setValue true entry.1) affectedTree).DistinctKeys := by
  induction paths generalizing affectedTree with
  | nil => exact h
  | cons entry rest ih => exact ih (h.setValue true entry.1)

omit [DecidableEq ν] in
/-- The affected places of a write are those of its writes. -/
theorem valueAtPath_affectedTree (write : WriteRecord κ ν) (k : List κ) :
    (SyncTree.affectedTree write).valueAtPath k ≠ none ↔ ∃ w ∈ write.writes, w.1 = write.path ++ k := by
  unfold SyncTree.affectedTree WriteRecord.writes WriteRecord.entries
  cases write.data with
  | overwrite node =>
    dsimp only
    rw [ImmutableTree.valueAtPath_setValue]
    by_cases hk : k = [] <;> simp [hk]
  | merge children =>
    dsimp only
    rw [valueAtPath_foldl_setValue]
    simp [List.mem_map]

omit [DecidableEq ν] in
/-- The affected places of a write lie apart. -/
theorem affected_affectedTree (write : WriteRecord κ ν) : Affected (SyncTree.affectedTree write) := by
  constructor
  · unfold SyncTree.affectedTree
    split
    · exact ImmutableTree.distinctKeys_empty.setValue true []
    · exact distinctKeys_foldl_setValue _ ImmutableTree.distinctKeys_empty
  · intro p q hp hq
    unfold SyncTree.affectedTree at hp hq
    cases hdata : write.data with
    | overwrite node =>
      simp only [hdata, ImmutableTree.valueAtPath_setValue] at hq
      by_cases hnil : p ++ q = []
      · exact (List.append_eq_nil_iff.mp hnil).2
      · simp [hnil] at hq
    | merge children =>
      simp only [hdata, valueAtPath_foldl_setValue] at hp hq
      have hthere : ∀ k, k ∈ children.enumerateWrites.map Prod.fst → ∃ n, children.writes k = some n := by
        intro k hk
        obtain ⟨entry, hentry, rfl⟩ := List.mem_map.mp hk
        exact ⟨_, treeWrites_of_value ((children.mem_enumerateWrites_iff _ _).mp hentry)⟩
      obtain ⟨n, hn⟩ := hthere p (hp.resolve_left (by simp))
      obtain ⟨m, hm⟩ := hthere (p ++ q) (hq.resolve_left (by simp))
      exact children.independent p q n m hn hm

variable {first : WriteRecord κ ν}

omit [DecidableEq ν] in
/-- A place that a write is about is below an affected one. -/
theorem exists_affected {location q : List κ} (h : ∃ w ∈ first.writes, w.1 <+: location ++ q) :
    ∃ k, (SyncTree.affectedTree first).valueAtPath k ≠ none ∧ first.path ++ k <+: location ++ q := by
  obtain ⟨w, hw, hle⟩ := h
  obtain ⟨k, hk⟩ := WriteRecord.path_prefix_of_mem_writes hw
  exact ⟨k, (valueAtPath_affectedTree first k).mpr ⟨w, hw, hk.symm⟩, hk ▸ hle⟩

variable (hlayered : tree'.Layered) (hfits : tree'.FitsAll D)

include hlayered hfits

/-- Getting what an acknowledgement means there, every view goes on showing what it should. -/
theorem carries_acknowledged (hpending : tree.pendingWrites = first.writes ++ tree'.pendingWrites)
    (hfirst : ∀ w ∈ first.writes, Fits D w.1 w.2) (location : List κ) : Carries D tree tree' location
      ((ViewOperation.ackUserWrite first.path (SyncTree.affectedTree first) false).route location) := by
  have hreached : ∀ k, (SyncTree.affectedTree first).valueAtPath k ≠ none → Reached D (first.path ++ k) := by
    intro k hk
    obtain ⟨w, hw, hplace⟩ := (valueAtPath_affectedTree first k).mp hk
    exact hplace ▸ (hfirst w hw).above
  intro cache hcache
  have hstale := hcache.remove hpending
  rcases ViewOperation.route_cases (.ackUserWrite first.path (SyncTree.affectedTree first) false) first.path
    location with ⟨rest, hpath, hroute⟩ | ⟨below, rfl, hroute⟩ | ⟨hapart, hroute⟩
  · rw [ViewOperation.withPath] at hroute
    rw [hroute]
    intro serverCache
    refine hstale.ackUserWriteOn hlayered hfits rest (affected_affectedTree first) ?_ ?_
    · intro k hk _
      rw [← List.append_assoc, ← hpath]
      exact hreached k hk
    · intro q hq
      obtain ⟨k, hk, hle⟩ := exists_affected hq
      rw [hpath, List.append_assoc, List.prefix_append_right_inj] at hle
      exact ⟨k, hk, hle⟩
  · obtain ⟨part, hpart, haffected, hcover, hback⟩ :=
      ViewOperation.route_ackUserWrite (ν := ν) (affected_affectedTree first) false below
    rw [ViewOperation.withPath, ViewOperation.withPath, hpart] at hroute
    rw [hroute]
    intro serverCache
    refine hstale.ackUserWriteOn hlayered hfits [] haffected ?_ ?_
    · intro k hk hne
      rw [List.nil_append, List.append_assoc]
      exact hreached _ (hback k hk hne)
    · intro q hq
      obtain ⟨k, hk, hle⟩ := exists_affected hq
      rw [List.append_assoc, List.prefix_append_right_inj] at hle
      exact hcover q k hk hle
  · rw [ViewOperation.withPath] at hroute
    rw [hroute]
    refine hstale.mono fun q hq => ?_
    obtain ⟨k, -, hle⟩ := exists_affected hq
    exact absurd hle (hapart.append k q).1

/-- Told that a write is taken back, every view goes on showing what it should. -/
theorem carries_reverted {path : List κ} {us : List (List κ × Contents κ ν)}
    (hpending : tree.pendingWrites = us ++ tree'.pendingWrites) (hus : ∀ w ∈ us, path <+: w.1)
    (hreached : Reached D path) {affectedTree : ImmutableTree κ Bool} (haffected : Affected affectedTree)
    (location : List κ) :
    Carries D tree tree' location ((ViewOperation.ackUserWrite path affectedTree true).route location) := by
  have hbelow : ∀ q, (∃ w ∈ us, w.1 <+: location ++ q) → path <+: location ++ q := by
    intro q hq
    obtain ⟨w, hw, hle⟩ := hq
    exact (hus w hw).trans hle
  intro cache hcache
  have hstale := hcache.remove hpending
  rcases ViewOperation.route_cases (.ackUserWrite path affectedTree true) path location with
    ⟨rest, hpath, hroute⟩ | ⟨below, rfl, hroute⟩ | ⟨hapart, hroute⟩
  · rw [ViewOperation.withPath] at hroute
    rw [hroute]
    intro serverCache
    refine hstale.revertUserWriteOn hlayered hfits rest (fun _ => hpath ▸ hreached) fun q hq => ?_
    have hle := hbelow q hq
    rwa [hpath, List.prefix_append_right_inj] at hle
  · obtain ⟨part, hpart, -⟩ := ViewOperation.route_ackUserWrite (ν := ν) haffected true below
    rw [ViewOperation.withPath, ViewOperation.withPath, hpart] at hroute
    rw [hroute]
    intro serverCache
    exact hstale.revertUserWriteOn hlayered hfits [] (fun hne => absurd rfl hne) fun q _ => List.nil_prefix
  · rw [ViewOperation.withPath] at hroute
    rw [hroute]
    exact hstale.mono fun q hq => absurd (hbelow q hq) (hapart.not_prefix_append q)

omit hlayered hfits in
/-- A write that was shadowed is answered without a visit. -/
theorem carries_shadowed {path : List κ} {us : List (List κ × Contents κ ν)}
    (hpending : tree.pendingWrites = us ++ tree'.pendingWrites) (hus : ∀ w ∈ us, path <+: w.1)
    (hcov : ∃ w ∈ tree'.pendingWrites, w.1 <+: path) (location : List κ) : Carries D tree tree' location none := by
  intro cache hcache
  refine (hcache.remove hpending).mono fun q hq => .inr ?_
  obtain ⟨u, hu, hle⟩ := hq
  obtain ⟨w, hw, hwle⟩ := hcov
  exact ⟨w, hw, (hwle.trans (hus u hu)).trans hle⟩

end Answered

end Carried

end LoveCoupons
