import LoveCoupons.SyncTree
import LoveCoupons.Lib.Topmost

/-!
# Which locations are listened to at the server

A listen brings the data of a location and of everything below it, so that the sync tree asks
the server for the topmost of the locations with registrations only. When a location comes or
goes, listens are started and stopped at it and right below it.
-/

namespace LoveCoupons

open KeyedTree Paths

variable {κ ν ρ : Type} [DecidableEq κ]

mutual

/-- The locations of the views that `-[FSyncTree collectDistinctViewsForSubTree:]` collects. -/
def collectDistinctViews : SyncPointTree κ ν ρ → List κ → List (List κ)
  | .mk (some _) _, pathSoFar => [pathSoFar]
  | .mk none children, pathSoFar => collectDistinctViewsOfChildren children pathSoFar

/-- The locations collected from the children, which are those whose listens `-[FSyncTree setupListenerOnQuery:view:]`
stops. -/
def collectDistinctViewsOfChildren : List (κ × SyncPointTree κ ν ρ) → List κ → List (List κ)
  | [], _ => []
  | (childKey, childTree) :: rest, pathSoFar =>
    collectDistinctViews childTree (pathSoFar ++ [childKey]) ++ collectDistinctViewsOfChildren rest pathSoFar

end

/-- Whether a location on the path, or at its end, has a view. -/
def hasCompleteViewOnPath (tree : SyncPointTree κ ν ρ) : List κ → Bool
  | [] => tree.value.isSome
  | front :: rest =>
    tree.value.isSome ||
      match tree.children.lookup front with
      | some childTree => hasCompleteViewOnPath childTree rest
      | none => false

/-- What the sync tree asks of its listen provider. -/
inductive ListenCall (κ : Type) where
  | startListening (path : List κ)
  | stopListening (path : List κ)

/-- The listens after a call; the connection asserts that no location is listened to twice. -/
def ListenCall.apply (listens : List (List κ)) : ListenCall κ → Option (List (List κ))
  | .startListening path => if path ∈ listens then none else some (listens ++ [path])
  | .stopListening path => some (listens.filter fun listened => listened ≠ path)

namespace SyncTree

/-- The listens that `-[FSyncTree removeEventRegistration:forQuery:cancelError:]` starts and stops; a listen that was
canceled is not there any more. -/
def listensForRemoved (before after : SyncPointTree κ ν ρ) (path : List κ) (canceled : Bool) : List (ListenCall κ) :=
  if (before.valueAtPath path).isSome && (after.valueAtPath path).isNone && !hasCompleteViewOnPath after path then
    (collectDistinctViews (after.subtreeAtPath path) path).map .startListening ++
      if canceled then [] else [.stopListening path]
  else []

end SyncTree

/-- A location with registrations. -/
def Listened (tree : SyncPointTree κ ν ρ) (path : List κ) : Prop := tree.valueAtPath path ≠ none

/-- There is a view on a path when a location at or above its end has registrations. -/
theorem hasCompleteViewOnPath_iff (tree : SyncPointTree κ ν ρ) (path : List κ) :
    hasCompleteViewOnPath tree path = true ↔ ∃ above, above <+: path ∧ Listened tree above := by
  induction path generalizing tree with
  | nil => simp [hasCompleteViewOnPath, Listened, Option.isSome_iff_ne_none]
  | cons front rest ih =>
    rw [hasCompleteViewOnPath, Bool.or_eq_true, Option.isSome_iff_ne_none]
    have hbelow : (match tree.children.lookup front with
        | some childTree => hasCompleteViewOnPath childTree rest
        | none => false) = true ↔ ∃ above, above <+: rest ∧ Listened tree (front :: above) := by
      have hchild : ∀ above, Listened tree (front :: above) ↔ Listened (tree.childOrEmpty front) above := by
        intro above
        rw [Listened, Listened, ImmutableTree.valueAtPath_cons]
      simp only [hchild, ImmutableTree.childOrEmpty]
      cases tree.children.lookup front with
      | none => simp [Listened]
      | some childTree => simp [ih]
    rw [hbelow]
    constructor
    · intro h
      rcases h with hroot | ⟨above, hle, hlistened⟩
      · exact ⟨[], List.nil_prefix, by rwa [Listened, ImmutableTree.valueAtPath_nil]⟩
      · exact ⟨front :: above, List.cons_prefix_cons.mpr ⟨rfl, hle⟩, hlistened⟩
    · intro h
      obtain ⟨above, hle, hlistened⟩ := h
      cases above with
      | nil =>
        rw [Listened, ImmutableTree.valueAtPath_nil] at hlistened
        exact .inl hlistened
      | cons key above =>
        obtain ⟨rfl, hle'⟩ := List.cons_prefix_cons.mp hle
        exact .inr ⟨above, hle', hlistened⟩

/-- The children are collected from one after the other, each under its key. -/
theorem collectDistinctViewsOfChildren_eq (children : List (κ × SyncPointTree κ ν ρ)) (pathSoFar : List κ) :
    collectDistinctViewsOfChildren children pathSoFar =
      children.flatMap fun entry => collectDistinctViews entry.2 (pathSoFar ++ [entry.1]) := by
  induction children with
  | nil => rfl
  | cons entry rest ih =>
    obtain ⟨key, child⟩ := entry
    rw [collectDistinctViewsOfChildren, ih, List.flatMap_cons]

/-- The locations below one that have registrations, with no other one in between. -/
def TopmostBelow (tree : SyncPointTree κ ν ρ) (rest : List κ) : Prop :=
  rest ≠ [] ∧ Listened tree rest ∧ ∀ q, q ≠ [] → q <+: rest → Listened tree q → q = rest

/-- A topmost location below the root is a topmost one of the child that its path enters. -/
theorem topmostBelow_cons (tree : SyncPointTree κ ν ρ) (key : κ) (rest : List κ) :
    TopmostBelow tree (key :: rest) ↔ Topmost (Listened (tree.childOrEmpty key)) rest := by
  have hchild : ∀ q, Listened tree (key :: q) ↔ Listened (tree.childOrEmpty key) q := by
    intro q
    rw [Listened, Listened, ImmutableTree.valueAtPath_cons]
  constructor
  · intro h
    refine ⟨(hchild rest).mp h.2.1, fun q hq hlistened => ?_⟩
    have heq := h.2.2 (key :: q) (by simp) (List.cons_prefix_cons.mpr ⟨rfl, hq⟩) ((hchild q).mpr hlistened)
    exact (List.cons.inj heq).2
  · intro h
    refine ⟨by simp, (hchild rest).mpr h.1, fun q hne hq hlistened => ?_⟩
    cases q with
    | nil => exact absurd rfl hne
    | cons name q =>
      obtain ⟨rfl, hq'⟩ := List.cons_prefix_cons.mp hq
      rw [h.2 q hq' ((hchild q).mp hlistened)]

/-- What is collected from the children, given what is collected from each. -/
theorem mem_collectOfChildren {tree : SyncPointTree κ ν ρ} (hkeys : tree.DistinctKeys) (pathSoFar path : List κ)
    (h : ∀ entry ∈ tree.children, ∀ pathSoFar path, path ∈ collectDistinctViews entry.2 pathSoFar ↔
      ∃ rest, path = pathSoFar ++ rest ∧ Topmost (Listened entry.2) rest) :
    path ∈ collectDistinctViewsOfChildren tree.children pathSoFar ↔
      ∃ rest, path = pathSoFar ++ rest ∧ TopmostBelow tree rest := by
  rw [collectDistinctViewsOfChildren_eq, List.mem_flatMap]
  constructor
  · intro hmem
    obtain ⟨entry, hentry, hcollected⟩ := hmem
    obtain ⟨rest, hpath, htop⟩ := (h entry hentry _ _).mp hcollected
    refine ⟨entry.1 :: rest, by rw [hpath, List.append_assoc, List.singleton_append], ?_⟩
    rw [topmostBelow_cons, hkeys.childOrEmpty_eq hentry]
    exact htop
  · intro hmem
    obtain ⟨rest, hpath, htop⟩ := hmem
    cases rest with
    | nil => exact absurd rfl htop.1
    | cons key rest =>
      rw [topmostBelow_cons] at htop
      cases hlookup : tree.children.lookup key with
      | none => simp [ImmutableTree.childOrEmpty, hlookup, Topmost, Listened] at htop
      | some child =>
        have hroot := hkeys []
        rw [ImmutableTree.subtreeAtPath_nil] at hroot
        have hentry := (Dictionary.mem_iff_lookup hroot key child).mpr hlookup
        rw [ImmutableTree.childOrEmpty, hlookup, Option.getD_some] at htop
        refine ⟨(key, child), hentry, (h (key, child) hentry _ _).mpr ⟨rest, ?_, htop⟩⟩
        rw [hpath, List.append_assoc, List.singleton_append]

/-- The collected locations are the topmost ones with registrations. -/
theorem mem_collectDistinctViews (tree : SyncPointTree κ ν ρ) (hkeys : tree.DistinctKeys) (pathSoFar path : List κ) :
    path ∈ collectDistinctViews tree pathSoFar ↔
      ∃ rest, path = pathSoFar ++ rest ∧ Topmost (Listened tree) rest := by
  induction tree using ImmutableTree.childrenInduction generalizing pathSoFar path with
  | node syncPoint children ih =>
    cases syncPoint with
    | some syncPoint =>
      have hroot : Listened (.mk (some syncPoint) children : SyncPointTree κ ν ρ) [] := by simp [Listened]
      rw [collectDistinctViews, List.mem_singleton]
      constructor
      · intro hpath
        exact ⟨[], by simpa using hpath, hroot, fun q hq _ => List.prefix_nil.mp hq⟩
      · intro hmem
        obtain ⟨rest, hpath, htop⟩ := hmem
        rw [hpath, ← htop.2 [] List.nil_prefix hroot, List.append_nil]
    | none =>
      have hroot : ¬ Listened (.mk none children : SyncPointTree κ ν ρ) [] := by simp [Listened]
      have hbelow : ∀ rest, TopmostBelow (.mk none children : SyncPointTree κ ν ρ) rest ↔
          Topmost (Listened (.mk none children : SyncPointTree κ ν ρ)) rest := by
        intro rest
        constructor
        · intro h
          exact ⟨h.2.1, fun q hq hlistened => h.2.2 q (fun hnil => hroot (hnil ▸ hlistened)) hq hlistened⟩
        · intro h
          exact ⟨fun hnil => hroot (hnil ▸ h.1), h.1, fun q _ hq hlistened => h.2 q hq hlistened⟩
      rw [collectDistinctViews]
      have hchildren := mem_collectOfChildren hkeys pathSoFar path
        fun entry hentry pathSoFar path => ih entry hentry (hkeys.childOrEmpty_eq hentry ▸ hkeys.childOrEmpty entry.1)
          pathSoFar path
      simp only [hbelow] at hchildren
      exact hchildren

/-- No location is collected twice. -/
theorem nodup_collectDistinctViews (tree : SyncPointTree κ ν ρ) (hkeys : tree.DistinctKeys) (pathSoFar : List κ) :
    (collectDistinctViews tree pathSoFar).Nodup := by
  induction tree using ImmutableTree.childrenInduction generalizing pathSoFar with
  | node syncPoint children ih =>
    cases syncPoint with
    | some syncPoint => exact List.nodup_singleton pathSoFar
    | none =>
      have hroot := hkeys []
      rw [ImmutableTree.subtreeAtPath_nil] at hroot
      have hchild : ∀ entry ∈ children, entry.2.DistinctKeys := fun entry hentry =>
        hkeys.childOrEmpty_eq hentry ▸ hkeys.childOrEmpty entry.1
      rw [collectDistinctViews, collectDistinctViewsOfChildren_eq, List.nodup_flatMap]
      refine ⟨fun entry hentry => ih entry hentry (hchild entry hentry) _, ?_⟩
      refine (List.pairwise_map.mp hroot).imp_of_mem ?_
      intro first second hfirst hsecond hne path hleft hright
      obtain ⟨rest, hpath, -⟩ := (mem_collectDistinctViews _ (hchild first hfirst) _ _).mp hleft
      obtain ⟨rest', hpath', -⟩ := (mem_collectDistinctViews _ (hchild second hsecond) _ _).mp hright
      rw [hpath, List.append_assoc, List.append_assoc] at hpath'
      exact hne (List.cons.inj (List.append_cancel_left hpath')).1

section Listens

/-- The listens are those of the topmost locations with registrations, each once. -/
structure ListensOk (tree : SyncPointTree κ ν ρ) (listens : List (List κ)) : Prop where
  nodup : listens.Nodup
  topmost : ∀ path, path ∈ listens ↔ Topmost (Listened tree) path

/-- Listens that are not there yet are started. -/
theorem foldlM_startListening (paths listens : List (List κ))
    (hnodup : (listens ++ paths).Nodup) :
    (paths.map ListenCall.startListening).foldlM ListenCall.apply listens = some (listens ++ paths) := by
  induction paths generalizing listens with
  | nil => simp
  | cons path rest ih =>
    have hfree : path ∉ listens := fun hmem =>
      (List.nodup_append.mp hnodup).2.2 path hmem path List.mem_cons_self rfl
    have hnext := ih (listens ++ [path]) (by simpa using hnodup)
    rw [List.map_cons, List.foldlM_cons, ListenCall.apply, if_neg hfree]
    simpa using hnext

variable {before : SyncPointTree κ ν ρ} {listens : List (List κ)}

/-- A location that keeps a registration keeps its listen. -/
theorem ListensOk.kept (h : ListensOk before listens) {path : List κ} (hthere : before.valueAtPath path ≠ none)
    (syncPoint : SyncPoint κ ν ρ) (canceled : Bool) :
    (SyncTree.listensForRemoved before (before.setValue syncPoint path) path canceled).foldlM ListenCall.apply
        listens = some listens ∧ ListensOk (before.setValue syncPoint path) listens := by
  have hlistened : Listened (before.setValue syncPoint path) = Listened before := by
    funext p
    rw [Listened, ImmutableTree.valueAtPath_setValue, eq_iff_iff]
    by_cases hp : p = path <;> simp [hp, Listened, hthere]
  refine ⟨?_, h.nodup, fun p => ?_⟩
  · rw [SyncTree.listensForRemoved, ImmutableTree.valueAtPath_setValue]
    simp
  · rw [hlistened]
    exact h.topmost p

/-- When a location goes, the others stay. -/
theorem listened_removeValueAtPath (before : SyncPointTree κ ν ρ) (path p : List κ) :
    Listened (before.removeValueAtPath path) p ↔ Listened before p ∧ p ≠ path := by
  rw [Listened, ImmutableTree.valueAtPath_removeValueAtPath]
  by_cases hp : p = path <;> simp [hp, Listened]

/-- What is collected where a location went. -/
theorem mem_collect_removed (hkeys : before.DistinctKeys) (path p : List κ) :
    p ∈ collectDistinctViews ((before.removeValueAtPath path).subtreeAtPath path) path ↔
      path <+: p ∧ Listened (before.removeValueAtPath path) p ∧
        ∀ q, path <+: q → q <+: p → Listened (before.removeValueAtPath path) q → q = p := by
  have hsub : ∀ rest, Listened ((before.removeValueAtPath path).subtreeAtPath path) rest ↔
      Listened (before.removeValueAtPath path) (path ++ rest) := by
    intro rest
    rw [Listened, ImmutableTree.valueAtPath_subtreeAtPath, Listened]
  rw [mem_collectDistinctViews _ ((hkeys.removeValueAtPath path).subtreeAtPath path)]
  constructor
  · intro hmem
    obtain ⟨rest, rfl, hthere, htop⟩ := hmem
    refine ⟨List.prefix_append path rest, (hsub rest).mp hthere, fun q hle hq hlistened => ?_⟩
    obtain ⟨rest', rfl⟩ := hle
    rw [htop rest' ((List.prefix_append_right_inj path).mp hq) ((hsub rest').mpr hlistened)]
  · intro hmem
    obtain ⟨⟨rest, rfl⟩, hthere, htop⟩ := hmem
    refine ⟨rest, rfl, (hsub rest).mpr hthere, fun q hq hlistened => ?_⟩
    exact List.append_cancel_left
      (htop _ (List.prefix_append path q) ((List.prefix_append_right_inj path).mpr hq) ((hsub q).mp hlistened))

/-- Where a topmost location went, the listens with those collected below it are the ones to have. -/
theorem topmost_removed (hkeys : before.DistinctKeys) {path : List κ} (htop : Topmost (Listened before) path)
    (p : List κ) : Topmost (Listened (before.removeValueAtPath path)) p ↔
      (Topmost (Listened before) p ∧ p ≠ path) ∨
        p ∈ collectDistinctViews ((before.removeValueAtPath path).subtreeAtPath path) path := by
  rw [mem_collect_removed hkeys]
  exact topmost_remove (listened_removeValueAtPath before path) htop p

/-- What is collected where a topmost location went was not listened to. -/
theorem ListensOk.nodup_append_collect (h : ListensOk before listens) (hkeys : before.DistinctKeys) {path : List κ}
    (htop : Topmost (Listened before) path) :
    (listens ++ collectDistinctViews ((before.removeValueAtPath path).subtreeAtPath path) path).Nodup := by
  refine List.nodup_append.mpr ⟨h.nodup, nodup_collectDistinctViews _
    ((hkeys.removeValueAtPath path).subtreeAtPath path) path, ?_⟩
  intro p hp q hq heq
  subst heq
  obtain ⟨hle, hthere, -⟩ := (mem_collect_removed hkeys path p).mp hq
  exact ((listened_removeValueAtPath before path p).mp hthere).2 (((h.topmost p).mp hp).2 path hle htop.1).symm

/-- No location above one that was topmost is listened to after it went. -/
theorem not_hasCompleteViewOnPath {path : List κ} (htop : Topmost (Listened before) path) :
    hasCompleteViewOnPath (before.removeValueAtPath path) path = false := by
  rw [Bool.eq_false_iff, Ne, hasCompleteViewOnPath_iff]
  intro hcovered
  obtain ⟨above, hle, habove⟩ := hcovered
  obtain ⟨hthere, hne⟩ := (listened_removeValueAtPath before path above).mp habove
  exact hne (htop.2 above hle hthere)

/-- When a location goes that was listened to, the locations right below it are listened to instead. -/
theorem ListensOk.removed (h : ListensOk before listens) (hkeys : before.DistinctKeys) {path : List κ}
    (hthere : before.valueAtPath path ≠ none) :
    ∃ listens', (SyncTree.listensForRemoved before (before.removeValueAtPath path) path false).foldlM
        ListenCall.apply listens = some listens' ∧ ListensOk (before.removeValueAtPath path) listens' := by
  have hgone : (before.removeValueAtPath path).valueAtPath path = none := by
    rw [ImmutableTree.valueAtPath_removeValueAtPath, if_pos rfl]
  rw [SyncTree.listensForRemoved]
  by_cases hcovered : hasCompleteViewOnPath (before.removeValueAtPath path) path = true
  · obtain ⟨above, hle, habove⟩ := (hasCompleteViewOnPath_iff _ path).mp hcovered
    obtain ⟨hlistened, hne⟩ := (listened_removeValueAtPath before path above).mp habove
    rw [if_neg (by simp [hcovered])]
    refine ⟨listens, rfl, h.nodup, fun p => (h.topmost p).trans (Iff.symm ?_)⟩
    exact topmost_of_covered (fun q hq => (listened_removeValueAtPath before path q).trans (and_iff_left hq)) hle hne
      hlistened p
  · have htop : Topmost (Listened before) path := by
      refine ⟨hthere, fun q hq hlistened => ?_⟩
      by_contra hne
      exact hcovered ((hasCompleteViewOnPath_iff _ path).mpr
        ⟨q, hq, (listened_removeValueAtPath before path q).mpr ⟨hlistened, hne⟩⟩)
    have hnodup := h.nodup_append_collect hkeys htop
    rw [if_pos (by simp [hcovered, hgone, Option.isSome_iff_ne_none, hthere]), List.foldlM_append,
      foldlM_startListening _ _ hnodup]
    refine ⟨_, rfl, hnodup.filter _, fun p => ?_⟩
    rw [List.mem_filter, List.mem_append, h.topmost, topmost_removed hkeys htop, decide_eq_true_eq]
    constructor
    · intro hp
      exact hp.1.imp (fun hold => ⟨hold, hp.2⟩) id
    · intro hp
      rcases hp with ⟨hold, hne⟩ | hcollected
      · exact ⟨.inl hold, hne⟩
      · have hlistened := ((mem_collect_removed hkeys path p).mp hcollected).2.1
        exact ⟨.inr hcollected, ((listened_removeValueAtPath before path p).mp hlistened).2⟩

/-- When a listen is canceled, its location goes, and the locations right below it are listened to instead. -/
theorem ListensOk.canceled (h : ListensOk before listens) (hkeys : before.DistinctKeys) {path : List κ}
    (hthere : path ∈ listens) :
    ∃ listens', (SyncTree.listensForRemoved before (before.removeValueAtPath path) path true).foldlM
        ListenCall.apply (listens.filter fun listened => listened ≠ path) = some listens' ∧
      ListensOk (before.removeValueAtPath path) listens' := by
  have htop := (h.topmost path).mp hthere
  have hgone : (before.removeValueAtPath path).valueAtPath path = none := by
    rw [ImmutableTree.valueAtPath_removeValueAtPath, if_pos rfl]
  have hnodup : ((listens.filter fun listened => listened ≠ path) ++
      collectDistinctViews ((before.removeValueAtPath path).subtreeAtPath path) path).Nodup :=
    (h.nodup_append_collect hkeys htop).sublist (List.filter_sublist.append_right _)
  have hsome := htop.1
  rw [Listened] at hsome
  rw [SyncTree.listensForRemoved, if_pos (by simp [hgone, not_hasCompleteViewOnPath htop,
    Option.isSome_iff_ne_none, hsome]), if_pos rfl, List.append_nil, foldlM_startListening _ _ hnodup]
  refine ⟨_, rfl, hnodup, fun p => ?_⟩
  rw [List.mem_append, List.mem_filter, h.topmost, topmost_removed hkeys htop, decide_eq_true_eq]

end Listens

end LoveCoupons
