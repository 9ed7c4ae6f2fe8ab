import LoveCoupons.SyncTree
import LoveCoupons.ViewChanges

/-!
# Which view gets which operation

An operation made at a path reaches a listened location in the form that going down to the
location gives it, unless the location lies apart from the path. Every location is visited at
most once, no location comes or goes, and no visit raises an exception.
-/

namespace LoveCoupons

open KeyedTree PathContents

variable {κ ν ρ : Type} [DecidableEq κ]

namespace ViewOperation

/-- The operation as it goes on below a key, unless its path goes elsewhere. -/
def towards (operation : ViewOperation κ ν) (key : κ) : Option (ViewOperation κ ν) :=
  if operation.path.head?.all (· = key) then operation.operationForChild key else none

/-- The operation as it reaches a location. -/
def route (operation : ViewOperation κ ν) : List κ → Option (ViewOperation κ ν)
  | [] => some operation
  | key :: rest => (operation.towards key).bind fun child => child.route rest

/-- Going down towards the operation's path shortens the path. -/
theorem path_operationForChild_cons {operation child : ViewOperation κ ν} {key : κ} {rest : List κ}
    (hpath : operation.path = key :: rest) (h : operation.operationForChild key = some child) :
    child.path = rest := by
  cases operation <;>
    · simp only [path] at hpath
      subst hpath
      obtain rfl := Option.some.inj h
      rfl

/-- Below the operation's path there is no path left. -/
theorem path_operationForChild_nil {operation child : ViewOperation κ ν} {key : κ} (hpath : operation.path = [])
    (h : operation.operationForChild key = some child) : child.path = [] := by
  cases operation with
  | overwrite fromUser path snap =>
    obtain rfl : path = [] := hpath
    obtain rfl := Option.some.inj h
    rfl
  | merge fromUser path children =>
    obtain rfl : path = [] := hpath
    simp only [operationForChild] at h
    split at h
    · contradiction
    · split at h
      · obtain rfl := Option.some.inj h
        rfl
      · obtain rfl := Option.some.inj h
        rfl
  | ackUserWrite path affectedTree revert =>
    obtain rfl : path = [] := hpath
    simp only [operationForChild] at h
    split at h
    · obtain rfl := Option.some.inj h
      rfl
    · obtain rfl := Option.some.inj h
      rfl
  | listenComplete path =>
    obtain rfl : path = [] := hpath
    obtain rfl := Option.some.inj h
    rfl

/-- An operation at the root goes to every child. -/
theorem towards_of_nil {operation : ViewOperation κ ν} (hpath : operation.path = []) (key : κ) :
    operation.towards key = operation.operationForChild key := by
  simp [towards, hpath]

/-- An operation below a child goes to that child. -/
theorem towards_self {operation : ViewOperation κ ν} {key : κ} {path : List κ} (hpath : operation.path = key :: path) :
    operation.towards key = operation.operationForChild key := by
  simp [towards, hpath]

/-- An operation below a child goes to no other child. -/
theorem towards_ne {operation : ViewOperation κ ν} {key other : κ} {path : List κ}
    (hpath : operation.path = key :: path) (hne : other ≠ key) : operation.towards other = none := by
  simp [towards, hpath, Ne.symm hne]

/-- The operation at another path. -/
def withPath (operation : ViewOperation κ ν) (path : List κ) : ViewOperation κ ν :=
  match operation with
  | overwrite fromUser _ snap => .overwrite fromUser path snap
  | merge fromUser _ children => .merge fromUser path children
  | ackUserWrite _ affectedTree revert => .ackUserWrite path affectedTree revert
  | listenComplete _ => .listenComplete path

/-- Towards the child that its path enters, an operation has the rest of its path. -/
theorem towards_withPath (operation : ViewOperation κ ν) (key : κ) (rest : List κ) :
    (operation.withPath (key :: rest)).towards key = some (operation.withPath rest) := by
  cases operation <;> simp [withPath, towards, path, operationForChild]

/-- An operation is routed in two stretches. -/
theorem route_append (operation : ViewOperation κ ν) (first second : List κ) :
    operation.route (first ++ second) = (operation.route first).bind fun child => child.route second := by
  induction first generalizing operation with
  | nil => rfl
  | cons key first ih =>
    rw [List.cons_append, route, route]
    cases operation.towards key with
    | none => rfl
    | some child => exact ih child

/-- A location at or above the operation's path gets the operation with the rest of the path. -/
theorem route_withPath (operation : ViewOperation κ ν) (location rest : List κ) :
    (operation.withPath (location ++ rest)).route location = some (operation.withPath rest) := by
  induction location with
  | nil => rfl
  | cons key location ih =>
    rw [List.cons_append, route, towards_withPath, Option.bind_some, ih]

/-- A location below the operation's path gets what an operation without a path becomes. -/
theorem route_withPath_append (operation : ViewOperation κ ν) (location below : List κ) :
    (operation.withPath location).route (location ++ below) = (operation.withPath []).route below := by
  have hroute := route_withPath operation location []
  rw [List.append_nil] at hroute
  rw [route_append, hroute, Option.bind_some]

/-- A location apart from the operation's path gets nothing. -/
theorem route_of_apart (operation : ViewOperation κ ν) {path location : List κ} (h : Apart path location) :
    (operation.withPath path).route location = none := by
  induction location generalizing path with
  | nil => exact absurd List.nil_prefix h.2
  | cons key location ih =>
    cases path with
    | nil => exact absurd List.nil_prefix h.1
    | cons front rest =>
      by_cases hkey : key = front
      · subst hkey
        rw [route, towards_withPath, Option.bind_some]
        apply ih
        constructor
        · intro hle
          exact h.1 (List.cons_prefix_cons.mpr ⟨rfl, hle⟩)
        · intro hle
          exact h.2 (List.cons_prefix_cons.mpr ⟨rfl, hle⟩)
      · have hpath : (operation.withPath (front :: rest)).path = front :: rest := by cases operation <;> rfl
        rw [route, towards_ne hpath hkey]
        rfl

/-- Below an overwritten place, its part of the data. -/
theorem route_overwrite (fromUser : Bool) (snap : Snap κ ν) (location : List κ) :
    ∃ part, (overwrite fromUser [] snap).route location = some (.overwrite fromUser [] part) ∧
      part.contents = below snap.contents location := by
  induction location generalizing snap with
  | nil => exact ⟨snap, rfl, rfl⟩
  | cons key location ih =>
    obtain ⟨part, hroute, hpart⟩ := ih (snap.getImmediateChild key)
    refine ⟨part, ?_, ?_⟩
    · rw [route, towards_of_nil rfl]
      exact hroute
    · rw [hpart, Snap.getImmediateChild, Snap.contents_getChild]
      rfl

/-- That a listen is complete is told to everything below it. -/
theorem route_listenComplete (location : List κ) :
    (listenComplete [] : ViewOperation κ ν).route location = some (.listenComplete []) := by
  induction location with
  | nil => rfl
  | cons key location ih =>
    rw [route, towards_of_nil rfl]
    exact ih

end ViewOperation

section Visits

/-- The events raised at a location. -/
def raisedAt (events : RaisedEvents κ ν ρ) (path : List κ) : RaisedEvents κ ν ρ :=
  events.filter fun event => event.path = path

/-- The events raised at a location or below it. -/
def raisedBelow (events : RaisedEvents κ ν ρ) (path : List κ) : RaisedEvents κ ν ρ :=
  events.filter fun event => path.isPrefixOf event.path

/-- The events raised below a path come in order. -/
theorem raisedBelow_append (first second : RaisedEvents κ ν ρ) (path : List κ) :
    raisedBelow (first ++ second) path = raisedBelow first path ++ raisedBelow second path :=
  List.filter_append ..

/-- Events that are all below a path are those raised below it. -/
theorem raisedBelow_of_forall {events : RaisedEvents κ ν ρ} {path : List κ}
    (h : ∀ event ∈ events, path <+: event.path) : raisedBelow events path = events := by
  apply List.filter_eq_self.mpr
  intro event hevent
  exact List.isPrefixOf_iff_prefix.mpr (h event hevent)

/-- Nothing is raised below a key that no event is below. -/
theorem raisedBelow_eq_nil {events : RaisedEvents κ ν ρ} {path : List κ} {key : κ}
    (h : ∀ event ∈ events, ∃ other, other ≠ key ∧ path ++ [other] <+: event.path) :
    raisedBelow events (path ++ [key]) = [] := by
  apply List.filter_eq_nil_iff.mpr
  intro event hevent hbelow
  obtain ⟨other, hne, rest, hrest⟩ := h event hevent
  obtain ⟨rest', hrest'⟩ := List.isPrefixOf_iff_prefix.mp hbelow
  have hequal := hrest.trans hrest'.symm
  rw [List.append_assoc, List.append_assoc] at hequal
  exact hne (List.cons.inj (List.append_cancel_left hequal)).1

/-- What is raised at a location is found among what is raised below a location above it. -/
theorem raisedAt_raisedBelow (events : RaisedEvents κ ν ρ) (path rest : List κ) :
    raisedAt (raisedBelow events path) (path ++ rest) = raisedAt events (path ++ rest) := by
  rw [raisedAt, raisedBelow, List.filter_filter]
  apply List.filter_congr
  intro event _
  by_cases hpath : event.path = path ++ rest <;> simp [hpath]

variable [DecidableEq ν]

/-- What a visit does to a location, and the events that it raises there. -/
def Visited (operation : Option (ViewOperation κ ν)) (writesCache : WriteTreeRef κ ν)
    (before after : SyncPoint κ ν ρ) (raised : RaisedEvents κ ν ρ) : Prop :=
  match operation with
  | none => after = before ∧ raised = []
  | some operation => ∃ serverCache changes,
      before.applyOperation operation writesCache serverCache = some (after, changes) ∧
        raised = [⟨writesCache.path, before.eventRegistrations, changes⟩]

/-- What an operation does to the tree of listened locations, and the events that it raises. -/
structure Routed (operation : ViewOperation κ ν) (writesCache : WriteTreeRef κ ν)
    (before after : SyncPointTree κ ν ρ) (events : RaisedEvents κ ν ρ) : Prop where
  keys : ∀ path, (after.subtreeAtPath path).children.map Prod.fst = (before.subtreeAtPath path).children.map Prod.fst
  within : ∀ event ∈ events, writesCache.path <+: event.path
  visits : ∀ path, match before.valueAtPath path with
    | none => after.valueAtPath path = none ∧ raisedAt events (writesCache.path ++ path) = []
    | some syncPoint => ∃ visited, after.valueAtPath path = some visited ∧
        Visited (operation.route path) ⟨writesCache.path ++ path, writesCache.writeTree⟩ syncPoint visited
          (raisedAt events (writesCache.path ++ path))

/-- What an operation that may not go on does to a part of the tree. -/
def RoutedPart (operation : Option (ViewOperation κ ν)) (writesCache : WriteTreeRef κ ν)
    (before after : SyncPointTree κ ν ρ) (events : RaisedEvents κ ν ρ) : Prop :=
  match operation with
  | none => after = before ∧ events = []
  | some operation => Routed operation writesCache before after events

/-- What an operation does to the children of a location. -/
structure RoutedChildren (operation : ViewOperation κ ν) (writesCache : WriteTreeRef κ ν)
    (before after : List (κ × SyncPointTree κ ν ρ)) (events : RaisedEvents κ ν ρ) : Prop where
  keys : after.map Prod.fst = before.map Prod.fst
  within : ∀ event ∈ events, ∃ key ∈ before.map Prod.fst, writesCache.path ++ [key] <+: event.path
  visits : ∀ key, match before.lookup key with
    | none => after.lookup key = none ∧ raisedBelow events (writesCache.path ++ [key]) = []
    | some child => ∃ child', after.lookup key = some child' ∧
        RoutedPart (operation.towards key) (writesCache.childWriteTreeRef key) child child'
          (raisedBelow events (writesCache.path ++ [key]))

/-- What an operation does to a location itself. -/
def VisitedRoot (operation : ViewOperation κ ν) (writesCache : WriteTreeRef κ ν)
    (before after : Option (SyncPoint κ ν ρ)) (raised : RaisedEvents κ ν ρ) : Prop :=
  match before with
  | none => after = none ∧ raised = []
  | some syncPoint => ∃ visited, after = some visited ∧
      Visited (some operation) writesCache syncPoint visited raised

/-- The events of a visited location are raised there. -/
theorem VisitedRoot.raised_path {operation : ViewOperation κ ν} {writesCache : WriteTreeRef κ ν}
    {before after : Option (SyncPoint κ ν ρ)} {raised : RaisedEvents κ ν ρ}
    (h : VisitedRoot operation writesCache before after raised) : ∀ event ∈ raised, event.path = writesCache.path := by
  intro event hevent
  cases before with
  | none =>
    rw [h.2] at hevent
    simp at hevent
  | some syncPoint =>
    obtain ⟨-, -, serverCache, changes, -, hraised⟩ := h
    rw [hraised, List.mem_singleton] at hevent
    rw [hevent]

/-- The events of the children are raised below the location. -/
theorem RoutedChildren.longer {operation : ViewOperation κ ν} {writesCache : WriteTreeRef κ ν}
    {before after : List (κ × SyncPointTree κ ν ρ)} {events : RaisedEvents κ ν ρ}
    (h : RoutedChildren operation writesCache before after events) :
    ∀ event ∈ events, ∃ key rest, event.path = writesCache.path ++ key :: rest := by
  intro event hevent
  obtain ⟨key, -, rest, hrest⟩ := h.within event hevent
  exact ⟨key, rest, by rw [← hrest, List.append_assoc, List.singleton_append]⟩

section Parts

variable {operation : Option (ViewOperation κ ν)} {writesCache : WriteTreeRef κ ν} {before after : SyncPointTree κ ν ρ}
  {events : RaisedEvents κ ν ρ}

/-- A part keeps the keys of its locations. -/
theorem RoutedPart.keys (h : RoutedPart operation writesCache before after events) (path : List κ) :
    (after.subtreeAtPath path).children.map Prod.fst = (before.subtreeAtPath path).children.map Prod.fst := by
  cases operation with
  | none => rw [h.1]
  | some operation => exact Routed.keys h path

/-- A location in a part is visited with what the operation of the part means there. -/
theorem RoutedPart.visits (h : RoutedPart operation writesCache before after events) (path : List κ) :
    match before.valueAtPath path with
    | none => after.valueAtPath path = none ∧ raisedAt events (writesCache.path ++ path) = []
    | some syncPoint => ∃ visited, after.valueAtPath path = some visited ∧
        Visited (operation.bind fun operation => operation.route path) ⟨writesCache.path ++ path, writesCache.writeTree⟩
          syncPoint visited (raisedAt events (writesCache.path ++ path)) := by
  cases operation with
  | none =>
    rw [h.1, h.2]
    cases before.valueAtPath path with
    | none => exact ⟨rfl, rfl⟩
    | some syncPoint => exact ⟨syncPoint, rfl, rfl, rfl⟩
  | some operation => exact Routed.visits h path

end Parts

section Raised

variable {path : List κ} {below raised : RaisedEvents κ ν ρ}

omit [DecidableEq ν] in
/-- Of the events raised at a location and below it, those at the location. -/
theorem raisedAt_root (hbelow : ∀ event ∈ below, ∃ key rest, event.path = path ++ key :: rest)
    (hraised : ∀ event ∈ raised, event.path = path) : raisedAt (below ++ raised) path = raised := by
  have hnone : below.filter (fun event => event.path = path) = [] := by
    apply List.filter_eq_nil_iff.mpr
    intro event hevent hpath
    obtain ⟨key, rest, hlonger⟩ := hbelow event hevent
    rw [of_decide_eq_true hpath] at hlonger
    simp at hlonger
  rw [raisedAt, List.filter_append, hnone, List.nil_append]
  apply List.filter_eq_self.mpr
  intro event hevent
  exact decide_eq_true (hraised event hevent)

omit [DecidableEq ν] in
/-- Of the events raised at a location and below it, those at a place below it. -/
theorem raisedAt_child (hraised : ∀ event ∈ raised, event.path = path) (key : κ) (rest : List κ) :
    raisedAt (below ++ raised) (path ++ key :: rest) =
      raisedAt (raisedBelow below (path ++ [key])) (path ++ [key] ++ rest) := by
  have hnone : raised.filter (fun event => event.path = path ++ key :: rest) = [] := by
    apply List.filter_eq_nil_iff.mpr
    intro event hevent hpath
    rw [decide_eq_true_eq, hraised event hevent] at hpath
    simp at hpath
  rw [raisedAt_raisedBelow, List.append_assoc, List.singleton_append, raisedAt, List.filter_append, hnone,
    List.append_nil]
  rfl

end Raised

/-- An operation acts on a tree as it acts on the root and on the children. -/
theorem routed_mk {operation : ViewOperation κ ν} {writesCache : WriteTreeRef κ ν}
    {syncPoint syncPoint' : Option (SyncPoint κ ν ρ)} {children children' : List (κ × SyncPointTree κ ν ρ)}
    {below raised : RaisedEvents κ ν ρ} (hroot : VisitedRoot operation writesCache syncPoint syncPoint' raised)
    (hchildren : RoutedChildren operation writesCache children children' below) :
    Routed operation writesCache (.mk syncPoint children) (.mk syncPoint' children') (below ++ raised) := by
  refine ⟨?_, ?_, ?_⟩
  · intro path
    cases path with
    | nil => exact hchildren.keys
    | cons key rest =>
      have hchild := hchildren.visits key
      rw [ImmutableTree.subtreeAtPath_cons, ImmutableTree.subtreeAtPath_cons, ImmutableTree.childOrEmpty,
        ImmutableTree.childOrEmpty, ImmutableTree.children_mk, ImmutableTree.children_mk]
      cases hlookup : children.lookup key with
      | none =>
        rw [hlookup] at hchild
        rw [hchild.1]
      | some child =>
        rw [hlookup] at hchild
        obtain ⟨child', hlookup', hpart⟩ := hchild
        rw [hlookup', Option.getD_some, Option.getD_some]
        exact hpart.keys rest
  · intro event hevent
    rcases List.mem_append.mp hevent with hbelow | hraised
    · obtain ⟨key, rest, hpath⟩ := hchildren.longer event hbelow
      rw [hpath]
      exact List.prefix_append _ _
    · rw [hroot.raised_path event hraised]
  · intro path
    cases path with
    | nil =>
      rw [List.append_nil, raisedAt_root hchildren.longer hroot.raised_path, ImmutableTree.valueAtPath_nil,
        ImmutableTree.valueAtPath_nil, ImmutableTree.value_mk, ImmutableTree.value_mk]
      exact hroot
    | cons key rest =>
      have hchild := hchildren.visits key
      rw [raisedAt_child hroot.raised_path, ImmutableTree.valueAtPath_cons, ImmutableTree.valueAtPath_cons,
        ImmutableTree.childOrEmpty, ImmutableTree.childOrEmpty, ImmutableTree.children_mk, ImmutableTree.children_mk,
        ViewOperation.route]
      cases hlookup : children.lookup key with
      | none =>
        rw [hlookup] at hchild
        simp [hchild.1, hchild.2, raisedAt]
      | some child =>
        rw [hlookup] at hchild
        obtain ⟨child', hlookup', hpart⟩ := hchild
        have hrest := hpart.visits rest
        rw [hlookup', Option.getD_some, Option.getD_some,
          show writesCache.path ++ key :: rest = writesCache.path ++ [key] ++ rest by simp]
        exact hrest

/-- A visit neither raises an exception nor fails an assertion. -/
theorem exists_applyOperation (syncPoint : SyncPoint κ ν ρ) (operation : ViewOperation κ ν)
    (writesCache : WriteTreeRef κ ν) (serverCache : Option (Snap κ ν)) :
    ∃ syncPoint' changes, syncPoint.applyOperation operation writesCache serverCache =
      some (syncPoint', changes) := by
  obtain ⟨changeMap, hfold, -⟩ :=
    ViewProcessor.exists_changeMap syncPoint.viewCache operation writesCache serverCache
  have hstays := ViewProcessor.staysComplete_process syncPoint.viewCache operation writesCache serverCache
  rw [SyncPoint.applyOperation, ViewProcessor.applyOperationOn, hfold, Option.map_some, Option.bind_some]
  refine ⟨_, _, if_pos ?_⟩
  cases hcomplete : syncPoint.viewCache.cachedServerSnap.isFullyInitialized with
  | false => simp
  | true => simp [hstays hcomplete]

/-- A visited location over visited children. -/
theorem exists_applyAtSyncPoint (syncPoint : Option (SyncPoint κ ν ρ)) (operation : ViewOperation κ ν)
    (writesCache : WriteTreeRef κ ν) (serverCache : Option (Snap κ ν))
    (below : List (κ × SyncPointTree κ ν ρ) × RaisedEvents κ ν ρ) :
    ∃ syncPoint' raised, applyAtSyncPoint syncPoint operation writesCache serverCache below =
        some (.mk syncPoint' below.1, below.2 ++ raised) ∧
      VisitedRoot operation writesCache syncPoint syncPoint' raised := by
  cases syncPoint with
  | none => exact ⟨none, [], by simp [applyAtSyncPoint], rfl, rfl⟩
  | some syncPoint =>
    obtain ⟨visited, changes, happly⟩ := exists_applyOperation syncPoint operation writesCache serverCache
    refine ⟨some visited, [⟨writesCache.path, syncPoint.eventRegistrations, changes⟩], ?_, visited, rfl,
      serverCache, changes, happly, rfl⟩
    rw [applyAtSyncPoint, happly]
    rfl

/-- The children after an operation that goes down to all of them. -/
theorem exists_applyOperationToChildren (children : List (κ × SyncPointTree κ ν ρ))
    (hkeys : (children.map Prod.fst).Nodup)
    (hchild : ∀ entry ∈ children, ∀ operation serverCache writesCache, operation.path = [] →
      ∃ tree' events, applyOperationDescendantsHelper entry.2 operation serverCache writesCache =
        some (tree', events) ∧ Routed operation writesCache entry.2 tree' events)
    (operation : ViewOperation κ ν) (hpath : operation.path = []) (serverCache : Option (Snap κ ν))
    (writesCache : WriteTreeRef κ ν) :
    ∃ children' events, applyOperationToChildren children operation serverCache writesCache =
        some (children', events) ∧ RoutedChildren operation writesCache children children' events := by
  induction children with
  | nil =>
    refine ⟨[], [], by simp [applyOperationToChildren], rfl, by simp, fun key => ?_⟩
    exact ⟨rfl, rfl⟩
  | cons entry rest ih =>
    obtain ⟨name, first⟩ := entry
    rw [List.map_cons, List.nodup_cons] at hkeys
    obtain ⟨rest', events, hrest, hothers⟩ := ih hkeys.2 fun entry hentry => hchild entry (by simp [hentry])
    have hfirst : ∃ first' firstEvents, applyOperationToChildren ((name, first) :: rest) operation serverCache
        writesCache = some ((name, first') :: rest', firstEvents ++ events) ∧
        RoutedPart (operation.towards name) (writesCache.childWriteTreeRef name) first first' firstEvents := by
      rw [ViewOperation.towards_of_nil hpath]
      cases hoperation : operation.operationForChild name with
      | none => exact ⟨first, [], by simp [applyOperationToChildren, hoperation, hrest], rfl, rfl⟩
      | some childOperation =>
        obtain ⟨first', firstEvents, hhelper, hrouted⟩ := hchild (name, first) (by simp) childOperation
          (serverCache.map fun node => node.getImmediateChild name) (writesCache.childWriteTreeRef name)
          (ViewOperation.path_operationForChild_nil hpath hoperation)
        refine ⟨first', firstEvents, ?_, hrouted⟩
        simp only at hhelper
        simp [applyOperationToChildren, hoperation, hhelper, hrest]
    obtain ⟨first', firstEvents, hall, hvisited⟩ := hfirst
    have hwithin : ∀ event ∈ firstEvents, writesCache.path ++ [name] <+: event.path := by
      intro event hevent
      cases htowards : operation.towards name with
      | none =>
        rw [htowards] at hvisited
        rw [hvisited.2] at hevent
        simp at hevent
      | some childOperation =>
        rw [htowards] at hvisited
        exact hvisited.within event hevent
    refine ⟨(name, first') :: rest', firstEvents ++ events, hall, ?_, ?_, ?_⟩
    · rw [List.map_cons, List.map_cons, hothers.keys]
    · intro event hevent
      rcases List.mem_append.mp hevent with hnear | hfar
      · exact ⟨name, by simp, hwithin event hnear⟩
      · obtain ⟨key, hkey, hle⟩ := hothers.within event hfar
        exact ⟨key, List.mem_cons_of_mem name hkey, hle⟩
    · intro key
      rw [List.lookup_cons, List.lookup_cons, raisedBelow_append]
      by_cases hkey : key = name
      · subst hkey
        have hnone : raisedBelow events (writesCache.path ++ [key]) = [] := by
          apply raisedBelow_eq_nil
          intro event hevent
          obtain ⟨other, hother, hle⟩ := hothers.within event hevent
          exact ⟨other, fun heq => hkeys.1 (heq ▸ hother), hle⟩
        rw [hnone, List.append_nil, raisedBelow_of_forall hwithin]
        simpa using hvisited
      · have hnone : raisedBelow firstEvents (writesCache.path ++ [key]) = [] :=
          raisedBelow_eq_nil fun event hevent => ⟨name, Ne.symm hkey, hwithin event hevent⟩
        rw [beq_eq_false_iff_ne.mpr hkey, hnone, List.nil_append]
        exact hothers.visits key

/-- An operation without a path visits every listened location in the tree. -/
theorem exists_applyOperationDescendantsHelper (tree : SyncPointTree κ ν ρ) (hkeys : tree.DistinctKeys)
    (operation : ViewOperation κ ν) (serverCache : Option (Snap κ ν)) (writesCache : WriteTreeRef κ ν)
    (hpath : operation.path = []) :
    ∃ tree' events, applyOperationDescendantsHelper tree operation serverCache writesCache =
        some (tree', events) ∧ Routed operation writesCache tree tree' events := by
  induction tree using ImmutableTree.childrenInduction generalizing operation serverCache writesCache with
  | node syncPoint children ih =>
    obtain ⟨children', events, hchildren, hvisited⟩ := exists_applyOperationToChildren children (hkeys [])
      (fun entry hentry operation serverCache writesCache hpath =>
        ih entry hentry (hkeys.childOrEmpty_eq hentry ▸ hkeys.childOrEmpty entry.1) operation serverCache writesCache
          hpath)
      operation hpath (resolveServerCache syncPoint serverCache) writesCache
    obtain ⟨syncPoint', raised, hroot, hrootVisited⟩ := exists_applyAtSyncPoint syncPoint operation writesCache
      (resolveServerCache syncPoint serverCache) (children', events)
    refine ⟨.mk syncPoint' children', events ++ raised, ?_, routed_mk hrootVisited hvisited⟩
    rw [applyOperationDescendantsHelper, hchildren, Option.bind_some, hroot]

omit [DecidableEq ν] in
/-- Replacing a child changes what is found under its key only. -/
theorem lookup_replaceChild (childKey : κ) (childTree : SyncPointTree κ ν ρ)
    (children : List (κ × SyncPointTree κ ν ρ)) (key : κ) :
    (replaceChild childKey childTree children).lookup key =
      (children.lookup key).map fun child => if key = childKey then childTree else child := by
  induction children with
  | nil => rfl
  | cons entry rest ih =>
    obtain ⟨name, first⟩ := entry
    have hcons : replaceChild childKey childTree ((name, first) :: rest) =
        (name, if name = childKey then childTree else first) :: replaceChild childKey childTree rest := by
      by_cases hname : name = childKey <;> simp [replaceChild, hname]
    rw [hcons, List.lookup_cons, List.lookup_cons]
    by_cases hkey : key = name
    · subst hkey
      simp
    · rw [beq_eq_false_iff_ne.mpr hkey]
      exact ih

omit [DecidableEq ν] in
/-- Replacing a child leaves the keys what they are. -/
theorem keys_replaceChild (childKey : κ) (childTree : SyncPointTree κ ν ρ)
    (children : List (κ × SyncPointTree κ ν ρ)) :
    (replaceChild childKey childTree children).map Prod.fst = children.map Prod.fst := by
  rw [replaceChild, List.map_map]
  apply List.map_congr_left
  intro entry _
  by_cases hkey : entry.1 = childKey <;> simp [hkey]

/-- Children that an operation does not go down to. -/
theorem routedChildren_self {operation : ViewOperation κ ν} (writesCache : WriteTreeRef κ ν)
    {children : List (κ × SyncPointTree κ ν ρ)}
    (h : ∀ key child, children.lookup key = some child → operation.towards key = none) :
    RoutedChildren operation writesCache children children [] := by
  refine ⟨rfl, by simp, fun key => ?_⟩
  cases hkey : children.lookup key with
  | none => exact ⟨rfl, rfl⟩
  | some child =>
    refine ⟨child, rfl, ?_⟩
    rw [h key child hkey]
    exact ⟨rfl, rfl⟩

/-- One child that an operation goes down to. -/
theorem routedChildren_replaceChild {operation childOperation : ViewOperation κ ν} {writesCache : WriteTreeRef κ ν}
    {children : List (κ × SyncPointTree κ ν ρ)} {childKey : κ} {childTree childTree' : SyncPointTree κ ν ρ}
    {events : RaisedEvents κ ν ρ} (hlookup : children.lookup childKey = some childTree)
    (htowards : operation.towards childKey = some childOperation)
    (hrouted : Routed childOperation (writesCache.childWriteTreeRef childKey) childTree childTree' events)
    (hothers : ∀ key, key ≠ childKey → operation.towards key = none) :
    RoutedChildren operation writesCache children (replaceChild childKey childTree' children) events := by
  have hwithin : ∀ event ∈ events, writesCache.path ++ [childKey] <+: event.path := hrouted.within
  have hmem : childKey ∈ children.map Prod.fst := by
    by_contra hnot
    have hnone : children.lookup childKey = none := by
      rw [List.lookup_eq_none_iff]
      intro entry hentry
      exact bne_iff_ne.mpr fun heq => hnot (heq ▸ List.mem_map_of_mem hentry)
    rw [hnone] at hlookup
    contradiction
  refine ⟨keys_replaceChild childKey childTree' children, fun event hevent => ?_, fun key => ?_⟩
  · exact ⟨childKey, hmem, hwithin event hevent⟩
  rw [lookup_replaceChild]
  by_cases hkey : key = childKey
  · subst hkey
    rw [hlookup, raisedBelow_of_forall hwithin, htowards]
    exact ⟨childTree', by simp, hrouted⟩
  · have hnone : raisedBelow events (writesCache.path ++ [key]) = [] :=
      raisedBelow_eq_nil fun event hevent => ⟨childKey, Ne.symm hkey, hwithin event hevent⟩
    rw [hnone]
    cases hchild : children.lookup key with
    | none => exact ⟨rfl, rfl⟩
    | some child =>
      refine ⟨child, by simp [hkey], ?_⟩
      rw [hothers key hkey]
      exact ⟨rfl, rfl⟩

/-- An operation visits every listened location that it is about. -/
theorem exists_applyOperationHelper (path : List κ) (tree : SyncPointTree κ ν ρ) (hkeys : tree.DistinctKeys)
    (operation : ViewOperation κ ν) (serverCache : Option (Snap κ ν)) (writesCache : WriteTreeRef κ ν)
    (hpath : operation.path = path) :
    ∃ tree' events, applyOperationHelper path tree operation serverCache writesCache = some (tree', events) ∧
      Routed operation writesCache tree tree' events := by
  induction path generalizing tree operation serverCache writesCache with
  | nil => exact exists_applyOperationDescendantsHelper tree hkeys operation serverCache writesCache hpath
  | cons childKey rest ih =>
    obtain ⟨syncPoint, children⟩ := tree
    have hothers : ∀ key, key ≠ childKey → operation.towards key = none := fun key hne =>
      ViewOperation.towards_ne hpath hne
    have hself : operation.towards childKey = operation.operationForChild childKey :=
      ViewOperation.towards_self hpath
    have hbelow : ∃ children' events, RoutedChildren operation writesCache children children' events ∧
        applyOperationHelper (childKey :: rest) (.mk syncPoint children) operation serverCache writesCache =
          applyAtSyncPoint syncPoint operation writesCache (resolveServerCache syncPoint serverCache)
            (children', events) := by
      cases hlookup : children.lookup childKey with
      | none =>
        refine ⟨children, [], routedChildren_self writesCache fun key child hkey => ?_, ?_⟩
        · exact hothers key fun heq => by simp [heq, hlookup] at hkey
        · simp [applyOperationHelper, hlookup]
      | some childTree =>
        have hchildKeys : childTree.DistinctKeys := by
          have hthere := hkeys.childOrEmpty childKey
          rwa [ImmutableTree.childOrEmpty, ImmutableTree.children_mk, hlookup, Option.getD_some] at hthere
        cases hoperation : operation.operationForChild childKey with
        | none =>
          refine ⟨children, [], routedChildren_self writesCache fun key child hkey => ?_, ?_⟩
          · by_cases heq : key = childKey
            · rw [heq, hself, hoperation]
            · exact hothers key heq
          · simp [applyOperationHelper, hlookup, hoperation]
        | some childOperation =>
          obtain ⟨childTree', events, hhelper, hrouted⟩ := ih childTree hchildKeys childOperation
            ((resolveServerCache syncPoint serverCache).map fun node => node.getImmediateChild childKey)
            (writesCache.childWriteTreeRef childKey) (ViewOperation.path_operationForChild_cons hpath hoperation)
          refine ⟨replaceChild childKey childTree' children, events,
            routedChildren_replaceChild hlookup (hself.trans hoperation) hrouted hothers, ?_⟩
          simp [applyOperationHelper, hlookup, hoperation, hhelper]
    obtain ⟨children', events, hvisited, hequal⟩ := hbelow
    obtain ⟨syncPoint', raised, hroot, hrootVisited⟩ := exists_applyAtSyncPoint syncPoint operation writesCache
      (resolveServerCache syncPoint serverCache) (children', events)
    exact ⟨.mk syncPoint' children', events ++ raised, hequal.trans hroot, routed_mk hrootVisited hvisited⟩

end Visits

end LoveCoupons
