import LoveCoupons.Operation
import LoveCoupons.RepoRuns

/-!
# The manager's writes in the repository

The manager writes a user's record as a whole, merges the two fields of a coupon and removes
coupons. In the layout of the database the root, the users, their directories and the coupons
only lead on to the fields, which hold the values. Every write of the manager keeps to this
layout, and none reaches below another one from above it, so that the repository takes all of
them in.
-/

namespace LoveCoupons

open KeyedTree PathContents Reactive StepSystem

variable {ρ : Type}

/-- The places that hold no value: the root, the users, their directories and the coupons. -/
def IsDirectory (path : Path) : Prop := path.length < 3 ∨ (path.length = 3 ∧ path[1]? = some couponsDirectory)

/-- Where a path with four keys passes through a user's coupons, everything above its end is a directory. -/
theorem reached_field (uid key field : Key) : Reached IsDirectory [uid, couponsDirectory, key, field] := by
  intro q k r h
  match q with
  | [] => exact .inl (by simp)
  | [_] => exact .inl (by simp)
  | [_, _] => exact .inl (by simp)
  | [_, _, _] =>
    obtain ⟨-, rfl, -⟩ : uid = _ ∧ couponsDirectory = _ ∧ _ := by simpa using h
    exact .inr ⟨rfl, rfl⟩
  | _ :: _ :: _ :: _ :: _ =>
    have hlength := congrArg List.length h
    simp only [List.length_cons, List.length_append, List.length_nil] at hlength
    omega

/-- Everything above a path with three keys is a directory. -/
theorem reached_of_length {path : Path} (h : path.length ≤ 3) : Reached IsDirectory path := by
  intro q k r hq
  have hlength := congrArg List.length hq
  simp only [List.length_append, List.length_cons] at hlength
  left
  omega

/-- Where nothing is stored, the layout is kept. -/
theorem fits_emptyNode {path : Path} (h : path.length ≤ 3) :
    Fits IsDirectory path (Snap.emptyNode : Snap Key Leaf).contents where
  above := reached_of_length h
  inside := by
    intro r hr
    rw [Snap.contents_emptyNode]
    rfl

/-- `+[FSnapshotUtilities compoundWriteFromDictionary:withValidationFrom:]`, whose keys are fields here, so that no
path is an ancestor of another one. -/
def compoundWriteFromDictionary (values : List (Key × Snap Key Leaf)) : CompoundWrite Key Leaf :=
  CompoundWrite.collect (values.map fun entry => ([entry.1], entry.2))

/-- The writes from a dictionary are its entries. -/
theorem writes_compoundWriteFromDictionary {values : List (Key × Snap Key Leaf)}
    (hkeys : (values.map Prod.fst).Nodup) (k : Path) (n : Contents Key Leaf) :
    (compoundWriteFromDictionary values).writes k = some n ↔
      ∃ entry ∈ values, k = [entry.1] ∧ n = entry.2.contents := by
  have hapart : (values.map fun entry => ([entry.1], entry.2)).Pairwise
      fun first second => Apart first.1 second.1 := by
    rw [List.pairwise_map]
    refine (List.pairwise_map.mp hkeys).imp fun hne => ?_
    constructor
    · intro hle
      exact hne (List.cons_prefix_cons.mp hle).1
    · intro hle
      exact hne (List.cons_prefix_cons.mp hle).1.symm
  rw [compoundWriteFromDictionary, CompoundWrite.writes_collect hapart]
  constructor
  · intro h
    obtain ⟨node, hmem, rfl⟩ := h
    obtain ⟨entry, hentry, heq⟩ := List.mem_map.mp hmem
    obtain ⟨rfl, rfl⟩ := Prod.mk.inj heq
    exact ⟨entry, hentry, rfl, rfl⟩
  · intro h
    obtain ⟨entry, hentry, rfl, rfl⟩ := h
    exact ⟨entry.2, List.mem_map.mpr ⟨entry, hentry, rfl⟩, rfl⟩

/-- A stored record is well formed. -/
theorem UserInfo.wellFormed_toAnyObject (userInfo : UserInfo) : WellFormed userInfo.toAnyObject := by
  apply wellFormed_node
  · simp
  · change [nameKey, emailKey, pairUniqIdKey].Nodup
    decide
  · intro entry hentry
    simp only [List.mem_cons, List.not_mem_nil, or_false] at hentry
    rcases hentry with rfl | rfl | rfl
    · exact wellFormed_leaf _
    · exact wellFormed_leaf _
    · exact wellFormed_leaf _

/-- The record that `setUserInfo` stores. -/
def UserInfo.snapshot (userInfo : UserInfo) : Snap Key Leaf := ⟨userInfo.toAnyObject, userInfo.wellFormed_toAnyObject⟩

/-- The values that `updateCoupon` merges. -/
def Coupon.values (coupon : Coupon) : List (Key × Snap Key Leaf) :=
  [(Coupon.descriptionKey, .leafNode (.string coupon.description)), (Coupon.imageKey, .leafNode (.string coupon.image))]

/-- The merge that `updateCoupon` makes. -/
def Coupon.update (coupon : Coupon) : CompoundWrite Key Leaf := compoundWriteFromDictionary coupon.values

/-- The merge writes the two fields. -/
theorem Coupon.writes_update (coupon : Coupon) (k : Path) (n : Contents Key Leaf) :
    coupon.update.writes k = some n ↔ ∃ entry ∈ coupon.values, k = [entry.1] ∧ n = entry.2.contents :=
  writes_compoundWriteFromDictionary (by simp [Coupon.values]; decide) k n

/-- What the manager writes, and where. -/
inductive ManagerData : Path → WriteData Key Leaf → Prop where
  | userInfo (uid : Key) (userInfo : UserInfo) : ManagerData (userInfoRef uid) (.overwrite userInfo.snapshot)
  | coupon (uid key : Key) (coupon : Coupon) : ManagerData (couponRef uid key) (.merge coupon.update)
  | deleted (uid key : Key) : ManagerData (couponRef uid key) (.overwrite .emptyNode)

section Messages

variable {path : Path} {data : WriteData Key Leaf}

/-- The manager writes in a directory of a user. -/
theorem ManagerData.length_le (h : ManagerData path data) : path.length ≤ 3 := by
  cases h with
  | userInfo uid userInfo => simp [userInfoRef]
  | coupon uid key coupon => simp [couponRef]
  | deleted uid key => simp [couponRef]

/-- Two places at which the manager writes are the same or apart. -/
theorem ManagerData.apart {path' : Path} {data' : WriteData Key Leaf} (h : ManagerData path data)
    (h' : ManagerData path' data') (hne : path ≠ path') : Apart path path' := by
  have hdirectory : userInfoDirectory ≠ couponsDirectory := by decide
  have hrecords : ∀ {first second : Path}, first.length = second.length → first ≠ second → Apart first second := by
    intro first second hlength hne
    exact ⟨fun hle => hne (hle.eq_of_length hlength), fun hle => hne (hle.eq_of_length hlength.symm).symm⟩
  have hmixed : ∀ uid uid' key : Key, Apart (userInfoRef uid) (couponRef uid' key) := by
    intro uid uid' key
    constructor
    · intro hle
      exact hdirectory (List.cons_prefix_cons.mp (List.cons_prefix_cons.mp hle).2).1
    · intro hle
      exact absurd hle.length_le (by simp [userInfoRef, couponRef])
  cases h with
  | userInfo uid userInfo =>
    cases h' with
    | userInfo uid' userInfo' => exact hrecords rfl hne
    | coupon uid' key coupon => exact hmixed uid uid' key
    | deleted uid' key => exact hmixed uid uid' key
  | coupon uid key coupon =>
    cases h' with
    | userInfo uid' userInfo => exact (hmixed uid' uid key).symm
    | coupon uid' key' coupon' => exact hrecords rfl hne
    | deleted uid' key' => exact hrecords rfl hne
  | deleted uid key =>
    cases h' with
    | userInfo uid' userInfo => exact (hmixed uid' uid key).symm
    | coupon uid' key' coupon' => exact hrecords rfl hne
    | deleted uid' key' => exact hrecords rfl hne

/-- A replaced record or coupon keeps to the layout. -/
theorem ManagerData.fits {newNode : Snap Key Leaf} (h : ManagerData path (.overwrite newNode)) :
    Fits IsDirectory path newNode.contents where
  above := reached_of_length h.length_le
  inside := by
    intro r hr
    cases h with
    | userInfo uid userInfo =>
      cases r with
      | nil => rfl
      | cons field r =>
        rcases hr with hlength | ⟨-, hcoupons⟩
        · simp only [userInfoRef, List.length_append, List.length_cons, List.length_nil] at hlength
          omega
        · exact absurd (Option.some.inj hcoupons) (by decide : userInfoDirectory ≠ couponsDirectory)
    | deleted uid key => exact (fits_emptyNode (by simp [couponRef])).inside r hr

/-- A merged field keeps to the layout. -/
theorem ManagerData.fits_merge {resolved : CompoundWrite Key Leaf} (h : ManagerData path (.merge resolved)) {k : Path}
    {n : Contents Key Leaf} (hk : resolved.writes k = some n) : Fits IsDirectory (path ++ k) n := by
  cases h with
  | coupon uid key coupon =>
    obtain ⟨entry, -, rfl, rfl⟩ := (coupon.writes_update k n).mp hk
    refine ⟨reached_field uid key entry.1, ?_⟩
    intro r hr
    have hlong : 4 ≤ (couponRef uid key ++ [entry.1] ++ r).length := by simp [couponRef]
    rcases hr with hlength | ⟨hlength, -⟩
    · omega
    · omega

/-- A merge of the manager reaches below no other place at which the manager writes from above it. -/
theorem ManagerData.noDeepReach {earlier : Path} {data' : WriteData Key Leaf} (hearlier : ManagerData earlier data')
    {record : WriteRecord Key Leaf} (h : ManagerData record.path record.data) :
    WriteTree.NoDeepReach earlier record := by
  intro w hw hle
  left
  by_cases hsame : earlier = record.path
  · rw [hsame]
  · have hplace := WriteRecord.path_prefix_of_mem_writes hw
    rcases List.prefix_or_prefix_of_prefix hle hplace with habove | hbelow
    · exact habove
    · exact absurd hbelow (hearlier.apart h hsame).2

/-- What the manager tells the repository is one of its writes; everything else is what a repository may be told. -/
def ManagerPermitted (repo : Repo Key Leaf ρ) : Repo.Message Key Leaf ρ → Prop
  | .set path newNode => ManagerData path (.overwrite newNode)
  | .update path resolved => ManagerData path (.merge resolved)
  | message => Repo.Permitted IsDirectory repo message

/-- All pending writes are the manager's. -/
def AllManaged (repo : Repo Key Leaf ρ) : Prop :=
  ∀ record ∈ repo.serverSyncTree.pendingWriteTree.allWrites, ManagerData record.path record.data

variable {repo : Repo Key Leaf ρ} {message : Repo.Message Key Leaf ρ}

/-- Later writes of the manager that are about other places lie apart from everything in this one. -/
theorem AllManaged.apart_of_later (h : AllManaged repo) {before after : List (WriteRecord Key Leaf)}
    {record : WriteRecord Key Leaf}
    (hpending : repo.serverSyncTree.pendingWriteTree.allWrites = before ++ record :: after)
    (hother : ∀ later ∈ after, later.path ≠ record.path) (place : Path) :
    ∀ later ∈ after, ∀ u ∈ later.writes, Apart u.1 (record.path ++ place) := by
  intro later hlater u hu
  have hrecord : ManagerData record.path record.data := h record (by rw [hpending]; simp)
  have hmanaged : ManagerData later.path later.data := by
    apply h later
    rw [hpending]
    exact List.mem_append_right _ (List.mem_cons_of_mem _ hlater)
  obtain ⟨below, hbelow⟩ := WriteRecord.path_prefix_of_mem_writes hu
  rw [← hbelow]
  exact (hmanaged.apart hrecord (hother later hlater)).append below place

/-- Where all pending writes are the manager's, the repository may be told its further ones. -/
theorem AllManaged.permitted (h : AllManaged repo) (hmessage : ManagerPermitted repo message) :
    Repo.Permitted IsDirectory repo message := by
  cases message with
  | set path newNode => exact ManagerData.fits hmessage
  | update path resolved =>
    refine ⟨fun k n hk => ManagerData.fits_merge hmessage hk, fun earlier hearlier => ?_⟩
    exact (h earlier hearlier).noDeepReach hmessage
  | _ => exact hmessage

/-- The manager's messages leave pending writes of the manager only. -/
theorem AllManaged.receive [DecidableEq ρ] (h : AllManaged repo) (hmessage : ManagerPermitted repo message)
    {repo' : Repo Key Leaf ρ} {events : RaisedEvents Key Leaf ρ}
    (hreceive : repo.receive message = some (repo', events)) : AllManaged repo' := by
  intro record hrecord
  rcases Repo.mem_allWrites_of_receive hreceive hrecord with hold | hnew
  · exact h record hold
  · cases message with
    | set path newNode =>
      rw [hnew.1, hnew.2]
      exact hmessage
    | update path resolved =>
      rw [hnew.1, hnew.2]
      exact hmessage
    | _ => exact absurd hnew id

end Messages

section Calls

/-- The message that a write of the database makes: `-[FIRDatabaseReference setValue:withCompletionBlock:]`, which
`removeValue` makes with no value, and `-[FIRDatabaseReference updateChildValues:withCompletionBlock:]`. -/
inductive Sends : Call → Repo.Message Key Leaf ρ → Prop where
  | setValue (path : Path) (newNode : Snap Key Leaf) : Sends (.setValue path newNode.tree) (.set path newNode)
  | updateChildValues (path : Path) (values : List (Key × Snap Key Leaf)) :
    Sends (.updateChildValues path (values.map fun entry => (entry.1, entry.2.tree)))
      (.update path (compoundWriteFromDictionary values))

/-- Snapshots with the same tree are the same. -/
theorem snap_eq {snap other : Snap Key Leaf} (h : snap.tree = other.tree) : snap = other := by
  obtain ⟨tree, hwf⟩ := snap
  obtain ⟨tree', hwf'⟩ := other
  cases h
  rfl

/-- Dictionaries of snapshots with the same trees are the same. -/
theorem values_eq {values others : List (Key × Snap Key Leaf)}
    (h : values.map (fun entry => (entry.1, entry.2.tree)) = others.map fun entry => (entry.1, entry.2.tree)) :
    values = others := by
  refine List.map_injective_iff.mpr ?_ h
  intro first second heq
  obtain ⟨hkey, htree⟩ := Prod.mk.inj heq
  exact Prod.ext hkey (snap_eq htree)

/-- A call sends one message at most. -/
theorem Sends.unique {call : Call} {message other : Repo.Message Key Leaf ρ} (h : Sends call message)
    (hother : Sends call other) : message = other := by
  cases h with
  | setValue path newNode =>
    generalize hcall : Call.setValue path newNode.tree = call at hother
    cases hother with
    | setValue path' newNode' =>
      obtain ⟨rfl, htree⟩ := Call.setValue.inj hcall
      rw [snap_eq htree]
    | updateChildValues path' values => cases hcall
  | updateChildValues path values =>
    generalize hcall : Call.updateChildValues path (values.map fun entry => (entry.1, entry.2.tree)) = call at hother
    cases hother with
    | setValue path' newNode => cases hcall
    | updateChildValues path' values' =>
      obtain ⟨rfl, hvalues⟩ := Call.updateChildValues.inj hcall
      rw [values_eq hvalues]

/-- The user who writes. -/
def writer : Key := ⟨"uid-ivy", by decide⟩

end Calls

end LoveCoupons
