import LoveCoupons.ViewProcessor

/-!
# The changes that an operation reports

The changes collected for one operation describe how each child of the event cache differs
from the child before the operation. A further change always fits the one that was collected
for the same child, so the exception for illegal combinations is never raised, whatever
writes and server data an operation works through. When nothing was collected, no child
changed.
-/

namespace LoveCoupons

open KeyedTree PathContents Dictionary

variable {κ ν : Type} [DecidableEq κ]

/-- The contents below each key. -/
def childContents (snap : Snap κ ν) : κ → Contents κ ν := fun key => below snap.contents [key]

/-- The change says how a child's contents went from the old ones to the new ones. -/
def Change.Describes (childKey : κ) (old new : Contents κ ν) : Change κ ν → Prop
  | .childAdded key node => key = childKey ∧ old = empty ∧ new ≠ empty ∧ node.contents = new
  | .childRemoved key node => key = childKey ∧ old ≠ empty ∧ new = empty ∧ node.contents = old
  | .childChanged key node oldNode =>
    key = childKey ∧ old ≠ empty ∧ new ≠ empty ∧ node.contents = new ∧ oldNode.contents = old
  | .value _ => False

/-- The tracked changes describe how each child went from the old contents to the current ones. -/
def Tracks (old current : κ → Contents κ ν) (changeMap : ChangeMap κ ν) : Prop :=
  ∀ key, match changeMap.lookup key with
    | some change => change.Describes key (old key) (current key)
    | none => old key = current key

/-- Without changes, nothing is tracked. -/
theorem tracks_nil (old : κ → Contents κ ν) : Tracks old old ([] : ChangeMap κ ν) := fun _ => rfl

/-- Tracking goes child by child. -/
theorem Tracks.insertKey {old current : κ → Contents κ ν} {changeMap : ChangeMap κ ν}
    (h : Tracks old current changeMap) {childKey : κ} {new : Contents κ ν} {change : Change κ ν}
    (hchange : change.Describes childKey (old childKey) new) :
    Tracks old (Function.update current childKey new) (insertKey childKey change changeMap) := by
  intro key
  by_cases hkey : key = childKey
  · subst hkey
    rw [lookup_insertKey_self, Function.update_self]
    exact hchange
  · rw [lookup_insertKey_ne hkey, Function.update_of_ne hkey]
    exact h key

/-- A child that is again what it was needs no entry. -/
theorem Tracks.removeKey {old current : κ → Contents κ ν} {changeMap : ChangeMap κ ν}
    (h : Tracks old current changeMap) {childKey : κ} {new : Contents κ ν} (hnew : old childKey = new) :
    Tracks old (Function.update current childKey new) (removeKey childKey changeMap) := by
  intro key
  by_cases hkey : key = childKey
  · subst hkey
    rw [lookup_removeKey_self, Function.update_self]
    exact hnew
  · rw [lookup_removeKey_ne hkey, Function.update_of_ne hkey]
    exact h key

/-- A change that describes what happens to a child can be tracked. -/
theorem Tracks.trackChildChange {old current : κ → Contents κ ν} {changeMap : ChangeMap κ ν}
    (h : Tracks old current changeMap) {childKey : κ} {new : Contents κ ν} {change : Change κ ν}
    (hchange : change.Describes childKey (current childKey) new) :
    ∃ changeMap', trackChildChange changeMap change = some changeMap' ∧
      Tracks old (Function.update current childKey new) changeMap' := by
  have hkey := h childKey
  cases hlookup : changeMap.lookup childKey with
  | none =>
    rw [hlookup] at hkey
    have hfirst : change.Describes childKey (old childKey) new := hkey ▸ hchange
    cases change with
    | childAdded key node =>
      obtain ⟨rfl, -⟩ := hchange
      exact ⟨_, by simp [LoveCoupons.trackChildChange, hlookup], h.insertKey hfirst⟩
    | childRemoved key node =>
      obtain ⟨rfl, -⟩ := hchange
      exact ⟨_, by simp [LoveCoupons.trackChildChange, hlookup], h.insertKey hfirst⟩
    | childChanged key node oldNode =>
      obtain ⟨rfl, -⟩ := hchange
      exact ⟨_, by simp [LoveCoupons.trackChildChange, hlookup], h.insertKey hfirst⟩
    | value node => exact absurd hchange id
  | some tracked =>
    rw [hlookup] at hkey
    cases change with
    | childAdded key node =>
      obtain ⟨rfl, hcurrent, hnew, hnode⟩ := hchange
      cases tracked with
      | childRemoved other oldNode =>
        obtain ⟨rfl, hold, -, holdNode⟩ := hkey
        have hnext : (Change.childChanged other node oldNode).Describes other (old other) new :=
          ⟨rfl, hold, hnew, hnode, holdNode⟩
        exact ⟨_, by simp [LoveCoupons.trackChildChange, hlookup], h.insertKey hnext⟩
      | childAdded other otherNode => exact absurd hcurrent hkey.2.2.1
      | childChanged other otherNode oldNode => exact absurd hcurrent hkey.2.2.1
      | value otherNode => exact absurd hkey id
    | childRemoved key node =>
      obtain ⟨rfl, hcurrent, hnew, -⟩ := hchange
      cases tracked with
      | childAdded other otherNode =>
        obtain ⟨rfl, hold, -⟩ := hkey
        exact ⟨_, by simp [LoveCoupons.trackChildChange, hlookup], h.removeKey (hold.trans hnew.symm)⟩
      | childChanged other otherNode oldNode =>
        obtain ⟨rfl, hold, -, -, holdNode⟩ := hkey
        have hnext : (Change.childRemoved other oldNode).Describes other (old other) new :=
          ⟨rfl, hold, hnew, holdNode⟩
        exact ⟨_, by simp [LoveCoupons.trackChildChange, hlookup], h.insertKey hnext⟩
      | childRemoved other otherNode => exact absurd hkey.2.2.1 hcurrent
      | value otherNode => exact absurd hkey id
    | childChanged key node oldNode =>
      obtain ⟨rfl, hcurrent, hnew, hnode, -⟩ := hchange
      cases tracked with
      | childAdded other otherNode =>
        obtain ⟨rfl, hold, -⟩ := hkey
        have hnext : (Change.childAdded other node).Describes other (old other) new :=
          ⟨rfl, hold, hnew, hnode⟩
        exact ⟨_, by simp [LoveCoupons.trackChildChange, hlookup], h.insertKey hnext⟩
      | childChanged other otherNode firstNode =>
        obtain ⟨rfl, hold, -, -, hfirst⟩ := hkey
        have hnext : (Change.childChanged other node firstNode).Describes other (old other) new :=
          ⟨rfl, hold, hnew, hnode, hfirst⟩
        exact ⟨_, by simp [LoveCoupons.trackChildChange, hlookup], h.insertKey hnext⟩
      | childRemoved other otherNode => exact absurd hkey.2.2.1 hcurrent
      | value otherNode => exact absurd hkey id
    | value node => exact absurd hchange id

/-- The changes take the children from the current contents to the new ones. -/
def Reports (current new : κ → Contents κ ν) (changes : List (Change κ ν)) : Prop :=
  ∀ old changeMap, Tracks old current changeMap →
    ∃ changeMap', changes.foldlM trackChildChange changeMap = some changeMap' ∧ Tracks old new changeMap'

/-- Where nothing changes, nothing need be reported. -/
theorem reports_nil (current : κ → Contents κ ν) : Reports current current ([] : List (Change κ ν)) :=
  fun _ changeMap h => ⟨changeMap, rfl, h⟩

/-- Reports of two steps, one after the other, report both. -/
theorem Reports.append {first second third : κ → Contents κ ν} {changes later : List (Change κ ν)}
    (h : Reports first second changes) (hlater : Reports second third later) :
    Reports first third (changes ++ later) := by
  intro old changeMap htracks
  obtain ⟨middle, hmiddle, htracks'⟩ := h old changeMap htracks
  obtain ⟨last, hlast, htracks''⟩ := hlater old middle htracks'
  refine ⟨last, ?_, htracks''⟩
  rw [List.foldlM_append, hmiddle]
  exact hlast

/-- A single change of one child. -/
theorem reports_singleton {current : κ → Contents κ ν} {childKey : κ} {new : Contents κ ν} {change : Change κ ν}
    (h : change.Describes childKey (current childKey) new) :
    Reports current (Function.update current childKey new) [change] := by
  intro old changeMap htracks
  obtain ⟨changeMap', htrack, htracks'⟩ := htracks.trackChildChange h
  exact ⟨changeMap', by simp [htrack], htracks'⟩

/-- Changes of different children, one for each child that changes. -/
theorem reports_of_describes (changes : List (κ × Change κ ν)) {current new : κ → Contents κ ν}
    (hnodup : (changes.map Prod.fst).Nodup)
    (hdescribes : ∀ entry ∈ changes, entry.2.Describes entry.1 (current entry.1) (new entry.1))
    (hother : ∀ key, key ∉ changes.map Prod.fst → current key = new key) :
    Reports current new (changes.map Prod.snd) := by
  induction changes generalizing current with
  | nil =>
    have hsame : current = new := funext fun key => hother key (by simp)
    rw [hsame]
    exact reports_nil new
  | cons entry rest ih =>
    rw [List.map_cons, List.nodup_cons] at hnodup
    have hhead := reports_singleton (hdescribes entry (by simp))
    rw [List.map_cons, ← List.singleton_append]
    refine hhead.append (ih hnodup.2 ?_ ?_)
    · intro other hmem
      have hne : other.1 ≠ entry.1 := fun heq => hnodup.1 (List.mem_map.mpr ⟨other, hmem, heq⟩)
      rw [Function.update_of_ne hne]
      exact hdescribes other (by simp [hmem])
    · intro key hkey
      by_cases heq : key = entry.1
      · rw [heq, Function.update_self]
      · rw [Function.update_of_ne heq]
        exact hother key (by simp [heq, hkey])

/-- Replacing one child. -/
theorem childContents_updateImmediateChild (node : Snap κ ν) (childKey : κ) (newChild : Snap κ ν) :
    childContents (node.updateImmediateChild childKey newChild) =
      Function.update (childContents node) childKey newChild.contents := by
  funext key
  rw [childContents, Snap.updateImmediateChild, Snap.contents_updateChild]
  by_cases hkey : key = childKey
  · subst hkey
    rw [Function.update_self]
    funext q
    exact write_append _ [key] _ q
  · rw [Function.update_of_ne hkey]
    funext q
    have hapart : Apart [childKey] (key :: q) := by
      constructor
      · intro hle
        exact hkey (List.cons_prefix_cons.mp hle).1.symm
      · intro hle
        exact hkey (List.cons_prefix_cons.mp hle).1
    exact write_apart _ hapart _

/-- The contents of a child are those below its key. -/
theorem childContents_eq (node : Snap κ ν) (childKey : κ) :
    (node.getImmediateChild childKey).contents = childContents node childKey :=
  Snap.contents_getChild node [childKey]

/-- The changes of children that are no longer there. -/
def removedChanges (oldSnap newSnap : Snap κ ν) : List (κ × Change κ ν) :=
  oldSnap.children.filterMap fun entry =>
    if newSnap.hasChild entry.1 then none else some (entry.1, Change.childRemoved entry.1 entry.2)

/-- A child that is no longer there is reported as removed. -/
theorem mem_removedChanges (oldSnap newSnap : Snap κ ν) (key : κ) (change : Change κ ν) :
    (key, change) ∈ removedChanges oldSnap newSnap ↔
      oldSnap.hasChild key = true ∧ newSnap.hasChild key = false ∧
        change = .childRemoved key (oldSnap.getImmediateChild key) := by
  rw [removedChanges, List.mem_filterMap]
  constructor
  · rintro ⟨⟨name, child⟩, hmem, hentry⟩
    obtain ⟨hhas, rfl⟩ := (oldSnap.mem_children_iff name child).mp hmem
    split at hentry
    · contradiction
    · rename_i hgone
      obtain ⟨rfl, rfl⟩ := Prod.mk.inj (Option.some.inj hentry)
      exact ⟨hhas, by simpa using hgone, rfl⟩
  · rintro ⟨hhas, hgone, rfl⟩
    refine ⟨(key, oldSnap.getImmediateChild key), (oldSnap.mem_children_iff _ _).mpr ⟨hhas, rfl⟩, ?_⟩
    simp [hgone]

section Filter

variable [DecidableEq ν]

/-- The filter reports the change that it makes to a child. -/
theorem reports_updateChildIn (node : Snap κ ν) (childKey : κ) (newChild : Snap κ ν) (affectedPath : List κ) :
    Reports (childContents node) (childContents (updateChildIn node childKey newChild affectedPath).1)
      (updateChildIn node childKey newChild affectedPath).2 := by
  have hold := childContents_eq node childKey
  have hhas := node.hasChild_iff childKey
  have hnew := newChild.isEmpty_iff
  have holdEmpty := (node.getImmediateChild childKey).isEmpty_iff
  rw [hold] at holdEmpty
  unfold updateChildIn
  dsimp only
  split
  · exact reports_nil _
  · by_cases hempty : newChild.isEmpty = true
    · have hgone := hnew.mp hempty
      simp only [hempty, if_true, Bool.and_true]
      cases hchild : node.hasChild childKey with
      | true =>
        have hremoved : (Change.childRemoved childKey (node.getImmediateChild childKey)).Describes childKey
            (childContents node childKey) newChild.contents := ⟨rfl, hhas.mp hchild, hgone, hold⟩
        cases hleaf : node.isLeafNode with
        | true =>
          have hvalue := (node.isLeafNode_iff).mp hleaf
          obtain ⟨value, hvalue⟩ := Option.ne_none_iff_exists'.mp hvalue
          exfalso
          apply hhas.mp hchild
          funext q
          exact node.exclusive_contents [] value childKey q hvalue
        | false =>
          rw [if_neg (by simp), if_pos rfl, childContents_updateImmediateChild]
          exact reports_singleton hremoved
      | false =>
        have hsame : childContents node childKey = newChild.contents := by
          rw [hgone]
          by_contra hne
          exact absurd (hhas.mpr hne) (by simp [hchild])
        cases hleaf : node.isLeafNode with
        | true => exact reports_nil _
        | false =>
          rw [if_neg (by simp), childContents_updateImmediateChild, ← hsame, Function.update_eq_self]
          exact reports_nil _
    · have hthere : newChild.contents ≠ empty := fun h => hempty (hnew.mpr h)
      simp only [Bool.not_eq_true] at hempty
      simp only [hempty, Bool.false_eq_true, if_false, Bool.and_false]
      rw [childContents_updateImmediateChild]
      split
      · rename_i hwasEmpty
        have hadded : (Change.childAdded childKey newChild).Describes childKey
            (childContents node childKey) newChild.contents := ⟨rfl, holdEmpty.mp hwasEmpty, hthere, rfl⟩
        exact reports_singleton hadded
      · rename_i hwasThere
        have hchanged : (Change.childChanged childKey newChild (node.getImmediateChild childKey)).Describes childKey
            (childContents node childKey) newChild.contents :=
          ⟨rfl, fun h => hwasThere (holdEmpty.mpr h), hthere, rfl, hold⟩
        exact reports_singleton hchanged

/-- The filter replaces the child, unless the old and the new child agree at the affected path and elsewhere. -/
theorem contents_updateChildIn (node : Snap κ ν) (childKey : κ) (newChild : Snap κ ν) (affectedPath : List κ)
    (hagree : below (childContents node childKey) affectedPath = below newChild.contents affectedPath →
      (childContents node childKey = empty ↔ newChild.contents = empty) →
        childContents node childKey = newChild.contents) :
    (updateChildIn node childKey newChild affectedPath).1.contents =
      write node.contents [childKey] newChild.contents := by
  have hold := childContents_eq node childKey
  unfold updateChildIn
  dsimp only
  split
  · rename_i hsame
    rw [Bool.and_eq_true, Snap.isEqual_iff, Snap.contents_getChild, Snap.contents_getChild, hold,
      beq_iff_eq, Bool.eq_iff_iff, Snap.isEmpty_iff, Snap.isEmpty_iff, hold] at hsame
    have hcontents := hagree hsame.1 hsame.2
    rw [← hcontents]
    exact (write_below_self node.exclusive_contents [childKey]).symm
  · split
    · rename_i hleaf
      rw [Bool.and_eq_true, Snap.isLeafNode_iff, Snap.isEmpty_iff] at hleaf
      obtain ⟨value, hvalue⟩ := Option.ne_none_iff_exists'.mp hleaf.1
      have hnone : below node.contents [childKey] = empty := by
        funext q
        exact node.exclusive_contents [] value childKey q hvalue
      rw [hleaf.2, ← hnone]
      exact (write_below_self node.exclusive_contents [childKey]).symm
    · exact Snap.contents_updateChild node [childKey] newChild

/-- With a new part written into the child, the filter writes it into the node. -/
theorem contents_updateChildIn_write (node : Snap κ ν) (childKey : κ) (rest : List κ) {newChild : Snap κ ν}
    {n : Contents κ ν} (hnew : newChild.contents = write (childContents node childKey) rest n) :
    (updateChildIn node childKey newChild rest).1.contents = write node.contents (childKey :: rest) n := by
  rw [contents_updateChildIn, hnew]
  · exact write_write_below node.exclusive_contents [childKey] rest n
  · intro hagree _
    have hpart : below newChild.contents rest = n := by
      funext q
      rw [hnew]
      exact write_append _ rest n q
    have hself := write_below_self (node.getImmediateChild childKey).exclusive_contents rest
    rw [childContents_eq, hagree, hpart] at hself
    exact hself.symm.trans hnew.symm

/-- Updating below a child writes at the path through it. -/
theorem contents_updateChildIn_updateChild (node : Snap κ ν) (childKey : κ) (rest : List κ) (new : Snap κ ν) :
    (updateChildIn node childKey ((node.getImmediateChild childKey).updateChild rest new) rest).1.contents =
      write node.contents (childKey :: rest) new.contents := by
  apply contents_updateChildIn_write
  rw [Snap.contents_updateChild, childContents_eq]

/-- The changes of children that are new or different. -/
def keptChanges (oldSnap newSnap : Snap κ ν) : List (κ × Change κ ν) :=
  newSnap.children.filterMap fun entry =>
    if oldSnap.hasChild entry.1 then
      if (oldSnap.getImmediateChild entry.1).isEqual entry.2 then none
      else some (entry.1, Change.childChanged entry.1 entry.2 (oldSnap.getImmediateChild entry.1))
    else some (entry.1, .childAdded entry.1 entry.2)

/-- The changes of a full update are those of the removed children and of the kept ones. -/
theorem updateFullNode_changes (oldSnap newSnap : Snap κ ν) :
    (updateFullNode oldSnap newSnap).2 =
      (removedChanges oldSnap newSnap ++ keptChanges oldSnap newSnap).map Prod.snd := by
  rw [updateFullNode, removedChanges, keptChanges, List.map_append, List.map_filterMap, List.map_filterMap]
  dsimp only
  congr 1
  · apply List.filterMap_congr
    intro entry _
    split <;> rfl
  · apply List.filterMap_congr
    intro entry _
    split
    · split <;> rfl
    · rfl

/-- A child that is new or different is reported as added or changed. -/
theorem mem_keptChanges (oldSnap newSnap : Snap κ ν) (key : κ) (change : Change κ ν) :
    (key, change) ∈ keptChanges oldSnap newSnap ↔ newSnap.hasChild key = true ∧
      (oldSnap.hasChild key = true ∧
          (oldSnap.getImmediateChild key).isEqual (newSnap.getImmediateChild key) = false ∧
          change = .childChanged key (newSnap.getImmediateChild key) (oldSnap.getImmediateChild key) ∨
        oldSnap.hasChild key = false ∧ change = .childAdded key (newSnap.getImmediateChild key)) := by
  rw [keptChanges, List.mem_filterMap]
  constructor
  · rintro ⟨⟨name, child⟩, hmem, hentry⟩
    obtain ⟨hhas, rfl⟩ := (newSnap.mem_children_iff name child).mp hmem
    split at hentry
    · rename_i hold
      split at hentry
      · contradiction
      · rename_i hdiffers
        obtain ⟨rfl, rfl⟩ := Prod.mk.inj (Option.some.inj hentry)
        exact ⟨hhas, .inl ⟨hold, by simpa using hdiffers, rfl⟩⟩
    · rename_i hnew
      obtain ⟨rfl, rfl⟩ := Prod.mk.inj (Option.some.inj hentry)
      exact ⟨hhas, .inr ⟨by simpa using hnew, rfl⟩⟩
  · rintro ⟨hhas, hentry⟩
    refine ⟨(key, newSnap.getImmediateChild key), (newSnap.mem_children_iff _ _).mpr ⟨hhas, rfl⟩, ?_⟩
    rcases hentry with ⟨hold, hdiffers, rfl⟩ | ⟨hnew, rfl⟩
    · simp [hold, hdiffers]
    · simp [hnew]

/-- Replacing the whole node reports how each of its children changed. -/
theorem reports_updateFullNode (oldSnap newSnap : Snap κ ν) :
    Reports (childContents oldSnap) (childContents newSnap) (updateFullNode oldSnap newSnap).2 := by
  have hthere : ∀ (snap : Snap κ ν) key, snap.hasChild key = true → childContents snap key ≠ empty :=
    fun snap key h => (snap.hasChild_iff key).mp h
  have hgone : ∀ (snap : Snap κ ν) key, snap.hasChild key = false → childContents snap key = empty := by
    intro snap key h
    by_contra hne
    rw [(snap.hasChild_iff key).mpr hne] at h
    contradiction
  rw [updateFullNode_changes]
  apply reports_of_describes
  · rw [List.map_append, List.nodup_append]
    refine ⟨nodup_filterMap ?_ oldSnap.nodup_children, nodup_filterMap ?_ newSnap.nodup_children, ?_⟩
    · intro entry found hfound
      split at hfound <;> grind
    · intro entry found hfound
      split at hfound
      · split at hfound <;> grind
      · grind
    · intro key hremoved other hkept heq
      obtain ⟨entry, hentry, rfl⟩ := List.mem_map.mp hremoved
      obtain ⟨entry', hentry', rfl⟩ := List.mem_map.mp hkept
      have hfalse := ((mem_removedChanges oldSnap newSnap entry.1 entry.2).mp hentry).2.1
      have htrue := ((mem_keptChanges oldSnap newSnap entry'.1 entry'.2).mp hentry').1
      rw [← heq, hfalse] at htrue
      contradiction
  · rintro ⟨key, change⟩ hentry
    rcases List.mem_append.mp hentry with hentry | hentry
    · obtain ⟨hold, hnew, rfl⟩ := (mem_removedChanges oldSnap newSnap _ _).mp hentry
      exact ⟨rfl, hthere _ _ hold, hgone _ _ hnew, childContents_eq oldSnap key⟩
    · obtain ⟨hnew, ⟨hold, -, rfl⟩ | ⟨hold, rfl⟩⟩ := (mem_keptChanges oldSnap newSnap _ _).mp hentry
      · exact ⟨rfl, hthere _ _ hold, hthere _ _ hnew, childContents_eq newSnap key, childContents_eq oldSnap key⟩
      · exact ⟨rfl, hgone _ _ hold, hthere _ _ hnew, childContents_eq newSnap key⟩
  · intro key hkey
    rw [List.map_append, List.mem_append, not_or] at hkey
    cases hold : oldSnap.hasChild key with
    | false =>
      cases hnew : newSnap.hasChild key with
      | false => rw [hgone _ _ hold, hgone _ _ hnew]
      | true =>
        have hmem := (mem_keptChanges oldSnap newSnap key _).mpr ⟨hnew, .inr ⟨hold, rfl⟩⟩
        exact absurd (List.mem_map.mpr ⟨_, hmem, rfl⟩) hkey.2
    | true =>
      cases hnew : newSnap.hasChild key with
      | false =>
        have hmem := (mem_removedChanges oldSnap newSnap key _).mpr ⟨hold, hnew, rfl⟩
        exact absurd (List.mem_map.mpr ⟨_, hmem, rfl⟩) hkey.1
      | true =>
        cases hequal : (oldSnap.getImmediateChild key).isEqual (newSnap.getImmediateChild key) with
        | true =>
          rw [Snap.isEqual_iff, childContents_eq, childContents_eq] at hequal
          exact hequal
        | false =>
          have hmem := (mem_keptChanges oldSnap newSnap key _).mpr ⟨hnew, .inl ⟨hold, hequal, rfl⟩⟩
          exact absurd (List.mem_map.mpr ⟨_, hmem, rfl⟩) hkey.2

end Filter

namespace ViewProcessor

/-- The changes say how the children of the event cache went from the old caches to the processed ones. -/
def Reported (oldViewCache : ViewCache κ ν) (processed : Processed κ ν) : Prop :=
  Reports (childContents oldViewCache.cachedEventSnap.node) (childContents processed.1.cachedEventSnap.node)
    processed.2

/-- A view that stays what it was reports nothing. -/
theorem reported_unchanged (viewCache : ViewCache κ ν) : Reported viewCache (viewCache, []) := reports_nil _

/-- What is reported does not depend on the server cache. -/
theorem Reported.of_updateServerSnap {oldViewCache : ViewCache κ ν} {serverSnap : Snap κ ν}
    {complete filtered : Bool} {processed : Processed κ ν}
    (h : Reported (oldViewCache.updateServerSnap serverSnap complete filtered) processed) :
    Reported oldViewCache processed := h

/-- Two steps that report their changes report those of both. -/
theorem Reported.andThen {oldViewCache : ViewCache κ ν} {processed : Processed κ ν}
    {next : ViewCache κ ν → Processed κ ν} (h : Reported oldViewCache processed)
    (hnext : ∀ viewCache, Reported viewCache (next viewCache)) :
    Reported oldViewCache (andThen processed next) :=
  h.append (hnext processed.1)

/-- A sequence of operations reports all that they changed together. -/
theorem Reported.foldl {α : Type} {oldViewCache : ViewCache κ ν} {processed : Processed κ ν}
    {apply : α → ViewCache κ ν → Processed κ ν} (h : Reported oldViewCache processed)
    (happly : ∀ entry viewCache, Reported viewCache (apply entry viewCache)) (entries : List α) :
    Reported oldViewCache (entries.foldl (fun processed entry => ViewProcessor.andThen processed (apply entry))
      processed) := by
  induction entries generalizing processed with
  | nil => exact h
  | cons entry rest ih => exact ih (h.andThen (happly entry))

section Operations

variable [DecidableEq ν]

/-- The event cache made after an event of the server reports its changes. -/
theorem reported_generateEventCacheAfterServerEvent (viewCache : ViewCache κ ν) (changePath : List κ)
    (writesCache : WriteTreeRef κ ν) :
    Reported viewCache (generateEventCacheAfterServerEvent viewCache changePath writesCache) := by
  unfold generateEventCacheAfterServerEvent
  dsimp only
  split
  · exact reported_unchanged viewCache
  · split
    · exact reports_updateFullNode _ _
    · split
      · exact reports_updateChildIn _ _ _ _
      · exact reports_nil _

/-- A server overwrite reports its changes. -/
theorem reported_applyServerOverwriteTo (oldViewCache : ViewCache κ ν) (changePath : List κ)
    (changedSnap : Snap κ ν) (writesCache : WriteTreeRef κ ν) :
    Reported oldViewCache (applyServerOverwriteTo oldViewCache changePath changedSnap writesCache) := by
  unfold applyServerOverwriteTo
  dsimp only
  split
  · exact Reported.of_updateServerSnap (reported_generateEventCacheAfterServerEvent _ _ _)
  · split
    · exact reported_unchanged oldViewCache
    · exact Reported.of_updateServerSnap (reported_generateEventCacheAfterServerEvent _ _ _)

/-- A user overwrite reports its changes. -/
theorem reported_applyUserOverwriteTo (oldViewCache : ViewCache κ ν) (changePath : List κ)
    (changedSnap : Snap κ ν) (writesCache : WriteTreeRef κ ν) (optCompleteCache : Option (Snap κ ν)) :
    Reported oldViewCache
      (applyUserOverwriteTo oldViewCache changePath changedSnap writesCache optCompleteCache) := by
  unfold applyUserOverwriteTo
  dsimp only
  split
  · exact reports_updateFullNode _ _
  · split
    · exact reported_unchanged oldViewCache
    · exact reports_updateChildIn _ _ _ _

/-- A user merge reports its changes. -/
theorem reported_applyUserMergeTo (viewCache : ViewCache κ ν) (path : List κ)
    (changedChildren : CompoundWrite κ ν) (writesCache : WriteTreeRef κ ν) (serverCache : Option (Snap κ ν)) :
    Reported viewCache (applyUserMergeTo viewCache path changedChildren writesCache serverCache) := by
  have happly := fun (entry : List κ × Snap κ ν) curViewCache =>
    reported_applyUserOverwriteTo curViewCache entry.1 entry.2 writesCache serverCache
  exact ((reported_unchanged viewCache).foldl happly _).foldl happly _

/-- A server merge reports its changes. -/
theorem reported_applyServerMergeTo (viewCache : ViewCache κ ν) (path : List κ)
    (changedChildren : CompoundWrite κ ν) (writesCache : WriteTreeRef κ ν) :
    Reported viewCache (applyServerMergeTo viewCache path changedChildren writesCache) := by
  unfold applyServerMergeTo
  dsimp only
  split
  · exact reported_unchanged viewCache
  · have happly := fun (entry : κ × CompoundWrite κ ν) curViewCache =>
      reported_applyServerOverwriteTo curViewCache [entry.1]
        (entry.2.applyToNode (viewCache.cachedServerSnap.node.getImmediateChild entry.1)) writesCache
    exact ((reported_unchanged viewCache).foldl happly _).foldl happly _

/-- An acknowledged write reports its changes. -/
theorem reported_ackUserWriteOn (viewCache : ViewCache κ ν) (ackPath : List κ)
    (affectedTree : ImmutableTree κ Bool) (writesCache : WriteTreeRef κ ν) :
    Reported viewCache (ackUserWriteOn viewCache ackPath affectedTree writesCache) := by
  unfold ackUserWriteOn
  dsimp only
  split
  · exact reported_unchanged viewCache
  · split
    · split
      · exact reported_applyServerOverwriteTo _ _ _ _
      · split
        · exact reported_applyServerMergeTo _ _ _ _
        · exact reported_unchanged viewCache
    · exact reported_applyServerMergeTo _ _ _ _

/-- A write below a child that is taken back reports the changes of that child. -/
theorem reports_revertChild (viewCache : ViewCache κ ν) (childKey : κ) (rest : List κ)
    (writesCache : WriteTreeRef κ ν) :
    Reports (childContents viewCache.cachedEventSnap.node)
      (childContents (revertChild viewCache childKey rest writesCache).1)
      (revertChild viewCache childKey rest writesCache).2 := by
  unfold revertChild
  dsimp only
  generalize viewCache.cachedEventSnap.node = oldEventCache
  split
  · exact reports_updateChildIn _ _ _ _
  · split
    · exact reports_updateChildIn _ _ _ _
    · exact reports_nil _

/-- Going back to a leaf reports the children that go. -/
theorem reports_revertToLeaf (viewCache : ViewCache κ ν) {current : κ → Contents κ ν}
    {changed : Snap κ ν × List (Change κ ν)} (h : Reports current (childContents changed.1) changed.2)
    (writesCache : WriteTreeRef κ ν) :
    Reports current (childContents (revertToLeaf viewCache changed writesCache).1)
      (revertToLeaf viewCache changed writesCache).2 := by
  unfold revertToLeaf
  dsimp only
  split
  · split
    · exact h.append (reports_updateFullNode _ _)
    · exact h
  · exact h

/-- A write that is taken back reports its changes. -/
theorem reported_revertUserWriteOn (viewCache : ViewCache κ ν) (path : List κ)
    (writesCache : WriteTreeRef κ ν) : Reported viewCache (revertUserWriteOn viewCache path writesCache) := by
  unfold revertUserWriteOn
  dsimp only
  split
  · exact reported_unchanged viewCache
  · cases path with
    | nil => exact reports_updateFullNode _ _
    | cons childKey rest => exact reports_revertToLeaf _ (reports_revertChild _ _ _ _) _

/-- Every operation reports how the children of the event cache changed. -/
theorem reported_process (oldViewCache : ViewCache κ ν) (operation : ViewOperation κ ν)
    (writesCache : WriteTreeRef κ ν) (optCompleteCache : Option (Snap κ ν)) :
    Reported oldViewCache (process oldViewCache operation writesCache optCompleteCache) := by
  unfold process
  split
  · exact reported_applyUserOverwriteTo _ _ _ _ _
  · exact reported_applyServerOverwriteTo _ _ _ _
  · exact reported_applyUserMergeTo _ _ _ _ _
  · exact reported_applyServerMergeTo _ _ _ _
  · exact reported_ackUserWriteOn _ _ _ _
  · exact reported_revertUserWriteOn _ _ _
  · exact Reported.of_updateServerSnap (reported_generateEventCacheAfterServerEvent _ _ _)

/-- The tracked changes of an operation. -/
theorem exists_changeMap (oldViewCache : ViewCache κ ν) (operation : ViewOperation κ ν)
    (writesCache : WriteTreeRef κ ν) (optCompleteCache : Option (Snap κ ν)) :
    ∃ changeMap, (process oldViewCache operation writesCache optCompleteCache).2.foldlM trackChildChange [] =
        some changeMap ∧
      Tracks (childContents oldViewCache.cachedEventSnap.node)
        (childContents (process oldViewCache operation writesCache optCompleteCache).1.cachedEventSnap.node)
        changeMap :=
  reported_process oldViewCache operation writesCache optCompleteCache _ [] (tracks_nil _)

/-- Nothing is reported of a complete event cache only when there are no changes, the old event cache was complete
and a leaf or nothing is what it was. -/
theorem maybeAddValue_eq_nil {oldViewCache newViewCache : ViewCache κ ν} {changes : List (Change κ ν)}
    (hcomplete : newViewCache.cachedEventSnap.isFullyInitialized = true)
    (hnone : maybeAddValue oldViewCache newViewCache changes = []) :
    changes = [] ∧ oldViewCache.cachedEventSnap.isFullyInitialized = true ∧
      ((newViewCache.cachedEventSnap.node.isLeafNode || newViewCache.cachedEventSnap.node.isEmpty) = true →
        newViewCache.cachedEventSnap.node.contents = oldViewCache.cachedEventSnap.node.contents) := by
  unfold maybeAddValue at hnone
  rw [ViewCache.completeEventSnap] at hnone
  simp only [hcomplete, if_true] at hnone
  cases hold : oldViewCache.cachedEventSnap.isFullyInitialized with
  | false => simp [hold] at hnone
  | true =>
    simp only [hold, if_true, Bool.not_true, Bool.or_false] at hnone
    split at hnone
    · simp at hnone
    · rename_i hquiet
      refine ⟨hnone, rfl, fun hleaf => ?_⟩
      rw [← Snap.isEqual_iff]
      simpa [hnone, hleaf] using hquiet

/-- Of a complete event cache, the value is reported last, or nothing at all. -/
theorem maybeAddValue_cases (oldViewCache : ViewCache κ ν) {newViewCache : ViewCache κ ν} (changes : List (Change κ ν))
    (hcomplete : newViewCache.cachedEventSnap.isFullyInitialized = true) :
    maybeAddValue oldViewCache newViewCache changes = changes ++ [.value newViewCache.cachedEventSnap.node] ∨
      maybeAddValue oldViewCache newViewCache changes = [] := by
  unfold maybeAddValue
  dsimp only
  rw [if_pos hcomplete]
  split_ifs with hreport
  · exact .inl rfl
  · cases changes with
    | nil => exact .inr rfl
    | cons change rest => simp at hreport

/-- A complete event cache of which nothing is reported has the contents of the old one, which was complete. -/
theorem contents_eq_of_maybeAddValue {oldViewCache newViewCache : ViewCache κ ν} {changeMap : ChangeMap κ ν}
    (htracks : Tracks (childContents oldViewCache.cachedEventSnap.node)
      (childContents newViewCache.cachedEventSnap.node) changeMap)
    (hcomplete : newViewCache.cachedEventSnap.isFullyInitialized = true)
    (hnone : maybeAddValue oldViewCache newViewCache (changeMap.map Prod.snd) = []) :
    oldViewCache.cachedEventSnap.isFullyInitialized = true ∧
      newViewCache.cachedEventSnap.node.contents = oldViewCache.cachedEventSnap.node.contents := by
  obtain ⟨hchanges, hold, hequal⟩ := maybeAddValue_eq_nil hcomplete hnone
  obtain rfl := List.map_eq_nil_iff.mp hchanges
  have hchild : ∀ key, childContents oldViewCache.cachedEventSnap.node key =
      childContents newViewCache.cachedEventSnap.node key := htracks
  refine ⟨hold, ?_⟩
  cases hroot : newViewCache.cachedEventSnap.node.contents [] with
  | some value =>
    have hleaf := (newViewCache.cachedEventSnap.node.isLeafNode_iff).mpr (by simp [hroot])
    exact hequal (by simp [hleaf])
  | none =>
    by_cases hempty : newViewCache.cachedEventSnap.node.contents = empty
    · exact hequal (by simp [(newViewCache.cachedEventSnap.node.isEmpty_iff).mpr hempty])
    · -- some child is there, and was there before, so that the old node was no leaf
      obtain ⟨q, hq⟩ := Function.ne_iff.mp hempty
      funext r
      cases r with
      | cons key r => exact (congrFun (hchild key) r).symm
      | nil =>
        rw [hroot]
        cases hleaf : oldViewCache.cachedEventSnap.node.contents [] with
        | none => rfl
        | some value =>
          cases q with
          | nil => exact absurd hroot hq
          | cons key q =>
            have hgone := oldViewCache.cachedEventSnap.node.exclusive_contents [] value key q hleaf
            exact absurd ((congrFun (hchild key) q).symm.trans hgone) hq

section ServerData

/-- Computing what is shown leaves the server's data alone. -/
theorem generate_cachedServerSnap {cache : ViewCache κ ν} (changePath : List κ) (writesCache : WriteTreeRef κ ν) :
    (generateEventCacheAfterServerEvent cache changePath writesCache).1.cachedServerSnap =
      cache.cachedServerSnap := by
  unfold generateEventCacheAfterServerEvent
  dsimp only
  split
  · rfl
  · split
    · rfl
    · split <;> rfl

/-- Complete server data stays complete. -/
def StaysComplete (before after : ViewCache κ ν) : Prop :=
  before.cachedServerSnap.isFullyInitialized = true → after.cachedServerSnap.isFullyInitialized = true

omit [DecidableEq ν] in
/-- Steps that keep complete server data complete do so one after the other. -/
theorem StaysComplete.foldl {α : Type} {before : ViewCache κ ν} {next : ViewCache κ ν → α → Processed κ ν}
    (hnext : ∀ cache entry, StaysComplete cache (next cache entry).1) (entries : List α)
    (processed : Processed κ ν) (h : StaysComplete before processed.1) :
    StaysComplete before
      (entries.foldl (fun processed entry => andThen processed fun cache => next cache entry) processed).1 := by
  induction entries generalizing processed with
  | nil => exact h
  | cons entry rest ih => exact ih _ fun hcomplete => hnext processed.1 entry (h hcomplete)

/-- A server overwrite keeps complete server data complete. -/
theorem staysComplete_applyServerOverwriteTo (viewCache : ViewCache κ ν) (changePath : List κ)
    (changedSnap : Snap κ ν) (writesCache : WriteTreeRef κ ν) :
    StaysComplete viewCache (applyServerOverwriteTo viewCache changePath changedSnap writesCache).1 := by
  intro hcomplete
  unfold applyServerOverwriteTo
  dsimp only
  split
  · rw [generate_cachedServerSnap]
    rfl
  · split
    · exact hcomplete
    · rw [generate_cachedServerSnap]
      exact hcomplete

/-- A server merge keeps complete server data complete. -/
theorem staysComplete_applyServerMergeTo (viewCache : ViewCache κ ν) (path : List κ)
    (changedChildren : CompoundWrite κ ν) (writesCache : WriteTreeRef κ ν) :
    StaysComplete viewCache (applyServerMergeTo viewCache path changedChildren writesCache).1 := by
  unfold applyServerMergeTo
  split
  · exact id
  · have hnext : ∀ (cache : ViewCache κ ν) (entry : κ × CompoundWrite κ ν), StaysComplete cache
        (applyServerOverwriteTo cache [entry.1]
          (entry.2.applyToNode (viewCache.cachedServerSnap.node.getImmediateChild entry.1)) writesCache).1 :=
      fun cache entry => staysComplete_applyServerOverwriteTo cache _ _ writesCache
    exact StaysComplete.foldl hnext _ _ (StaysComplete.foldl hnext _ _ id)

/-- A user overwrite keeps complete server data complete. -/
theorem staysComplete_applyUserOverwriteTo (viewCache : ViewCache κ ν) (changePath : List κ)
    (changedSnap : Snap κ ν) (writesCache : WriteTreeRef κ ν) (optCompleteCache : Option (Snap κ ν)) :
    StaysComplete viewCache
      (applyUserOverwriteTo viewCache changePath changedSnap writesCache optCompleteCache).1 := by
  unfold applyUserOverwriteTo
  dsimp only
  split
  · exact id
  · split
    · exact id
    · exact id

/-- A user merge keeps complete server data complete. -/
theorem staysComplete_applyUserMergeTo (viewCache : ViewCache κ ν) (path : List κ)
    (changedChildren : CompoundWrite κ ν) (writesCache : WriteTreeRef κ ν) (serverCache : Option (Snap κ ν)) :
    StaysComplete viewCache (applyUserMergeTo viewCache path changedChildren writesCache serverCache).1 := by
  have hnext : ∀ (cache : ViewCache κ ν) (entry : List κ × Snap κ ν), StaysComplete cache
      (applyUserOverwriteTo cache entry.1 entry.2 writesCache serverCache).1 :=
    fun cache entry => staysComplete_applyUserOverwriteTo cache _ _ writesCache serverCache
  exact StaysComplete.foldl hnext _ _ (StaysComplete.foldl hnext _ _ id)

/-- An acknowledged write keeps complete server data complete. -/
theorem staysComplete_ackUserWriteOn (viewCache : ViewCache κ ν) (ackPath : List κ)
    (affectedTree : ImmutableTree κ Bool) (writesCache : WriteTreeRef κ ν) :
    StaysComplete viewCache (ackUserWriteOn viewCache ackPath affectedTree writesCache).1 := by
  unfold ackUserWriteOn
  dsimp only
  split
  · exact id
  · split
    · split
      · exact staysComplete_applyServerOverwriteTo _ _ _ _
      · split
        · exact staysComplete_applyServerMergeTo _ _ _ _
        · exact id
    · exact staysComplete_applyServerMergeTo _ _ _ _

/-- Whatever the operation, complete server data stays complete. -/
theorem staysComplete_process (viewCache : ViewCache κ ν) (operation : ViewOperation κ ν)
    (writesCache : WriteTreeRef κ ν) (optCompleteCache : Option (Snap κ ν)) :
    StaysComplete viewCache (process viewCache operation writesCache optCompleteCache).1 := by
  unfold process
  split
  · exact staysComplete_applyUserOverwriteTo _ _ _ _ _
  · exact staysComplete_applyServerOverwriteTo _ _ _ _
  · exact staysComplete_applyUserMergeTo _ _ _ _ _
  · exact staysComplete_applyServerMergeTo _ _ _ _
  · exact staysComplete_ackUserWriteOn _ _ _ _
  · unfold revertUserWriteOn
    dsimp only
    split
    · exact id
    · exact id
  · intro hcomplete
    unfold listenComplete
    rw [generate_cachedServerSnap]
    simp [ViewCache.updateServerSnap, hcomplete]

end ServerData

/-- Whatever an operation does to a view, the changes fit together; they say how every child of the event cache
changed, and a complete event cache of which nothing is reported is the old one. -/
theorem applyOperationOn_reports (oldViewCache : ViewCache κ ν) (operation : ViewOperation κ ν)
    (writesCache : WriteTreeRef κ ν) (optCompleteCache : Option (Snap κ ν)) :
    ∃ newViewCache changeMap,
      applyOperationOn oldViewCache operation writesCache optCompleteCache =
        some (newViewCache, maybeAddValue oldViewCache newViewCache (changeMap.map Prod.snd)) ∧
      Tracks (childContents oldViewCache.cachedEventSnap.node) (childContents newViewCache.cachedEventSnap.node)
        changeMap ∧
      (newViewCache.cachedEventSnap.isFullyInitialized = true →
        maybeAddValue oldViewCache newViewCache (changeMap.map Prod.snd) = [] →
        oldViewCache.cachedEventSnap.isFullyInitialized = true ∧
          newViewCache.cachedEventSnap.node.contents = oldViewCache.cachedEventSnap.node.contents) := by
  obtain ⟨changeMap, hfold, htracks⟩ := exists_changeMap oldViewCache operation writesCache optCompleteCache
  refine ⟨_, changeMap, ?_, htracks, contents_eq_of_maybeAddValue htracks⟩
  rw [applyOperationOn, hfold]
  rfl

end Operations

end ViewProcessor

end LoveCoupons
