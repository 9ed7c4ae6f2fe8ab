import LoveCoupons.DatabasePath
import LoveCoupons.Lib.KeyedTree
import Mathlib.Data.Rat.Defs

/-!
# The database tree and its snapshots

The tree follows the vendored node classes: a missing tree is the empty node, writing an
empty node removes a child, and a node without children is empty. `KeyedTree` has the reads
and writes.

A snapshot's value is cast by the readers. A node whose keys are all integers, and dense
enough, is exported as an array, and an array does not cast to a dictionary. A node with one
key that is not an integer is always a dictionary of its children.
-/

namespace LoveCoupons

open KeyedTree

/-- A scalar stored in the database. -/
inductive Leaf where
  | string (text : String)
  | number (value : ℚ)
  | boolean (value : Bool)
  deriving DecidableEq

/-- A node of the database; `none` is the empty node. -/
abbrev Node := Option (Tree Key Leaf)

/-- The entries of a dictionary of values. -/
abbrev Dictionary := List (Key × Tree Key Leaf)

/-- A string as a node. -/
def stringNode (text : String) : Tree Key Leaf := .leaf (.string text)

/-- `+[FUtilities intForString:]`: the number written by a string of digits. -/
def intForString (key : String) : Option ℕ :=
  if key.toList.all Char.isDigit then
    some (key.toList.foldl (fun value digit => 10 * value + (digit.toNat - '0'.toNat)) 0)
  else none

/-- The key is read as an integer by the export; a leading zero of a longer key makes it a string. -/
def integerKey (key : Key) : Option ℕ :=
  match key.val.toList with
  | '0' :: _ :: _ => none
  | _ => intForString key.val

/-- `-[FChildrenNode valForExport:]` exports the children as an array. -/
def exportsArray (children : Dictionary) : Bool :=
  children.all (fun entry => (integerKey entry.1).isSome) &&
    (children.filterMap fun entry => integerKey entry.1).foldl max 0 < 2 * children.length

/-- `value as? [String : Any]` on the exported value of a node. -/
def asDictionary : Node → Option Dictionary
  | some (.node children) => if exportsArray children then none else some children
  | _ => none

/-- `value as? String` on the exported value of a node. -/
def asString : Node → Option String
  | some (.leaf (.string text)) => some text
  | _ => none

/-- A field of a dictionary cast to a string. -/
def stringField (data : Dictionary) (field : Key) : Option String := asString (findChild data field)

@[simp] theorem asString_stringNode (text : String) : asString (some (stringNode text)) = some text := rfl

/-- A dictionary lists the children of its node. -/
theorem eq_node_of_asDictionary {node : Node} {dict : Dictionary} (h : asDictionary node = some dict) :
    node = some (.node dict) := by
  unfold asDictionary at h
  split at h
  · split at h
    · contradiction
    · rw [Option.some.inj h]
  · contradiction

/-- A node with a key that is not an integer is exported as a dictionary. -/
theorem asDictionary_of_nonInteger {children : Dictionary} {entry : Key × Tree Key Leaf}
    (hmem : entry ∈ children) (hkey : integerKey entry.1 = none) :
    asDictionary (some (.node children)) = some children := by
  have hall : children.all (fun entry => (integerKey entry.1).isSome) = false := by
    rw [List.all_eq_false]
    exact ⟨entry, hmem, by simp [hkey]⟩
  simp [asDictionary, exportsArray, hall]

/-- A key with a character that is not a digit is not an integer. -/
theorem integerKey_eq_none {key : Key} {c : Char} (hmem : c ∈ key.val.toList) (hc : c.isDigit = false) :
    integerKey key = none := by
  have hnot : ¬ (key.val.toList.all Char.isDigit = true) := by
    rw [List.all_eq_true]
    intro hall
    simp [hall c hmem] at hc
  unfold integerKey
  split
  · rfl
  · simp only [intForString, if_neg hnot]

/-- A generated identifier is not read as an integer. -/
theorem integerKey_uuid (uuid : UUID) : integerKey uuid.toKey = none :=
  integerKey_eq_none uuid.dash_mem (by decide)

end LoveCoupons
