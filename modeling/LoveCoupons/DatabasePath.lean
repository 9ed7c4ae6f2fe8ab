import Mathlib.Data.List.Basic

/-!
# Database keys and path strings

The database validates every path string given to `child` and raises an exception on an
invalid one. A path string must be nonempty and free of the characters `[ ] . # $`; on the
root reference a leading `.info` is first replaced by a slash. A key is a path string
without slashes, so that it names one edge of the tree.

User identifiers, directory and field names and generated identifiers are keys. Their type
carries the validity, and a reference built from them raises no exception.
-/

namespace LoveCoupons

/-- `kInvalidPathCharacters` -/
def invalidPathCharacters : List Char := ['[', ']', '.', '#', '$']

/-- `kInvalidKeyCharacters` -/
def invalidKeyCharacters : List Char := ['[', ']', '.', '#', '$', '/']

/-- `+[FValidation isValidPathString:]` on the characters of the string. -/
def isValidPathString (path : List Char) : Bool :=
  !path.isEmpty && path.all fun c => !invalidPathCharacters.contains c

/-- `+[FValidation isValidKey:]` -/
def isValidKey (key : String) : Bool :=
  !key.toList.isEmpty && key.toList.all fun c => !invalidKeyCharacters.contains c

/-- The positions at which the pattern's `$` matches: the end, or one final line terminator. -/
def atLineEnd (rest : List Char) : Bool :=
  rest.isEmpty || [['\n'], ['\x0b'], ['\x0c'], ['\r'], ['\r', '\n'], ['\u0085'], ['\u2028'], ['\u2029']].contains rest

/-- Replace a match of `^\/*\.info(\/|$)` by one slash. -/
def replaceDotInfo (path : List Char) : List Char :=
  match path.dropWhile (· = '/') with
  | '.' :: 'i' :: 'n' :: 'f' :: 'o' :: '/' :: rest => '/' :: rest
  | '.' :: 'i' :: 'n' :: 'f' :: 'o' :: rest => if atLineEnd rest then '/' :: rest else path
  | _ => path

/-- `+[FValidation validateFrom:validRootPathString:]` accepts the string. -/
def validRootPathString (path : String) : Bool := isValidPathString (replaceDotInfo path.toList)

/-- `-[FPath initWith:]`: the nonempty pieces between slashes. -/
def pathPieces (path : String) : List String :=
  ((path.toList.splitOn '/').filter fun piece => !piece.isEmpty).map String.ofList

/-- `-[FIRDatabaseReference child:]` on the root reference; `none` is the raised exception. -/
def rootChild (path : String) : Option (List String) :=
  if validRootPathString path then some (pathPieces path) else none

/-- A valid database key. -/
abbrev Key := { key : String // isValidKey key = true }

/-- The reference to a place in the tree. -/
abbrev Path := List Key

/-- A root path string without a dot is left as it is. -/
theorem replaceDotInfo_of_no_dot {path : List Char} (h : '.' ∉ path) : replaceDotInfo path = path := by
  have hdrop : '.' ∉ path.dropWhile (· = '/') := fun hmem =>
    h ((List.dropWhile_sublist _).subset hmem)
  unfold replaceDotInfo
  split
  · simp_all
  · simp_all
  · rfl

/-- A string without an invalid character is a valid root path exactly when it is nonempty. -/
theorem validRootPathString_of_clean {path : String}
    (h : ∀ c ∈ path.toList, c ∉ invalidPathCharacters) :
    validRootPathString path = !path.toList.isEmpty := by
  have hdot : '.' ∉ path.toList := fun hmem => h '.' hmem (by decide)
  unfold validRootPathString
  rw [replaceDotInfo_of_no_dot hdot, isValidPathString]
  have hall : path.toList.all (fun c => !invalidPathCharacters.contains c) = true := by
    rw [List.all_eq_true]
    intro c hc
    simpa using h c hc
  rw [hall, Bool.and_true]

/-- The characters of a key. -/
theorem Key.clean (key : Key) : key.val.toList ≠ [] ∧ ∀ c ∈ key.val.toList, c ∉ invalidKeyCharacters := by
  have h := key.property
  simp only [isValidKey, Bool.and_eq_true, Bool.not_eq_true', List.isEmpty_eq_false_iff, List.all_eq_true,
    List.contains_eq_mem, decide_eq_false_iff_not] at h
  exact h

/-- A key is a valid path string of one piece, so `child` of a key is the edge with that name. -/
theorem rootChild_key (key : Key) : rootChild key.val = some [key.val] := by
  obtain ⟨hne, hclean⟩ := key.clean
  have hpath : ∀ c ∈ key.val.toList, c ∉ invalidPathCharacters := by
    intro c hc hbad
    have hsub : invalidPathCharacters ⊆ invalidKeyCharacters := by decide
    exact hclean c hc (hsub hbad)
  have hslash : '/' ∉ key.val.toList := fun hmem => hclean '/' hmem (by decide)
  have hpieces : pathPieces key.val = [key.val] := by
    have hsplit : key.val.toList.splitOn '/' = [key.val.toList] := List.splitOn_eq_singleton hslash
    simp [pathPieces, hsplit, hne]
  simp [rootChild, validRootPathString_of_clean hpath, hne, hpieces]

/-- Whether a character may stand at a position of a written identifier: dashes after the 8th, 12th,
16th and 20th of its 32 hexadecimal digits. -/
def isUuidCharacter (c : Char) (position : ℕ) : Bool :=
  if [8, 13, 18, 23].contains position then c = '-'
  else ['0', '1', '2', '3', '4', '5', '6', '7', '8', '9', 'A', 'B', 'C', 'D', 'E', 'F'].contains c

/-- The format of `uuidString`. -/
def isUuidString (text : String) : Bool :=
  text.toList.length = 36 && text.toList.zipIdx.all fun entry => isUuidCharacter entry.1 entry.2

/-- A generated identifier, given by its `uuidString`. -/
abbrev UUID := { text : String // isUuidString text = true }

/-- The characters of a written identifier are hexadecimal digits and dashes. -/
def uuidAlphabet : List Char :=
  ['0', '1', '2', '3', '4', '5', '6', '7', '8', '9', 'A', 'B', 'C', 'D', 'E', 'F', '-']

/-- Every character of a written identifier is in the alphabet. -/
theorem UUID.mem_alphabet (uuid : UUID) : ∀ c ∈ uuid.val.toList, c ∈ uuidAlphabet := by
  have h := uuid.property
  simp only [isUuidString, Bool.and_eq_true, List.all_eq_true] at h
  intro c hc
  obtain ⟨position, hposition, rfl⟩ := List.getElem_of_mem hc
  have hentry := h.2 (uuid.val.toList[position], position) (by
    rw [List.mem_zipIdx_iff_getElem?]
    simp [hposition])
  simp only [isUuidCharacter] at hentry
  split at hentry
  · have : uuid.val.toList[position] = '-' := by simpa using hentry
    rw [this]
    decide
  · rw [List.contains_iff_mem] at hentry
    exact List.mem_append_left ['-'] hentry

/-- The ninth character of a written identifier is a dash. -/
theorem UUID.dash_mem (uuid : UUID) : '-' ∈ uuid.val.toList := by
  have h := uuid.property
  simp only [isUuidString, Bool.and_eq_true, List.all_eq_true, decide_eq_true_eq] at h
  have hlen : 8 < uuid.val.toList.length := by omega
  have hentry := h.2 (uuid.val.toList[8], 8) (by
    rw [List.mem_zipIdx_iff_getElem?]
    simp [hlen])
  have hdash : uuid.val.toList[8] = '-' := by simpa [isUuidCharacter] using hentry
  exact hdash ▸ List.getElem_mem hlen

/-- A written identifier is a valid database key. -/
theorem UUID.isValidKey (uuid : UUID) : isValidKey uuid.val = true := by
  have hne : uuid.val.toList ≠ [] := List.ne_nil_of_mem uuid.dash_mem
  have hall : ∀ c ∈ uuid.val.toList, c ∉ invalidKeyCharacters := by
    intro c hc hbad
    have hdisjoint : (uuidAlphabet.all fun c => !invalidKeyCharacters.contains c) = true := by decide
    have hvalid := List.all_eq_true.mp hdisjoint c (uuid.mem_alphabet c hc)
    simp [hbad] at hvalid
  simp only [LoveCoupons.isValidKey, Bool.and_eq_true, Bool.not_eq_true', List.isEmpty_eq_false_iff,
    List.all_eq_true, List.contains_eq_mem, decide_eq_false_iff_not]
  exact ⟨hne, hall⟩

/-- A generated identifier used as a database key. -/
def UUID.toKey (uuid : UUID) : Key := ⟨uuid.val, uuid.isValidKey⟩

end LoveCoupons
