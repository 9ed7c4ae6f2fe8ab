import Mathlib.Data.List.Infix

/-!
# Values at paths

The contents of a hierarchical store are the values found at its paths. Writing contents at
a path replaces everything at and below that path. Contents that hold at least one value also
clear the values on the way to the path, since a place cannot be both a value and a parent;
empty contents leave those as they are.

Writes at unrelated paths commute. A write inside an earlier one can be folded into it, and
a write over earlier ones hides them, provided that no value stood above them: otherwise a
value cleared by the first write would come back when its contents are emptied again.
-/

namespace PathContents

variable {κ ν : Type}

/-- The value at each path that has one. -/
abbrev Contents (κ ν : Type) := List κ → Option ν

/-- No value anywhere. -/
def empty : Contents κ ν := fun _ => none

/-- What is found below a path. -/
def below (f : Contents κ ν) (p : List κ) : Contents κ ν := fun q => f (p ++ q)

/-- Neither path leads to the other. -/
def Apart (p q : List κ) : Prop := ¬ p <+: q ∧ ¬ q <+: p

/-- One path leads to the other, or they are apart. -/
theorem related (p q : List κ) :
    (∃ r, q = p ++ r) ∨ (∃ k r, p = q ++ k :: r) ∨ Apart p q := by
  by_cases hpq : p <+: q
  · obtain ⟨r, rfl⟩ := hpq
    exact .inl ⟨r, rfl⟩
  · by_cases hqp : q <+: p
    · obtain ⟨r, rfl⟩ := hqp
      cases r with
      | nil => exact absurd (by simp) hpq
      | cons k r => exact .inr (.inl ⟨k, r, rfl⟩)
    · exact .inr (.inr ⟨hpq, hqp⟩)

/-- The order of two paths that are apart does not matter. -/
theorem Apart.symm {p q : List κ} (h : Apart p q) : Apart q p := ⟨h.2, h.1⟩

/-- Paths that are apart stay apart when they are continued. -/
theorem Apart.append {p q : List κ} (h : Apart p q) (r s : List κ) : Apart (p ++ r) (q ++ s) := by
  constructor
  · intro hle
    exact (List.prefix_or_prefix_of_prefix ((List.prefix_append p r).trans hle)
      (List.prefix_append q s)).elim h.1 h.2
  · intro hle
    exact (List.prefix_or_prefix_of_prefix ((List.prefix_append q s).trans hle)
      (List.prefix_append p r)).elim h.2 h.1

/-- Paths that are apart stay apart below a further path. -/
theorem Apart.append_left {p q : List κ} (h : Apart p q) (path : List κ) : Apart (path ++ p) (path ++ q) where
  left := fun hle => h.1 ((List.prefix_append_right_inj path).mp hle)
  right := fun hle => h.2 ((List.prefix_append_right_inj path).mp hle)

/-- A path below one of two that are apart is not below the other. -/
theorem Apart.not_prefix_append {p q : List κ} (h : Apart p q) (r : List κ) : ¬ p <+: q ++ r :=
  fun hle => ((List.append_nil p ▸ h.append [] r).1) hle

/-- A path does not lead back to a place above its end. -/
theorem not_prefix_of_append_cons (q : List κ) (k : κ) (r : List κ) : ¬ q ++ k :: r <+: q := by
  intro hle
  have hlen := hle.length_le
  simp only [List.length_append, List.length_cons] at hlen
  omega

/-- A path that leads back to its beginning has nothing added. -/
theorem eq_nil_of_prefix_self {p q : List κ} (h : p ++ q <+: p) : q = [] := by
  cases q with
  | nil => rfl
  | cons k r => exact absurd h (not_prefix_of_append_cons p k r)

open Classical in
/-- Replace what is at and below a path; new values clear the ones on the way to it. -/
noncomputable def write (f : Contents κ ν) (p : List κ) (n : Contents κ ν) : Contents κ ν := fun q =>
  if p <+: q then n (q.drop p.length)
  else if q <+: p ∧ n ≠ empty then none
  else f q

/-- At and below its path, the new contents are read. -/
@[simp] theorem write_append (f : Contents κ ν) (p : List κ) (n : Contents κ ν) (r : List κ) :
    write f p n (p ++ r) = n r := by
  simp [write]

/-- On the way to the path, values are cleared by contents that hold a value. -/
theorem write_above (f : Contents κ ν) (q : List κ) (k : κ) (r : List κ) {n : Contents κ ν}
    (hn : n ≠ empty) : write f (q ++ k :: r) n q = none := by
  have hnot := not_prefix_of_append_cons q k r
  simp [write, hnot, hn]

/-- On the way to the path, empty contents change nothing. -/
theorem write_empty_above (f : Contents κ ν) (q : List κ) (k : κ) (r : List κ) :
    write f (q ++ k :: r) empty q = f q := by
  have hnot := not_prefix_of_append_cons q k r
  simp [write, hnot]

/-- Away from the path nothing changes. -/
theorem write_apart (f : Contents κ ν) {p q : List κ} (h : Apart p q) (n : Contents κ ν) :
    write f p n q = f q := by
  simp [write, h.1, h.2]

/-- A write at the root replaces everything. -/
@[simp] theorem write_nil (f : Contents κ ν) (n : Contents κ ν) : write f [] n = n := by
  funext q
  exact write_append f [] n q

/-- Outside the written part, a place holds what it held or nothing. -/
theorem write_eq_or_none (f : Contents κ ν) {p q : List κ} (h : ¬ p <+: q) (n : Contents κ ν) :
    write f p n q = f q ∨ write f p n q = none := by
  unfold write
  rw [if_neg h]
  split
  · exact .inr rfl
  · exact .inl rfl

/-- A place that held nothing and is outside the written part still holds nothing. -/
theorem write_none (f : Contents κ ν) {p q : List κ} (h : ¬ p <+: q) (n : Contents κ ν)
    (hq : f q = none) : write f p n q = none := by
  rcases write_eq_or_none f h n with heq | hnone
  · rw [heq, hq]
  · exact hnone

/-- Reading below a place on the way to the written one. -/
theorem below_write (f : Contents κ ν) (p r : List κ) (n : Contents κ ν) :
    below (write f (p ++ r) n) p = write (below f p) r n := by
  funext q
  change write f (p ++ r) n (p ++ q) = _
  rcases related r q with ⟨s, rfl⟩ | ⟨k, s, rfl⟩ | hapart
  · rw [← List.append_assoc, write_append, write_append]
  · by_cases hn : n = empty
    · subst hn
      rw [← List.append_assoc, write_empty_above, write_empty_above]
      rfl
    · rw [← List.append_assoc, write_above _ _ _ _ hn, write_above _ _ _ _ hn]
  · have hboth : Apart (p ++ r) (p ++ q) := by
      constructor
      · intro hle
        exact hapart.1 ((List.prefix_append_right_inj p).mp hle)
      · intro hle
        exact hapart.2 ((List.prefix_append_right_inj p).mp hle)
    rw [write_apart _ hboth, write_apart _ hapart]
    rfl

/-- Writing nothing where there is nothing changes nothing. -/
@[simp] theorem write_empty_empty (p : List κ) : write (empty : Contents κ ν) p empty = empty := by
  funext q
  unfold write
  split
  · rfl
  · split <;> rfl

/-- Written values are there. -/
theorem write_ne_empty (f : Contents κ ν) (p : List κ) {n : Contents κ ν} (hn : n ≠ empty) :
    write f p n ≠ empty := by
  intro h
  apply hn
  funext q
  have := congrFun h (p ++ q)
  rwa [write_append] at this

/-- A place that holds a value has nothing below it. -/
def Exclusive (f : Contents κ ν) : Prop := ∀ q v k r, f q = some v → f (q ++ k :: r) = none

/-- Writing back what is at a place changes nothing. -/
theorem write_below_self {f : Contents κ ν} (h : Exclusive f) (p : List κ) : write f p (below f p) = f := by
  funext q
  rcases related p q with ⟨r, rfl⟩ | ⟨k, r, rfl⟩ | hapart
  · exact write_append f p _ r
  · by_cases hempty : below f (q ++ k :: r) = empty
    · rw [hempty, write_empty_above]
    · rw [write_above _ _ _ _ hempty]
      obtain ⟨s, hs⟩ := Function.ne_iff.mp hempty
      cases hq : f q with
      | none => rfl
      | some v =>
        have hnone := h q v k (r ++ s) hq
        rw [below, List.append_assoc, List.cons_append, hnone] at hs
        exact absurd rfl hs
  · exact write_apart f hapart _

/-- Writing into a part and putting the part back is writing into the whole. -/
theorem write_write_below {f : Contents κ ν} (h : Exclusive f) (p r : List κ) (n : Contents κ ν) :
    write f p (write (below f p) r n) = write f (p ++ r) n := by
  funext q
  rcases related p q with ⟨s, rfl⟩ | ⟨k, s, rfl⟩ | hapart
  · rw [write_append, ← below_write]
    rfl
  · by_cases hn : n = empty
    · subst hn
      rw [List.append_assoc, List.cons_append, write_empty_above]
      have hself := congrFun (write_below_self h (q ++ k :: s)) q
      by_cases hpart : write (below f (q ++ k :: s)) r empty = empty
      · rw [hpart, write_empty_above]
      · have hwas : below f (q ++ k :: s) ≠ empty := by
          intro hempty
          rw [hempty, write_empty_empty] at hpart
          exact hpart rfl
        rw [write_above _ _ _ _ hpart]
        rwa [write_above _ _ _ _ hwas] at hself
    · rw [write_above _ _ _ _ (write_ne_empty _ r hn), List.append_assoc, List.cons_append, write_above _ _ _ _ hn]
  · have hboth : Apart (p ++ r) q := List.append_nil q ▸ hapart.append r []
    rw [write_apart _ hapart, write_apart _ hboth]

/-- No value stands strictly above a path. -/
def Opens (f : Contents κ ν) (p : List κ) : Prop := ∀ q k r, p = q ++ k :: r → f q = none

end PathContents
