import LoveCoupons.Lib.PendingWrites

/-!
# What a view shows of pending writes

Some paths are parents: nothing is stored at them, only below them. Off the parents, a view
at a path shows each place as the latest pending write at or above it says, and as the store
says where there is none. What is shown is determined by the pending writes and the store,
and follows a further write place by place.
-/

namespace PathContents

variable {κ ν : Type}

/-- The contents at a path hold no value at a parent. -/
def Clean (D : List κ → Prop) (path : List κ) (f : Contents κ ν) : Prop := ∀ q, D (path ++ q) → f q = none

/-- The event contents of a view at a path show the pending writes over the server's contents. -/
structure Shows (D : List κ → Prop) (ws : List (List κ × Contents κ ν)) (path : List κ)
    (server event : Contents κ ν) : Prop where
  parent : Clean D path event
  latest : ∀ q, ¬ D (path ++ q) → event q = latest ws (server q) (path ++ q)

variable {D : List κ → Prop} {ws : List (List κ × Contents κ ν)} {path : List κ} {server event other : Contents κ ν}

/-- What is shown is determined. -/
theorem Shows.unique (h : Shows D ws path server event) (hother : Shows D ws path server other) :
    event = other := by
  funext q
  by_cases hq : D (path ++ q)
  · rw [h.parent q hq, hother.parent q hq]
  · rw [h.latest q hq, hother.latest q hq]

/-- A part of clean contents is clean at its place. -/
theorem Clean.below (h : Clean D path server) (child : List κ) : Clean D (path ++ child) (below server child) := by
  intro q hq
  exact h (child ++ q) (by rwa [← List.append_assoc])

/-- What is shown below a place is what a view there shows. -/
theorem Shows.below (h : Shows D ws path server event) (child : List κ) :
    Shows D ws (path ++ child) (below server child) (below event child) where
  parent := h.parent.below child
  latest := by
    intro q hq
    rw [List.append_assoc] at hq ⊢
    exact h.latest (child ++ q) hq

/-- Writing contents without a value at a parent keeps the parents free of values. -/
theorem Clean.write (h : Clean D path server) {place : List κ} {n : Contents κ ν}
    (hclean : Clean D (path ++ place) n) : Clean D path (write server place n) := by
  intro q hq
  by_cases hle : place <+: q
  · obtain ⟨r, rfl⟩ := hle
    rw [write_append]
    exact hclean r (by rwa [List.append_assoc])
  · exact write_none server hle n (h q hq)

/-- Laying writes without a value at a parent over contents keeps the parents free of values. -/
theorem Clean.overlays {W : Writes κ ν} (h : Clean D path server)
    (hclean : ∀ k n, W k = some n → Clean D (path ++ k) n) (hover : Overlays W server event) : Clean D path event := by
  intro q hq
  by_cases hcov : Covered W q
  · obtain ⟨k, n, ⟨r, rfl⟩, hk⟩ := hcov
    rw [hover.written k n r hk]
    exact hclean k n hk r (by rwa [List.append_assoc])
  · exact hover.none hcov (h q hq)

/-- Off the parents, a write that fits changes what is at and below its place only. -/
theorem write_of_not_parent {place : List κ} {n : Contents κ ν} (hfits : Fits D (path ++ place) n) {q : List κ}
    (hq : ¬ D (path ++ q)) (hle : ¬ place <+: q) : write server place n q = server q := by
  rcases related place q with ⟨r, rfl⟩ | ⟨k, r, rfl⟩ | hapart
  · exact absurd (List.prefix_append place r) hle
  · exact absurd (hfits.above (path ++ q) k r (by simp)) hq
  · exact write_apart server hapart n

/-- A further pending write below the view is shown by writing it into the view. -/
theorem Shows.concat_below (h : Shows D ws path server event) {place : List κ} {n : Contents κ ν}
    (hfits : Fits D (path ++ place) n) :
    Shows D (ws ++ [(path ++ place, n)]) path server (PathContents.write event place n) := by
  constructor
  · exact h.parent.write hfits.inside
  · intro q hq
    by_cases hle : place <+: q
    · obtain ⟨r, rfl⟩ := hle
      rw [write_append, ← List.append_assoc, latest_concat_append]
    · have hnot : ¬ path ++ place <+: path ++ q := fun hle' =>
        hle ((List.prefix_append_right_inj path).mp hle')
      rw [write_of_not_parent hfits hq hle, latest_concat_of_not ws hnot]
      exact h.latest q hq

/-- A further pending write at the view's place replaces what it shows. -/
theorem shows_concat_self (ws : List (List κ × Contents κ ν)) (server : Contents κ ν) {n : Contents κ ν}
    (hclean : Clean D path n) : Shows D (ws ++ [(path, n)]) path server n where
  parent := hclean
  latest := fun q _ => (latest_concat_append ws path n (server q) q).symm

/-- A pending write with no later one above, at or below its place is shown as it was written. -/
theorem Shows.below_pending {place : List κ} {n : Contents κ ν} {before after : List (List κ × Contents κ ν)}
    (h : Shows D (before ++ (path ++ place, n) :: after) path server event) (hfits : Fits D (path ++ place) n)
    (hafter : ∀ w ∈ after, Apart w.1 (path ++ place)) : PathContents.below event place = n := by
  funext r
  change event (place ++ r) = n r
  by_cases hr : D (path ++ (place ++ r))
  · rw [h.parent _ hr, hfits.inside r (by rwa [List.append_assoc])]
  · have hlater : ∀ w ∈ after, ¬ w.1 <+: (path ++ place) ++ r := fun w hw => (hafter w hw).not_prefix_append r
    rw [h.latest _ hr, ← List.append_assoc, List.append_cons, latest_append, latest_of_forall_not hlater,
      latest_concat_append]

end PathContents
