import LoveCoupons.Lib.Shown

/-!
# Views with stale places

When the server's data changes, or a pending write is answered, a view is brought up to date
place by place. Until then some of its places are stale. A stale place that a pending write
covers is nevertheless right, since neither the server's data nor an older write is seen
there; everywhere else a stale place becomes right when what is shown at or above it is
computed anew.
-/

namespace PathContents

variable {κ ν : Type}

/-- The places above a path are parents. -/
def Reached (D : List κ → Prop) (p : List κ) : Prop := ∀ q k r, p = q ++ k :: r → D q

/-- The root has nothing above it. -/
theorem reached_nil (D : List κ → Prop) : Reached D [] := by
  intro q k r h
  simp at h

/-- What is reached through parents has parents above it. -/
theorem Reached.of_append {D : List κ → Prop} {p q : List κ} (h : Reached D (p ++ q)) : Reached D p := by
  rintro r k s rfl
  exact h r k (s ++ q) (by simp)

/-- The event contents of a view show the pending writes over the server's contents, except at stale places that
no pending write covers. -/
structure ShowsExcept (stale : List κ → Prop) (D : List κ → Prop) (ws : List (List κ × Contents κ ν))
    (path : List κ) (server event : Contents κ ν) : Prop where
  parent : Clean D path event
  latest : ∀ q, ¬ D (path ++ q) → (stale q → ∃ w ∈ ws, w.1 <+: path ++ q) →
    event q = latest ws (server q) (path ++ q)

variable {D stale : List κ → Prop} {ws : List (List κ × Contents κ ν)} {path : List κ}
  {server event other : Contents κ ν}

/-- What is shown is shown except at stale places. -/
theorem Shows.except (h : Shows D ws path server event) (stale : List κ → Prop) :
    ShowsExcept stale D ws path server event where
  parent := h.parent
  latest := fun q hq _ => h.latest q hq

/-- Fewer places may be stale when the others are covered. -/
theorem ShowsExcept.mono {fewer : List κ → Prop} (h : ShowsExcept stale D ws path server event)
    (himp : ∀ q, stale q → fewer q ∨ ∃ w ∈ ws, w.1 <+: path ++ q) :
    ShowsExcept fewer D ws path server event where
  parent := h.parent
  latest := by
    intro q hq hfewer
    apply h.latest q hq
    intro hstale
    exact (himp q hstale).elim hfewer id

/-- A view whose stale places are covered shows the pending writes. -/
theorem ShowsExcept.shows (h : ShowsExcept stale D ws path server event)
    (hcov : ∀ q, stale q → ∃ w ∈ ws, w.1 <+: path ++ q) : Shows D ws path server event where
  parent := h.parent
  latest := fun q hq => h.latest q hq (hcov q)

/-- What is computed anew is no longer stale. -/
theorem ShowsExcept.recompute (h : ShowsExcept stale D ws path server event) {place : List κ} {m : Contents κ ν}
    (hreached : Reached D (path ++ place)) (hm : Shows D ws (path ++ place) (below server place) m) :
    ShowsExcept (fun q => stale q ∧ ¬ place <+: q) D ws path server (write event place m) := by
  have hfits : Fits D (path ++ place) m := ⟨hreached, fun r hr => hm.parent r hr⟩
  constructor
  · exact h.parent.write hfits.inside
  · intro q hq hstale
    by_cases hle : place <+: q
    · obtain ⟨r, rfl⟩ := hle
      rw [write_append, ← List.append_assoc]
      rw [← List.append_assoc] at hq
      exact hm.latest r hq
    · rw [write_of_not_parent hfits hq hle]
      exact h.latest q hq fun hq' => hstale ⟨hq', hle⟩

/-- Where the server's contents change, the view becomes stale. -/
theorem ShowsExcept.serverWrite (h : ShowsExcept stale D ws path server event) {place : List κ} {n : Contents κ ν}
    (hfits : Fits D (path ++ place) n) :
    ShowsExcept (fun q => stale q ∨ place <+: q) D ws path (write server place n) event where
  parent := h.parent
  latest := by
    intro q hq hstale
    by_cases hle : place <+: q
    · have hcov := hstale (.inr hle)
      rw [h.latest q hq fun _ => hcov]
      exact latest_congr hcov _ _
    · rw [write_of_not_parent hfits hq hle]
      exact h.latest q hq fun hq' => hstale (.inl hq')

/-- Where a pending write covers the whole view, the server's contents do not matter. -/
theorem ShowsExcept.congr (h : ShowsExcept stale D ws path server event) (hcov : ∃ w ∈ ws, w.1 <+: path) :
    Shows D ws path other event where
  parent := h.parent
  latest := by
    intro q hq
    obtain ⟨w, hw, hwle⟩ := hcov
    have hplace : ∃ w ∈ ws, w.1 <+: path ++ q := ⟨w, hw, hwle.trans (List.prefix_append path q)⟩
    rw [h.latest q hq fun _ => hplace]
    exact latest_congr hplace _ _

/-- Without the oldest pending writes, the places that they cover are stale. -/
theorem Shows.remove {us : List (List κ × Contents κ ν)} (h : Shows D (us ++ ws) path server event) :
    ShowsExcept (fun q => ∃ w ∈ us, w.1 <+: path ++ q) D ws path server event where
  parent := h.parent
  latest := by
    intro q hq hstale
    rw [h.latest q hq, latest_append]
    by_cases hus : ∃ w ∈ us, w.1 <+: path ++ q
    · exact latest_congr (hstale hus) _ _
    · rw [latest_of_forall_not fun w hw hle => hus ⟨w, hw, hle⟩]

/-- Further pending writes below the view are shown by writing them into the view, one after the other. -/
theorem Shows.concat_list (us : List (List κ × Contents κ ν)) (h : Shows D ws path server event)
    (hfits : ∀ u ∈ us, Fits D (path ++ u.1) u.2) :
    Shows D (ws ++ us.map fun u => (path ++ u.1, u.2)) path server
      (us.foldl (fun event u => PathContents.write event u.1 u.2) event) := by
  induction us generalizing ws event with
  | nil => simpa using h
  | cons u us ih =>
    have hnext := ih (h.concat_below (hfits u (by simp))) fun u hu => hfits u (by simp [hu])
    rw [List.append_assoc, List.singleton_append] at hnext
    exact hnext

/-- What is shown depends on the pending writes only as far as they say something of the view. -/
theorem Shows.congr_latest {vs : List (List κ × Contents κ ν)} (h : Shows D ws path server event)
    (hsame : ∀ value q, PathContents.latest ws value (path ++ q) = PathContents.latest vs value (path ++ q)) :
    Shows D vs path server event where
  parent := h.parent
  latest := by
    intro q hq
    rw [h.latest q hq, hsame]

/-- Of writes that are apart, each says what its own place holds. -/
theorem latest_of_mem {us : List (List κ × Contents κ ν)} (hapart : us.Pairwise fun u v => Apart u.1 v.1)
    {p : List κ} {n : Contents κ ν} (h : (p, n) ∈ us) (value : Option ν) (r : List κ) :
    PathContents.latest us value (p ++ r) = n r := by
  induction us generalizing value with
  | nil => simp at h
  | cons u us ih =>
    rw [List.pairwise_cons] at hapart
    rcases List.mem_cons.mp h with rfl | hmem
    · have hrest : ∀ v ∈ us, ¬ v.1 <+: p ++ r := fun v hv => (hapart.1 v hv).symm.not_prefix_append r
      have hhead : PathContents.latest ((p, n) :: us) value (p ++ r) =
          PathContents.latest us (n r) (p ++ r) := by simp [PathContents.latest]
      rw [hhead, latest_of_forall_not hrest]
    · rw [latest_cons_of_not us ((hapart.1 _ hmem).not_prefix_append r)]
      exact ih hapart.2 hmem value

end PathContents
