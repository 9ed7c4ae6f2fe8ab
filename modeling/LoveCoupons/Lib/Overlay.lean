import LoveCoupons.Lib.Contents

/-!
# Writes laid over contents

A set of pending writes gives new contents for some paths, none of which lies below another.
Laid over a store, the written places read as the writes say, values on the way to a written
place are cleared, and the rest reads as before. This determines the result.

A further write joins the set: inside a pending write it changes that one, elsewhere it takes
the place of the pending writes below it. When no value of the store stands above the places
in question, the result is the same as writing on top.
-/

namespace PathContents

variable {κ ν : Type}

/-- The contents to be written, by path. -/
abbrev Writes (κ ν : Type) := List κ → Option (Contents κ ν)

/-- No write lies below another one. -/
def Independent (W : Writes κ ν) : Prop :=
  ∀ p q n m, W p = some n → W (p ++ q) = some m → q = []

/-- The path is at or below a write. -/
def Covered (W : Writes κ ν) (q : List κ) : Prop := ∃ p n, p <+: q ∧ W p = some n

/-- The contents `g` are `f` under the writes `W`. -/
structure Overlays (W : Writes κ ν) (f g : Contents κ ν) : Prop where
  written : ∀ p n r, W p = some n → g (p ++ r) = n r
  cleared : ∀ q, ¬ Covered W q → (∃ p n, q <+: p ∧ W p = some n ∧ n ≠ empty) → g q = none
  kept : ∀ q, ¬ Covered W q → (∀ p n, q <+: p → W p = some n → n = empty) → g q = f q

/-- The result of the writes is determined. -/
theorem Overlays.unique {W : Writes κ ν} {f g h : Contents κ ν} (hg : Overlays W f g)
    (hh : Overlays W f h) : g = h := by
  funext q
  by_cases hcov : Covered W q
  · obtain ⟨p, n, ⟨r, rfl⟩, hp⟩ := hcov
    rw [hg.written p n r hp, hh.written p n r hp]
  · by_cases habove : ∃ p n, q <+: p ∧ W p = some n ∧ n ≠ empty
    · rw [hg.cleared q hcov habove, hh.cleared q hcov habove]
    · have hempty : ∀ p n, q <+: p → W p = some n → n = empty := by
        intro p n hle hp
        by_contra hn
        exact habove ⟨p, n, hle, hp, hn⟩
      rw [hg.kept q hcov hempty, hh.kept q hcov hempty]

/-- Off the writes, a place holds what it held or nothing. -/
theorem Overlays.eq_or_none {W : Writes κ ν} {f g : Contents κ ν} (h : Overlays W f g) {q : List κ}
    (hcov : ¬ Covered W q) : g q = f q ∨ g q = none := by
  by_cases habove : ∃ p n, q <+: p ∧ W p = some n ∧ n ≠ empty
  · exact .inr (h.cleared q hcov habove)
  · left
    apply h.kept q hcov
    intro p n hle hp
    by_contra hn
    exact habove ⟨p, n, hle, hp, hn⟩

/-- A place that held nothing and is off the writes still holds nothing. -/
theorem Overlays.none {W : Writes κ ν} {f g : Contents κ ν} (h : Overlays W f g) {q : List κ}
    (hcov : ¬ Covered W q) (hq : f q = none) : g q = none := by
  rcases h.eq_or_none hcov with heq | hnone
  · rw [heq, hq]
  · exact hnone

/-- A place off the writes and not on the way to one is unchanged. -/
theorem Overlays.eq_of_apart {W : Writes κ ν} {f g : Contents κ ν} (h : Overlays W f g) {q : List κ}
    (hcov : ¬ Covered W q) (hway : ∀ p n, W p = some n → ¬ q <+: p) : g q = f q :=
  h.kept q hcov fun p n hle hp => absurd hle (hway p n hp)

/-- Without writes nothing changes. -/
theorem overlays_nothing (f : Contents κ ν) : Overlays (fun _ => none) f f where
  written := fun p n r hp => by simp at hp
  cleared := fun q _ ⟨p, n, _, hp, _⟩ => by simp at hp
  kept := fun q _ _ => rfl

/-- Two different independent writes are apart. -/
theorem Independent.apart {W : Writes κ ν} (h : Independent W) {p q : List κ} {n m : Contents κ ν}
    (hp : W p = some n) (hq : W q = some m) (hne : p ≠ q) : Apart p q := by
  constructor
  · rintro ⟨s, rfl⟩
    have hs := h p s n m hp hq
    exact hne (by simp [hs])
  · rintro ⟨s, rfl⟩
    have hs := h q s m n hq hp
    exact hne (by simp [hs])

section Inside

variable {W W' : Writes κ ν} {f g : Contents κ ν} {r s : List κ} {v n : Contents κ ν}

/-- Changing a write in place keeps the writes independent. -/
theorem Independent.inside (h : Independent W) (hr : W r = some v) (hother : ∀ q, q ≠ r → W' q = W q) :
    Independent W' := by
  have hdom : ∀ q m, W' q = some m → ∃ m', W q = some m' := by
    intro q m hq
    by_cases hqr : q = r
    · exact ⟨v, hqr ▸ hr⟩
    · exact ⟨m, hother q hqr ▸ hq⟩
  intro p q a b hp hq
  obtain ⟨a', ha⟩ := hdom p a hp
  obtain ⟨b', hb⟩ := hdom _ b hq
  exact h p q a' b' ha hb

/-- A write inside a pending one changes that one. -/
theorem Overlays.write_inside (h : Overlays W f g) (hind : Independent W) (hr : W r = some v)
    (hopen : Opens f r) (hself : W' r = some (write v s n)) (hother : ∀ q, q ≠ r → W' q = W q) :
    Overlays W' f (write g (r ++ s) n) := by
  have hcovered : ∀ q, Covered W' q ↔ Covered W q := by
    intro q
    constructor
    · rintro ⟨p, m, hle, hp⟩
      by_cases hpr : p = r
      · exact ⟨r, v, hpr ▸ hle, hr⟩
      · exact ⟨p, m, hle, hother p hpr ▸ hp⟩
    · rintro ⟨p, m, hle, hp⟩
      by_cases hpr : p = r
      · exact ⟨r, _, hpr ▸ hle, hself⟩
      · exact ⟨p, m, hle, (hother p hpr).trans hp⟩
  have hbelow : below g r = v := funext fun q => h.written r v q hr
  constructor
  case written =>
    intro p m t hp
    by_cases hpr : p = r
    · subst hpr
      have hm : write v s n = m := Option.some.inj (hself.symm.trans hp)
      have hread := congrFun (below_write g p s n) t
      rw [hbelow] at hread
      rw [← hm]
      exact hread
    · have hp' : W p = some m := hother p hpr ▸ hp
      have hapart := (hind.apart hr hp' (Ne.symm hpr)).append s t
      rw [write_apart g hapart, h.written p m t hp']
  case cleared =>
    rintro q hcov ⟨p, m, hle, hp, hm⟩
    rw [hcovered] at hcov
    have hnot : ¬ r ++ s <+: q := fun hrs => hcov ⟨r, v, (List.prefix_append r s).trans hrs, hr⟩
    by_cases hpr : p = r
    · subst hpr
      have hm' : write v s n = m := Option.some.inj (hself.symm.trans hp)
      by_cases hn : n = empty
      · have hv : v ≠ empty := by
          rintro rfl
          apply hm
          rw [← hm', hn, write_empty_empty]
        exact write_none g hnot n (h.cleared q hcov ⟨p, v, hle, hr, hv⟩)
      · have hqs : q <+: p ++ s := hle.trans (List.prefix_append p s)
        simp [write, hnot, hqs, hn]
    · have hp' : W p = some m := hother p hpr ▸ hp
      exact write_none g hnot n (h.cleared q hcov ⟨p, m, hle, hp', hm⟩)
  case kept =>
    intro q hcov hempty
    rw [hcovered] at hcov
    have hnot : ¬ r ++ s <+: q := fun hrs => hcov ⟨r, v, (List.prefix_append r s).trans hrs, hr⟩
    by_cases hqr : q <+: r
    · have hfq : f q = Option.none := by
        rcases related q r with ⟨t, ht⟩ | ⟨k, t, rfl⟩ | hapart
        · cases t with
          | nil => exact absurd ⟨r, v, by simp [ht], hr⟩ hcov
          | cons k t => exact hopen q k t ht
        · exact absurd ⟨r, v, by simp, hr⟩ hcov
        · exact absurd hqr hapart.1
      rw [hfq]
      exact write_none g hnot n (h.none hcov hfq)
    · have hqrs : ¬ q <+: r ++ s := by
        intro hle
        rcases List.prefix_or_prefix_of_prefix hle (List.prefix_append r s) with hqr' | hrq
        · exact hqr hqr'
        · exact hcov ⟨r, v, hrq, hr⟩
      rw [write_apart g ⟨hnot, hqrs⟩]
      apply h.kept q hcov
      intro p m hle hp
      have hpr : p ≠ r := fun hpr => hqr (hpr ▸ hle)
      exact hempty p m hle ((hother p hpr).trans hp)

end Inside

section Over

variable {W W' : Writes κ ν} {f g : Contents κ ν} {p : List κ} {n : Contents κ ν}

/-- A write outside the pending ones, taking the place of those below it, keeps them independent. -/
theorem Independent.over (h : Independent W) (hfree : ¬ Covered W p)
    (hbelow : ∀ r, r ≠ [] → W' (p ++ r) = none) (hother : ∀ q, ¬ p <+: q → W' q = W q) : Independent W' := by
  intro q r a b hq hr
  by_cases hpq : p <+: q
  · obtain ⟨s, rfl⟩ := hpq
    by_contra hne
    rw [List.append_assoc] at hr
    have hnil : s ++ r ≠ [] := by simp [hne]
    rw [hbelow _ hnil] at hr
    contradiction
  · have hq' : W q = some a := hother q hpq ▸ hq
    by_cases hpr : p <+: q ++ r
    · exfalso
      rcases List.prefix_or_prefix_of_prefix hpr (List.prefix_append q r) with hle | hle
      · exact hpq hle
      · exact hfree ⟨q, a, hle, hq'⟩
    · exact h q r a b hq' (hother _ hpr ▸ hr)

/-- A write outside the pending ones takes the place of those below it. -/
theorem Overlays.write_over (h : Overlays W f g) (hfree : ¬ Covered W p) (hopen : Opens f p)
    (hself : W' p = some n) (hbelow : ∀ r, r ≠ [] → W' (p ++ r) = Option.none)
    (hother : ∀ q, ¬ p <+: q → W' q = W q) : Overlays W' f (write g p n) := by
  have hcovered : ∀ q, ¬ p <+: q → (Covered W' q ↔ Covered W q) := by
    intro q hpq
    constructor
    · rintro ⟨r, m, hle, hr⟩
      have hpr : ¬ p <+: r := fun hpr => hpq (hpr.trans hle)
      exact ⟨r, m, hle, hother r hpr ▸ hr⟩
    · rintro ⟨r, m, hle, hr⟩
      have hpr : ¬ p <+: r := fun hpr => hpq (hpr.trans hle)
      exact ⟨r, m, hle, (hother r hpr).trans hr⟩
  constructor
  case written =>
    intro q m r hq
    by_cases hpq : p <+: q
    · obtain ⟨s, rfl⟩ := hpq
      cases s with
      | nil =>
        rw [List.append_nil] at hq ⊢
        rw [write_append]
        rw [hself] at hq
        exact congrFun (Option.some.inj hq) r
      | cons k s =>
        rw [hbelow _ (by simp)] at hq
        contradiction
    · have hq' : W q = some m := hother q hpq ▸ hq
      have hqp : ¬ q <+: p := fun hqp => hfree ⟨q, m, hqp, hq'⟩
      have hapart : Apart (p ++ []) (q ++ r) := Apart.append ⟨hpq, hqp⟩ [] r
      rw [List.append_nil] at hapart
      rw [write_apart g hapart, h.written q m r hq']
  case cleared =>
    rintro q hcov ⟨r, m, hle, hr, hm⟩
    have hpq : ¬ p <+: q := fun hpq => hcov ⟨p, n, hpq, hself⟩
    rw [hcovered q hpq] at hcov
    by_cases hpr : p <+: r
    · obtain ⟨s, rfl⟩ := hpr
      cases s with
      | nil =>
        rw [List.append_nil] at hle hr
        have hnm : n = m := Option.some.inj (hself.symm.trans hr)
        simp [write, hpq, hle, hnm, hm]
      | cons k s =>
        rw [hbelow _ (by simp)] at hr
        contradiction
    · exact write_none g hpq n (h.cleared q hcov ⟨r, m, hle, hother r hpr ▸ hr, hm⟩)
  case kept =>
    intro q hcov hempty
    have hpq : ¬ p <+: q := fun hpq => hcov ⟨p, n, hpq, hself⟩
    rw [hcovered q hpq] at hcov
    by_cases hqp : q <+: p
    · have hfq : f q = Option.none := by
        rcases related q p with ⟨t, ht⟩ | ⟨k, t, rfl⟩ | hapart
        · cases t with
          | nil => exact absurd (by simp [ht]) hpq
          | cons k t => exact hopen q k t ht
        · exact absurd (by simp) hpq
        · exact absurd hqp hapart.1
      rw [hfq]
      exact write_none g hpq n (h.none hcov hfq)
    · rw [write_apart g ⟨hpq, hqp⟩]
      apply h.kept q hcov
      intro r m hle hr
      by_cases hpr : p <+: r
      · rcases List.prefix_or_prefix_of_prefix hle hpr with hle' | hle'
        · exact absurd hle' hqp
        · exact absurd hle' hpq
      · exact hempty r m hle ((hother r hpr).trans hr)

end Over

/-- Independent writes may be laid one after the other: the first keeps its place under the rest. -/
theorem Overlays.cons {W W' : Writes κ ν} {f g : Contents κ ν} {p : List κ} {n : Contents κ ν}
    (h : Overlays W (write f p n) g) (hself : W' p = some n)
    (hother : ∀ q, q ≠ p → W' q = W q) (hapart : ∀ q m, W q = some m → Apart p q) :
    Overlays W' f g := by
  have hnone : W p = Option.none := by
    cases hp : W p with
    | none => rfl
    | some m => exact absurd (by simp) (hapart p m hp).1
  have hmono : ∀ q m, W q = some m → W' q = some m := by
    intro q m hq
    have hne : q ≠ p := by
      rintro rfl
      rw [hnone] at hq
      contradiction
    exact (hother q hne).trans hq
  constructor
  case written =>
    intro q m r hq
    by_cases hqp : q = p
    · subst hqp
      have hnm : n = m := Option.some.inj (hself.symm.trans hq)
      have hcov : ¬ Covered W (q ++ r) := by
        rintro ⟨t, a, hle, ht⟩
        exact (hapart t a ht).symm.not_prefix_append r hle
      have hway : ∀ t a, W t = some a → ¬ q ++ r <+: t := by
        intro t a ht hle
        exact (hapart t a ht).1 ((List.prefix_append q r).trans hle)
      rw [h.eq_of_apart hcov hway, write_append, hnm]
    · exact h.written q m r (hother q hqp ▸ hq)
  case cleared =>
    rintro q hcov ⟨r, m, hle, hr, hm⟩
    have hcov' : ¬ Covered W q := fun ⟨t, a, hta, ht⟩ => hcov ⟨t, a, hta, hmono t a ht⟩
    have hpq : ¬ p <+: q := fun hpq => hcov ⟨p, n, hpq, hself⟩
    by_cases hrp : r = p
    · subst hrp
      have hnm : n = m := Option.some.inj (hself.symm.trans hr)
      have hclear : write f r n q = Option.none := by simp [write, hpq, hle, hnm, hm]
      exact h.none hcov' hclear
    · exact h.cleared q hcov' ⟨r, m, hle, hother r hrp ▸ hr, hm⟩
  case kept =>
    intro q hcov hempty
    have hcov' : ¬ Covered W q := fun ⟨t, a, hta, ht⟩ => hcov ⟨t, a, hta, hmono t a ht⟩
    have hpq : ¬ p <+: q := fun hpq => hcov ⟨p, n, hpq, hself⟩
    rw [h.kept q hcov' fun r m hle hr => hempty r m hle (hmono r m hr)]
    by_cases hqp : q <+: p
    · have hn : n = empty := hempty p n hqp hself
      simp [write, hpq, hn]
    · exact write_apart f ⟨hpq, hqp⟩ n

section Add

variable {W : Writes κ ν}

open Classical in
/-- A further write: inside a pending one it changes that one, elsewhere it takes the place of the ones below. -/
noncomputable def addTo (W : Writes κ ν) (p : List κ) (n : Contents κ ν) : Writes κ ν := fun q =>
  if Covered W p then (W q).map fun v => if q <+: p then write v (p.drop q.length) n else v
  else if p <+: q then (if q = p then some n else none)
  else W q

/-- The pending write that a further one lies in is changed. -/
theorem addTo_inside_self {r : List κ} {v : Contents κ ν} (hr : W r = some v) (s : List κ) (n : Contents κ ν) :
    addTo W (r ++ s) n r = some (write v s n) := by
  have hcov : Covered W (r ++ s) := ⟨r, v, List.prefix_append r s, hr⟩
  simp [addTo, hcov, hr]

/-- The other pending writes stay when one is changed. -/
theorem addTo_inside_ne (hind : Independent W) {r : List κ} {v : Contents κ ν} (hr : W r = some v) (s : List κ)
    (n : Contents κ ν) {q : List κ} (hq : q ≠ r) : addTo W (r ++ s) n q = W q := by
  have hcov : Covered W (r ++ s) := ⟨r, v, List.prefix_append r s, hr⟩
  rw [addTo, if_pos hcov]
  cases hwq : W q with
  | none => rfl
  | some m =>
    have hapart := hind.apart hwq hr hq
    rw [Option.map_some, if_neg (hapart.not_prefix_append s)]

/-- Outside the pending writes, the further write is added. -/
theorem addTo_over_self {p : List κ} (hfree : ¬ Covered W p) (n : Contents κ ν) : addTo W p n p = some n := by
  simp [addTo, hfree]

/-- Outside the pending writes, the ones below the further write are dropped. -/
theorem addTo_over_below {p : List κ} (hfree : ¬ Covered W p) (n : Contents κ ν) {r : List κ} (hr : r ≠ []) :
    addTo W p n (p ++ r) = none := by
  have hne : p ++ r ≠ p := by simpa using hr
  simp [addTo, hfree, hne]

/-- Outside the pending writes, the ones not below the further write stay. -/
theorem addTo_over_of_not {p : List κ} (hfree : ¬ Covered W p) (n : Contents κ ν) {q : List κ} (hq : ¬ p <+: q) :
    addTo W p n q = W q := by
  simp [addTo, hfree, hq]

/-- A further write keeps the writes independent. -/
theorem Independent.addTo (h : Independent W) (p : List κ) (n : Contents κ ν) : Independent (addTo W p n) := by
  by_cases hcov : Covered W p
  · obtain ⟨r, v, ⟨s, rfl⟩, hr⟩ := hcov
    exact h.inside hr fun q hq => addTo_inside_ne h hr s n hq
  · exact h.over hcov (fun r hr => addTo_over_below hcov n hr) fun q hq => addTo_over_of_not hcov n hq

/-- Adding a write is writing on top, when no value stands above the written places. -/
theorem Overlays.addTo {f g : Contents κ ν} (h : Overlays W f g) (hind : Independent W)
    (hopens : ∀ r v, W r = some v → Opens f r) {p : List κ} (hopen : Opens f p) (n : Contents κ ν) :
    Overlays (addTo W p n) f (write g p n) := by
  by_cases hcov : Covered W p
  · obtain ⟨r, v, ⟨s, rfl⟩, hr⟩ := hcov
    exact h.write_inside hind hr (hopens r v hr) (addTo_inside_self hr s n)
      fun q hq => addTo_inside_ne hind hr s n hq
  · exact h.write_over hcov hopen (addTo_over_self hcov n) (fun r hr => addTo_over_below hcov n hr)
      fun q hq => addTo_over_of_not hcov n hq

/-- Written places are the old ones and the new one. -/
theorem addTo_support {p q : List κ} {n m : Contents κ ν} (h : addTo W p n q = some m) :
    q = p ∨ ∃ v, W q = some v := by
  unfold PathContents.addTo at h
  split at h
  · obtain ⟨v, hv, -⟩ := Option.map_eq_some_iff.mp h
    exact .inr ⟨v, hv⟩
  · split at h
    · split at h
      · exact .inl ‹_›
      · contradiction
    · exact .inr ⟨m, h⟩

/-- What was covered stays covered, and so is what lies below the further write. -/
theorem covered_addTo {p q : List κ} {n : Contents κ ν} :
    Covered (PathContents.addTo W p n) q ↔ Covered W q ∨ p <+: q := by
  constructor
  · rintro ⟨r, m, hle, hr⟩
    rcases addTo_support hr with rfl | ⟨v, hv⟩
    · exact .inr hle
    · exact .inl ⟨r, v, hle, hv⟩
  · by_cases hcov : Covered W p
    · obtain ⟨r, v, ⟨s, rfl⟩, hr⟩ := hcov
      have hself := addTo_inside_self hr s n
      rintro (⟨t, m, hle, ht⟩ | hle)
      · have ht' : (PathContents.addTo W (r ++ s) n t).isSome := by
          have hcov : Covered W (r ++ s) := ⟨r, v, List.prefix_append r s, hr⟩
          simp [PathContents.addTo, hcov, ht]
        obtain ⟨m', hm'⟩ := Option.isSome_iff_exists.mp ht'
        exact ⟨t, m', hle, hm'⟩
      · exact ⟨r, _, (List.prefix_append r s).trans hle, hself⟩
    · rintro (⟨t, m, hle, ht⟩ | hle)
      · by_cases hpt : p <+: t
        · exact ⟨p, n, hpt.trans hle, addTo_over_self hcov n⟩
        · exact ⟨t, m, hle, (addTo_over_of_not hcov n hpt).trans ht⟩
      · exact ⟨p, n, hle, addTo_over_self hcov n⟩

end Add

/-- Below a place that no write covers, the writes below it are laid over what is below it. -/
theorem Overlays.below {W : Writes κ ν} {f g : Contents κ ν} (h : Overlays W f g) {p : List κ}
    (hfree : ¬ Covered W p) : Overlays (fun q => W (p ++ q)) (below f p) (below g p) := by
  have hcovered : ∀ q, Covered (fun q => W (p ++ q)) q ↔ Covered W (p ++ q) := by
    intro q
    constructor
    · rintro ⟨r, n, hle, hr⟩
      exact ⟨p ++ r, n, (List.prefix_append_right_inj p).mpr hle, hr⟩
    · rintro ⟨r, n, hle, hr⟩
      rcases List.prefix_or_prefix_of_prefix hle (List.prefix_append p q) with hrp | ⟨t, rfl⟩
      · exact absurd ⟨r, n, hrp, hr⟩ hfree
      · exact ⟨t, n, (List.prefix_append_right_inj p).mp hle, hr⟩
  constructor
  case written =>
    intro r n t hr
    change g (p ++ (r ++ t)) = n t
    rw [← List.append_assoc]
    exact h.written (p ++ r) n t hr
  case cleared =>
    rintro q hcov ⟨r, n, hle, hr, hn⟩
    rw [hcovered] at hcov
    exact h.cleared (p ++ q) hcov ⟨p ++ r, n, (List.prefix_append_right_inj p).mpr hle, hr, hn⟩
  case kept =>
    intro q hcov hempty
    rw [hcovered] at hcov
    apply h.kept (p ++ q) hcov
    rintro r n ⟨t, rfl⟩ hr
    rw [List.append_assoc] at hr
    exact hempty (q ++ t) n (List.prefix_append q t) hr

end PathContents
