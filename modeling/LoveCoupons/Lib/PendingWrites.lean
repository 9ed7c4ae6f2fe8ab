import LoveCoupons.Lib.Overlay
import Mathlib.Data.List.Induction

/-!
# Pending writes in order

Pending writes are layered in the order in which they were made. The layered set is computed
once, and the question is what it becomes when the oldest write is taken back. If no later
write lies at or below it, its own places can be dropped from the set; if a later write lies
at or above it, nothing changes.

Where places that have children never hold a value themselves, a place reads as the latest
pending write at or above it says, and as the store says when there is none.
-/

namespace PathContents

variable {κ ν : Type}

/-- The writes that are not at or below a path. -/
noncomputable def removeBelow (W : Writes κ ν) (p : List κ) : Writes κ ν := fun q =>
  open Classical in if p <+: q then none else W q

/-- Nothing is left at or below a removed path. -/
@[simp] theorem removeBelow_append (W : Writes κ ν) (p r : List κ) : removeBelow W p (p ++ r) = none := by
  simp [removeBelow]

/-- What is not at or below a removed path is left. -/
theorem removeBelow_of_not (W : Writes κ ν) {p q : List κ} (h : ¬ p <+: q) : removeBelow W p q = W q := by
  simp [removeBelow, h]

/-- Off the dropped places, the same is covered. -/
theorem covered_removeBelow {W : Writes κ ν} {p q : List κ} (h : ¬ p <+: q) :
    Covered (removeBelow W p) q ↔ Covered W q := by
  constructor
  · rintro ⟨r, n, hle, hr⟩
    have hpr : ¬ p <+: r := fun hpr => h (hpr.trans hle)
    exact ⟨r, n, hle, removeBelow_of_not W hpr ▸ hr⟩
  · rintro ⟨r, n, hle, hr⟩
    have hpr : ¬ p <+: r := fun hpr => h (hpr.trans hle)
    exact ⟨r, n, hle, (removeBelow_of_not W hpr).trans hr⟩

/-- Dropping places and adding a write elsewhere may be done in either order. -/
theorem addTo_removeBelow (W : Writes κ ν) {p c : List κ} (h : ¬ p <+: c) (n : Contents κ ν) :
    addTo (removeBelow W p) c n = removeBelow (addTo W c n) p := by
  funext q
  by_cases hpq : p <+: q
  · obtain ⟨r, rfl⟩ := hpq
    rw [removeBelow_append, addTo]
    split
    · rw [removeBelow_append]
      rfl
    · split
      · have hne : p ++ r ≠ c := fun heq => h (heq ▸ List.prefix_append p r)
        rw [if_neg hne]
      · rw [removeBelow_append]
  · rw [removeBelow_of_not _ hpq]
    unfold addTo
    rw [removeBelow_of_not _ hpq, covered_removeBelow h]

/-- Writes that agree off a place still agree off it after a further write. -/
theorem removeBelow_addTo_congr {W V : Writes κ ν} {p : List κ} (h : removeBelow W p = removeBelow V p)
    (c : List κ) (n : Contents κ ν) :
    removeBelow (addTo W c n) p = removeBelow (addTo V c n) p := by
  by_cases hpc : p <+: c
  · funext q
    by_cases hpq : p <+: q
    · obtain ⟨r, rfl⟩ := hpq
      rw [removeBelow_append, removeBelow_append]
    · rw [removeBelow_of_not _ hpq, removeBelow_of_not _ hpq]
      have hWV : W q = V q := by
        rw [← removeBelow_of_not W hpq, h, removeBelow_of_not V hpq]
      have hcq : ¬ c <+: q := fun hcq => hpq (hpc.trans hcq)
      cases hq : W q with
      | none =>
        have hV' : V q = none := hWV ▸ hq
        simp only [addTo, hq, hV', hcq, if_false, Option.map_none, ite_self]
      | some v =>
        have hV' : V q = some v := hWV ▸ hq
        by_cases hqc : q <+: c
        · have hcW : Covered W c := ⟨q, v, hqc, hq⟩
          have hcV : Covered V c := ⟨q, v, hqc, hV'⟩
          simp only [addTo, hq, hV', if_pos hcW, if_pos hcV]
        · simp only [addTo, hq, hV', hqc, hcq, if_false, Option.map_some, ite_self]
  · rw [← addTo_removeBelow W hpc, ← addTo_removeBelow V hpc, h]

/-- With nothing above it, a further write takes its place and drops what is below. -/
theorem addTo_of_none_above {W : Writes κ ν} (hind : Independent W) {c : List κ}
    (habove : ∀ r, r <+: c → r ≠ c → W r = none) (n : Contents κ ν) (q : List κ) [Decidable (c <+: q)]
    [Decidable (q = c)] :
    addTo W c n q = if c <+: q then (if q = c then some n else none) else W q := by
  cases hc : W c with
  | some v =>
    by_cases hqc : q = c
    · subst hqc
      have hself := addTo_inside_self hc [] n
      rw [List.append_nil, write_nil] at hself
      simp [hself]
    · have hother := addTo_inside_ne hind hc [] n hqc
      rw [List.append_nil] at hother
      rw [hother, if_neg hqc]
      split
      · rename_i hle
        obtain ⟨r, rfl⟩ := hle
        cases hq : W (c ++ r) with
        | none => rfl
        | some m => exact absurd (by simp [hind c r v m hc hq]) hqc
      · rfl
  | none =>
    have hfree : ¬ Covered W c := by
      rintro ⟨r, v, hle, hr⟩
      by_cases hrc : r = c
      · rw [hrc, hc] at hr
        contradiction
      · rw [habove r hle hrc] at hr
        contradiction
    by_cases hle : c <+: q
    · obtain ⟨r, rfl⟩ := hle
      cases r with
      | nil => simp [addTo_over_self hfree]
      | cons k r => simp [addTo_over_below hfree]
    · rw [if_neg hle, addTo_over_of_not hfree n hle]

/-- A write at or above the place where two sets differ makes them equal. -/
theorem addTo_eq_of_removeBelow_eq {W V : Writes κ ν} {p c : List κ} (h : removeBelow W p = removeBelow V p)
    (hW : Independent W) (hV : Independent V) (hcp : c <+: p) (n : Contents κ ν) : addTo W c n = addTo V c n := by
  classical
  have hagree : ∀ q, ¬ p <+: q → W q = V q := by
    intro q hpq
    rw [← removeBelow_of_not W hpq, h, removeBelow_of_not V hpq]
  have habove : ∀ r, r <+: c → r ≠ c → W r = V r := by
    intro r hrc hne
    apply hagree r
    intro hpr
    exact hne (hrc.eq_of_length_le (hcp.trans hpr).length_le)
  funext q
  by_cases hcov : ∃ r v, r <+: c ∧ r ≠ c ∧ W r = some v
  · obtain ⟨r, v, hrc, hne, hr⟩ := hcov
    have hr' : V r = some v := habove r hrc hne ▸ hr
    obtain ⟨s, rfl⟩ := hrc
    by_cases hqr : q = r
    · subst hqr
      rw [addTo_inside_self hr, addTo_inside_self hr']
    · rw [addTo_inside_ne hW hr s n hqr, addTo_inside_ne hV hr' s n hqr]
      by_cases hpq : p <+: q
      · obtain ⟨t, rfl⟩ := (List.prefix_append r s).trans (hcp.trans hpq)
        have hnone : ∀ {U : Writes κ ν}, Independent U → U r = some v → U (r ++ t) = none := by
          intro U hU hUr
          cases hUq : U (r ++ t) with
          | none => rfl
          | some m => exact absurd (by simp [hU r t v m hUr hUq]) hqr
        rw [hnone hW hr, hnone hV hr']
      · exact hagree q hpq
  · have hWabove : ∀ r, r <+: c → r ≠ c → W r = none := by
      intro r hrc hne
      cases hr : W r with
      | none => rfl
      | some v => exact absurd ⟨r, v, hrc, hne, hr⟩ hcov
    have hVabove : ∀ r, r <+: c → r ≠ c → V r = none := fun r hrc hne =>
      habove r hrc hne ▸ hWabove r hrc hne
    rw [addTo_of_none_above hW hWabove, addTo_of_none_above hV hVabove]
    split
    · rfl
    · exact hagree q fun hpq => ‹¬ c <+: q› (hcp.trans hpq)

section Layer

/-- Further writes, in the order in which they were made. -/
noncomputable def layerOn (W : Writes κ ν) (ws : List (List κ × Contents κ ν)) : Writes κ ν :=
  ws.foldl (fun W w => addTo W w.1 w.2) W

/-- Pending writes, in the order in which they were made. -/
noncomputable def layer (ws : List (List κ × Contents κ ν)) : Writes κ ν := layerOn (fun _ => none) ws

/-- Two lists of writes are laid on one after the other. -/
theorem layerOn_append (W : Writes κ ν) (ws us : List (List κ × Contents κ ν)) :
    layerOn W (ws ++ us) = layerOn (layerOn W ws) us := List.foldl_append

/-- A further write is added to the layer. -/
theorem layer_concat (ws : List (List κ × Contents κ ν)) (w : List κ × Contents κ ν) :
    layer (ws ++ [w]) = addTo (layer ws) w.1 w.2 := layerOn_append _ ws [w]

/-- No writes at all are independent. -/
theorem independent_nothing : Independent (fun _ => none : Writes κ ν) := by
  intro p q n m hp
  simp at hp

/-- Laying writes on independent ones leaves independent ones. -/
theorem Independent.layerOn {W : Writes κ ν} (h : Independent W) (ws : List (List κ × Contents κ ν)) :
    Independent (layerOn W ws) := by
  induction ws generalizing W with
  | nil => exact h
  | cons w ws ih => exact ih (h.addTo w.1 w.2)

/-- The writes of a layer are independent. -/
theorem independent_layer (ws : List (List κ × Contents κ ν)) : Independent (layer ws) :=
  independent_nothing.layerOn ws

/-- Every pending write covers its place, and nothing else does. -/
theorem covered_layerOn {W : Writes κ ν} (ws : List (List κ × Contents κ ν)) (q : List κ) :
    Covered (layerOn W ws) q ↔ Covered W q ∨ ∃ w ∈ ws, w.1 <+: q := by
  induction ws generalizing W with
  | nil => simp [layerOn]
  | cons w ws ih =>
    change Covered (layerOn (addTo W w.1 w.2) ws) q ↔ _
    rw [ih, covered_addTo, List.exists_mem_cons_iff, or_assoc]

/-- A layer covers what one of its writes covers. -/
theorem covered_layer (ws : List (List κ × Contents κ ν)) (q : List κ) :
    Covered (layer ws) q ↔ ∃ w ∈ ws, w.1 <+: q := by
  have hnone : ¬ Covered (fun _ => none : Writes κ ν) q := by
    rintro ⟨p, n, -, hp⟩
    simp at hp
  rw [layer, covered_layerOn]
  simp [hnone]

/-- What is layered stands at the place of one of the writes. -/
theorem layerOn_support {W : Writes κ ν} {ws : List (List κ × Contents κ ν)} {q : List κ} {v : Contents κ ν}
    (h : layerOn W ws q = some v) : q ∈ ws.map Prod.fst ∨ ∃ u, W q = some u := by
  induction ws generalizing W with
  | nil => exact .inr ⟨v, h⟩
  | cons w ws ih =>
    rcases ih (W := addTo W w.1 w.2) h with hmem | ⟨u, hu⟩
    · exact .inl (List.mem_cons_of_mem _ hmem)
    · rcases addTo_support hu with rfl | ⟨u', hu'⟩
      · exact .inl (by simp)
      · exact .inr ⟨u', hu'⟩

/-- Places that no later write lies at or below can be dropped before or after the later writes. -/
theorem layerOn_removeBelow (W : Writes κ ν) {p : List κ} {ws : List (List κ × Contents κ ν)}
    (h : ∀ w ∈ ws, ¬ p <+: w.1) : layerOn (removeBelow W p) ws = removeBelow (layerOn W ws) p := by
  induction ws generalizing W with
  | nil => rfl
  | cons w ws ih =>
    change layerOn (addTo (removeBelow W p) w.1 w.2) ws = removeBelow (layerOn (addTo W w.1 w.2) ws) p
    rw [addTo_removeBelow W (h w (by simp)), ih _ fun w hw => h w (by simp [hw])]

/-- Sets that differ at and below a place are the same after a later write at or above it. -/
theorem layerOn_eq_of_shadowed {W V : Writes κ ν} {p : List κ} (h : removeBelow W p = removeBelow V p)
    (hW : Independent W) (hV : Independent V) {ws : List (List κ × Contents κ ν)}
    (hshadow : ∃ w ∈ ws, w.1 <+: p) : layerOn W ws = layerOn V ws := by
  induction ws generalizing W V with
  | nil => simp at hshadow
  | cons w ws ih =>
    change layerOn (addTo W w.1 w.2) ws = layerOn (addTo V w.1 w.2) ws
    by_cases hwp : w.1 <+: p
    · rw [addTo_eq_of_removeBelow_eq h hW hV hwp]
    · obtain ⟨u, hmem, hup⟩ := hshadow
      rcases List.mem_cons.mp hmem with rfl | hmem'
      · exact absurd hup hwp
      · exact ih (removeBelow_addTo_congr h w.1 w.2) (hW.addTo w.1 w.2) (hV.addTo w.1 w.2) ⟨u, hmem', hup⟩

/-- Dropping all written places leaves nothing. -/
theorem foldl_removeBelow_layer (ws : List (List κ × Contents κ ν)) {W : Writes κ ν}
    (hW : ∀ q v, W q = some v → ∃ w ∈ ws, w.1 <+: q) :
    ws.foldl (fun W w => removeBelow W w.1) W = fun _ => none := by
  induction ws generalizing W with
  | nil =>
    funext q
    cases hq : W q with
    | none => simpa using hq
    | some v => simpa using hW q v hq
  | cons w ws ih =>
    rw [List.foldl_cons]
    apply ih
    intro q v hq
    have hnot : ¬ w.1 <+: q := by
      rintro ⟨r, rfl⟩
      simp at hq
    obtain ⟨u, hmem, hu⟩ := hW q v (removeBelow_of_not W hnot ▸ hq)
    rcases List.mem_cons.mp hmem with rfl | hmem'
    · exact absurd hu hnot
    · exact ⟨u, hmem', hu⟩

/-- Dropping places that no later write lies at or below commutes with the later writes. -/
theorem foldl_removeBelow_layerOn (ps us : List (List κ × Contents κ ν)) (W : Writes κ ν)
    (h : ∀ w ∈ ps, ∀ u ∈ us, ¬ w.1 <+: u.1) :
    ps.foldl (fun W w => removeBelow W w.1) (layerOn W us) =
      layerOn (ps.foldl (fun W w => removeBelow W w.1) W) us := by
  induction ps generalizing W with
  | nil => rfl
  | cons w ps ih =>
    rw [List.foldl_cons, List.foldl_cons, ← layerOn_removeBelow W (h w (by simp)),
      ih _ fun w hw => h w (by simp [hw])]

/-- Writes that are apart are layered side by side. -/
theorem layer_of_apart {ws : List (List κ × Contents κ ν)} (h : ws.Pairwise fun w u => Apart w.1 u.1)
    (p : List κ) (n : Contents κ ν) : layer ws p = some n ↔ (p, n) ∈ ws := by
  induction ws using List.reverseRecOn generalizing p n with
  | nil => simp [layer, layerOn]
  | append_singleton ws w ih =>
    rw [List.pairwise_append] at h
    have hapart : ∀ u ∈ ws, Apart u.1 w.1 := fun u hu => h.2.2 u hu w (by simp)
    have hfree : ¬ Covered (layer ws) w.1 := by
      rw [covered_layer]
      rintro ⟨u, hu, hle⟩
      exact (hapart u hu).1 hle
    rw [layer_concat, List.mem_append, List.mem_singleton, ← ih h.1]
    by_cases hle : w.1 <+: p
    · have hold : layer ws p ≠ some n := by
        rw [Ne, ih h.1]
        intro hmem
        exact (hapart _ hmem).2 hle
      obtain ⟨r, rfl⟩ := hle
      cases r with
      | nil =>
        rw [List.append_nil] at hold ⊢
        rw [addTo_over_self hfree]
        simp [hold, Prod.ext_iff, eq_comm]
      | cons key r =>
        rw [addTo_over_below hfree _ (by simp)]
        simp [hold, Prod.ext_iff]
    · rw [addTo_over_of_not hfree _ hle]
      have hne : (p, n) ≠ w := fun heq => hle (heq ▸ List.prefix_rfl)
      simp [hne]

end Layer

section Latest

open Classical in
/-- What the latest pending write at or above a place says of it, or the given value. -/
noncomputable def latest (ws : List (List κ × Contents κ ν)) (value : Option ν) (q : List κ) : Option ν :=
  ws.foldl (fun value w => if w.1 <+: q then w.2 (q.drop w.1.length) else value) value

/-- At or below its place, the last write is the latest. -/
theorem latest_concat_append (ws : List (List κ × Contents κ ν)) (p : List κ) (n : Contents κ ν)
    (value : Option ν) (r : List κ) : latest (ws ++ [(p, n)]) value (p ++ r) = n r := by
  simp [latest]

/-- Elsewhere, the last write does not matter. -/
theorem latest_concat_of_not (ws : List (List κ × Contents κ ν)) {p q : List κ} (h : ¬ p <+: q)
    (n : Contents κ ν) (value : Option ν) : latest (ws ++ [(p, n)]) value q = latest ws value q := by
  simp [latest, h]

/-- Without a pending write above it, a place keeps its value. -/
theorem latest_of_forall_not {ws : List (List κ × Contents κ ν)} {q : List κ} (h : ∀ w ∈ ws, ¬ w.1 <+: q)
    (value : Option ν) : latest ws value q = value := by
  induction ws generalizing value with
  | nil => rfl
  | cons w ws ih =>
    have hhead := h w (by simp)
    have htail := ih (fun w hw => h w (by simp [hw])) value
    simpa [latest, hhead] using htail

/-- Under a pending write, the value of the store does not matter. -/
theorem latest_congr {ws : List (List κ × Contents κ ν)} {q : List κ} (h : ∃ w ∈ ws, w.1 <+: q)
    (value other : Option ν) : latest ws value q = latest ws other q := by
  induction ws generalizing value other with
  | nil => simp at h
  | cons w ws ih =>
    by_cases hwq : w.1 <+: q
    · simp [latest, hwq]
    · obtain ⟨u, hmem, huq⟩ := h
      rcases List.mem_cons.mp hmem with rfl | hmem'
      · exact absurd huq hwq
      · have htail := ih ⟨u, hmem', huq⟩ value other
        simpa [latest, hwq] using htail

/-- A first write elsewhere does not matter. -/
theorem latest_cons_of_not {w : List κ × Contents κ ν} (ws : List (List κ × Contents κ ν)) {q : List κ}
    (h : ¬ w.1 <+: q) (value : Option ν) : latest (w :: ws) value q = latest ws value q := by
  simp [latest, h]

/-- Later writes are looked at over what the earlier ones leave. -/
theorem latest_append (ws us : List (List κ × Contents κ ν)) (value : Option ν) (q : List κ) :
    latest (ws ++ us) value q = latest us (latest ws value q) q := by
  simp [latest]

/-- The places above a write are parents, and so the write puts no value at a parent. -/
structure Fits (D : List κ → Prop) (p : List κ) (n : Contents κ ν) : Prop where
  above : ∀ q k r, p = q ++ k :: r → D q
  inside : ∀ r, D (p ++ r) → n r = none

variable {D : List κ → Prop} {ws : List (List κ × Contents κ ν)}

/-- A layered write puts no value at a parent, and says what the latest write says. -/
theorem layer_written (hfits : ∀ w ∈ ws, Fits D w.1 w.2) {r t : List κ} {v : Contents κ ν}
    (h : layer ws r = some v) : (D (r ++ t) → v t = none) ∧
      (¬ D (r ++ t) → ∀ value, latest ws value (r ++ t) = v t) := by
  induction ws using List.reverseRecOn generalizing r t v with
  | nil => simp [layer, layerOn] at h
  | append_singleton ws w ih =>
    obtain ⟨c, n⟩ := w
    have hw : Fits D c n := hfits (c, n) (by simp)
    have ih' := fun {r t : List κ} {v : Contents κ ν} (h : layer ws r = some v) =>
      ih (fun w hw => hfits w (by simp [hw])) (t := t) h
    rw [layer_concat] at h
    by_cases hcov : Covered (layer ws) c
    · obtain ⟨o, u, ⟨s, rfl⟩, ho⟩ := hcov
      by_cases hro : r = o
      · subst hro
        rw [addTo_inside_self ho] at h
        obtain rfl := Option.some.inj h
        rcases related s t with ⟨x, rfl⟩ | ⟨k, x, rfl⟩ | hapart
        · rw [write_append, ← List.append_assoc]
          exact ⟨fun hD => hw.inside x hD, fun _ value => latest_concat_append ws _ n value x⟩
        · have hD : D (r ++ t) := hw.above (r ++ t) k x (by simp)
          refine ⟨fun _ => ?_, fun hnD => absurd hD hnD⟩
          have hnot : ¬ t ++ k :: x <+: t := not_prefix_of_append_cons t k x
          exact write_none u hnot n ((ih' ho).1 hD)
        · rw [write_apart u hapart]
          have hnot : ¬ r ++ s <+: r ++ t := fun hle => hapart.1 ((List.prefix_append_right_inj r).mp hle)
          refine ⟨(ih' ho).1, fun hnD value => ?_⟩
          rw [latest_concat_of_not ws hnot]
          exact (ih' ho).2 hnD value
      · rw [addTo_inside_ne (independent_layer ws) ho s n hro] at h
        have hapart := ((independent_layer ws).apart ho h (Ne.symm hro)).append s t
        refine ⟨(ih' h).1, fun hnD value => ?_⟩
        rw [latest_concat_of_not ws hapart.1]
        exact (ih' h).2 hnD value
    · by_cases hcr : c <+: r
      · obtain ⟨x, rfl⟩ := hcr
        cases x with
        | nil =>
          rw [List.append_nil, addTo_over_self hcov] at h
          obtain rfl := Option.some.inj h
          rw [List.append_nil]
          exact ⟨fun hD => hw.inside t hD, fun _ value => latest_concat_append ws c n value t⟩
        | cons k x =>
          rw [addTo_over_below hcov n (by simp)] at h
          contradiction
      · rw [addTo_over_of_not hcov n hcr] at h
        have hnot : ¬ c <+: r ++ t := by
          intro hle
          rcases List.prefix_or_prefix_of_prefix hle (List.prefix_append r t) with hle' | hle'
          · exact hcr hle'
          · exact hcov ⟨r, v, hle', h⟩
        refine ⟨(ih' h).1, fun hnD value => ?_⟩
        rw [latest_concat_of_not ws hnot]
        exact (ih' h).2 hnD value

/-- Laid over a store, the pending writes read as the latest one says, off the parents. -/
theorem Overlays.eq_latest (hfits : ∀ w ∈ ws, Fits D w.1 w.2) {f g : Contents κ ν}
    (h : Overlays (layer ws) f g) {q : List κ} (hq : ¬ D q) : g q = latest ws (f q) q := by
  by_cases hcov : Covered (layer ws) q
  · obtain ⟨r, v, ⟨t, rfl⟩, hr⟩ := hcov
    rw [h.written r v t hr]
    exact ((layer_written hfits hr).2 hq _).symm
  · have hnone : ∀ w ∈ ws, ¬ w.1 <+: q := fun w hw hle => hcov ((covered_layer ws q).mpr ⟨w, hw, hle⟩)
    rw [latest_of_forall_not hnone]
    apply h.kept q hcov
    rintro r n ⟨t, rfl⟩ hr
    exfalso
    obtain ⟨u, hu, hur⟩ := List.mem_map.mp ((layerOn_support hr).resolve_right (by simp))
    cases t with
    | nil => exact hcov ⟨q ++ [], n, by simp, hr⟩
    | cons k t => exact hq ((hfits u hu).above q k t hur)

/-- Laid over a store without values at parents, the pending writes put none there. -/
theorem Overlays.none_of_parent (hfits : ∀ w ∈ ws, Fits D w.1 w.2) {f g : Contents κ ν}
    (h : Overlays (layer ws) f g) {q : List κ} (hq : D q) (hf : f q = Option.none) : g q = Option.none := by
  by_cases hcov : Covered (layer ws) q
  · obtain ⟨r, v, ⟨t, rfl⟩, hr⟩ := hcov
    rw [h.written r v t hr]
    exact (layer_written hfits hr).1 hq
  · exact h.none hcov hf

end Latest

end PathContents
