import Mathlib.Data.List.Infix

/-!
# The topmost of some paths

Of some paths, the topmost are those with no other one above them. When a path comes or goes,
the topmost paths change below it only, and not at all where there is another path above it.
-/

namespace Paths

variable {κ : Type}

/-- The path is one of the chosen ones, and no other one is above it. -/
def Topmost (S : List κ → Prop) (p : List κ) : Prop := S p ∧ ∀ q, q <+: p → S q → q = p

variable {S T : List κ → Prop} {path : List κ}

/-- A path that comes or goes below another one leaves the topmost paths what they are. -/
theorem topmost_of_covered (hT : ∀ p, p ≠ path → (T p ↔ S p)) {above : List κ} (hle : above <+: path)
    (hne : above ≠ path) (habove : S above) (p : List κ) : Topmost T p ↔ Topmost S p := by
  have hTabove : T above := (hT above hne).mpr habove
  have hother : ∀ {U : List κ → Prop}, U above → Topmost U p → p ≠ path := by
    intro U hU h heq
    exact hne ((h.2 above (heq ▸ hle) hU).trans heq)
  have hstep : ∀ {U V : List κ → Prop}, (∀ q, q ≠ path → (V q ↔ U q)) → U above → V above →
      Topmost U p → Topmost V p := by
    intro U V hUV hU hV h
    refine ⟨(hUV p (hother hU h)).mpr h.1, fun q hq hVq => ?_⟩
    by_cases hqpath : q = path
    · subst hqpath
      have hpabove := h.2 above (hle.trans hq) hU
      exact absurd (hpabove ▸ hq) fun hback => hne (hle.eq_of_length_le hback.length_le)
    · exact h.2 q hq ((hUV q hqpath).mp hVq)
  exact ⟨hstep (fun q hq => (hT q hq).symm) hTabove habove, hstep hT habove hTabove⟩

/-- When a topmost path goes, those that it hid come up. -/
theorem topmost_remove (hT : ∀ p, T p ↔ S p ∧ p ≠ path) (htop : Topmost S path) (p : List κ) :
    Topmost T p ↔ (Topmost S p ∧ p ≠ path) ∨ (path <+: p ∧ T p ∧ ∀ q, path <+: q → q <+: p → T q → q = p) := by
  constructor
  · intro h
    by_cases hle : path <+: p
    · exact .inr ⟨hle, h.1, fun q _ hq hTq => h.2 q hq hTq⟩
    · obtain ⟨hS, hne⟩ := (hT p).mp h.1
      refine .inl ⟨⟨hS, fun q hq hSq => ?_⟩, hne⟩
      exact h.2 q hq ((hT q).mpr ⟨hSq, fun heq => hle (heq ▸ hq)⟩)
  · intro h
    rcases h with ⟨htopp, hne⟩ | ⟨hle, hTp, hlow⟩
    · exact ⟨(hT p).mpr ⟨htopp.1, hne⟩, fun q hq hTq => htopp.2 q hq ((hT q).mp hTq).1⟩
    · refine ⟨hTp, fun q hq hTq => ?_⟩
      rcases List.prefix_or_prefix_of_prefix hle hq with hlow' | habove
      · exact hlow q hlow' hq hTq
      · obtain ⟨hSq, hne⟩ := (hT q).mp hTq
        exact absurd (htop.2 q habove hSq) hne

end Paths
