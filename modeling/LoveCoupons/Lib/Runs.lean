import Mathlib.Data.List.Induction

/-!
# Runs of a partial step function

A system is a partial function from a state and a chosen step to the next state. A
schedule lists the steps of one run; a step that is not enabled leaves no run. Every
prefix of a run is itself a run, so a property proved for the last state of every run
holds in every state a run passes through.

A step condition restricts the runs by the step taken and the state it is taken in.
-/

namespace StepSystem

variable {σ α : Type*} {step : σ → α → Option σ}

/-- Take the listed steps in order. -/
def run (step : σ → α → Option σ) : σ → List α → Option σ
  | s, [] => some s
  | s, a :: rest => (step s a).bind fun next => run step next rest

@[simp] theorem run_nil (s : σ) : run step s [] = some s := rfl

/-- A nonempty run is one enabled step followed by a run. -/
theorem run_cons_eq_some {s t : σ} {a : α} {rest : List α} :
    run step s (a :: rest) = some t ↔ ∃ next, step s a = some next ∧ run step next rest = some t :=
  Option.bind_eq_some_iff

/-- Running two schedules in a row is running their concatenation. -/
theorem run_append (s : σ) (first second : List α) :
    run step s (first ++ second) = (run step s first).bind fun middle => run step middle second := by
  induction first generalizing s with
  | nil => rfl
  | cons a rest ih =>
    change (step s a).bind (fun next => run step next (rest ++ second)) =
      ((step s a).bind fun next => run step next rest).bind fun middle => run step middle second
    rw [Option.bind_assoc]
    congr 1
    funext next
    exact ih next

/-- A concatenated run passes through the state between its two parts. -/
theorem run_append_eq_some {s t : σ} {first second : List α} :
    run step s (first ++ second) = some t ↔
      ∃ middle, run step s first = some middle ∧ run step middle second = some t := by
  rw [run_append, Option.bind_eq_some_iff]

/-- Extending a run by one enabled step. -/
theorem run_concat {s t next : σ} {steps : List α} {a : α} (h : run step s steps = some t)
    (ha : step t a = some next) : run step s (steps ++ [a]) = some next :=
  run_append_eq_some.mpr ⟨t, h, run_cons_eq_some.mpr ⟨next, ha, rfl⟩⟩

/-- What every enabled step preserves holds at the end of every run. -/
theorem run_invariant (Inv : σ → Prop)
    (hstep : ∀ s a next, Inv s → step s a = some next → Inv next)
    {s t : σ} {steps : List α} (hs : Inv s) (h : run step s steps = some t) : Inv t := by
  induction steps generalizing s with
  | nil => exact Option.some.inj h ▸ hs
  | cons a rest ih =>
    obtain ⟨next, ha, hrest⟩ := run_cons_eq_some.mp h
    exact ih (hstep s a next hs ha) hrest

/-- What relates a state to the steps taken so far, and is kept by each further step. -/
theorem run_history (Inv : List α → σ → Prop) {s t : σ} {steps : List α} (hs : Inv [] s)
    (hstep : ∀ past s a next, Inv past s → step s a = some next → Inv (past ++ [a]) next)
    (h : run step s steps = some t) : Inv steps t := by
  induction steps using List.reverseRecOn generalizing t with
  | nil => exact Option.some.inj h ▸ hs
  | append_singleton past a ih =>
    obtain ⟨middle, hpast, hlast⟩ := run_append_eq_some.mp h
    obtain ⟨next, ha, hend⟩ := run_cons_eq_some.mp hlast
    exact Option.some.inj hend ▸ hstep past middle a next (ih hpast) ha

/-- The number of steps of a run that count, each in the state in which it is taken. -/
def tally (step : σ → α → Option σ) (counts : σ → α → Bool) : σ → List α → ℕ
  | _, [] => 0
  | s, a :: rest => (counts s a).toNat + (step s a).elim 0 fun next => tally step counts next rest

/-- What the single steps gain and lose adds up over a run. -/
theorem run_balance (size : σ → ℕ) {gains losses : σ → α → Bool}
    (hstep : ∀ s a next, step s a = some next → size next + (losses s a).toNat = size s + (gains s a).toNat)
    {s t : σ} {steps : List α} (h : run step s steps = some t) :
    size t + tally step losses s steps = size s + tally step gains s steps := by
  induction steps generalizing s with
  | nil => rw [Option.some.inj h, tally, tally]
  | cons a rest ih =>
    obtain ⟨next, ha, hrest⟩ := run_cons_eq_some.mp h
    have hfirst := hstep s a next ha
    have hlater := ih hrest
    simp only [tally, ha, Option.elim_some]
    omega

/-- Every step of the schedule is taken in a state that permits it. -/
def Along (step : σ → α → Option σ) (P : σ → α → Prop) : σ → List α → Prop
  | _, [] => True
  | s, a :: rest => P s a ∧ ∀ next, step s a = some next → Along step P next rest

/-- An invariant of the permitted steps holds at the end of every run of permitted steps. -/
theorem run_invariant_along (Inv : σ → Prop) {P : σ → α → Prop}
    (hstep : ∀ s a next, Inv s → P s a → step s a = some next → Inv next)
    {s t : σ} {steps : List α} (hs : Inv s) (hP : Along step P s steps)
    (h : run step s steps = some t) : Inv t := by
  induction steps generalizing s with
  | nil => exact Option.some.inj h ▸ hs
  | cons a rest ih =>
    obtain ⟨next, ha, hrest⟩ := run_cons_eq_some.mp h
    exact ih (hstep s a next hs hP.1 ha) (hP.2 next ha) hrest

/-- Where every permitted step is enabled and keeps an invariant, every permitted schedule has a run, and the
invariant holds at its end. -/
theorem exists_run_of_along (Inv : σ → Prop) {P : σ → α → Prop}
    (hstep : ∀ s a, Inv s → P s a → ∃ next, step s a = some next ∧ Inv next)
    {s : σ} {steps : List α} (hs : Inv s) (hP : Along step P s steps) :
    ∃ t, run step s steps = some t ∧ Inv t := by
  induction steps generalizing s with
  | nil => exact ⟨s, rfl, hs⟩
  | cons a rest ih =>
    obtain ⟨next, ha, hnext⟩ := hstep s a hs hP.1
    obtain ⟨t, hrun, ht⟩ := ih hnext (hP.2 next ha)
    exact ⟨t, run_cons_eq_some.mpr ⟨next, ha, hrun⟩, ht⟩

/-- The property holds in every state that a run of the schedule passes through. -/
def Always (step : σ → α → Option σ) (P : σ → Prop) (s : σ) (steps : List α) : Prop :=
  ∀ before after middle, steps = before ++ after → run step s before = some middle → P middle

/-- A property holds always along a nonempty schedule when it holds now and always after its first step. -/
theorem always_cons {P : σ → Prop} {s next : σ} {a : α} {rest : List α} (ha : step s a = some next) :
    Always step P s (a :: rest) ↔ P s ∧ Always step P next rest := by
  constructor
  · intro h
    refine ⟨h [] (a :: rest) s rfl rfl, fun before after middle hsplit hrun => ?_⟩
    exact h (a :: before) after middle (by rw [hsplit]; rfl) (run_cons_eq_some.mpr ⟨next, ha, hrun⟩)
  · rintro ⟨hnow, hrest⟩ before after middle hsplit hrun
    cases before with
    | nil => exact Option.some.inj hrun ▸ hnow
    | cons first before =>
      obtain ⟨rfl, hrest'⟩ := List.cons.inj hsplit
      obtain ⟨next', hfirst, hrun'⟩ := run_cons_eq_some.mp hrun
      obtain rfl : next = next' := Option.some.inj (ha.symm.trans hfirst)
      exact hrest before after middle hrest' hrun'

/-- An invariant of the permitted steps holds in every state of a run of permitted steps. -/
theorem always_of_along (Inv : σ → Prop) {P : σ → α → Prop}
    (hstep : ∀ s a next, Inv s → P s a → step s a = some next → Inv next)
    {s : σ} {steps : List α} (hs : Inv s) (hP : Along step P s steps) : Always step Inv s steps := by
  intro before after middle hsplit hrun
  induction before generalizing s steps with
  | nil => exact Option.some.inj hrun ▸ hs
  | cons a before ih =>
    obtain ⟨next, ha, hrest⟩ := run_cons_eq_some.mp hrun
    rw [hsplit] at hP
    exact ih (hstep s a next hs hP.1 ha) (hP.2 next ha) rfl hrest

/-- A property that follows from one that holds always holds always. -/
theorem Always.mono {P Q : σ → Prop} {s : σ} {steps : List α} (h : Always step P s steps)
    (himp : ∀ t, P t → Q t) : Always step Q s steps :=
  fun before after middle hsplit hrun => himp middle (h before after middle hsplit hrun)

/-- When a step keeps a property exactly if it is permitted, the property holds always along a run
exactly if every step is permitted. -/
theorem always_iff_along (Inv Keep : σ → Prop) {P : σ → α → Prop}
    (hinv : ∀ s a next, Inv s → step s a = some next → Inv next)
    (hkeep : ∀ s a next, Inv s → Keep s → step s a = some next → (Keep next ↔ P s a))
    {s t : σ} {steps : List α} (hs : Inv s) (hk : Keep s) (h : run step s steps = some t) :
    Always step Keep s steps ↔ Along step P s steps := by
  induction steps generalizing s with
  | nil =>
    refine ⟨fun _ => trivial, fun _ before after middle hsplit hrun => ?_⟩
    obtain ⟨rfl, -⟩ := List.append_eq_nil_iff.mp hsplit.symm
    exact Option.some.inj hrun ▸ hk
  | cons a rest ih =>
    obtain ⟨next, ha, hrest⟩ := run_cons_eq_some.mp h
    have hnext := ih (hinv s a next hs ha)
    rw [always_cons ha]
    constructor
    · rintro ⟨-, hlater⟩
      have hkeepNext : Keep next := hlater [] rest next rfl rfl
      refine ⟨(hkeep s a next hs hk ha).mp hkeepNext, fun next' ha' => ?_⟩
      obtain rfl : next = next' := Option.some.inj (ha.symm.trans ha')
      exact (hnext hkeepNext hrest).mp hlater
    · rintro ⟨hpermitted, hlater⟩
      exact ⟨hk, (hnext ((hkeep s a next hs hk ha).mpr hpermitted) hrest).mpr (hlater next ha)⟩

/-- Checking a step condition along a schedule is decidable when it is decidable at each step. -/
instance Along.decidable (P : σ → α → Prop) [∀ s a, Decidable (P s a)] :
    ∀ (s : σ) (steps : List α), Decidable (Along step P s steps)
  | _, [] => isTrue trivial
  | s, a :: rest =>
    match h : step s a with
    | none => decidable_of_iff (P s a) ⟨fun hp => ⟨hp, by simp [h]⟩, fun hp => hp.1⟩
    | some next =>
      have := Along.decidable P next rest
      decidable_of_iff (P s a ∧ Along step P next rest)
        ⟨fun hp => ⟨hp.1, fun _ hn => (Option.some.inj (h.symm.trans hn)) ▸ hp.2⟩,
          fun hp => ⟨hp.1, hp.2 next h⟩⟩

end StepSystem
