import Mathlib.Data.List.Basic

/-!
# Chains of service calls

A chain makes one call after the other, each continuing from the answer of the one before it,
and ends with one result. The answers received so far determine what is left of it. A service
decides how a call acts on its state, and which of its calls take effect when they are made.
-/

namespace Reactive

variable {B Call Answer R : Type}

/-- A chain of calls, each continuing from its answer, ended by one result. -/
inductive Chain (Call Answer R : Type) where
  | done (result : R)
  | call (request : Call) (next : Answer → Chain Call Answer R)

namespace Chain

/-- What is left of a chain after its first answers. -/
def resume : Chain Call Answer R → List Answer → Option (Chain Call Answer R)
  | chain, [] => some chain
  | .done _, _ :: _ => none
  | .call _ next, a :: rest => resume (next a) rest

/-- Without an answer, a chain stays where it is. -/
@[simp] theorem resume_nil (chain : Chain Call Answer R) : chain.resume [] = some chain := by
  cases chain <;> rfl

/-- A chain that is done takes no answer. -/
@[simp] theorem resume_done_cons (result : R) (a : Answer) (rest : List Answer) :
    (Chain.done result : Chain Call Answer R).resume (a :: rest) = none := rfl

/-- An answer to a call leads to what comes next. -/
@[simp] theorem resume_call_cons (c : Call) (next : Answer → Chain Call Answer R) (a : Answer)
    (rest : List Answer) : (Chain.call c next).resume (a :: rest) = (next a).resume rest := rfl

/-- Answers received in two parts. -/
theorem resume_append (chain : Chain Call Answer R) (first second : List Answer) :
    chain.resume (first ++ second) = (chain.resume first).bind fun rest => rest.resume second := by
  induction first generalizing chain with
  | nil => simp
  | cons a first ih =>
    cases chain with
    | done result => rfl
    | call c next => exact ih (next a)

/-- One more answer continues the call that was waiting for it. -/
theorem resume_concat {chain : Chain Call Answer R} {answers : List Answer} {c : Call}
    {next : Answer → Chain Call Answer R} (h : chain.resume answers = some (.call c next))
    (a : Answer) : chain.resume (answers ++ [a]) = some (next a) := by
  rw [resume_append, h]
  exact resume_nil (next a)

end Chain

/-- How a service acts on its state, and which of its calls take effect when they are made.
An answer the service cannot give in its present state has no successor. -/
structure Service (B Call Answer : Type) where
  respond : B → Call → Answer → Option B
  immediate : Call → Bool

/-- The service state and the rest of a chain after the given answers, with nothing else running. -/
def Service.drive (svc : Service B Call Answer) :
    B → Chain Call Answer R → List Answer → Option (B × Chain Call Answer R)
  | b, chain, [] => some (b, chain)
  | _, .done _, _ :: _ => none
  | b, .call c next, a :: rest => (svc.respond b c a).bind fun b' => svc.drive b' (next a) rest

/-- Without an answer, nothing happens. -/
@[simp] theorem Service.drive_nil (svc : Service B Call Answer) (b : B)
    (chain : Chain Call Answer R) : svc.drive b chain [] = some (b, chain) := by
  cases chain <;> rfl

/-- A chain that is done is answered nothing. -/
@[simp] theorem Service.drive_done_cons (svc : Service B Call Answer) (b : B) (result : R) (a : Answer)
    (rest : List Answer) :
    svc.drive b (.done result : Chain Call Answer R) (a :: rest) = none := rfl

/-- An answer changes the service and leads to what comes next. -/
@[simp] theorem Service.drive_call_cons (svc : Service B Call Answer) (b : B) (c : Call)
    (next : Answer → Chain Call Answer R) (a : Answer) (rest : List Answer) :
    svc.drive b (.call c next) (a :: rest) =
      (svc.respond b c a).bind fun b' => svc.drive b' (next a) rest := rfl

/-- Driving a chain by one more answer. -/
theorem Service.drive_concat (svc : Service B Call Answer) {b b' b'' : B}
    {chain : Chain Call Answer R} {answers : List Answer} {c : Call}
    {next : Answer → Chain Call Answer R} {a : Answer}
    (h : svc.drive b chain answers = some (b', .call c next)) (ha : svc.respond b' c a = some b'') :
    svc.drive b chain (answers ++ [a]) = some (b'', next a) := by
  induction answers generalizing b chain with
  | nil =>
    rw [drive_nil, Option.some.injEq, Prod.mk.injEq] at h
    obtain ⟨rfl, rfl⟩ := h
    simp [ha]
  | cons first rest ih =>
    cases chain with
    | done result => simp at h
    | call c₀ next₀ =>
      rw [drive_call_cons, Option.bind_eq_some_iff] at h
      obtain ⟨b₁, hb₁, h⟩ := h
      rw [List.cons_append, drive_call_cons, hb₁]
      exact ih h

/-- The chain is left as its answers leave it. -/
theorem Service.resume_of_drive (svc : Service B Call Answer) {b b' : B}
    {chain rest : Chain Call Answer R} {answers : List Answer}
    (h : svc.drive b chain answers = some (b', rest)) : chain.resume answers = some rest := by
  induction answers generalizing b chain with
  | nil =>
    rw [drive_nil, Option.some.injEq, Prod.mk.injEq] at h
    rw [Chain.resume_nil, h.2]
  | cons a more ih =>
    cases chain with
    | done result => simp at h
    | call c next =>
      rw [drive_call_cons, Option.bind_eq_some_iff] at h
      obtain ⟨b₁, -, hmore⟩ := h
      rw [Chain.resume_call_cons]
      exact ih hmore

/-- A chain of one call is still waiting or was answered once. -/
theorem Chain.resume_single_cases {c : Call} {next : Answer → Chain Call Answer R}
    {rest : Chain Call Answer R} {answers : List Answer} (hnext : ∀ a, ∃ result, next a = .done result)
    (h : (Chain.call c next).resume answers = some rest) :
    (answers = [] ∧ rest = .call c next) ∨ ∃ a, answers = [a] ∧ rest = next a := by
  cases answers with
  | nil => exact .inl ⟨rfl, (Option.some.inj h).symm⟩
  | cons a more =>
    rw [Chain.resume_call_cons] at h
    cases more with
    | nil =>
      rw [Chain.resume_nil] at h
      exact .inr ⟨a, rfl, (Option.some.inj h).symm⟩
    | cons a' more =>
      obtain ⟨result, hdone⟩ := hnext a
      rw [hdone] at h
      cases h

/-- The service state beside a chain of one call. -/
theorem Service.drive_single_cases (svc : Service B Call Answer) {b b' : B} {c : Call}
    {next : Answer → Chain Call Answer R} {rest : Chain Call Answer R} {answers : List Answer}
    (hnext : ∀ a, ∃ result, next a = .done result)
    (h : svc.drive b (.call c next) answers = some (b', rest)) :
    (answers = [] ∧ b' = b ∧ rest = .call c next) ∨
      ∃ a, answers = [a] ∧ svc.respond b c a = some b' ∧ rest = next a := by
  rcases Chain.resume_single_cases hnext (svc.resume_of_drive h) with ⟨rfl, rfl⟩ | ⟨a, rfl, rfl⟩
  · rw [drive_nil] at h
    cases h
    exact .inl ⟨rfl, rfl, rfl⟩
  · rw [drive_call_cons, Option.bind_eq_some_iff] at h
    obtain ⟨b₁, hrespond, hend⟩ := h
    rw [drive_nil] at hend
    cases hend
    exact .inr ⟨a, rfl, hrespond, rfl⟩

end Reactive
