import LoveCoupons.CouponOrder

/-!
# Operations that overtake each other

An update writes in a callback, so an operation that was issued earlier may write after one that
was issued later. Each operation writes at most once. In a run that issues no operation after a
given one, the write of that operation stays the last exactly when no step of the run lets
another operation overtake it.
-/

namespace LoveCoupons

open Reactive StepSystem

/-- The operations in the order of their writes. -/
def Client.writers (s : Client) : List ℕ :=
  (s.journal.filter fun entry => entry.2.1.isWrite).map Prod.fst

/-- An operation has written when its write is in the journal. -/
theorem Client.mem_writers {s : Client} {i : ℕ} :
    i ∈ s.writers ↔ ∃ call, (i, call) ∈ s.journal ∧ call.1.isWrite = true := by
  unfold Client.writers
  simp only [List.mem_map, List.mem_filter]
  constructor
  · rintro ⟨⟨j, call⟩, ⟨hentry, hwrite⟩, rfl⟩
    exact ⟨call, hentry, hwrite⟩
  · rintro ⟨call, hentry, hwrite⟩
    exact ⟨(i, call), ⟨hentry, hwrite⟩, rfl⟩

/-- The database writes are the calls that take effect at once. -/
theorem immediate_eq_isWrite (call : Call) : Backend.service.immediate call = call.isWrite := by
  cases call <;> rfl

/-- An operation that is about to write has not written. -/
theorem IsOrigin.hasWritten_eq_false {uid key : Key} {op : Issued} {r : ApiRequest}
    (horigin : IsOrigin uid key op r.origin) (habout : aboutToWrite r = true) : hasWritten r = false := by
  unfold aboutToWrite at habout
  split at habout
  · rename_i call next hrest
    unfold hasWritten Request.made
    cases op with
    | update image description =>
      obtain ⟨coupon, data, -, hchain⟩ := horigin
      rcases call_of_updateCouponChain hchain hrest with ⟨-, rfl⟩ | ⟨upload, -, rfl⟩ |
        ⟨upload, fetch, url, hanswers, -, -⟩
      · cases habout
      · cases habout
      · rw [hchain, hanswers]
        simp [updateCouponChain, Call.isWrite]
    | delete =>
      rw [(horigin.call hrest).2.2 rfl]
      simp
  · cases habout

section Writers

variable {b₀ : Backend} {uid key : Key} {s next : Client}

/-- The operations that have written, as the journal and the requests tell it. -/
theorem Client.Ordered.hasWritten_iff (hs : s.Ordered b₀ uid key) (i : ℕ) :
    (s.requests[i]?.any fun entry => hasWritten entry.2) = true ↔ i ∈ s.writers := by
  rw [Client.mem_writers, Option.any_eq_true]
  simp only [hasWritten, List.any_eq_true]
  constructor
  · rintro ⟨⟨op, r⟩, hget, call, hmade, hwrite⟩
    exact ⟨call, hs.journaled.mem_journal hget hmade, hwrite⟩
  · rintro ⟨call, hentry, hwrite⟩
    obtain ⟨op, r, hget, hmade⟩ := hs.journaled.exists_made hentry
    exact ⟨(op, r), hget, call, hmade, hwrite⟩

/-- The writers after the journal grew by one call. -/
theorem Client.writers_of_journal {i : ℕ} {call : Call} {a : Answer}
    (h : next.journal = s.journal ++ [(i, call, a)]) :
    next.writers = s.writers ++ if call.isWrite then [i] else [] := by
  unfold Client.writers
  rw [h, List.filter_append, List.map_append]
  cases hwrite : call.isWrite <;> simp [hwrite]

/-- What a step does to the writers: nothing, or the issued operation writes, or the callback lets an
operation write that has not written yet. -/
inductive Client.Writes (s next : Client) : ClientStep → Prop where
  | idle {step : ClientStep} (hsame : next.writers = s.writers) (hstep : ∀ last, notOvertaken last s step = true) :
      Writes s next step
  | issue {step : ClientStep} (hnew : next.writers = s.writers ++ [s.requests.length])
      (hlength : next.requests.length = s.requests.length + 1)
      (hstep : ∀ last, notOvertaken last s step = true) : Writes s next step
  | callback {i : ℕ} {a : Answer} (hnew : next.writers = s.writers ++ [i]) (hfirst : i ∉ s.writers)
      (habout : (s.requests[i]?.any fun entry => aboutToWrite entry.2) = true) :
      Writes s next (.progress i (.callback a))

/-- A callback with which its operation does not write overtakes nobody. -/
theorem notOvertaken_callback {i : ℕ} {op : Issued} {r : ApiRequest} (hget : s.requests[i]? = some (op, r))
    (hnot : aboutToWrite r = false) (a : Answer) (last : ℕ) :
    notOvertaken last s (.progress i (.callback a)) = true := by
  simp [notOvertaken, hget, hnot]

/-- Starting an operation writes at once or not at all. -/
theorem Client.writes_subscribe {op : Issued} {publisher : ApiPublisher} {a : Answer}
    (h : s.subscribe Backend.service op publisher a = some next) {step : ClientStep}
    (hstep : ∀ last, notOvertaken last s step = true) : s.Writes next step := by
  obtain ⟨b, r, hsub, rfl⟩ := Pool.subscribe_cases h
  rcases Pool.journal_add_cases hsub with ⟨-, -, hjournal⟩ |
    ⟨call, next, -, himm, -, -, hjournal⟩
  · exact .idle (by rw [Client.writers, hjournal, Client.writers]) hstep
  · have hwrite : call.isWrite = true := by rw [← immediate_eq_isWrite, himm]
    refine .issue ?_ (by simp [Pool.add]) hstep
    rw [Client.writers_of_journal hjournal, hwrite, if_pos rfl]

/-- What a step of an operation does to the writers. -/
theorem Client.Ordered.writes_progress (hs : s.Ordered b₀ uid key) {i : ℕ} {p : Progress Answer}
    (h : s.advance Backend.service timeoutError i p = some next) : s.Writes next (.progress i p) := by
  obtain ⟨op, r, b, r', hget, hadvance, rfl⟩ := Pool.advance_cases h
  have hmem := List.mem_of_getElem? hget
  have hidle : r'.origin = r.origin → r'.answers = r.answers →
      Client.writers (s.update i op b r r') = s.writers := by
    intro horigin hanswers
    rw [Client.writers, Pool.journal_update_idle s i op b horigin hanswers, Client.writers]
  cases Request.advance_cases hadvance with
  | @answer a call next _ hphase hrest hrespond =>
    have hwrite : call.isWrite = false := by
      rw [← immediate_eq_isWrite]
      exact hs.waiting _ hmem hphase call next hrest
    refine .idle ?_ fun _ => rfl
    rw [Client.writers_of_journal (Pool.journal_update_answered s i op b hrest a), hwrite]
    simp
  | callback hphase hproceed =>
    cases hproceed with
    | resolve hrest =>
      exact .idle (hidle rfl rfl) (notOvertaken_callback hget (by simp [aboutToWrite, hrest]) _)
    | await hrest himm =>
      rw [immediate_eq_isWrite] at himm
      exact .idle (hidle rfl rfl) (notOvertaken_callback hget (by simp [aboutToWrite, hrest, himm]) _)
    | act hrest himm hrespond =>
      rw [immediate_eq_isWrite] at himm
      have habout : aboutToWrite r = true := by simp [aboutToWrite, hrest, himm]
      refine .callback ?_ ?_ (by simp [hget, habout])
      · rw [Client.writers_of_journal (Pool.journal_update_answered s i op b hrest _), himm, if_pos rfl]
      · rw [← hs.hasWritten_iff, hget]
        simp [(hs.origins _ hmem).hasWritten_eq_false habout]
  | timeout _ => exact .idle (hidle rfl rfl) fun _ => rfl
  | deliver _ => exact .idle (hidle rfl rfl) fun _ => rfl
  | cancel => exact .idle (hidle rfl rfl) fun _ => rfl

/-- What a step of the client does to the writers. -/
theorem Client.Ordered.writes_step (hs : s.Ordered b₀ uid key) {step : ClientStep}
    (h : s.step key step = some next) : s.Writes next step := by
  cases step with
  | updateCoupon object fresh coupon data a =>
    simp only [Client.step, hs.user] at h
    split at h
    · cases h
      exact .idle rfl fun _ => rfl
    · split at h
      · exact Client.writes_subscribe h fun _ => rfl
      · contradiction
  | deleteCoupon coupon a =>
    simp only [Client.step, hs.user, deleteCoupon] at h
    exact Client.writes_subscribe h fun _ => rfl
  | progress i p => exact hs.writes_progress h

/-- Once this operation has written, nobody has written after it. -/
def Client.WroteLast (last : ℕ) (s : Client) : Prop := last ∈ s.writers → s.writers.getLast? = some last

/-- As long as no operation after this one is issued, a step keeps its write the last one exactly when it
does not let another operation overtake it. -/
theorem Client.Ordered.wroteLast_step (hs : s.Ordered b₀ uid key) {step : ClientStep} {last : ℕ}
    (h : s.step key step = some next) (hlength : next.requests.length ≤ last + 1) :
    next.WroteLast last ↔ s.WroteLast last ∧ notOvertaken last s step = true := by
  unfold Client.WroteLast
  cases hs.writes_step h with
  | idle hsame hstep => simp [hsame, hstep]
  | issue hnew hissued hstep =>
    have hnot : last ∉ s.writers := by
      intro hmem
      obtain ⟨call, hentry, -⟩ := Client.mem_writers.mp hmem
      have := hs.journaled.bounded _ hentry
      omega
    rw [hnew, hstep]
    simp [hnot, eq_comm]
  | @callback i a hnew hfirst habout =>
    by_cases hi : i = last
    · subst hi
      rw [hnew]
      simp [hfirst, notOvertaken]
    · have hwritten : notOvertaken last s (.progress i (.callback a)) = true ↔ last ∉ s.writers := by
        rw [← hs.hasWritten_iff]
        simp [notOvertaken, hi, habout]
      rw [hnew, hwritten]
      have hne : ¬ last = i := fun heq => hi heq.symm
      simp only [List.mem_append, List.mem_singleton, hne, or_false, List.getLast?_concat, Option.some.injEq, hi]
      tauto

/-- A step of the client forgets no operation. -/
theorem Client.length_step {step : ClientStep} (h : s.step key step = some next) :
    s.requests.length ≤ next.requests.length := by
  have hsubscribe : ∀ op publisher a, s.subscribe Backend.service op publisher a = some next →
      s.requests.length ≤ next.requests.length := by
    intro op publisher a hstart
    obtain ⟨b, r, -, rfl⟩ := Pool.subscribe_cases hstart
    simp [Pool.add]
  cases step with
  | updateCoupon object fresh coupon data a =>
    simp only [Client.step] at h
    split at h
    · exact (Option.some.inj h ▸ le_refl _)
    · split at h
      · exact (Option.some.inj h ▸ le_refl _)
      · split at h
        · exact hsubscribe _ _ _ h
        · contradiction
  | deleteCoupon coupon a =>
    simp only [Client.step] at h
    split at h
    · exact (Option.some.inj h ▸ le_refl _)
    · exact hsubscribe _ _ _ h
  | progress i p =>
    obtain ⟨op, r, b, r', -, -, rfl⟩ := Pool.advance_cases h
    simp [Pool.update]

/-- In a run that issues no operation after this one, its write stays the last exactly when no step lets
another operation overtake it. -/
theorem Client.Ordered.wroteLast_run (hs : s.Ordered b₀ uid key) {steps : List ClientStep} {t : Client}
    {last : ℕ} (h : run (Client.step key) s steps = some t) (hlength : t.requests.length ≤ last + 1) :
    t.WroteLast last ↔ s.WroteLast last ∧
      Along (Client.step key) (fun s a => notOvertaken last s a = true) s steps := by
  induction steps generalizing s with
  | nil =>
    cases h
    simp [Along]
  | cons step rest ih =>
    obtain ⟨middle, hstep, hrest⟩ := run_cons_eq_some.mp h
    have hmiddle : middle.requests.length ≤ t.requests.length :=
      run_invariant (fun t : Client => middle.requests.length ≤ t.requests.length)
        (fun _ _ _ hle hnext => hle.trans (Client.length_step hnext)) (le_refl _) hrest
    rw [ih (hs.step hstep) hrest, hs.wroteLast_step hstep (hmiddle.trans hlength), and_assoc]
    simp [Along, hstep]

end Writers

end LoveCoupons
