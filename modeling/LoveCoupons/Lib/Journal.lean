import LoveCoupons.Lib.RequestPool
import LoveCoupons.Lib.Runs

/-!
# The journal of a pool

The service state is the result of replaying the journal of the answered calls, and the part
of the journal that belongs to one request is the trace of its chain.
-/

namespace Reactive

variable {B Call Answer V E T : Type}

namespace Pool

/-- The state after a service has answered the calls of a journal. -/
def replay (svc : Service B Call Answer) (b : B) (journal : List (ℕ × Call × Answer)) : Option B :=
  StepSystem.run (fun b entry => svc.respond b entry.2.1 entry.2.2) b journal

/-- What the journal says: replaying it gives the service state, and the entries of each request are
its trace. -/
structure Journaled (svc : Service B Call Answer) (start : B) (pool : Pool B Call Answer V E T) : Prop where
  replayed : replay svc start pool.journal = some pool.backend
  entries : ∀ i tag r, pool.requests[i]? = some (tag, r) →
    (pool.journal.filter fun entry => entry.1 = i).map Prod.snd = r.made
  bounded : ∀ entry ∈ pool.journal, entry.1 < pool.requests.length

/-- An empty pool is journaled. -/
theorem journaled_empty (svc : Service B Call Answer) (b : B) :
    (empty b : Pool B Call Answer V E T).Journaled svc b :=
  ⟨rfl, by simp [empty], by simp [empty]⟩

/-- Replaying the calls answered in one step. -/
theorem replay_acts {svc : Service B Call Answer} {start b b' : B} {journal : List (ℕ × Call × Answer)}
    {r r' : Request Call Answer V E} (i : ℕ) (hjournal : replay svc start journal = some b)
    (h : Request.Acts svc b r b' r') :
    replay svc start (journal ++ (r'.made.drop r.made.length).map fun call => (i, call)) = some b' := by
  cases h with
  | idle horigin hanswers =>
    have hmade : r'.made = r.made := by rw [Request.made, Request.made, horigin, hanswers]
    rw [hmade, List.drop_length, List.map_nil, List.append_nil]
    exact hjournal
  | reply hrest hrespond =>
    rw [Request.made_answered hrest, List.drop_left]
    exact StepSystem.run_concat hjournal hrespond

/-- The entries of one request in a journal that grew by entries of one request. -/
theorem filter_journal_append (journal : List (ℕ × Call × Answer)) (calls : List (Call × Answer)) (i j : ℕ) :
    ((journal ++ calls.map fun call => (i, call)).filter fun entry => entry.1 = j).map Prod.snd =
      ((journal.filter fun entry => entry.1 = j).map Prod.snd) ++ if i = j then calls else [] := by
  rw [List.filter_append, List.map_append]
  congr 1
  by_cases hij : i = j
  · subst hij
    rw [if_pos rfl]
    induction calls with
    | nil => rfl
    | cons call rest ih =>
      rw [List.map_cons, List.filter_cons_of_pos (by simp), List.map_cons, ih]
  · rw [if_neg hij]
    simp [List.filter_map, Function.comp_def, hij]

/-- Taking a step keeps the journal right. -/
theorem Journaled.update {svc : Service B Call Answer} {start b : B} {pool : Pool B Call Answer V E T}
    (hp : pool.Journaled svc start) {i : ℕ} {tag : T} {r r' : Request Call Answer V E}
    (hget : pool.requests[i]? = some (tag, r)) (h : Request.Acts svc pool.backend r b r') :
    (pool.update i tag b r r').Journaled svc start := by
  have hi : i < pool.requests.length := (List.getElem?_eq_some_iff.mp hget).1
  refine ⟨replay_acts i hp.replayed h, fun j tag' other hother => ?_, fun entry hentry => ?_⟩
  · change (pool.requests.set i (tag, r'))[j]? = some (tag', other) at hother
    unfold Pool.update
    rw [filter_journal_append]
    rcases Replace.getElem?_set_cases hother with ⟨rfl, hmoved⟩ | ⟨hji, hold⟩
    · cases hmoved
      rw [if_pos rfl, hp.entries j tag r hget]
      exact h.made_drop.symm
    · rw [if_neg (Ne.symm hji), List.append_nil]
      exact hp.entries j tag' other hold
  · change entry.1 < (pool.requests.set i (tag, r')).length
    rw [List.length_set]
    rcases List.mem_append.mp hentry with hold | hnew
    · exact hp.bounded entry hold
    · obtain ⟨call, -, rfl⟩ := List.mem_map.mp hnew
      exact hi

/-- Starting a request keeps the journal right. -/
theorem Journaled.add {svc : Service B Call Answer} {start b : B} {pool : Pool B Call Answer V E T}
    (hp : pool.Journaled svc start) {tag : T} {publisher : Publisher Call Answer V E} {a : Answer}
    {r : Request Call Answer V E}
    (h : Request.subscribe svc pool.backend publisher a = some (b, r)) :
    (pool.add tag b r).Journaled svc start := by
  have hnone : ((pool.journal.filter fun entry => entry.1 = pool.requests.length).map Prod.snd) = [] := by
    rw [List.map_eq_nil_iff, List.filter_eq_nil_iff]
    intro entry hentry
    have := hp.bounded entry hentry
    simp
    omega
  refine ⟨?_, fun j tag' other hother => ?_, fun entry hentry => ?_⟩
  · rcases Request.subscribe_cases h with ⟨error, -, rfl, rfl⟩ | ⟨chain, -, hproceeds⟩
    · have hmade : (Request.refused error : Request Call Answer V E).made = [] := rfl
      unfold Pool.add
      rw [hmade, List.map_nil, List.append_nil]
      exact hp.replayed
    · have hmade : (Request.unstarted chain : Request Call Answer V E).made = [] := Chain.trace_nil chain
      have hreplay := replay_acts pool.requests.length hp.replayed hproceeds.acts
      rw [hmade] at hreplay
      exact hreplay
  · change (pool.requests ++ [(tag, r)])[j]? = some (tag', other) at hother
    unfold Pool.add
    rw [filter_journal_append]
    rcases Replace.getElem?_concat_cases hother with ⟨hlt, hold⟩ | ⟨rfl, hnew⟩
    · rw [if_neg (by omega), List.append_nil]
      exact hp.entries j tag' other hold
    · cases hnew
      rw [if_pos rfl, hnone]
      rfl
  · change entry.1 < (pool.requests ++ [(tag, r)]).length
    rw [List.length_append, List.length_singleton]
    rcases List.mem_append.mp hentry with hold | hnew
    · have := hp.bounded entry hold
      omega
    · obtain ⟨call, -, rfl⟩ := List.mem_map.mp hnew
      change pool.requests.length < pool.requests.length + 1
      omega

/-- A step without an answer leaves the journal as it was. -/
theorem journal_update_idle (pool : Pool B Call Answer V E T) (i : ℕ) (tag : T) (b : B)
    {r r' : Request Call Answer V E} (horigin : r'.origin = r.origin) (hanswers : r'.answers = r.answers) :
    (pool.update i tag b r r').journal = pool.journal := by
  have hmade : r'.made = r.made := by rw [Request.made, Request.made, horigin, hanswers]
  rw [Pool.update, hmade, List.drop_length, List.map_nil, List.append_nil]

/-- A step with an answer adds the answered call to the journal. -/
theorem journal_update_answered (pool : Pool B Call Answer V E T) (i : ℕ) (tag : T) (b : B)
    {r : Request Call Answer V E} {c : Call} {next : Answer → Chain Call Answer (Except E V)}
    (hrest : r.rest = some (.call c next)) (a : Answer) :
    (pool.update i tag b r (r.answered a)).journal = pool.journal ++ [(i, c, a)] := by
  rw [Pool.update, Request.made_answered hrest, List.drop_left]
  rfl

/-- The journal after a start: as before, or with the one call that took effect at once. -/
theorem journal_add_cases {svc : Service B Call Answer} {pool : Pool B Call Answer V E T} {tag : T} {b b' : B}
    {publisher : Publisher Call Answer V E} {a : Answer} {r : Request Call Answer V E}
    (h : Request.subscribe svc b publisher a = some (b', r)) :
    (b' = b ∧ r.answers = [] ∧ (pool.add tag b' r).journal = pool.journal) ∨
      ∃ c next, publisher = .future (.call c next) ∧ svc.immediate c = true ∧ svc.respond b c a = some b' ∧
        r = (Request.unstarted (.call c next)).answered a ∧
        (pool.add tag b' r).journal = pool.journal ++ [(pool.requests.length, c, a)] := by
  unfold Pool.add
  rcases Request.subscribe_cases h with ⟨error, -, rfl, rfl⟩ | ⟨chain, rfl, hproceeds⟩
  · exact .inl ⟨rfl, rfl, by simp [Request.made, Request.refused]⟩
  · cases hproceeds with
    | resolve _ => exact .inl ⟨rfl, rfl, by simp [Request.made, Request.resolved, Request.unstarted]⟩
    | @act c next _ hrest himm hrespond =>
      have hchain : chain = .call c next := Option.some.inj ((Chain.resume_nil chain).symm.trans hrest)
      subst hchain
      refine .inr ⟨c, next, rfl, himm, hrespond, rfl, ?_⟩
      rw [Request.made_answered hrest]
      rfl
    | await _ _ => exact .inl ⟨rfl, rfl, by simp [Request.made, Request.unstarted]⟩

/-- An answered call was made by the request at its position. -/
theorem Journaled.exists_made {svc : Service B Call Answer} {start : B} {pool : Pool B Call Answer V E T}
    (hp : pool.Journaled svc start) {i : ℕ} {call : Call × Answer} (h : (i, call) ∈ pool.journal) :
    ∃ tag r, pool.requests[i]? = some (tag, r) ∧ call ∈ r.made := by
  have hi := hp.bounded _ h
  obtain ⟨⟨tag, r⟩, hget⟩ : ∃ entry, pool.requests[i]? = some entry := ⟨_, List.getElem?_eq_getElem hi⟩
  refine ⟨tag, r, hget, ?_⟩
  rw [← hp.entries i tag r hget]
  exact List.mem_map.mpr ⟨(i, call), List.mem_filter.mpr ⟨h, by simp⟩, rfl⟩

/-- The calls of a request are in the journal. -/
theorem Journaled.mem_journal {svc : Service B Call Answer} {start : B} {pool : Pool B Call Answer V E T}
    (hp : pool.Journaled svc start) {i : ℕ} {tag : T} {r : Request Call Answer V E}
    (hget : pool.requests[i]? = some (tag, r)) {call : Call × Answer} (h : call ∈ r.made) :
    (i, call) ∈ pool.journal := by
  rw [← hp.entries i tag r hget] at h
  obtain ⟨⟨j, call'⟩, hentry, rfl⟩ := List.mem_map.mp h
  obtain ⟨hmem, hj⟩ := List.mem_filter.mp hentry
  obtain rfl : j = i := by simpa using hj
  exact hmem

/-- The last entry of a kind: no entry of that kind comes after it. -/
theorem split_of_getLast?_filter {α : Type} {p : α → Bool} {l : List α} {last : α}
    (h : (l.filter p).getLast? = some last) :
    ∃ before after, l = before ++ last :: after ∧ p last = true ∧ ∀ x ∈ after, p x = false := by
  induction l using List.reverseRecOn with
  | nil => cases h
  | append_singleton l x ih =>
    rw [List.filter_append] at h
    cases hx : p x with
    | true =>
      rw [List.filter_cons_of_pos hx, List.filter_nil, List.getLast?_concat, Option.some.injEq] at h
      subst h
      exact ⟨l, [], rfl, hx, by simp⟩
    | false =>
      rw [List.filter_cons_of_neg (by simp [hx]), List.filter_nil, List.append_nil] at h
      obtain ⟨before, after, rfl, hlast, hafter⟩ := ih h
      refine ⟨before, after ++ [x], by simp, hlast, ?_⟩
      intro y hy
      rcases List.mem_append.mp hy with hold | hnew
      · exact hafter y hold
      · rw [List.mem_singleton.mp hnew]
        exact hx

end Pool

end Reactive
