import LoveCoupons.Lib.Replace
import LoveCoupons.Lib.RequestValid

/-!
# Pools of requests

Any number of requests run against one service, their steps interleaved in any order. A pool
keeps the service state, the requests in the order in which they were started, each under a
tag, and a journal of the calls in the order in which the service answered them.
-/

namespace Reactive

variable {B Call Answer R V E T : Type}

/-- The calls that a chain makes with their answers. -/
def Chain.trace : Chain Call Answer R → List Answer → List (Call × Answer)
  | .call c next, a :: rest => (c, a) :: (next a).trace rest
  | _, _ => []

@[simp] theorem Chain.trace_nil (chain : Chain Call Answer R) : chain.trace [] = [] := by
  cases chain <;> rfl

@[simp] theorem Chain.trace_call_cons (c : Call) (next : Answer → Chain Call Answer R) (a : Answer)
    (rest : List Answer) : (Chain.call c next).trace (a :: rest) = (c, a) :: (next a).trace rest := rfl

/-- One more answer is the answer of the call that was waiting for it. -/
theorem Chain.trace_concat {chain : Chain Call Answer R} {answers : List Answer} {c : Call}
    {next : Answer → Chain Call Answer R} (h : chain.resume answers = some (.call c next)) (a : Answer) :
    chain.trace (answers ++ [a]) = chain.trace answers ++ [(c, a)] := by
  induction answers generalizing chain with
  | nil =>
    rw [Chain.resume_nil] at h
    cases h
    rw [List.nil_append, trace_nil, trace_call_cons, trace_nil]
    rfl
  | cons first rest ih =>
    cases chain with
    | done result => simp at h
    | call c₀ next₀ =>
      rw [List.cons_append, trace_call_cons, trace_call_cons, ih h]
      rfl

/-- An answered call was at the head of the chain when its answer came. -/
theorem Chain.exists_resume_of_mem_trace {chain : Chain Call Answer R} {answers : List Answer} {entry : Call × Answer}
    (h : entry ∈ chain.trace answers) : ∃ before after next, answers = before ++ entry.2 :: after ∧
      chain.resume before = some (.call entry.1 next) := by
  induction answers generalizing chain with
  | nil => simp at h
  | cons a rest ih =>
    cases chain with
    | done result => cases h
    | call c next =>
      rcases List.mem_cons.mp h with rfl | hlater
      · exact ⟨[], rest, next, rfl, rfl⟩
      · obtain ⟨before, after, next', rfl, hresume⟩ := ih hlater
        exact ⟨a :: before, after, next', rfl, hresume⟩

namespace Request

/-- The calls that a request has made and that were answered. -/
def made (r : Request Call Answer V E) : List (Call × Answer) := r.origin.trace r.answers

/-- What a step does to the service: nothing, or the answer of the call at the head of what is left. -/
inductive Acts (svc : Service B Call Answer) (b : B) (r : Request Call Answer V E) :
    B → Request Call Answer V E → Prop where
  | idle {r' : Request Call Answer V E} (horigin : r'.origin = r.origin)
      (hanswers : r'.answers = r.answers) : Acts svc b r b r'
  | reply {c : Call} {next : Answer → Chain Call Answer (Except E V)} {a : Answer} {b' : B}
      (hrest : r.rest = some (.call c next)) (hrespond : svc.respond b c a = some b') :
      Acts svc b r b' (r.answered a)

/-- Running the chain answers at most one call. -/
theorem Proceeds.acts {svc : Service B Call Answer} {b b' : B} {r r' : Request Call Answer V E}
    {a : Answer} (h : Proceeds svc b r a b' r') : Acts svc b r b' r' := by
  cases h with
  | resolve _ => exact .idle rfl rfl
  | act hrest _ hrespond => exact .reply hrest hrespond
  | await _ _ => exact .idle rfl rfl

/-- A step answers at most one call. -/
theorem Advances.acts {svc : Service B Call Answer} {late : E} {b b' : B}
    {r r' : Request Call Answer V E} {p : Progress Answer} (h : Advances svc late b r p b' r') :
    Acts svc b r b' r' := by
  cases h with
  | answer _ hrest hrespond => exact .reply hrest hrespond
  | callback _ hproceed => exact hproceed.acts
  | timeout _ => exact .idle rfl rfl
  | deliver _ => exact .idle rfl rfl
  | cancel => exact .idle rfl rfl

/-- A request before its chain has run. -/
def unstarted (chain : Chain Call Answer (Except E V)) : Request Call Answer V E :=
  ⟨chain, [], .replied, .fresh⟩

/-- A request that failed before it made a call. -/
def refused (error : E) : Request Call Answer V E :=
  ⟨.done (.error error), [], .over, ⟨false, [.failure error]⟩⟩

/-- Everything a subscription can start with. -/
theorem subscribe_cases {svc : Service B Call Answer} {b b' : B} {publisher : Publisher Call Answer V E}
    {a : Answer} {r : Request Call Answer V E} (h : subscribe svc b publisher a = some (b', r)) :
    (∃ error, publisher = .fail error ∧ b' = b ∧ r = refused error) ∨
      ∃ chain, publisher = .future chain ∧ Proceeds svc b (unstarted chain) a b' r := by
  cases publisher with
  | fail error =>
    cases h
    exact .inl ⟨error, rfl, rfl, rfl⟩
  | future chain => exact .inr ⟨chain, rfl, proceed_cases h⟩

/-- The trace of a request grows by the answered call. -/
theorem made_answered {r : Request Call Answer V E} {c : Call}
    {next : Answer → Chain Call Answer (Except E V)} (h : r.rest = some (.call c next)) (a : Answer) :
    (r.answered a).made = r.made ++ [(c, a)] := Chain.trace_concat h a

/-- A step adds at most one call to the trace. -/
theorem Acts.made_drop {svc : Service B Call Answer} {b b' : B} {r r' : Request Call Answer V E}
    (h : Acts svc b r b' r') : r'.made = r.made ++ r'.made.drop r.made.length := by
  cases h with
  | idle horigin hanswers =>
    have hmade : r'.made = r.made := by rw [made, made, horigin, hanswers]
    rw [hmade, List.drop_length, List.append_nil]
  | reply hrest _ => rw [made_answered hrest, List.drop_left]

end Request

/-- The requests running against one service. -/
structure Pool (B Call Answer V E T : Type) where
  backend : B
  requests : List (T × Request Call Answer V E)
  journal : List (ℕ × Call × Answer)

namespace Pool

/-- No request has been started. -/
def empty (b : B) : Pool B Call Answer V E T := ⟨b, [], []⟩

/-- Replace one request, with the calls answered in this step. -/
def update (pool : Pool B Call Answer V E T) (i : ℕ) (tag : T) (b : B) (r r' : Request Call Answer V E) :
    Pool B Call Answer V E T :=
  ⟨b, pool.requests.set i (tag, r'),
    pool.journal ++ (r'.made.drop r.made.length).map fun call => (i, call)⟩

/-- Add a request, with the calls answered when it was started. -/
def add (pool : Pool B Call Answer V E T) (tag : T) (b : B) (r : Request Call Answer V E) :
    Pool B Call Answer V E T :=
  ⟨b, pool.requests ++ [(tag, r)], pool.journal ++ r.made.map fun call => (pool.requests.length, call)⟩

/-- Start a request. -/
def subscribe (svc : Service B Call Answer) (pool : Pool B Call Answer V E T) (tag : T)
    (publisher : Publisher Call Answer V E) (a : Answer) : Option (Pool B Call Answer V E T) :=
  (Request.subscribe svc pool.backend publisher a).map fun started => pool.add tag started.1 started.2

/-- Take a step of one request. -/
def advance (svc : Service B Call Answer) (late : E) (pool : Pool B Call Answer V E T) (i : ℕ)
    (p : Progress Answer) : Option (Pool B Call Answer V E T) :=
  pool.requests[i]?.bind fun entry =>
    (entry.2.advance svc late pool.backend p).map fun next => pool.update i entry.1 next.1 entry.2 next.2

/-- What starting a request does. -/
theorem subscribe_cases {svc : Service B Call Answer} {pool pool' : Pool B Call Answer V E T} {tag : T}
    {publisher : Publisher Call Answer V E} {a : Answer}
    (h : pool.subscribe svc tag publisher a = some pool') :
    ∃ b r, Request.subscribe svc pool.backend publisher a = some (b, r) ∧ pool' = pool.add tag b r := by
  obtain ⟨⟨b, r⟩, hstart, rfl⟩ := Option.map_eq_some_iff.mp h
  exact ⟨b, r, hstart, rfl⟩

/-- What a step of a request does. -/
theorem advance_cases {svc : Service B Call Answer} {late : E} {pool pool' : Pool B Call Answer V E T}
    {i : ℕ} {p : Progress Answer} (h : pool.advance svc late i p = some pool') :
    ∃ tag r b r', pool.requests[i]? = some (tag, r) ∧ r.advance svc late pool.backend p = some (b, r') ∧
      pool' = pool.update i tag b r r' := by
  obtain ⟨⟨tag, r⟩, hget, hnext⟩ := Option.bind_eq_some_iff.mp h
  obtain ⟨⟨b, r'⟩, hadvance, rfl⟩ := Option.map_eq_some_iff.mp hnext
  exact ⟨tag, r, b, r', hget, hadvance, rfl⟩

/-- A property of every request holds of every request after a start that gives it to the new one. -/
theorem forall_add {P : T → Request Call Answer V E → Prop} {pool : Pool B Call Answer V E T} {tag : T}
    {b : B} {r : Request Call Answer V E} (hP : ∀ entry ∈ pool.requests, P entry.1 entry.2)
    (hr : P tag r) : ∀ entry ∈ (pool.add tag b r).requests, P entry.1 entry.2 := by
  intro entry hentry
  rcases List.mem_append.mp hentry with hold | hnew
  · exact hP entry hold
  · rw [List.mem_singleton.mp hnew]
    exact hr

/-- A property of every request holds of every request after a step that keeps it for the moved one. -/
theorem forall_update {P : T → Request Call Answer V E → Prop} {pool : Pool B Call Answer V E T} {i : ℕ}
    {tag : T} {b : B} {r r' : Request Call Answer V E} (hP : ∀ entry ∈ pool.requests, P entry.1 entry.2)
    (hr : P tag r') : ∀ entry ∈ (pool.update i tag b r r').requests, P entry.1 entry.2 := by
  intro entry hentry
  rcases List.mem_or_eq_of_mem_set hentry with hold | hnew
  · exact hP entry hold
  · rw [hnew]
    exact hr

/-- The requests after a step: the moved one, and the others at their positions. -/
theorem mem_update_cases {pool : Pool B Call Answer V E T} {i : ℕ} {tag : T} {b : B}
    {r r' : Request Call Answer V E} {entry : T × Request Call Answer V E}
    (h : entry ∈ (pool.update i tag b r r').requests) :
    entry = (tag, r') ∨ ∃ j, j ≠ i ∧ pool.requests[j]? = some entry := Replace.mem_set_cases h

/-- A request with a property is still there after a step that keeps the property of the moved one. -/
theorem exists_update {P : T → Request Call Answer V E → Prop} {pool : Pool B Call Answer V E T} {i : ℕ}
    {tag : T} {b : B} {r r' : Request Call Answer V E} (hget : pool.requests[i]? = some (tag, r))
    (hP : ∃ entry ∈ pool.requests, P entry.1 entry.2) (hkeep : P tag r → P tag r') :
    ∃ entry ∈ (pool.update i tag b r r').requests, P entry.1 entry.2 := by
  obtain ⟨entry, hmem, hentry⟩ := hP
  rcases Replace.eq_or_mem_set hget hmem (tag, r') with rfl | hstays
  · exact ⟨(tag, r'), Replace.mem_set_self hget _, hkeep hentry⟩
  · exact ⟨entry, hstays, hentry⟩

/-- A request with a property is still there after a start. -/
theorem exists_add {P : T → Request Call Answer V E → Prop} {pool : Pool B Call Answer V E T}
    (hP : ∃ entry ∈ pool.requests, P entry.1 entry.2) (tag : T) (b : B) (r : Request Call Answer V E) :
    ∃ entry ∈ (pool.add tag b r).requests, P entry.1 entry.2 := by
  obtain ⟨entry, hmem, hentry⟩ := hP
  exact ⟨entry, List.mem_append_left _ hmem, hentry⟩

/-- The new request is there after a start. -/
theorem mem_add_self (pool : Pool B Call Answer V E T) (tag : T) (b : B) (r : Request Call Answer V E) :
    (tag, r) ∈ (pool.add tag b r).requests := List.mem_append_right _ List.mem_cons_self

/-- The subscribers of the requests with these tags are gone. -/
def cancelWhere (gone : T → Bool) (pool : Pool B Call Answer V E T) : Pool B Call Answer V E T :=
  { pool with
    requests := pool.requests.map fun entry =>
      if gone entry.1 then (entry.1, { entry.2 with subscription := .cancelled }) else entry }

/-- The requests after some subscribers are gone. -/
theorem mem_cancelWhere {gone : T → Bool} {pool : Pool B Call Answer V E T}
    {entry : T × Request Call Answer V E} (h : entry ∈ (pool.cancelWhere gone).requests) :
    (entry ∈ pool.requests ∧ gone entry.1 = false) ∨
      ∃ r, (entry.1, r) ∈ pool.requests ∧ entry.2 = { r with subscription := .cancelled } := by
  obtain ⟨⟨tag, r⟩, hmem, heq⟩ := List.mem_map.mp h
  cases hgone : gone tag with
  | true =>
    rw [if_pos hgone] at heq
    subst heq
    exact .inr ⟨r, hmem, rfl⟩
  | false =>
    rw [if_neg (by simp [hgone])] at heq
    subst heq
    exact .inl ⟨hmem, hgone⟩

/-- A property that cancelling keeps holds of every request after some subscribers are gone. -/
theorem forall_cancelWhere {P : T → Request Call Answer V E → Prop} {gone : T → Bool}
    {pool : Pool B Call Answer V E T} (hP : ∀ entry ∈ pool.requests, P entry.1 entry.2)
    (hcancel : ∀ tag r, P tag r → P tag { r with subscription := .cancelled }) :
    ∀ entry ∈ (pool.cancelWhere gone).requests, P entry.1 entry.2 := by
  intro entry hentry
  rcases mem_cancelWhere hentry with ⟨hmem, -⟩ | ⟨r, hmem, heq⟩
  · exact hP entry hmem
  · rw [heq]
    exact hcancel entry.1 r (hP _ hmem)

/-- A request whose subscriber stays is still there. -/
theorem mem_cancelWhere_of_stays {gone : T → Bool} {pool : Pool B Call Answer V E T}
    {entry : T × Request Call Answer V E} (h : entry ∈ pool.requests) (hstays : gone entry.1 = false) :
    entry ∈ (pool.cancelWhere gone).requests :=
  List.mem_map.mpr ⟨entry, h, by simp [hstays]⟩

/-- The tag of the request at a position. -/
def tagAt (pool : Pool B Call Answer V E T) (i : ℕ) : Option T := pool.requests[i]?.map Prod.fst

/-- The tag of a request that is there. -/
theorem tagAt_of_get {pool : Pool B Call Answer V E T} {i : ℕ} {tag : T} {r : Request Call Answer V E}
    (h : pool.requests[i]? = some (tag, r)) : pool.tagAt i = some tag := by
  rw [tagAt, h]
  rfl

/-- A tag belongs to a request. -/
theorem exists_of_tagAt {pool : Pool B Call Answer V E T} {i : ℕ} {tag : T} (h : pool.tagAt i = some tag) :
    ∃ r, pool.requests[i]? = some (tag, r) := by
  obtain ⟨⟨tag', r⟩, hget, rfl⟩ := Option.map_eq_some_iff.mp h
  exact ⟨r, hget⟩

/-- A step of a request keeps the tags. -/
theorem tagAt_update {pool : Pool B Call Answer V E T} {i : ℕ} {tag : T} {r : Request Call Answer V E}
    (hget : pool.requests[i]? = some (tag, r)) (b : B) (r' : Request Call Answer V E) (j : ℕ) :
    (pool.update i tag b r r').tagAt j = pool.tagAt j := by
  have hi : i < pool.requests.length := (List.getElem?_eq_some_iff.mp hget).1
  change ((pool.requests.set i (tag, r'))[j]?).map Prod.fst = pool.requests[j]?.map Prod.fst
  by_cases hij : i = j
  · subst hij
    rw [List.getElem?_set_self hi, hget]
    rfl
  · rw [List.getElem?_set_ne hij]

/-- A new request keeps the tags of the earlier ones. -/
theorem tagAt_add_of_lt {pool : Pool B Call Answer V E T} {j : ℕ} (hj : j < pool.requests.length) (tag : T)
    (b : B) (r : Request Call Answer V E) : (pool.add tag b r).tagAt j = pool.tagAt j := by
  change ((pool.requests ++ [(tag, r)])[j]?).map Prod.fst = pool.requests[j]?.map Prod.fst
  rw [List.getElem?_append_left hj]

/-- A tag after a start is an earlier one or the new one. -/
theorem tagAt_add_cases {pool : Pool B Call Answer V E T} {tag tag' : T} {b : B}
    {r : Request Call Answer V E} {j : ℕ} (h : (pool.add tag b r).tagAt j = some tag') :
    (j < pool.requests.length ∧ pool.tagAt j = some tag') ∨ (j = pool.requests.length ∧ tag' = tag) := by
  obtain ⟨⟨tag₁, r₁⟩, hget, rfl⟩ := Option.map_eq_some_iff.mp h
  rcases Replace.getElem?_concat_cases hget with ⟨hlt, hold⟩ | ⟨heq, hnew⟩
  · exact .inl ⟨hlt, tagAt_of_get hold⟩
  · cases hnew
    exact .inr ⟨heq, rfl⟩

end Pool

end Reactive
