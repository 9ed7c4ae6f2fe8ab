import LoveCoupons.Screens

/-!
# The account that a sign-up writes its profile to

The second stage of a sign-up does not carry the identifier of the account that its first
stage created. It reads the signed-in user again when the first stage's value is delivered.
A press that timed out keeps running, so its account can be created in between, and then the
second stage of a later press writes its profile under that account.

The success of a first stage is on its way until its value is delivered or its timer hides
it. While no other creation succeeds in that time, every profile goes to its own account.
-/

namespace LoveCoupons

open KeyedTree Reactive StepSystem

/-- The fields of the sign-up screen. -/
structure SignUpForm where
  name : String
  email : String
  pairUniqId : String
  password : String
  deriving DecidableEq

/-- A step of the sign-up screen as a step of its requests. -/
def signUpAction : ScreenStep SignUpForm Answer → ScreenStep Operation Answer
  | .press form a =>
    .press (createUserButtonPressed form.name form.email form.pairUniqId form.password) a
  | .progress i p => .progress i p
  | .deliver i a => .deliver i a

/-- One step of the sign-up screen. -/
def signUpStep (s : AppScreen) (a : ScreenStep SignUpForm Answer) : Option AppScreen :=
  s.step (signUpAction a)

/-- The first stage of a sign-up. -/
def Operation.isCreateUser : Operation → Bool
  | .createUser _ _ _ => true
  | _ => false

/-- No creation succeeds while the success of another one is on its way. -/
def undisturbed (s : AppScreen) : ScreenStep SignUpForm Answer → Bool
  | .progress _ (.answer a) => a.error.isSome ||
      s.pool.requests.all fun entry => !(entry.1.2.isCreateUser && arriving entry.2)
  | _ => true

/-- The first stage of a press created the account with this identifier. -/
def CreatedBy (pool : Pool Backend Call Answer Bool ApiError (ℕ × Operation)) (press : ℕ) (uid : Key) : Prop :=
  ∃ op r a, ((press, op), r) ∈ pool.requests ∧ op.isCreateUser = true ∧ r.answers = [a] ∧ a.error = none ∧
    a.uid = some uid

instance (pool : Pool Backend Call Answer Bool ApiError (ℕ × Operation)) (press : ℕ) (uid : Key) :
    Decidable (CreatedBy pool press uid) :=
  decidable_of_iff (∃ entry ∈ pool.requests, entry.1.1 = press ∧ entry.1.2.isCreateUser = true ∧
      ∃ a ∈ entry.2.answers, entry.2.answers = [a] ∧ a.error = none ∧ a.uid = some uid)
    ⟨fun ⟨entry, hmem, hpress, hop, a, _, hcreated⟩ => ⟨entry.1.2, entry.2, a, hpress ▸ hmem, hop, hcreated⟩,
      fun ⟨op, r, a, hmem, hop, hanswers, hcreated⟩ =>
        ⟨((press, op), r), hmem, rfl, hop, a, by simp [hanswers], hanswers, hcreated⟩⟩

/-- The account of a success on its way is signed in, and every second stage writes under the account
of its press. -/
structure OwnAccounts (pool : Pool Backend Call Answer Bool ApiError (ℕ × Operation)) : Prop where
  stages : ∀ entry ∈ pool.requests, entry.1.2.isCreateUser = true ∨ ∃ userInfo, entry.1.2 = .setUserInfo userInfo
  onWay : ∀ entry ∈ pool.requests, entry.1.2.isCreateUser = true → arriving entry.2 = true →
    ∃ a uid, entry.2.answers = [a] ∧ a.error = none ∧ a.uid = some uid ∧ pool.backend.currentUser = some uid
  written : ∀ entry ∈ pool.requests, ∀ userInfo, entry.1.2 = .setUserInfo userInfo → ∀ uid value next,
    entry.2.origin = .call (.setValue (userInfoRef uid) value) next → CreatedBy pool entry.1.1 uid

/-- A stage that ends in success was answered without an error. -/
theorem answered_of_success {op : Operation} (hop : op.isCreateUser = true) {r : ApiRequest}
    (horigin : Screen.StartedBy sinks op r.origin) {v : Bool} (hrest : r.rest = some (.done (.ok v))) :
    (r.answers.any fun a => a.error.isNone) = true := by
  rcases startedBy_cases horigin with ⟨userUid, hchain⟩ | ⟨error, hrefused⟩
  · cases op with
    | createUser userInfo email password =>
      obtain ⟨a, hanswers, herror⟩ := Operation.confirms_of_success hchain hrest
      simp [hanswers, herror]
    | _ => cases hop
  · cases rest_of_refused hrefused hrest

/-- The first stage of a sign-up makes one call, to create its account. -/
theorem createUser_advances {op : Operation} {b b' : Backend} {r r' : ApiRequest} {p : Progress Answer}
    (hop : op.isCreateUser = true) (horigin : Screen.StartedBy sinks op r.origin)
    (h : Request.Advances Backend.service timeoutError b r p b' r') :
    (b' = b ∧ r'.answers = r.answers) ∨ ∃ a email password, p = .answer a ∧ r.phase = .outstanding ∧
      r.answers = [] ∧ r' = r.answered a ∧ b.respond (.createUser email password) a = some b' := by
  cases op with
  | createUser userInfo email password =>
    have hcall : ∀ {c next}, r.rest = some (.call c next) → r.answers = [] ∧ c = .createUser email password := by
      intro c next hrest
      rcases startedBy_cases horigin with ⟨userUid, hchain⟩ | ⟨error, hrefused⟩
      · exact reply_of_single hchain hrest
      · cases rest_of_refused hrefused hrest
    cases h with
    | @answer a _ _ _ hphase hrest hrespond =>
      obtain ⟨hanswers, rfl⟩ := hcall hrest
      exact .inr ⟨a, email, password, rfl, hphase, hanswers, rfl, hrespond⟩
    | callback _ hproceeds =>
      cases hproceeds with
      | resolve _ => exact .inl ⟨rfl, rfl⟩
      | act hrest himm _ =>
        obtain ⟨-, rfl⟩ := hcall hrest
        cases himm
      | await _ _ => exact .inl ⟨rfl, rfl⟩
    | timeout _ => exact .inl ⟨rfl, rfl⟩
    | deliver _ => exact .inl ⟨rfl, rfl⟩
    | cancel => exact .inl ⟨rfl, rfl⟩
  | _ => cases hop

/-- The second stage of a sign-up does not change the signed-in user. -/
theorem setUserInfo_acts {userInfo : UserInfo} {b b' : Backend} {r r' : ApiRequest}
    (horigin : Screen.StartedBy sinks (.setUserInfo userInfo) r.origin)
    (h : Request.Acts Backend.service b r b' r') : b'.currentUser = b.currentUser := by
  cases h with
  | idle _ _ => rfl
  | @reply c next a _ hrest hrespond =>
    rcases startedBy_cases horigin with ⟨userUid, -, uid, -, hchain⟩ | ⟨error, hrefused⟩
    · obtain ⟨-, rfl⟩ := reply_of_single hchain hrest
      change b.respond (.setValue (userInfoRef uid) userInfo.toAnyObject) a = some b' at hrespond
      exact Backend.currentUser_of_respond hrespond (by simp) (by simp)
    · cases rest_of_refused hrefused hrest

/-- A created account stays when a request is added. -/
theorem CreatedBy.add {pool : Pool Backend Call Answer Bool ApiError (ℕ × Operation)} {press : ℕ} {uid : Key}
    (h : CreatedBy pool press uid) (tag : ℕ × Operation) (b : Backend) (r : ApiRequest) :
    CreatedBy (pool.add tag b r) press uid := by
  obtain ⟨op, r₀, a, hmem, hcreated⟩ := h
  exact ⟨op, r₀, a, List.mem_append_left _ hmem, hcreated⟩

/-- A created account stays when a request takes a step. -/
theorem CreatedBy.update {pool : Pool Backend Call Answer Bool ApiError (ℕ × Operation)} {press : ℕ}
    {uid : Key} (h : CreatedBy pool press uid) {i : ℕ} {tag : ℕ × Operation} {b b' : Backend}
    {r r' : ApiRequest} {p : Progress Answer} (hget : pool.requests[i]? = some (tag, r))
    (horigin : Screen.StartedBy sinks tag.2 r.origin)
    (hadv : Request.Advances Backend.service timeoutError b r p b' r') :
    CreatedBy (pool.update i tag b' r r') press uid := by
  obtain ⟨op, r₀, a, hmem, hop, hanswers, hcreated⟩ := h
  obtain ⟨⟨tag', r₁⟩, hmem', rfl, hanswers'⟩ := Pool.exists_update (b := b')
    (P := fun tag r => tag = (press, op) ∧ r.answers = [a]) hget ⟨_, hmem, rfl, hanswers⟩ (by
      rintro ⟨rfl, hanswers⟩
      rcases createUser_advances hop horigin hadv with ⟨-, hsame⟩ | ⟨_, _, _, -, -, hnone, -⟩
      · exact ⟨rfl, hsame.trans hanswers⟩
      · simp [hanswers] at hnone)
  exact ⟨op, r₁, a, hmem', hop, hanswers', hcreated⟩

section Steps

variable {pool : Pool Backend Call Answer Bool ApiError (ℕ × Operation)}

/-- A step of a request keeps the accounts apart, if a creation succeeds only while no other success
is on its way. -/
theorem OwnAccounts.update (hs : OwnAccounts pool)
    (hvalid : ∀ entry ∈ pool.requests, entry.2.Valid timeoutError)
    (horigins : ∀ entry ∈ pool.requests, Screen.StartedBy sinks entry.1.2 entry.2.origin) {i : ℕ}
    {tag : ℕ × Operation} {b : Backend} {r r' : ApiRequest} {p : Progress Answer}
    (hget : pool.requests[i]? = some (tag, r))
    (hadvance : r.advance Backend.service timeoutError pool.backend p = some (b, r'))
    (hcond : ∀ a, p = .answer a → a.error = none → ∀ entry ∈ pool.requests,
      entry.1.2.isCreateUser = true → arriving entry.2 = false) :
    OwnAccounts (pool.update i tag b r r') := by
  have hadv := Request.advance_cases hadvance
  have hmem := List.mem_of_getElem? hget
  have horigin : Screen.StartedBy sinks tag.2 r.origin := horigins _ hmem
  have hstage : tag.2.isCreateUser = true ∨ ∃ userInfo, tag.2 = .setUserInfo userInfo := hs.stages _ hmem
  refine ⟨?_, fun entry hentry hop hway => ?_, fun entry hentry userInfo hop uid value next hcall => ?_⟩
  · exact Pool.forall_update (P := fun (tag : ℕ × Operation) _ => tag.2.isCreateUser = true ∨ ∃ userInfo,
      tag.2 = Operation.setUserInfo userInfo) hs.stages hstage
  · rcases hstage with hcreate | ⟨userInfo, hset⟩
    · rcases createUser_advances hcreate horigin hadv with ⟨rfl, hsame⟩ |
        ⟨a, email, password, rfl, hphase, hnone, rfl, hrespond⟩
      · rcases List.mem_or_eq_of_mem_set hentry with hold | rfl
        · exact hs.onWay entry hold hop hway
        · obtain ⟨a, uid, hanswers, hcreated⟩ := hs.onWay _ hmem hcreate (arriving_of_advances hadv hsame
            (fun _ _ hrest => answered_of_success hcreate horigin hrest) hway)
          exact ⟨a, uid, hsame.trans hanswers, hcreated⟩
      · rcases Backend.respond_createUser hrespond with ⟨herror, -⟩ | ⟨herror, uid, created, huid, -, rfl⟩
        · have huser := Backend.currentUser_of_error hrespond herror
          rcases List.mem_or_eq_of_mem_set hentry with hold | rfl
          · obtain ⟨a', uid, hanswers, herror', huid, hcurrent⟩ := hs.onWay entry hold hop hway
            exact ⟨a', uid, hanswers, herror', huid, huser.trans hcurrent⟩
          · rw [arriving_answered_of_error (hvalid _ hmem) (by simp [hphase]) hnone herror] at hway
            cases hway
        · rcases List.mem_or_eq_of_mem_set hentry with hold | rfl
          · rw [hcond a rfl herror entry hold hop] at hway
            cases hway
          · exact ⟨a, uid, by simp [Request.answered, hnone], herror, huid, rfl⟩
    · have huser : b.currentUser = pool.backend.currentUser :=
        setUserInfo_acts (hset ▸ horigin) hadv.acts
      rcases List.mem_or_eq_of_mem_set hentry with hold | rfl
      · obtain ⟨a, uid, hanswers, herror, huid, hcurrent⟩ := hs.onWay entry hold hop hway
        exact ⟨a, uid, hanswers, herror, huid, huser.trans hcurrent⟩
      · rw [hset] at hop
        cases hop
  · obtain ⟨r₀, hold, hsame⟩ := Screen.mem_update hget hadvance hentry
    rw [hsame] at hcall
    exact (hs.written _ hold userInfo hop uid value next hcall).update hget horigin hadv

/-- A new request keeps the accounts apart. -/
theorem OwnAccounts.add (hs : OwnAccounts pool) {press : ℕ} {op : Operation} {b : Backend} {r : ApiRequest}
    (huser : b.currentUser = pool.backend.currentUser)
    (hop : op.isCreateUser = true ∨ ∃ userInfo, op = .setUserInfo userInfo)
    (hway : op.isCreateUser = true → arriving r = false)
    (hwritten : ∀ userInfo, op = .setUserInfo userInfo → ∀ uid value next,
      r.origin = .call (.setValue (userInfoRef uid) value) next → CreatedBy pool press uid) :
    OwnAccounts (pool.add (press, op) b r) := by
  refine ⟨?_, fun entry hentry hcreate hon => ?_, fun entry hentry userInfo hset uid value next hcall => ?_⟩
  · exact Pool.forall_add (P := fun (tag : ℕ × Operation) _ => tag.2.isCreateUser = true ∨ ∃ userInfo,
      tag.2 = Operation.setUserInfo userInfo) hs.stages hop
  · rcases List.mem_append.mp hentry with hold | hnew
    · obtain ⟨a, uid, hanswers, herror, huid, hcurrent⟩ := hs.onWay entry hold hcreate hon
      exact ⟨a, uid, hanswers, herror, huid, huser.trans hcurrent⟩
    · rw [List.mem_singleton.mp hnew] at hcreate hon
      rw [hway hcreate] at hon
      cases hon
  · rcases List.mem_append.mp hentry with hold | hnew
    · exact (hs.written entry hold userInfo hset uid value next hcall).add _ _ _
    · rw [List.mem_singleton.mp hnew] at hset hcall ⊢
      exact (hwritten userInfo hset uid value next hcall).add _ _ _

end Steps

/-- The request of a new press has no success on its way and leaves the backend alone. -/
theorem subscribe_createUser {op : Operation} (hop : op.isCreateUser = true) {b b' : Backend} {a : Answer}
    {r : ApiRequest} (h : Request.subscribe Backend.service b (sinks.publisher b op) a = some (b', r)) :
    b' = b ∧ arriving r = false := by
  refine arriving_subscribe_operation ?_ h
  rintro userInfo rfl
  cases hop

/-- The second stage runs for the user who is signed in. -/
theorem subscribe_setUserInfo {userInfo : UserInfo} {b b' : Backend} {a : Answer} {r : ApiRequest}
    (h : Request.subscribe Backend.service b (sinks.publisher b (.setUserInfo userInfo)) a = some (b', r)) :
    b'.currentUser = b.currentUser ∧ ∀ uid value next,
      r.origin = .call (.setValue (userInfoRef uid) value) next → b.currentUser = some uid := by
  rcases Request.subscribe_cases h with ⟨error, -, rfl, rfl⟩ | ⟨chain, hfuture, hproceeds⟩
  · exact ⟨rfl, fun uid value next hcall => by cases hcall⟩
  · obtain ⟨-, uid, huid, hchain⟩ : Operation.IsChain b.currentUser (.setUserInfo userInfo) chain :=
      Operation.isChain_of_future hfuture
    have hstarted : Screen.StartedBy sinks (.setUserInfo userInfo) (Request.unstarted chain : ApiRequest).origin :=
      ⟨b, .inl hfuture⟩
    have horigin : r.origin = chain := by cases hproceeds <;> rfl
    refine ⟨setUserInfo_acts hstarted hproceeds.acts, fun uid' value next hcall => ?_⟩
    rw [horigin, hchain, Chain.call.injEq, Call.setValue.injEq] at hcall
    have hpath := hcall.1.1
    simp only [userInfoRef, List.cons.injEq] at hpath
    rw [huid, hpath.1]

/-- Every undisturbed step of the sign-up screen keeps the accounts apart. -/
theorem OwnAccounts.step {s s' : AppScreen} {a : ScreenStep SignUpForm Answer} (hs : OwnAccounts s.pool)
    (hb : s.Balanced timeoutError) (ht : s.Traced sinks) (hcond : undisturbed s a = true)
    (h : signUpStep s a = some s') : OwnAccounts s'.pool := by
  have hdelivery : ∀ x : Answer, Progress.deliver = Progress.answer x → x.error = none →
      ∀ entry ∈ s.pool.requests, entry.1.2.isCreateUser = true → arriving entry.2 = false := by
    intro x hx
    cases hx
  unfold signUpStep at h
  cases a with
  | press form a =>
    cases Screen.step_cases h with
    | press hstart =>
      obtain ⟨rfl, hway⟩ := subscribe_createUser rfl hstart
      exact hs.add rfl (.inl rfl) (fun _ => hway) fun userInfo hset => by cases hset
  | progress i p =>
    cases Screen.step_cases h with
    | work _ hget hadvance =>
      refine hs.update hb.valid ht.origin hget hadvance fun x hx herror entry hentry hop => ?_
      subst hx
      simp only [undisturbed, herror, Option.isSome_none, Bool.false_or, List.all_eq_true] at hcond
      simpa [hop] using hcond entry hentry
  | deliver i a =>
    cases Screen.step_cases h with
    | act hget hadvance _ _ => exact hs.update hb.valid ht.origin hget hadvance hdelivery
    | finish hget hadvance _ => exact hs.update hb.valid ht.origin hget hadvance hdelivery
    | fail hget hadvance _ => exact hs.update hb.valid ht.origin hget hadvance hdelivery
    | @next _ press _ stage next r r' r'' b b' v hget hadvance hevent hvalue hstart =>
      have hmem := List.mem_of_getElem? hget
      have horigin : Screen.StartedBy sinks stage r.origin := ht.origin _ hmem
      have hupdate := hs.update hb.valid ht.origin hget hadvance hdelivery
      cases stage with
      | createUser userInfo email password =>
        cases hvalue
        obtain ⟨huser, hwritten⟩ := subscribe_setUserInfo hstart
        refine hupdate.add huser (.inr ⟨userInfo, rfl⟩) (fun hop => by cases hop) ?_
        intro userInfo' _ uid value next hcall
        have hcurrent := hwritten uid value next hcall
        have hway := arriving_of_value (List.mem_of_mem_head? hevent)
        obtain ⟨a, uid', hanswers, herror, huid, hcurrent'⟩ := hs.onWay _ hmem rfl hway
        have hadv := Request.advance_cases hadvance
        have hcreated : CreatedBy s.pool press uid := by
          refine ⟨_, r, a, hmem, rfl, hanswers, herror, ?_⟩
          cases hadv
          rw [huid, ← hcurrent', hcurrent]
        exact hcreated.update hget horigin hadv
      | _ => cases hvalue

/-- In every undisturbed run of the sign-up screen, whatever the second stage of a press writes is under
the account that the first stage of the same press created. -/
theorem profile_written_to_own_account {b : Backend} {steps : List (ScreenStep SignUpForm Answer)}
    {s : AppScreen} (hrun : run signUpStep (Screen.opened b) steps = some s)
    (hcond : Along signUpStep (fun s a => undisturbed s a = true) (Screen.opened b) steps) {press : ℕ}
    {userInfo : UserInfo} {r : ApiRequest} (hmem : ((press, .setUserInfo userInfo), r) ∈ s.pool.requests)
    {uid : Key} {value : Node} {a : Answer} (hwrite : (.setValue (userInfoRef uid) value, a) ∈ r.made) :
    CreatedBy s.pool press uid := by
  have hinv : s.Balanced timeoutError ∧ s.Traced sinks ∧ OwnAccounts s.pool := by
    apply run_invariant_along (fun s : AppScreen => s.Balanced timeoutError ∧ s.Traced sinks ∧ OwnAccounts s.pool)
      ?_ ?_ hcond hrun
    · rintro s a next ⟨hb, ht, hs⟩ hundisturbed hstep
      exact ⟨hb.step hstep, ht.step hb hstep, hs.step hb ht hundisturbed hstep⟩
    · exact ⟨Screen.balanced_opened b, Screen.traced_opened b, by simp [Screen.opened, Pool.empty],
        by simp [Screen.opened, Pool.empty], by simp [Screen.opened, Pool.empty]⟩
  obtain ⟨-, ht, hs⟩ := hinv
  rcases startedBy_cases (ht.origin _ hmem) with ⟨userUid, -, uid', -, hchain⟩ | ⟨error, hrefused⟩
  · have hcall := made_of_single hchain hwrite
    rw [Call.setValue.injEq, userInfoRef, userInfoRef, List.cons.injEq] at hcall
    rw [hcall.1.1]
    exact hs.written _ hmem userInfo rfl uid' _ _ hchain
  · rw [made_of_refused hrefused] at hwrite
    cases hwrite

/-- The first press times out, the second one succeeds alone. -/
def retryAlone : List (ScreenStep SignUpForm Answer) :=
  [.press ⟨"Ann", "ann@mail", "bob", "secret"⟩ {}, .progress 0 .timeout, .deliver 0 {},
    .press ⟨"Eve", "eve@mail", "bob", "secret"⟩ {}, .progress 1 (.answer { uid := some ⟨"e", by decide⟩ }),
    .progress 1 (.callback {}), .deliver 1 {}]

/-- The profile of the second press goes to the account of the second press. -/
theorem retryAlone_writes_own_account : ∃ s, run signUpStep (Screen.opened {}) retryAlone = some s ∧
    CreatedBy s.pool 1 ⟨"e", by decide⟩ :=
  ⟨_, rfl, @profile_written_to_own_account {} retryAlone _ rfl (by decide) 1
    ⟨some "Eve", some "eve@mail", some "bob"⟩ _ (List.mem_of_getElem? (i := 2) rfl) ⟨"e", by decide⟩ _ {}
    List.mem_cons_self⟩

/-- The account of the first press is created just before the value of the second one is delivered. -/
def lateCreation : List (ScreenStep SignUpForm Answer) :=
  [.press ⟨"Ann", "ann@mail", "bob", "secret"⟩ {}, .progress 0 .timeout, .deliver 0 {},
    .press ⟨"Eve", "eve@mail", "bob", "secret"⟩ {}, .progress 1 (.answer { uid := some ⟨"e", by decide⟩ }),
    .progress 1 (.callback {}), .progress 0 (.answer { uid := some ⟨"a", by decide⟩ }), .deliver 1 {}]

/-- The profile of the second press is written under the account of the first one. -/
theorem profile_written_to_other_account : ¬ ∀ (b : Backend) (steps : List (ScreenStep SignUpForm Answer))
    (s : AppScreen) (press : ℕ) (userInfo : UserInfo) (r : ApiRequest) (uid : Key) (value : Node) (a : Answer),
    run signUpStep (Screen.opened b) steps = some s →
    ((press, .setUserInfo userInfo), r) ∈ s.pool.requests →
    (.setValue (userInfoRef uid) value, a) ∈ r.made → CreatedBy s.pool press uid := by
  intro h
  have hcreated := h {} lateCreation _ 1 ⟨some "Eve", some "eve@mail", some "bob"⟩ _ ⟨"a", by decide⟩ _ {} rfl
    (List.mem_of_getElem? (i := 2) rfl) List.mem_cons_self
  revert hcreated
  decide

end LoveCoupons
