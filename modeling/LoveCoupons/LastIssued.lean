import LoveCoupons.Overtaking

/-!
# The last issued operation and the last write

When every operation has succeeded, the record of the coupon is the one of the last write. So
the last issued operation wins exactly when no callback lets an earlier one write after it.
-/

namespace LoveCoupons

open KeyedTree Reactive StepSystem

section Finished

variable {b₀ : Backend} {uid key : Key} {s : Client}

/-- When every operation has succeeded, every answered call did. -/
theorem Client.Ordered.allSucceed (hs : s.Ordered b₀ uid key)
    (hdone : ∀ entry ∈ s.requests, Succeeded entry.2) : AllSucceed s.journal := by
  rintro ⟨i, call⟩ hentry
  obtain ⟨op, r, hget, hmade⟩ := hs.journaled.exists_made hentry
  exact (hdone _ (List.mem_of_getElem? hget)).2.2 call hmade

/-- When every operation has succeeded, the record is as the last writer asked. -/
theorem Client.Ordered.asAsked_of_lastWriter (hs : s.Ordered b₀ uid key)
    (hdone : ∀ entry ∈ s.requests, Succeeded entry.2) {i : ℕ} (hlast : s.writers.getLast? = some i)
    {op : Issued} {r : ApiRequest} (hget : s.requests[i]? = some (op, r)) : AsAsked s.backend uid key op := by
  rw [Client.writers, List.getLast?_map] at hlast
  obtain ⟨⟨j, call, a⟩, hfilter, rfl⟩ := Option.map_eq_some_iff.mp hlast
  obtain ⟨before, after, hsplit, hwrite, hafter⟩ := Pool.split_of_getLast?_filter hfilter
  have hreplay := hs.journaled.replayed
  rw [hsplit] at hreplay
  obtain ⟨b₁, b₂, hrespond, hdatabase⟩ := database_of_last_write hreplay hafter
  have hentry : (j, call, a) ∈ s.journal := by simp [hsplit]
  have herror : a.error = none := hs.allSucceed hdone _ hentry
  obtain ⟨op', r', hget', hmade⟩ := hs.journaled.exists_made hentry
  obtain ⟨rfl, rfl⟩ : op' = op ∧ r' = r := by simpa using hget'.symm.trans hget
  have horigin := hs.origins _ (List.mem_of_getElem? hget)
  have hsucceeded := hdone _ (List.mem_of_getElem? hget)
  cases op' with
  | delete =>
    obtain rfl : call = _ := made_of_delete horigin hmade
    rcases Backend.respond_setValue hrespond with ⟨hfailed, -⟩ | ⟨-, rfl⟩
    · simp [herror] at hfailed
    · change getChild s.backend.database (couponRef uid key) = none
      rw [hdatabase]
      exact getChild_updateChild_self _ _ _
  | update image description =>
    obtain ⟨coupon, data, rfl, hchain⟩ := horigin
    obtain ⟨upload, fetch, write, url, hurl, htrace⟩ := hsucceeded.update hchain
    have hfetched : (j, .downloadURL image, fetch) ∈ s.journal :=
      hs.journaled.mem_journal hget (by simp [htrace])
    have himages := storedImages_replay hs.journaled.replayed (hs.allSucceed hdone) hs.uploadsFirst
    obtain ⟨stored, hstored, rfl⟩ := himages.fetched j image fetch url hfetched hurl
    refine ⟨stored, hstored, ?_⟩
    have hcall : call = .updateChildValues (couponRef uid key)
        { coupon with image := stored.url }.toAnyObject := by
      rw [htrace] at hmade
      simp only [List.mem_cons, Prod.mk.injEq, List.not_mem_nil, or_false] at hmade
      rcases hmade with ⟨rfl, -⟩ | ⟨rfl, -⟩ | ⟨rfl, -⟩
      · cases hwrite
      · cases hwrite
      · rfl
    subst hcall
    rcases Backend.respond_updateChildValues hrespond with ⟨hfailed, -⟩ | ⟨-, rfl⟩
    · simp [herror] at hfailed
    · rw [hdatabase]
      exact isRecord_merge _ _ { coupon with image := stored.url }

/-- Every successful operation has made a write. -/
theorem Client.Ordered.exists_write (hs : s.Ordered b₀ uid key)
    (hdone : ∀ entry ∈ s.requests, Succeeded entry.2) {i : ℕ} {op : Issued} {r : ApiRequest}
    (hget : s.requests[i]? = some (op, r)) :
    ∃ call a, (i, call, a) ∈ s.journal ∧ call.isWrite = true := by
  have horigin := hs.origins _ (List.mem_of_getElem? hget)
  have hsucceeded := hdone _ (List.mem_of_getElem? hget)
  cases op with
  | update image description =>
    obtain ⟨coupon, data, -, hchain⟩ := horigin
    obtain ⟨upload, fetch, write, url, -, htrace⟩ := hsucceeded.update hchain
    have hmade : (Call.updateChildValues (couponRef uid key) { coupon with image := url }.toAnyObject, write) ∈
        r.made := by simp [htrace]
    exact ⟨_, write, hs.journaled.mem_journal hget hmade, rfl⟩
  | delete =>
    obtain ⟨a, rest, hanswers⟩ := List.exists_cons_of_ne_nil (hs.deleted _ (List.mem_of_getElem? hget) rfl)
    have hmade : (Call.setValue (couponRef uid key) none, a) ∈ r.made := by
      unfold Request.made
      rw [show r.origin = _ from horigin, deleteChain, hanswers, Chain.trace_call_cons]
      exact List.mem_cons_self
    exact ⟨_, a, hs.journaled.mem_journal hget hmade, rfl⟩

/-- Two successful operations ask for the same record only if both are deletions. -/
theorem Client.Ordered.asAsked_unique (hs : s.Ordered b₀ uid key)
    (hdone : ∀ entry ∈ s.requests, Succeeded entry.2) {i j : ℕ} {op op' : Issued} {r r' : ApiRequest}
    (hget : s.requests[i]? = some (op, r)) (hget' : s.requests[j]? = some (op', r'))
    (h : AsAsked s.backend uid key op) (h' : AsAsked s.backend uid key op') :
    i = j ∨ (op = .delete ∧ op' = .delete) := by
  cases op with
  | delete =>
    cases op' with
    | delete => exact .inr ⟨rfl, rfl⟩
    | update image description =>
      obtain ⟨stored, -, hrecord⟩ := h'
      exact absurd h hrecord.ne_none
  | update image description =>
    obtain ⟨stored, hstored, hrecord⟩ := h
    cases op' with
    | delete => exact absurd h' hrecord.ne_none
    | update image' description' =>
      obtain ⟨stored', hstored', hrecord'⟩ := h'
      have hurl : stored'.url = stored.url := (hrecord'.unique hrecord).2
      obtain ⟨coupon, data, -, hchain⟩ := hs.origins _ (List.mem_of_getElem? hget)
      obtain ⟨upload, fetch, write, url, -, htrace⟩ :=
        Succeeded.update (hdone _ (List.mem_of_getElem? hget)) hchain
      have huploaded : (i, .putData image data, upload) ∈ s.journal :=
        hs.journaled.mem_journal hget (by simp [htrace])
      have himages := storedImages_replay hs.journaled.replayed (hs.allSucceed hdone) hs.uploadsFirst
      have hpath := himages.unique i image data upload huploaded stored hstored stored'
        (Backend.mem_of_object hstored').1 hurl
      have himage : image' = image := (Backend.mem_of_object hstored').2.symm.trans hpath
      subst himage
      exact .inl (hs.distinct i j _ image' (Pool.tagAt_of_get hget) rfl _ (Pool.tagAt_of_get hget') rfl)

/-- When every operation has succeeded, the record is as the last issued operation asked exactly when
that operation made the last write. -/
theorem Client.Ordered.asAsked_iff_lastWriter (hs : s.Ordered b₀ uid key)
    (hdone : ∀ entry ∈ s.requests, Succeeded entry.2) {op : Issued} {r : ApiRequest}
    (hget : s.requests[s.requests.length - 1]? = some (op, r)) :
    AsAsked s.backend uid key op ↔ s.writers.getLast? = some (s.requests.length - 1) := by
  refine ⟨fun hasked => ?_, fun hwriter => hs.asAsked_of_lastWriter hdone hwriter hget⟩
  obtain ⟨call, a, hwrite, hcall⟩ := hs.exists_write hdone hget
  have hne : s.journal.filter (fun entry => entry.2.1.isWrite) ≠ [] :=
    List.ne_nil_of_mem (List.mem_filter.mpr ⟨hwrite, hcall⟩)
  obtain ⟨⟨i, call', a'⟩, hfilter⟩ : ∃ entry, (s.journal.filter fun entry => entry.2.1.isWrite).getLast? =
      some entry := ⟨_, List.getLast?_eq_some_getLast hne⟩
  have hwriter : s.writers.getLast? = some i := by
    rw [Client.writers, List.getLast?_map, hfilter]
    rfl
  obtain ⟨before, after, hsplit, -, hafter⟩ := Pool.split_of_getLast?_filter hfilter
  have hentry : (i, call', a') ∈ s.journal := by simp [hsplit]
  have hi := hs.journaled.bounded _ hentry
  obtain ⟨op', r', hget', -⟩ := hs.journaled.exists_made hentry
  rcases hs.asAsked_unique hdone hget' hget (hs.asAsked_of_lastWriter hdone hwriter hget') hasked with
    heq | ⟨rfl, -⟩
  · rw [hwriter, heq]
  · have hle : s.requests.length - 1 ≤ i := by
      rw [hsplit] at hwrite
      rcases List.mem_append.mp hwrite with hbefore | hlater
      · have hissued := hs.issued
        rw [hsplit] at hissued
        exact (List.pairwise_append.mp hissued).2.2 _ hbefore _ List.mem_cons_self
          (Pool.tagAt_of_get hget')
      · rcases List.mem_cons.mp hlater with hsame | hin
        · rw [Prod.mk.injEq] at hsame
          exact hsame.1.le
        · have hnot := hafter _ hin
          rw [hcall] at hnot
          cases hnot
    have hlt : i < s.requests.length := hi
    rw [hwriter, Option.some.injEq]
    omega

/-- When every operation has succeeded, the record is the one that the last issued operation asked for
exactly when no step of the run lets an earlier operation write after the last issued one has. -/
theorem last_issued_wins_iff {steps : List ClientStep} (huser : b₀.currentUser = some uid)
    (hrun : run (Client.step key) (Pool.empty b₀) steps = some s)
    (hdone : ∀ entry ∈ s.requests, Succeeded entry.2) {op : Issued} {r : ApiRequest}
    (hlast : s.requests.getLast? = some (op, r)) :
    AsAsked s.backend uid key op ↔
      Along (Client.step key) (fun before step => notOvertaken (s.requests.length - 1) before step = true)
        (Pool.empty b₀) steps := by
  have hstart : Client.Ordered b₀ uid key (Pool.empty b₀) := Client.ordered_empty huser key
  have hs : s.Ordered b₀ uid key := run_invariant (Client.Ordered b₀ uid key)
    (fun _ _ _ hordered hstep => hordered.step hstep) hstart hrun
  have hget : s.requests[s.requests.length - 1]? = some (op, r) := by
    rw [← List.getLast?_eq_getElem?]
    exact hlast
  obtain ⟨call, a, hwrite, hcall⟩ := hs.exists_write hdone hget
  have hwritten : s.requests.length - 1 ∈ s.writers := Client.mem_writers.mpr ⟨(call, a), hwrite, hcall⟩
  have hfirst : Client.WroteLast (s.requests.length - 1) (Pool.empty b₀) := by
    simp [Client.WroteLast, Client.writers, Pool.empty]
  have hkept := hstart.wroteLast_run hrun (by omega : s.requests.length ≤ s.requests.length - 1 + 1)
  calc AsAsked s.backend uid key op
      ↔ s.writers.getLast? = some (s.requests.length - 1) := hs.asAsked_iff_lastWriter hdone hget
    _ ↔ s.WroteLast (s.requests.length - 1) := ⟨fun h _ => h, fun h => h hwritten⟩
    _ ↔ _ := hkept.trans ⟨fun h => h.2, fun h => ⟨hfirst, h⟩⟩

end Finished

/-- A signed-in user with no coupon. -/
def signedIn : Backend := { currentUser := some ⟨"ann", by decide⟩ }

/-- The key of the coupon. -/
def couponKey : Key := UUID.toKey ⟨"00000000-0000-0000-0000-000000000001", by decide⟩

/-- An update of the coupon. -/
def editStep (description : String) : ClientStep :=
  .updateCoupon ⟨"00000000-0000-0000-0000-00000000000A", by decide⟩
    ⟨"00000000-0000-0000-0000-00000000000B", by decide⟩ { description := description } (some [1]) {}

/-- The answers and callbacks of the first operation, an update. -/
def updateSteps (url : String) : List ClientStep :=
  [.progress 0 (.answer { url := some url }), .progress 0 (.callback {}),
    .progress 0 (.answer { url := some url }), .progress 0 (.callback {}), .progress 0 (.callback {})]

/-- An update runs to its end before the coupon is deleted. -/
theorem deletion_after_update_wins : ∃ s,
    run (Client.step couponKey) (Pool.empty signedIn)
      (editStep "Tea" :: updateSteps "https://a" ++ [.deleteCoupon {} {}, .progress 1 (.callback {})]) = some s ∧
    AsAsked s.backend ⟨"ann", by decide⟩ couponKey .delete :=
  ⟨_, rfl, (@last_issued_wins_iff signedIn _ couponKey _
    (editStep "Tea" :: updateSteps "https://a" ++ [.deleteCoupon {} {}, .progress 1 (.callback {})])
    rfl rfl (by decide) _ _ rfl).mpr (by decide)⟩

/-- The coupon is deleted while an update waits for its image: the update's write brings it back. -/
theorem deleted_coupon_reappears : ¬ ∀ (b : Backend) (uid key : Key) (steps : List ClientStep) (s : Client)
    (op : Issued) (r : ApiRequest), b.currentUser = some uid →
    run (Client.step key) (Pool.empty b) steps = some s → (∀ entry ∈ s.requests, Succeeded entry.2) →
    s.requests.getLast? = some (op, r) → AsAsked s.backend uid key op := by
  intro h
  have hasked := h signedIn _ couponKey
    (editStep "Tea" :: .deleteCoupon {} {} :: updateSteps "https://a" ++ [.progress 1 (.callback {})])
    _ .delete _ rfl rfl (by decide) rfl
  have hnone := congrArg Option.isSome (show getChild _ _ = none from hasked)
  revert hnone
  decide

end LoveCoupons
