import ClavenarLite.Proxy.Retries

/-! When retries of a parked request are idempotent: of the decisions under its id, and the
lookups made before its pending is stored, there may be one. -/

namespace ClavenarLite

open Bytes Fallible Interaction Rfc3339 TextJson Transaction

section Runs

variable {L : Libraries} {w₀ : World} {run : List (Moment McpOp World)}
  {p : Pool McpOp World McpJob Ended} {t : Thread McpOp McpJob Ended} {call : McpCall} {c : String}

theorem idsCount_eq_zero {db : Db} : idsCount db c = 0 ↔ db.findPending c = none := by
  rw [idsCount, List.count_eq_zero, Db.findPending_none]
  constructor
  · exact fun h r hr hid => h (hid ▸ List.mem_map_of_mem hr)
  · intro h hmem
    obtain ⟨r, hr, hid⟩ := List.mem_map.mp hmem
    exact h r hr hid

/-- A lookup under the id is made for an execution submitted under it. -/
theorem lookup_submits (h : Pool.Reachable (mcpRules L) w₀ p) (ht : t ∈ p.threads)
    {made : Call McpOp} (hmade : made ∈ t.calls) (hl : looksUp c made = true) :
    ∃ call, SubmittedUnder L c t call ∧ call.serverExecution.isSome := by
  obtain ⟨op, answer⟩ := made
  cases op with
  | getPending id =>
    have hid : id = c := by simpa [looksUp] using hl
    obtain ⟨before, after, hcalls⟩ := List.append_of_mem hmade
    obtain ⟨call, binding, v, hj, -, hexecution, hcorrelation⟩ :=
      rule_of_follows (h.follows t ht) hcalls
    exact ⟨call, ⟨hcalls ▸ hj.passes.append _, hcorrelation.symm.trans hid⟩, hexecution⟩
  | _ => exact absurd hl (by simp [looksUp])

theorem DecidesUnder.unsought (h : Pool.Reachable (mcpRules L) w₀ p) (ht : t ∈ p.threads)
    (hd : DecidesUnder L c t) : ∀ made ∈ t.calls, looksUp c made = false := by
  intro made hmade
  by_contra hl
  obtain ⟨call, hsub, hdecision⟩ := hd
  obtain ⟨call', hsub', hexecution⟩ :=
    lookup_submits h ht hmade (Bool.not_eq_false _ |>.mp hl)
  obtain rfl := hsub.1.unique hsub'.1
  obtain ⟨u, late, -, hg⟩ := hsub.1
  rw [(gates_ok hg).exclusive hexecution] at hdecision
  exact absurd hdecision (by simp)

/-- A request looks its pending up at most once. -/
theorem lookups_le_one (h : Pool.Reachable (mcpRules L) w₀ p) (ht : t ∈ p.threads) :
    t.calls.countP (looksUp c) ≤ 1 := by
  refine (h.follows t ht).once (fun _ => handleMcp_obeys) fun before made hm hl => ?_
  obtain ⟨op, answer⟩ := made
  cases op with
  | getPending id =>
    obtain ⟨call, binding, v, hj, -⟩ := hm
    exact List.countP_eq_zero.mpr fun d hd => by simp [hj.unsought c d hd]
  | _ => exact absurd hl (by simp [looksUp])

/-- A request tries to park at most once. -/
theorem inserts_le_one (h : Pool.Reachable (mcpRules L) w₀ p) (ht : t ∈ p.threads) :
    t.calls.countP (fun made => insertsUnder c made != 0) ≤ 1 := by
  refine (h.follows t ht).once (fun _ => handleMcp_obeys) fun before made hm hinsert => ?_
  obtain ⟨op, answer⟩ := made
  cases op with
  | parkPending req =>
    obtain ⟨call, v, hparks⟩ := hm
    obtain ⟨binding, pre, -, -, -, hnone⟩ := hparks.judged (c := c)
    exact List.countP_eq_zero.mpr fun d hd => by simp [hnone d hd]
  | _ => exact absurd hinsert (by simp [insertsUnder])

theorem looksUp_of_missed {made : Call McpOp} (h : missedUnder c made ≠ 0) :
    looksUp c made = true := by
  unfold missedUnder at h
  split at h
  · next id =>
    split_ifs at h with hid
    · simpa [looksUp] using hid
    · exact absurd rfl h
  · exact absurd rfl h

theorem missedUnder_le_one (made : Call McpOp) : missedUnder c made ≤ 1 := by
  unfold missedUnder
  split
  · split_ifs <;> omega
  · omega

theorem insertsUnder_le_one (made : Call McpOp) : insertsUnder c made ≤ 1 := by
  unfold insertsUnder
  split
  · split_ifs <;> omega
  · omega

/-- An INSERT is made for a decision, or after a lookup that missed. -/
theorem inserted_submits_or (h : Pool.Reachable (mcpRules L) w₀ p) (ht : t ∈ p.threads)
    {made : Call McpOp} (hmade : made ∈ t.calls) (hne : insertsUnder c made ≠ 0) :
    DecidesUnder L c t ∨ ⟨.getPending c, .ok none⟩ ∈ t.calls := by
  obtain ⟨op, answer⟩ := made
  cases op with
  | parkPending req =>
    have hid : req.correlationId = c := by
      by_contra hc
      exact hne (if_neg hc)
    obtain ⟨before, after, hcalls⟩ := List.append_of_mem hmade
    obtain ⟨call, v, binding, url, pre, hj, -, rfl, hbefore⟩ :=
      rule_of_follows (h.follows t ht) hcalls
    have hcorrelation : call.correlationId = c := hid
    have hstarts : Starts L t.job call t.calls := by
      rw [hcalls, hbefore]
      exact (hj.passes.append _).append _
    by_cases hs : call.serverExecution.isSome = true
    · rw [if_pos hs, hcorrelation] at hbefore
      exact Or.inr (by simp [hcalls, hbefore])
    · obtain ⟨u, late, hcs, hg⟩ := hstarts
      obtain ⟨_, _, ⟨_, -, htool, -⟩, -⟩ := hj
      have hdecision := ((gates_selected hg).resolve_left hs).resolve_right (by simp [htool])
      exact Or.inl ⟨call, ⟨⟨u, late, hcs, hg⟩, hcorrelation⟩, hdecision⟩
  | _ => exact absurd rfl hne

open Classical in
theorem inserts_le (h : Pool.Reachable (mcpRules L) w₀ p) (ht : t ∈ p.threads) :
    t.total (insertsUnder c) ≤ (if DecidesUnder L c t then 1 else 0) + t.total (missedUnder c) := by
  have hinserts := Thread.total_indicator (g := insertsUnder c) (inserts_le_one h ht)
    (fun _ hne => by simpa using hne) insertsUnder_le_one
  have hmissed := Thread.total_indicator (g := missedUnder c) (lookups_le_one h ht)
    (fun _ => looksUp_of_missed) missedUnder_le_one
  by_cases hinsert : ∃ made ∈ t.calls, insertsUnder c made = 1
  · obtain ⟨made, hmade, hone⟩ := hinsert
    have hne : insertsUnder c made ≠ 0 := by omega
    rcases inserted_submits_or h ht hmade hne with hdecides | hmiss
    · rw [if_pos hdecides, hinserts]
      split_ifs <;> omega
    · have hmem : ∃ made ∈ t.calls, missedUnder c made = 1 := ⟨_, hmiss, if_pos rfl⟩
      rw [hmissed, if_pos hmem, hinserts]
      split_ifs <;> omega
  · rw [hinserts, if_neg hinsert]
    exact Nat.zero_le _

section Retrying

variable (he : Unused c w₀.db) (hs : PendingsSound w₀.db)
  (h : Pool.Run (mcpRules L) w₀ run p) (hret : Retried L c p)

include h hret

/-- On a storage that is available a lookup misses exactly while no pending is stored. -/
theorem Retried.total_missed : p.total (missedUnder c) = earlyLookups c run := by
  refine h.total_eq_countP fun m hm => ?_
  obtain ⟨q, w', -, -, hperforms⟩ := h.performed m hm
  obtain ⟨t, hat, hmade⟩ := h.made hm
  have ht := List.mem_of_getElem? hat
  obtain ⟨i, w, ⟨op, answer⟩⟩ := m
  cases op with
  | getPending id =>
    by_cases hid : id = c
    · subst hid
      obtain ⟨call, hsub, -⟩ := lookup_submits (c := id) h.reachable ht hmade (by simp [looksUp])
      cases answer with
      | error x =>
        have havailable := (hret.reviewable t ht call hsub).available _ hmade
        exact absurd havailable (by simp [unavailable])
      | ok found =>
        have hlookup : McpPerforms L (.getPending id) w (.ok found) w' := hperforms
        obtain ⟨-, hfound⟩ := hlookup.writes
        cases found with
        | none =>
          have hnone : w.db.findPending id = none := by
            cases hrow : w.db.findPending id with
            | none => rfl
            | some row =>
              rw [hrow] at hfound
              obtain ⟨_, _, hsome⟩ := bind_ok hfound
              exact absurd (Except.ok.inj hsome) (by simp)
          simp [missedUnder, looksUp, idsCount_eq_zero.mpr hnone]
        | some found =>
          obtain ⟨row, hrow, -⟩ := mapM_some hfound
          have hne : idsCount w.db id ≠ 0 := fun hz => by simp [idsCount_eq_zero.mp hz] at hrow
          simp [missedUnder, looksUp, hne]
    · have hmissed : missedUnder c ⟨.getPending id, answer⟩ = 0 := by
        unfold missedUnder
        split
        · next heq =>
          cases heq
          exact if_neg hid
        · rfl
      simp [hmissed, looksUp, hid]
  | _ => rfl

include he hs

open Classical in
/-- Once the submissions are answered, every decision and every lookup that missed
has come to its INSERT. -/
theorem Retried.inserts_ge (ht : t ∈ p.threads)
    (hanswered : ∀ call, SubmittedUnder L c t call → ∃ e, t.rest = .pure e) :
    (if DecidesUnder L c t then 1 else 0) + t.total (missedUnder c) ≤ t.total (insertsUnder c) := by
  have hreach := h.reachable
  have hmissed := Thread.total_indicator (g := missedUnder c) (lookups_le_one hreach ht)
    (fun _ => looksUp_of_missed) missedUnder_le_one
  have hunmissed : DecidesUnder L c t → ¬ ∃ made ∈ t.calls, missedUnder c made = 1 := by
    rintro hd ⟨made, hmade, hone⟩
    have hmissed : missedUnder c made ≠ 0 := by omega
    have hlook := looksUp_of_missed hmissed
    rw [hd.unsought hreach ht made hmade] at hlook
    exact absurd hlook (by simp)
  by_cases hsub : ∃ call, SubmittedUnder L c t call
  · obtain ⟨call, hsub⟩ := hsub
    obtain ⟨e, hrest⟩ := hanswered call hsub
    have hinserted : ∀ {req : ParkRequest} {answer : Except SqlError Pending},
        ⟨.parkPending req, answer⟩ ∈ t.calls → req.correlationId = c →
          1 ≤ t.total (insertsUnder c) := by
      intro req answer hmem hid
      have hone : insertsUnder c ⟨.parkPending req, answer⟩ = 1 := if_pos hid
      exact hone ▸ List.le_sum_of_mem (List.mem_map_of_mem hmem)
    have hle : (if DecidesUnder L c t then 1 else 0) + t.total (missedUnder c) ≤ 1 := by
      rw [hmissed]
      by_cases hd : DecidesUnder L c t
      · rw [if_pos hd, if_neg (hunmissed hd)]
      · rw [if_neg hd]
        split_ifs <;> omega
    cases hret.ending he hs hreach ht hsub hrest with
    | @found q hf _ _ =>
      have hlook : looksUp c ⟨.getPending c, .ok (some q)⟩ = true := by simp [looksUp]
      have hd : ¬ DecidesUnder L c t := fun hd => by simp [hd.unsought hreach ht _ hf] at hlook
      have hnone : ¬ ∃ made ∈ t.calls, missedUnder c made = 1 := by
        rintro ⟨made, hmade, hone⟩
        obtain rfl := eq_of_countP_le_one (lookups_le_one hreach ht) hf hmade hlook
          (looksUp_of_missed (by omega))
        exact absurd hone (by simp [missedUnder])
      rw [if_neg hd, hmissed, if_neg hnone]
      exact Nat.zero_le _
    | parked hp hid _ _ => exact hle.trans (hinserted hp hid)
    | refused hp hid _ => exact hle.trans (hinserted hp hid)
  · have hd : ¬ DecidesUnder L c t := fun ⟨call, hd, _⟩ => hsub ⟨call, hd⟩
    have hnone : ¬ ∃ made ∈ t.calls, missedUnder c made = 1 := by
      rintro ⟨made, hmade, hone⟩
      obtain ⟨call, hlooks, -⟩ :=
        lookup_submits (c := c) hreach ht hmade (looksUp_of_missed (by omega))
      exact hsub ⟨call, hlooks⟩
    rw [if_neg hd, hmissed, if_neg hnone]
    exact Nat.zero_le _

/-- Retries are idempotent as long as one of them at most gets to its INSERT. -/
theorem Retried.idempotent_of_inserts (hle : p.total (insertsUnder c) ≤ 1) :
    RetriesIdempotent L c p := by
  have hreach := h.reachable
  have hsound := pendingsSound_of_reachable hs hreach
  have hcount : idsCount p.state.db c = p.total (parksUnder c) := by
    rw [idsCount_of_reachable hreach, he.pendings, Nat.zero_add]
  have hinserts : p.total (insertsUnder c) = p.total (parksUnder c) + p.total (refusedUnder c) :=
    Pool.total_add (insertsUnder_eq c) p
  have hsingle := idsCount_le_one hsound c
  have hends : ∀ t ∈ p.threads, ∀ call e, SubmittedUnder L c t call → t.rest = .pure e →
      idsCount p.state.db c = 1 ∧ AcceptedUnder c e := by
    intro t ht call e hsub hrest
    have hfound := findings_of_reachable hs hreach t ht
    cases hret.ending he hs hreach ht hsub hrest with
    | found hf ha _ =>
      obtain ⟨r, hr, hid, -⟩ := hfound _ hf
      exact ⟨le_antisymm hsingle (idsCount_pos hr hid), ha⟩
    | @parked req q hp hid ha _ =>
      have hpos : 1 ≤ t.total (parksUnder c) := ParkedUnder.total_pos ⟨req, q, hp, hid⟩
      have hthread := Pool.total_ge (parksUnder c) ht
      exact ⟨by omega, ha⟩
    | @refused req x hp hid _ =>
      exfalso
      have hx : x = .constraintViolation := by
        have havailable := (hret.reviewable t ht call hsub).available _ hp
        simpa [unavailable] using havailable
      obtain ⟨r, hr, hrow⟩ := hfound _ hp hx
      have hpos := idsCount_pos hr (hrow.trans hid)
      have hrefused : p.total (refusedUnder c) ≠ 0 := total_refused ht hp hid
      omega
  exact ⟨hsingle, fun t ht call e hsub hrest => (hends t ht call e hsub hrest).1,
    fun t ht call e hsub hrest => (hends t ht call e hsub hrest).2⟩

theorem Retried.inserts_of_idempotent (hidem : RetriesIdempotent L c p)
    (hanswered : ∀ t ∈ p.threads, ∀ call, SubmittedUnder L c t call → ∃ e, t.rest = .pure e) :
    p.total (insertsUnder c) ≤ 1 := by
  have hreach := h.reachable
  have hsingle := idsCount_le_one (pendingsSound_of_reachable hs hreach) c
  have hcount : idsCount p.state.db c = p.total (parksUnder c) := by
    rw [idsCount_of_reachable hreach, he.pendings, Nat.zero_add]
  have hinserts : p.total (insertsUnder c) = p.total (parksUnder c) + p.total (refusedUnder c) :=
    Pool.total_add (insertsUnder_eq c) p
  have hnone : p.total (refusedUnder c) = 0 := by
    by_contra hne
    obtain ⟨t, ht, made, hmade, hrefused⟩ := Pool.exists_of_total hne
    have hboth := insertsUnder_eq c made
    have hinserted : insertsUnder c made ≠ 0 := by omega
    obtain ⟨call, hsub⟩ := inserted_submits hreach ht hmade hinserted
    obtain ⟨e, hrest⟩ := hanswered t ht call hsub
    cases hret.ending he hs hreach ht hsub hrest with
    | found _ _ hi =>
      have hsame := hi made hmade
      omega
    | parked _ _ _ hi =>
      have hsame := hi made hmade
      omega
    | refused _ _ ha => exact ha (hidem.accepted t ht call e hsub hrest)
  omega

/-- In every run in which the submissions under an unused id are to be reviewed, the
storage is available and the pending stays undecided: retries are idempotent if the
decisions among them, and the lookups made before the pending is stored, are together at
most one; once all submissions are answered, exactly then. -/
theorem retries_idempotent_iff :
    (decisionsUnder L c p + earlyLookups c run ≤ 1 → RetriesIdempotent L c p) ∧
      ((∀ t ∈ p.threads, ∀ call, SubmittedUnder L c t call → ∃ e, t.rest = .pure e) →
        (RetriesIdempotent L c p ↔ decisionsUnder L c p + earlyLookups c run ≤ 1)) := by
  have hmissed := hret.total_missed h
  have hsum : decisionsUnder L c p + p.total (missedUnder c) = _ :=
    Pool.number_add_total (DecidesUnder L c) (missedUnder c) p
  have hupper : p.total (insertsUnder c) ≤ decisionsUnder L c p + earlyLookups c run := by
    rw [← hmissed, hsum]
    exact List.sum_le_sum fun t ht => inserts_le h.reachable ht
  have hsufficient : decisionsUnder L c p + earlyLookups c run ≤ 1 → RetriesIdempotent L c p :=
    fun hle => hret.idempotent_of_inserts he hs h (hupper.trans hle)
  refine ⟨hsufficient, fun hanswered => ⟨fun hidem => ?_, hsufficient⟩⟩
  have hlower : decisionsUnder L c p + earlyLookups c run ≤ p.total (insertsUnder c) := by
    rw [← hmissed, hsum]
    exact List.sum_le_sum fun t ht => hret.inserts_ge he hs h ht (hanswered t ht)
  exact hlower.trans (hret.inserts_of_idempotent he hs h hidem hanswered)

end Retrying

end Runs

section Twice

variable {L : Libraries} {job : McpJob} {call : McpCall} {b : ServerExecutionBinding}
  {binding : Option ServerExecutionBinding} {w : World} {i : Uuid}

/-- A decision in enforce mode that is to be reviewed. -/
structure AsksDecision (L : Libraries) (job : McpJob) (call : McpCall) : Prop
    extends Asks L job call none where
  noExecution : call.serverExecution = none

theorem decision_parks (h : AsksDecision L job call) {used : List Uuid}
    (hq : Quiet used none w.db) (hi : i ∉ used) : ∃ e p end₁ w',
      Prog.RunsTo (McpPerforms L) (job.program L) w
        (reviewedCalls L job call none e
          [⟨.parkPending (parkRequestOf call ⟨brainOf L job.body call, reviewPolicy⟩ none), .ok p⟩,
            ⟨.utcNow, newYear⟩]) end₁ w' ∧
        Quiet (i :: used) (some (waitingRow L job call)) w'.db := by
  obtain ⟨e, w₁, hq₁, hrun⟩ := h.reviewed hq hi
  obtain ⟨p, hparks, hq₂⟩ := hq₁.parks L call ⟨brainOf L job.body call, reviewPolicy⟩ i
  have hnow : ∀ w' : World, McpPerforms L .utcNow w' newYear w' := fun _ => rfl
  exact ⟨e, p, _, _, hrun _ _ _ (review_decision h.yellow h.noExecution
    (park_stored hparks (hnow _))), hq₂⟩

theorem decision_refused (h : AsksDecision L job call) {used : List Uuid}
    (hq : Quiet used (some (waitingRow L job call)) w.db) (hi : i ∉ used) : ∃ e w',
      Prog.RunsTo (McpPerforms L) (job.program L) w
        (reviewedCalls L job call none e
          [⟨.parkPending (parkRequestOf call ⟨brainOf L job.body call, reviewPolicy⟩ none),
            .error .constraintViolation⟩]) (some (parkFailed job.state call.correlationId, [])) w' ∧
        Quiet (i :: used) (some (waitingRow L job call)) w'.db := by
  obtain ⟨e, w₁, hq₁, hrun⟩ := h.reviewed hq hi
  have hrow : waitingRow L job call ∈ w₁.db.pendings := by simp [hq₁.pendings]
  have htaken : McpPerforms L
      (.parkPending (parkRequestOf call ⟨brainOf L job.body call, reviewPolicy⟩ none)) w₁
      (.error .constraintViolation) (w₁.store w₁.db) :=
    ⟨steady i newYear, _, park_taken_steady hrow rfl, rfl⟩
  exact ⟨e, _, hrun _ _ _ (review_decision h.yellow h.noExecution (park_refused htaken)),
    hq₁.fresh, hq₁.pendings, hq₁.executions⟩

/-- An execution that finds the pending it waits for. -/
theorem found_served (h : AsksReview L job call b) {used : List Uuid}
    (hq : Quiet used (some (waitingRow L job call)) w.db) (hi : i ∉ used) : ∃ e p end₁ w',
      Prog.RunsTo (McpPerforms L) (job.program L) w
        (reviewedCalls L job call (some b) e [⟨.getPending call.correlationId, .ok (some p)⟩])
          end₁ w' ∧
        Quiet (i :: used) (some (waitingRow L job call)) w'.db := by
  obtain ⟨e, w₁, hq₁, hrun⟩ := h.reviewed hq hi
  obtain ⟨p, hp, hundecided⟩ :=
    @rowToPending_written L (waitingRow L job call) newYear none rfl rfl
  have hfound : (w₁.db.pendings.find? fun r =>
      r.correlationId = call.correlationId ∧ r.OfTenant none) = some (waitingRow L job call) := by
    have hid : (waitingRow L job call).correlationId = call.correlationId := rfl
    simp [hq₁.pendings, hid, PendingRow.OfTenant]
  have hget : McpPerforms L (.getPending call.correlationId) w₁ (.ok (some p)) w₁ :=
    ⟨steady i newYear, w₁.db, getPending_steady hfound (by rw [Option.mapM_some, hp]; rfl), rfl⟩
  have hnone : p.decision = none := hundecided
  exact ⟨e, p, _, _, hrun _ _ _ (review_execution h.yellow h.execution
    (reviewExecution_waits (by simp [hnone]) (by simp [hnone]) hget)), hq₁⟩

theorem Asks.starts (h : Asks L job call binding) (e : LedgerEntry) (late : McpCalls) :
    Starts L job call (reviewedCalls L job call binding e late) := ⟨_, _, rfl, h.passes⟩

/-- Neither a limiter nor a policy is asked, and the storage answers. -/
def settled (made : Call McpOp) : Bool :=
  !isThrottle made && !isEvaluation made && !unavailable made

theorem settled_of_reviewed {e : LedgerEntry} {late : McpCalls}
    (hlate : late.all settled = true) {made : Call McpOp}
    (hm : made ∈ reviewedCalls L job call binding e late) :
    made = evaluation L job call reviewPolicy ∨ settled made = true := by
  simp only [reviewedCalls, List.mem_cons, List.mem_append] at hm
  rcases hm with rfl | hm | rfl | rfl | hm
  · exact Or.inr rfl
  · cases binding with
    | none => exact absurd hm List.not_mem_nil
    | some b =>
      obtain rfl := List.mem_singleton.mp hm
      exact Or.inr rfl
  · exact Or.inl rfl
  · exact Or.inr rfl
  · exact Or.inr (List.all_eq_true.mp hlate made hm)

/-- A request that got to its review is to be reviewed. -/
theorem Asks.reviewable (h : Asks L job call binding) {e : LedgerEntry} {late : McpCalls}
    (hlate : late.all settled = true) :
    Reviewable L job call (reviewedCalls L job call binding e late) where
  enforce := h.enforce
  tool := h.tool
  callback := ⟨none, h.url⟩
  readable := h.readable
  unthrottled made hm := by
    rcases settled_of_reviewed hlate hm with rfl | hs
    · rfl
    · simp only [settled, Bool.and_eq_true, Bool.not_eq_true'] at hs
      exact hs.1.1
  yellow policy hm := by
    rcases settled_of_reviewed hlate hm with he | hs
    · have hpolicy : policy = reviewPolicy := by simpa [evaluation] using he
      rw [hpolicy]
      exact reviewPolicy_yellow h.routine
    · exact absurd hs (by simp [settled, isEvaluation, evaluation])
  available made hm := by
    rcases settled_of_reviewed hlate hm with rfl | hs
    · rfl
    · simp only [settled, Bool.and_eq_true, Bool.not_eq_true'] at hs
      exact hs.2

theorem Quiet.undecided {used : List Uuid} {db : Db}
    (hq : Quiet used (some (waitingRow L job call)) db) : ∀ r ∈ db.pendings, r.decision = none := by
  intro r hr
  rw [hq.pendings] at hr
  rw [List.mem_singleton.mp hr]
  rfl

theorem unused_fresh (c : String) : Unused c freshWorld.db := ⟨rfl, rfl⟩

/-- The request is submitted twice and stays undecided. -/
theorem Asks.retried (h : Asks L job call binding) {w : World} {used : List Uuid}
    (hq : Quiet used (some (waitingRow L job call)) w.db) {late₁ late₂ : McpCalls}
    (hlate₁ : late₁.all settled = true) (hlate₂ : late₂.all settled = true)
    (e₁ e₂ : LedgerEntry) (end₁ end₂ : Ended) (c : String) :
    Retried L c ⟨w, [⟨job, reviewedCalls L job call binding e₁ late₁, .pure end₁⟩,
      ⟨job, reviewedCalls L job call binding e₂ late₂, .pure end₂⟩]⟩ := by
  refine ⟨fun t ht call' hsub => ?_, fun r hr _ => hq.undecided r hr⟩
  rcases List.mem_cons.mp ht with rfl | ht
  · obtain rfl := hsub.1.unique (h.starts _ _)
    exact h.reviewable hlate₁
  · obtain rfl := List.mem_singleton.mp ht
    obtain rfl := hsub.1.unique (h.starts _ _)
    exact h.reviewable hlate₂

/-- The decision is asked for again. -/
theorem decision_twice (h : AsksDecision L job call) : ∃ p : Pool McpOp World McpJob Ended,
    Pool.Reachable (mcpRules L) freshWorld p ∧ Retried L call.correlationId p ∧
      ¬ RetriesIdempotent L call.correlationId p := by
  obtain ⟨e₁, q, end₁, w₁, hrun₁, hq₁⟩ :=
    decision_parks (i := numberedUuid 2) h quiet_fresh List.not_mem_nil
  obtain ⟨e₂, w₂, hrun₂, hq₂⟩ := decision_refused (i := numberedUuid 3) h hq₁ (by decide)
  refine ⟨_, served_twice hrun₁ hrun₂, h.retried hq₂ rfl rfl _ _ _ _ _, fun hidem => ?_⟩
  obtain ⟨r, notes, he, hstatus, -⟩ := hidem.accepted _
    (List.mem_cons_of_mem _ (List.mem_singleton_self _)) call _ ⟨h.starts _ _, rfl⟩ rfl
  obtain ⟨rfl, -⟩ := Prod.mk.inj (Option.some.inj he)
  exact absurd hstatus (by simp [parkFailed, plainResponse])

/-- The execution is asked for again, after its pending was stored. -/
theorem execution_twice (h : AsksReview L job call b) : ∃ w t₁ t₂ run,
    Pool.Run (mcpRules L) freshWorld run ⟨w, [t₁, t₂]⟩ ∧
      Retried L call.correlationId ⟨w, [t₁, t₂]⟩ ∧
      (∀ t ∈ [t₁, t₂], SubmittedUnder L call.correlationId t call ∧ ∃ e, t.rest = .pure e) ∧
      decisionsUnder L call.correlationId ⟨w, [t₁, t₂]⟩ +
        earlyLookups call.correlationId run ≤ 1 := by
  obtain ⟨e₁, q, end₁, w₁, hrun₁, hq₁⟩ :=
    parks_served (i := numberedUuid 2) h quiet_fresh List.not_mem_nil
  obtain ⟨e₂, q', end₂, w₂, hrun₂, hq₂⟩ := found_served (i := numberedUuid 3) h hq₁ (by decide)
  obtain ⟨run, hrun⟩ := Pool.Reachable.recorded (served_twice hrun₁ hrun₂)
  have hparked : List.all [⟨.getPending call.correlationId, .ok none⟩,
      ⟨.parkPending (parkRequestOf call ⟨brainOf L job.body call, reviewPolicy⟩ none), .ok q⟩,
      ⟨.utcNow, newYear⟩] settled = true := rfl
  have hfound : List.all [⟨.getPending call.correlationId, .ok (some q')⟩] settled = true := rfl
  have hret := h.retried hq₂ hparked hfound e₁ e₂ end₁ end₂ call.correlationId
  refine ⟨w₂, _, _, run, hrun, hret, ?_, ?_⟩
  · intro t ht
    simp only [List.mem_cons, List.not_mem_nil, or_false] at ht
    rcases ht with rfl | rfl
    · exact ⟨⟨h.starts _ _, rfl⟩, _, rfl⟩
    · exact ⟨⟨h.starts _ _, rfl⟩, _, rfl⟩
  · rw [← hret.total_missed hrun, decisionsUnder, Pool.number_eq_zero.mpr ?_]
    · simp [Pool.total, Thread.total, reviewedCalls, inspectPart, missedUnder, evaluation]
    · rintro t ht ⟨call', hsub, hdecision⟩
      simp only [List.mem_cons, List.not_mem_nil, or_false] at ht
      rcases ht with rfl | rfl
      · obtain rfl := hsub.1.unique (h.starts _ _)
        simp [h.noDecision] at hdecision
      · obtain rfl := hsub.1.unique (h.starts _ _)
        simp [h.noDecision] at hdecision

end Twice

/-- The decision is asked of a process that enforces. -/
def reviewedDecision : McpJob where
  state := { decisionJob.state with mode := .enforce }
  headers := decisionJob.headers
  body := decisionJob.body

theorem reviewedDecision_asks : ∃ call, AsksDecision plainLibraries reviewedDecision call := by
  have heval : ((gates plainLibraries reviewedDecision.state reviewedDecision.headers
      reviewedDecision.body (numberedUuid 1).text).toOption.any fun call =>
        call.serverExecution.isNone && !isMcpControlMethod call.parsed.method &&
          (brainOf plainLibraries reviewedDecision.body call).authorized) = true := by
    decide +kernel
  have hbody : (fromSlice plainLibraries.floats reviewedDecision.body).isSome = true := by
    decide +kernel
  have hurl : reviewedDecision.headers.get "x-clavenar-callback-url" = none := by decide +kernel
  obtain ⟨call, hg, hcall⟩ := (Option.any_eq_true _ _).mp heval
  simp only [Bool.and_eq_true, Bool.not_eq_true', Option.isNone_iff_eq_none] at hcall
  obtain ⟨⟨hs, hm⟩, hroutine⟩ := hcall
  exact ⟨call, {
    passes := ok_of_toOption hg
    unlimited := rfl
    enforce := rfl
    url := by
      rw [validateCallbackUrl, hurl]
      rfl
    tool := hm
    bound := Or.inl ⟨hs, rfl⟩
    readable := hbody
    routine := hroutine
    noExecution := hs }⟩

/-- A transfer is submitted twice under one id, and answered with its pending both times. -/
theorem retries_idempotent_parked : ∃ (c : String) (w : World)
    (t₁ t₂ : Thread McpOp McpJob Ended) (run : List (Moment McpOp World)),
    Pool.Run (mcpRules plainLibraries) freshWorld run ⟨w, [t₁, t₂]⟩ ∧
      (∀ t ∈ [t₁, t₂], ∃ call e, SubmittedUnder plainLibraries c t call ∧ t.rest = .pure e) ∧
      RetriesIdempotent plainLibraries c ⟨w, [t₁, t₂]⟩ := by
  obtain ⟨call, b, hasks, -⟩ := transfer_asks
  obtain ⟨w, t₁, t₂, run, hrun, hret, hsub, hle⟩ := execution_twice hasks
  refine ⟨_, w, t₁, t₂, run, hrun, fun t ht => ?_,
    (retries_idempotent_iff (unused_fresh _) (pendingsSound_of_empty rfl) hrun hret).1 hle⟩
  obtain ⟨hsubmitted, e, hrest⟩ := hsub t ht
  exact ⟨call, e, hsubmitted, hrest⟩

/-- The decision is asked for again, and its INSERT finds the id taken. -/
theorem decision_retry_fails : ∃ (c : String) (p : Pool McpOp World McpJob Ended),
    Pool.Reachable (mcpRules plainLibraries) freshWorld p ∧ Unused c freshWorld.db ∧
      Retried plainLibraries c p ∧ ¬ RetriesIdempotent plainLibraries c p := by
  obtain ⟨call, hasks⟩ := reviewedDecision_asks
  obtain ⟨p, hreach, hret, hnot⟩ := decision_twice hasks
  exact ⟨_, p, hreach, unused_fresh _, hret, hnot⟩

end ClavenarLite
