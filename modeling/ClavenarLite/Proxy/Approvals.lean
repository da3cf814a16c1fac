import ClavenarLite.Proxy.Audit
import ClavenarLite.Proxy.Gating

/-! What an approval was given for. A pending is kept under a correlation id alone, so an
execution that resumes on it need not be the request it was parked for. -/

namespace ClavenarLite

open Bytes Fallible Interaction Rfc3339 TextJson Transaction

section Requests

variable (L : Libraries)

/-- The digest of the request as it is bound to an execution. -/
def requestDigest (body : Octets) : Option String :=
  (fromSlice L.floats body).map fun value => sha256Label (utf8 (value.text L.floats))

/-- The two ask for the same effect in the same name. -/
structure SameEffect (body : Octets) (call : McpCall) (body' : Octets) (call' : McpCall) : Prop where
  identity : call.identity = call'.identity
  method : call.parsed.method = call'.parsed.method
  tool : toolType call.parsed = toolType call'.parsed
  digest : requestDigest L body = requestDigest L body'

/-- An execution that needed a review has gone on to begin, and was sent. -/
def Resumed (t : Thread McpOp McpJob Ended) (call : McpCall) : Prop :=
  ∃ b v pre i body answer late, Released L t.job call (some b) v pre ∧ NeedsReview t.job v ∧
    t.calls = pre ++ ⟨.beginServerExecution i b, .ok .started⟩ :: ⟨.send body, answer⟩ :: late

/-- The request was parked under the id. -/
def ParkedUnder (correlationId : String) (t : Thread McpOp McpJob Ended) : Prop :=
  ∃ req parked, ⟨.parkPending req, .ok parked⟩ ∈ t.calls ∧ req.correlationId = correlationId

/-- The row is of the request, and was decided to be allowed. -/
structure ApprovedRow (call : McpCall) (row : PendingRow) : Prop where
  correlation : row.correlationId = call.correlationId
  tenant : row.tenant = call.identity.tenant
  agent : row.agentId = call.identity.agentId
  method : row.method = call.parsed.method
  tool : row.toolType = toolType call.parsed
  decision : row.decision = some "allow"

/-- What was approved is what goes on: every resumed execution finds under its id an
approved row of its own, parked for a request with the same digest. -/
def ApprovalBinds (p : Pool McpOp World McpJob Ended) : Prop :=
  ∀ t ∈ p.threads, ∀ call, Resumed L t call →
    (∃ row ∈ p.state.db.pendings, ApprovedRow call row) ∧
    ∃ t' ∈ p.threads, ∃ call', Starts L t'.job call' t'.calls ∧
      ParkedUnder call.correlationId t' ∧ SameEffect L t.job.body call t'.job.body call'

/-- Requests that pass with one id ask for one effect. -/
def IdsBind (p : Pool McpOp World McpJob Ended) : Prop :=
  ∀ t ∈ p.threads, ∀ t' ∈ p.threads, ∀ call call', Starts L t.job call t.calls →
    Starts L t'.job call' t'.calls → call.correlationId = call'.correlationId →
      SameEffect L t.job.body call t'.job.body call'

/-- No execution resumes under an id that a request with another effect was parked under. -/
def ResumesOwn (p : Pool McpOp World McpJob Ended) : Prop :=
  ∀ t ∈ p.threads, ∀ call, Resumed L t call → ∀ t' ∈ p.threads, ∀ call',
    Starts L t'.job call' t'.calls → ParkedUnder call.correlationId t' →
      SameEffect L t.job.body call t'.job.body call'

end Requests

section Rows

variable {F : FloatText} {L : Libraries} {db db' : Db} {made : Call McpOp}

/-- The columns of the row are those of the parked request. -/
structure PendingRow.AskedBy (r : PendingRow) (req : ParkRequest) : Prop where
  correlation : r.correlationId = req.correlationId
  tenant : r.tenant = req.tenant
  agent : r.agentId = req.agentId
  tool : r.toolType = req.toolType
  method : r.method = req.method

/-- A parked request stays in the file. -/
def ParkHolds : Call McpOp → Db → Prop
  | ⟨.parkPending req, .ok _⟩, db => ∃ r ∈ db.pendings, r.AskedBy req
  | _, _ => True

def idsCount (db : Db) (correlationId : String) : Nat :=
  (db.pendings.map PendingRow.correlationId).count correlationId

/-- A call that parked under the id. -/
def parksUnder (correlationId : String) : Call McpOp → Nat
  | ⟨.parkPending req, .ok _⟩ => if req.correlationId = correlationId then 1 else 0
  | _ => 0

theorem decidedRows_map {β : Type} {g : PendingRow → β} (hg : ∀ r at' d n, g (r.decided at' d n) = g r)
    (id : String) (tenant : Option String) (decidedAt decision : String) (note : Option String)
    (rows : List PendingRow) :
    (decidedRows id tenant decidedAt decision note rows).map g = rows.map g := by
  rw [decidedRows, List.map_map]
  refine List.map_congr_left fun r _ => ?_
  rw [Function.comp_apply]
  split_ifs
  · exact hg r decidedAt decision note
  · rfl

theorem ParkHolds.of_pendings (h : ParkHolds made db) (hp : db'.pendings = db.pendings) :
    ParkHolds made db' := by
  unfold ParkHolds at h ⊢
  split
  · rwa [hp]
  · trivial

theorem ParkHolds.change {made' : Call McpOp} (h : ParkHolds made db) (hc : Change F made' db db') :
    ParkHolds made db' := by
  rcases hc.pendings with hp | ⟨req, p, now, -, -, hp⟩
  · exact h.of_pendings hp
  · unfold ParkHolds at h ⊢
    split
    · obtain ⟨r, hr, hasked⟩ := h
      exact ⟨r, by rw [hp]; exact List.mem_append_left _ hr, hasked⟩
    · trivial

theorem ParkHolds.meanwhile (h : ParkHolds made db) (hm : Meanwhile F db db') :
    ParkHolds made db' := by
  rcases hm.pendings with hp | ⟨id, decision, decidedAt, tenant, note, -, hp⟩
  · exact h.of_pendings hp
  · unfold ParkHolds at h ⊢
    split
    · obtain ⟨r, hr, hasked⟩ := h
      refine ⟨_, by rw [hp]; exact List.mem_map_of_mem hr, ?_⟩
      split_ifs
      · exact ⟨hasked.1, hasked.2, hasked.3, hasked.4, hasked.5⟩
      · exact hasked
    · trivial

theorem ParkHolds.new {β : Type} {op : McpOp β} {b : β} {w w' : World}
    (h : McpPerforms L op w b w') : ParkHolds ⟨op, b⟩ w'.db := by
  cases op with
  | parkPending req =>
    cases b with
    | error e => trivial
    | ok p =>
      obtain ⟨-, now, hdb⟩ := h.writes
      have hrow : parkedRow L.floats req now ∈ w'.db.pendings := by
        rw [hdb]
        exact List.mem_append_right _ (List.mem_singleton_self _)
      exact ⟨_, hrow, rfl, rfl, rfl, rfl, rfl⟩
  | _ => trivial

theorem Change.idsCount (h : Change F made db db') (c : String) :
    idsCount db' c = idsCount db c + parksUnder c made := by
  cases h with
  | unchanged hm h =>
    have hnone : parksUnder c made = 0 := by
      unfold parksUnder
      split
      · exact absurd hm (by simp [isWrite])
      · rfl
    rw [h, hnone, Nat.add_zero]
  | appends hm h =>
    rw [hm, ClavenarLite.idsCount, (appends_tables ⟨_, h⟩).2.2]
    rfl
  | @parks req p now hm _ h =>
    rw [hm, ClavenarLite.idsCount, h, List.map_append, List.count_append, List.map_singleton,
      ClavenarLite.idsCount]
    have hid : (parkedRow F req now).correlationId = req.correlationId := rfl
    rw [hid]
    by_cases hc : req.correlationId = c
    · simp [parksUnder, hc]
    · simp [parksUnder, hc]
  | begins hm h =>
    rw [hm, ClavenarLite.idsCount, h.pendings]
    rfl
  | completes hm h =>
    rw [hm, ClavenarLite.idsCount, h.pendings]
    rfl

theorem Meanwhile.idsCount (h : Meanwhile F db db') (c : String) :
    idsCount db' c = idsCount db c := by
  rcases h.pendings with hp | ⟨id, decision, decidedAt, tenant, note, -, hp⟩
  · rw [ClavenarLite.idsCount, hp, ClavenarLite.idsCount]
  · rw [ClavenarLite.idsCount, hp, decidedRows_map fun _ _ _ _ => rfl, ClavenarLite.idsCount]

end Rows

section Runs

variable {L : Libraries} {w₀ : World} {p : Pool McpOp World McpJob Ended}
  {t t' : Thread McpOp McpJob Ended} {call call' : McpCall} {c : String}

theorem idsCount_le_one {db : Db} (h : PendingsSound db) (c : String) : idsCount db c ≤ 1 :=
  List.nodup_iff_count_le_one.mp h.distinct c

theorem parkHolds_of_reachable (h : Pool.Reachable (mcpRules L) w₀ p) :
    ∀ t ∈ p.threads, ∀ made ∈ t.calls, ParkHolds made p.state.db :=
  h.calls_hold (Q := fun _ => True) (K := fun made w => ParkHolds made w.db)
    (fun _ => handleMcp_obeys) (fun _ _ => trivial) (fun _ _ _ _ _ _ _ _ hp _ _ => ParkHolds.new hp)
    (fun _ _ _ _ _ hp hk => hk.change (McpPerforms.change hp))
    fun _ _ _ ho hk => hk.meanwhile (Outside.change ho)

/-- The rows under an id gain those that requests of the run have parked. -/
theorem idsCount_of_reachable (h : Pool.Reachable (mcpRules L) w₀ p) (c : String) :
    idsCount p.state.db c = idsCount w₀.db c + p.total (parksUnder c) :=
  h.accounts (Q := fun _ => True) (f := fun w => idsCount w.db c) (g := parksUnder c)
    (fun _ => handleMcp_obeys) (fun _ _ => trivial)
    (fun _ _ _ _ _ _ _ _ hp _ => (McpPerforms.change hp).idsCount c)
    fun _ _ ho => (Outside.change ho).idsCount c

theorem idsCount_parked (he : w₀.db.pendings = []) (h : Pool.Reachable (mcpRules L) w₀ p)
    (c : String) : idsCount p.state.db c = p.total (parksUnder c) := by
  have hnone : idsCount w₀.db c = 0 := by simp [idsCount, he]
  rw [idsCount_of_reachable h, hnone, Nat.zero_add]

theorem parksUnder_pos {made : Call McpOp} (h : parksUnder c made ≠ 0) :
    ∃ req parked, made = ⟨.parkPending req, .ok parked⟩ ∧ req.correlationId = c := by
  unfold parksUnder at h
  split at h
  · next req parked =>
    split_ifs at h with hc
    · exact ⟨req, parked, rfl, hc⟩
    · exact absurd rfl h
  · exact absurd rfl h

theorem ParkedUnder.total_pos (h : ParkedUnder c t) : 1 ≤ t.total (parksUnder c) := by
  obtain ⟨req, parked, hmem, hc⟩ := h
  have hone : parksUnder c ⟨.parkPending req, .ok parked⟩ = 1 := if_pos hc
  exact hone ▸ List.le_sum_of_mem (List.mem_map_of_mem hmem)

/-- No two requests park under the same id. -/
theorem parked_unique (he : w₀.db.pendings = []) (h : Pool.Reachable (mcpRules L) w₀ p)
    (hs : PendingsSound p.state.db) (ht : t ∈ p.threads) (ht' : t' ∈ p.threads)
    (hp : ParkedUnder c t) (hp' : ParkedUnder c t') : t = t' := by
  have hone : p.total (parksUnder c) ≤ 1 := by
    rw [← idsCount_parked he h]
    exact idsCount_le_one hs c
  exact Pool.eq_of_total_le_one hone ht ht' hp.total_pos hp'.total_pos

/-- A pending that is in the file was parked by a request of the run. -/
theorem parked_of_row (he : w₀.db.pendings = []) (h : Pool.Reachable (mcpRules L) w₀ p)
    {row : PendingRow} (hrow : row ∈ p.state.db.pendings) :
    ∃ t ∈ p.threads, ParkedUnder row.correlationId t := by
  have hpos : 0 < idsCount p.state.db row.correlationId :=
    List.count_pos_iff.mpr (List.mem_map_of_mem hrow)
  rw [idsCount_parked he h] at hpos
  obtain ⟨t, ht, made, hmade, hne⟩ := Pool.exists_of_total hpos.ne'
  obtain ⟨req, parked, rfl, hc⟩ := parksUnder_pos hne
  exact ⟨t, ht, req, parked, hmade, hc⟩

/-- A parked request is the one that its thread handles. -/
theorem parked_starts (h : Pool.Reachable (mcpRules L) w₀ p) (ht : t ∈ p.threads)
    {req : ParkRequest} {parked : Pending} (hmem : ⟨.parkPending req, .ok parked⟩ ∈ t.calls) :
    ∃ call v url, Starts L t.job call t.calls ∧ req = parkRequestOf call v url := by
  obtain ⟨before, after, hcalls⟩ := List.append_of_mem hmem
  obtain ⟨call, v, binding, url, pre, hj, -, hreq, hcs⟩ := rule_of_follows (h.follows t ht) hcalls
  refine ⟨call, v, url, ?_, hreq⟩
  rw [hcalls, hcs]
  exact (hj.passes.append _).append _

theorem Resumed.approved (h : Resumed L t call) : Approved call t.calls := by
  obtain ⟨b, v, pre, i, body, answer, late, ⟨⟨judged, -, hr⟩, -⟩, hn, hcalls⟩ := h
  rcases hr with ⟨hnot, -⟩ | ⟨-, -, found, hallow, hpre⟩
  · exact absurd hn hnot
  · exact ⟨found, hallow, by rw [hcalls, hpre]; simp⟩

theorem Resumed.starts (h : Resumed L t call) : Starts L t.job call t.calls := by
  obtain ⟨b, v, pre, i, body, answer, late, hr, -, hcalls⟩ := h
  rw [hcalls]
  exact hr.passes.append _

theorem pendingsSound_of_empty {db : Db} (he : db.pendings = []) : PendingsSound db where
  distinct := by simp [he]
  stamped r hr := absurd hr (by simp [he])
  values r hr := absurd hr (by simp [he])

/-- A resumed execution has an approved row under its id, and a request of the run parked it. -/
theorem resumed_row (he : w₀.db.pendings = []) (h : Pool.Reachable (mcpRules L) w₀ p)
    (ht : t ∈ p.threads) (hr : Resumed L t call) :
    ∃ row ∈ p.state.db.pendings, row.correlationId = call.correlationId ∧
      row.decision = some "allow" ∧ ∃ t' ∈ p.threads, ParkedUnder call.correlationId t' ∧
        ∃ call' v url, Starts L t'.job call' t'.calls ∧ row.AskedBy (parkRequestOf call' v url) := by
  have hsound := pendingsSound_of_reachable (pendingsSound_of_empty he) h
  obtain ⟨row, hrow, hid, hallow, -⟩ :=
    approved_of_reachable (pendingsSound_of_empty he) h ht hr.approved
  obtain ⟨t', ht', req, parked, hmem, hc⟩ := parked_of_row he h hrow
  rw [hid] at hc
  obtain ⟨call', v, url, hs, hreq⟩ := parked_starts h ht' hmem
  obtain ⟨row', hrow', hasked⟩ := parkHolds_of_reachable h t' ht' _ hmem
  have hsame : row = row' := List.inj_on_of_nodup_map hsound.distinct hrow hrow'
    (by rw [hid, hasked.correlation, hc])
  exact ⟨row, hrow, hid, hallow, t', ht', ⟨req, parked, hmem, hc⟩, call', v, url, hs,
    by rw [hsame, ← hreq]; exact hasked⟩

theorem approvalBinds_iff (he : w₀.db.pendings = []) (h : Pool.Reachable (mcpRules L) w₀ p) :
    ApprovalBinds L p ↔ ResumesOwn L p := by
  constructor
  · intro hbinds t ht call hr t' ht' call' hs' hparked
    obtain ⟨-, t₀, ht₀, call₀, hs₀, hparked₀, hsame⟩ := hbinds t ht call hr
    have hsound := pendingsSound_of_reachable (pendingsSound_of_empty he) h
    obtain rfl := parked_unique he h hsound ht' ht₀ hparked hparked₀
    rwa [hs'.unique hs₀]
  · intro hsame t ht call hr
    obtain ⟨row, hrow, hid, hallow, t', ht', hparked, call', v, url, hs', hasked⟩ :=
      resumed_row he h ht hr
    have heffect := hsame t ht call hr t' ht' call' hs' hparked
    refine ⟨⟨row, hrow, ?_⟩, t', ht', call', hs', hparked, heffect⟩
    exact {
      correlation := hid
      tenant := hasked.tenant.trans (congrArg AgentIdentity.tenant heffect.identity).symm
      agent := hasked.agent.trans (congrArg AgentIdentity.agentId heffect.identity).symm
      method := hasked.method.trans heffect.method.symm
      tool := hasked.tool.trans heffect.tool.symm
      decision := hallow }

theorem IdsBind.resumesOwn (h : Pool.Reachable (mcpRules L) w₀ p) (hids : IdsBind L p) :
    ResumesOwn L p := by
  intro t ht call hr t' ht' call' hs' hparked
  obtain ⟨req, parked, hmem, hc⟩ := hparked
  obtain ⟨call₀, v, url, hs₀, rfl⟩ := parked_starts h ht' hmem
  obtain rfl := hs'.unique hs₀
  exact hids t ht t' ht' call call' hr.starts hs' hc.symm

/-- In every run on a ledger without pendings, what was approved is what goes on if every two
requests with the same id ask for the same effect. An id is parked once, so whatever was parked
under the id of a resumed execution then had its effect. -/
theorem approval_binds_iff (he : w₀.db.pendings = []) (h : Pool.Reachable (mcpRules L) w₀ p) :
    (IdsBind L p → ApprovalBinds L p) ∧ (ApprovalBinds L p ↔ ResumesOwn L p) :=
  ⟨fun hids => (approvalBinds_iff he h).mpr (hids.resumesOwn h), approvalBinds_iff he h⟩

end Runs

section Pair

variable {L : Libraries} {job job₁ job₂ : McpJob} {call call₁ call₂ : McpCall}
  {b b₁ b₂ : ServerExecutionBinding} {db : Db} {w : World} {i : Uuid}

/-- The review that every request is put to. -/
def reviewPolicy : PolicyDecision :=
  decisionOf (.bool true) (.set []) (.set [.string "a transfer needs a review"])

/-- A request in enforce mode that gets to its review. -/
structure Asks (L : Libraries) (job : McpJob) (call : McpCall)
    (binding : Option ServerExecutionBinding) : Prop where
  passes : gates L job.state job.headers job.body (numberedUuid 1).text = .ok call
  unlimited : job.state.rateLimited = false
  enforce : job.state.mode = .enforce
  url : validateCallbackUrl L job.state job.headers = .ok none
  tool : isMcpControlMethod call.parsed.method = false
  bound : Bound L job call binding
  readable : (fromSlice L.floats job.body).isSome
  routine : (brainOf L job.body call).authorized = true

/-- An execution that waits for a review. -/
structure AsksReview (L : Libraries) (job : McpJob) (call : McpCall) (b : ServerExecutionBinding) :
    Prop extends Asks L job call (some b) where
  execution : call.serverExecution.isSome
  noDecision : call.decision = none

theorem reviewPolicy_yellow (h : (brainOf L job.body call).authorized = true) :
    (⟨brainOf L job.body call, reviewPolicy⟩ : Verdict).tier = .yellow := by
  refine classify_yellow.mpr ⟨h, rfl, ?_⟩
  show extractReasons (.set [.string "a transfer needs a review"]) ≠ []
  simp [extractReasons, RegoValue.str?]

theorem Asks.yellow {binding : Option ServerExecutionBinding} (h : Asks L job call binding) :
    NeedsReview job ⟨brainOf L job.body call, reviewPolicy⟩ :=
  ⟨reviewPolicy_yellow h.routine, h.enforce⟩

/-- No execution and at most this pending is stored, and entries of these ids. -/
structure Quiet (used : List Uuid) (row : Option PendingRow) (db : Db) : Prop where
  fresh : ∀ u, u ∉ used → db.FreshId u
  pendings : db.pendings = row.toList
  executions : db.serverExecutions = []

theorem Quiet.withEntry {used : List Uuid} {row : Option PendingRow} {t : Clock} {req : LogRequest}
    (h : Quiet used row db) :
    Quiet (i :: used) row (db.withEntry ((entryFor L.floats db i t req).row L.floats)) where
  fresh u hu := (h.fresh u fun hm => hu (List.mem_cons_of_mem _ hm)).withEntry
    fun he => hu (he ▸ List.mem_cons_self)
  pendings := h.pendings
  executions := h.executions

theorem Quiet.unknown {used : List Uuid} {row : Option PendingRow} (h : Quiet used row db) :
    db.findExecution b.key = none :=
  Db.findExecution_none.mpr fun r hr => absurd hr (by simp [h.executions])

/-- The pending that a request waits for. -/
def waitingRow (L : Libraries) (job : McpJob) (call : McpCall) : PendingRow :=
  parkedRow L.floats (parkRequestOf call ⟨brainOf L job.body call, reviewPolicy⟩ none) newYear

/-- A row whose times were written is read. -/
theorem rowToPending_written {row : PendingRow} {t : Clock} {decidedAt : Option Clock}
    (hr : row.requestedAt = toRfc3339 t)
    (hd : row.decidedAt = decidedAt.map fun c : Clock => toRfc3339 c) :
    ∃ p, rowToPending L.floats row = .ok p ∧ p.decision = row.decision := by
  have hread : ∃ p, rowToPending L.floats row = .ok p := by
    cases decidedAt with
    | none =>
      simp only [rowToPending, timestampColumn, hr, hd, parseFromRfc3339_toRfc3339 t.property]
      exact ⟨_, rfl⟩
    | some c =>
      simp only [rowToPending, timestampColumn, hr, hd, Option.map_some, Option.mapM_some,
        parseFromRfc3339_toRfc3339 t.property, parseFromRfc3339_toRfc3339 c.property]
      exact ⟨_, rfl⟩
  obtain ⟨p, hp⟩ := hread
  exact ⟨p, hp, rowToPending_decision hp⟩

theorem AsksReview.judged (h : AsksReview L job call b) (policy : PolicyDecision)
    (r : Except SqlError LedgerEntry) :
    Judged L job call (some b) ⟨brainOf L job.body call, policy⟩
      (⟨.newV4, numberedUuid 1⟩ :: (inspectPart (some b) ++ [evaluation L job call policy,
        ⟨.append (verdictRequest call ⟨brainOf L job.body call, policy⟩), r⟩])) := by
  refine ⟨_, r, ⟨_, ⟨numberedUuid 1, h.passes, rfl⟩, h.tool, h.bound, rfl⟩, rfl, ?_⟩
  simp [ratePart, h.unlimited]

/-- The calls of a request that gets to its review, and those of the review. -/
def reviewedCalls (L : Libraries) (job : McpJob) (call : McpCall)
    (binding : Option ServerExecutionBinding) (e : LedgerEntry) (late : McpCalls) : McpCalls :=
  ⟨.newV4, numberedUuid 1⟩ :: (inspectPart binding ++ evaluation L job call reviewPolicy ::
    ⟨.append (verdictRequest call ⟨brainOf L job.body call, reviewPolicy⟩), .ok e⟩ :: late)

/-- A request up to its review, and what follows from there. -/
theorem Asks.reviewed {binding : Option ServerExecutionBinding} (h : Asks L job call binding)
    {used : List Uuid} {row : Option PendingRow} (hq : Quiet used row w.db) (hi : i ∉ used) :
    ∃ e w₁, Quiet (i :: used) row w₁.db ∧ ∀ late ending w', RunsTo (McpPerforms L)
      (review job.state call ⟨brainOf L job.body call, reviewPolicy⟩ none) w₁ late
        (.error ending) w' →
      Prog.RunsTo (McpPerforms L) (job.program L) w (reviewedCalls L job call binding e late)
        ending w' := by
  obtain ⟨w₁, he, hdb⟩ := performs_evaluate (L := L) (w := w) job.state.instanceId
    (policyInput L job.body call) (.bool true) (.set [])
    (.set [.string "a transfer needs a review"])
  have hq₁ : Quiet used row w₁.db := hdb ▸ hq
  have hinspect : RunsTo (McpPerforms L) (binding.elim (return) (inspectBinding job.state call)) w
      (inspectPart binding) (.ok ()) w := by
    cases binding with
    | none => exact inspect_none
    | some b => exact inspect_missing (performs_inspect hq.unknown)
  exact ⟨_, _, hq₁.withEntry, fun late ending w' hreview =>
    review_alone h.passes h.unlimited h.url h.tool h.bound rfl rfl hinspect he
      (performs_append (t := newYear) (hq₁.fresh i hi)) hreview⟩

/-- The INSERT of a request whose id is free. -/
theorem Quiet.parks (L : Libraries) (call : McpCall) (v : Verdict) (i : Uuid) {used : List Uuid}
    (hq : Quiet used none w.db) :
    ∃ p, McpPerforms L (.parkPending (parkRequestOf call v none)) w (.ok p)
        (w.store { w.db with pendings := w.db.pendings ++
          [parkedRow L.floats (parkRequestOf call v none) newYear] }) ∧
      Quiet used (some (parkedRow L.floats (parkRequestOf call v none) newYear))
        { w.db with pendings := w.db.pendings ++
          [parkedRow L.floats (parkRequestOf call v none) newYear] } := by
  have hfree : ∀ r ∈ w.db.pendings, r.correlationId ≠ (parkRequestOf call v none).correlationId :=
    fun r hr => absurd hr (by simp [hq.pendings])
  obtain ⟨p, hpark⟩ := park_steady (F := L.floats) (u := i) (t := newYear) hfree
  exact ⟨p, ⟨steady i newYear, _, hpark, rfl⟩, hq.fresh, by simp [hq.pendings], hq.executions⟩

theorem parks_served (h : AsksReview L job call b) {used : List Uuid}
    (hq : Quiet used none w.db) (hi : i ∉ used) : ∃ e p end₁ w',
      Prog.RunsTo (McpPerforms L) (job.program L) w
        (reviewedCalls L job call (some b) e [⟨.getPending call.correlationId, .ok none⟩,
          ⟨.parkPending (parkRequestOf call ⟨brainOf L job.body call, reviewPolicy⟩ none), .ok p⟩,
          ⟨.utcNow, newYear⟩]) end₁ w' ∧
        Quiet (i :: used) (some (waitingRow L job call)) w'.db := by
  obtain ⟨e, w₁, hq₁, hrun⟩ := h.reviewed hq hi
  have hget : McpPerforms L (.getPending call.correlationId) w₁ (.ok none) w₁ :=
    ⟨steady i newYear, w₁.db, getPending_steady (by rw [hq₁.pendings]) rfl, rfl⟩
  obtain ⟨p, hparks, hq₂⟩ := hq₁.parks L call ⟨brainOf L job.body call, reviewPolicy⟩ i
  have hnow : ∀ w' : World, McpPerforms L .utcNow w' newYear w' := fun _ => rfl
  exact ⟨e, p, _, _, hrun _ _ _ (review_execution h.yellow h.execution
    (reviewExecution_parks hget (park_stored hparks (hnow _)))), hq₂⟩

/-- The operator allows the pending. -/
theorem decide_served (i : Uuid) {used : List Uuid}
    (hq : Quiet used (some (waitingRow L job call)) w.db) : ∃ w', Outside L.floats w w' ∧
      Quiet used (some ((waitingRow L job call).decided (toRfc3339 newYear) "allow" none))
        w'.db := by
  have hid : (waitingRow L job call).correlationId = call.correlationId := rfl
  have hat : (waitingRow L job call).decidedAt = none := rfl
  have hnone : (none : Option Clock).map (fun c : Clock => toRfc3339 c) = none := rfl
  have hat' : (waitingRow L job call).requestedAt = toRfc3339 newYear := rfl
  obtain ⟨p, hp, hd⟩ := rowToPending_written (L := L) hat' (hat.trans hnone.symm)
  have hfound : (w.db.pendings.find? fun r =>
      r.correlationId = call.correlationId ∧ r.OfTenant none) = some (waitingRow L job call) := by
    simp [hq.pendings, hid, PendingRow.OfTenant]
  have hundecided : w.db.pendings.countP (Undecided call.correlationId none) ≠ 0 := by
    simp [hq.pendings, Undecided, hid, hat, PendingRow.OfTenant]
  have hdecided := @decide_steady L.floats i newYear w.db call.correlationId "allow" none none
    _ p (Or.inl rfl) hfound hp hd hundecided
  refine ⟨_, .decide call.correlationId none "allow" none (steady i newYear), ?_⟩
  rw [hdecided]
  refine ⟨hq.fresh, ?_, hq.executions⟩
  simp [hq.pendings, Undecided, hid, hat, PendingRow.OfTenant, PendingRow.decided]

/-- Another request goes on with the approval. -/
theorem resumes_served (h : AsksReview L job₂ call₂ b₂) (hid : call₁.correlationId = call₂.correlationId)
    {used : List Uuid} {row : PendingRow} (hrow : row = waitingRow L job₁ call₁)
    (hq : Quiet used (some (row.decided (toRfc3339 newYear) "allow" none)) w.db)
    {i₁ i₂ : Uuid} (h₁ : i₁ ∉ used) (h₂ : i₂ ∉ i₁ :: used) : ∃ cs e w',
      Prog.RunsTo (McpPerforms L) (job₂.program L) w cs e w' ∧
        Starts L job₂ call₂ cs ∧ ∃ v pre i body answer, Released L job₂ call₂ (some b₂) v pre ∧
          NeedsReview job₂ v ∧
            cs = pre ++ ⟨.beginServerExecution i b₂, .ok .started⟩ :: [⟨.send body, answer⟩] := by
  obtain ⟨w₁, he, hdb⟩ := performs_evaluate (L := L) (w := w) job₂.state.instanceId
    (policyInput L job₂.body call₂) (.bool true) (.set [])
    (.set [.string "a transfer needs a review"])
  have hq₁ := hdb ▸ hq
  let v : Verdict := ⟨brainOf L job₂.body call₂, reviewPolicy⟩
  let w₂ := w₁.store (w₁.db.withEntry
    ((entryFor L.floats w₁.db i₁ newYear (verdictRequest call₂ v)).row L.floats))
  have hq₂ : Quiet (i₁ :: used) _ w₂.db := hq₁.withEntry
  have hrequested : (row.decided (toRfc3339 newYear) "allow" none).requestedAt =
      toRfc3339 newYear := by rw [hrow]; rfl
  obtain ⟨p, hp, hallow⟩ := rowToPending_written (L := L) hrequested
    (Eq.symm (Option.map_some newYear _))
  have hfound : (w₂.db.pendings.find? fun r =>
      r.correlationId = call₂.correlationId ∧ r.OfTenant none) =
        some (row.decided (toRfc3339 newYear) "allow" none) := by
    have hcorrelation : (row.decided (toRfc3339 newYear) "allow" none).correlationId =
        call₂.correlationId := by rw [← hid, hrow]; rfl
    simp [hq₂.pendings, hcorrelation, PendingRow.OfTenant]
  have hget : McpPerforms L (.getPending call₂.correlationId) w₂ (.ok (some p)) w₂ :=
    ⟨steady i₁ newYear, w₂.db, getPending_steady hfound (by rw [Option.mapM_some, hp]; rfl), rfl⟩
  have hreview : RunsTo (McpPerforms L) (review job₂.state call₂ v none) w₂
      [⟨.getPending call₂.correlationId, .ok (some p)⟩] (.ok ()) w₂ :=
    review_execution h.yellow h.execution (reviewExecution_resumes hallow hget)
  have hnotred : (⟨brainOf L job₂.body call₂, reviewPolicy⟩ : Verdict).tier ≠ .red := by
    rw [h.yellow.1]
    simp
  have hrun := resumed_alone h.passes h.unlimited h.url h.tool h.bound h.noDecision rfl hnotred rfl
    (performs_inspect hq.unknown) he (performs_append (t := newYear) (hq₁.fresh i₁ h₁)) hreview
    (performs_begin (t := newYear) hq₂.unknown
      (fun r hr => absurd hr (by simp [hq₂.executions])) (hq₂.fresh i₂ h₂))
    (x := "connection refused") rfl
  have hjudged := h.judged reviewPolicy
    (.ok (entryFor L.floats w₁.db i₁ newYear (verdictRequest call₂ v)))
  refine ⟨_, _, _, hrun, ⟨_, _, rfl, h.passes⟩, v, _, job₂.state.instanceId, job₂.body, .error "connection refused",
    ⟨⟨_, hjudged, Or.inr ⟨h.yellow, h.execution, p, hallow, rfl⟩⟩,
      fun hred => hnotred hred.1, h.noDecision⟩, h.yellow, ?_⟩
  simp [v]

theorem quiet_fresh : Quiet [] none freshWorld.db :=
  ⟨fun _ _ _ hr => absurd hr List.not_mem_nil, rfl, rfl⟩

/-- A request is parked and allowed, and then one is sent that has the same id. -/
theorem resumed_after (h₁ : AsksReview L job₁ call₁ b₁) (h₂ : AsksReview L job₂ call₂ b₂)
    (hid : call₁.correlationId = call₂.correlationId) : ∃ w t₁ t₂,
      Pool.Reachable (mcpRules L) freshWorld ⟨w, [t₁, t₂]⟩ ∧ t₁.job = job₁ ∧ t₂.job = job₂ ∧
        Starts L job₁ call₁ t₁.calls ∧ Starts L job₂ call₂ t₂.calls ∧
        ParkedUnder call₁.correlationId t₁ ∧ Resumed L t₂ call₂ := by
  have hthird : numberedUuid 3 ∉ [numberedUuid 2] := by decide
  have hfourth : numberedUuid 4 ∉ [numberedUuid 3, numberedUuid 2] := by decide
  obtain ⟨e, p, e₁, w₁, hrun₁, hq₁⟩ :=
    parks_served (i := numberedUuid 2) h₁ quiet_fresh List.not_mem_nil
  obtain ⟨cs₁, hcs₁, hrun₁⟩ : ∃ cs₁, cs₁ = _ ∧
      Prog.RunsTo (McpPerforms L) (job₁.program L) freshWorld cs₁ e₁ w₁ := ⟨_, rfl, hrun₁⟩
  obtain ⟨w₂, hdecided, hq₂⟩ := decide_served (numberedUuid 2) hq₁
  obtain ⟨cs₂, e₂, w₃, hrun₂, hs₂, v₂, pre, i, body, answer, hreleased, hn, hcalls⟩ :=
    resumes_served h₂ hid rfl hq₂ hthird hfourth
  have hfirst : Pool.Steps (mcpRules L) ⟨freshWorld, []⟩ ⟨w₁, [⟨job₁, cs₁, .pure e₁⟩]⟩ :=
    Pool.Steps.serve hrun₁ []
  have hdecide : Pool.Step (mcpRules L) ⟨w₁, [⟨job₁, cs₁, .pure e₁⟩]⟩
      ⟨w₂, [⟨job₁, cs₁, .pure e₁⟩]⟩ := .outside hdecided
  have hsecond : Pool.Steps (mcpRules L) ⟨w₂, [⟨job₁, cs₁, .pure e₁⟩]⟩
      ⟨w₃, [⟨job₁, cs₁, .pure e₁⟩] ++ [⟨job₂, cs₂, .pure e₂⟩]⟩ := Pool.Steps.serve hrun₂ _
  exact ⟨w₃, _, _, (hfirst.tail hdecide).trans hsecond, rfl, rfl, ⟨_, _, hcs₁, h₁.passes⟩, hs₂,
    ⟨parkRequestOf call₁ ⟨brainOf L job₁.body call₁, reviewPolicy⟩ none, p,
      by simp [hcs₁, reviewedCalls], rfl⟩, b₂, v₂, pre, i, body, answer, [], hreleased, hn, hcalls⟩

end Pair

/-- An execution of the tool, asked of a process that enforces. -/
def enforcedJob (tool : String) : McpJob where
  state := { executionJob.state with mode := .enforce }
  headers := executionJob.headers
  body := utf8 ("\x7b\"jsonrpc\":\"2.0\",\"id\":1,\"method\":\"tools/call\"," ++
    "\"params\":\x7b\"name\":\"" ++ tool ++ "\"\x7d\x7d")

/-- The gates and the rules let the job through. -/
def asksReview (job : McpJob) (tool : String) : Bool :=
  (gates plainLibraries job.state job.headers job.body (numberedUuid 1).text).toOption.any
    fun call => decide (call.serverExecution = some (numberedUuid 7)) && call.decision.isNone &&
      !isMcpControlMethod call.parsed.method && decide (toolType call.parsed = tool) &&
        decide (call.correlationId = (numberedUuid 7).text) &&
          (brainOf plainLibraries job.body call).authorized

theorem enforcedJob_asks {tool : String} (heval : asksReview (enforcedJob tool) tool = true)
    (hbody : (fromSlice plainLibraries.floats (enforcedJob tool).body).isSome = true) :
    ∃ call b, AsksReview plainLibraries (enforcedJob tool) call b ∧
      toolType call.parsed = tool ∧ call.correlationId = (numberedUuid 7).text := by
  obtain ⟨call, hg, hcall⟩ := (Option.any_eq_true _ _).mp heval
  simp only [Bool.and_eq_true, Bool.not_eq_true', Option.isNone_iff_eq_none,
    decide_eq_true_eq] at hcall
  obtain ⟨⟨⟨⟨⟨hs, hd⟩, hm⟩, htool⟩, hid⟩, hroutine⟩ := hcall
  obtain ⟨value, hv⟩ := Option.isSome_iff_exists.mp hbody
  exact ⟨call, _, {
    passes := ok_of_toOption hg
    unlimited := rfl
    enforce := rfl
    url := executionJob_url
    tool := hm
    bound := Or.inr ⟨_, value, hs, hv, rfl⟩
    readable := hbody
    routine := hroutine
    execution := by rw [hs]; rfl
    noDecision := hd }, htool, hid⟩

theorem transfer_asks : ∃ call b, AsksReview plainLibraries (enforcedJob "wire_transfer") call b ∧
    toolType call.parsed = "wire_transfer" ∧ call.correlationId = (numberedUuid 7).text :=
  enforcedJob_asks (by decide +kernel) (by decide +kernel)

theorem closing_asks : ∃ call b, AsksReview plainLibraries (enforcedJob "close_account") call b ∧
    toolType call.parsed = "close_account" ∧ call.correlationId = (numberedUuid 7).text :=
  enforcedJob_asks (by decide +kernel) (by decide +kernel)

theorem approval_binds_resumed : ∃ (p : Pool McpOp World McpJob Ended)
    (t : Thread McpOp McpJob Ended) (call : McpCall),
      Pool.Reachable (mcpRules plainLibraries) freshWorld p ∧ t ∈ p.threads ∧
        Resumed plainLibraries t call ∧ ApprovalBinds plainLibraries p := by
  obtain ⟨call, b, hasks, -⟩ := transfer_asks
  obtain ⟨w, t₁, t₂, hreach, hjob₁, hjob₂, hs₁, hs₂, hparked, hresumed⟩ :=
    resumed_after hasks hasks rfl
  refine ⟨_, t₂, call, hreach, by simp, hresumed, (approval_binds_iff rfl hreach).1 ?_⟩
  have hjobs : ∀ t ∈ [t₁, t₂], t.job = enforcedJob "wire_transfer" ∧
      Starts plainLibraries (enforcedJob "wire_transfer") call t.calls := by
    simp [hjob₁, hjob₂, hs₁, hs₂]
  intro t ht t' ht' call' call'' hs hs' _
  rw [(hjobs t ht).1] at hs ⊢
  rw [(hjobs t' ht').1] at hs' ⊢
  rw [hs.unique (hjobs t ht).2, hs'.unique (hjobs t' ht').2]
  exact ⟨rfl, rfl, rfl, rfl⟩

/-- A transfer is approved, and the closing of an account goes on with its approval. -/
theorem approval_released_another : ∃ p : Pool McpOp World McpJob Ended,
    Pool.Reachable (mcpRules plainLibraries) freshWorld p ∧ ¬ ApprovalBinds plainLibraries p := by
  obtain ⟨call₁, b₁, hasks₁, htool₁, hid₁⟩ := transfer_asks
  obtain ⟨call₂, b₂, hasks₂, htool₂, hid₂⟩ := closing_asks
  obtain ⟨w, t₁, t₂, hreach, hjob₁, hjob₂, hs₁, hs₂, hparked, hresumed⟩ :=
    resumed_after hasks₁ hasks₂ (hid₁.trans hid₂.symm)
  refine ⟨_, hreach, fun hbinds => ?_⟩
  obtain ⟨-, t, ht, call, hs, hparked', hsame⟩ := hbinds t₂ (by simp) call₂ hresumed
  have hsound := pendingsSound_of_reachable (pendingsSound_of_empty rfl) hreach
  rw [hid₂, ← hid₁] at hparked'
  obtain rfl := parked_unique rfl hreach hsound ht (by simp) hparked' hparked
  rw [hjob₁] at hs
  obtain rfl := hs.unique hs₁
  have htools : "close_account" = "wire_transfer" := by rw [← htool₁, ← htool₂, hsame.tool]
  exact absurd htools (by decide)

end ClavenarLite
