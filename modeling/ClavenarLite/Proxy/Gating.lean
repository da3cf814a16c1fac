import ClavenarLite.Proxy.Sends
import ClavenarLite.Proxy.Signals

/-! What a request has shown by the time it is sent upstream. -/

namespace ClavenarLite

open Bytes Fallible Interaction TextJson Transaction

variable {L : Libraries} {job : McpJob} {call : McpCall} {b : ServerExecutionBinding}
  {binding : Option ServerExecutionBinding} {v : Verdict} {cs : McpCalls} {db db' : Db}

/-- The pending under the correlation id was decided to be allowed. -/
def ApprovedIn (db : Db) (correlationId : String) : Prop :=
  ∃ r ∈ db.pendings, r.correlationId = correlationId ∧ r.decision = some "allow" ∧
    r.decidedAt.isSome

theorem ApprovedIn.grow {c : String} (h : ApprovedIn db c) (hg : PendingsGrow db db') :
    ApprovedIn db' c := by
  obtain ⟨r, hr, hid, hallow, hat⟩ := h
  obtain ⟨r', hr', _, hsame⟩ := hg r hr
  obtain rfl := hsame hat
  exact ⟨r', hr', hid, hallow, hat⟩

theorem rowToPending_decision {F : FloatText} {row : PendingRow} {p : Pending}
    (h : rowToPending F row = .ok p) : p.decision = row.decision := by
  unfold rowToPending at h
  obtain ⟨_, _, h⟩ := bind_ok h
  obtain ⟨_, _, h⟩ := bind_ok h
  obtain rfl := Except.ok.inj h
  rfl

/-- An approval that was looked up stays in the file. -/
def LookupHolds : Call McpOp → Db → Prop
  | ⟨.getPending c, .ok (some p)⟩, db => p.decision = some "allow" → ApprovedIn db c
  | _, _ => True

theorem LookupHolds.grow {made : Call McpOp} (h : LookupHolds made db)
    (hg : PendingsGrow db db') : LookupHolds made db' := by
  unfold LookupHolds at h ⊢
  split
  · exact fun hallow => ApprovedIn.grow (h hallow) hg
  · trivial

theorem mapM_some {α β ε : Type} {f : α → Except ε β} {o : Option α} {y : β}
    (h : o.mapM f = .ok (some y)) : ∃ x, o = some x ∧ f x = .ok y := by
  cases o with
  | none => exact absurd (Except.ok.inj h) (by simp)
  | some x =>
    obtain ⟨y', hy, h⟩ := bind_ok h
    obtain rfl := Option.some.inj (Except.ok.inj h)
    exact ⟨x, rfl, hy⟩

theorem Writes.lookup {F : FloatText} {made : Call McpOp} (h : Writes F made db db')
    (hs : PendingsSound db) : LookupHolds made db' := by
  unfold LookupHolds
  split
  · next c p =>
    intro hallow
    obtain ⟨rfl, hfound⟩ := h
    obtain ⟨row, hrow, hp⟩ := mapM_some hfound
    obtain ⟨hmem, hid⟩ := Db.findPending_some hrow
    have hdecision : row.decision = some "allow" := (rowToPending_decision hp).symm.trans hallow
    exact ⟨row, hmem, hid, hdecision, (hs.stamped row hmem).mp (by simp [hdecision])⟩
  · trivial

section Runs

variable {w₀ : World} {p : Pool McpOp World McpJob Ended}

theorem pendingsSound_of_reachable (hs : PendingsSound w₀.db)
    (h : Pool.Reachable (mcpRules L) w₀ p) : PendingsSound p.state.db :=
  h.keeps (Q := fun w => PendingsSound w.db) (fun _ => handleMcp_obeys) hs
    (fun _ _ _ _ _ _ _ _ hp hq => (McpPerforms.change hp).sound hq)
    fun _ _ ho hq => (Outside.change ho).sound hq

theorem approved_of_reachable (hs : PendingsSound w₀.db)
    (h : Pool.Reachable (mcpRules L) w₀ p) {t : Thread McpOp McpJob Ended} (ht : t ∈ p.threads)
    (ha : Approved call t.calls) : ApprovedIn p.state.db call.correlationId := by
  have hholds := h.calls_hold (Q := fun w => PendingsSound w.db)
    (K := fun made w => LookupHolds made w.db) (fun _ => handleMcp_obeys)
    (fun _ hr => pendingsSound_of_reachable hs hr)
    (fun _ _ _ _ _ _ _ _ hp hq _ => (McpPerforms.writes hp).lookup hq)
    (fun _ _ _ _ _ hp hk => hk.grow (McpPerforms.change hp).grows)
    fun _ _ _ ho hk => hk.grow (Outside.change ho).grows
  obtain ⟨found, hallow, hmem⟩ := ha
  exact hholds t ht _ hmem hallow

end Runs

/-- A control method, asked for without any selector. -/
def SendsControl (L : Libraries) (job : McpJob) : Prop :=
  (∀ name ∈ [decisionContractHeader, legacyExecutionContractHeader, idempotencyIdHeader,
      serverExecutionContractHeader], job.headers.containsKey name = false) ∧
    ∃ parsed, L.readRequest job.body = some parsed ∧ isMcpControlMethod parsed.method = true

/-- An execution whose intent is committed, and which enforcement has released. -/
structure SendsExecution (L : Libraries) (job : McpJob) (db : Db) (cs : McpCalls) (call : McpCall)
    (b : ServerExecutionBinding) (policy : PolicyDecision) (id : Uuid) : Prop where
  selects : Selects job.headers serverExecutionContractHeader serverExecutionContract
    decisionContractHeader id
  identified : ∃ registry, job.state.agents = some registry ∧
    (suppliedToken job.headers).bind registry.lookup = some call.identity
  parsed : L.readRequest job.body = some call.parsed
  tool : isMcpControlMethod call.parsed.method = false
  correlation : call.correlationId = id.text
  binding : ∃ value, fromSlice L.floats job.body = some value ∧ b = bindingOf L call id value
  started : cs.getLast? = some ⟨.beginServerExecution job.state.instanceId b, .ok .started⟩
  intended : Intended L.floats b db
  judged : evaluation L job call policy ∈ cs
  enforced : job.state.mode = .enforce → (brainOf L job.body call).authorized = true ∧
    policy.allow = true ∧ (policy.reviewReasons = [] ∨ ApprovedIn db id.text)

theorem Controlling.sends (h : Controlling L job call cs) : SendsControl L job := by
  obtain ⟨⟨u, hg, _⟩, hm, hs, hd⟩ := h
  have hp := gates_ok hg
  have hform := hp.form
  rw [hs, hd] at hform
  cases hform with
  | unselected hnone => exact ⟨hnone, call.parsed, hp.parsed, hm⟩

theorem Judged.uncompleted (h : Judged L job call binding v cs) :
    ∀ c ∈ cs, isCompletion c = false := by
  intro c hc
  have hjudging := h.judging c hc
  obtain ⟨op, answer⟩ := c
  cases op with
  | completeServerExecution b status contentType body => exact absurd hjudging (by simp [isJudging])
  | _ => rfl

theorem Begun.uncompleted (h : Begun L job call b v cs) : ∀ c ∈ cs, isCompletion c = false := by
  obtain ⟨released, ⟨⟨judged, hj, hr⟩, _⟩, rfl⟩ := h
  rcases hr with ⟨_, rfl⟩ | ⟨_, _, p, _, rfl⟩
  · simpa [isCompletion, or_imp, forall_and] using hj.uncompleted
  · simpa [isCompletion, or_imp, forall_and] using hj.uncompleted

theorem Judged.evaluated (h : Judged L job call binding v cs) :
    v.brain = brainOf L job.body call ∧ evaluation L job call v.policy ∈ cs := by
  obtain ⟨pre, r, _, hv, rfl⟩ := h
  exact ⟨hv, by simp⟩

/-- What enforcement has established of a begun execution. -/
theorem Begun.released (h : Begun L job call b v cs) (hm : job.state.mode = .enforce) :
    v.brain.authorized = true ∧ v.policy.allow = true ∧
      (v.policy.reviewReasons = [] ∨ Approved call cs) := by
  obtain ⟨released, ⟨⟨judged, _, hr⟩, hred, _⟩, rfl⟩ := h
  have hnotred : v.tier ≠ .red := fun ht => hred ⟨ht, hm⟩
  have hpass : v.brain.authorized = true ∧ v.policy.allow = true := by
    have hred := classify_red.not.mp hnotred
    rw [not_or, Bool.not_eq_false, Bool.not_eq_false] at hred
    exact hred
  refine ⟨hpass.1, hpass.2, ?_⟩
  rcases hr with ⟨hn, _⟩ | ⟨_, _, p, hallow, rfl⟩
  · left
    by_contra hreasons
    exact hn ⟨classify_yellow.mpr ⟨hpass.1, hpass.2, hreasons⟩, hm⟩
  · exact Or.inr ⟨p, hallow, by simp⟩

theorem Begun.judged (h : Begun L job call b v cs) :
    v.brain = brainOf L job.body call ∧ evaluation L job call v.policy ∈ cs ∧
      isMcpControlMethod call.parsed.method = false := by
  obtain ⟨released, ⟨⟨judged, hj, hr⟩, _⟩, rfl⟩ := h
  obtain ⟨hv, he⟩ := hj.evaluated
  obtain ⟨_, _, ⟨_, _, hm, _⟩, _⟩ := hj
  refine ⟨hv, ?_, hm⟩
  rcases hr with ⟨_, rfl⟩ | ⟨_, _, p, _, rfl⟩
  · exact List.mem_append_left _ he
  · exact List.mem_append_left _ (List.mem_append_left _ he)

/-- A begun execution has shown everything. -/
theorem Begun.sends (h : Begun L job call b v cs) (hi : Intended L.floats b db)
    (ha : Approved call cs → ApprovedIn db call.correlationId) :
    ∃ id, SendsExecution L job db cs call b v.policy id := by
  obtain ⟨u, hg, ⟨_, hn⟩ | ⟨id, value, hs, hvalue, hb⟩⟩ := h.bound
  · exact absurd hn (by simp)
  obtain rfl := Option.some.inj hb
  have hp := gates_ok hg
  obtain ⟨hv, he, hm⟩ := h.judged
  have hcorrelation : call.correlationId = id.text := by rw [hp.correlation, hs]; rfl
  have hregistry : ∃ registry, job.state.agents = some registry := by
    have hr := hp.registered
    rw [hs] at hr
    exact Option.isSome_iff_exists.mp (by simpa using hr)
  obtain ⟨registry, hregistry⟩ := hregistry
  have hidentified : identify (some registry) job.headers = some call.identity :=
    hregistry ▸ hp.identified
  have hselects := hp.serverExecution
  rw [hs] at hselects
  exact ⟨id, {
    selects := parseServerExecutionRequest_some hselects
    identified := ⟨registry, hregistry, hidentified⟩
    parsed := hp.parsed
    tool := hm
    correlation := hcorrelation
    binding := ⟨value, hvalue, rfl⟩
    started := by
      obtain ⟨_, _, rfl⟩ := h
      exact List.getLast?_concat
    intended := hi
    judged := he
    enforced := fun hmode => by
      obtain ⟨hauthorized, hallow, hreview⟩ := h.released hmode
      exact ⟨hv ▸ hauthorized, hallow, hreview.imp_right fun happroved => hcorrelation ▸ ha happroved⟩
    }⟩

/-- In every run a request is sent at most once. When it is about to be sent, it
is either a control request without a selector, or an execution that has shown
all of the above; a decision is never sent. -/
theorem upstream_gated {w₀ : World} {p : Pool McpOp World McpJob Ended}
    (hk : KeysDistinct w₀.db) (hs : PendingsSound w₀.db)
    (h : Pool.Reachable (mcpRules L) w₀ p) : ∀ t ∈ p.threads,
      t.calls.countP isSend ≤ 1 ∧
      (t.job.headers.containsKey decisionContractHeader = true → t.calls.countP isSend = 0) ∧
      ∀ body next, t.rest = .call (.send body) next →
        body = t.job.body ∧ t.calls.countP isSend = 0 ∧
          t.job.headers.containsKey decisionContractHeader = false ∧
          (SendsControl L t.job ∨
            ∃ call b policy id, SendsExecution L t.job p.state.db t.calls call b policy id) := by
  intro t ht
  have hf := h.follows t ht
  have hone : t.calls.countP isSend ≤ 1 :=
    hf.once (fun _ => handleMcp_obeys) fun before made hm hsend => send_first hm hsend
  -- a send is permitted only to requests without the decision selector
  have hnone : ∀ {cs body}, McpRule L t.job cs (.send body) →
      t.job.headers.containsKey decisionContractHeader = false := by
    rintro cs body ⟨_, call, hc | ⟨b, v, hb⟩⟩
    · exact hc.sends.1 _ (by simp)
    · obtain ⟨u, hg, ⟨_, hn⟩ | ⟨id, value, hid, _⟩⟩ := hb.bound
      · exact absurd hn (by simp)
      · have hselects := (gates_ok hg).serverExecution
        rw [hid] at hselects
        exact (parseServerExecutionRequest_some hselects).noOther
  refine ⟨hone, ?_, ?_⟩
  · intro hdecision
    by_contra hpos
    obtain ⟨made, hmem, hsend⟩ := List.countP_pos_iff.mp (Nat.pos_of_ne_zero hpos)
    obtain ⟨before, after, hcalls⟩ := List.append_of_mem hmem
    have hm := rule_of_follows hf hcalls
    obtain ⟨op, answer⟩ := made
    cases op with
    | send body => simp [hnone hm] at hdecision
    | _ => exact absurd hsend (by simp [isSend])
  · intro body next hr
    have hm := Thread.permitted (fun _ => handleMcp_obeys) hf hr
    have hsend : isSend ⟨.send body, .error ""⟩ = true := rfl
    have hunsent := send_first hm hsend
    refine ⟨hm.1, hunsent, hnone hm, ?_⟩
    obtain ⟨_, call, hc | ⟨b, v, hb⟩⟩ := hm
    · exact Or.inl hc.sends
    · have hbegun : ⟨.beginServerExecution t.job.state.instanceId b, .ok .started⟩ ∈ t.calls := by
        obtain ⟨_, _, hcalls⟩ := hb
        rw [hcalls]
        simp
      have hintended := intended_of_reachable hk h t ht _ b hbegun hb.uncompleted
      obtain ⟨id, hsends⟩ := hb.sends hintended fun ha => approved_of_reachable hs h ht ha
      exact Or.inr ⟨call, b, v.policy, id, hsends⟩

theorem upstream_gated_execution : ∃ (p : Pool McpOp World McpJob Ended)
    (t : Thread McpOp McpJob Ended) (next : Except String ForwardedResponse → Prog McpOp Ended),
    Pool.Reachable (mcpRules plainLibraries) freshWorld p ∧ t ∈ p.threads ∧
      t.rest = .call (.send executionJob.body) next ∧
      (SendsControl plainLibraries t.job ∨ ∃ call b policy id,
        SendsExecution plainLibraries t.job p.state.db t.calls call b policy id) := by
  obtain ⟨cs, e, w, hrun, _⟩ := executionJob_sent
  obtain ⟨w₁, next, hsteps⟩ :=
    @Pool.Steps.before _ _ _ _ (mcpRules plainLibraries) _ _ [] executionJob [] _ _ _ _ _ hrun
  have hreach : Pool.Reachable (mcpRules plainLibraries) freshWorld
      ⟨w₁, [] ++ [⟨executionJob, [] ++ cs, .call (.send executionJob.body) next⟩]⟩ :=
    .head (.start _ executionJob) hsteps
  have hdistinct : KeysDistinct freshWorld.db := List.nodup_nil
  have hsound : PendingsSound freshWorld.db :=
    ⟨List.nodup_nil, fun _ hr => absurd hr List.not_mem_nil, fun _ hr => absurd hr List.not_mem_nil⟩
  exact ⟨_, _, next, hreach, List.mem_singleton.mpr rfl, rfl,
    ((upstream_gated hdistinct hsound hreach _ (List.mem_singleton.mpr rfl)).2.2 _ _ rfl).2.2.2⟩

end ClavenarLite
