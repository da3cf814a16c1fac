import ClavenarLite.Proxy.Overlooks

/-! The requests of one identity and those of everybody else, who ask for executions and
reviews under ids that they choose themselves. -/

namespace ClavenarLite

open Bytes Fallible Interaction Keyed Rfc3339 TextJson Transaction

/-- Two tool calls meet under one id: as executions under one agent name, or as requests
that may both come under review. -/
inductive Meet (job job' : McpJob) (call call' : McpCall) : Prop
  | execution {id : Uuid} (h : call.serverExecution = some id) (h' : call'.serverExecution = some id)
      (hagent : call.identity.agentId = call'.identity.agentId)
  | review (h : job.state.mode = .enforce) (h' : job'.state.mode = .enforce)
      (hid : call.correlationId = call'.correlationId)

section Runs

variable {L : Libraries} {E : Engines} {s₀ : Timed} {p : Pool McpOp Timed McpJob Ended}
  {who : AgentIdentity} {job : McpJob} {cs : McpCalls} {b : ServerExecutionBinding}

theorem Bound.meets {job' : McpJob} {call call' : McpCall} {b' : ServerExecutionBinding}
    (h : Bound L job call (some b)) (h' : Bound L job' call' (some b')) (hkey : b.key = b'.key) :
    Meet job job' call call' := by
  obtain ⟨id, hs, hk⟩ := h.key
  obtain ⟨id', hs', hk'⟩ := h'.key
  obtain ⟨hagent, hid⟩ := Prod.mk.inj (hk.symm.trans (hkey.trans hk'))
  obtain rfl := Uuid.text_injective hid
  exact .execution hs hs' hagent

end Runs

/-- An execution that a process in observe mode takes, and that its upstream answers. -/
structure Takes (L : Libraries) (job : McpJob) (call : McpCall) (b : ServerExecutionBinding)
    (answer : ForwardedResponse) : Prop where
  passes : gates L job.state job.headers job.body (numberedUuid 1).text = .ok call
  unlimited : job.state.rateLimited = false
  observe : job.state.mode = .observe
  url : validateCallbackUrl L job.state job.headers = .ok none
  tool : isMcpControlMethod call.parsed.method = false
  bound : Bound L job call (some b)
  noDecision : call.decision = none
  accepted : ∃ requestId,
    job.state.upstreamAdapter.validateRequest L.floats L.texts job.body = .ok requestId ∧
      job.state.upstreamAdapter.accept L.floats L.texts requestId answer = .ok answer

/-- Engines that find no rule. -/
def emptyEngines : Engines where
  serialize _ := .ok ""
  worker _ _ _ := .runs (answeringEngine .undefined .undefined .undefined)

section Samples

variable {L : Libraries} {job : McpJob} {call : McpCall} {b : ServerExecutionBinding}
  {answer : ForwardedResponse} {w : World}

theorem hosts_clocked (L : Libraries) (E : Engines) :
    Hosts L (ClockedPerforms L E) World.timed := by
  intro β op w a w' hop hp
  cases op with
  | checkRate i key => exact absurd hop (by simp [isRemembering])
  | evaluate i input => exact absurd hop (by simp [isRemembering])
  | _ => exact ⟨rfl, hp⟩

theorem emptyEngines_evaluate (w : World) (i : String) (input : PolicyInput) : ∃ policy w',
    ClockedPerforms L emptyEngines (.evaluate i input) w.timed policy (World.timed w') ∧
      w'.db = w.db :=
  ⟨_, w.remember i { w.memory i with velocity := _ }, ⟨rfl, _, rfl, rfl⟩, rfl⟩

theorem Takes.unreviewed (h : Takes L job call b answer) (v : Verdict) :
    ¬ NeedsReview job v ∧ ¬ (v.tier = .red ∧ job.state.mode = .enforce) := by
  have hmode : job.state.mode ≠ .enforce := by simp [h.observe]
  exact ⟨fun hn => hmode hn.2, fun hred => hmode hred.2⟩

theorem Takes.unanswered (h : Takes L job call b answer) (hw : w.db = Db.empty) (x : String) :
    ∃ cs e w' row, Prog.RunsTo (ClockedPerforms L emptyEngines) (job.program L) w.timed cs e
      (World.timed w') ∧ row.id = (numberedUuid 2).text ∧
      w'.db = (Db.empty.withEntry row).begun L.floats (numberedUuid 3) newYear
        job.state.instanceId b := by
  obtain ⟨policy, w₁, he, hdb⟩ := emptyEngines_evaluate (L := L) w job.state.instanceId
    (policyInput L job.body call)
  obtain ⟨hn, hred⟩ := h.unreviewed ⟨brainOf L job.body call, policy⟩
  have hne : numberedUuid 2 ≠ numberedUuid 3 := by decide
  have hnone : w.db.findExecution b.key = none := by rw [hw]; rfl
  obtain ⟨e, w', hrun, hdb'⟩ := execution_served (hosts_clocked L emptyEngines) h.passes
    h.unlimited h.url h.tool h.bound h.noDecision hn hred he hdb hnone
    (fun _ hr => absurd hr (by simp [hw, Db.empty])) (fun _ hr => absurd hr (by simp [hw, Db.empty]))
    (fun _ hr => absurd hr (by simp [hw, Db.empty])) hne x
  exact ⟨_, _, w', _, hrun, rfl, hw ▸ hdb'⟩

theorem Takes.executed (h : Takes L job call b answer)
    (hnone : w.db.findExecution b.key = none)
    (hfree : ∀ r ∈ w.db.serverExecutions, r.executionId ≠ b.executionId.text)
    (hout : w.db.serverExecutionOutbox = [])
    (hfresh : ∀ i ∈ [numberedUuid 4, numberedUuid 5, numberedUuid 6], w.db.FreshId i) :
    ∃ cs e w', Prog.RunsTo (ClockedPerforms L emptyEngines) (job.program L) w.timed cs e
      (World.timed w') ∧
      ⟨.beginServerExecution job.state.instanceId b, .ok .started⟩ ∈ cs ∧
      ⟨.completeServerExecution b answer.status answer.contentType answer.body,
        .ok (completedResult L.floats b answer.status answer.contentType answer.body)⟩ ∈ cs := by
  obtain ⟨policy, w₁, he, hdb⟩ := emptyEngines_evaluate (L := L) w job.state.instanceId
    (policyInput L job.body call)
  obtain ⟨hn, hred⟩ := h.unreviewed ⟨brainOf L job.body call, policy⟩
  obtain ⟨requestId, hid, hok⟩ := h.accepted
  have h₁₂ : numberedUuid 4 ≠ numberedUuid 5 := by decide
  have h₁₃ : numberedUuid 4 ≠ numberedUuid 6 := by decide
  have h₂₃ : numberedUuid 5 ≠ numberedUuid 6 := by decide
  obtain ⟨e, w', r, hrun⟩ := executed_served (hosts_clocked L emptyEngines) h.passes h.unlimited
    h.url h.tool h.bound h.noDecision hn hred hid hok he hdb hnone hfree
    (fun _ hr => absurd hr (by simp [hout])) (hfresh _ (by simp)) (hfresh _ (by simp))
    (hfresh _ (by simp)) h₁₂ h₁₃ h₂₃
  exact ⟨_, _, w', hrun, by simp, by simp⟩

/-- One request has the execution run, and another one asks for the same. -/
theorem Takes.replayed (h : Takes L job call b answer) {job' : McpJob} {call' : McpCall}
    {answer' : ForwardedResponse} (h' : Takes L job' call' b answer') : ∃ s t u c r,
    Pool.Reachable (clockedRules L emptyEngines) freshWorld.timed ⟨s, [t, u]⟩ ∧ t.job = job ∧
      u.job = job' ∧ StartedUnder b.key t ∧
      u.calls = [⟨.newV4, numberedUuid 1⟩, ⟨.inspectServerExecution b, .ok (.completed c)⟩] ∧
      u.rest = .pure (some (r, [])) ∧ r.has replayedHeader ∧ r.body = .bytes answer.body := by
  obtain ⟨cs, e, w, hrun, hstarted, hstored⟩ := h.executed (w := freshWorld) rfl
    (fun _ hr => absurd hr List.not_mem_nil) rfl fun _ _ _ hr => absurd hr List.not_mem_nil
  let c := completedResult L.floats b answer.status answer.contentType answer.body
  let t : Thread McpOp McpJob Ended := ⟨job, cs, .pure e⟩
  have hfirst : Pool.Reachable (clockedRules L emptyEngines) freshWorld.timed ⟨w.timed, [t]⟩ :=
    Pool.Steps.serve hrun []
  obtain ⟨_, log, hlog⟩ := linearized_of_reachable (unclocked hfirst) executionsKept_empty
  have hknown : McpPerforms L (.inspectServerExecution b) w (.ok (.completed c)) w :=
    hlog.known (List.mem_singleton_self t) (hfirst.follows t (by simp)) hstored
  obtain ⟨r, hr⟩ := (completedResult_presentable L.floats b answer.status answer.contentType
    answer.body).response call'.correlationId job'.state.mode true false false
  have hlookup := known_alone h'.passes h'.unlimited h'.url h'.tool h'.bound
    (hosts_clocked L emptyEngines rfl rfl) (hosts_clocked L emptyEngines rfl hknown)
  rw [hr] at hlookup
  have hsecond : Pool.Steps (clockedRules L emptyEngines) ⟨w.timed, [t]⟩ ⟨w.timed, [t] ++ [_]⟩ :=
    Pool.Steps.serve hlookup [t]
  exact ⟨_, t, _, c, r, hfirst.trans hsecond, rfl, rfl, ⟨_, b, rfl, hstarted⟩, rfl, rfl,
    response_replayed hr, (serverExecutionResponse_content hr).2⟩

/-- The one asks for an execution that is not answered, and then the other for another one. -/
theorem Takes.apart (h : Takes L job call b answer) {job' : McpJob} {call' : McpCall}
    {b' : ServerExecutionBinding} {answer' : ForwardedResponse} (h' : Takes L job' call' b' answer')
    (hkey : b'.key ≠ b.key) (hid : b'.executionId.text ≠ b.executionId.text) : ∃ s u t,
    Pool.Reachable (clockedRules L emptyEngines) freshWorld.timed ⟨s, [u, t]⟩ ∧ u.job = job' ∧
      t.job = job ∧ StartedUnder b.key t := by
  obtain ⟨cs', e', w, row, hrun', hrow, hdb⟩ := h'.unanswered (w := freshWorld) rfl "timed out"
  have hrows : w.db.serverExecutions = [intentRow job'.state.instanceId b' newYear] := by
    rw [hdb]
    rfl
  have hnone : w.db.findExecution b.key = none := by
    refine Db.findExecution_none.mpr fun r hr => ?_
    rw [hrows, List.mem_singleton] at hr
    exact hr ▸ hkey
  have hfree : ∀ r ∈ w.db.serverExecutions, r.executionId ≠ b.executionId.text := by
    intro r hr
    rw [hrows, List.mem_singleton] at hr
    exact hr ▸ hid
  have hfresh : ∀ i ∈ [numberedUuid 4, numberedUuid 5, numberedUuid 6], w.db.FreshId i := by
    intro i hi
    have hne : numberedUuid 2 ≠ i ∧ numberedUuid 3 ≠ i := by
      revert i
      decide
    have hempty : (Db.empty.withEntry row).FreshId i := by
      intro x hx
      rw [List.mem_singleton.mp hx, hrow]
      exact fun heq => hne.1 (Uuid.text_injective heq)
    rw [hdb]
    exact Db.FreshId.withEntry hempty hne.2
  obtain ⟨cs, e, w', hrun, hstarted, _⟩ := h.executed hnone hfree (by rw [hdb]; rfl) hfresh
  let u : Thread McpOp McpJob Ended := ⟨job', cs', .pure e'⟩
  have hfirst : Pool.Reachable (clockedRules L emptyEngines) freshWorld.timed ⟨w.timed, [u]⟩ :=
    Pool.Steps.serve hrun' []
  have hsecond : Pool.Steps (clockedRules L emptyEngines) ⟨w.timed, [u]⟩
      ⟨w'.timed, [u] ++ [⟨job, cs, .pure e⟩]⟩ := Pool.Steps.serve hrun [u]
  exact ⟨_, u, _, hfirst.trans hsecond, rfl, rfl, _, b, rfl, hstarted⟩

end Samples

theorem StoredUnder.completion {k : String × String} {c : ServerExecutionCompleted}
    {t : Thread McpOp McpJob Ended} (h : StoredUnder k c t) : 0 < t.calls.countP isCompletion := by
  obtain ⟨b, st, ct, body, _, hm⟩ := h
  exact List.countP_pos_iff.mpr ⟨_, hm, rfl⟩

/-- Who is answered alike is told alike. -/
theorem Tells.alike {b : ServerExecutionBinding} {c : ServerExecutionCompleted}
    {made made' : Call McpOp} (h : Tells b c made) (ha : Call.Alike identityBlind made made') :
    Tells b c made' := by
  cases ha with
  | @intro δ op op' d d' hop ha =>
    obtain rfl : op = op' := hop
    cases h with
    | inspected =>
      obtain rfl : d' = .ok (.completed c) := ok_of_toOption (Eq.symm ha)
      exact .inspected
    | known i =>
      obtain rfl : d' = .ok (.completed c) := ok_of_toOption (Eq.symm ha)
      exact .known i
    | stored st ct body =>
      obtain rfl : d' = .ok c := ok_of_toOption (Eq.symm ha)
      exact .stored st ct body

end ClavenarLite
