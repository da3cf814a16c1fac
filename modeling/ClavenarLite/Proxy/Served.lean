import ClavenarLite.Ledger.Steady
import ClavenarLite.Proxy.Alone
import ClavenarLite.Proxy.Serving

/-! What the operations of a request can do in a world that nothing disturbs,
and a world and an execution to try them on. -/

namespace ClavenarLite

open Bytes Fallible Interaction Rfc3339 TextJson Transaction

def World.store (w : World) (db : Db) : World := { w with db := db }

section Performs

variable {L : Libraries} {w : World} {u : Uuid} {t : Clock}

theorem performs_inspect {b : ServerExecutionBinding} (h : w.db.findExecution b.key = none) :
    McpPerforms L (.inspectServerExecution b) w (.ok .missing) w :=
  ⟨steady (Uuid.newV5 Uuid.namespaceUrl []) newYear, w.db, inspect_missing_steady h, rfl⟩

theorem performs_append {req : LogRequest} (hu : w.db.FreshId u) :
    McpPerforms L (.append req) w (.ok (entryFor L.floats w.db u t req))
      (w.store (w.db.withEntry ((entryFor L.floats w.db u t req).row L.floats))) :=
  ⟨steady u t, _, append_steady hu, rfl⟩

theorem performs_begin {i : String} {b : ServerExecutionBinding}
    (h : w.db.findExecution b.key = none)
    (hfree : ∀ r ∈ w.db.serverExecutions, r.executionId ≠ b.executionId.text)
    (hu : w.db.FreshId u) :
    McpPerforms L (.beginServerExecution i b) w (.ok .started)
      (w.store (w.db.begun L.floats u t i b)) :=
  ⟨steady u t, _, begin_steady h hfree hu, rfl⟩

/-- The row that an execution began with is the one its completion finds. -/
theorem begun_matches {db : Db} {i : String} {b : ServerExecutionBinding} (now : Clock)
    (h : db.findExecution b.key = none) (st : UInt16) (ct : Option String) (body : Octets) :
    (db.begun L.floats u t i b).serverExecutions.countP
      (completionOf L.floats b st ct body now).Matches = 1 := by
  have hrows : (db.begun L.floats u t i b).serverExecutions =
      db.serverExecutions ++ [intentRow i b t] := rfl
  have hold : db.serverExecutions.countP (completionOf L.floats b st ct body now).Matches = 0 := by
    refine List.countP_eq_zero.mpr fun r hr hm => ?_
    have hmatch : (completionOf L.floats b st ct body now).Matches r := of_decide_eq_true hm
    exact Db.findExecution_none.mp h r hr (Prod.ext hmatch.1 hmatch.2.1)
  have hnew : (completionOf L.floats b st ct body now).Matches (intentRow i b t) :=
    ⟨rfl, rfl, rfl, rfl⟩
  rw [hrows, List.countP_append, hold, List.countP_singleton, if_pos (decide_eq_true hnew)]

theorem performs_complete {b : ServerExecutionBinding} {st : UInt16} {ct : Option String}
    {body : Octets}
    (hone : w.db.serverExecutions.countP (completionOf L.floats b st ct body t).Matches = 1)
    (hfree : OutboxFree w.db (completedOutboxRow L.floats b st body t)) (hu : w.db.FreshId u) :
    McpPerforms L (.completeServerExecution b st ct body) w
      (.ok (completedResult L.floats b st ct body))
      (w.store (w.db.completed L.floats u t b st ct body)) :=
  ⟨steady u t, _, complete_steady hone hfree hu, rfl⟩

/-- An engine that gives these answers to every input. -/
def answeringEngine (allow deny review : RegoValue) : Engine where
  setInputJson _ := .ok ()
  evalRule rule :=
    if rule = allowRule then .ok allow
    else if rule = denyRule then .ok deny
    else if rule = reviewRule then .ok review
    else .error "unknown rule"

theorem performs_evaluate (i : String) (input : PolicyInput) (allow deny review : RegoValue) :
    ∃ w', McpPerforms L (.evaluate i input) w (decisionOf allow deny review) w' ∧
      w'.db = w.db := by
  let serialize : PolicyInput → Except String String := fun _ => .ok ""
  let worker : Worker := .runs (answeringEngine allow deny review)
  have hanswers : Answers serialize worker 0 input (w.memory i).velocity allow deny review :=
    ⟨"", answeringEngine allow deny review, rfl, rfl, ⟨rfl, rfl, rfl, rfl⟩⟩
  exact ⟨_, ⟨serialize, worker, 0, _, Prod.ext (evaluate_answers hanswers) rfl, rfl⟩, rfl⟩

/-- A decision that is neither parked nor denied. -/
theorem decision_served {job : McpJob} {call : McpCall} {url : Option String} {i : Uuid}
    (allow deny review : RegoValue)
    (hg : gates L job.state job.headers job.body u.text = .ok call)
    (hr : job.state.rateLimited = false)
    (hurl : validateCallbackUrl L job.state job.headers = .ok url)
    (hm : isMcpControlMethod call.parsed.method = false) (hs : call.serverExecution = none)
    (hd : call.decision.isSome)
    (hn : ¬ NeedsReview job ⟨brainOf L job.body call, decisionOf allow deny review⟩)
    (hred : ¬ ((⟨brainOf L job.body call, decisionOf allow deny review⟩ : Verdict).tier = .red ∧
      job.state.mode = .enforce))
    (hi : w.db.FreshId i) : ∃ w', Prog.RunsTo (McpPerforms L) (job.program L) w
      [⟨.newV4, u⟩, evaluation L job call (decisionOf allow deny review),
        ⟨.append (verdictRequest call ⟨brainOf L job.body call, decisionOf allow deny review⟩),
          .ok (entryFor L.floats w.db i newYear
            (verdictRequest call ⟨brainOf L job.body call, decisionOf allow deny review⟩))⟩,
        ⟨.utcNow, newYear⟩]
      (some (plainResponse 200 call.correlationId job.state.mode
          (.json (decisionAllowed call.correlationId)),
        maybeFireWebhook job.state (verdictEvent job.state call
          ⟨brainOf L job.body call, decisionOf allow deny review⟩ .allow
          (brainOf L job.body call).intentCategory newYear))) w' ∧
      w'.db.entries = w.db.entries ++ [(entryFor L.floats w.db i newYear
        (verdictRequest call ⟨brainOf L job.body call, decisionOf allow deny review⟩)).row
          L.floats] := by
  obtain ⟨w₁, he, hdb⟩ := performs_evaluate (L := L) (w := w) job.state.instanceId
    (policyInput L job.body call) allow deny review
  rw [← hdb] at hi ⊢
  exact ⟨_, decision_alone hg hr hurl hm hs hd rfl hn hred rfl he
    (performs_append (t := newYear) hi) rfl, rfl⟩

end Performs

/-- The operations on the memory of a process. -/
def isRemembering : {β : Type} → McpOp β → Bool
  | _, .checkRate _ _ => true
  | _, .evaluate _ _ => true
  | _, .pinCatalog _ _ _ _ => true
  | _, _ => false

/-- Whatever leaves the memories of the processes alone is done in the states as in the worlds
that they hold. -/
def Hosts (L : Libraries) {σ : Type} (performs : ∀ {δ : Type}, McpOp δ → σ → δ → σ → Prop)
    (state : World → σ) : Prop :=
  ∀ {β : Type} {op : McpOp β} {w : World} {a : β} {w' : World}, isRemembering op = false →
    McpPerforms L op w a w' → performs op (state w) a (state w')

theorem hosts_self (L : Libraries) : Hosts L (McpPerforms L) fun w => w := fun _ hp => hp

section Serving

variable {L : Libraries} {σ : Type} {performs : ∀ {δ : Type}, McpOp δ → σ → δ → σ → Prop}
  {state : World → σ} {w w₁ : World} {u : Uuid} {job : McpJob} {call : McpCall}
  {url : Option String} {b : ServerExecutionBinding} {policy : PolicyDecision}

/-- An execution that nothing stands in the way of, whose upstream does not answer. -/
theorem execution_served {i₁ i₂ : Uuid} (hosts : Hosts L performs state)
    (hg : gates L job.state job.headers job.body u.text = .ok call)
    (hr : job.state.rateLimited = false)
    (hurl : validateCallbackUrl L job.state job.headers = .ok url)
    (hm : isMcpControlMethod call.parsed.method = false) (hb : Bound L job call (some b))
    (hd : call.decision = none) (hn : ¬ NeedsReview job ⟨brainOf L job.body call, policy⟩)
    (hred : ¬ ((⟨brainOf L job.body call, policy⟩ : Verdict).tier = .red ∧
      job.state.mode = .enforce))
    (he : performs (.evaluate job.state.instanceId (policyInput L job.body call)) (state w) policy
      (state w₁)) (hdb : w₁.db = w.db) (hnone : w.db.findExecution b.key = none)
    (hfree : ∀ r ∈ w.db.serverExecutions, r.executionId ≠ b.executionId.text)
    (h₁ : w.db.FreshId i₁) (h₂ : w.db.FreshId i₂) (hne : i₁ ≠ i₂) (x : String) : ∃ e w',
    Prog.RunsTo performs (job.program L) (state w)
      [⟨.newV4, u⟩, ⟨.inspectServerExecution b, .ok .missing⟩, evaluation L job call policy,
        ⟨.append (verdictRequest call ⟨brainOf L job.body call, policy⟩), .ok e⟩,
        ⟨.beginServerExecution job.state.instanceId b, .ok .started⟩, ⟨.send job.body, .error x⟩]
      (some (serverExecutionError 409 "server_execution_uncertain" call.correlationId
        job.state.mode, [])) (state w') ∧
      w'.db = (w.db.withEntry ((entryFor L.floats w.db i₁ newYear (verdictRequest call
        ⟨brainOf L job.body call, policy⟩)).row L.floats)).begun L.floats i₂ newYear
          job.state.instanceId b := by
  rw [← hdb] at hfree h₁ h₂
  have hmissing : w₁.db.findExecution b.key = none := hdb ▸ hnone
  refine ⟨_, _, execution_alone hg hr hurl hm hb hd rfl hn hred (hosts rfl rfl)
    (hosts rfl (performs_inspect hnone)) he (hosts rfl (performs_append (t := newYear) h₁))
    (hosts rfl (performs_begin (t := newYear) hmissing hfree (h₂.withEntry hne)))
    (hosts rfl rfl), ?_⟩
  rw [← hdb]
  rfl

/-- An execution that nothing stands in the way of, and whose upstream answers. -/
theorem executed_served {requestId : Option Json} {upstream : ForwardedResponse}
    {i₁ i₂ i₃ : Uuid} (hosts : Hosts L performs state)
    (hg : gates L job.state job.headers job.body u.text = .ok call)
    (hr : job.state.rateLimited = false)
    (hurl : validateCallbackUrl L job.state job.headers = .ok url)
    (hm : isMcpControlMethod call.parsed.method = false) (hb : Bound L job call (some b))
    (hd : call.decision = none) (hn : ¬ NeedsReview job ⟨brainOf L job.body call, policy⟩)
    (hred : ¬ ((⟨brainOf L job.body call, policy⟩ : Verdict).tier = .red ∧
      job.state.mode = .enforce))
    (hadapter : job.state.upstreamAdapter.validateRequest L.floats L.texts job.body =
      .ok requestId)
    (hok : job.state.upstreamAdapter.accept L.floats L.texts requestId upstream = .ok upstream)
    (he : performs (.evaluate job.state.instanceId (policyInput L job.body call)) (state w) policy
      (state w₁)) (hdb : w₁.db = w.db) (hnone : w.db.findExecution b.key = none)
    (hfree : ∀ r ∈ w.db.serverExecutions, r.executionId ≠ b.executionId.text)
    (hout : OutboxFree w.db (completedOutboxRow L.floats b upstream.status upstream.body newYear))
    (h₁ : w.db.FreshId i₁) (h₂ : w.db.FreshId i₂) (h₃ : w.db.FreshId i₃) (hne : i₁ ≠ i₂)
    (hne₁ : i₁ ≠ i₃) (hne₂ : i₂ ≠ i₃) : ∃ e w' r,
    Prog.RunsTo performs (job.program L) (state w)
      ([⟨.newV4, u⟩, ⟨.inspectServerExecution b, .ok .missing⟩, evaluation L job call policy,
        ⟨.append (verdictRequest call ⟨brainOf L job.body call, policy⟩), .ok e⟩] ++
        [⟨.beginServerExecution job.state.instanceId b, .ok .started⟩,
        ⟨.send job.body, .ok upstream⟩,
        ⟨.completeServerExecution b upstream.status upstream.contentType upstream.body,
          .ok (completedResult L.floats b upstream.status upstream.contentType upstream.body)⟩,
        ⟨.utcNow, newYear⟩]) r (state w') := by
  rw [← hdb] at hfree hout h₁ h₂ h₃
  have hmissing : w₁.db.findExecution b.key = none := hdb ▸ hnone
  let recorded := w₁.db.withEntry ((entryFor L.floats w₁.db i₁ newYear
    (verdictRequest call ⟨brainOf L job.body call, policy⟩)).row L.floats)
  let begun := recorded.begun L.floats i₂ newYear job.state.instanceId b
  have hfresh₂ : recorded.FreshId i₂ := h₂.withEntry hne
  have hfresh₃ : recorded.FreshId i₃ := h₃.withEntry hne₁
  have hintent : (recorded.withIntent (intentRow job.state.instanceId b newYear)).FreshId i₃ :=
    hfresh₃
  have hbegun : begun.FreshId i₃ := hintent.withEntry hne₂
  have hbegin : McpPerforms L (.beginServerExecution job.state.instanceId b) (w₁.store recorded)
      (.ok .started) (w₁.store begun) := performs_begin hmissing hfree hfresh₂
  have hmatches : begun.serverExecutions.countP (completionOf L.floats b upstream.status
      upstream.contentType upstream.body newYear).Matches = 1 :=
    begun_matches (u := i₂) newYear hmissing _ _ _
  have hcomplete := performs_complete (L := L)
    (w := { w₁.store begun with sent := w₁.sent ++ [job.body] }) hmatches hout hbegun
  exact ⟨_, _, _, executed_alone hg hr hurl hm hb hd rfl hn hred (hosts rfl rfl)
    (hosts rfl (performs_inspect hnone)) he (hosts rfl (performs_append h₁))
    (execute_answered (hosts rfl hbegin) hadapter hok (hosts rfl rfl) (hosts rfl hcomplete)
      (hosts rfl rfl))⟩

end Serving

def freshWorld : World where
  db := Db.empty
  memory _ := ⟨⟨⟨1, 1⟩, ∅⟩, .withWindow 60, ∅⟩
  sent := []

def agentHeaders : HeaderMap := [("authorization", utf8 "Bearer agent-token")]

/-- An execution is asked of a process that observes. -/
def executionJob : McpJob where
  state :=
    { instanceId := "node-1"
      agents := some (AgentRegistry.single "agent-token")
      deciders := none
      decideToken := none
      mode := .observe
      upstreamAdapter := .mcpJsonRpcV1
      callbackAllowlist := []
      slackWebhookUrl := none
      webhookUrl := none
      rateLimited := false
      verboseVerdicts := false }
  headers := agentHeaders ++ [(serverExecutionContractHeader, utf8 serverExecutionContract),
    (idempotencyIdHeader, utf8 (numberedUuid 7).text)]
  body := utf8 ("\x7b\"jsonrpc\":\"2.0\",\"id\":1,\"method\":\"tools/call\"," ++
    "\"params\":\x7b\"name\":\"wire_transfer\"\x7d\x7d")

theorem executionJob_passes : ∃ call, gates plainLibraries executionJob.state executionJob.headers
    executionJob.body (numberedUuid 1).text = .ok call ∧
      call.serverExecution = some (numberedUuid 7) ∧ call.decision = none ∧
      isMcpControlMethod call.parsed.method = false := by
  have heval : ((gates plainLibraries executionJob.state executionJob.headers executionJob.body
      (numberedUuid 1).text).toOption.any fun call =>
        decide (call.serverExecution = some (numberedUuid 7)) && call.decision.isNone &&
          !isMcpControlMethod call.parsed.method) = true := by
    decide +kernel
  obtain ⟨call, hg, hcall⟩ := (Option.any_eq_true _ _).mp heval
  simp only [Bool.and_eq_true, Bool.not_eq_true', Option.isNone_iff_eq_none,
    decide_eq_true_eq] at hcall
  exact ⟨call, ok_of_toOption hg, hcall.1.1, hcall.1.2, hcall.2⟩

theorem executionJob_bound {call : McpCall} (hs : call.serverExecution = some (numberedUuid 7)) :
    ∃ value, Bound plainLibraries executionJob call
      (some (bindingOf plainLibraries call (numberedUuid 7) value)) := by
  have heval : (fromSlice plainLibraries.floats executionJob.body).isSome = true := by
    decide +kernel
  obtain ⟨value, hv⟩ := Option.isSome_iff_exists.mp heval
  exact ⟨value, Or.inr ⟨_, value, hs, hv, rfl⟩⟩

theorem executionJob_url :
    validateCallbackUrl plainLibraries executionJob.state executionJob.headers = .ok none := by
  have hnone : executionJob.headers.get "x-clavenar-callback-url" = none := by decide +kernel
  rw [validateCallbackUrl, hnone]
  rfl

/-- The execution in the fresh world, with any answers of the policy. -/
theorem executionJob_served (allow deny review : RegoValue) : ∃ call value e w,
    gates plainLibraries executionJob.state executionJob.headers executionJob.body
        (numberedUuid 1).text = .ok call ∧
      isMcpControlMethod call.parsed.method = false ∧
      Bound plainLibraries executionJob call
        (some (bindingOf plainLibraries call (numberedUuid 7) value)) ∧
      Prog.RunsTo (McpPerforms plainLibraries) (executionJob.program plainLibraries) freshWorld
        [⟨.newV4, numberedUuid 1⟩,
          ⟨.inspectServerExecution (bindingOf plainLibraries call (numberedUuid 7) value),
            .ok .missing⟩,
          evaluation plainLibraries executionJob call (decisionOf allow deny review),
          ⟨.append (verdictRequest call
            ⟨brainOf plainLibraries executionJob.body call, decisionOf allow deny review⟩), .ok e⟩,
          ⟨.beginServerExecution "node-1" (bindingOf plainLibraries call (numberedUuid 7) value),
            .ok .started⟩,
          ⟨.send executionJob.body, .error "connection refused"⟩]
        (some (serverExecutionError 409 "server_execution_uncertain" call.correlationId .observe,
          [])) w ∧
      w.db.entries.length = 2 := by
  obtain ⟨call, hg, hs, hd, hm⟩ := executionJob_passes
  obtain ⟨value, hb⟩ := executionJob_bound hs
  have hobserve : executionJob.state.mode ≠ .enforce := by simp [executionJob]
  have hne : numberedUuid 2 ≠ numberedUuid 3 := by decide
  obtain ⟨w₁, he, hdb⟩ := performs_evaluate (L := plainLibraries) (w := freshWorld) "node-1"
    (policyInput plainLibraries executionJob.body call) allow deny review
  obtain ⟨e, w, hrun, hw⟩ := execution_served (hosts_self plainLibraries) hg rfl
    executionJob_url hm hb hd (fun hn => hobserve hn.2) (fun hn => hobserve hn.2) he hdb rfl
    (fun _ hr => absurd hr List.not_mem_nil) (fun _ hr => absurd hr List.not_mem_nil)
    (fun _ hr => absurd hr List.not_mem_nil) hne "connection refused"
  exact ⟨call, value, e, w, hg, hm, hb, hrun, congrArg (fun db => db.entries.length) hw⟩

/-- An answer that the adapter accepts. -/
def executionAnswer : ForwardedResponse where
  status := 200
  contentType := some "application/json"
  body := utf8 "\x7b\"jsonrpc\":\"2.0\",\"id\":1,\"result\":\x7b\x7d\x7d"

theorem executionAnswer_accepted : ∃ requestId,
    executionJob.state.upstreamAdapter.validateRequest bitsText sampleTexts executionJob.body =
        .ok requestId ∧
      executionJob.state.upstreamAdapter.accept bitsText sampleTexts requestId executionAnswer =
        .ok executionAnswer := by
  have heval : ((executionJob.state.upstreamAdapter.validateRequest bitsText sampleTexts
      executionJob.body).toOption.any fun requestId =>
        (executionJob.state.upstreamAdapter.accept bitsText sampleTexts requestId
          executionAnswer).toOption.isSome) = true := by
    decide +kernel
  obtain ⟨requestId, hid, haccept⟩ := (Option.any_eq_true _ _).mp heval
  obtain ⟨accepted, ha⟩ := Option.isSome_iff_exists.mp haccept
  have hok := ok_of_toOption ha
  obtain rfl := (UpstreamAdapter.accept_ok hok).1
  exact ⟨requestId, ok_of_toOption hid, hok⟩

/-- The execution in the fresh world, with the answer. -/
theorem executionJob_executed (allow deny review : RegoValue) : ∃ call value e w r,
    gates plainLibraries executionJob.state executionJob.headers executionJob.body
        (numberedUuid 1).text = .ok call ∧
      Bound plainLibraries executionJob call
        (some (bindingOf plainLibraries call (numberedUuid 7) value)) ∧
      Prog.RunsTo (McpPerforms plainLibraries) (executionJob.program plainLibraries) freshWorld
        ([⟨.newV4, numberedUuid 1⟩,
          ⟨.inspectServerExecution (bindingOf plainLibraries call (numberedUuid 7) value),
            .ok .missing⟩,
          evaluation plainLibraries executionJob call (decisionOf allow deny review),
          ⟨.append (verdictRequest call
            ⟨brainOf plainLibraries executionJob.body call, decisionOf allow deny review⟩), .ok e⟩] ++
          [⟨.beginServerExecution "node-1" (bindingOf plainLibraries call (numberedUuid 7) value),
            .ok .started⟩,
          ⟨.send executionJob.body, .ok executionAnswer⟩,
          ⟨.completeServerExecution (bindingOf plainLibraries call (numberedUuid 7) value) 200
              (some "application/json") executionAnswer.body,
            .ok (completedResult bitsText (bindingOf plainLibraries call (numberedUuid 7) value) 200
              (some "application/json") executionAnswer.body)⟩,
          ⟨.utcNow, newYear⟩]) r w := by
  obtain ⟨call, hg, hs, hd, hm⟩ := executionJob_passes
  obtain ⟨value, hb⟩ := executionJob_bound hs
  obtain ⟨requestId, hid, hok⟩ := executionAnswer_accepted
  have hobserve : executionJob.state.mode ≠ .enforce := by simp [executionJob]
  have h₁₂ : numberedUuid 2 ≠ numberedUuid 3 := by decide
  have h₁₃ : numberedUuid 2 ≠ numberedUuid 4 := by decide
  have h₂₃ : numberedUuid 3 ≠ numberedUuid 4 := by decide
  obtain ⟨w₁, he, hdb⟩ := performs_evaluate (L := plainLibraries) (w := freshWorld) "node-1"
    (policyInput plainLibraries executionJob.body call) allow deny review
  obtain ⟨e, w, r, hrun⟩ := executed_served (hosts_self plainLibraries) hg rfl
    executionJob_url hm hb hd (fun hn => hobserve hn.2) (fun hn => hobserve hn.2) hid hok he hdb rfl
    (fun _ hr => absurd hr List.not_mem_nil) (fun _ hr => absurd hr List.not_mem_nil)
    (fun _ hr => absurd hr List.not_mem_nil) (fun _ hr => absurd hr List.not_mem_nil)
    (fun _ hr => absurd hr List.not_mem_nil) h₁₂ h₁₃ h₂₃
  exact ⟨call, value, e, w, r, hg, hb, hrun⟩

end ClavenarLite
