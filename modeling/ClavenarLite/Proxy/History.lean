import ClavenarLite.Proxy.Handler

/-! What the handler of `/mcp` has done before each of its operations, and what
it ends with. The calls of a request come in the order of the stages, so each
stage is described by the calls made up to its end. -/

namespace ClavenarLite

open Bytes Fallible Interaction TextJson Transaction

structure McpJob where
  state : AppState
  headers : HeaderMap
  body : Octets

abbrev McpCalls := List (Call McpOp)

variable (L : Libraries) (job : McpJob)

def McpJob.program : Prog McpOp Ended := handleMcp L job.state job.headers job.body

def ratePart (call : McpCall) : McpCalls :=
  if job.state.rateLimited then
    [⟨.checkRate job.state.instanceId call.agentKey, RateLimitOutcome.allowed⟩]
  else []

/-- The request has passed the gates and the limiter. -/
def Opened (call : McpCall) (cs : McpCalls) : Prop :=
  ∃ u, gates L job.state job.headers job.body u.text = .ok call ∧
    cs = ⟨.newV4, u⟩ :: ratePart job call

/-- The binding of a server execution; other requests have none. -/
def Bound (call : McpCall) (binding : Option ServerExecutionBinding) : Prop :=
  (call.serverExecution = none ∧ binding = none) ∨
    ∃ id value, call.serverExecution = some id ∧ fromSlice L.floats job.body = some value ∧
      binding = some (bindingOf L call id value)

def inspectPart (binding : Option ServerExecutionBinding) : McpCalls :=
  binding.elim [] fun b => [⟨.inspectServerExecution b, .ok .missing⟩]

/-- A tool call whose execution is not known yet. -/
def Inspected (call : McpCall) (binding : Option ServerExecutionBinding) (cs : McpCalls) : Prop :=
  ∃ pre, Opened L job call pre ∧ isMcpControlMethod call.parsed.method = false ∧
    Bound L job call binding ∧ cs = pre ++ inspectPart binding

def evaluation (call : McpCall) (policy : PolicyDecision) : Call McpOp :=
  ⟨.evaluate job.state.instanceId (policyInput L job.body call), policy⟩

def Judged (call : McpCall) (binding : Option ServerExecutionBinding) (v : Verdict)
    (cs : McpCalls) : Prop :=
  ∃ pre r, Inspected L job call binding pre ∧ v.brain = brainOf L job.body call ∧
    cs = pre ++ [evaluation L job call v.policy, ⟨.append (verdictRequest call v), r⟩]

/-- The verdict asks for a review that the mode makes binding. -/
def NeedsReview (v : Verdict) : Prop := v.tier = .yellow ∧ job.state.mode = .enforce

/-- No review is needed, or the pending that was found is an approval. -/
def Reviewed (call : McpCall) (binding : Option ServerExecutionBinding) (v : Verdict)
    (cs : McpCalls) : Prop :=
  ∃ pre, Judged L job call binding v pre ∧
    ((¬ NeedsReview job v ∧ cs = pre) ∨
      (NeedsReview job v ∧ call.serverExecution.isSome ∧ ∃ p, p.decision = some "allow" ∧
        cs = pre ++ [⟨.getPending call.correlationId, .ok (some p)⟩]))

/-- Nothing stands in the way of the execution any more. -/
def Released (call : McpCall) (binding : Option ServerExecutionBinding) (v : Verdict)
    (cs : McpCalls) : Prop :=
  Reviewed L job call binding v cs ∧ ¬ (v.tier = .red ∧ job.state.mode = .enforce) ∧
    call.decision = none

def Begun (call : McpCall) (b : ServerExecutionBinding) (v : Verdict) (cs : McpCalls) : Prop :=
  ∃ pre, Released L job call (some b) v pre ∧
    cs = pre ++ [⟨.beginServerExecution job.state.instanceId b, .ok .started⟩]

/-- A control request without a selector. -/
def Controlling (call : McpCall) (cs : McpCalls) : Prop :=
  Opened L job call cs ∧ isMcpControlMethod call.parsed.method = true ∧
    call.serverExecution = none ∧ call.decision = none

def Throttles (call : McpCall) (cs : McpCalls) (req : LogRequest) : Prop :=
  ∃ u a s, gates L job.state job.headers job.body u.text = .ok call ∧
    cs = [⟨.newV4, u⟩, ⟨.checkRate job.state.instanceId call.agentKey, .denied a s⟩] ∧
    req = throttledRequest call a s

def Records (call : McpCall) (cs : McpCalls) (req : LogRequest) : Prop :=
  ∃ binding pre v, Inspected L job call binding pre ∧ v.brain = brainOf L job.body call ∧
    cs = pre ++ [evaluation L job call v.policy] ∧ req = verdictRequest call v

def Alarms (call : McpCall) (cs : McpCalls) (req : LogRequest) : Prop :=
  ∃ pre answer body, Controlling L job call pre ∧
    cs = pre ++ [⟨.send job.body, answer⟩, ⟨.pinCatalog job.state.instanceId call.agentKey
      call.identity.agentId body, some req⟩]

/-- A request to be parked, for which the lookup, if there is one, found nothing. -/
def Parks (call : McpCall) (v : Verdict) (cs : McpCalls) (req : ParkRequest) : Prop :=
  ∃ binding url pre, Judged L job call binding v pre ∧ NeedsReview job v ∧
    req = parkRequestOf call v url ∧
    cs = pre ++ if call.serverExecution.isSome then
      [⟨.getPending call.correlationId, .ok none⟩] else []

/-- What has been done when an operation is performed. -/
def McpRule (cs : McpCalls) : {δ : Type} → McpOp δ → Prop
  | _, .newV4 => cs = []
  | _, .utcNow => True
  | _, .checkRate i key => ∃ call u, gates L job.state job.headers job.body u.text = .ok call ∧
      i = job.state.instanceId ∧ key = call.agentKey ∧ cs = [⟨.newV4, u⟩]
  | _, .append req => ∃ call, Throttles L job call cs req ∨ Records L job call cs req ∨
      Alarms L job call cs req
  | _, .inspectServerExecution b => ∃ call, Opened L job call cs ∧ Bound L job call (some b) ∧
      isMcpControlMethod call.parsed.method = false
  | _, .evaluate i input => ∃ call binding, Inspected L job call binding cs ∧
      i = job.state.instanceId ∧ input = policyInput L job.body call
  | _, .getPending c => ∃ call binding v, Judged L job call binding v cs ∧ NeedsReview job v ∧
      call.serverExecution.isSome ∧ c = call.correlationId
  | _, .parkPending req => ∃ call v, Parks L job call v cs req
  | _, .beginServerExecution i b => ∃ call v, Released L job call (some b) v cs ∧
      i = job.state.instanceId
  | _, .send body => body = job.body ∧ ∃ call, Controlling L job call cs ∨
      ∃ b v, Begun L job call b v cs
  | _, .completeServerExecution b _ _ _ => ∃ call v pre answer, Begun L job call b v pre ∧
      cs = pre ++ [⟨.send job.body, answer⟩]
  | _, .pinCatalog _ key _ _ => ∃ call pre answer, Controlling L job call pre ∧
      key = call.agentKey ∧ cs = pre ++ [⟨.send job.body, answer⟩]

def isEvaluation : Call McpOp → Bool
  | ⟨.evaluate _ _, _⟩ => true
  | _ => false

/-- The request ended before it was judged. -/
inductive Unjudged (cs : McpCalls) : Prop
  | rejected {u : Uuid} {r : Response}
      (hg : gates L job.state job.headers job.body u.text = .error r) (hc : cs = [⟨.newV4, u⟩])
  | throttled {call : McpCall} {pre : McpCalls} {req : LogRequest} {r : Except SqlError LedgerEntry}
      (ht : Throttles L job call pre req) (hc : cs = pre ++ [⟨.append req, r⟩])
  | misaddressed {call : McpCall} {reason : String} (ho : Opened L job call cs)
      (hv : validateCallbackUrl L job.state job.headers = .error reason)
  | control {call : McpCall} {pre late : McpCalls} (ho : Opened L job call pre)
      (hm : isMcpControlMethod call.parsed.method = true) (hc : cs = pre ++ late)
      (hl : ∀ c ∈ late, isEvaluation c = false)
  | unreadable {call : McpCall} (ho : Opened L job call cs)
      (hv : fromSlice L.floats job.body = none)
  | known {call : McpCall} {b : ServerExecutionBinding} {pre : McpCalls}
      {outcome : Except SqlError ServerExecutionOutcome} (ho : Opened L job call pre)
      (hb : Bound L job call (some b)) (hne : outcome ≠ .ok .missing)
      (hc : cs = pre ++ [⟨.inspectServerExecution b, outcome⟩])

/-- How a request ends, with all the calls made for it. -/
inductive Exit (cs : McpCalls) : Ended → Prop
  | unjudged {e : Ended} (h : Unjudged L job cs) : Exit cs e
  | lookupFailed {call : McpCall} {binding : Option ServerExecutionBinding} {v : Verdict}
      {pre : McpCalls} {x : SqlError} (hj : Judged L job call binding v pre) (hn : NeedsReview job v)
      (hc : cs = pre ++ [⟨.getPending call.correlationId, .error x⟩]) :
      Exit cs (some (serverExecutionError 503 "server_execution_storage_unavailable"
        call.correlationId job.state.mode, []))
  | reviewDenied {call : McpCall} {binding : Option ServerExecutionBinding} {v : Verdict}
      {pre : McpCalls} {p : Pending} (hj : Judged L job call binding v pre)
      (hn : NeedsReview job v) (hd : p.decision = some "deny")
      (hc : cs = pre ++ [⟨.getPending call.correlationId, .ok (some p)⟩]) :
      Exit cs (some (serverExecutionError 403 "server_execution_pending_denied"
        call.correlationId job.state.mode, []))
  | pending {call : McpCall} {binding : Option ServerExecutionBinding} {v : Verdict}
      {pre : McpCalls} {p : Pending} (hj : Judged L job call binding v pre)
      (hn : NeedsReview job v) (ha : p.decision ≠ some "allow") (hd : p.decision ≠ some "deny")
      (hc : cs = pre ++ [⟨.getPending call.correlationId, .ok (some p)⟩]) :
      Exit cs (some (pendingResponse job.state call v p.reviewReasons, []))
  | parked {call : McpCall} {v : Verdict} {pre : McpCalls} {req : ParkRequest} {parked : Pending}
      {ts : Rfc3339.Clock} (hp : Parks L job call v pre req)
      (hc : cs = pre ++ [⟨.parkPending req, .ok parked⟩, ⟨.utcNow, ts⟩]) :
      Exit cs (some (pendingResponse job.state call v v.policy.reviewReasons,
        job.state.slackWebhookUrl.toList.map (.slack · parked) ++
          maybeFireWebhook job.state (verdictEvent job.state call v .park "PendingReview" ts)))
  | parkFailed {call : McpCall} {v : Verdict} {pre : McpCalls} {req : ParkRequest} {x : SqlError}
      (hp : Parks L job call v pre req) (hc : cs = pre ++ [⟨.parkPending req, .error x⟩]) :
      Exit cs (some (parkFailed job.state call.correlationId, []))
  | denied {call : McpCall} {binding : Option ServerExecutionBinding} {v : Verdict}
      {pre : McpCalls} {ts : Rfc3339.Clock} (hr : Reviewed L job call binding v pre)
      (hred : v.tier = .red) (hm : job.state.mode = .enforce) (hc : cs = pre ++ [⟨.utcNow, ts⟩]) :
      Exit cs (some (denyResponse job.state call v,
        maybeFireWebhook job.state (verdictEvent job.state call v .deny v.brain.intentCategory ts)))
  | decided {call : McpCall} {binding : Option ServerExecutionBinding} {v : Verdict}
      {pre : McpCalls} {ts : Rfc3339.Clock} (hr : Reviewed L job call binding v pre)
      (hred : ¬ (v.tier = .red ∧ job.state.mode = .enforce)) (hd : call.decision.isSome)
      (hc : cs = pre ++ [⟨.utcNow, ts⟩]) :
      Exit cs (some (plainResponse 200 call.correlationId job.state.mode
          (.json (decisionAllowed call.correlationId)),
        maybeFireWebhook job.state (verdictEvent job.state call v .allow v.brain.intentCategory ts)))
  | unexecuted {call : McpCall} {b : ServerExecutionBinding} {v : Verdict} {pre late : McpCalls}
      {status : UInt16} {error : String} (hr : Released L job call (some b) v pre)
      (hc : cs = pre ++ late) :
      Exit cs (some (serverExecutionError status error call.correlationId job.state.mode, []))
  | replayed {call : McpCall} {b : ServerExecutionBinding} {v : Verdict} {pre : McpCalls}
      {c : ServerExecutionCompleted} (hr : Released L job call (some b) v pre)
      (hc : cs = pre ++ [⟨.beginServerExecution job.state.instanceId b, .ok (.completed c)⟩]) :
      Exit cs ((serverExecutionResponse c call.correlationId job.state.mode true v.wouldDeny
        v.wouldPend).map fun r => (r, []))
  | executed {call : McpCall} {b : ServerExecutionBinding} {v : Verdict} {pre : McpCalls}
      {answer : Except String ForwardedResponse} {upstream : ForwardedResponse}
      {c : ServerExecutionCompleted} {ts : Rfc3339.Clock} (hb : Begun L job call b v pre)
      (hc : cs = pre ++ [⟨.send job.body, answer⟩, ⟨.completeServerExecution b upstream.status
        upstream.contentType upstream.body, .ok c⟩, ⟨.utcNow, ts⟩]) :
      Exit cs ((serverExecutionResponse c call.correlationId job.state.mode false v.wouldDeny
        v.wouldPend).map fun r => (r, maybeFireWebhook job.state
          (verdictEvent job.state call v v.event v.brain.intentCategory ts)))

variable {L job}

theorem gates_selected {u : String} {call : McpCall}
    (hg : gates L job.state job.headers job.body u = .ok call) :
    call.serverExecution.isSome ∨ call.decision.isSome ∨
      isMcpControlMethod call.parsed.method = true := by
  have hf := (gates_ok hg).selected
  cases hs : call.serverExecution with
  | some id => exact Or.inl rfl
  | none =>
    cases hd : call.decision with
    | some id => exact Or.inr (Or.inl rfl)
    | none => exact Or.inr (Or.inr (by simpa [hs, hd] using hf))

theorem checkRate_meets {u : Uuid} {call : McpCall}
    (hg : gates L job.state job.headers job.body u.text = .ok call) :
    Meets (McpRule L job) (Exit L job) (fun cs _ => Opened L job call cs) [⟨.newV4, u⟩]
      (checkRate L job.state call) := by
  unfold checkRate
  by_cases hr : job.state.rateLimited = true
  · rw [if_pos hr]
    refine .ask ⟨call, u, hg, rfl, rfl, rfl⟩ fun outcome => ?_
    cases outcome with
    | allowed =>
      refine .pure ⟨u, hg, ?_⟩
      simp [ratePart, hr]
    | denied a s =>
      have ht : Throttles L job call
          [⟨.newV4, u⟩, ⟨.checkRate job.state.instanceId call.agentKey, .denied a s⟩]
          (throttledRequest call a s) := ⟨u, a, s, hg, rfl, rfl⟩
      refine .ask ⟨call, Or.inl ht⟩ fun r => ?_
      exact .throw (.unjudged (.throttled ht rfl))
  · rw [if_neg hr]
    refine .pure ⟨u, hg, ?_⟩
    simp [ratePart, hr]

theorem inspectBinding_meets {call : McpCall} {b : ServerExecutionBinding} {cs : McpCalls}
    (ho : Opened L job call cs) (hb : Bound L job call (some b))
    (hm : isMcpControlMethod call.parsed.method = false) :
    Meets (McpRule L job) (Exit L job) (fun ds _ => ds = cs ++ inspectPart (some b)) cs
      (inspectBinding job.state call b) := by
  unfold inspectBinding
  refine .ask ⟨call, ho, hb, hm⟩ fun outcome => ?_
  have hknown : outcome ≠ .ok .missing →
      Unjudged L job (cs ++ [⟨.inspectServerExecution b, outcome⟩]) :=
    fun hne => .known ho hb hne rfl
  cases outcome with
  | error x => exact .throw (.unjudged (hknown (by simp)))
  | ok outcome =>
    cases outcome with
    | missing => exact .pure rfl
    | started => exact .throw (.unjudged (hknown (by simp)))
    | completed c => exact .throw (.unjudged (hknown (by simp)))
    | uncertain => exact .throw (.unjudged (hknown (by simp)))
    | conflict => exact .throw (.unjudged (hknown (by simp)))

theorem judge_meets {call : McpCall} {binding : Option ServerExecutionBinding} {cs : McpCalls}
    (hi : Inspected L job call binding cs) :
    Meets (McpRule L job) (Exit L job) (fun ds v => Judged L job call binding v ds) cs
      (judge L job.state job.body call) := by
  unfold judge
  refine .ask ⟨call, binding, hi, rfl, rfl⟩ fun policy => ?_
  refine .ask ⟨call, Or.inr (Or.inl ⟨binding, cs, ⟨brainOf L job.body call, policy⟩, hi, rfl, rfl,
    rfl⟩)⟩ fun r => ?_
  exact .pure ⟨cs, r, hi, rfl, by simp [evaluation]⟩

theorem park_meets {call : McpCall} {binding : Option ServerExecutionBinding} {v : Verdict}
    {url : Option String} {pre cs : McpCalls} {post : McpCalls → Unit → Prop}
    (hj : Judged L job call binding v pre) (hn : NeedsReview job v)
    (hc : cs = pre ++ if call.serverExecution.isSome then
      [⟨.getPending call.correlationId, .ok none⟩] else []) :
    Meets (McpRule L job) (Exit L job) post cs (park job.state call v url) := by
  have hp : Parks L job call v cs (parkRequestOf call v url) := ⟨binding, url, pre, hj, hn, rfl, hc⟩
  unfold park
  refine .ask ⟨call, v, hp⟩ fun answer => ?_
  cases answer with
  | error x => exact .throw (.parkFailed hp rfl)
  | ok parked =>
    refine .ask trivial fun ts => .throw (.parked hp ?_)
    simp

theorem reviewExecution_meets {call : McpCall} {binding : Option ServerExecutionBinding}
    {v : Verdict} {url : Option String} {cs : McpCalls} (hj : Judged L job call binding v cs)
    (hn : NeedsReview job v) (hs : call.serverExecution.isSome) :
    Meets (McpRule L job) (Exit L job) (fun ds _ => Reviewed L job call binding v ds) cs
      (reviewExecution job.state call v url) := by
  unfold reviewExecution
  refine .ask ⟨call, binding, v, hj, hn, hs, rfl⟩ fun found => ?_
  cases found with
  | error x => exact .throw (.lookupFailed hj hn rfl)
  | ok found =>
    cases found with
    | none => exact park_meets hj hn (by rw [if_pos hs])
    | some p =>
      show Meets _ _ _ _ (if p.decision = some "allow" then _ else _)
      by_cases ha : p.decision = some "allow"
      · rw [if_pos ha]
        exact .pure ⟨cs, hj, Or.inr ⟨hn, hs, p, ha, rfl⟩⟩
      · rw [if_neg ha]
        by_cases hd : p.decision = some "deny"
        · rw [if_pos hd]
          exact .throw (.reviewDenied hj hn hd rfl)
        · rw [if_neg hd]
          exact .throw (.pending hj hn ha hd rfl)

theorem needsReview_iff {v : Verdict} :
    (v.wouldPend && job.state.mode == .enforce) = true ↔ NeedsReview job v := by
  simp [Verdict.wouldPend, NeedsReview]

theorem review_meets {call : McpCall} {binding : Option ServerExecutionBinding} {v : Verdict}
    {url : Option String} {cs : McpCalls} (hj : Judged L job call binding v cs) :
    Meets (McpRule L job) (Exit L job) (fun ds _ => Reviewed L job call binding v ds) cs
      (review job.state call v url) := by
  unfold review
  by_cases hn : NeedsReview job v
  · rw [if_pos (needsReview_iff.mpr hn)]
    by_cases hs : call.serverExecution.isSome = true
    · rw [if_pos hs]
      exact reviewExecution_meets hj hn hs
    · rw [if_neg hs]
      exact park_meets hj hn (by rw [if_neg hs, List.append_nil])
  · rw [if_neg fun h => hn (needsReview_iff.mp h)]
    exact .pure ⟨cs, hj, Or.inl ⟨hn, rfl⟩⟩

theorem enforceDeny_meets {call : McpCall} {binding : Option ServerExecutionBinding} {v : Verdict}
    {cs : McpCalls} (hr : Reviewed L job call binding v cs) :
    Meets (McpRule L job) (Exit L job)
      (fun ds _ => ds = cs ∧ ¬ (v.tier = .red ∧ job.state.mode = .enforce)) cs
      (enforceDeny job.state call v) := by
  unfold enforceDeny
  by_cases hd : v.tier = .red ∧ job.state.mode = .enforce
  · rw [if_pos (by simp [Verdict.wouldDeny, hd])]
    exact .ask trivial fun ts => .throw (.denied hr hd.1 hd.2 rfl)
  · rw [if_neg (by simpa [Verdict.wouldDeny] using hd)]
    exact .pure ⟨rfl, hd⟩

theorem answerDecision_meets {call : McpCall} {binding : Option ServerExecutionBinding}
    {v : Verdict} {cs : McpCalls} (hr : Reviewed L job call binding v cs)
    (hd : ¬ (v.tier = .red ∧ job.state.mode = .enforce)) :
    Meets (McpRule L job) (Exit L job) (fun ds _ => Released L job call binding v ds) cs
      (answerDecision job.state call v) := by
  unfold answerDecision
  by_cases hs : call.decision.isSome = true
  · rw [if_pos hs]
    exact .ask trivial fun ts => .throw (.decided hr hd hs rfl)
  · rw [if_neg hs]
    exact .pure ⟨hr, hd, by simpa using hs⟩

theorem beginBinding_meets {call : McpCall} {b : ServerExecutionBinding} {v : Verdict}
    {cs : McpCalls} (hr : Released L job call (some b) v cs) :
    Meets (McpRule L job) (Exit L job) (fun ds _ => Begun L job call b v ds) cs
      (beginBinding job.state call v b) := by
  unfold beginBinding
  refine .ask ⟨call, v, hr, rfl⟩ fun outcome => ?_
  cases outcome with
  | error x => exact .throw (.unexecuted hr rfl)
  | ok outcome =>
    cases outcome with
    | missing => exact .throw (.unexecuted hr rfl)
    | started => exact .pure ⟨cs, hr, rfl⟩
    | completed c => exact .throw (.replayed hr rfl)
    | uncertain => exact .throw (.unexecuted hr rfl)
    | conflict => exact .throw (.unexecuted hr rfl)

/-- A request is sent, or its body was refused before. -/
theorem forward_meets {err : McpCalls → Ended → Prop} {cs : McpCalls}
    (hs : McpRule L job cs (.send job.body)) :
    Meets (McpRule L job) err (fun ds r => (ds = cs ∧ ∃ e, r = .error e) ∨
        ∃ answer, ds = cs ++ [⟨.send job.body, answer⟩]) cs
      (ExceptT.lift (forward L job.state job.body)) := by
  have hprog : Prog.Meets (McpRule L job) (fun ds r => (ds = cs ∧ ∃ e, r = .error e) ∨
      ∃ answer, ds = cs ++ [⟨.send job.body, answer⟩]) cs (forward L job.state job.body) := by
    unfold forward
    cases job.state.upstreamAdapter.validateRequest L.floats L.texts job.body with
    | error e => exact Or.inl ⟨rfl, e, rfl⟩
    | ok requestId => exact ⟨hs, fun answer => Or.inr ⟨answer, rfl⟩⟩
  exact Prog.Meets.bind hprog fun ds r hr => hr

/-- Only a server execution gets past the verdict. -/
theorem Released.bound {call : McpCall} {binding : Option ServerExecutionBinding} {v : Verdict}
    {cs : McpCalls} (hr : Released L job call binding v cs) : ∃ b, binding = some b := by
  obtain ⟨⟨_, ⟨_, _, ⟨_, ⟨u, hg, _⟩, hm, hb, _⟩, _⟩, _⟩, _, hd⟩ := hr
  rcases hb with ⟨hs, _⟩ | ⟨id, value, _, _, rfl⟩
  · have hsel := gates_selected hg
    simp [hs, hd, hm] at hsel
  · exact ⟨_, rfl⟩

theorem execute_meets {call : McpCall} {binding : Option ServerExecutionBinding} {v : Verdict}
    {cs : McpCalls} (hr : Released L job call binding v cs) :
    Meets (McpRule L job) (Exit L job) (Exit L job) cs
      (execute L job.state job.body call v binding) := by
  obtain ⟨b, rfl⟩ := hr.bound
  unfold execute
  refine (beginBinding_meets hr).bind fun ds _ hb => ?_
  have hsent : McpRule L job ds (.send job.body) := ⟨rfl, call, Or.inr ⟨b, v, hb⟩⟩
  obtain ⟨pre, hrel, hds⟩ := hb
  have hb : Begun L job call b v ds := ⟨pre, hrel, hds⟩
  refine (forward_meets hsent).bind fun es r hes => ?_
  have hprefix : ∃ late, es = pre ++ late := by
    rcases hes with ⟨rfl, _⟩ | ⟨answer, rfl⟩
    · exact ⟨_, hds⟩
    · exact ⟨_, by rw [hds, List.append_assoc]⟩
  cases r with
  | error e =>
    obtain ⟨late, hlate⟩ := hprefix
    exact .throw (.unexecuted hrel hlate)
  | ok upstream =>
    rcases hes with ⟨_, e, he⟩ | ⟨answer, rfl⟩
    · exact absurd he (by simp)
    · refine .ask ⟨call, v, ds, answer, hb, rfl⟩ fun completion => ?_
      cases completion with
      | error x =>
        exact .throw (.unexecuted hrel (by rw [hds, List.append_assoc, List.append_assoc]))
      | ok c =>
        refine .ask trivial fun ts => ?_
        have hcs : ds ++ [⟨.send job.body, answer⟩] ++ [⟨.completeServerExecution b upstream.status
            upstream.contentType upstream.body, .ok c⟩] ++ [⟨.utcNow, ts⟩] =
          ds ++ [⟨.send job.body, answer⟩, ⟨.completeServerExecution b upstream.status
            upstream.contentType upstream.body, .ok c⟩, ⟨.utcNow, ts⟩] := by
          simp
        exact .throw (.executed hb hcs)

theorem observeCatalog_meets {call : McpCall} {pre : McpCalls} {answer : Except String ForwardedResponse}
    {upstreamBody : Octets} (hc : Controlling L job call pre) :
    Meets (McpRule L job) (Exit L job) (fun ds _ => ∃ late,
        (∀ c ∈ late, isEvaluation c = false) ∧ ds = pre ++ ⟨.send job.body, answer⟩ :: late)
      (pre ++ [⟨.send job.body, answer⟩]) (observeCatalog job.state call upstreamBody) := by
  unfold observeCatalog
  by_cases hm : call.parsed.method = "tools/list"
  · rw [if_pos hm]
    let pin : McpOp (Option LogRequest) :=
      .pinCatalog job.state.instanceId call.agentKey call.identity.agentId upstreamBody
    refine .ask ⟨call, pre, answer, hc, rfl, rfl⟩ fun alarm => ?_
    cases alarm with
    | none => exact .pure ⟨[⟨pin, none⟩], by simp [isEvaluation, pin], by simp [pin]⟩
    | some log =>
      have ha : Alarms L job call (pre ++ [⟨.send job.body, answer⟩] ++ [⟨pin, some log⟩]) log :=
        ⟨pre, answer, upstreamBody, hc, by simp [pin]⟩
      refine .ask ⟨call, Or.inr (Or.inr ha)⟩ fun r => ?_
      exact .pure ⟨[⟨pin, some log⟩, ⟨.append log, r⟩], by simp [isEvaluation, pin], by simp [pin]⟩
  · rw [if_neg hm]
    exact .pure ⟨[], by simp, rfl⟩

theorem forwardControl_meets {call : McpCall} {cs : McpCalls} (hc : Controlling L job call cs) :
    Meets (McpRule L job) (Exit L job) (Exit L job) cs (forwardControl L job.state job.body call) := by
  have hunjudged : ∀ late, (∀ c ∈ late, isEvaluation c = false) → ∀ e, Exit L job (cs ++ late) e :=
    fun late hl e => .unjudged (.control hc.1 hc.2.1 rfl hl)
  have hsent : McpRule L job cs (.send job.body) := ⟨rfl, call, Or.inl hc⟩
  unfold forwardControl
  refine (forward_meets hsent).bind fun es r hes => ?_
  cases r with
  | error e =>
    rcases hes with ⟨rfl, _⟩ | ⟨answer, rfl⟩
    · exact .throw (by simpa using hunjudged [] (by simp) _)
    · exact .throw (hunjudged _ (by simp [isEvaluation]) _)
  | ok upstream =>
    rcases hes with ⟨_, e, he⟩ | ⟨answer, rfl⟩
    · exact absurd he (by simp)
    · refine (observeCatalog_meets hc).bind fun ds _ hds => ?_
      obtain ⟨late, hl, rfl⟩ := hds
      exact .pure (hunjudged _ (by simpa [isEvaluation] using hl) _)

theorem handleToolCall_meets {call : McpCall} {url : Option String} {cs : McpCalls}
    (ho : Opened L job call cs) (hm : isMcpControlMethod call.parsed.method = false) :
    Meets (McpRule L job) (Exit L job) (Exit L job) cs
      (handleToolCall L job.state job.body call url) := by
  unfold handleToolCall
  have hbind : Meets (McpRule L job) (Exit L job)
      (fun ds binding => ds = cs ∧ Bound L job call binding) cs (serverBinding L job.body call) := by
    unfold serverBinding
    cases hs : call.serverExecution with
    | none => exact .pure ⟨rfl, Or.inl ⟨hs, rfl⟩⟩
    | some id =>
      cases hv : fromSlice L.floats job.body with
      | none => exact .throw (.unjudged (.unreadable ho hv))
      | some value => exact .pure ⟨rfl, Or.inr ⟨id, value, hs, hv, rfl⟩⟩
  refine hbind.bind fun ds binding hds => ?_
  obtain ⟨rfl, hb⟩ := hds
  have hinspect : Meets (McpRule L job) (Exit L job)
      (fun es _ => Inspected L job call binding es) ds
      (binding.elim (return) (inspectBinding job.state call)) := by
    cases binding with
    | none => exact .pure ⟨ds, ho, hm, hb, (List.append_nil ds).symm⟩
    | some b =>
      refine Prog.Meets.mono (inspectBinding_meets ho hb hm) fun es r hr => ?_
      cases r with
      | ok u => exact ⟨ds, ho, hm, hb, hr⟩
      | error e => exact hr
  refine hinspect.bind fun es _ hi => (judge_meets hi).bind fun fs v hj => ?_
  refine (review_meets hj).bind fun gs _ hr => (enforceDeny_meets hr).bind fun hs _ hd => ?_
  obtain ⟨rfl, hd⟩ := hd
  exact (answerDecision_meets hr hd).bind fun is _ hrel => execute_meets hrel

theorem admitted_meets {u : Uuid} {call : McpCall}
    (hg : gates L job.state job.headers job.body u.text = .ok call) :
    Meets (McpRule L job) (Exit L job) (Exit L job) [⟨.newV4, u⟩]
      (admitted L job.state job.headers job.body call) := by
  unfold admitted
  refine (checkRate_meets hg).bind fun cs _ ho => ?_
  have hdone : isMcpControlMethod call.parsed.method = true → ∀ e, Exit L job cs e :=
    fun hm e => .unjudged (.control ho hm (List.append_nil cs).symm (by simp))
  cases hv : validateCallbackUrl L job.state job.headers with
  | error reason => exact .throw (.unjudged (.misaddressed ho hv))
  | ok url =>
    show Meets _ _ _ _ (if isMcpControlMethod call.parsed.method = true then _ else _)
    by_cases hm : isMcpControlMethod call.parsed.method = true
    · rw [if_pos hm]
      by_cases hs : call.serverExecution.isSome = true
      · rw [if_pos hs]
        exact .throw (hdone hm _)
      · rw [if_neg hs]
        by_cases hd : call.decision.isSome = true
        · rw [if_pos hd]
          exact .throw (hdone hm _)
        · rw [if_neg hd]
          exact forwardControl_meets ⟨ho, hm, by simpa using hs, by simpa using hd⟩
    · rw [if_neg hm]
      exact handleToolCall_meets ho (by simpa using hm)

/-- The handler performs its operations in this order, and ends in these ways. -/
theorem handleMcp_meets : Prog.Meets (McpRule L job) (Exit L job) [] (job.program L) := by
  refine ⟨rfl, fun u => ?_⟩
  simp only [Prog.bind]
  cases hg : gates L job.state job.headers job.body u.text with
  | error r => exact Exit.unjudged (.rejected hg rfl)
  | ok call =>
    refine Prog.Meets.bind (admitted_meets hg) fun cs r hr => ?_
    cases r with
    | ok e => exact hr
    | error e => exact hr

theorem handleMcp_obeys : Prog.Obeys (McpRule L job) [] (job.program L) := handleMcp_meets.obeys

/-- The request was classified with the verdict. -/
def Classified (L : Libraries) (job : McpJob) (call : McpCall) (v : Verdict) (cs : McpCalls) :
    Prop :=
  ∃ binding pre, Judged L job call binding v pre ∧ pre <+: cs

/-- The operations that come before the verdict is acted on. -/
def isJudging : Call McpOp → Bool
  | ⟨.newV4, _⟩ => true
  | ⟨.checkRate _ _, _⟩ => true
  | ⟨.inspectServerExecution _, _⟩ => true
  | ⟨.evaluate _ _, _⟩ => true
  | ⟨.append _, _⟩ => true
  | _ => false

theorem Judged.judging {call : McpCall} {binding : Option ServerExecutionBinding} {v : Verdict}
    {cs : McpCalls} (h : Judged L job call binding v cs) : ∀ c ∈ cs, isJudging c = true := by
  obtain ⟨_, r, ⟨pre, ⟨u, _, rfl⟩, _, _, rfl⟩, _, rfl⟩ := h
  unfold ratePart
  cases binding with
  | none => split_ifs <;> simp [isJudging, inspectPart, evaluation]
  | some b => split_ifs <;> simp [isJudging, inspectPart, evaluation]

theorem Opened.no_evaluation {call : McpCall} {cs : McpCalls} (h : Opened L job call cs) :
    ∀ c ∈ cs, isEvaluation c = false := by
  obtain ⟨u, _, rfl⟩ := h
  unfold ratePart
  split_ifs <;> simp [isEvaluation]

theorem Inspected.no_evaluation {call : McpCall} {binding : Option ServerExecutionBinding}
    {cs : McpCalls} (h : Inspected L job call binding cs) : ∀ c ∈ cs, isEvaluation c = false := by
  obtain ⟨pre, ho, _, _, rfl⟩ := h
  have hpre := ho.no_evaluation
  cases binding with
  | none => simpa [inspectPart] using hpre
  | some b => simpa [inspectPart, isEvaluation, or_imp, forall_and] using hpre

theorem Opened.head {call : McpCall} {cs : McpCalls} (h : Opened L job call cs) :
    ∃ u, gates L job.state job.headers job.body u.text = .ok call ∧
      cs.head? = some ⟨.newV4, u⟩ := by
  obtain ⟨u, hg, rfl⟩ := h
  exact ⟨u, hg, rfl⟩

theorem head_append {c : Call McpOp} {cs : McpCalls} (h : cs.head? = some c) (ds : McpCalls) :
    (cs ++ ds).head? = some c := by
  rw [List.head?_append, h]
  rfl

theorem Classified.first {call : McpCall} {v : Verdict} {cs : McpCalls}
    (h : Classified L job call v cs) :
    (∃ u, gates L job.state job.headers job.body u.text = .ok call ∧
        cs.head? = some ⟨.newV4, u⟩) ∧ v.brain = brainOf L job.body call ∧
      cs.find? isEvaluation = some (evaluation L job call v.policy) := by
  obtain ⟨binding, _, ⟨pre, r, hi, hv, rfl⟩, late, rfl⟩ := h
  have hnone : pre.find? isEvaluation = none :=
    List.find?_eq_none.mpr fun c hc => by simp [hi.no_evaluation c hc]
  obtain ⟨opened, ho, _, _, hpre⟩ := hi
  obtain ⟨u, hg, hu⟩ := ho.head
  refine ⟨⟨u, hg, ?_⟩, hv, ?_⟩
  · rw [hpre]
    exact head_append (head_append (head_append hu _) _) _
  · rw [List.append_assoc, List.find?_append, hnone]
    rfl

/-- A request has one verdict. -/
theorem Classified.unique {call call' : McpCall} {v v' : Verdict} {cs : McpCalls}
    (h : Classified L job call v cs) (h' : Classified L job call' v' cs) :
    call' = call ∧ v' = v := by
  obtain ⟨⟨u, hg, hu⟩, hv, he⟩ := h.first
  obtain ⟨⟨u', hg', hu'⟩, hv', he'⟩ := h'.first
  obtain rfl : u = u' := by simpa using hu.symm.trans hu'
  obtain rfl : call = call' := Except.ok.inj (hg.symm.trans hg')
  have hp : v.policy = v'.policy := by simpa [evaluation] using he.symm.trans he'
  refine ⟨rfl, ?_⟩
  obtain ⟨brain, policy⟩ := v
  obtain ⟨brain', policy'⟩ := v'
  simp only at hv hv' hp
  rw [hv, hv', hp]

theorem Judged.classified {call : McpCall} {binding : Option ServerExecutionBinding} {v : Verdict}
    {pre late : McpCalls} (h : Judged L job call binding v pre) :
    Classified L job call v (pre ++ late) :=
  ⟨binding, pre, h, List.prefix_append pre late⟩

theorem Reviewed.classified {call : McpCall} {binding : Option ServerExecutionBinding}
    {v : Verdict} {pre late : McpCalls} (h : Reviewed L job call binding v pre) :
    Classified L job call v (pre ++ late) := by
  obtain ⟨judged, hj, hr⟩ := h
  rcases hr with ⟨_, rfl⟩ | ⟨_, _, p, _, rfl⟩
  · exact hj.classified
  · rw [List.append_assoc]
    exact hj.classified

theorem Begun.classified {call : McpCall} {b : ServerExecutionBinding} {v : Verdict}
    {pre late : McpCalls} (h : Begun L job call b v pre) :
    Classified L job call v (pre ++ late) := by
  obtain ⟨released, hr, rfl⟩ := h
  rw [List.append_assoc]
  exact hr.1.classified

theorem Parks.classified {call : McpCall} {v : Verdict} {pre late : McpCalls} {req : ParkRequest}
    (h : Parks L job call v pre req) : Classified L job call v (pre ++ late) := by
  obtain ⟨binding, url, judged, hj, _, _, rfl⟩ := h
  rw [List.append_assoc]
  exact hj.classified

theorem Unjudged.not_classified {cs : McpCalls} (h : Unjudged L job cs) {call : McpCall}
    {v : Verdict} : ¬ Classified L job call v cs := by
  intro hc
  have hfound := hc.first.2.2
  have hnone : ∀ c ∈ cs, isEvaluation c = false := by
    cases h with
    | rejected hg hcs => simp [hcs, isEvaluation]
    | throttled ht hcs =>
      obtain ⟨u, a, s, _, rfl, _⟩ := ht
      simp [hcs, isEvaluation]
    | misaddressed ho hv => exact ho.no_evaluation
    | control ho hm hcs hl =>
      intro c hc
      rw [hcs] at hc
      rcases List.mem_append.mp hc with hc | hc
      · exact ho.no_evaluation c hc
      · exact hl c hc
    | unreadable ho hv => exact ho.no_evaluation
    | known ho hb hne hcs =>
      rw [hcs]
      simpa [isEvaluation, or_imp, forall_and] using ho.no_evaluation
  have hmem := List.mem_of_find?_eq_some hfound
  have hno := hnone _ hmem
  exact absurd hno (by simp [isEvaluation, evaluation])

end ClavenarLite
