import ClavenarLite.Lib.Meets
import ClavenarLite.Proxy.Gates
import ClavenarLite.Proxy.Heuristics
import ClavenarLite.Proxy.RateLimit

/-! The handler of `/mcp`: a program over the operations it performs on the
ledger, on the memory of its process and on the upstream. It may end early with
a response, and ends without one where the source panics. -/

namespace ClavenarLite

open Bytes Fallible Interaction Rfc3339 TextJson Transaction

/-- A ledger call is one operation, whatever statements it is made of. -/
inductive McpOp : Type → Type
  | newV4 : McpOp Uuid
  | utcNow : McpOp Clock
  | checkRate (instanceId agentKey : String) : McpOp RateLimitOutcome
  | append (req : LogRequest) : McpOp (Except SqlError LedgerEntry)
  | inspectServerExecution (b : ServerExecutionBinding) :
      McpOp (Except SqlError ServerExecutionOutcome)
  | evaluate (instanceId : String) (input : PolicyInput) : McpOp PolicyDecision
  | getPending (correlationId : String) : McpOp (Except SqlError (Option Pending))
  | parkPending (req : ParkRequest) : McpOp (Except SqlError Pending)
  | beginServerExecution (instanceId : String) (b : ServerExecutionBinding) :
      McpOp (Except SqlError ServerExecutionOutcome)
  | send (body : Octets) : McpOp (Except String ForwardedResponse)
  | completeServerExecution (b : ServerExecutionBinding) (status : UInt16)
      (contentType : Option String) (body : Octets) :
      McpOp (Except SqlError ServerExecutionCompleted)
  | pinCatalog (instanceId agentKey agentId : String) (body : Octets) : McpOp (Option LogRequest)

/-- `none` stands for a panic. -/
abbrev Ended := Option (Response × List Notification)

abbrev Handling := Transaction.Body McpOp Ended

def ask {β : Type} (op : McpOp β) : Handling β := ExceptT.lift (Prog.perform op)

def stop {α : Type} (r : Response) (notes : List Notification) : Handling α :=
  throw (some (r, notes))

def panics {α : Type} : Handling α := throw none

variable (L : Libraries) (state : AppState) (headers : HeaderMap) (body : Octets)

def headerValue (s : String) : Option String :=
  if (utf8 s).all isVisibleAscii then some s else none

/-- A status code has three digits. -/
def statusOr (fallback status : UInt16) : UInt16 :=
  if 100 ≤ status && status < 1000 then status else fallback

def executionIdHeader : String := "x-clavenar-execution-id"

def resultSha256Header : String := "x-clavenar-result-sha256"

def replayedHeader : String := "x-clavenar-server-execution-replayed"

def receiptSha256Header : String := "x-clavenar-server-execution-receipt-sha256"

def serverExecutionResponse (completed : ServerExecutionCompleted) (correlationId : String)
    (mode : ClavenarMode) (replayed wouldDeny wouldPend : Bool) : Option Response := do
  let executionId ← headerValue completed.executionId
  let resultSha256 ← headerValue completed.resultSha256
  return { status := statusOr 503 completed.status
           headers := clavenarHeaders correlationId mode wouldDeny wouldPend ++
             [(executionIdHeader, executionId), (resultSha256Header, resultSha256),
               (replayedHeader, if replayed then "true" else "false"),
               (receiptSha256Header, sha256Label (utf8 completed.receiptJson))] ++
             ((completed.contentType.bind headerValue).map fun v => ("content-type", v)).toList
           body := .bytes completed.body }

/-- End with the retained response, which is built after the notifications. -/
def stopExecuted {α : Type} (completed : ServerExecutionCompleted) (correlationId : String)
    (replayed wouldDeny wouldPend : Bool) (notes : List Notification) : Handling α :=
  throw ((serverExecutionResponse completed correlationId state.mode replayed wouldDeny
    wouldPend).map fun r => (r, notes))

def stopUncertain {α : Type} (status : UInt16) (error correlationId : String) : Handling α :=
  stop (serverExecutionError status error correlationId state.mode) []

def McpCall.agentKey (call : McpCall) : String := call.identity.canonicalKey

def throttledRequest (call : McpCall) (throttled : String) (retryAfterSecs : Nat) : LogRequest where
  agentId := throttled
  method := "<unknown>"
  intentCategory := "RateLimitDenied"
  authorized := false
  reasoning := "rate limit exceeded — retry_after=" ++ toString retryAfterSecs ++ "s"
  policyDecision := none
  correlationId := some call.correlationId

def throttledBody (call : McpCall) (throttled : String) (retryAfterSecs : Nat) : String :=
  printText L.floats (.obj [("agent_id", .str throttled), ("correlation_id", .str call.correlationId),
    ("error", .str "rate_limited"), ("retry_after_secs", .num (.int retryAfterSecs))])

def checkRate (call : McpCall) : Handling Unit :=
  if state.rateLimited then do
    match ← ask (.checkRate state.instanceId call.agentKey) with
    | .allowed => return
    | .denied throttled retryAfterSecs =>
      let _ ← ask (.append (throttledRequest call throttled retryAfterSecs))
      stop (plainResponse 429 call.correlationId state.mode
        (.text (throttledBody L call throttled retryAfterSecs))) []
  else return

def forward : Prog McpOp (Except String ForwardedResponse) :=
  match state.upstreamAdapter.validateRequest L.floats L.texts body with
  | .error e => pure (.error e)
  | .ok requestId =>
    Prog.perform (.send body) >>= fun answer =>
      pure (answer.bind (state.upstreamAdapter.accept L.floats L.texts requestId))

def unreachable (correlationId e : String) (wouldDeny wouldPend : Bool) : Response where
  status := 502
  headers := clavenarHeaders correlationId state.mode wouldDeny wouldPend
  body := .text ("upstream unreachable: " ++ e)

def relayed (correlationId : String) (upstream : ForwardedResponse) (wouldDeny wouldPend : Bool) :
    Response where
  status := statusOr 500 upstream.status
  headers := clavenarHeaders correlationId state.mode wouldDeny wouldPend
  body := .bytes upstream.body

def observeCatalog (call : McpCall) (upstreamBody : Octets) : Handling Unit :=
  if call.parsed.method = "tools/list" then do
    match ← ask (.pinCatalog state.instanceId call.agentKey call.identity.agentId upstreamBody) with
    | none => return
    | some log =>
      let _ ← ask (.append log)
      return
  else return

def forwardControl (call : McpCall) : Handling Ended := do
  match ← ExceptT.lift (forward L state body) with
  | .error e => stop (unreachable state call.correlationId e false false) []
  | .ok upstream =>
    observeCatalog state call upstream.body
    return some (relayed state call.correlationId upstream false false, [])

def toolType (parsed : McpRequest) : String :=
  ((parsed.params.bind fun params => params.json.get? "name").bind Json.asStr?).getD parsed.method

def bindingOf (call : McpCall) (idempotencyId : Uuid) (canonicalRequest : Value) :
    ServerExecutionBinding :=
  let requestSha256 := sha256Label (utf8 (canonicalRequest.text L.floats))
  { agentId := call.identity.agentId
    idempotencyId := idempotencyId
    correlationId := call.correlationId
    route := "/mcp"
    method := call.parsed.method
    toolName := toolType call.parsed
    submittedRequestSha256 := requestSha256
    effectiveRequestSha256 := requestSha256 }

/-- A body that is read as a request need not be read as a value. -/
def serverBinding (call : McpCall) : Handling (Option ServerExecutionBinding) :=
  match call.serverExecution with
  | none => return none
  | some idempotencyId =>
    match fromSlice L.floats body with
    | none => panics
    | some canonicalRequest => return some (bindingOf L call idempotencyId canonicalRequest)

def inspectBinding (call : McpCall) (b : ServerExecutionBinding) : Handling Unit := do
  match ← ask (.inspectServerExecution b) with
  | .ok .missing => return
  | .ok (.completed c) => stopExecuted state c call.correlationId true false false []
  | .ok .uncertain | .ok .started =>
    stopUncertain state 409 "server_execution_uncertain" call.correlationId
  | .ok .conflict =>
    stopUncertain state 409 "server_execution_idempotency_conflict" call.correlationId
  | .error _ => stopUncertain state 503 "server_execution_storage_unavailable" call.correlationId

structure Verdict where
  brain : HeuristicVerdict
  policy : PolicyDecision

def Verdict.tier (v : Verdict) : Tier := classify v.brain v.policy

def Verdict.wouldDeny (v : Verdict) : Bool := v.tier = .red

def Verdict.wouldPend (v : Verdict) : Bool := v.tier = .yellow

def brainOf (call : McpCall) : HeuristicVerdict :=
  inspect L.lowercase (toolType call.parsed) (fromUtf8Lossy body)

def policyInput (call : McpCall) : PolicyInput where
  toolType := toolType call.parsed
  lastTool := none
  intentScore := (brainOf L body call).intentScore
  currentTime := none
  agentId := some call.agentKey
  method := some call.parsed.method
  recentRequestCount := 0
  correlationId := some call.correlationId

def verdictRequest (call : McpCall) (v : Verdict) : LogRequest where
  agentId := call.identity.agentId
  method := call.parsed.method
  intentCategory := logIntent v.brain v.policy
  authorized := v.tier = .green
  reasoning := buildReasoning v.brain v.policy
  policyDecision := some v.policy.json
  correlationId := some call.correlationId

def judge (call : McpCall) : Handling Verdict := do
  let policy ← ask (.evaluate state.instanceId (policyInput L body call))
  let verdict : Verdict := ⟨brainOf L body call, policy⟩
  let _ ← ask (.append (verdictRequest call verdict))
  return verdict

def verdictEvent (call : McpCall) (v : Verdict) (event : EventKind) (intentCategory : String)
    (ts : Clock) : WebhookEvent where
  event := event
  correlationId := call.correlationId
  agentId := call.identity.agentId
  toolType := toolType call.parsed
  method := call.parsed.method
  intentCategory := intentCategory
  reasoning := buildReasoning v.brain v.policy
  reviewReasons := v.policy.reviewReasons
  mode := state.mode
  ts := ts

def verboseDetail (v : Verdict) : List (String × Json) :=
  if state.verboseVerdicts then [("detail", verdictBreakdown v.brain)] else []

def pendingResponse (call : McpCall) (v : Verdict) (reviewReasons : List String) : Response :=
  plainResponse 202 call.correlationId state.mode (.json (.obj
    ([("contract", .str pendingAuthorizationContract), ("status", .str "pending"),
      ("pending_id", .str call.correlationId), ("correlation_id", .str call.correlationId),
      ("review_reasons", jsonStrings reviewReasons)] ++ verboseDetail state v)))

def denyResponse (call : McpCall) (v : Verdict) : Response :=
  plainResponse 403 call.correlationId state.mode (.json (.obj
    ([("error", .str "security_violation"),
      ("reasons", jsonStrings (v.policy.reasons ++
        if v.brain.authorized then [] else [v.brain.reasoning])),
      ("review_reasons", jsonStrings v.policy.reviewReasons),
      ("intent_category", .str v.brain.intentCategory)] ++ verboseDetail state v)))

def decisionAllowed (correlationId : String) : Json :=
  .obj [("contract", .str decisionContract), ("correlation_id", .str correlationId),
    ("decision", .str "allow"), ("executable", .bool false)]

def parkRequestOf (call : McpCall) (v : Verdict) (callbackUrl : Option String) : ParkRequest where
  correlationId := call.correlationId
  tenant := call.identity.tenant
  agentId := call.identity.agentId
  toolType := toolType call.parsed
  method := call.parsed.method
  reviewReasons := v.policy.reviewReasons
  callbackUrl := callbackUrl

def parkFailed (correlationId : String) : Response :=
  plainResponse 500 correlationId state.mode (.text "failed to park pending request")

/-- A request that needs a review and has none is parked. -/
def park (call : McpCall) (v : Verdict) (callbackUrl : Option String) : Handling Unit := do
  match ← ask (.parkPending (parkRequestOf call v callbackUrl)) with
  | .error _ => stop (parkFailed state call.correlationId) []
  | .ok parked =>
    let ts ← ask .utcNow
    stop (pendingResponse state call v v.policy.reviewReasons)
      (state.slackWebhookUrl.toList.map (.slack · parked) ++
        maybeFireWebhook state (verdictEvent state call v .park "PendingReview" ts))

/-- Continue if the pending under the correlation id was decided to be allowed. -/
def reviewExecution (call : McpCall) (v : Verdict) (callbackUrl : Option String) :
    Handling Unit := do
  match ← ask (.getPending call.correlationId) with
  | .error _ => stopUncertain state 503 "server_execution_storage_unavailable" call.correlationId
  | .ok none => park state call v callbackUrl
  | .ok (some pending) =>
    if pending.decision = some "allow" then return
    else if pending.decision = some "deny" then
      stopUncertain state 403 "server_execution_pending_denied" call.correlationId
    else stop (pendingResponse state call v pending.reviewReasons) []

def review (call : McpCall) (v : Verdict) (callbackUrl : Option String) : Handling Unit :=
  if v.wouldPend && state.mode == .enforce then
    if call.serverExecution.isSome then reviewExecution state call v callbackUrl
    else park state call v callbackUrl
  else return

def enforceDeny (call : McpCall) (v : Verdict) : Handling Unit :=
  if v.wouldDeny && state.mode == .enforce then do
    let ts ← ask .utcNow
    stop (denyResponse state call v)
      (maybeFireWebhook state (verdictEvent state call v .deny v.brain.intentCategory ts))
  else return

def answerDecision (call : McpCall) (v : Verdict) : Handling Unit :=
  if call.decision.isSome then do
    let ts ← ask .utcNow
    stop (plainResponse 200 call.correlationId state.mode
        (.json (decisionAllowed call.correlationId)))
      (maybeFireWebhook state (verdictEvent state call v .allow v.brain.intentCategory ts))
  else return

def beginBinding (call : McpCall) (v : Verdict) (b : ServerExecutionBinding) : Handling Unit := do
  match ← ask (.beginServerExecution state.instanceId b) with
  | .ok .started => return
  | .ok (.completed c) => stopExecuted state c call.correlationId true v.wouldDeny v.wouldPend []
  | .ok .uncertain => stopUncertain state 409 "server_execution_uncertain" call.correlationId
  | .ok .conflict =>
    stopUncertain state 409 "server_execution_idempotency_conflict" call.correlationId
  | .ok .missing =>
    stopUncertain state 503 "server_execution_storage_unavailable" call.correlationId
  | .error _ => stopUncertain state 503 "server_execution_storage_unavailable" call.correlationId

def Verdict.event (v : Verdict) : EventKind :=
  if v.wouldDeny then .wouldDeny else if v.wouldPend then .wouldPark else .allow

def forwardFailed (call : McpCall) (v : Verdict) (binding : Option ServerExecutionBinding)
    (e : String) : Response :=
  if binding.isSome then
    serverExecutionError 409 "server_execution_uncertain" call.correlationId state.mode
  else unreachable state call.correlationId e v.wouldDeny v.wouldPend

def complete (call : McpCall) (binding : Option ServerExecutionBinding)
    (upstream : ForwardedResponse) : Handling (Option ServerExecutionCompleted) :=
  match binding with
  | none => return none
  | some b => do
    match ← ask (.completeServerExecution b upstream.status upstream.contentType upstream.body) with
    | .ok completed => return some completed
    | .error _ =>
      stopUncertain state 503 "server_execution_completion_uncertain" call.correlationId

def finish (call : McpCall) (v : Verdict) (upstream : ForwardedResponse)
    (completion : Option ServerExecutionCompleted) : Handling Ended := do
  let ts ← ask .utcNow
  let notes := maybeFireWebhook state (verdictEvent state call v v.event v.brain.intentCategory ts)
  match completion with
  | some completed =>
    stopExecuted state completed call.correlationId false v.wouldDeny v.wouldPend notes
  | none => return some (relayed state call.correlationId upstream v.wouldDeny v.wouldPend, notes)

def execute (call : McpCall) (v : Verdict) (binding : Option ServerExecutionBinding) :
    Handling Ended := do
  binding.elim (return) (beginBinding state call v)
  match ← ExceptT.lift (forward L state body) with
  | .error e => stop (forwardFailed state call v binding e) []
  | .ok upstream =>
    let completion ← complete state call binding upstream
    finish state call v upstream completion

def callbackHeader : String := "X-Clavenar-Callback-URL"

def validateCallbackUrl : Except String (Option String) :=
  match ((headers.get "x-clavenar-callback-url").bind headerStr).filter (!·.isEmpty) with
  | none => .ok none
  | some raw =>
    if state.callbackAllowlist.isEmpty then
      .error (callbackHeader ++ " supplied but no allowlist is configured on this clavenar-lite; " ++
        "set CLAVENAR_LITE_CALLBACK_ALLOWLIST to enable async-HIL webhooks")
    else
      match validateTarget L.urls raw state.callbackAllowlist with
      | .ok url => .ok (some url)
      | .error e => .error (callbackHeader ++ " " ++ L.texts.debug raw ++ ": " ++ e)

def handleToolCall (call : McpCall) (callbackUrl : Option String) : Handling Ended := do
  let binding ← serverBinding L body call
  binding.elim (return) (inspectBinding state call)
  let verdict ← judge L state body call
  review state call verdict callbackUrl
  enforceDeny state call verdict
  answerDecision state call verdict
  execute L state body call verdict binding

/-- What follows the gates. -/
def admitted (call : McpCall) : Handling Ended := do
  checkRate L state call
  match validateCallbackUrl L state headers with
  | .error reason => stop (plainResponse 400 call.correlationId state.mode (.text reason)) []
  | .ok callbackUrl =>
    if isMcpControlMethod call.parsed.method then
      if call.serverExecution.isSome then
        stopUncertain state 400 "server_execution_tool_required" call.correlationId
      else if call.decision.isSome then
        stop (decisionError "decision_tool_required" call.correlationId state.mode) []
      else forwardControl L state body call
    else handleToolCall L state body call callbackUrl

/-- Ending early and ending at the end are the same to the client. -/
def ended : Except Ended Ended → Ended
  | .ok e => e
  | .error e => e

def handleMcp : Prog McpOp Ended :=
  Prog.perform .newV4 >>= fun fallback =>
    match gates L state headers body fallback.text with
    | .error r => pure (some (r, []))
    | .ok call => (admitted L state headers body call).run >>= fun r => pure (ended r)

end ClavenarLite
