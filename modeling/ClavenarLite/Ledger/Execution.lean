import ClavenarLite.Ledger.Append

/-! Durable server executions: reading a retained one, committing the intent
before the upstream attempt, committing the received response, and classifying
the intents a prior process left behind. -/

namespace ClavenarLite

open Bytes HashChain Rfc3339 Sha TextJson Transaction

variable (F : FloatText)

def serverExecutionContract : String := "clavenar.server-execution/v1"

def executionIdFor (agentId idempotencyId : String) : Uuid :=
  Uuid.newV5 Uuid.namespaceUrl
    (utf8 ("clavenar.server-execution/v1\x00" ++ agentId ++ "\x00" ++ idempotencyId))

def ServerExecutionBinding.executionId (b : ServerExecutionBinding) : Uuid :=
  executionIdFor b.agentId b.idempotencyId.text

def sha256Label (bs : Octets) : String := "sha256:" ++ hexText (sha256 bs)

def toUInt16 (n : Int) : Option UInt16 :=
  if 0 ≤ n ∧ n < 2 ^ 16 then some (UInt16.ofNat n.toNat) else none

def orInvalidQuery {α : Type} : Option α → Except SqlError α
  | some a => .ok a
  | none => .error .invalidQuery

def retained (row : ExecutionRow) : Except SqlError ServerExecutionCompleted := do
  let status ← orInvalidQuery (row.responseStatus.bind toUInt16)
  let body ← orInvalidQuery row.responseBody
  let resultSha256 ← orInvalidQuery row.resultSha256
  let receiptJson ← orInvalidQuery row.receiptJson
  return ⟨row.executionId, status, row.responseContentType, body, resultSha256, receiptJson⟩

/-- The fields a retry must repeat. -/
def SameRequest (row : ExecutionRow) (b : ServerExecutionBinding) : Prop :=
  row.route = b.route ∧ row.method = b.method ∧ row.toolName = b.toolName ∧
    row.submittedRequestSha256 = b.submittedRequestSha256

instance (row : ExecutionRow) (b : ServerExecutionBinding) : Decidable (SameRequest row b) := by
  unfold SameRequest
  infer_instance

def outcomeOf (b : ServerExecutionBinding) :
    Option ExecutionRow → Except SqlError ServerExecutionOutcome
  | none => .ok .missing
  | some row =>
    if ¬ SameRequest row b then .ok .conflict
    else if row.state ≠ .completed then .ok .uncertain
    else (retained row).map .completed

def inspectServerExecution (b : ServerExecutionBinding) : LedgerM ServerExecutionOutcome := do
  let row ← query (.selectExecution b.agentId b.idempotencyId.text)
  liftExcept (outcomeOf b row)

def intentRow (instanceId : String) (b : ServerExecutionBinding) (createdAt : Clock) :
    ExecutionRow where
  agentId := b.agentId
  idempotencyId := b.idempotencyId.text
  executionId := b.executionId.text
  correlationId := b.correlationId
  route := b.route
  method := b.method
  toolName := b.toolName
  submittedRequestSha256 := b.submittedRequestSha256
  effectiveRequestSha256 := b.effectiveRequestSha256
  state := .inFlight
  createdAt := toRfc3339 createdAt
  reconciliationState := .pending
  ownerInstance := some instanceId

def intentReceipt (b : ServerExecutionBinding) : Value :=
  .object [("contract", .str serverExecutionContract), ("stage", .str "execution.intent"),
    ("execution_id", .str b.executionId.text), ("idempotency_id", .str b.idempotencyId.text),
    ("route", .str b.route), ("tool_name", .str b.toolName),
    ("submitted_request_sha256", .str b.submittedRequestSha256),
    ("effective_request_sha256", .str b.effectiveRequestSha256), ("state", .str "in_flight")]

def intentRequest (b : ServerExecutionBinding) : LogRequest where
  agentId := b.agentId
  method := b.method
  intentCategory := "ServerExecutionIntent"
  authorized := false
  reasoning := "durable server execution intent committed before upstream attempt"
  policyDecision := some (intentReceipt b)
  correlationId := some b.correlationId

def beginServerExecution (instanceId : String) (b : ServerExecutionBinding) :
    LedgerM (Ending ServerExecutionOutcome) := do
  match ← inspectServerExecution b with
  | .missing =>
    let createdAt ← utcNow
    query (.insertExecution (intentRow instanceId b createdAt))
    let _ ← appendOnConnection F (intentRequest b)
    return .commit .started
  | outcome => return .rollback outcome

def outboxEventId (executionId : Uuid) : Uuid :=
  Uuid.newV5 Uuid.namespaceUrl
    (utf8 ("clavenar.server-execution/v1\x00outbox\x00" ++ executionId.text))

/-- The response as a JSON value, or as a string when it is none. -/
def resultValue (body : Octets) : Value := (fromSlice F body).getD (.str (fromUtf8Lossy body))

def receiptOf (b : ServerExecutionBinding) (status : UInt16) (body : Octets) (result : Value) :
    Value :=
  .object [("contract", .str serverExecutionContract), ("stage", .str "execution.completed"),
    ("execution_id", .str b.executionId.text), ("idempotency_id", .str b.idempotencyId.text),
    ("caller", .str b.agentId), ("route", .str b.route), ("method", .str b.method),
    ("tool_name", .str b.toolName), ("submitted_request_sha256", .str b.submittedRequestSha256),
    ("effective_request_sha256", .str b.effectiveRequestSha256),
    ("response_status", .ofUInt16 status), ("result_sha256", .str (sha256Label body)),
    ("result", result), ("outbox_event_id", .str (outboxEventId b.executionId).text)]

def completedReceipt (b : ServerExecutionBinding) (status : UInt16) (body : Octets) : Value :=
  receiptOf b status body (resultValue F body)

def completedRequest (b : ServerExecutionBinding) (status : UInt16) (body : Octets) :
    LogRequest where
  agentId := b.agentId
  method := b.method
  intentCategory := "ServerExecutionCompleted"
  authorized := true
  reasoning := "durable server execution result and receipt committed"
  policyDecision := some (completedReceipt F b status body)
  correlationId := some b.correlationId

def completionOf (b : ServerExecutionBinding) (status : UInt16) (contentType : Option String)
    (body : Octets) (now : Clock) : Completion where
  agentId := b.agentId
  idempotencyId := b.idempotencyId.text
  effectiveRequestSha256 := b.effectiveRequestSha256
  status := status
  contentType := contentType
  body := body
  resultSha256 := sha256Label body
  receiptJson := (completedReceipt F b status body).text F
  now := toRfc3339 now

def completedOutboxRow (b : ServerExecutionBinding) (status : UInt16) (body : Octets)
    (now : Clock) : OutboxRow where
  eventId := (outboxEventId b.executionId).text
  executionId := b.executionId.text
  payloadJson := (completedReceipt F b status body).text F
  createdAt := toRfc3339 now
  deliveredAt := some (toRfc3339 now)

def completedResult (b : ServerExecutionBinding) (status : UInt16) (contentType : Option String)
    (body : Octets) : ServerExecutionCompleted where
  executionId := b.executionId.text
  status := status
  contentType := contentType
  body := body
  resultSha256 := sha256Label body
  receiptJson := (completedReceipt F b status body).text F

def completeServerExecution (b : ServerExecutionBinding) (status : UInt16)
    (contentType : Option String) (body : Octets) : LedgerM (Ending ServerExecutionCompleted) := do
  let now ← utcNow
  let changed ← query (.completeExecution (completionOf F b status contentType body now))
  if changed ≠ 1 then throw .queryReturnedNoRows
  query (.insertOutbox (completedOutboxRow F b status body now))
  let _ ← appendOnConnection F (completedRequest F b status body)
  return .commit (completedResult F b status contentType body)

def reconciliationEventId (executionId : String) : Uuid :=
  Uuid.newV5 Uuid.namespaceUrl
    (utf8 ("clavenar.server-execution/v1\x00reconciliation\x00" ++ executionId ++ "\x00uncertain"))

def uncertainReceipt (row : ExecutionRow) : Value :=
  .object [("contract", .str serverExecutionContract), ("stage", .str "execution.uncertain"),
    ("execution_id", .str row.executionId), ("idempotency_id", .str row.idempotencyId),
    ("route", .str "/mcp"), ("method", .str row.method), ("tool_name", .str row.toolName),
    ("submitted_request_sha256", .str row.submittedRequestSha256),
    ("effective_request_sha256", .str row.effectiveRequestSha256),
    ("reconciliation", .str "uncertain")]

def uncertainRequest (row : ExecutionRow) : LogRequest where
  agentId := row.agentId
  method := row.method
  intentCategory := "ServerExecutionUncertain"
  authorized := false
  reasoning := "interrupted durable server execution has no authoritative retained result; " ++
    "automatic upstream retry forbidden"
  policyDecision := some (uncertainReceipt row)
  correlationId := some row.correlationId

def uncertainOutboxRow (row : ExecutionRow) (now : String) : OutboxRow where
  eventId := (reconciliationEventId row.executionId).text
  executionId := row.executionId
  payloadJson := (uncertainReceipt row).text F
  createdAt := now
  deliveredAt := some now

def classifyUncertain (now : String) (row : ExecutionRow) : LedgerM PUnit := do
  let changed ← query (.markUncertain row.executionId now)
  if changed ≠ 1 then throw .invalidQuery
  query (.insertOutbox (uncertainOutboxRow F row now))
  let _ ← appendOnConnection F (uncertainRequest row)

def reconcileServerExecutionsAt (instanceId : String) (now : Clock) : LedgerM (Ending Nat) := do
  let rows ← query (.selectAbandoned (toRfc3339 (minusSeconds now 300)) instanceId)
  rows.forM (classifyUncertain F (toRfc3339 now))
  return .commit rows.length

namespace Ledger

def inspectServerExecution (b : ServerExecutionBinding) :
    Oracle → Db → Except SqlError ServerExecutionOutcome × Db :=
  runAutocommit (ClavenarLite.inspectServerExecution b)

def beginServerExecution (instanceId : String) (b : ServerExecutionBinding) :
    Oracle → Db → Except SqlError ServerExecutionOutcome × Db :=
  runTransaction (ClavenarLite.beginServerExecution F instanceId b)

def completeServerExecution (b : ServerExecutionBinding) (status : UInt16)
    (contentType : Option String) (body : Octets) :
    Oracle → Db → Except SqlError ServerExecutionCompleted × Db :=
  runTransaction (ClavenarLite.completeServerExecution F b status contentType body)

def reconcileServerExecutionsAt (instanceId : String) (now : Clock) :
    Oracle → Db → Except SqlError Nat × Db :=
  runTransaction (ClavenarLite.reconcileServerExecutionsAt F instanceId now)

end Ledger

end ClavenarLite
