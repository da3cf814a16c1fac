import ClavenarLite.Lib.JsonValue
import ClavenarLite.Lib.Rfc3339
import ClavenarLite.Lib.Uuid

/-! The ledger's records, and the rows of its four SQLite tables as the schema
declares them. -/

namespace ClavenarLite

open Bytes Rfc3339 TextJson

def genesisPrevHash : String :=
  "0000000000000000000000000000000000000000000000000000000000000000"

def currentChainVersion : Int := 1

inductive SqlError
  | sqliteFailure
  | constraintViolation
  | queryReturnedNoRows
  | invalidQuery
  | invalidColumnType (column : Nat)
  | fromSqlConversionFailure (column : Nat)
  deriving DecidableEq

structure LedgerEntry where
  id : Uuid
  timestamp : DateTime
  agentId : String
  method : String
  intentCategory : String
  authorized : Bool
  reasoning : String
  policyDecision : Option Value
  seq : Int
  prevHash : String
  entryHash : String
  chainVersion : Int
  correlationId : Option String

structure LogRequest where
  agentId : String
  method : String
  intentCategory : String
  authorized : Bool
  reasoning : String
  policyDecision : Option Value
  correlationId : Option String

structure ServerExecutionBinding where
  agentId : String
  idempotencyId : Uuid
  correlationId : String
  route : String
  method : String
  toolName : String
  submittedRequestSha256 : String
  effectiveRequestSha256 : String
  deriving DecidableEq

structure ServerExecutionCompleted where
  executionId : String
  status : UInt16
  contentType : Option String
  body : Octets
  resultSha256 : String
  receiptJson : String
  deriving DecidableEq

inductive ServerExecutionOutcome
  | missing
  | started
  | completed (c : ServerExecutionCompleted)
  | uncertain
  | conflict
  deriving DecidableEq

structure Pending where
  correlationId : String
  tenant : String
  agentId : String
  toolType : String
  method : String
  reviewReasons : List String
  requestedAt : DateTime
  decidedAt : Option DateTime
  decision : Option String
  deciderNote : Option String
  callbackUrl : Option String
  deriving DecidableEq

structure ParkRequest where
  correlationId : String
  tenant : String
  agentId : String
  toolType : String
  method : String
  reviewReasons : List String
  callbackUrl : Option String

structure EntryRow where
  id : String
  seq : Int
  timestamp : String
  agentId : String
  method : String
  intentCategory : String
  authorized : Int
  reasoning : String
  policyDecision : Option String
  prevHash : String
  entryHash : String
  chainVersion : Int
  correlationId : Option String
  deriving DecidableEq

inductive ExecutionState
  | inFlight
  | completed
  deriving DecidableEq

inductive ReconciliationState
  | legacy
  | pending
  | resolved
  | uncertain
  deriving DecidableEq

structure ExecutionRow where
  agentId : String
  idempotencyId : String
  executionId : String
  correlationId : String
  route : String
  method : String
  toolName : String
  submittedRequestSha256 : String
  effectiveRequestSha256 : String
  state : ExecutionState
  responseStatus : Option Int := none
  responseContentType : Option String := none
  responseBody : Option Octets := none
  resultSha256 : Option String := none
  receiptJson : Option String := none
  createdAt : String
  completedAt : Option String := none
  reconciliationState : ReconciliationState := .legacy
  reconciliationAttempts : Int := 0
  lastReconciledAt : Option String := none
  reconciliationError : Option String := none
  reconciliationResolvedAt : Option String := none
  ownerInstance : Option String := none
  deriving DecidableEq

structure OutboxRow where
  eventId : String
  executionId : String
  payloadJson : String
  createdAt : String
  deliveredAt : Option String
  deriving DecidableEq

structure PendingRow where
  correlationId : String
  tenant : String
  agentId : String
  toolType : String
  method : String
  reviewReasonsJson : String
  requestedAt : String
  decidedAt : Option String := none
  decision : Option String := none
  deciderNote : Option String := none
  callbackUrl : Option String
  deriving DecidableEq

/-- The tables, each in the order its rows were inserted. -/
structure Db where
  entries : List EntryRow
  serverExecutions : List ExecutionRow
  serverExecutionOutbox : List OutboxRow
  pendings : List PendingRow
  deriving DecidableEq

def Db.empty : Db := ⟨[], [], [], []⟩

/-- The primary key of `server_executions`. -/
def ExecutionRow.key (r : ExecutionRow) : String × String := (r.agentId, r.idempotencyId)

def ServerExecutionBinding.key (b : ServerExecutionBinding) : String × String :=
  (b.agentId, b.idempotencyId.text)

def Db.findExecution (db : Db) (key : String × String) : Option ExecutionRow :=
  db.serverExecutions.find? fun r => r.agentId = key.1 ∧ r.idempotencyId = key.2

theorem Db.findExecution_some {db : Db} {key : String × String} {r : ExecutionRow}
    (h : db.findExecution key = some r) : r ∈ db.serverExecutions ∧ r.key = key := by
  refine ⟨List.mem_of_find?_eq_some h, ?_⟩
  have hk := List.find?_some h
  simp only [decide_eq_true_eq] at hk
  exact Prod.ext hk.1 hk.2

theorem Db.findExecution_none {db : Db} {key : String × String} :
    db.findExecution key = none ↔ ∀ r ∈ db.serverExecutions, r.key ≠ key := by
  simp only [Db.findExecution, List.find?_eq_none, decide_eq_true_eq, ExecutionRow.key, ne_eq,
    Prod.ext_iff]

/-- A value of a SQLite column, whatever type the column was declared with. -/
inductive SqlValue
  | null
  | integer (i : Int)
  | real (x : Rat)
  | text (bytes : Octets)
  | blob (bytes : Octets)
  deriving DecidableEq

/-- The order of `ORDER BY`: nulls, numbers, texts, blobs. -/
def SqlValue.Before : SqlValue → SqlValue → Prop
  | .null, _ => True
  | .integer i, .integer j => i ≤ j
  | .integer i, .real y => i ≤ y
  | .real x, .integer j => x ≤ j
  | .real x, .real y => x ≤ y
  | .integer _, .text _ => True
  | .integer _, .blob _ => True
  | .real _, .text _ => True
  | .real _, .blob _ => True
  | .text a, .text b => a ≤ b
  | .text _, .blob _ => True
  | .blob a, .blob b => a ≤ b
  | _, _ => False

instance : DecidableRel SqlValue.Before := by
  intro a b
  cases a <;> cases b <;> unfold SqlValue.Before <;> infer_instance

end ClavenarLite
