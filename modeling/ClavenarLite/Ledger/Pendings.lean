import ClavenarLite.Ledger.Statements

/-! Requests parked for human review: parking one, looking it up, and recording
an operator's decision at most once. -/

namespace ClavenarLite

open Rfc3339 TextJson Transaction

variable (F : FloatText)

/-- Why a decision was refused, as the route maps it to a status. -/
inductive DecideError
  | notFound
  | alreadyDecided
  | invalidDecision (decision : String)
  | sqlite (e : SqlError)
  deriving DecidableEq

def readStrings : List Json → Option (List String)
  | [] => some []
  | .str s :: xs => (readStrings xs).map (s :: ·)
  | _ :: _ => none

/-- A text that is no array of strings counts as the empty list. -/
def reviewReasonsOf (text : String) : List String :=
  match (fromStr F text).map Value.json with
  | some (.arr xs) => (readStrings xs).getD []
  | _ => []

def reviewReasonsJson (reasons : List String) : String :=
  printText F (.arr (reasons.map .str))

def timestampColumn (column : Nat) (text : String) : Except SqlError DateTime :=
  match parseFromRfc3339 text with
  | some t => .ok t
  | none => .error (.fromSqlConversionFailure column)

def rowToPending (row : PendingRow) : Except SqlError Pending := do
  let requestedAt ← timestampColumn 5 row.requestedAt
  let decidedAt ← row.decidedAt.mapM (timestampColumn 6)
  return { correlationId := row.correlationId
           tenant := row.tenant
           agentId := row.agentId
           toolType := row.toolType
           method := row.method
           reviewReasons := reviewReasonsOf F row.reviewReasonsJson
           requestedAt, decidedAt
           decision := row.decision
           deciderNote := row.deciderNote
           callbackUrl := row.callbackUrl }

def parkedRow (req : ParkRequest) (requestedAt : Clock) : PendingRow where
  correlationId := req.correlationId
  tenant := req.tenant
  agentId := req.agentId
  toolType := req.toolType
  method := req.method
  reviewReasonsJson := reviewReasonsJson F req.reviewReasons
  requestedAt := toRfc3339 requestedAt
  callbackUrl := req.callbackUrl

def parkPending (req : ParkRequest) : LedgerM Pending := do
  let requestedAt ← utcNow
  query (.insertPending (parkedRow F req requestedAt))
  return { correlationId := req.correlationId
           tenant := req.tenant
           agentId := req.agentId
           toolType := req.toolType
           method := req.method
           reviewReasons := req.reviewReasons
           requestedAt := requestedAt
           decidedAt := none
           decision := none
           deciderNote := none
           callbackUrl := req.callbackUrl }

def getPending (correlationId : String) : LedgerM (Option Pending) := do
  match ← query (.selectPending correlationId none) with
  | some row => return some (← liftExcept (rowToPending F row))
  | none => return none

def getPendingForAgent (correlationId tenant agentId : String) : LedgerM (Option Pending) := do
  match ← query (.selectPendingForAgent correlationId tenant agentId) with
  | some row => return some (← liftExcept (rowToPending F row))
  | none => return none

/-- The read and the update of a decision, once its value has been checked. -/
def decideStored (correlationId : String) (tenant : Option String) (decision : String)
    (note : Option String) : LedgerM (Except DecideError Pending) := do
  match ← query (.selectPending correlationId tenant) with
  | none => return .error .notFound
  | some row =>
    let pending ← liftExcept (rowToPending F row)
    if pending.decision.isSome then return .error .alreadyDecided
    let decidedAt ← utcNow
    let rowsAffected ←
      query (.updatePending correlationId tenant (toRfc3339 decidedAt) decision note)
    if rowsAffected = 0 then return .error .alreadyDecided
    return .ok { pending with
      decidedAt := some decidedAt, decision := some decision, deciderNote := note }

namespace Ledger

def parkPending (req : ParkRequest) : Oracle → Db → Except SqlError Pending × Db :=
  runAutocommit (ClavenarLite.parkPending F req)

def getPending (correlationId : String) : Oracle → Db → Except SqlError (Option Pending) × Db :=
  runAutocommit (ClavenarLite.getPending F correlationId)

def getPendingForAgent (correlationId tenant agentId : String) :
    Oracle → Db → Except SqlError (Option Pending) × Db :=
  runAutocommit (ClavenarLite.getPendingForAgent F correlationId tenant agentId)

def decidePendingScoped (correlationId : String) (tenant : Option String) (decision : String)
    (note : Option String) (oracle : Oracle) (db : Db) : Except DecideError Pending × Db :=
  if decision ≠ "allow" ∧ decision ≠ "deny" then (.error (.invalidDecision decision), db)
  else
    match runAutocommit (decideStored F correlationId tenant decision note) oracle db with
    | (.ok result, db') => (result, db')
    | (.error e, db') => (.error (.sqlite e), db')

def decidePending (correlationId decision : String) (note : Option String) :
    Oracle → Db → Except DecideError Pending × Db :=
  decidePendingScoped F correlationId none decision note

def decidePendingForTenant (correlationId tenant decision : String) (note : Option String) :
    Oracle → Db → Except DecideError Pending × Db :=
  decidePendingScoped F correlationId (some tenant) decision note

end Ledger

end ClavenarLite
