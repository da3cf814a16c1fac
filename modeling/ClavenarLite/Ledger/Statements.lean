import ClavenarLite.Ledger.Rows
import ClavenarLite.Lib.Transaction
import Mathlib.Data.List.MinMax
import Mathlib.Data.List.Sort

/-! The SQL statements of the ledger, what each does to the tables, and the
facts a caller learns from one that succeeded. -/

namespace ClavenarLite

open Bytes Interaction Rfc3339 TextJson Transaction

/-- The values an `UPDATE` writes into the row of a completed execution. -/
structure Completion where
  agentId : String
  idempotencyId : String
  effectiveRequestSha256 : String
  status : UInt16
  contentType : Option String
  body : Octets
  resultSha256 : String
  receiptJson : String
  now : String

/-- A statement answers with its result or an error; the first two operations
read the random generator and the clock instead. -/
inductive Sql : Type → Type
  | newUuid : Sql Uuid
  | utcNow : Sql Clock
  | selectTip : Sql (Except SqlError (Int × String))
  | insertEntry (row : EntryRow) : Sql (Except SqlError Unit)
  | selectExecution (agentId idempotencyId : String) : Sql (Except SqlError (Option ExecutionRow))
  | insertExecution (row : ExecutionRow) : Sql (Except SqlError Unit)
  | completeExecution (c : Completion) : Sql (Except SqlError Nat)
  | selectAbandoned (cutoff instanceId : String) : Sql (Except SqlError (List ExecutionRow))
  | markUncertain (executionId now : String) : Sql (Except SqlError Nat)
  | insertOutbox (row : OutboxRow) : Sql (Except SqlError Unit)
  | insertPending (row : PendingRow) : Sql (Except SqlError Unit)
  | selectPending (correlationId : String) (tenant : Option String) :
      Sql (Except SqlError (Option PendingRow))
  | selectPendingForAgent (correlationId tenant agentId : String) :
      Sql (Except SqlError (Option PendingRow))
  | updatePending (correlationId : String) (tenant : Option String)
      (decidedAt decision : String) (note : Option String) : Sql (Except SqlError Nat)

def Completion.Matches (c : Completion) (r : ExecutionRow) : Prop :=
  r.agentId = c.agentId ∧ r.idempotencyId = c.idempotencyId ∧ r.state = .inFlight ∧
    r.effectiveRequestSha256 = c.effectiveRequestSha256

instance (c : Completion) (r : ExecutionRow) : Decidable (c.Matches r) := by
  unfold Completion.Matches
  infer_instance

def Completion.apply (c : Completion) (r : ExecutionRow) : ExecutionRow :=
  { r with
    state := .completed
    responseStatus := some c.status.toNat
    responseContentType := c.contentType
    responseBody := some c.body
    resultSha256 := some c.resultSha256
    receiptJson := some c.receiptJson
    completedAt := some c.now
    reconciliationState := .resolved
    lastReconciledAt := some c.now
    reconciliationError := none
    reconciliationResolvedAt := some c.now }

def Abandoned (cutoff instanceId : String) (r : ExecutionRow) : Prop :=
  r.state = .inFlight ∧ r.reconciliationState = .pending ∧ r.createdAt ≤ cutoff ∧
    r.ownerInstance.isSome ∧ r.ownerInstance ≠ some instanceId

instance (cutoff instanceId : String) (r : ExecutionRow) :
    Decidable (Abandoned cutoff instanceId r) := by
  unfold Abandoned
  infer_instance

def AwaitsReconciliation (executionId : String) (r : ExecutionRow) : Prop :=
  r.executionId = executionId ∧ r.state = .inFlight ∧ r.reconciliationState = .pending

instance (executionId : String) (r : ExecutionRow) :
    Decidable (AwaitsReconciliation executionId r) := by
  unfold AwaitsReconciliation
  infer_instance

def ExecutionRow.toUncertain (now : String) (r : ExecutionRow) : ExecutionRow :=
  { r with
    reconciliationState := .uncertain
    reconciliationAttempts := r.reconciliationAttempts + 1
    lastReconciledAt := some now
    reconciliationError :=
      some "authoritative upstream result unavailable; automatic effect retry forbidden"
    reconciliationResolvedAt := some now }

def PendingRow.OfTenant (tenant : Option String) (r : PendingRow) : Prop :=
  ∀ t ∈ tenant, r.tenant = t

instance (tenant : Option String) (r : PendingRow) : Decidable (r.OfTenant tenant) := by
  unfold PendingRow.OfTenant
  cases tenant with
  | none => exact isTrue (by simp)
  | some t => exact decidable_of_iff (r.tenant = t) (by simp)

def Undecided (correlationId : String) (tenant : Option String) (r : PendingRow) : Prop :=
  r.correlationId = correlationId ∧ r.decidedAt = none ∧ r.OfTenant tenant

instance (correlationId : String) (tenant : Option String) (r : PendingRow) :
    Decidable (Undecided correlationId tenant r) := by
  unfold Undecided
  infer_instance

/-- An `UPDATE`: the rows with the condition change, and their number is returned. -/
def updateRows {α : Type} (p : α → Prop) [DecidablePred p] (f : α → α) (rows : List α) :
    Nat × List α :=
  (rows.countP p, rows.map fun r => if p r then f r else r)

def batchLimit : Nat := 256

def greatestSeq (rows : List EntryRow) : Option EntryRow :=
  @List.argmax EntryRow Int Int.instLinearOrder.toPreorder Int.decLt EntryRow.seq rows

def tipOf (rows : List EntryRow) : Except SqlError (Int × String) :=
  match greatestSeq rows with
  | some tip => .ok (tip.seq, tip.entryHash)
  | none => .error .queryReturnedNoRows

def selectTip (db : Db) : Except SqlError ((Int × String) × Db) :=
  (tipOf db.entries).map fun tip => (tip, db)

def insertEntry (row : EntryRow) (db : Db) : Except SqlError (Unit × Db) :=
  if ∃ r ∈ db.entries, r.id = row.id ∨ r.seq = row.seq then .error .constraintViolation
  else .ok ((), { db with entries := db.entries ++ [row] })

def selectExecution (agentId idempotencyId : String) (db : Db) :
    Except SqlError (Option ExecutionRow × Db) :=
  .ok (db.findExecution (agentId, idempotencyId), db)

def insertExecution (row : ExecutionRow) (db : Db) : Except SqlError (Unit × Db) :=
  if ∃ r ∈ db.serverExecutions, r.key = row.key ∨ r.executionId = row.executionId then
    .error .constraintViolation
  else .ok ((), { db with serverExecutions := db.serverExecutions ++ [row] })

def completeExecution (c : Completion) (db : Db) : Except SqlError (Nat × Db) :=
  let (changed, rows) := updateRows c.Matches c.apply db.serverExecutions
  .ok (changed, { db with serverExecutions := rows })

/-- Rows of one creation time come in insertion order. -/
def selectAbandoned (cutoff instanceId : String) (db : Db) :
    Except SqlError (List ExecutionRow × Db) :=
  .ok (((db.serverExecutions.filter (Abandoned cutoff instanceId)).insertionSort
    fun r s => r.createdAt ≤ s.createdAt).take batchLimit, db)

def markUncertain (executionId now : String) (db : Db) : Except SqlError (Nat × Db) :=
  let (changed, rows) :=
    updateRows (AwaitsReconciliation executionId) (ExecutionRow.toUncertain now) db.serverExecutions
  .ok (changed, { db with serverExecutions := rows })

def insertOutbox (row : OutboxRow) (db : Db) : Except SqlError (Unit × Db) :=
  if ∃ r ∈ db.serverExecutionOutbox, r.eventId = row.eventId ∨ r.executionId = row.executionId then
    .error .constraintViolation
  else .ok ((), { db with serverExecutionOutbox := db.serverExecutionOutbox ++ [row] })

def insertPending (row : PendingRow) (db : Db) : Except SqlError (Unit × Db) :=
  if ∃ r ∈ db.pendings, r.correlationId = row.correlationId then .error .constraintViolation
  else .ok ((), { db with pendings := db.pendings ++ [row] })

def selectPending (correlationId : String) (tenant : Option String) (db : Db) :
    Except SqlError (Option PendingRow × Db) :=
  .ok (db.pendings.find? fun r => r.correlationId = correlationId ∧ r.OfTenant tenant, db)

def selectPendingForAgent (correlationId tenant agentId : String) (db : Db) :
    Except SqlError (Option PendingRow × Db) :=
  .ok (db.pendings.find? fun r =>
    r.correlationId = correlationId ∧ r.tenant = tenant ∧ r.agentId = agentId, db)

def updatePending (correlationId : String) (tenant : Option String) (decidedAt decision : String)
    (note : Option String) (db : Db) : Except SqlError (Nat × Db) :=
  let (changed, rows) := updateRows (Undecided correlationId tenant)
    (fun r => { r with decidedAt := some decidedAt, decision := some decision, deciderNote := note })
    db.pendings
  .ok (changed, { db with pendings := rows })

/-- What the surroundings decide about one step: whether a statement fails
there, and what the random generator and the clock would return. -/
structure StepEnv where
  fails : Bool
  uuid : Uuid
  now : Clock

abbrev Oracle := Nat → StepEnv

def Sql.answer : {β : Type} → Sql β → Session StepEnv Db → β × Session StepEnv Db
  | _, .newUuid, s => ((s.oracle s.step).uuid, s.tick)
  | _, .utcNow, s => ((s.oracle s.step).now, s.tick)
  | _, .selectTip, s => send ClavenarLite.selectTip s
  | _, .insertEntry row, s => send (ClavenarLite.insertEntry row) s
  | _, .selectExecution a i, s => send (ClavenarLite.selectExecution a i) s
  | _, .insertExecution row, s => send (ClavenarLite.insertExecution row) s
  | _, .completeExecution c, s => send (ClavenarLite.completeExecution c) s
  | _, .selectAbandoned c i, s => send (ClavenarLite.selectAbandoned c i) s
  | _, .markUncertain e n, s => send (ClavenarLite.markUncertain e n) s
  | _, .insertOutbox row, s => send (ClavenarLite.insertOutbox row) s
  | _, .insertPending row, s => send (ClavenarLite.insertPending row) s
  | _, .selectPending c t, s => send (ClavenarLite.selectPending c t) s
  | _, .selectPendingForAgent c t a, s => send (ClavenarLite.selectPendingForAgent c t a) s
  | _, .updatePending c t d x n, s => send (ClavenarLite.updatePending c t d x n) s
where
  send {β : Type} (exec : Db → Except SqlError (β × Db)) (s : Session StepEnv Db) :
      Except SqlError β × Session StepEnv Db :=
    statement StepEnv.fails .sqliteFailure exec s

abbrev LedgerM := Body Sql SqlError

def query {β : Type} (op : Sql (Except SqlError β)) : LedgerM β := ExceptT.mk (Prog.perform op)

def newUuid : LedgerM Uuid := ExceptT.lift (Prog.perform .newUuid)

def utcNow : LedgerM Clock := ExceptT.lift (Prog.perform .utcNow)

def liftExcept {α : Type} (r : Except SqlError α) : LedgerM α := ExceptT.mk (Prog.pure r)

abbrev Results {α : Type} (p : LedgerM α) (db : Db) (a : α) (db' : Db) : Prop :=
  Yields Sql.answer p db a db'

abbrev Failure {α : Type} (p : LedgerM α) (db : Db) (e : SqlError) (db' : Db) : Prop :=
  Fails Sql.answer p db e db'

def runTransaction {α : Type} (p : LedgerM (Ending α)) (oracle : Oracle) (db : Db) :
    Except SqlError α × Db :=
  transaction Sql.answer StepEnv.fails .sqliteFailure p oracle db

def runAutocommit {α : Type} (p : LedgerM α) (oracle : Oracle) (db : Db) :
    Except SqlError α × Db :=
  autocommit Sql.answer p oracle db

theorem statement_view {β : Type} {exec : Db → Except SqlError (β × Db)} {Q : Db → Prop}
    {s : Session StepEnv Db} (hs : Q s.view) (hx : ∀ b v, exec s.view = .ok (b, v) → Q v) :
    Q (Sql.answer.send exec s).2.view := by
  unfold Sql.answer.send
  generalize hr : statement StepEnv.fails SqlError.sqliteFailure exec s = r
  obtain ⟨r, s'⟩ := r
  cases r with
  | ok b => exact hx b _ (statement_ok hr)
  | error e =>
    rw [statement_error hr]
    exact hs

theorem safe_query {rule : List (Call Sql) → ∀ {δ : Type}, Sql δ → Prop} {β : Type}
    {op : Sql (Except SqlError β)} (h : ∀ cs, rule cs op) :
    Prog.Safe rule (query op).run :=
  Prog.Safe.perform h

theorem safe_liftExcept {rule : List (Call Sql) → ∀ {δ : Type}, Sql δ → Prop}
    {α : Type} (r : Except SqlError α) : Prog.Safe rule (liftExcept r).run :=
  Prog.Safe.pure _

variable {db db' : Db}

theorem results_newUuid {u : Uuid} (h : Results newUuid db u db') : db' = db := by
  obtain ⟨s, s', rfl, rfl, he⟩ := Yields.lift h
  rw [← (Prod.mk.inj he).2, Session.tick_view]

theorem results_utcNow {t : Clock} (h : Results utcNow db t db') : db' = db := by
  obtain ⟨s, s', rfl, rfl, he⟩ := Yields.lift h
  rw [← (Prod.mk.inj he).2, Session.tick_view]

theorem results_liftExcept {α : Type} {r : Except SqlError α} {a : α}
    (h : Results (liftExcept r) db a db') : r = .ok a ∧ db' = db := by
  obtain ⟨s, s', rfl, rfl, he⟩ := h
  obtain ⟨hr, rfl⟩ := Prod.mk.inj he
  exact ⟨hr, rfl⟩

theorem fails_liftExcept {α : Type} {r : Except SqlError α} {e : SqlError}
    (h : Failure (liftExcept r) db e db') : db' = db := by
  obtain ⟨s, s', rfl, rfl, he⟩ := h
  obtain ⟨_, rfl⟩ := Prod.mk.inj he
  rfl

theorem results_query {β : Type} {op : Sql (Except SqlError β)}
    {exec : Db → Except SqlError (β × Db)} (hop : ∀ s, op.answer s = Sql.answer.send exec s)
    {b : β} (h : Results (query op) db b db') : exec db = .ok (b, db') := by
  obtain ⟨s, s', rfl, rfl, he⟩ := Yields.perform h
  rw [hop] at he
  exact statement_ok he

theorem fails_query {β : Type} {op : Sql (Except SqlError β)}
    {exec : Db → Except SqlError (β × Db)} (hop : ∀ s, op.answer s = Sql.answer.send exec s)
    {e : SqlError} (h : Failure (query op) db e db') : db' = db := by
  obtain ⟨s, s', rfl, rfl, he⟩ := Fails.perform h
  rw [hop] at he
  exact statement_error he

theorem results_selectTip {t : Int × String} (h : Results (query .selectTip) db t db') :
    tipOf db.entries = .ok t ∧ db' = db := by
  have hx := results_query (fun _ => rfl) h
  unfold ClavenarLite.selectTip at hx
  cases ht : tipOf db.entries with
  | error e =>
    rw [ht] at hx
    exact absurd hx (by simp [Except.map])
  | ok tip =>
    rw [ht] at hx
    obtain ⟨htip, hdb⟩ := Prod.mk.inj (Except.ok.inj hx)
    exact ⟨by rw [htip], hdb.symm⟩

theorem results_insertEntry {row : EntryRow} {u : Unit}
    (h : Results (query (.insertEntry row)) db u db') :
    (∀ r ∈ db.entries, r.id ≠ row.id ∧ r.seq ≠ row.seq) ∧
      db' = { db with entries := db.entries ++ [row] } := by
  have hx := results_query (fun _ => rfl) h
  unfold ClavenarLite.insertEntry at hx
  split_ifs at hx with hc
  refine ⟨?_, (Prod.mk.inj (Except.ok.inj hx)).2.symm⟩
  intro r hr
  exact not_or.mp fun ho => hc ⟨r, hr, ho⟩

theorem results_selectExecution {a i : String} {o : Option ExecutionRow}
    (h : Results (query (.selectExecution a i)) db o db') :
    o = db.findExecution (a, i) ∧ db' = db := by
  have hx := results_query (fun _ => rfl) h
  obtain ⟨ho, hs⟩ := Prod.mk.inj (Except.ok.inj hx)
  exact ⟨ho.symm, hs.symm⟩

theorem results_insertExecution {row : ExecutionRow} {u : Unit}
    (h : Results (query (.insertExecution row)) db u db') :
    (∀ r ∈ db.serverExecutions, r.key ≠ row.key ∧ r.executionId ≠ row.executionId) ∧
      db' = { db with serverExecutions := db.serverExecutions ++ [row] } := by
  have hx := results_query (fun _ => rfl) h
  unfold ClavenarLite.insertExecution at hx
  split_ifs at hx with hc
  refine ⟨?_, (Prod.mk.inj (Except.ok.inj hx)).2.symm⟩
  intro r hr
  exact not_or.mp fun ho => hc ⟨r, hr, ho⟩

theorem results_completeExecution {c : Completion} {n : Nat}
    (h : Results (query (.completeExecution c)) db n db') :
    n = db.serverExecutions.countP c.Matches ∧
      db' = { db with
        serverExecutions := db.serverExecutions.map fun r => if c.Matches r then c.apply r else r } := by
  have hx := results_query (fun _ => rfl) h
  obtain ⟨hn, hs⟩ := Prod.mk.inj (Except.ok.inj hx)
  exact ⟨hn.symm, hs.symm⟩

theorem results_selectAbandoned {c i : String} {rows : List ExecutionRow}
    (h : Results (query (.selectAbandoned c i)) db rows db') :
    rows = ((db.serverExecutions.filter (Abandoned c i)).insertionSort
      fun r s => r.createdAt ≤ s.createdAt).take batchLimit ∧ db' = db := by
  have hx := results_query (fun _ => rfl) h
  obtain ⟨ho, hs⟩ := Prod.mk.inj (Except.ok.inj hx)
  exact ⟨ho.symm, hs.symm⟩

theorem results_markUncertain {e t : String} {n : Nat}
    (h : Results (query (.markUncertain e t)) db n db') :
    n = db.serverExecutions.countP (AwaitsReconciliation e) ∧
      db' = { db with
        serverExecutions := db.serverExecutions.map fun r =>
          if AwaitsReconciliation e r then r.toUncertain t else r } := by
  have hx := results_query (fun _ => rfl) h
  obtain ⟨hn, hs⟩ := Prod.mk.inj (Except.ok.inj hx)
  exact ⟨hn.symm, hs.symm⟩

theorem results_insertOutbox {row : OutboxRow} {u : Unit}
    (h : Results (query (.insertOutbox row)) db u db') :
    (∀ r ∈ db.serverExecutionOutbox, r.eventId ≠ row.eventId ∧ r.executionId ≠ row.executionId) ∧
      db' = { db with serverExecutionOutbox := db.serverExecutionOutbox ++ [row] } := by
  have hx := results_query (fun _ => rfl) h
  unfold ClavenarLite.insertOutbox at hx
  split_ifs at hx with hc
  refine ⟨?_, (Prod.mk.inj (Except.ok.inj hx)).2.symm⟩
  intro r hr
  exact not_or.mp fun ho => hc ⟨r, hr, ho⟩

theorem results_insertPending {row : PendingRow} {u : Unit}
    (h : Results (query (.insertPending row)) db u db') :
    (∀ r ∈ db.pendings, r.correlationId ≠ row.correlationId) ∧
      db' = { db with pendings := db.pendings ++ [row] } := by
  have hx := results_query (fun _ => rfl) h
  unfold ClavenarLite.insertPending at hx
  split_ifs at hx with hc
  refine ⟨?_, (Prod.mk.inj (Except.ok.inj hx)).2.symm⟩
  intro r hr he
  exact hc ⟨r, hr, he⟩

theorem results_selectPending {c : String} {t : Option String} {o : Option PendingRow}
    (h : Results (query (.selectPending c t)) db o db') :
    o = db.pendings.find? (fun r => r.correlationId = c ∧ r.OfTenant t) ∧ db' = db := by
  have hx := results_query (fun _ => rfl) h
  obtain ⟨ho, hs⟩ := Prod.mk.inj (Except.ok.inj hx)
  exact ⟨ho.symm, hs.symm⟩

end ClavenarLite
