import ClavenarLite.Ledger.Runs

/-! A completed execution is replayed exactly and for good: its row survives
every later operation, and a lookup either returns what was committed or
reports a conflict. -/

namespace ClavenarLite

open Bytes Interaction Rfc3339 TextJson Transaction

variable {F : FloatText}

structure RequestColumns where
  agentId : String
  idempotencyId : String
  executionId : String
  correlationId : String
  route : String
  method : String
  toolName : String
  submittedRequestSha256 : String
  effectiveRequestSha256 : String
  deriving DecidableEq

def ExecutionRow.columns (r : ExecutionRow) : RequestColumns where
  agentId := r.agentId
  idempotencyId := r.idempotencyId
  executionId := r.executionId
  correlationId := r.correlationId
  route := r.route
  method := r.method
  toolName := r.toolName
  submittedRequestSha256 := r.submittedRequestSha256
  effectiveRequestSha256 := r.effectiveRequestSha256

def ServerExecutionBinding.columns (b : ServerExecutionBinding) : RequestColumns where
  agentId := b.agentId
  idempotencyId := b.idempotencyId.text
  executionId := b.executionId.text
  correlationId := b.correlationId
  route := b.route
  method := b.method
  toolName := b.toolName
  submittedRequestSha256 := b.submittedRequestSha256
  effectiveRequestSha256 := b.effectiveRequestSha256

def Db.columns (db : Db) : List RequestColumns := db.serverExecutions.map ExecutionRow.columns

theorem appends_tables {req : LogRequest} {db db' : Db} (h : Appends F req db db') :
    db'.serverExecutions = db.serverExecutions ∧
      db'.serverExecutionOutbox = db.serverExecutionOutbox ∧ db'.pendings = db.pendings := by
  obtain ⟨id, now, tip, _, _, rfl⟩ := appends_entries h
  exact ⟨rfl, rfl, rfl⟩

theorem map_update {α β : Type} {p : α → Prop} [DecidablePred p] {f : α → α} {g : α → β}
    (h : ∀ r, g (f r) = g r) (rows : List α) :
    (rows.map fun r => if p r then f r else r).map g = rows.map g := by
  rw [List.map_map]
  apply List.map_congr_left
  intro r _
  simp only [Function.comp_apply]
  split_ifs
  · exact h r
  · rfl

theorem begins_columns {i : String} {b : ServerExecutionBinding} {db db' : Db}
    (h : Begins F i b db db') : db'.columns = db.columns ++ [b.columns] := by
  obtain ⟨createdAt, ha⟩ := h.appends
  rw [Db.columns, (appends_tables ha).1, Db.withIntent, List.map_append]
  rfl

theorem completes_columns {b : ServerExecutionBinding} {st : UInt16} {ct : Option String}
    {body : Octets} {db db' : Db} (h : Completes F b st ct body db db') :
    db'.columns = db.columns := by
  obtain ⟨now, _, _, ha⟩ := h.updates
  rw [Db.columns, (appends_tables ha).1]
  apply map_update
  intro r
  rfl

theorem classifies_columns {row : ExecutionRow} {db db' : Db} (h : Classifies F row db db') :
    db'.columns = db.columns := by
  obtain ⟨now, _, _, ha⟩ := h.updates
  rw [Db.columns, (appends_tables ha).1]
  apply map_update
  intro r
  rfl

theorem classifications_columns {db db' : Db} (h : Classifications F db db') :
    db'.columns = db.columns := by
  induction h with
  | refl => rfl
  | tail _ hc ih =>
    obtain ⟨row, hc⟩ := hc
    rw [classifies_columns hc, ih]

/-- Only a begin that started an execution adds a row. -/
theorem apply_columns (op : LedgerOp) (oracle : Oracle) (db : Db) :
    (op.apply F oracle db).columns = db.columns ∨
      ∃ i b, op = .begin i b ∧ (Ledger.beginServerExecution F i b oracle db).1 = .ok .started ∧
        (op.apply F oracle db).columns = db.columns ++ [b.columns] := by
  have hp : ∀ {db'}, (∃ rows, db' = { db with pendings := rows }) → db'.columns = db.columns := by
    rintro _ ⟨rows, rfl⟩
    rfl
  cases op with
  | append req =>
    left
    simp only [LedgerOp.apply]
    generalize hr : Ledger.append F req oracle db = r
    obtain ⟨r, db'⟩ := r
    cases r with
    | error e => rw [append_error hr]
    | ok e => exact congrArg (List.map _) (appends_tables ⟨e, autocommit_ok hr⟩).1
  | inspect b =>
    left
    rw [LedgerOp.apply, inspect_db]
  | begin i b =>
    simp only [LedgerOp.apply]
    generalize hr : Ledger.beginServerExecution F i b oracle db = r
    obtain ⟨r, db'⟩ := r
    cases r with
    | error e =>
      left
      rw [transaction_error hr]
    | ok out =>
      rcases begin_ok hr with ⟨rfl, _⟩ | ⟨rfl, hb⟩
      · exact Or.inl rfl
      · exact Or.inr ⟨i, b, rfl, by rw [hr], begins_columns hb⟩
  | complete b st ct body =>
    left
    simp only [LedgerOp.apply]
    generalize hr : Ledger.completeServerExecution F b st ct body oracle db = r
    obtain ⟨r, db'⟩ := r
    cases r with
    | error e => rw [transaction_error hr]
    | ok c => exact completes_columns (complete_ok hr).2
  | reconcile i now =>
    left
    simp only [LedgerOp.apply]
    generalize hr : Ledger.reconcileServerExecutionsAt F i now oracle db = r
    obtain ⟨r, db'⟩ := r
    cases r with
    | error e => rw [transaction_error hr]
    | ok n => exact classifications_columns (reconcile_ok hr)
  | park req => exact Or.inl (hp (pendingsOnly_autocommit (parkPending_only req) oracle db))
  | decide c t d n => exact Or.inl (hp (decide_pendings c t d n oracle db))
  | getPending c => exact Or.inl (hp (pendingsOnly_autocommit (getPending_only c) oracle db))

/-- Within the run, a begin for the binding answered that it started. -/
def StartedIn (F : FloatText) (ops : List (LedgerOp × Oracle)) (b : ServerExecutionBinding) :
    Prop :=
  ∃ pre post i o, ops = pre ++ (LedgerOp.begin i b, o) :: post ∧
    (Ledger.beginServerExecution F i b o (runOps F pre Db.empty)).1 = .ok .started

theorem runOps_append (ops : List (LedgerOp × Oracle)) (op : LedgerOp × Oracle) (db : Db) :
    runOps F (ops ++ [op]) db = op.1.apply F op.2 (runOps F ops db) := by
  simp [runOps]

theorem StartedIn.append {ops more : List (LedgerOp × Oracle)} {b : ServerExecutionBinding}
    (h : StartedIn F ops b) : StartedIn F (ops ++ more) b := by
  obtain ⟨pre, post, i, o, rfl, hs⟩ := h
  exact ⟨pre, post ++ more, i, o, by simp, hs⟩

/-- Every row was written by a begin of the run. -/
theorem columns_started (ops : List (LedgerOp × Oracle)) :
    ∀ c ∈ (runOps F ops Db.empty).columns, ∃ b, StartedIn F ops b ∧ c = b.columns := by
  induction ops using List.reverseRec with
  | nil =>
    intro c hc
    exact absurd hc (by simp [runOps, Db.empty, Db.columns])
  | append_singleton ops op ih =>
    intro c hc
    rw [runOps_append] at hc
    obtain ⟨op, o⟩ := op
    rcases apply_columns (F := F) op o (runOps F ops Db.empty) with he | ⟨i, b, rfl, hs, he⟩
    · rw [he] at hc
      obtain ⟨b, hb, rfl⟩ := ih c hc
      exact ⟨b, hb.append, rfl⟩
    · rw [he] at hc
      rcases List.mem_append.mp hc with hc | hc
      · obtain ⟨b', hb', rfl⟩ := ih c hc
        exact ⟨b', hb'.append, rfl⟩
      · exact ⟨b, ⟨ops, [], i, o, rfl, hs⟩, List.mem_singleton.mp hc⟩

def KeysDistinct (db : Db) : Prop := (db.serverExecutions.map ExecutionRow.key).Nodup

theorem keys_of_columns {db db' : Db} (h : db'.columns = db.columns) :
    db'.serverExecutions.map ExecutionRow.key = db.serverExecutions.map ExecutionRow.key := by
  have hk : ∀ rows : List ExecutionRow, rows.map ExecutionRow.key =
      (rows.map ExecutionRow.columns).map fun c => (c.agentId, c.idempotencyId) := by
    intro rows
    rw [List.map_map]
    rfl
  rw [hk, hk]
  exact congrArg _ h

theorem effect_keysDistinct {db db' : Db} (h : Effect F db db') (hk : KeysDistinct db) :
    KeysDistinct db' := by
  unfold KeysDistinct at hk ⊢
  cases h with
  | execution h =>
    cases h with
    | begins h =>
      obtain ⟨createdAt, ha⟩ := h.appends
      have hnot := Db.findExecution_none.mp h.missing
      rw [(appends_tables ha).1, Db.withIntent, List.map_append, List.nodup_append]
      refine ⟨hk, by simp, ?_⟩
      intro k hmem k' hmem' he
      obtain ⟨r, hr, rfl⟩ := List.mem_map.mp hmem
      rw [List.map_singleton, List.mem_singleton] at hmem'
      exact hnot r hr (he.trans hmem')
    | completes h => rwa [keys_of_columns (completes_columns h)]
    | classifies h => rwa [keys_of_columns (classifies_columns h)]
  | append h => rwa [(appends_tables h).1]
  | pendings h => rwa [h]

theorem effects_keysDistinct {db db' : Db} (h : Effects F db db') (hk : KeysDistinct db) :
    KeysDistinct db' := by
  induction h with
  | refl => exact hk
  | tail _ he ih => exact effect_keysDistinct he ih

theorem KeysDistinct.find {db : Db} (hk : KeysDistinct db) {r : ExecutionRow}
    (hr : r ∈ db.serverExecutions) : db.findExecution r.key = some r := by
  cases hf : db.findExecution r.key with
  | none => exact absurd rfl (Db.findExecution_none.mp hf r hr)
  | some r' =>
    obtain ⟨hmem, hkey⟩ := Db.findExecution_some hf
    rw [List.inj_on_of_nodup_map hk hmem hr hkey]

theorem mem_map_update {α : Type} {p : α → Prop} [DecidablePred p] {f : α → α} {rows : List α}
    {r : α} (hr : r ∈ rows) (hp : ¬ p r) : r ∈ rows.map fun r => if p r then f r else r :=
  List.mem_map.mpr ⟨r, hr, if_neg hp⟩

theorem exists_of_countP {p : ExecutionRow → Prop} [DecidablePred p] {rows : List ExecutionRow}
    (h : rows.countP p = 1) : ∃ r ∈ rows, p r := by
  have hpos : 0 < rows.countP p := by omega
  obtain ⟨r, hr, hp⟩ := List.countP_pos_iff.mp hpos
  exact ⟨r, hr, by simpa using hp⟩

/-- No later change touches the row of a completed execution. -/
theorem effect_completed {db db' : Db} (h : Effect F db db') {r : ExecutionRow}
    (hr : r ∈ db.serverExecutions) (hc : r.state = .completed) : r ∈ db'.serverExecutions := by
  cases h with
  | execution h =>
    cases h with
    | begins h =>
      obtain ⟨createdAt, ha⟩ := h.appends
      rw [(appends_tables ha).1]
      exact List.mem_append_left _ hr
    | completes h =>
      obtain ⟨now, _, _, ha⟩ := h.updates
      rw [(appends_tables ha).1]
      apply mem_map_update hr
      intro hm
      exact absurd (hc.symm.trans hm.2.2.1) (by simp)
    | classifies h =>
      obtain ⟨now, _, _, ha⟩ := h.updates
      rw [(appends_tables ha).1]
      apply mem_map_update hr
      intro hm
      exact absurd (hc.symm.trans hm.2.1) (by simp)
  | append h => rwa [(appends_tables h).1]
  | pendings h => rwa [h]

theorem effects_completed {db db' : Db} (h : Effects F db db') {r : ExecutionRow}
    (hr : r ∈ db.serverExecutions) (hc : r.state = .completed) : r ∈ db'.serverExecutions := by
  induction h with
  | refl => exact hr
  | tail _ he ih => exact effect_completed he ih hc

theorem retained_eq {row : ExecutionRow} {n : Int} {st : UInt16} {body : Octets}
    {sha receipt : String}
    (hs : row.responseStatus = some n) (hn : toUInt16 n = some st)
    (hb : row.responseBody = some body) (hr : row.resultSha256 = some sha)
    (hj : row.receiptJson = some receipt) :
    retained row = .ok ⟨row.executionId, st, row.responseContentType, body, sha, receipt⟩ := by
  rw [retained, hs, Option.bind_some, hn, hb, hr, hj]
  rfl

theorem toUInt16_toNat (n : UInt16) : toUInt16 n.toNat = some n := by
  have h : (n.toNat : Int) < 2 ^ 16 := by
    have := n.toNat_lt
    omega
  have hn : UInt16.ofNat (Int.toNat n.toNat) = n := by simp
  rw [toUInt16, if_pos ⟨Int.natCast_nonneg _, h⟩, hn]

theorem retained_apply (b : ServerExecutionBinding) (st : UInt16) (ct : Option String)
    (body : Octets) (now : Clock) {r : ExecutionRow} (hr : r.executionId = b.executionId.text) :
    retained ((completionOf F b st ct body now).apply r) =
      .ok (completedResult F b st ct body) := by
  rw [retained_eq rfl (toUInt16_toNat st) rfl rfl rfl]
  unfold completedResult
  rw [← hr]
  rfl

theorem inspect_run (b : ServerExecutionBinding) (s : Session StepEnv Db) :
    (inspectServerExecution b).run.run Sql.answer s =
      (if (s.oracle s.step).fails then .error .sqliteFailure
        else outcomeOf b (s.view.findExecution b.key), s.tick) := by
  rw [inspectServerExecution, ExceptT.run_bind, Prog.run_bind]
  have hq : (query (.selectExecution b.agentId b.idempotencyId.text)).run.run Sql.answer s =
      statement StepEnv.fails .sqliteFailure (selectExecution b.agentId b.idempotencyId.text) s :=
    rfl
  rw [hq, statement]
  by_cases hf : (s.oracle s.step).fails = true
  · rw [if_pos hf, if_pos hf]
    rfl
  · rw [if_neg hf, if_neg hf]
    rfl

theorem inspect_eq (b : ServerExecutionBinding) (oracle : Oracle) (db : Db) :
    (Ledger.inspectServerExecution b oracle db).1 =
      if (oracle 0).fails then .error .sqliteFailure
      else outcomeOf b (db.findExecution b.key) := by
  rw [Ledger.inspectServerExecution, runAutocommit, autocommit, inspect_run]

/-- A begin that finds a row answers what it found, and changes nothing. -/
theorem begin_eq {i : String} {b : ServerExecutionBinding} {oracle : Oracle} {db : Db}
    {out : ServerExecutionOutcome} (h : outcomeOf b (db.findExecution b.key) = .ok out)
    (hm : out ≠ .missing) :
    Ledger.beginServerExecution F i b oracle db =
      (if (oracle 0).fails ∨ (oracle 1).fails then .error .sqliteFailure else .ok out, db) := by
  have hrun : (beginServerExecution F i b).run.run Sql.answer ⟨oracle, 1, db⟩ =
      (if (oracle 1).fails then .error .sqliteFailure else .ok (.rollback out),
        Session.tick ⟨oracle, 1, db⟩) := by
    rw [beginServerExecution, ExceptT.run_bind, Prog.run_bind, inspect_run]
    by_cases hf : (oracle 1).fails = true
    · rw [if_pos hf, if_pos hf]
      rfl
    · rw [if_neg hf, if_neg hf, h]
      cases out with
      | missing => exact absurd rfl hm
      | _ => rfl
  rw [Ledger.beginServerExecution, runTransaction, transaction, hrun]
  by_cases h0 : (oracle 0).fails = true
  · rw [if_pos h0, if_pos (Or.inl h0)]
  · rw [if_neg h0]
    by_cases h1 : (oracle 1).fails = true
    · rw [if_pos h1, if_pos (Or.inr h1)]
    · rw [if_neg h1, if_neg (not_or.mpr ⟨h0, h1⟩)]

/-- The two bindings agree in what a lookup compares. -/
def ServerExecutionBinding.Repeats (b b₀ : ServerExecutionBinding) : Prop :=
  b.route = b₀.route ∧ b.method = b₀.method ∧ b.toolName = b₀.toolName ∧
    b.submittedRequestSha256 = b₀.submittedRequestSha256

instance (b b₀ : ServerExecutionBinding) : Decidable (b.Repeats b₀) := by
  unfold ServerExecutionBinding.Repeats
  infer_instance

theorem completes_row {b : ServerExecutionBinding} {st : UInt16} {ct : Option String}
    {body : Octets} {db db' : Db} (h : Completes F b st ct body db db') :
    ∃ r ∈ db.serverExecutions, ∃ now, (completionOf F b st ct body now).Matches r ∧
      (completionOf F b st ct body now).apply r ∈ db'.serverExecutions := by
  obtain ⟨now, hone, _, ha⟩ := h.updates
  have hpos : 0 < db.serverExecutions.countP (completionOf F b st ct body now).Matches := by omega
  obtain ⟨r, hr, hm⟩ := List.countP_pos_iff.mp hpos
  have hmatch : (completionOf F b st ct body now).Matches r := by simpa using hm
  refine ⟨r, hr, now, hmatch, ?_⟩
  rw [(appends_tables ha).1]
  exact List.mem_map.mpr ⟨r, hr, if_pos hmatch⟩

theorem outcomeOf_completed {b : ServerExecutionBinding} {row : ExecutionRow}
    {c : ServerExecutionCompleted} (hs : row.state = .completed) (hr : retained row = .ok c) :
    outcomeOf b (some row) = .ok (if SameRequest row b then .completed c else .conflict) := by
  simp only [outcomeOf]
  by_cases hsame : SameRequest row b
  · rw [if_neg (not_not.mpr hsame), if_neg (not_not.mpr hs), hr, if_pos hsame]
    rfl
  · rw [if_pos hsame, if_neg hsame]

/-- The row of a completed execution, with the begin that wrote it, is found by
its key in every later state. -/
theorem completed_found {before : List (LedgerOp × Oracle)} {b : ServerExecutionBinding}
    {st : UInt16} {ct : Option String} {body : Octets} {db : Db}
    (h : Completes F b st ct body (runOps F before Db.empty) db) :
    ∃ b₀ row, StartedIn F before b₀ ∧ b₀.agentId = b.agentId ∧
      b₀.idempotencyId = b.idempotencyId ∧
      b₀.effectiveRequestSha256 = b.effectiveRequestSha256 ∧
      row.state = .completed ∧ retained row = .ok (completedResult F b st ct body) ∧
      (∀ b', SameRequest row b' ↔ b'.Repeats b₀) ∧
      ∀ after, (runOps F after db).findExecution b.key = some row := by
  obtain ⟨r, hr, now, ⟨ha, hi, _, he⟩, hmem⟩ := completes_row h
  obtain ⟨b₀, hstart, hcols⟩ :=
    columns_started (F := F) before _ (List.mem_map_of_mem (f := ExecutionRow.columns) hr)
  simp only [ExecutionRow.columns, ServerExecutionBinding.columns, RequestColumns.mk.injEq]
    at hcols
  obtain ⟨hagent, hidem, hexec, _, hroute, hmethod, htool, hsub, heff⟩ := hcols
  have hagent₀ : b₀.agentId = b.agentId := hagent.symm.trans ha
  have hidem₀ : b₀.idempotencyId = b.idempotencyId := Uuid.text_injective (hidem.symm.trans hi)
  have hid : r.executionId = b.executionId.text := by
    rw [hexec, ServerExecutionBinding.executionId, ServerExecutionBinding.executionId, hagent₀,
      hidem₀]
  refine ⟨b₀, (completionOf F b st ct body now).apply r, hstart, hagent₀, hidem₀,
    heff.symm.trans he, rfl, retained_apply b st ct body now hid, ?_, ?_⟩
  · intro b'
    show (r.route = b'.route ∧ r.method = b'.method ∧ r.toolName = b'.toolName ∧
      r.submittedRequestSha256 = b'.submittedRequestSha256) ↔ _
    rw [hroute, hmethod, htool, hsub]
    simp only [ServerExecutionBinding.Repeats, eq_comm]
  · intro after
    have hkeys : KeysDistinct (runOps F after db) :=
      effects_keysDistinct (runOps_effects after db)
        (effect_keysDistinct (.execution (.completes h))
          (effects_keysDistinct (runOps_effects before Db.empty) List.nodup_nil))
    have hkey : ((completionOf F b st ct body now).apply r).key = b.key := Prod.ext ha hi
    rw [← hkey]
    exact hkeys.find (effects_completed (runOps_effects after db) hmem rfl)

/-- After a completion, whatever runs next, the key answers with exactly the
committed result to the request that had started it, and with a conflict to any
other. -/
theorem completed_replay {before after : List (LedgerOp × Oracle)} {b : ServerExecutionBinding}
    {st : UInt16} {ct : Option String} {body : Octets} {oracle : Oracle}
    {c : ServerExecutionCompleted} {db : Db}
    (h : Ledger.completeServerExecution F b st ct body oracle (runOps F before Db.empty) =
      (.ok c, db)) :
    ∃ b₀, StartedIn F before b₀ ∧ b₀.agentId = b.agentId ∧ b₀.idempotencyId = b.idempotencyId ∧
      b₀.effectiveRequestSha256 = b.effectiveRequestSha256 ∧
      ∀ b' : ServerExecutionBinding, b'.agentId = b.agentId → b'.idempotencyId = b.idempotencyId →
        ∀ (i : String) (o : Oracle),
          Ledger.inspectServerExecution b' o (runOps F after db) =
              (if (o 0).fails then .error .sqliteFailure
                else .ok (if b'.Repeats b₀ then .completed c else .conflict),
                runOps F after db) ∧
            Ledger.beginServerExecution F i b' o (runOps F after db) =
              (if (o 0).fails ∨ (o 1).fails then .error .sqliteFailure
                else .ok (if b'.Repeats b₀ then .completed c else .conflict),
                runOps F after db) := by
  obtain ⟨rfl, hcomp⟩ := complete_ok h
  obtain ⟨b₀, row, hstart, hagent, hidem, heff, hdone, hret, hsame, hfind⟩ :=
    completed_found hcomp
  refine ⟨b₀, hstart, hagent, hidem, heff, ?_⟩
  intro b' ha hi i o
  have hkey : b'.key = b.key := Prod.ext ha (congrArg Uuid.text hi)
  have hout := outcomeOf_completed (b := b') hdone hret
  rw [← hfind after, ← hkey] at hout
  simp only [hsame] at hout
  refine ⟨Prod.ext ?_ (inspect_db b' o _), ?_⟩
  · rw [inspect_eq, hout]
  · exact begin_eq hout (by split_ifs <;> simp)

def sampleStart : List (LedgerOp × Oracle) := [(.begin "p1" sampleBinding, calm 1)]

def sampleCompleted : Except SqlError ServerExecutionCompleted × Db :=
  Ledger.completeServerExecution bitsText sampleBinding 200 none [0x5B, 0x5D] (calm 50)
    (runOps bitsText sampleStart Db.empty)

theorem complete_of_isOk {b : ServerExecutionBinding} {st : UInt16} {ct : Option String}
    {body : Octets} {o : Oracle} {db : Db}
    (h : (Ledger.completeServerExecution F b st ct body o db).1.isOk = true) :
    (Ledger.completeServerExecution F b st ct body o db).1 =
      .ok (completedResult F b st ct body) := by
  generalize hr : Ledger.completeServerExecution F b st ct body o db = r at h ⊢
  obtain ⟨r, db'⟩ := r
  cases r with
  | error e => exact absurd h (by simp [Except.isOk, Except.toBool])
  | ok c => rw [(complete_ok hr).1]

theorem sampleCompleted_ok : sampleCompleted =
    (.ok (completedResult bitsText sampleBinding 200 none [0x5B, 0x5D]), sampleCompleted.2) :=
  Prod.ext (complete_of_isOk (by decide +kernel)) rfl

theorem completed_replay_sample :
    ∃ b₀, StartedIn bitsText sampleStart b₀ ∧ b₀.agentId = sampleBinding.agentId ∧
      b₀.idempotencyId = sampleBinding.idempotencyId ∧
      b₀.effectiveRequestSha256 = sampleBinding.effectiveRequestSha256 ∧
      ∀ b' : ServerExecutionBinding, b'.agentId = sampleBinding.agentId →
        b'.idempotencyId = sampleBinding.idempotencyId →
        ∀ (i : String) (o : Oracle),
          Ledger.inspectServerExecution b' o (runOps bitsText sampleStart sampleCompleted.2) =
              (if (o 0).fails then .error .sqliteFailure
                else .ok (if b'.Repeats b₀ then
                  .completed (completedResult bitsText sampleBinding 200 none [0x5B, 0x5D])
                  else .conflict),
                runOps bitsText sampleStart sampleCompleted.2) ∧
            Ledger.beginServerExecution bitsText i b' o
                (runOps bitsText sampleStart sampleCompleted.2) =
              (if (o 0).fails ∨ (o 1).fails then .error .sqliteFailure
                else .ok (if b'.Repeats b₀ then
                  .completed (completedResult bitsText sampleBinding 200 none [0x5B, 0x5D])
                  else .conflict),
                runOps bitsText sampleStart sampleCompleted.2) :=
  completed_replay sampleCompleted_ok

def otherMethod : ServerExecutionBinding := { sampleBinding with method := "tools/list" }

/-- A completion is matched by key and effective digest alone, so one for
another method succeeds, and a lookup with that very binding then conflicts. -/
theorem completed_otherMethod_conflicts :
    (Ledger.completeServerExecution bitsText otherMethod 200 none [] (calm 50)
        (runOps bitsText sampleStart Db.empty)).1 =
      .ok (completedResult bitsText otherMethod 200 none []) ∧
    (Ledger.inspectServerExecution otherMethod (calm 90)
        (Ledger.completeServerExecution bitsText otherMethod 200 none [] (calm 50)
          (runOps bitsText sampleStart Db.empty)).2).1 = .ok .conflict :=
  ⟨complete_of_isOk (by decide +kernel), by decide +kernel⟩

end ClavenarLite
