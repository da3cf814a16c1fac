import ClavenarLite.Ledger.Replay
import ClavenarLite.Lib.Fallible

/-! What the operations of the ledger do when nothing disturbs them: no
statement fails, and the clock and the random generator give fresh readings. -/

namespace ClavenarLite

open Bytes Fallible Rfc3339 TextJson Transaction

/-- Nothing fails, and every reading is the same. -/
def steady (u : Uuid) (t : Clock) : Oracle := fun _ => ⟨false, u, t⟩

variable {F : FloatText} {u : Uuid} {t : Clock} {db db' : Db}

section Reaches

variable {oracle : Oracle} {n : Nat}

theorem reaches_query {β : Type} {op : Sql (Except SqlError β)}
    {exec : Db → Except SqlError (β × Db)} (hop : ∀ s, op.answer s = Sql.answer.send exec s)
    {b : β} (hf : (oracle n).fails = false) (h : exec db = .ok (b, db')) :
    Reaches Sql.answer oracle (query op) n db b (n + 1) db' := by
  show op.answer ⟨oracle, n, db⟩ = _
  rw [hop, Sql.answer.send, statement, if_neg (by simp [hf]), h]
  rfl

theorem reaches_newUuid :
    Reaches Sql.answer oracle newUuid n db (oracle n).uuid (n + 1) db := rfl

theorem reaches_utcNow : Reaches Sql.answer oracle utcNow n db (oracle n).now (n + 1) db := rfl

end Reaches

theorem succeeds_query {β : Type} {op : Sql (Except SqlError β)}
    {exec : Db → Except SqlError (β × Db)} (hop : ∀ s, op.answer s = Sql.answer.send exec s)
    {b : β} (h : exec db = .ok (b, db')) :
    Succeeds Sql.answer (steady u t) (query op) db b db' :=
  fun n => ⟨n + 1, reaches_query hop rfl h⟩

theorem succeeds_utcNow : Succeeds Sql.answer (steady u t) utcNow db t db :=
  fun n => ⟨n + 1, rfl⟩

theorem succeeds_liftExcept {α : Type} {r : Except SqlError α} {a : α} (h : r = .ok a) :
    Succeeds Sql.answer (steady u t) (liftExcept r) db a db := by
  subst h
  exact fun n => ⟨n, rfl⟩

/-- The position and predecessor that a read of the table finds. -/
def nextTip (rows : List EntryRow) : Int × String :=
  match greatestSeq rows with
  | some tip => (tip.seq + 1, tip.entryHash)
  | none => (1, genesisPrevHash)

theorem greatestSeq_none {rows : List EntryRow} (h : greatestSeq rows = none) : rows = [] :=
  List.argmax_eq_none.mp h

theorem nextTip_free {rows : List EntryRow} : ∀ r ∈ rows, r.seq ≠ (nextTip rows).1 := by
  intro r hr
  unfold nextTip
  cases hg : greatestSeq rows with
  | none => simp [greatestSeq_none hg] at hr
  | some tip =>
    have hle : r.seq ≤ tip.seq := List.le_of_mem_argmax hr hg
    simp only
    omega

theorem reaches_readTip {oracle : Oracle} {n : Nat} (hf : (oracle n).fails = false) :
    Reaches Sql.answer oracle readTip n db (nextTip db.entries) (n + 1) db := by
  unfold readTip nextTip
  cases hg : greatestSeq db.entries with
  | some tip =>
    have htip : selectTip db = .ok ((tip.seq, tip.entryHash), db) := by
      rw [selectTip, tipOf, hg]
      rfl
    have hquery : Reaches Sql.answer oracle (query .selectTip) n db (tip.seq, tip.entryHash)
        (n + 1) db := reaches_query (fun _ => rfl) hf htip
    refine Reaches.unwrapOr (Reaches.bind hquery ?_)
    exact Reaches.pure
  | none =>
    have htip : selectTip db = .error .queryReturnedNoRows := by
      rw [selectTip, tipOf, hg]
      rfl
    have hquery : (query .selectTip).run.run Sql.answer ⟨oracle, n, db⟩ =
        (.error .queryReturnedNoRows, ⟨oracle, n + 1, db⟩) := by
      show Sql.answer.send selectTip _ = _
      rw [Sql.answer.send, statement, if_neg (by simp [hf]), htip]
      rfl
    rw [Reaches, unwrapOr, ExceptT.run_mk, Interaction.Prog.run_bind, ExceptT.run_bind,
      Interaction.Prog.run_bind, hquery]
    rfl

/-- The entry that is stored for a request. -/
def entryFor (F : FloatText) (db : Db) (u : Uuid) (t : Clock) (req : LogRequest) : LedgerEntry :=
  newEntry F u t (nextTip db.entries) req

def Db.withEntry (db : Db) (row : EntryRow) : Db := { db with entries := db.entries ++ [row] }

/-- No entry has the identifier. -/
def Db.FreshId (db : Db) (u : Uuid) : Prop := ∀ r ∈ db.entries, r.id ≠ u.text

theorem reaches_append {oracle : Oracle} {n : Nat} {req : LogRequest}
    (hf : ∀ k, (oracle k).fails = false) (hu : db.FreshId (oracle (n + 1)).uuid) :
    Reaches Sql.answer oracle (appendOnConnection F req) n db
      (entryFor F db (oracle (n + 1)).uuid (oracle (n + 2)).now req) (n + 4)
      (db.withEntry ((entryFor F db (oracle (n + 1)).uuid (oracle (n + 2)).now req).row F)) := by
  unfold appendOnConnection
  refine (reaches_readTip (hf n)).bind (reaches_newUuid.bind (reaches_utcNow.bind ?_))
  refine (reaches_query (b := ()) (fun _ => rfl) (hf _) ?_).bind .pure
  unfold insertEntry
  rw [if_neg ?_]
  · rfl
  · rintro ⟨r, hr, hid | hseq⟩
    · exact hu r hr hid
    · exact nextTip_free r hr hseq

theorem succeeds_append {req : LogRequest} (hu : db.FreshId u) :
    Succeeds Sql.answer (steady u t) (appendOnConnection F req) db (entryFor F db u t req)
      (db.withEntry ((entryFor F db u t req).row F)) :=
  fun n => ⟨n + 4, reaches_append (fun _ => rfl) hu⟩

theorem Db.FreshId.withEntry {v : Uuid} {req : LogRequest} (h : db.FreshId v) (hne : u ≠ v) :
    (db.withEntry ((entryFor F db u t req).row F)).FreshId v := by
  intro r hr
  rcases List.mem_append.mp hr with hr | hr
  · exact h r hr
  · obtain rfl := List.mem_singleton.mp hr
    exact fun hid => hne (Uuid.text_injective hid)

theorem append_steady {req : LogRequest} (hu : db.FreshId u) :
    Ledger.append F req (steady u t) db =
      (.ok (entryFor F db u t req), db.withEntry ((entryFor F db u t req).row F)) :=
  (succeeds_append hu).autocommit

theorem inspect_missing_steady {b : ServerExecutionBinding} (h : db.findExecution b.key = none) :
    Ledger.inspectServerExecution b (steady u t) db = (.ok .missing, db) := by
  refine Prod.ext ?_ (inspect_db b _ db)
  rw [inspect_eq, if_neg (by simp [steady]), h]
  rfl

/-- The file after the intent has been committed. -/
def Db.begun (F : FloatText) (db : Db) (u : Uuid) (t : Clock) (i : String)
    (b : ServerExecutionBinding) : Db :=
  (db.withIntent (intentRow i b t)).withEntry
    ((entryFor F (db.withIntent (intentRow i b t)) u t (intentRequest b)).row F)

theorem begin_steady {i : String} {b : ServerExecutionBinding}
    (h : db.findExecution b.key = none)
    (hfree : ∀ r ∈ db.serverExecutions, r.executionId ≠ b.executionId.text)
    (hu : db.FreshId u) :
    Ledger.beginServerExecution F i b (steady u t) db = (.ok .started, db.begun F u t i b) := by
  have hmissing : Succeeds Sql.answer (steady u t) (inspectServerExecution b) db .missing db := by
    unfold inspectServerExecution
    refine (succeeds_query (fun _ => rfl) rfl).bind (succeeds_liftExcept ?_)
    show outcomeOf b (db.findExecution b.key) = _
    rw [h]
    rfl
  have hinsert : insertExecution (intentRow i b t) db = .ok ((), db.withIntent (intentRow i b t)) := by
    unfold insertExecution
    rw [if_neg ?_]
    · rfl
    · rintro ⟨r, hr, hkey | hid⟩
      · exact Db.findExecution_none.mp h r hr hkey
      · exact hfree r hr hid
  have hfresh : (db.withIntent (intentRow i b t)).FreshId u := hu
  have happend : Succeeds Sql.answer (steady u t) (appendOnConnection F (intentRequest b))
      (db.withIntent (intentRow i b t)) _ (db.begun F u t i b) := succeeds_append hfresh
  have hbegin : Succeeds Sql.answer (steady u t) (beginServerExecution F i b) db
      (.commit .started) (db.begun F u t i b) := by
    unfold beginServerExecution
    exact hmissing.bind (succeeds_utcNow.bind ((succeeds_query (fun _ => rfl) hinsert).bind
      (happend.bind .pure)))
  rw [Ledger.beginServerExecution, runTransaction]
  exact hbegin.transaction fun _ => rfl

/-- The file after the result has been committed. -/
def Db.completed (F : FloatText) (db : Db) (u : Uuid) (t : Clock) (b : ServerExecutionBinding)
    (st : UInt16) (ct : Option String) (body : Octets) : Db :=
  let applied := db.withCompletion (completionOf F b st ct body t)
    (completedOutboxRow F b st body t)
  applied.withEntry ((entryFor F applied u t (completedRequest F b st body)).row F)

theorem complete_steady {b : ServerExecutionBinding} {st : UInt16} {ct : Option String}
    {body : Octets}
    (hone : db.serverExecutions.countP (completionOf F b st ct body t).Matches = 1)
    (hfree : OutboxFree db (completedOutboxRow F b st body t)) (hu : db.FreshId u) :
    Ledger.completeServerExecution F b st ct body (steady u t) db =
      (.ok (completedResult F b st ct body), db.completed F u t b st ct body) := by
  have hupdate : completeExecution (completionOf F b st ct body t) db = .ok (1, { db with
      serverExecutions := db.serverExecutions.map fun r =>
        if (completionOf F b st ct body t).Matches r then (completionOf F b st ct body t).apply r
        else r }) := by
    rw [completeExecution, updateRows, hone]
  have hinsert : insertOutbox (completedOutboxRow F b st body t) { db with
      serverExecutions := db.serverExecutions.map fun r =>
        if (completionOf F b st ct body t).Matches r then (completionOf F b st ct body t).apply r
        else r } = .ok ((), db.withCompletion (completionOf F b st ct body t)
          (completedOutboxRow F b st body t)) := by
    unfold insertOutbox
    rw [if_neg ?_]
    · rfl
    · rintro ⟨r, hr, he | he⟩
      · exact (hfree r hr).1 he
      · exact (hfree r hr).2 he
  have hfresh : (db.withCompletion (completionOf F b st ct body t)
      (completedOutboxRow F b st body t)).FreshId u := hu
  have hcomplete : Succeeds Sql.answer (steady u t) (completeServerExecution F b st ct body) db
      (.commit (completedResult F b st ct body)) (db.completed F u t b st ct body) := by
    unfold completeServerExecution
    refine succeeds_utcNow.bind ((succeeds_query (fun _ => rfl) hupdate).bind ?_)
    rw [if_neg (by simp)]
    exact (succeeds_query (fun _ => rfl) hinsert).bind ((succeeds_append hfresh).bind .pure)
  rw [Ledger.completeServerExecution, runTransaction]
  exact hcomplete.transaction fun _ => rfl

theorem park_steady {req : ParkRequest}
    (h : ∀ r ∈ db.pendings, r.correlationId ≠ req.correlationId) :
    ∃ p, Ledger.parkPending F req (steady u t) db =
      (.ok p, { db with pendings := db.pendings ++ [parkedRow F req t] }) := by
  have hinsert : insertPending (parkedRow F req t) db =
      .ok ((), { db with pendings := db.pendings ++ [parkedRow F req t] }) := by
    unfold insertPending
    rw [if_neg ?_]
    rintro ⟨r, hr, hid⟩
    exact h r hr hid
  have hpark : ∃ p, Succeeds Sql.answer (steady u t) (parkPending F req) db p
      { db with pendings := db.pendings ++ [parkedRow F req t] } := by
    unfold parkPending
    exact ⟨_, succeeds_utcNow.bind ((succeeds_query (fun _ => rfl) hinsert).bind .pure)⟩
  obtain ⟨p, hpark⟩ := hpark
  exact ⟨p, hpark.autocommit⟩

theorem park_taken_steady {req : ParkRequest} {r : PendingRow} (hr : r ∈ db.pendings)
    (hid : r.correlationId = req.correlationId) :
    Ledger.parkPending F req (steady u t) db = (.error .constraintViolation, db) := by
  have hinsert : insertPending (parkedRow F req t) db = .error .constraintViolation :=
    if_pos ⟨r, hr, hid⟩
  have hquery : (query (.insertPending (parkedRow F req t))).run.run Sql.answer
      ⟨steady u t, 1, db⟩ = (.error .constraintViolation, ⟨steady u t, 2, db⟩) := by
    have hsend : (Sql.insertPending (parkedRow F req t)).answer ⟨steady u t, 1, db⟩ =
        (.error .constraintViolation, ⟨steady u t, 2, db⟩) := by
      rw [Sql.answer, Sql.answer.send, statement, if_neg (by simp [steady]), hinsert]
      rfl
    exact hsend
  have hnow : utcNow.run.run Sql.answer ⟨steady u t, 0, db⟩ = (.ok t, ⟨steady u t, 1, db⟩) := rfl
  have hrun : (parkPending F req).run.run Sql.answer ⟨steady u t, 0, db⟩ =
      (.error .constraintViolation, ⟨steady u t, 2, db⟩) := by
    unfold parkPending
    rw [ExceptT.run_bind, Interaction.Prog.run_bind, hnow]
    simp only [ExceptT.run_bind, Interaction.Prog.run_bind, hquery]
    rfl
  rw [Ledger.parkPending, runAutocommit, autocommit, hrun]

theorem getPending_steady {c : String} {found : Option PendingRow} {p : Option Pending}
    (hrow : (db.pendings.find? fun r => r.correlationId = c ∧ r.OfTenant none) = found)
    (hp : found.mapM (rowToPending F) = .ok p) :
    Ledger.getPending F c (steady u t) db = (.ok p, db) := by
  have hselect : selectPending c none db = .ok (found, db) := by rw [selectPending, hrow]
  have hget : Succeeds Sql.answer (steady u t) (getPending F c) db p db := by
    unfold getPending
    refine (succeeds_query (fun _ => rfl) hselect).bind ?_
    cases found with
    | none =>
      obtain rfl := Except.ok.inj hp
      exact .pure
    | some row =>
      obtain ⟨x, hx, hp⟩ := bind_ok hp
      obtain rfl := Except.ok.inj hp
      exact (succeeds_liftExcept hx).bind .pure
  exact hget.autocommit

theorem decide_steady {id decision : String} {tenant note : Option String} {row : PendingRow}
    {p : Pending} (hd : decision = "allow" ∨ decision = "deny")
    (hrow : (db.pendings.find? fun r => r.correlationId = id ∧ r.OfTenant tenant) = some row)
    (hp : rowToPending F row = .ok p) (hu : p.decision = none)
    (hc : db.pendings.countP (Undecided id tenant) ≠ 0) :
    (Ledger.decidePendingScoped F id tenant decision note (steady u t) db).2 = { db with
      pendings := db.pendings.map fun r => if Undecided id tenant r then
        { r with
          decidedAt := some (toRfc3339 t), decision := some decision, deciderNote := note }
        else r } := by
  have hselect : selectPending id tenant db = .ok (some row, db) := by rw [selectPending, hrow]
  have hdecide : Succeeds Sql.answer (steady u t) (decideStored F id tenant decision note) db
      (.ok { p with
        decidedAt := some t.val, decision := some decision, deciderNote := note })
      { db with pendings := db.pendings.map fun r => if Undecided id tenant r then
        { r with
          decidedAt := some (toRfc3339 t), decision := some decision, deciderNote := note }
        else r } := by
    unfold decideStored
    refine (succeeds_query (fun _ => rfl) hselect).bind ((succeeds_liftExcept hp).bind ?_)
    rw [hu]
    refine succeeds_utcNow.bind ((succeeds_query (fun _ => rfl) rfl).bind ?_)
    rw [if_neg hc]
    exact .pure
  have hvalid : ¬ (decision ≠ "allow" ∧ decision ≠ "deny") := by
    rcases hd with rfl | rfl <;> simp
  rw [Ledger.decidePendingScoped, if_neg hvalid, runAutocommit, hdecide.autocommit]

end ClavenarLite
