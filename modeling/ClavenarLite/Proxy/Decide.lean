import ClavenarLite.Ledger.Interleaving
import ClavenarLite.Lib.Threads
import ClavenarLite.Proxy.State

/-! Deciding a parked request. Statements of any number of parks and decisions
interleave on one file; a request is decided once, and its decision is entered
into the ledger at most once. -/

namespace ClavenarLite

open Bytes Interaction Rfc3339 TextJson Transaction

variable (F : FloatText)

structure DecideRequest where
  decision : String
  note : Option String

/-- `decide_pending`, without a tenant, and `decide_pending_for_tenant`. -/
def decidePendingCall (id : String) (tenant : Option String) (decision : String)
    (note : Option String) : Prog Sql (Except DecideError Pending) :=
  if decision ≠ "allow" ∧ decision ≠ "deny" then pure (.error (.invalidDecision decision))
  else (decideStored F id tenant decision note).run >>= fun result =>
    match result with
    | .ok decided => pure decided
    | .error e => pure (.error (.sqlite e))

def formatDecideReasoning (p : Pending) : String :=
  let reviews :=
    if p.reviewReasons.isEmpty then "no review reasons" else " | ".intercalate p.reviewReasons
  let note := ((p.deciderNote.filter (!·.isEmpty)).map (" | note: " ++ ·)).getD ""
  "decide[" ++ p.decision.getD "?" ++ "] review: " ++ reviews ++ note

def decideIntent (p : Pending) : String :=
  if p.decision = some "allow" then "PendingApproved" else "PendingDenied"

def decideLogRequest (decided : Pending) : LogRequest where
  agentId := decided.agentId
  method := decided.method
  intentCategory := decideIntent decided
  authorized := decided.decision = some "allow"
  reasoning := formatDecideReasoning decided
  policyDecision := none
  correlationId := some decided.correlationId

def decideEvent (state : AppState) (decided : Pending) (ts : Clock) : WebhookEvent where
  event := if decided.decision = some "allow" then .decideAllow else .decideDeny
  correlationId := decided.correlationId
  agentId := decided.agentId
  toolType := decided.toolType
  method := decided.method
  intentCategory := "OperatorDecide"
  reasoning := formatDecideReasoning decided
  reviewReasons := decided.reviewReasons
  mode := state.mode
  ts := ts

def decideCallback (state : AppState) (decided : Pending) : List Notification :=
  decided.callbackUrl.toList.map fun url => .callback url state.callbackAllowlist
    { correlationId := decided.correlationId
      decision := decided.decision.getD ""
      deciderNote := decided.deciderNote
      decidedAt := decided.decidedAt.map toRfc3339 }

/-- The status and text of a refused decision. -/
def DecideError.answer (X : LibraryTexts) (id : String) : DecideError → UInt16 × String
  | .notFound => (404, "no pending with correlation_id " ++ id)
  | .alreadyDecided => (409, "pending already decided")
  | .invalidDecision d =>
    (400, "invalid decision " ++ X.debug d ++ ": expected \"allow\" or \"deny\"")
  | .sqlite _ => (500, "internal ledger error")

abbrev Reply := Response × List Notification

/-- The decision is durable when the ledger entry is appended, so a failed
append is not reported. -/
def recordDecision (state : AppState) (decideCorr : String) (decided : Pending) :
    Prog Sql Reply :=
  (appendOnConnection F (decideLogRequest decided)).run >>= fun _ =>
    Prog.perform .utcNow >>= fun ts =>
      pure (plainResponse 200 decideCorr state.mode (.json (pendingView decided)),
        maybeFireWebhook state (decideEvent state decided ts) ++ decideCallback state decided)

variable (X : LibraryTexts) (readBody : Octets → Except String DecideRequest)

def handleDecidePending (state : AppState) (id : String) (headers : HeaderMap) (body : Octets) :
    Prog Sql Reply :=
  Prog.perform .newUuid >>= fun decideCorr =>
    match resolveOperatorTenant state.deciders state.decideToken headers with
    | .error message => pure (plainResponse 401 decideCorr.text state.mode (.text message), [])
    | .ok tenant =>
      match readBody body with
      | .error e =>
        pure (plainResponse 400 decideCorr.text state.mode
          (.text ("invalid decision body: " ++ e)), [])
      | .ok req =>
        decidePendingCall F id tenant req.decision req.note >>= fun decision =>
          match decision with
          | .ok decided => recordDecision F state decideCorr.text decided
          | .error e =>
            pure (plainResponse (e.answer X id).1 decideCorr.text state.mode
              (.text (e.answer X id).2), [])

inductive PendingJob
  | park (req : ParkRequest)
  | decide (id : String) (tenant : Option String) (decision : String) (note : Option String)
  | route (state : AppState) (id : String) (headers : HeaderMap) (body : Octets)

inductive PendingResult
  | parked (r : Except SqlError Pending)
  | decided (r : Except DecideError Pending)
  | answered (r : Reply)

def PendingJob.program : PendingJob → Prog Sql PendingResult
  | .park req => (parkPending F req).run >>= fun r => pure (.parked r)
  | .decide id tenant decision note =>
    decidePendingCall F id tenant decision note >>= fun r => pure (.decided r)
  | .route state id headers body =>
    handleDecidePending F X readBody state id headers body >>= fun r => pure (.answered r)

def PendingResult.Failed : PendingResult → Prop
  | .parked r => r.toOption = none
  | .decided r => r.toOption = none
  | .answered r => r.1.status ≠ 200

/-- One statement, committed by itself. -/
def SqlPerforms {β : Type} (op : Sql β) (db : Db) (b : β) (db' : Db) : Prop :=
  ∃ s s' : Session StepEnv Db, s.view = db ∧ s'.view = db' ∧ op.answer s = (b, s')

def isDecisionIntent (intent : String) : Bool :=
  intent == "PendingApproved" || intent == "PendingDenied"

/-- What other calls commit meanwhile: no pending, and no entry of a decision. -/
def Elsewhere (db db' : Db) : Prop :=
  db'.pendings = db.pendings ∧ ∃ rows, db'.entries = db.entries ++ rows ∧
    ∀ r ∈ rows, isDecisionIntent r.intentCategory = false

def pendingRules : Rules Sql Db PendingJob PendingResult where
  program := PendingJob.program F X readBody
  performs := SqlPerforms
  outside := Elsewhere

/-- The columns a decision leaves alone. -/
def PendingRow.SameRequest (r r' : PendingRow) : Prop :=
  r' = { r with decidedAt := r'.decidedAt, decision := r'.decision, deciderNote := r'.deciderNote }

/-- Every row is still there, and a decided one is as it was. -/
def PendingsGrow (db db' : Db) : Prop :=
  ∀ r ∈ db.pendings, ∃ r' ∈ db'.pendings, r.SameRequest r' ∧ (r.decidedAt.isSome → r' = r)

def EntryRow.Decides (id : String) (e : EntryRow) : Prop :=
  isDecisionIntent e.intentCategory = true ∧ e.correlationId = some id

instance (id : String) (e : EntryRow) : Decidable (e.Decides id) := by
  unfold EntryRow.Decides
  infer_instance

/-- The entry reports the decision stored in the row. -/
def EntryRow.Reports (e : EntryRow) (r : PendingRow) : Prop :=
  ∃ p id now tip, rowToPending F r = .ok p ∧ r.decidedAt.isSome ∧
    e = (newEntry F id now tip (decideLogRequest p)).row F

/-- Rows with distinct keys, decided as a whole or not at all. -/
structure PendingsSound (db : Db) : Prop where
  distinct : (db.pendings.map PendingRow.correlationId).Nodup
  stamped : ∀ r ∈ db.pendings, r.decision.isSome ↔ r.decidedAt.isSome
  values : ∀ r ∈ db.pendings, ∀ d ∈ r.decision, d = "allow" ∨ d = "deny"

/-- A decision has at most one entry, which reports what is stored. -/
structure PendingsKept (db : Db) : Prop extends PendingsSound db where
  once : ∀ id, db.entries.countP (EntryRow.Decides id) ≤ 1
  reported : ∀ id, ∀ e ∈ db.entries, e.Decides id →
    ∃ r ∈ db.pendings, r.correlationId = id ∧ e.Reports F r

variable {F X readBody}

theorem PendingRow.SameRequest.refl (r : PendingRow) : r.SameRequest r := rfl

theorem PendingRow.SameRequest.trans {r r' r'' : PendingRow} (h : r.SameRequest r')
    (h' : r'.SameRequest r'') : r.SameRequest r'' := by
  unfold PendingRow.SameRequest at h h' ⊢
  rw [h', h]

theorem PendingRow.SameRequest.id {r r' : PendingRow} (h : r.SameRequest r') :
    r'.correlationId = r.correlationId := by
  rw [h]

theorem PendingsGrow.refl (db : Db) : PendingsGrow db db :=
  fun r hr => ⟨r, hr, .refl r, fun _ => rfl⟩

theorem PendingsGrow.trans {db db' db'' : Db} (h : PendingsGrow db db')
    (h' : PendingsGrow db' db'') : PendingsGrow db db'' := by
  intro r hr
  obtain ⟨r', hr', hs, hd⟩ := h r hr
  obtain ⟨r'', hr'', hs', hd'⟩ := h' r' hr'
  refine ⟨r'', hr'', hs.trans hs', fun hdec => ?_⟩
  obtain rfl := hd hdec
  exact hd' hdec

/-- The row with an operator's decision. -/
def PendingRow.decided (decidedAt decision : String) (note : Option String) (r : PendingRow) :
    PendingRow :=
  { r with decidedAt := some decidedAt, decision := some decision, deciderNote := note }

def pendingsAfter : Call Sql → List PendingRow → List PendingRow
  | ⟨.insertPending row, .ok _⟩, rows => rows ++ [row]
  | ⟨.updatePending c t at' d n, .ok _⟩, rows =>
    rows.map fun r => if Undecided c t r then r.decided at' d n else r
  | _, rows => rows

def entriesAfter : Call Sql → List EntryRow → List EntryRow
  | ⟨.insertEntry row, .ok _⟩, rows => rows ++ [row]
  | _, rows => rows

/-- What a successful answer says about the rows it was read from. -/
def AnswersTo : Call Sql → Db → Prop
  | ⟨.insertPending row, .ok _⟩, db => ∀ r ∈ db.pendings, r.correlationId ≠ row.correlationId
  | ⟨.updatePending c t _ _ _, .ok changed⟩, db => changed = db.pendings.countP (Undecided c t)
  | ⟨.selectPending c t, .ok found⟩, db =>
    found = db.pendings.find? fun r => r.correlationId = c ∧ r.OfTenant t
  | _, _ => True

theorem performs_statement {β : Type} {op : Sql (Except SqlError β)}
    {exec : Db → Except SqlError (β × Db)} (hop : ∀ s, op.answer s = Sql.answer.send exec s)
    {db db' : Db} {b : Except SqlError β} (h : SqlPerforms op db b db') :
    ((∃ e, b = .error e) ∧ db' = db) ∨ ∃ a, b = .ok a ∧ exec db = .ok (a, db') := by
  obtain ⟨s, s', rfl, rfl, he⟩ := h
  rw [hop] at he
  cases b with
  | error e => exact Or.inl ⟨⟨e, rfl⟩, statement_error he⟩
  | ok a => exact Or.inr ⟨a, rfl, statement_ok he⟩

/-- A statement on the other tables. -/
theorem performs_frame {β : Type} {op : Sql (Except SqlError β)}
    {exec : Db → Except SqlError (β × Db)} (hop : ∀ s, op.answer s = Sql.answer.send exec s)
    (hexec : ∀ db a db', exec db = .ok (a, db') →
      db'.pendings = db.pendings ∧ db'.entries = db.entries)
    {db db' : Db} {b : Except SqlError β} (h : SqlPerforms op db b db') :
    db'.pendings = db.pendings ∧ db'.entries = db.entries := by
  rcases performs_statement hop h with ⟨_, rfl⟩ | ⟨a, _, he⟩
  · exact ⟨rfl, rfl⟩
  · exact hexec _ _ _ he

/-- Everything a statement does to pendings and entries. -/
theorem SqlPerforms.after {β : Type} {op : Sql β} {db db' : Db} {b : β}
    (h : SqlPerforms op db b db') :
    db'.pendings = pendingsAfter ⟨op, b⟩ db.pendings ∧
      db'.entries = entriesAfter ⟨op, b⟩ db.entries ∧ AnswersTo ⟨op, b⟩ db := by
  cases op with
  | newUuid =>
    obtain ⟨s, s', rfl, rfl, he⟩ := h
    obtain rfl := (Prod.mk.inj he).2
    exact ⟨rfl, rfl, trivial⟩
  | utcNow =>
    obtain ⟨s, s', rfl, rfl, he⟩ := h
    obtain rfl := (Prod.mk.inj he).2
    exact ⟨rfl, rfl, trivial⟩
  | selectTip =>
    have hf := performs_frame (fun _ => rfl) (fun db a db' he => by
      unfold ClavenarLite.selectTip at he
      cases ht : tipOf db.entries with
      | error e => simp [ht, Except.map] at he
      | ok tip =>
        rw [ht] at he
        obtain rfl := (Prod.mk.inj (Except.ok.inj he)).2
        exact ⟨rfl, rfl⟩) h
    exact ⟨hf.1, hf.2, trivial⟩
  | insertEntry row =>
    rcases performs_statement (fun _ => rfl) h with ⟨⟨e, rfl⟩, rfl⟩ | ⟨a, rfl, he⟩
    · exact ⟨rfl, rfl, trivial⟩
    · unfold ClavenarLite.insertEntry at he
      split_ifs at he
      obtain rfl := (Prod.mk.inj (Except.ok.inj he)).2
      exact ⟨rfl, rfl, trivial⟩
  | selectExecution a i =>
    have hf := performs_frame (fun _ => rfl) (fun db a db' he => by
      obtain rfl := (Prod.mk.inj (Except.ok.inj he)).2
      exact ⟨rfl, rfl⟩) h
    exact ⟨hf.1, hf.2, trivial⟩
  | insertExecution row =>
    have hf := performs_frame (fun _ => rfl) (fun db a db' he => by
      unfold ClavenarLite.insertExecution at he
      split_ifs at he
      obtain rfl := (Prod.mk.inj (Except.ok.inj he)).2
      exact ⟨rfl, rfl⟩) h
    exact ⟨hf.1, hf.2, trivial⟩
  | completeExecution c =>
    have hf := performs_frame (fun _ => rfl) (fun db a db' he => by
      obtain rfl := (Prod.mk.inj (Except.ok.inj he)).2
      exact ⟨rfl, rfl⟩) h
    exact ⟨hf.1, hf.2, trivial⟩
  | selectAbandoned c i =>
    have hf := performs_frame (fun _ => rfl) (fun db a db' he => by
      obtain rfl := (Prod.mk.inj (Except.ok.inj he)).2
      exact ⟨rfl, rfl⟩) h
    exact ⟨hf.1, hf.2, trivial⟩
  | markUncertain e n =>
    have hf := performs_frame (fun _ => rfl) (fun db a db' he => by
      obtain rfl := (Prod.mk.inj (Except.ok.inj he)).2
      exact ⟨rfl, rfl⟩) h
    exact ⟨hf.1, hf.2, trivial⟩
  | insertOutbox row =>
    have hf := performs_frame (fun _ => rfl) (fun db a db' he => by
      unfold ClavenarLite.insertOutbox at he
      split_ifs at he
      obtain rfl := (Prod.mk.inj (Except.ok.inj he)).2
      exact ⟨rfl, rfl⟩) h
    exact ⟨hf.1, hf.2, trivial⟩
  | insertPending row =>
    rcases performs_statement (fun _ => rfl) h with ⟨⟨e, rfl⟩, rfl⟩ | ⟨a, rfl, he⟩
    · exact ⟨rfl, rfl, trivial⟩
    · unfold ClavenarLite.insertPending at he
      split_ifs at he with hc
      obtain rfl := (Prod.mk.inj (Except.ok.inj he)).2
      exact ⟨rfl, rfl, fun r hr heq => hc ⟨r, hr, heq⟩⟩
  | selectPending c t =>
    rcases performs_statement (fun _ => rfl) h with ⟨⟨e, rfl⟩, rfl⟩ | ⟨a, rfl, he⟩
    · exact ⟨rfl, rfl, trivial⟩
    · obtain ⟨rfl, rfl⟩ := Prod.mk.inj (Except.ok.inj he)
      exact ⟨rfl, rfl, rfl⟩
  | selectPendingForAgent c t a =>
    have hf := performs_frame (fun _ => rfl) (fun db a db' he => by
      obtain rfl := (Prod.mk.inj (Except.ok.inj he)).2
      exact ⟨rfl, rfl⟩) h
    exact ⟨hf.1, hf.2, trivial⟩
  | updatePending c t d x n =>
    rcases performs_statement (fun _ => rfl) h with ⟨⟨e, rfl⟩, rfl⟩ | ⟨a, rfl, he⟩
    · exact ⟨rfl, rfl, trivial⟩
    · obtain ⟨rfl, rfl⟩ := Prod.mk.inj (Except.ok.inj he)
      exact ⟨rfl, rfl, rfl⟩

variable (F) in
/-- What follows the read of a decision. -/
def decideFound (id : String) (tenant : Option String) (decision : String) (note : Option String) :
    Except SqlError (Option PendingRow) → Prog Sql (Except SqlError (Except DecideError Pending))
  | .error e => .pure (.error e)
  | .ok none => .pure (.ok (.error .notFound))
  | .ok (some row) =>
    match rowToPending F row with
    | .error e => .pure (.error e)
    | .ok p =>
      if p.decision.isSome then .pure (.ok (.error .alreadyDecided))
      else
        .call .utcNow fun now => .call (.updatePending id tenant (toRfc3339 now) decision note)
          fun changed => match changed with
            | .error e => .pure (.error e)
            | .ok changed =>
              if changed = 0 then .pure (.ok (.error .alreadyDecided))
              else .pure (.ok (.ok { p with
                decidedAt := some now.val, decision := some decision, deciderNote := note }))

theorem decideStored_run (id : String) (tenant : Option String) (decision : String)
    (note : Option String) : (decideStored F id tenant decision note).run =
      .call (.selectPending id tenant) (decideFound F id tenant decision note) := by
  refine congrArg (Prog.call _) (funext fun found => ?_)
  cases found with
  | error e => rfl
  | ok found =>
    cases found with
    | none => rfl
    | some row =>
      simp only [decideFound]
      change (liftExcept (rowToPending F row) >>= fun pending =>
        if pending.decision.isSome then pure (.error .alreadyDecided)
        else utcNow >>= fun now =>
          query (.updatePending id tenant (toRfc3339 now.val) decision note) >>= fun changed =>
            if changed = 0 then pure (.error .alreadyDecided)
            else pure (.ok { pending with
              decidedAt := some now.val, decision := some decision, deciderNote := note }) :
          LedgerM (Except DecideError Pending)).run = _
      generalize rowToPending F row = parsed
      cases parsed with
      | error e => rfl
      | ok p =>
        change (if p.decision.isSome then pure (.error .alreadyDecided) else _ :
          LedgerM (Except DecideError Pending)).run = if p.decision.isSome = true then _ else _
        by_cases hd : p.decision.isSome = true
        · rw [if_pos hd, if_pos hd]
          rfl
        · rw [if_neg hd, if_neg hd]
          refine congrArg (Prog.call _) (funext fun now => congrArg (Prog.call _)
            (funext fun changed => ?_))
          cases changed with
          | error e => rfl
          | ok changed =>
            change (if changed = 0 then pure (.error .alreadyDecided) else _ :
              LedgerM (Except DecideError Pending)).run = if changed = 0 then _ else _
            by_cases hz : changed = 0
            · rw [if_pos hz, if_pos hz]
              rfl
            · rw [if_neg hz, if_neg hz]
              rfl

def isEntry : Call Sql → Bool
  | ⟨.insertEntry _, _⟩ => true
  | _ => false

variable (F) in
/-- These calls have stored the decision. -/
def HasDecided (calls : List (Call Sql)) (decided : Pending) : Prop :=
  ∃ c t d n row p, ∃ now : Clock, ∃ changed : Nat, changed ≠ 0 ∧
    ⟨.updatePending c t (toRfc3339 now.val) d n, .ok changed⟩ ∈ calls ∧
    ⟨.selectPending c t, .ok (some row)⟩ ∈ calls ∧ rowToPending F row = .ok p ∧
    decided = { p with decidedAt := some now.val, decision := some d, deciderNote := n }

theorem HasDecided.mono {calls calls' : List (Call Sql)} {decided : Pending}
    (h : HasDecided F calls decided) (hsub : ∀ call ∈ calls, call ∈ calls') :
    HasDecided F calls' decided := by
  obtain ⟨c, t, d, n, row, p, now, changed, hz, hu, hs, hrow, hdec⟩ := h
  exact ⟨c, t, d, n, row, p, now, changed, hz, hsub _ hu, hsub _ hs, hrow, hdec⟩

variable (F) in
/-- Parked rows are undecided, only the two decisions are stored, and an entry
is made once, for the decision stored before. -/
def PendingRule : List (Call Sql) → ∀ {δ : Type}, Sql δ → Prop
  | _, _, .insertPending row => row.decidedAt = none ∧ row.decision = none
  | _, _, .updatePending _ _ _ d _ => d = "allow" ∨ d = "deny"
  | before, _, .insertEntry e => (∀ call ∈ before, isEntry call = false) ∧
      ∃ decided id now tip, HasDecided F before decided ∧
        e = (newEntry F id now tip (decideLogRequest decided)).row F
  | _, _, _ => True

theorem decideFound_obeys {id decision : String} {tenant note : Option String}
    (hd : decision = "allow" ∨ decision = "deny") (found : Except SqlError (Option PendingRow))
    (before : List (Call Sql)) :
    Prog.Obeys (PendingRule F) before (decideFound F id tenant decision note found) := by
  cases found with
  | error e => trivial
  | ok found =>
    cases found with
    | none => trivial
    | some row =>
      simp only [decideFound]
      cases rowToPending F row with
      | error e => trivial
      | ok p =>
        by_cases hp : p.decision.isSome = true
        · simp only [if_pos hp]
          trivial
        · simp only [if_neg hp]
          refine ⟨trivial, fun now => ⟨hd, fun changed => ?_⟩⟩
          cases changed with
          | error e => trivial
          | ok changed =>
            by_cases hz : changed = 0
            · simp only [if_pos hz]
              trivial
            · simp only [if_neg hz]
              trivial

/-- A decision that succeeds has stored what it returns. -/
theorem decideFound_trace {id decision : String} {tenant note : Option String}
    {found : Except SqlError (Option PendingRow)} {calls : List (Call Sql)} {decided : Pending}
    (ht : Prog.Trace (decideFound F id tenant decision note found) calls
      (.pure (.ok (.ok decided)))) :
    ∃ row p, ∃ now : Clock, ∃ changed : Nat, found = .ok (some row) ∧
      rowToPending F row = .ok p ∧ changed ≠ 0 ∧
      calls = [⟨.utcNow, now⟩,
        ⟨.updatePending id tenant (toRfc3339 now.val) decision note, .ok changed⟩] ∧
      decided = { p with
        decidedAt := some now.val, decision := some decision, deciderNote := note } := by
  cases found with
  | error e => simp [decideFound] at ht
  | ok found =>
    cases found with
    | none => simp [decideFound] at ht
    | some row =>
      simp only [decideFound] at ht
      cases hrow : rowToPending F row with
      | error e => simp [hrow] at ht
      | ok p =>
        rw [hrow] at ht
        by_cases hp : p.decision.isSome = true
        · simp [if_pos hp] at ht
        · simp only [if_neg hp] at ht
          obtain ⟨now, rest, rfl, hrest⟩ := Prog.trace_call.mp ht
          obtain ⟨changed, last, rfl, hlast⟩ := Prog.trace_call.mp hrest
          cases changed with
          | error e => simp at hlast
          | ok changed =>
            by_cases hz : changed = 0
            · simp [if_pos hz] at hlast
            · simp only [if_neg hz] at hlast
              obtain ⟨rfl, he⟩ := Prog.trace_pure.mp hlast
              obtain rfl := Except.ok.inj (Except.ok.inj (Prog.pure.inj he))
              exact ⟨row, p, now, changed, rfl, hrow, hz, rfl, rfl⟩

theorem decidePendingCall_obeys (id decision : String) (tenant note : Option String)
    (before : List (Call Sql)) :
    Prog.Obeys (PendingRule F) before (decidePendingCall F id tenant decision note) := by
  unfold decidePendingCall
  by_cases hd : decision ≠ "allow" ∧ decision ≠ "deny"
  · rw [if_pos hd]
    trivial
  · rw [if_neg hd, decideStored_run]
    have hvalid : decision = "allow" ∨ decision = "deny" := by tauto
    refine Prog.Obeys.bind ⟨trivial, fun found => decideFound_obeys hvalid found _⟩ ?_
    intro result calls _
    cases result <;> trivial

theorem decidePendingCall_trace {id decision : String} {tenant note : Option String}
    {calls : List (Call Sql)} {decided : Pending}
    (ht : Prog.Trace (decidePendingCall F id tenant decision note) calls (.pure (.ok decided))) :
    HasDecided F calls decided ∧ ∀ call ∈ calls, isEntry call = false := by
  unfold decidePendingCall at ht
  by_cases hd : decision ≠ "allow" ∧ decision ≠ "deny"
  · simp [if_pos hd] at ht
  · rw [if_neg hd, decideStored_run] at ht
    obtain ⟨result, first, last, rfl, hfirst, hlast⟩ := Prog.trace_bind.mp ht
    cases result with
    | error e => simp at hlast
    | ok result =>
      obtain ⟨rfl, he⟩ := Prog.trace_pure.mp hlast
      obtain rfl := Prog.pure.inj he
      obtain ⟨found, rest, rfl, hrest⟩ := Prog.trace_call.mp hfirst
      obtain ⟨row, p, now, changed, rfl, hrow, hz, rfl, rfl⟩ := decideFound_trace hrest
      refine ⟨⟨id, tenant, decision, note, row, p, now, changed, hz, ?_, ?_, hrow, rfl⟩, ?_⟩
      · simp
      · simp
      · simp [isEntry]

theorem recordDecision_obeys (state : AppState) (decideCorr : String) {decided : Pending}
    {before : List (Call Sql)} (hd : HasDecided F before decided)
    (he : ∀ call ∈ before, isEntry call = false) :
    Prog.Obeys (PendingRule F) before (recordDecision F state decideCorr decided) := by
  unfold recordDecision
  rw [appendOnConnection_run]
  refine Prog.Obeys.bind ?_ fun _ _ _ => ⟨trivial, fun _ => trivial⟩
  refine ⟨trivial, fun tip => ⟨trivial, fun eid => ⟨trivial, fun now => ⟨⟨?_, ?_⟩, fun _ => trivial⟩⟩⟩⟩
  · intro call hc
    simp only [List.append_assoc, List.mem_append, List.cons_append,
      List.nil_append, List.mem_cons, List.not_mem_nil, or_false] at hc
    rcases hc with hc | rfl | rfl | rfl
    · exact he call hc
    · rfl
    · rfl
    · rfl
  · exact ⟨decided, eid, now, tipOfAnswer tip, hd.mono fun call hc => by simp [hc], rfl⟩

theorem program_obeys (job : PendingJob) :
    Prog.Obeys (PendingRule F) [] (job.program F X readBody) := by
  cases job with
  | park req =>
    refine Prog.Obeys.bind ?_ fun _ _ _ => trivial
    exact ⟨trivial, fun now => ⟨⟨rfl, rfl⟩, fun r => by cases r <;> trivial⟩⟩
  | decide id tenant decision note =>
    exact (decidePendingCall_obeys id decision tenant note []).bind fun _ _ _ => trivial
  | route state id headers body =>
    refine Prog.Obeys.bind ⟨trivial, fun decideCorr => ?_⟩ fun _ _ _ => trivial
    cases resolveOperatorTenant state.deciders state.decideToken headers with
    | error message => trivial
    | ok tenant =>
      cases readBody body with
      | error e => trivial
      | ok req =>
        refine (decidePendingCall_obeys id req.decision tenant req.note _).bind ?_
        intro decision calls ht
        cases decision with
        | error e => trivial
        | ok decided =>
          obtain ⟨hd, he⟩ := decidePendingCall_trace ht
          refine recordDecision_obeys state _ ?_ ?_
          · exact hd.mono fun call hc => List.mem_append_right _ hc
          · intro call hc
            rcases List.mem_append.mp hc with hc | hc
            · obtain rfl := List.mem_singleton.mp hc
              rfl
            · exact he call hc

end ClavenarLite
