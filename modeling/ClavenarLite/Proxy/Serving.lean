import ClavenarLite.Ledger.Replay
import ClavenarLite.Proxy.Decisions
import ClavenarLite.Proxy.History
import ClavenarLite.Proxy.Policy
import ClavenarLite.Proxy.SupplyChain

/-! Any number of processes that serve `/mcp` on one ledger file. Requests
interleave operation by operation, a request may be cut off at any point, and
operators, reconcilers and restarts come in between. -/

namespace ClavenarLite

open Bytes Interaction Rfc3339 TextJson Transaction

/-- What a process keeps in its memory. -/
structure Memory where
  limiter : RateLimiter
  velocity : VelocityTracker
  pins : ToolPinStore

/-- The ledger file, the memories by instance id, and what was sent upstream. -/
structure World where
  db : Db
  memory : String → Memory
  sent : List Octets

def World.remember (w : World) (i : String) (m : Memory) : World :=
  { w with memory := Function.update w.memory i m }

/-- A call of the ledger, with the failures of its surroundings. -/
def LedgerCall {β : Type} (f : Oracle → Db → β × Db) (w : World) (b : β) (w' : World) : Prop :=
  ∃ oracle db, f oracle w.db = (b, db) ∧ w' = { w with db := db }

variable (L : Libraries)

/-- The operation may answer `b` and leave the world `w'`. -/
def McpPerforms : {β : Type} → McpOp β → World → β → World → Prop
  | _, .newV4, w, _, w' => w' = w
  | _, .utcNow, w, _, w' => w' = w
  | _, .checkRate i key, w, b, w' => ∃ now limiter,
      RateLimiter.check ⟨now, key⟩ (w.memory i).limiter = (b, limiter) ∧
        w' = w.remember i { w.memory i with limiter }
  | _, .append req, w, b, w' => LedgerCall (Ledger.append L.floats req) w b w'
  | _, .inspectServerExecution bd, w, b, w' => LedgerCall (Ledger.inspectServerExecution bd) w b w'
  | _, .evaluate i input, w, b, w' => ∃ serialize worker now velocity,
      evaluate serialize worker now input (w.memory i).velocity = (b, velocity) ∧
        w' = w.remember i { w.memory i with velocity }
  | _, .getPending c, w, b, w' => LedgerCall (Ledger.getPending L.floats c) w b w'
  | _, .parkPending req, w, b, w' => LedgerCall (Ledger.parkPending L.floats req) w b w'
  | _, .beginServerExecution i bd, w, b, w' =>
      LedgerCall (Ledger.beginServerExecution L.floats i bd) w b w'
  | _, .send body, w, _, w' => w' = { w with sent := w.sent ++ [body] }
  | _, .completeServerExecution bd status contentType body, w, b, w' =>
      LedgerCall (Ledger.completeServerExecution L.floats bd status contentType body) w b w'
  | _, .pinCatalog i key agentId body, w, b, w' => ∃ pins,
      pinOrDiff L.floats key agentId body (w.memory i).pins = (b, pins) ∧
        w' = w.remember i { w.memory i with pins }

variable {L}

/-- What happens between the operations of requests. -/
inductive Outside (F : FloatText) (w : World) : World → Prop
  | reconcile (i : String) (now : Clock) (oracle : Oracle) :
      Outside F w { w with db := (Ledger.reconcileServerExecutionsAt F i now oracle w.db).2 }
  | decide (id : String) (tenant : Option String) (decision : String) (note : Option String)
      (oracle : Oracle) :
      Outside F w { w with
        db := (Ledger.decidePendingScoped F id tenant decision note oracle w.db).2 }
  | record (decided : Pending) (oracle : Oracle) :
      Outside F w { w with db := (Ledger.append F (decideLogRequest decided) oracle w.db).2 }
  | restart (i : String) (m : Memory) : Outside F w (w.remember i m)

def mcpRules (L : Libraries) : Rules McpOp World McpJob Ended where
  program := McpJob.program L
  performs := McpPerforms L
  outside := Outside L.floats

/-- What a thread had done when it made a call. -/
theorem rule_of_follows {t : Thread McpOp McpJob Ended} (hf : t.Follows (mcpRules L))
    {before after : McpCalls} {made : Call McpOp} (h : t.calls = before ++ made :: after) :
    McpRule L t.job before made.op := by
  have hobeys : Prog.Obeys (McpRule L t.job) [] ((mcpRules L).program t.job) := handleMcp_obeys
  exact hobeys.rule_of_trace hf h

/-- The lookup of a pending, whichever tenant it is of. -/
def Db.findPending (db : Db) (id : String) : Option PendingRow :=
  db.pendings.find? fun r => r.correlationId = id

variable (F : FloatText)

/-- What the answer of a call says about the file before and after it. -/
def Writes : Call McpOp → Db → Db → Prop
  | ⟨.append req, .ok e⟩, db, db' => Results (appendOnConnection F req) db e db'
  | ⟨.inspectServerExecution b, .ok outcome⟩, db, db' =>
    db' = db ∧ outcomeOf b (db.findExecution b.key) = .ok outcome
  | ⟨.getPending c, .ok found⟩, db, db' =>
    db' = db ∧ (db.findPending c).mapM (rowToPending F) = .ok found
  | ⟨.parkPending req, .ok _⟩, db, db' => db.findPending req.correlationId = none ∧
    ∃ now, db' = { db with pendings := db.pendings ++ [parkedRow F req now] }
  | ⟨.beginServerExecution i b, .ok outcome⟩, db, db' =>
    (outcome ≠ .started ∧ db' = db ∧ outcomeOf b (db.findExecution b.key) = .ok outcome) ∨
      (outcome = .started ∧ Begins F i b db db')
  | ⟨.completeServerExecution b status contentType body, .ok _⟩, db, db' =>
    Completes F b status contentType body db db'
  | _, db, db' => db' = db

variable {F}

theorem Db.findPending_none {db : Db} {id : String} :
    db.findPending id = none ↔ ∀ r ∈ db.pendings, r.correlationId ≠ id := by
  simp [Db.findPending]

theorem Db.findPending_some {db : Db} {id : String} {r : PendingRow}
    (h : db.findPending id = some r) : r ∈ db.pendings ∧ r.correlationId = id :=
  ⟨List.mem_of_find?_eq_some h, by simpa using List.find?_some h⟩

theorem findPending_selected {db : Db} {id : String} :
    (db.pendings.find? fun r => r.correlationId = id ∧ r.OfTenant none) = db.findPending id := by
  simp [Db.findPending, PendingRow.OfTenant]

theorem getPending_result {c : String} {oracle : Oracle} {db db' : Db}
    {r : Except SqlError (Option Pending)} (h : Ledger.getPending F c oracle db = (r, db')) :
    db' = db ∧ ∀ found, r = .ok found → (db.findPending c).mapM (rowToPending F) = .ok found := by
  cases r with
  | error e =>
    refine ⟨?_, fun _ he => absurd he (by simp)⟩
    rcases (autocommit_error h).bind with hq | ⟨row, db₁, hq, hf⟩
    · exact fails_query (fun _ => rfl) hq
    · obtain ⟨_, rfl⟩ := results_selectPending hq
      cases row with
      | none => exact hf.pure.elim
      | some row =>
        rcases hf.bind with hf | ⟨_, _, _, hf⟩
        · exact fails_liftExcept hf
        · exact hf.pure.elim
  | ok found =>
    obtain ⟨row, db₁, hq, hr⟩ := (autocommit_ok h).bind
    obtain ⟨hrow, rfl⟩ := results_selectPending hq
    rw [findPending_selected] at hrow
    refine ⟨?_, fun found' he => ?_⟩
    · cases row with
      | none => exact hr.pure.2
      | some row =>
        obtain ⟨p, db₂, hl, hp⟩ := hr.bind
        obtain ⟨_, rfl⟩ := results_liftExcept hl
        exact hp.pure.2
    · obtain rfl := Except.ok.inj he
      rw [← hrow]
      cases row with
      | none =>
        obtain ⟨rfl, _⟩ := hr.pure
        rfl
      | some row =>
        obtain ⟨p, db₂, hl, hp⟩ := hr.bind
        obtain ⟨hp', rfl⟩ := results_liftExcept hl
        obtain ⟨rfl, _⟩ := hp.pure
        simp only [Option.mapM_some, hp']
        rfl

theorem parkPending_error {req : ParkRequest} {oracle : Oracle} {db db' : Db} {e : SqlError}
    (h : Ledger.parkPending F req oracle db = (.error e, db')) : db' = db := by
  rcases (autocommit_error h).bind with hf | ⟨now, db₁, ht, hf⟩
  · exact (Fails.lift hf).elim
  · obtain rfl := results_utcNow ht
    rcases hf.bind with hf | ⟨_, _, _, hf⟩
    · exact fails_query (fun _ => rfl) hf
    · exact hf.pure.elim

theorem parkPending_ok {req : ParkRequest} {oracle : Oracle} {db db' : Db} {p : Pending}
    (h : Ledger.parkPending F req oracle db = (.ok p, db')) :
    db.findPending req.correlationId = none ∧
      ∃ now, db' = { db with pendings := db.pendings ++ [parkedRow F req now] } := by
  obtain ⟨now, db₁, ht, hr⟩ := (autocommit_ok h).bind
  obtain rfl := results_utcNow ht
  obtain ⟨_, db₂, hq, hr⟩ := hr.bind
  obtain ⟨hfree, rfl⟩ := results_insertPending hq
  obtain ⟨_, rfl⟩ := hr.pure
  exact ⟨Db.findPending_none.mpr hfree, now, rfl⟩

/-- Everything a performed operation does to the file. -/
theorem McpPerforms.writes {β : Type} {op : McpOp β} {w w' : World} {b : β}
    (h : McpPerforms L op w b w') : Writes L.floats ⟨op, b⟩ w.db w'.db := by
  cases op with
  | newV4 => exact congrArg World.db h
  | utcNow => exact congrArg World.db h
  | checkRate i key =>
    obtain ⟨now, limiter, _, rfl⟩ := h
    rfl
  | append req =>
    obtain ⟨oracle, db, hr, rfl⟩ := h
    cases b with
    | error e => exact append_error hr
    | ok e => exact autocommit_ok hr
  | inspectServerExecution bd =>
    obtain ⟨oracle, db, hr, rfl⟩ := h
    obtain ⟨hdb, ho⟩ := inspect_result hr
    cases b with
    | error e => exact hdb
    | ok outcome => exact ⟨hdb, ho outcome rfl⟩
  | evaluate i input =>
    obtain ⟨_, _, _, velocity, _, rfl⟩ := h
    rfl
  | getPending c =>
    obtain ⟨oracle, db, hr, rfl⟩ := h
    obtain ⟨hdb, hf⟩ := getPending_result hr
    cases b with
    | error e => exact hdb
    | ok found => exact ⟨hdb, hf found rfl⟩
  | parkPending req =>
    obtain ⟨oracle, db, hr, rfl⟩ := h
    cases b with
    | error e => exact parkPending_error hr
    | ok p => exact parkPending_ok hr
  | beginServerExecution i bd =>
    obtain ⟨oracle, db, hr, rfl⟩ := h
    cases b with
    | error e => exact transaction_error hr
    | ok outcome =>
      rcases begin_ok hr with ⟨hdb, _, hne, ho⟩ | ⟨hs, hb⟩
      · exact Or.inl ⟨hne, hdb, ho⟩
      · exact Or.inr ⟨hs, hb⟩
  | send body =>
    obtain rfl : w' = { w with sent := w.sent ++ [body] } := h
    rfl
  | completeServerExecution bd status contentType body =>
    obtain ⟨oracle, db, hr, rfl⟩ := h
    cases b with
    | error e => exact transaction_error hr
    | ok c => exact (complete_ok hr).2
  | pinCatalog i key agentId body =>
    obtain ⟨pins, _, rfl⟩ := h
    rfl

/-- The call has changed the file. -/
def isWrite : Call McpOp → Bool
  | ⟨.append _, .ok _⟩ => true
  | ⟨.parkPending _, .ok _⟩ => true
  | ⟨.beginServerExecution _ _, .ok .started⟩ => true
  | ⟨.completeServerExecution _ _ _ _, .ok _⟩ => true
  | _ => false

variable (F) in
/-- How a call can have changed the file. -/
inductive Change (made : Call McpOp) (db db' : Db) : Prop
  | unchanged (hm : isWrite made = false) (h : db' = db)
  | appends {req : LogRequest} {e : LedgerEntry} (hm : made = ⟨.append req, .ok e⟩)
      (h : Results (appendOnConnection F req) db e db')
  | parks {req : ParkRequest} {p : Pending} {now : Clock} (hm : made = ⟨.parkPending req, .ok p⟩)
      (hfree : db.findPending req.correlationId = none)
      (h : db' = { db with pendings := db.pendings ++ [parkedRow F req now] })
  | begins {i : String} {b : ServerExecutionBinding}
      (hm : made = ⟨.beginServerExecution i b, .ok .started⟩) (h : Begins F i b db db')
  | completes {b : ServerExecutionBinding} {status : UInt16} {contentType : Option String}
      {body : Octets} {c : ServerExecutionCompleted}
      (hm : made = ⟨.completeServerExecution b status contentType body, .ok c⟩)
      (h : Completes F b status contentType body db db')

theorem McpPerforms.change {β : Type} {op : McpOp β} {w w' : World} {b : β}
    (h : McpPerforms L op w b w') : Change L.floats ⟨op, b⟩ w.db w'.db := by
  have hw := h.writes
  cases op with
  | append req =>
    cases b with
    | error e => exact .unchanged rfl hw
    | ok e => exact .appends rfl hw
  | inspectServerExecution bd =>
    cases b with
    | error e => exact .unchanged rfl hw
    | ok outcome => exact .unchanged rfl hw.1
  | getPending c =>
    cases b with
    | error e => exact .unchanged rfl hw
    | ok found => exact .unchanged rfl hw.1
  | parkPending req =>
    cases b with
    | error e => exact .unchanged rfl hw
    | ok p =>
      obtain ⟨hfree, now, hdb⟩ := hw
      exact .parks rfl hfree hdb
  | beginServerExecution i bd =>
    cases b with
    | error e => exact .unchanged rfl hw
    | ok outcome =>
      rcases hw with ⟨hne, hdb, _⟩ | ⟨rfl, hb⟩
      · cases outcome with
        | started => exact absurd rfl hne
        | _ => exact .unchanged rfl hdb
      · exact .begins rfl hb
  | completeServerExecution bd status contentType body =>
    cases b with
    | error e => exact .unchanged rfl hw
    | ok c => exact .completes rfl hw
  | _ => exact .unchanged rfl hw

theorem Change.effects {made : Call McpOp} {db db' : Db} (h : Change F made db db') :
    Effects F db db' := by
  cases h with
  | unchanged _ h => exact h ▸ .refl
  | appends _ h => exact .single (.append ⟨_, h⟩)
  | parks _ _ h => exact .single (.pendings h)
  | begins _ h => exact .single (.execution (.begins h))
  | completes _ h => exact .single (.execution (.completes h))

/-- The rows with a decision stored in the undecided one. -/
def decidedRows (id : String) (tenant : Option String) (decidedAt decision : String)
    (note : Option String) (rows : List PendingRow) : List PendingRow :=
  rows.map fun r => if Undecided id tenant r then r.decided decidedAt decision note else r

/-- A decision leaves the file alone, or stores itself in the undecided row. -/
theorem decideStored_view {id decision : String} {tenant note : Option String}
    (s : Session StepEnv Db) :
    ((decideStored F id tenant decision note).run.run Sql.answer s).2.view = s.view ∨
      ∃ decidedAt, ((decideStored F id tenant decision note).run.run Sql.answer s).2.view =
        { s.view with
          pendings := decidedRows id tenant decidedAt decision note s.view.pendings } := by
  rw [decideStored_run, Prog.run_call]
  have hview : ((Sql.selectPending id tenant).answer s).2.view = s.view :=
    statement_view (Q := fun v => v = s.view) rfl fun b v hx =>
      (Prod.mk.inj (Except.ok.inj hx)).2.symm
  generalize (Sql.selectPending id tenant).answer s = answered at hview ⊢
  obtain ⟨found, s₁⟩ := answered
  simp only at hview ⊢
  rw [← hview]
  cases found with
  | error e => exact Or.inl rfl
  | ok found =>
    cases found with
    | none => exact Or.inl rfl
    | some row =>
      simp only [decideFound]
      cases rowToPending F row with
      | error e => exact Or.inl rfl
      | ok p =>
        by_cases hp : p.decision.isSome = true
        · simp only [if_pos hp]
          exact Or.inl rfl
        · simp only [if_neg hp, Prog.run_call]
          generalize hs₂ : (Sql.utcNow.answer s₁).2 = s₂
          have hview₂ : s₂.view = s₁.view := hs₂ ▸ rfl
          generalize toRfc3339 (Sql.utcNow.answer s₁).1 = decidedAt
          generalize hupdate :
            (Sql.updatePending id tenant decidedAt decision note).answer s₂ = updated
          obtain ⟨changed, s₃⟩ := updated
          change statement StepEnv.fails .sqliteFailure
            (updatePending id tenant decidedAt decision note) s₂ = _ at hupdate
          rw [← hview₂]
          cases changed with
          | error e =>
            have hkept : s₃.view = s₂.view := statement_error hupdate
            exact Or.inl hkept
          | ok changed =>
            have hrows := (Prod.mk.inj (Except.ok.inj (statement_ok hupdate))).2
            refine Or.inr ⟨decidedAt, ?_⟩
            by_cases hz : changed = 0
            · simp only [if_pos hz, Prog.run_pure]
              exact hrows.symm
            · simp only [if_neg hz, Prog.run_pure]
              exact hrows.symm

theorem decidePendingScoped_result {id decision : String} {tenant note : Option String}
    {oracle : Oracle} {db db' : Db} {r : Except DecideError Pending}
    (h : Ledger.decidePendingScoped F id tenant decision note oracle db = (r, db')) :
    db' = db ∨ (decision = "allow" ∨ decision = "deny") ∧ ∃ decidedAt, db' =
      { db with pendings := decidedRows id tenant decidedAt decision note db.pendings } := by
  unfold Ledger.decidePendingScoped at h
  split_ifs at h with hd
  · exact Or.inl (Prod.mk.inj h).2.symm
  · have hvalue : decision = "allow" ∨ decision = "deny" := by
      by_contra hn
      exact hd (not_or.mp hn)
    have hview := @decideStored_view F id decision tenant note ⟨oracle, 0, db⟩
    have hdb : db' = (runAutocommit (decideStored F id tenant decision note) oracle db).2 := by
      generalize runAutocommit (decideStored F id tenant decision note) oracle db = result at h ⊢
      obtain ⟨result, db₁⟩ := result
      cases result with
      | ok result => exact (Prod.mk.inj h).2.symm
      | error e => exact (Prod.mk.inj h).2.symm
    rw [hdb]
    exact hview.imp_right fun hstored => ⟨hvalue, hstored⟩

variable (F) in
/-- How the file can have changed outside of requests. -/
inductive Meanwhile (db db' : Db) : Prop
  | classifies (h : Classifications F db db')
  | decides {id decision decidedAt : String} {tenant note : Option String}
      (hd : decision = "allow" ∨ decision = "deny")
      (h : db' =
        { db with pendings := decidedRows id tenant decidedAt decision note db.pendings })
  | records {decided : Pending} (h : Appends F (decideLogRequest decided) db db')

theorem Outside.change {w w' : World} (h : Outside F w w') : Meanwhile F w.db w'.db := by
  cases h with
  | reconcile i now oracle =>
    generalize hr : Ledger.reconcileServerExecutionsAt F i now oracle w.db = r
    obtain ⟨r, db⟩ := r
    cases r with
    | error e => exact .classifies (transaction_error hr ▸ .refl)
    | ok n => exact .classifies (reconcile_ok hr)
  | decide id tenant decision note oracle =>
    rcases decidePendingScoped_result rfl with hdb | ⟨hd, decidedAt, hdb⟩
    · exact .classifies (hdb ▸ .refl)
    · exact .decides hd hdb
  | record decided oracle =>
    generalize hr : Ledger.append F (decideLogRequest decided) oracle w.db = r
    obtain ⟨r, db⟩ := r
    cases r with
    | error e => exact .classifies (append_error hr ▸ .refl)
    | ok e => exact .records ⟨e, autocommit_ok hr⟩
  | restart i m => exact .classifies .refl

theorem Meanwhile.effects {db db' : Db} (h : Meanwhile F db db') : Effects F db db' := by
  cases h with
  | classifies h => exact h.effects.effects
  | decides _ h => exact .single (.pendings h)
  | records h => exact .single (.append h)

theorem Begins.pendings {i : String} {b : ServerExecutionBinding} {db db' : Db}
    (h : Begins F i b db db') : db'.pendings = db.pendings := by
  obtain ⟨_, ha⟩ := h.appends
  exact (appends_tables ha).2.2

theorem Completes.pendings {b : ServerExecutionBinding} {status : UInt16}
    {contentType : Option String} {body : Octets} {db db' : Db}
    (h : Completes F b status contentType body db db') : db'.pendings = db.pendings := by
  obtain ⟨_, _, _, ha⟩ := h.updates
  exact (appends_tables ha).2.2

theorem Classifications.pendings {db db' : Db} (h : Classifications F db db') :
    db'.pendings = db.pendings := by
  induction h with
  | refl => rfl
  | tail _ hc ih =>
    obtain ⟨row, hc⟩ := hc
    obtain ⟨_, _, _, ha⟩ := hc.updates
    exact (appends_tables ha).2.2.trans ih

/-- A call leaves the pendings alone, or parks one under a free id. -/
theorem Change.pendings {made : Call McpOp} {db db' : Db} (h : Change F made db db') :
    db'.pendings = db.pendings ∨ ∃ req p now, made = ⟨.parkPending req, .ok p⟩ ∧
      db.findPending req.correlationId = none ∧
      db'.pendings = db.pendings ++ [parkedRow F req now] := by
  cases h with
  | unchanged _ h => exact Or.inl (h ▸ rfl)
  | appends _ h => exact Or.inl (appends_tables ⟨_, h⟩).2.2
  | parks hm hfree h => exact Or.inr ⟨_, _, _, hm, hfree, congrArg Db.pendings h⟩
  | begins _ h => exact Or.inl h.pendings
  | completes _ h => exact Or.inl h.pendings

/-- The operators alone change a pending. -/
theorem Meanwhile.pendings {db db' : Db} (h : Meanwhile F db db') :
    db'.pendings = db.pendings ∨ ∃ id decision decidedAt tenant note,
      (decision = "allow" ∨ decision = "deny") ∧
        db'.pendings = decidedRows id tenant decidedAt decision note db.pendings := by
  cases h with
  | classifies h => exact Or.inl h.pendings
  | decides hd h => exact Or.inr ⟨_, _, _, _, _, hd, congrArg Db.pendings h⟩
  | records h => exact Or.inl (appends_tables h).2.2

theorem Change.grows {made : Call McpOp} {db db' : Db} (h : Change F made db db') :
    PendingsGrow db db' := by
  rcases h.pendings with h | ⟨req, p, now, _, _, h⟩
  · exact .of_eq h
  · exact .added h

theorem Change.sound {made : Call McpOp} {db db' : Db} (h : Change F made db db')
    (hs : PendingsSound db) : PendingsSound db' := by
  rcases h.pendings with h | ⟨req, p, now, _, hfree, h⟩
  · exact hs.of_eq h
  · exact hs.added (Db.findPending_none.mp hfree) rfl rfl h

theorem Meanwhile.grows {db db' : Db} (h : Meanwhile F db db') : PendingsGrow db db' := by
  rcases h.pendings with h | ⟨id, decision, decidedAt, tenant, note, _, h⟩
  · exact .of_eq h
  · exact .stored h

theorem Meanwhile.sound {db db' : Db} (h : Meanwhile F db db') (hs : PendingsSound db) :
    PendingsSound db' := by
  rcases h.pendings with h | ⟨id, decision, decidedAt, tenant, note, hd, h⟩
  · exact hs.of_eq h
  · exact hs.stored hd h

end ClavenarLite
