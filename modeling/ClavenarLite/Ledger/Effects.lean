import ClavenarLite.Ledger.Execution
import ClavenarLite.Ledger.Pendings

/-! What one committed change of the ledger can be. Every operation of the
ledger leaves the database as it was or makes a sequence of these changes, so
an invariant is proved change by change. -/

namespace ClavenarLite

open Bytes HashChain Rfc3339 TextJson Transaction

variable (F : FloatText)

/-- An entry for the request is appended, and nothing else changes. -/
def Appends (req : LogRequest) (db db' : Db) : Prop :=
  ∃ e, Results (appendOnConnection F req) db e db'

def Db.withIntent (db : Db) (row : ExecutionRow) : Db :=
  { db with serverExecutions := db.serverExecutions ++ [row] }

def Db.withCompletion (db : Db) (c : Completion) (out : OutboxRow) : Db :=
  { db with
    serverExecutions := db.serverExecutions.map fun r => if c.Matches r then c.apply r else r
    serverExecutionOutbox := db.serverExecutionOutbox ++ [out] }

def Db.withUncertain (db : Db) (executionId now : String) (out : OutboxRow) : Db :=
  { db with
    serverExecutions := db.serverExecutions.map fun r =>
      if AwaitsReconciliation executionId r then r.toUncertain now else r
    serverExecutionOutbox := db.serverExecutionOutbox ++ [out] }

def OutboxFree (db : Db) (out : OutboxRow) : Prop :=
  ∀ r ∈ db.serverExecutionOutbox, r.eventId ≠ out.eventId ∧ r.executionId ≠ out.executionId

structure Begins (instanceId : String) (b : ServerExecutionBinding) (db db' : Db) : Prop where
  missing : db.findExecution b.key = none
  free : ∀ r ∈ db.serverExecutions, r.executionId ≠ b.executionId.text
  appends : ∃ createdAt,
    Appends F (intentRequest b) (db.withIntent (intentRow instanceId b createdAt)) db'

structure Completes (b : ServerExecutionBinding) (status : UInt16) (contentType : Option String)
    (body : Octets) (db db' : Db) : Prop where
  updates : ∃ now,
    db.serverExecutions.countP (completionOf F b status contentType body now).Matches = 1 ∧
      OutboxFree db (completedOutboxRow F b status body now) ∧
      Appends F (completedRequest F b status body)
        (db.withCompletion (completionOf F b status contentType body now)
          (completedOutboxRow F b status body now)) db'

structure Classifies (row : ExecutionRow) (db db' : Db) : Prop where
  updates : ∃ now,
    db.serverExecutions.countP (AwaitsReconciliation row.executionId) = 1 ∧
      OutboxFree db (uncertainOutboxRow F row now) ∧
      Appends F (uncertainRequest row)
        (db.withUncertain row.executionId now (uncertainOutboxRow F row now)) db'

abbrev Classifications :=
  Relation.ReflTransGen fun db db' => ∃ row, Classifies F row db db'

/-- One committed change to the execution tables. -/
inductive ExecutionEffect (db db' : Db) : Prop
  | begins {instanceId : String} {b : ServerExecutionBinding} (h : Begins F instanceId b db db')
  | completes {b : ServerExecutionBinding} {status : UInt16} {contentType : Option String}
      {body : Octets} (h : Completes F b status contentType body db db')
  | classifies {row : ExecutionRow} (h : Classifies F row db db')

abbrev ExecutionEffects := Relation.ReflTransGen (ExecutionEffect F)

/-- One committed change to any table. -/
inductive Effect (db db' : Db) : Prop
  | execution (h : ExecutionEffect F db db')
  | append {req : LogRequest} (h : Appends F req db db')
  | pendings {rows : List PendingRow} (h : db' = { db with pendings := rows })

abbrev Effects := Relation.ReflTransGen (Effect F)

variable {F}

theorem ExecutionEffects.effects {db db' : Db} (h : ExecutionEffects F db db') :
    Effects F db db' :=
  Relation.ReflTransGen.mono (fun _ _ he => Effect.execution he) db db' h

theorem Classifications.effects {db db' : Db} (h : Classifications F db db') :
    ExecutionEffects F db db' :=
  Relation.ReflTransGen.mono (fun _ _ ⟨_, hc⟩ => ExecutionEffect.classifies hc) db db' h

theorem appends_entries {req : LogRequest} {db db' : Db} (h : Appends F req db db') :
    ∃ id now tip, Results readTip db tip db ∧
      (∀ r ∈ db.entries, r.id ≠ id.text ∧ r.seq ≠ tip.1) ∧
      db' = { db with entries := db.entries ++ [(newEntry F id now tip req).row F] } := by
  obtain ⟨e, h⟩ := h
  obtain ⟨id, now, tip, ht, rfl, hu, hdb⟩ := results_appendOnConnection h
  exact ⟨id, now, tip, ht, hu, hdb⟩

theorem results_inspect {b : ServerExecutionBinding} {out : ServerExecutionOutcome} {db db' : Db}
    (h : Results (inspectServerExecution b) db out db') :
    outcomeOf b (db.findExecution b.key) = .ok out ∧ db' = db := by
  obtain ⟨row, db₁, hq, hl⟩ := h.bind
  obtain ⟨rfl, rfl⟩ := results_selectExecution hq
  exact results_liftExcept hl

theorem outcomeOf_some {b : ServerExecutionBinding} {row : ExecutionRow}
    {out : ServerExecutionOutcome} (h : outcomeOf b (some row) = .ok out) :
    (¬ SameRequest row b ∧ out = .conflict) ∨
      (SameRequest row b ∧ row.state ≠ .completed ∧ out = .uncertain) ∨
      (SameRequest row b ∧ row.state = .completed ∧
        ∃ c, retained row = .ok c ∧ out = .completed c) := by
  simp only [outcomeOf] at h
  by_cases hs : SameRequest row b
  · rw [if_neg (not_not.mpr hs)] at h
    by_cases hc : row.state = .completed
    · rw [if_neg (not_not.mpr hc)] at h
      cases hr : retained row with
      | ok c =>
        rw [hr] at h
        exact Or.inr (Or.inr ⟨hs, hc, c, rfl, (Except.ok.inj h).symm⟩)
      | error e =>
        rw [hr] at h
        exact absurd h (by simp [Except.map])
    · rw [if_pos hc] at h
      exact Or.inr (Or.inl ⟨hs, hc, (Except.ok.inj h).symm⟩)
  · rw [if_pos hs] at h
    exact Or.inl ⟨hs, (Except.ok.inj h).symm⟩

theorem outcomeOf_missing {b : ServerExecutionBinding} {o : Option ExecutionRow}
    (h : outcomeOf b o = .ok .missing) : o = none := by
  cases o with
  | none => rfl
  | some row =>
    rcases outcomeOf_some h with ⟨_, he⟩ | ⟨_, _, he⟩ | ⟨_, _, c, _, he⟩
    all_goals exact absurd he (by simp)

theorem outcomeOf_ne_started (b : ServerExecutionBinding) (o : Option ExecutionRow) :
    outcomeOf b o ≠ .ok .started := by
  intro h
  cases o with
  | none => exact absurd h (by simp [outcomeOf])
  | some row =>
    rcases outcomeOf_some h with ⟨_, he⟩ | ⟨_, _, he⟩ | ⟨_, _, c, _, he⟩
    all_goals exact absurd he (by simp)

theorem inspect_result {b : ServerExecutionBinding} {oracle : Oracle} {db db' : Db}
    {r : Except SqlError ServerExecutionOutcome}
    (h : Ledger.inspectServerExecution b oracle db = (r, db')) :
    db' = db ∧ ∀ out, r = .ok out → outcomeOf b (db.findExecution b.key) = .ok out := by
  cases r with
  | ok out =>
    obtain ⟨ho, hdb⟩ := results_inspect (autocommit_ok h)
    refine ⟨hdb, ?_⟩
    intro out' he
    rwa [← Except.ok.inj he]
  | error e =>
    refine ⟨?_, by simp⟩
    rcases (autocommit_error h).bind with hq | ⟨row, db₁, hq, hl⟩
    · exact fails_query (fun _ => rfl) hq
    · obtain ⟨_, rfl⟩ := results_selectExecution hq
      exact fails_liftExcept hl

theorem inspect_db (b : ServerExecutionBinding) (oracle : Oracle) (db : Db) :
    (Ledger.inspectServerExecution b oracle db).2 = db := by
  generalize hr : Ledger.inspectServerExecution b oracle db = r
  obtain ⟨r, db'⟩ := r
  exact (inspect_result hr).1

theorem results_begin {instanceId : String} {b : ServerExecutionBinding} {db db' : Db}
    {ending : Ending ServerExecutionOutcome}
    (h : Results (beginServerExecution F instanceId b) db ending db') :
    (∃ out, ending = .rollback out ∧ out ≠ .missing ∧
        outcomeOf b (db.findExecution b.key) = .ok out) ∨
      (ending = .commit .started ∧ Begins F instanceId b db db') := by
  obtain ⟨out, db₁, hi, h₁⟩ := h.bind
  obtain ⟨ho, rfl⟩ := results_inspect hi
  cases out with
  | missing =>
    obtain ⟨createdAt, db₂, ht, h₂⟩ := h₁.bind
    obtain rfl := results_utcNow ht
    obtain ⟨_, db₃, hx, h₃⟩ := h₂.bind
    obtain ⟨hu, rfl⟩ := results_insertExecution hx
    obtain ⟨e, db₄, ha, h₄⟩ := h₃.bind
    obtain ⟨rfl, rfl⟩ := h₄.pure
    refine Or.inr ⟨rfl, outcomeOf_missing ho, ?_, createdAt, e, ha⟩
    intro r hr
    exact (hu r hr).2
  | started => exact absurd ho (outcomeOf_ne_started b _)
  | completed c => exact Or.inl ⟨_, h₁.pure.1, by simp, ho⟩
  | uncertain => exact Or.inl ⟨_, h₁.pure.1, by simp, ho⟩
  | conflict => exact Or.inl ⟨_, h₁.pure.1, by simp, ho⟩

/-- A begin either reports what it found and changes nothing, or it found
nothing and commits the intent. -/
theorem begin_ok {instanceId : String} {b : ServerExecutionBinding} {oracle : Oracle}
    {db db' : Db} {out : ServerExecutionOutcome}
    (h : Ledger.beginServerExecution F instanceId b oracle db = (.ok out, db')) :
    (db' = db ∧ out ≠ .missing ∧ out ≠ .started ∧
        outcomeOf b (db.findExecution b.key) = .ok out) ∨
      (out = .started ∧ Begins F instanceId b db db') := by
  rcases transaction_ok h with ⟨rfl, v, hr⟩ | hc
  · rcases results_begin hr with ⟨out', he, hne, ho⟩ | ⟨he, _⟩
    · obtain rfl : out = out' := Ending.rollback.inj he
      refine Or.inl ⟨rfl, hne, ?_, ho⟩
      rintro rfl
      exact outcomeOf_ne_started b _ ho
    · exact absurd he (by simp)
  · rcases results_begin hc with ⟨out', he, _, _⟩ | ⟨he, hb⟩
    · exact absurd he (by simp)
    · exact Or.inr ⟨Ending.commit.inj he, hb⟩

theorem results_complete {b : ServerExecutionBinding} {status : UInt16}
    {contentType : Option String} {body : Octets} {db db' : Db}
    {ending : Ending ServerExecutionCompleted}
    (h : Results (completeServerExecution F b status contentType body) db ending db') :
    ending = .commit (completedResult F b status contentType body) ∧
      Completes F b status contentType body db db' := by
  obtain ⟨now, db₁, ht, h₁⟩ := h.bind
  obtain rfl := results_utcNow ht
  obtain ⟨changed, db₂, hu, h₂⟩ := h₁.bind
  obtain ⟨rfl, rfl⟩ := results_completeExecution hu
  split_ifs at h₂ with hone
  · obtain ⟨_, _, hthrow, _⟩ := h₂.bind
    exact hthrow.throw.elim
  · obtain ⟨_, db₃, ho, h₃⟩ := h₂.bind
    obtain ⟨hfree, rfl⟩ := results_insertOutbox ho
    obtain ⟨e, db₄, ha, h₄⟩ := h₃.bind
    obtain ⟨rfl, rfl⟩ := h₄.pure
    exact ⟨rfl, now, not_not.mp hone, hfree, e, ha⟩

theorem complete_ok {b : ServerExecutionBinding} {status : UInt16} {contentType : Option String}
    {body : Octets} {oracle : Oracle} {db db' : Db} {c : ServerExecutionCompleted}
    (h : Ledger.completeServerExecution F b status contentType body oracle db = (.ok c, db')) :
    c = completedResult F b status contentType body ∧
      Completes F b status contentType body db db' := by
  rcases transaction_ok h with ⟨_, v, hr⟩ | hc
  · exact absurd (results_complete hr).1 (by simp)
  · obtain ⟨he, hcomp⟩ := results_complete hc
    exact ⟨Ending.commit.inj he, hcomp⟩

theorem results_classified {now : String} {row : ExecutionRow} {db db' : Db} {u : PUnit}
    (h : Results (classifyUncertain F now row) db u db') :
    db.serverExecutions.countP (AwaitsReconciliation row.executionId) = 1 ∧
      OutboxFree db (uncertainOutboxRow F row now) ∧
      Appends F (uncertainRequest row)
        (db.withUncertain row.executionId now (uncertainOutboxRow F row now)) db' := by
  obtain ⟨changed, db₁, hu, h₁⟩ := h.bind
  obtain ⟨rfl, rfl⟩ := results_markUncertain hu
  split_ifs at h₁ with hone
  · obtain ⟨_, _, hthrow, _⟩ := h₁.bind
    exact hthrow.throw.elim
  · obtain ⟨_, db₂, ho, h₂⟩ := h₁.bind
    obtain ⟨hfree, rfl⟩ := results_insertOutbox ho
    obtain ⟨e, db₃, ha, h₃⟩ := h₂.bind
    obtain ⟨_, rfl⟩ := h₃.pure
    exact ⟨not_not.mp hone, hfree, e, ha⟩

theorem results_classify {now : String} {row : ExecutionRow} {db db' : Db} {u : PUnit}
    (h : Results (classifyUncertain F now row) db u db') : Classifies F row db db' :=
  ⟨now, results_classified h⟩

theorem results_classifyAll {now : String} {rows : List ExecutionRow} {db db' : Db} {u : PUnit}
    (h : Results (rows.forM (classifyUncertain F now)) db u db') : Classifications F db db' := by
  refine Yields.forM (R := fun v _ v' => Classifications F v v') ?_ ?_ h
  · intro v
    exact Relation.ReflTransGen.refl
  · intro row rows v₁ v₂ v₃ hx hxs
    exact Relation.ReflTransGen.head ⟨row, results_classify hx⟩ hxs

theorem reconcile_ok {instanceId : String} {now : Clock} {oracle : Oracle} {db db' : Db} {n : Nat}
    (h : Ledger.reconcileServerExecutionsAt F instanceId now oracle db = (.ok n, db')) :
    Classifications F db db' := by
  have hresults : ∀ {ending v}, Results (reconcileServerExecutionsAt F instanceId now) db ending v →
      ending = .commit n ∨ ending = .rollback n →
      Classifications F db v ∧ ending = .commit n := by
    intro ending v hr hn
    obtain ⟨rows, db₁, hq, h₁⟩ := hr.bind
    obtain ⟨_, rfl⟩ := results_selectAbandoned hq
    obtain ⟨_, db₂, hall, h₂⟩ := h₁.bind
    obtain ⟨rfl, rfl⟩ := h₂.pure
    refine ⟨results_classifyAll hall, ?_⟩
    rcases hn with hn | hn
    · exact hn
    · exact absurd hn (by simp)
  rcases transaction_ok h with ⟨_, v, hr⟩ | hc
  · exact absurd (hresults hr (Or.inr rfl)).2 (by simp)
  · exact (hresults hc (Or.inl rfl)).1

end ClavenarLite
