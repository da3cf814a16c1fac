import ClavenarLite.Ledger.Effects

/-! Runs of ledger operations by any processes, each operation with its own
failures. Every run is a sequence of committed changes. -/

namespace ClavenarLite

open Bytes Rfc3339 TextJson Transaction

variable {F : FloatText}

/-- The statement touches no table but `pendings`. -/
def OnPendings : {β : Type} → Sql β → Prop
  | _, .newUuid => True
  | _, .utcNow => True
  | _, .insertPending _ => True
  | _, .selectPending _ _ => True
  | _, .selectPendingForAgent _ _ _ => True
  | _, .updatePending _ _ _ _ _ => True
  | _, _ => False

abbrev PendingsOnly {α : Type} (p : LedgerM α) : Prop :=
  Interaction.Prog.Safe (fun _ {_} op => OnPendings op) p.run

theorem onPendings_view {β : Type} (op : Sql β) (hop : OnPendings op) (db : Db)
    (s : Session StepEnv Db) (hs : ∃ rows, s.view = { db with pendings := rows }) :
    ∃ rows, (op.answer s).2.view = { db with pendings := rows } := by
  obtain ⟨rows, hs⟩ := hs
  cases op with
  | newUuid => exact ⟨rows, hs⟩
  | utcNow => exact ⟨rows, hs⟩
  | insertPending row =>
    refine statement_view (Q := fun v => ∃ rows, v = { db with pendings := rows }) ⟨rows, hs⟩ ?_
    intro b v hx
    unfold insertPending at hx
    split_ifs at hx
    exact ⟨rows ++ [row], by rw [← (Prod.mk.inj (Except.ok.inj hx)).2, hs]⟩
  | selectPending c t =>
    refine statement_view (Q := fun v => ∃ rows, v = { db with pendings := rows }) ⟨rows, hs⟩ ?_
    intro b v hx
    exact ⟨rows, by rw [← (Prod.mk.inj (Except.ok.inj hx)).2, hs]⟩
  | selectPendingForAgent c t a =>
    refine statement_view (Q := fun v => ∃ rows, v = { db with pendings := rows }) ⟨rows, hs⟩ ?_
    intro b v hx
    exact ⟨rows, by rw [← (Prod.mk.inj (Except.ok.inj hx)).2, hs]⟩
  | updatePending c t d x n =>
    refine statement_view (Q := fun v => ∃ rows, v = { db with pendings := rows }) ⟨rows, hs⟩ ?_
    intro b v hx
    exact ⟨_, by rw [← (Prod.mk.inj (Except.ok.inj hx)).2, hs]⟩
  | _ => exact hop.elim

theorem pendingsOnly_autocommit {α : Type} {p : LedgerM α} (h : PendingsOnly p)
    (oracle : Oracle) (db : Db) :
    ∃ rows, (runAutocommit p oracle db).2 = { db with pendings := rows } :=
  h.run_invariant (Q := fun s => ∃ rows, s.view = { db with pendings := rows })
    (fun op _ s hop hs => onPendings_view op hop db s hs) ⟨db.pendings, rfl⟩

theorem parkPending_only (req : ParkRequest) : PendingsOnly (parkPending F req) :=
  safe_bind (safe_lift fun _ => trivial) fun _ =>
    safe_bind (safe_query fun _ => trivial) fun _ => safe_pure _

theorem getPending_only (c : String) : PendingsOnly (getPending F c) := by
  refine safe_bind (safe_query fun _ => trivial) ?_
  intro row
  cases row with
  | none => exact safe_pure _
  | some row => exact safe_bind (safe_liftExcept _) fun _ => safe_pure _

theorem decideStored_safe {rule : List (Interaction.Call Sql) → ∀ {β : Type}, Sql β → Prop}
    {c : String} {t : Option String} {d : String} {n : Option String}
    (hselect : ∀ cs, rule cs (.selectPending c t)) (hnow : ∀ cs, rule cs .utcNow)
    (hupdate : ∀ cs at', rule cs (.updatePending c t at' d n)) :
    Interaction.Prog.Safe rule (decideStored F c t d n).run := by
  refine safe_bind (safe_query hselect) ?_
  intro row
  cases row with
  | none => exact safe_pure _
  | some row =>
    refine safe_bind (safe_liftExcept _) ?_
    intro pending
    by_cases hd : pending.decision.isSome
    · rw [if_pos hd]
      exact safe_pure _
    · rw [if_neg hd]
      refine safe_bind (safe_lift hnow) fun _ => ?_
      refine safe_bind (safe_query fun cs => hupdate cs _) fun changed => ?_
      by_cases hz : changed = 0
      · rw [if_pos hz]
        exact safe_pure _
      · rw [if_neg hz]
        exact safe_pure _

theorem decideStored_only (c : String) (t : Option String) (d : String) (n : Option String) :
    PendingsOnly (decideStored F c t d n) :=
  decideStored_safe (fun _ => trivial) (fun _ => trivial) fun _ _ => trivial

theorem decide_pendings (c : String) (t : Option String) (d : String) (n : Option String)
    (oracle : Oracle) (db : Db) :
    ∃ rows, (Ledger.decidePendingScoped F c t d n oracle db).2 = { db with pendings := rows } := by
  unfold Ledger.decidePendingScoped
  by_cases hd : d ≠ "allow" ∧ d ≠ "deny"
  · rw [if_pos hd]
    exact ⟨db.pendings, rfl⟩
  · rw [if_neg hd]
    have hrows := pendingsOnly_autocommit (decideStored_only (F := F) c t d n) oracle db
    generalize runAutocommit (decideStored F c t d n) oracle db = r at hrows ⊢
    obtain ⟨r, db'⟩ := r
    cases r <;> exact hrows

/-- A call of one of the ledger's methods, by any process. -/
inductive LedgerOp
  | append (req : LogRequest)
  | inspect (b : ServerExecutionBinding)
  | begin (instanceId : String) (b : ServerExecutionBinding)
  | complete (b : ServerExecutionBinding) (status : UInt16) (contentType : Option String)
      (body : Octets)
  | reconcile (instanceId : String) (now : Clock)
  | park (req : ParkRequest)
  | decide (correlationId : String) (tenant : Option String) (decision : String)
      (note : Option String)
  | getPending (correlationId : String)

variable (F)

def LedgerOp.apply : LedgerOp → Oracle → Db → Db
  | .append req, o, db => (Ledger.append F req o db).2
  | .inspect b, o, db => (Ledger.inspectServerExecution b o db).2
  | .begin i b, o, db => (Ledger.beginServerExecution F i b o db).2
  | .complete b st ct body, o, db => (Ledger.completeServerExecution F b st ct body o db).2
  | .reconcile i now, o, db => (Ledger.reconcileServerExecutionsAt F i now o db).2
  | .park req, o, db => (Ledger.parkPending F req o db).2
  | .decide c t d n, o, db => (Ledger.decidePendingScoped F c t d n o db).2
  | .getPending c, o, db => (Ledger.getPending F c o db).2

def runOps (ops : List (LedgerOp × Oracle)) (db : Db) : Db :=
  ops.foldl (fun db op => op.1.apply F op.2 db) db

/-- The operations on the execution tables alone. -/
def LedgerOp.OnExecutions : LedgerOp → Prop
  | .begin _ _ => True
  | .complete _ _ _ _ => True
  | .reconcile _ _ => True
  | _ => False

variable {F}

theorem LedgerOp.onExecutions_effects (op : LedgerOp) (hop : op.OnExecutions) (oracle : Oracle)
    (db : Db) : ExecutionEffects F db (op.apply F oracle db) := by
  cases op with
  | begin i b =>
    simp only [LedgerOp.apply]
    generalize hr : Ledger.beginServerExecution F i b oracle db = r
    obtain ⟨r, db'⟩ := r
    cases r with
    | error e =>
      rw [transaction_error hr]
    | ok out =>
      rcases begin_ok hr with ⟨rfl, _⟩ | ⟨_, hb⟩
      · exact Relation.ReflTransGen.refl
      · exact Relation.ReflTransGen.single (.begins hb)
  | complete b st ct body =>
    simp only [LedgerOp.apply]
    generalize hr : Ledger.completeServerExecution F b st ct body oracle db = r
    obtain ⟨r, db'⟩ := r
    cases r with
    | error e =>
      rw [transaction_error hr]
    | ok c => exact Relation.ReflTransGen.single (.completes (complete_ok hr).2)
  | reconcile i now =>
    simp only [LedgerOp.apply]
    generalize hr : Ledger.reconcileServerExecutionsAt F i now oracle db = r
    obtain ⟨r, db'⟩ := r
    cases r with
    | error e =>
      rw [transaction_error hr]
    | ok n => exact (reconcile_ok hr).effects
  | _ => exact hop.elim

theorem LedgerOp.apply_effects (op : LedgerOp) (oracle : Oracle) (db : Db) :
    Effects F db (op.apply F oracle db) := by
  have hp : ∀ {db'}, (∃ rows, db' = { db with pendings := rows }) → Effects F db db' := by
    rintro _ ⟨rows, rfl⟩
    exact Relation.ReflTransGen.single (.pendings rfl)
  cases op with
  | append req =>
    simp only [LedgerOp.apply]
    generalize hr : Ledger.append F req oracle db = r
    obtain ⟨r, db'⟩ := r
    cases r with
    | error e =>
      rw [append_error hr]
    | ok e => exact Relation.ReflTransGen.single (.append ⟨e, autocommit_ok hr⟩)
  | inspect b =>
    rw [LedgerOp.apply, inspect_db]
  | begin i b => exact (LedgerOp.onExecutions_effects (.begin i b) trivial oracle db).effects
  | complete b st ct body =>
    exact (LedgerOp.onExecutions_effects (.complete b st ct body) trivial oracle db).effects
  | reconcile i now =>
    exact (LedgerOp.onExecutions_effects (.reconcile i now) trivial oracle db).effects
  | park req => exact hp (pendingsOnly_autocommit (parkPending_only req) oracle db)
  | decide c t d n => exact hp (decide_pendings c t d n oracle db)
  | getPending c => exact hp (pendingsOnly_autocommit (getPending_only c) oracle db)

theorem runOps_effects (ops : List (LedgerOp × Oracle)) (db : Db) :
    Effects F db (runOps F ops db) := by
  induction ops generalizing db with
  | nil => exact Relation.ReflTransGen.refl
  | cons op ops ih => exact (op.1.apply_effects op.2 db).trans (ih _)

def numberedUuid (n : Nat) : Uuid :=
  ⟨List.replicate 14 0 ++ [UInt8.ofNat (n / 256), UInt8.ofNat n], rfl⟩

def newYear : Clock where
  val := ⟨2026, 1, 1, 0, 0⟩
  property :=
    { decoded := ⟨by decide, by decide, by decide, by decide⟩
      year_nonneg := by decide
      year_le := by decide
      frac_lt := by decide }

def noon : Clock where
  val := ⟨2026, 1, 1, 43200, 0⟩
  property :=
    { decoded := ⟨by decide, by decide, by decide, by decide⟩
      year_nonneg := by decide
      year_le := by decide
      frac_lt := by decide }

/-- Nothing fails, the clock stands still, and identifiers count up from `n`. -/
def calm (n : Nat) : Oracle := fun k => ⟨false, numberedUuid (n + k), newYear⟩

def sampleBinding : ServerExecutionBinding where
  agentId := "a1"
  idempotencyId := numberedUuid 7
  correlationId := (numberedUuid 7).text
  route := "/mcp"
  method := "tools/call"
  toolName := "wire_transfer"
  submittedRequestSha256 := "sha256:aa"
  effectiveRequestSha256 := "sha256:aa"

def sampleRequest : LogRequest where
  agentId := "a1"
  method := "tools/call"
  intentCategory := "Allow"
  authorized := true
  reasoning := "no signal"
  policyDecision := none
  correlationId := none

end ClavenarLite
