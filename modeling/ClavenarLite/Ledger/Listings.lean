import ClavenarLite.Ledger.Runs
import ClavenarLite.Lib.TimeOrder

/-! Queries that select and order rows by a stored time: the operator's list of
pendings, the abandoned executions, and the counts behind a graduation report. -/

namespace ClavenarLite

open Bytes Interaction Rfc3339 TextJson Transaction

inductive PendingFilter
  | parked
  | decided
  | all

inductive PendingSort
  | oldest
  | newest

def PendingFilter.Keeps : PendingFilter → PendingRow → Prop
  | .parked, r => r.decidedAt = none
  | .decided, r => r.decidedAt ≠ none
  | .all, _ => True

instance (filter : PendingFilter) (r : PendingRow) : Decidable (filter.Keeps r) := by
  cases filter <;> unfold PendingFilter.Keeps <;> infer_instance

/-- The direction of an `ORDER BY`. -/
def PendingSort.InOrder {α : Type} [LE α] : PendingSort → α → α → Prop
  | .oldest, a, b => a ≤ b
  | .newest, a, b => b ≤ a

instance {α : Type} [LE α] [DecidableLE α] (sort : PendingSort) (a b : α) :
    Decidable (sort.InOrder a b) := by
  cases sort <;> unfold PendingSort.InOrder <;> infer_instance

/-- Rows of one time come in insertion order. -/
def selectPendings (filter : PendingFilter) (limit : UInt32) (sort : PendingSort)
    (tenant : Option String) (rows : List PendingRow) : List PendingRow :=
  ((rows.filter fun r => filter.Keeps r ∧ r.OfTenant tenant).insertionSort
    fun r s => sort.InOrder r.requestedAt s.requestedAt).take limit.toNat

variable (F : FloatText)

def listPendings (filter : PendingFilter) (limit : UInt32) (sort : PendingSort) (db : Db) :
    Except SqlError (List Pending) :=
  (selectPendings filter limit sort none db.pendings).mapM (rowToPending F)

def listPendingsForTenant (filter : PendingFilter) (limit : UInt32) (sort : PendingSort)
    (tenant : String) (db : Db) : Except SqlError (List Pending) :=
  (selectPendings filter limit sort (some tenant) db.pendings).mapM (rowToPending F)

def wouldDenyIntents : List String := ["PolicyDeny", "BrainDeny", "PromptInjection", "RateLimitDenied"]

def topAgentsLimit : Nat := 10

structure GraduationStats where
  total : Nat
  wouldDeny : Nat
  wouldPend : Nat
  allowed : Nat
  byIntent : List (String × Nat)
  topAgents : List (String × Nat)
  windowStart : Option DateTime
  windowEnd : Option DateTime

/-- The counter of the key goes up, in a map ordered by its keys. -/
def increment (key : String) : List (String × Nat) → List (String × Nat)
  | [] => [(key, 1)]
  | (k, n) :: rest =>
    if key = k then (k, n + 1) :: rest
    else if key < k then (key, 1) :: (k, n) :: rest
    else (k, n) :: increment key rest

/-- What the scan keeps from row to row. -/
structure Tally where
  total : Nat := 0
  wouldDeny : Nat := 0
  wouldPend : Nat := 0
  allowed : Nat := 0
  intents : List (String × Nat) := []
  agents : List (String × Nat) := []
  latest : Option DateTime := none

def later (latest : Option DateTime) (timestamp : String) : Option DateTime :=
  match parseFromRfc3339 timestamp with
  | none => latest
  | some parsed => if latest.all fun cur => decide (Precedes cur parsed) then some parsed else latest

def Tally.count (tally : Tally) (row : EntryRow) : Tally where
  total := tally.total + 1
  allowed := if row.authorized ≠ 0 then tally.allowed + 1 else tally.allowed
  wouldDeny :=
    if wouldDenyIntents.contains row.intentCategory then tally.wouldDeny + 1 else tally.wouldDeny
  wouldPend :=
    if wouldDenyIntents.contains row.intentCategory then tally.wouldPend
    else if row.intentCategory = "PendingReview" then tally.wouldPend + 1 else tally.wouldPend
  intents := increment row.intentCategory tally.intents
  agents := increment row.agentId tally.agents
  latest := later tally.latest row.timestamp

/-- More requests first, then by name. -/
def AgentOrder (a b : String × Nat) : Prop := b.2 < a.2 ∨ b.2 = a.2 ∧ a.1 ≤ b.1

instance (a b : String × Nat) : Decidable (AgentOrder a b) := by
  unfold AgentOrder
  infer_instance

def Tally.stats (tally : Tally) (since : Option DateTime) : GraduationStats where
  total := tally.total
  wouldDeny := tally.wouldDeny
  wouldPend := tally.wouldPend
  allowed := tally.allowed
  byIntent := tally.intents
  topAgents := (tally.agents.insertionSort AgentOrder).take topAgentsLimit
  windowStart := since
  windowEnd := tally.latest

def selectSince (since : Option String) (rows : List EntryRow) : List EntryRow :=
  (rows.filter fun r => since.all fun s => decide (s ≤ r.timestamp)).insertionSort
    fun r s => r.seq ≤ s.seq

def graduationStats (since : Option DateTime) (db : Db) : GraduationStats :=
  ((selectSince (since.map toRfc3339) db.entries).foldl Tally.count {}).stats since

section Dated

variable {α : Type} {rows : List α} {text : α → String} {stamp : α → Clock}

/-- The column holds the printed times of the rows. -/
def Dated (rows : List α) (text : α → String) (stamp : α → Clock) : Prop :=
  ∀ r ∈ rows, text r = toRfc3339 (stamp r)

theorem orderedInsert_congr {r s : α → α → Prop} [DecidableRel r] [DecidableRel s] {a : α}
    {l : List α} (h : ∀ b ∈ l, r a b ↔ s a b) : l.orderedInsert r a = l.orderedInsert s a := by
  induction l with
  | nil => rfl
  | cons b l ih =>
    rw [List.orderedInsert, List.orderedInsert, ih fun c hc => h c (List.mem_cons_of_mem _ hc)]
    exact if_congr (h b List.mem_cons_self) rfl rfl

theorem insertionSort_congr {r s : α → α → Prop} [DecidableRel r] [DecidableRel s] {l : List α}
    (h : ∀ a ∈ l, ∀ b ∈ l, r a b ↔ s a b) : l.insertionSort r = l.insertionSort s := by
  induction l with
  | nil => rfl
  | cons a l ih =>
    rw [List.insertionSort_cons, List.insertionSort_cons,
      ih fun x hx y hy => h x (List.mem_cons_of_mem _ hx) y (List.mem_cons_of_mem _ hy)]
    refine orderedInsert_congr fun b hb => h a List.mem_cons_self b (List.mem_cons_of_mem _ ?_)
    exact (List.mem_insertionSort _).mp hb

theorem Dated.le_iff (h : Dated rows text stamp) {r s : α} (hr : r ∈ rows) (hs : s ∈ rows) :
    text r ≤ text s ↔ nanos (stamp r) ≤ nanos (stamp s) := by
  rw [h r hr, h s hs]
  exact toRfc3339_le_iff (stamp r).property (stamp s).property

/-- A list of the rows is ordered by the texts exactly if it is by the instants. -/
theorem Dated.pairwise_iff (h : Dated rows text stamp) {l : List α} (hl : ∀ r ∈ l, r ∈ rows) :
    l.Pairwise (fun r s => text r ≤ text s) ↔
      l.Pairwise fun r s => nanos (stamp r) ≤ nanos (stamp s) :=
  List.Pairwise.iff_of_mem fun {_ _} hr hs => h.le_iff (hl _ hr) (hl _ hs)

end Dated

/-- The rows since an instant, and what is counted of them. -/
def graduationStatsAt (stamp : EntryRow → Clock) (since : Option Clock) (db : Db) :
    GraduationStats :=
  (((db.entries.filter fun r => since.all fun s => decide (nanos s ≤ nanos (stamp r))).insertionSort
    fun r s => r.seq ≤ s.seq).foldl Tally.count {}).stats (since.map (·.val))

theorem graduationStats_stamped {db : Db} {stamp : EntryRow → Clock}
    (h : Dated db.entries EntryRow.timestamp stamp) (since : Option Clock) :
    graduationStats (since.map (·.val)) db = graduationStatsAt stamp since db := by
  have hrows : ∀ r ∈ db.entries,
      (((since.map (·.val)).map toRfc3339).all fun s => decide (s ≤ r.timestamp)) =
        since.all fun s => decide (nanos s ≤ nanos (stamp r)) := by
    intro r hr
    cases since with
    | none => rfl
    | some s =>
      rw [h r hr]
      exact decide_eq_decide.mpr (toRfc3339_le_iff s.property (stamp r).property)
  rw [graduationStats, selectSince, List.filter_congr hrows]
  rfl

/-- Abandoned five minutes before the instant, by the instants of the rows. -/
def AbandonedAt (stamp : ExecutionRow → Clock) (now : Clock) (instanceId : String)
    (r : ExecutionRow) : Prop :=
  r.state = .inFlight ∧ r.reconciliationState = .pending ∧
    nanos (stamp r) ≤ nanos now - 300 * second ∧ r.ownerInstance.isSome ∧
      r.ownerInstance ≠ some instanceId

instance (stamp : ExecutionRow → Clock) (now : Clock) (instanceId : String) (r : ExecutionRow) :
    Decidable (AbandonedAt stamp now instanceId r) := by
  unfold AbandonedAt
  infer_instance

theorem selectAbandoned_stamped {db : Db} {stamp : ExecutionRow → Clock}
    (h : Dated db.serverExecutions ExecutionRow.createdAt stamp) (now : Clock)
    (instanceId : String) :
    selectAbandoned (toRfc3339 (minusSeconds now 300)) instanceId db =
      .ok (((db.serverExecutions.filter (AbandonedAt stamp now instanceId)).insertionSort
        fun r s => nanos (stamp r) ≤ nanos (stamp s)).take batchLimit, db) := by
  obtain ⟨hdec, hf, hmin, hmax⟩ := minusSeconds_reading now.property (s := 300) (by decide)
    (by decide) (by decide)
  have hshift := nanos_minusSeconds now.property.decoded (s := 300) (by decide) (by decide)
  have hrows : ∀ r ∈ db.serverExecutions,
      decide (Abandoned (toRfc3339 (minusSeconds now 300)) instanceId r) =
        decide (AbandonedAt stamp now instanceId r) := by
    intro r hr
    have hcut := toRfc3339_le_cutoff (stamp r).property hdec hf hmin hmax
    rw [hshift] at hcut
    rw [decide_eq_decide, Abandoned, AbandonedAt, h r hr, hcut]
  rw [selectAbandoned, List.filter_congr hrows, insertionSort_congr
    (s := fun r s => nanos (stamp r) ≤ nanos (stamp s))]
  intro r hr s hs
  exact h.le_iff (List.mem_of_mem_filter hr) (List.mem_of_mem_filter hs)

def selectPendingsAt (stamp : PendingRow → Clock) (filter : PendingFilter) (limit : UInt32)
    (sort : PendingSort) (tenant : Option String) (rows : List PendingRow) : List PendingRow :=
  ((rows.filter fun r => filter.Keeps r ∧ r.OfTenant tenant).insertionSort
    fun r s => sort.InOrder (nanos (stamp r)) (nanos (stamp s))).take limit.toNat

theorem selectPendings_stamped {rows : List PendingRow} {stamp : PendingRow → Clock}
    (h : Dated rows PendingRow.requestedAt stamp) (filter : PendingFilter) (limit : UInt32)
    (sort : PendingSort) (tenant : Option String) :
    selectPendings filter limit sort tenant rows =
      selectPendingsAt stamp filter limit sort tenant rows := by
  rw [selectPendings, selectPendingsAt, insertionSort_congr
    (s := fun r s => sort.InOrder (nanos (stamp r)) (nanos (stamp s)))]
  intro r hr s hs
  have hr := List.mem_of_mem_filter hr
  have hs := List.mem_of_mem_filter hs
  cases sort with
  | oldest => exact h.le_iff hr hs
  | newest => exact h.le_iff hs hr

variable {F}

def Printed (text : String) : Prop := ∃ t : Clock, text = toRfc3339 t

structure TimesPrinted (db : Db) : Prop where
  entries : ∀ r ∈ db.entries, Printed r.timestamp
  executions : ∀ r ∈ db.serverExecutions, Printed r.createdAt
  pendings : ∀ r ∈ db.pendings, Printed r.requestedAt

theorem Appends.printed {req : LogRequest} {db db' : Db} (h : Appends F req db db')
    (hp : TimesPrinted db) : TimesPrinted db' := by
  obtain ⟨id, now, tip, -, -, rfl⟩ := appends_entries h
  refine ⟨fun r hr => ?_, hp.executions, hp.pendings⟩
  rcases List.mem_append.mp hr with hr | hr
  · exact hp.entries r hr
  · rw [List.mem_singleton.mp hr]
    exact ⟨now, rfl⟩

theorem ExecutionEffect.printed {db db' : Db} (h : ExecutionEffect F db db')
    (hp : TimesPrinted db) : TimesPrinted db' := by
  have hmap : ∀ {p : ExecutionRow → Prop} [DecidablePred p] {f : ExecutionRow → ExecutionRow},
      (∀ r, (f r).createdAt = r.createdAt) →
        ∀ r ∈ db.serverExecutions.map (fun r => if p r then f r else r), Printed r.createdAt := by
    intro p _ f hf r hr
    obtain ⟨x, hx, rfl⟩ := List.mem_map.mp hr
    split_ifs
    · rw [hf]
      exact hp.executions x hx
    · exact hp.executions x hx
  cases h with
  | begins h =>
    obtain ⟨createdAt, happ⟩ := h.appends
    refine happ.printed ⟨hp.entries, fun r hr => ?_, hp.pendings⟩
    rcases List.mem_append.mp hr with hr | hr
    · exact hp.executions r hr
    · rw [List.mem_singleton.mp hr]
      exact ⟨createdAt, rfl⟩
  | completes h =>
    obtain ⟨now, -, -, happ⟩ := h.updates
    exact happ.printed ⟨hp.entries, hmap fun _ => rfl, hp.pendings⟩
  | classifies h =>
    obtain ⟨now, -, -, happ⟩ := h.updates
    exact happ.printed ⟨hp.entries, hmap fun _ => rfl, hp.pendings⟩

theorem ExecutionEffects.printed {db db' : Db} (h : ExecutionEffects F db db')
    (hp : TimesPrinted db) : TimesPrinted db' := by
  induction h with
  | refl => exact hp
  | tail _ hstep ih => exact hstep.printed ih

/-- A statement on `pendings` that stores no text but a printed time. -/
def PrintsPending : List (Call Sql) → ∀ {β : Type}, Sql β → Prop
  | _, _, .insertPending row => Printed row.requestedAt
  | _, _, op => OnPendings op

theorem printsPending_view {β : Type} (op : Sql β) {cs : List (Call Sql)}
    (hop : PrintsPending cs op) (s : Session StepEnv Db) (hs : TimesPrinted s.view) :
    TimesPrinted (op.answer s).2.view := by
  cases op with
  | newUuid => exact hs
  | utcNow => exact hs
  | insertPending row =>
    refine statement_view hs fun b v hx => ?_
    unfold insertPending at hx
    split_ifs at hx
    rw [← (Prod.mk.inj (Except.ok.inj hx)).2]
    refine ⟨hs.entries, hs.executions, fun r hr => ?_⟩
    rcases List.mem_append.mp hr with hr | hr
    · exact hs.pendings r hr
    · rw [List.mem_singleton.mp hr]
      exact hop
  | selectPending c t =>
    refine statement_view hs fun b v hx => ?_
    rw [← (Prod.mk.inj (Except.ok.inj hx)).2]
    exact hs
  | selectPendingForAgent c t a =>
    refine statement_view hs fun b v hx => ?_
    rw [← (Prod.mk.inj (Except.ok.inj hx)).2]
    exact hs
  | updatePending c t at' d n =>
    refine statement_view hs fun b v hx => ?_
    rw [← (Prod.mk.inj (Except.ok.inj hx)).2]
    refine ⟨hs.entries, hs.executions, fun r hr => ?_⟩
    obtain ⟨x, hx, rfl⟩ := List.mem_map.mp hr
    split_ifs <;> exact hs.pendings x hx
  | _ => exact hop.elim

theorem printed_autocommit {α : Type} {p : LedgerM α} (h : Prog.Safe PrintsPending p.run)
    (oracle : Oracle) {db : Db} (hp : TimesPrinted db) :
    TimesPrinted (runAutocommit p oracle db).2 :=
  h.run_invariant (Q := fun s => TimesPrinted s.view)
    (fun op _ s hop hs => printsPending_view op hop s hs) hp

theorem parkPending_prints (req : ParkRequest) :
    Prog.Safe PrintsPending (parkPending F req).run :=
  safe_bind (safe_lift fun _ => trivial) fun now =>
    safe_bind (safe_query fun _ => ⟨now, rfl⟩) fun _ => safe_pure _

theorem getPending_prints (c : String) : Prog.Safe PrintsPending (getPending F c).run := by
  refine safe_bind (safe_query fun _ => trivial) fun row => ?_
  cases row with
  | none => exact safe_pure _
  | some row => exact safe_bind (safe_liftExcept _) fun _ => safe_pure _

theorem decide_prints (c : String) (t : Option String) (d : String) (n : Option String)
    (oracle : Oracle) {db : Db} (hp : TimesPrinted db) :
    TimesPrinted (Ledger.decidePendingScoped F c t d n oracle db).2 := by
  unfold Ledger.decidePendingScoped
  by_cases hd : d ≠ "allow" ∧ d ≠ "deny"
  · rw [if_pos hd]
    exact hp
  · rw [if_neg hd]
    have hsafe : Prog.Safe PrintsPending (decideStored F c t d n).run :=
      decideStored_safe (fun _ => trivial) (fun _ => trivial) fun _ _ => trivial
    have hrun := printed_autocommit hsafe oracle hp
    generalize runAutocommit (decideStored F c t d n) oracle db = r at hrun ⊢
    obtain ⟨r, db'⟩ := r
    cases r <;> exact hrun

theorem LedgerOp.apply_printed (op : LedgerOp) (oracle : Oracle) {db : Db}
    (hp : TimesPrinted db) : TimesPrinted (op.apply F oracle db) := by
  cases op with
  | append req =>
    simp only [LedgerOp.apply]
    generalize hr : Ledger.append F req oracle db = r
    obtain ⟨r, db'⟩ := r
    cases r with
    | error e => rwa [append_error hr]
    | ok e => exact Appends.printed ⟨e, autocommit_ok hr⟩ hp
  | inspect b => rwa [LedgerOp.apply, inspect_db]
  | begin i b => exact (LedgerOp.onExecutions_effects (.begin i b) trivial oracle db).printed hp
  | complete b st ct body =>
    exact (LedgerOp.onExecutions_effects (.complete b st ct body) trivial oracle db).printed hp
  | reconcile i now =>
    exact (LedgerOp.onExecutions_effects (.reconcile i now) trivial oracle db).printed hp
  | park req => exact printed_autocommit (parkPending_prints req) oracle hp
  | decide c t d n => exact decide_prints c t d n oracle hp
  | getPending c => exact printed_autocommit (getPending_prints c) oracle hp

theorem runOps_printed (ops : List (LedgerOp × Oracle)) {db : Db} (hp : TimesPrinted db) :
    TimesPrinted (runOps F ops db) := by
  induction ops generalizing db with
  | nil => exact hp
  | cons op ops ih => exact ih (op.1.apply_printed op.2 hp)

theorem timesPrinted_empty : TimesPrinted Db.empty where
  entries _ hr := absurd hr List.not_mem_nil
  executions _ hr := absurd hr List.not_mem_nil
  pendings _ hr := absurd hr List.not_mem_nil

/-- Rows whose texts are printed stand for instants. -/
theorem dated_of_printed {α : Type} {rows : List α} {text : α → String}
    (h : ∀ r ∈ rows, Printed (text r)) : ∃ stamp, Dated rows text stamp := by
  classical
  refine ⟨fun r => if hr : Printed (text r) then hr.choose else noon, fun r hr => ?_⟩
  simp only [dif_pos (h r hr)]
  exact (h r hr).choose_spec

variable (F)

/-- Printed times are ordered as their instants are and read back as printed, so
the queries that compare texts select and order the rows as instants would; and
every time that the ledger's operations store is a printed one. -/
theorem stored_times_chronological :
    (∀ t u : Clock, (utf8 (toRfc3339 t) < utf8 (toRfc3339 u) ↔ nanos t < nanos u) ∧
      parseFromRfc3339 (toRfc3339 t) = some t.val) ∧
    (∀ {α : Type} (rows : List α) (text : α → String) (stamp : α → Clock),
      Dated rows text stamp → ∀ l : List α, (∀ r ∈ l, r ∈ rows) →
        (l.Pairwise (fun r s => text r ≤ text s) ↔
          l.Pairwise fun r s => nanos (stamp r) ≤ nanos (stamp s))) ∧
    (∀ (db : Db) (stamp : EntryRow → Clock), Dated db.entries EntryRow.timestamp stamp →
      ∀ since : Option Clock,
        graduationStats (since.map (·.val)) db = graduationStatsAt stamp since db) ∧
    (∀ (db : Db) (stamp : ExecutionRow → Clock),
      Dated db.serverExecutions ExecutionRow.createdAt stamp →
      ∀ (now : Clock) (instanceId : String),
        selectAbandoned (toRfc3339 (minusSeconds now 300)) instanceId db =
          .ok (((db.serverExecutions.filter (AbandonedAt stamp now instanceId)).insertionSort
            fun r s => nanos (stamp r) ≤ nanos (stamp s)).take batchLimit, db)) ∧
    (∀ (db : Db) (stamp : PendingRow → Clock),
      Dated db.pendings PendingRow.requestedAt stamp →
      ∀ (filter : PendingFilter) (limit : UInt32) (sort : PendingSort),
        listPendings F filter limit sort db =
            (selectPendingsAt stamp filter limit sort none db.pendings).mapM (rowToPending F) ∧
          ∀ tenant, listPendingsForTenant F filter limit sort tenant db =
            (selectPendingsAt stamp filter limit sort (some tenant) db.pendings).mapM
              (rowToPending F)) ∧
    ∀ ops : List (LedgerOp × Oracle),
      (∃ stamp, Dated (runOps F ops Db.empty).entries EntryRow.timestamp stamp) ∧
        (∃ stamp, Dated (runOps F ops Db.empty).serverExecutions ExecutionRow.createdAt stamp) ∧
        ∃ stamp, Dated (runOps F ops Db.empty).pendings PendingRow.requestedAt stamp := by
  refine ⟨fun t u => ⟨utf8_lt_iff t.property u.property, parseFromRfc3339_toRfc3339 t.property⟩,
    fun rows text stamp h l hl => h.pairwise_iff hl, fun db stamp h => graduationStats_stamped h,
    fun db stamp h => selectAbandoned_stamped h, ?_, ?_⟩
  · intro db stamp h filter limit sort
    refine ⟨?_, fun tenant => ?_⟩
    · rw [listPendings, selectPendings_stamped h]
    · rw [listPendingsForTenant, selectPendings_stamped h]
  · intro ops
    have hp := runOps_printed (F := F) ops timesPrinted_empty
    exact ⟨dated_of_printed hp.entries, dated_of_printed hp.executions,
      dated_of_printed hp.pendings⟩

theorem stored_times_chronological_noon :
    utf8 (toRfc3339 newYear) < utf8 (toRfc3339 noon) :=
  ((stored_times_chronological bitsText).1 newYear noon).1.mpr (by decide)

end ClavenarLite
