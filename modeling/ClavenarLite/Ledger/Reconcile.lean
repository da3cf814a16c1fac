import ClavenarLite.Ledger.Listings
import ClavenarLite.Ledger.Steady
import ClavenarLite.Lib.Keyed

/-! Reconciling the executions that other instances abandoned: which rows a call
takes, and what it leaves of them. -/

namespace ClavenarLite

open Bytes Rfc3339 TextJson Transaction

variable (F : FloatText)

def ExecutionRow.createdNanos (r : ExecutionRow) : Int :=
  (parseFromRfc3339 r.createdAt).elim 0 nanos

/-- In flight and pending for five minutes at the instant, by another instance. -/
def Eligible (now : Clock) (instanceId : String) (r : ExecutionRow) : Prop :=
  r.state = .inFlight ∧ r.reconciliationState = .pending ∧
    r.createdNanos ≤ nanos now - 300 * second ∧ ∃ owner ∈ r.ownerInstance, owner ≠ instanceId

instance (now : Clock) (instanceId : String) (r : ExecutionRow) :
    Decidable (Eligible now instanceId r) := by
  unfold Eligible
  infer_instance

/-- The eligible rows, oldest first. -/
def eligibleRows (now : Clock) (instanceId : String) (db : Db) : List ExecutionRow :=
  (db.serverExecutions.filter (Eligible now instanceId)).insertionSort
    fun r s => r.createdNanos ≤ s.createdNanos

def reconcileBatch (now : Clock) (instanceId : String) (db : Db) : List ExecutionRow :=
  (eligibleRows now instanceId db).take batchLimit

/-- The rows become uncertain, each with one outbox row and one entry, and
nothing else changes. -/
structure Reconciles (rows : List ExecutionRow) (now : String) (db db' : Db) : Prop where
  executions : db'.serverExecutions =
    db.serverExecutions.map fun r => if r ∈ rows then r.toUncertain now else r
  outbox : db'.serverExecutionOutbox =
    db.serverExecutionOutbox ++ rows.map fun r => uncertainOutboxRow F r now
  entries : ∃ es, db'.entries = db.entries ++ es ∧
    List.Forall₂ (fun r e => ∃ id t tip, e = (newEntry F id t tip (uncertainRequest r)).row F)
      rows es
  pendings : db'.pendings = db.pendings

def completedEventName (executionId : String) : Octets :=
  utf8 ("clavenar.server-execution/v1\x00outbox\x00" ++ executionId)

def reconciliationEventName (executionId : String) : Octets :=
  utf8 ("clavenar.server-execution/v1\x00reconciliation\x00" ++ executionId ++ "\x00uncertain")

/-- The names whose version 5 identifiers the executions can put in the outbox. -/
def Db.eventNames (db : Db) : Set Octets :=
  {name | ∃ r ∈ db.serverExecutions,
    name = completedEventName r.executionId ∨ name = reconciliationEventName r.executionId}

def IsEventOf (executionId eventId : String) : Prop :=
  eventId = (Uuid.newV5 Uuid.namespaceUrl (completedEventName executionId)).text ∨
    eventId = (Uuid.newV5 Uuid.namespaceUrl (reconciliationEventName executionId)).text

/-- An execution has one row, and whoever has an outbox row awaits nothing. -/
structure Accounted (db : Db) : Prop where
  named : ∀ r ∈ db.serverExecutions, r.executionId = (executionIdFor r.agentId r.idempotencyId).text
  distinct : (db.serverExecutions.map ExecutionRow.executionId).Nodup
  outbox : ∀ o ∈ db.serverExecutionOutbox, ∃ r ∈ db.serverExecutions,
    r.executionId = o.executionId ∧ ¬ AwaitsReconciliation r.executionId r ∧
      IsEventOf r.executionId o.eventId

variable {F} {db db' : Db}

theorem Accounted.of_tables (h : Accounted db) (hs : db'.serverExecutions = db.serverExecutions)
    (ho : db'.serverExecutionOutbox = db.serverExecutionOutbox) : Accounted db' := by
  refine ⟨?_, ?_, ?_⟩
  · rw [hs]
    exact h.named
  · rw [hs]
    exact h.distinct
  · rw [hs, ho]
    exact h.outbox

theorem Accounted.appends {req : LogRequest} (h : Accounted db) (ha : Appends F req db db') :
    Accounted db' :=
  h.of_tables (appends_tables ha).1 (appends_tables ha).2.1

theorem Accounted.unique (h : Accounted db) {r s : ExecutionRow} (hr : r ∈ db.serverExecutions)
    (hs : s ∈ db.serverExecutions) (he : r.executionId = s.executionId) : r = s :=
  List.inj_on_of_nodup_map h.distinct hr hs he

/-- The rows with the condition are settled, and an outbox row for one of them
is added. -/
theorem Accounted.settle {p : ExecutionRow → Prop} [DecidablePred p]
    {f : ExecutionRow → ExecutionRow} {out : OutboxRow} (h : Accounted db)
    (hcols : ∀ r, (f r).columns = r.columns)
    (hset : ∀ r, ¬ AwaitsReconciliation r.executionId (f r))
    (hout : ∃ r ∈ db.serverExecutions, p r ∧ r.executionId = out.executionId ∧
      IsEventOf r.executionId out.eventId) :
    Accounted { db with
      serverExecutions := db.serverExecutions.map fun r => if p r then f r else r
      serverExecutionOutbox := db.serverExecutionOutbox ++ [out] } := by
  have hid : ∀ r, (f r).executionId = r.executionId := fun r =>
    congrArg RequestColumns.executionId (hcols r)
  have hkeep : ∀ {o : OutboxRow}, (∃ r ∈ db.serverExecutions, r.executionId = o.executionId ∧
      (p r ∨ ¬ AwaitsReconciliation r.executionId r) ∧ IsEventOf r.executionId o.eventId) →
      ∃ r ∈ db.serverExecutions.map (fun r => if p r then f r else r),
        r.executionId = o.executionId ∧ ¬ AwaitsReconciliation r.executionId r ∧
          IsEventOf r.executionId o.eventId := by
    rintro o ⟨r, hr, he, hset', hev⟩
    by_cases hp : p r
    · have hmem : f r ∈ db.serverExecutions.map (fun r => if p r then f r else r) :=
        List.mem_map.mpr ⟨r, hr, if_pos hp⟩
      refine ⟨f r, hmem, (hid r).trans he, ?_, ?_⟩
      · rw [hid]
        exact hset r
      · rw [hid]
        exact hev
    · exact ⟨r, mem_map_update hr hp, he, hset'.resolve_left hp, hev⟩
  refine ⟨?_, ?_, ?_⟩
  · intro r' hr'
    obtain ⟨r, hr, rfl⟩ := List.mem_map.mp hr'
    by_cases hp : p r
    · have hc := hcols r
      have hn := h.named r hr
      simp only [ExecutionRow.columns, RequestColumns.mk.injEq] at hc
      rw [if_pos hp, hc.1, hc.2.1, hc.2.2.1, hn]
    · rw [if_neg hp]
      exact h.named r hr
  · rw [map_update hid]
    exact h.distinct
  · intro o ho
    rcases List.mem_append.mp ho with ho | ho
    · obtain ⟨r, hr, he, hset', hev⟩ := h.outbox o ho
      exact hkeep ⟨r, hr, he, Or.inr hset', hev⟩
    · obtain rfl := List.mem_singleton.mp ho
      obtain ⟨r, hr, hp, he, hev⟩ := hout
      exact hkeep ⟨r, hr, he, Or.inl hp, hev⟩

theorem Begins.accounted {i : String} {b : ServerExecutionBinding} (h : Begins F i b db db')
    (ha : Accounted db) : Accounted db' := by
  obtain ⟨createdAt, happ⟩ := h.appends
  have hnew : Accounted (db.withIntent (intentRow i b createdAt)) := by
    refine ⟨?_, ?_, ?_⟩
    · intro r hr
      rcases List.mem_append.mp hr with hr | hr
      · exact ha.named r hr
      · rw [List.mem_singleton.mp hr]
        rfl
    · rw [Db.withIntent, List.map_append, List.nodup_append]
      refine ⟨ha.distinct, by simp, ?_⟩
      intro id hid id' hid' he
      obtain ⟨r, hr, rfl⟩ := List.mem_map.mp hid
      rw [List.map_singleton, List.mem_singleton] at hid'
      exact h.free r hr (he.trans hid')
    · intro o ho
      obtain ⟨r, hr, hrest⟩ := ha.outbox o ho
      exact ⟨r, List.mem_append_left _ hr, hrest⟩
  exact hnew.appends happ

theorem Completes.accounted {b : ServerExecutionBinding} {st : UInt16} {ct : Option String}
    {body : Octets} (h : Completes F b st ct body db db') (ha : Accounted db) :
    Accounted db' := by
  obtain ⟨now, hone, -, happ⟩ := h.updates
  obtain ⟨r, hr, hm⟩ := exists_of_countP hone
  have hid : r.executionId = b.executionId.text := by
    rw [ha.named r hr, hm.1, hm.2.1]
    rfl
  have hset : Accounted (db.withCompletion (completionOf F b st ct body now)
      (completedOutboxRow F b st body now)) := by
    refine ha.settle (fun _ => rfl) (fun r hw => absurd hw.2.1 (by simp [Completion.apply])) ?_
    refine ⟨r, hr, hm, hid, ?_⟩
    rw [hid]
    exact Or.inl rfl
  exact hset.appends happ

theorem Classifies.accounted {row : ExecutionRow} (h : Classifies F row db db')
    (ha : Accounted db) : Accounted db' := by
  obtain ⟨now, hone, -, happ⟩ := h.updates
  obtain ⟨r, hr, hw⟩ := exists_of_countP hone
  have hset : Accounted (db.withUncertain row.executionId now (uncertainOutboxRow F row now)) := by
    refine ha.settle (fun _ => rfl)
      (fun r hw => absurd hw.2.2 (by simp [ExecutionRow.toUncertain])) ?_
    refine ⟨r, hr, hw, hw.1, ?_⟩
    rw [hw.1]
    exact Or.inr rfl
  exact hset.appends happ

theorem Effect.accounted (h : Effect F db db') (ha : Accounted db) : Accounted db' := by
  cases h with
  | execution h =>
    cases h with
    | begins h => exact h.accounted ha
    | completes h => exact h.accounted ha
    | classifies h => exact h.accounted ha
  | append h => exact ha.appends h
  | pendings h =>
    subst h
    exact ha.of_tables rfl rfl

theorem Effects.accounted (h : Effects F db db') (ha : Accounted db) : Accounted db' := by
  induction h with
  | refl => exact ha
  | tail _ he ih => exact he.accounted ih

theorem accounted_empty : Accounted Db.empty where
  named := by simp [Db.empty]
  distinct := by simp [Db.empty]
  outbox := by simp [Db.empty]

theorem Accounted.awaiting_iff (h : Accounted db) {row : ExecutionRow}
    (hrow : row ∈ db.serverExecutions) (hw : AwaitsReconciliation row.executionId row)
    {r : ExecutionRow} (hr : r ∈ db.serverExecutions) :
    AwaitsReconciliation row.executionId r ↔ r = row := by
  constructor
  · intro ha
    exact h.unique hr hrow ha.1
  · rintro rfl
    exact hw

theorem Accounted.classified (h : Accounted db) {row : ExecutionRow}
    (hrow : row ∈ db.serverExecutions) (hw : AwaitsReconciliation row.executionId row)
    (now : String) (out : OutboxRow) :
    (db.withUncertain row.executionId now out).serverExecutions =
      db.serverExecutions.map fun r => if r = row then r.toUncertain now else r := by
  refine List.map_congr_left fun r hr => ?_
  exact if_congr (h.awaiting_iff hrow hw hr) rfl rfl

/-- The rows are among the executions, each once, and await reconciliation. -/
structure Awaiting (rows : List ExecutionRow) (db : Db) : Prop where
  nodup : rows.Nodup
  stored : ∀ r ∈ rows, r ∈ db.serverExecutions
  awaits : ∀ r ∈ rows, AwaitsReconciliation r.executionId r

theorem Awaiting.rest {row : ExecutionRow} {rows : List ExecutionRow} {now : String}
    (h : Awaiting (row :: rows) db)
    (hs : db'.serverExecutions =
      db.serverExecutions.map fun r => if r = row then r.toUncertain now else r) :
    Awaiting rows db' := by
  obtain ⟨hnot, hnodup⟩ := List.nodup_cons.mp h.nodup
  refine ⟨hnodup, fun r hr => ?_, fun r hr => h.awaits r (List.mem_cons_of_mem _ hr)⟩
  have hne : r ≠ row := by
    rintro rfl
    exact hnot hr
  rw [hs]
  exact mem_map_update (h.stored r (List.mem_cons_of_mem _ hr)) hne

theorem reconciles_nil (now : String) (db : Db) : Reconciles F [] now db db where
  executions := by simp
  outbox := by simp
  entries := ⟨[], by simp, .nil⟩
  pendings := rfl

theorem Reconciles.cons {row : ExecutionRow} {rows : List ExecutionRow} {now : String}
    {db₁ : Db} (h : Reconciles F rows now db₁ db') (hw : Awaiting (row :: rows) db)
    (hs : db₁.serverExecutions =
      db.serverExecutions.map fun r => if r = row then r.toUncertain now else r)
    (ho : db₁.serverExecutionOutbox = db.serverExecutionOutbox ++ [uncertainOutboxRow F row now])
    (he : ∃ id t tip, db₁.entries =
      db.entries ++ [(newEntry F id t tip (uncertainRequest row)).row F])
    (hp : db₁.pendings = db.pendings) : Reconciles F (row :: rows) now db db' := by
  refine ⟨?_, ?_, ?_, h.pendings.trans hp⟩
  · rw [h.executions, hs, List.map_map]
    refine List.map_congr_left fun r _ => ?_
    by_cases hr : r = row
    · have hnot : row.toUncertain now ∉ rows := by
        intro hmem
        have ha := (hw.awaits _ (List.mem_cons_of_mem _ hmem)).2.2
        exact absurd ha (by simp [ExecutionRow.toUncertain])
      subst hr
      simp [hnot]
    · simp [hr]
  · rw [h.outbox, ho, List.map_cons, List.append_assoc]
    rfl
  · obtain ⟨id, t, tip, he⟩ := he
    obtain ⟨es, hes, hall⟩ := h.entries
    refine ⟨_ :: es, ?_, .cons ⟨id, t, tip, rfl⟩ hall⟩
    rw [hes, he, List.append_assoc]
    rfl

theorem results_reconciled {now : String} {rows : List ExecutionRow} {u : PUnit}
    (h : Results (rows.forM (classifyUncertain F now)) db u db') (ha : Accounted db)
    (hw : Awaiting rows db) : Reconciles F rows now db db' := by
  induction rows generalizing db with
  | nil =>
    obtain ⟨-, rfl⟩ := h.pure
    exact reconciles_nil now db'
  | cons row rows ih =>
    have hstep : Results (classifyUncertain F now row >>= fun _ =>
      rows.forM (classifyUncertain F now)) db u db' := h
    obtain ⟨_, db₁, hrow, hrest⟩ := hstep.bind
    obtain ⟨-, -, happ⟩ := results_classified hrow
    have ha₁ : Accounted db₁ := (results_classify hrow).accounted ha
    obtain ⟨id, t, tip, -, -, rfl⟩ := appends_entries happ
    have hs := ha.classified (hw.stored row List.mem_cons_self) (hw.awaits row List.mem_cons_self)
      now (uncertainOutboxRow F row now)
    have hrec := ih hrest ha₁ (hw.rest hs)
    exact hrec.cons hw hs rfl ⟨id, t, tip, rfl⟩ rfl

theorem createdNanos_dated {stamp : ExecutionRow → Clock}
    (h : Dated db.serverExecutions ExecutionRow.createdAt stamp) {r : ExecutionRow}
    (hr : r ∈ db.serverExecutions) : r.createdNanos = nanos (stamp r) := by
  rw [ExecutionRow.createdNanos, h r hr, parseFromRfc3339_toRfc3339 (stamp r).property]
  rfl

theorem eligible_iff_abandoned {stamp : ExecutionRow → Clock}
    (h : Dated db.serverExecutions ExecutionRow.createdAt stamp) {now : Clock} {i : String}
    {r : ExecutionRow} (hr : r ∈ db.serverExecutions) :
    Eligible now i r ↔ AbandonedAt stamp now i r := by
  rw [Eligible, AbandonedAt, createdNanos_dated h hr]
  cases ho : r.ownerInstance <;> simp

theorem selectAbandoned_eligible (hp : TimesPrinted db) (now : Clock) (i : String) :
    selectAbandoned (toRfc3339 (minusSeconds now 300)) i db =
      .ok (reconcileBatch now i db, db) := by
  obtain ⟨stamp, h⟩ := dated_of_printed hp.executions
  have hfilter : db.serverExecutions.filter (AbandonedAt stamp now i) =
      db.serverExecutions.filter (Eligible now i) :=
    List.filter_congr fun r hr => decide_eq_decide.mpr (eligible_iff_abandoned h hr).symm
  have hsort : ∀ r ∈ db.serverExecutions.filter (Eligible now i),
      ∀ s ∈ db.serverExecutions.filter (Eligible now i),
        nanos (stamp r) ≤ nanos (stamp s) ↔ r.createdNanos ≤ s.createdNanos := by
    intro r hr s hs
    rw [createdNanos_dated h (List.mem_of_mem_filter hr),
      createdNanos_dated h (List.mem_of_mem_filter hs)]
  rw [selectAbandoned_stamped h, hfilter, insertionSort_congr hsort]
  rfl

theorem mem_reconcileBatch {now : Clock} {i : String} {r : ExecutionRow}
    (h : r ∈ reconcileBatch now i db) : r ∈ db.serverExecutions ∧ Eligible now i r := by
  have hsorted := (List.mem_insertionSort _).mp (List.mem_of_mem_take h)
  obtain ⟨hr, he⟩ := List.mem_filter.mp hsorted
  exact ⟨hr, of_decide_eq_true he⟩

theorem Accounted.batch_awaiting (h : Accounted db) (now : Clock) (i : String) :
    Awaiting (reconcileBatch now i db) db := by
  refine ⟨?_, fun r hr => (mem_reconcileBatch hr).1, fun r hr => ?_⟩
  · have hnodup : (eligibleRows now i db).Nodup :=
      (List.perm_insertionSort _ _).nodup_iff.mpr (h.distinct.of_map.filter _)
    exact hnodup.sublist (List.take_sublist _ _)
  · obtain ⟨hs, hp, -, -⟩ := (mem_reconcileBatch hr).2
    exact ⟨rfl, hs, hp⟩

/-- Whatever the surroundings do, a call that succeeds has reconciled its batch. -/
theorem reconcile_reconciles {i : String} {now : Clock} {oracle : Oracle} {n : Nat}
    (ha : Accounted db) (hp : TimesPrinted db)
    (h : Ledger.reconcileServerExecutionsAt F i now oracle db = (.ok n, db')) :
    n = (reconcileBatch now i db).length ∧
      Reconciles F (reconcileBatch now i db) (toRfc3339 now) db db' := by
  have hresults : ∀ {ending v}, Results (reconcileServerExecutionsAt F i now) db ending v →
      ending = .commit (reconcileBatch now i db).length ∧
        Reconciles F (reconcileBatch now i db) (toRfc3339 now) db v := by
    intro ending v hr
    obtain ⟨rows, db₁, hq, h₁⟩ := hr.bind
    have hx := results_query (fun _ => rfl) hq
    rw [selectAbandoned_eligible hp] at hx
    obtain ⟨rfl, rfl⟩ := Prod.mk.inj (Except.ok.inj hx)
    obtain ⟨_, db₂, hall, h₂⟩ := h₁.bind
    obtain ⟨rfl, rfl⟩ := h₂.pure
    exact ⟨rfl, results_reconciled hall ha (ha.batch_awaiting now i)⟩
  rcases transaction_ok h with ⟨-, v, hr⟩ | hc
  · exact absurd (hresults hr).1 (by simp)
  · obtain ⟨he, hrec⟩ := hresults hc
    exact ⟨Ending.commit.inj he, hrec⟩

end ClavenarLite
