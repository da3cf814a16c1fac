import ClavenarLite.Ledger.Reconcile
import Mathlib.Algebra.Order.Floor.Div

/-! Progress of reconciling. Where storage does not fail a call classifies its whole batch,
and so repeated calls leave no abandoned execution. -/

namespace ClavenarLite

open Bytes Rfc3339 TextJson Transaction

variable {F : FloatText} {db db' : Db}

/-- What one call may take: the transaction and the query, and six steps for
each row of a batch. -/
def reconcileSteps : Nat := 2 + 6 * batchLimit

/-- No statement fails, and the identifiers drawn from step `first` on are new. -/
structure Reliable (oracle : Oracle) (first : Nat) (db : Db) : Prop where
  runs : ∀ n, (oracle n).fails = false
  distinct : ∀ m n, first ≤ m → m < n → n < reconcileSteps → (oracle m).uuid ≠ (oracle n).uuid
  fresh : ∀ n, first ≤ n → n < reconcileSteps → db.FreshId (oracle n).uuid

theorem Reliable.mono {oracle : Oracle} {first n : Nat} (h : Reliable oracle first db)
    (hn : first ≤ n) : Reliable oracle n db where
  runs := h.runs
  distinct m k hm := h.distinct m k (hn.trans hm)
  fresh k hk := h.fresh k (hn.trans hk)

theorem completedEventName_ne (id id' : String) :
    completedEventName id ≠ reconciliationEventName id' := by
  intro h
  have hs := congrArg (fun s : String => s.toList[29]?) (utf8_injective h)
  simp only [String.toList_append] at hs
  revert hs
  simp

theorem reconciliationEventName_injective : Function.Injective reconciliationEventName := by
  intro id id' h
  have hs := congrArg String.toList (utf8_injective h)
  simp only [String.toList_append] at hs
  exact String.toList_inj.mp (List.append_cancel_left (List.append_cancel_right hs))

theorem mem_eventNames_completed {r : ExecutionRow} (hr : r ∈ db.serverExecutions) :
    completedEventName r.executionId ∈ db.eventNames := ⟨r, hr, Or.inl rfl⟩

theorem mem_eventNames_reconciliation {r : ExecutionRow} (hr : r ∈ db.serverExecutions) :
    reconciliationEventName r.executionId ∈ db.eventNames := ⟨r, hr, Or.inr rfl⟩

/-- A row that awaits reconciliation has nothing in the outbox, under either column. -/
theorem Accounted.outboxFree (h : Accounted db)
    (hv5 : Set.InjOn (Uuid.newV5 Uuid.namespaceUrl) db.eventNames) {row : ExecutionRow}
    (hrow : row ∈ db.serverExecutions) (hw : AwaitsReconciliation row.executionId row)
    (now : String) : OutboxFree db (uncertainOutboxRow F row now) := by
  intro o ho
  obtain ⟨r, hr, he, hnot, hev⟩ := h.outbox o ho
  have hne : r.executionId ≠ row.executionId := by
    intro hid
    obtain rfl := h.unique hr hrow hid
    exact hnot hw
  refine ⟨fun heq => ?_, fun heq => hne (he.trans heq)⟩
  rcases hev with hev | hev
  · have hname := hv5 (mem_eventNames_completed hr) (mem_eventNames_reconciliation hrow)
      (Uuid.text_injective (hev.symm.trans heq))
    exact completedEventName_ne _ _ hname
  · have hname := hv5 (mem_eventNames_reconciliation hr) (mem_eventNames_reconciliation hrow)
      (Uuid.text_injective (hev.symm.trans heq))
    exact hne (reconciliationEventName_injective hname)

theorem Accounted.awaiting_count (h : Accounted db) {row : ExecutionRow}
    (hrow : row ∈ db.serverExecutions) (hw : AwaitsReconciliation row.executionId row) :
    db.serverExecutions.countP (AwaitsReconciliation row.executionId) = 1 := by
  rw [Keyed.countP_key h.distinct row.executionId fun r hr => (of_decide_eq_true hr).1, if_pos]
  exact List.any_eq_true.mpr ⟨row, hrow, decide_eq_true hw⟩

/-- The file after one row has been classified. -/
def Db.classified (F : FloatText) (db : Db) (u : Uuid) (t : Clock) (now : String)
    (row : ExecutionRow) : Db :=
  let marked := db.withUncertain row.executionId now (uncertainOutboxRow F row now)
  marked.withEntry ((entryFor F marked u t (uncertainRequest row)).row F)

theorem reaches_classify {row : ExecutionRow} (now : String) {oracle : Oracle} {n : Nat}
    (hr : Reliable oracle n db) (hn : n + 6 ≤ reconcileSteps)
    (hone : db.serverExecutions.countP (AwaitsReconciliation row.executionId) = 1)
    (hfree : OutboxFree db (uncertainOutboxRow F row now)) :
    Reaches Sql.answer oracle (classifyUncertain F now row) n db ⟨⟩ (n + 6)
      (db.classified F (oracle (n + 3)).uuid (oracle (n + 4)).now now row) := by
  have hmark : markUncertain row.executionId now db = .ok (1, { db with
      serverExecutions := db.serverExecutions.map fun r =>
        if AwaitsReconciliation row.executionId r then r.toUncertain now else r }) := by
    rw [markUncertain, updateRows, hone]
  have hinsert : insertOutbox (uncertainOutboxRow F row now) { db with
      serverExecutions := db.serverExecutions.map fun r =>
        if AwaitsReconciliation row.executionId r then r.toUncertain now else r } =
      .ok ((), db.withUncertain row.executionId now (uncertainOutboxRow F row now)) := by
    unfold insertOutbox
    rw [if_neg ?_]
    · rfl
    · rintro ⟨r, hmem, he | he⟩
      · exact (hfree r hmem).1 he
      · exact (hfree r hmem).2 he
  have hfresh : (db.withUncertain row.executionId now (uncertainOutboxRow F row now)).FreshId
      (oracle (n + 2 + 1)).uuid := hr.fresh _ (by omega) (by omega)
  unfold classifyUncertain
  refine (reaches_query (fun _ => rfl) (hr.runs n) hmark).bind ?_
  refine (reaches_query (fun _ => rfl) (hr.runs _) hinsert).bind ?_
  exact (reaches_append hr.runs hfresh).bind .pure

theorem Reliable.classified {row : ExecutionRow} {now : String} {t : Clock} {oracle : Oracle}
    {n : Nat} (hr : Reliable oracle n db) :
    Reliable oracle (n + 6) (db.classified F (oracle (n + 3)).uuid t now row) := by
  refine ⟨hr.runs, (hr.mono (by omega)).distinct, fun k hk hlt => ?_⟩
  have hold : (db.withUncertain row.executionId now (uncertainOutboxRow F row now)).FreshId
      (oracle k).uuid := hr.fresh k (by omega) hlt
  exact hold.withEntry (hr.distinct _ k (by omega) (by omega) hlt)

theorem eventNames_congr (h : db'.serverExecutions.map ExecutionRow.executionId =
    db.serverExecutions.map ExecutionRow.executionId) : db'.eventNames = db.eventNames := by
  have hnames : ∀ d : Db, d.eventNames = {name | ∃ id ∈ d.serverExecutions.map
      ExecutionRow.executionId, name = completedEventName id ∨ name = reconciliationEventName id} := by
    intro d
    simp [Db.eventNames]
  rw [hnames, hnames, h]

theorem classified_executionIds (u : Uuid) (t : Clock) (now : String) (row : ExecutionRow) :
    (db.classified F u t now row).serverExecutions.map ExecutionRow.executionId =
      db.serverExecutions.map ExecutionRow.executionId :=
  map_update (p := AwaitsReconciliation row.executionId) (f := ExecutionRow.toUncertain now)
    (fun _ => rfl) db.serverExecutions

theorem reaches_classifyAll {rows : List ExecutionRow} (now : String) {oracle : Oracle} {n : Nat}
    (ha : Accounted db) (hv5 : Set.InjOn (Uuid.newV5 Uuid.namespaceUrl) db.eventNames)
    (hw : Awaiting rows db) (hr : Reliable oracle n db)
    (hn : n + 6 * rows.length ≤ reconcileSteps) :
    ∃ m db', Reaches Sql.answer oracle (rows.forM (classifyUncertain F now)) n db ⟨⟩ m db' := by
  induction rows generalizing db n with
  | nil => exact ⟨n, db, Reaches.pure⟩
  | cons row rows ih =>
    have hrow := hw.stored row List.mem_cons_self
    have haw := hw.awaits row List.mem_cons_self
    rw [List.length_cons] at hn
    have hstep := reaches_classify (F := F) now hr (by omega)
      (ha.awaiting_count hrow haw) (ha.outboxFree hv5 hrow haw now)
    have ha₁ := (results_classify hstep.yields).accounted ha
    have hs := ha.classified hrow haw now (uncertainOutboxRow F row now)
    rw [← eventNames_congr (classified_executionIds (F := F) _ _ now row)] at hv5
    obtain ⟨m, db', hrest⟩ := ih ha₁ hv5 (hw.rest hs) hr.classified (by omega)
    exact ⟨m, db', hstep.bind hrest⟩

theorem eligibleRows_length (now : Clock) (i : String) (db : Db) :
    (eligibleRows now i db).length = db.serverExecutions.countP (Eligible now i) := by
  rw [eligibleRows, List.length_insertionSort, List.countP_eq_length_filter]

theorem toUncertain_not_eligible (now : Clock) (i t : String) (r : ExecutionRow) :
    ¬ Eligible now i (r.toUncertain t) := by
  intro h
  exact absurd h.2.1 (by simp [ExecutionRow.toUncertain])

theorem batch_count (ha : Accounted db) (now : Clock) (i : String) :
    db.serverExecutions.countP (fun r => Eligible now i r ∧ r ∈ reconcileBatch now i db) =
      (reconcileBatch now i db).length := by
  rw [List.countP_eq_length_filter]
  refine List.Perm.length_eq ((List.perm_ext_iff_of_nodup (ha.distinct.of_map.filter _)
    (ha.batch_awaiting now i).nodup).mpr fun r => ?_)
  rw [List.mem_filter, decide_eq_true_iff]
  constructor
  · rintro ⟨-, -, hr⟩
    exact hr
  · intro hr
    exact ⟨(mem_reconcileBatch hr).1, (mem_reconcileBatch hr).2, hr⟩

/-- A call leaves a batch fewer of the eligible rows. -/
theorem Reconciles.eligible_length {now : Clock} {i t : String} (ha : Accounted db)
    (h : Reconciles F (reconcileBatch now i db) t db db') :
    (eligibleRows now i db').length = (eligibleRows now i db).length - batchLimit := by
  have hleft : db'.serverExecutions.countP (Eligible now i) =
      db.serverExecutions.countP fun r => Eligible now i r ∧ r ∉ reconcileBatch now i db := by
    rw [h.executions, List.countP_map]
    refine List.countP_congr fun r _ => ?_
    by_cases hr : r ∈ reconcileBatch now i db
    · simp [hr, toUncertain_not_eligible]
    · simp [hr]
  have hsplit : db.serverExecutions.countP (Eligible now i) =
      db.serverExecutions.countP (fun r => Eligible now i r ∧ r ∈ reconcileBatch now i db) +
        db.serverExecutions.countP fun r => Eligible now i r ∧ r ∉ reconcileBatch now i db := by
    rw [List.countP_eq_countP_filter_add _ _ fun r => decide (r ∈ reconcileBatch now i db),
      List.countP_filter, List.countP_filter]
    simp only [Bool.decide_and, decide_not]
  have hbatch : (reconcileBatch now i db).length =
      min batchLimit (eligibleRows now i db).length := List.length_take
  rw [batch_count ha now i] at hsplit
  rw [eligibleRows_length] at hbatch ⊢
  rw [eligibleRows_length, hleft]
  omega

theorem outcomeOf_toUncertain (b : ServerExecutionBinding) (t : String) (o : Option ExecutionRow) :
    outcomeOf b (o.map (ExecutionRow.toUncertain t)) = outcomeOf b o := by
  cases o <;> rfl

/-- Classifying rows does not show in what a lookup returns. -/
theorem Reconciles.outcomeOf_eq {rows : List ExecutionRow} {t : String}
    (h : Reconciles F rows t db db') (b : ServerExecutionBinding) :
    outcomeOf b (db'.findExecution b.key) = outcomeOf b (db.findExecution b.key) := by
  have hkey : ∀ r : ExecutionRow, (if r ∈ rows then r.toUncertain t else r).agentId = r.agentId ∧
      (if r ∈ rows then r.toUncertain t else r).idempotencyId = r.idempotencyId := by
    intro r
    split_ifs <;> exact ⟨rfl, rfl⟩
  rw [Db.findExecution, h.executions, List.find?_map, Db.findExecution]
  simp only [Function.comp_def, hkey]
  cases db.serverExecutions.find? fun r => r.agentId = b.key.1 ∧ r.idempotencyId = b.key.2 with
  | none => rfl
  | some r =>
    rw [Option.map_some]
    split_ifs
    · exact outcomeOf_toUncertain b t (some r)
    · rfl

/-- What every reachable file fulfils, unless two event names collide. -/
structure Reconcilable (db : Db) : Prop where
  accounted : Accounted db
  printed : TimesPrinted db
  names : Set.InjOn (Uuid.newV5 Uuid.namespaceUrl) db.eventNames

theorem runOps_accounted (ops : List (LedgerOp × Oracle)) : Accounted (runOps F ops Db.empty) :=
  (runOps_effects ops Db.empty).accounted accounted_empty

theorem Reconciles.eventNames_eq {rows : List ExecutionRow} {t : String}
    (h : Reconciles F rows t db db') : db'.eventNames = db.eventNames := by
  refine eventNames_congr ?_
  rw [h.executions]
  exact map_update (f := ExecutionRow.toUncertain t) (fun _ => rfl) db.serverExecutions

theorem Reconcilable.call (h : Reconcilable db) (i : String) (now : Clock) {oracle : Oracle}
    (hr : Reliable oracle 0 db) :
    ∃ db', Ledger.reconcileServerExecutionsAt F i now oracle db =
      (.ok (reconcileBatch now i db).length, db') := by
  have hlen : (reconcileBatch now i db).length ≤ batchLimit := List.length_take_le _ _
  have hquery : Reaches Sql.answer oracle
      (query (.selectAbandoned (toRfc3339 (minusSeconds now 300)) i)) 1 db
      (reconcileBatch now i db) 2 db :=
    reaches_query (fun _ => rfl) (hr.runs 1) (selectAbandoned_eligible h.printed now i)
  obtain ⟨m, db', hall⟩ := reaches_classifyAll (F := F) (toRfc3339 now) h.accounted h.names
    (h.accounted.batch_awaiting now i) (hr.mono (Nat.zero_le 2)) (by unfold reconcileSteps; omega)
  have hcall : Reaches Sql.answer oracle (reconcileServerExecutionsAt F i now) 1 db
      (.commit (reconcileBatch now i db).length) m db' := hquery.bind (hall.bind .pure)
  exact ⟨db', hcall.transaction hr.runs⟩

theorem Reconcilable.after (h : Reconcilable db) {i : String} {now : Clock} {oracle : Oracle}
    {n : Nat} (he : Ledger.reconcileServerExecutionsAt F i now oracle db = (.ok n, db')) :
    Reconcilable db' := by
  have hrec := (reconcile_reconciles h.accounted h.printed he).2
  have happly : (LedgerOp.reconcile i now).apply F oracle db = db' := congrArg Prod.snd he
  refine ⟨?_, ?_, ?_⟩
  · rw [← happly]
    exact (LedgerOp.apply_effects _ oracle db).accounted h.accounted
  · rw [← happly]
    exact LedgerOp.apply_printed _ oracle h.printed
  · rw [hrec.eventNames_eq]
    exact h.names

variable (F)

/-- One call after the other, by one instance at one instant. -/
def reconcileRun (i : String) (now : Clock) (oracles : List Oracle) (db : Db) : Db :=
  runOps F (oracles.map fun oracle => (.reconcile i now, oracle)) db

def ReliableRun (i : String) (now : Clock) : List Oracle → Db → Prop
  | [], _ => True
  | oracle :: oracles, db => Reliable oracle 0 db ∧
      ReliableRun i now oracles (Ledger.reconcileServerExecutionsAt F i now oracle db).2

variable {F}

theorem Reconcilable.run {i : String} {now : Clock} {oracles : List Oracle}
    (h : Reconcilable db) (hr : ReliableRun F i now oracles db) :
    Reconcilable (reconcileRun F i now oracles db) ∧
      (eligibleRows now i (reconcileRun F i now oracles db)).length =
        (eligibleRows now i db).length - batchLimit * oracles.length := by
  induction oracles generalizing db with
  | nil => exact ⟨h, rfl⟩
  | cons oracle oracles ih =>
    obtain ⟨hrel, hrest⟩ := hr
    obtain ⟨db₁, he⟩ := h.call (F := F) _ _ hrel
    rw [he] at hrest
    obtain ⟨hready, hlen⟩ := ih (h.after he) hrest
    have hstep := (reconcile_reconciles h.accounted h.printed he).2.eligible_length h.accounted
    have hrun : reconcileRun F i now (oracle :: oracles) db = reconcileRun F i now oracles db₁ :=
      congrArg (reconcileRun F i now oracles) (congrArg Prod.snd he)
    rw [hrun, List.length_cons]
    refine ⟨hready, ?_⟩
    rw [hlen, hstep, Nat.mul_succ]
    omega

theorem inspect_reconciled (ha : Accounted db) (hp : TimesPrinted db) (i : String) (now : Clock)
    (oracle o : Oracle) (b : ServerExecutionBinding) :
    (Ledger.inspectServerExecution b o (Ledger.reconcileServerExecutionsAt F i now oracle db).2).1 =
      (Ledger.inspectServerExecution b o db).1 := by
  generalize he : Ledger.reconcileServerExecutionsAt F i now oracle db = r
  obtain ⟨r, db'⟩ := r
  cases r with
  | error e => rw [transaction_error he]
  | ok n =>
    have hrec := (reconcile_reconciles ha hp he).2
    rw [inspect_eq, inspect_eq, hrec.outcomeOf_eq]

theorem Reconciles.eq_of_nil {t : String} (h : Reconciles F [] t db db') : db' = db := by
  obtain ⟨es, hes, hall⟩ := h.entries
  cases hall
  have hx := h.executions
  have ho := h.outbox
  have hp := h.pendings
  obtain ⟨entries, executions, outbox, pendings⟩ := db'
  simp only [List.append_nil, List.not_mem_nil, if_false, List.map_id', List.map_nil] at hes hx ho hp
  rw [hes, hx, ho, hp]

theorem Reconcilable.call_none (h : Reconcilable db) {i : String} {now : Clock} {oracle : Oracle}
    (hr : Reliable oracle 0 db) (hnil : eligibleRows now i db = []) :
    Ledger.reconcileServerExecutionsAt F i now oracle db = (.ok 0, db) := by
  obtain ⟨db', he⟩ := h.call (F := F) i now hr
  have hrec := (reconcile_reconciles h.accounted h.printed he).2
  rw [reconcileBatch, hnil] at he hrec
  rw [he, hrec.eq_of_nil]
  rfl

/-- From every state that a run reaches, a call classifies exactly the oldest batch
of the eligible rows, which no lookup shows. Unless the storage fails, or two event
names have one version 5 identifier, it succeeds, and repeated calls leave no
eligible row. -/
theorem reconcile_progress (ops : List (LedgerOp × Oracle)) (i : String) (now : Clock) :
    (∀ oracle n db', Ledger.reconcileServerExecutionsAt F i now oracle (runOps F ops Db.empty) =
      (.ok n, db') → n = (reconcileBatch now i (runOps F ops Db.empty)).length ∧
        Reconciles F (reconcileBatch now i (runOps F ops Db.empty)) (toRfc3339 now)
          (runOps F ops Db.empty) db') ∧
    (∀ oracle o b, (Ledger.inspectServerExecution b o
      (Ledger.reconcileServerExecutionsAt F i now oracle (runOps F ops Db.empty)).2).1 =
        (Ledger.inspectServerExecution b o (runOps F ops Db.empty)).1) ∧
    (Set.InjOn (Uuid.newV5 Uuid.namespaceUrl) (runOps F ops Db.empty).eventNames →
      (∀ oracle, Reliable oracle 0 (runOps F ops Db.empty) → ∃ n db',
        Ledger.reconcileServerExecutionsAt F i now oracle (runOps F ops Db.empty) = (.ok n, db')) ∧
      ∀ oracles oracle, ReliableRun F i now oracles (runOps F ops Db.empty) →
        oracles.length = (eligibleRows now i (runOps F ops Db.empty)).length ⌈/⌉ batchLimit →
        Reliable oracle 0 (reconcileRun F i now oracles (runOps F ops Db.empty)) →
        eligibleRows now i (reconcileRun F i now oracles (runOps F ops Db.empty)) = [] ∧
          Ledger.reconcileServerExecutionsAt F i now oracle
            (reconcileRun F i now oracles (runOps F ops Db.empty)) =
              (.ok 0, reconcileRun F i now oracles (runOps F ops Db.empty))) := by
  have ha : Accounted (runOps F ops Db.empty) := runOps_accounted ops
  have hp : TimesPrinted (runOps F ops Db.empty) := runOps_printed ops timesPrinted_empty
  refine ⟨fun oracle n db' he => reconcile_reconciles ha hp he,
    fun oracle o b => inspect_reconciled ha hp i now oracle o b, fun hv5 => ?_⟩
  have h : Reconcilable (runOps F ops Db.empty) := ⟨ha, hp, hv5⟩
  refine ⟨fun oracle hr => ⟨_, h.call _ _ hr⟩, fun oracles oracle hrun hlen hr => ?_⟩
  obtain ⟨hready, hleft⟩ := h.run hrun
  have hnil : eligibleRows now i (reconcileRun F i now oracles (runOps F ops Db.empty)) = [] := by
    rw [← List.length_eq_zero_iff, hleft, hlen, Nat.ceilDiv_eq_add_pred_div]
    unfold batchLimit
    omega
  exact ⟨hnil, hready.call_none hr hnil⟩

/-- One execution, left in flight by the process that began it. -/
def abandonedOps : List (LedgerOp × Oracle) := [(.begin "p1" sampleBinding, calm 1)]

theorem numberedUuid_ne {m n : Nat} (h : m < n) (hn : n < 65536) :
    numberedUuid m ≠ numberedUuid n := by
  intro he
  have hbytes := congrArg Uuid.bytes he
  simp only [numberedUuid, List.append_cancel_left_eq, List.cons.injEq, and_true] at hbytes
  have hhigh := congrArg UInt8.toNat hbytes.1
  have hlow := congrArg UInt8.toNat hbytes.2
  simp only [UInt8.toNat_ofNat'] at hhigh hlow
  omega

theorem abandoned_executionIds : (runOps bitsText abandonedOps Db.empty).serverExecutions.map
    ExecutionRow.executionId = [sampleBinding.executionId.text] := by
  decide +kernel

theorem abandoned_entryIds : (runOps bitsText abandonedOps Db.empty).entries.map EntryRow.id =
    [(numberedUuid 6).text] := by
  decide +kernel

theorem reconcile_progress_abandoned : ∃ db',
    Ledger.reconcileServerExecutionsAt bitsText "p2" noon (calm 30)
      (runOps bitsText abandonedOps Db.empty) = (.ok 1, db') := by
  have hp := reconcile_progress (F := bitsText) abandonedOps "p2" noon
  have hnames : Set.InjOn (Uuid.newV5 Uuid.namespaceUrl)
      (runOps bitsText abandonedOps Db.empty).eventNames := by
    have hpair : Set.InjOn (Uuid.newV5 Uuid.namespaceUrl)
        {completedEventName sampleBinding.executionId.text,
          reconciliationEventName sampleBinding.executionId.text} :=
      Set.injOn_pair.mpr fun he => absurd he (by decide +kernel)
    refine hpair.mono fun name hname => ?_
    obtain ⟨r, hr, he⟩ := hname
    have hid := List.mem_map_of_mem (f := ExecutionRow.executionId) hr
    rw [abandoned_executionIds, List.mem_singleton] at hid
    rwa [hid] at he
  have hr : Reliable (calm 30) 0 (runOps bitsText abandonedOps Db.empty) := by
    refine ⟨fun _ => rfl, fun m n _ hmn hn => ?_, fun n _ hn r hr => ?_⟩
    · have hsteps : reconcileSteps = 1538 := rfl
      exact numberedUuid_ne (by omega) (by omega)
    · have hsteps : reconcileSteps = 1538 := rfl
      have hid := List.mem_map_of_mem (f := EntryRow.id) hr
      rw [abandoned_entryIds, List.mem_singleton] at hid
      rw [hid]
      exact fun he => numberedUuid_ne (by omega) (by omega) (Uuid.text_injective he)
  obtain ⟨n, db', he⟩ := (hp.2.2 hnames).1 (calm 30) hr
  have hone : (reconcileBatch noon "p2" (runOps bitsText abandonedOps Db.empty)).length = 1 := by
    decide +kernel
  rw [(hp.1 _ n db' he).1, hone] at he
  exact ⟨db', he⟩

end ClavenarLite
