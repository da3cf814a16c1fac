import ClavenarLite.Lib.SqlSchema
import ClavenarLite.Ledger.Rows

/-! Creating the ledger's tables, and bringing the tables of an older version up
to date. -/

namespace ClavenarLite

open Bytes SqlSchema

abbrev Columns := List (Column SqlValue)

def column (name type : String) (default : SqlValue) : Column SqlValue := ⟨name, type, default⟩

def textDefault (s : String) : SqlValue := .text (utf8 s)

def entriesColumns : Columns :=
  [column "id" "TEXT PRIMARY KEY" .null, column "seq" "INTEGER NOT NULL UNIQUE" .null,
    column "timestamp" "TEXT NOT NULL" .null, column "agent_id" "TEXT NOT NULL" .null,
    column "method" "TEXT NOT NULL" .null, column "intent_category" "TEXT NOT NULL" .null,
    column "authorized" "INTEGER NOT NULL" .null, column "reasoning" "TEXT NOT NULL" .null,
    column "policy_decision" "TEXT" .null, column "prev_hash" "TEXT NOT NULL" .null,
    column "entry_hash" "TEXT NOT NULL" .null,
    column "chain_version" "INTEGER NOT NULL DEFAULT 1" (.integer 1),
    column "correlation_id" "TEXT" .null]

def pendingsColumns : Columns :=
  [column "correlation_id" "TEXT PRIMARY KEY" .null, column "tenant" "TEXT NOT NULL" .null,
    column "agent_id" "TEXT NOT NULL" .null, column "tool_type" "TEXT NOT NULL" .null,
    column "method" "TEXT NOT NULL" .null, column "review_reasons_json" "TEXT NOT NULL" .null,
    column "requested_at" "TEXT NOT NULL" .null, column "decided_at" "TEXT" .null,
    column "decision" "TEXT" .null, column "decider_note" "TEXT" .null,
    column "callback_url" "TEXT" .null]

def reconciliationColumns : Columns :=
  [column "reconciliation_state" ("TEXT NOT NULL DEFAULT 'legacy' " ++
      "CHECK(reconciliation_state IN ('legacy', 'pending', 'resolved', 'uncertain'))")
      (textDefault "legacy"),
    column "reconciliation_attempts" "INTEGER NOT NULL DEFAULT 0" (.integer 0),
    column "last_reconciled_at" "TEXT" .null, column "reconciliation_error" "TEXT" .null,
    column "reconciliation_resolved_at" "TEXT" .null, column "owner_instance" "TEXT" .null]

def serverExecutionsColumns : Columns :=
  [column "agent_id" "TEXT NOT NULL" .null, column "idempotency_id" "TEXT NOT NULL" .null,
    column "execution_id" "TEXT NOT NULL UNIQUE" .null, column "correlation_id" "TEXT NOT NULL" .null,
    column "route" "TEXT NOT NULL" .null, column "method" "TEXT NOT NULL" .null,
    column "tool_name" "TEXT NOT NULL" .null,
    column "submitted_request_sha256" "TEXT NOT NULL" .null,
    column "effective_request_sha256" "TEXT NOT NULL" .null,
    column "state" "TEXT NOT NULL CHECK(state IN ('in_flight', 'completed'))" .null,
    column "response_status" "INTEGER" .null, column "response_content_type" "TEXT" .null,
    column "response_body" "BLOB" .null, column "result_sha256" "TEXT" .null,
    column "receipt_json" "TEXT" .null, column "created_at" "TEXT NOT NULL" .null,
    column "completed_at" "TEXT" .null] ++ reconciliationColumns

def serverExecutionOutboxColumns : Columns :=
  [column "event_id" "TEXT PRIMARY KEY" .null, column "execution_id" "TEXT NOT NULL UNIQUE" .null,
    column "payload_json" "TEXT NOT NULL" .null, column "created_at" "TEXT NOT NULL" .null,
    column "delivered_at" "TEXT" .null]

def idxEntriesAgentId : Index := ⟨"idx_entries_agent_id", "entries", ["agent_id"]⟩

def idxEntriesSeq : Index := ⟨"idx_entries_seq", "entries", ["seq"]⟩

def idxEntriesCorrelationId : Index :=
  ⟨"idx_entries_correlation_id", "entries", ["correlation_id"]⟩

def idxPendingsDecidedAt : Index := ⟨"idx_pendings_decided_at", "pendings", ["decided_at"]⟩

def idxPendingsTenantAgent : Index :=
  ⟨"idx_pendings_tenant_agent", "pendings", ["tenant", "agent_id"]⟩

/-- The batch that creates what is missing. -/
def createBatch : List (Step SqlValue) :=
  [.createTable "entries" entriesColumns [], .createIndex idxEntriesAgentId,
    .createIndex idxEntriesSeq, .createIndex idxEntriesCorrelationId,
    .createTable "pendings" pendingsColumns [], .createIndex idxPendingsDecidedAt,
    .createIndex idxPendingsTenantAgent,
    .createTable "server_executions" serverExecutionsColumns
      ["PRIMARY KEY (agent_id, idempotency_id)"],
    .createTable "server_execution_outbox" serverExecutionOutboxColumns []]

/-- The columns later versions added, as their `ALTER TABLE` declares them. -/
def addedColumns : List (String × Column SqlValue) :=
  [("entries", column "chain_version" "INTEGER NOT NULL DEFAULT 1" (.integer 1)),
    ("entries", column "correlation_id" "TEXT" .null),
    ("pendings", column "callback_url" "TEXT" .null),
    ("pendings", column "tenant" "TEXT NOT NULL DEFAULT '_legacy_unqualified'"
      (textDefault "_legacy_unqualified"))] ++
    reconciliationColumns.map fun c => ("server_executions", c)

def migrations : List (Step SqlValue) :=
  [.addMissing "entries" (column "chain_version" "INTEGER NOT NULL DEFAULT 1" (.integer 1)) [],
    .addMissing "entries" (column "correlation_id" "TEXT" .null) [idxEntriesCorrelationId],
    .addMissing "pendings" (column "callback_url" "TEXT" .null) [],
    .addMissing "pendings" (column "tenant" "TEXT NOT NULL DEFAULT '_legacy_unqualified'"
      (textDefault "_legacy_unqualified")) [],
    .createIndex idxPendingsTenantAgent] ++
    reconciliationColumns.map fun c => .addMissing "server_executions" c []

def initSchema : Schema SqlValue → Except Error Unit × Schema SqlValue :=
  run (createBatch ++ migrations)

def currentTables : List (String × Columns) :=
  [("entries", entriesColumns), ("pendings", pendingsColumns),
    ("server_executions", serverExecutionsColumns),
    ("server_execution_outbox", serverExecutionOutboxColumns)]

def currentIndexes : List Index :=
  [idxEntriesAgentId, idxEntriesSeq, idxEntriesCorrelationId, idxPendingsDecidedAt,
    idxPendingsTenantAgent]

/-- Every table of the ledger is absent or has its current columns less some of
those added later, and an index of the ledger that is there is the current one
and refers to columns that are there. -/
structure Legacy (db : Schema SqlValue) : Prop where
  columns : ∀ table ∈ currentTables, ∀ t, db.tables table.1 = some t →
    (∀ n ∈ t.names, n ∈ table.2.map Column.name) ∧
      ∀ c ∈ table.2, (∀ a ∈ addedColumns, a.1 = table.1 → a.2.name ≠ c.name) → c.name ∈ t.names
  indexes : ∀ i ∈ db.indexes, ∀ cur ∈ currentIndexes, i.name = cur.name →
    i = cur ∧ ∀ c ∈ cur.columns, db.Has cur.table c

/-- The current schema holds what the older one did. -/
structure Migrated (db db' : Schema SqlValue) : Prop where
  columns : ∀ table ∈ currentTables, ∀ c ∈ table.2, db'.Has table.1 c.name
  indexes : ∀ cur ∈ currentIndexes, cur ∈ db'.indexes
  kept : ∀ name t, db.tables name = some t → ∃ extra, db'.tables name = some (t.extend extra) ∧
    ∀ c ∈ extra, (name, c) ∈ addedColumns
  created : ∀ name, db.tables name = none → ∀ t, db'.tables name = some t → t.rows = []

def Migrates (db : Schema SqlValue) : Prop :=
  ∃ db', initSchema db = (.ok (), db') ∧ Migrated db db' ∧ initSchema db' = (.ok (), db')

/-- No table lacks a column that an index of the first batch mentions. -/
def IndexedColumnsPresent (db : Schema SqlValue) : Prop :=
  (∀ t, db.tables "entries" = some t → "correlation_id" ∈ t.names) ∧
    ∀ t, db.tables "pendings" = some t → "tenant" ∈ t.names

def addedLater (table name : String) : Bool :=
  addedColumns.any fun a => a.1 = table ∧ a.2.name = name

def indexedEarly : List (String × String) := [("entries", "correlation_id"), ("pendings", "tenant")]

/-- The columns a table of an older schema has, where the indexed ones are present. -/
def assumedColumns (table : String) : List String :=
  currentTables.flatMap fun cur =>
    if cur.1 = table then
      (cur.2.map Column.name).filter fun c => !addedLater table c || (table, c) ∈ indexedEarly
    else []

theorem assumed_present {db : Schema SqlValue} (h : Legacy db) (hp : IndexedColumnsPresent db)
    (name : String) (t : Table SqlValue) (ht : db.tables name = some t) :
    ∀ c ∈ assumedColumns name, c ∈ t.names := by
  intro c hc
  obtain ⟨cur, hcur, hm⟩ := List.mem_flatMap.mp hc
  by_cases hn : cur.1 = name
  · rw [if_pos hn] at hm
    obtain ⟨hm, hkeep⟩ := List.mem_filter.mp hm
    obtain ⟨col, hcol, rfl⟩ := List.mem_map.mp hm
    subst hn
    by_cases hadded : addedLater cur.1 col.name = true
    · have hearly : (cur.1, col.name) ∈ indexedEarly := by simpa [hadded] using hkeep
      rcases List.mem_pair.mp hearly with he | he
      · obtain ⟨h₁, h₂⟩ := Prod.mk.inj he
        rw [h₁] at ht
        rw [h₂]
        exact hp.1 t ht
      · obtain ⟨h₁, h₂⟩ := Prod.mk.inj he
        rw [h₁] at ht
        rw [h₂]
        exact hp.2 t ht
    · refine (h.columns cur hcur t ht).2 col hcol ?_
      intro a ha hat han
      exact hadded (List.any_eq_true.mpr ⟨a, ha, decide_eq_true ⟨hat, han⟩⟩)
  · rw [if_neg hn] at hm
    exact absurd hm List.not_mem_nil

theorem script_check : ∃ k, check assumedColumns ⟨[], []⟩ (createBatch ++ migrations) = some k ∧
    ∀ table ∈ currentTables, ∀ c ∈ table.2, (table.1, c.name) ∈ k.columns := by
  refine ⟨_, rfl, ?_⟩
  decide +kernel

theorem script_adds : (createBatch ++ migrations).flatMap Step.added = addedColumns := rfl

theorem script_indexes : ∀ cur ∈ currentIndexes, .createIndex cur ∈ createBatch ++ migrations := by
  decide

theorem currentIndexes_names : ∀ i ∈ currentIndexes, ∀ cur ∈ currentIndexes, i.name = cur.name →
    i = cur := by
  decide

theorem script_ownIndexes :
    ∀ i ∈ (createBatch ++ migrations).flatMap Step.indexes, i ∈ currentIndexes := by
  decide

theorem migrates_of_present {db : Schema SqlValue} (h : Legacy db)
    (hp : IndexedColumnsPresent db) : Migrates db := by
  obtain ⟨k, hcheck, hknown⟩ := script_check
  have hholds : Known.Holds assumedColumns ⟨[], []⟩ db :=
    ⟨assumed_present h hp, fun _ hn => absurd hn List.not_mem_nil,
      fun _ hc => absurd hc List.not_mem_nil⟩
  obtain ⟨hok, hk⟩ := check_ok hholds hcheck
  have hgrown := run_grown (createBatch ++ migrations) db
  have hdone := run_all_done hok
  refine ⟨_, Prod.ext hok rfl, ⟨?_, ?_, ?_, hgrown.created⟩, run_done hdone⟩
  · exact fun table ht c hc => hk.columns _ (hknown table ht c hc)
  · intro cur hcur
    obtain ⟨i, hi, hname⟩ := hdone _ (script_indexes cur hcur)
    have hcurrent : i = cur := by
      rcases run_indexes _ db i hi with hold | hown
      · exact (h.indexes i hold cur hcur hname).1
      · exact currentIndexes_names i (script_ownIndexes i hown) cur hcur hname
    rwa [hcurrent] at hi
  · intro name t ht
    obtain ⟨extra, hx, hadded⟩ := hgrown.kept name t ht
    refine ⟨extra, hx, fun c hc => ?_⟩
    rw [← script_adds]
    exact hadded c hc

/-- The batch stops at an index on a column that only a later step would add. -/
theorem batch_blocked {db : Schema SqlValue} (h : Legacy db) (pre : List (Step SqlValue))
    (index : Index) {post : List (Step SqlValue)} (hscript : createBatch ++ migrations = pre ++ .createIndex index :: post)
    (hcurrent : index ∈ currentIndexes) (hadds : pre.flatMap Step.added = [])
    (hown : ∀ i ∈ pre.flatMap Step.indexes, i.name ≠ index.name) {t : Table SqlValue}
    (ht : db.tables index.table = some t) {c : String} (hc : c ∈ index.columns)
    (hn : c ∉ t.names) : ¬ Migrates db := by
  rintro ⟨db', hrun, _, _⟩
  have hblocked : (initSchema db).1 ≠ .ok () := by
    rw [initSchema, hscript]
    refine run_blocked ht hc hn ?_ ?_
    · intro name col hadd
      rw [Adds, hadds] at hadd
      exact absurd hadd List.not_mem_nil
    · intro i hi hname
      rcases run_indexes pre db i hi with hold | hi
      · obtain ⟨u, hu, hm⟩ := (h.indexes i hold index hcurrent hname).2 c hc
        obtain rfl := Option.some.inj (ht.symm.trans hu)
        exact hn hm
      · exact hown i hi hname
  rw [hrun] at hblocked
  exact hblocked rfl

/-- An older schema is migrated exactly when no table lacks a column that an
index of the first batch mentions. -/
theorem migrates_iff {db : Schema SqlValue} (h : Legacy db) :
    Migrates db ↔ IndexedColumnsPresent db := by
  refine ⟨fun hm => ⟨?_, ?_⟩, migrates_of_present h⟩
  · intro t ht
    by_contra hn
    exact batch_blocked h (createBatch.take 3) idxEntriesCorrelationId rfl (by decide) rfl
      (by decide) ht (List.mem_singleton_self _) hn hm
  · intro t ht
    by_contra hn
    exact batch_blocked h (createBatch.take 6) idxPendingsTenantAgent rfl (by decide) rfl
      (by decide) ht List.mem_cons_self hn hm

/-- The tables `present`, less the columns `without` and the indexes on them. -/
def older (present : List String) (without : List (String × String))
    (rows : String → List (List SqlValue)) : Schema SqlValue where
  tables name :=
    (currentTables.find? fun cur => cur.1 = name ∧ name ∈ present).map fun cur =>
      ⟨cur.2.filter fun c => (cur.1, c.name) ∉ without, [], rows name⟩
  indexes := currentIndexes.filter fun i =>
    i.table ∈ present ∧ ∀ c ∈ i.columns, (i.table, c) ∉ without

theorem older_tables (present : List String) (without : List (String × String))
    (rows : String → List (List SqlValue)) {c : String × Columns} (hc : c ∈ currentTables) :
    (older present without rows).tables c.1 =
      if c.1 ∈ present then some ⟨c.2.filter fun d => (c.1, d.name) ∉ without, [], rows c.1⟩
      else none := by
  have hnames : (currentTables.map Prod.fst).Nodup := by decide
  by_cases hp : c.1 ∈ present
  · rw [if_pos hp]
    have hsome : (currentTables.find? fun x => x.1 = c.1 ∧ c.1 ∈ present).isSome :=
      List.find?_isSome.mpr ⟨c, hc, decide_eq_true ⟨rfl, hp⟩⟩
    obtain ⟨x, hx⟩ := Option.isSome_iff_exists.mp hsome
    have hxname : x.1 = c.1 ∧ c.1 ∈ present := by simpa using List.find?_some hx
    obtain rfl := List.inj_on_of_nodup_map hnames (List.mem_of_find?_eq_some hx) hc hxname.1
    simp only [older, hx, Option.map_some]
  · rw [if_neg hp]
    have hnone : currentTables.find? (fun x => x.1 = c.1 ∧ c.1 ∈ present) = none := by
      rw [List.find?_eq_none]
      intro x _ hx
      exact hp (of_decide_eq_true hx).2
    simp only [older, hnone, Option.map_none]

theorem older_legacy {present : List String} {without : List (String × String)}
    {rows : String → List (List SqlValue)}
    (hw : ∀ w ∈ without, ∃ a ∈ addedColumns, a.1 = w.1 ∧ a.2.name = w.2) :
    Legacy (older present without rows) where
  columns := by
    intro cur hcur t ht
    rw [older_tables _ _ _ hcur] at ht
    by_cases hp : cur.1 ∈ present
    · obtain rfl := Option.some.inj ((if_pos hp).symm.trans ht)
      constructor
      · intro n hn
        obtain ⟨c, hc, rfl⟩ := List.mem_map.mp hn
        exact List.mem_map_of_mem (List.mem_filter.mp hc).1
      · intro c hc hadded
        refine List.mem_map_of_mem (List.mem_filter.mpr ⟨hc, decide_eq_true ?_⟩)
        intro hmem
        obtain ⟨a, ha, hat, han⟩ := hw _ hmem
        exact hadded a ha hat han
    · exact absurd ((if_neg hp).symm.trans ht) (by simp)
  indexes := by
    intro i hi cur hcur hname
    obtain ⟨hi, hkeep⟩ := List.mem_filter.mp hi
    obtain rfl := currentIndexes_names i hi cur hcur hname
    obtain ⟨hp, hcols⟩ := of_decide_eq_true hkeep
    refine ⟨rfl, fun c hc => ?_⟩
    have htable : ∃ table ∈ currentTables, table.1 = i.table ∧ c ∈ table.2.map Column.name := by
      have hall : ∀ x ∈ currentIndexes, ∀ c ∈ x.columns, ∃ table ∈ currentTables,
          table.1 = x.table ∧ c ∈ table.2.map Column.name := by decide
      exact hall i hi c hc
    obtain ⟨table, htable, hn, hm⟩ := htable
    obtain ⟨col, hcol, rfl⟩ := List.mem_map.mp hm
    have ht := older_tables present without rows htable
    rw [hn, if_pos hp] at ht
    refine ⟨_, ht, List.mem_map_of_mem (List.mem_filter.mpr ⟨hcol, decide_eq_true ?_⟩)⟩
    exact hcols _ hc

def textValues (values : List String) : List SqlValue := values.map fun s => .text (utf8 s)

/-- A row of the first version. -/
def firstEntryRow : List SqlValue :=
  textValues ["entry-1"] ++ .integer 1 :: textValues ["2024-01-01T00:00:00+00:00", "billing",
    "tools/call", "wire_transfer"] ++ .integer 1 :: textValues ["allowed"] ++
    .null :: textValues ["genesis", "hash-1"]

/-- A row for each table of a file from before callbacks. -/
def sampleRows (table : String) : List (List SqlValue) :=
  if table = "entries" then [firstEntryRow ++ textValues ["corr-1"]]
  else if table = "pendings" then
    [textValues ["corr-1", "acme", "billing", "wire_transfer", "tools/call", "[]",
      "2024-01-01T00:00:00+00:00"] ++ [.null, .null, .null]]
  else
    [textValues ["billing", "request-1", "execution-1", "corr-1", "/mcp", "tools/call",
      "wire_transfer", "digest-1", "digest-1", "in_flight"] ++
      [.null, .null, .null, .null, .null] ++ textValues ["2024-01-01T00:00:00+00:00"] ++ [.null]]

/-- A file from before callbacks, chain versions and reconciliation. -/
def beforeCallbacks : Schema SqlValue :=
  older ["entries", "pendings", "server_executions"]
    (("entries", "chain_version") :: ("pendings", "callback_url") ::
      reconciliationColumns.map fun c => ("server_executions", c.name)) sampleRows

example : ∀ table ∈ currentTables, ∀ t ∈ beforeCallbacks.tables table.1, ∀ row ∈ t.rows,
    row.length = t.columns.length := by decide

theorem migrates_beforeCallbacks : Migrates beforeCallbacks := by
  have hentries := older_tables ["entries", "pendings", "server_executions"]
    (("entries", "chain_version") :: ("pendings", "callback_url") ::
      reconciliationColumns.map fun c => ("server_executions", c.name)) sampleRows
    (c := ("entries", entriesColumns)) List.mem_cons_self
  have hpendings := older_tables ["entries", "pendings", "server_executions"]
    (("entries", "chain_version") :: ("pendings", "callback_url") ::
      reconciliationColumns.map fun c => ("server_executions", c.name)) sampleRows
    (c := ("pendings", pendingsColumns)) (List.mem_cons_of_mem _ List.mem_cons_self)
  refine (migrates_iff (older_legacy (by decide))).mpr ⟨?_, ?_⟩
  · intro t ht
    obtain rfl := Option.some.inj (hentries.symm.trans ht)
    decide
  · intro t ht
    obtain rfl := Option.some.inj (hpendings.symm.trans ht)
    decide

/-- A file of the first version, which knew no correlation ids. -/
def firstVersion : Schema SqlValue :=
  older ["entries"] [("entries", "chain_version"), ("entries", "correlation_id")]
    fun _ => [firstEntryRow]

example : ∀ t ∈ firstVersion.tables "entries", ∀ row ∈ t.rows,
    row.length = t.columns.length := by decide

theorem firstVersion_refused : Legacy firstVersion ∧ ¬ Migrates firstVersion := by
  refine ⟨older_legacy (by decide), ?_⟩
  rintro ⟨db', hrun, _, _⟩
  have herror : (initSchema firstVersion).1 = .error (.noSuchColumn "correlation_id") := by
    decide +kernel
  rw [hrun] at herror
  exact absurd herror (by simp)

end ClavenarLite
