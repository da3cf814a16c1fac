import ClavenarLite.Ledger.Steady
import ClavenarLite.Proxy.LifeCycle
import ClavenarLite.Proxy.Linearized
import ClavenarLite.Proxy.PendingRoutes

/-! Files that differ in hidden rows alone. What is asked for other rows is answered alike,
and changes both files alike. -/

namespace ClavenarLite

open Bytes Fallible Interaction Rfc3339 TextJson Transaction

/-- The row without the marks of a reconciler. -/
def ExecutionRow.core (r : ExecutionRow) : ExecutionRow :=
  { r with
    reconciliationState := .pending
    reconciliationAttempts := 0
    lastReconciledAt := none
    reconciliationError := none
    reconciliationResolvedAt := none }

/-- The keys of the executions, and the ids of the pendings, that are hidden. -/
structure Hidden where
  keys : String × String → Prop
  ids : String → Prop

open Classical in
noncomputable def Hidden.executions (H : Hidden) (rows : List ExecutionRow) : List ExecutionRow :=
  (rows.filter fun r => ¬ H.keys r.key).map ExecutionRow.core

open Classical in
noncomputable def Hidden.pendings (H : Hidden) (rows : List PendingRow) : List PendingRow :=
  rows.filter fun r => ¬ H.ids r.correlationId

/-- The file has the rows of the other one that are not hidden, and every id it has. -/
structure Db.Covers (H : Hidden) (db r : Db) : Prop where
  executions : H.executions r.serverExecutions = H.executions db.serverExecutions
  pendings : H.pendings r.pendings = H.pendings db.pendings
  executionIds : ∀ x ∈ r.serverExecutions, ∃ y ∈ db.serverExecutions, y.executionId = x.executionId
  outbox : ∀ x ∈ r.serverExecutionOutbox, ∃ y ∈ db.serverExecutionOutbox,
    y.eventId = x.eventId ∧ y.executionId = x.executionId
  entries : ∀ x ∈ r.entries, ∃ y ∈ db.entries, y.id = x.id

section Tables

variable {H : Hidden} {db db' r r' s : Db} {F : FloatText}

theorem Db.Covers.refl : db.Covers H db where
  executions := rfl
  pendings := rfl
  executionIds x hx := ⟨x, hx, rfl⟩
  outbox x hx := ⟨x, hx, rfl, rfl⟩
  entries x hx := ⟨x, hx, rfl⟩

theorem Db.Covers.trans (h : db.Covers H r) (h' : r.Covers H s) : db.Covers H s where
  executions := h'.executions.trans h.executions
  pendings := h'.pendings.trans h.pendings
  executionIds x hx := by
    obtain ⟨y, hy, hxy⟩ := h'.executionIds x hx
    obtain ⟨z, hz, hyz⟩ := h.executionIds y hy
    exact ⟨z, hz, hyz.trans hxy⟩
  outbox x hx := by
    obtain ⟨y, hy, he, hi⟩ := h'.outbox x hx
    obtain ⟨z, hz, he', hi'⟩ := h.outbox y hy
    exact ⟨z, hz, he'.trans he, hi'.trans hi⟩
  entries x hx := by
    obtain ⟨y, hy, hxy⟩ := h'.entries x hx
    obtain ⟨z, hz, hyz⟩ := h.entries y hy
    exact ⟨z, hz, hyz.trans hxy⟩

theorem Hidden.executions_append (H : Hidden) (rows more : List ExecutionRow) :
    H.executions (rows ++ more) = H.executions rows ++ H.executions more := by
  classical
  rw [Hidden.executions, List.filter_append, List.map_append]
  rfl

theorem Hidden.executions_hidden {row : ExecutionRow} (h : H.keys row.key) :
    H.executions [row] = [] := by
  classical
  rw [Hidden.executions, List.filter_cons_of_neg (by simpa using h)]
  rfl

/-- An update that reads and writes no marks of a reconciler is the same without the hidden. -/
theorem Hidden.executions_map (H : Hidden) {p : ExecutionRow → Prop} [DecidablePred p]
    {f : ExecutionRow → ExecutionRow} (hp : ∀ x, p x.core ↔ p x)
    (hf : ∀ x, (f x.core).core = (f x).core) (hkey : ∀ x, (f x).key = x.key)
    (rows : List ExecutionRow) : H.executions (rows.map fun x => if p x then f x else x) =
      (H.executions rows).map fun x => if p x then (f x).core else x := by
  classical
  have hkeys : ∀ x, (if p x then f x else x).key = x.key := by
    intro x
    split_ifs
    · exact hkey x
    · rfl
  simp only [Hidden.executions, List.filter_map, List.map_map]
  rw [List.filter_congr (q := fun x => decide ¬ H.keys x.key) fun x _ => by
    simp only [Function.comp, hkeys]]
  refine List.map_congr_left fun x _ => ?_
  simp only [Function.comp, hp, hf]
  split_ifs <;> rfl

/-- An update of hidden rows, or of the marks of a reconciler. -/
theorem Hidden.executions_kept {p : ExecutionRow → Prop} [DecidablePred p]
    {f : ExecutionRow → ExecutionRow} (hkey : ∀ x, (f x).key = x.key) (rows : List ExecutionRow)
    (hf : ∀ x ∈ rows, p x → ¬ H.keys x.key → (f x).core = x.core) :
    H.executions (rows.map fun x => if p x then f x else x) = H.executions rows := by
  classical
  have hkeys : ∀ x, (if p x then f x else x).key = x.key := by
    intro x
    split_ifs
    · exact hkey x
    · rfl
  simp only [Hidden.executions, List.filter_map, List.map_map]
  rw [List.filter_congr (q := fun x => decide ¬ H.keys x.key) fun x _ => by
    simp only [Function.comp, hkeys]]
  refine List.map_congr_left fun x hx => ?_
  obtain ⟨hmem, hshown⟩ := List.mem_filter.mp hx
  simp only [Function.comp]
  split_ifs with hpx
  · exact hf x hmem hpx (by simpa using hshown)
  · rfl

/-- A row that is not hidden is found among those that are not. -/
theorem Hidden.executions_find {k : String × String} (hk : ¬ H.keys k) (db : Db) :
    (db.findExecution k).map ExecutionRow.core =
      (H.executions db.serverExecutions).find? fun x => x.key = k := by
  classical
  rw [findExecution_eq, Hidden.executions, List.find?_map, List.find?_filter]
  congr 1
  refine List.find?_congr fun x _ => ?_
  by_cases hx : x.key = k
  · have hcore : x.core.key = k := hx
    simp [hx, hcore, hk]
  · have hcore : x.core.key ≠ k := hx
    simp [hx, hcore]

theorem Hidden.executions_count {p : ExecutionRow → Prop} [DecidablePred p]
    (hp : ∀ x, p x.core ↔ p x) (hshown : ∀ x, p x → ¬ H.keys x.key) (rows : List ExecutionRow) :
    rows.countP p = (H.executions rows).countP p := by
  classical
  rw [Hidden.executions, List.countP_map, List.countP_filter]
  refine List.countP_congr fun x _ => ?_
  by_cases hx : p x
  · simp [hx, hp, hshown x hx]
  · simp [hx, hp]

theorem Hidden.pendings_append (H : Hidden) (rows more : List PendingRow) :
    H.pendings (rows ++ more) = H.pendings rows ++ H.pendings more := by
  classical
  exact List.filter_append ..

theorem Hidden.pendings_hidden {row : PendingRow} (h : H.ids row.correlationId) :
    H.pendings [row] = [] := by
  classical
  exact List.filter_cons_of_neg (by simpa using h)

theorem Hidden.pendings_map (H : Hidden) {p : PendingRow → Prop} [DecidablePred p]
    {f : PendingRow → PendingRow} (hid : ∀ x, (f x).correlationId = x.correlationId)
    (rows : List PendingRow) : H.pendings (rows.map fun x => if p x then f x else x) =
      (H.pendings rows).map fun x => if p x then f x else x := by
  classical
  rw [Hidden.pendings, List.filter_map, Hidden.pendings]
  refine congrArg _ (List.filter_congr fun x _ => ?_)
  simp only [Function.comp]
  split_ifs
  · rw [hid]
  · rfl

theorem Hidden.pendings_kept {p : PendingRow → Prop} [DecidablePred p]
    {f : PendingRow → PendingRow} (hid : ∀ x, (f x).correlationId = x.correlationId)
    (hp : ∀ x, p x → H.ids x.correlationId) (rows : List PendingRow) :
    H.pendings (rows.map fun x => if p x then f x else x) = H.pendings rows := by
  classical
  rw [Hidden.pendings_map H hid]
  refine (List.map_congr_left fun x hx => ?_).trans (List.map_id _)
  have hshown : ¬ H.ids x.correlationId := by simpa using (List.mem_filter.mp hx).2
  exact if_neg fun hpx => hshown (hp x hpx)

theorem Hidden.pendings_find {p : PendingRow → Prop} [DecidablePred p]
    (hp : ∀ x, p x → ¬ H.ids x.correlationId) (rows : List PendingRow) :
    rows.find? (fun x => p x) = (H.pendings rows).find? fun x => p x := by
  classical
  rw [Hidden.pendings, List.find?_filter]
  refine List.find?_congr fun x _ => ?_
  by_cases hx : p x
  · simp [hx, hp x hx]
  · simp [hx]

theorem Hidden.pendings_count {p : PendingRow → Prop} [DecidablePred p]
    (hp : ∀ x, p x → ¬ H.ids x.correlationId) (rows : List PendingRow) :
    rows.countP p = (H.pendings rows).countP p := by
  classical
  rw [Hidden.pendings, List.countP_filter]
  refine List.countP_congr fun x _ => ?_
  by_cases hx : p x
  · simp [hx, hp x hx]
  · simp [hx]

theorem covers_appends {req : LogRequest} (h : Appends F req db db') : db'.Covers H db := by
  obtain ⟨id, now, tip, _, _, rfl⟩ := appends_entries h
  exact ⟨rfl, rfl, fun x hx => ⟨x, hx, rfl⟩, fun x hx => ⟨x, hx, rfl, rfl⟩,
    fun x hx => ⟨x, List.mem_append_left _ hx, rfl⟩⟩

theorem covers_intent {row : ExecutionRow} (h : H.keys row.key) :
    (db.withIntent row).Covers H db where
  executions := by
    rw [Db.withIntent, H.executions_append, Hidden.executions_hidden h, List.append_nil]
  pendings := rfl
  executionIds x hx := ⟨x, List.mem_append_left _ hx, rfl⟩
  outbox x hx := ⟨x, hx, rfl, rfl⟩
  entries x hx := ⟨x, hx, rfl⟩

/-- An update keeps the ids of the rows. -/
theorem executionIds_map {p : ExecutionRow → Prop} [DecidablePred p]
    {f : ExecutionRow → ExecutionRow} (hf : ∀ x, (f x).executionId = x.executionId)
    (rows : List ExecutionRow) :
    (∀ x ∈ rows, ∃ y ∈ rows.map (fun x => if p x then f x else x),
      y.executionId = x.executionId) ∧
    ∀ x ∈ rows.map (fun x => if p x then f x else x), ∃ y ∈ rows,
      y.executionId = x.executionId := by
  have hid : ∀ x, (if p x then f x else x).executionId = x.executionId := by
    intro x
    split_ifs
    · exact hf x
    · rfl
  refine ⟨fun x hx => ⟨_, List.mem_map_of_mem hx, hid x⟩, fun x hx => ?_⟩
  obtain ⟨y, hy, rfl⟩ := List.mem_map.mp hx
  exact ⟨y, hy, (hid y).symm⟩

theorem covers_completion {c : Completion} {out : OutboxRow}
    (h : H.keys (c.agentId, c.idempotencyId)) : (db.withCompletion c out).Covers H db where
  executions := by
    refine (Hidden.executions_kept (p := c.Matches) (f := c.apply) (fun _ => rfl) _
      fun x _ hm hx => ?_).symm
    have hkey : x.key = (c.agentId, c.idempotencyId) := Prod.ext hm.1 hm.2.1
    exact absurd (hkey ▸ h) hx
  pendings := rfl
  executionIds := (executionIds_map (p := c.Matches) (f := c.apply) (fun _ => rfl) _).1
  outbox x hx := ⟨x, List.mem_append_left _ hx, rfl, rfl⟩
  entries x hx := ⟨x, hx, rfl⟩

theorem covers_uncertain {id now : String} {out : OutboxRow} :
    (db.withUncertain id now out).Covers H db where
  executions := (Hidden.executions_kept (p := AwaitsReconciliation id)
    (f := ExecutionRow.toUncertain now) (fun _ => rfl) _ fun _ _ _ _ => rfl).symm
  pendings := rfl
  executionIds := (executionIds_map (p := AwaitsReconciliation id)
    (f := ExecutionRow.toUncertain now) (fun _ => rfl) _).1
  outbox x hx := ⟨x, List.mem_append_left _ hx, rfl, rfl⟩
  entries x hx := ⟨x, hx, rfl⟩

theorem covers_pendings {rows : List PendingRow} (h : H.pendings rows = H.pendings db.pendings) :
    ({ db with pendings := rows } : Db).Covers H db where
  executions := rfl
  pendings := h.symm
  executionIds x hx := ⟨x, hx, rfl⟩
  outbox x hx := ⟨x, hx, rfl, rfl⟩
  entries x hx := ⟨x, hx, rfl⟩

theorem Begins.covers {i : String} {b : ServerExecutionBinding} (h : Begins F i b db db')
    (hk : H.keys b.key) : db'.Covers H db := by
  obtain ⟨_, ha⟩ := h.appends
  exact (covers_appends ha).trans (covers_intent hk)

theorem Completes.covers {b : ServerExecutionBinding} {st : UInt16} {ct : Option String}
    {body : Octets} (h : Completes F b st ct body db db') (hk : H.keys b.key) :
    db'.Covers H db := by
  obtain ⟨_, _, _, ha⟩ := h.updates
  exact (covers_appends ha).trans (covers_completion hk)

theorem Classifications.covers (h : Classifications F db db') : db'.Covers H db := by
  induction h with
  | refl => exact .refl
  | tail _ hc ih =>
    obtain ⟨row, hc⟩ := hc
    obtain ⟨_, _, _, ha⟩ := hc.updates
    exact ((covers_appends ha).trans covers_uncertain).trans ih

end Tables

/-- What the operation stores is under hidden keys and ids. -/
def Hidden.Stores (H : Hidden) : {β : Type} → McpOp β → Prop
  | _, .parkPending req => H.ids req.correlationId
  | _, .beginServerExecution _ b => H.keys b.key
  | _, .completeServerExecution b _ _ _ => H.keys b.key
  | _, _ => True

/-- What the operation is about is under other keys and ids. -/
def Hidden.Spares (H : Hidden) : {β : Type} → McpOp β → Prop
  | _, .inspectServerExecution b => ¬ H.keys b.key
  | _, .getPending id => ¬ H.ids id
  | _, .parkPending req => ¬ H.ids req.correlationId
  | _, .beginServerExecution _ b => ¬ H.keys b.key
  | _, .completeServerExecution b _ _ _ => ¬ H.keys b.key
  | _, _ => True

section Operations

variable {H : Hidden} {L : Libraries} {F : FloatText} {db db' r : Db} {oracle : Oracle}

/-- An operation on hidden rows. -/
theorem McpPerforms.covers {β : Type} {op : McpOp β} {w w' : World} {b : β}
    (h : McpPerforms L op w b w') (hs : H.Stores op) : w'.db.Covers H w.db := by
  cases h.change with
  | unchanged _ hdb => exact hdb ▸ .refl
  | appends _ happend => exact covers_appends ⟨_, happend⟩
  | @parks req _ _ hm _ hdb =>
    cases hm
    rw [hdb]
    refine covers_pendings ?_
    rw [H.pendings_append, Hidden.pendings_hidden hs, List.append_nil]
  | begins hm hb =>
    cases hm
    exact hb.covers hs
  | completes hm hc =>
    cases hm
    exact hc.covers hs

/-- Every statement fails. -/
def refusing : Oracle := fun _ => ⟨true, Uuid.newV5 Uuid.namespaceUrl [], newYear⟩

theorem append_refusing {req : LogRequest} :
    Ledger.append F req refusing db = (.error .sqliteFailure, db) := rfl

theorem getPending_refusing {id : String} :
    Ledger.getPending F id refusing db = (.error .sqliteFailure, db) := rfl

theorem park_refusing {req : ParkRequest} :
    Ledger.parkPending F req refusing db = (.error .sqliteFailure, db) := rfl

theorem begin_refusing {i : String} {b : ServerExecutionBinding} :
    Ledger.beginServerExecution F i b refusing db = (.error .sqliteFailure, db) := rfl

theorem complete_refusing {b : ServerExecutionBinding} {st : UInt16} {ct : Option String}
    {body : Octets} : Ledger.completeServerExecution F b st ct body refusing db =
      (.error .sqliteFailure, db) := rfl

theorem inspect_refusing {b : ServerExecutionBinding} :
    Ledger.inspectServerExecution b refusing db = (.error .sqliteFailure, db) := rfl

/-- The pending that a park answers with. -/
def parkedPending (req : ParkRequest) (requestedAt : Clock) : Pending where
  correlationId := req.correlationId
  tenant := req.tenant
  agentId := req.agentId
  toolType := req.toolType
  method := req.method
  reviewReasons := req.reviewReasons
  requestedAt := requestedAt
  decidedAt := none
  decision := none
  deciderNote := none
  callbackUrl := req.callbackUrl

theorem parkPending_parked {req : ParkRequest} {p : Pending}
    (h : Ledger.parkPending F req oracle db = (.ok p, db')) :
    db.findPending req.correlationId = none ∧ ∃ now, p = parkedPending req now ∧
      db' = { db with pendings := db.pendings ++ [parkedRow F req now] } := by
  obtain ⟨now, db₁, ht, hr⟩ := (autocommit_ok h).bind
  obtain rfl := results_utcNow ht
  obtain ⟨_, db₂, hq, hr⟩ := hr.bind
  obtain ⟨hfree, rfl⟩ := results_insertPending hq
  obtain ⟨rfl, rfl⟩ := hr.pure
  exact ⟨Db.findPending_none.mpr hfree, now, rfl, rfl⟩

theorem park_parked {req : ParkRequest} {u : Uuid} {t : Clock}
    (h : ∀ x ∈ db.pendings, x.correlationId ≠ req.correlationId) :
    Ledger.parkPending F req (steady u t) db = (.ok (parkedPending req t),
      { db with pendings := db.pendings ++ [parkedRow F req t] }) := by
  obtain ⟨p, hpark⟩ := park_steady (F := F) (u := u) (t := t) h
  obtain ⟨_, now, rfl, hdb⟩ := parkPending_parked hpark
  have hrow : parkedRow F req t = parkedRow F req now :=
    List.singleton_inj.mp (List.append_cancel_left (congrArg Db.pendings hdb))
  have htime : some t.val = some now.val := by
    rw [← parseFromRfc3339_toRfc3339 t.2, ← parseFromRfc3339_toRfc3339 now.2]
    exact congrArg parseFromRfc3339 (congrArg PendingRow.requestedAt hrow)
  obtain rfl : t = now := Subtype.ext (Option.some.inj htime)
  exact hpark

theorem outcomeOf_core (b : ServerExecutionBinding) (row : Option ExecutionRow) :
    outcomeOf b (row.map ExecutionRow.core) = outcomeOf b row := by
  cases row <;> rfl

namespace Db.Covers

variable (h : db.Covers H r)

include h

theorem outcome {b : ServerExecutionBinding} (hk : ¬ H.keys b.key) :
    outcomeOf b (r.findExecution b.key) = outcomeOf b (db.findExecution b.key) := by
  rw [← outcomeOf_core b (r.findExecution b.key), ← outcomeOf_core b (db.findExecution b.key),
    Hidden.executions_find hk, Hidden.executions_find hk, h.executions]

theorem missing {b : ServerExecutionBinding} (hk : ¬ H.keys b.key)
    (hdb : db.findExecution b.key = none) : r.findExecution b.key = none := by
  have hfind := Hidden.executions_find hk r
  rw [h.executions, ← Hidden.executions_find hk db, hdb] at hfind
  exact Option.map_eq_none_iff.mp hfind

theorem fresh {u : Uuid} (hu : db.FreshId u) : r.FreshId u := by
  intro x hx hid
  obtain ⟨y, hy, hxy⟩ := h.entries x hx
  exact hu y hy (hxy.trans hid)

theorem outboxFree {out : OutboxRow} (hf : OutboxFree db out) : OutboxFree r out := by
  intro x hx
  obtain ⟨y, hy, he, hi⟩ := h.outbox x hx
  exact he ▸ hi ▸ hf y hy

theorem findPending {id : String} (hid : ¬ H.ids id) : r.findPending id = db.findPending id := by
  have hshown : ∀ x : PendingRow, x.correlationId = id → ¬ H.ids x.correlationId :=
    fun x hx => hx ▸ hid
  rw [Db.findPending, Db.findPending, Hidden.pendings_find hshown, h.pendings,
    ← Hidden.pendings_find hshown]

theorem withEntry {row row' : EntryRow} (hid : row.id = row'.id) :
    (db.withEntry row).Covers H (r.withEntry row') where
  executions := h.executions
  pendings := h.pendings
  executionIds := h.executionIds
  outbox := h.outbox
  entries := by
    intro x hx
    rcases List.mem_append.mp hx with hx | hx
    · obtain ⟨y, hy, hxy⟩ := h.entries x hx
      exact ⟨y, List.mem_append_left _ hy, hxy⟩
    · obtain rfl := List.mem_singleton.mp hx
      exact ⟨row, List.mem_append_right _ (List.mem_singleton_self _), hid⟩

theorem withIntent (row : ExecutionRow) : (db.withIntent row).Covers H (r.withIntent row) where
  executions := by
    rw [Db.withIntent, Db.withIntent, H.executions_append, H.executions_append, h.executions]
  pendings := h.pendings
  executionIds := by
    intro x hx
    rcases List.mem_append.mp hx with hx | hx
    · obtain ⟨y, hy, hxy⟩ := h.executionIds x hx
      exact ⟨y, List.mem_append_left _ hy, hxy⟩
    · exact ⟨x, List.mem_append_right _ hx, rfl⟩
  outbox := h.outbox
  entries := h.entries

theorem withCompletion (c : Completion) (out : OutboxRow) :
    (db.withCompletion c out).Covers H (r.withCompletion c out) where
  executions := by
    have hcore : ∀ x : ExecutionRow, c.Matches x.core ↔ c.Matches x := fun x => Iff.rfl
    have hupdate := H.executions_map hcore (fun x => rfl : ∀ x, (c.apply x.core).core =
      (c.apply x).core) fun x => rfl
    exact (hupdate _).trans ((congrArg _ h.executions).trans (hupdate _).symm)
  pendings := h.pendings
  executionIds := by
    intro x hx
    obtain ⟨y, hy, hyx⟩ := (executionIds_map (p := c.Matches) (f := c.apply) (fun _ => rfl)
      _).2 x hx
    obtain ⟨z, hz, hzy⟩ := h.executionIds y hy
    obtain ⟨a, ha, haz⟩ := (executionIds_map (p := c.Matches) (f := c.apply) (fun _ => rfl)
      _).1 z hz
    exact ⟨a, ha, haz.trans (hzy.trans hyx)⟩
  outbox := by
    intro x hx
    rcases List.mem_append.mp hx with hx | hx
    · obtain ⟨y, hy, hxy⟩ := h.outbox x hx
      exact ⟨y, List.mem_append_left _ hy, hxy⟩
    · exact ⟨x, List.mem_append_right _ hx, rfl, rfl⟩
  entries := h.entries

theorem withPending (row : PendingRow) : ({ db with pendings := db.pendings ++ [row] } : Db).Covers
    H { r with pendings := r.pendings ++ [row] } where
  executions := h.executions
  pendings := by rw [H.pendings_append, H.pendings_append, h.pendings]
  executionIds := h.executionIds
  outbox := h.outbox
  entries := h.entries

theorem withDecision (id : String) (tenant : Option String) (decidedAt decision : String)
    (note : Option String) :
    ({ db with pendings := decidedRows id tenant decidedAt decision note db.pendings } : Db).Covers
      H { r with pendings := decidedRows id tenant decidedAt decision note r.pendings } where
  executions := h.executions
  pendings := by
    have hupdate := H.pendings_map (p := Undecided id tenant)
      (f := fun x => x.decided decidedAt decision note) fun x => rfl
    exact (hupdate _).trans ((congrArg _ h.pendings).trans (hupdate _).symm)
  executionIds := h.executionIds
  outbox := h.outbox
  entries := h.entries

theorem append {req : LogRequest} {a : Except SqlError LedgerEntry}
    (hr : Ledger.append F req oracle db = (a, db')) : ∃ oracle' a' r',
      Ledger.append F req oracle' r = (a', r') ∧ a'.isOk = a.isOk ∧ db'.Covers H r' := by
  cases a with
  | error e => exact ⟨refusing, _, _, append_refusing, rfl, append_error hr ▸ h⟩
  | ok e =>
    obtain ⟨u, t, tip, _, rfl, hfree, rfl⟩ := results_appendOnConnection (autocommit_ok hr)
    have hu : db.FreshId u := fun x hx => (hfree x hx).1
    exact ⟨steady u t, _, _, append_steady (h.fresh hu), rfl, h.withEntry rfl⟩

theorem inspect {b : ServerExecutionBinding} (hk : ¬ H.keys b.key)
    {a : Except SqlError ServerExecutionOutcome}
    (hr : Ledger.inspectServerExecution b oracle db = (a, db')) : ∃ oracle' a' r',
      Ledger.inspectServerExecution b oracle' r = (a', r') ∧ a'.toOption = a.toOption ∧
        db'.Covers H r' := by
  obtain ⟨rfl, hout⟩ := inspect_result hr
  cases a with
  | error e => exact ⟨refusing, _, _, inspect_refusing, rfl, h⟩
  | ok out =>
    have hsteady := inspect_eq b (steady (Uuid.newV5 Uuid.namespaceUrl []) newYear) r
    rw [if_neg (by simp [steady]), h.outcome hk, hout out rfl] at hsteady
    exact ⟨_, _, _, Prod.ext hsteady (inspect_db b _ r), rfl, h⟩

theorem getPending {id : String} (hid : ¬ H.ids id) {a : Except SqlError (Option Pending)}
    (hr : Ledger.getPending F id oracle db = (a, db')) : ∃ oracle' a' r',
      Ledger.getPending F id oracle' r = (a', r') ∧ a'.toOption = a.toOption ∧
        db'.Covers H r' := by
  obtain ⟨rfl, hfound⟩ := getPending_result hr
  cases a with
  | error e => exact ⟨refusing, _, _, getPending_refusing, rfl, h⟩
  | ok found =>
    have hread := hfound found rfl
    rw [← h.findPending hid] at hread
    exact ⟨steady (Uuid.newV5 Uuid.namespaceUrl []) newYear, _, _,
      getPending_steady findPending_selected hread, rfl, h⟩

theorem park {req : ParkRequest} (hid : ¬ H.ids req.correlationId) {a : Except SqlError Pending}
    (hr : Ledger.parkPending F req oracle db = (a, db')) : ∃ oracle' a' r',
      Ledger.parkPending F req oracle' r = (a', r') ∧ a'.toOption = a.toOption ∧
        db'.Covers H r' := by
  cases a with
  | error e => exact ⟨refusing, _, _, park_refusing, rfl, parkPending_error hr ▸ h⟩
  | ok p =>
    obtain ⟨hfree, t, rfl, rfl⟩ := parkPending_parked hr
    rw [← h.findPending hid] at hfree
    exact ⟨steady (Uuid.newV5 Uuid.namespaceUrl []) t, _, _,
      park_parked (Db.findPending_none.mp hfree), rfl, h.withPending _⟩

theorem start {i : String} {b : ServerExecutionBinding} (hk : ¬ H.keys b.key)
    {a : Except SqlError ServerExecutionOutcome}
    (hr : Ledger.beginServerExecution F i b oracle db = (a, db')) : ∃ oracle' a' r',
      Ledger.beginServerExecution F i b oracle' r = (a', r') ∧ a'.toOption = a.toOption ∧
        db'.Covers H r' := by
  cases a with
  | error e => exact ⟨refusing, _, _, begin_refusing, rfl, transaction_error hr ▸ h⟩
  | ok out =>
    rcases begin_ok hr with ⟨rfl, hm, _, hout⟩ | ⟨rfl, hb⟩
    · rw [← h.outcome hk] at hout
      let calm := steady (Uuid.newV5 Uuid.namespaceUrl []) newYear
      have hsteady : Ledger.beginServerExecution F i b calm r = _ := begin_eq hout hm
      rw [if_neg (by simp [calm, steady])] at hsteady
      exact ⟨_, _, _, hsteady, rfl, h⟩
    · obtain ⟨t, ha⟩ := hb.appends
      obtain ⟨u, _, tip, _, hfree, rfl⟩ := appends_entries ha
      have hu : db.FreshId u := fun x hx => (hfree x hx).1
      have hid : ∀ x ∈ r.serverExecutions, x.executionId ≠ b.executionId.text := by
        intro x hx
        obtain ⟨y, hy, hyx⟩ := h.executionIds x hx
        exact hyx ▸ hb.free y hy
      exact ⟨steady u t, _, _, begin_steady (h.missing hk hb.missing) hid (h.fresh hu), rfl,
        (h.withIntent _).withEntry rfl⟩

theorem complete {b : ServerExecutionBinding} {st : UInt16} {ct : Option String} {body : Octets}
    (hk : ¬ H.keys b.key) {a : Except SqlError ServerExecutionCompleted}
    (hr : Ledger.completeServerExecution F b st ct body oracle db = (a, db')) : ∃ oracle' a' r',
      Ledger.completeServerExecution F b st ct body oracle' r = (a', r') ∧
        a'.toOption = a.toOption ∧ db'.Covers H r' := by
  cases a with
  | error e => exact ⟨refusing, _, _, complete_refusing, rfl, transaction_error hr ▸ h⟩
  | ok c =>
    obtain ⟨rfl, hc⟩ := complete_ok hr
    obtain ⟨t, hone, hfree, ha⟩ := hc.updates
    obtain ⟨u, _, tip, _, hids, rfl⟩ := appends_entries ha
    have hu : db.FreshId u := fun x hx => (hids x hx).1
    have hshown : ∀ x, (completionOf F b st ct body t).Matches x → ¬ H.keys x.key := by
      intro x hx
      have hkey : x.key = b.key := Prod.ext hx.1 hx.2.1
      exact hkey ▸ hk
    have hcount := Hidden.executions_count (fun _ => Iff.rfl) hshown
    rw [hcount, ← h.executions, ← hcount] at hone
    exact ⟨steady u t, _, _, complete_steady hone (h.outboxFree hfree) (h.fresh hu), rfl,
      (h.withCompletion _ _).withEntry rfl⟩

end Db.Covers

end Operations

/-- Sessions whose statements are answered from one oracle. -/
structure InStep (S : Db → Db → Prop) (s r : Session StepEnv Db) : Prop where
  oracle : r.oracle = s.oracle
  step : r.step = s.step
  view : S s.view r.view

theorem InStep.tick {S : Db → Db → Prop} {s r : Session StepEnv Db} (h : InStep S s r) :
    InStep S s.tick r.tick := ⟨h.oracle, congrArg (· + 1) h.step, h.view⟩

/-- A statement that does to both files what keeps them related. -/
theorem InStep.statement {β : Type} {S : Db → Db → Prop} {exec : Db → Except SqlError (β × Db)}
    {s r : Session StepEnv Db} (h : InStep S s r)
    (hexec : ∃ b v v', exec s.view = .ok (b, v) ∧ exec r.view = .ok (b, v') ∧ S v v') :
    (Sql.answer.send exec r).1 = (Sql.answer.send exec s).1 ∧
      InStep S (Sql.answer.send exec s).2 (Sql.answer.send exec r).2 := by
  obtain ⟨b, v, v', hs, hr, hv⟩ := hexec
  have hfails : (r.oracle r.step).fails = (s.oracle s.step).fails := by rw [h.oracle, h.step]
  unfold Sql.answer.send Transaction.statement
  rw [hfails]
  by_cases hf : (s.oracle s.step).fails = true
  · rw [if_pos hf, if_pos hf]
    exact ⟨rfl, h.tick⟩
  · rw [if_neg hf, if_neg hf, hs, hr]
    exact ⟨rfl, h.oracle, congrArg (· + 1) h.step, hv⟩

section Decisions

variable {H : Hidden} {F : FloatText} {db r : Db}

theorem InStep.decide {id : String} (hid : ¬ H.ids id) (tenant : Option String) {β : Type}
    (op : Sql β) (s r : Session StepEnv Db) (hop : DecideStatement id tenant op)
    (h : InStep (Db.Covers H) s r) :
    (op.answer r).1 = (op.answer s).1 ∧ InStep (Db.Covers H) (op.answer s).2 (op.answer r).2 := by
  cases op with
  | utcNow =>
    refine ⟨?_, h.tick⟩
    show (r.oracle r.step).now = (s.oracle s.step).now
    rw [h.oracle, h.step]
  | selectPending c t =>
    obtain ⟨rfl, rfl⟩ := hop
    have hshown : ∀ x : PendingRow, x.correlationId = c ∧ x.OfTenant t → ¬ H.ids x.correlationId :=
      fun x hx => hx.1 ▸ hid
    refine h.statement ⟨_, s.view, r.view, rfl, ?_, h.view⟩
    rw [selectPending, Hidden.pendings_find hshown, h.view.pendings,
      ← Hidden.pendings_find hshown]
  | updatePending c t at' d n =>
    obtain ⟨rfl, rfl⟩ := hop
    have hshown : ∀ x : PendingRow, Undecided c t x → ¬ H.ids x.correlationId :=
      fun x hx => hx.1 ▸ hid
    refine h.statement ⟨_, _, _, rfl, ?_, h.view.withDecision c t at' d n⟩
    rw [updatePending, updateRows, Hidden.pendings_count hshown r.view.pendings, h.view.pendings,
      ← Hidden.pendings_count hshown]
    rfl
  | _ => exact hop.elim

/-- A decision on a hidden row. -/
theorem covers_decided {id : String} (hid : H.ids id) (tenant : Option String) (decision : String)
    (note : Option String) (oracle : Oracle) (db : Db) :
    (Ledger.decidePendingScoped F id tenant decision note oracle db).2.Covers H db := by
  generalize hr : Ledger.decidePendingScoped F id tenant decision note oracle db = result
  obtain ⟨result, db'⟩ := result
  rcases decidePendingScoped_result hr with rfl | ⟨_, decidedAt, rfl⟩
  · exact .refl
  · exact covers_pendings (Hidden.pendings_kept (p := Undecided id tenant)
      (f := fun x => x.decided decidedAt decision note) (fun _ => rfl) (fun x hx => hx.1 ▸ hid) _)

theorem Db.Covers.decide (h : db.Covers H r) {id : String} (hid : ¬ H.ids id)
    (tenant : Option String) (decision : String) (note : Option String) (oracle : Oracle) :
    (Ledger.decidePendingScoped F id tenant decision note oracle db).2.Covers H
      (Ledger.decidePendingScoped F id tenant decision note oracle r).2 := by
  have hstart : InStep (Db.Covers H) ⟨oracle, 0, db⟩ ⟨oracle, 0, r⟩ := ⟨rfl, rfl, h⟩
  rw [decidePendingScoped_eq, decidePendingScoped_eq]
  exact (Prog.run_related (InStep.decide hid tenant)
    (decideCall_statements id tenant decision note) hstart).2.view

end Decisions

end ClavenarLite
