import ClavenarLite.Proxy.Graduation
import ClavenarLite.Proxy.Sends

/-! The rows that the query by agent id lists, what a run appends to the chain, and whose
request the rows of an execution or of a pending belong to. -/

namespace ClavenarLite

open Bytes Fallible Interaction Rfc3339 TextJson Transaction

section Query

variable (F : FloatText)

/-- The rows of an agent in the order of the chain, decoded. -/
def entriesForAgent (agentId : String) (db : Db) : Except SqlError (List LedgerEntry) :=
  ((db.entries.filter fun r => r.agentId = agentId).insertionSort fun r s => r.seq ≤ s.seq).mapM
    fun r => rowToEntry F r.cells

/-- The query answers, in the order of the chain, and the row is in its answer. -/
def ListedFor (agentId : String) (db : Db) (r : EntryRow) : Prop :=
  ∃ es, entriesForAgent F agentId db = .ok es ∧ es.Pairwise (fun e e' => e.seq ≤ e'.seq) ∧
    ∃ e ∈ es, rowToEntry F r.cells = .ok e

/-- The row was written by an append. -/
def AppendedRow (r : EntryRow) : Prop :=
  ∃ id now tip req, r = (newEntry F id now tip req).row F

variable {F} {db db' : Db}

theorem AppendedRow.decodes {r : EntryRow} (h : AppendedRow F r) :
    ∃ e, rowToEntry F r.cells = .ok e ∧ e.seq = r.seq ∧ e.agentId = r.agentId := by
  obtain ⟨id, now, tip, req, rfl⟩ := h
  exact ⟨_, rowToEntry_row now.property, rfl, rfl⟩

theorem AppendedRow.seq_eq {r : EntryRow} (h : AppendedRow F r) {e : LedgerEntry}
    (he : rowToEntry F r.cells = .ok e) : e.seq = r.seq ∧ e.agentId = r.agentId := by
  obtain ⟨e', he', hfields⟩ := h.decodes
  rw [Except.ok.inj (he.symm.trans he')]
  exact hfields

/-- Rows that appends wrote decode, and keep their order. -/
theorem decodes_sorted {rows : List EntryRow} (hw : ∀ r ∈ rows, AppendedRow F r)
    (hs : rows.Pairwise fun r s => r.seq ≤ s.seq) :
    ∃ es, rows.mapM (fun r => rowToEntry F r.cells) = .ok es ∧
      es.Pairwise fun e e' => e.seq ≤ e'.seq := by
  induction rows with
  | nil => exact ⟨[], rfl, .nil⟩
  | cons r rows ih =>
    obtain ⟨hhead, htail⟩ := List.pairwise_cons.mp hs
    have hrest : ∀ s ∈ rows, AppendedRow F s := fun s hmem => hw s (List.mem_cons_of_mem r hmem)
    obtain ⟨e, he, hseq, -⟩ := (hw r List.mem_cons_self).decodes
    obtain ⟨es, hes, hsorted⟩ := ih hrest htail
    refine ⟨e :: es, ?_, List.pairwise_cons.mpr ⟨?_, hsorted⟩⟩
    · rw [List.mapM_cons, he, hes]
      rfl
    · intro e' he'
      obtain ⟨s, hmem, hrow⟩ := Fallible.mapM_mem hes e' he'
      rw [hseq, ((hrest s hmem).seq_eq hrow).1]
      exact hhead s hmem

/-- A row that an append wrote is listed for its agent, and for no other. -/
theorem listedFor_iff (hw : ∀ r ∈ db.entries, AppendedRow F r) {r : EntryRow}
    (hr : r ∈ db.entries) (agentId : String) : ListedFor F agentId db r ↔ r.agentId = agentId := by
  have hmem : ∀ s, s ∈ (db.entries.filter fun r => r.agentId = agentId).insertionSort
      (fun r s => r.seq ≤ s.seq) ↔ s ∈ db.entries ∧ s.agentId = agentId := by
    intro s
    rw [(List.perm_insertionSort _ _).mem_iff, List.mem_filter, decide_eq_true_eq]
  obtain ⟨es, hes, horder⟩ := decodes_sorted (fun s hs => hw s ((hmem s).mp hs).1)
    (List.pairwise_insertionSort (fun r s : EntryRow => r.seq ≤ s.seq) _)
  constructor
  · rintro ⟨es', hes', -, e, he, hrow⟩
    obtain ⟨s, hs, hdecode⟩ := Fallible.mapM_mem hes' e he
    obtain ⟨hstored, hagent⟩ := (hmem s).mp hs
    rw [← ((hw r hr).seq_eq hrow).2, ((hw s hstored).seq_eq hdecode).2, hagent]
  · intro h
    obtain ⟨e, he, hrow⟩ := Fallible.mapM_ok hes r ((hmem r).mpr ⟨hr, h⟩)
    exact ⟨es, hes, horder, e, he, hrow⟩

end Query

section Growth

variable {F : FloatText} {L : Libraries} {db db' : Db} {r : EntryRow}

/-- The row was added by the change. -/
def Added (r : EntryRow) (db db' : Db) : Prop := r ∈ db'.entries.drop db.entries.length

variable (F) in
def EntriesGrow (db db' : Db) : Prop :=
  ∃ es, db'.entries = db.entries ++ es ∧ ∀ r ∈ es, AppendedRow F r

theorem added_iff {es : List EntryRow} (h : db'.entries = db.entries ++ es) :
    Added r db db' ↔ r ∈ es := by
  rw [Added, h, List.drop_left]

theorem not_added (h : db'.entries = db.entries) : ¬ Added r db db' := by
  have hnil : db'.entries = db.entries ++ [] := by rw [h, List.append_nil]
  rw [added_iff hnil]
  exact List.not_mem_nil

theorem Added.mem (h : Added r db db') : r ∈ db'.entries := List.mem_of_mem_drop h

theorem EntriesGrow.refl (db : Db) : EntriesGrow F db db :=
  ⟨[], (List.append_nil _).symm, fun _ hr => absurd hr List.not_mem_nil⟩

theorem EntriesGrow.trans {db'' : Db} (h : EntriesGrow F db db') (h' : EntriesGrow F db' db'') :
    EntriesGrow F db db'' := by
  obtain ⟨es, he, hes⟩ := h
  obtain ⟨es', he', hes'⟩ := h'
  refine ⟨es ++ es', by rw [he', he, List.append_assoc], fun r hr => ?_⟩
  exact (List.mem_append.mp hr).elim (hes r) (hes' r)

theorem appends_added {req : LogRequest} {db₁ : Db} (h : Appends F req db₁ db')
    (he : db₁.entries = db.entries) :
    ∃ id now tip, db'.entries = db.entries ++ [(newEntry F id now tip req).row F] := by
  obtain ⟨id, now, tip, -, -, rfl⟩ := appends_entries h
  exact ⟨id, now, tip, by rw [← he]⟩

theorem EntriesGrow.appends {req : LogRequest} {db₁ : Db} (h : Appends F req db₁ db')
    (he : db₁.entries = db.entries) : EntriesGrow F db db' := by
  obtain ⟨id, now, tip, hentries⟩ := appends_added h he
  refine ⟨_, hentries, fun r hr => ?_⟩
  exact ⟨id, now, tip, req, List.mem_singleton.mp hr⟩

theorem Effect.grows (h : Effect F db db') : EntriesGrow F db db' := by
  cases h with
  | execution h =>
    cases h with
    | begins h =>
      obtain ⟨createdAt, ha⟩ := h.appends
      exact .appends ha rfl
    | completes h =>
      obtain ⟨now, -, -, ha⟩ := h.updates
      exact .appends ha rfl
    | classifies h =>
      obtain ⟨now, -, -, ha⟩ := h.updates
      exact .appends ha rfl
  | append h => exact .appends h rfl
  | pendings h =>
    rw [h]
    exact .refl db

theorem Effects.grows (h : Effects F db db') : EntriesGrow F db db' := by
  induction h with
  | refl => exact .refl _
  | tail _ he ih => exact ih.trans he.grows

variable {w₀ : World} {p p' : Pool McpOp World McpJob Ended}

theorem entries_grow (h : Pool.Steps (mcpRules L) p p') :
    EntriesGrow L.floats p.state.db p'.state.db :=
  h.related (Q := fun w w' => EntriesGrow L.floats w.db w'.db) (fun w => .refl w.db)
    (fun _ _ _ => EntriesGrow.trans)
    (fun _ _ _ _ hp => (McpPerforms.change hp).effects.grows)
    fun _ _ ho => (Outside.change ho).effects.grows

theorem rows_appended (he : w₀.db.entries = []) (h : Pool.Reachable (mcpRules L) w₀ p) :
    ∀ r ∈ p.state.db.entries, AppendedRow L.floats r := by
  obtain ⟨es, hes, hrows⟩ := entries_grow h
  intro r hr
  rw [hes, he, List.nil_append] at hr
  exact hrows r hr

theorem mem_of_steps (h : Pool.Steps (mcpRules L) p p') (hr : r ∈ p.state.db.entries) :
    r ∈ p'.state.db.entries := by
  obtain ⟨es, hes, -⟩ := entries_grow h
  rw [hes]
  exact List.mem_append_left _ hr

end Growth

section Owners

variable {L : Libraries} {job : McpJob} {call call' : McpCall} {cs : McpCalls}

/-- The calls begin with the id that the gates let this request pass with. -/
def Starts (L : Libraries) (job : McpJob) (call : McpCall) (cs : McpCalls) : Prop :=
  ∃ u late, cs = ⟨.newV4, u⟩ :: late ∧
    gates L job.state job.headers job.body u.text = .ok call

variable (L) in
/-- A request that passed the gates with the identity. -/
def Passed (identity : AgentIdentity) (t : Thread McpOp McpJob Ended) : Prop :=
  ∃ call, Starts L t.job call t.calls ∧ call.identity = identity

theorem Starts.append (h : Starts L job call cs) (ds : McpCalls) : Starts L job call (cs ++ ds) := by
  obtain ⟨u, late, rfl, hg⟩ := h
  exact ⟨u, late ++ ds, rfl, hg⟩

theorem Starts.unique (h : Starts L job call cs) (h' : Starts L job call' cs) : call = call' := by
  obtain ⟨u, late, rfl, hg⟩ := h
  obtain ⟨u', late', hcons, hg'⟩ := h'
  obtain rfl : u = u' := by
    have hu := (List.cons.inj hcons).1
    simpa using hu
  exact Except.ok.inj (hg.symm.trans hg')

theorem Opened.passes (h : Opened L job call cs) : Starts L job call cs := by
  obtain ⟨u, hg, rfl⟩ := h
  exact ⟨u, _, rfl, hg⟩

theorem Inspected.passes {binding : Option ServerExecutionBinding}
    (h : Inspected L job call binding cs) : Starts L job call cs := by
  obtain ⟨pre, ho, -, -, rfl⟩ := h
  exact ho.passes.append _

theorem Judged.passes {binding : Option ServerExecutionBinding} {v : Verdict}
    (h : Judged L job call binding v cs) : Starts L job call cs := by
  obtain ⟨pre, _, hi, -, rfl⟩ := h
  exact hi.passes.append _

theorem Released.passes {binding : Option ServerExecutionBinding} {v : Verdict}
    (h : Released L job call binding v cs) : Starts L job call cs := by
  obtain ⟨⟨pre, hj, ⟨-, rfl⟩ | ⟨-, -, p, -, rfl⟩⟩, -, -⟩ := h
  · exact hj.passes
  · exact hj.passes.append _

theorem Begun.passes {b : ServerExecutionBinding} {v : Verdict} (h : Begun L job call b v cs) :
    Starts L job call cs := by
  obtain ⟨pre, hr, rfl⟩ := h
  exact hr.passes.append _

theorem Bound.agentId {b : ServerExecutionBinding} (h : Bound L job call (some b)) :
    b.agentId = call.identity.agentId := by
  obtain ⟨-, hnone⟩ | ⟨id, value, -, -, hb⟩ := h
  · exact absurd hnone (by simp)
  · rw [Option.some.inj hb]
    rfl

theorem Released.agentId {b : ServerExecutionBinding} {v : Verdict}
    (h : Released L job call (some b) v cs) : b.agentId = call.identity.agentId := by
  obtain ⟨⟨_, ⟨_, _, ⟨_, _, _, hb, _⟩, _, _⟩, _⟩, _, _⟩ := h
  exact hb.agentId

end Owners

/-- The rows under a key are there, and are all of one owner. -/
def SoleOwner {α : Type} (key owner : α → String) (rows : List α) (k a : String) : Prop :=
  (∃ r ∈ rows, key r = k) ∧ ∀ r ∈ rows, key r = k → owner r = a

section SoleOwner

variable {α : Type} {key owner : α → String} {rows : List α} {k a : String} {x : α}

theorem SoleOwner.append (h : SoleOwner key owner rows k a) (hfree : ∀ r ∈ rows, key r ≠ key x) :
    SoleOwner key owner (rows ++ [x]) k a := by
  obtain ⟨⟨r, hr, hk⟩, hall⟩ := h
  refine ⟨⟨r, List.mem_append_left _ hr, hk⟩, fun s hs hsk => ?_⟩
  rcases List.mem_append.mp hs with hs | hs
  · exact hall s hs hsk
  · rw [List.mem_singleton.mp hs] at hsk
    exact absurd (hk.trans hsk.symm) (hfree r hr)

theorem SoleOwner.new (hfree : ∀ r ∈ rows, key r ≠ key x) :
    SoleOwner key owner (rows ++ [x]) (key x) (owner x) := by
  refine ⟨⟨x, by simp, rfl⟩, fun s hs hsk => ?_⟩
  rcases List.mem_append.mp hs with hs | hs
  · exact absurd hsk (hfree s hs)
  · rw [List.mem_singleton.mp hs]

theorem SoleOwner.map {f : α → α} (h : SoleOwner key owner rows k a) (hkey : ∀ r, key (f r) = key r)
    (howner : ∀ r, owner (f r) = owner r) : SoleOwner key owner (rows.map f) k a := by
  obtain ⟨⟨r, hr, hk⟩, hall⟩ := h
  refine ⟨⟨f r, List.mem_map_of_mem hr, (hkey r).trans hk⟩, fun s hs hsk => ?_⟩
  obtain ⟨r', hr', rfl⟩ := List.mem_map.mp hs
  rw [howner]
  exact hall r' hr' ((hkey r').symm.trans hsk)

end SoleOwner

/-- The execution is in the table, as one of the agent's. -/
abbrev Db.ExecutionOf (db : Db) (executionId agentId : String) : Prop :=
  SoleOwner RequestColumns.executionId RequestColumns.agentId db.columns executionId agentId

abbrev Db.PendingOf (db : Db) (correlationId agentId : String) : Prop :=
  SoleOwner PendingRow.correlationId PendingRow.agentId db.pendings correlationId agentId

/-- What an answer says, and keeps saying, of the agent it was given for. -/
def OwnedBy : Call McpOp → World → Prop
  | ⟨.pinCatalog _ _ agentId _, some log⟩, _ => log.agentId = agentId
  | ⟨.checkRate _ key, .denied throttled _⟩, _ => throttled = key
  | ⟨.beginServerExecution _ b, .ok .started⟩, w => w.db.ExecutionOf b.executionId.text b.agentId
  | ⟨.parkPending req, .ok _⟩, w => w.db.PendingOf req.correlationId req.agentId
  | _, _ => True

section Owned

variable {F : FloatText} {L : Libraries} {db db' : Db} {w w' : World}

theorem check_denied {call : Admission} {limiter limiter' : RateLimiter} {throttled : String}
    {wait : Nat} (h : RateLimiter.check call limiter = (.denied throttled wait, limiter')) :
    throttled = call.agentId := by
  have ho := (Prod.mk.inj h).1
  simp only [rateLimitOutcome] at ho
  split at ho
  · exact absurd ho (by simp)
  · exact (RateLimitOutcome.denied.inj ho).1.symm

theorem columns_free {b : ServerExecutionBinding} {i : String} (h : Begins F i b db db') :
    ∀ c ∈ db.columns, c.executionId ≠ b.columns.executionId := by
  intro c hc
  obtain ⟨r, hr, rfl⟩ := List.mem_map.mp hc
  exact h.free r hr

/-- The request columns stay, or gain those of a begun execution. -/
theorem Change.columns {made : Call McpOp} (h : Change F made db db') :
    db'.columns = db.columns ∨ ∃ b : ServerExecutionBinding, db'.columns = db.columns ++ [b.columns] ∧
      ∀ c ∈ db.columns, c.executionId ≠ b.columns.executionId := by
  cases h with
  | unchanged _ h => exact Or.inl (by rw [h])
  | appends _ h => exact Or.inl (congrArg (List.map _) (appends_tables ⟨_, h⟩).1)
  | parks _ _ h => exact Or.inl (by rw [h]; rfl)
  | begins _ h => exact Or.inr ⟨_, begins_columns h, columns_free h⟩
  | completes _ h => exact Or.inl (completes_columns h)

theorem Change.executionOf {made : Call McpOp} {k a : String} (h : Change F made db db')
    (ho : db.ExecutionOf k a) : db'.ExecutionOf k a := by
  unfold Db.ExecutionOf
  rcases h.columns with hc | ⟨b, hc, hfree⟩
  · rwa [hc]
  · rw [hc]
    exact ho.append hfree

theorem Change.pendingOf {made : Call McpOp} {k a : String} (h : Change F made db db')
    (ho : db.PendingOf k a) : db'.PendingOf k a := by
  unfold Db.PendingOf
  rcases h.pendings with hc | ⟨req, p, now, -, hfree, hc⟩
  · rwa [hc]
  · rw [hc]
    exact ho.append (Db.findPending_none.mp hfree)

theorem Meanwhile.executionOf {k a : String} (h : Meanwhile F db db') (ho : db.ExecutionOf k a) :
    db'.ExecutionOf k a := by
  unfold Db.ExecutionOf
  rwa [h.columns]

theorem Meanwhile.pendingOf {k a : String} (h : Meanwhile F db db') (ho : db.PendingOf k a) :
    db'.PendingOf k a := by
  unfold Db.PendingOf
  rcases h.pendings with hc | ⟨id, decision, decidedAt, tenant, note, -, hc⟩
  · rwa [hc]
  · rw [hc, decidedRows]
    refine ho.map (fun r => ?_) fun r => ?_
    · split_ifs <;> rfl
    · split_ifs <;> rfl

theorem OwnedBy.kept {call : Call McpOp} (h : OwnedBy call w)
    (hexecution : ∀ k a, w.db.ExecutionOf k a → w'.db.ExecutionOf k a)
    (hpending : ∀ k a, w.db.PendingOf k a → w'.db.PendingOf k a) : OwnedBy call w' := by
  obtain ⟨op, b⟩ := call
  cases op with
  | beginServerExecution i bd =>
    rcases b with e | outcome
    · trivial
    · cases outcome with
      | started => exact hexecution _ _ h
      | _ => trivial
  | parkPending req =>
    cases b with
    | error e => trivial
    | ok p => exact hpending _ _ h
  | pinCatalog i key agentId body =>
    cases b with
    | none => trivial
    | some log => exact h
  | checkRate i key =>
    cases b with
    | allowed => trivial
    | denied a s => exact h
  | _ => trivial

theorem OwnedBy.performs {β : Type} {op : McpOp β} {b : β} {call : Call McpOp}
    (hp : McpPerforms L op w b w') (h : OwnedBy call w) : OwnedBy call w' :=
  h.kept (fun _ _ => (McpPerforms.change hp).executionOf) fun _ _ =>
    (McpPerforms.change hp).pendingOf

theorem OwnedBy.outside {call : Call McpOp} (ho : Outside L.floats w w') (h : OwnedBy call w) :
    OwnedBy call w' :=
  h.kept (fun _ _ => ho.change.executionOf) fun _ _ => ho.change.pendingOf

theorem OwnedBy.new {β : Type} {op : McpOp β} {b : β} (hp : McpPerforms L op w b w') :
    OwnedBy ⟨op, b⟩ w' := by
  cases op with
  | beginServerExecution i bd =>
    rcases b with e | outcome
    · trivial
    · cases outcome with
      | started =>
        rcases hp.writes with ⟨hne, -⟩ | ⟨-, hb⟩
        · exact absurd rfl hne
        · show w'.db.ExecutionOf bd.executionId.text bd.agentId
          rw [Db.ExecutionOf, begins_columns hb]
          exact SoleOwner.new (columns_free hb)
      | _ => trivial
  | parkPending req =>
    cases b with
    | error e => trivial
    | ok p =>
      obtain ⟨hfree, now, hdb⟩ := hp.writes
      show w'.db.PendingOf req.correlationId req.agentId
      rw [hdb]
      exact SoleOwner.new (x := parkedRow L.floats req now) (Db.findPending_none.mp hfree)
  | pinCatalog i key agentId body =>
    obtain ⟨pins, hpins, -⟩ := hp
    cases b with
    | none => trivial
    | some log =>
      obtain ⟨changes, rfl⟩ := pinOrDiff_log _ hpins
      rfl
  | checkRate i key =>
    obtain ⟨now, limiter, hcheck, -⟩ := hp
    cases b with
    | allowed => trivial
    | denied a s => exact check_denied hcheck
  | _ => trivial

theorem owned_of_reachable {w₀ : World} {p : Pool McpOp World McpJob Ended}
    (h : Pool.Reachable (mcpRules L) w₀ p) :
    ∀ t ∈ p.threads, ∀ c ∈ t.calls, OwnedBy c p.state :=
  h.calls_hold (Q := fun _ => True) (K := OwnedBy) (fun _ => handleMcp_obeys) (fun _ _ => trivial)
    (fun _ _ _ _ _ _ _ _ hp _ _ => OwnedBy.new hp) (fun _ _ _ _ _ hp hk => hk.performs hp)
    fun _ _ _ ho hk => hk.outside ho

end Owned

end ClavenarLite
