import ClavenarLite.Ledger.Agreement
import ClavenarLite.Proxy.Appended
import ClavenarLite.Proxy.Control

/-! The audit of one agent: the rows that were appended for the agent's requests and what
became of them, and when the query by agent id lists all of them. -/

namespace ClavenarLite

open Bytes Fallible Interaction Rfc3339 TextJson Transaction

variable (L : Libraries)

/-- A row appended while a request of the identity was handled, or when an execution
begun by one was given up, or when the decision on a pending parked by one was recorded. -/
inductive AppendedFor (identity : AgentIdentity) (r : EntryRow) :
    Pool McpOp World McpJob Ended → Pool McpOp World McpJob Ended → Prop
  | handled {s s' : World} {pre post : List (Thread McpOp McpJob Ended)}
      {t : Thread McpOp McpJob Ended} {δ : Type} {op : McpOp δ} {next : δ → Prog McpOp Ended}
      {b : δ} (hr : t.rest = .call op next) (hp : McpPerforms L op s b s')
      (hi : Passed L identity t) (hnew : Added r s.db s'.db) :
      AppendedFor identity r ⟨s, pre ++ t :: post⟩ ⟨s', pre ++ t.answered op b (next b) :: post⟩
  | reconciled {s : World} {threads : List (Thread McpOp McpJob Ended)}
      {t : Thread McpOp McpJob Ended} {owner : String} {b : ServerExecutionBinding}
      (instanceId : String) (now : Clock) (oracle : Oracle) (ht : t ∈ threads)
      (hi : Passed L identity t) (hb : ⟨.beginServerExecution owner b, .ok .started⟩ ∈ t.calls)
      (hx : r.executionId L.floats = some b.executionId.text)
      (hnew : Added r s.db
        (Ledger.reconcileServerExecutionsAt L.floats instanceId now oracle s.db).2) :
      AppendedFor identity r ⟨s, threads⟩ ⟨{ s with
        db := (Ledger.reconcileServerExecutionsAt L.floats instanceId now oracle s.db).2 }, threads⟩
  | recorded {s : World} {threads : List (Thread McpOp McpJob Ended)}
      {t : Thread McpOp McpJob Ended} {req : ParkRequest} {parked : Pending} {row : PendingRow}
      {decided : Pending} (oracle : Oracle) (ht : t ∈ threads) (hi : Passed L identity t)
      (hq : ⟨.parkPending req, .ok parked⟩ ∈ t.calls) (hrow : row ∈ s.db.pendings)
      (hid : row.correlationId = req.correlationId) (hd : rowToPending L.floats row = .ok decided)
      (hnew : Added r s.db (Ledger.append L.floats (decideLogRequest decided) oracle s.db).2) :
      AppendedFor identity r ⟨s, threads⟩ ⟨{ s with
        db := (Ledger.append L.floats (decideLogRequest decided) oracle s.db).2 }, threads⟩

/-- The limiter refused the request, and the row about the refusal was stored. -/
def RefusalStored (t : Thread McpOp McpJob Ended) : Prop :=
  ∃ u i key throttled wait req e late, t.calls = ⟨.newV4, u⟩ ::
    ⟨.checkRate i key, .denied throttled wait⟩ :: ⟨.append req, .ok e⟩ :: late

variable {L} {identity : AgentIdentity} {r : EntryRow} {w₀ : World}
  {p p' : Pool McpOp World McpJob Ended}

theorem AppendedFor.added (h : AppendedFor L identity r p p') : Added r p.state.db p'.state.db := by
  cases h <;> assumption

theorem canonicalKey_ne (identity : AgentIdentity) : identity.canonicalKey ≠ identity.agentId := by
  intro h
  have hlen := congrArg String.length h
  simp only [AgentIdentity.canonicalKey, String.length_append] at hlen
  have hslash : "/".length = 1 := by decide
  omega

/-- The agent of a row that a call of a request appends. -/
theorem agentId_of_call {job : McpJob} {call : McpCall} {cs : McpCalls} {made : Call McpOp}
    {w : World} {db db' : Db} (hrule : McpRule L job cs made.op) (hs : Starts L job call cs)
    (hk : ∀ c ∈ cs, OwnedBy c w) (hchange : Change L.floats made db db') (hnew : Added r db db') :
    r.agentId = call.identity.agentId ∨ r.agentId = call.identity.canonicalKey ∧
      ∃ req e, made = ⟨.append req, .ok e⟩ ∧ Throttles L job call cs req := by
  have hadds : ∀ {req : LogRequest} {db₁ : Db}, Appends L.floats req db₁ db' →
      db₁.entries = db.entries → r.agentId = req.agentId := by
    intro req db₁ ha he
    obtain ⟨id, now, tip, hentries⟩ := appends_added ha he
    rw [List.mem_singleton.mp ((added_iff hentries).mp hnew)]
    rfl
  cases hchange with
  | unchanged _ h => exact absurd hnew (not_added (by rw [h]))
  | parks _ _ h => exact absurd hnew (not_added (by rw [h]))
  | @appends req e hm ha =>
    rw [hm] at hrule
    rw [hadds ⟨e, ha⟩ rfl]
    obtain ⟨call', hthrottles | ⟨binding, pre, v, hi, -, hcs, hreq⟩ | ⟨pre, sent, body, hc, hcs⟩⟩ :=
      hrule
    · obtain ⟨u, a, wait, hg, hcs, hreq⟩ := hthrottles
      obtain rfl := hs.unique ⟨u, _, hcs, hg⟩
      have hkey : a = call.agentKey :=
        hk ⟨.checkRate job.state.instanceId call.agentKey, .denied a wait⟩ (by rw [hcs]; simp)
      exact Or.inr ⟨by rw [hreq]; exact hkey, req, e, hm, u, a, wait, hg, hcs, hreq⟩
    · have hsame := hs.unique (hcs ▸ hi.passes.append _)
      rw [hreq, hsame]
      exact Or.inl rfl
    · have hsame := hs.unique (hcs ▸ hc.1.passes.append _)
      have hlog : req.agentId = call'.identity.agentId := hk
        ⟨.pinCatalog job.state.instanceId call'.agentKey call'.identity.agentId body, some req⟩
        (by rw [hcs]; simp)
      rw [hlog, hsame]
      exact Or.inl rfl
  | @begins i b hm hb =>
    rw [hm] at hrule
    obtain ⟨call', v, hr, -⟩ := hrule
    obtain ⟨createdAt, ha⟩ := hb.appends
    rw [hadds ha rfl, hs.unique hr.passes]
    exact Or.inl hr.agentId
  | @completes b status contentType body c hm hc =>
    rw [hm] at hrule
    obtain ⟨call', v, pre, answer, hbegun, hcs⟩ := hrule
    obtain ⟨now, -, -, ha⟩ := hc.updates
    rw [hadds ha rfl, hs.unique (hcs ▸ hbegun.passes.append _)]
    obtain ⟨_, hr, _⟩ := hbegun
    exact Or.inl hr.agentId

/-- Reconciling appends one row for each execution it takes. -/
theorem results_reported {F : FloatText} {now : String} {rows : List ExecutionRow} {db db' : Db}
    {u : PUnit} (h : Results (rows.forM (classifyUncertain F now)) db u db') :
    ∃ es, db'.entries = db.entries ++ es ∧ ∀ e ∈ es, ∃ row ∈ rows, ∃ id t tip,
      e = (newEntry F id t tip (uncertainRequest row)).row F := by
  induction rows generalizing db with
  | nil =>
    obtain ⟨-, rfl⟩ := h.pure
    exact ⟨[], (List.append_nil _).symm, fun _ he => absurd he List.not_mem_nil⟩
  | cons row rows ih =>
    have hstep : Results (classifyUncertain F now row >>= fun _ =>
      rows.forM (classifyUncertain F now)) db u db' := h
    obtain ⟨_, db₁, hrow, hrest⟩ := hstep.bind
    obtain ⟨-, -, happ⟩ := results_classified hrow
    obtain ⟨id, t, tip, hentries⟩ : ∃ id now tip, db₁.entries = db.entries ++
        [(newEntry F id now tip (uncertainRequest row)).row F] := appends_added happ rfl
    obtain ⟨es, hes, hall⟩ := ih hrest
    refine ⟨_ :: es, by rw [hes, hentries, List.append_assoc]; rfl, fun e he => ?_⟩
    rcases List.mem_cons.mp he with he | he
    · exact ⟨row, List.mem_cons_self, id, t, tip, he⟩
    · obtain ⟨row', hmem, hform⟩ := hall e he
      exact ⟨row', List.mem_cons_of_mem _ hmem, hform⟩

theorem reconcile_reported {F : FloatText} {instanceId : String} {now : Clock} {oracle : Oracle}
    {db : Db} (h : Added r db (Ledger.reconcileServerExecutionsAt F instanceId now oracle db).2) :
    ∃ row ∈ db.serverExecutions, ∃ id t tip,
      r = (newEntry F id t tip (uncertainRequest row)).row F := by
  generalize hcall : Ledger.reconcileServerExecutionsAt F instanceId now oracle db = result at h
  obtain ⟨answer, db'⟩ := result
  have hresults : ∀ {ending v}, Results (reconcileServerExecutionsAt F instanceId now) db ending v →
      ∃ es, v.entries = db.entries ++ es ∧ ∀ e ∈ es, ∃ row ∈ db.serverExecutions, ∃ id t tip,
        e = (newEntry F id t tip (uncertainRequest row)).row F := by
    intro ending v hr
    obtain ⟨rows, db₁, hq, h₁⟩ := hr.bind
    obtain ⟨hrows, rfl⟩ := results_selectAbandoned hq
    obtain ⟨_, db₂, hall, h₂⟩ := h₁.bind
    obtain ⟨-, rfl⟩ := h₂.pure
    obtain ⟨es, hes, hreported⟩ := results_reported hall
    refine ⟨es, hes, fun e he => ?_⟩
    obtain ⟨row, hmem, hform⟩ := hreported e he
    rw [hrows] at hmem
    have hsorted := (List.perm_insertionSort _ _).mem_iff.mp (List.mem_of_mem_take hmem)
    exact ⟨row, List.mem_of_mem_filter hsorted, hform⟩
  have hkept : db'.entries = db.entries → ∃ row ∈ db.serverExecutions, ∃ id t tip,
      r = (newEntry F id t tip (uncertainRequest row)).row F := fun he =>
    absurd h (not_added he)
  cases answer with
  | error e => exact hkept (by rw [transaction_error hcall])
  | ok n =>
    rcases transaction_ok hcall with ⟨hdb, -⟩ | hcommit
    · exact hkept (by rw [hdb])
    · obtain ⟨es, hes, hreported⟩ := hresults hcommit
      exact hreported r ((added_iff hes).mp h)

theorem rowToPending_fields {F : FloatText} {row : PendingRow} {decided : Pending}
    (h : rowToPending F row = .ok decided) :
    decided.correlationId = row.correlationId ∧ decided.agentId = row.agentId := by
  unfold rowToPending at h
  obtain ⟨requestedAt, -, h⟩ := Fallible.bind_ok h
  obtain ⟨decidedAt, -, h⟩ := Fallible.bind_ok h
  rw [← Except.ok.inj h]
  exact ⟨rfl, rfl⟩

/-- A row appended for an identity names its agent, or is about a refusal of the limiter. -/
theorem agentId_of_appended (h : Pool.Reachable (mcpRules L) w₀ p)
    (ha : AppendedFor L identity r p p') : r.agentId = identity.agentId ∨
      r.agentId = identity.canonicalKey ∧ ∃ t ∈ p'.threads, Passed L identity t ∧
        RefusalStored t := by
  have howned := owned_of_reachable h
  have hruled : ∀ {t : Thread McpOp McpJob Ended} {before after : McpCalls} {made : Call McpOp},
      t ∈ p.threads → t.calls = before ++ made :: after → McpRule L t.job before made.op :=
    fun ht hc => rule_of_follows (h.follows _ ht) hc
  cases ha with
  | @handled s s' pre post t δ op next b hr hp hi hnew =>
    obtain ⟨call, hs, rfl⟩ := hi
    have ht : t ∈ pre ++ t :: post := by simp
    have hrule : McpRule L t.job t.calls op :=
      Thread.permitted (R := mcpRules L) (P := McpRule L) (fun _ => handleMcp_obeys)
        (h.follows t ht) hr
    have hchange : Change L.floats ⟨op, b⟩ s.db s'.db := McpPerforms.change hp
    rcases agentId_of_call hrule hs (howned t ht) hchange hnew
      with hagent | ⟨hkey, req, e, hm, u, a, wait, hg, hcs, -⟩
    · exact Or.inl hagent
    · refine Or.inr ⟨hkey, t.answered op b (next b), by simp, ⟨call, hs.append _, rfl⟩, ?_⟩
      refine ⟨u, t.job.state.instanceId, call.agentKey, a, wait, req, e, [], ?_⟩
      show t.calls ++ [⟨op, b⟩] = _
      rw [hm, hcs]
      rfl
  | @reconciled s threads t owner b instanceId now oracle ht hi hb hx hnew =>
    obtain ⟨call, hs, rfl⟩ := hi
    obtain ⟨row, hrow, id, at', tip, hform⟩ := reconcile_reported hnew
    obtain ⟨-, hall⟩ : s.db.ExecutionOf b.executionId.text b.agentId := howned t ht _ hb
    have hexecution : row.executionId = b.executionId.text := by
      rw [hform, executionId_newEntry id at' tip rfl, uncertainReceipt_executionId] at hx
      exact Option.some.inj hx
    have hagent : row.agentId = b.agentId :=
      hall row.columns (List.mem_map_of_mem hrow) hexecution
    obtain ⟨before, after, hcalls⟩ := List.append_of_mem hb
    obtain ⟨call', v, hr, -⟩ := hruled ht hcalls
    have hsame := hs.unique (hcalls ▸ hr.passes.append _)
    left
    rw [hform, hsame]
    exact hagent.trans hr.agentId
  | @recorded s threads t req parked row decided oracle ht hi hq hrow hid hd hnew =>
    obtain ⟨call, hs, rfl⟩ := hi
    obtain ⟨-, hall⟩ : s.db.PendingOf req.correlationId req.agentId := howned t ht _ hq
    obtain ⟨before, after, hcalls⟩ := List.append_of_mem hq
    obtain ⟨call', v, binding, url, pre, hj, -, hreq, hcs⟩ := hruled ht hcalls
    have hsame : call = call' := by
      refine hs.unique ?_
      rw [hcalls, hcs]
      exact (hj.passes.append _).append _
    have hagent : decided.agentId = call.identity.agentId := by
      rw [(rowToPending_fields hd).2, hall row hrow hid, hreq, hsame]
      rfl
    generalize hcall : Ledger.append L.floats (decideLogRequest decided) oracle s.db = result
      at hnew
    obtain ⟨answer, db'⟩ := result
    cases answer with
    | error e => exact absurd hnew (not_added (by rw [append_error hcall]))
    | ok e =>
      obtain ⟨id, at', tip, hentries⟩ := appends_added ⟨e, autocommit_ok hcall⟩ rfl
      left
      rw [List.mem_singleton.mp ((added_iff hentries).mp hnew)]
      exact hagent

variable (L w₀ identity p) in
/-- Every row appended for the identity on the way to the pool names its agent, and is
listed in the order of the chain by the query for that agent. -/
def AuditComplete : Prop :=
  ∀ q q' r, Pool.Reachable (mcpRules L) w₀ q → AppendedFor L identity r q q' →
    Pool.Steps (mcpRules L) q' p →
      r.agentId = identity.agentId ∧ ListedFor L.floats identity.agentId p.state.db r

/-- After a refusal nothing but the row about it is appended. -/
theorem throttles_of_refused {job : McpJob} {u : Uuid} {i key throttled : String} {wait : Nat}
    {req : LogRequest} (h : McpRule L job
      [⟨.newV4, u⟩, ⟨.checkRate i key, .denied throttled wait⟩] (.append req)) :
    ∃ call, Throttles L job call [⟨.newV4, u⟩, ⟨.checkRate i key, .denied throttled wait⟩] req := by
  obtain ⟨call, hthrottles | ⟨binding, pre, v, -, -, hcs, -⟩ | ⟨pre, sent, body, -, hcs⟩⟩ := h
  · exact ⟨call, hthrottles⟩
  · have hlast := congrArg (fun cs : McpCalls => cs.getLast?.map isThrottle) hcs
    simp [isThrottle, evaluation] at hlast
  · have hlast := congrArg (fun cs : McpCalls => cs.getLast?.map isThrottle) hcs
    simp [isThrottle] at hlast

/-- A stored refusal is a row of the identity under another agent. -/
theorem refusal_appended (h : Pool.Reachable (mcpRules L) w₀ p)
    {t : Thread McpOp McpJob Ended} (ht : t ∈ p.threads) (hi : Passed L identity t)
    (hstored : RefusalStored t) : ∃ q q' r, Pool.Reachable (mcpRules L) w₀ q ∧
      AppendedFor L identity r q q' ∧ Pool.Steps (mcpRules L) q' p ∧
      r.agentId = identity.canonicalKey := by
  obtain ⟨call, ⟨u', late', hcalls', hg⟩, rfl⟩ := hi
  obtain ⟨u, i, key, throttled, wait, req, e, late, hcalls⟩ := hstored
  obtain rfl : u' = u := by
    have hu := (List.cons.inj (hcalls'.symm.trans hcalls)).1
    simpa using hu
  have hmade : ∃ x ∈ p.threads, x.job = t.job ∧ x.calls =
      [⟨.newV4, u'⟩, ⟨.checkRate i key, .denied throttled wait⟩] ++ ⟨.append req, .ok e⟩ :: late :=
    ⟨t, ht, rfl, hcalls⟩
  obtain ⟨s, s', pre, post, x, next, hreach, hjob, hx, hrest, hp, hsteps⟩ := h.made hmade
  have hmem : x ∈ pre ++ x :: post := by simp
  have hrule : McpRule L x.job x.calls (.append req) :=
    Thread.permitted (R := mcpRules L) (P := McpRule L) (fun _ => handleMcp_obeys)
      (hreach.follows x hmem) hrest
  rw [hx] at hrule
  obtain ⟨call', u₁, a, wait₁, hg', hcs, hreq⟩ := throttles_of_refused hrule
  simp only [List.cons.injEq, Call.mk.injEq, heq_eq_eq, true_and, and_true,
    McpOp.checkRate.injEq, RateLimitOutcome.denied.injEq] at hcs
  obtain ⟨rfl, ⟨-, rfl⟩, rfl, rfl⟩ := hcs
  rw [hjob, hg] at hg'
  obtain rfl := Except.ok.inj hg'
  have hkey : throttled = call.agentKey := owned_of_reachable hreach x hmem
    ⟨.checkRate i call.agentKey, .denied throttled wait⟩ (by rw [hx]; simp)
  have hperf : McpPerforms L (.append req) s (.ok e) s' := hp
  have happends : Appends L.floats req s.db s'.db := ⟨e, hperf.writes⟩
  obtain ⟨id, now, tip, hentries⟩ := appends_added happends rfl
  refine ⟨_, _, (newEntry L.floats id now tip req).row L.floats, hreach,
    .handled hrest hperf ⟨call, ⟨u', _, hx, by rw [hjob]; exact hg⟩, rfl⟩
      ((added_iff hentries).mpr (by simp)), hsteps, ?_⟩
  show req.agentId = _
  rw [hreq]
  exact hkey

theorem incomplete_of_refused (h : Pool.Reachable (mcpRules L) w₀ p)
    {t : Thread McpOp McpJob Ended} (ht : t ∈ p.threads) (hi : Passed L identity t)
    (hstored : RefusalStored t) : ¬ AuditComplete L identity w₀ p := by
  intro hcomplete
  obtain ⟨q, q', r, hq, ha, hsteps, hkey⟩ := refusal_appended h ht hi hstored
  exact canonicalKey_ne identity (hkey.symm.trans (hcomplete q q' r hq ha hsteps).1)

/-- In every run on a fresh ledger the audit of an agent is complete exactly if no request
of the identity was refused by the limiter and its refusal stored. -/
theorem audit_complete_iff (he : w₀.db.entries = []) (h : Pool.Reachable (mcpRules L) w₀ p) :
    AuditComplete L identity w₀ p ↔
      ∀ t ∈ p.threads, Passed L identity t → ¬ RefusalStored t := by
  constructor
  · intro hcomplete t ht hi hstored
    exact incomplete_of_refused h ht hi hstored hcomplete
  · intro hnone q q' r hq ha hsteps
    have hstored : r ∈ p.state.db.entries := mem_of_steps hsteps ha.added.mem
    have hlisted := listedFor_iff (rows_appended he h) hstored identity.agentId
    rcases agentId_of_appended hq ha with hagent | ⟨-, t, ht, hi, hrefused⟩
    · exact ⟨hagent, hlisted.mpr hagent⟩
    · obtain ⟨t', ht', hjob, hprefix⟩ := hsteps.continues t ht
      obtain ⟨later, hlater⟩ := hprefix
      obtain ⟨u, i, key, throttled, wait, req, e, late, hcalls⟩ := hrefused
      obtain ⟨call, hs, hid⟩ := hi
      have hi' : Passed L identity t' := by
        refine ⟨call, ?_, hid⟩
        rw [hjob, ← hlater]
        exact hs.append later
      have hrefused' : RefusalStored t' := by
        refine ⟨u, i, key, throttled, wait, req, e, late ++ later, ?_⟩
        rw [← hlater, hcalls]
        rfl
      exact absurd hrefused' (hnone t' ht' hi')

theorem audit_complete_executed : ∃ (identity : AgentIdentity)
    (p : Pool McpOp World McpJob Ended), Pool.Reachable (mcpRules plainLibraries) freshWorld p ∧
      (∃ t ∈ p.threads, Passed plainLibraries identity t) ∧ p.state.db.entries.length = 2 ∧
      AuditComplete plainLibraries identity freshWorld p := by
  obtain ⟨call, value, e, w, hg, hm, hb, hrun, hlength⟩ :=
    executionJob_served (.bool true) (.set []) (.set [])
  have hreach : Pool.Reachable (mcpRules plainLibraries) freshWorld
      ⟨w, [] ++ [⟨executionJob, _, .pure _⟩]⟩ := Pool.Steps.serve hrun []
  refine ⟨call.identity, _, hreach, ⟨_, List.mem_singleton_self _, call, ⟨_, _, rfl, hg⟩, rfl⟩,
    hlength, (audit_complete_iff rfl hreach).mpr ?_⟩
  intro t ht _ hstored
  rw [List.mem_singleton.mp ht] at hstored
  obtain ⟨u, i, key, throttled, wait, req, e', late, hcalls⟩ := hstored
  have hsecond := congrArg (fun cs : McpCalls => cs.tail.head?.map isThrottle) hcalls
  exact absurd hsecond (by simp [isThrottle])

section Hurried

variable {job : McpJob} {call : McpCall} {u : Uuid} {w w' w'' : World}

/-- A request within its rate whose callback is not let through. -/
theorem callback_refused {reason : String} (hr : job.state.rateLimited = true)
    (hg : gates L job.state job.headers job.body u.text = .ok call)
    (hurl : validateCallbackUrl L job.state job.headers = .error reason)
    (hp : McpPerforms L (.checkRate job.state.instanceId call.agentKey) w .allowed w') :
    Prog.RunsTo (McpPerforms L) (job.program L) w
      [⟨.newV4, u⟩, ⟨.checkRate job.state.instanceId call.agentKey, .allowed⟩]
      (some (plainResponse 400 call.correlationId job.state.mode (.text reason), [])) w' := by
  have hrate : RunsTo (McpPerforms L) (checkRate L job.state call) w
      [⟨.checkRate job.state.instanceId call.agentKey, .allowed⟩] (.ok ()) w' := by
    rw [checkRate, if_pos hr]
    exact .ask hp .pure
  have hstop : RunsTo (McpPerforms L) (admitted L job.state job.headers job.body call) w
      ([⟨.checkRate job.state.instanceId call.agentKey, .allowed⟩] ++ [])
      (.error (some (plainResponse 400 call.correlationId job.state.mode (.text reason), []))) w' := by
    refine hrate.bind ?_
    rw [hurl]
    exact .throw
  exact handleMcp_admitted hg rfl hstop

/-- A request over its rate. -/
theorem rate_refused {throttled : String} {wait : Nat} {e : LedgerEntry}
    (hr : job.state.rateLimited = true)
    (hg : gates L job.state job.headers job.body u.text = .ok call)
    (hp : McpPerforms L (.checkRate job.state.instanceId call.agentKey) w
      (.denied throttled wait) w')
    (ha : McpPerforms L (.append (throttledRequest call throttled wait)) w' (.ok e) w'') :
    Prog.RunsTo (McpPerforms L) (job.program L) w
      [⟨.newV4, u⟩, ⟨.checkRate job.state.instanceId call.agentKey, .denied throttled wait⟩,
        ⟨.append (throttledRequest call throttled wait), .ok e⟩]
      (some (plainResponse 429 call.correlationId job.state.mode
        (.text (throttledBody L call throttled wait)), [])) w'' := by
  have hrate : RunsTo (McpPerforms L) (checkRate L job.state call) w
      [⟨.checkRate job.state.instanceId call.agentKey, .denied throttled wait⟩,
        ⟨.append (throttledRequest call throttled wait), .ok e⟩]
      (.error (some (plainResponse 429 call.correlationId job.state.mode
        (.text (throttledBody L call throttled wait)), []))) w'' := by
    rw [checkRate, if_pos hr]
    exact .ask hp (.ask ha .throw)
  exact handleMcp_admitted hg rfl hrate.ended

theorem served_twice {cs ds : McpCalls} {a b : Ended}
    (h : Prog.RunsTo (McpPerforms L) (job.program L) w cs a w')
    (h' : Prog.RunsTo (McpPerforms L) (job.program L) w' ds b w'') :
    Pool.Reachable (mcpRules L) w ⟨w'', [⟨job, cs, .pure a⟩, ⟨job, ds, .pure b⟩]⟩ := by
  have hfirst : Pool.Steps (mcpRules L) ⟨w, []⟩ ⟨w', [⟨job, cs, .pure a⟩]⟩ :=
    Pool.Steps.serve h []
  have hsecond : Pool.Steps (mcpRules L) ⟨w', [⟨job, cs, .pure a⟩]⟩
      ⟨w'', [⟨job, cs, .pure a⟩] ++ [⟨job, ds, .pure b⟩]⟩ := Pool.Steps.serve h' _
  exact hfirst.trans hsecond

end Hurried

/-- An execution with a callback, asked of a process that limits rates and lets no
callback through. -/
def hurriedJob : McpJob where
  state := { executionJob.state with rateLimited := true }
  headers := executionJob.headers ++ [("x-clavenar-callback-url", utf8 "https://hooks.test/seen")]
  body := executionJob.body

theorem hurriedJob_passes : ∃ call, gates plainLibraries hurriedJob.state hurriedJob.headers
    hurriedJob.body (numberedUuid 1).text = .ok call := by
  have heval : ((gates plainLibraries hurriedJob.state hurriedJob.headers hurriedJob.body
      (numberedUuid 1).text).toOption.isSome) = true := by
    decide +kernel
  obtain ⟨call, hg⟩ := Option.isSome_iff_exists.mp heval
  exact ⟨call, ok_of_toOption hg⟩

theorem hurriedJob_callback : ∃ reason,
    validateCallbackUrl plainLibraries hurriedJob.state hurriedJob.headers = .error reason := by
  have heval : (validateCallbackUrl plainLibraries hurriedJob.state
      hurriedJob.headers).toOption.isNone = true := by
    decide +kernel
  cases hv : validateCallbackUrl plainLibraries hurriedJob.state hurriedJob.headers with
  | error reason => exact ⟨reason, rfl⟩
  | ok url => simp [hv, Except.toOption] at heval

/-- A bucket of one token, taken. -/
def drainedBucket : TokenBucket := ⟨1, 0, 1, 0, 0⟩

theorem takes_token : (TokenBucket.new ⟨1, 1⟩ 0).tryConsume 0 = (.ok (), drainedBucket) := by
  simp [TokenBucket.tryConsume, TokenBucket.refill, saturatingSince, TokenBucket.new, drainedBucket]

theorem drained_refuses : drainedBucket.tryConsume 0 = (.error 1, drainedBucket) := by
  simp [TokenBucket.tryConsume, TokenBucket.refill, saturatingSince, drainedBucket, ceilAsU64]

/-- A limiter of one token serves the first of two calls at once. -/
theorem check_twice (key : String) : ∃ limiter limiter',
    RateLimiter.check ⟨0, key⟩ ⟨⟨1, 1⟩, ∅⟩ = (.allowed, limiter) ∧
      RateLimiter.check ⟨0, key⟩ limiter = (.denied key 1, limiter') := by
  have hroom : ∀ {m : Buckets}, m.keys.length ≤ 1 → maybePrune m 0 = m := fun hm =>
    if_pos (lt_of_le_of_lt hm (by decide))
  let drained : Buckets := (∅ : Buckets).insert key drainedBucket
  refine ⟨⟨⟨1, 1⟩, drained⟩, ⟨⟨1, 1⟩, drained.insert key drainedBucket⟩, ?_, ?_⟩
  · rw [RateLimiter.check, hroom (by simp), RateLimiter.takeToken, AList.lookup_empty]
    simp only [Option.getD_none, takes_token]
    rfl
  · rw [RateLimiter.check, hroom (by simp [drained]), RateLimiter.takeToken,
      AList.lookup_insert]
    simp only [Option.getD_some, drained_refuses]
    rfl

/-- The request is sent twice at once, and the second is refused by the limiter. -/
theorem refused_unlisted : ∃ (identity : AgentIdentity) (p : Pool McpOp World McpJob Ended),
    Pool.Reachable (mcpRules plainLibraries) freshWorld p ∧
      ¬ AuditComplete plainLibraries identity freshWorld p := by
  obtain ⟨call, hg⟩ := hurriedJob_passes
  obtain ⟨reason, hurl⟩ := hurriedJob_callback
  obtain ⟨limiter, limiter', hfirst, hsecond⟩ := check_twice call.agentKey
  let w₁ := freshWorld.remember "node-1" { freshWorld.memory "node-1" with limiter := limiter }
  let w₂ := w₁.remember "node-1" { w₁.memory "node-1" with limiter := limiter' }
  have hlimiter : (w₁.memory "node-1").limiter = limiter := by
    simp [w₁, World.remember]
  have hallowed : McpPerforms plainLibraries (.checkRate "node-1" call.agentKey) freshWorld
      .allowed w₁ := ⟨0, limiter, hfirst, rfl⟩
  have hdenied : McpPerforms plainLibraries (.checkRate "node-1" call.agentKey) w₁
      (.denied call.agentKey 1) w₂ := ⟨0, limiter', by rw [hlimiter]; exact hsecond, rfl⟩
  have hfresh : w₂.db.FreshId (numberedUuid 2) := fun _ hr => absurd hr List.not_mem_nil
  have hlimited : hurriedJob.state.rateLimited = true := rfl
  have hrun₁ := callback_refused hlimited hg hurl hallowed
  have hrun₂ := rate_refused hlimited hg hdenied (performs_append (t := newYear) hfresh)
  have hreach := served_twice hrun₁ hrun₂
  refine ⟨call.identity, _, hreach, incomplete_of_refused hreach
    (List.mem_cons_of_mem _ (List.mem_singleton_self _)) ⟨call, ⟨_, _, rfl, hg⟩, rfl⟩ ?_⟩
  exact ⟨_, _, _, _, _, _, _, _, rfl⟩

end ClavenarLite
