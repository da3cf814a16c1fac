import ClavenarLite.Proxy.Linearized
import ClavenarLite.Proxy.Retained
import ClavenarLite.Proxy.Signals

/-! Results agree. Whoever is told the result of an execution is told the same one, and a
replayed answer is one that some request obtained. -/

namespace ClavenarLite

open Bytes Interaction Sha TextJson Transaction

variable {L : Libraries} {job : McpJob} {call : McpCall} {v : Verdict} {b : ServerExecutionBinding}
  {cs : McpCalls} {w : World} {p : Pool McpOp World McpJob Ended} {t u : Thread McpOp McpJob Ended}
  {c : ServerExecutionCompleted} {made : Call McpOp}

theorem Tells.event (h : Tells b c made) :
    ∃ e, executionEvent made = some e ∧ e.Reports b.key c := by
  cases h with
  | inspected => exact ⟨_, rfl, rfl, rfl⟩
  | known i => exact ⟨_, rfl, rfl, rfl⟩
  | stored st ct body => exact ⟨_, rfl, rfl, rfl⟩

theorem Released.binds (h : Released L job call (some b) v cs) : Bound L job call (some b) := by
  obtain ⟨⟨_, ⟨_, _, ⟨_, _, _, hb, _⟩, _⟩, _⟩, _, _⟩ := h
  exact hb

theorem Tells.binds (h : Tells b c made) (hr : McpRule L job cs made.op) :
    ∃ call, Bound L job call (some b) := by
  cases h with
  | inspected =>
    obtain ⟨call, _, hb, _⟩ := hr
    exact ⟨call, hb⟩
  | known i =>
    obtain ⟨call, v, hrel, _⟩ := hr
    exact ⟨call, hrel.binds⟩
  | stored st ct body =>
    obtain ⟨call, v, _, _, ⟨_, hrel, _⟩, _⟩ := hr
    exact ⟨call, hrel.binds⟩

theorem rule_of_mem (hf : t.Follows (mcpRules L)) (hm : made ∈ t.calls) :
    ∃ before, McpRule L t.job before made.op := by
  obtain ⟨before, after, hsplit⟩ := List.append_of_mem hm
  exact ⟨before, rule_of_follows hf hsplit⟩

/-- What is stored is what the upstream answered to the request. -/
theorem obtained_of_mem (hf : t.Follows (mcpRules L)) {st : UInt16} {ct : Option String}
    {body : Octets} {answer : Except SqlError ServerExecutionCompleted}
    (hm : ⟨.completeServerExecution b st ct body, answer⟩ ∈ t.calls) :
    Obtained L t.job b ⟨st, ct, body⟩ t.calls := by
  obtain ⟨before, after, hsplit⟩ := List.append_of_mem hm
  have hobeys : Prog.Obeys (StoreRule L t.job) [] ((mcpRules L).program t.job) :=
    handleMcp_retains.obeys
  have hobtained : Obtained L t.job b ⟨st, ct, body⟩ before := hobeys.rule_of_trace hf hsplit
  rw [hsplit]
  exact ⟨List.mem_append_left _ hobtained.started, List.mem_append_left _ hobtained.sent,
    hobtained.accepted⟩

/-- A request that is told a result holds the terms of the execution. -/
theorem Tells.meets (h : Tells b c made) (hf : t.Follows (mcpRules L)) (hm : made ∈ t.calls) :
    ∃ e ∈ executionEvents t, e.Meets b.key b.terms := by
  cases h with
  | inspected => exact ⟨_, List.mem_filterMap.mpr ⟨_, hm, rfl⟩, rfl, rfl, c, rfl⟩
  | known i => exact ⟨_, List.mem_filterMap.mpr ⟨_, hm, rfl⟩, rfl, rfl, Or.inr ⟨c, rfl⟩⟩
  | stored st ct body =>
    exact ⟨_, List.mem_filterMap.mpr ⟨_, (obtained_of_mem hf hm).started, rfl⟩, rfl, rfl,
      Or.inl rfl⟩

theorem finish_event {k : String × String} (h : .finish k c ∈ executionEvents t) :
    ∃ b st ct body, b.key = k ∧ ⟨.completeServerExecution b st ct body, .ok c⟩ ∈ t.calls := by
  obtain ⟨⟨op, a⟩, hm, he⟩ := List.mem_filterMap.mp h
  cases op with
  | completeServerExecution b st ct body =>
    cases a with
    | error x => cases he
    | ok c' =>
      cases he
      exact ⟨b, st, ct, body, rfl, hm⟩
  | inspectServerExecution b => cases a <;> cases he
  | beginServerExecution i b => cases a <;> cases he
  | _ => cases he

variable {log : List ExecutionEvent}

theorem Linearized.mem (h : Linearized w p log) (ht : t ∈ p.threads) {e : ExecutionEvent}
    (he : e ∈ executionEvents t) : e ∈ log :=
  (h.ordered t ht).subset he

/-- An event that is no loss is one of a thread. -/
theorem Linearized.occurred (h : Linearized w p log) {e : ExecutionEvent} (he : e ∈ log)
    (hloss : isLoss e = false) : ∃ t ∈ p.threads, e ∈ executionEvents t := by
  have hmem : e ∈ log.filter fun e => !isLoss e := List.mem_filter.mpr ⟨he, by simp [hloss]⟩
  exact List.mem_flatMap.mp (h.complete.mem_iff.mpr hmem)

def startsOf (k : String × String) (made : Call McpOp) : Nat :=
  (executionEvent made).toList.countP (Once.Event.isStart k)

theorem total_starts (k : String × String) :
    p.total (startsOf k) = (p.threads.flatMap executionEvents).countP (Once.Event.isStart k) := by
  have hthread : ∀ t : Thread McpOp McpJob Ended,
      t.total (startsOf k) = (executionEvents t).countP (Once.Event.isStart k) := by
    intro t
    rw [executionEvents, List.filterMap_eq_flatMap_toList, List.countP_flatMap]
    rfl
  rw [List.countP_flatMap, Pool.total, List.map_congr_left fun t _ => hthread t]
  rfl

theorem Linearized.starts_le_one (h : Linearized w p log) (k : String × String) :
    p.total (startsOf k) ≤ 1 := by
  rw [total_starts, h.complete.countP_eq]
  exact (List.filter_sublist.countP_le).trans (h.run.started_once k).1

/-- The request was told to run the execution under the key. -/
def StartedUnder (k : String × String) (t : Thread McpOp McpJob Ended) : Prop :=
  ∃ i b, b.key = k ∧ ⟨.beginServerExecution i b, .ok .started⟩ ∈ t.calls

/-- The request has stored the result under the key. -/
def StoredUnder (k : String × String) (c : ServerExecutionCompleted)
    (t : Thread McpOp McpJob Ended) : Prop :=
  ∃ b st ct body, b.key = k ∧ ⟨.completeServerExecution b st ct body, .ok c⟩ ∈ t.calls

theorem StartedUnder.counted {k : String × String} (h : StartedUnder k t) :
    1 ≤ t.total (startsOf k) := by
  obtain ⟨i, b, rfl, hm⟩ := h
  have hone : startsOf b.key ⟨.beginServerExecution i b, .ok .started⟩ = 1 := by
    simp [startsOf, executionEvent, ServerExecutionOutcome.toAnswer, Once.Event.isStart]
  rw [← hone]
  exact List.le_sum_of_mem (List.mem_map_of_mem hm)

/-- One request at most is told to run an execution. -/
theorem Linearized.started_alone (h : Linearized w p log) {k : String × String}
    (ht : t ∈ p.threads) (hu : u ∈ p.threads) (hs : StartedUnder k t) (hs' : StartedUnder k u) :
    t = u :=
  Pool.eq_of_total_le_one (h.starts_le_one k) ht hu hs.counted hs'.counted

theorem StoredUnder.started {k : String × String} (h : StoredUnder k c t)
    (hf : t.Follows (mcpRules L)) : StartedUnder k t := by
  obtain ⟨b, st, ct, body, hk, hm⟩ := h
  exact ⟨_, b, hk, (obtained_of_mem hf hm).started⟩

/-- A result that was told was stored by a request, or had been stored before. -/
theorem Linearized.stored (h : Linearized w p log) (ht : t ∈ p.threads) (hm : made ∈ t.calls)
    (htell : Tells b c made) :
    (∃ u ∈ p.threads, StoredUnder b.key c u) ∨
      ∃ r, w.db.executions b.key = some r ∧ r.stage = .done c := by
  obtain ⟨e, he, hr⟩ := htell.event
  have hlog : e ∈ log := h.mem ht (List.mem_filterMap.mpr ⟨_, hm, he⟩)
  obtain ⟨r, hk, hstage⟩ := h.run.reported hlog hr
  rcases h.run.finished hk hstage with hfinish | hbefore
  · obtain ⟨u, hu, hevent⟩ := h.occurred hfinish rfl
    exact Or.inl ⟨u, hu, finish_event hevent⟩
  · exact Or.inr ⟨r, hbefore, hstage⟩

/-- Whoever is told a result under a key holds the terms of the execution. -/
theorem Linearized.terms_agree (h : Linearized w p log) (ht : t ∈ p.threads) (hu : u ∈ p.threads)
    (hf : t.Follows (mcpRules L)) (hf' : u.Follows (mcpRules L)) {b' : ServerExecutionBinding}
    {c' : ServerExecutionCompleted} {made' : Call McpOp} (hm : made ∈ t.calls)
    (hm' : made' ∈ u.calls) (htell : Tells b c made) (htell' : Tells b' c' made')
    (hkey : b.key = b'.key) : b.terms = b'.terms := by
  obtain ⟨e, he, hmeets⟩ := htell.meets hf hm
  obtain ⟨e', he', hmeets'⟩ := htell'.meets hf' hm'
  exact h.run.terms_agree (h.mem ht he) (h.mem hu he') hmeets (hkey ▸ hmeets')

/-- Whoever is told a result of an execution is told the same, and asked for the same. If the
execution was unknown when the run began, one request of the run was told to run it, once, and
that one stored the result. -/
theorem results_agree (h : Pool.Reachable (mcpRules L) w p) (hk : ExecutionsKept w.db)
    {b b' : ServerExecutionBinding} {c c' : ServerExecutionCompleted} {made made' : Call McpOp}
    (ht : t ∈ p.threads) (hu : u ∈ p.threads) (hm : made ∈ t.calls) (hm' : made' ∈ u.calls)
    (htell : Tells b c made) (htell' : Tells b' c' made') (hkey : b.key = b'.key) :
    c = c' ∧ b.terms = b'.terms ∧ (w.db.findExecution b.key = none →
      p.total (startsOf b.key) = 1 ∧ ∃ s ∈ p.threads, StoredUnder b.key c s ∧
        StartedUnder b.key s ∧ ∀ s' ∈ p.threads, StartedUnder b.key s' → s' = s) := by
  obtain ⟨_, log, hlog⟩ := linearized_of_reachable h hk
  refine ⟨?_, hlog.terms_agree ht hu (h.follows t ht) (h.follows u hu) hm hm' htell htell' hkey,
    fun hnone => ?_⟩
  · obtain ⟨e, he, hr⟩ := htell.event
    obtain ⟨e', he', hr'⟩ := htell'.event
    have hmem : e ∈ log := hlog.mem ht (List.mem_filterMap.mpr ⟨_, hm, he⟩)
    have hmem' : e' ∈ log := hlog.mem hu (List.mem_filterMap.mpr ⟨_, hm', he'⟩)
    exact hlog.run.reports_agree hmem hmem' hr (hkey ▸ hr')
  · rcases hlog.stored ht hm htell with ⟨s, hs, hstored⟩ | ⟨r, hbefore, _⟩
    · have hstarted := hstored.started (h.follows s hs)
      have hpos : 1 ≤ p.total (startsOf b.key) :=
        hstarted.counted.trans (List.le_sum_of_mem (List.mem_map_of_mem hs))
      refine ⟨(hlog.starts_le_one b.key).antisymm hpos, s, hs, hstored, hstarted, ?_⟩
      exact fun s' hs' h' => hlog.started_alone hs' hs h' hstarted
    · rw [Db.executions, hnone] at hbefore
      exact absurd hbefore (by simp)

/-- The messages whose digests tell the requests apart. -/
def requestMessages (L : Libraries) (p : Pool McpOp World McpJob Ended) : Set Octets :=
  { m | ∃ t ∈ p.threads, ∃ v, fromSlice L.floats t.job.body = some v ∧ m = utf8 (v.text L.floats) }

/-- The response is what the upstream answered to a request, which asked for the same as the
one that is answered now; where the adapter checks answers, it is a valid answer to this one. -/
structure Relays (L : Libraries) (u t : Thread McpOp McpJob Ended) (r : Response)
    (answer : ForwardedResponse) (v : Value) : Prop where
  sent : ⟨.send u.job.body, .ok answer⟩ ∈ u.calls
  asked : fromSlice L.floats t.job.body = some v
  same : fromSlice L.floats u.job.body = some v
  status : r.status = statusOr 503 answer.status
  body : r.body = .bytes answer.body
  valid : u.job.state.upstreamAdapter = .mcpJsonRpcV1 →
    ValidMcpResponse L.floats answer (v.json.get? "id")

theorem sha256_of_label {m m' : Octets} (h : sha256Label m = sha256Label m') :
    sha256 m = sha256 m' :=
  hexText_injective ((String.append_right_inj "sha256:").mp h)

theorem Bound.asked (h : Bound L job call (some b)) : ∃ v, fromSlice L.floats job.body = some v ∧
    b.submittedRequestSha256 = sha256Label (utf8 (v.text L.floats)) := by
  rcases h with ⟨_, hb⟩ | ⟨id, value, _, hv, hb⟩
  · exact absurd hb (by simp)
  · exact ⟨value, hv, congrArg ServerExecutionBinding.submittedRequestSha256 (Option.some.inj hb)⟩

theorem serverExecutionResponse_content {id : String} {mode : ClavenarMode}
    {replayed wouldDeny wouldPend : Bool} {r : Response}
    (h : serverExecutionResponse c id mode replayed wouldDeny wouldPend = some r) :
    r.status = statusOr 503 c.status ∧ r.body = .bytes c.body := by
  unfold serverExecutionResponse at h
  obtain ⟨executionId, _, h⟩ := Option.bind_eq_some_iff.mp h
  obtain ⟨resultSha256, _, h⟩ := Option.bind_eq_some_iff.mp h
  obtain rfl := Option.some.inj h
  exact ⟨rfl, rfl⟩

theorem stage_done {row : ExecutionRow} (h : row.stage = .done c) : retained row = .ok c := by
  cases hstate : row.state with
  | inFlight =>
    rw [stage_inFlight hstate] at h
    split_ifs at h
  | completed =>
    rw [ExecutionRow.stage, hstate] at h
    cases hr : retained row with
    | error e => simp [hr, Except.toOption] at h
    | ok c' =>
      have hdone : row.stage = .done c' := stage_completed hstate hr
      rw [ExecutionRow.stage, hstate, h] at hdone
      rw [Once.Stage.done.inj hdone]

/-- A result that was stored holds the answer it was made of. -/
theorem stored_results (h : Pool.Reachable (mcpRules L) w p) (ht : t ∈ p.threads)
    {st : UInt16} {ct : Option String} {body : Octets}
    (hm : ⟨.completeServerExecution b st ct body, .ok c⟩ ∈ t.calls) :
    c = completedResult L.floats b st ct body := by
  have hall := Pool.Steps.started (Q := fun _ => True) (K := fun made => ∀ b st ct body c,
    made = ⟨.completeServerExecution b st ct body, .ok c⟩ →
      c = completedResult L.floats b st ct body) ?_ (fun _ _ _ _ => trivial) h trivial
  · exact hall t ht _ hm b st ct body c rfl
  · intro δ op s a s' hp _
    refine ⟨trivial, fun b st ct body c he => ?_⟩
    cases he
    obtain ⟨oracle, db, hcall, _⟩ := hp
    exact (complete_ok hcall).1

/-- A response that is marked as retained relays the answer to a request of the run that asked
for the same, or was in the file before. -/
theorem retained_answers (h : Pool.Reachable (mcpRules L) w p) (hk : ExecutionsKept w.db)
    (hsha : Set.InjOn sha256 (requestMessages L p)) (ht : t ∈ p.threads) {r : Response}
    {notes : List Notification} (hrest : t.rest = .pure (some (r, notes)))
    (hr : r.has replayedHeader) :
    (∃ u ∈ p.threads, ∃ answer v, Relays L u t r answer v) ∨
      ∃ row ∈ w.db.serverExecutions, ∃ c, retained row = .ok c ∧
        r.status = statusOr 503 c.status ∧ r.body = .bytes c.body := by
  have htrace : Prog.Trace (t.job.program L) t.calls (.pure (some (r, notes))) :=
    hrest ▸ h.follows t ht
  obtain ⟨made, hm, b, c, htell, id, mode, wouldDeny, wouldPend, hresponse⟩ :=
    handleMcp_retains.result htrace hr
  obtain ⟨hstatus, hbody⟩ := serverExecutionResponse_content hresponse
  obtain ⟨_, log, hlog⟩ := linearized_of_reachable h hk
  rcases hlog.stored ht hm htell with ⟨u, hu, b', st, ct, body, hkey, hstored⟩ | ⟨rec, hrec, hdone⟩
  · left
    obtain rfl := stored_results h hu hstored
    have hobtained := obtained_of_mem (h.follows u hu) hstored
    have htell' : Tells b' (completedResult L.floats b' st ct body)
        ⟨.completeServerExecution b' st ct body,
          .ok (completedResult L.floats b' st ct body)⟩ := .stored st ct body
    have hterms := hlog.terms_agree ht hu (h.follows t ht) (h.follows u hu) hm hstored htell htell'
      hkey.symm
    obtain ⟨before, hrule⟩ := rule_of_mem (h.follows t ht) hm
    obtain ⟨before', hrule'⟩ := rule_of_mem (h.follows u hu) hstored
    obtain ⟨call, hbound⟩ := htell.binds hrule
    obtain ⟨call', hbound'⟩ := htell'.binds hrule'
    obtain ⟨v, hv, hdigest⟩ := hbound.asked
    obtain ⟨v', hv', hdigest'⟩ := hbound'.asked
    have hlabels : sha256Label (utf8 (v.text L.floats)) = sha256Label (utf8 (v'.text L.floats)) := by
      rw [← hdigest, ← hdigest']
      exact congrArg Terms.submittedRequestSha256 hterms
    have htexts : utf8 (v.text L.floats) = utf8 (v'.text L.floats) :=
      hsha ⟨t, ht, v, hv, rfl⟩ ⟨u, hu, v', hv', rfl⟩ (sha256_of_label hlabels)
    obtain rfl := text_injective L.floats (utf8_injective htexts)
    refine ⟨u, hu, ⟨st, ct, body⟩, v, hobtained.sent, hv, hv', hstatus, hbody, fun hmcp => ?_⟩
    obtain ⟨requestId, hid, haccept⟩ := hobtained.accepted
    obtain ⟨request, hrequest, rfl⟩ := UpstreamAdapter.validateRequest_id hid hmcp
    obtain rfl := Option.some.inj (hrequest.symm.trans hv')
    exact (UpstreamAdapter.accept_ok haccept).2.2 hmcp
  · right
    rw [Db.executions] at hrec
    obtain ⟨row, hfind, rfl⟩ := Option.map_eq_some_iff.mp hrec
    exact ⟨row, (Db.findExecution_some hfind).1, c, stage_done hdone, hstatus, hbody⟩

/-- Once a result is stored, a lookup under the same terms finds it. -/
theorem Linearized.known (h : Linearized w p log) (ht : t ∈ p.threads)
    (hf : t.Follows (mcpRules L)) {st : UInt16} {ct : Option String} {body : Octets}
    (hm : ⟨.completeServerExecution b st ct body, .ok c⟩ ∈ t.calls) :
    McpPerforms L (.inspectServerExecution b) p.state (.ok (.completed c)) p.state := by
  have htell : Tells b c ⟨.completeServerExecution b st ct body, .ok c⟩ := .stored st ct body
  obtain ⟨e, he, hr⟩ := htell.event
  obtain ⟨e', he', hmeets⟩ := htell.meets hf hm
  obtain ⟨rec, hrec, hdone⟩ := h.run.reported (h.mem ht (List.mem_filterMap.mpr ⟨_, hm, he⟩)) hr
  obtain ⟨rec', hrec', hterms⟩ := h.run.meets (h.mem ht he') hmeets
  obtain rfl := Option.some.inj (hrec.symm.trans hrec')
  rw [Db.executions] at hrec
  obtain ⟨row, hfind, rfl⟩ := Option.map_eq_some_iff.mp hrec
  have hcompleted : row.state = .completed := by
    cases hstate : row.state with
    | completed => rfl
    | inFlight =>
      have hstage : row.stage = .done c := hdone
      rw [stage_inFlight hstate] at hstage
      split_ifs at hstage
  let oracle := steady (Uuid.newV5 Uuid.namespaceUrl []) newYear
  refine ⟨oracle, p.state.db, Prod.ext ?_ (inspect_db b oracle p.state.db), rfl⟩
  have hsame : SameRequest row b := sameRequest_iff.mpr hterms
  rw [inspect_eq, if_neg (by simp [oracle, steady]), hfind, outcomeOf,
    if_neg (not_not.mpr hsame), if_neg (not_not.mpr hcompleted), stage_done hdone]
  rfl

/-- The execution in the fresh world, and its retry. -/
theorem replayed_pool : ∃ (w : World) (t u : Thread McpOp McpJob Ended) (b : ServerExecutionBinding)
    (c : ServerExecutionCompleted) (r : Response),
    Pool.Reachable (mcpRules plainLibraries) freshWorld ⟨w, [t, u]⟩ ∧ t.job = executionJob ∧
      u.job = executionJob ∧ StoredUnder b.key c t ∧
      ⟨.inspectServerExecution b, .ok (.completed c)⟩ ∈ u.calls ∧
      u.rest = .pure (some (r, [])) ∧ r.has replayedHeader := by
  obtain ⟨w, t, call, value, hreach, hjob, hg, hb, hm⟩ := executed_pool
  obtain ⟨_, log, hlog⟩ := linearized_of_reachable hreach executionsKept_empty
  have ht := List.mem_singleton_self t
  have hknown := hlog.known ht (hreach.follows t ht) hm
  have htool : isMcpControlMethod call.parsed.method = false := by
    obtain ⟨call', hg', _, _, hm'⟩ := executionJob_passes
    obtain rfl := Except.ok.inj (hg.symm.trans hg')
    exact hm'
  have hrun := known_alone hg rfl executionJob_url htool hb rfl hknown
  obtain ⟨r, hr⟩ := (completedResult_presentable bitsText
    (bindingOf plainLibraries call (numberedUuid 7) value) 200 (some "application/json")
      executionAnswer.body).response call.correlationId executionJob.state.mode true false false
  rw [hr] at hrun
  have hserve := @Pool.Steps.serve _ _ _ _ (mcpRules plainLibraries) _ _ executionJob _ _ hrun [t]
  exact ⟨w, t, _, _, _, r, hreach.trans hserve, hjob, rfl, ⟨_, _, _, _, rfl, hm⟩, by simp, rfl,
    response_replayed hr⟩

theorem results_agree_replayed : ∃ (p : Pool McpOp World McpJob Ended)
    (t u : Thread McpOp McpJob Ended) (b : ServerExecutionBinding) (c : ServerExecutionCompleted),
    Pool.Reachable (mcpRules plainLibraries) freshWorld p ∧ StoredUnder b.key c t ∧
      ⟨.inspectServerExecution b, .ok (.completed c)⟩ ∈ u.calls ∧
      p.total (startsOf b.key) = 1 ∧ ∃ s ∈ p.threads, StoredUnder b.key c s ∧
        StartedUnder b.key s ∧ ∀ s' ∈ p.threads, StartedUnder b.key s' → s' = s := by
  obtain ⟨w, t, u, b, c, r, hreach, _, _, hstored, hm, _⟩ := replayed_pool
  have hu : u ∈ [t, u] := by simp
  exact ⟨_, t, u, b, c, hreach, hstored, hm,
    (results_agree hreach executionsKept_empty hu hu hm hm .inspected .inspected rfl).2.2 rfl⟩

theorem retained_answers_replayed : ∃ (p : Pool McpOp World McpJob Ended)
    (t u : Thread McpOp McpJob Ended) (r : Response) (answer : ForwardedResponse) (v : Value),
    Pool.Reachable (mcpRules plainLibraries) freshWorld p ∧ t ∈ p.threads ∧
      t.rest = .pure (some (r, [])) ∧ r.has replayedHeader ∧ u ∈ p.threads ∧
      Relays plainLibraries u t r answer v := by
  obtain ⟨w, t, u, b, c, r, hreach, ht, hu, _, hm, hrest, hr⟩ := replayed_pool
  have hmem : u ∈ [t, u] := by simp
  have hjob : ∀ s ∈ [t, u], s.job = executionJob := by
    intro s hs
    rcases List.mem_pair.mp hs with rfl | rfl
    · exact ht
    · exact hu
  have hsha : Set.InjOn sha256 (requestMessages plainLibraries ⟨w, [t, u]⟩) := by
    rintro m ⟨s, hs, v, hv, rfl⟩ m' ⟨s', hs', v', hv', rfl⟩ _
    rw [hjob s hs] at hv
    rw [hjob s' hs', hv] at hv'
    rw [Option.some.inj hv']
  rcases retained_answers hreach executionsKept_empty hsha hmem hrest hr with
    ⟨s, hs, answer, v, hrelays⟩ | ⟨row, hrow, _⟩
  · exact ⟨_, u, s, r, answer, v, hreach, hmem, hrest, hr, hs, hrelays⟩
  · exact absurd hrow List.not_mem_nil

end ClavenarLite
