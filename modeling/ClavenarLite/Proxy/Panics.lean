import ClavenarLite.Proxy.Results

/-! The requests that the handler panics on. -/

namespace ClavenarLite

open Bytes Interaction TextJson Transaction

section Panics

variable {L : Libraries} {job : McpJob} {call : McpCall} {cs : McpCalls}

theorem checkRate_passed {σ : Type} {performs : ∀ {δ : Type}, McpOp δ → σ → δ → σ → Prop} {s : σ}
    (hrate : job.state.rateLimited = true → ∀ i key, performs (.checkRate i key) s .allowed s) :
    RunsTo performs (checkRate L job.state call) s (ratePart job call) (.ok ()) s := by
  by_cases hr : job.state.rateLimited = true
  · rw [checkRate, if_pos hr, ratePart, if_pos hr]
    exact .ask (hrate hr _ _) .pure
  · rw [checkRate, if_neg hr, ratePart, if_neg hr]
    exact .pure

/-- Such a request panics right after the limiter. -/
theorem Misparsed.runs (h : Misparsed L job call cs) {σ : Type}
    {performs : ∀ {δ : Type}, McpOp δ → σ → δ → σ → Prop} {s : σ}
    (hnew : ∀ u, performs .newV4 s u s)
    (hrate : job.state.rateLimited = true → ∀ i key, performs (.checkRate i key) s .allowed s) :
    Prog.RunsTo performs (job.program L) s cs none s := by
  obtain ⟨u, hg, rfl⟩ := h.opened
  obtain ⟨url, hurl⟩ := h.callback
  obtain ⟨id, hid⟩ := Option.isSome_iff_exists.mp h.execution
  refine handleMcp_admitted (e := .error none) hg (hnew u) ?_
  have hcall : RunsTo performs (handleToolCall L job.state job.body call url) s [] (.error none)
      s := by
    unfold handleToolCall
    refine RunsTo.ended ?_
    rw [serverBinding, hid, h.unreadable]
    exact .throw
  have hrest : RunsTo performs (admitted L job.state job.headers job.body call) s
      (ratePart job call ++ []) (.error none) s := by
    unfold admitted
    refine (checkRate_passed hrate).bind ?_
    rw [hurl]
    show RunsTo _ (if isMcpControlMethod call.parsed.method = true then _ else _) _ _ _ _
    rw [if_neg (by simp [h.tool])]
    exact hcall
  rwa [List.append_nil] at hrest

/-- The adapter of the protocol reads the body as a value before. -/
theorem Misparsed.rawJson (h : Misparsed L job call cs) :
    job.state.upstreamAdapter ≠ .mcpJsonRpcV1 := by
  intro ha
  obtain ⟨u, hg, _⟩ := h.opened
  obtain ⟨requestId, hid⟩ := (gates_ok hg).adapter
  obtain ⟨request, hrequest, _⟩ := UpstreamAdapter.validateRequest_id hid ha
  rw [h.unreadable] at hrequest
  exact absurd hrequest (by simp)

variable {w : World} {p : Pool McpOp World McpJob Ended} {t : Thread McpOp McpJob Ended}

/-- A result that a request was told can be put into headers, if those in the file could. -/
theorem told_presentable (h : Pool.Reachable (mcpRules L) w p) (hk : ExecutionsKept w.db)
    (hold : ∀ row ∈ w.db.serverExecutions, ∀ c, retained row = .ok c → Presentable c)
    (ht : t ∈ p.threads) {made : Call McpOp} (hm : made ∈ t.calls) {b : ServerExecutionBinding}
    {c : ServerExecutionCompleted} (htell : Tells b c made) : Presentable c := by
  obtain ⟨_, log, hlog⟩ := linearized_of_reachable h hk
  rcases hlog.stored ht hm htell with ⟨u, hu, b', st, ct, body, _, hstored⟩ | ⟨rec, hrec, hdone⟩
  · rw [stored_results h hu hstored]
    exact completedResult_presentable L.floats b' st ct body
  · rw [Db.executions] at hrec
    obtain ⟨row, hfind, rfl⟩ := Option.map_eq_some_iff.mp hrec
    exact hold row (Db.findExecution_some hfind).1 c (stage_done hdone)

/-- A request ends in a panic just when it is a server execution of a tool, its callback is
accepted, and its body is read as a request and not as the value that is to be bound; with the
adapter of the protocol none does. -/
theorem panics_iff (h : Pool.Reachable (mcpRules L) w p) (hk : ExecutionsKept w.db)
    (hold : ∀ row ∈ w.db.serverExecutions, ∀ c, retained row = .ok c → Presentable c)
    (ht : t ∈ p.threads) {e : Ended} (hrest : t.rest = .pure e) :
    (e = none ↔ ∃ call, Misparsed L t.job call t.calls) ∧
      (t.job.state.upstreamAdapter = .mcpJsonRpcV1 → e ≠ none) := by
  have htrace : Prog.Trace (t.job.program L) t.calls (.pure e) := hrest ▸ h.follows t ht
  have hpanic : e = none → ∃ call, Misparsed L t.job call t.calls := by
    rintro rfl
    have hretains : Retains L t.job t.calls none := handleMcp_retains.result htrace
    rcases hretains with hmis | ⟨made, hm, b, c, htell, hnot⟩
    · exact hmis
    · exact absurd (told_presentable h hk hold ht hm htell) hnot
  refine ⟨⟨hpanic, ?_⟩, fun ha he => ?_⟩
  · rintro ⟨call, hmis⟩
    have hrun : Prog.RunsTo (fun _ _ _ _ => True) (t.job.program L) () t.calls none () :=
      hmis.runs (fun _ => trivial) fun _ _ _ => trivial
    exact Prog.pure.inj (htrace.unique hrun.trace)
  · obtain ⟨call, hmis⟩ := hpanic he
    exact hmis.rawJson ha

end Panics

/-- Libraries that skip the value of a field no request has, as the reader of requests does. -/
def lenientLibraries : Libraries :=
  { plainLibraries with
    readRequest := fun body =>
      if body = utf8 "\x7b\"method\":\"tools/call\",\"x\":1e999\x7d" then
        some ⟨"tools/call", none, none, none⟩
      else plainLibraries.readRequest body
    readRequest_opens := by
      intro body h
      split_ifs at h with hbody
      · exact Or.inl (hbody ▸ by decide +kernel)
      · exact plainLibraries.readRequest_opens body h }

/-- An execution whose body holds a number that no value holds. -/
def misparsedJob : McpJob :=
  { executionJob with
    state := { executionJob.state with upstreamAdapter := .rawJson }
    body := utf8 "\x7b\"method\":\"tools/call\",\"x\":1e999\x7d" }

theorem misparsedJob_url :
    validateCallbackUrl lenientLibraries misparsedJob.state misparsedJob.headers = .ok none := by
  have hnone : misparsedJob.headers.get "x-clavenar-callback-url" = none := by decide +kernel
  rw [validateCallbackUrl, hnone]
  rfl

theorem misparsedJob_panics : ∃ call, Misparsed lenientLibraries misparsedJob call
    [⟨.newV4, numberedUuid 1⟩] := by
  have heval : ((gates lenientLibraries misparsedJob.state misparsedJob.headers misparsedJob.body
      (numberedUuid 1).text).toOption.any fun call =>
        call.serverExecution.isSome && !isMcpControlMethod call.parsed.method) = true := by
    decide +kernel
  have hnone : (fromSlice lenientLibraries.floats misparsedJob.body).isNone = true := by
    decide +kernel
  obtain ⟨call, hg, hcall⟩ := (Option.any_eq_true _ _).mp heval
  simp only [Bool.and_eq_true, Bool.not_eq_true'] at hcall
  exact ⟨call, ⟨_, Fallible.ok_of_toOption hg, rfl⟩, ⟨none, misparsedJob_url⟩, hcall.2, hcall.1,
    Option.isNone_iff_eq_none.mp hnone⟩

theorem panics_iff_misparsed : ∃ (p : Pool McpOp World McpJob Ended)
    (t : Thread McpOp McpJob Ended) (call : McpCall),
    Pool.Reachable (mcpRules lenientLibraries) freshWorld p ∧ t ∈ p.threads ∧
      t.rest = .pure none ∧ Misparsed lenientLibraries t.job call t.calls := by
  obtain ⟨call, hmis⟩ := misparsedJob_panics
  have hrun : Prog.RunsTo (McpPerforms lenientLibraries) (misparsedJob.program lenientLibraries)
      freshWorld [⟨.newV4, numberedUuid 1⟩] none freshWorld :=
    hmis.runs (fun _ => rfl) fun hr => absurd hr (by decide)
  let t : Thread McpOp McpJob Ended := ⟨misparsedJob, [⟨.newV4, numberedUuid 1⟩], .pure none⟩
  have hreach : Pool.Reachable (mcpRules lenientLibraries) freshWorld ⟨freshWorld, [t]⟩ :=
    @Pool.Steps.serve _ _ _ _ (mcpRules lenientLibraries) _ _ misparsedJob _ _ hrun []
  have ht : t ∈ [t] := List.mem_singleton_self t
  have hrest : t.rest = .pure none := rfl
  obtain ⟨call', hmis'⟩ := (panics_iff hreach executionsKept_empty
    (fun _ hr => absurd hr List.not_mem_nil) ht hrest).1.mp rfl
  exact ⟨⟨freshWorld, [t]⟩, t, call', hreach, ht, hrest, hmis'⟩

end ClavenarLite
