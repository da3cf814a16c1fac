import ClavenarLite.Ledger.Runs
import ClavenarLite.Proxy.Alone

/-! The would-be verdicts that a response and its webhook event report. -/

namespace ClavenarLite

open Bytes Fallible Interaction TextJson Transaction

variable {L : Libraries} {job : McpJob}

/-- An operator's approval was found under the request's correlation id. -/
def Approved (call : McpCall) (cs : McpCalls) : Prop :=
  ∃ p, p.decision = some "allow" ∧ ⟨.getPending call.correlationId, .ok (some p)⟩ ∈ cs

/-- An allowed decision, or a response that was relayed or replayed. -/
def Response.Concludes (r : Response) : Prop :=
  (∃ c, r.body = .json (decisionAllowed c)) ∨ r.has replayedHeader

def Emits (notes : List Notification) (event : EventKind) : Prop :=
  ∃ url e, .webhook url e ∈ notes ∧ e.event = event

structure Signals (mode : ClavenarMode) (approved : Prop) (v : Verdict) (r : Response)
    (notes : List Notification) : Prop where
  denyHeader : r.Concludes → (r.has wouldDenyHeader ↔ mode = .observe ∧ v.tier = .red)
  pendHeader : r.Concludes → (r.has wouldPendHeader ↔ mode = .observe ∧ v.tier = .yellow)
  denyEvent : Emits notes .wouldDeny → mode = .observe ∧ v.tier = .red
  parkEvent : Emits notes .wouldPark → mode = .observe ∧ v.tier = .yellow
  allowEvent : Emits notes .allow → v.tier = .green ∨ mode = .enforce ∧ v.tier = .yellow ∧ approved

/-- The requests whose verdict is reported. -/
def Reports (mode : ClavenarMode) (call : McpCall) (v : Verdict) : Prop :=
  ¬ (mode = .observe ∧ call.decision.isSome ∧ v.tier ≠ .green) ∧
    ¬ (mode = .enforce ∧ v.tier = .yellow)

@[simp] theorem plainResponse_headers (status : UInt16) (c : String) (mode : ClavenarMode)
    (b : Body) : (plainResponse status c mode b).headers = clavenarHeaders c mode false false := rfl

@[simp] theorem plainResponse_body (status : UInt16) (c : String) (mode : ClavenarMode) (b : Body) :
    (plainResponse status c mode b).body = b := rfl

theorem has_wouldDeny (c : String) (mode : ClavenarMode) (wouldDeny wouldPend : Bool) :
    wouldDenyHeader ∈ (clavenarHeaders c mode wouldDeny wouldPend).map Prod.fst ↔
      wouldDeny = true := by
  cases wouldDeny <;> cases wouldPend <;>
    simp [clavenarHeaders, wouldDenyHeader, wouldPendHeader, correlationHeader]

theorem has_wouldPend (c : String) (mode : ClavenarMode) (wouldDeny wouldPend : Bool) :
    wouldPendHeader ∈ (clavenarHeaders c mode wouldDeny wouldPend).map Prod.fst ↔
      wouldPend = true := by
  cases wouldDeny <;> cases wouldPend <;>
    simp [clavenarHeaders, wouldDenyHeader, wouldPendHeader, correlationHeader]

theorem not_replayed (c : String) (mode : ClavenarMode) (wouldDeny wouldPend : Bool) :
    replayedHeader ∉ (clavenarHeaders c mode wouldDeny wouldPend).map Prod.fst := by
  cases wouldDeny <;> cases wouldPend <;>
    simp [clavenarHeaders, wouldDenyHeader, wouldPendHeader, correlationHeader, replayedHeader]

theorem plainResponse_concludes {status : UInt16} {c : String} {mode : ClavenarMode} {b : Body} :
    (plainResponse status c mode b).Concludes ↔ ∃ d, b = .json (decisionAllowed d) := by
  refine ⟨fun h => ?_, Or.inl⟩
  rcases h with h | h
  · exact h
  · exact absurd h (not_replayed c mode false false)

theorem emits_maybeFireWebhook {state : AppState} {e : WebhookEvent} {event : EventKind}
    (h : Emits (maybeFireWebhook state e) event) : e.event = event := by
  obtain ⟨url, e', he, hev⟩ := h
  obtain ⟨url', _, heq⟩ := List.mem_map.mp he
  obtain ⟨_, rfl⟩ := Notification.webhook.inj heq
  exact hev

theorem not_emits_nil (event : EventKind) : ¬ Emits [] event := by
  rintro ⟨_, _, h, _⟩
  exact absurd h List.not_mem_nil

theorem serverExecutionResponse_headers {c : ServerExecutionCompleted} {id : String}
    {mode : ClavenarMode} {replayed wouldDeny wouldPend : Bool} {r : Response}
    (h : serverExecutionResponse c id mode replayed wouldDeny wouldPend = some r) :
    ∃ extra, r.headers = clavenarHeaders id mode wouldDeny wouldPend ++ extra ∧
      replayedHeader ∈ extra.map Prod.fst ∧ wouldDenyHeader ∉ extra.map Prod.fst ∧
      wouldPendHeader ∉ extra.map Prod.fst := by
  unfold serverExecutionResponse at h
  obtain ⟨executionId, _, h⟩ := Option.bind_eq_some_iff.mp h
  obtain ⟨resultSha256, _, h⟩ := Option.bind_eq_some_iff.mp h
  obtain rfl := Option.some.inj h
  refine ⟨_, List.append_assoc _ _ _, ?_⟩
  cases c.contentType.bind headerValue <;>
    simp [executionIdHeader, resultSha256Header, replayedHeader, receiptSha256Header,
      wouldDenyHeader, wouldPendHeader]

theorem executed_flags {c : ServerExecutionCompleted} {id : String} {mode : ClavenarMode}
    {replayed wouldDeny wouldPend : Bool} {r : Response}
    (h : serverExecutionResponse c id mode replayed wouldDeny wouldPend = some r) :
    r.Concludes ∧ (r.has wouldDenyHeader ↔ wouldDeny = true) ∧
      (r.has wouldPendHeader ↔ wouldPend = true) := by
  obtain ⟨extra, he, hrep, hdeny, hpend⟩ := serverExecutionResponse_headers h
  have hhas : ∀ name, r.has name ↔
      name ∈ (clavenarHeaders id mode wouldDeny wouldPend).map Prod.fst ∨
        name ∈ extra.map Prod.fst := by
    intro name
    rw [Response.has, he, List.map_append, List.mem_append]
  refine ⟨Or.inr ((hhas _).mpr (Or.inr hrep)), ?_, ?_⟩
  · rw [hhas, has_wouldDeny]
    simp [hdeny]
  · rw [hhas, has_wouldPend]
    simp [hpend]

section Endings

variable {call : McpCall} {v : Verdict} {approved : Prop} {r : Response}
  {notes : List Notification}

/-- An ending that concludes nothing, with at most one event of its own kind. -/
theorem signals_of_event {mode : ClavenarMode} (hr : ¬ r.Concludes)
    (hn : ∀ event, Emits notes event → event = .park ∨ event = .deny) :
    Signals mode approved v r notes where
  denyHeader h := absurd h hr
  pendHeader h := absurd h hr
  denyEvent h := by simpa using hn _ h
  parkEvent h := by simpa using hn _ h
  allowEvent h := by simpa using hn _ h

theorem contractError_ne {contract error c d : String} (h : contract ≠ decisionContract) :
    contractError contract error c ≠ decisionAllowed d := by
  simp [contractError, decisionAllowed, h]

theorem serverExecutionError_concludes {status : UInt16} {error c : String} {mode : ClavenarMode} :
    ¬ (serverExecutionError status error c mode).Concludes := by
  rw [serverExecutionError, plainResponse_concludes]
  rintro ⟨d, hd⟩
  exact contractError_ne (by decide) (Body.json.inj hd)

theorem pendingResponse_concludes {state : AppState} {reasons : List String} :
    ¬ (pendingResponse state call v reasons).Concludes := by
  rw [pendingResponse, plainResponse_concludes]
  rintro ⟨d, hd⟩
  simp [decisionAllowed, pendingAuthorizationContract, decisionContract] at hd

theorem denyResponse_concludes {state : AppState} : ¬ (denyResponse state call v).Concludes := by
  rw [denyResponse, plainResponse_concludes]
  rintro ⟨d, hd⟩
  simp [decisionAllowed] at hd

theorem emits_park {slack : List Notification} {state : AppState} {e : WebhookEvent}
    (hs : ∀ n ∈ slack, ∀ url e', n ≠ .webhook url e') {event : EventKind}
    (h : Emits (slack ++ maybeFireWebhook state e) event) : e.event = event := by
  obtain ⟨url, e', he, hev⟩ := h
  rcases List.mem_append.mp he with he | he
  · exact absurd rfl (hs _ he url e')
  · exact emits_maybeFireWebhook ⟨url, e', he, hev⟩

theorem mode_cases (mode : ClavenarMode) : mode = .observe ∨ mode = .enforce := by
  cases mode <;> simp

theorem tier_cases (t : Tier) : t = .red ∨ t = .yellow ∨ t = .green := by
  cases t <;> simp

/-- A decision answers with neither header and an `allow` event. -/
theorem decided_signals {ts : Rfc3339.Clock}
    (hyellow : ¬ (job.state.mode = .enforce ∧ v.tier = .yellow))
    (hred : ¬ (v.tier = .red ∧ job.state.mode = .enforce)) (hd : call.decision.isSome) :
    Signals job.state.mode approved v
        (plainResponse 200 call.correlationId job.state.mode
          (.json (decisionAllowed call.correlationId)))
        (maybeFireWebhook job.state
          (verdictEvent job.state call v .allow v.brain.intentCategory ts)) ↔
      Reports job.state.mode call v := by
  have hconcludes : (plainResponse 200 call.correlationId job.state.mode
      (.json (decisionAllowed call.correlationId))).Concludes := Or.inl ⟨_, rfl⟩
  have hnodeny := (has_wouldDeny call.correlationId job.state.mode false false).not.mpr (by simp)
  have hnopend := (has_wouldPend call.correlationId job.state.mode false false).not.mpr (by simp)
  constructor
  · intro h
    refine ⟨?_, hyellow⟩
    rintro ⟨hm, _, ht⟩
    rcases tier_cases v.tier with hr | hy | hg
    · exact hnodeny ((h.denyHeader hconcludes).mpr ⟨hm, hr⟩)
    · exact hnopend ((h.pendHeader hconcludes).mpr ⟨hm, hy⟩)
    · exact ht hg
  · rintro ⟨hobserve, _⟩
    have hgreen : v.tier = .green := by
      rcases mode_cases job.state.mode with hm | hm
      · by_contra ht
        exact hobserve ⟨hm, hd, ht⟩
      · rcases tier_cases v.tier with hr | hy | hg
        · exact absurd ⟨hr, hm⟩ hred
        · exact absurd ⟨hm, hy⟩ hyellow
        · exact hg
    exact {
      denyHeader := fun _ => ⟨fun h => absurd h hnodeny, fun h => by simp [hgreen] at h⟩
      pendHeader := fun _ => ⟨fun h => absurd h hnopend, fun h => by simp [hgreen] at h⟩
      denyEvent := fun h => absurd (emits_maybeFireWebhook h) (by simp [verdictEvent])
      parkEvent := fun h => absurd (emits_maybeFireWebhook h) (by simp [verdictEvent])
      allowEvent := fun _ => Or.inl hgreen }

/-- A retained response carries the flags of the verdict, and an event, if there
is one, is of the same kind. -/
theorem retained_signals {c : ServerExecutionCompleted} {replayed : Bool}
    (hred : ¬ (v.tier = .red ∧ job.state.mode = .enforce)) (hd : call.decision = none)
    (hr : serverExecutionResponse c call.correlationId job.state.mode replayed v.wouldDeny
      v.wouldPend = some r) (hn : ∀ event, Emits notes event → v.event = event) :
    Signals job.state.mode approved v r notes ↔ Reports job.state.mode call v := by
  obtain ⟨hconcludes, hdeny, hpend⟩ := executed_flags hr
  have hdeny : r.has wouldDenyHeader ↔ v.tier = .red := by simpa [Verdict.wouldDeny] using hdeny
  have hpend : r.has wouldPendHeader ↔ v.tier = .yellow := by simpa [Verdict.wouldPend] using hpend
  have hobserve : v.tier = .red → job.state.mode = .observe := fun ht =>
    (mode_cases _).resolve_right fun hm => hred ⟨ht, hm⟩
  constructor
  · intro h
    refine ⟨by simp [hd], ?_⟩
    rintro ⟨hm, ht⟩
    have hm' := ((h.pendHeader hconcludes).mp (hpend.mpr ht)).1
    simp [hm] at hm'
  · rintro ⟨_, hyellow⟩
    have hpending : v.tier = .yellow → job.state.mode = .observe := fun ht =>
      (mode_cases _).resolve_right fun hm => hyellow ⟨hm, ht⟩
    have hevent : ∀ event, Emits notes event → (event = .wouldDeny ∧ v.tier = .red) ∨
        (event = .wouldPark ∧ v.tier = .yellow) ∨ (event = .allow ∧ v.tier = .green) := by
      intro event he
      rw [← hn event he]
      rcases tier_cases v.tier with ht | ht | ht <;>
        simp [Verdict.event, Verdict.wouldDeny, Verdict.wouldPend, ht]
    exact {
      denyHeader := fun _ => hdeny.trans ⟨fun ht => ⟨hobserve ht, ht⟩, fun h => h.2⟩
      pendHeader := fun _ => hpend.trans ⟨fun ht => ⟨hpending ht, ht⟩, fun h => h.2⟩
      denyEvent := fun h => by
        have ht : v.tier = .red := by simpa using hevent _ h
        exact ⟨hobserve ht, ht⟩
      parkEvent := fun h => by
        have ht : v.tier = .yellow := by simpa using hevent _ h
        exact ⟨hpending ht, ht⟩
      allowEvent := fun h => Or.inl (by simpa using hevent _ h) }

end Endings

/-- An ending that is decided by the verdict, and the others, which report nothing. -/
def Judges (job : McpJob) (call : McpCall) (v : Verdict) (approved : Prop) (r : Response)
    (notes : List Notification) : Prop :=
  (r.Concludes → (Signals job.state.mode approved v r notes ↔ Reports job.state.mode call v)) ∧
    (¬ r.Concludes → Signals job.state.mode approved v r notes)

section Judges

variable {call : McpCall} {v : Verdict} {approved : Prop} {r : Response}
  {notes : List Notification}

theorem Judges.of_silent (hr : ¬ r.Concludes)
    (hn : ∀ event, Emits notes event → event = .park ∨ event = .deny) :
    Judges job call v approved r notes :=
  ⟨fun h => absurd h hr, fun _ => signals_of_event hr hn⟩

theorem Judges.of_iff (hr : r.Concludes)
    (h : Signals job.state.mode approved v r notes ↔ Reports job.state.mode call v) :
    Judges job call v approved r notes :=
  ⟨fun _ => h, fun hn => absurd hr hn⟩

theorem Judges.of_error {status : UInt16} {error : String} :
    Judges job call v approved
      (serverExecutionError status error call.correlationId job.state.mode) [] :=
  .of_silent serverExecutionError_concludes fun event h => absurd h (not_emits_nil event)

theorem Judges.of_retained {c : ServerExecutionCompleted} {replayed : Bool}
    {sent : List Notification}
    (hred : ¬ (v.tier = .red ∧ job.state.mode = .enforce)) (hd : call.decision = none)
    (he : (serverExecutionResponse c call.correlationId job.state.mode replayed v.wouldDeny
      v.wouldPend).map (fun r => (r, sent)) = some (r, notes))
    (hn : ∀ event, Emits sent event → v.event = event) :
    Judges job call v approved r notes := by
  obtain ⟨r', hr, he⟩ := Option.map_eq_some_iff.mp he
  obtain ⟨rfl, rfl⟩ := Prod.mk.inj he
  exact .of_iff (executed_flags hr).1 (retained_signals hred hd hr hn)

end Judges

theorem Reviewed.gated {call : McpCall} {binding : Option ServerExecutionBinding} {v : Verdict}
    {cs : McpCalls} (h : Reviewed L job call binding v cs) :
    ∃ u : Uuid, gates L job.state job.headers job.body u.text = .ok call := by
  obtain ⟨_, ⟨_, _, ⟨_, ⟨u, hg, _⟩, _⟩, _⟩, _⟩ := h
  exact ⟨u, hg⟩

/-- Only a server execution goes on after a review. -/
theorem Reviewed.not_decision {call : McpCall} {binding : Option ServerExecutionBinding}
    {v : Verdict} {cs : McpCalls} (h : Reviewed L job call binding v cs)
    (hd : call.decision.isSome) : ¬ (job.state.mode = .enforce ∧ v.tier = .yellow) := by
  rintro ⟨hm, hy⟩
  obtain ⟨u, hg⟩ := h.gated
  obtain ⟨_, _, hr⟩ := h
  rcases hr with ⟨hn, _⟩ | ⟨_, hs, _⟩
  · exact hn ⟨hy, hm⟩
  · simp [(gates_ok hg).exclusive hs] at hd

theorem Exit.judges {call : McpCall} {v : Verdict} {cs : McpCalls} {e : Ended}
    {r : Response} {notes : List Notification} (h : Exit L job cs e) (he : e = some (r, notes))
    (hc : Classified L job call v cs) : Judges job call v (Approved call cs) r notes := by
  cases h with
  | unjudged hu => exact absurd hc hu.not_classified
  | lookupFailed hj hn hcs =>
    obtain ⟨rfl, rfl⟩ := hc.unique (hcs ▸ hj.classified)
    obtain ⟨rfl, rfl⟩ := Prod.mk.inj (Option.some.inj he)
    exact .of_error
  | reviewDenied hj hn hd hcs =>
    obtain ⟨rfl, rfl⟩ := hc.unique (hcs ▸ hj.classified)
    obtain ⟨rfl, rfl⟩ := Prod.mk.inj (Option.some.inj he)
    exact .of_error
  | pending hj hn ha hd hcs =>
    obtain ⟨rfl, rfl⟩ := hc.unique (hcs ▸ hj.classified)
    obtain ⟨rfl, rfl⟩ := Prod.mk.inj (Option.some.inj he)
    exact .of_silent pendingResponse_concludes fun event h => absurd h (not_emits_nil event)
  | parked hp hcs =>
    obtain ⟨rfl, rfl⟩ := hc.unique (hcs ▸ hp.classified)
    obtain ⟨rfl, rfl⟩ := Prod.mk.inj (Option.some.inj he)
    refine .of_silent pendingResponse_concludes fun event h => Or.inl ?_
    exact (emits_park (by simp) h).symm
  | parkFailed hp hcs =>
    obtain ⟨rfl, rfl⟩ := hc.unique (hcs ▸ hp.classified)
    obtain ⟨rfl, rfl⟩ := Prod.mk.inj (Option.some.inj he)
    refine .of_silent ?_ fun event h => absurd h (not_emits_nil event)
    rw [ClavenarLite.parkFailed, plainResponse_concludes]
    simp
  | denied hr hred hm hcs =>
    obtain ⟨rfl, rfl⟩ := hc.unique (hcs ▸ hr.classified)
    obtain ⟨rfl, rfl⟩ := Prod.mk.inj (Option.some.inj he)
    exact .of_silent denyResponse_concludes fun event h => Or.inr (emits_maybeFireWebhook h).symm
  | decided hr hred hd hcs =>
    obtain ⟨rfl, rfl⟩ := hc.unique (hcs ▸ hr.classified)
    obtain ⟨rfl, rfl⟩ := Prod.mk.inj (Option.some.inj he)
    exact .of_iff (Or.inl ⟨_, rfl⟩) (decided_signals (hr.not_decision hd) hred hd)
  | unexecuted hr hcs =>
    obtain ⟨rfl, rfl⟩ := hc.unique (hcs ▸ hr.1.classified)
    obtain ⟨rfl, rfl⟩ := Prod.mk.inj (Option.some.inj he)
    exact .of_error
  | replayed hr hcs =>
    obtain ⟨rfl, rfl⟩ := hc.unique (hcs ▸ hr.1.classified)
    exact .of_retained hr.2.1 hr.2.2 he fun event h => absurd h (not_emits_nil event)
  | executed hb hcs =>
    obtain ⟨rfl, rfl⟩ := hc.unique (hcs ▸ hb.classified)
    obtain ⟨_, hr, _⟩ := hb
    exact .of_retained hr.2.1 hr.2.2 he fun event h => emits_maybeFireWebhook h

/-- A request that concludes reports its verdict, in its headers and its events,
exactly if it is neither a decision that would have been refused or parked, nor
the execution of an approved request under enforcement. -/
theorem verdict_signalled {call : McpCall} {v : Verdict} {calls : McpCalls} {r : Response}
    {notes : List Notification} (ht : Prog.Trace (job.program L) calls (.pure (some (r, notes))))
    (hv : Classified L job call v calls) :
    (r.Concludes → (Signals job.state.mode (Approved call calls) v r notes ↔
        Reports job.state.mode call v)) ∧
      (¬ r.Concludes → Signals job.state.mode (Approved call calls) v r notes) :=
  Exit.judges (handleMcp_meets.result ht) rfl hv

/-- A decision is asked of a process that observes. -/
def decisionJob : McpJob where
  state :=
    { instanceId := "node-1"
      agents := none
      deciders := none
      decideToken := none
      mode := .observe
      upstreamAdapter := .mcpJsonRpcV1
      callbackAllowlist := []
      slackWebhookUrl := none
      webhookUrl := some "https://hooks.example.com/clavenar"
      rateLimited := false
      verboseVerdicts := false }
  headers := [(decisionContractHeader, utf8 decisionContract),
    (idempotencyIdHeader, utf8 (numberedUuid 7).text)]
  body := utf8 ("\x7b\"jsonrpc\":\"2.0\",\"id\":1,\"method\":\"tools/call\"," ++
    "\"params\":\x7b\"name\":\"wire_transfer\"\x7d\x7d")

theorem decisionJob_passes : ∃ call, gates plainLibraries decisionJob.state decisionJob.headers
    decisionJob.body (numberedUuid 1).text = .ok call ∧ call.serverExecution = none ∧
      call.decision.isSome ∧ isMcpControlMethod call.parsed.method = false := by
  have heval : ((gates plainLibraries decisionJob.state decisionJob.headers decisionJob.body
      (numberedUuid 1).text).toOption.any fun call => call.serverExecution.isNone &&
        call.decision.isSome && !isMcpControlMethod call.parsed.method) = true := by
    decide +kernel
  obtain ⟨call, hg, hcall⟩ := (Option.any_eq_true _ _).mp heval
  simp only [Bool.and_eq_true, Bool.not_eq_true', Option.isNone_iff_eq_none] at hcall
  exact ⟨call, ok_of_toOption hg, hcall.1.1, hcall.1.2, hcall.2⟩

/-- Every answer is possible. -/
inductive Answered : {δ : Type} → McpOp δ → Unit → δ → Unit → Prop
  | intro {δ : Type} (op : McpOp δ) (b : δ) : Answered op () b ()

/-- The policy denies the call, and the decision is made. -/
theorem decisionJob_denied : ∃ call v calls r notes,
    Prog.Trace (decisionJob.program plainLibraries) calls (.pure (some (r, notes))) ∧
      Classified plainLibraries decisionJob call v calls ∧ v.tier = .red ∧
      r = plainResponse 200 call.correlationId .observe
        (.json (decisionAllowed call.correlationId)) ∧ Emits notes .allow := by
  obtain ⟨call, hg, hs, hd, hm⟩ := decisionJob_passes
  let v : Verdict := ⟨brainOf plainLibraries decisionJob.body call, ⟨false, ["denied"], []⟩⟩
  have htier : v.tier = .red := classify_red.mpr (Or.inr rfl)
  let stored := newEntry bitsText (numberedUuid 2) newYear (1, genesisPrevHash)
    (verdictRequest call v)
  have hobserve : decisionJob.state.mode ≠ .enforce := by simp [decisionJob]
  have hurl : validateCallbackUrl plainLibraries decisionJob.state decisionJob.headers =
      .ok none := by
    have hnone : decisionJob.headers.get "x-clavenar-callback-url" = none := by decide +kernel
    rw [validateCallbackUrl, hnone]
    rfl
  have hrun := decision_alone hg rfl hurl hm hs hd rfl (fun hn => hobserve hn.2)
    (fun hn => hobserve hn.2) (.intro .newV4 (numberedUuid 1)) (.intro _ v.policy)
    (.intro _ (.ok stored)) (Answered.intro .utcNow newYear)
  refine ⟨call, v, _, _, _, hrun.trace, ?_, htier, rfl, ?_⟩
  · exact ⟨none, _, ⟨[⟨.newV4, numberedUuid 1⟩], .ok stored, ⟨_, ⟨numberedUuid 1, hg, rfl⟩, hm,
      Or.inl ⟨hs, rfl⟩, rfl⟩, rfl, rfl⟩, ⟨[⟨.utcNow, newYear⟩], rfl⟩⟩
  · exact ⟨_, _, List.mem_singleton.mpr rfl, rfl⟩

theorem verdict_signalled_denied : ∃ call v calls r notes,
    Prog.Trace (decisionJob.program plainLibraries) calls (.pure (some (r, notes))) ∧
      Classified plainLibraries decisionJob call v calls ∧
      (r.Concludes → (Signals .observe (Approved call calls) v r notes ↔
        Reports .observe call v)) := by
  obtain ⟨call, v, calls, r, notes, ht, hv, _⟩ := decisionJob_denied
  exact ⟨call, v, calls, r, notes, ht, hv, (verdict_signalled ht hv).1⟩

/-- Enforcement would have denied the request, and neither its response nor its
event says so. -/
theorem denied_decision_unsignalled : ∃ call v calls r notes,
    Prog.Trace (decisionJob.program plainLibraries) calls (.pure (some (r, notes))) ∧
      Classified plainLibraries decisionJob call v calls ∧ v.tier = .red ∧ r.Concludes ∧
      ¬ r.has wouldDenyHeader ∧ Emits notes .allow ∧
      ¬ Signals .observe (Approved call calls) v r notes := by
  obtain ⟨call, v, calls, r, notes, ht, hv, hred, rfl, hallow⟩ := decisionJob_denied
  have hconcludes : (plainResponse 200 call.correlationId .observe
      (.json (decisionAllowed call.correlationId))).Concludes := Or.inl ⟨_, rfl⟩
  have hno : ¬ (plainResponse 200 call.correlationId .observe
      (.json (decisionAllowed call.correlationId))).has wouldDenyHeader :=
    (has_wouldDeny call.correlationId .observe false false).not.mpr (by simp)
  exact ⟨call, v, calls, _, notes, ht, hv, hred, hconcludes, hno, hallow,
    fun h => hno ((h.denyHeader hconcludes).mpr ⟨rfl, hred⟩)⟩

end ClavenarLite
