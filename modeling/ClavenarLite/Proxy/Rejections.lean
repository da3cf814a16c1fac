import ClavenarLite.Proxy.Served

/-! Requests that are turned away by the gates: with which response, and that
nothing is left behind. -/

namespace ClavenarLite

open Bytes Fallible Interaction TextJson Transaction

section Selectors

variable {headers : HeaderMap} {serverExecution decision : Option Uuid}

theorem HeaderMap.get_none {name : String} (h : headers.containsKey name = false) :
    headers.get name = none :=
  Option.isSome_eq_false_iff.mp h |> Option.isNone_iff_eq_none.mp

theorem Selects.selected {selector contract other : String} {id : Uuid}
    (h : Selects headers selector contract other id) :
    ∃ raw, headers.get selector = some raw ∧ selectedId headers raw contract = some id := by
  obtain ⟨raw, hget, hvalue⟩ := h.value
  exact ⟨raw, hget, by rw [selectedId, if_pos hvalue, h.id]⟩

/-- Headers of a form are accepted by both parsers. -/
theorem SelectorForm.parses (h : SelectorForm headers serverExecution decision) :
    parseServerExecutionRequest headers = .ok serverExecution ∧
      parseDecisionRequest headers = .ok decision := by
  unfold parseServerExecutionRequest parseDecisionRequest
  cases h with
  | unselected h =>
    simp only [List.mem_cons, List.not_mem_nil, or_false, forall_eq_or_imp, forall_eq] at h
    obtain ⟨hdecision, hlegacy, hid, hserver⟩ := h
    simp [HeaderMap.get_none hserver, HeaderMap.get_none hdecision, hlegacy, hid]
  | serverExecution h =>
    obtain ⟨raw, hget, hid⟩ := h.selected
    have hserver : headers.containsKey serverExecutionContractHeader = true := by
      simp [HeaderMap.containsKey, hget]
    simp [hget, hid, HeaderMap.get_none h.noOther, h.noOther, h.noLegacy, hserver]
  | decision h =>
    obtain ⟨raw, hget, hid⟩ := h.selected
    simp [hget, hid, HeaderMap.get_none h.noOther, h.noOther, h.noLegacy]

theorem parseServerExecutionRequest_error {error : String}
    (h : parseServerExecutionRequest headers = .error error) :
    headers.containsKey serverExecutionContractHeader = true ∧
      error ∈ ["server_execution_selector_conflict", "server_execution_selector_invalid"] := by
  unfold parseServerExecutionRequest at h
  cases hget : headers.get serverExecutionContractHeader with
  | none => simp [hget] at h
  | some raw =>
    refine ⟨by simp [HeaderMap.containsKey, hget], ?_⟩
    simp only [hget] at h
    rcases found_cases hget h with he | he | ⟨id, he, -⟩
    · simp [Except.error.inj he]
    · simp [Except.error.inj he]
    · simp at he

theorem parseDecisionRequest_error {error : String}
    (h : parseDecisionRequest headers = .error error) :
    error ∈ ["decision_selector_conflict", "decision_selector_invalid"] := by
  unfold parseDecisionRequest at h
  cases hget : headers.get decisionContractHeader with
  | none =>
    simp only [hget] at h
    split at h
    · simp [Except.error.inj h.symm]
    · simp at h
  | some raw =>
    simp only [hget] at h
    rcases found_cases hget h with he | he | ⟨id, he, -⟩
    · simp [Except.error.inj he]
    · simp [Except.error.inj he]
    · simp at he

/-- Where the first parser finds a selector, the second has nothing to refuse. -/
theorem no_server_of_error {error : String}
    (hs : parseServerExecutionRequest headers = .ok serverExecution)
    (hd : parseDecisionRequest headers = .error error) :
    headers.containsKey serverExecutionContractHeader = false := by
  cases serverExecution with
  | none => exact parseServerExecutionRequest_none hs
  | some id =>
    have hform : SelectorForm headers (some id) none :=
      .serverExecution (parseServerExecutionRequest_some hs)
    exact absurd (hform.parses.2.symm.trans hd) (by simp)

end Selectors

def correlationOf (serverExecution decision : Option Uuid) (fallback : String) : String :=
  ((serverExecution.or decision).map Uuid.text).getD fallback

variable (L : Libraries)

def notRequestResponse (mode : ClavenarMode) (body : Octets) (correlationId : String) : Response :=
  plainResponse 400 correlationId mode
    (.text ("invalid JSON-RPC body: " ++ L.texts.notRequest body))

/-- A request is to be refused with the response. -/
inductive Refusal (state : AppState) (headers : HeaderMap) (body : Octets) (fallback : String) :
    Response → Prop
  | serverSelector {error : String}
      (hform : ∀ serverExecution decision, ¬ SelectorForm headers serverExecution decision)
      (h : headers.containsKey serverExecutionContractHeader = true)
      (he : error ∈ ["server_execution_selector_conflict", "server_execution_selector_invalid"]) :
      Refusal state headers body fallback (serverExecutionError 400 error fallback state.mode)
  | decisionSelector {error : String}
      (hform : ∀ serverExecution decision, ¬ SelectorForm headers serverExecution decision)
      (h : headers.containsKey serverExecutionContractHeader = false)
      (he : error ∈ ["decision_selector_conflict", "decision_selector_invalid"]) :
      Refusal state headers body fallback (decisionError error fallback state.mode)
  | notRequest {serverExecution decision : Option Uuid}
      (hform : SelectorForm headers serverExecution decision)
      (h : opensWith '{' body = false ∨ L.readRequest body = none) :
      Refusal state headers body fallback
        (notRequestResponse L state.mode body (correlationOf serverExecution decision fallback))
  | noMethod {serverExecution decision : Option Uuid} {parsed : McpRequest}
      (hform : SelectorForm headers serverExecution decision)
      (hparsed : L.readRequest body = some parsed) (h : parsed.method.isEmpty = true) :
      Refusal state headers body fallback
        (plainResponse 400 (correlationOf serverExecution decision fallback) state.mode
          (.text "method must be a non-empty string"))
  | adapter {serverExecution decision : Option Uuid} {error : String}
      (hform : SelectorForm headers serverExecution decision)
      (h : state.upstreamAdapter.validateRequest L.floats L.texts body = .error error) :
      Refusal state headers body fallback
        (plainResponse 400 (correlationOf serverExecution decision fallback) state.mode
          (.text error))
  | unselected {parsed : McpRequest} (hform : SelectorForm headers none none)
      (hparsed : L.readRequest body = some parsed)
      (h : isMcpControlMethod parsed.method = false) :
      Refusal state headers body fallback (clientMigrationRequired fallback state.mode)
  | unauthorized {serverExecution decision : Option Uuid} {registry : AgentRegistry}
      (hform : SelectorForm headers serverExecution decision)
      (hagents : state.agents = some registry)
      (h : (suppliedToken headers).bind registry.lookup = none) :
      Refusal state headers body fallback
        (plainResponse 401 (correlationOf serverExecution decision fallback) state.mode
          (.text "missing or invalid bearer token"))
  | unregistered {id : Uuid} (hform : SelectorForm headers (some id) none)
      (hagents : state.agents = none) :
      Refusal state headers body fallback
        (serverExecutionError 503 "server_execution_identity_required" id.text state.mode)

variable {L} {state : AppState} {headers : HeaderMap} {body : Octets} {fallback : String}

/-- Every response of the gates is to a request that is to be refused with it. -/
theorem gates_refused {r : Response} (h : gates L state headers body fallback = .error r) :
    Refusal L state headers body fallback r := by
  unfold gates at h
  rcases bind_error h with hserver | ⟨serverExecution, hserver, h⟩
  · obtain ⟨error, hinvalid, rfl⟩ := mapError_error hserver
    obtain ⟨hkey, he⟩ := parseServerExecutionRequest_error hinvalid
    refine .serverSelector ?_ hkey he
    intro serverExecution decision hform
    exact absurd (hform.parses.1.symm.trans hinvalid) (by simp)
  have hserver := mapError_ok hserver
  rcases bind_error h with hdecision | ⟨decision, hdecision, h⟩
  · obtain ⟨error, hinvalid, rfl⟩ := mapError_error hdecision
    refine .decisionSelector ?_ (no_server_of_error hserver hinvalid)
      (parseDecisionRequest_error hinvalid)
    intro serverExecution decision hform
    exact absurd (hform.parses.2.symm.trans hinvalid) (by simp)
  have hform := selectors_ok hserver (mapError_ok hdecision)
  rcases bind_error h with hparsed | ⟨parsed, hparsed, h⟩
  · obtain ⟨hnone, rfl⟩ := elim_error hparsed
    exact .notRequest hform (Or.inr hnone)
  have hread := elim_ok hparsed
  rcases bind_error h with hmethod | ⟨_, _, h⟩
  · obtain ⟨hempty, rfl⟩ := refuse_error hmethod
    exact .noMethod hform hread hempty
  rcases bind_error h with hadapter | ⟨_, _, h⟩
  · obtain ⟨error, hinvalid, rfl⟩ := mapError_error hadapter
    exact .adapter hform hinvalid
  rcases bind_error h with hselected | ⟨_, _, h⟩
  · obtain ⟨hnone, rfl⟩ := refuse_error hselected
    simp only [Bool.and_eq_true, Option.isNone_iff_eq_none, Bool.not_eq_true'] at hnone
    obtain ⟨⟨rfl, rfl⟩, hcontrol⟩ := hnone
    exact .unselected hform hread hcontrol
  rcases bind_error h with hidentity | ⟨_, _, h⟩
  · obtain ⟨hnone, rfl⟩ := elim_error hidentity
    cases hagents : state.agents with
    | none => simp [identify, hagents] at hnone
    | some registry =>
      refine .unauthorized hform hagents ?_
      simpa [identify, hagents] using hnone
  rcases bind_error h with hregistered | ⟨_, _, h⟩
  · obtain ⟨hnone, rfl⟩ := refuse_error hregistered
    simp only [Bool.and_eq_true, Option.isSome_iff_exists, Option.isNone_iff_eq_none] at hnone
    obtain ⟨⟨id, rfl⟩, hagents⟩ := hnone
    cases hform with
    | serverExecution hselects => exact .unregistered (.serverExecution hselects) hagents
  · exact absurd h (by simp [pure, Except.pure])

/-- A request that passes although it is to be refused is one whose body is no
object. -/
theorem Refusal.of_passes {r : Response} {call : McpCall}
    (h : Refusal L state headers body fallback r)
    (hp : Passes L state headers body fallback call) :
    opensWith '{' body = false ∧ r = notRequestResponse L state.mode body call.correlationId := by
  have hunique : ∀ {serverExecution decision : Option Uuid},
      SelectorForm headers serverExecution decision →
        serverExecution = call.serverExecution ∧ decision = call.decision := by
    intro serverExecution decision hform
    exact ⟨Except.ok.inj (hform.parses.1.symm.trans hp.serverExecution),
      Except.ok.inj (hform.parses.2.symm.trans hp.decision)⟩
  cases h with
  | serverSelector hform h he => exact absurd hp.form (hform _ _)
  | decisionSelector hform h he => exact absurd hp.form (hform _ _)
  | notRequest hform h =>
    obtain ⟨rfl, rfl⟩ := hunique hform
    rcases h with h | h
    · exact ⟨h, by rw [hp.correlation]; rfl⟩
    · exact absurd (h.symm.trans hp.parsed) (by simp)
  | noMethod hform hparsed h =>
    obtain rfl := Option.some.inj (hparsed.symm.trans hp.parsed)
    exact absurd (h.symm.trans hp.method) (by simp)
  | adapter hform h =>
    obtain ⟨_, hok⟩ := hp.adapter
    exact absurd (h.symm.trans hok) (by simp)
  | unselected hform hparsed h =>
    obtain ⟨hs, hd⟩ := hunique hform
    obtain rfl := Option.some.inj (hparsed.symm.trans hp.parsed)
    exact absurd hp.selected (by simp [← hs, ← hd, h])
  | unauthorized hform hagents h =>
    have hidentified := hp.identified
    simp only [identify, hagents] at hidentified
    exact absurd (h.symm.trans hidentified) (by simp)
  | unregistered hform hagents =>
    obtain ⟨hs, _⟩ := hunique hform
    exact absurd hp.registered (by simp [← hs, hagents])

variable {job : McpJob} {w : World}

/-- A request that the gates turn away is answered at once, in any world. -/
theorem refused_runs {u : Uuid} {r : Response}
    (hg : gates L job.state job.headers job.body u.text = .error r) {cs : McpCalls} {e : Ended}
    {w' : World} : Prog.RunsTo (McpPerforms L) (job.program L) w (⟨.newV4, u⟩ :: cs) e w' ↔
      cs = [] ∧ e = some (r, []) ∧ w' = w := by
  unfold McpJob.program handleMcp
  rw [Prog.perform_bind, Prog.runsTo_call]
  simp only [hg]
  constructor
  · rintro ⟨w₁, rfl, rfl, rfl, rfl⟩
    exact ⟨rfl, rfl, rfl⟩
  · rintro ⟨rfl, rfl, rfl⟩
    exact ⟨w', rfl, rfl, rfl, rfl⟩

theorem validateCallbackUrl_error {reason : String}
    (h : validateCallbackUrl L job.state job.headers = .error reason) :
    ∃ rest, reason = callbackHeader ++ rest := by
  unfold validateCallbackUrl at h
  split at h
  · simp at h
  · split_ifs at h
    · exact ⟨_, by rw [← Except.error.inj h, String.append_assoc]⟩
    · split at h
      · simp at h
      · exact ⟨_, by rw [← Except.error.inj h, String.append_assoc, String.append_assoc, String.append_assoc]⟩

theorem callbackHeader_ne (s t : String) : callbackHeader ++ s ≠ "invalid JSON-RPC body: " ++ t := by
  intro h
  have hfirst := congrArg (fun u : String => u.toList.head?) h
  simp [callbackHeader, String.toList_append] at hfirst

/-- After the gates no request is answered as one that is no request. -/
theorem admitted_read {call : McpCall} {e : Except Ended Ended} {w' : World}
    {correlationId : String}
    (hp : Passes L job.state job.headers job.body fallback call)
    (h : RunsTo (McpPerforms L) (admitted L job.state job.headers job.body call) w [] e w') :
    ended e ≠ some (notRequestResponse L job.state.mode job.body correlationId, []) := by
  have hrun := (Prog.runsTo_nil.mp h).1
  unfold admitted at hrun
  by_cases hr : job.state.rateLimited = true
  · rw [checkRate, if_pos hr] at hrun
    cases hrun
  rw [checkRate, if_neg hr] at hrun
  cases hv : validateCallbackUrl L job.state job.headers with
  | error reason =>
    obtain ⟨rest, rfl⟩ := validateCallbackUrl_error hv
    rw [hv] at hrun
    obtain rfl := Prog.pure.inj hrun
    simp [ended, notRequestResponse, plainResponse, callbackHeader_ne]
  | ok url =>
    rw [hv] at hrun
    change ExceptT.run (if isMcpControlMethod call.parsed.method = true then _ else _) = _ at hrun
    by_cases hm : isMcpControlMethod call.parsed.method = true
    · rw [if_pos hm] at hrun
      by_cases hs : call.serverExecution.isSome = true
      · rw [if_pos hs] at hrun
        obtain rfl := Prog.pure.inj hrun
        simp [ended, notRequestResponse, serverExecutionError, plainResponse]
      rw [if_neg hs] at hrun
      by_cases hd : call.decision.isSome = true
      · rw [if_pos hd] at hrun
        obtain rfl := Prog.pure.inj hrun
        simp [ended, notRequestResponse, decisionError, plainResponse]
      rw [if_neg hd, forwardControl, forward] at hrun
      obtain ⟨requestId, hadapter⟩ := hp.adapter
      rw [hadapter] at hrun
      cases hrun
    · rw [if_neg hm] at hrun
      unfold handleToolCall serverBinding at hrun
      cases hs : call.serverExecution with
      | none =>
        rw [hs] at hrun
        cases hrun
      | some id =>
        cases hvalue : fromSlice L.floats job.body with
        | none =>
          rw [hs, hvalue] at hrun
          obtain rfl := Prog.pure.inj hrun
          simp [ended]
        | some value =>
          rw [hs, hvalue] at hrun
          cases hrun

theorem gates_passes {call : McpCall} (h : Passes L state headers body fallback call) :
    gates L state headers body fallback = .ok call := by
  obtain ⟨requestId, hadapter⟩ := h.adapter
  have hcorrelation := h.correlation
  obtain ⟨serverExecution, decision, correlationId, parsed, identity⟩ := call
  simp only at hcorrelation
  unfold gates
  rw [h.serverExecution, h.decision, h.parsed, hadapter, h.identified]
  simp only [Except.mapError, ok_bind, Option.elim_some, h.method, h.selected, h.registered,
    refuse_false]
  rw [hcorrelation]
  rfl

/-- The fallback decides nothing but the correlation id. -/
theorem Passes.with_fallback {call : McpCall} (h : Passes L state headers body fallback call)
    (fallback' : String) : ∃ call', Passes L state headers body fallback' call' :=
  ⟨{ call with correlationId := correlationOf call.serverExecution call.decision fallback' },
    { h with correlation := rfl }⟩

/-- The body is an array, and the request passes the gates nonetheless. -/
def Misread (L : Libraries) (job : McpJob) : Prop :=
  opensWith '[' job.body = true ∧
    ∃ fallback call, Passes L job.state job.headers job.body fallback call

theorem opensWith_unique {c d : Char} (h : opensWith c body = true) (h' : opensWith d body = true) :
    c.toUInt8 = d.toUInt8 :=
  Option.some.inj ((eq_of_beq h).symm.trans (eq_of_beq h'))

/-- What passes and is no object is an array. -/
theorem Passes.array {call : McpCall} (h : Passes L state headers body fallback call)
    (hobject : opensWith '{' body = false) : opensWith '[' body = true := by
  have hread : L.readRequest body ≠ none := by simp [h.parsed]
  exact (L.readRequest_opens body hread).resolve_left (by simp [hobject])

/-- A request that is to be refused is refused, and is all that happens; one
that is not passes the gates, and has one of the forms. -/
def RejectsEarly (L : Libraries) (job : McpJob) (w : World) : Prop :=
  ∀ u : Uuid,
    ((∃ r, Refusal L job.state job.headers job.body u.text r) →
      ∃ r, Refusal L job.state job.headers job.body u.text r ∧ ∀ cs e w',
        Prog.RunsTo (McpPerforms L) (job.program L) w (⟨.newV4, u⟩ :: cs) e w' ↔
          cs = [] ∧ e = some (r, []) ∧ w' = w) ∧
    ((∀ r, ¬ Refusal L job.state job.headers job.body u.text r) →
      ∃ call, gates L job.state job.headers job.body u.text = .ok call ∧
        SelectorForm job.headers call.serverExecution call.decision)

/-- What is misread is to be refused, and is not. -/
theorem Misread.not_rejected (h : Misread L job) : ¬ RejectsEarly L job w := by
  intro hrejects
  obtain ⟨harray, _, _, hp⟩ := h
  have hobject : opensWith '{' job.body = false := by
    by_contra hobject
    exact absurd (opensWith_unique harray (Bool.not_eq_false _ ▸ hobject)) (by decide)
  let u := Uuid.newV5 Uuid.namespaceUrl []
  obtain ⟨call, hp⟩ := hp.with_fallback u.text
  obtain ⟨r, hr, hruns⟩ := (hrejects u).1 ⟨_, .notRequest hp.form (Or.inl hobject)⟩
  obtain ⟨_, rfl⟩ := hr.of_passes hp
  have hrun := (hruns [] _ w).mpr ⟨rfl, rfl, rfl⟩
  unfold McpJob.program handleMcp at hrun
  rw [Prog.perform_bind, Prog.runsTo_call] at hrun
  obtain ⟨w₁, _, hrest⟩ := hrun
  simp only [gates_passes hp] at hrest
  obtain ⟨e, hadmitted, he⟩ := Prog.runsTo_bind_nil hrest
  exact admitted_read hp hadmitted (Prog.pure.inj (Prog.runsTo_nil.mp he).1)

theorem rejects_early_iff (L : Libraries) (job : McpJob) (w : World) :
    RejectsEarly L job w ↔ ¬ Misread L job := by
  constructor
  · intro h hm
    exact hm.not_rejected h
  · intro hm u
    cases hg : gates L job.state job.headers job.body u.text with
    | error r =>
      refine ⟨fun _ => ⟨r, gates_refused hg, fun cs e w' => refused_runs hg⟩, ?_⟩
      intro hnone
      exact absurd (gates_refused hg) (hnone r)
    | ok call =>
      have hp := gates_ok hg
      refine ⟨?_, fun _ => ⟨call, rfl, hp.form⟩⟩
      rintro ⟨r, hr⟩
      exact absurd ⟨hp.array (hr.of_passes hp).1, _, call, hp⟩ hm

/-- A call of a tool without a selector. -/
def bareJob : McpJob := { executionJob with headers := agentHeaders }

theorem rejects_early_bare : ∃ r, Refusal plainLibraries bareJob.state bareJob.headers bareJob.body
      (numberedUuid 1).text r ∧ ∀ cs e w',
    Prog.RunsTo (McpPerforms plainLibraries) (bareJob.program plainLibraries) freshWorld
        (⟨.newV4, numberedUuid 1⟩ :: cs) e w' ↔
      cs = [] ∧ e = some (r, []) ∧ w' = freshWorld := by
  have hread : (plainLibraries.readRequest bareJob.body).any
      (fun parsed => !isMcpControlMethod parsed.method) = true := by
    decide +kernel
  obtain ⟨parsed, hparsed, hmethod⟩ := (Option.any_eq_true _ _).mp hread
  have hobject : ¬ Misread plainLibraries bareJob := by
    rintro ⟨harray, _⟩
    exact absurd harray (by decide +kernel)
  have hrejects := (rejects_early_iff plainLibraries bareJob freshWorld).mpr hobject
  exact (hrejects (numberedUuid 1)).1 ⟨_, .unselected (.unselected (by decide +kernel)) hparsed
    (Bool.not_eq_true' _ ▸ hmethod)⟩

/-- A ping in an array. -/
def arrayJob : McpJob where
  state := { executionJob.state with agents := none, upstreamAdapter := .rawJson }
  headers := []
  body := utf8 "[\"ping\"]"

theorem array_not_rejected : ¬ RejectsEarly plainLibraries arrayJob freshWorld := by
  have heval : (gates plainLibraries arrayJob.state arrayJob.headers arrayJob.body
      "").toOption.isSome = true := by
    decide +kernel
  obtain ⟨call, hg⟩ := Option.isSome_iff_exists.mp heval
  exact Misread.not_rejected ⟨by decide +kernel, "", call, gates_ok (ok_of_toOption hg)⟩

end ClavenarLite
