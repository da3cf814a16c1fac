import ClavenarLite.Proxy.Rejections

/-! Requests of the control plane: which methods the contract lists, and which of
them the handler relays. -/

namespace ClavenarLite

open Bytes Fallible Interaction Text TextJson Transaction

/-- The upstream adapter asks for no id. -/
def isNotification (method : String) : Bool := (stripPrefix "notifications/" method).isSome

/-- The methods the contract lists as free of selectors and effects. -/
def ListedMethod (method : String) : Prop :=
  method ∈ ["initialize", "initialized", "ping", "tools/list"] ∨ isNotification method = true

/-- The handler knows one notification. -/
theorem notification_control_iff {method : String} (h : isNotification method = true) :
    isMcpControlMethod method = true ↔ method = "notifications/initialized" := by
  constructor
  · intro hm
    rw [isMcpControlMethod, List.contains_iff_mem] at hm
    have hlist : ∀ m ∈ ["initialize", "initialized", "notifications/initialized", "tools/list",
        "resources/list", "prompts/list", "ping"], isNotification m = true →
          m = "notifications/initialized" := by
      decide +kernel
    exact hlist method hm h
  · rintro rfl
    decide +kernel

theorem ListedMethod.nonempty {method : String} (h : ListedMethod method) :
    method.isEmpty = false := by
  rcases h with h | h
  · have hlist : ∀ m ∈ ["initialize", "initialized", "ping", "tools/list"], m.isEmpty = false := by
      decide +kernel
    exact hlist method h
  · rw [← Bool.not_eq_true, String.isEmpty_iff]
    rintro rfl
    exact absurd h (by decide +kernel)

theorem listed_control_iff {method : String} (h : ListedMethod method) :
    isMcpControlMethod method = true ↔
      (isNotification method = true → method = "notifications/initialized") := by
  constructor
  · exact fun hm hn => (notification_control_iff hn).mp hm
  · intro hn
    rcases h with h | h
    · have hlist : ∀ m ∈ ["initialize", "initialized", "ping", "tools/list"],
          isMcpControlMethod m = true := by
        decide +kernel
      exact hlist method h
    · exact (notification_control_iff h).mpr (hn h)

def sentBody : Call McpOp → Option Octets
  | ⟨.send body, _⟩ => some body
  | _ => none

def appendedRow : Call McpOp → Option LogRequest
  | ⟨.append req, _⟩ => some req
  | _ => none

def isThrottle : Call McpOp → Bool
  | ⟨.checkRate _ _, .denied _ _⟩ => true
  | _ => false

def Unthrottled (cs : McpCalls) : Prop := ∀ c ∈ cs, isThrottle c = false

/-- The request was sent upstream once and not judged; the rows appended for it
are alarms about the catalog, and its sender is not asked to migrate. -/
structure Relayed (job : McpJob) (cs : McpCalls) (e : Ended) : Prop where
  once : cs.filterMap sentBody = [job.body]
  unjudged : ∀ c ∈ cs, isEvaluation c = false
  alarms : ∀ c ∈ cs, ∀ req, appendedRow c = some req →
    ∃ i key agentId body, (⟨.pinCatalog i key agentId body, some req⟩ : Call McpOp) ∈ cs
  answered : ∃ r notes, e = some (r, notes) ∧
    ∀ correlationId, r ≠ clientMigrationRequired correlationId job.state.mode

/-- The request is served, and relayed unless it is throttled. -/
structure ServedAsControl (L : Libraries) (job : McpJob) : Prop where
  served : ∃ cs e, Prog.Trace (job.program L) cs (.pure e) ∧ Unthrottled cs
  relayed : ∀ cs e, Prog.Trace (job.program L) cs (.pure e) → Unthrottled cs → Relayed job cs e

/-- A well-formed request without selectors, from an identity that is known, for a
method that the contract lists. -/
structure ControlRequest (L : Libraries) where
  job : McpJob
  parsed : McpRequest
  selectors : SelectorForm job.headers none none
  read : L.readRequest job.body = some parsed
  accepted : ∃ requestId,
    job.state.upstreamAdapter.validateRequest L.floats L.texts job.body = .ok requestId
  identified : ∃ identity, identify job.state.agents job.headers = some identity
  callback : ∃ url, validateCallbackUrl L job.state job.headers = .ok url
  listed : ListedMethod parsed.method

variable {L : Libraries} {job : McpJob} {call : McpCall}

/-- The calls before a control request is sent. -/
def Admitted (job : McpJob) (call : McpCall) (u : Uuid) (cs : McpCalls) : Prop :=
  cs = ⟨.newV4, u⟩ :: ratePart job call

/-- The calls after a control request was sent. -/
inductive Aftermath : McpCalls → Prop
  | unseen : Aftermath []
  | pinned {i key agentId : String} {body : Octets} :
      Aftermath [⟨.pinCatalog i key agentId body, none⟩]
  | alarmed {i key agentId : String} {body : Octets} {req : LogRequest}
      {r : Except SqlError LedgerEntry} :
      Aftermath [⟨.pinCatalog i key agentId body, some req⟩, ⟨.append req, r⟩]

variable (job call) in
theorem ratePart_silent : (ratePart job call).filterMap sentBody = [] ∧
    (∀ c ∈ ratePart job call, isEvaluation c = false) ∧
    ∀ c ∈ ratePart job call, appendedRow c = none := by
  unfold ratePart
  split_ifs <;> simp [sentBody, isEvaluation, appendedRow]

theorem relayed_sent {u : Uuid} {pre late : McpCalls} {answer : Except String ForwardedResponse}
    {r : Response} {notes : List Notification} (hpre : Admitted job call u pre)
    (hlate : Aftermath late)
    (hr : ∀ correlationId, r ≠ clientMigrationRequired correlationId job.state.mode) :
    Relayed job (pre ++ ⟨.send job.body, answer⟩ :: late) (some (r, notes)) := by
  obtain ⟨hsent, hunjudged, hrows⟩ := ratePart_silent job call
  obtain rfl : pre = ⟨.newV4, u⟩ :: ratePart job call := hpre
  have hlater : late.filterMap sentBody = [] ∧ ∀ c ∈ late, isEvaluation c = false := by
    cases hlate <;> simp [sentBody, isEvaluation]
  have halarm : ∀ c ∈ late, ∀ req, appendedRow c = some req →
      ∃ i key agentId body, (⟨.pinCatalog i key agentId body, some req⟩ : Call McpOp) ∈ late := by
    cases hlate with
    | unseen => simp
    | pinned => simp [appendedRow]
    | @alarmed i key agentId body req r =>
      intro c hc req' he
      simp only [List.mem_cons, List.not_mem_nil, or_false] at hc
      rcases hc with rfl | rfl
      · exact absurd he (by simp [appendedRow])
      · obtain rfl := Option.some.inj he
        exact ⟨i, key, agentId, body, List.mem_cons_self⟩
  constructor
  · have hone : List.filterMap sentBody (⟨.send job.body, answer⟩ :: late) =
        job.body :: late.filterMap sentBody := rfl
    rw [List.cons_append, List.filterMap_cons_none rfl, List.filterMap_append, hsent,
      List.nil_append, hone, hlater.1]
  · simp only [List.mem_append, List.mem_cons]
    rintro c ((rfl | hc) | rfl | hc)
    · rfl
    · exact hunjudged c hc
    · rfl
    · exact hlater.2 c hc
  · simp only [List.mem_append, List.mem_cons]
    rintro c ((rfl | hc) | rfl | hc) req he
    · exact absurd he (by simp [appendedRow])
    · exact absurd ((hrows c hc).symm.trans he) (by simp)
    · exact absurd he (by simp [appendedRow])
    · obtain ⟨i, key, agentId, body, hm⟩ := halarm c hc req he
      exact ⟨i, key, agentId, body, Or.inr (Or.inr hm)⟩
  · exact ⟨r, notes, rfl, hr⟩

theorem unreachable_ne (correlationId correlationId' e : String) (d p : Bool) :
    unreachable job.state correlationId e d p ≠
      clientMigrationRequired correlationId' job.state.mode := by
  simp [unreachable, clientMigrationRequired, plainResponse]

theorem relayed_ne (correlationId correlationId' : String) (upstream : ForwardedResponse)
    (d p : Bool) : relayed job.state correlationId upstream d p ≠
      clientMigrationRequired correlationId' job.state.mode := by
  simp [relayed, clientMigrationRequired, plainResponse]

/-- The request was throttled, or relayed. -/
def ThrottledOrRelayed (job : McpJob) (cs : McpCalls) (e : Ended) : Prop :=
  (∃ c ∈ cs, isThrottle c = true) ∨ Relayed job cs e

/-- No operation is ruled out. -/
abbrev Anything : McpCalls → {δ : Type} → McpOp δ → Prop := fun _ _ _ => True

theorem checkRate_admits {u : Uuid} :
    Meets Anything (ThrottledOrRelayed job) (fun cs _ => Admitted job call u cs) [⟨.newV4, u⟩]
      (checkRate L job.state call) := by
  unfold checkRate
  by_cases hr : job.state.rateLimited = true
  · rw [if_pos hr]
    refine .ask trivial fun outcome => ?_
    cases outcome with
    | allowed =>
      refine .pure ?_
      simp [Admitted, ratePart, hr]
    | denied a s =>
      refine .ask trivial fun r => .throw (Or.inl ?_)
      exact ⟨⟨.checkRate job.state.instanceId call.agentKey, .denied a s⟩, by simp, rfl⟩
  · rw [if_neg hr]
    refine .pure ?_
    simp [Admitted, ratePart, hr]

theorem forwardControl_relays {u : Uuid} {cs : McpCalls} (hcs : Admitted job call u cs)
    {requestId : Option Json}
    (ha : job.state.upstreamAdapter.validateRequest L.floats L.texts job.body = .ok requestId) :
    Meets Anything (ThrottledOrRelayed job) (ThrottledOrRelayed job) cs
      (forwardControl L job.state job.body call) := by
  unfold forwardControl
  have hforward : Prog.Meets Anything (fun ds _ => ∃ answer, ds = cs ++ [⟨.send job.body, answer⟩])
      cs (forward L job.state job.body) := by
    rw [forward, ha]
    exact ⟨trivial, fun answer => ⟨answer, rfl⟩⟩
  refine Meets.bind (Prog.Meets.bind hforward fun ds r hr => hr) fun ds r hds => ?_
  obtain ⟨answer, rfl⟩ := hds
  cases r with
  | error e => exact .throw (Or.inr (relayed_sent hcs .unseen fun _ => unreachable_ne _ _ _ _ _))
  | ok upstream =>
    have hdone : ∀ late, Aftermath late → ThrottledOrRelayed job
        (cs ++ [⟨.send job.body, answer⟩] ++ late)
        (some (relayed job.state call.correlationId upstream false false, [])) := by
      intro late hlate
      rw [List.append_assoc]
      exact Or.inr (relayed_sent hcs hlate fun _ => relayed_ne _ _ _ _ _)
    have hobserve : Meets Anything (ThrottledOrRelayed job)
        (fun es _ => ∃ late, Aftermath late ∧ es = cs ++ [⟨.send job.body, answer⟩] ++ late)
        (cs ++ [⟨.send job.body, answer⟩]) (observeCatalog job.state call upstream.body) := by
      unfold observeCatalog
      split_ifs
      · refine .ask trivial fun alarm => ?_
        cases alarm with
        | none => exact .pure ⟨_, .pinned, rfl⟩
        | some log =>
          refine .ask trivial fun r => ?_
          refine .pure ⟨[⟨.pinCatalog job.state.instanceId call.agentKey call.identity.agentId
            upstream.body, some log⟩, ⟨.append log, r⟩], .alarmed, ?_⟩
          rw [List.append_assoc]
          rfl
      · exact .pure ⟨[], .unseen, (List.append_nil _).symm⟩
    refine hobserve.bind fun es _ hes => ?_
    obtain ⟨late, hlate, rfl⟩ := hes
    exact .pure (hdone late hlate)

theorem admitted_relays {u : Uuid} (hg : gates L job.state job.headers job.body u.text = .ok call)
    {url : Option String} (hurl : validateCallbackUrl L job.state job.headers = .ok url)
    (hm : isMcpControlMethod call.parsed.method = true) (hs : call.serverExecution = none)
    (hd : call.decision = none) :
    Meets Anything (ThrottledOrRelayed job) (ThrottledOrRelayed job) [⟨.newV4, u⟩]
      (admitted L job.state job.headers job.body call) := by
  obtain ⟨requestId, ha⟩ := (gates_ok hg).adapter
  unfold admitted
  refine (checkRate_admits (u := u)).bind fun cs _ hcs => ?_
  rw [hurl]
  show Meets _ _ _ _ (if isMcpControlMethod call.parsed.method = true then _ else _)
  rw [if_pos hm, if_neg (by simp [hs]), if_neg (by simp [hd])]
  exact forwardControl_relays hcs ha

namespace ControlRequest

variable (r : ControlRequest L)

/-- The gates let the request through, if the handler knows its method. -/
theorem passes (hm : isMcpControlMethod r.parsed.method = true) (u : Uuid) :
    ∃ call, gates L r.job.state r.job.headers r.job.body u.text = .ok call ∧
      call.parsed = r.parsed ∧ call.serverExecution = none ∧ call.decision = none := by
  obtain ⟨identity, hidentity⟩ := r.identified
  obtain ⟨hserver, hdecision⟩ := r.selectors.parses
  have hp : Passes L r.job.state r.job.headers r.job.body u.text
      ⟨none, none, u.text, r.parsed, identity⟩ :=
    { serverExecution := hserver
      decision := hdecision
      correlation := rfl
      parsed := r.read
      method := by
        rw [← Bool.not_eq_true, String.isEmpty_iff]
        intro he
        rw [he] at hm
        exact absurd hm (by decide +kernel)
      adapter := r.accepted
      selected := by simp [hm]
      identified := hidentity
      registered := rfl }
  exact ⟨_, gates_passes hp, rfl, rfl, rfl⟩

/-- A method the handler does not know is turned away. -/
theorem refused (hm : isMcpControlMethod r.parsed.method = false) (u : Uuid) :
    gates L r.job.state r.job.headers r.job.body u.text =
      .error (clientMigrationRequired u.text r.job.state.mode) := by
  obtain ⟨hserver, hdecision⟩ := r.selectors.parses
  obtain ⟨requestId, ha⟩ := r.accepted
  have hmethod : r.parsed.method.isEmpty = false := r.listed.nonempty
  unfold gates
  rw [hserver, hdecision, r.read, ha]
  simp only [Except.mapError, ok_bind, Option.elim_some, hmethod, refuse_false, hm]
  rfl

/-- A run of a request whose upstream does not answer. -/
theorem runs_of_known {call : McpCall} {u : Uuid}
    (hg : gates L r.job.state r.job.headers r.job.body u.text = .ok call) {url : Option String}
    (hurl : validateCallbackUrl L r.job.state r.job.headers = .ok url)
    (hm : isMcpControlMethod call.parsed.method = true) (hs : call.serverExecution = none)
    (hd : call.decision = none) :
    Prog.RunsTo (fun _ _ _ _ => True) (r.job.program L) ()
      (⟨.newV4, u⟩ :: (ratePart r.job call ++ [⟨.send r.job.body, .error ""⟩]))
      (some (unreachable r.job.state call.correlationId "" false false, [])) () := by
  obtain ⟨requestId, ha⟩ := (gates_ok hg).adapter
  have hrate : RunsTo (fun _ _ _ _ => True) (checkRate L r.job.state call) ()
      (ratePart r.job call) (.ok ()) () := by
    unfold checkRate ratePart
    by_cases hr : r.job.state.rateLimited = true
    · rw [if_pos hr, if_pos hr]
      exact .ask trivial .pure
    · rw [if_neg hr, if_neg hr]
      exact .pure
  have hforward : RunsTo (fun _ _ _ _ => True)
      (ExceptT.lift (forward L r.job.state r.job.body) : Handling _) ()
      [⟨.send r.job.body, .error ""⟩] (.ok (.error "")) () :=
    Prog.RunsTo.bind (forward_failed ha trivial) ⟨rfl, rfl, rfl⟩
  have hadmitted : RunsTo (fun _ _ _ _ => True)
      (admitted L r.job.state r.job.headers r.job.body call) ()
      (ratePart r.job call ++ [⟨.send r.job.body, .error ""⟩])
      (.error (some (unreachable r.job.state call.correlationId "" false false, []))) () := by
    unfold admitted
    refine hrate.bind ?_
    rw [hurl]
    show RunsTo _ (if isMcpControlMethod call.parsed.method = true then _ else _) _ _ _ _
    rw [if_pos hm, if_neg (by simp [hs]), if_neg (by simp [hd]), forwardControl]
    exact hforward.bind .throw
  exact handleMcp_admitted hg trivial hadmitted

theorem served_of_known (hm : isMcpControlMethod r.parsed.method = true) :
    ServedAsControl L r.job := by
  obtain ⟨url, hurl⟩ := r.callback
  constructor
  · obtain ⟨call, hg, hparsed, hs, hd⟩ := r.passes hm (Uuid.newV5 Uuid.namespaceUrl [])
    have hrun := r.runs_of_known hg hurl (hparsed ▸ hm) hs hd
    refine ⟨_, _, hrun.trace, ?_⟩
    unfold Unthrottled ratePart
    split_ifs <;> simp [isThrottle]
  · intro cs e ht hu
    have hmeets : Prog.Meets Anything (ThrottledOrRelayed r.job) [] (r.job.program L) := by
      refine ⟨trivial, fun u => ?_⟩
      obtain ⟨call, hg, hparsed, hs, hd⟩ := r.passes hm u
      simp only [Prog.bind, hg]
      refine Prog.Meets.bind (admitted_relays hg hurl (hparsed ▸ hm) hs hd) fun ds x hx => ?_
      cases x with
      | ok e => exact hx
      | error e => exact hx
    rcases hmeets.result ht with ⟨c, hc, hthrottle⟩ | hrelayed
    · exact absurd ((hu c hc).symm.trans hthrottle) (by simp)
    · exact hrelayed

/-- A request that is served as the contract says is for a method the handler knows. -/
theorem known_of_served (h : ServedAsControl L r.job) :
    isMcpControlMethod r.parsed.method = true := by
  by_contra hm
  have hg := r.refused (Bool.not_eq_true _ ▸ hm) (Uuid.newV5 Uuid.namespaceUrl [])
  have hrun : Prog.RunsTo (McpPerforms L) (r.job.program L) freshWorld [⟨.newV4, _⟩] _ freshWorld :=
    (refused_runs hg).mpr ⟨rfl, rfl, rfl⟩
  have hrelayed := h.relayed _ _ hrun.trace (by simp [Unthrottled, isThrottle])
  exact absurd hrelayed.once (List.cons_ne_nil _ _).symm

end ControlRequest

/-- Control requests are relayed, and notifications are control requests, for all
methods but the notifications the handler does not know. -/
theorem control_plane_iff (L : Libraries) :
    (∀ r : ControlRequest L, ServedAsControl L r.job ↔
      (isNotification r.parsed.method = true → r.parsed.method = "notifications/initialized")) ∧
    ∀ method, (isNotification method = true → isMcpControlMethod method = true) ↔
      (isNotification method = true → method = "notifications/initialized") := by
  constructor
  · intro r
    rw [← listed_control_iff r.listed]
    exact ⟨r.known_of_served, r.served_of_known⟩
  · intro method
    constructor
    · exact fun h hn => (notification_control_iff hn).mp (h hn)
    · exact fun h hn => (notification_control_iff hn).mpr (h hn)

/-- A request of a registered agent, without selectors. -/
def agentJob (body : String) : McpJob := ⟨executionJob.state, agentHeaders, utf8 body⟩

theorem agentJob_control {body method : String} (hlisted : ListedMethod method)
    (hread : (plainLibraries.readRequest (utf8 body)).any (fun r => r.method == method) = true)
    (haccepted : (executionJob.state.upstreamAdapter.validateRequest plainLibraries.floats
      plainLibraries.texts (utf8 body)).toOption.isSome = true) :
    ∃ r : ControlRequest plainLibraries, r.job = agentJob body ∧ r.parsed.method = method := by
  have hidentified : (identify executionJob.state.agents agentHeaders).isSome = true := by
    decide +kernel
  have hcallback : agentHeaders.get "x-clavenar-callback-url" = none := by decide +kernel
  have hselectors : ∀ name ∈ [decisionContractHeader, legacyExecutionContractHeader,
      idempotencyIdHeader, serverExecutionContractHeader],
      agentHeaders.containsKey name = false := by
    decide +kernel
  obtain ⟨parsed, hparsed, hmethod⟩ := (Option.any_eq_true _ _).mp hread
  obtain rfl := eq_of_beq hmethod
  obtain ⟨requestId, ha⟩ := Option.isSome_iff_exists.mp haccepted
  let r : ControlRequest plainLibraries :=
    { job := agentJob body
      parsed := parsed
      selectors := .unselected hselectors
      read := hparsed
      accepted := ⟨requestId, ok_of_toOption ha⟩
      identified := Option.isSome_iff_exists.mp hidentified
      callback := ⟨none, by rw [agentJob, validateCallbackUrl, hcallback]; rfl⟩
      listed := hlisted }
  exact ⟨r, rfl, rfl⟩

def listToolsBody : String := "\x7b\"jsonrpc\":\"2.0\",\"id\":1,\"method\":\"tools/list\"\x7d"

theorem control_plane_tools : ServedAsControl plainLibraries (agentJob listToolsBody) := by
  have hlisted : ListedMethod "tools/list" := Or.inl (by decide +kernel)
  obtain ⟨r, hjob, hmethod⟩ := @agentJob_control listToolsBody _ hlisted (by decide +kernel)
    (by decide +kernel)
  rw [← hjob]
  refine ((control_plane_iff plainLibraries).1 r).mpr fun hn => ?_
  rw [hmethod] at hn
  exact absurd hn (by decide +kernel)

def cancelledBody : String := "\x7b\"jsonrpc\":\"2.0\",\"method\":\"notifications/cancelled\"," ++
  "\"params\":\x7b\"requestId\":1\x7d\x7d"

/-- The notification that a request was cancelled. -/
theorem cancelled_refused : ∃ r : ControlRequest plainLibraries,
    r.parsed.method = "notifications/cancelled" ∧ ¬ ServedAsControl plainLibraries r.job := by
  have hlisted : ListedMethod "notifications/cancelled" := Or.inr (by decide +kernel)
  obtain ⟨r, -, hmethod⟩ := @agentJob_control cancelledBody _ hlisted (by decide +kernel)
    (by decide +kernel)
  refine ⟨r, hmethod, fun h => ?_⟩
  have hknown : isMcpControlMethod r.parsed.method = true := r.known_of_served h
  rw [hmethod] at hknown
  exact absurd hknown (by decide +kernel)

end ClavenarLite
