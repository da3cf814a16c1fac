import ClavenarLite.Ledger.Execution
import ClavenarLite.Proxy.State

/-! The checks in front of `/mcp`: the contract selectors, the shape of the
request and the bearer, all made before anything is counted or written. -/

namespace ClavenarLite

open Bytes Fallible TextJson

structure McpRequest where
  method : String
  params : Option Value
  id : Option Value
  jsonrpc : Option String

/-- The first octet of a JSON text that is not blank. -/
def opensWith (c : Char) (body : Octets) : Bool :=
  (body.dropWhile fun b => [9, 10, 13, 32].contains b).head? == some c.toUInt8

/-- What the libraries do for the handler. `readRequest` is the deserializer
derived for `McpRequest`, `lowercase` the standard library's. -/
structure Libraries where
  floats : FloatText
  texts : LibraryTexts
  urls : UrlLibrary
  readRequest : Octets → Option McpRequest
  lowercase : String → String
  /-- The fields are read by their names or by their positions. -/
  readRequest_opens : ∀ body, readRequest body ≠ none →
    opensWith '{' body = true ∨ opensWith '[' body = true

def isMcpControlMethod (method : String) : Bool :=
  ["initialize", "initialized", "notifications/initialized", "tools/list", "resources/list",
    "prompts/list", "ping"].contains method

def decisionContractHeader : String := "x-clavenar-decision-contract"

def legacyExecutionContractHeader : String := "x-clavenar-execution-contract"

def idempotencyIdHeader : String := "x-clavenar-idempotency-id"

def serverExecutionContractHeader : String := "x-clavenar-server-execution-contract"

def decisionContract : String := "clavenar.decision/v1"

/-- The idempotency id, if it is spelled canonically. -/
def canonicalId (headers : HeaderMap) : Option Uuid :=
  ((headers.get idempotencyIdHeader).bind headerStr).bind fun raw =>
    (Uuid.parseStr raw).filter fun id => id.text == raw

/-- The idempotency id behind a selector with the exact value of the contract. -/
def selectedId (headers : HeaderMap) (selector : Octets) (contract : String) : Option Uuid :=
  if headerStr selector = some contract then canonicalId headers else none

def parseDecisionRequest (headers : HeaderMap) : Except String (Option Uuid) :=
  match headers.get decisionContractHeader with
  | none =>
    if headers.containsKey legacyExecutionContractHeader ||
        (headers.containsKey idempotencyIdHeader &&
          !headers.containsKey serverExecutionContractHeader) then
      .error "decision_selector_invalid"
    else .ok none
  | some selector =>
    if headers.containsKey serverExecutionContractHeader ||
        headers.containsKey legacyExecutionContractHeader then
      .error "decision_selector_conflict"
    else (selectedId headers selector decisionContract).elim (.error "decision_selector_invalid")
      fun id => .ok (some id)

def parseServerExecutionRequest (headers : HeaderMap) : Except String (Option Uuid) :=
  match headers.get serverExecutionContractHeader with
  | none => .ok none
  | some selector =>
    if headers.containsKey decisionContractHeader ||
        headers.containsKey legacyExecutionContractHeader then
      .error "server_execution_selector_conflict"
    else (selectedId headers selector serverExecutionContract).elim
      (.error "server_execution_selector_invalid") fun id => .ok (some id)

/-- The selector has its exact value, with a canonical idempotency id and none of
the headers that exclude it. -/
structure Selects (headers : HeaderMap) (selector contract other : String) (id : Uuid) : Prop where
  value : ∃ raw, headers.get selector = some raw ∧ headerStr raw = some contract
  id : canonicalId headers = some id
  noOther : headers.containsKey other = false
  noLegacy : headers.containsKey legacyExecutionContractHeader = false

/-- The headers select a server execution, a decision or nothing. -/
inductive SelectorForm (headers : HeaderMap) : Option Uuid → Option Uuid → Prop
  | unselected (h : ∀ name ∈ [decisionContractHeader, legacyExecutionContractHeader,
      idempotencyIdHeader, serverExecutionContractHeader], headers.containsKey name = false) :
      SelectorForm headers none none
  | serverExecution {id : Uuid} (h : Selects headers serverExecutionContractHeader
      serverExecutionContract decisionContractHeader id) : SelectorForm headers (some id) none
  | decision {id : Uuid} (h : Selects headers decisionContractHeader decisionContract
      serverExecutionContractHeader id) : SelectorForm headers none (some id)

theorem selectedId_some {headers : HeaderMap} {selector : Octets} {contract : String} {id : Uuid}
    (h : selectedId headers selector contract = some id) :
    headerStr selector = some contract ∧ canonicalId headers = some id :=
  Option.ite_none_right_eq_some.mp h

/-- What is made of a selector that is there. -/
theorem found_cases {headers : HeaderMap} {raw : Octets}
    {selector contract other conflict invalid : String} {r : Except String (Option Uuid)}
    (hget : headers.get selector = some raw)
    (h : (if headers.containsKey other || headers.containsKey legacyExecutionContractHeader then
        .error conflict
      else (selectedId headers raw contract).elim (.error invalid) fun id => .ok (some id)) = r) :
    r = .error conflict ∨ r = .error invalid ∨
      ∃ id, r = .ok (some id) ∧ Selects headers selector contract other id := by
  split_ifs at h with hkeys
  · exact Or.inl h.symm
  · obtain ⟨hother, hlegacy⟩ := Bool.or_eq_false_iff.mp (Bool.not_eq_true _ ▸ hkeys)
    cases hid : selectedId headers raw contract with
    | none => exact Or.inr (Or.inl (by rw [← h, hid, Option.elim_none]))
    | some id =>
      obtain ⟨hvalue, hcanonical⟩ := selectedId_some hid
      refine Or.inr (Or.inr ⟨id, by rw [← h, hid, Option.elim_some], ?_⟩)
      exact ⟨⟨raw, hget, hvalue⟩, hcanonical, hother, hlegacy⟩

theorem parseServerExecutionRequest_some {headers : HeaderMap} {id : Uuid}
    (h : parseServerExecutionRequest headers = .ok (some id)) :
    Selects headers serverExecutionContractHeader serverExecutionContract decisionContractHeader
      id := by
  unfold parseServerExecutionRequest at h
  cases hget : headers.get serverExecutionContractHeader with
  | none => simp [hget] at h
  | some raw =>
    simp only [hget] at h
    rcases found_cases hget h with he | he | ⟨id', he, hselects⟩
    · simp at he
    · simp at he
    · obtain rfl := Option.some.inj (Except.ok.inj he)
      exact hselects

theorem parseDecisionRequest_some {headers : HeaderMap} {id : Uuid}
    (h : parseDecisionRequest headers = .ok (some id)) :
    Selects headers decisionContractHeader decisionContract serverExecutionContractHeader id := by
  unfold parseDecisionRequest at h
  cases hget : headers.get decisionContractHeader with
  | none =>
    simp only [hget] at h
    split at h <;> simp at h
  | some raw =>
    simp only [hget] at h
    rcases found_cases hget h with he | he | ⟨id', he, hselects⟩
    · simp at he
    · simp at he
    · obtain rfl := Option.some.inj (Except.ok.inj he)
      exact hselects

theorem parseServerExecutionRequest_none {headers : HeaderMap}
    (h : parseServerExecutionRequest headers = .ok none) :
    headers.containsKey serverExecutionContractHeader = false := by
  unfold parseServerExecutionRequest at h
  cases hget : headers.get serverExecutionContractHeader with
  | none => simp [HeaderMap.containsKey, hget]
  | some raw =>
    simp only [hget] at h
    rcases found_cases hget h with he | he | ⟨id, he, -⟩ <;> simp at he

theorem parseDecisionRequest_none {headers : HeaderMap}
    (h : parseDecisionRequest headers = .ok none) :
    headers.containsKey decisionContractHeader = false ∧
      headers.containsKey legacyExecutionContractHeader = false ∧
      (headers.containsKey serverExecutionContractHeader = false →
        headers.containsKey idempotencyIdHeader = false) := by
  unfold parseDecisionRequest at h
  cases hget : headers.get decisionContractHeader with
  | none =>
    simp only [hget] at h
    split at h
    · simp at h
    · next hkeys =>
      simp only [Bool.or_eq_true, Bool.and_eq_true, Bool.not_eq_true', not_or, not_and,
        Bool.not_eq_true, Bool.not_eq_false] at hkeys
      refine ⟨by simp [HeaderMap.containsKey, hget], hkeys.1, fun hs => ?_⟩
      by_contra hid
      have hid : headers.containsKey idempotencyIdHeader = true := by simpa using hid
      simp [hkeys.2 hid] at hs
  | some raw =>
    simp only [hget] at h
    rcases found_cases hget h with he | he | ⟨id, he, -⟩ <;> simp at he

/-- What the two selector parsers accept together. -/
theorem selectors_ok {headers : HeaderMap} {serverExecution decision : Option Uuid}
    (hs : parseServerExecutionRequest headers = .ok serverExecution)
    (hd : parseDecisionRequest headers = .ok decision) :
    SelectorForm headers serverExecution decision := by
  cases serverExecution with
  | some id =>
    have hserver := parseServerExecutionRequest_some hs
    cases decision with
    | none => exact .serverExecution hserver
    | some id' =>
      obtain ⟨raw, hget, _⟩ := hserver.value
      have hno := (parseDecisionRequest_some hd).noOther
      simp [HeaderMap.containsKey, hget] at hno
  | none =>
    cases decision with
    | some id => exact .decision (parseDecisionRequest_some hd)
    | none =>
      have hserver := parseServerExecutionRequest_none hs
      obtain ⟨hdecision, hlegacy, hid⟩ := parseDecisionRequest_none hd
      exact .unselected (by simp [hserver, hdecision, hlegacy, hid hserver])

def contractError (contract error correlationId : String) : Json :=
  .obj [("contract", .str contract), ("error", .str error), ("correlation_id", .str correlationId),
    ("executable", .bool false)]

def serverExecutionError (status : UInt16) (error correlationId : String) (mode : ClavenarMode) :
    Response :=
  plainResponse status correlationId mode
    (.json (contractError serverExecutionContract error correlationId))

def decisionError (error correlationId : String) (mode : ClavenarMode) : Response :=
  plainResponse 400 correlationId mode (.json (contractError decisionContract error correlationId))

def clientMigrationContract : String := "clavenar.client-migration/v1"

def clientMigrationGuide : String := "https://clavenar.com/docs/sdk-migration/"

def clientMigrationRequired (correlationId : String) (mode : ClavenarMode) : Response :=
  plainResponse 426 correlationId mode (.json (.obj
    [("contract", .str clientMigrationContract), ("error", .str "client_contract_required"),
      ("correlation_id", .str correlationId), ("executable", .bool false),
      ("migration_url", .str clientMigrationGuide),
      ("supported_selectors", .obj
        [("decision", .obj
          [("header", .str decisionContractHeader), ("value", .str decisionContract)]),
         ("server_execution", .obj
          [("header", .str serverExecutionContractHeader),
            ("value", .str serverExecutionContract)])])]))

def anonymousIdentity : AgentIdentity := ⟨"_legacy_unqualified", "anonymous", by decide +kernel⟩

def identify (agents : Option AgentRegistry) (headers : HeaderMap) : Option AgentIdentity :=
  match agents with
  | some registry => (suppliedToken headers).bind registry.lookup
  | none => some anonymousIdentity

/-- A request that has passed the gates. -/
structure McpCall where
  serverExecution : Option Uuid
  decision : Option Uuid
  correlationId : String
  parsed : McpRequest
  identity : AgentIdentity

variable (L : Libraries)

def gates (state : AppState) (headers : HeaderMap) (body : Octets) (fallback : String) :
    Except Response McpCall := do
  let serverExecution ← (parseServerExecutionRequest headers).mapError
    fun error => serverExecutionError 400 error fallback state.mode
  let decision ← (parseDecisionRequest headers).mapError
    fun error => decisionError error fallback state.mode
  let correlationId := ((serverExecution.or decision).map Uuid.text).getD fallback
  let reject := fun status text => plainResponse status correlationId state.mode (.text text)
  let parsed ← (L.readRequest body).elim
    (.error (reject 400 ("invalid JSON-RPC body: " ++ L.texts.notRequest body))) .ok
  refuse parsed.method.isEmpty (reject 400 "method must be a non-empty string")
  let _ ← (state.upstreamAdapter.validateRequest L.floats L.texts body).mapError (reject 400)
  refuse (serverExecution.isNone && decision.isNone && !isMcpControlMethod parsed.method)
    (clientMigrationRequired correlationId state.mode)
  let identity ← (identify state.agents headers).elim
    (.error (reject 401 "missing or invalid bearer token")) .ok
  refuse (serverExecution.isSome && state.agents.isNone)
    (serverExecutionError 503 "server_execution_identity_required" correlationId state.mode)
  return { serverExecution, decision, correlationId, parsed, identity }

variable {L}

/-- What a request that passes has shown. -/
structure Passes (L : Libraries) (state : AppState) (headers : HeaderMap) (body : Octets)
    (fallback : String) (call : McpCall) : Prop where
  serverExecution : parseServerExecutionRequest headers = .ok call.serverExecution
  decision : parseDecisionRequest headers = .ok call.decision
  correlation : call.correlationId =
    ((call.serverExecution.or call.decision).map Uuid.text).getD fallback
  parsed : L.readRequest body = some call.parsed
  method : call.parsed.method.isEmpty = false
  adapter : ∃ requestId, state.upstreamAdapter.validateRequest L.floats L.texts body = .ok requestId
  selected : (call.serverExecution.isNone && call.decision.isNone &&
    !isMcpControlMethod call.parsed.method) = false
  identified : identify state.agents headers = some call.identity
  registered : (call.serverExecution.isSome && state.agents.isNone) = false

theorem gates_ok {state : AppState} {headers : HeaderMap} {body : Octets} {fallback : String}
    {call : McpCall} (h : gates L state headers body fallback = .ok call) :
    Passes L state headers body fallback call := by
  unfold gates at h
  obtain ⟨serverExecution, hserver, h⟩ := bind_ok h
  obtain ⟨decision, hdecision, h⟩ := bind_ok h
  obtain ⟨parsed, hparsed, h⟩ := bind_ok h
  obtain ⟨_, hmethod, h⟩ := bind_ok h
  obtain ⟨requestId, hadapter, h⟩ := bind_ok h
  obtain ⟨_, hselected, h⟩ := bind_ok h
  obtain ⟨identity, hidentity, h⟩ := bind_ok h
  obtain ⟨_, hregistered, h⟩ := bind_ok h
  obtain rfl := Except.ok.inj h
  exact {
    serverExecution := mapError_ok hserver
    decision := mapError_ok hdecision
    correlation := rfl
    parsed := elim_ok hparsed
    method := refuse_ok hmethod
    adapter := ⟨requestId, mapError_ok hadapter⟩
    selected := refuse_ok hselected
    identified := elim_ok hidentity
    registered := refuse_ok hregistered }

theorem Passes.form {state : AppState} {headers : HeaderMap} {body : Octets} {fallback : String}
    {call : McpCall} (h : Passes L state headers body fallback call) :
    SelectorForm headers call.serverExecution call.decision :=
  selectors_ok h.serverExecution h.decision

/-- A server execution comes without a decision selector. -/
theorem Passes.exclusive {state : AppState} {headers : HeaderMap} {body : Octets}
    {fallback : String} {call : McpCall} (h : Passes L state headers body fallback call)
    (hs : call.serverExecution.isSome) : call.decision = none := by
  have hform := h.form
  generalize call.serverExecution = serverExecution at hform hs
  generalize call.decision = decision at hform ⊢
  cases hform with
  | unselected _ => rfl
  | serverExecution _ => rfl
  | decision _ => simp at hs

end ClavenarLite
