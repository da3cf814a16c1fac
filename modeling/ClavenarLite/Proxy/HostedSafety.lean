import ClavenarLite.Proxy.RateLimit
import ClavenarLite.Proxy.Registry
import ClavenarLite.Proxy.Upstream

/-! The start-up checks of the hosted profile, and the credentials and limiter
that a start with the same configuration hands to the request handlers. -/

namespace ClavenarLite

open Bytes Fallible Text

inductive DeploymentProfile
  | developer
  | hosted
  deriving DecidableEq

/-- A binary64 value; finite ones are taken exactly. -/
inductive F64
  | finite (q : ℚ)
  | infinite (negative : Bool)
  | nan

def minimumTokenBytes : Nat := 32

/-- The binary64 value nearest to 0.1. -/
def minimumRateLimitQps : ℚ := 3602879701896397 / 36028797018963968

def maximumRateLimitQps : ℚ := 100

def minimumRateLimitBurst : Nat := 1

def maximumRateLimitBurst : Nat := 200

/-- In nanoseconds. -/
def maximumUpstreamTimeout : Nat := 30 * 10 ^ 9

structure HostedSafetyConfig where
  profile : DeploymentProfile
  agentToken : Option String
  agents : Option String
  decideToken : Option String
  deciders : Option String
  enforceMode : Bool
  verboseVerdicts : Bool
  rateLimitQps : Option F64
  rateLimitBurst : Option Nat
  ledgerPath : String
  upstreamUrl : String
  upstreamAdapter : UpstreamAdapter
  upstreamTimeout : Nat

/-- What the URL library shows of a parsed URL. -/
structure UrlParts where
  scheme : String
  username : String
  password : Option String
  fragment : Option String
  hostStr : Option String

/-- The members of the packaged contract that the start looks at. -/
structure SafetyContract where
  contract : String
  anonymousMcp : Bool
  agentOperatorOverlap : String
  mode : String
  rateLimitRequired : Bool
  scaleToZero : Bool
  adapterIdentifier : String
  adapterResponseId : String

def embeddedContract : SafetyContract where
  contract := "clavenar.hosted-lite-safety/v1"
  anonymousMcp := false
  agentOperatorOverlap := "reject-constant-time"
  mode := "enforce"
  rateLimitRequired := true
  scaleToZero := false
  adapterIdentifier := "mcp-jsonrpc-v1"
  adapterResponseId := "exact-request-id"

def validateEmbeddedContract (c : SafetyContract) : Except String Unit :=
  refuse (c.contract != "clavenar.hosted-lite-safety/v1" || c.anonymousMcp ||
      c.agentOperatorOverlap != "reject-constant-time" || c.mode != "enforce" ||
      !c.rateLimitRequired || c.scaleToZero || c.adapterIdentifier != "mcp-jsonrpc-v1" ||
      c.adapterResponseId != "exact-request-id")
    "embedded hosted Lite safety contract is weakened"

def checkedToken (purpose token : String) : Except String String :=
  let token := trim token
  if byteLength token < minimumTokenBytes then
    .error ("hosted " ++ purpose ++ " tokens must be at least " ++ toString minimumTokenBytes ++
      " bytes")
  else .ok token

def configuredEntry (purpose raw : String) : Except String String :=
  let entry := trim raw
  if entry.isEmpty then .error (purpose ++ " registry contains an empty entry")
  else
    match splitOnce ':' entry with
    | none => .error (purpose ++ " registry entry is missing ':' separator")
    | some (_, token) => checkedToken purpose (trim token)

def configuredTokens (purpose : String) : Option String → Option String →
    Except String (List String)
  | some _, some _ => .error ("hosted profile requires exactly one " ++ purpose ++ " source")
  | none, none => .error ("hosted profile requires " ++ purpose)
  | some token, none => do return [← checkedToken purpose token]
  | none, some spec => do
    let tokens ← (split ',' spec).mapM (configuredEntry purpose)
    refuse tokens.isEmpty (purpose ++ " registry is empty")
    return tokens

def rateLimitQpsFault : F64 → Bool
  | .finite q => !(minimumRateLimitQps ≤ q && q ≤ maximumRateLimitQps)
  | _ => true

/-- The components of a path below its root: `.` and empty parts are skipped. -/
def pathComponents (raw : String) : List String :=
  (split '/' raw).filter fun c => c != "" && c != "."

def validateLedgerPath (raw : String) : Except String Unit := do
  let components := pathComponents raw
  refuse ((stripPrefix "/" raw).isNone || raw == ":memory:" || components.contains "..")
    "hosted ledger must be an absolute normalized file path beneath /data"
  refuse (components.head? != some "data" || components == ["data"])
    "hosted ledger must be a file beneath the /data mount"

def validateUpstream (parseUrl : String → Except String UrlParts) (raw : String) :
    Except String Unit := do
  let url ← match parseUrl raw with
    | .ok url => .ok url
    | .error error => .error ("invalid hosted upstream URL: " ++ error)
  refuse (url.scheme != "https") "hosted upstream URL must use HTTPS"
  refuse (url.username != "" || url.password.isSome || url.fragment.isSome)
    "hosted upstream URL must not contain credentials or a fragment"
  match url.hostStr with
  | none => .error "hosted upstream URL has no host"
  | some host =>
    let host := toAsciiLowercase host
    refuse (host == "localhost" || host == "example.com" || endsWith ".example" host ||
        endsWith ".invalid" host || endsWith ".test" host)
      "hosted upstream URL uses a placeholder host"

variable (parseUrl : String → Except String UrlParts)

def validate (config : HostedSafetyConfig) : Except String Unit :=
  if config.profile = .developer then .ok ()
  else do
    validateEmbeddedContract embeddedContract
    let agentTokens ← configuredTokens "agent authentication" config.agentToken config.agents
    let operatorTokens ←
      configuredTokens "operator authentication" config.decideToken config.deciders
    refuse (agentTokens.any fun agent => operatorTokens.any fun operator =>
        constantTimeEq (utf8 agent) (utf8 operator))
      "hosted profile requires disjoint agent and operator credentials"
    refuse (!config.enforceMode) "hosted profile requires enforce mode"
    refuse config.verboseVerdicts "hosted profile forbids verbose verdicts"
    let qps ← config.rateLimitQps.elim (.error "hosted profile requires a rate-limit QPS") .ok
    refuse (rateLimitQpsFault qps) "hosted rate-limit QPS must be within 0.1..=100"
    let burst ←
      config.rateLimitBurst.elim (.error "hosted profile requires an explicit rate-limit burst") .ok
    refuse (!(minimumRateLimitBurst ≤ burst && burst ≤ maximumRateLimitBurst))
      "hosted rate-limit burst must be within 1..=200"
    validateLedgerPath config.ledgerPath
    validateUpstream parseUrl config.upstreamUrl
    refuse (config.upstreamAdapter != .mcpJsonRpcV1)
      "hosted profile requires upstream adapter mcp-jsonrpc-v1"
    refuse (config.upstreamTimeout == 0 || maximumUpstreamTimeout < config.upstreamTimeout)
      "hosted upstream timeout must be within 1 ms..=30000 ms"

inductive ClavenarMode
  | enforce
  | observe
  deriving DecidableEq

structure StartConfig where
  deploymentProfile : DeploymentProfile
  token : Option String
  agents : Option String
  decideToken : Option String
  deciders : Option String
  mode : ClavenarMode
  verboseVerdicts : Bool
  rateLimitQps : Option F64
  rateLimitBurst : Option Nat
  ledgerPath : String
  upstream : String
  upstreamAdapter : UpstreamAdapter
  upstreamTimeout : Nat

def StartConfig.hostedSafety (cfg : StartConfig) : HostedSafetyConfig where
  profile := cfg.deploymentProfile
  agentToken := cfg.token
  agents := cfg.agents
  decideToken := cfg.decideToken
  deciders := cfg.deciders
  enforceMode := cfg.mode = .enforce
  verboseVerdicts := cfg.verboseVerdicts
  rateLimitQps := cfg.rateLimitQps
  rateLimitBurst := cfg.rateLimitBurst
  ledgerPath := cfg.ledgerPath
  upstreamUrl := cfg.upstream
  upstreamAdapter := cfg.upstreamAdapter
  upstreamTimeout := cfg.upstreamTimeout

structure LimiterSettings where
  qps : F64
  burst : Nat

/-- The larger of the value and zero, which is zero for `nan`. -/
def F64.maxZero : F64 → F64
  | .finite q => .finite (max q 0)
  | .infinite false => .infinite false
  | _ => .finite 0

def F64.isPositive : F64 → Bool
  | .finite q => 0 < q
  | .infinite negative => !negative
  | .nan => false

/-- One second's worth, at least one, as a saturating cast to `u32`. -/
def F64.defaultBurst : F64 → Nat
  | .finite q => min (max ⌈q⌉ 1).toNat (2 ^ 32 - 1)
  | .infinite negative => if negative then 1 else 2 ^ 32 - 1
  | .nan => 1

/-- The limiter's settings, if they enable one. -/
def limiterSettings (qps : Option F64) (burst : Option Nat) : Option LimiterSettings :=
  let qps := (qps.getD (.finite 0)).maxZero
  let burst := burst.getD qps.defaultBurst
  if qps.isPositive && 0 < burst then some ⟨qps, burst⟩ else none

/-- What a start hands to the handlers, as far as credentials and rates go. -/
structure BootState where
  agents : Option AgentRegistry
  deciders : Option TenantRegistry
  decideToken : Option String
  mode : ClavenarMode
  upstreamAdapter : UpstreamAdapter
  rateLimiter : Option LimiterSettings
  verboseVerdicts : Bool

def bootAgents (X : LibraryTexts) (cfg : StartConfig) : Except String (Option AgentRegistry) :=
  match cfg.agents, cfg.token with
  | some spec, _ =>
    match AgentRegistry.parse spec with
    | .ok registry => .ok (some registry)
    | .error e => .error ("failed to parse --agents: " ++ e.agentMessage X.debug)
  | none, some token => .ok (some (AgentRegistry.single token))
  | none, none => .ok none

def bootDeciders (X : LibraryTexts) (cfg : StartConfig) : Except String (Option TenantRegistry) :=
  match cfg.deciders with
  | some spec =>
    match TenantRegistry.parse spec with
    | .ok registry => .ok (some registry)
    | .error e => .error ("failed to parse --deciders: " ++ e.tenantMessage X.debug)
  | none => .ok none

def bootChecks (cfg : StartConfig) : Except String Unit :=
  match validate parseUrl cfg.hostedSafety with
  | .ok () => .ok ()
  | .error error => .error ("unsafe hosted configuration: " ++ error)

/-- The other steps of a start can refuse it, and do not touch these fields. -/
def runStart (X : LibraryTexts) (cfg : StartConfig) : Except String BootState := do
  bootChecks parseUrl cfg
  let agents ← bootAgents X cfg
  let deciders ← bootDeciders X cfg
  return {
    agents, deciders
    decideToken := cfg.decideToken
    mode := cfg.mode
    upstreamAdapter := cfg.upstreamAdapter
    rateLimiter := limiterSettings cfg.rateLimitQps cfg.rateLimitBurst
    verboseVerdicts := cfg.verboseVerdicts }

/-- The token comes from the single token or from an entry of the registry. -/
def Configured (single registry : Option String) (token : String) : Prop :=
  (registry = none ∧ single = some token) ∨
    ∃ spec, registry = some spec ∧ ∃ raw ∈ split ',' spec, EntryToken raw token

theorem checkedToken_ok {purpose token v : String} (h : checkedToken purpose token = .ok v) :
    v = trim token ∧ minimumTokenBytes ≤ byteLength v := by
  unfold checkedToken at h
  by_cases hlt : byteLength (trim token) < minimumTokenBytes
  · exact absurd ((if_pos hlt).symm.trans h) (by simp)
  · obtain rfl := Except.ok.inj ((if_neg hlt).symm.trans h)
    exact ⟨rfl, not_lt.mp hlt⟩

/-- The validator trims once more than the handlers do. -/
theorem configuredTokens_mem {purpose : String} {single registry : Option String}
    {tokens : List String} (h : configuredTokens purpose single registry = .ok tokens)
    {token : String} (ht : Configured single registry token) :
    trim token ∈ tokens ∧ minimumTokenBytes ≤ byteLength token := by
  rcases ht with ⟨rfl, rfl⟩ | ⟨spec, rfl, raw, hraw, hne, id, t, hs, rfl⟩
  · rw [configuredTokens] at h
    obtain ⟨v, hv, h⟩ := bind_ok h
    obtain rfl := Except.ok.inj h
    obtain ⟨rfl, hlen⟩ := checkedToken_ok hv
    exact ⟨List.mem_singleton_self _, hlen.trans (byteLength_trim_le token)⟩
  · cases single with
    | some s => exact absurd h (by simp [configuredTokens])
    | none =>
      rw [configuredTokens] at h
      obtain ⟨vs, hvs, h⟩ := bind_ok h
      obtain ⟨_, _, h⟩ := bind_ok h
      obtain rfl := Except.ok.inj h
      obtain ⟨v, hv, hentry⟩ := mapM_ok hvs raw hraw
      have hcheck : configuredEntry purpose raw = checkedToken purpose (trim t) := by
        simp only [configuredEntry, hne, hs, Bool.false_eq_true, if_false]
      obtain ⟨rfl, hlen⟩ := checkedToken_ok (hcheck.symm.trans hentry)
      exact ⟨hv, hlen.trans (byteLength_trim_le (trim t))⟩

/-- Exactly one source of tokens is configured. -/
theorem configuredTokens_source {purpose : String} {single registry : Option String}
    {tokens : List String} (h : configuredTokens purpose single registry = .ok tokens) :
    single.isSome ∧ registry = none ∨ single = none ∧ registry.isSome := by
  cases single with
  | some s =>
    cases registry with
    | some r => exact absurd h (by simp [configuredTokens])
    | none => exact Or.inl ⟨rfl, rfl⟩
  | none =>
    cases registry with
    | some r => exact Or.inr ⟨rfl, rfl⟩
    | none => exact absurd h (by simp [configuredTokens])

structure HostedFacts (config : HostedSafetyConfig) : Prop where
  agents : ∃ tokens, configuredTokens "agent authentication" config.agentToken config.agents =
    .ok tokens ∧ ∃ others, configuredTokens "operator authentication" config.decideToken
      config.deciders = .ok others ∧ ∀ token ∈ tokens, token ∉ others
  rate : ∃ q burst, config.rateLimitQps = some (.finite q) ∧ config.rateLimitBurst = some burst ∧
    0 < q ∧ 0 < burst

theorem rateLimitQpsFault_false {qps : F64} (h : rateLimitQpsFault qps = false) :
    ∃ q, qps = .finite q ∧ 0 < q := by
  cases qps with
  | finite q =>
    simp only [rateLimitQpsFault, Bool.not_eq_false', Bool.and_eq_true, decide_eq_true_eq] at h
    refine ⟨q, rfl, lt_of_lt_of_le ?_ h.1⟩
    norm_num [minimumRateLimitQps]
  | infinite negative => exact absurd h (by simp [rateLimitQpsFault])
  | nan => exact absurd h (by simp [rateLimitQpsFault])

theorem validate_hosted {config : HostedSafetyConfig} (hp : config.profile = .hosted)
    (h : validate parseUrl config = .ok ()) : HostedFacts config := by
  have hne : config.profile ≠ .developer := hp ▸ by decide
  replace h := (if_neg hne).symm.trans h
  obtain ⟨_, _, h⟩ := bind_ok h
  obtain ⟨agents, hagents, h⟩ := bind_ok h
  obtain ⟨operators, hoperators, h⟩ := bind_ok h
  obtain ⟨_, hdisjoint, h⟩ := bind_ok h
  obtain ⟨_, _, h⟩ := bind_ok h
  obtain ⟨_, _, h⟩ := bind_ok h
  obtain ⟨qps, hqps, h⟩ := bind_ok h
  obtain ⟨_, hfault, h⟩ := bind_ok h
  obtain ⟨burst, hburst, h⟩ := bind_ok h
  obtain ⟨_, hrange, _⟩ := bind_ok h
  obtain ⟨q, rfl, hq⟩ := rateLimitQpsFault_false (refuse_ok hfault)
  have hb := refuse_ok hrange
  simp only [Bool.not_eq_false', Bool.and_eq_true, decide_eq_true_eq] at hb
  refine ⟨⟨agents, hagents, operators, hoperators, ?_⟩, q, burst, elim_ok hqps, elim_ok hburst, hq,
    hb.1⟩
  intro token ht ho
  have hnot := refuse_ok hdisjoint
  rw [List.any_eq_false] at hnot
  refine hnot token ht (List.any_eq_true.mpr ⟨token, ho, ?_⟩)
  exact (constantTimeEq_iff _ _).mpr rfl

theorem bootAgents_accepts {X : LibraryTexts} {cfg : StartConfig} {agents : AgentRegistry}
    (h : bootAgents X cfg = .ok (some agents)) {token : String}
    (ht : (agents.lookup token).isSome) : Configured cfg.token cfg.agents token := by
  unfold bootAgents at h
  cases ha : cfg.agents with
  | some spec =>
    simp only [ha] at h
    cases hp : AgentRegistry.parse spec with
    | error e => exact absurd h (by simp [hp])
    | ok registry =>
      obtain rfl : registry = agents := by simpa [hp] using h
      exact Or.inr ⟨spec, rfl, agents_parse_tokens hp ht⟩
  | none =>
    simp only [ha] at h
    cases hs : cfg.token with
    | none => exact absurd h (by simp [hs])
    | some single =>
      obtain rfl : AgentRegistry.single single = agents := by simpa [hs] using h
      exact Or.inl ⟨rfl, congrArg some (single_lookup ht).symm⟩

theorem bootDeciders_some {X : LibraryTexts} {cfg : StartConfig} {registry : TenantRegistry}
    (h : bootDeciders X cfg = .ok (some registry)) :
    ∃ spec, cfg.deciders = some spec ∧ TenantRegistry.parse spec = .ok registry := by
  unfold bootDeciders at h
  cases hd : cfg.deciders with
  | none =>
    rw [hd] at h
    exact absurd h (by simp)
  | some spec =>
    simp only [hd] at h
    cases hp : TenantRegistry.parse spec with
    | error e => exact absurd h (by simp [hp])
    | ok r =>
      obtain rfl : r = registry := by simpa [hp] using h
      exact ⟨spec, rfl, hp⟩

theorem bootDeciders_none {X : LibraryTexts} {cfg : StartConfig}
    (h : bootDeciders X cfg = .ok none) : cfg.deciders = none := by
  unfold bootDeciders at h
  cases hd : cfg.deciders with
  | none => rfl
  | some spec =>
    simp only [hd] at h
    cases hp : TenantRegistry.parse spec with
    | error e => exact absurd h (by simp [hp])
    | ok r => exact absurd h (by simp [hp])

/-- Who an operator request may come from: a tenant of the registry, or whoever
has the single token. -/
theorem bootDeciders_accepts {X : LibraryTexts} {cfg : StartConfig}
    {deciders : Option TenantRegistry} (h : bootDeciders X cfg = .ok deciders)
    (hsource : cfg.decideToken.isSome ∧ cfg.deciders = none ∨
      cfg.decideToken = none ∧ cfg.deciders.isSome) {headers : HeaderMap} {t : Option String}
    (hr : resolveOperatorTenant deciders cfg.decideToken headers = .ok t) :
    t ≠ none ∧ ∃ token, suppliedToken headers = some token ∧
      Configured cfg.decideToken cfg.deciders token := by
  unfold resolveOperatorTenant at hr
  cases deciders with
  | some registry =>
    obtain ⟨spec, hd, hp⟩ := bootDeciders_some h
    cases hs : (suppliedToken headers).bind registry.lookup with
    | none =>
      simp only [hs] at hr
      exact absurd hr (by simp)
    | some tenant =>
      simp only [hs] at hr
      obtain rfl := Except.ok.inj hr
      obtain ⟨token, htoken, hlookup⟩ := Option.bind_eq_some_iff.mp hs
      have hin := tenants_parse_tokens hp (Option.isSome_of_eq_some hlookup)
      exact ⟨by simp, token, htoken, Or.inr ⟨spec, hd, hin⟩⟩
  | none =>
    have hd := bootDeciders_none h
    cases hsingle : cfg.decideToken with
    | none => exact absurd hsource (by simp [hsingle, hd])
    | some expected =>
      simp only [hsingle] at hr
      cases hs : suppliedToken headers with
      | none =>
        rw [hs] at hr
        exact absurd hr (by simp)
      | some token =>
        rw [hs, Option.any_some] at hr
        by_cases heq : constantTimeEq (utf8 token) (utf8 expected) = true
        · obtain rfl := Except.ok.inj ((if_pos heq).symm.trans hr)
          obtain rfl := utf8_injective ((constantTimeEq_iff _ _).mp heq)
          exact ⟨by simp, token, rfl, Or.inl ⟨hd, rfl⟩⟩
        · exact absurd ((if_neg heq).symm.trans hr) (by simp)

/-- A hosted start has agents, operators and a limiter, and no bearer token
serves both as an agent's and as an operator's. -/
theorem hosted_separates {X : LibraryTexts} {cfg : StartConfig} {state : BootState}
    (hp : cfg.deploymentProfile = .hosted) (h : runStart parseUrl X cfg = .ok state) :
    ∃ agents, state.agents = some agents ∧
      (state.deciders.isSome ∨ state.decideToken.isSome) ∧
      (∃ q burst, state.rateLimiter = some ⟨.finite q, burst⟩ ∧
        (RateLimiter.fromConfig ⟨q, burst⟩).isSome) ∧
      (∀ headers token t, suppliedToken headers = some token → (agents.lookup token).isSome →
        resolveOperatorTenant state.deciders state.decideToken headers ≠ .ok t) ∧
      (∀ headers, resolveOperatorTenant state.deciders state.decideToken headers ≠ .ok none) ∧
      (∀ token, (agents.lookup token).isSome → minimumTokenBytes ≤ byteLength token) ∧
      (∀ headers t, resolveOperatorTenant state.deciders state.decideToken headers = .ok t →
        ∃ token, suppliedToken headers = some token ∧ minimumTokenBytes ≤ byteLength token) := by
  obtain ⟨_, hvalid, h⟩ := bind_ok h
  obtain ⟨registry, hagents, h⟩ := bind_ok h
  obtain ⟨deciders, hdeciders, h⟩ := bind_ok h
  obtain rfl := Except.ok.inj h
  have hok : validate parseUrl cfg.hostedSafety = .ok () := by
    cases hv : validate parseUrl cfg.hostedSafety with
    | ok u => rfl
    | error e =>
      rw [bootChecks, hv] at hvalid
      exact absurd hvalid (by simp)
  obtain ⟨⟨tokens, hts, others, hos, hdisjoint⟩, q, burst, hqps, hburst, hq, hb⟩ :=
    validate_hosted parseUrl hp hok
  have hagentSource := configuredTokens_source hts
  have hoperator := fun headers t =>
    @bootDeciders_accepts X cfg deciders hdeciders (configuredTokens_source hos) headers t
  have hsome : ∃ agents, registry = some agents := by
    cases registry with
    | some agents => exact ⟨agents, rfl⟩
    | none =>
      exfalso
      unfold bootAgents at hagents
      rcases hagentSource with ⟨ht, ha⟩ | ⟨ht, ha⟩
      · obtain ⟨single, hs⟩ := Option.isSome_iff_exists.mp ht
        rw [show cfg.agents = none from ha, show cfg.token = some single from hs] at hagents
        exact absurd hagents (by simp)
      · obtain ⟨spec, hs⟩ := Option.isSome_iff_exists.mp ha
        rw [show cfg.agents = some spec from hs] at hagents
        cases hparse : AgentRegistry.parse spec with
        | ok r => exact absurd hagents (by simp [hparse])
        | error e => exact absurd hagents (by simp [hparse])
  obtain ⟨agents, rfl⟩ := hsome
  have hagent : ∀ token, (agents.lookup token).isSome →
      trim token ∈ tokens ∧ minimumTokenBytes ≤ byteLength token :=
    fun token ht => configuredTokens_mem hts (bootAgents_accepts hagents ht)
  refine ⟨agents, rfl, ?_, ⟨q, burst, ?_, ?_⟩, ?_, ?_, fun token ht => (hagent token ht).2, ?_⟩
  · rcases configuredTokens_source hos with ⟨ht, _⟩ | ⟨_, hd⟩
    · exact Or.inr ht
    · refine Or.inl ?_
      cases deciders with
      | some r => rfl
      | none =>
        have hnone := bootDeciders_none hdeciders
        exact absurd hd (by simp [StartConfig.hostedSafety, hnone])
  · have hmax : max q 0 = q := max_eq_left hq.le
    simp only [limiterSettings, show cfg.rateLimitQps = some (.finite q) from hqps,
      show cfg.rateLimitBurst = some burst from hburst, Option.getD_some, F64.maxZero, hmax,
      F64.isPositive, hq, hb, decide_true, Bool.and_self, if_true]
  · simp only [RateLimiter.fromConfig, RateLimitConfig.isEnabled, hq, hb, decide_true,
      Bool.and_self, if_true, Option.isSome_some]
  · intro headers token t hs ht hr
    obtain ⟨_, other, ho, hconf⟩ := hoperator headers t hr
    obtain rfl := Option.some.inj (hs.symm.trans ho)
    exact hdisjoint _ (hagent token ht).1 (configuredTokens_mem hos hconf).1
  · intro headers hr
    exact (hoperator headers none hr).1 rfl
  · intro headers t hr
    obtain ⟨_, token, htoken, hconf⟩ := hoperator headers t hr
    exact ⟨token, htoken, (configuredTokens_mem hos hconf).2⟩

def sampleTexts : LibraryTexts where
  notJson _ := "expected value"
  notRequest _ := "expected value"
  debug s := "\"" ++ s ++ "\""

def vendorUrl (raw : String) : Except String UrlParts :=
  if raw = "https://mcp.vendor.net/rpc" then .ok ⟨"https", "", none, none, some "mcp.vendor.net"⟩
  else .error "relative URL without a base"

def hostedStart : StartConfig where
  deploymentProfile := .hosted
  token := some "agent-token-0123456789abcdef0123456789abcdef"
  agents := none
  decideToken := none
  deciders := some "acme: operator-token-0123456789abcdef0123456789abcdef"
  mode := .enforce
  verboseVerdicts := false
  rateLimitQps := some (.finite 10)
  rateLimitBurst := some 20
  ledgerPath := "/data/clavenar-lite.db"
  upstream := "https://mcp.vendor.net/rpc"
  upstreamAdapter := .mcpJsonRpcV1
  upstreamTimeout := maximumUpstreamTimeout

theorem hostedStart_runs : ∃ state, runStart vendorUrl sampleTexts hostedStart = .ok state := by
  have hok : (runStart vendorUrl sampleTexts hostedStart).isOk = true := by decide +kernel
  cases h : runStart vendorUrl sampleTexts hostedStart with
  | ok state => exact ⟨state, rfl⟩
  | error e =>
    rw [h] at hok
    exact absurd hok (by simp [Except.isOk, Except.toBool])

theorem hosted_separates_hostedStart :
    ∃ state, runStart vendorUrl sampleTexts hostedStart = .ok state ∧
      ∃ agents, state.agents = some agents ∧
        ∀ headers, resolveOperatorTenant state.deciders state.decideToken headers ≠ .ok none := by
  obtain ⟨state, h⟩ := hostedStart_runs
  obtain ⟨agents, hagents, _, _, _, hnone, _⟩ := hosted_separates vendorUrl rfl h
  exact ⟨state, h, agents, hagents, hnone⟩

end ClavenarLite
