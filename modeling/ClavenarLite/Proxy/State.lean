import ClavenarLite.Callback.Target
import ClavenarLite.Ledger.Rows
import ClavenarLite.Proxy.HostedSafety

/-! What the handlers share: the configuration they read, the responses they
give, and the notifications they send off. -/

namespace ClavenarLite

open Bytes Rfc3339 TextJson

inductive Body
  | text (s : String)
  | json (document : Json)
  | bytes (bs : Octets)

structure Response where
  status : UInt16
  headers : List (String × String)
  body : Body

def ClavenarMode.asStr : ClavenarMode → String
  | .enforce => "enforce"
  | .observe => "observe"

def correlationHeader : String := "X-Clavenar-Correlation-Id"

def wouldDenyHeader : String := "X-Clavenar-Would-Deny"

def wouldPendHeader : String := "X-Clavenar-Would-Pend"

def clavenarHeaders (correlationId : String) (mode : ClavenarMode) (wouldDeny wouldPend : Bool) :
    List (String × String) :=
  [(correlationHeader, correlationId), ("X-Clavenar-Mode", mode.asStr)] ++
    (if wouldDeny then [(wouldDenyHeader, "true")] else []) ++
    (if wouldPend then [(wouldPendHeader, "true")] else [])

/-- A response that is neither flagged as a would-be denial nor as a would-be park. -/
def plainResponse (status : UInt16) (correlationId : String) (mode : ClavenarMode) (body : Body) :
    Response where
  status := status
  headers := clavenarHeaders correlationId mode false false
  body := body

def Response.has (r : Response) (name : String) : Prop := name ∈ r.headers.map Prod.fst

instance (r : Response) (name : String) : Decidable (r.has name) := by
  unfold Response.has
  infer_instance

/-- `instanceId` is the ledger's; it names the process that holds the state. -/
structure AppState where
  instanceId : String
  agents : Option AgentRegistry
  deciders : Option TenantRegistry
  decideToken : Option String
  mode : ClavenarMode
  upstreamAdapter : UpstreamAdapter
  callbackAllowlist : List String
  slackWebhookUrl : Option String
  webhookUrl : Option String
  rateLimited : Bool
  verboseVerdicts : Bool

inductive EventKind
  | allow
  | deny
  | park
  | decideAllow
  | decideDeny
  | wouldDeny
  | wouldPark
  deriving DecidableEq

def EventKind.asStr : EventKind → String
  | .allow => "allow"
  | .deny => "deny"
  | .park => "park"
  | .decideAllow => "decide_allow"
  | .decideDeny => "decide_deny"
  | .wouldDeny => "would_deny"
  | .wouldPark => "would_park"

structure WebhookEvent where
  event : EventKind
  correlationId : String
  agentId : String
  toolType : String
  method : String
  intentCategory : String
  reasoning : String
  reviewReasons : List String
  mode : ClavenarMode
  ts : Clock

structure CallbackBody where
  correlationId : String
  decision : String
  deciderNote : Option String
  decidedAt : Option String

inductive Notification
  | slack (url : String) (parked : Pending)
  | webhook (url : String) (event : WebhookEvent)
  | callback (url : String) (allowlist : List String) (body : CallbackBody)

def maybeFireWebhook (state : AppState) (event : WebhookEvent) : List Notification :=
  state.webhookUrl.toList.map fun url => .webhook url event

def pendingAuthorizationContract : String := "clavenar.pending-authorization/v1"

def jsonStrings (texts : List String) : Json := .arr (texts.map .str)

def jsonOption (text : Option String) : Json := text.elim .null .str

def Pending.status (p : Pending) : String :=
  match p.decision with
  | none => "pending"
  | some decision =>
    if decision = "allow" then "approved" else if decision = "deny" then "denied" else "invalid"

def pendingView (p : Pending) : Json :=
  .obj [("contract", .str pendingAuthorizationContract), ("status", .str p.status),
    ("pending_id", .str p.correlationId), ("correlation_id", .str p.correlationId),
    ("tenant", .str p.tenant), ("agent_id", .str p.agentId), ("tool_type", .str p.toolType),
    ("method", .str p.method), ("review_reasons", jsonStrings p.reviewReasons),
    ("requested_at", .str (toRfc3339 p.requestedAt)),
    ("decided_at", jsonOption (p.decidedAt.map toRfc3339)), ("decision", jsonOption p.decision),
    ("decider_note", jsonOption p.deciderNote)]

end ClavenarLite
