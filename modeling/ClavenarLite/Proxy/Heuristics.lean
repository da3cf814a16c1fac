import ClavenarLite.Ledger.Rows
import ClavenarLite.Lib.Fallible

/-! The verdict on a tool call: the embedded heuristics, the policy's decision,
and the tier the two make together. -/

namespace ClavenarLite

open TextJson

structure HeuristicVerdict where
  authorized : Bool
  intentCategory : String
  intentScore : Binary64
  reasoning : String
  injectionDetected : Bool
  injectionConfidence : Binary64
  matchedSignals : List String

def injectionNeedles : List String :=
  ["ignore previous instructions", "ignore all previous instructions", "ignore all instructions",
    "disregard previous instructions", "forget your instructions", "forget everything you know",
    "you are now", "act as", "system prompt", "reveal your prompt", "developer mode", "jailbreak",
    "do anything now", "dan mode"]

def dangerousToolNames : List String :=
  ["shell_exec", "sql_execute", "rm_rf", "drop_database", "exfiltrate"]

/-- A score is the binary64 number that is written like the source's constant. -/
def injectionConfidence : Nat → Binary64
  | 0 => ⟨0x0000000000000000#64, by decide⟩
  | 1 => ⟨0x3FE3333333333333#64, by decide⟩
  | 2 => ⟨0x3FEB333333333333#64, by decide⟩
  | _ => ⟨0x3FEE666666666666#64, by decide⟩

def injectionScore : Binary64 := ⟨0x3FECCCCCCCCCCCCD#64, by decide⟩

def dangerousToolScore : Binary64 := ⟨0x3FE0000000000000#64, by decide⟩

def routineScore : Binary64 := ⟨0x3FA999999999999A#64, by decide⟩

def contains (needle text : String) : Bool := decide (needle.toList <:+: text.toList)

/-- The needles in the text; `lowercase` is the standard library's. -/
def detectInjection (lowercase : String → String) (text : String) : List String :=
  injectionNeedles.filter fun needle => contains needle (lowercase text)

def inspect (lowercase : String → String) (toolType payloadText : String) : HeuristicVerdict :=
  let matched := detectInjection lowercase payloadText
  let detected := !matched.isEmpty
  let dangerousTool := dangerousToolNames.contains toolType
  let (score, category, reasoning) :=
    if detected then
      (injectionScore, "PromptInjection", "Heuristic injection match: " ++ ", ".intercalate matched)
    else if dangerousTool then
      (dangerousToolScore, "DangerousTool",
        "Tool name '" ++ toolType ++ "' is on the dangerous-tool denylist.")
    else (routineScore, "Routine", "No heuristic signals matched; treating as routine.")
  { authorized := !detected && !dangerousTool
    intentCategory := category
    intentScore := score
    reasoning := reasoning
    injectionDetected := detected
    injectionConfidence := injectionConfidence matched.length
    matchedSignals := matched }

structure PolicyInput where
  toolType : String
  lastTool : Option String
  intentScore : Binary64
  currentTime : Option String
  agentId : Option String
  method : Option String
  recentRequestCount : Nat
  correlationId : Option String

structure PolicyDecision where
  allow : Bool
  reasons : List String
  reviewReasons : List String

def PolicyDecision.json (policy : PolicyDecision) : Value :=
  .object [("allow", .bool policy.allow), ("reasons", .arr (policy.reasons.map .str)),
    ("review_reasons", .arr (policy.reviewReasons.map .str))]

inductive Tier
  | green
  | yellow
  | red
  deriving DecidableEq

def classify (brain : HeuristicVerdict) (policy : PolicyDecision) : Tier :=
  if !brain.authorized || !policy.allow then .red
  else if !policy.reviewReasons.isEmpty then .yellow
  else .green

def buildReasoning (brain : HeuristicVerdict) (policy : PolicyDecision) : String :=
  let policyReasons :=
    if policy.reasons.isEmpty then "no policy reasons" else " | ".intercalate policy.reasons
  let review :=
    if policy.reviewReasons.isEmpty then ""
    else " | review: " ++ ", ".intercalate policy.reviewReasons
  "brain[" ++ brain.intentCategory ++ "]: " ++ brain.reasoning ++ " | policy: " ++ policyReasons ++
    review

def logIntent (brain : HeuristicVerdict) (policy : PolicyDecision) : String :=
  match classify brain policy with
  | .green => brain.intentCategory
  | .yellow => "PendingReview"
  | .red =>
    if brain.injectionDetected then "PromptInjection"
    else if !policy.allow then "PolicyDeny"
    else "BrainDeny"

/-- The detectors' signals that a verbose verdict carries. -/
def verdictBreakdown (brain : HeuristicVerdict) : Json :=
  .obj [("detectors", .arr
    [.obj [("detector", .str "injection"), ("score", .num (.float brain.injectionConfidence)),
      ("flagged", .bool brain.injectionDetected)],
     .obj [("detector", .str "intent"), ("score", .num (.float brain.intentScore))]])]

variable {brain : HeuristicVerdict} {policy : PolicyDecision} {lowercase : String → String}

theorem classify_red : classify brain policy = .red ↔ brain.authorized = false ∨ policy.allow = false := by
  unfold classify
  cases brain.authorized <;> cases policy.allow <;> simp
  split_ifs <;> simp

theorem classify_yellow : classify brain policy = .yellow ↔
    brain.authorized = true ∧ policy.allow = true ∧ policy.reviewReasons ≠ [] := by
  unfold classify
  cases brain.authorized <;> cases policy.allow <;> simp

theorem classify_green : classify brain policy = .green ↔
    brain.authorized = true ∧ policy.allow = true ∧ policy.reviewReasons = [] := by
  unfold classify
  cases brain.authorized <;> cases policy.allow <;> simp

theorem inspect_routine {toolType text : String}
    (h : (inspect lowercase toolType text).authorized = true) :
    (inspect lowercase toolType text).intentCategory = "Routine" := by
  simp only [inspect, Bool.and_eq_true, Bool.not_eq_true'] at h
  simp only [inspect]
  rw [if_neg (Bool.eq_false_iff.mp h.1), if_neg (Bool.eq_false_iff.mp h.2)]

/-- The category that is logged tells the tiers apart. -/
theorem logIntent_of_tier {toolType text : String}
    (hb : brain = inspect lowercase toolType text) :
    logIntent brain policy = match classify brain policy with
      | .green => "Routine"
      | .yellow => "PendingReview"
      | .red =>
        if brain.injectionDetected then "PromptInjection"
        else if !policy.allow then "PolicyDeny"
        else "BrainDeny" := by
  unfold logIntent
  cases ht : classify brain policy with
  | green =>
    obtain ⟨hauth, _, _⟩ := classify_green.mp ht
    subst hb
    exact inspect_routine hauth
  | yellow => rfl
  | red => rfl

end ClavenarLite
