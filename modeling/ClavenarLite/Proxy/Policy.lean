import ClavenarLite.Proxy.Heuristics
import ClavenarLite.Proxy.Velocity

/-! The policy engine: what it makes of the answers of the rules, and which
tier the verdict gets from them. -/

namespace ClavenarLite

open Bytes Fallible Keyed TextJson

inductive RegoValue
  | undefined
  | null
  | bool (b : Bool)
  | number (n : Number)
  | string (s : String)
  | array (items : List RegoValue)
  | set (items : List RegoValue)
  | object (members : List (String × RegoValue))

/-- The engine as the evaluation meets it: what it says to an input, and what to
each rule under it. -/
structure Engine where
  setInputJson : String → Except String Unit
  evalRule : String → Except String RegoValue

/-- What the worker that runs the engine comes to. -/
inductive Worker
  | unavailable
  | poisoned
  | failed (error : String)
  | runs (engine : Engine)

def RegoValue.str? : RegoValue → Option String
  | .string s => some s
  | _ => none

/-- Texts in the order of their bytes. -/
def atMostBytes (s t : String) : Bool := decide (utf8 s ≤ utf8 t)

def extractReasons (deny : RegoValue) : List String :=
  let out := match deny with
    | .set items => items.filterMap RegoValue.str?
    | .array items => items.filterMap RegoValue.str?
    | _ => []
  out.mergeSort atMostBytes

def denyWith (reason : String) : PolicyDecision := ⟨false, [reason], []⟩

def allowRule : String := "data.clavenar.authz.allow"

def denyRule : String := "data.clavenar.authz.deny"

def reviewRule : String := "data.clavenar.authz.review"

def evalLabelled (engine : Engine) (rule label : String) : Except String RegoValue :=
  (engine.evalRule rule).mapError fun error =>
    "Policy engine error (eval " ++ label ++ "): " ++ error

def RegoValue.isTrue : RegoValue → Bool
  | .bool b => b
  | _ => false

def evaluateRego (engine : Engine) (inputJson : String) : Except String PolicyDecision := do
  (engine.setInputJson inputJson).mapError fun error =>
    "Policy engine error (set_input): " ++ error
  let allowValue ← evalLabelled engine allowRule "allow"
  let denyValue ← evalLabelled engine denyRule "deny"
  let reviewValue ← evalLabelled engine reviewRule "review"
  let allow := allowValue.isTrue
  let reasons := extractReasons denyValue
  let reviewReasons := extractReasons reviewValue
  return { allow
           reasons := if allow && reasons.isEmpty && reviewReasons.isEmpty then
             reasons ++ ["Deterministic policy check passed."] else reasons
           reviewReasons }

/-- The live count, if the caller gave none. -/
def injectCount (tracker : VelocityTracker) (now : ℚ) (input : PolicyInput) :
    PolicyInput × VelocityTracker :=
  if input.recentRequestCount = 0 then
    match input.agentId with
    | some agentId =>
      let (count, tracker) := tracker.recordAndCount ⟨now, agentId⟩
      ({ input with recentRequestCount := count }, tracker)
    | none => (input, tracker)
  else (input, tracker)

/-- The decision of the worker on a serialized input. -/
def Worker.decide (worker : Worker) (inputJson : String) : PolicyDecision :=
  match worker with
  | .unavailable => denyWith "Policy engine worker is unavailable"
  | .poisoned => denyWith "Policy engine worker lock is poisoned"
  | .failed error => denyWith ("Policy engine worker failed: " ++ error)
  | .runs engine =>
    match evaluateRego engine inputJson with
    | .ok decision => decision
    | .error reason => denyWith reason

/-- `serialize` is the serializer derived for the input. -/
def evaluate (serialize : PolicyInput → Except String String) (worker : Worker) (now : ℚ)
    (input : PolicyInput) (tracker : VelocityTracker) : PolicyDecision × VelocityTracker :=
  let (effective, tracker) := injectCount tracker now input
  match serialize effective with
  | .error e => (denyWith ("Policy input serialize error: " ++ e), tracker)
  | .ok inputJson => (worker.decide inputJson, tracker)

variable {answer : RegoValue} {engine : Engine} {inputJson : String}

def RegoValue.members : RegoValue → List RegoValue
  | .set items => items
  | .array items => items
  | _ => []

/-- The answer is a set or an array with a text in it. -/
def RegoValue.Fires (answer : RegoValue) : Prop := ∃ s, RegoValue.string s ∈ answer.members

theorem extractReasons_eq (answer : RegoValue) :
    extractReasons answer = (answer.members.filterMap RegoValue.str?).mergeSort atMostBytes := by
  cases answer <;> rfl

theorem mem_extractReasons {s : String} :
    s ∈ extractReasons answer ↔ RegoValue.string s ∈ answer.members := by
  rw [extractReasons_eq, List.mem_mergeSort, List.mem_filterMap]
  constructor
  · rintro ⟨v, hv, hs⟩
    cases v with
    | string t =>
      obtain rfl : t = s := Option.some.inj hs
      exact hv
    | _ => cases hs
  · intro h
    exact ⟨_, h, rfl⟩

theorem extractReasons_nil : extractReasons answer = [] ↔ ¬ answer.Fires := by
  rw [List.eq_nil_iff_forall_not_mem]
  constructor
  · rintro h ⟨s, hs⟩
    exact h s (mem_extractReasons.mpr hs)
  · intro h s hs
    exact h ⟨s, mem_extractReasons.mp hs⟩

theorem RegoValue.isTrue_iff : answer.isTrue = true ↔ answer = .bool true := by
  cases answer with
  | bool b => simp [RegoValue.isTrue]
  | _ => simp [RegoValue.isTrue]

/-- The engine takes the input and answers every query. -/
structure Engine.Answers (engine : Engine) (inputJson : String)
    (allow deny review : RegoValue) : Prop where
  taken : engine.setInputJson inputJson = .ok ()
  allow : engine.evalRule allowRule = .ok allow
  deny : engine.evalRule denyRule = .ok deny
  review : engine.evalRule reviewRule = .ok review

/-- What the answers of the engine are turned into. -/
def decisionOf (allow deny review : RegoValue) : PolicyDecision where
  allow := allow.isTrue
  reasons :=
    if allow.isTrue && (extractReasons deny).isEmpty && (extractReasons review).isEmpty then
      extractReasons deny ++ ["Deterministic policy check passed."]
    else extractReasons deny
  reviewReasons := extractReasons review

theorem evaluateRego_ok {decision : PolicyDecision} :
    evaluateRego engine inputJson = .ok decision ↔ ∃ allow deny review,
      engine.Answers inputJson allow deny review ∧ decision = decisionOf allow deny review := by
  constructor
  · intro h
    obtain ⟨⟨⟩, hset, h⟩ := bind_ok h
    obtain ⟨allow, hallow, h⟩ := bind_ok h
    obtain ⟨deny, hdeny, h⟩ := bind_ok h
    obtain ⟨review, hreview, h⟩ := bind_ok h
    exact ⟨allow, deny, review,
      ⟨mapError_ok hset, mapError_ok hallow, mapError_ok hdeny, mapError_ok hreview⟩,
      (Except.ok.inj h).symm⟩
  · rintro ⟨allow, deny, review, h, rfl⟩
    simp only [evaluateRego, evalLabelled, h.taken, h.allow, h.deny, h.review, Except.mapError,
      ok_bind]
    rfl

variable {serialize : PolicyInput → Except String String} {worker : Worker} {now : ℚ}
  {input : PolicyInput} {tracker : VelocityTracker} {allow deny review : RegoValue}

/-- The evaluation meets no error, and the queries have these answers. -/
def Answers (serialize : PolicyInput → Except String String) (worker : Worker) (now : ℚ)
    (input : PolicyInput) (tracker : VelocityTracker) (allow deny review : RegoValue) : Prop :=
  ∃ inputJson engine, serialize (injectCount tracker now input).1 = .ok inputJson ∧
    worker = .runs engine ∧ engine.Answers inputJson allow deny review

/-- The evaluation meets an error: in the input, the worker, or a query. -/
def Errs (serialize : PolicyInput → Except String String) (worker : Worker) (now : ℚ)
    (input : PolicyInput) (tracker : VelocityTracker) : Prop :=
  ¬ ∃ allow deny review, Answers serialize worker now input tracker allow deny review

theorem evaluate_answers (h : Answers serialize worker now input tracker allow deny review) :
    (evaluate serialize worker now input tracker).1 = decisionOf allow deny review := by
  obtain ⟨json, engine, hjson, rfl, h⟩ := h
  have hrun := evaluateRego_ok.mpr ⟨allow, deny, review, h, rfl⟩
  simp only [evaluate, hjson, Worker.decide, hrun]

/-- An error denies. -/
theorem evaluate_errs (h : Errs serialize worker now input tracker) :
    (evaluate serialize worker now input tracker).1.allow = false := by
  cases hjson : serialize (injectCount tracker now input).1 with
  | error e => simp only [evaluate, hjson, denyWith]
  | ok json =>
    simp only [evaluate, hjson]
    cases worker with
    | unavailable | poisoned | failed => rfl
    | runs engine =>
      cases hrun : evaluateRego engine json with
      | error reason => simp only [Worker.decide, hrun, denyWith]
      | ok decision =>
        obtain ⟨allow, deny, review, hans, -⟩ := evaluateRego_ok.mp hrun
        exact absurd ⟨allow, deny, review, json, engine, hjson, rfl, hans⟩ h

/-- The documented table: what denies is red to every brain, and the rest is
yellow or green by the review. -/
structure TierTable (serialize : PolicyInput → Except String String) (worker : Worker) (now : ℚ)
    (input : PolicyInput) (tracker : VelocityTracker) : Prop where
  errs : Errs serialize worker now input tracker →
    ∀ brain, classify brain (evaluate serialize worker now input tracker).1 = .red
  denied : ∀ allow deny review, Answers serialize worker now input tracker allow deny review →
    allow ≠ .bool true ∨ deny.Fires →
      ∀ brain, classify brain (evaluate serialize worker now input tracker).1 = .red
  passed : ∀ deny review, Answers serialize worker now input tracker (.bool true) deny review →
    ¬ deny.Fires → ∀ brain : HeuristicVerdict, brain.authorized = true →
      (review.Fires →
        classify brain (evaluate serialize worker now input tracker).1 = .yellow) ∧
      (¬ review.Fires →
        classify brain (evaluate serialize worker now input tracker).1 = .green)

/-- The verdict on a call without signals. -/
def routineVerdict : HeuristicVerdict := inspect id "lookup" ""

/-- The decision reads a fired deny rule only as a reason: where the rules
allow too, the table fails. -/
theorem tier_table_iff (serialize : PolicyInput → Except String String) (worker : Worker)
    (now : ℚ) (input : PolicyInput) (tracker : VelocityTracker) :
    TierTable serialize worker now input tracker ↔
      ¬ ∃ deny review, Answers serialize worker now input tracker (.bool true) deny review ∧
        deny.Fires := by
  constructor
  · rintro table ⟨deny, review, h, hfires⟩
    have hred := table.denied _ _ _ h (Or.inr hfires) routineVerdict
    rw [evaluate_answers h, classify_red] at hred
    rcases hred with hbrain | hallow
    · exact Bool.noConfusion hbrain
    · exact Bool.noConfusion hallow
  · intro hfree
    constructor
    · intro herrs brain
      exact classify_red.mpr (Or.inr (evaluate_errs herrs))
    · intro allow deny review h hdeny brain
      rcases hdeny with hallow | hfires
      · rw [evaluate_answers h, classify_red]
        exact Or.inr (Bool.eq_false_of_not_eq_true (mt RegoValue.isTrue_iff.mp hallow))
      · have hallow : allow ≠ .bool true := by
          rintro rfl
          exact hfree ⟨deny, review, h, hfires⟩
        rw [evaluate_answers h, classify_red]
        exact Or.inr (Bool.eq_false_of_not_eq_true (mt RegoValue.isTrue_iff.mp hallow))
    · intro deny review h hquiet brain hbrain
      rw [evaluate_answers h, classify_yellow, classify_green]
      constructor
      · intro hfires
        exact ⟨hbrain, rfl, fun hnil => extractReasons_nil.mp hnil hfires⟩
      · intro hnone
        exact ⟨hbrain, rfl, extractReasons_nil.mpr hnone⟩

/-- Rules that allow every request and deny it as well. -/
def permissive : Engine where
  setInputJson := fun _ => .ok ()
  evalRule := fun rule =>
    if rule = allowRule then .ok (.bool true)
    else if rule = denyRule then .ok (.set [.string "Violation: Direct shell access is prohibited."])
    else .ok (.set [])

theorem permissive_answers : permissive.Answers inputJson (.bool true)
    (.set [.string "Violation: Direct shell access is prohibited."]) (.set []) where
  taken := rfl
  allow := by simp [permissive]
  deny := by simp [permissive, allowRule, denyRule]
  review := by simp [permissive, allowRule, denyRule, reviewRule]

def shellInput : PolicyInput where
  toolType := "shell_exec"
  lastTool := none
  intentScore := dangerousToolScore
  currentTime := none
  agentId := none
  method := none
  recentRequestCount := 1
  correlationId := none

def shellInputJson : String :=
  "\x7b\"tool_type\":\"shell_exec\",\"agent_history\":\x7b\"last_tool\":null\x7d," ++
  "\"intent_score\":0.5,\"current_time\":null,\"agent_id\":null,\"method\":null," ++
  "\"recent_request_count\":1,\"correlation_id\":null\x7d"

/-- A fired deny rule beside an allow rule: the tier is green. -/
theorem denied_and_green : ∃ deny review,
    Answers (fun _ => .ok shellInputJson) (.runs permissive) 0 shellInput (.withWindow 60)
      (.bool true) deny review ∧ deny.Fires ∧
    classify routineVerdict
      (evaluate (fun _ => .ok shellInputJson) (.runs permissive) 0 shellInput
        (.withWindow 60)).1 = .green := by
  have h : Answers (fun _ => .ok shellInputJson) (.runs permissive) 0 shellInput (.withWindow 60)
      (.bool true) (.set [.string "Violation: Direct shell access is prohibited."]) (.set []) :=
    ⟨shellInputJson, permissive, rfl, rfl, permissive_answers⟩
  refine ⟨_, _, h, ⟨_, List.mem_singleton_self _⟩, ?_⟩
  rw [evaluate_answers h, classify_green]
  have hquiet : ¬ (RegoValue.set []).Fires := by
    rintro ⟨s, hs⟩
    exact List.not_mem_nil hs
  exact ⟨by decide, rfl, extractReasons_nil.mpr hquiet⟩

end ClavenarLite
