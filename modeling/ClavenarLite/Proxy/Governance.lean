import ClavenarLite.Lib.Rules
import ClavenarLite.Lib.TimeOrder
import ClavenarLite.Proxy.Policy

/-! The baseline policy that is compiled into the executable: what it denies, what it
sends to a review, and the tier that every request gets from it. -/

namespace ClavenarLite

open Bytes Fallible Keyed Rfc3339 Rules TextJson

def epoch : DateTime := ⟨1970, 1, 1, 0, 0⟩

def secondsOfDay (ns : Int) : Nat := (ns / second % 86400).toNat

/-- Hours, minutes and seconds. -/
def clock (ns : Int) : Nat × Nat × Nat :=
  (secondsOfDay ns / 3600, secondsOfDay ns / 60 % 60, secondsOfDay ns % 60)

def weekdays : List String :=
  ["Thursday", "Friday", "Saturday", "Sunday", "Monday", "Tuesday", "Wednesday"]

/-- The time line starts on a Thursday. -/
def weekday (ns : Int) : String := weekdays.getD (ns / second / 86400 % 7).toNat ""

def hmsNow (ns : Int) : String :=
  ":".intercalate ([(clock ns).1, (clock ns).2.1, (clock ns).2.2].map fun n =>
    String.ofList (fixedDigits 2 n))

def isBusinessHours (ns : Int) : Bool :=
  decide (9 ≤ (clock ns).1) && decide ((clock ns).1 < 17) && weekday ns != "Saturday" &&
    weekday ns != "Sunday"

/-- What the rules take from their engine. -/
structure Builtins where
  /-- `%.2f` of a number. -/
  twoDecimals : Binary64 → String
  /-- The instant that is given in the input, or the engine's own if there is none. -/
  instant : Option String → Except String Clock

variable (B : Builtins)

abbrev PolicyRule := Rule PolicyInput String String

def toolRule (tool msg : String) : PolicyRule := given (fun i => i.toolType = tool) fun _ => msg

def denySqlExecute : PolicyRule := toolRule "sql_execute"
  "Violation: Direct execution of SQL queries is prohibited for this agent."

def denyShellExec : PolicyRule := toolRule "shell_exec" "Violation: Direct shell access is prohibited."

/-- The number that is written `0.2`. -/
def safetyThreshold : Binary64 := ⟨0x3FC999999999999A#64, by decide⟩

/-- A positive number is at most another if its bits are, and the other is not negative. -/
def reaches (threshold score : Binary64) : Bool :=
  !score.bits.msb && decide (threshold.bits ≤ score.bits)

def denyIntentScore : PolicyRule := given (fun i => reaches safetyThreshold i.intentScore = true)
  fun i => "Violation: Intent score " ++ B.twoDecimals i.intentScore ++
    " exceeds safety threshold 0.2."

def nsNow (input : PolicyInput) : Except String Int :=
  (B.instant input.currentTime).map fun now : Clock => nanos now - nanos epoch

def bulkExportMsg (ns : Int) : String :=
  "Violation: Bulk export attempted at " ++ hmsNow ns ++ " on " ++ weekday ns ++
    " (UTC). High-risk operations are restricted to business hours (Mon-Fri, 09:00-17:00 UTC)."

/-- The time is looked up for this tool alone. -/
def denyBulkExport : PolicyRule := fun input =>
  if input.toolType = "bulk_export" then do
    let ns ← nsNow B input
    return if isBusinessHours ns then none else some (bulkExportMsg ns)
  else .ok none

def recentRequestLimit : Nat := 100

def denyVelocity : PolicyRule := given (fun i => recentRequestLimit < i.recentRequestCount)
  fun i => "Violation: Token velocity exceeded — " ++ toString i.recentRequestCount ++
    " requests in the last 60s (limit " ++ toString recentRequestLimit ++
    "). Possible recursive loop / denial-of-wallet attack."

def denyRules : List PolicyRule :=
  [denySqlExecute, denyShellExec, denyIntentScore B, denyBulkExport B, denyVelocity]

def reviewWireTransfer : PolicyRule := toolRule "wire_transfer"
  "Review: Wire transfers require human approval before execution."

def reviewRules : List PolicyRule := [reviewWireTransfer]

def textSet (texts : List String) : RegoValue :=
  .set ((texts.dedup.mergeSort atMostBytes).map .string)

/-- An engine that was loaded with the policy and has taken the input. -/
def governing (input : PolicyInput) : Engine where
  setInputJson _ := .ok ()
  evalRule rule :=
    if rule = allowRule then (fired (denyRules B) input).map fun msgs => .bool msgs.isEmpty
    else if rule = denyRule then (fired (denyRules B) input).map textSet
    else if rule = reviewRule then (fired reviewRules input).map textSet
    else .error ("not a valid rule path: " ++ rule)

/-- An engine of the worker that answers the queries answers them by the policy. -/
def Worker.Governs (worker : Worker) (input : PolicyInput) : Prop :=
  ∀ engine, worker = .runs engine → ∀ json allow deny review,
    engine.Answers json allow deny review → (governing B input).Answers json allow deny review

/-- A weekday between nine and five. -/
def BusinessHours (t : Clock) : Prop :=
  9 * 3600 ≤ t.val.secs ∧ t.val.secs < 17 * 3600 ∧ (dayNumber t.val + 4) % 7 < 5

inductive Denied (input : PolicyInput) : Prop
  | sql (h : input.toolType = "sql_execute")
  | shell (h : input.toolType = "shell_exec")
  | intent (h : reaches safetyThreshold input.intentScore = true)
  | bulk {now : Clock} (h : input.toolType = "bulk_export")
      (hnow : B.instant input.currentTime = .ok now) (hclosed : ¬ BusinessHours now)
  | velocity (h : 100 < input.recentRequestCount)

theorem dayNumber_epoch : dayNumber epoch = 719529 := by decide +kernel

theorem seconds_nanos {t : DateTime} (h : t.frac < second) :
    (nanos t - nanos epoch) / second = (dayNumber t - 719529) * 86400 + t.secs := by
  have hepoch : nanos epoch = 719529 * 86400 * second := by
    rw [nanos, dayNumber_epoch]
    rfl
  rw [hepoch, nanos]
  unfold second at *
  omega

theorem weekday_ne {day : Int} (h0 : 0 ≤ day) (h7 : day < 7) :
    (weekdays.getD day.toNat "" ≠ "Saturday" ∧ weekdays.getD day.toNat "" ≠ "Sunday") ↔
      day ≠ 2 ∧ day ≠ 3 := by
  have hall : ∀ k : Fin 7, (weekdays.getD k "" ≠ "Saturday" ∧ weekdays.getD k "" ≠ "Sunday") ↔
      k.val ≠ 2 ∧ k.val ≠ 3 := by decide
  have hday := hall ⟨day.toNat, by omega⟩
  rw [hday]
  simp only
  omega

/-- The clock of the rules shows the time of day and the day of the week. -/
theorem isBusinessHours_nanos (t : Clock) :
    isBusinessHours (nanos t - nanos epoch) = true ↔ BusinessHours t := by
  have hsecs : t.val.secs < 86400 := t.property.decoded.secs
  have hseconds := seconds_nanos t.property.frac_lt
  have hday : secondsOfDay (nanos t - nanos epoch) = t.val.secs := by
    rw [secondsOfDay, hseconds]
    omega
  have hdays : (nanos t - nanos epoch) / second / 86400 = dayNumber t.val - 719529 := by
    rw [hseconds]
    omega
  have hweek : (weekday (nanos t - nanos epoch) ≠ "Saturday" ∧
      weekday (nanos t - nanos epoch) ≠ "Sunday") ↔ (dayNumber t.val + 4) % 7 < 5 := by
    rw [weekday, hdays, weekday_ne (by omega) (by omega)]
    omega
  simp only [isBusinessHours, clock, hday, Bool.and_eq_true, decide_eq_true_eq, bne_iff_ne]
  rw [and_assoc, hweek, BusinessHours, and_assoc]
  constructor
  · rintro ⟨h9, h17, hw⟩
    exact ⟨by omega, by omega, hw⟩
  · rintro ⟨h9, h17, hw⟩
    exact ⟨by omega, by omega, hw⟩

section Given

variable {B} {input : PolicyInput}

theorem toolRule_some {tool msg text : String} :
    toolRule tool msg input = .ok (some text) ↔ input.toolType = tool ∧ msg = text := given_some

theorem denyBulkExport_some {msg : String} :
    denyBulkExport B input = .ok (some msg) ↔ input.toolType = "bulk_export" ∧
      ∃ now, B.instant input.currentTime = .ok now ∧ ¬ BusinessHours now ∧
        bulkExportMsg (nanos now - nanos epoch) = msg := by
  by_cases htool : input.toolType = "bulk_export"
  · cases hnow : B.instant input.currentTime with
    | error e => simp [denyBulkExport, nsNow, htool, hnow, Except.map, bind, Except.bind]
    | ok now =>
      by_cases hopen : BusinessHours now
      · have hb := (isBusinessHours_nanos now).mpr hopen
        simp [denyBulkExport, nsNow, htool, hnow, Except.map, hb, hopen, pure, Except.pure]
      · have hb := mt (isBusinessHours_nanos now).mp hopen
        simp [denyBulkExport, nsNow, htool, hnow, Except.map, hb, hopen, pure, Except.pure]
  · simp [denyBulkExport, htool]

/-- Some rule fires exactly on what is denied. -/
theorem denied_iff : (∃ rule ∈ denyRules B, ∃ msg, rule input = .ok (some msg)) ↔
    Denied B input := by
  constructor
  · rintro ⟨rule, hrule, msg, hmsg⟩
    simp only [denyRules, List.mem_cons, List.not_mem_nil, or_false] at hrule
    rcases hrule with rfl | rfl | rfl | rfl | rfl
    · exact .sql (toolRule_some.mp hmsg).1
    · exact .shell (toolRule_some.mp hmsg).1
    · exact .intent (given_some.mp hmsg).1
    · obtain ⟨htool, now, hnow, hclosed, _⟩ := denyBulkExport_some.mp hmsg
      exact .bulk htool hnow hclosed
    · exact .velocity (given_some.mp hmsg).1
  · intro h
    cases h with
    | sql h => exact ⟨denySqlExecute, by simp [denyRules], _, toolRule_some.mpr ⟨h, rfl⟩⟩
    | shell h => exact ⟨denyShellExec, by simp [denyRules], _, toolRule_some.mpr ⟨h, rfl⟩⟩
    | intent h => exact ⟨denyIntentScore B, by simp [denyRules], _, given_some.mpr ⟨h, rfl⟩⟩
    | bulk h hnow hclosed =>
      exact ⟨denyBulkExport B, by simp [denyRules], _,
        denyBulkExport_some.mpr ⟨h, _, hnow, hclosed, rfl⟩⟩
    | velocity h => exact ⟨denyVelocity, by simp [denyRules], _, given_some.mpr ⟨h, rfl⟩⟩

theorem fired_review : fired reviewRules input = .ok
    (if input.toolType = "wire_transfer" then
      ["Review: Wire transfers require human approval before execution."] else []) := by
  by_cases h : input.toolType = "wire_transfer"
  · simp [fired, reviewRules, reviewWireTransfer, toolRule, given, h, Except.map, pure,
      Except.pure, bind, Except.bind]
  · simp [fired, reviewRules, reviewWireTransfer, toolRule, given, h, Except.map, pure,
      Except.pure, bind, Except.bind]

theorem governing_answers {json : String} {allow deny review : RegoValue}
    (h : (governing B input).Answers json allow deny review) : ∃ msgs reviews,
      fired (denyRules B) input = .ok msgs ∧ fired reviewRules input = .ok reviews ∧
        allow = .bool msgs.isEmpty ∧ deny = textSet msgs ∧ review = textSet reviews := by
  have hallow : (fired (denyRules B) input).map (fun msgs => RegoValue.bool msgs.isEmpty) =
      .ok allow := h.allow
  have hdeny : (fired (denyRules B) input).map textSet = .ok deny := h.deny
  have hreview : (fired reviewRules input).map textSet = .ok review := h.review
  cases hm : fired (denyRules B) input with
  | error e => exact absurd hallow (by simp [hm, Except.map])
  | ok msgs =>
    rw [hm] at hallow hdeny
    rw [fired_review] at hreview ⊢
    exact ⟨msgs, _, rfl, rfl, (Except.ok.inj hallow).symm, (Except.ok.inj hdeny).symm,
      (Except.ok.inj hreview).symm⟩

theorem mem_textSet {msgs : List String} {msg : String} :
    msg ∈ extractReasons (textSet msgs) ↔ msg ∈ msgs := by
  rw [mem_extractReasons]
  simp [textSet, RegoValue.members, List.mem_mergeSort]

theorem textSet_nil {msgs : List String} : extractReasons (textSet msgs) = [] ↔ msgs = [] := by
  simp only [List.eq_nil_iff_forall_not_mem, mem_textSet]

end Given

section Tiers

variable {B} {serialize : PolicyInput → Except String String} {worker : Worker} {now : ℚ}
  {input : PolicyInput} {tracker : VelocityTracker} {allow deny review : RegoValue}

/-- The decision of an evaluation that meets no error. -/
theorem governed_decision (hg : worker.Governs B (injectCount tracker now input).1)
    (h : Answers serialize worker now input tracker allow deny review) : ∃ msgs reviews,
      fired (denyRules B) (injectCount tracker now input).1 = .ok msgs ∧
      fired reviewRules (injectCount tracker now input).1 = .ok reviews ∧
      (evaluate serialize worker now input tracker).1 =
        decisionOf (.bool msgs.isEmpty) (textSet msgs) (textSet reviews) := by
  obtain ⟨json, engine, hjson, rfl, hanswers⟩ := id h
  obtain ⟨msgs, reviews, hdeny, hreview, rfl, rfl, rfl⟩ :=
    governing_answers (hg engine rfl json _ _ _ hanswers)
  exact ⟨msgs, reviews, hdeny, hreview, evaluate_answers h⟩

theorem reviewed_iff {reviews : List String} (h : fired reviewRules input = .ok reviews) :
    extractReasons (textSet reviews) ≠ [] ↔ input.toolType = "wire_transfer" := by
  rw [fired_review] at h
  obtain rfl := Except.ok.inj h
  rw [Ne, textSet_nil]
  split_ifs with htool
  · simp [htool]
  · simp [htool]

/-- What is allowed: nothing went wrong, and nothing is denied. -/
theorem governed_allow (hg : worker.Governs B (injectCount tracker now input).1) :
    (evaluate serialize worker now input tracker).1.allow = true ↔
      ¬ Errs serialize worker now input tracker ∧ ¬ Denied B (injectCount tracker now input).1 := by
  by_cases herrs : Errs serialize worker now input tracker
  · simp [herrs, evaluate_errs herrs]
  · obtain ⟨allow, deny, review, h⟩ := not_not.mp herrs
    obtain ⟨msgs, reviews, hmsgs, _, hdecision⟩ := governed_decision hg h
    have hfires : msgs = [] ↔ ¬ Denied B (injectCount tracker now input).1 := by
      rw [fired_eq_nil hmsgs, ← denied_iff]
      simp
    simp [hdecision, decisionOf, RegoValue.isTrue, hfires, herrs]

theorem governed_review (hg : worker.Governs B (injectCount tracker now input).1)
    (herrs : ¬ Errs serialize worker now input tracker) :
    (evaluate serialize worker now input tracker).1.reviewReasons ≠ [] ↔
      (injectCount tracker now input).1.toolType = "wire_transfer" := by
  obtain ⟨allow, deny, review, h⟩ := not_not.mp herrs
  obtain ⟨msgs, reviews, _, hreviews, hdecision⟩ := governed_decision hg h
  rw [← reviewed_iff hreviews, hdecision]
  rfl

/-- A bulk export that is allowed is allowed at some time. -/
theorem governed_hours (hg : worker.Governs B (injectCount tracker now input).1)
    (hallow : (evaluate serialize worker now input tracker).1.allow = true)
    (htool : (injectCount tracker now input).1.toolType = "bulk_export") :
    ∃ t, B.instant (injectCount tracker now input).1.currentTime = .ok t ∧ BusinessHours t := by
  obtain ⟨herrs, hnot⟩ := (governed_allow hg).mp hallow
  obtain ⟨allow, deny, review, h⟩ := not_not.mp herrs
  obtain ⟨msgs, _, hmsgs, _, _⟩ := governed_decision hg h
  obtain ⟨found, hfound, -⟩ := fired_ok hmsgs
  have hrule : denyBulkExport B ∈ denyRules B := by simp [denyRules]
  obtain ⟨answer, -, hanswer⟩ := mapM_ok hfound _ hrule
  cases hnow : B.instant (injectCount tracker now input).1.currentTime with
  | error e =>
    simp [denyBulkExport, nsNow, htool, hnow, Except.map, bind, Except.bind] at hanswer
  | ok t => exact ⟨t, rfl, not_not.mp fun hclosed => hnot (.bulk htool hnow hclosed)⟩

/-- The texts of the rules that fired are the reasons for a denial. -/
theorem governed_reasons (hg : worker.Governs B (injectCount tracker now input).1)
    (herrs : ¬ Errs serialize worker now input tracker)
    (hdenied : Denied B (injectCount tracker now input).1) (msg : String) :
    msg ∈ (evaluate serialize worker now input tracker).1.reasons ↔
      ∃ rule ∈ denyRules B, rule (injectCount tracker now input).1 = .ok (some msg) := by
  obtain ⟨allow, deny, review, h⟩ := not_not.mp herrs
  obtain ⟨msgs, reviews, hmsgs, _, hdecision⟩ := governed_decision hg h
  have hsome : msgs.isEmpty = false := by
    rw [Bool.eq_false_iff, Ne, List.isEmpty_iff, fired_eq_nil hmsgs]
    obtain ⟨rule, hrule, msg, hmsg⟩ := denied_iff.mpr hdenied
    exact fun hnone => hnone rule hrule msg hmsg
  have hreasons : (evaluate serialize worker now input tracker).1.reasons =
      extractReasons (textSet msgs) := by
    simp [hdecision, decisionOf, RegoValue.isTrue, hsome]
  rw [hreasons, mem_textSet, mem_fired hmsgs]

theorem evaluate_tracker :
    (evaluate serialize worker now input tracker).2 = (injectCount tracker now input).2 := by
  unfold evaluate
  generalize injectCount tracker now input = injected
  obtain ⟨effective, tracker⟩ := injected
  simp only
  cases serialize effective with
  | error e => rfl
  | ok json => rfl

/-- The tier of every request under the baseline policy, and the reasons that are given
for it: an error denies, a rule that fires denies, and what is left of the wire
transfers is put under review. -/
theorem governance_table (hg : worker.Governs B (injectCount tracker now input).1)
    (brain : HeuristicVerdict) :
    let effective := (injectCount tracker now input).1
    let decision := (evaluate serialize worker now input tracker).1
    let errs := Errs serialize worker now input tracker
    (classify brain decision = .red ↔
      brain.authorized = false ∨ errs ∨ Denied B effective) ∧
    (classify brain decision = .yellow ↔ brain.authorized = true ∧ ¬ errs ∧
      ¬ Denied B effective ∧ effective.toolType = "wire_transfer") ∧
    (classify brain decision = .green ↔ brain.authorized = true ∧ ¬ errs ∧
      ¬ Denied B effective ∧ effective.toolType ≠ "wire_transfer") ∧
    (¬ errs → Denied B effective → ∀ msg, msg ∈ decision.reasons ↔
      ∃ rule ∈ denyRules B, rule effective = .ok (some msg)) := by
  intro effective decision errs
  have hallow : decision.allow = true ↔ ¬ errs ∧ ¬ Denied B effective := governed_allow hg
  have hreview : ¬ errs → (decision.reviewReasons ≠ [] ↔ effective.toolType = "wire_transfer") :=
    governed_review hg
  refine ⟨?_, ?_, ?_, governed_reasons hg⟩
  · rw [classify_red, Bool.eq_false_iff (b := decision.allow), Ne, hallow]
    tauto
  · rw [classify_yellow, hallow]
    tauto
  · rw [classify_green, hallow]
    tauto

/-- The baseline policy allows only what no rule of it denies. -/
theorem governed_exclusive (hg : worker.Governs B (injectCount tracker now input).1) :
    ¬ ∃ deny review, Answers serialize worker now input tracker (.bool true) deny review ∧
      deny.Fires := by
  rintro ⟨deny, review, ⟨json, engine, -, rfl, hanswers⟩, hfires⟩
  obtain ⟨msgs, _, _, _, hallow, rfl, _⟩ := governing_answers (hg engine rfl json _ _ _ hanswers)
  have hnone : msgs = [] := List.isEmpty_iff.mp (RegoValue.bool.inj hallow).symm
  exact extractReasons_nil.mp (textSet_nil.mpr hnone) hfires

/-- The policy's own engine answers, if it can tell the time of a bulk export. -/
theorem governing_answered
    (h : (injectCount tracker now input).1.toolType = "bulk_export" →
      ∃ t, B.instant (injectCount tracker now input).1.currentTime = .ok t) :
    ¬ Errs (fun _ => .ok "") (.runs (governing B (injectCount tracker now input).1)) now input
      tracker := by
  have hrules : ∀ rule ∈ denyRules B, ∃ found,
      rule (injectCount tracker now input).1 = .ok found := by
    intro rule hrule
    simp only [denyRules, List.mem_cons, List.not_mem_nil, or_false] at hrule
    rcases hrule with rfl | rfl | rfl | rfl | rfl
    · exact ⟨_, rfl⟩
    · exact ⟨_, rfl⟩
    · exact ⟨_, rfl⟩
    · unfold denyBulkExport nsNow
      split_ifs with htool
      · obtain ⟨t, ht⟩ := h htool
        rw [ht]
        exact ⟨_, rfl⟩
      · exact ⟨_, rfl⟩
    · exact ⟨_, rfl⟩
  obtain ⟨msgs, hmsgs⟩ := fired_of_ok hrules
  have hanswers : (governing B (injectCount tracker now input).1).Answers ""
      (.bool msgs.isEmpty) (textSet msgs) (textSet _) := {
    taken := rfl
    allow := by
      show (fired (denyRules B) _).map _ = _
      rw [hmsgs]
      rfl
    deny := by
      show (fired (denyRules B) _).map _ = _
      rw [hmsgs]
      rfl
    review := by
      show (fired reviewRules _).map _ = _
      rw [fired_review]
      rfl }
  exact not_not.mpr ⟨_, _, _, "", _, rfl, rfl, hanswers⟩

theorem governs_self : (Worker.runs (governing B input)).Governs B input := by
  rintro engine ⟨⟩ json allow deny review h
  exact ⟨rfl, h.allow, h.deny, h.review⟩

end Tiers

/-- An engine whose clock has failed, and which prints every number alike. -/
def timeless : Builtins where
  twoDecimals _ := "0.05"
  instant _ := .error "no clock"

def transferInput : PolicyInput where
  toolType := "wire_transfer"
  lastTool := none
  intentScore := routineScore
  currentTime := none
  agentId := some "acme/bot"
  method := some "tools/call"
  recentRequestCount := 0
  correlationId := none

theorem transfer_not_denied : ¬ Denied timeless (injectCount (.withWindow 60) 0 transferInput).1 := by
  intro h
  cases h with
  | sql h => exact absurd h (by decide)
  | shell h => exact absurd h (by decide)
  | intent h => exact absurd h (by decide)
  | bulk h => exact absurd h (by decide)
  | velocity h => exact absurd h (by decide)

theorem tier_table_transfer : TierTable (fun _ => .ok "")
    (.runs (governing timeless (injectCount (.withWindow 60) 0 transferInput).1)) 0 transferInput
    (.withWindow 60) :=
  (tier_table_iff _ _ _ _ _).mpr (governed_exclusive governs_self)

theorem governance_table_transfer : classify routineVerdict
    (evaluate (fun _ => .ok "")
      (.runs (governing timeless (injectCount (.withWindow 60) 0 transferInput).1)) 0
      transferInput (.withWindow 60)).1 = .yellow :=
  (governance_table governs_self routineVerdict).2.1.mpr
    ⟨by decide, governing_answered fun h => absurd h (by decide), transfer_not_denied, rfl⟩

end ClavenarLite
