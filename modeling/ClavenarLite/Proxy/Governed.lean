import ClavenarLite.Lib.Recorded
import ClavenarLite.Proxy.Approvals
import ClavenarLite.Proxy.Governance

/-! What the baseline policy does to the traffic of a process: how many calls of an agent
it lets through, and what can reach the upstream in any run under it. -/

namespace ClavenarLite

open Bytes Fallible Interaction Keyed Rfc3339 Rules TextJson Transaction

/-- The judgement of a call, at the time of the process. The worker is met with the
input that the live count was put into. -/
structure Evaluation where
  time : ℚ
  serialize : PolicyInput → Except String String
  worker : PolicyInput → Worker
  builtins : Builtins
  body : Octets
  call : McpCall

section Breaker

variable (L : Libraries)

def Evaluation.input (e : Evaluation) : PolicyInput := policyInput L e.body e.call

def Evaluation.admission (e : Evaluation) : Admission := ⟨e.time, e.call.agentKey⟩

/-- The input that the rules see. -/
def Evaluation.effective (e : Evaluation) (tracker : VelocityTracker) : PolicyInput :=
  (injectCount tracker e.time (e.input L)).1

def Evaluation.decide (e : Evaluation) (tracker : VelocityTracker) :
    PolicyDecision × VelocityTracker :=
  evaluate e.serialize (e.worker (e.effective L tracker)) e.time (e.input L) tracker

variable {L} {e : Evaluation} {tracker : VelocityTracker}

theorem Evaluation.decide_tracker :
    (e.decide L tracker).2 = (tracker.recordAndCount e.admission).2 := evaluate_tracker

theorem Evaluation.effective_count :
    (e.effective L tracker).recentRequestCount = (tracker.recordAndCount e.admission).1 := rfl

theorem final_decide (es : List Evaluation) :
    final (Evaluation.decide L) tracker es =
      final VelocityTracker.recordAndCount tracker (es.map Evaluation.admission) := by
  induction es generalizing tracker with
  | nil => rfl
  | cons e es ih => rw [final_cons, ih, e.decide_tracker, List.map_cons, final_cons]

/-- The count that the rules see is the number of the agent's calls within the window. -/
theorem effective_exact (window : ℚ≥0) {before : List Evaluation}
    (hsort : (before ++ [e]).Pairwise fun a b => a.time ≤ b.time)
    (hlen : (before ++ [e]).length < 2 ^ 32) :
    (e.effective L (final (Evaluation.decide L) (.withWindow window) before)).recentRequestCount =
      inWindow window e.time e.call.agentKey ((before ++ [e]).map Evaluation.admission) := by
  have hmap : ((before ++ [e]).map Evaluation.admission).Pairwise fun a b => a.time ≤ b.time :=
    List.pairwise_map.mpr hsort
  rw [List.map_append, List.map_singleton] at hmap ⊢
  obtain ⟨hcalls, _, hcross⟩ := List.pairwise_append.mp hmap
  have hle : ∀ c ∈ before.map Evaluation.admission, c.time ≤ e.admission.time :=
    fun c hc => hcross c hc e.admission (by simp)
  obtain ⟨last, hlast, hcounted⟩ := final_counted window hcalls hle
  have hcount := hcounted.count hcalls hlast
  have hsmall : inWindow window e.admission.time e.admission.agentId
      (before.map Evaluation.admission ++ [e.admission]) < 2 ^ 32 := by
    refine lt_of_le_of_lt List.countP_le_length ?_
    simpa using hlen
  rw [recent_length, Nat.mod_eq_of_lt hsmall] at hcount
  rw [e.effective_count, final_decide, hcount]
  rfl

/-- However the calls of other agents are mixed in, at most 100 calls of an agent are
allowed in any window, and no call is denied for its velocity that is not the 101st of its
own window or a later one. -/
theorem velocity_breaker (window : ℚ≥0) (es : List Evaluation)
    (hsort : es.Pairwise fun a b => a.time ≤ b.time) (hlen : es.length < 2 ^ 32)
    (hgov : ∀ e ∈ es, ∀ input, (e.worker input).Governs e.builtins input) (k : String) (t : ℚ) :
    (outcomes (Evaluation.decide L) (.withWindow window) es).countP (fun p =>
        (p.1.call.agentKey = k ∧ p.2.allow = true) ∧ p.1.time ≤ t ∧ t - p.1.time ≤ window) ≤ 100 ∧
      ∀ before e after, es = before ++ e :: after →
        inWindow window e.time e.call.agentKey ((before ++ [e]).map Evaluation.admission) ≤ 100 →
          ∀ msg, denyVelocity (e.effective L
            (final (Evaluation.decide L) (.withWindow window) before)) ≠ .ok (some msg) := by
  have hpart : ∀ before e after, es = before ++ e :: after →
      (e.effective L (final (Evaluation.decide L) (.withWindow window) before)).recentRequestCount =
        inWindow window e.time e.call.agentKey ((before ++ [e]).map Evaluation.admission) := by
    intro before e after hes
    have hsplits : es = (before ++ [e]) ++ after := by rw [hes, List.append_assoc]; rfl
    refine effective_exact window ?_ ?_
    · rw [hsplits] at hsort
      exact (List.pairwise_append.mp hsort).1
    · refine lt_of_le_of_lt ?_ hlen
      rw [hsplits]
      exact (List.prefix_append _ _).length_le
  constructor
  · have hsub : ∀ p ∈ outcomes (Evaluation.decide L) (.withWindow window) es,
        p.1.call.agentKey = k ∧ p.2.allow = true → p.1.call.agentKey = k := fun p _ h => h.1
    refine countP_window_le hsub ?_ t
    rintro before p after hsplit ⟨hk, hallow⟩
    obtain ⟨js, ks, hes, rfl, hp⟩ := outcomes_split hsplit
    have hmem : p.1 ∈ es := hes ▸ by simp
    have hnot : ¬ Denied p.1.builtins (p.1.effective L (final (Evaluation.decide L) _ js)) :=
      ((governed_allow (hgov p.1 hmem _)).mp (hp ▸ hallow)).2
    have hcount := Nat.le_of_not_lt (mt Denied.velocity hnot)
    rw [hpart js p.1 ks hes] at hcount
    refine le_trans (le_of_eq ?_) hcount
    have hinputs : (outcomes (Evaluation.decide L) (.withWindow window) js ++ [p]).map Prod.fst =
        js ++ [p.1] := by
      rw [List.map_append, outcomes_inputs]
      rfl
    rw [← hinputs, List.map_map, inWindow, List.countP_map, ← hk]
    rfl
  · intro before e after hes hle msg hmsg
    have hover := (given_some.mp hmsg).1
    rw [recentRequestLimit, hpart before e after hes] at hover
    omega

/-- Of a hundred and one calls at once, one is not allowed. -/
theorem velocity_breaker_burst : ∃ e : Evaluation,
    (outcomes (Evaluation.decide plainLibraries) (.withWindow 60) (List.replicate 101 e)).countP
      (fun p => (p.1.call.agentKey = "acme/bot" ∧ p.2.allow = true) ∧ p.1.time ≤ 0 ∧
        0 - p.1.time ≤ ((60 : ℚ≥0) : ℚ)) ≤ 100 := by
  let e : Evaluation := {
    time := 0
    serialize := fun _ => .ok ""
    worker := fun input => .runs (governing timeless input)
    builtins := timeless
    body := []
    call :=
      { serverExecution := none
        decision := none
        correlationId := "1"
        parsed := ⟨"tools/call", none, none, none⟩
        identity := ⟨"acme", "bot", by decide⟩ } }
  have hsort : (List.replicate 101 e).Pairwise fun a b => a.time ≤ b.time :=
    List.pairwise_replicate.mpr (Or.inr le_rfl)
  have hlen : (List.replicate 101 e).length < 2 ^ 32 := by simp
  refine ⟨e, (velocity_breaker 60 _ hsort hlen (fun a ha input => ?_) "acme/bot" 0).1⟩
  rw [List.eq_of_mem_replicate ha]
  exact governs_self

end Breaker

/-- What the clocks of a process show: one that never goes back, and the time of day. -/
structure Reading where
  now : ℚ
  wall : Clock

/-- The world, and the clocks by instance id. -/
structure Timed where
  world : World
  reading : String → Reading

/-- What an operation may do where every engine was loaded with the baseline policy: a
call is judged by the clocks of its process, as they are then. -/
def GovernedPerforms (L : Libraries) : {β : Type} → McpOp β → Timed → β → Timed → Prop
  | _, .evaluate i input, s, b, s' => s'.reading = s.reading ∧ ∃ serialize worker velocity B,
      (∀ t, B.instant none = .ok t → t = (s.reading i).wall) ∧
      worker.Governs B (injectCount (s.world.memory i).velocity (s.reading i).now input).1 ∧
      evaluate serialize worker (s.reading i).now input (s.world.memory i).velocity =
        (b, velocity) ∧
      s'.world = s.world.remember i { s.world.memory i with velocity }
  | _, op, s, b, s' => s'.reading = s.reading ∧ McpPerforms L op s.world b s'.world

/-- The process counts at most a hundred calls of the agent in the window, this one
included, and is in business hours if the call exports in bulk. -/
structure WithinLimits (s : Timed) (i : String) (call : McpCall) : Prop where
  count :
    ((s.world.memory i).velocity.recordAndCount ⟨(s.reading i).now, call.agentKey⟩).1 ≤ 100
  hours : toolType call.parsed = "bulk_export" → BusinessHours (s.reading i).wall

section Runs

variable {L : Libraries} {s₀ : Timed} {run : List (Moment McpOp Timed)}
  {p : Pool McpOp Timed McpJob Ended}

theorem GovernedPerforms.performs {β : Type} {op : McpOp β} {s s' : Timed} {b : β}
    (h : GovernedPerforms L op s b s') : McpPerforms L op s.world b s'.world := by
  cases op with
  | evaluate i input =>
    obtain ⟨_, serialize, worker, velocity, _, _, _, he, hw⟩ := h
    exact ⟨serialize, worker, _, velocity, he, hw⟩
  | _ => exact h.2

/-- What was allowed is within the limits of the policy, and a transfer is under review. -/
theorem GovernedPerforms.allowed {i : String} {body : Octets} {call : McpCall} {s s' : Timed}
    {policy : PolicyDecision}
    (h : GovernedPerforms L (.evaluate i (policyInput L body call)) s policy s')
    (hallow : policy.allow = true) : WithinLimits s i call ∧
      (toolType call.parsed = "wire_transfer" → policy.reviewReasons ≠ []) := by
  obtain ⟨_, serialize, worker, velocity, B, hclock, hg, he, _⟩ := h
  have hdecision : policy = (evaluate serialize worker (s.reading i).now
      (policyInput L body call) (s.world.memory i).velocity).1 := by rw [he]
  rw [hdecision] at hallow ⊢
  obtain ⟨herrs, hnot⟩ := (governed_allow hg).mp hallow
  refine ⟨⟨Nat.le_of_not_lt fun hover => hnot (.velocity hover), fun htool => ?_⟩,
    (governed_review hg herrs).mpr⟩
  obtain ⟨t, hnow, hours⟩ := governed_hours hg hallow htool
  exact hclock t hnow ▸ hours

end Runs

/-- The world with clocks that stand still. -/
def World.timed (w : World) : Timed := ⟨w, fun _ => ⟨0, newYear⟩⟩

end ClavenarLite
