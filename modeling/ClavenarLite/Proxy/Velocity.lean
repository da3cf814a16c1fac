import ClavenarLite.Proxy.RateLimit

/-! How often each agent has called within the window: one queue of times an
agent, of which every call drops what has become too old. -/

namespace ClavenarLite

open Keyed

abbrev Deques := AList fun _ : String => List ℚ

structure VelocityTracker where
  window : ℚ≥0
  inner : Deques

def VelocityTracker.withWindow (window : ℚ≥0) : VelocityTracker := ⟨window, ∅⟩

/-- Drop from the front while it is older than the window. -/
def evict (window : ℚ≥0) (now : ℚ) (deque : List ℚ) : List ℚ :=
  deque.dropWhile fun front => decide (window < saturatingSince now front)

/-- The deque without what is too old; one that empties out is dropped. -/
def sweep (window : ℚ≥0) (now : ℚ) (_ : String) (deque : List ℚ) : Option (List ℚ) :=
  if (evict window now deque).isEmpty then none else some (evict window now deque)

/-- The count is cast to `u32`. -/
def VelocityTracker.recordAndCount (call : Admission) (tracker : VelocityTracker) :
    Nat × VelocityTracker :=
  let map := retainMap (sweep tracker.window call.time) tracker.inner
  let entry := ((map.lookup call.agentId).getD []) ++ [call.time]
  (entry.length % 2 ^ 32, { tracker with inner := map.insert call.agentId entry })

/-- The times of an agent's calls that are not older than the window. -/
def recent (window : ℚ≥0) (now : ℚ) (agentId : String) (calls : List Admission) : List ℚ :=
  ((calls.filter fun c => c.agentId = agentId).map Admission.time).filter fun t => now - t ≤ window

/-- Dropping from the front is enough where the rest cannot be older. -/
theorem dropWhile_eq_filter {α : Type*} {p : α → Bool} {l : List α}
    (h : l.Pairwise fun a b => p b = true → p a = true) :
    l.dropWhile p = l.filter fun a => !p a := by
  induction l with
  | nil => rfl
  | cons a l ih =>
    obtain ⟨ha, hl⟩ := List.pairwise_cons.mp h
    by_cases hp : p a = true
    · rw [List.dropWhile_cons_of_pos hp, List.filter_cons_of_neg (by simp [hp]), ih hl]
    · have hrest : ∀ b ∈ l, (!p b) = true := fun b hb => by
        rw [Bool.not_eq_true']
        exact Bool.eq_false_iff.mpr fun hpb => hp (ha b hb hpb)
      rw [List.dropWhile_cons_of_neg hp, List.filter_cons_of_pos (by simp [hp]),
        List.filter_eq_self.mpr hrest]

theorem evict_eq {window : ℚ≥0} {now : ℚ} {deque : List ℚ} (hsort : deque.Pairwise (· ≤ ·)) :
    evict window now deque = deque.filter fun t => now - t ≤ window := by
  have hold : ∀ t : ℚ, (decide ((window : ℚ) < saturatingSince now t)) = !decide (now - t ≤ window) := by
    intro t
    have hw : (0 : ℚ) ≤ window := window.2
    rw [← decide_not, decide_eq_decide, saturatingSince, lt_max_iff, not_le]
    exact or_iff_right (not_lt.mpr hw)
  rw [evict, dropWhile_eq_filter]
  · simp only [hold, Bool.not_not]
  · refine hsort.imp fun {a b} hab => ?_
    simp only [hold, Bool.not_eq_true', decide_eq_false_iff_not, not_le]
    intro hb
    linarith

theorem recent_concat (window : ℚ≥0) (now : ℚ) (k : String) (calls : List Admission)
    (call : Admission) : recent window now k (calls ++ [call]) = recent window now k calls ++
      if call.agentId = k ∧ now - call.time ≤ window then [call.time] else [] := by
  by_cases hk : call.agentId = k
  · by_cases ht : now - call.time ≤ window
    · simp [recent, hk, ht]
      linarith
    · simp [recent, hk, ht]
      linarith
  · simp [recent, hk]

theorem recent_sorted {window : ℚ≥0} {now : ℚ} {k : String} {calls : List Admission}
    (hsort : calls.Pairwise fun a b => a.time ≤ b.time) :
    (recent window now k calls).Pairwise (· ≤ ·) :=
  ((List.pairwise_map.mpr (hsort.filter _)).filter _)

theorem evict_recent {window : ℚ≥0} {before now : ℚ} {k : String} {calls : List Admission}
    (hsort : calls.Pairwise fun a b => a.time ≤ b.time) (h : before ≤ now) :
    evict window now (recent window before k calls) = recent window now k calls := by
  rw [evict_eq (recent_sorted hsort), recent, List.filter_filter, recent]
  refine List.filter_congr fun t _ => ?_
  rw [← Bool.decide_and, decide_eq_decide]
  constructor
  · exact fun ht => ht.1
  · intro ht
    exact ⟨ht, by linarith⟩

/-- A queue, if it is not empty. -/
def stored (deque : List ℚ) : Option (List ℚ) := if deque.isEmpty then none else some deque

theorem stored_getD (deque : List ℚ) : (stored deque).getD [] = deque := by
  cases deque with
  | nil => rfl
  | cons t rest => rfl

theorem stored_isSome {deque : List ℚ} : (stored deque).isSome = true ↔ 0 < deque.length := by
  cases deque with
  | nil => simp [stored]
  | cons t rest => simp [stored]

/-- The tracker holds the calls within the window, as of the given time. -/
structure VelocityTracker.Counted (window : ℚ≥0) (calls : List Admission) (now : ℚ)
    (tracker : VelocityTracker) : Prop where
  length : tracker.window = window
  lookup : ∀ k, tracker.inner.lookup k = stored (recent window now k calls)

variable {window : ℚ≥0} {calls : List Admission} {call : Admission} {before : ℚ}
  {tracker : VelocityTracker}

theorem VelocityTracker.Counted.swept (h : tracker.Counted window calls before)
    (hsort : calls.Pairwise fun a b => a.time ≤ b.time) {now : ℚ} (hle : before ≤ now) (k : String) :
    (retainMap (sweep tracker.window now) tracker.inner).lookup k =
      stored (recent window now k calls) := by
  rw [lookup_retainMap, h.lookup, h.length]
  by_cases hnil : recent window before k calls = []
  · have hevict : evict window now (recent window before k calls) = recent window now k calls :=
      evict_recent hsort hle
    rw [hnil] at hevict ⊢
    rw [← hevict]
    rfl
  · rw [stored, if_neg (by simpa using hnil), Option.bind_some, sweep, evict_recent hsort hle, stored]

/-- The count of a call. -/
theorem VelocityTracker.Counted.count (h : tracker.Counted window calls before)
    (hsort : calls.Pairwise fun a b => a.time ≤ b.time) (hle : before ≤ call.time) :
    (tracker.recordAndCount call).1 =
      (recent window call.time call.agentId (calls ++ [call])).length % 2 ^ 32 := by
  have hself : call.agentId = call.agentId ∧ call.time - call.time ≤ (window : ℚ) :=
    ⟨rfl, by rw [sub_self]; exact window.2⟩
  simp only [VelocityTracker.recordAndCount, h.swept hsort hle, stored_getD]
  rw [recent_concat, if_pos hself]

theorem VelocityTracker.Counted.record (h : tracker.Counted window calls before)
    (hsort : calls.Pairwise fun a b => a.time ≤ b.time) (hle : before ≤ call.time) :
    (tracker.recordAndCount call).2.Counted window (calls ++ [call]) call.time := by
  refine ⟨h.length, fun k => ?_⟩
  simp only [VelocityTracker.recordAndCount, h.swept hsort hle, stored_getD, recent_concat]
  by_cases hk : k = call.agentId
  · subst hk
    have hself : call.agentId = call.agentId ∧ call.time - call.time ≤ (window : ℚ) :=
      ⟨rfl, by rw [sub_self]; exact window.2⟩
    rw [AList.lookup_insert, if_pos hself, stored, if_neg (by simp)]
  · rw [AList.lookup_insert_ne hk, h.swept hsort hle, if_neg fun hc => hk hc.1.symm, List.append_nil]

/-- The tracker after a run, as of any time from its last call on. -/
theorem final_counted (window : ℚ≥0) {calls : List Admission} {now : ℚ}
    (hsort : calls.Pairwise fun a b => a.time ≤ b.time) (hle : ∀ c ∈ calls, c.time ≤ now) :
    ∃ last ≤ now, (final VelocityTracker.recordAndCount (.withWindow window) calls).Counted window
      calls last := by
  induction calls using List.reverseRecOn generalizing now with
  | nil => exact ⟨now, le_rfl, rfl, fun k => rfl⟩
  | append_singleton calls c ih =>
    obtain ⟨hcalls, _, hcross⟩ := List.pairwise_append.mp hsort
    obtain ⟨last, hlast, hcounted⟩ := ih hcalls fun d hd => hcross d hd c (by simp)
    refine ⟨c.time, hle c (by simp), ?_⟩
    rw [final_append, final_cons, final_nil]
    exact hcounted.record hcalls hlast

def inWindow (window : ℚ≥0) (now : ℚ) (k : String) (calls : List Admission) : Nat :=
  calls.countP fun c => c.agentId = k ∧ now - c.time ≤ window

theorem recent_length (window : ℚ≥0) (now : ℚ) (k : String) (calls : List Admission) :
    (recent window now k calls).length = inWindow window now k calls := by
  rw [recent, ← List.countP_eq_length_filter, List.countP_map, List.countP_filter, inWindow]
  refine List.countP_congr fun c _ => ?_
  simp [and_comm]

/-- Each call is answered with the number of the agent's calls within the window,
cast to `u32`, whatever the other agents do, and the map holds the agents that
have such a call. -/
theorem velocity_counts (window : ℚ≥0) (before : List Admission) (call : Admission)
    (hsort : (before ++ [call]).Pairwise fun a b => a.time ≤ b.time) :
    let run := final VelocityTracker.recordAndCount (.withWindow window)
    ((run before).recordAndCount call).1 =
        inWindow window call.time call.agentId (before ++ [call]) % 2 ^ 32 ∧
      ((run before).recordAndCount call).1 =
        ((run (before.filter fun c => c.agentId = call.agentId)).recordAndCount call).1 ∧
      ∀ k, k ∈ ((run before).recordAndCount call).2.inner ↔
        0 < inWindow window call.time k (before ++ [call]) := by
  intro run
  obtain ⟨hbefore, _, hcross⟩ := List.pairwise_append.mp hsort
  have hle : ∀ c ∈ before, c.time ≤ call.time := fun c hc => hcross c hc call (by simp)
  obtain ⟨last, hlast, hcounted⟩ := final_counted window hbefore hle
  have hle' : ∀ c ∈ before.filter (fun c => c.agentId = call.agentId), c.time ≤ call.time :=
    fun c hc => hle c (List.mem_of_mem_filter hc)
  obtain ⟨last', hlast', halone⟩ := final_counted window (hbefore.filter _) hle'
  have hown : inWindow window call.time call.agentId
      (before.filter (fun c => c.agentId = call.agentId) ++ [call]) =
        inWindow window call.time call.agentId (before ++ [call]) := by
    rw [inWindow, List.countP_append, List.countP_filter, inWindow, List.countP_append]
    congr 1
    refine List.countP_congr fun c _ => ?_
    simp only [decide_eq_true_eq, Bool.and_eq_true]
    tauto
  refine ⟨?_, ?_, ?_⟩
  · rw [hcounted.count hbefore hlast, recent_length]
  · rw [hcounted.count hbefore hlast, halone.count (hbefore.filter _) hlast', recent_length,
      recent_length, hown]
  · intro k
    rw [← AList.lookup_isSome, (hcounted.record hbefore hlast).lookup, stored_isSome, recent_length]

theorem velocity_counts_twice :
    ((final VelocityTracker.recordAndCount (.withWindow 60) [⟨0, "acme/bot"⟩]).recordAndCount
      ⟨60, "acme/bot"⟩).1 = 2 :=
  (velocity_counts 60 [⟨0, "acme/bot"⟩] ⟨60, "acme/bot"⟩ (by norm_num)).1.trans (by decide +kernel)

/-- After so many calls at one instant, the count of the next one is the number
of calls up to the width of the cast. -/
theorem count_replicate (n : Nat) :
    ((final VelocityTracker.recordAndCount (.withWindow 60)
      (List.replicate n ⟨0, "bot"⟩)).recordAndCount ⟨0, "bot"⟩).1 = (n + 1) % 2 ^ 32 ∧
    inWindow 60 0 "bot" (List.replicate n ⟨0, "bot"⟩ ++ [⟨0, "bot"⟩]) = n + 1 := by
  have hcount : inWindow 60 0 "bot" (List.replicate n ⟨0, "bot"⟩ ++ [⟨0, "bot"⟩]) = n + 1 := by
    rw [inWindow, List.countP_append, List.countP_replicate]
    norm_num
  have hsort : (List.replicate n (⟨0, "bot"⟩ : Admission)).Pairwise fun a b => a.time ≤ b.time :=
    List.pairwise_replicate.mpr (Or.inr le_rfl)
  have hle : ∀ c ∈ List.replicate n (⟨0, "bot"⟩ : Admission), c.time ≤ 0 := fun c hc => by
    rw [List.eq_of_mem_replicate hc]
  obtain ⟨last, hlast, hcounted⟩ := final_counted 60 hsort hle
  refine ⟨?_, hcount⟩
  rw [hcounted.count hsort hlast, recent_length, hcount]

/-- The call that makes the count 2^32 is answered with zero. -/
theorem count_wraps : ∃ before : List Admission,
    inWindow 60 0 "bot" (before ++ [⟨0, "bot"⟩]) = 2 ^ 32 ∧
      ((final VelocityTracker.recordAndCount (.withWindow 60) before).recordAndCount
        ⟨0, "bot"⟩).1 = 0 := by
  obtain ⟨hanswer, hcount⟩ := count_replicate (2 ^ 32 - 1)
  exact ⟨_, hcount.trans (by norm_num), hanswer.trans (by norm_num)⟩

end ClavenarLite
