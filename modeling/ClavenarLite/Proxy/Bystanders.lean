import ClavenarLite.Lib.Projection
import ClavenarLite.Proxy.Handler
import ClavenarLite.Proxy.RegistryGrammar
import ClavenarLite.Proxy.Serving

/-! What one request can tell of the others. The handler goes by the answers of its
operations alone, and the memory of a process keeps the agents apart. -/

namespace ClavenarLite

open Bytes Fallible Interaction Keyed Rfc3339 TextJson Transaction

/-- How a statement fails is all the same, and so is the entry an append answers with. -/
def identityBlind : Likeness McpOp where
  op := Eq
  answer
    | .append _, _ => fun b b' => b.isOk = b'.isOk
    | .inspectServerExecution _, _ => fun b b' => b.toOption = b'.toOption
    | .getPending _, _ => fun b b' => b.toOption = b'.toOption
    | .parkPending _, _ => fun b b' => b.toOption = b'.toOption
    | .beginServerExecution _ _, _ => fun b b' => b.toOption = b'.toOption
    | .completeServerExecution _ _ _ _, _ => fun b b' => b.toOption = b'.toOption
    | _, _ => Eq

/-- The two act alike and end alike. -/
abbrev Handling.Alike {α : Type} (x y : Handling α) : Prop :=
  Prog.Alike identityBlind Eq x.run y.run

section Blind

variable {α β : Type}

theorem Handling.Alike.bind {x y : Handling α} {f g : α → Handling β} (h : Handling.Alike x y)
    (hf : ∀ a, Handling.Alike (f a) (g a)) : Handling.Alike (x >>= f) (y >>= g) := by
  have hrun : Prog.Alike identityBlind Eq (x >>= f).run (y >>= g).run := by
    rw [ExceptT.run_bind, ExceptT.run_bind]
    refine Prog.Alike.bind h fun r r' hr => ?_
    subst hr
    cases r with
    | ok a => exact hf a
    | error e => exact .pure rfl
  exact hrun

theorem Handling.Alike.ask {op : McpOp α} {f : α → Handling β}
    (hf : ∀ d d', identityBlind.answer op op d d' → Handling.Alike (f d) (f d')) :
    Handling.Alike (ask op >>= f) (ask op >>= f) :=
  .call rfl hf

variable {L : Libraries} {state : AppState} {headers : HeaderMap} {body : Octets} {call : McpCall}
  {v : Verdict} {url : Option String}

end Blind

section Memory

/-- The times of the agent's calls that the tracker still holds. -/
def VelocityTracker.deque (tracker : VelocityTracker) (k : String) : List ℚ :=
  (tracker.inner.lookup k).getD []

theorem swept_deque (window : ℚ≥0) (now : ℚ) (inner : Deques) (k : String) :
    ((retainMap (sweep window now) inner).lookup k).getD [] =
      evict window now ((inner.lookup k).getD []) := by
  rw [lookup_retainMap]
  cases inner.lookup k with
  | none => rfl
  | some deque =>
    by_cases hempty : evict window now deque = []
    · simp [sweep, hempty]
    · simp [sweep, hempty]

theorem recordAndCount_count (tracker : VelocityTracker) (call : Admission) :
    (tracker.recordAndCount call).1 =
      (evict tracker.window call.time (tracker.deque call.agentId) ++ [call.time]).length %
        2 ^ 32 := by
  rw [VelocityTracker.deque, ← swept_deque]
  rfl

theorem recordAndCount_deque (tracker : VelocityTracker) (call : Admission) (k : String) :
    (tracker.recordAndCount call).2.deque k = evict tracker.window call.time (tracker.deque k) ++
      if k = call.agentId then [call.time] else [] := by
  by_cases hk : k = call.agentId
  · subst hk
    rw [if_pos rfl, VelocityTracker.deque, VelocityTracker.deque, ← swept_deque]
    simp only [VelocityTracker.recordAndCount, AList.lookup_insert, Option.getD_some]
  · rw [if_neg hk, List.append_nil, VelocityTracker.deque, VelocityTracker.deque, ← swept_deque]
    simp only [VelocityTracker.recordAndCount, AList.lookup_insert_ne hk]

/-- What is dropped early would be dropped later. -/
theorem evict_evict {window : ℚ≥0} {now later : ℚ} (h : now ≤ later) (deque : List ℚ) :
    evict window later (evict window now deque) = evict window later deque := by
  induction deque with
  | nil => rfl
  | cons t rest ih =>
    by_cases hold : window < saturatingSince now t
    · have hlater : (window : ℚ) < saturatingSince later t :=
        hold.trans_le (max_le_max le_rfl (sub_le_sub_right h t))
      have hnow : evict window now (t :: rest) = evict window now rest := by simp [evict, hold]
      have hthen : evict window later (t :: rest) = evict window later rest := by
        simp [evict, hlater]
      rw [hnow, hthen, ih]
    · have hnow : evict window now (t :: rest) = t :: rest := by simp [evict, hold]
      rw [hnow]

/-- The limiter is as the configuration of the process makes it. -/
def Memory.Fresh (m : Memory) : Prop := ∃ cfg, RateLimiter.fromConfig cfg = some m.limiter

/-- Two memories of a process that differ for the agent of one key alone, as far as calls
from now on can tell. -/
structure MemoryAlike (key : String) (now : ℚ) (m m' : Memory) : Prop where
  limiters : ∃ cfg : RateLimitConfig, 0 < cfg.qps ∧ 0 < cfg.burst ∧ m.limiter.Sound cfg ∧
    m'.limiter.Sound cfg
  buckets : ∀ k ≠ key, m.limiter.entry k = m'.limiter.entry k
  window : m.velocity.window = m'.velocity.window
  calls : ∀ k ≠ key, ∀ t ≥ now, evict m.velocity.window t (m.velocity.deque k) =
    evict m.velocity.window t (m'.velocity.deque k)
  pins : ∀ k ≠ key, m.pins.lookup k = m'.pins.lookup k

variable {F : FloatText} {key : String} {now : ℚ} {m m' : Memory}

theorem Memory.Fresh.alike (h : m.Fresh) (key : String) (now : ℚ) : MemoryAlike key now m m := by
  obtain ⟨cfg, hcfg⟩ := h
  obtain ⟨hq, hb, hlimiter⟩ := fromConfig_some hcfg
  have hsound : m.limiter.Sound cfg := by
    rw [hlimiter]
    exact ⟨rfl, fun k b hk => absurd hk (by simp)⟩
  exact ⟨⟨cfg, hq, hb, hsound, hsound⟩, fun _ _ => rfl, rfl, fun _ _ _ _ => rfl, fun _ _ => rfl⟩

theorem MemoryAlike.later (h : MemoryAlike key now m m') {later : ℚ} (hle : now ≤ later) :
    MemoryAlike key later m m' :=
  ⟨h.limiters, h.buckets, h.window, fun k hk t ht => h.calls k hk t (hle.trans ht), h.pins⟩

/-- The agent's own check. -/
theorem MemoryAlike.checked (h : MemoryAlike key now m m') (call : Admission)
    (hkey : call.agentId = key) :
    MemoryAlike key now { m with limiter := (RateLimiter.check call m.limiter).2 } m' := by
  obtain ⟨cfg, hq, hb, hsound, hsound'⟩ := h.limiters
  have hlocal := check_local hq hb
  refine ⟨⟨cfg, hq, hb, hlocal.inv call _ hsound, hsound'⟩, fun k hk => ?_, h.window, h.calls,
    h.pins⟩
  exact (hlocal.other call _ k hsound (hkey ▸ hk)).trans (h.buckets k hk)

/-- The check of any other agent. -/
theorem MemoryAlike.checks (h : MemoryAlike key now m m') (call : Admission)
    (hkey : call.agentId ≠ key) :
    (RateLimiter.check call m.limiter).1 = (RateLimiter.check call m'.limiter).1 ∧
      MemoryAlike key now { m with limiter := (RateLimiter.check call m.limiter).2 }
        { m' with limiter := (RateLimiter.check call m'.limiter).2 } := by
  obtain ⟨cfg, hq, hb, hsound, hsound'⟩ := h.limiters
  have hlocal := check_local hq hb
  have hentry := h.buckets _ hkey
  refine ⟨?_, ⟨cfg, hq, hb, hlocal.inv call _ hsound, hlocal.inv call _ hsound'⟩, fun k hk => ?_,
    h.window, h.calls, h.pins⟩
  · rw [hlocal.answer call _ hsound, hlocal.answer call _ hsound', hentry]
  · by_cases hself : k = call.agentId
    · subst hself
      exact (hlocal.self call _ hsound).trans
        ((congrArg _ (congrArg _ hentry)).trans (hlocal.self call _ hsound').symm)
    · exact (hlocal.other call _ k hsound hself).trans
        ((h.buckets k hk).trans (hlocal.other call _ k hsound' hself).symm)

theorem MemoryAlike.recorded (h : MemoryAlike key now m m') {call : Admission}
    (hkey : call.agentId = key) (htime : call.time = now) :
    MemoryAlike key now { m with velocity := (m.velocity.recordAndCount call).2 } m' := by
  refine ⟨h.limiters, h.buckets, h.window, fun k hk t ht => ?_, h.pins⟩
  have hne : k ≠ call.agentId := hkey ▸ hk
  show evict m.velocity.window t ((m.velocity.recordAndCount call).2.deque k) = _
  rw [recordAndCount_deque, if_neg hne, List.append_nil, evict_evict (htime ▸ ht)]
  exact h.calls k hk t ht

theorem MemoryAlike.records (h : MemoryAlike key now m m') {call : Admission}
    (hkey : call.agentId ≠ key) (htime : call.time = now) :
    (m.velocity.recordAndCount call).1 = (m'.velocity.recordAndCount call).1 ∧
      MemoryAlike key now { m with velocity := (m.velocity.recordAndCount call).2 }
        { m' with velocity := (m'.velocity.recordAndCount call).2 } := by
  have hswept : ∀ k ≠ key, evict m.velocity.window call.time (m.velocity.deque k) =
      evict m'.velocity.window call.time (m'.velocity.deque k) :=
    fun k hk => h.window ▸ h.calls k hk call.time htime.ge
  refine ⟨?_, h.limiters, h.buckets, h.window, fun k hk t ht => ?_, h.pins⟩
  · rw [recordAndCount_count, recordAndCount_count, hswept _ hkey]
  · show evict m.velocity.window t ((m.velocity.recordAndCount call).2.deque k) =
      evict m.velocity.window t ((m'.velocity.recordAndCount call).2.deque k)
    rw [recordAndCount_deque, recordAndCount_deque, hswept k hk]

theorem pinOrDiff_other {agentKey agentId : String} {body : Octets} {pins : ToolPinStore}
    {k : String} (hk : k ≠ agentKey) :
    (pinOrDiff F agentKey agentId body pins).2.lookup k = pins.lookup k := by
  unfold pinOrDiff
  split
  · rfl
  · split
    · exact AList.lookup_insert_ne hk
    · dsimp only
      split_ifs <;> rfl

theorem MemoryAlike.pinned (h : MemoryAlike key now m m') (agentId : String) (body : Octets) :
    MemoryAlike key now { m with pins := (pinOrDiff F key agentId body m.pins).2 } m' :=
  ⟨h.limiters, h.buckets, h.window, h.calls, fun k hk => (pinOrDiff_other hk).trans (h.pins k hk)⟩

theorem MemoryAlike.pinning (h : MemoryAlike key now m m') {agentKey : String}
    (hkey : agentKey ≠ key) (agentId : String) (body : Octets) :
    (pinOrDiff F agentKey agentId body m.pins).1 = (pinOrDiff F agentKey agentId body m'.pins).1 ∧
      MemoryAlike key now { m with pins := (pinOrDiff F agentKey agentId body m.pins).2 }
        { m' with pins := (pinOrDiff F agentKey agentId body m'.pins).2 } := by
  have hsame := h.pins agentKey hkey
  have hown : (pinOrDiff F agentKey agentId body m.pins).1 =
      (pinOrDiff F agentKey agentId body m'.pins).1 ∧
      (pinOrDiff F agentKey agentId body m.pins).2.lookup agentKey =
        (pinOrDiff F agentKey agentId body m'.pins).2.lookup agentKey := by
    unfold pinOrDiff
    rw [hsame]
    split
    · exact ⟨rfl, hsame⟩
    · split
      · simp only [AList.lookup_insert, and_self]
      · dsimp only
        split_ifs
        · exact ⟨rfl, hsame⟩
        · exact ⟨rfl, hsame⟩
  refine ⟨hown.1, h.limiters, h.buckets, h.window, h.calls, fun k hk => ?_⟩
  by_cases hself : k = agentKey
  · subst hself
    exact hown.2
  · exact (pinOrDiff_other hself).trans ((h.pins k hk).trans (pinOrDiff_other hself).symm)

end Memory

end ClavenarLite
