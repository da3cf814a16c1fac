import ClavenarLite.Proxy.RateLimit

/-! What a throttled agent is told to wait, and which buckets a full limiter
forgets. -/

namespace ClavenarLite

open Keyed

variable {cfg : RateLimitConfig}

/-- The buckets were last refilled by the given time. -/
structure RateLimiter.UpTo (cfg : RateLimitConfig) (time : ℚ) (limiter : RateLimiter) : Prop where
  sound : limiter.Sound cfg
  refilled : ∀ k, ∀ b ∈ limiter.entry k, b.lastRefill ≤ time

theorem check_upTo (hq : 0 < cfg.qps) (hb : 0 < cfg.burst) {limiter : RateLimiter} {time : ℚ}
    (h : limiter.UpTo cfg time) {call : Admission} (ht : time ≤ call.time) :
    (RateLimiter.check call limiter).2.UpTo cfg call.time := by
  have hlocal := check_local hq hb
  refine ⟨hlocal.inv call limiter h.sound, ?_⟩
  intro k b hm
  by_cases hk : k = call.agentId
  · subst hk
    rw [hlocal.self call limiter h.sound] at hm
    have hready : ∀ b ∈ limiter.entry call.agentId, Kept cfg b ∧ b.lastRefill ≤ call.time :=
      fun b hb => ⟨h.sound.buckets _ b hb, (h.refilled _ b hb).trans ht⟩
    obtain ⟨b', hb', hlast, _⟩ := bucketCell_spends hq hb call hready
    obtain rfl := Option.some.inj (hb'.symm.trans hm)
    exact hlast.le
  · rw [hlocal.other call limiter k h.sound hk] at hm
    exact (h.refilled k b hm).trans ht

theorem final_upTo (hq : 0 < cfg.qps) (hb : 0 < cfg.burst) {limiter : RateLimiter} {time : ℚ}
    (h : limiter.UpTo cfg time) {calls : List Admission}
    (hsort : calls.Pairwise fun a b => a.time ≤ b.time) (ht : ∀ c ∈ calls, time ≤ c.time) {late : ℚ}
    (hlate : time ≤ late) (hl : ∀ c ∈ calls, c.time ≤ late) :
    (final RateLimiter.check limiter calls).UpTo cfg late := by
  induction calls generalizing limiter time with
  | nil => exact ⟨h.sound, fun k b hm => (h.refilled k b hm).trans hlate⟩
  | cons c rest ih =>
    obtain ⟨hsince, hrest⟩ := List.pairwise_cons.mp hsort
    exact ih (check_upTo hq hb h (ht c List.mem_cons_self)) hrest hsince (hl c List.mem_cons_self)
      fun x hx => hl x (List.mem_cons_of_mem c hx)

/-- The seconds to wait, by a cast of the exact quotient. -/
def TokenBucket.tryConsumeBy (seconds : ℚ → Nat) (b : TokenBucket) (now : ℚ) :
    Except Nat Unit × TokenBucket :=
  let b := { b.refill now with lastTouch := now }
  if 1 ≤ b.tokens then (.ok (), { b with tokens := b.tokens - 1 })
  else
    let deficit := 1 - b.tokens
    let wait := if 0 < b.refillPerSec then seconds (deficit / b.refillPerSec) else 1
    (.error (max wait 1), b)

theorem tryConsumeBy_ceilAsU64 (b : TokenBucket) (now : ℚ) :
    b.tryConsumeBy ceilAsU64 now = b.tryConsume now := rfl

def RateLimiter.checkBy (seconds : ℚ → Nat) (call : Admission) (limiter : RateLimiter) :
    RateLimitOutcome × RateLimiter :=
  let map := maybePrune limiter.inner call.time
  let bucket := (map.lookup call.agentId).getD (.new limiter.config call.time)
  let (result, bucket) := bucket.tryConsumeBy seconds call.time
  (rateLimitOutcome call.agentId result, { limiter with inner := map.insert call.agentId bucket })

theorem checkBy_ceilAsU64 (call : Admission) (limiter : RateLimiter) :
    RateLimiter.checkBy ceilAsU64 call limiter = RateLimiter.check call limiter := by
  simp only [RateLimiter.checkBy, RateLimiter.check, RateLimiter.takeToken, tryConsumeBy_ceilAsU64]

/-- The ceiling with unbounded integers. -/
def ceilSeconds (x : ℚ) : Nat := ⌈x⌉.toNat

variable {seconds : ℚ → Nat}

theorem tryConsumeBy_state (b : TokenBucket) (now : ℚ) :
    (b.tryConsumeBy seconds now).2 = (b.tryConsume now).2 := by
  unfold TokenBucket.tryConsumeBy TokenBucket.tryConsume
  by_cases h : 1 ≤ (b.refill now).tokens
  · simp only [if_pos h]
  · simp only [if_neg h]

/-- The cast has no influence on the buckets. -/
theorem checkBy_state (call : Admission) (limiter : RateLimiter) :
    (RateLimiter.checkBy seconds call limiter).2 = (RateLimiter.check call limiter).2 := by
  simp only [RateLimiter.checkBy, RateLimiter.check, RateLimiter.takeToken, tryConsumeBy_state]

theorem final_checkBy (limiter : RateLimiter) (calls : List Admission) :
    final (RateLimiter.checkBy seconds) limiter calls = final RateLimiter.check limiter calls := by
  induction calls generalizing limiter with
  | nil => rfl
  | cons c rest ih => rw [final_cons, final_cons, checkBy_state, ih]

theorem tryConsumeBy_denied {b : TokenBucket} {now : ℚ} {r : Nat} (hr : 0 < b.refillPerSec)
    (h : (b.tryConsumeBy seconds now).1 = .error r) :
    (b.refill now).tokens < 1 ∧
      r = max (seconds ((1 - (b.refill now).tokens) / b.refillPerSec)) 1 := by
  unfold TokenBucket.tryConsumeBy at h
  by_cases hlow : 1 ≤ (b.refill now).tokens
  · simp [hlow] at h
  · have hrate : 0 < (b.refill now).refillPerSec := (refill_rate b now).symm ▸ hr
    simp only [if_neg hlow, if_pos hrate] at h
    refine ⟨not_le.mp hlow, ?_⟩
    rw [← Except.error.inj h, refill_rate]

theorem tryConsumeBy_allowed {b : TokenBucket} {now : ℚ} :
    (b.tryConsumeBy seconds now).1 = .ok () ↔ 1 ≤ (b.refill now).tokens := by
  unfold TokenBucket.tryConsumeBy
  by_cases hlow : 1 ≤ (b.refill now).tokens
  · simp [hlow]
  · simp [hlow]

/-- The outcome of a check, from the agent's entry. -/
theorem checkBy_outcome {limiter : RateLimiter} (h : limiter.Sound cfg) (call : Admission) :
    (RateLimiter.checkBy seconds call limiter).1 = rateLimitOutcome call.agentId
      (((limiter.entry call.agentId).getD (.new cfg call.time)).tryConsumeBy seconds
        call.time).1 := by
  simp only [RateLimiter.checkBy, maybePrune_eq h, RateLimiter.entry, h.config]

theorem refill_at {b : TokenBucket} {now : ℚ} (h : b.lastRefill ≤ now)
    (hc : b.tokens ≤ b.capacity) : (b.refill now).tokens =
      min (b.tokens + b.refillPerSec * (now - b.lastRefill)) b.capacity := by
  unfold TokenBucket.refill
  rw [saturatingSince_of_le h]
  by_cases he : now - b.lastRefill ≤ 0
  · have hzero : now - b.lastRefill = 0 := le_antisymm he (sub_nonneg.mpr h)
    rw [hzero, mul_zero, add_zero, min_eq_left hc]
    simp
  · simp only [if_neg he, mul_comm]

/-- The balance after a denial, at a later refill. -/
theorem denied_refill {b : TokenBucket} {now later : ℚ} (hk : Kept cfg b) (hle : b.lastRefill ≤ now)
    (hlate : now ≤ later) (hlow : (b.refill now).tokens < 1) :
    ((b.tryConsume now).2.refill later).tokens =
      min ((b.refill now).tokens + cfg.qps * (later - now)) cfg.burst := by
  obtain ⟨hcap, hrate, hlast, _⟩ := tryConsume_spec b now ""
  have htokens : (b.tryConsume now).2.tokens = (b.refill now).tokens := by
    rcases tryConsume_tokens b now with ⟨_, hge⟩ | ⟨ht, _⟩
    · exact absurd hge (not_le.mpr hlow)
    · exact ht
  rw [refill_lastRefill hle] at hlast
  have hroom : (b.tryConsume now).2.tokens ≤ (b.tryConsume now).2.capacity := by
    rw [htokens, hcap]
    exact refill_tokens_le_capacity now (hk.capacity ▸ hk.drained.le)
  have hready : (b.tryConsume now).2.lastRefill ≤ later := hlast.le.trans hlate
  rw [refill_at hready hroom, htokens, hrate, hk.rate, hlast, hcap, hk.capacity]

/-- The wait covers what is missing, but not one second less would. -/
theorem ceilSeconds_spec {x : ℚ} (hx : 0 < x) {r : Nat} (hr : r = max (ceilSeconds x) 1) :
    x ≤ r ∧ (1 < r → (r : ℚ) - 1 < x) := by
  have hpos : 0 ≤ ⌈x⌉ := Int.ceil_nonneg hx.le
  have hcast : ((ceilSeconds x : Nat) : ℚ) = (⌈x⌉ : ℚ) := by
    rw [ceilSeconds, ← Int.cast_natCast, Int.toNat_of_nonneg hpos]
  have hle : ceilSeconds x ≤ r := hr ▸ le_max_left _ _
  refine ⟨?_, ?_⟩
  · calc x ≤ (⌈x⌉ : ℚ) := Int.le_ceil x
      _ = (ceilSeconds x : ℚ) := hcast.symm
      _ ≤ r := by exact_mod_cast hle
  · intro hmore
    have heq : r = ceilSeconds x := by omega
    rw [heq, hcast]
    linarith [Int.ceil_lt_add_one x]

theorem empty_upTo (cfg : RateLimitConfig) (time : ℚ) : RateLimiter.UpTo cfg time ⟨cfg, ∅⟩ where
  sound := ⟨rfl, fun k b hm => absurd hm (by simp)⟩
  refilled k b hm := absurd hm (by simp [RateLimiter.entry])

/-- The limiter in a run, just before a call. -/
theorem reached_upTo (hq : 0 < cfg.qps) (hb : 0 < cfg.burst) {before : List Admission}
    {call : Admission} {rest : List Admission}
    (hsort : (before ++ call :: rest).Pairwise fun a b => a.time ≤ b.time) :
    (final RateLimiter.check ⟨cfg, ∅⟩ before).UpTo cfg call.time := by
  obtain ⟨hbefore, _, hcross⟩ := List.pairwise_append.mp hsort
  have hle : ∀ c ∈ before, c.time ≤ call.time := fun c hc => hcross c hc call List.mem_cons_self
  cases before with
  | nil => exact empty_upTo cfg call.time
  | cons c cs =>
    have hfirst : ∀ x ∈ c :: cs, c.time ≤ x.time := by
      intro x hx
      rcases List.mem_cons.mp hx with rfl | hx
      · exact le_rfl
      · exact (List.pairwise_cons.mp hbefore).1 x hx
    exact final_upTo hq hb (empty_upTo cfg c.time) hbefore hfirst (hle c List.mem_cons_self) hle

/-- A denial comes from a stored bucket that is short of a token. -/
theorem denied_entry (hq : 0 < cfg.qps) (hb : 0 < cfg.burst) {limiter : RateLimiter}
    (h : limiter.Sound cfg) {call : Admission} {agentId : String} {r : Nat}
    (hd : (RateLimiter.checkBy seconds call limiter).1 = .denied agentId r) :
    ∃ b, limiter.entry call.agentId = some b ∧ (b.refill call.time).tokens < 1 ∧
      r = max (seconds ((1 - (b.refill call.time).tokens) / cfg.qps)) 1 := by
  rw [checkBy_outcome h] at hd
  cases he : limiter.entry call.agentId with
  | none =>
    have hfull : ((TokenBucket.new cfg call.time).refill call.time).tokens = cfg.burst := by
      rw [new_refill]
      have hmax : max cfg.burst 1 = cfg.burst := max_eq_left hb
      simp only [TokenBucket.new, hmax]
    have hok : ((TokenBucket.new cfg call.time).tryConsumeBy seconds call.time).1 = .ok () := by
      rw [tryConsumeBy_allowed, hfull]
      exact_mod_cast hb
    rw [he, Option.getD_none, hok] at hd
    exact absurd hd (by simp [rateLimitOutcome])
  | some b =>
    have hk := h.buckets _ b he
    rw [he, Option.getD_some] at hd
    cases hc : (b.tryConsumeBy seconds call.time).1 with
    | ok u =>
      rw [hc] at hd
      exact absurd hd (by simp [rateLimitOutcome])
    | error r' =>
      rw [hc] at hd
      obtain ⟨_, rfl⟩ := RateLimitOutcome.denied.inj hd
      obtain ⟨hlow, hwait⟩ := tryConsumeBy_denied (hk.rate ▸ hq) hc
      exact ⟨b, rfl, hlow, hk.rate ▸ hwait⟩

/-- A denied agent that waits as long as it is told is allowed, and a second
less is not enough. -/
theorem retry_after_tight (cfg : RateLimitConfig) (limiter : RateLimiter)
    (hl : RateLimiter.fromConfig cfg = some limiter) (before between : List Admission)
    (call next : Admission)
    (hsort : (before ++ call :: (between ++ [next])).Pairwise fun a b => a.time ≤ b.time)
    (hkey : next.agentId = call.agentId) (hother : ∀ c ∈ between, c.agentId ≠ call.agentId)
    {agentId : String} {r : Nat}
    (hd : (RateLimiter.checkBy ceilSeconds call
      (final (RateLimiter.checkBy ceilSeconds) limiter before)).1 = .denied agentId r) :
    1 ≤ r ∧
      (call.time + r ≤ next.time →
        (RateLimiter.checkBy ceilSeconds next (final (RateLimiter.checkBy ceilSeconds) limiter
          (before ++ call :: between))).1 = .allowed) ∧
      (1 < r → next.time = call.time + r - 1 →
        ∃ agentId' r', (RateLimiter.checkBy ceilSeconds next
          (final (RateLimiter.checkBy ceilSeconds) limiter (before ++ call :: between))).1 =
            .denied agentId' r') := by
  obtain ⟨hq, hb, rfl⟩ := fromConfig_some hl
  have hlocal := check_local hq hb
  have hstart := reached_upTo hq hb hsort
  rw [final_checkBy] at hd
  rw [final_checkBy, final_append, final_cons]
  generalize final RateLimiter.check ⟨cfg, ∅⟩ before = limiter at hd hstart ⊢
  obtain ⟨b, hentry, hlow, hr⟩ := denied_entry hq hb hstart.sound hd
  have hk := hstart.sound.buckets _ b hentry
  have hlate : call.time ≤ next.time := by
    have hcall := (List.pairwise_append.mp hsort).2.1
    exact (List.pairwise_cons.mp hcall).1 next (by simp)
  -- the bucket stays as the denial left it until the next check
  have hsound := hlocal.final_inv between (hlocal.inv call limiter hstart.sound)
  have hnone : between.filter (fun c => c.agentId = call.agentId) = [] :=
    List.filter_eq_nil_iff.mpr fun c hc => by simpa using hother c hc
  have hleft : (final RateLimiter.check (RateLimiter.check call limiter).2 between).entry
      call.agentId = some (b.tryConsume call.time).2 := by
    rw [hlocal.final_of_key call.agentId between (hlocal.inv call limiter hstart.sound), hnone,
      final_nil, hlocal.self call limiter hstart.sound, hentry]
    rfl
  rw [checkBy_outcome hsound, hkey, hleft, Option.getD_some]
  have htokens := denied_refill hk (hstart.refilled _ b hentry) hlate hlow
  generalize (b.refill call.time).tokens = tokens at hlow hr htokens
  have hburst : (1 : ℚ) ≤ cfg.burst := by exact_mod_cast hb
  obtain ⟨hcover, htight⟩ := ceilSeconds_spec (div_pos (sub_pos.mpr hlow) hq) hr
  refine ⟨hr ▸ le_max_right _ _, ?_, ?_⟩
  · intro hwait
    have hgain : 1 - tokens ≤ cfg.qps * (next.time - call.time) := by
      rw [← div_le_iff₀' hq]
      linarith
    have hok : ((b.tryConsume call.time).2.tryConsumeBy ceilSeconds next.time).1 = .ok () := by
      rw [tryConsumeBy_allowed, htokens]
      exact le_min (by linarith) hburst
    rw [hok]
    rfl
  · intro hmore htime
    have hshort : cfg.qps * (next.time - call.time) < 1 - tokens := by
      rw [← lt_div_iff₀' hq]
      linarith [htight hmore]
    cases hc : ((b.tryConsume call.time).2.tryConsumeBy ceilSeconds next.time).1 with
    | ok u =>
      have hfull := tryConsumeBy_allowed.mp hc
      rw [htokens] at hfull
      have hle := hfull.trans (min_le_left _ _)
      linarith
    | error r' => exact ⟨_, _, rfl⟩

def slowBucket : RateLimitConfig := ⟨1 / 3, 1⟩

theorem retry_after_tight_slow :
    (RateLimiter.checkBy ceilSeconds ⟨3, "bot"⟩ (final (RateLimiter.checkBy ceilSeconds)
      ⟨slowBucket, ∅⟩ ([⟨0, "bot"⟩] ++ ⟨1, "bot"⟩ :: []))).1 = .allowed := by
  have hdenied : (RateLimiter.checkBy ceilSeconds ⟨1, "bot"⟩
      (final (RateLimiter.checkBy ceilSeconds) ⟨slowBucket, ∅⟩ [⟨0, "bot"⟩])).1 =
        .denied "bot" 2 := by decide +kernel
  have htold := retry_after_tight slowBucket ⟨slowBucket, ∅⟩
    (by simp [RateLimiter.fromConfig, RateLimitConfig.isEnabled, slowBucket]) [⟨0, "bot"⟩] []
    ⟨1, "bot"⟩ ⟨3, "bot"⟩ (by norm_num) rfl (by simp) hdenied
  exact htold.2.1 (by norm_num)

/-- A bucket that nothing would be lost without: long idle, and full once refilled. -/
def TokenBucket.Spare (now : ℚ) (b : TokenBucket) : Prop :=
  idlePruneAfter ≤ saturatingSince now b.lastTouch ∧ (b.refill now).tokens = b.capacity

/-- Long idle, and with time enough since the last refill to fill up. -/
def TokenBucket.Rested (cfg : RateLimitConfig) (now : ℚ) (b : TokenBucket) : Prop :=
  idlePruneAfter ≤ saturatingSince now b.lastTouch ∧
    (cfg.burst : ℚ) ≤ b.tokens + cfg.qps * saturatingSince now b.lastRefill

theorem Kept.spare_iff {b : TokenBucket} (h : Kept cfg b) (now : ℚ) :
    b.Spare now ↔ b.Rested cfg now := by
  refine and_congr_right fun _ => ?_
  unfold TokenBucket.refill
  by_cases he : saturatingSince now b.lastRefill ≤ 0
  · have hzero : saturatingSince now b.lastRefill = 0 := le_antisymm he (le_max_left _ _)
    have hdrained := h.drained
    simp only [hzero, mul_zero, add_zero, h.capacity]
    exact iff_of_false hdrained.ne (not_le.mpr hdrained)
  · simp only [if_neg he, h.capacity, h.rate, min_eq_right_iff, mul_comm]

theorem outcomes_check_eq (hq : 0 < cfg.qps) (hb : 0 < cfg.burst) {limiter : RateLimiter}
    (h : limiter.Sound cfg) (calls : List Admission) :
    outcomes RateLimiter.check limiter calls = outcomes RateLimiter.takeToken limiter calls := by
  induction calls generalizing limiter with
  | nil => rfl
  | cons c rest ih =>
    rw [outcomes, outcomes, check_eq_admitted h, ih ((admit_local hq hb).inv c limiter h)]

/-- Pruning never changes an answer, and leaves no spare bucket exactly if none
was there: it looks at the stored balance, which is never full. -/
theorem prune_effective_iff (cfg : RateLimitConfig) (limiter : RateLimiter)
    (hl : RateLimiter.fromConfig cfg = some limiter) (calls : List Admission) (now : ℚ)
    (hmany : maxBuckets ≤ (final RateLimiter.check limiter calls).inner.keys.length) :
    ((∀ k, ∀ b ∈ (maybePrune (final RateLimiter.check limiter calls).inner now).lookup k,
        ¬ b.Spare now) ↔
      ∀ k, ∀ b ∈ (final RateLimiter.check limiter calls).inner.lookup k, ¬ b.Rested cfg now) ∧
    ∀ later, outcomes RateLimiter.check
        ⟨cfg, maybePrune (final RateLimiter.check limiter calls).inner now⟩ later =
      outcomes RateLimiter.takeToken (final RateLimiter.check limiter calls) later := by
  obtain ⟨hq, hb, rfl⟩ := fromConfig_some hl
  have hsound := (check_local hq hb).final_inv calls (empty_upTo cfg 0).sound
  generalize final RateLimiter.check ⟨cfg, ∅⟩ calls = reached at hsound ⊢
  rw [maybePrune_eq hsound]
  refine ⟨?_, ?_⟩
  · refine forall_congr' fun k => forall_congr' fun b => forall_congr' fun hm => ?_
    exact not_congr ((hsound.buckets k b hm).spare_iff now)
  · intro later
    have hsame : (⟨cfg, reached.inner⟩ : RateLimiter) = reached := by rw [← hsound.config]
    rw [hsame, outcomes_check_eq hq hb hsound]

def oneAgent (n : Nat) : String := String.ofList (List.replicate n 'a')

/-- Every one of these agents calls once, at time zero. -/
def crowd : List Admission := (List.range maxBuckets).map fun n => ⟨0, oneAgent n⟩

theorem oneAgent_injective : Function.Injective oneAgent := by
  intro m n h
  have hlen := congrArg (fun s : String => s.toList.length) h
  simpa [oneAgent] using hlen

theorem final_keys (hq : 0 < cfg.qps) (hb : 0 < cfg.burst) {limiter : RateLimiter}
    (h : limiter.Sound cfg) (calls : List Admission) (k : String) :
    (k ∈ limiter.inner ∨ ∃ c ∈ calls, c.agentId = k) →
      k ∈ (final RateLimiter.check limiter calls).inner := by
  induction calls generalizing limiter with
  | nil => simp
  | cons c rest ih =>
    have hstep : ∀ j, j = c.agentId ∨ j ∈ limiter.inner →
        j ∈ (RateLimiter.check c limiter).2.inner := by
      intro j hj
      rw [check_eq_admitted h]
      exact (AList.mem_insert _).mpr hj
    rintro (hk | ⟨d, hd, rfl⟩)
    · exact ih ((check_local hq hb).inv c limiter h) (Or.inl (hstep k (Or.inr hk)))
    · rcases List.mem_cons.mp hd with rfl | hd
      · exact ih ((check_local hq hb).inv d limiter h) (Or.inl (hstep _ (Or.inl rfl)))
      · exact ih ((check_local hq hb).inv c limiter h) (Or.inr ⟨d, hd, rfl⟩)

/-- Every bucket was last looked at at this time. -/
structure Stamped (cfg : RateLimitConfig) (time : ℚ) (limiter : RateLimiter) : Prop where
  sound : limiter.Sound cfg
  stamps : ∀ k, ∀ b ∈ limiter.entry k, b.lastRefill = time ∧ b.lastTouch = time

theorem tryConsume_stamps {b : TokenBucket} {time : ℚ} (h : b.lastRefill = time) :
    (b.tryConsume time).2.lastRefill = time ∧ (b.tryConsume time).2.lastTouch = time := by
  refine ⟨(tryConsume_spec b time "").2.2.1.trans (refill_lastRefill h.le), ?_⟩
  unfold TokenBucket.tryConsume
  by_cases hlow : 1 ≤ (b.refill time).tokens
  · simp only [if_pos hlow]
  · simp only [if_neg hlow]

theorem final_stamped (hq : 0 < cfg.qps) (hb : 0 < cfg.burst) {time : ℚ} {limiter : RateLimiter}
    (h : Stamped cfg time limiter) {calls : List Admission} (ht : ∀ c ∈ calls, c.time = time) :
    Stamped cfg time (final RateLimiter.check limiter calls) := by
  induction calls generalizing limiter with
  | nil => exact h
  | cons c rest ih =>
    obtain ⟨hc, hrest⟩ := List.forall_mem_cons.mp ht
    have hlocal := check_local hq hb
    refine ih ⟨hlocal.inv c limiter h.sound, fun k b hm => ?_⟩ hrest
    by_cases hk : k = c.agentId
    · subst hk
      rw [hlocal.self c limiter h.sound] at hm
      obtain rfl := Option.some.inj hm
      cases he : limiter.entry c.agentId with
      | none => exact hc ▸ tryConsume_stamps rfl
      | some b₀ => exact hc ▸ tryConsume_stamps (hc.symm ▸ (h.stamps _ b₀ he).1)
    · rw [hlocal.other c limiter k h.sound hk] at hm
      exact h.stamps k b hm

def crowded : RateLimiter := final RateLimiter.check ⟨⟨1, 1⟩, ∅⟩ crowd

theorem crowded_stamped : Stamped ⟨1, 1⟩ 0 crowded := by
  have hstart : Stamped ⟨1, 1⟩ 0 ⟨⟨1, 1⟩, ∅⟩ :=
    ⟨(empty_upTo ⟨1, 1⟩ 0).sound, fun k b hm => absurd hm (by simp [RateLimiter.entry])⟩
  refine final_stamped one_pos one_pos hstart fun c hc => ?_
  obtain ⟨n, _, rfl⟩ := List.mem_map.mp hc
  rfl

theorem crowded_mem {n : Nat} (h : n < maxBuckets) : oneAgent n ∈ crowded.inner :=
  final_keys one_pos one_pos (empty_upTo ⟨1, 1⟩ 0).sound crowd _
    (Or.inr ⟨_, List.mem_map.mpr ⟨n, List.mem_range.mpr h, rfl⟩, rfl⟩)

theorem crowded_keys : maxBuckets ≤ crowded.inner.keys.length := by
  have hsub : (List.range maxBuckets).map oneAgent ⊆ crowded.inner.keys := by
    intro k hk
    obtain ⟨n, hn, rfl⟩ := List.mem_map.mp hk
    exact AList.mem_keys.mp (crowded_mem (List.mem_range.mp hn))
  have hnodup : ((List.range maxBuckets).map oneAgent).Nodup :=
    List.nodup_range.map oneAgent_injective
  have hlen := (List.subperm_of_subset hnodup hsub).length_le
  rwa [List.length_map, List.length_range] at hlen

/-- Two hours after a crowd of agents called once, a spare bucket is kept. -/
theorem crowded_not_pruned : maxBuckets ≤ crowded.inner.keys.length ∧
    ¬ ∀ k, ∀ b ∈ (maybePrune crowded.inner 7200).lookup k, ¬ b.Spare 7200 := by
  refine ⟨crowded_keys, fun hnone => ?_⟩
  obtain ⟨b, hb⟩ := Option.isSome_iff_exists.mp (AList.lookup_isSome.mpr (crowded_mem (n := 0) (by decide)))
  obtain ⟨hrefill, htouch⟩ := crowded_stamped.stamps _ b hb
  have hk := crowded_stamped.sound.buckets _ b hb
  rw [maybePrune_eq crowded_stamped.sound] at hnone
  refine hnone _ b hb ((hk.spare_iff 7200).mpr ⟨?_, ?_⟩)
  · rw [htouch]
    norm_num [idlePruneAfter, saturatingSince]
  · rw [hrefill]
    norm_num [saturatingSince]
    linarith [hk.nonneg]

theorem prune_effective_iff_crowded :
    outcomes RateLimiter.check
        ⟨⟨1, 1⟩, maybePrune (final RateLimiter.check ⟨⟨1, 1⟩, ∅⟩ crowd).inner 7200⟩
        [⟨7200, oneAgent 0⟩] =
      outcomes RateLimiter.takeToken (final RateLimiter.check ⟨⟨1, 1⟩, ∅⟩ crowd)
        [⟨7200, oneAgent 0⟩] :=
  (prune_effective_iff ⟨1, 1⟩ ⟨⟨1, 1⟩, ∅⟩
    (by simp [RateLimiter.fromConfig, RateLimitConfig.isEnabled]) crowd 7200 crowded_keys).2 _

end ClavenarLite
