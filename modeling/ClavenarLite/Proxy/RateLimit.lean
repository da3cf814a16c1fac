import ClavenarLite.Lib.Keyed

/-! Per-agent token buckets in front of `/mcp`. Times are seconds on the
limiter's monotonic clock, and arithmetic is exact. -/

namespace ClavenarLite

open Keyed

def maxBuckets : Nat := 10000

def idlePruneAfter : ℚ := 3600

structure RateLimitConfig where
  qps : ℚ
  burst : Nat

def RateLimitConfig.isEnabled (c : RateLimitConfig) : Bool :=
  decide (0 < c.qps) && decide (0 < c.burst)

inductive RateLimitOutcome
  | allowed
  | denied (agentId : String) (retryAfterSecs : Nat)
deriving DecidableEq

def RateLimitOutcome.isAllowed : RateLimitOutcome → Bool
  | .allowed => true
  | .denied _ _ => false

structure TokenBucket where
  capacity : Nat
  tokens : ℚ
  refillPerSec : ℚ
  lastRefill : ℚ
  lastTouch : ℚ

def TokenBucket.new (cfg : RateLimitConfig) (now : ℚ) : TokenBucket where
  capacity := max cfg.burst 1
  tokens := (max cfg.burst 1 : Nat)
  refillPerSec := cfg.qps
  lastRefill := now
  lastTouch := now

def saturatingSince (now earlier : ℚ) : ℚ := max 0 (now - earlier)

def TokenBucket.refill (b : TokenBucket) (now : ℚ) : TokenBucket :=
  let elapsed := saturatingSince now b.lastRefill
  if elapsed ≤ 0 then b
  else
    let gained := elapsed * b.refillPerSec
    { b with tokens := min (b.tokens + gained) b.capacity, lastRefill := now }

/-- A cast to `u64` saturates. -/
def ceilAsU64 (x : ℚ) : Nat := min ⌈x⌉.toNat (2 ^ 64 - 1)

def TokenBucket.tryConsume (b : TokenBucket) (now : ℚ) : Except Nat Unit × TokenBucket :=
  let b := { b.refill now with lastTouch := now }
  if 1 ≤ b.tokens then (.ok (), { b with tokens := b.tokens - 1 })
  else
    let deficit := 1 - b.tokens
    let seconds := if 0 < b.refillPerSec then ceilAsU64 (deficit / b.refillPerSec) else 1
    (.error (max seconds 1), b)

abbrev Buckets := AList fun _ : String => TokenBucket

structure RateLimiter where
  config : RateLimitConfig
  inner : Buckets

def RateLimiter.fromConfig (config : RateLimitConfig) : Option RateLimiter :=
  if config.isEnabled then some ⟨config, ∅⟩ else none

def maybePrune (map : Buckets) (now : ℚ) : Buckets :=
  if map.keys.length < maxBuckets then map
  else
    retain (fun _ b =>
      let idle := saturatingSince now b.lastTouch
      let full := decide ((b.capacity : ℚ) ≤ b.tokens)
      !(full && decide (idlePruneAfter ≤ idle))) map

/-- A call of `check` for one agent. -/
structure Admission where
  time : ℚ
  agentId : String

def rateLimitOutcome (agentId : String) : Except Nat Unit → RateLimitOutcome
  | .ok () => .allowed
  | .error retryAfterSecs => .denied agentId retryAfterSecs

/-- The map entry of the agent, made on first use, and one token taken from it. -/
def RateLimiter.takeToken (call : Admission) (limiter : RateLimiter) : RateLimitOutcome × RateLimiter :=
  let bucket := (limiter.inner.lookup call.agentId).getD (.new limiter.config call.time)
  let (result, bucket) := bucket.tryConsume call.time
  (rateLimitOutcome call.agentId result, { limiter with inner := limiter.inner.insert call.agentId bucket })

def RateLimiter.check (call : Admission) (limiter : RateLimiter) : RateLimitOutcome × RateLimiter :=
  RateLimiter.takeToken call { limiter with inner := maybePrune limiter.inner call.time }

variable {cfg : RateLimitConfig}

/-- What every stored bucket satisfies: a token has been taken since it was last full. -/
structure Kept (cfg : RateLimitConfig) (b : TokenBucket) : Prop where
  capacity : b.capacity = cfg.burst
  rate : b.refillPerSec = cfg.qps
  nonneg : 0 ≤ b.tokens
  drained : b.tokens < cfg.burst

/-- The tokens an outcome took. -/
def RateLimitOutcome.cost (o : RateLimitOutcome) : ℚ := if o.isAllowed then 1 else 0

theorem saturatingSince_of_le {now earlier : ℚ} (h : earlier ≤ now) :
    saturatingSince now earlier = now - earlier := max_eq_right (sub_nonneg.mpr h)

theorem refill_capacity (b : TokenBucket) (now : ℚ) : (b.refill now).capacity = b.capacity := by
  simp only [TokenBucket.refill]
  split_ifs <;> rfl

theorem refill_rate (b : TokenBucket) (now : ℚ) :
    (b.refill now).refillPerSec = b.refillPerSec := by
  simp only [TokenBucket.refill]
  split_ifs <;> rfl

theorem refill_lastRefill {b : TokenBucket} {now : ℚ} (h : b.lastRefill ≤ now) :
    (b.refill now).lastRefill = now := by
  unfold TokenBucket.refill
  rw [saturatingSince_of_le h]
  by_cases he : now - b.lastRefill ≤ 0
  · have heq : b.lastRefill = now := le_antisymm h (sub_nonpos.mp he)
    simpa only [if_pos he] using heq
  · simp only [if_neg he]

theorem refill_tokens_nonneg {b : TokenBucket} (now : ℚ) (h : 0 ≤ b.tokens)
    (hr : 0 ≤ b.refillPerSec) : 0 ≤ (b.refill now).tokens := by
  unfold TokenBucket.refill
  by_cases he : saturatingSince now b.lastRefill ≤ 0
  · simpa only [if_pos he] using h
  · simp only [if_neg he]
    have hgained := mul_nonneg (not_le.mp he).le hr
    exact le_min (by linarith) (Nat.cast_nonneg _)

theorem refill_tokens_le_capacity {b : TokenBucket} (now : ℚ) (h : b.tokens ≤ b.capacity) :
    (b.refill now).tokens ≤ b.capacity := by
  unfold TokenBucket.refill
  by_cases he : saturatingSince now b.lastRefill ≤ 0
  · simpa only [if_pos he] using h
  · simpa only [if_neg he] using min_le_right _ _

theorem refill_tokens_le {b : TokenBucket} {now : ℚ} (h : b.lastRefill ≤ now)
    (hr : 0 ≤ b.refillPerSec) :
    (b.refill now).tokens ≤ b.tokens + b.refillPerSec * (now - b.lastRefill) := by
  unfold TokenBucket.refill
  rw [saturatingSince_of_le h]
  have hgained := mul_nonneg hr (sub_nonneg.mpr h)
  by_cases he : now - b.lastRefill ≤ 0
  · simp only [if_pos he]
    linarith
  · simp only [if_neg he]
    refine (min_le_left _ _).trans ?_
    linarith

/-- One call on one bucket: what it takes and leaves was there after the refill. -/
theorem tryConsume_spec (b : TokenBucket) (now : ℚ) (agentId : String) :
    (b.tryConsume now).2.capacity = b.capacity ∧
      (b.tryConsume now).2.refillPerSec = b.refillPerSec ∧
      (b.tryConsume now).2.lastRefill = (b.refill now).lastRefill ∧
      (rateLimitOutcome agentId (b.tryConsume now).1).cost + (b.tryConsume now).2.tokens =
        (b.refill now).tokens := by
  unfold TokenBucket.tryConsume
  by_cases h : 1 ≤ (b.refill now).tokens
  · simp only [if_pos h]
    refine ⟨refill_capacity b now, refill_rate b now, trivial, ?_⟩
    show (1 : ℚ) + ((b.refill now).tokens - 1) = _
    ring
  · simp only [if_neg h]
    refine ⟨refill_capacity b now, refill_rate b now, trivial, ?_⟩
    show (0 : ℚ) + (b.refill now).tokens = _
    ring

theorem tryConsume_tokens (b : TokenBucket) (now : ℚ) :
    (b.tryConsume now).2.tokens = (b.refill now).tokens - 1 ∧ 1 ≤ (b.refill now).tokens ∨
      (b.tryConsume now).2.tokens = (b.refill now).tokens ∧ (b.refill now).tokens < 1 := by
  unfold TokenBucket.tryConsume
  by_cases h : 1 ≤ (b.refill now).tokens
  · simp only [if_pos h]
    exact Or.inl ⟨trivial, h⟩
  · simp only [if_neg h]
    exact Or.inr ⟨trivial, not_le.mp h⟩

/-- What `check` does to the agent's entry. -/
def bucketCell (cfg : RateLimitConfig) (call : Admission) (entry : Option TokenBucket) :
    RateLimitOutcome × Option TokenBucket :=
  let (result, bucket) := (entry.getD (.new cfg call.time)).tryConsume call.time
  (rateLimitOutcome call.agentId result, some bucket)

theorem new_refill (cfg : RateLimitConfig) (now : ℚ) :
    (TokenBucket.new cfg now).refill now = TokenBucket.new cfg now := by
  have h : saturatingSince now now = 0 := by simp [saturatingSince]
  simp only [TokenBucket.refill, TokenBucket.new, h, le_refl, if_true]

theorem Kept.tryConsume {b : TokenBucket} (hq : 0 < cfg.qps) (hb : 0 < cfg.burst)
    (hc : b.capacity = cfg.burst) (hr : b.refillPerSec = cfg.qps) (h0 : 0 ≤ b.tokens)
    (hle : b.tokens ≤ cfg.burst) (now : ℚ) : Kept cfg (b.tryConsume now).2 := by
  obtain ⟨hcap, hrate, _, _⟩ := tryConsume_spec b now ""
  have hone : (1 : ℚ) ≤ cfg.burst := by exact_mod_cast hb
  have hlow := refill_tokens_nonneg now h0 (hr ▸ hq.le)
  have hhigh := refill_tokens_le_capacity (b := b) now (hc ▸ hle)
  rw [hc] at hhigh
  refine ⟨hcap.trans hc, hrate.trans hr, ?_, ?_⟩
  · rcases tryConsume_tokens b now with ⟨ht, hge⟩ | ⟨ht, _⟩ <;> rw [ht] <;> linarith
  · rcases tryConsume_tokens b now with ⟨ht, _⟩ | ⟨ht, hlt⟩ <;> rw [ht] <;> linarith

theorem bucketCell_kept (hq : 0 < cfg.qps) (hb : 0 < cfg.burst) (call : Admission)
    {entry : Option TokenBucket} (h : ∀ b ∈ entry, Kept cfg b) :
    ∀ b ∈ (bucketCell cfg call entry).2, Kept cfg b := by
  intro b hm
  obtain rfl := Option.some.inj hm
  cases entry with
  | none =>
    have hmax : max cfg.burst 1 = cfg.burst := max_eq_left hb
    have hfull : (TokenBucket.new cfg call.time).tokens = cfg.burst := by
      simp only [TokenBucket.new, hmax]
    refine Kept.tryConsume hq hb hmax rfl ?_ hfull.le call.time
    exact hfull ▸ Nat.cast_nonneg _
  | some b =>
    have hk := h b rfl
    exact Kept.tryConsume hq hb hk.capacity hk.rate hk.nonneg hk.drained.le call.time

/-- A call takes and leaves at most what was there, plus what has dripped in
since, and never more than the burst. -/
theorem bucketCell_spends (hq : 0 < cfg.qps) (hb : 0 < cfg.burst) (call : Admission)
    {entry : Option TokenBucket} (h : ∀ b ∈ entry, Kept cfg b ∧ b.lastRefill ≤ call.time) :
    ∃ b', (bucketCell cfg call entry).2 = some b' ∧ b'.lastRefill = call.time ∧
      (bucketCell cfg call entry).1.cost + b'.tokens ≤ cfg.burst ∧
      ∀ b ∈ entry, (bucketCell cfg call entry).1.cost + b'.tokens ≤
        b.tokens + cfg.qps * (call.time - b.lastRefill) := by
  cases entry with
  | none =>
    have hmax : max cfg.burst 1 = cfg.burst := max_eq_left hb
    obtain ⟨_, _, hlast, hcost⟩ :=
      tryConsume_spec (.new cfg call.time) call.time call.agentId
    rw [new_refill] at hlast hcost
    refine ⟨_, rfl, hlast, ?_, fun b hm => absurd hm (Option.not_mem_none b)⟩
    have hfull : (TokenBucket.new cfg call.time).tokens = cfg.burst := by
      simp only [TokenBucket.new, hmax]
    exact hcost.le.trans hfull.le
  | some b =>
    obtain ⟨hk, hle⟩ := h b rfl
    obtain ⟨_, _, hlast, hcost⟩ := tryConsume_spec b call.time call.agentId
    have hhigh := refill_tokens_le_capacity (b := b) call.time (hk.capacity ▸ hk.drained.le)
    have hdrip := refill_tokens_le hle (hk.rate ▸ hq.le)
    refine ⟨_, rfl, hlast.trans (refill_lastRefill hle), ?_, ?_⟩
    · exact hcost.le.trans (hk.capacity ▸ hhigh)
    · intro b₂ hm
      obtain rfl := Option.some.inj hm
      exact hcost.le.trans (hk.rate ▸ hdrip)

/-- An allowed call in the interval. -/
def allowedWithin (s e : ℚ) (p : Admission × RateLimitOutcome) : Bool :=
  p.2.isAllowed && decide (s ≤ p.1.time) && decide (p.1.time ≤ e)

theorem allowedWithin_cost {s e : ℚ} (call : Admission) (o : RateLimitOutcome)
    (hs : s ≤ call.time) (he : call.time ≤ e) :
    (if allowedWithin s e (call, o) then (1 : ℚ) else 0) = o.cost := by
  simp only [allowedWithin, hs, he, decide_true, Bool.and_true, RateLimitOutcome.cost]

theorem allowed_after {f : Admission → Option TokenBucket → RateLimitOutcome × Option TokenBucket}
    {s e : ℚ} (calls : List Admission) (entry : Option TokenBucket)
    (h : ∀ c ∈ calls, e < c.time) : (outcomes f entry calls).countP (allowedWithin s e) = 0 := by
  induction calls generalizing entry with
  | nil => rfl
  | cons c rest ih =>
    obtain ⟨hc, hrest⟩ := List.forall_mem_cons.mp h
    have hnot : allowedWithin s e (c, (f c entry).1) = false := by
      simp only [allowedWithin, decide_eq_false (not_le.mpr hc), Bool.and_false]
    rw [outcomes, List.countP_cons_of_neg (by simp [hnot])]
    exact ih _ hrest

/-- From a stored bucket, the calls up to `e` are paid by what is left in it
and what drips in until then. -/
theorem allowed_le_tokens (hq : 0 < cfg.qps) (hb : 0 < cfg.burst) {s e : ℚ}
    (calls : List Admission) (hsort : calls.Pairwise fun a b => a.time ≤ b.time)
    {b : TokenBucket} (hk : Kept cfg b) (hlast : ∀ c ∈ calls, b.lastRefill ≤ c.time)
    (hs : s ≤ b.lastRefill) (he : b.lastRefill ≤ e) :
    ((outcomes (bucketCell cfg) (some b) calls).countP (allowedWithin s e) : ℚ) ≤
      b.tokens + cfg.qps * (e - b.lastRefill) := by
  induction calls generalizing b with
  | nil =>
    have hdrip := mul_nonneg hq.le (sub_nonneg.mpr he)
    have hn := hk.nonneg
    simp only [outcomes_nil, List.countP_nil, Nat.cast_zero]
    linarith
  | cons c rest ih =>
    obtain ⟨hsince, hrest⟩ := List.pairwise_cons.mp hsort
    have hbc := hlast c List.mem_cons_self
    by_cases hce : c.time ≤ e
    · have hkept : ∀ b₁ ∈ some b, Kept cfg b₁ := fun b₁ hm => Option.some.inj hm ▸ hk
      have hready : ∀ b₁ ∈ some b, Kept cfg b₁ ∧ b₁.lastRefill ≤ c.time :=
        fun b₁ hm => Option.some.inj hm ▸ ⟨hk, hbc⟩
      obtain ⟨b', hb', hl, _, hspend⟩ := bucketCell_spends hq hb c hready
      have hpaid := hspend b rfl
      have hk' := bucketCell_kept hq hb c hkept b' hb'
      have hih := ih hrest hk' (fun x hx => hl ▸ hsince x hx) (hl ▸ hs.trans hbc) (hl ▸ hce)
      rw [outcomes, hb', List.countP_cons, Nat.cast_add, Nat.cast_ite, Nat.cast_one,
        Nat.cast_zero, allowedWithin_cost c _ (hs.trans hbc) hce]
      rw [hl] at hih
      linarith
    · have hlate : ∀ x ∈ c :: rest, e < x.time :=
        List.forall_mem_cons.mpr
          ⟨not_le.mp hce, fun x hx => (not_le.mp hce).trans_le (hsince x hx)⟩
      have hdrip := mul_nonneg hq.le (sub_nonneg.mpr he)
      have hn := hk.nonneg
      rw [allowed_after _ _ hlate, Nat.cast_zero]
      linarith

/-- From any entry: the first call inside the interval finds at most a full bucket. -/
theorem allowed_le_burst (hq : 0 < cfg.qps) (hb : 0 < cfg.burst) {s e : ℚ} (hse : s ≤ e)
    (calls : List Admission) (hsort : calls.Pairwise fun a b => a.time ≤ b.time)
    {entry : Option TokenBucket}
    (hk : ∀ b ∈ entry, Kept cfg b ∧ ∀ c ∈ calls, b.lastRefill ≤ c.time) :
    ((outcomes (bucketCell cfg) entry calls).countP (allowedWithin s e) : ℚ) ≤
      cfg.burst + cfg.qps * (e - s) := by
  have hroom := mul_nonneg hq.le (sub_nonneg.mpr hse)
  have hburst : (0 : ℚ) ≤ cfg.burst := Nat.cast_nonneg _
  induction calls generalizing entry with
  | nil =>
    simp only [outcomes_nil, List.countP_nil, Nat.cast_zero]
    linarith
  | cons c rest ih =>
    obtain ⟨hsince, hrest⟩ := List.pairwise_cons.mp hsort
    have hkept : ∀ b ∈ entry, Kept cfg b := fun b hm => (hk b hm).1
    have hready : ∀ b ∈ entry, Kept cfg b ∧ b.lastRefill ≤ c.time :=
      fun b hm => ⟨(hk b hm).1, (hk b hm).2 c List.mem_cons_self⟩
    obtain ⟨b', hb', hl, hfull, _⟩ := bucketCell_spends hq hb c hready
    have hk' := bucketCell_kept hq hb c hkept b' hb'
    by_cases hsc : s ≤ c.time
    · by_cases hce : c.time ≤ e
      · have htail := allowed_le_tokens hq hb rest hrest hk' (fun x hx => hl ▸ hsince x hx)
          (hl ▸ hsc) (hl ▸ hce)
        have hdrip := mul_le_mul_of_nonneg_left (sub_le_sub_left hsc e) hq.le
        rw [outcomes, hb', List.countP_cons, Nat.cast_add, Nat.cast_ite, Nat.cast_one,
          Nat.cast_zero, allowedWithin_cost c _ hsc hce]
        rw [hl] at htail
        linarith
      · have hlate : ∀ x ∈ c :: rest, e < x.time :=
          List.forall_mem_cons.mpr
            ⟨not_le.mp hce, fun x hx => (not_le.mp hce).trans_le (hsince x hx)⟩
        rw [allowed_after _ _ hlate, Nat.cast_zero]
        linarith
    · have hnot : allowedWithin s e (c, (bucketCell cfg c entry).1) = false := by
        simp only [allowedWithin, decide_eq_false hsc, Bool.and_false, Bool.false_and]
      rw [outcomes, List.countP_cons_of_neg (by simp [hnot])]
      refine ih hrest ?_
      intro b hm
      obtain rfl := Option.some.inj (hb'.symm.trans hm)
      exact ⟨hk', fun x hx => hl ▸ hsince x hx⟩

structure RateLimiter.Sound (cfg : RateLimitConfig) (limiter : RateLimiter) : Prop where
  config : limiter.config = cfg
  buckets : ∀ k, ∀ b ∈ limiter.inner.lookup k, Kept cfg b

def RateLimiter.entry (limiter : RateLimiter) (k : String) : Option TokenBucket :=
  limiter.inner.lookup k

theorem admit_entry (limiter : RateLimiter) (call : Admission) (k : String) :
    (RateLimiter.takeToken call limiter).2.entry k =
      if k = call.agentId then (bucketCell limiter.config call (limiter.entry k)).2
      else limiter.entry k := by
  by_cases hk : k = call.agentId
  · subst hk
    rw [if_pos rfl]
    exact AList.lookup_insert _
  · rw [if_neg hk]
    exact AList.lookup_insert_ne hk

theorem admit_local (hq : 0 < cfg.qps) (hb : 0 < cfg.burst) :
    Local Admission.agentId (bucketCell cfg) RateLimiter.entry (RateLimiter.Sound cfg)
      RateLimiter.takeToken where
  inv call limiter h := by
    refine ⟨h.config, ?_⟩
    intro k b hm
    have he := admit_entry limiter call k
    rw [RateLimiter.entry, hm, h.config] at he
    by_cases hk : k = call.agentId
    · rw [if_pos hk] at he
      exact bucketCell_kept hq hb call (h.buckets k) b he.symm
    · rw [if_neg hk] at he
      exact h.buckets k b he.symm
  answer call limiter h := by
    rw [← h.config]
    rfl
  self call limiter h := by rw [admit_entry, if_pos rfl, h.config]
  other call limiter k _ hk := by rw [admit_entry, if_neg hk]

/-- Pruning drops full buckets only, and no stored bucket is full. -/
theorem maybePrune_eq {limiter : RateLimiter} (h : limiter.Sound cfg) (now : ℚ) :
    maybePrune limiter.inner now = limiter.inner := by
  unfold maybePrune
  by_cases hlen : limiter.inner.keys.length < maxBuckets
  · rw [if_pos hlen]
  · rw [if_neg hlen]
    refine retain_all ?_
    intro k b hm
    have hk := h.buckets k b hm
    have hroom : ¬ (b.capacity : ℚ) ≤ b.tokens := by
      rw [hk.capacity]
      exact not_le.mpr hk.drained
    simp only [decide_eq_false hroom, Bool.false_and, Bool.not_false]

theorem check_eq_admitted {limiter : RateLimiter} (h : limiter.Sound cfg) (call : Admission) :
    RateLimiter.check call limiter = RateLimiter.takeToken call limiter := by
  rw [RateLimiter.check, maybePrune_eq h]

theorem check_local (hq : 0 < cfg.qps) (hb : 0 < cfg.burst) :
    Local Admission.agentId (bucketCell cfg) RateLimiter.entry (RateLimiter.Sound cfg)
      RateLimiter.check where
  inv call limiter h := check_eq_admitted h call ▸ (admit_local hq hb).inv call limiter h
  answer call limiter h := check_eq_admitted h call ▸ (admit_local hq hb).answer call limiter h
  self call limiter h := check_eq_admitted h call ▸ (admit_local hq hb).self call limiter h
  other call limiter k h hk := check_eq_admitted h call ▸ (admit_local hq hb).other call limiter k h hk

theorem fromConfig_some {limiter : RateLimiter} (h : RateLimiter.fromConfig cfg = some limiter) :
    0 < cfg.qps ∧ 0 < cfg.burst ∧ limiter = ⟨cfg, ∅⟩ := by
  unfold RateLimiter.fromConfig at h
  by_cases he : cfg.isEnabled = true
  · obtain rfl := Option.some.inj ((if_pos he).symm.trans h)
    simp only [RateLimitConfig.isEnabled, Bool.and_eq_true, decide_eq_true_eq] at he
    exact ⟨he.1, he.2, rfl⟩
  · exact absurd ((if_neg he).symm.trans h) (by simp)

/-- The outcomes of one agent's calls in a run. -/
def outcomesFor (k : String) (run : List (Admission × RateLimitOutcome)) :
    List (Admission × RateLimitOutcome) :=
  run.filter fun p => p.1.agentId = k

/-- Over any run at non-decreasing times, an agent is allowed at most `burst`
plus the refill of the interval, and is answered as if it were alone and
nothing were pruned. -/
theorem admission_bound (cfg : RateLimitConfig) (limiter : RateLimiter)
    (hl : RateLimiter.fromConfig cfg = some limiter) (calls : List Admission)
    (hsort : calls.Pairwise fun a b => a.time ≤ b.time) (k : String) :
    (∀ s e : ℚ, s ≤ e →
      ((outcomesFor k (outcomes RateLimiter.check limiter calls)).countP
        (allowedWithin s e) : ℚ) ≤ cfg.burst + cfg.qps * (e - s)) ∧
      outcomesFor k (outcomes RateLimiter.check limiter calls) =
        outcomes RateLimiter.takeToken limiter (calls.filter fun c => c.agentId = k) := by
  obtain ⟨hq, hb, rfl⟩ := fromConfig_some hl
  have hsound : RateLimiter.Sound cfg ⟨cfg, ∅⟩ :=
    ⟨rfl, fun k b hm => absurd hm (by simp)⟩
  have halone := (check_local hq hb).outcomes_of_key k calls hsound
  refine ⟨?_, ?_⟩
  · intro s e hse
    rw [outcomesFor, halone]
    refine allowed_le_burst hq hb hse _ (hsort.filter _) ?_
    intro b hm
    exact absurd hm (by simp [RateLimiter.entry])
  · have hmine : ∀ c ∈ calls.filter (fun c => c.agentId = k), c.agentId = k :=
      fun c hc => of_decide_eq_true (List.mem_filter.mp hc).2
    rw [outcomesFor, halone, (admit_local hq hb).outcomes_alone hmine hsound]

def twoPerSecond : RateLimitConfig := ⟨2, 1⟩

def threeCalls : List Admission := [⟨0, "bot"⟩, ⟨1 / 4, "bot"⟩, ⟨1, "bot"⟩]

theorem admission_bound_twoPerSecond :
    (∀ s e : ℚ, s ≤ e →
      ((outcomesFor "bot" (outcomes RateLimiter.check ⟨twoPerSecond, ∅⟩ threeCalls)).countP
        (allowedWithin s e) : ℚ) ≤ twoPerSecond.burst + twoPerSecond.qps * (e - s)) ∧
      outcomesFor "bot" (outcomes RateLimiter.check ⟨twoPerSecond, ∅⟩ threeCalls) =
        outcomes RateLimiter.takeToken ⟨twoPerSecond, ∅⟩
          (threeCalls.filter fun c => c.agentId = "bot") :=
  admission_bound twoPerSecond ⟨twoPerSecond, ∅⟩
    (by simp [RateLimiter.fromConfig, RateLimitConfig.isEnabled, twoPerSecond]) threeCalls
    (by norm_num [threeCalls]) "bot"

end ClavenarLite
