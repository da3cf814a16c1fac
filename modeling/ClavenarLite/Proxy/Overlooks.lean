import ClavenarLite.Proxy.Bystanders
import ClavenarLite.Proxy.Governed
import ClavenarLite.Proxy.HiddenRows
import ClavenarLite.Proxy.Results

/-! Two states of the service, of which the one is the other with what the requests of one
identity have left: the operations of a request cannot tell, unless they name it. -/

namespace ClavenarLite

open Bytes Fallible Interaction Keyed Rfc3339 TextJson Transaction

/-- What the processes judge with: the serializer, and the worker of an instance at a
reading of its clocks, as it meets an input. -/
structure Engines where
  serialize : PolicyInput → Except String String
  worker : String → Reading → PolicyInput → Worker

/-- What an operation may do where the limiter and the policy engine go by the clocks of
the process, and nothing else is left open in them. -/
def ClockedPerforms (L : Libraries) (E : Engines) : {β : Type} → McpOp β → Timed → β → Timed → Prop
  | _, .checkRate i key, s, b, s' => s'.reading = s.reading ∧ ∃ limiter,
      RateLimiter.check ⟨(s.reading i).now, key⟩ (s.world.memory i).limiter = (b, limiter) ∧
      s'.world = s.world.remember i { s.world.memory i with limiter }
  | _, .evaluate i input, s, b, s' => s'.reading = s.reading ∧ ∃ velocity,
      evaluate E.serialize (E.worker i (s.reading i)
          (injectCount (s.world.memory i).velocity (s.reading i).now input).1)
        (s.reading i).now input (s.world.memory i).velocity = (b, velocity) ∧
      s'.world = s.world.remember i { s.world.memory i with velocity }
  | _, op, s, b, s' => s'.reading = s.reading ∧ McpPerforms L op s.world b s'.world

/-- Clocks move, and a process that restarts has the limiter of its configuration. -/
inductive ClockedOutside (F : FloatText) : Timed → Timed → Prop
  | world {w w' : World} {reading : String → Reading} (h : Outside F w w')
      (hm : ∀ i, w'.memory i = w.memory i ∨ (w'.memory i).Fresh) :
      ClockedOutside F ⟨w, reading⟩ ⟨w', reading⟩
  | tick {w : World} {reading reading' : String → Reading}
      (h : ∀ i, (reading i).now ≤ (reading' i).now) :
      ClockedOutside F ⟨w, reading⟩ ⟨w, reading'⟩

def clockedRules (L : Libraries) (E : Engines) : Rules McpOp Timed McpJob Ended where
  program := McpJob.program L
  performs := ClockedPerforms L E
  outside := ClockedOutside L.floats

/-- The request is of the identity. -/
def McpJob.Of (who : AgentIdentity) (job : McpJob) : Prop :=
  identify job.state.agents job.headers = some who

theorem of_iff_key {who : AgentIdentity} {job : McpJob} :
    (identify job.state.agents job.headers).map AgentIdentity.canonicalKey =
      some who.canonicalKey ↔ job.Of who :=
  (Option.map_injective canonicalKey_injective).eq_iff (b := some who)

instance (who : AgentIdentity) : DecidablePred (McpJob.Of who) :=
  fun _ => decidable_of_iff _ of_iff_key

/-- The request passes the gates as this tool call. -/
def CallsTool (L : Libraries) (job : McpJob) (call : McpCall) : Prop :=
  (∃ fallback, gates L job.state job.headers job.body fallback = .ok call) ∧
    isMcpControlMethod call.parsed.method = false

section Rules

variable {L : Libraries} {E : Engines} {job : McpJob} {call : McpCall} {cs : McpCalls}
  {binding : Option ServerExecutionBinding} {b : ServerExecutionBinding} {v : Verdict}
  {who : AgentIdentity}

theorem Inspected.calls (h : Inspected L job call binding cs) : CallsTool L job call := by
  obtain ⟨_, ⟨u, hg, _⟩, hm, _⟩ := h
  exact ⟨⟨u.text, hg⟩, hm⟩

theorem Judged.calls (h : Judged L job call binding v cs) : CallsTool L job call := by
  obtain ⟨_, _, hi, _⟩ := h
  exact hi.calls

theorem Released.calls (h : Released L job call binding v cs) : CallsTool L job call := by
  obtain ⟨⟨_, hj, _⟩, _⟩ := h
  exact hj.calls

theorem Bound.key (h : Bound L job call (some b)) : ∃ id, call.serverExecution = some id ∧
    b.key = (call.identity.agentId, id.text) := by
  obtain ⟨_, hnone⟩ | ⟨id, value, hs, _, hb⟩ := h
  · exact absurd hnone (by simp)
  · refine ⟨id, hs, ?_⟩
    rw [Option.some.inj hb]
    rfl

/-- What a tool call is about is hidden, or is not. -/
structure Hidden.Sorts (H : Hidden) (hidden : Prop) (job : McpJob) (call : McpCall) : Prop where
  keys : ∀ id, call.serverExecution = some id →
    (H.keys (call.identity.agentId, id.text) ↔ hidden)
  ids : job.state.mode = .enforce → (H.ids call.correlationId ↔ hidden)

variable {H : Hidden} {hidden : Prop}

theorem Hidden.Sorts.key (h : H.Sorts hidden job call) (hb : Bound L job call (some b)) :
    H.keys b.key ↔ hidden := by
  obtain ⟨id, hs, hkey⟩ := hb.key
  rw [hkey]
  exact h.keys id hs

/-- Where every tool call of the request is hidden, or none is, so is every operation. -/
theorem rule_sorts {β : Type} {op : McpOp β} (hr : McpRule L job cs op)
    (h : ∀ call, CallsTool L job call → H.Sorts hidden job call) :
    (hidden → H.Stores op) ∧ (¬ hidden → H.Spares op) := by
  cases op with
  | inspectServerExecution b =>
    obtain ⟨call, ⟨u, hg, _⟩, hb, hm⟩ := hr
    have hkey := (h call ⟨⟨u.text, hg⟩, hm⟩).key hb
    exact ⟨fun _ => trivial, fun hn hk => hn (hkey.mp hk)⟩
  | getPending c =>
    obtain ⟨call, _, v, hj, hn, _, rfl⟩ := hr
    have hid := (h call hj.calls).ids hn.2
    exact ⟨fun _ => trivial, fun hn hk => hn (hid.mp hk)⟩
  | parkPending req =>
    obtain ⟨call, v, _, url, pre, hj, hn, rfl, _⟩ := hr
    have hid := (h call hj.calls).ids hn.2
    exact ⟨hid.mpr, fun hn hk => hn (hid.mp hk)⟩
  | beginServerExecution i b =>
    obtain ⟨call, v, hrel, _⟩ := hr
    have hkey := (h call hrel.calls).key hrel.binds
    exact ⟨hkey.mpr, fun hn hk => hn (hkey.mp hk)⟩
  | completeServerExecution b st ct body =>
    obtain ⟨call, v, pre, answer, ⟨_, hrel, _⟩, _⟩ := hr
    have hkey := (h call hrel.calls).key hrel.binds
    exact ⟨hkey.mpr, fun hn hk => hn (hkey.mp hk)⟩
  | _ => exact ⟨fun _ => trivial, fun _ => trivial⟩

/-- The key of a request is that of the identity it is of. -/
theorem agentKey_iff {fallback : String}
    (h : gates L job.state job.headers job.body fallback = .ok call) :
    call.agentKey = who.canonicalKey ↔ job.Of who := by
  rw [McpJob.Of, (gates_ok h).identified, Option.some.injEq]
  exact canonicalKey_injective.eq_iff

theorem Opened.gate (h : Opened L job call cs) :
    ∃ fallback, gates L job.state job.headers job.body fallback = .ok call := by
  obtain ⟨u, hg, _⟩ := h
  exact ⟨u.text, hg⟩

theorem ClockedPerforms.performs {β : Type} {op : McpOp β} {s s' : Timed} {a : β}
    (h : ClockedPerforms L E op s a s') : McpPerforms L op s.world a s'.world := by
  cases op with
  | checkRate i key =>
    obtain ⟨_, limiter, hcheck, hw⟩ := h
    exact ⟨_, limiter, hcheck, hw⟩
  | evaluate i input =>
    obtain ⟨_, velocity, he, hw⟩ := h
    exact ⟨_, _, _, velocity, he, hw⟩
  | _ => exact h.2

theorem ClockedPerforms.reading {β : Type} {op : McpOp β} {s s' : Timed} {a : β}
    (h : ClockedPerforms L E op s a s') : s'.reading = s.reading := by
  cases op <;> exact h.1

/-- A run that goes by the clocks is a run of the service, without them. -/
theorem unclocked {s₀ : Timed} {p : Pool McpOp Timed McpJob Ended}
    (h : Pool.Reachable (clockedRules L E) s₀ p) :
    Pool.Reachable (mcpRules L) s₀.world ⟨p.state.world, p.threads⟩ := by
  have hprogram : (clockedRules L E).program = (mcpRules L).program := rfl
  refine Pool.Steps.image Timed.world hprogram
    (fun _ _ _ _ hp => ClockedPerforms.performs hp) (fun s s' ho => ?_) h
  cases ho with
  | world ho _ => exact Or.inl ho
  | tick _ => exact Or.inr rfl

end Rules

/-- The one state is the other with what is hidden, as far as anybody else can tell. -/
structure Overlooks (H : Hidden) (who : AgentIdentity) (s r : Timed) : Prop where
  file : s.world.db.Covers H r.world.db
  memory : ∀ i, MemoryAlike who.canonicalKey (s.reading i).now (s.world.memory i)
    (r.world.memory i)
  reading : r.reading = s.reading

section Steps

variable {L : Libraries} {E : Engines} {job : McpJob} {cs : McpCalls} {who : AgentIdentity}
  {H : Hidden} {s s' r : Timed}

/-- One memory of a process was written. -/
theorem MemoryAlike.remember {key : String} {now : String → ℚ} {w w' : World} {i : String}
    {m m' : Memory} (h : ∀ j, MemoryAlike key (now j) (w.memory j) (w'.memory j))
    (hm : MemoryAlike key (now i) m m') (j : String) :
    MemoryAlike key (now j) ((w.remember i m).memory j) ((w'.remember i m').memory j) := by
  by_cases hj : j = i
  · subst hj
    simpa [World.remember] using hm
  · simpa [World.remember, hj] using h j

theorem MemoryAlike.forgotten {key : String} {now : String → ℚ} {w w' : World} {i : String}
    {m : Memory} (h : ∀ j, MemoryAlike key (now j) (w.memory j) (w'.memory j))
    (hm : MemoryAlike key (now i) m (w'.memory i)) (j : String) :
    MemoryAlike key (now j) ((w.remember i m).memory j) (w'.memory j) := by
  by_cases hj : j = i
  · subst hj
    simpa [World.remember] using hm
  · simpa [World.remember, hj] using h j

/-- A call of the ledger that is about other rows. -/
theorem Overlooks.ledger (hS : Overlooks H who s r) (hreading : s'.reading = s.reading) {β : Type}
    {f : Oracle → Db → β × Db} {a : β} (h : LedgerCall f s.world a s'.world) {K : β → β → Prop}
    (hagain : ∀ oracle db', f oracle s.world.db = (a, db') → ∃ oracle' a' r',
      f oracle' r.world.db = (a', r') ∧ K a' a ∧ db'.Covers H r') :
    ∃ a' r', (r'.reading = r.reading ∧ LedgerCall f r.world a' r'.world) ∧ K a' a ∧
      Overlooks H who s' r' := by
  obtain ⟨oracle, db', hf, hw⟩ := h
  obtain ⟨oracle', a', file, hf', hK, hcovers⟩ := hagain oracle db' hf
  refine ⟨a', ⟨{ r.world with db := file }, r.reading⟩, ⟨rfl, oracle', file, hf', rfl⟩, hK, ?_⟩
  refine ⟨?_, fun i => ?_, hS.reading.trans hreading.symm⟩
  · rw [hw]
    exact hcovers
  · rw [hw, hreading]
    exact hS.memory i

theorem ClockedPerforms.memory {β : Type} {op : McpOp β} {a : β}
    (h : ClockedPerforms L E op s a s') (hop : isRemembering op = false) :
    s'.world.memory = s.world.memory := by
  cases op with
  | checkRate i key => exact absurd hop (by simp [isRemembering])
  | evaluate i input => exact absurd hop (by simp [isRemembering])
  | pinCatalog i key agentId body => exact absurd hop (by simp [isRemembering])
  | newV4 => exact congrArg World.memory h.2
  | utcNow => exact congrArg World.memory h.2
  | send body =>
    have hw : s'.world = { s.world with sent := s.world.sent ++ [body] } := h.2
    rw [hw]
  | append req | inspectServerExecution b | getPending c | parkPending req
  | beginServerExecution i b | completeServerExecution b st ct body =>
    obtain ⟨_, _, db, _, hw⟩ := h
    rw [hw]

/-- What is done for the identity makes no difference to anybody else. -/
theorem Overlooks.hides (hS : Overlooks H who s r) (hjob : job.Of who)
    (hsorts : ∀ call, CallsTool L job call → H.Sorts (job.Of who) job call) {β : Type}
    {op : McpOp β} {a : β} (hr : McpRule L job cs op) (hp : ClockedPerforms L E op s a s') :
    Overlooks H who s' r := by
  have hfile : s'.world.db.Covers H r.world.db :=
    (hp.performs.covers ((rule_sorts hr hsorts).1 hjob)).trans hS.file
  refine ⟨hfile, ?_, hS.reading.trans hp.reading.symm⟩
  have hreading := hp.reading
  cases op with
  | checkRate i key =>
    obtain ⟨call, u, hg, rfl, rfl, _⟩ := hr
    obtain ⟨_, limiter, hcheck, hw⟩ := hp
    have hchecked := (hS.memory job.state.instanceId).checked
      ⟨(s.reading job.state.instanceId).now, call.agentKey⟩ ((agentKey_iff hg).mpr hjob)
    rw [hcheck] at hchecked
    rw [hw, hreading]
    exact MemoryAlike.forgotten hS.memory hchecked
  | evaluate i input =>
    obtain ⟨call, binding, hi, rfl, rfl⟩ := hr
    obtain ⟨fallback, hg⟩ := hi.calls.1
    obtain ⟨_, velocity, he, hw⟩ := hp
    let admission : Admission := ⟨(s.reading job.state.instanceId).now, call.agentKey⟩
    have hkey : admission.agentId = who.canonicalKey := (agentKey_iff hg).mpr hjob
    have hrecorded := (hS.memory job.state.instanceId).recorded hkey rfl
    have hvelocity : velocity =
        ((s.world.memory job.state.instanceId).velocity.recordAndCount admission).2 :=
      (congrArg Prod.snd he).symm.trans evaluate_tracker
    rw [hw, hreading, hvelocity]
    exact MemoryAlike.forgotten hS.memory hrecorded
  | pinCatalog i key agentId body =>
    obtain ⟨call, pre, answer, ⟨ho, _⟩, rfl, _⟩ := hr
    obtain ⟨fallback, hg⟩ := ho.gate
    obtain ⟨_, pins, hpin, hw⟩ := hp
    have hpinned := (hS.memory i).pinned (F := L.floats) agentId body
    rw [← (agentKey_iff hg).mpr hjob, hpin] at hpinned
    rw [hw, hreading, ← (agentKey_iff hg).mpr hjob]
    exact MemoryAlike.forgotten ((agentKey_iff hg).mpr hjob ▸ hS.memory) hpinned
  | _ =>
    rw [hp.memory rfl, hreading]
    exact hS.memory

/-- On one input the engine decides the same, whatever else has been counted. -/
theorem evaluate_congr {serialize : PolicyInput → Except String String} {worker : Worker} {now : ℚ}
    {input : PolicyInput} {tracker tracker' : VelocityTracker}
    (h : (injectCount tracker now input).1 = (injectCount tracker' now input).1) :
    (evaluate serialize worker now input tracker).1 =
      (evaluate serialize worker now input tracker').1 := by
  unfold evaluate
  generalize injectCount tracker now input = injected at h
  generalize injectCount tracker' now input = injected' at h
  obtain ⟨effective, _⟩ := injected
  obtain ⟨effective', _⟩ := injected'
  obtain rfl : effective = effective' := h
  simp only
  cases serialize effective with
  | error e => rfl
  | ok json => rfl

theorem Overlooks.shows_rate (hS : Overlooks H who s r) {i key : String}
    (hkey : key ≠ who.canonicalKey) {a : RateLimitOutcome}
    (hp : ClockedPerforms L E (.checkRate i key) s a s') : ∃ r',
      ClockedPerforms L E (.checkRate i key) r a r' ∧ Overlooks H who s' r' := by
  obtain ⟨hreading, limiter, hcheck, hw⟩ := hp
  obtain ⟨hsame, halike⟩ := (hS.memory i).checks ⟨(s.reading i).now, key⟩ hkey
  rw [hcheck] at hsame halike
  refine ⟨⟨r.world.remember i _, r.reading⟩, ⟨rfl, _, Prod.ext ?_ rfl, rfl⟩, ?_, ?_, ?_⟩
  · rw [hS.reading]
    exact hsame.symm
  · rw [hw]
    exact hS.file
  · rw [hw, hreading, hS.reading]
    exact MemoryAlike.remember hS.memory halike
  · exact hS.reading.trans hreading.symm

theorem Overlooks.shows_evaluation (hS : Overlooks H who s r) {i : String} {body : Octets}
    {call : McpCall} (hkey : call.agentKey ≠ who.canonicalKey) {a : PolicyDecision}
    (hp : ClockedPerforms L E (.evaluate i (policyInput L body call)) s a s') : ∃ r',
      ClockedPerforms L E (.evaluate i (policyInput L body call)) r a r' ∧
        Overlooks H who s' r' := by
  obtain ⟨hreading, velocity, he, hw⟩ := hp
  let admission : Admission := ⟨(s.reading i).now, call.agentKey⟩
  have hother : admission.agentId ≠ who.canonicalKey := hkey
  obtain ⟨hcount, halike⟩ := (hS.memory i).records hother rfl
  have hinput : (injectCount (s.world.memory i).velocity (s.reading i).now
      (policyInput L body call)).1 = (injectCount (r.world.memory i).velocity (s.reading i).now
        (policyInput L body call)).1 :=
    congrArg (fun n => { policyInput L body call with recentRequestCount := n }) hcount
  have hvelocity : velocity = ((s.world.memory i).velocity.recordAndCount admission).2 :=
    (congrArg Prod.snd he).symm.trans evaluate_tracker
  have hdecision := congrArg Prod.fst he
  rw [evaluate_congr hinput, hinput] at hdecision
  refine ⟨⟨r.world.remember i _, r.reading⟩, ⟨rfl, _, Prod.ext ?_ evaluate_tracker, rfl⟩, ?_, ?_, ?_⟩
  · rw [hS.reading]
    exact hdecision
  · rw [hw]
    exact hS.file
  · rw [hw, hreading, hvelocity, hS.reading]
    exact MemoryAlike.remember hS.memory halike
  · exact hS.reading.trans hreading.symm

theorem Overlooks.shows_catalog (hS : Overlooks H who s r) {i key agentId : String} {body : Octets}
    (hkey : key ≠ who.canonicalKey) {a : Option LogRequest}
    (hp : ClockedPerforms L E (.pinCatalog i key agentId body) s a s') : ∃ r',
      ClockedPerforms L E (.pinCatalog i key agentId body) r a r' ∧ Overlooks H who s' r' := by
  obtain ⟨hreading, pins, hpin, hw⟩ := hp
  obtain ⟨hsame, halike⟩ := @MemoryAlike.pinning L.floats _ _ _ _ (hS.memory i) key hkey agentId body
  rw [hpin] at hsame halike
  have hanswer : (pinOrDiff L.floats key agentId body (r.world.memory i).pins).1 = a := hsame.symm
  refine ⟨⟨r.world.remember i _, r.reading⟩, ⟨rfl, _, Prod.ext hanswer rfl, rfl⟩, ?_, ?_, ?_⟩
  · rw [hw]
    exact hS.file
  · rw [hw, hreading]
    exact MemoryAlike.remember hS.memory halike
  · exact hS.reading.trans hreading.symm

/-- What is done for anybody else is answered as it is without the identity. -/
theorem Overlooks.shows (hS : Overlooks H who s r) (hjob : ¬ job.Of who)
    (hsorts : ∀ call, CallsTool L job call → H.Sorts (job.Of who) job call) {β : Type}
    {op : McpOp β} {a : β} (hr : McpRule L job cs op) (hp : ClockedPerforms L E op s a s') :
    ∃ a' r', ClockedPerforms L E op r a' r' ∧ identityBlind.answer op op a a' ∧
      Overlooks H who s' r' := by
  have hspares := (rule_sorts hr hsorts).2 hjob
  have hreading := hp.reading
  cases op with
  | newV4 =>
    have hw : s'.world = s.world := hp.2
    exact ⟨a, r, ⟨rfl, rfl⟩, rfl, hw ▸ hS.file, by rw [hw, hreading]; exact hS.memory,
      hS.reading.trans hreading.symm⟩
  | utcNow =>
    have hw : s'.world = s.world := hp.2
    exact ⟨a, r, ⟨rfl, rfl⟩, rfl, hw ▸ hS.file, by rw [hw, hreading]; exact hS.memory,
      hS.reading.trans hreading.symm⟩
  | send body =>
    have hw : s'.world = { s.world with sent := s.world.sent ++ [body] } := hp.2
    exact ⟨a, ⟨{ r.world with sent := r.world.sent ++ [body] }, r.reading⟩, ⟨rfl, rfl⟩, rfl,
      by rw [hw]; exact hS.file, by rw [hw, hreading]; exact hS.memory,
      hS.reading.trans hreading.symm⟩
  | checkRate i key =>
    obtain ⟨call, u, hg, _, rfl, _⟩ := hr
    obtain ⟨r', hp', hS'⟩ := hS.shows_rate (mt (agentKey_iff hg).mp hjob) hp
    exact ⟨a, r', hp', rfl, hS'⟩
  | evaluate i input =>
    obtain ⟨call, binding, hi, _, rfl⟩ := hr
    obtain ⟨fallback, hg⟩ := hi.calls.1
    obtain ⟨r', hp', hS'⟩ := hS.shows_evaluation (mt (agentKey_iff hg).mp hjob) hp
    exact ⟨a, r', hp', rfl, hS'⟩
  | pinCatalog i key agentId body =>
    obtain ⟨call, pre, answer, ⟨ho, _⟩, rfl, _⟩ := hr
    obtain ⟨fallback, hg⟩ := ho.gate
    obtain ⟨r', hp', hS'⟩ := hS.shows_catalog (mt (agentKey_iff hg).mp hjob) hp
    exact ⟨a, r', hp', rfl, hS'⟩
  | append req =>
    obtain ⟨a', r', hp', hsame, hS'⟩ := hS.ledger hreading hp.2 (K := fun a' a => a'.isOk = a.isOk)
      fun _ _ hf => hS.file.append hf
    exact ⟨a', r', hp', hsame.symm, hS'⟩
  | inspectServerExecution b =>
    obtain ⟨a', r', hp', hsame, hS'⟩ := hS.ledger hreading hp.2
      (K := fun a' a => a'.toOption = a.toOption) fun _ _ hf => hS.file.inspect hspares hf
    exact ⟨a', r', hp', hsame.symm, hS'⟩
  | getPending c =>
    obtain ⟨a', r', hp', hsame, hS'⟩ := hS.ledger hreading hp.2
      (K := fun a' a => a'.toOption = a.toOption) fun _ _ hf => hS.file.getPending hspares hf
    exact ⟨a', r', hp', hsame.symm, hS'⟩
  | parkPending req =>
    obtain ⟨a', r', hp', hsame, hS'⟩ := hS.ledger hreading hp.2
      (K := fun a' a => a'.toOption = a.toOption) fun _ _ hf => hS.file.park hspares hf
    exact ⟨a', r', hp', hsame.symm, hS'⟩
  | beginServerExecution i b =>
    obtain ⟨a', r', hp', hsame, hS'⟩ := hS.ledger hreading hp.2
      (K := fun a' a => a'.toOption = a.toOption) fun _ _ hf => hS.file.start hspares hf
    exact ⟨a', r', hp', hsame.symm, hS'⟩
  | completeServerExecution b st ct body =>
    obtain ⟨a', r', hp', hsame, hS'⟩ := hS.ledger hreading hp.2
      (K := fun a' a => a'.toOption = a.toOption) fun _ _ hf => hS.file.complete hspares hf
    exact ⟨a', r', hp', hsame.symm, hS'⟩

theorem Overlooks.restarts (hS : Overlooks H who s r) {i : String} {m : Memory}
    (hm : m = s.world.memory i ∨ m.Fresh) : ∃ r',
      Relation.ReflTransGen (ClockedOutside L.floats) r r' ∧
        Overlooks H who ⟨s.world.remember i m, s.reading⟩ r' := by
  rcases hm with rfl | hm
  · exact ⟨r, .refl, hS.file, MemoryAlike.forgotten hS.memory (hS.memory i), hS.reading⟩
  · have hstep : ClockedOutside L.floats r ⟨r.world.remember i m, r.reading⟩ := by
      refine .world (.restart i m) fun j => ?_
      by_cases hj : j = i
      · subst hj
        exact Or.inr (by simpa [World.remember] using hm)
      · exact Or.inl (by simp [World.remember, hj])
    exact ⟨_, .single hstep, hS.file, MemoryAlike.remember hS.memory (hm.alike _ _), hS.reading⟩

/-- What operators decide about hidden requests, and what reconcilers find, is left out. -/
theorem Overlooks.outside (hS : Overlooks H who s r) (h : ClockedOutside L.floats s s') : ∃ r',
    Relation.ReflTransGen (ClockedOutside L.floats) r r' ∧ Overlooks H who s' r' := by
  cases h with
  | @world w w' reading h hm =>
    cases h with
    | reconcile i now oracle =>
      refine ⟨r, .refl, ?_, hS.memory, hS.reading⟩
      generalize hr : Ledger.reconcileServerExecutionsAt L.floats i now oracle w.db = result
      obtain ⟨result, db⟩ := result
      cases result with
      | error e => exact transaction_error hr ▸ hS.file
      | ok n => exact (reconcile_ok hr).covers.trans hS.file
    | decide id tenant decision note oracle =>
      by_cases hid : H.ids id
      · exact ⟨r, .refl, (covers_decided hid tenant decision note oracle _).trans hS.file,
          hS.memory, hS.reading⟩
      · have hstep : ClockedOutside L.floats r ⟨{ r.world with db := (Ledger.decidePendingScoped
            L.floats id tenant decision note oracle r.world.db).2 }, r.reading⟩ :=
          .world (.decide id tenant decision note oracle) fun _ => Or.inl rfl
        exact ⟨_, .single hstep, hS.file.decide hid tenant decision note oracle, hS.memory,
          hS.reading⟩
    | record decided oracle =>
      refine ⟨r, .refl, ?_, hS.memory, hS.reading⟩
      generalize hr : Ledger.append L.floats (decideLogRequest decided) oracle w.db = result
      obtain ⟨result, db⟩ := result
      cases result with
      | error e => exact append_error hr ▸ hS.file
      | ok e => exact (covers_appends ⟨e, autocommit_ok hr⟩).trans hS.file
    | restart i m =>
      have hself : (w.remember i m).memory i = m := by simp [World.remember]
      exact hS.restarts (hself ▸ hm i)
  | @tick w reading reading' h =>
    have hstep : ClockedOutside L.floats r ⟨r.world, reading'⟩ :=
      .tick fun i => by rw [hS.reading]; exact h i
    exact ⟨_, .single hstep, hS.file, fun i => (hS.memory i).later (h i), rfl⟩

end Steps

end ClavenarLite
