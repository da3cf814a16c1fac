import ClavenarLite.Proxy.Served

/-! What reaches the upstream: a request is sent at most once, only after its
gates, and no key of a server execution is sent twice in any run. -/

namespace ClavenarLite

open Bytes Fallible Interaction TextJson Transaction

variable {L : Libraries} {job : McpJob} {call : McpCall} {b : ServerExecutionBinding}
  {binding : Option ServerExecutionBinding} {v : Verdict} {cs : McpCalls}

def isSend : Call McpOp → Bool
  | ⟨.send _, _⟩ => true
  | _ => false

/-- How often the call started the execution with the key. -/
def starts (key : String × String) : Call McpOp → Nat
  | ⟨.beginServerExecution _ b, .ok .started⟩ => if b.key = key then 1 else 0
  | _ => 0

theorem Opened.unsent (h : Opened L job call cs) : cs.countP isSend = 0 := by
  obtain ⟨u, _, rfl⟩ := h
  unfold ratePart
  split_ifs <;> rfl

theorem Judged.unsent (h : Judged L job call binding v cs) : cs.countP isSend = 0 := by
  obtain ⟨_, r, ⟨pre, ho, _, _, rfl⟩, _, rfl⟩ := h
  rw [List.countP_append, List.countP_append, ho.unsent]
  cases binding <;> rfl

theorem Reviewed.unsent (h : Reviewed L job call binding v cs) : cs.countP isSend = 0 := by
  obtain ⟨pre, hj, hr⟩ := h
  rcases hr with ⟨_, rfl⟩ | ⟨_, _, p, _, rfl⟩
  · exact hj.unsent
  · rw [List.countP_append, hj.unsent]
    rfl

theorem Begun.unsent (h : Begun L job call b v cs) : cs.countP isSend = 0 := by
  obtain ⟨pre, hr, rfl⟩ := h
  rw [List.countP_append, hr.1.unsent]
  rfl

theorem send_first {before : McpCalls} {made : Call McpOp} (hm : McpRule L job before made.op)
    (hs : isSend made = true) : before.countP isSend = 0 := by
  obtain ⟨op, answer⟩ := made
  cases op with
  | send body =>
    obtain ⟨_, call, hc | ⟨b, v, hb⟩⟩ := hm
    · exact hc.1.unsent
    · exact hb.unsent
  | _ => exact absurd hs (by simp [isSend])

/-- The key of the execution that a request selects. -/
def McpJob.executionKey (job : McpJob) : Option (String × String) := do
  let identity ← identify job.state.agents job.headers
  let selected ← (parseServerExecutionRequest job.headers).toOption
  let id ← selected
  return (identity.agentId, id.text)

theorem Bound.executionKey {u : String}
    (hg : gates L job.state job.headers job.body u = .ok call)
    (hb : Bound L job call (some b)) : job.executionKey = some b.key := by
  have hp := gates_ok hg
  rcases hb with ⟨_, hn⟩ | ⟨id, value, hs, _, hb⟩
  · exact absurd hn (by simp)
  · obtain rfl := Option.some.inj hb
    rw [McpJob.executionKey, hp.identified, hp.serverExecution, hs]
    rfl

theorem Controlling.executionKey (h : Controlling L job call cs) : job.executionKey = none := by
  obtain ⟨⟨u, hg, _⟩, _, hs, _⟩ := h
  have hp := gates_ok hg
  rw [McpJob.executionKey, hp.identified, hp.serverExecution, hs]
  rfl

/-- The number of rows with the key. -/
def Db.keyCount (db : Db) (key : String × String) : Nat :=
  (db.serverExecutions.map ExecutionRow.key).count key

theorem keyCount_of_columns {db db' : Db} (h : db'.columns = db.columns) (key : String × String) :
    db'.keyCount key = db.keyCount key := by
  rw [Db.keyCount, keys_of_columns h, Db.keyCount]

theorem Begins.keyCount {F : FloatText} {i : String} {db db' : Db} (h : Begins F i b db db')
    (key : String × String) : db'.keyCount key = db.keyCount key + if b.key = key then 1 else 0 := by
  obtain ⟨createdAt, ha⟩ := h.appends
  rw [Db.keyCount, (appends_tables ha).1, Db.withIntent, List.map_append, List.count_append,
    List.map_singleton, Db.keyCount]
  have hrow : (intentRow i b createdAt).key = b.key := rfl
  rw [hrow]
  by_cases hkey : b.key = key
  · simp [hkey]
  · simp [hkey]

/-- A row with the key is added exactly by a call that started its execution. -/
theorem Change.keyCount {F : FloatText} {made : Call McpOp} {db db' : Db}
    (h : Change F made db db') (key : String × String) :
    db'.keyCount key = db.keyCount key + starts key made := by
  cases h with
  | unchanged hm h =>
    have hnone : starts key made = 0 := by
      unfold starts
      split
      · exact absurd hm (by simp [isWrite])
      · rfl
    rw [h, hnone, Nat.add_zero]
  | appends hm h =>
    rw [hm, Db.keyCount, (appends_tables ⟨_, h⟩).1]
    rfl
  | parks hm _ h =>
    rw [hm, h]
    rfl
  | begins hm h =>
    rw [hm]
    exact h.keyCount key
  | completes hm h =>
    rw [hm]
    exact keyCount_of_columns (completes_columns h) key

theorem Change.begun {F : FloatText} {i : String} {db db' : Db}
    (h : Change F ⟨.beginServerExecution i b, .ok .started⟩ db db') : Begins F i b db db' := by
  have hone : starts b.key ⟨.beginServerExecution i b, .ok .started⟩ = 1 := if_pos rfl
  cases h with
  | begins hm h =>
    cases hm
    exact h
  | unchanged hm _ => exact absurd hm (by simp [isWrite])
  | appends hm _ => exact absurd (hm ▸ hone) (by simp [starts])
  | parks hm _ _ => exact absurd (hm ▸ hone) (by simp [starts])
  | completes hm _ => exact absurd (hm ▸ hone) (by simp [starts])

theorem Meanwhile.columns {F : FloatText} {db db' : Db} (h : Meanwhile F db db') :
    db'.columns = db.columns := by
  cases h with
  | classifies h => exact classifications_columns h
  | decides _ h => rw [h]; rfl
  | records h => exact congrArg (List.map _) (appends_tables h).1

section Runs

variable {w₀ : World} {p : Pool McpOp World McpJob Ended}

theorem keysDistinct_of_reachable (hk : KeysDistinct w₀.db)
    (h : Pool.Reachable (mcpRules L) w₀ p) : KeysDistinct p.state.db :=
  h.keeps (Q := fun w => KeysDistinct w.db) (fun _ => handleMcp_obeys) hk
    (fun _ _ _ _ _ _ _ _ hp hq => effects_keysDistinct (McpPerforms.change hp).effects hq)
    fun _ _ ho hq => effects_keysDistinct (Outside.change ho).effects hq

/-- An execution is started at most once. -/
theorem started_le_one (hk : KeysDistinct w₀.db) (h : Pool.Reachable (mcpRules L) w₀ p)
    (key : String × String) : p.total (starts key) ≤ 1 := by
  have hcount := h.accounts (Q := fun _ => True) (f := fun w => w.db.keyCount key)
    (g := starts key) (fun _ => handleMcp_obeys) (fun _ _ => trivial)
    (fun _ _ _ _ _ _ _ _ hp _ => (McpPerforms.change hp).keyCount key)
    fun _ _ ho => keyCount_of_columns (Outside.change ho).columns key
  have hone : p.state.db.keyCount key ≤ 1 :=
    List.nodup_iff_count_le_one.mp (keysDistinct_of_reachable hk h) key
  omega

theorem Begun.bound (h : Begun L job call b v cs) : ∃ u : Uuid,
    gates L job.state job.headers job.body u.text = .ok call ∧ Bound L job call (some b) := by
  obtain ⟨_, ⟨⟨_, ⟨_, _, ⟨_, ⟨u, hg, _⟩, _, hb, _⟩, _⟩, _⟩, _, _⟩, _⟩ := h
  exact ⟨u, hg, hb⟩

theorem Begun.starts_key (h : Begun L job call b v cs) : 1 ≤ (cs.map (starts b.key)).sum := by
  obtain ⟨pre, _, rfl⟩ := h
  simp [starts]

/-- A request sends at most as often as it started its execution. -/
theorem sends_le_starts {t : Thread McpOp McpJob Ended} (hf : t.Follows (mcpRules L))
    {key : String × String} (hkey : t.job.executionKey = some key) :
    t.calls.countP isSend ≤ t.total (starts key) := by
  have hone : t.calls.countP isSend ≤ 1 :=
    hf.once (fun _ => handleMcp_obeys) fun before made hm hs => send_first hm hs
  rcases Nat.eq_zero_or_pos (t.calls.countP isSend) with hz | hpos
  · omega
  · obtain ⟨made, hmem, hs⟩ := List.countP_pos_iff.mp hpos
    obtain ⟨before, after, hcalls⟩ := List.append_of_mem hmem
    have hm := rule_of_follows hf hcalls
    have hstarted : 1 ≤ (before.map (starts key)).sum := by
      obtain ⟨op, answer⟩ := made
      cases op with
      | send body =>
        obtain ⟨_, call, hc | ⟨b, v, hb⟩⟩ := hm
        · exact absurd (hc.executionKey.symm.trans hkey) (by simp)
        · obtain ⟨u, hg, hbound⟩ := hb.bound
          obtain rfl := Option.some.inj ((hbound.executionKey hg).symm.trans hkey)
          exact hb.starts_key
      | _ => exact absurd hs (by simp [isSend])
    have htotal : (before.map (starts key)).sum ≤ t.total (starts key) := by
      rw [Thread.total, hcalls, List.map_append, List.sum_append]
      exact Nat.le_add_right _ _
    omega

/-- The upstream requests that were sent for the key. -/
def sendsFor (key : String × String) (p : Pool McpOp World McpJob Ended) : Nat :=
  (p.threads.map fun t =>
    if t.job.executionKey = some key then t.calls.countP isSend else 0).sum

/-- However requests, crashes, restarts and reconcilers interleave, an execution
is started at most once and its request sent at most once. -/
theorem sent_at_most_once (hk : KeysDistinct w₀.db) (h : Pool.Reachable (mcpRules L) w₀ p)
    (key : String × String) : p.total (starts key) ≤ 1 ∧ sendsFor key p ≤ 1 := by
  have hstarted := started_le_one hk h key
  have hsends : sendsFor key p ≤ p.total (starts key) := by
    refine List.sum_le_sum fun t ht => ?_
    by_cases hkey : t.job.executionKey = some key
    · rw [if_pos hkey]
      exact sends_le_starts (h.follows t ht) hkey
    · rw [if_neg hkey]
      exact Nat.zero_le _
  exact ⟨hstarted, hsends.trans hstarted⟩

end Runs

/-- The execution is sent, and its upstream does not answer. -/
theorem executionJob_sent : ∃ cs e w, Prog.RunsTo (McpPerforms plainLibraries)
    (executionJob.program plainLibraries) freshWorld
    (cs ++ [⟨.send executionJob.body, .error "connection refused"⟩]) e w ∧
      cs.countP isSend = 0 := by
  obtain ⟨call, value, e, w, _, _, _, hrun, _⟩ :=
    executionJob_served (.bool true) (.set []) (.set [])
  exact ⟨[_, _, _, _, _], _, w, hrun, rfl⟩

theorem sent_at_most_once_execution : ∃ p : Pool McpOp World McpJob Ended,
    Pool.Reachable (mcpRules plainLibraries) freshWorld p ∧
      sendsFor ("bearer-agent", (numberedUuid 7).text) p = 1 ∧
      p.total (starts ("bearer-agent", (numberedUuid 7).text)) ≤ 1 := by
  obtain ⟨cs, e, w, hrun, hsent⟩ := executionJob_sent
  have hreach : Pool.Reachable (mcpRules plainLibraries) freshWorld
      ⟨w, [] ++ [⟨executionJob, _, .pure e⟩]⟩ :=
    Pool.Steps.serve hrun []
  have hkey : executionJob.executionKey = some ("bearer-agent", (numberedUuid 7).text) := by
    decide +kernel
  have hdistinct : KeysDistinct freshWorld.db := List.nodup_nil
  refine ⟨_, hreach, ?_, (sent_at_most_once hdistinct hreach _).1⟩
  simp [sendsFor, hkey, hsent, isSend]

def EntryRow.IsIntent (F : FloatText) (b : ServerExecutionBinding) (e : EntryRow) : Prop :=
  e.intentCategory = "ServerExecutionIntent" ∧ e.agentId = b.agentId ∧
    e.policyDecision = some ((intentReceipt b).text F)

/-- The execution is in flight, and the ledger says so. -/
structure Intended (F : FloatText) (b : ServerExecutionBinding) (db : Db) : Prop where
  row : ∃ r ∈ db.serverExecutions, r.columns = b.columns ∧ r.state = .inFlight
  entry : ∃ e ∈ db.entries, e.IsIntent F b

section Intended

variable {F : FloatText} {db db' : Db}

theorem appends_subset {req : LogRequest} (h : Appends F req db db') : db.entries ⊆ db'.entries := by
  obtain ⟨id, now, tip, _, _, rfl⟩ := appends_entries h
  exact List.subset_append_left _ _

theorem Begins.intended {i : String} (h : Begins F i b db db') : Intended F b db' := by
  obtain ⟨createdAt, ha⟩ := h.appends
  refine ⟨⟨intentRow i b createdAt, ?_, rfl, rfl⟩, ?_⟩
  · rw [(appends_tables ha).1]
    exact List.mem_append_right _ (List.mem_singleton.mpr rfl)
  · obtain ⟨id, now, tip, _, _, rfl⟩ := appends_entries ha
    exact ⟨_, List.mem_append_right _ (List.mem_singleton.mpr rfl), rfl, rfl, rfl⟩

/-- What is kept as long as the row stays or changes to one like it. -/
theorem Intended.kept (h : Intended F b db) (he : db.entries ⊆ db'.entries)
    (hr : ∀ r ∈ db.serverExecutions, r.key = b.key → r.state = .inFlight →
      ∃ r' ∈ db'.serverExecutions, r'.columns = r.columns ∧ r'.state = .inFlight) :
    Intended F b db' := by
  obtain ⟨⟨r, hmem, hcols, hstate⟩, e, hentry, hintent⟩ := h
  have hagent : r.agentId = b.agentId := congrArg RequestColumns.agentId hcols
  have hid : r.idempotencyId = b.idempotencyId.text := congrArg RequestColumns.idempotencyId hcols
  obtain ⟨r', hmem', hcols', hstate'⟩ := hr r hmem (Prod.ext hagent hid) hstate
  exact ⟨⟨r', hmem', hcols'.trans hcols, hstate'⟩, e, he hentry, hintent⟩

theorem Intended.appends {req : LogRequest} (h : Intended F b db) (ha : Appends F req db db') :
    Intended F b db' :=
  h.kept (appends_subset ha) fun r hr _ hs => ⟨r, (appends_tables ha).1 ▸ hr, rfl, hs⟩

theorem Intended.classifies {row : ExecutionRow} (h : Intended F b db)
    (hc : Classifies F row db db') : Intended F b db' := by
  obtain ⟨now, _, _, ha⟩ := hc.updates
  refine Intended.appends ?_ ha
  refine h.kept (List.Subset.refl _) fun r hr _ hs => ⟨_, List.mem_map_of_mem hr, ?_⟩
  split_ifs
  · exact ⟨rfl, hs⟩
  · exact ⟨rfl, hs⟩

/-- An execution is in flight until it is completed. -/
theorem Intended.change {made : Call McpOp} (h : Intended F b db) (hc : Change F made db db')
    (hother : ∀ b' st ct body c, made = ⟨.completeServerExecution b' st ct body, .ok c⟩ →
      b'.key ≠ b.key) : Intended F b db' := by
  cases hc with
  | unchanged _ he => exact he ▸ h
  | appends _ ha => exact h.appends ⟨_, ha⟩
  | parks _ _ he =>
    subst he
    exact ⟨h.row, h.entry⟩
  | begins _ hb =>
    obtain ⟨createdAt, ha⟩ := hb.appends
    refine Intended.appends ?_ ha
    exact h.kept (List.Subset.refl _) fun r hr _ hs => ⟨r, List.mem_append_left _ hr, rfl, hs⟩
  | completes hm hcomp =>
    have hne := hother _ _ _ _ _ hm
    obtain ⟨now, _, _, ha⟩ := hcomp.updates
    refine Intended.appends ?_ ha
    refine h.kept (List.Subset.refl _) fun r hr hkey hs =>
      ⟨r, mem_map_update hr fun hmatch => hne ?_, rfl, hs⟩
    rw [← hkey]
    exact (Prod.ext hmatch.1 hmatch.2.1).symm

theorem Intended.meanwhile (h : Intended F b db) (hc : Meanwhile F db db') :
    Intended F b db' := by
  cases hc with
  | classifies hc =>
    induction hc with
    | refl => exact h
    | tail _ hstep ih =>
      obtain ⟨row, hstep⟩ := hstep
      exact ih.classifies hstep
  | decides _ he =>
    subst he
    exact ⟨h.row, h.entry⟩
  | records ha => exact h.appends ha

end Intended

def isCompletion : Call McpOp → Bool
  | ⟨.completeServerExecution _ _ _ _, _⟩ => true
  | _ => false

section Runs

variable {w₀ : World} {p : Pool McpOp World McpJob Ended}

theorem one_le_total {t : Thread McpOp McpJob Ended} {i : String}
    (h : ⟨.beginServerExecution i b, .ok .started⟩ ∈ t.calls) : 1 ≤ t.total (starts b.key) := by
  obtain ⟨before, after, hcalls⟩ := List.append_of_mem h
  rw [Thread.total, hcalls]
  simp [starts]
  omega

/-- An execution that a request has started and not completed is in flight. -/
theorem intended_of_reachable (hk : KeysDistinct w₀.db)
    (h : Pool.Reachable (mcpRules L) w₀ p) : ∀ t ∈ p.threads, ∀ i b,
      ⟨.beginServerExecution i b, .ok .started⟩ ∈ t.calls →
      (∀ c ∈ t.calls, isCompletion c = false) → Intended L.floats b p.state.db := by
  refine h.induct (I := fun p => ∀ t ∈ p.threads, ∀ i b,
    ⟨.beginServerExecution i b, .ok .started⟩ ∈ t.calls →
    (∀ c ∈ t.calls, isCompletion c = false) → Intended L.floats b p.state.db)
    (fun _ ht => absurd ht List.not_mem_nil) ?_
  intro p p' hreach hs hi
  cases hs with
  | start job =>
    intro t ht i b hb hc
    rcases List.mem_append.mp ht with ht | ht
    · exact hi t ht i b hb hc
    · obtain rfl := List.mem_singleton.mp ht
      exact absurd hb List.not_mem_nil
  | @call s s' pre post u δ op next answer hr hp =>
    have hu : u ∈ pre ++ u :: post := by simp
    have hrule := Thread.permitted (fun _ => handleMcp_obeys) (hreach.follows u hu) hr
    have hchange := McpPerforms.change hp
    -- two requests cannot both have started the execution
    have hothers : ∀ t ∈ pre ++ post, ∀ i b, ⟨.beginServerExecution i b, .ok .started⟩ ∈ t.calls →
        (∀ c ∈ t.calls, isCompletion c = false) → Intended L.floats b s'.db := by
      intro t ht i b hb hc
      have ht' : t ∈ pre ++ u :: post := by
        rcases List.mem_append.mp ht with ht | ht
        · exact List.mem_append_left _ ht
        · exact List.mem_append_right _ (List.mem_cons_of_mem _ ht)
      refine (hi t ht' i b hb hc).change hchange fun b' st ct body c hm hkey => ?_
      cases hm
      obtain ⟨call, v, begun, sent, hbegun, hcalls⟩ := hrule
      have hstarted : 1 ≤ u.total (starts b.key) := by
        have hbegun := hbegun.starts_key
        rw [hkey] at hbegun
        rw [Thread.total, hcalls, List.map_append, List.sum_append]
        omega
      have hone := started_le_one hk hreach b.key
      have htwo : t.total (starts b.key) ≤
          ((pre ++ post).map (Thread.total (starts b.key))).sum :=
        List.single_le_sum (fun _ _ => Nat.zero_le _) _ (List.mem_map_of_mem ht)
      have hb := one_le_total hb
      simp only [Pool.total, List.map_append, List.map_cons, List.sum_append, List.sum_cons]
        at hone htwo
      omega
    intro t ht i b hb hc
    rcases List.mem_append.mp ht with ht | ht
    · exact hothers t (List.mem_append_left _ ht) i b hb hc
    · rcases List.mem_cons.mp ht with rfl | ht
      · have hnone : isCompletion ⟨op, answer⟩ = false :=
          hc _ (List.mem_append_right _ (List.mem_singleton.mpr rfl))
        rcases List.mem_append.mp hb with hb | hb
        · have hbefore := hi u hu i b hb fun c hmem => hc c (List.mem_append_left _ hmem)
          refine hbefore.change hchange fun b' st ct body c hm => ?_
          rw [hm] at hnone
          exact absurd hnone (by simp [isCompletion])
        · have hm := List.mem_singleton.mp hb
          cases hm
          exact hchange.begun.intended
      · exact hothers t (List.mem_append_right _ ht) i b hb hc
  | outside ho =>
    intro t ht i b hb hc
    exact (hi t ht i b hb hc).meanwhile (Outside.change ho)

end Runs

end ClavenarLite
