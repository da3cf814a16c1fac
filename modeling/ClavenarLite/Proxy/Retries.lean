import ClavenarLite.Lib.Recorded
import ClavenarLite.Proxy.Approvals

/-! A request that is submitted again and again while its pending is undecided. -/

namespace ClavenarLite

open Bytes Fallible Interaction Rfc3339 TextJson Transaction

section Submissions

variable (L : Libraries) (c : String)

/-- The request was let through under the id. -/
def SubmittedUnder (t : Thread McpOp McpJob Ended) (call : McpCall) : Prop :=
  Starts L t.job call t.calls ∧ call.correlationId = c

/-- A lookup failed, or an INSERT did for another reason than that the id is taken. -/
def unavailable : Call McpOp → Bool
  | ⟨.inspectServerExecution _, .error _⟩ => true
  | ⟨.getPending _, .error _⟩ => true
  | ⟨.parkPending _, .error e⟩ => e ≠ .constraintViolation
  | _ => false

/-- An enforced request that gets to its verdict and is to be reviewed, on a storage that
is available. -/
structure Reviewable (job : McpJob) (call : McpCall) (cs : McpCalls) : Prop where
  enforce : job.state.mode = .enforce
  tool : isMcpControlMethod call.parsed.method = false
  callback : ∃ url, validateCallbackUrl L job.state job.headers = .ok url
  readable : (fromSlice L.floats job.body).isSome
  unthrottled : Unthrottled cs
  yellow : ∀ policy, evaluation L job call policy ∈ cs →
    (⟨brainOf L job.body call, policy⟩ : Verdict).tier = .yellow
  available : ∀ made ∈ cs, unavailable made = false

/-- Every submission under the id is to be reviewed, and none was decided. -/
structure Retried (p : Pool McpOp World McpJob Ended) : Prop where
  reviewable : ∀ t ∈ p.threads, ∀ call, SubmittedUnder L c t call →
    Reviewable L t.job call t.calls
  undecided : ∀ r ∈ p.state.db.pendings, r.correlationId = c → r.decision = none

/-- The id in the body of an answer. -/
def Response.pendingId (r : Response) : Option String :=
  match r.body with
  | .json document => (document.get? "pending_id").bind Json.asStr?
  | _ => none

def AcceptedUnder (e : Ended) : Prop :=
  ∃ r notes, e = some (r, notes) ∧ r.status = 202 ∧ r.pendingId = some c

/-- However often the request is submitted, one pending is stored for it, and every
submission is answered with it. -/
structure RetriesIdempotent (p : Pool McpOp World McpJob Ended) : Prop where
  single : idsCount p.state.db c ≤ 1
  stored : ∀ t ∈ p.threads, ∀ call e, SubmittedUnder L c t call → t.rest = .pure e →
    idsCount p.state.db c = 1
  accepted : ∀ t ∈ p.threads, ∀ call e, SubmittedUnder L c t call → t.rest = .pure e →
    AcceptedUnder c e

/-- The thread was asked for a decision under the id. -/
def DecidesUnder (t : Thread McpOp McpJob Ended) : Prop :=
  ∃ call, SubmittedUnder L c t call ∧ call.decision.isSome

/-- How many decisions were submitted under the id. -/
noncomputable def decisionsUnder (p : Pool McpOp World McpJob Ended) : Nat :=
  p.number (DecidesUnder L c)

def looksUp : Call McpOp → Bool
  | ⟨.getPending id, _⟩ => id = c
  | _ => false

/-- How many lookups of the pending were made while none was stored. -/
def earlyLookups (run : List (Moment McpOp World)) : Nat :=
  run.countP fun m => looksUp c m.call && idsCount m.before.db c == 0

/-- A lookup that found no pending under the id. -/
def missedUnder : Call McpOp → Nat
  | ⟨.getPending id, .ok none⟩ => if id = c then 1 else 0
  | _ => 0

/-- A call that tries to park under the id. -/
def insertsUnder : Call McpOp → Nat
  | ⟨.parkPending req, _⟩ => if req.correlationId = c then 1 else 0
  | _ => 0

/-- A call that begins an execution under the id. -/
def beginsUnder : Call McpOp → Nat
  | ⟨.beginServerExecution _ b, .ok .started⟩ => if b.idempotencyId.text = c then 1 else 0
  | _ => 0

def idempotencyCount (db : Db) : Nat := (db.columns.map RequestColumns.idempotencyId).count c

/-- Nothing in the file has the id. -/
structure Unused (db : Db) : Prop where
  pendings : idsCount db c = 0
  executions : idempotencyCount c db = 0

end Submissions

section Executions

variable {F : FloatText} {db db' : Db} {made : Call McpOp}

theorem Change.idempotencyCount (h : Change F made db db') (c : String) :
    idempotencyCount c db' = idempotencyCount c db + beginsUnder c made := by
  have hsame : db'.columns = db.columns → beginsUnder c made = 0 →
      ClavenarLite.idempotencyCount c db' =
        ClavenarLite.idempotencyCount c db + beginsUnder c made := by
    intro hcolumns hnone
    rw [ClavenarLite.idempotencyCount, hcolumns, hnone, Nat.add_zero, ClavenarLite.idempotencyCount]
  cases h with
  | unchanged hm h =>
    refine hsame (by rw [h]) ?_
    unfold beginsUnder
    split
    · exact absurd hm (by simp [isWrite])
    · rfl
  | appends hm h =>
    exact hsame (congrArg (List.map _) (appends_tables ⟨_, h⟩).1) (by rw [hm]; rfl)
  | parks hm _ h => exact hsame (by rw [h]; rfl) (by rw [hm]; rfl)
  | @begins i b hm h =>
    rw [hm, ClavenarLite.idempotencyCount, begins_columns h, List.map_append, List.count_append,
      ClavenarLite.idempotencyCount]
    by_cases hc : b.idempotencyId.text = c
    · simp [beginsUnder, hc, ServerExecutionBinding.columns]
    · simp [beginsUnder, hc, ServerExecutionBinding.columns]
  | completes hm h => exact hsame (completes_columns h) (by rw [hm]; rfl)

theorem Meanwhile.idempotencyCount (h : Meanwhile F db db') (c : String) :
    idempotencyCount c db' = idempotencyCount c db := by
  rw [ClavenarLite.idempotencyCount, h.columns, ClavenarLite.idempotencyCount]

theorem findExecution_unused {c : String} {b : ServerExecutionBinding}
    (h : idempotencyCount c db = 0) (hb : b.idempotencyId.text = c) :
    db.findExecution b.key = none := by
  refine Db.findExecution_none.mpr fun r hr hkey => ?_
  have hid : r.idempotencyId = c := (congrArg Prod.snd hkey).trans hb
  refine List.count_eq_zero.mp h ?_
  rw [← hid]
  exact List.mem_map_of_mem (f := RequestColumns.idempotencyId) (List.mem_map_of_mem hr)

end Executions

section Lookups

variable {F : FloatText} {L : Libraries} {db db' : Db} {made : Call McpOp}

/-- What a call has found under an id is still in the file. -/
def FindingHolds : Call McpOp → Db → Prop
  | ⟨.getPending c, .ok (some p)⟩, db => ∃ r ∈ db.pendings, r.correlationId = c ∧
      (p.decision.isSome → r.decision = p.decision ∧ r.decidedAt.isSome)
  | ⟨.parkPending req, .error e⟩, db => e = .constraintViolation →
      ∃ r ∈ db.pendings, r.correlationId = req.correlationId
  | _, _ => True

theorem FindingHolds.grow (h : FindingHolds made db) (hg : PendingsGrow db db') :
    FindingHolds made db' := by
  obtain ⟨op, answer⟩ := made
  cases op with
  | getPending c =>
    cases answer with
    | error e => trivial
    | ok found =>
      cases found with
      | none => trivial
      | some p =>
        obtain ⟨r, hr, hid, hdecided⟩ := h
        obtain ⟨r', hr', hsame, hkept⟩ := hg r hr
        refine ⟨r', hr', hsame.id.trans hid, fun hd => ?_⟩
        rw [hkept (hdecided hd).2]
        exact hdecided hd
  | parkPending req =>
    cases answer with
    | ok p => trivial
    | error e =>
      intro htaken
      obtain ⟨r, hr, hid⟩ := h htaken
      obtain ⟨r', hr', hsame, -⟩ := hg r hr
      exact ⟨r', hr', hsame.id.trans hid⟩
  | _ => trivial

/-- An INSERT that violates a constraint has found its id taken. -/
theorem parkPending_taken {req : ParkRequest} {oracle : Oracle}
    (h : Ledger.parkPending F req oracle db = (.error .constraintViolation, db')) :
    ∃ r ∈ db.pendings, r.correlationId = req.correlationId := by
  rcases (autocommit_error h).bind with hf | ⟨now, db₁, ht, hf⟩
  · exact (Fails.lift hf).elim
  · obtain rfl := results_utcNow ht
    rcases hf.bind with hf | ⟨_, _, _, hf⟩
    · obtain ⟨s, s', rfl, rfl, he⟩ := Fails.perform hf
      have hstatement : statement StepEnv.fails .sqliteFailure
          (insertPending (parkedRow F req now)) s = (.error .constraintViolation, s') := he
      unfold statement at hstatement
      by_contra hnone
      split_ifs at hstatement
      · exact absurd (Prod.mk.inj hstatement).1 (by simp)
      have hinsert : insertPending (parkedRow F req now) s.view = .ok ((), _) := if_neg hnone
      rw [hinsert] at hstatement
      exact absurd (Prod.mk.inj hstatement).1 (by simp)
    · exact hf.pure.elim

theorem FindingHolds.new {β : Type} {op : McpOp β} {b : β} {w w' : World}
    (h : McpPerforms L op w b w') (hs : PendingsSound w.db) : FindingHolds ⟨op, b⟩ w'.db := by
  cases op with
  | getPending c =>
    cases b with
    | error e => trivial
    | ok found =>
      cases found with
      | none => trivial
      | some p =>
        obtain ⟨hdb, hfound⟩ := h.writes
        obtain ⟨row, hrow, hp⟩ := mapM_some hfound
        obtain ⟨hmem, hid⟩ := Db.findPending_some hrow
        have hdecision := rowToPending_decision hp
        rw [hdb]
        refine ⟨row, hmem, hid, fun hd => ⟨hdecision.symm, ?_⟩⟩
        exact (hs.stamped row hmem).mp (by rwa [← hdecision])
  | parkPending req =>
    cases b with
    | ok p => trivial
    | error e =>
      obtain ⟨oracle, db, hr, rfl⟩ := h
      obtain rfl := parkPending_error hr
      rintro rfl
      exact parkPending_taken hr
  | _ => trivial

end Lookups

section Endings

variable {L : Libraries} {job : McpJob} {call : McpCall} {binding : Option ServerExecutionBinding}
  {v : Verdict} {cs : McpCalls} {e : Ended} {c : String}

theorem Judged.uninserted (h : Judged L job call binding v cs) (c : String) :
    ∀ made ∈ cs, insertsUnder c made = 0 := by
  intro made hm
  have hjudging := h.judging made hm
  obtain ⟨op, answer⟩ := made
  cases op with
  | parkPending req => exact absurd hjudging (by simp [isJudging])
  | _ => rfl

theorem Judged.unsought (h : Judged L job call binding v cs) (c : String) :
    ∀ made ∈ cs, looksUp c made = false := by
  intro made hm
  have hjudging := h.judging made hm
  obtain ⟨op, answer⟩ := made
  cases op with
  | getPending id => exact absurd hjudging (by simp [isJudging])
  | _ => rfl

theorem accepted_pending (state : AppState) (v : Verdict) (reasons : List String)
    (notes : List Notification) (hc : call.correlationId = c) :
    AcceptedUnder c (some (pendingResponse state call v reasons, notes)) := by
  refine ⟨_, notes, rfl, rfl, ?_⟩
  rw [← hc]
  unfold Response.pendingId pendingResponse plainResponse verboseDetail
  cases state.verboseVerdicts with
  | false => rfl
  | true => simp [Json.get?, lookup, Json.asStr?]

/-- A submission ends with the pending that it has found or parked, unless its INSERT fails. -/
inductive RetryEnding (c : String) (cs : McpCalls) (e : Ended) : Prop
  | found {p : Pending} (hf : ⟨.getPending c, .ok (some p)⟩ ∈ cs) (ha : AcceptedUnder c e)
      (hi : ∀ made ∈ cs, insertsUnder c made = parksUnder c made)
  | parked {req : ParkRequest} {p : Pending} (hp : ⟨.parkPending req, .ok p⟩ ∈ cs)
      (hc : req.correlationId = c) (ha : AcceptedUnder c e)
      (hi : ∀ made ∈ cs, insertsUnder c made = parksUnder c made)
  | refused {req : ParkRequest} {x : SqlError} (hp : ⟨.parkPending req, .error x⟩ ∈ cs)
      (hc : req.correlationId = c) (ha : ¬ AcceptedUnder c e)

theorem Parks.judged {req : ParkRequest} (h : Parks L job call v cs req) :
    ∃ binding pre, Judged L job call binding v pre ∧ pre <+: cs ∧ req.correlationId =
      call.correlationId ∧ ∀ made ∈ cs, insertsUnder c made = 0 := by
  obtain ⟨binding, url, pre, hj, -, rfl, rfl⟩ := h
  refine ⟨binding, pre, hj, List.prefix_append _ _, rfl, ?_⟩
  intro made hm
  rcases List.mem_append.mp hm with hm | hm
  · exact hj.uninserted c made hm
  · split_ifs at hm
    · obtain rfl := List.mem_singleton.mp hm
      rfl
    · exact absurd hm List.not_mem_nil

theorem parksUnder_of_uninserted {made : Call McpOp} (h : insertsUnder c made = 0) :
    parksUnder c made = 0 := by
  unfold parksUnder
  split
  · exact h
  · rfl

section Reviewing

variable (hs : Starts L job call cs) (hc : call.correlationId = c)
  (hr : Reviewable L job call cs)
  (hu : ∀ p, ⟨.getPending c, .ok (some p)⟩ ∈ cs → p.decision = none)
  (hk : ∀ b outcome, ⟨.inspectServerExecution b, .ok outcome⟩ ∈ cs → outcome = .missing)

include hs hr

theorem Reviewable.needsReview {call' : McpCall} {pre : McpCalls}
    (hj : Judged L job call' binding v pre) (hp : pre <+: cs) : call' = call ∧ NeedsReview job v := by
  obtain ⟨late, rfl⟩ := hp
  obtain rfl := (hj.passes.append late).unique hs
  obtain ⟨hv, he⟩ := hj.evaluated
  refine ⟨rfl, ?_, hr.enforce⟩
  have hy := hr.yellow v.policy (List.mem_append_left _ he)
  rwa [← hv] at hy

include hc hu

/-- Nothing goes past the review of an undecided pending. -/
theorem Reviewable.not_reviewed {call' : McpCall} {pre : McpCalls}
    (h : Reviewed L job call' binding v pre) (hp : pre <+: cs) : False := by
  obtain ⟨judged, hj, hreview⟩ := h
  rcases hreview with ⟨hnot, rfl⟩ | ⟨-, -, p, hallow, rfl⟩
  · exact hnot (hr.needsReview hs hj hp).2
  · obtain ⟨rfl, -⟩ := hr.needsReview hs hj ((List.prefix_append _ _).trans hp)
    have hundecided := hu p (hp.subset (by simp [hc]))
    rw [hallow] at hundecided
    exact absurd hundecided (by simp)

include hk

theorem Exit.retried (h : Exit L job cs e) : RetryEnding c cs e := by
  cases h with
  | unjudged h =>
    exfalso
    cases h with
    | @rejected u r hg hcs =>
      obtain ⟨u', late, hcs', hg'⟩ := hs
      rw [hcs] at hcs'
      obtain rfl : u = u' := by
        have hu := (List.cons.inj hcs').1
        simpa using hu
      rw [hg] at hg'
      exact absurd hg' (by simp)
    | @throttled call' pre req r ht hcs =>
      obtain ⟨u, a, s, -, rfl, -⟩ := ht
      exact absurd (hr.unthrottled ⟨.checkRate job.state.instanceId call'.agentKey, .denied a s⟩
        (by simp [hcs])) (by simp [isThrottle])
    | misaddressed _ hv =>
      obtain ⟨url, hurl⟩ := hr.callback
      rw [hv] at hurl
      exact absurd hurl (by simp)
    | @control call' pre late hopened hm hcs _ =>
      rw [hcs] at hs
      obtain rfl := (hopened.passes.append late).unique hs
      rw [hr.tool] at hm
      exact absurd hm (by simp)
    | unreadable _ hv =>
      have hreadable := hr.readable
      rw [hv] at hreadable
      exact absurd hreadable (by simp)
    | @known call' b pre outcome _ _ hne hcs =>
      have hmem : ⟨.inspectServerExecution b, outcome⟩ ∈ cs := by simp [hcs]
      cases outcome with
      | error x => exact absurd (hr.available _ hmem) (by simp [unavailable])
      | ok outcome => exact hne (congrArg Except.ok (hk b outcome hmem))
  | @lookupFailed call' _ v pre x _ _ hcs =>
    have hmem : ⟨.getPending call'.correlationId, .error x⟩ ∈ cs := by simp [hcs]
    exact absurd (hr.available _ hmem) (by simp [unavailable])
  | @reviewDenied call' _ v pre p hj _ hd hcs =>
    obtain ⟨rfl, -⟩ := hr.needsReview hs hj ⟨_, hcs.symm⟩
    have hundecided := hu p (by simp [hcs, hc])
    rw [hd] at hundecided
    exact absurd hundecided (by simp)
  | @pending call' _ v pre p hj _ _ _ hcs =>
    obtain ⟨rfl, -⟩ := hr.needsReview hs hj ⟨_, hcs.symm⟩
    refine .found (p := p) (by simp [hcs, hc]) (accepted_pending _ _ _ _ hc) ?_
    intro made hm
    rw [hcs] at hm
    rcases List.mem_append.mp hm with hm | hm
    · rw [hj.uninserted c made hm, parksUnder_of_uninserted (hj.uninserted c made hm)]
    · obtain rfl := List.mem_singleton.mp hm
      rfl
  | @parked call' v pre req p ts hp hcs =>
    obtain ⟨binding, judged, hj, hpre, hid, hnone⟩ := hp.judged (c := c)
    obtain ⟨rfl, -⟩ := hr.needsReview hs hj (hpre.trans ⟨_, hcs.symm⟩)
    refine @RetryEnding.parked _ _ _ req p (by simp [hcs]) (hid.trans hc)
      (accepted_pending _ _ _ _ hc) ?_
    intro made hm
    rw [hcs] at hm
    rcases List.mem_append.mp hm with hm | hm
    · rw [hnone made hm, parksUnder_of_uninserted (hnone made hm)]
    · simp only [List.mem_cons, List.not_mem_nil, or_false] at hm
      rcases hm with rfl | rfl
      · rfl
      · rfl
  | @parkFailed call' v pre req x hp hcs =>
    obtain ⟨binding, judged, hj, hpre, hid, -⟩ := hp.judged (c := c)
    obtain ⟨rfl, -⟩ := hr.needsReview hs hj (hpre.trans ⟨_, hcs.symm⟩)
    refine @RetryEnding.refused _ _ _ req x (by simp [hcs]) (hid.trans hc) ?_
    rintro ⟨r, notes, he, hstatus, -⟩
    obtain ⟨rfl, -⟩ := Prod.mk.inj (Option.some.inj he)
    exact absurd hstatus (by simp [ClavenarLite.parkFailed, plainResponse])
  | @denied call' _ v pre ts hrev _ _ hcs =>
    exact (hr.not_reviewed hs hc hu hrev ⟨_, hcs.symm⟩).elim
  | @decided call' _ v pre ts hrev _ _ hcs =>
    exact (hr.not_reviewed hs hc hu hrev ⟨_, hcs.symm⟩).elim
  | unexecuted hrel hcs => exact (hr.not_reviewed hs hc hu hrel.1 ⟨_, hcs.symm⟩).elim
  | replayed hrel hcs => exact (hr.not_reviewed hs hc hu hrel.1 ⟨_, hcs.symm⟩).elim
  | executed hb hcs =>
    obtain ⟨released, hrel, rfl⟩ := hb
    exact (hr.not_reviewed hs hc hu hrel.1 ((List.prefix_append _ _).trans ⟨_, hcs.symm⟩)).elim

end Reviewing

end Endings

section Runs

variable {L : Libraries} {w₀ : World} {p : Pool McpOp World McpJob Ended}
  {t : Thread McpOp McpJob Ended} {call : McpCall} {c : String}

/-- An execution that was found is still in the file. -/
def ExecutionHolds : Call McpOp → Db → Prop
  | ⟨.inspectServerExecution b, .ok outcome⟩, db =>
    outcome ≠ .missing → idempotencyCount b.idempotencyId.text db ≠ 0
  | _, _ => True

theorem ExecutionHolds.of_le {made : Call McpOp} {db db' : Db} (h : ExecutionHolds made db)
    (hle : ∀ c, idempotencyCount c db ≤ idempotencyCount c db') : ExecutionHolds made db' := by
  obtain ⟨op, answer⟩ := made
  cases op with
  | inspectServerExecution b =>
    cases answer with
    | error e => trivial
    | ok outcome =>
      intro hne hzero
      have hcount := hle b.idempotencyId.text
      exact h hne (by omega)
  | _ => trivial

theorem ExecutionHolds.new {β : Type} {op : McpOp β} {b : β} {w w' : World}
    (h : McpPerforms L op w b w') : ExecutionHolds ⟨op, b⟩ w'.db := by
  cases op with
  | inspectServerExecution bd =>
    cases b with
    | error e => trivial
    | ok outcome =>
      obtain ⟨hdb, hout⟩ := h.writes
      rintro hne hzero
      rw [hdb] at hzero
      rw [findExecution_unused hzero rfl] at hout
      exact hne (Except.ok.inj hout).symm
  | _ => trivial

theorem findings_of_reachable (hs : PendingsSound w₀.db)
    (h : Pool.Reachable (mcpRules L) w₀ p) :
    ∀ t ∈ p.threads, ∀ made ∈ t.calls, FindingHolds made p.state.db :=
  h.calls_hold (Q := fun w => PendingsSound w.db) (K := fun made w => FindingHolds made w.db)
    (fun _ => handleMcp_obeys) (fun _ hr => pendingsSound_of_reachable hs hr)
    (fun _ _ _ _ _ _ _ _ hp hq _ => FindingHolds.new hp hq)
    (fun _ _ _ _ _ hp hk => hk.grow (McpPerforms.change hp).grows)
    fun _ _ _ ho hk => hk.grow (Outside.change ho).grows

theorem executions_of_reachable (h : Pool.Reachable (mcpRules L) w₀ p) :
    ∀ t ∈ p.threads, ∀ made ∈ t.calls, ExecutionHolds made p.state.db :=
  h.calls_hold (Q := fun _ => True) (K := fun made w => ExecutionHolds made w.db)
    (fun _ => handleMcp_obeys) (fun _ _ => trivial)
    (fun _ _ _ _ _ _ _ _ hp _ _ => ExecutionHolds.new hp)
    (fun _ _ _ _ _ hp hk => hk.of_le fun c => by
      rw [(McpPerforms.change hp).idempotencyCount c]
      exact Nat.le_add_right _ _)
    fun _ _ _ ho hk => hk.of_le fun c => ((Outside.change ho).idempotencyCount c).ge

theorem idempotencyCount_of_reachable (h : Pool.Reachable (mcpRules L) w₀ p) (c : String) :
    idempotencyCount c p.state.db = idempotencyCount c w₀.db + p.total (beginsUnder c) :=
  h.accounts (Q := fun _ => True) (f := fun w => idempotencyCount c w.db) (g := beginsUnder c)
    (fun _ => handleMcp_obeys) (fun _ _ => trivial)
    (fun _ _ _ _ _ _ _ _ hp _ => (McpPerforms.change hp).idempotencyCount c)
    fun _ _ ho => (Outside.change ho).idempotencyCount c

/-- A bound request carries its idempotency id as its correlation id. -/
theorem Starts.correlation {job : McpJob} {cs : McpCalls} {b : ServerExecutionBinding}
    (h : Starts L job call cs) (hb : Bound L job call (some b)) :
    call.correlationId = b.idempotencyId.text := by
  obtain ⟨u, late, -, hg⟩ := h
  rcases hb with ⟨-, hb⟩ | ⟨id, value, hid, -, hb⟩
  · exact absurd hb (by simp)
  · obtain rfl := Option.some.inj hb
    rw [(gates_ok hg).correlation, hid]
    rfl

theorem idsCount_pos {db : Db} {r : PendingRow} (hr : r ∈ db.pendings)
    (hid : r.correlationId = c) : 1 ≤ idsCount db c :=
  List.count_pos_iff.mpr (hid ▸ List.mem_map_of_mem hr)

/-- A call whose INSERT under the id failed. -/
def refusedUnder (c : String) : Call McpOp → Nat
  | ⟨.parkPending req, .error _⟩ => if req.correlationId = c then 1 else 0
  | _ => 0

theorem insertsUnder_eq (c : String) (made : Call McpOp) :
    insertsUnder c made = parksUnder c made + refusedUnder c made := by
  obtain ⟨op, answer⟩ := made
  cases op with
  | parkPending req =>
    cases answer with
    | error x => exact (Nat.zero_add _).symm
    | ok p => rfl
  | _ => rfl

theorem total_refused (ht : t ∈ p.threads) {req : ParkRequest} {x : SqlError}
    (hp : ⟨.parkPending req, .error x⟩ ∈ t.calls) (hid : req.correlationId = c) :
    p.total (refusedUnder c) ≠ 0 := by
  have hone : refusedUnder c ⟨.parkPending req, .error x⟩ = 1 := if_pos hid
  have hthread : 1 ≤ t.total (refusedUnder c) :=
    hone ▸ List.le_sum_of_mem (List.mem_map_of_mem hp)
  have hpool := Pool.total_ge (refusedUnder c) ht
  omega

/-- An INSERT under the id is made for a submission under it. -/
theorem inserted_submits (h : Pool.Reachable (mcpRules L) w₀ p) (ht : t ∈ p.threads)
    {made : Call McpOp} (hmade : made ∈ t.calls) (hne : insertsUnder c made ≠ 0) :
    ∃ call, SubmittedUnder L c t call := by
  obtain ⟨op, answer⟩ := made
  cases op with
  | parkPending req =>
    have hid : req.correlationId = c := by
      by_contra hc
      exact hne (if_neg hc)
    obtain ⟨before, after, hcalls⟩ := List.append_of_mem hmade
    obtain ⟨call, v, hparks⟩ := rule_of_follows (h.follows t ht) hcalls
    obtain ⟨binding, pre, hj, ⟨late, hlate⟩, hcorrelation, -⟩ := hparks.judged (c := c)
    have hstarts : Starts L t.job call t.calls := by
      rw [hcalls, ← hlate]
      exact (hj.passes.append late).append _
    exact ⟨call, hstarts, hcorrelation.symm.trans hid⟩
  | _ => exact absurd rfl hne

section Retrying

variable (he : Unused c w₀.db) (hs : PendingsSound w₀.db)
  (h : Pool.Reachable (mcpRules L) w₀ p) (hret : Retried L c p)

include hs h hret

theorem Retried.found_undecided (ht : t ∈ p.threads) :
    ∀ q, ⟨.getPending c, .ok (some q)⟩ ∈ t.calls → q.decision = none := by
  intro q hmem
  obtain ⟨r, hr, hid, hdecided⟩ := findings_of_reachable hs h t ht _ hmem
  by_contra hne
  have hsome : q.decision.isSome := Option.isSome_iff_ne_none.mpr hne
  exact hne ((hdecided hsome).1.symm.trans (hret.undecided r hr hid))

/-- No execution begins under the id. -/
theorem Retried.none_begun : p.total (beginsUnder c) = 0 := by
  by_contra hne
  obtain ⟨t, ht, made, hmade, hbegins⟩ := Pool.exists_of_total hne
  have hform : ∃ i b, made = ⟨.beginServerExecution i b, .ok .started⟩ ∧
      b.idempotencyId.text = c := by
    unfold beginsUnder at hbegins
    split at hbegins
    · next i b =>
      split_ifs at hbegins with hc
      · exact ⟨i, b, rfl, hc⟩
      · exact absurd rfl hbegins
    · exact absurd rfl hbegins
  obtain ⟨i, b, rfl, hc⟩ := hform
  obtain ⟨before, after, hcalls⟩ := List.append_of_mem hmade
  obtain ⟨call, v, hreleased, -⟩ := rule_of_follows (h.follows t ht) hcalls
  have hprefix : before <+: t.calls := ⟨_, hcalls.symm⟩
  have hstarts : Starts L t.job call t.calls := hcalls ▸ hreleased.passes.append _
  have hbound : Bound L t.job call (some b) := by
    obtain ⟨⟨_, ⟨_, _, ⟨_, _, _, hb, _⟩, _⟩, _⟩, -⟩ := hreleased
    exact hb
  have hid : call.correlationId = c := (hstarts.correlation hbound).trans hc
  exact (hret.reviewable t ht call ⟨hstarts, hid⟩).not_reviewed hstarts hid
    (hret.found_undecided hs h ht) hreleased.1 hprefix

include he

theorem Retried.found_unknown (ht : t ∈ p.threads) (hsub : SubmittedUnder L c t call) :
    ∀ b outcome, ⟨.inspectServerExecution b, .ok outcome⟩ ∈ t.calls → outcome = .missing := by
  intro b outcome hmem
  by_contra hne
  obtain ⟨before, after, hcalls⟩ := List.append_of_mem hmem
  obtain ⟨call', hopened, hbound, _⟩ := rule_of_follows (h.follows t ht) hcalls
  have hstarts : Starts L t.job call' t.calls := hcalls ▸ hopened.passes.append _
  obtain rfl := hstarts.unique hsub.1
  have hcount := executions_of_reachable h t ht _ hmem hne
  rw [← hstarts.correlation hbound, hsub.2, idempotencyCount_of_reachable h, he.executions,
    hret.none_begun hs h] at hcount
  exact hcount rfl

theorem Retried.ending (ht : t ∈ p.threads) (hsub : SubmittedUnder L c t call) {e : Ended}
    (hrest : t.rest = .pure e) : RetryEnding c t.calls e := by
  have hfollows := h.follows t ht
  have htrace : Prog.Trace (t.job.program L) t.calls (.pure e) := hrest ▸ hfollows
  exact (handleMcp_meets.result htrace).retried hsub.1 hsub.2 (hret.reviewable t ht call hsub)
    (hret.found_undecided hs h ht) (hret.found_unknown he hs h ht hsub)

end Retrying

end Runs

end ClavenarLite
