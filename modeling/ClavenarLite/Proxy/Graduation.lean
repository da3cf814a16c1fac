import ClavenarLite.Ledger.Report
import ClavenarLite.Proxy.Served
import ClavenarLite.Proxy.Signals

/-! What the counts of a graduation report say about the requests of a run:
each request writes at most one entry with its verdict, and the entries that are
written for other purposes are told apart by their intents. -/

namespace ClavenarLite

open Bytes Fallible Interaction Rfc3339 TextJson Transaction

variable {L : Libraries} {job : McpJob} {F : FloatText} {since : Option DateTime} {db db' : Db}

/-- The verdict was recorded at an instant of the window. -/
def Recorded (L : Libraries) (since : Option DateTime) (t : Thread McpOp McpJob Ended)
    (call : McpCall) (v : Verdict) : Prop :=
  Classified L t.job call v t.calls ∧
    ∃ e, ⟨.append (verdictRequest call v), .ok e⟩ ∈ t.calls ∧ InWindow since (toRfc3339 e.timestamp)

/-- The request was throttled, which was recorded at an instant of the window. -/
def ThrottledIn (L : Libraries) (since : Option DateTime) (t : Thread McpOp McpJob Ended) : Prop :=
  ∃ call cs req e, Throttles L t.job call cs req ∧ cs ++ [⟨.append req, .ok e⟩] <+: t.calls ∧
    InWindow since (toRfc3339 e.timestamp)

def RecordedAs (L : Libraries) (since : Option DateTime) (tier : Tier)
    (t : Thread McpOp McpJob Ended) : Prop :=
  ∃ call v, Recorded L since t call v ∧ v.tier = tier

def WouldDeny (L : Libraries) (since : Option DateTime) (t : Thread McpOp McpJob Ended) : Prop :=
  RecordedAs L since .red t ∨ ThrottledIn L since t

/-- The intents of the entries that report no verdict. -/
def otherIntents : List String :=
  ["ServerExecutionIntent", "ServerExecutionCompleted", "ServerExecutionUncertain",
    "PendingApproved", "PendingDenied", "SupplyChain"]

/-- What kinds of entries there are is said by their intent and their flag. -/
def EntryRow.OfKind (kind : String → Bool → Bool) (r : EntryRow) : Bool :=
  kind r.intentCategory (r.authorized != 0)

def denyKind (intent : String) (_ : Bool) : Bool := wouldDenyIntents.contains intent

def pendKind (intent : String) (_ : Bool) : Bool := intent == "PendingReview"

def requestKind (intent : String) (_ : Bool) : Bool := !otherIntents.contains intent

def allowedKind (intent : String) (authorized : Bool) : Bool :=
  authorized && !otherIntents.contains intent

/-- The kind has no entries but those of verdicts. -/
def OfVerdicts (kind : String → Bool → Bool) : Prop :=
  ∀ intent ∈ otherIntents, ∀ authorized, kind intent authorized = false

theorem denyKind_ofVerdicts : OfVerdicts denyKind := by
  intro intent hi authorized
  have hall : ∀ i ∈ otherIntents, wouldDenyIntents.contains i = false := by decide
  exact hall intent hi

theorem pendKind_ofVerdicts : OfVerdicts pendKind := by
  intro intent hi authorized
  have hall : ∀ i ∈ otherIntents, (i == "PendingReview") = false := by decide
  exact hall intent hi

theorem requestKind_ofVerdicts : OfVerdicts requestKind := by
  intro intent hi authorized
  simpa [requestKind] using hi

theorem allowedKind_ofVerdicts : OfVerdicts allowedKind := by
  intro intent hi authorized
  simp [allowedKind, hi]

theorem row_ofKind (kind : String → Bool → Bool) (id : Uuid) (now : Clock) (tip : Int × String)
    (req : LogRequest) :
    ((newEntry F id now tip req).row F).OfKind kind = kind req.intentCategory req.authorized := by
  show kind req.intentCategory ((if req.authorized then 1 else 0 : Int) != 0) = _
  cases req.authorized <;> rfl

/-- The entries of the kind that the call adds to the window. -/
def addsTo (since : Option DateTime) (kind : String → Bool → Bool) : Call McpOp → Nat
  | ⟨.append req, .ok e⟩ =>
    if InWindow since (toRfc3339 e.timestamp) ∧ kind req.intentCategory req.authorized = true then 1
    else 0
  | _ => 0

theorem rowsInWindow_append (p : EntryRow → Bool) (row : EntryRow)
    (h : db'.entries = db.entries ++ [row]) : rowsInWindow since db' p =
      rowsInWindow since db p + if InWindow since row.timestamp ∧ p row = true then 1 else 0 := by
  rw [rowsInWindow, h, List.countP_append, List.countP_singleton, rowsInWindow]
  simp only [Bool.and_eq_true, decide_eq_true_eq]

theorem Appends.otherRows {kind : String → Bool → Bool} {req : LogRequest}
    (h : Appends F req db db') (hk : kind req.intentCategory req.authorized = false) :
    rowsInWindow since db' (EntryRow.OfKind kind) =
      rowsInWindow since db (EntryRow.OfKind kind) := by
  obtain ⟨id, now, tip, _, _, rfl⟩ := appends_entries h
  rw [rowsInWindow_append _ _ rfl, row_ofKind, hk, if_neg (by simp)]
  rfl

theorem Change.rows {kind : String → Bool → Bool} (hk : OfVerdicts kind) {made : Call McpOp}
    (h : Change F made db db') : rowsInWindow since db' (EntryRow.OfKind kind) =
      rowsInWindow since db (EntryRow.OfKind kind) + addsTo since kind made := by
  cases h with
  | unchanged hm h =>
    have hnone : addsTo since kind made = 0 := by
      unfold addsTo
      split
      · exact absurd hm (by simp [isWrite])
      · rfl
    rw [h, hnone, Nat.add_zero]
  | appends hm h =>
    obtain ⟨id, now, tip, _, rfl, _, rfl⟩ := results_appendOnConnection h
    rw [hm, rowsInWindow_append _ _ rfl, row_ofKind]
    rfl
  | parks hm _ h =>
    rw [hm, h]
    rfl
  | begins hm h =>
    obtain ⟨_, ha⟩ := h.appends
    rw [hm, ha.otherRows (hk _ (by simp [intentRequest, otherIntents]) _)]
    rfl
  | completes hm h =>
    obtain ⟨_, _, _, ha⟩ := h.updates
    rw [hm, ha.otherRows (hk _ (by simp [completedRequest, otherIntents]) _)]
    rfl

theorem Meanwhile.rows {kind : String → Bool → Bool} (hk : OfVerdicts kind)
    (h : Meanwhile F db db') : rowsInWindow since db' (EntryRow.OfKind kind) =
      rowsInWindow since db (EntryRow.OfKind kind) := by
  cases h with
  | classifies h =>
    induction h with
    | refl => rfl
    | tail _ hc ih =>
      obtain ⟨row, hc⟩ := hc
      obtain ⟨_, _, _, ha⟩ := hc.updates
      rw [ha.otherRows (hk _ (by simp [uncertainRequest, otherIntents]) _)]
      exact ih
  | decides _ h =>
    rw [h]
    rfl
  | @records decided h =>
    refine h.otherRows (hk _ ?_ _)
    show decideIntent decided ∈ otherIntents
    unfold decideIntent
    split_ifs <;> decide

def isAppend : Call McpOp → Bool
  | ⟨.append _, _⟩ => true
  | _ => false

theorem addsTo_append {kind : String → Bool → Bool} {c : Call McpOp}
    (h : addsTo since kind c ≠ 0) : isAppend c = true := by
  unfold addsTo at h
  split at h
  · rfl
  · exact absurd rfl h

theorem addsTo_le_one (kind : String → Bool → Bool) (c : Call McpOp) : addsTo since kind c ≤ 1 := by
  unfold addsTo
  split
  · split_ifs <;> omega
  · omega

theorem Opened.unappended {call : McpCall} {cs : McpCalls} (h : Opened L job call cs) :
    cs.countP isAppend = 0 := by
  obtain ⟨u, _, rfl⟩ := h
  unfold ratePart
  split_ifs <;> rfl

theorem Inspected.unappended {call : McpCall} {binding : Option ServerExecutionBinding}
    {cs : McpCalls} (h : Inspected L job call binding cs) : cs.countP isAppend = 0 := by
  obtain ⟨pre, ho, _, _, rfl⟩ := h
  rw [List.countP_append, ho.unappended]
  cases binding <;> rfl

/-- A request appends once. -/
theorem append_first {before : McpCalls} {made : Call McpOp} (hm : McpRule L job before made.op)
    (hs : isAppend made = true) : before.countP isAppend = 0 := by
  obtain ⟨op, answer⟩ := made
  cases op with
  | append req =>
    obtain ⟨call, ⟨u, a, s, _, rfl, _⟩ | ⟨_, pre, v, hi, _, rfl, _⟩ | ⟨pre, _, _, hc, rfl⟩⟩ := hm
    · rfl
    · rw [List.countP_append, hi.unappended]
      rfl
    · rw [List.countP_append, hc.1.unappended]
      rfl
  | _ => exact absurd hs (by simp [isAppend])

/-- An alarm is known by its intent. -/
def AlarmNamed : Call McpOp → Prop
  | ⟨.pinCatalog _ _ _ _, some log⟩ => log.intentCategory = "SupplyChain"
  | _ => True

theorem McpPerforms.named {β : Type} {op : McpOp β} {w w' : World} {b : β}
    (h : McpPerforms L op w b w') : AlarmNamed ⟨op, b⟩ := by
  cases op with
  | pinCatalog i key agentId body =>
    obtain ⟨pins, hp, _⟩ := h
    cases b with
    | none => trivial
    | some log =>
      obtain ⟨changes, rfl⟩ := pinOrDiff_log _ hp
      rfl
  | _ => trivial

section Runs

variable {w₀ : World} {p : Pool McpOp World McpJob Ended} {kind : String → Bool → Bool}
  {t : Thread McpOp McpJob Ended}

theorem named_of_reachable (h : Pool.Reachable (mcpRules L) w₀ p) :
    ∀ t ∈ p.threads, ∀ c ∈ t.calls, AlarmNamed c :=
  h.calls_hold (Q := fun _ => True) (K := fun made _ => AlarmNamed made)
    (fun _ => handleMcp_obeys) (fun _ _ => trivial)
    (fun _ _ _ _ _ _ _ _ hp _ _ => McpPerforms.named hp) (fun _ _ _ _ _ _ hk => hk)
    fun _ _ _ _ hk => hk

/-- A request appends that it was throttled, or its verdict, or an alarm. -/
theorem appended_by (hf : t.Follows (mcpRules L)) (hnamed : ∀ c ∈ t.calls, AlarmNamed c)
    {req : LogRequest} {e : LedgerEntry} (hc : ⟨.append req, .ok e⟩ ∈ t.calls) :
    (∃ call cs, Throttles L t.job call cs req ∧ cs ++ [⟨.append req, .ok e⟩] <+: t.calls) ∨
      (∃ call v, Classified L t.job call v t.calls ∧ req = verdictRequest call v) ∨
      req.intentCategory = "SupplyChain" := by
  obtain ⟨before, after, hcalls⟩ := List.append_of_mem hc
  have hm := rule_of_follows hf hcalls
  obtain ⟨call, hthrottles | ⟨binding, pre, v, hi, hv, hbefore, hreq⟩ |
    ⟨pre, sent, body, _, hbefore⟩⟩ := hm
  · exact Or.inl ⟨call, before, hthrottles, after, by rw [hcalls, List.append_assoc]; rfl⟩
  · refine Or.inr (Or.inl ⟨call, v, ⟨binding, _, ⟨pre, .ok e, hi, hv, rfl⟩, ?_⟩, hreq⟩)
    rw [hcalls, hbefore, hreq]
    exact ⟨after, by simp⟩
  · have hmem : ⟨.pinCatalog t.job.state.instanceId call.agentKey call.identity.agentId body,
        some req⟩ ∈ t.calls := by
      rw [hcalls, hbefore]
      simp
    exact Or.inr (Or.inr (hnamed _ hmem))

theorem addsTo_eq_one {c : Call McpOp} (h : addsTo since kind c = 1) : ∃ req e,
    c = ⟨.append req, .ok e⟩ ∧ InWindow since (toRfc3339 e.timestamp) ∧
      kind req.intentCategory req.authorized = true := by
  unfold addsTo at h
  split at h
  · next req e =>
    split_ifs at h with hcounted
    exact ⟨req, e, rfl, hcounted⟩
  · exact absurd h (by simp)

/-- An entry of the kind is the verdict or the throttling of a request. -/
theorem adds_iff (hk : OfVerdicts kind) (hf : t.Follows (mcpRules L))
    (hnamed : ∀ c ∈ t.calls, AlarmNamed c) :
    (∃ c ∈ t.calls, addsTo since kind c = 1) ↔
      (∃ call v, Recorded L since t call v ∧
        kind (logIntent v.brain v.policy) (decide (v.tier = .green)) = true) ∨
      ThrottledIn L since t ∧ kind "RateLimitDenied" false = true := by
  constructor
  · rintro ⟨c, hc, hadds⟩
    obtain ⟨req, e, rfl, hwindow, hkind⟩ := addsTo_eq_one hadds
    rcases appended_by hf hnamed hc with ⟨call, cs, ht, hprefix⟩ | ⟨call, v, hv, rfl⟩ | hname
    · right
      refine ⟨⟨call, cs, req, e, ht, hprefix, hwindow⟩, ?_⟩
      obtain ⟨u, a, s, _, _, rfl⟩ := ht
      exact hkind
    · exact Or.inl ⟨call, v, ⟨hv, e, hc, hwindow⟩, hkind⟩
    · rw [hname, hk "SupplyChain" (by simp [otherIntents])] at hkind
      exact absurd hkind (by simp)
  · rintro (⟨call, v, ⟨_, e, hc, hwindow⟩, hkind⟩ |
      ⟨⟨call, cs, req, e, ht, hprefix, hwindow⟩, hkind⟩)
    · exact ⟨_, hc, if_pos ⟨hwindow, hkind⟩⟩
    · obtain ⟨u, a, s, _, _, rfl⟩ := ht
      have hc : ⟨.append (throttledRequest call a s), .ok e⟩ ∈ t.calls :=
        hprefix.subset (List.mem_append_right _ (List.mem_singleton.mpr rfl))
      exact ⟨_, hc, if_pos ⟨hwindow, hkind⟩⟩

theorem rows_eq_total (he : w₀.db.entries = []) (hk : OfVerdicts kind)
    (h : Pool.Reachable (mcpRules L) w₀ p) :
    rowsInWindow since p.state.db (EntryRow.OfKind kind) = p.total (addsTo since kind) := by
  have hcount := h.accounts (Q := fun _ => True)
    (f := fun w => rowsInWindow since w.db (EntryRow.OfKind kind)) (g := addsTo since kind)
    (fun _ => handleMcp_obeys) (fun _ _ => trivial)
    (fun _ _ _ _ _ _ _ _ hp _ => (McpPerforms.change hp).rows hk)
    fun _ _ ho => (Outside.change ho).rows hk
  have hzero : rowsInWindow since w₀.db (EntryRow.OfKind kind) = 0 := by
    rw [rowsInWindow, he]
    rfl
  rw [hcount, hzero, Nat.zero_add]

/-- The entries of the kind in the window, counted by the requests that wrote them. -/
theorem rows_eq_number (he : w₀.db.entries = []) (hk : OfVerdicts kind)
    (h : Pool.Reachable (mcpRules L) w₀ p) :
    rowsInWindow since p.state.db (EntryRow.OfKind kind) = p.number fun t =>
      (∃ call v, Recorded L since t call v ∧
        kind (logIntent v.brain v.policy) (decide (v.tier = .green)) = true) ∨
      ThrottledIn L since t ∧ kind "RateLimitDenied" false = true := by
  have hone : ∀ t ∈ p.threads, t.calls.countP isAppend ≤ 1 := fun t ht =>
    (h.follows t ht).once (fun _ => handleMcp_obeys) fun before made hm hs => append_first hm hs
  rw [rows_eq_total he hk h,
    Pool.total_eq_number hone (fun c hc => addsTo_append hc) (addsTo_le_one kind)]
  exact Pool.number_congr fun t ht => adds_iff hk (h.follows t ht) (named_of_reachable h t ht)

theorem Recorded.brain {call : McpCall} {v : Verdict} (h : Recorded L since t call v) :
    v.brain = inspect L.lowercase (toolType call.parsed) (fromUtf8Lossy t.job.body) :=
  h.1.first.2.1

theorem logIntent_deny {brain : HeuristicVerdict} {policy : PolicyDecision}
    {lowercase : String → String} {toolType text : String}
    (hb : brain = inspect lowercase toolType text) :
    wouldDenyIntents.contains (logIntent brain policy) = true ↔ classify brain policy = .red := by
  rw [logIntent_of_tier hb]
  cases classify brain policy with
  | green => simp [wouldDenyIntents]
  | yellow => simp [wouldDenyIntents]
  | red =>
    simp only
    split_ifs <;> simp [wouldDenyIntents]

theorem logIntent_pend {brain : HeuristicVerdict} {policy : PolicyDecision}
    {lowercase : String → String} {toolType text : String}
    (hb : brain = inspect lowercase toolType text) :
    logIntent brain policy = "PendingReview" ↔ classify brain policy = .yellow := by
  rw [logIntent_of_tier hb]
  cases classify brain policy with
  | green => simp
  | yellow => simp
  | red =>
    simp only
    split_ifs <;> simp

theorem logIntent_verdict {brain : HeuristicVerdict} {policy : PolicyDecision}
    {lowercase : String → String} {toolType text : String}
    (hb : brain = inspect lowercase toolType text) : logIntent brain policy ∉ otherIntents := by
  rw [logIntent_of_tier hb]
  cases classify brain policy with
  | green => simp [otherIntents]
  | yellow => simp [otherIntents]
  | red =>
    simp only
    split_ifs <;> simp [otherIntents]

theorem wouldDeny_number (he : w₀.db.entries = []) (h : Pool.Reachable (mcpRules L) w₀ p) :
    (graduationStats since p.state.db).wouldDeny = p.number (WouldDeny L since) := by
  have hrows : (graduationStats since p.state.db).wouldDeny =
      rowsInWindow since p.state.db (EntryRow.OfKind denyKind) := graduationStats_wouldDeny since _
  rw [hrows, rows_eq_number he denyKind_ofVerdicts h]
  refine Pool.number_congr fun t _ => or_congr ?_ (and_iff_left (by decide))
  refine exists_congr fun call => exists_congr fun v => and_congr_right fun hr => ?_
  exact logIntent_deny hr.brain

theorem wouldPend_number (he : w₀.db.entries = []) (h : Pool.Reachable (mcpRules L) w₀ p) :
    (graduationStats since p.state.db).wouldPend = p.number (RecordedAs L since .yellow) := by
  have hrows : (graduationStats since p.state.db).wouldPend =
      rowsInWindow since p.state.db (EntryRow.OfKind pendKind) := graduationStats_wouldPend since _
  rw [hrows, rows_eq_number he pendKind_ofVerdicts h]
  refine Pool.number_congr fun t _ => Iff.trans (or_iff_left ?_) ?_
  · exact fun hthrottled => absurd hthrottled.2 (by decide)
  · refine exists_congr fun call => exists_congr fun v => and_congr_right fun hr => ?_
    exact beq_iff_eq.trans (logIntent_pend hr.brain)

/-- Whatever process runs it, enforcement neither parks nor denies the request. -/
def PassesEnforcement (call : McpCall) (v : Verdict) : Prop :=
  ∀ (state : AppState) (url : Option String), state.mode = .enforce →
    review state call v url = pure () ∧ enforceDeny state call v = pure ()

theorem green_passes {call : McpCall} {v : Verdict} (h : v.tier = .green) :
    PassesEnforcement call v := by
  intro state url _
  have hpend : v.wouldPend = false := by simp [Verdict.wouldPend, h]
  have hdeny : v.wouldDeny = false := by simp [Verdict.wouldDeny, h]
  exact ⟨by rw [review, hpend]; rfl, by rw [enforceDeny, hdeny]; rfl⟩

/-- In every run on a fresh ledger the report counts the requests that would be
denied or parked, and recommends to enforce only if the whole chain verified and
every recorded request of a window that is not empty passes enforcement. -/
theorem graduation_sound (he : w₀.db.entries = []) (h : Pool.Reachable (mcpRules L) w₀ p)
    (since : Option DateTime) :
    (graduationStats since p.state.db).wouldDeny = p.number (WouldDeny L since) ∧
      (graduationStats since p.state.db).wouldPend = p.number (RecordedAs L since .yellow) ∧
      ∀ chain now, verify L.floats (p.state.db.entries.map EntryRow.cells) = .ok chain →
        (GraduationReport.fromStats (graduationStats since p.state.db) chain.valid
          now).recommendEnforce = true →
        chain.valid = true ∧ chain.entriesChecked = p.state.db.entries.length ∧
          (∃ r ∈ p.state.db.entries, InWindow since r.timestamp) ∧
          ∀ t ∈ p.threads, ¬ ThrottledIn L since t ∧ ∀ call v, Recorded L since t call v →
            v.tier = .green ∧ PassesEnforcement call v := by
  refine ⟨wouldDeny_number he h, wouldPend_number he h, ?_⟩
  intro chain now hchain hrecommend
  obtain ⟨hvalid, htotal, hdeny, hpend⟩ := recommendEnforce_iff.mp hrecommend
  rw [wouldDeny_number he h, Pool.number_eq_zero] at hdeny
  rw [wouldPend_number he h, Pool.number_eq_zero] at hpend
  refine ⟨hvalid, ?_, ?_, ?_⟩
  · rw [verify_valid hchain hvalid, List.length_map]
  · rw [graduationStats_total, rowsInWindow, ← Nat.pos_iff_ne_zero, List.countP_pos_iff] at htotal
    obtain ⟨r, hr, hwindow⟩ := htotal
    exact ⟨r, hr, by simpa using hwindow⟩
  · intro t ht
    refine ⟨fun hthrottled => hdeny t ht (Or.inr hthrottled), fun call v hr => ?_⟩
    have hgreen : v.tier = .green := by
      cases htier : v.tier with
      | green => rfl
      | yellow => exact absurd ⟨call, v, hr, htier⟩ (hpend t ht)
      | red => exact absurd (Or.inl ⟨call, v, hr, htier⟩) (hdeny t ht)
    exact ⟨hgreen, green_passes hgreen⟩

end Runs

theorem execution_recorded {call : McpCall} {b : ServerExecutionBinding} {u : Uuid}
    {policy : PolicyDecision} {e : LedgerEntry} {late : McpCalls} {rest : Prog McpOp Ended}
    (hg : gates L job.state job.headers job.body u.text = .ok call)
    (hr : job.state.rateLimited = false) (hm : isMcpControlMethod call.parsed.method = false)
    (hb : Bound L job call (some b)) (hw : InWindow since (toRfc3339 e.timestamp)) :
    Recorded L since ⟨job, [⟨.newV4, u⟩, ⟨.inspectServerExecution b, .ok .missing⟩,
      evaluation L job call policy,
      ⟨.append (verdictRequest call ⟨brainOf L job.body call, policy⟩), .ok e⟩] ++ late, rest⟩ call
      ⟨brainOf L job.body call, policy⟩ := by
  have ho : Opened L job call [⟨.newV4, u⟩] := ⟨u, hg, by simp [ratePart, hr]⟩
  exact ⟨⟨some b, _, ⟨_, .ok e, ⟨_, ho, hm, hb, rfl⟩, rfl, rfl⟩, late, rfl⟩, e, by simp, hw⟩

/-- An execution that the policy denies, by a process that observes. -/
theorem executionJob_recorded : ∃ (p : Pool McpOp World McpJob Ended)
    (t : Thread McpOp McpJob Ended), Pool.Reachable (mcpRules plainLibraries) freshWorld p ∧
      p.threads = [t] ∧ RecordedAs plainLibraries none .red t ∧ p.state.db.entries.length = 2 := by
  obtain ⟨call, value, e, w, hg, hm, hb, hrun, hlength⟩ :=
    executionJob_served (.bool false) (.set []) (.set [])
  have hreach : Pool.Reachable (mcpRules plainLibraries) freshWorld
      ⟨w, [] ++ [⟨executionJob, _, .pure _⟩]⟩ := Pool.Steps.serve hrun []
  have hall : InWindow none (toRfc3339 e.timestamp) := fun _ hs => absurd hs (by simp)
  exact ⟨_, _, hreach, rfl, ⟨call, _, execution_recorded hg rfl hm hb hall,
    classify_red.mpr (Or.inr rfl)⟩, hlength⟩

theorem graduation_sound_denied : ∃ p : Pool McpOp World McpJob Ended,
    Pool.Reachable (mcpRules plainLibraries) freshWorld p ∧
      (graduationStats none p.state.db).wouldDeny = 1 := by
  obtain ⟨p, t, hreach, ht, hrecorded, _⟩ := executionJob_recorded
  refine ⟨p, hreach, (graduation_sound rfl hreach none).1.trans ?_⟩
  have hdeny : WouldDeny plainLibraries none t := Or.inl hrecorded
  simp [Pool.number, ht, hdeny]

section Runs

variable {w₀ : World} {p : Pool McpOp World McpJob Ended} {t : Thread McpOp McpJob Ended}

/-- The request was inspected or throttled in the window. -/
def Handled (L : Libraries) (since : Option DateTime) (t : Thread McpOp McpJob Ended) : Prop :=
  (∃ tier, RecordedAs L since tier t) ∨ ThrottledIn L since t

/-- The figures of the report are those of the requests of the window. -/
structure CountsOnce (L : Libraries) (since : Option DateTime) (p : Pool McpOp World McpJob Ended)
    (report : GraduationReport) : Prop where
  total : report.totalRequests = p.number (Handled L since)
  allowed : report.allowed = p.number (RecordedAs L since .green)
  sum : report.totalRequests = report.allowed + report.wouldDeny + report.wouldPend

/-- No entry of the window was written for another purpose. -/
def OnlyVerdicts (since : Option DateTime) (db : Db) : Prop :=
  ∀ r ∈ db.entries, InWindow since r.timestamp → r.intentCategory ∉ otherIntents

theorem rowsInWindow_congr {q q' : EntryRow → Bool}
    (h : ∀ r ∈ db.entries, InWindow since r.timestamp → (q r = true ↔ q' r = true)) :
    rowsInWindow since db q = rowsInWindow since db q' := by
  refine List.countP_congr fun r hr => ?_
  rw [Bool.and_eq_true, Bool.and_eq_true, decide_eq_true_eq]
  exact and_congr_right fun hw => h r hr hw

theorem handled_number (he : w₀.db.entries = []) (h : Pool.Reachable (mcpRules L) w₀ p) :
    rowsInWindow since p.state.db (EntryRow.OfKind requestKind) = p.number (Handled L since) := by
  rw [rows_eq_number he requestKind_ofVerdicts h]
  refine Pool.number_congr fun t _ => or_congr ?_ (and_iff_left (by decide))
  constructor
  · rintro ⟨call, v, hr, _⟩
    exact ⟨v.tier, call, v, hr, rfl⟩
  · rintro ⟨_, call, v, hr, _⟩
    exact ⟨call, v, hr, by simpa [requestKind] using logIntent_verdict hr.brain⟩

theorem green_number (he : w₀.db.entries = []) (h : Pool.Reachable (mcpRules L) w₀ p) :
    rowsInWindow since p.state.db (EntryRow.OfKind allowedKind) =
      p.number (RecordedAs L since .green) := by
  rw [rows_eq_number he allowedKind_ofVerdicts h]
  refine Pool.number_congr fun t _ => (or_iff_left ?_).trans ?_
  · exact fun hthrottled => absurd hthrottled.2 (by decide)
  · refine exists_congr fun call => exists_congr fun v => and_congr_right fun hr => ?_
    have hother : logIntent v.brain v.policy ∉ otherIntents := logIntent_verdict hr.brain
    simp [allowedKind, hother]

/-- Every entry of the window reports a verdict or was written for another purpose. -/
theorem total_rows (since : Option DateTime) (db : Db) :
    rowsInWindow since db (fun _ => true) = rowsInWindow since db (EntryRow.OfKind requestKind) +
      rowsInWindow since db fun r => otherIntents.contains r.intentCategory := by
  unfold rowsInWindow
  induction db.entries with
  | nil => rfl
  | cons r rows ih =>
    rw [List.countP_cons, List.countP_cons, List.countP_cons, ih]
    by_cases hw : InWindow since r.timestamp
    · by_cases ho : r.intentCategory ∈ otherIntents
      · simp [hw, ho, EntryRow.OfKind, requestKind]
        omega
      · simp [hw, ho, EntryRow.OfKind, requestKind]
        omega
    · simp [hw]

theorem onlyVerdicts_iff : OnlyVerdicts since db ↔
    (rowsInWindow since db fun r => otherIntents.contains r.intentCategory) = 0 := by
  rw [rowsInWindow, List.countP_eq_zero]
  refine forall_congr' fun r => forall_congr' fun _ => ?_
  simp

/-- What a request appends is of one kind. -/
theorem adds_split (hf : t.Follows (mcpRules L)) (hnamed : ∀ c ∈ t.calls, AlarmNamed c)
    {c : Call McpOp} (hc : c ∈ t.calls) : addsTo since requestKind c =
      addsTo since allowedKind c + addsTo since denyKind c + addsTo since pendKind c := by
  obtain ⟨op, answer⟩ := c
  cases op with
  | append req =>
    cases answer with
    | error e => rfl
    | ok e =>
      by_cases hw : InWindow since (toRfc3339 e.timestamp)
      · rcases appended_by hf hnamed hc with ⟨call, cs, ⟨u, a, s, _, _, rfl⟩, _⟩ |
          ⟨call, v, hv, rfl⟩ | hname
        · simp [addsTo, hw, throttledRequest, requestKind, allowedKind, denyKind, pendKind,
            otherIntents, wouldDenyIntents]
        · have hbrain : v.brain = inspect L.lowercase (toolType call.parsed)
              (fromUtf8Lossy t.job.body) := hv.first.2.1
          have hother : logIntent v.brain v.policy ∉ otherIntents := logIntent_verdict hbrain
          have hdeny : logIntent v.brain v.policy ∈ wouldDenyIntents ↔
              classify v.brain v.policy = .red :=
            List.contains_iff_mem.symm.trans (logIntent_deny hbrain)
          have hpend : logIntent v.brain v.policy = "PendingReview" ↔
              classify v.brain v.policy = .yellow := logIntent_pend hbrain
          cases htier : classify v.brain v.policy <;>
            simp [addsTo, hw, verdictRequest, requestKind, allowedKind, denyKind, pendKind,
              Verdict.tier, hother, hdeny, hpend, htier]
        · simp [addsTo, hname, requestKind, allowedKind, denyKind, pendKind, otherIntents,
            wouldDenyIntents]
      · simp [addsTo, hw]
  | _ => rfl

theorem sum_rows (he : w₀.db.entries = []) (h : Pool.Reachable (mcpRules L) w₀ p) :
    rowsInWindow since p.state.db (EntryRow.OfKind requestKind) =
      rowsInWindow since p.state.db (EntryRow.OfKind allowedKind) +
        rowsInWindow since p.state.db (EntryRow.OfKind denyKind) +
        rowsInWindow since p.state.db (EntryRow.OfKind pendKind) := by
  rw [rows_eq_total he requestKind_ofVerdicts h, rows_eq_total he allowedKind_ofVerdicts h,
    rows_eq_total he denyKind_ofVerdicts h, rows_eq_total he pendKind_ofVerdicts h]
  have heach : ∀ t ∈ p.threads, t.total (addsTo since requestKind) =
      t.total (addsTo since allowedKind) + t.total (addsTo since denyKind) +
        t.total (addsTo since pendKind) := by
    intro t ht
    have hcalls : t.calls.map (addsTo since requestKind) = t.calls.map fun c =>
        addsTo since allowedKind c + addsTo since denyKind c + addsTo since pendKind c :=
      List.map_congr_left fun c hc => adds_split (h.follows t ht) (named_of_reachable h t ht) hc
    rw [Thread.total, hcalls, List.sum_map_add, List.sum_map_add]
    rfl
  rw [Pool.total, List.map_congr_left heach, List.sum_map_add, List.sum_map_add]
  rfl

/-- The report counts every request once exactly if no entry of the window was
written for another purpose: for an execution, for the decision of an operator
or for an alarm. -/
theorem counts_once_iff (he : w₀.db.entries = []) (h : Pool.Reachable (mcpRules L) w₀ p)
    (since : Option DateTime) (chainValid : Bool) (now : DateTime) :
    CountsOnce L since p (.fromStats (graduationStats since p.state.db) chainValid now) ↔
      OnlyVerdicts since p.state.db := by
  have htotal : (graduationStats since p.state.db).total = p.number (Handled L since) +
      rowsInWindow since p.state.db fun r => otherIntents.contains r.intentCategory := by
    rw [graduationStats_total, total_rows, handled_number he h]
  rw [onlyVerdicts_iff]
  constructor
  · intro hc
    have hcounted : (graduationStats since p.state.db).total = p.number (Handled L since) := hc.total
    omega
  · intro hother
    have honly := onlyVerdicts_iff.mpr hother
    have hcounted : (graduationStats since p.state.db).total = p.number (Handled L since) := by
      omega
    have hallowed : (graduationStats since p.state.db).allowed =
        rowsInWindow since p.state.db (EntryRow.OfKind allowedKind) := by
      rw [graduationStats_allowed]
      refine rowsInWindow_congr fun r hr hw => ?_
      have hnot := honly r hr hw
      simp [EntryRow.OfKind, allowedKind, hnot]
    have hsum : (graduationStats since p.state.db).total =
        (graduationStats since p.state.db).allowed + (graduationStats since p.state.db).wouldDeny +
          (graduationStats since p.state.db).wouldPend := by
      rw [hcounted, ← handled_number he h, sum_rows he h, hallowed, graduationStats_wouldDeny,
        graduationStats_wouldPend]
      rfl
    exact ⟨hcounted, hallowed.trans (green_number he h), hsum⟩

end Runs

theorem onlyVerdicts_verdict {i : Uuid} {now : Clock} {call : McpCall} {v : Verdict} {body : Octets}
    (h : db'.entries = [] ++ [(entryFor F db i now (verdictRequest call v)).row F])
    (hv : v.brain = brainOf L body call) : OnlyVerdicts since db' := by
  intro r hr _
  rw [h] at hr
  obtain rfl := List.mem_singleton.mp hr
  exact logIntent_verdict hv

/-- A decision that is allowed is counted once. -/
theorem counts_once_decision : ∃ p : Pool McpOp World McpJob Ended,
    Pool.Reachable (mcpRules plainLibraries) freshWorld p ∧ p.threads.length = 1 ∧
      CountsOnce plainLibraries none p
        (.fromStats (graduationStats none p.state.db) true newYear) := by
  obtain ⟨call, hg, hs, hd, hm⟩ := decisionJob_passes
  have hobserve : decisionJob.state.mode ≠ .enforce := by simp [decisionJob]
  have hurl : validateCallbackUrl plainLibraries decisionJob.state decisionJob.headers =
      .ok none := by
    have hnone : decisionJob.headers.get "x-clavenar-callback-url" = none := by decide +kernel
    rw [validateCallbackUrl, hnone]
    rfl
  obtain ⟨w, hrun, hentries⟩ := decision_served (w := freshWorld) (i := numberedUuid 2)
    (.bool true) (.set []) (.set []) hg rfl hurl hm hs hd (fun hn => hobserve hn.2)
    (fun hn => hobserve hn.2) fun _ hr => absurd hr List.not_mem_nil
  have hreach : Pool.Reachable (mcpRules plainLibraries) freshWorld
      ⟨w, [] ++ [⟨decisionJob, _, .pure _⟩]⟩ := Pool.Steps.serve hrun []
  refine ⟨_, hreach, rfl, (counts_once_iff rfl hreach none true newYear).mpr ?_⟩
  exact onlyVerdicts_verdict hentries rfl

/-- The intent of an execution is counted as a request of its own. -/
theorem execution_counted_twice : ∃ p : Pool McpOp World McpJob Ended,
    Pool.Reachable (mcpRules plainLibraries) freshWorld p ∧ p.threads.length = 1 ∧
      (graduationStats none p.state.db).total = 2 ∧
      ¬ CountsOnce plainLibraries none p
        (.fromStats (graduationStats none p.state.db) true newYear) := by
  obtain ⟨p, t, hreach, ht, _, hlength⟩ := executionJob_recorded
  have htotal : (graduationStats none p.state.db).total = 2 := by
    rw [graduationStats_total, rowsInWindow, ← hlength]
    simp [InWindow]
  refine ⟨p, hreach, by simp [ht], htotal, fun hc => ?_⟩
  have hnumber : p.number (Handled plainLibraries none) ≤ 1 := by
    rw [Pool.number, ht]
    exact List.countP_le_length
  have htwo : (graduationStats none p.state.db).total = p.number (Handled plainLibraries none) :=
    hc.total
  omega

end ClavenarLite
