import ClavenarLite.Proxy.History

/-! Requests that are served with nothing in between: the stages of the handler
run one after the other, and a set of libraries to run them with. -/

namespace ClavenarLite

open Bytes Fallible Interaction Text TextJson Transaction

section Stages

variable {L : Libraries} {job : McpJob} {σ : Type}
  {performs : ∀ {δ : Type}, McpOp δ → σ → δ → σ → Prop} {s s' s'' : σ} {call : McpCall}
  {binding : Option ServerExecutionBinding} {v : Verdict} {cs ds : McpCalls} {e : Except Ended Ended}

theorem handleMcp_admitted {u : Uuid}
    (hg : gates L job.state job.headers job.body u.text = .ok call)
    (hnew : performs .newV4 s u s')
    (h : RunsTo performs (admitted L job.state job.headers job.body call) s' cs e s'') :
    Prog.RunsTo performs (job.program L) s (⟨.newV4, u⟩ :: cs) (ended e) s'' := by
  refine ⟨u, s', cs, hnew, rfl, ?_⟩
  simp only [Prog.bind, hg]
  have hrun := Prog.RunsTo.bind (f := fun r => Prog.pure (ended r)) h ⟨rfl, rfl, rfl⟩
  rwa [List.append_nil] at hrun

theorem checkRate_off (hr : job.state.rateLimited = false) :
    RunsTo performs (checkRate L job.state call) s [] (.ok ()) s := by
  rw [checkRate, if_neg (by simp [hr])]
  exact .pure

theorem admitted_toolCall {url : Option String} (hr : job.state.rateLimited = false)
    (hurl : validateCallbackUrl L job.state job.headers = .ok url)
    (hm : isMcpControlMethod call.parsed.method = false)
    (h : RunsTo performs (handleToolCall L job.state job.body call url) s cs e s') :
    RunsTo performs (admitted L job.state job.headers job.body call) s cs e s' := by
  unfold admitted
  refine (checkRate_off hr).bind ?_
  rw [hurl]
  show RunsTo _ (if isMcpControlMethod call.parsed.method = true then _ else _) _ _ _ _
  rw [if_neg (by simp [hm])]
  exact h

theorem serverBinding_bound (hb : Bound L job call binding) :
    RunsTo performs (serverBinding L job.body call) s [] (.ok binding) s := by
  unfold serverBinding
  rcases hb with ⟨hs, rfl⟩ | ⟨id, value, hs, hv, rfl⟩
  · rw [hs]
    exact .pure
  · rw [hs, hv]
    exact .pure

/-- A tool call up to its verdict. -/
theorem toolCall_judged {url : Option String} {policy : PolicyDecision}
    {r : Except SqlError LedgerEntry} {s₁ s₂ : σ} (hb : Bound L job call binding)
    (hi : RunsTo performs (binding.elim (return) (inspectBinding job.state call)) s
      (inspectPart binding) (.ok ()) s')
    (he : performs (.evaluate job.state.instanceId (policyInput L job.body call)) s' policy s₁)
    (ha : performs (.append (verdictRequest call ⟨brainOf L job.body call, policy⟩)) s₁ r s₂)
    (h : RunsTo performs (do
      review job.state call ⟨brainOf L job.body call, policy⟩ url
      enforceDeny job.state call ⟨brainOf L job.body call, policy⟩
      answerDecision job.state call ⟨brainOf L job.body call, policy⟩
      execute L job.state job.body call ⟨brainOf L job.body call, policy⟩ binding) s₂ cs e s'') :
    RunsTo performs (handleToolCall L job.state job.body call url) s
      (inspectPart binding ++ evaluation L job call policy ::
        ⟨.append (verdictRequest call ⟨brainOf L job.body call, policy⟩), r⟩ :: cs) e s'' := by
  unfold handleToolCall
  refine (serverBinding_bound hb).bind (hi.bind ?_)
  have hjudge : RunsTo performs (judge L job.state job.body call) s'
      [evaluation L job call policy,
        ⟨.append (verdictRequest call ⟨brainOf L job.body call, policy⟩), r⟩]
      (.ok ⟨brainOf L job.body call, policy⟩) s₂ := by
    unfold judge
    exact .ask he (.ask ha .pure)
  exact hjudge.bind h

theorem inspect_none :
    RunsTo performs ((none : Option ServerExecutionBinding).elim (return)
      (inspectBinding job.state call)) s (inspectPart none) (.ok ()) s := .pure

theorem inspect_missing {b : ServerExecutionBinding}
    (hp : performs (.inspectServerExecution b) s (.ok .missing) s') :
    RunsTo performs ((some b).elim (return) (inspectBinding job.state call)) s
      (inspectPart (some b)) (.ok ()) s' := by
  show RunsTo performs (inspectBinding job.state call b) s _ _ _
  unfold inspectBinding
  exact .ask hp .pure

theorem review_none {url : Option String} (hn : ¬ NeedsReview job v) :
    RunsTo performs (review job.state call v url) s [] (.ok ()) s := by
  rw [review, if_neg fun h => hn (needsReview_iff.mp h)]
  exact .pure

theorem enforceDeny_none (hd : ¬ (v.tier = .red ∧ job.state.mode = .enforce)) :
    RunsTo performs (enforceDeny job.state call v) s [] (.ok ()) s := by
  rw [enforceDeny, if_neg (by simpa [Verdict.wouldDeny] using hd)]
  exact .pure

theorem answerDecision_none (hd : call.decision = none) :
    RunsTo performs (answerDecision job.state call v) s [] (.ok ()) s := by
  rw [answerDecision, if_neg (by simp [hd])]
  exact .pure

theorem answerDecision_some {ts : Rfc3339.Clock} (hd : call.decision.isSome)
    (hp : performs .utcNow s ts s') :
    RunsTo performs (answerDecision job.state call v) s [⟨.utcNow, ts⟩]
      (.error (some (plainResponse 200 call.correlationId job.state.mode
          (.json (decisionAllowed call.correlationId)),
        maybeFireWebhook job.state
          (verdictEvent job.state call v .allow v.brain.intentCategory ts)))) s' := by
  rw [answerDecision, if_pos hd]
  exact .ask hp .throw

theorem beginBinding_started {b : ServerExecutionBinding}
    (hp : performs (.beginServerExecution job.state.instanceId b) s (.ok .started) s') :
    RunsTo performs (beginBinding job.state call v b) s
      [⟨.beginServerExecution job.state.instanceId b, .ok .started⟩] (.ok ()) s' := by
  unfold beginBinding
  exact .ask hp .pure

theorem forward_failed {requestId : Option Json} {x : String}
    (ha : job.state.upstreamAdapter.validateRequest L.floats L.texts job.body = .ok requestId)
    (hp : performs (.send job.body) s (.error x) s') :
    Prog.RunsTo performs (forward L job.state job.body) s [⟨.send job.body, .error x⟩]
      (.error x) s' := by
  rw [forward, ha]
  exact ⟨_, s', [], hp, rfl, rfl, rfl, rfl⟩

/-- An execution whose upstream does not answer. -/
theorem execute_unanswered {b : ServerExecutionBinding} {requestId : Option Json} {x : String}
    (hbegin : performs (.beginServerExecution job.state.instanceId b) s (.ok .started) s')
    (ha : job.state.upstreamAdapter.validateRequest L.floats L.texts job.body = .ok requestId)
    (hsend : performs (.send job.body) s' (.error x) s'') :
    RunsTo performs (execute L job.state job.body call v (some b)) s
      [⟨.beginServerExecution job.state.instanceId b, .ok .started⟩, ⟨.send job.body, .error x⟩]
      (.error (some (serverExecutionError 409 "server_execution_uncertain" call.correlationId
        job.state.mode, []))) s'' := by
  have hforward : RunsTo performs (ExceptT.lift (forward L job.state job.body) : Handling _) s'
      [⟨.send job.body, .error x⟩] (.ok (.error x)) s'' :=
    Prog.RunsTo.bind (forward_failed ha hsend) ⟨rfl, rfl, rfl⟩
  unfold execute
  exact (beginBinding_started hbegin).bind (hforward.bind .throw)

theorem forward_answered {requestId : Option Json} {upstream : ForwardedResponse}
    (ha : job.state.upstreamAdapter.validateRequest L.floats L.texts job.body = .ok requestId)
    (hok : job.state.upstreamAdapter.accept L.floats L.texts requestId upstream = .ok upstream)
    (hp : performs (.send job.body) s (.ok upstream) s') :
    Prog.RunsTo performs (forward L job.state job.body) s [⟨.send job.body, .ok upstream⟩]
      (.ok upstream) s' := by
  rw [forward, ha]
  exact ⟨_, s', [], hp, rfl, rfl, hok.symm, rfl⟩

/-- An execution whose upstream answers and whose result is stored. -/
theorem execute_answered {b : ServerExecutionBinding} {requestId : Option Json}
    {upstream : ForwardedResponse} {c : ServerExecutionCompleted} {ts : Rfc3339.Clock} {s₁ s₂ : σ}
    (hbegin : performs (.beginServerExecution job.state.instanceId b) s (.ok .started) s₁)
    (ha : job.state.upstreamAdapter.validateRequest L.floats L.texts job.body = .ok requestId)
    (hok : job.state.upstreamAdapter.accept L.floats L.texts requestId upstream = .ok upstream)
    (hsend : performs (.send job.body) s₁ (.ok upstream) s₂)
    (hcomplete : performs (.completeServerExecution b upstream.status upstream.contentType
      upstream.body) s₂ (.ok c) s') (hnow : performs .utcNow s' ts s'') :
    RunsTo performs (execute L job.state job.body call v (some b)) s
      [⟨.beginServerExecution job.state.instanceId b, .ok .started⟩,
        ⟨.send job.body, .ok upstream⟩,
        ⟨.completeServerExecution b upstream.status upstream.contentType upstream.body, .ok c⟩,
        ⟨.utcNow, ts⟩]
      (.error ((serverExecutionResponse c call.correlationId job.state.mode false v.wouldDeny
        v.wouldPend).map fun r => (r, maybeFireWebhook job.state
          (verdictEvent job.state call v v.event v.brain.intentCategory ts)))) s'' := by
  have hforward : RunsTo performs (ExceptT.lift (forward L job.state job.body) : Handling _) s₁
      [⟨.send job.body, .ok upstream⟩] (.ok (.ok upstream)) s₂ :=
    Prog.RunsTo.bind (forward_answered ha hok hsend) ⟨rfl, rfl, rfl⟩
  have hstored : RunsTo performs (complete job.state call (some b) upstream) s₂
      [⟨.completeServerExecution b upstream.status upstream.contentType upstream.body, .ok c⟩]
      (.ok (some c)) s' := by
    unfold complete
    exact .ask hcomplete .pure
  unfold execute
  refine (beginBinding_started hbegin).bind (hforward.bind (hstored.bind ?_))
  unfold finish
  exact .ask hnow .throw

/-- A server execution that is neither parked nor denied, up to an upstream that
does not answer. -/
theorem execution_alone {u : Uuid} {url : Option String} {policy : PolicyDecision}
    {b : ServerExecutionBinding} {r : Except SqlError LedgerEntry} {x : String}
    {s₁ s₂ s₃ s₄ s₅ : σ} (hg : gates L job.state job.headers job.body u.text = .ok call)
    (hr : job.state.rateLimited = false)
    (hurl : validateCallbackUrl L job.state job.headers = .ok url)
    (hm : isMcpControlMethod call.parsed.method = false) (hb : Bound L job call (some b))
    (hd : call.decision = none) (hv : v = ⟨brainOf L job.body call, policy⟩)
    (hn : ¬ NeedsReview job v) (hred : ¬ (v.tier = .red ∧ job.state.mode = .enforce))
    (hnew : performs .newV4 s u s₁)
    (hi : performs (.inspectServerExecution b) s₁ (.ok .missing) s₂)
    (he : performs (.evaluate job.state.instanceId (policyInput L job.body call)) s₂ policy s₃)
    (ha : performs (.append (verdictRequest call v)) s₃ r s₄)
    (hbegin : performs (.beginServerExecution job.state.instanceId b) s₄ (.ok .started) s₅)
    (hsend : performs (.send job.body) s₅ (.error x) s') :
    Prog.RunsTo performs (job.program L) s
      [⟨.newV4, u⟩, ⟨.inspectServerExecution b, .ok .missing⟩, evaluation L job call policy,
        ⟨.append (verdictRequest call v), r⟩,
        ⟨.beginServerExecution job.state.instanceId b, .ok .started⟩, ⟨.send job.body, .error x⟩]
      (some (serverExecutionError 409 "server_execution_uncertain" call.correlationId
        job.state.mode, [])) s' := by
  subst hv
  obtain ⟨requestId, hadapter⟩ := (gates_ok hg).adapter
  refine handleMcp_admitted (e := .error _) hg hnew (admitted_toolCall hr hurl hm
    (toolCall_judged hb (inspect_missing hi) he ha ?_))
  exact (review_none hn).bind ((enforceDeny_none hred).bind ((answerDecision_none hd).bind
    (execute_unanswered hbegin hadapter hsend)))

/-- Such an execution, from its beginning to its end. -/
theorem executed_alone {u : Uuid} {url : Option String} {policy : PolicyDecision}
    {b : ServerExecutionBinding} {r : Except SqlError LedgerEntry} {s₁ s₂ s₃ s₄ : σ}
    (hg : gates L job.state job.headers job.body u.text = .ok call)
    (hr : job.state.rateLimited = false)
    (hurl : validateCallbackUrl L job.state job.headers = .ok url)
    (hm : isMcpControlMethod call.parsed.method = false) (hb : Bound L job call (some b))
    (hd : call.decision = none) (hv : v = ⟨brainOf L job.body call, policy⟩)
    (hn : ¬ NeedsReview job v) (hred : ¬ (v.tier = .red ∧ job.state.mode = .enforce))
    (hnew : performs .newV4 s u s₁)
    (hi : performs (.inspectServerExecution b) s₁ (.ok .missing) s₂)
    (he : performs (.evaluate job.state.instanceId (policyInput L job.body call)) s₂ policy s₃)
    (ha : performs (.append (verdictRequest call v)) s₃ r s₄)
    (hexecute : RunsTo performs (execute L job.state job.body call v (some b)) s₄ cs e s') :
    Prog.RunsTo performs (job.program L) s
      ([⟨.newV4, u⟩, ⟨.inspectServerExecution b, .ok .missing⟩, evaluation L job call policy,
        ⟨.append (verdictRequest call v), r⟩] ++ cs) (ended e) s' := by
  subst hv
  refine handleMcp_admitted hg hnew (admitted_toolCall hr hurl hm
    (toolCall_judged hb (inspect_missing hi) he ha ?_))
  exact (review_none hn).bind ((enforceDeny_none hred).bind ((answerDecision_none hd).bind
    hexecute))

/-- An execution whose result is known. -/
theorem known_alone {u : Uuid} {url : Option String} {b : ServerExecutionBinding}
    {c : ServerExecutionCompleted} (hg : gates L job.state job.headers job.body u.text = .ok call)
    (hr : job.state.rateLimited = false)
    (hurl : validateCallbackUrl L job.state job.headers = .ok url)
    (hm : isMcpControlMethod call.parsed.method = false) (hb : Bound L job call (some b))
    (hnew : performs .newV4 s u s') (hi : performs (.inspectServerExecution b) s'
      (.ok (.completed c)) s'') :
    Prog.RunsTo performs (job.program L) s
      [⟨.newV4, u⟩, ⟨.inspectServerExecution b, .ok (.completed c)⟩]
      ((serverExecutionResponse c call.correlationId job.state.mode true false false).map
        fun r => (r, [])) s'' := by
  refine handleMcp_admitted (e := .error _) hg hnew (admitted_toolCall hr hurl hm ?_)
  have hinspect : RunsTo performs (inspectBinding job.state call b) s'
      [⟨.inspectServerExecution b, .ok (.completed c)⟩]
      (.error ((serverExecutionResponse c call.correlationId job.state.mode true false false).map
        fun r => (r, []))) s'' := by
    unfold inspectBinding
    exact .ask hi .throw
  unfold handleToolCall
  exact (serverBinding_bound hb).bind (RunsTo.ended hinspect)

/-- A decision that is neither parked nor denied. -/
theorem decision_alone {u : Uuid} {url : Option String} {policy : PolicyDecision}
    {r : Except SqlError LedgerEntry} {ts : Rfc3339.Clock} {s₁ s₂ s₃ : σ}
    (hg : gates L job.state job.headers job.body u.text = .ok call)
    (hr : job.state.rateLimited = false)
    (hurl : validateCallbackUrl L job.state job.headers = .ok url)
    (hm : isMcpControlMethod call.parsed.method = false) (hs : call.serverExecution = none)
    (hd : call.decision.isSome) (hv : v = ⟨brainOf L job.body call, policy⟩)
    (hn : ¬ NeedsReview job v) (hred : ¬ (v.tier = .red ∧ job.state.mode = .enforce))
    (hnew : performs .newV4 s u s₁)
    (he : performs (.evaluate job.state.instanceId (policyInput L job.body call)) s₁ policy s₂)
    (ha : performs (.append (verdictRequest call v)) s₂ r s₃) (hnow : performs .utcNow s₃ ts s') :
    Prog.RunsTo performs (job.program L) s
      [⟨.newV4, u⟩, evaluation L job call policy, ⟨.append (verdictRequest call v), r⟩,
        ⟨.utcNow, ts⟩]
      (some (plainResponse 200 call.correlationId job.state.mode
          (.json (decisionAllowed call.correlationId)),
        maybeFireWebhook job.state
          (verdictEvent job.state call v .allow v.brain.intentCategory ts))) s' := by
  subst hv
  refine handleMcp_admitted (e := .error _) hg hnew (admitted_toolCall hr hurl hm
    (toolCall_judged (Or.inl ⟨hs, rfl⟩) inspect_none he ha ?_))
  exact (review_none hn).bind ((enforceDeny_none hred).bind
    (RunsTo.ended (answerDecision_some hd hnow)))

end Stages

section Reviews

variable {L : Libraries} {job : McpJob} {σ : Type}
  {performs : ∀ {δ : Type}, McpOp δ → σ → δ → σ → Prop} {s s' s'' : σ} {call : McpCall}
  {binding : Option ServerExecutionBinding} {v : Verdict} {url : Option String} {cs : McpCalls}

theorem park_stored {parked : Pending} {ts : Rfc3339.Clock}
    (hp : performs (.parkPending (parkRequestOf call v url)) s (.ok parked) s')
    (hnow : performs .utcNow s' ts s'') :
    RunsTo performs (park job.state call v url) s
      [⟨.parkPending (parkRequestOf call v url), .ok parked⟩, ⟨.utcNow, ts⟩]
      (.error (some (pendingResponse job.state call v v.policy.reviewReasons,
        job.state.slackWebhookUrl.toList.map (.slack · parked) ++
          maybeFireWebhook job.state (verdictEvent job.state call v .park "PendingReview" ts)))) s'' := by
  unfold park
  exact .ask hp (.ask hnow .throw)

theorem park_refused {x : SqlError}
    (hp : performs (.parkPending (parkRequestOf call v url)) s (.error x) s') :
    RunsTo performs (park job.state call v url) s
      [⟨.parkPending (parkRequestOf call v url), .error x⟩]
      (.error (some (parkFailed job.state call.correlationId, []))) s' := by
  unfold park
  exact .ask hp .throw

theorem reviewExecution_parks {e : Except Ended Unit}
    (hget : performs (.getPending call.correlationId) s (.ok none) s')
    (h : RunsTo performs (park job.state call v url) s' cs e s'') :
    RunsTo performs (reviewExecution job.state call v url) s
      (⟨.getPending call.correlationId, .ok none⟩ :: cs) e s'' := by
  unfold reviewExecution
  exact .ask hget h

theorem reviewExecution_resumes {p : Pending} (ha : p.decision = some "allow")
    (hget : performs (.getPending call.correlationId) s (.ok (some p)) s') :
    RunsTo performs (reviewExecution job.state call v url) s
      [⟨.getPending call.correlationId, .ok (some p)⟩] (.ok ()) s' := by
  unfold reviewExecution
  refine .ask hget ?_
  show RunsTo _ (if p.decision = some "allow" then _ else _) _ _ _ _
  rw [if_pos ha]
  exact .pure

theorem reviewExecution_waits {p : Pending} (ha : p.decision ≠ some "allow")
    (hd : p.decision ≠ some "deny")
    (hget : performs (.getPending call.correlationId) s (.ok (some p)) s') :
    RunsTo performs (reviewExecution job.state call v url) s
      [⟨.getPending call.correlationId, .ok (some p)⟩]
      (.error (some (pendingResponse job.state call v p.reviewReasons, []))) s' := by
  unfold reviewExecution
  refine .ask hget ?_
  show RunsTo _ (if p.decision = some "allow" then _ else _) _ _ _ _
  rw [if_neg ha, if_neg hd]
  exact .throw

theorem review_execution {e : Except Ended Unit} (hn : NeedsReview job v)
    (hs : call.serverExecution.isSome)
    (h : RunsTo performs (reviewExecution job.state call v url) s cs e s') :
    RunsTo performs (review job.state call v url) s cs e s' := by
  rwa [review, if_pos (needsReview_iff.mpr hn), if_pos hs]

theorem review_decision {e : Except Ended Unit} (hn : NeedsReview job v)
    (hs : call.serverExecution = none)
    (h : RunsTo performs (park job.state call v url) s cs e s') :
    RunsTo performs (review job.state call v url) s cs e s' := by
  rwa [review, if_pos (needsReview_iff.mpr hn), if_neg (by simp [hs])]

/-- A tool call that its review ends. -/
theorem review_alone {u : Uuid} {policy : PolicyDecision} {r : Except SqlError LedgerEntry}
    {e : Ended} {s₁ s₂ s₃ s₄ : σ} (hg : gates L job.state job.headers job.body u.text = .ok call)
    (hr : job.state.rateLimited = false)
    (hurl : validateCallbackUrl L job.state job.headers = .ok url)
    (hm : isMcpControlMethod call.parsed.method = false) (hb : Bound L job call binding)
    (hv : v = ⟨brainOf L job.body call, policy⟩) (hnew : performs .newV4 s u s₁)
    (hi : RunsTo performs (binding.elim (return) (inspectBinding job.state call)) s₁
      (inspectPart binding) (.ok ()) s₂)
    (he : performs (.evaluate job.state.instanceId (policyInput L job.body call)) s₂ policy s₃)
    (ha : performs (.append (verdictRequest call v)) s₃ r s₄)
    (hreview : RunsTo performs (review job.state call v url) s₄ cs (.error e) s') :
    Prog.RunsTo performs (job.program L) s
      (⟨.newV4, u⟩ :: (inspectPart binding ++ evaluation L job call policy ::
        ⟨.append (verdictRequest call v), r⟩ :: cs)) e s' := by
  subst hv
  exact handleMcp_admitted (e := .error _) hg hnew (admitted_toolCall hr hurl hm
    (toolCall_judged hb hi he ha hreview.ended))

/-- A server execution that goes on after its review, up to an upstream that does not
answer. -/
theorem resumed_alone {u : Uuid} {policy : PolicyDecision} {b : ServerExecutionBinding}
    {r : Except SqlError LedgerEntry} {x : String} {s₁ s₂ s₃ s₄ s₅ s₆ : σ}
    (hg : gates L job.state job.headers job.body u.text = .ok call)
    (hr : job.state.rateLimited = false)
    (hurl : validateCallbackUrl L job.state job.headers = .ok url)
    (hm : isMcpControlMethod call.parsed.method = false) (hb : Bound L job call (some b))
    (hd : call.decision = none) (hv : v = ⟨brainOf L job.body call, policy⟩)
    (hred : v.tier ≠ .red) (hnew : performs .newV4 s u s₁)
    (hi : performs (.inspectServerExecution b) s₁ (.ok .missing) s₂)
    (he : performs (.evaluate job.state.instanceId (policyInput L job.body call)) s₂ policy s₃)
    (ha : performs (.append (verdictRequest call v)) s₃ r s₄)
    (hreview : RunsTo performs (review job.state call v url) s₄ cs (.ok ()) s₅)
    (hbegin : performs (.beginServerExecution job.state.instanceId b) s₅ (.ok .started) s₆)
    (hsend : performs (.send job.body) s₆ (.error x) s') :
    Prog.RunsTo performs (job.program L) s
      (⟨.newV4, u⟩ :: (inspectPart (some b) ++ evaluation L job call policy ::
        ⟨.append (verdictRequest call v), r⟩ ::
          (cs ++ [⟨.beginServerExecution job.state.instanceId b, .ok .started⟩,
            ⟨.send job.body, .error x⟩])))
      (some (serverExecutionError 409 "server_execution_uncertain" call.correlationId
        job.state.mode, [])) s' := by
  subst hv
  obtain ⟨requestId, hadapter⟩ := (gates_ok hg).adapter
  refine handleMcp_admitted (e := .error _) hg hnew (admitted_toolCall hr hurl hm
    (toolCall_judged hb (inspect_missing hi) he ha ?_))
  exact hreview.bind ((enforceDeny_none fun h => hred h.1).bind ((answerDecision_none hd).bind
    (execute_unanswered hbegin hadapter hsend)))

end Reviews

/-- A field of a request, found by its name or by its position. -/
def requestField (name : String) (position : Nat) : Json → Option Json
  | .obj ms => lookup name ms
  | .arr xs => xs[position]?
  | _ => none

def optionalText : Option Json → Option (Option String)
  | none => some none
  | some .null => some none
  | some (.str s) => some (some s)
  | some _ => none

def requestOf (j : Json) : Option McpRequest := do
  let method ← (requestField "method" 0 j).bind Json.asStr?
  let jsonrpc ← optionalText (requestField "jsonrpc" 3 j)
  let value := fun field : Option Json => (field.filter (!·.isNull)).bind (toValue bitsText)
  return { method := method
           params := value (requestField "params" 1 j)
           id := value (requestField "id" 2 j)
           jsonrpc := jsonrpc }

/-- Libraries that read a request from any object or array that has its fields. -/
def plainLibraries : Libraries where
  floats := bitsText
  texts := sampleTexts
  urls := plainUrls
  readRequest body :=
    if opensWith '{' body || opensWith '[' body then
      (fromSlice bitsText body).bind fun v => requestOf v.json
    else none
  lowercase := toAsciiLowercase
  readRequest_opens body h := by
    by_contra hopens
    exact h (if_neg (by simpa using hopens))

end ClavenarLite
