import ClavenarLite.Lib.TimeOrder
import ClavenarLite.Proxy.Gating
import ClavenarLite.Proxy.Rejections

/-! The retained results that clients are answered with. One result is kept for an execution:
what the upstream answered to the one request that was sent for it. Whoever is answered with a
result, now or by a later retry, is answered with that one. -/

namespace ClavenarLite

open Bytes Interaction Sha TextJson Transaction

/-- The call told its request the result of the execution. -/
inductive Tells (b : ServerExecutionBinding) (c : ServerExecutionCompleted) : Call McpOp → Prop
  | inspected : Tells b c ⟨.inspectServerExecution b, .ok (.completed c)⟩
  | known (i : String) : Tells b c ⟨.beginServerExecution i b, .ok (.completed c)⟩
  | stored (st : UInt16) (ct : Option String) (body : Octets) :
      Tells b c ⟨.completeServerExecution b st ct body, .ok c⟩

variable (L : Libraries) (job : McpJob)

/-- The execution was begun, and the upstream has answered with what the adapter accepts. -/
structure Obtained (b : ServerExecutionBinding) (answer : ForwardedResponse) (cs : McpCalls) :
    Prop where
  started : ⟨.beginServerExecution job.state.instanceId b, .ok .started⟩ ∈ cs
  sent : ⟨.send job.body, .ok answer⟩ ∈ cs
  accepted : ∃ requestId,
    job.state.upstreamAdapter.validateRequest L.floats L.texts job.body = .ok requestId ∧
      job.state.upstreamAdapter.accept L.floats L.texts requestId answer = .ok answer

/-- What is stored as a result is such an answer. -/
def StoreRule (cs : McpCalls) : {δ : Type} → McpOp δ → Prop
  | _, .completeServerExecution b st ct body => Obtained L job b ⟨st, ct, body⟩ cs
  | _, _ => True

/-- The result can be put into headers. -/
def Presentable (c : ServerExecutionCompleted) : Prop :=
  (headerValue c.executionId).isSome ∧ (headerValue c.resultSha256).isSome

/-- A server execution of a tool that gets past the gates, the limiter and the check of its
callback with a body that is no JSON value. -/
structure Misparsed (call : McpCall) (cs : McpCalls) : Prop where
  opened : Opened L job call cs
  callback : ∃ url, validateCallbackUrl L job.state job.headers = .ok url
  tool : isMcpControlMethod call.parsed.method = false
  execution : call.serverExecution.isSome = true
  unreadable : fromSlice L.floats job.body = none

/-- A response that is marked as retained is made of a result that the request was told. It is
marked as replayed unless the request stored the result itself. A panic is over such a result,
or over the body. -/
def Retains (cs : McpCalls) : Ended → Prop
  | some (r, _) => r.has replayedHeader → ∃ made ∈ cs, ∃ b c, Tells b c made ∧
      ∃ id mode wouldDeny wouldPend,
        serverExecutionResponse c id mode (!isCompletion made) wouldDeny wouldPend = some r
  | none => (∃ call, Misparsed L job call cs) ∨
      ∃ made ∈ cs, ∃ b c, Tells b c made ∧ ¬ Presentable c

variable {L job}

theorem headerValue_ofList {cs : List Char} (h : ∀ c ∈ cs, 32 ≤ c.toNat ∧ c.toNat < 127) :
    (headerValue (String.ofList cs)).isSome := by
  have hall : (utf8 (String.ofList cs)).all isVisibleAscii = true := by
    rw [utf8_ofList, List.all_eq_true]
    intro b hb
    obtain ⟨c, hc, hb⟩ := List.mem_flatMap.mp hb
    obtain ⟨hlow, hhigh⟩ := h c hc
    rw [Rfc3339.utf8EncodeChar_ascii (by omega), List.mem_singleton] at hb
    have hval : b.toNat = c.toNat := by
      rw [hb]
      show c.val.toNat % 256 = c.val.toNat
      exact Nat.mod_eq_of_lt (by show c.toNat < 256; omega)
    have hvisible : 32 ≤ b ∧ b < 127 := by
      rw [UInt8.le_iff_toNat_le, UInt8.lt_iff_toNat_lt, hval]
      exact ⟨hlow, hhigh⟩
    simp [isVisibleAscii, hvisible.1, hvisible.2]
  rw [headerValue, if_pos hall]
  rfl

theorem hexEncode_visible {bs : Octets} {c : Char} (h : c ∈ hexEncode bs) :
    32 ≤ c.toNat ∧ c.toNat < 127 := by
  have hdigit : ∀ n : Fin 16, 32 ≤ (Nat.digitChar n).toNat ∧ (Nat.digitChar n).toNat < 127 := by
    decide
  obtain ⟨b, _, hb⟩ := List.mem_flatMap.mp h
  rcases List.mem_cons.mp hb with rfl | hb
  · exact hdigit ⟨_, byte_div_lt b⟩
  · rw [List.mem_singleton.mp hb]
    exact hdigit ⟨_, byte_mod_lt b⟩

theorem headerValue_uuid (u : Uuid) : (headerValue u.text).isSome := by
  have hdash : 32 ≤ '-'.toNat ∧ '-'.toNat < 127 := by decide
  refine headerValue_ofList fun c hc => ?_
  simp only [Uuid.chars, Uuid.groups, List.map_cons, List.map_nil, List.intercalate,
    List.intersperse, List.flatten_cons, List.flatten_nil, List.append_nil, List.mem_append,
    List.mem_singleton] at hc
  rcases hc with hc | rfl | hc | rfl | hc | rfl | hc | rfl | hc <;>
    first | exact hdash | exact hexEncode_visible hc

theorem headerValue_label (m : Octets) : (headerValue (sha256Label m)).isSome := by
  have htext : sha256Label m = String.ofList ("sha256:".toList ++ hexEncode (Sha.sha256 m)) := by
    rw [String.ofList_append, String.ofList_toList]
    rfl
  rw [htext]
  refine headerValue_ofList fun c hc => ?_
  rcases List.mem_append.mp hc with hc | hc
  · have hvisible : ∀ c ∈ "sha256:".toList, 32 ≤ c.toNat ∧ c.toNat < 127 := by simp
    exact hvisible c hc
  · exact hexEncode_visible hc

/-- What is stored as a result can be put into headers. -/
theorem completedResult_presentable (F : FloatText) (b : ServerExecutionBinding) (st : UInt16)
    (ct : Option String) (body : Octets) : Presentable (completedResult F b st ct body) :=
  ⟨headerValue_uuid b.executionId, headerValue_label body⟩

theorem retains_plain {r : Response} {notes : List Notification} {c : String}
    {mode : ClavenarMode} {wouldDeny wouldPend : Bool} {cs : McpCalls}
    (h : r.headers = clavenarHeaders c mode wouldDeny wouldPend) :
    Retains L job cs (some (r, notes)) := by
  intro hr
  rw [Response.has, h] at hr
  exact absurd hr (not_replayed _ _ _ _)

theorem serverExecutionResponse_none {c : ServerExecutionCompleted} {id : String}
    {mode : ClavenarMode} {replayed wouldDeny wouldPend : Bool}
    (h : serverExecutionResponse c id mode replayed wouldDeny wouldPend = none) :
    ¬ Presentable c := by
  rintro ⟨hid, hsha⟩
  obtain ⟨executionId, hid⟩ := Option.isSome_iff_exists.mp hid
  obtain ⟨resultSha256, hsha⟩ := Option.isSome_iff_exists.mp hsha
  simp [serverExecutionResponse, hid, hsha] at h

theorem Presentable.response {c : ServerExecutionCompleted} (h : Presentable c) (id : String)
    (mode : ClavenarMode) (replayed wouldDeny wouldPend : Bool) :
    ∃ r, serverExecutionResponse c id mode replayed wouldDeny wouldPend = some r := by
  cases hr : serverExecutionResponse c id mode replayed wouldDeny wouldPend with
  | none => exact absurd h (serverExecutionResponse_none hr)
  | some r => exact ⟨r, rfl⟩

theorem response_replayed {c : ServerExecutionCompleted} {id : String} {mode : ClavenarMode}
    {replayed wouldDeny wouldPend : Bool} {r : Response}
    (h : serverExecutionResponse c id mode replayed wouldDeny wouldPend = some r) :
    r.has replayedHeader := by
  obtain ⟨extra, he, hreplayed, _⟩ := serverExecutionResponse_headers h
  rw [Response.has, he, List.map_append]
  exact List.mem_append_right _ hreplayed

theorem retains_told {b : ServerExecutionBinding} {c : ServerExecutionCompleted} {id : String}
    {mode : ClavenarMode} {wouldDeny wouldPend : Bool} {notes : List Notification} {cs : McpCalls}
    {made : Call McpOp} (hm : made ∈ cs) (ht : Tells b c made) {replayed : Bool}
    (hr : replayed = !isCompletion made) :
    Retains L job cs ((serverExecutionResponse c id mode replayed wouldDeny wouldPend).map
      fun r => (r, notes)) := by
  cases hresponse : serverExecutionResponse c id mode replayed wouldDeny wouldPend with
  | none => exact Or.inr ⟨made, hm, b, c, ht, serverExecutionResponse_none hresponse⟩
  | some r =>
    intro _
    rw [hr] at hresponse
    exact ⟨made, hm, b, c, ht, id, mode, wouldDeny, wouldPend, hresponse⟩

variable {call : McpCall} {v : Verdict} {url : Option String} {b : ServerExecutionBinding}
  {cs : McpCalls}

theorem checkRate_retains {u : Uuid}
    (hg : gates L job.state job.headers job.body u.text = .ok call) :
    Meets (StoreRule L job) (Retains L job) (fun cs _ => Opened L job call cs) [⟨.newV4, u⟩]
      (checkRate L job.state call) := by
  unfold checkRate
  by_cases hr : job.state.rateLimited = true
  · rw [if_pos hr]
    refine .ask trivial fun outcome => ?_
    cases outcome with
    | allowed => exact .pure ⟨u, hg, by simp [ratePart, hr]⟩
    | denied a s => exact .ask trivial fun _ => .throw (retains_plain rfl)
  · rw [if_neg hr]
    exact .pure ⟨u, hg, by simp [ratePart, hr]⟩

theorem inspectBinding_retains : Meets (StoreRule L job) (Retains L job) (fun _ _ => True) cs
    (inspectBinding job.state call b) := by
  unfold inspectBinding
  refine .ask trivial fun outcome => ?_
  cases outcome with
  | error x => exact .throw (retains_plain rfl)
  | ok outcome =>
    cases outcome with
    | missing => exact .pure trivial
    | started => exact .throw (retains_plain rfl)
    | completed c => exact .throw (retains_told (List.mem_append_right _ List.mem_cons_self) .inspected rfl)
    | uncertain => exact .throw (retains_plain rfl)
    | conflict => exact .throw (retains_plain rfl)

theorem judge_retains : Meets (StoreRule L job) (Retains L job) (fun _ _ => True) cs
    (judge L job.state job.body call) := by
  unfold judge
  exact .ask trivial fun _ => .ask trivial fun _ => .pure trivial

theorem park_retains : Meets (StoreRule L job) (Retains L job) (fun _ _ => True) cs
    (park job.state call v url) := by
  unfold park
  refine .ask trivial fun answer => ?_
  cases answer with
  | error x => exact .throw (retains_plain rfl)
  | ok parked => exact .ask trivial fun _ => .throw (retains_plain rfl)

theorem review_retains : Meets (StoreRule L job) (Retains L job) (fun _ _ => True) cs
    (review job.state call v url) := by
  unfold review
  by_cases hn : (v.wouldPend && job.state.mode == .enforce) = true
  · rw [if_pos hn]
    by_cases hs : call.serverExecution.isSome = true
    · rw [if_pos hs]
      unfold reviewExecution
      refine .ask trivial fun found => ?_
      cases found with
      | error x => exact .throw (retains_plain rfl)
      | ok found =>
        cases found with
        | none => exact park_retains
        | some p =>
          show Meets _ _ _ _ (if p.decision = some "allow" then _ else _)
          by_cases ha : p.decision = some "allow"
          · rw [if_pos ha]
            exact .pure trivial
          · rw [if_neg ha]
            by_cases hd : p.decision = some "deny"
            · rw [if_pos hd]
              exact .throw (retains_plain rfl)
            · rw [if_neg hd]
              exact .throw (retains_plain rfl)
    · rw [if_neg hs]
      exact park_retains
  · rw [if_neg hn]
    exact .pure trivial

theorem enforceDeny_retains : Meets (StoreRule L job) (Retains L job) (fun _ _ => True) cs
    (enforceDeny job.state call v) := by
  unfold enforceDeny
  by_cases hd : (v.wouldDeny && job.state.mode == .enforce) = true
  · rw [if_pos hd]
    exact .ask trivial fun _ => .throw (retains_plain rfl)
  · rw [if_neg hd]
    exact .pure trivial

theorem answerDecision_retains : Meets (StoreRule L job) (Retains L job) (fun _ _ => True) cs
    (answerDecision job.state call v) := by
  unfold answerDecision
  by_cases hs : call.decision.isSome = true
  · rw [if_pos hs]
    exact .ask trivial fun _ => .throw (retains_plain rfl)
  · rw [if_neg hs]
    exact .pure trivial

theorem beginBinding_retains : Meets (StoreRule L job) (Retains L job)
    (fun ds _ => ⟨.beginServerExecution job.state.instanceId b, .ok .started⟩ ∈ ds) cs
    (beginBinding job.state call v b) := by
  unfold beginBinding
  refine .ask trivial fun outcome => ?_
  cases outcome with
  | error x => exact .throw (retains_plain rfl)
  | ok outcome =>
    cases outcome with
    | missing => exact .throw (retains_plain rfl)
    | started => exact .pure (by simp)
    | completed c => exact .throw (retains_told (List.mem_append_right _ List.mem_cons_self) (.known _) rfl)
    | uncertain => exact .throw (retains_plain rfl)
    | conflict => exact .throw (retains_plain rfl)

/-- What comes back from the upstream was sent for and accepted. -/
theorem forward_retains : Meets (StoreRule L job) (Retains L job)
    (fun ds r => (∀ made ∈ cs, made ∈ ds) ∧ ∀ answer, r = .ok answer →
      ⟨.send job.body, .ok answer⟩ ∈ ds ∧ ∃ requestId,
        job.state.upstreamAdapter.validateRequest L.floats L.texts job.body = .ok requestId ∧
          job.state.upstreamAdapter.accept L.floats L.texts requestId answer = .ok answer) cs
    (ExceptT.lift (forward L job.state job.body)) := by
  have hprog : Prog.Meets (StoreRule L job) (fun ds r => (∀ made ∈ cs, made ∈ ds) ∧
      ∀ answer, r = .ok answer → ⟨.send job.body, .ok answer⟩ ∈ ds ∧ ∃ requestId,
        job.state.upstreamAdapter.validateRequest L.floats L.texts job.body = .ok requestId ∧
          job.state.upstreamAdapter.accept L.floats L.texts requestId answer = .ok answer) cs
      (forward L job.state job.body) := by
    unfold forward
    cases hid : job.state.upstreamAdapter.validateRequest L.floats L.texts job.body with
    | error e => exact ⟨fun _ hm => hm, fun _ he => absurd he (by simp)⟩
    | ok requestId =>
      refine ⟨trivial, fun received => ⟨fun _ hm => List.mem_append_left _ hm, ?_⟩⟩
      intro answer hanswer
      cases received with
      | error x => exact absurd hanswer (by simp [Except.bind])
      | ok response =>
        have haccept : job.state.upstreamAdapter.accept L.floats L.texts requestId response =
            .ok answer := hanswer
        obtain rfl := (UpstreamAdapter.accept_ok haccept).1
        exact ⟨by simp, requestId, rfl, haccept⟩
  exact Prog.Meets.bind hprog fun ds r hr => hr

theorem execute_retains {binding : Option ServerExecutionBinding} :
    Meets (StoreRule L job) (Retains L job) (Retains L job) cs (execute L job.state job.body call v binding) := by
  have hbegin : Meets (StoreRule L job) (Retains L job)
      (fun ds _ => ∀ b, binding = some b →
        ⟨.beginServerExecution job.state.instanceId b, .ok .started⟩ ∈ ds) cs
      (binding.elim (return) (beginBinding job.state call v)) := by
    cases binding with
    | none => exact .pure fun b hb => absurd hb (by simp)
    | some b =>
      refine Prog.Meets.mono beginBinding_retains fun ds r hr => ?_
      cases r with
      | ok u =>
        intro b' hb'
        obtain rfl := Option.some.inj hb'
        exact hr
      | error e => exact hr
  unfold execute
  refine hbegin.bind fun ds _ hstarted => forward_retains.bind fun es r hes => ?_
  obtain ⟨hkept, hanswer⟩ := hes
  cases r with
  | error e =>
    cases binding with
    | none => exact .throw (retains_plain rfl)
    | some b => exact .throw (retains_plain rfl)
  | ok upstream =>
    obtain ⟨hsent, haccepted⟩ := hanswer upstream rfl
    have hstored : Meets (StoreRule L job) (Retains L job)
        (fun fs completion => ∀ c, completion = some c → ∃ b st ct body,
          ⟨.completeServerExecution b st ct body, .ok c⟩ ∈ fs) es
        (complete job.state call binding upstream) := by
      unfold complete
      cases binding with
      | none => exact .pure fun c hc => absurd hc (by simp)
      | some b =>
        refine .ask ⟨hkept _ (hstarted b rfl), hsent, haccepted⟩ fun answer => ?_
        cases answer with
        | error x => exact .throw (retains_plain rfl)
        | ok completed =>
          refine .pure fun c hc => ⟨b, upstream.status, upstream.contentType, upstream.body, ?_⟩
          obtain rfl := Option.some.inj hc
          simp
    refine hstored.bind fun fs completion hcompletion => ?_
    unfold finish
    refine .ask trivial fun ts => ?_
    cases completion with
    | none => exact .pure (retains_plain rfl)
    | some completed =>
      obtain ⟨b, st, ct, body, hmade⟩ := hcompletion completed rfl
      exact .throw (retains_told (List.mem_append_left _ hmade) (.stored st ct body) rfl)

theorem forwardControl_retains : Meets (StoreRule L job) (Retains L job) (Retains L job) cs
    (forwardControl L job.state job.body call) := by
  have hobserve : ∀ {ds body}, Meets (StoreRule L job) (Retains L job) (fun _ _ => True) ds
      (observeCatalog job.state call body) := by
    intro ds body
    unfold observeCatalog
    by_cases hm : call.parsed.method = "tools/list"
    · rw [if_pos hm]
      refine .ask trivial fun alarm => ?_
      cases alarm with
      | none => exact .pure trivial
      | some log => exact .ask trivial fun _ => .pure trivial
    · rw [if_neg hm]
      exact .pure trivial
  unfold forwardControl
  refine forward_retains.bind fun ds r _ => ?_
  cases r with
  | error e => exact .throw (retains_plain rfl)
  | ok upstream => exact hobserve.bind fun _ _ _ => .pure (retains_plain rfl)

theorem handleToolCall_retains (ho : Opened L job call cs)
    (hurl : validateCallbackUrl L job.state job.headers = .ok url)
    (hm : isMcpControlMethod call.parsed.method = false) :
    Meets (StoreRule L job) (Retains L job) (Retains L job) cs
      (handleToolCall L job.state job.body call url) := by
  unfold handleToolCall
  have hbind : Meets (StoreRule L job) (Retains L job) (fun _ _ => True) cs
      (serverBinding L job.body call) := by
    unfold serverBinding
    cases hs : call.serverExecution with
    | none => exact .pure trivial
    | some id =>
      cases hv : fromSlice L.floats job.body with
      | none => exact .throw (Or.inl ⟨call, ho, ⟨url, hurl⟩, hm, by rw [hs]; rfl, hv⟩)
      | some value => exact .pure trivial
  refine hbind.bind fun ds binding _ => ?_
  have hinspect : Meets (StoreRule L job) (Retains L job) (fun _ _ => True) ds
      (binding.elim (return) (inspectBinding job.state call)) := by
    cases binding with
    | none => exact .pure trivial
    | some b => exact inspectBinding_retains
  refine hinspect.bind fun _ _ _ => judge_retains.bind fun _ v _ => ?_
  refine review_retains.bind fun _ _ _ => enforceDeny_retains.bind fun _ _ _ => ?_
  exact answerDecision_retains.bind fun _ _ _ => execute_retains

theorem admitted_retains {u : Uuid}
    (hg : gates L job.state job.headers job.body u.text = .ok call) :
    Meets (StoreRule L job) (Retains L job) (Retains L job) [⟨.newV4, u⟩]
      (admitted L job.state job.headers job.body call) := by
  unfold admitted
  refine (checkRate_retains hg).bind fun ds _ ho => ?_
  cases hurl : validateCallbackUrl L job.state job.headers with
  | error reason => exact .throw (retains_plain rfl)
  | ok url =>
    show Meets _ _ _ _ (if isMcpControlMethod call.parsed.method = true then _ else _)
    by_cases hm : isMcpControlMethod call.parsed.method = true
    · rw [if_pos hm]
      by_cases hs : call.serverExecution.isSome = true
      · rw [if_pos hs]
        exact .throw (retains_plain rfl)
      · rw [if_neg hs]
        by_cases hd : call.decision.isSome = true
        · rw [if_pos hd]
          exact .throw (retains_plain rfl)
        · rw [if_neg hd]
          exact forwardControl_retains
    · rw [if_neg hm]
      exact handleToolCall_retains ho hurl (by simpa using hm)

theorem handleMcp_retains : Prog.Meets (StoreRule L job) (Retains L job) [] (job.program L) := by
  refine ⟨trivial, fun u => ?_⟩
  simp only [Prog.bind]
  cases hg : gates L job.state job.headers job.body u.text with
  | error r => cases gates_refused hg <;> exact retains_plain rfl
  | ok call =>
    refine Prog.Meets.bind (admitted_retains hg) fun cs r hr => ?_
    cases r with
    | ok e => exact hr
    | error e => exact hr

end ClavenarLite
