import ClavenarLite.Callback.Delivery

/-! A delivery goes from hop to hop and stays within the allowlist: what holds when the
loop comes to a hop, and how the delivery ends. -/

namespace ClavenarLite

open Bytes Fallible Interaction Net Text

variable {U : UrlLibrary}

def Accepted (allowlist : List String) (url : U.Url) : Prop :=
  ∃ canonical, validateTarget U (U.print url) allowlist = .ok canonical

/-- What holds when the loop comes to a hop. -/
structure AtHop (allowlist : List String) (payload : Octets) (before : List (Call (NetOp U)))
    (hopsLeft : Nat) (hop : Hop U) : Prop where
  quiet : sinceSend before = []
  hops : (sends before).length + hopsLeft = maximumRedirectHops
  calls : before.length ≤ hopCalls * (sends before).length
  accepted : Accepted allowlist hop.url
  current : U.print hop.url ∈ hop.seen
  seen : ∀ s ∈ sends before, U.print s.1.url ∈ hop.seen
  fresh : ∀ s ∈ sends before, U.print s.1.url ≠ U.print hop.url
  noDowngrade : ∀ s ∈ sends before, U.scheme s.1.url = "https" → U.scheme hop.url ≠ "http"
  shaped : Shaped payload (sends before) hop.method hop.payload hop.sendContentType

theorem Accepted.special (laws : UrlLaws U) {allowlist : List String} {url : U.Url}
    (h : Accepted allowlist url) : isSpecial U url := by
  obtain ⟨canonical, h⟩ := h
  obtain ⟨_, _, _, hnormal, _⟩ := validateTarget_ok h
  obtain ⟨parsed, _, _, n⟩ := normalize_ok hnormal
  obtain rfl := Except.ok.inj ((laws.parse_print url).symm.trans n.parsed)
  exact n.special laws

/-- A canonical URL reads back as the URL that was accepted. -/
theorem accepted_parse (laws : UrlLaws U) {entries allowlist : List String}
    (ha : normalizeAllowlistStrings U entries = .ok allowlist) {raw canonical : String} {url : U.Url}
    (h : validateTarget U raw allowlist = .ok canonical) (hp : U.parse canonical = .ok url) :
    Accepted allowlist url := by
  obtain ⟨_, normalized, _, hnormal, hc, _⟩ := validateTarget_ok h
  obtain ⟨_, _, moved, n⟩ := normalize_ok hnormal
  have hprint : canonical = U.print moved := hc.trans n.canonical
  have hread := laws.parse_print moved
  rw [← hprint, hp] at hread
  obtain rfl := Except.ok.inj hread
  obtain ⟨again, hagain⟩ := validateTarget_again laws ha h
  exact ⟨again, hprint ▸ hagain⟩

theorem targetUrl_accepted (laws : UrlLaws U) {entries allowlist : List String}
    (ha : normalizeAllowlistStrings U entries = .ok allowlist) {raw : String} {url : U.Url}
    (h : targetUrl U raw allowlist = .ok url) : Accepted allowlist url := by
  obtain ⟨canonical, hvalid, h⟩ := bind_ok h
  cases hp : U.parse canonical with
  | error error =>
    rw [hp] at h
    exact absurd h (by simp)
  | ok parsed =>
    rw [hp] at h
    obtain rfl := Except.ok.inj h
    exact accepted_parse laws ha hvalid hp

/-- Where a redirect that is followed leads. -/
structure Followed (allowlist : List String) (hop : Hop U) (response : HopResponse)
    (next : Hop U) : Prop where
  accepted : Accepted allowlist next.url
  noDowngrade : ¬(U.scheme hop.url = "https" ∧ U.scheme next.url = "http")
  fresh : U.print next.url ∉ hop.seen
  seen : next.seen = U.print next.url :: hop.seen
  kept : response.status ≠ 303 → next.method = hop.method ∧ next.payload = hop.payload ∧
    next.sendContentType = hop.sendContentType
  reset : response.status = 303 → next.method = .get ∧ next.payload = [] ∧
    next.sendContentType = false

theorem next_ok (laws : UrlLaws U) {entries allowlist : List String}
    (ha : normalizeAllowlistStrings U entries = .ok allowlist) {hop next : Hop U}
    {response : HopResponse} (h : hop.next allowlist response = .ok next) :
    Followed allowlist hop response next := by
  unfold Hop.next at h
  obtain ⟨value, _, h⟩ := bind_ok h
  obtain ⟨location, _, h⟩ := bind_ok h
  obtain ⟨candidate, _, h⟩ := bind_ok h
  obtain ⟨canonical, htarget, h⟩ := bind_ok h
  obtain ⟨url, hurl, h⟩ := bind_ok h
  obtain ⟨_, hdowngrade, h⟩ := bind_ok h
  obtain ⟨_, hseen, h⟩ := bind_ok h
  have hvalid : validateTarget U (U.print candidate) allowlist = .ok canonical := by
    unfold redirectTarget at htarget
    cases hv : validateTarget U (U.print candidate) allowlist with
    | error error => simp [hv] at htarget
    | ok c => simpa [hv] using htarget
  have hparse : U.parse canonical = .ok url := by
    unfold redirectUrl at hurl
    cases hp : U.parse canonical with
    | error error => simp [hp] at hurl
    | ok u => simpa [hp] using hurl
  have hdowngrade := refuse_ok hdowngrade
  have hseen := refuse_ok hseen
  have haccepted := accepted_parse laws ha hvalid hparse
  have hnext := Except.ok.inj h
  have hurls : next.url = url ∧ next.seen = U.print url :: hop.seen := by
    by_cases hs : response.status = 303
    · rw [← hnext, if_pos hs]
      exact ⟨rfl, rfl⟩
    · rw [← hnext, if_neg hs]
      exact ⟨rfl, rfl⟩
  obtain ⟨rfl, hseen'⟩ := hurls
  refine ⟨haccepted, by simpa using hdowngrade, by simpa using hseen, hseen', ?_, ?_⟩
  · intro hs
    rw [← hnext, if_neg hs]
    exact ⟨rfl, rfl, rfl⟩
  · intro hs
    rw [← hnext, if_pos hs]
    exact ⟨rfl, rfl, rfl⟩

theorem Shaped.next {payload : Octets} {before : List (Sent U)} {hop next : Hop U}
    {request : HopRequest U} {response : HopResponse} {allowlist : List String}
    (h : Shaped payload before hop.method hop.payload hop.sendContentType)
    (hf : Followed allowlist hop response next) :
    Shaped payload (before ++ [(request, .ok response)]) next.method next.payload
      next.sendContentType := by
  have his : ∀ s : Sent U, s = (request, .ok response) → (s.is303 ↔ response.status = 303) := by
    rintro _ rfl
    exact ⟨fun ⟨r, hr, hs⟩ => Except.ok.inj hr ▸ hs, fun hs => ⟨response, rfl, hs⟩⟩
  by_cases hs : response.status = 303
  · refine ⟨fun hno => ?_, fun _ => hf.reset hs⟩
    exact absurd ((his _ rfl).mpr hs) (hno _ (List.mem_append_right _ List.mem_cons_self))
  · obtain ⟨hm, hp, hc⟩ := hf.kept hs
    rw [hm, hp, hc]
    refine ⟨fun hno => h.1 fun s hm => hno s (List.mem_append_left _ hm), ?_⟩
    rintro ⟨s, hm, h303⟩
    rcases List.mem_append.mp hm with hm | hm
    · exact h.2 ⟨s, hm, h303⟩
    · exact absurd ((his s (List.mem_singleton.mp hm)).mp h303) hs

/-- A redirect that is followed leads to a hop. -/
theorem AtHop.next {allowlist : List String} {payload : Octets} {before calls : List (Call (NetOp U))}
    {hopsLeft : Nat} {hop next : Hop U} {address : IpAddr} {port : Nat} {response : HopResponse}
    (laws : UrlLaws U) (h : AtHop allowlist payload before (hopsLeft + 1) hop)
    (hquiet : sends calls = []) (hlength : calls.length ≤ 2)
    (hf : Followed allowlist hop response next) :
    AtHop allowlist payload
      (before ++ calls ++ [⟨.send (hop.request address port), .ok response⟩]) hopsLeft next := by
  have hsends : sends (before ++ calls ++ [⟨.send (hop.request address port), .ok response⟩]) =
      sends before ++ [(hop.request address port, .ok response)] := by
    simp only [sends_append, hquiet, List.append_nil, sends_send]
  have hlast : ∀ s ∈ sends before ++ [(hop.request address port, .ok response)],
      s ∈ sends before ∨ s.1.url = hop.url := by
    intro s hs
    rcases List.mem_append.mp hs with hs | hs
    · exact Or.inl hs
    · exact Or.inr (List.mem_singleton.mp hs ▸ rfl)
  have hhops := h.hops
  have hcalls := h.calls
  refine ⟨sinceSend_send _ _ _, ?_, ?_, hf.accepted, ?_, ?_, ?_, ?_, ?_⟩
  · rw [hsends, List.length_append, List.length_singleton]
    omega
  · rw [hsends]
    simp only [List.length_append, List.length_singleton, hopCalls] at hcalls ⊢
    omega
  · rw [hf.seen]
    exact List.mem_cons_self
  · intro s hs
    rw [hf.seen]
    refine List.mem_cons_of_mem _ ?_
    rcases hlast s (hsends ▸ hs) with hs | he
    · exact h.seen s hs
    · exact he ▸ h.current
  · intro s hs he
    rcases hlast s (hsends ▸ hs) with hs | hu
    · exact hf.fresh (he ▸ h.seen s hs)
    · exact hf.fresh (he ▸ hu ▸ h.current)
  · intro s hs hsecure
    rcases hlast s (hsends ▸ hs) with hs | hu
    · -- the hop in between is secure as well
      have hsecure' := (h.accepted.special laws).resolve_left (h.noDowngrade s hs hsecure)
      exact fun hplain => hf.noDowngrade ⟨hsecure', hplain⟩
    · exact fun hplain => hf.noDowngrade ⟨hu ▸ hsecure, hplain⟩
  · rw [hsends]
    exact h.shaped.next hf

/-- The request of a hop is permitted. -/
theorem AtHop.permits {allowlist : List String} {payload : Octets}
    {before calls : List (Call (NetOp U))} {hopsLeft : Nat} {hop : Hop U} {address : IpAddr}
    {port : Nat} (h : AtHop allowlist payload before hopsLeft hop)
    (ht : Prog.Trace (pinnedClient hop.url) calls (.pure (.ok (address, port)))) :
    deliveryRule allowlist payload (before ++ calls) (.send (hop.request address port)) := by
  obtain ⟨hport, hpins⟩ := pinnedClient_trace ht
  obtain ⟨hlength, hquiet⟩ := hpins.quiet
  have hsince : sinceSend (before ++ calls) = calls := sinceSend_append h.quiet hquiet
  have hsends : sends (before ++ calls) = sends before := by
    rw [sends_append, hquiet, List.append_nil]
  have hhops := h.hops
  have hcalls := h.calls
  refine ⟨⟨h.accepted, hport, hsince.symm ▸ hpins, ?_, ?_, ?_, ?_⟩, ?_⟩
  · rw [hsends]
    omega
  · rw [hsends]
    exact h.fresh
  · rw [hsends]
    exact h.noDowngrade
  · rw [hsends]
    exact h.shaped
  · simp only [List.length_append, hopCalls] at hcalls ⊢
    omega

/-- A hop is permitted when what follows its response is. -/
theorem AtHop.obeys {allowlist : List String} {payload : Octets} {before : List (Call (NetOp U))}
    {hopsLeft : Nat} {hop : Hop U} {rest : HopResponse → Prog (NetOp U) (Except String UInt16)}
    (h : AtHop allowlist payload before hopsLeft hop)
    (hrest : ∀ calls address port response, calls.length ≤ 2 → sends calls = [] →
      Prog.Obeys (deliveryRule allowlist payload)
        (before ++ calls ++ [⟨.send (hop.request address port), .ok response⟩]) (rest response)) :
    Prog.Obeys (deliveryRule allowlist payload) before (hopThen hop rest) := by
  have hhops := h.hops
  have hcalls := h.calls
  simp only [hopCalls] at hcalls
  refine (pinnedClient_obeys hop.url (by simp only [hopCalls]; omega)).bind ?_
  intro pinned calls ht
  cases pinned with
  | error error => trivial
  | ok pinned =>
    obtain ⟨address, port⟩ := pinned
    refine ⟨h.permits ht, fun answer => ?_⟩
    cases answer with
    | error error => trivial
    | ok response =>
      obtain ⟨hlength, hquiet⟩ := (pinnedClient_trace ht).2.quiet
      exact hrest calls address port response hlength hquiet

/-- By induction on the redirects left, every call the loop makes is permitted. -/
theorem sendBounded_obeys (laws : UrlLaws U) {entries allowlist : List String}
    (ha : normalizeAllowlistStrings U entries = .ok allowlist) (payload : Octets) (hopsLeft : Nat)
    (hop : Hop U) (before : List (Call (NetOp U)))
    (h : AtHop allowlist payload before hopsLeft hop) :
    Prog.Obeys (deliveryRule allowlist payload) before (sendBounded allowlist hopsLeft hop) := by
  induction hopsLeft generalizing hop before with
  | zero =>
    refine h.obeys ?_
    intro calls address port response _ _
    by_cases hr : isManualRedirect response.status = true
    · rw [if_pos hr]
      trivial
    · rw [if_neg hr]
      trivial
  | succ hopsLeft ih =>
    refine h.obeys ?_
    intro calls address port response hlength hquiet
    by_cases hr : isManualRedirect response.status = true
    · rw [if_pos hr]
      cases hn : hop.next allowlist response with
      | error error => trivial
      | ok next => exact ih next _ (h.next laws hquiet hlength (next_ok laws ha hn))
    · rw [if_neg hr]
      trivial

theorem postJson_obeys (laws : UrlLaws U) {entries allowlist : List String}
    (ha : normalizeAllowlistStrings U entries = .ok allowlist) (url : String) (payload : Octets) :
    Prog.Obeys (deliveryRule allowlist payload) [] (postJson U url payload allowlist) := by
  unfold postJson
  by_cases hb : callbackRequestBytes < payload.length
  · rw [if_pos hb]
    trivial
  · rw [if_neg hb]
    cases hu : targetUrl U url allowlist with
    | error error => trivial
    | ok url =>
      refine sendBounded_obeys laws ha payload _ _ _ ⟨rfl, rfl, by simp, ?_, by simp, ?_, ?_, ?_, ?_⟩
      · exact targetUrl_accepted laws ha hu
      · exact fun s hs => absurd hs List.not_mem_nil
      · exact fun s hs => absurd hs List.not_mem_nil
      · exact fun s hs => absurd hs List.not_mem_nil
      · exact ⟨fun _ => ⟨rfl, rfl, rfl⟩, fun ⟨s, hs, _⟩ => absurd hs List.not_mem_nil⟩

/-- The delivery ended with this status, read to its end within the limit. -/
def Delivered (calls : List (Call (NetOp U))) (status : UInt16) : Prop :=
  ∃ before request response, calls = before ++ [⟨.send request, .ok response⟩] ∧
    response.status = status ∧ isManualRedirect status = false ∧ response.failure = none ∧
    (response.chunks.map List.length).sum ≤ callbackResponseBytes

theorem readChunks_ok {status result : UInt16} {failure : Option String} {bytes : Nat}
    {chunks : List Octets} (hbytes : bytes ≤ callbackResponseBytes)
    (h : readChunks status failure bytes chunks = .ok result) :
    result = status ∧ failure = none ∧
      bytes + (chunks.map List.length).sum ≤ callbackResponseBytes := by
  induction chunks generalizing bytes with
  | nil =>
    cases failure with
    | none => exact ⟨(Except.ok.inj h).symm, rfl, by simpa using hbytes⟩
    | some error => exact absurd h (by simp [readChunks])
  | cons chunk rest ih =>
    unfold readChunks at h
    by_cases hb : callbackResponseBytes < bytes + chunk.length
    · simp [hb] at h
    · simp only [hb, if_false] at h
      obtain ⟨hresult, hfailure, hsum⟩ := ih (by omega) h
      refine ⟨hresult, hfailure, ?_⟩
      rw [List.map_cons, List.sum_cons]
      omega

theorem hopThen_trace {hop : Hop U} {rest : HopResponse → Prog (NetOp U) (Except String UInt16)}
    {calls : List (Call (NetOp U))} {status : UInt16}
    (ht : Prog.Trace (hopThen hop rest) calls (.pure (.ok status))) :
    ∃ before request response after, calls = before ++ ⟨.send request, .ok response⟩ :: after ∧
      Prog.Trace (rest response) after (.pure (.ok status)) := by
  obtain ⟨pinned, first, second, rfl, _, hsecond⟩ := Prog.trace_bind.mp ht
  cases pinned with
  | error error => simp at hsecond
  | ok pinned =>
    obtain ⟨answer, after, rfl, hafter⟩ := Prog.trace_call.mp hsecond
    cases answer with
    | error error => exact absurd (Prog.trace_pure.mp hafter).2 (by simp)
    | ok response => exact ⟨first, _, response, after, rfl, hafter⟩

theorem Delivered.append {calls : List (Call (NetOp U))} {status : UInt16}
    (h : Delivered calls status) (before : List (Call (NetOp U))) :
    Delivered (before ++ calls) status := by
  obtain ⟨first, request, response, rfl, h⟩ := h
  exact ⟨before ++ first, request, response, (List.append_assoc _ _ _).symm, h⟩

theorem delivered_of_trace {response : HopResponse} {before after : List (Call (NetOp U))}
    {request : HopRequest U} {status : UInt16} (hr : ¬isManualRedirect response.status = true)
    (ht : Prog.Trace (.pure (readChunks response.status response.failure 0 response.chunks) :
      Prog (NetOp U) (Except String UInt16)) after (.pure (.ok status))) :
    Delivered (before ++ ⟨.send request, .ok response⟩ :: after) status := by
  obtain ⟨rfl, hp⟩ := Prog.trace_pure.mp ht
  obtain ⟨rfl, hf, hsum⟩ := readChunks_ok (Nat.zero_le _) (Prog.pure.inj hp).symm
  exact ⟨before, request, response, rfl, rfl, by simpa using hr, hf, by omega⟩

theorem sendBounded_delivered {allowlist : List String} (hopsLeft : Nat) (hop : Hop U)
    {calls : List (Call (NetOp U))} {status : UInt16}
    (ht : Prog.Trace (sendBounded allowlist hopsLeft hop) calls (.pure (.ok status))) :
    Delivered calls status := by
  induction hopsLeft generalizing hop calls with
  | zero =>
    obtain ⟨before, request, response, after, rfl, hafter⟩ := hopThen_trace ht
    by_cases hr : isManualRedirect response.status = true
    · simp [if_pos hr] at hafter
    · rw [if_neg hr] at hafter
      exact delivered_of_trace hr hafter
  | succ hopsLeft ih =>
    obtain ⟨before, request, response, after, rfl, hafter⟩ := hopThen_trace ht
    by_cases hr : isManualRedirect response.status = true
    · rw [if_pos hr] at hafter
      cases hn : hop.next allowlist response with
      | error error => simp [hn] at hafter
      | ok next =>
        rw [hn] at hafter
        rw [List.append_cons]
        exact (ih next hafter).append _
    · rw [if_neg hr] at hafter
      exact delivered_of_trace hr hafter

theorem last_send {calls : List (Call (NetOp U))} (h : sends calls ≠ []) :
    ∃ before request answer after, calls = before ++ ⟨.send request, answer⟩ :: after ∧
      sends after = [] := by
  induction calls with
  | nil => exact absurd rfl h
  | cons call rest ih =>
    by_cases hr : sends rest = []
    · obtain ⟨op, answer⟩ := call
      cases op with
      | send request => exact ⟨[], request, answer, rest, rfl, hr⟩
      | lookupHost name port => cases answer <;> exact absurd hr h
      | buildClient name address port => exact absurd hr h
    · obtain ⟨before, request, answer, after, rfl, ha⟩ := ih hr
      exact ⟨call :: before, request, answer, after, rfl, ha⟩

/-- Whatever lookups and servers answer, and wherever the delivery is cut off:
every request is permitted, and a delivery that succeeds was read to its end. -/
theorem delivery_contained (laws : UrlLaws U) {entries allowlist : List String}
    (ha : normalizeAllowlistStrings U entries = .ok allowlist) (url : String) (payload : Octets)
    {calls : List (Call (NetOp U))} {rest : Prog (NetOp U) (Except String UInt16)}
    (ht : Prog.Trace (postJson U url payload allowlist) calls rest) :
    (∀ before request answer after, calls = before ++ ⟨.send request, answer⟩ :: after →
      PermittedSend allowlist payload before request) ∧
    (sends calls).length ≤ maximumRedirectHops + 1 ∧
    calls.length ≤ hopCalls * (maximumRedirectHops + 1) ∧
    ∀ status, rest = .pure (.ok status) → Delivered calls status := by
  have hobeys := postJson_obeys laws ha url payload
  refine ⟨?_, ?_, ?_, ?_⟩
  · intro before request answer after hc
    exact (hobeys.rule_of_trace ht hc).1
  · by_cases hs : sends calls = []
    · simp [hs]
    · obtain ⟨before, request, answer, after, hc, hafter⟩ := last_send hs
      have hcount := (hobeys.rule_of_trace ht hc).1.count
      have hsends : sends calls = sends before ++ [(request, answer)] := by
        rw [hc, List.append_cons, sends_append, sends_append, sends_send, hafter, List.append_nil]
      rw [hsends, List.length_append, List.length_singleton]
      exact hcount
  · rcases List.eq_nil_or_concat calls with rfl | ⟨before, ⟨op, answer⟩, rfl⟩
    · exact Nat.zero_le _
    · rw [List.concat_eq_append] at ht ⊢
      have hrule := hobeys.rule_of_trace ht rfl
      have hlength : before.length < hopCalls * (maximumRedirectHops + 1) := by
        cases op with
        | send request => exact hrule.2
        | lookupHost name port => exact hrule
        | buildClient name address port => exact hrule
      simpa using hlength
  · rintro status rfl
    unfold postJson at ht
    by_cases hb : callbackRequestBytes < payload.length
    · simp [if_pos hb] at ht
    · rw [if_neg hb] at ht
      cases hu : targetUrl U url allowlist with
      | error error => simp [hu] at ht
      | ok url =>
        rw [hu] at ht
        exact sendBounded_delivered _ _ ht

def hookUrl : String := "https://hooks.example.com/"

def hookAddress : IpAddr := .v4 ⟨93, 184, 216, 34⟩

def hookRequest : HopRequest plainUrls := ⟨.post, plainDomain, true, [], hookAddress, 443⟩

/-- One lookup, one client, one request, and a server that accepts it. -/
def hookCalls : List (Call (NetOp plainUrls)) :=
  [⟨.lookupHost plainDomain 443, some (.ok [hookAddress])⟩,
    ⟨.buildClient plainDomain hookAddress 443, .ok ()⟩,
    ⟨.send hookRequest, .ok ⟨200, none, [[111, 107]], none⟩⟩]

instance : DecidableEq plainUrls.Url := inferInstanceAs (DecidableEq String)

theorem hookUrl_normalized : normalizeAllowlistStrings plainUrls [hookUrl] = .ok [hookUrl] :=
  ok_of_toOption (by decide +kernel)

theorem hookUrl_target : targetUrl plainUrls hookUrl [hookUrl] = .ok plainDomain :=
  ok_of_toOption (by decide +kernel)

theorem hookCalls_trace : Prog.Trace (postJson plainUrls hookUrl [] [hookUrl]) hookCalls
    (.pure (.ok 200)) := by
  have hhost : plainUrls.host plainDomain = some (.domain plainDomain) := by
    simp only [plainUrls]
    exact if_pos rfl
  have hvalid : resolved (some (.ok [hookAddress])) >>= validateAnswers = .ok hookAddress :=
    ok_of_toOption (by decide +kernel)
  have hclient : Prog.Trace (pinnedClient (U := plainUrls) plainDomain) (hookCalls.take 2)
      (.pure (.ok (hookAddress, 443))) := pinnedClient_named hhost rfl rfl hvalid
  unfold postJson
  rw [if_neg (by decide), hookUrl_target]
  exact Prog.trace_bind.mpr ⟨_, _, hookCalls.drop 2, rfl, hclient, .cons (.nil _)⟩

theorem delivery_contained_hook :
    (∀ before request answer after, hookCalls = before ++ ⟨.send request, answer⟩ :: after →
      PermittedSend [hookUrl] [] before request) ∧ Delivered hookCalls 200 := by
  obtain ⟨hsends, _, _, hend⟩ :=
    delivery_contained plainUrls_laws hookUrl_normalized hookUrl [] hookCalls_trace
  exact ⟨hsends, hend 200 rfl⟩

end ClavenarLite
