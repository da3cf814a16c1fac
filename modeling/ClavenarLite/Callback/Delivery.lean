import ClavenarLite.Callback.Target
import ClavenarLite.Lib.Interaction
import ClavenarLite.Proxy.Registry

/-! Delivering a decision to a callback URL: every hop is resolved, checked and
pinned before anything is sent to it. -/

namespace ClavenarLite

open Bytes Fallible Interaction Net Text

def maximumAnswers : Nat := 32

def maximumRedirectHops : Nat := 5

def callbackRequestBytes : Nat := 65536

def callbackResponseBytes : Nat := 65536

inductive Method
  | post
  | get
  deriving DecidableEq

variable (U : UrlLibrary)

/-- A request and the address its client is pinned to. -/
structure HopRequest where
  method : Method
  url : U.Url
  contentType : Bool
  body : Octets
  address : IpAddr
  port : Nat

/-- What the server answers: the chunks of its body, and how reading them ends. -/
structure HopResponse where
  status : UInt16
  location : Option Octets
  chunks : List Octets
  failure : Option String

/-- A lookup that takes too long has no answer. -/
inductive NetOp : Type → Type
  | lookupHost (name : String) (port : Nat) : NetOp (Option (Except String (List IpAddr)))
  | buildClient (name : String) (address : IpAddr) (port : Nat) : NetOp (Except String Unit)
  | send (request : HopRequest U) : NetOp (Except String HopResponse)

def validateAnswers (addresses : List IpAddr) : Except String IpAddr := do
  refuse addresses.isEmpty "DNS answer set is empty"
  refuse (maximumAnswers < addresses.length)
    ("DNS answer set exceeds " ++ toString maximumAnswers ++ " addresses")
  refuse (addresses.any fun address => !isPublicIp address)
    "DNS answer set contains a non-public address"
  -- the set is walked in any order, then sorted
  match addresses.dedup.mergeSort IpAddr.atMost with
  | [] => .error "DNS answer set is empty"
  | first :: _ => .ok first

def isManualRedirect (status : UInt16) : Bool :=
  status == 301 || status == 302 || status == 303 || status == 307 || status == 308

def dnsResolveMillis : Nat := 2000

def resolved : Option (Except String (List IpAddr)) → Except String (List IpAddr)
  | none => .error ("DNS resolution exceeded " ++ toString dnsResolveMillis ++ " ms")
  | some (.error error) => .error ("DNS resolution failed: " ++ error)
  | some (.ok addresses) =>
    if maximumAnswers < addresses.length then
      .error ("DNS answer set exceeds " ++ toString maximumAnswers ++ " addresses")
    else .ok addresses

def resolveComplete (host : String) (port : Nat) :
    Prog (NetOp U) (Except String (List IpAddr)) :=
  Prog.perform (.lookupHost host port) >>= fun answer => pure (resolved answer)

def hostAddresses (host : Host) (port : Nat) : Prog (NetOp U) (Except String (List IpAddr)) :=
  match host with
  | .ipv4 address => pure (.ok [.v4 address])
  | .ipv6 address => pure (.ok [.v6 address])
  | .domain name => resolveComplete U name port

variable {U}

/-- A client that connects to the selected address and follows no redirect. -/
def pinnedClient (url : U.Url) : Prog (NetOp U) (Except String (IpAddr × Nat)) :=
  match U.host url, U.port url with
  | none, _ => pure (.error "normalized target has no host")
  | some _, none => pure (.error "normalized target has no effective port")
  | some host, some port =>
    hostAddresses U host port >>= fun addresses =>
      match addresses >>= validateAnswers with
      | .error error => pure (.error error)
      | .ok selected =>
        match U.hostStr url with
        | none => pure (.error "normalized target has no hostname")
        | some name =>
          Prog.perform (.buildClient name selected port) >>= fun built =>
            match built with
            | .error error => pure (.error ("pinned client init: " ++ error))
            | .ok () => pure (.ok (selected, port))

/-- What the loop carries from hop to hop. -/
structure Hop (U : UrlLibrary) where
  url : U.Url
  method : Method
  payload : Octets
  sendContentType : Bool
  seen : List String

def Hop.request (hop : Hop U) (address : IpAddr) (port : Nat) : HopRequest U where
  method := hop.method
  url := hop.url
  contentType := hop.sendContentType
  body := hop.payload
  address := address
  port := port

def joinedUrl (url : U.Url) (location : String) : Except String U.Url :=
  match U.join url location with
  | .ok candidate => .ok candidate
  | .error error => .error ("invalid redirect Location: " ++ error)

def redirectTarget (candidate : U.Url) (allowlist : List String) : Except String String :=
  match validateTarget U (U.print candidate) allowlist with
  | .ok canonical => .ok canonical
  | .error error => .error ("redirect target rejected: " ++ error)

def redirectUrl (canonical : String) : Except String U.Url :=
  match U.parse canonical with
  | .ok next => .ok next
  | .error error => .error ("invalid normalized redirect: " ++ error)

/-- The hop a redirect leads to. -/
def Hop.next (hop : Hop U) (allowlist : List String) (response : HopResponse) :
    Except String (Hop U) := do
  let value ← response.location.elim (.error "redirect response is missing Location") .ok
  let location ← (headerStr value).elim (.error "redirect Location is not valid text") .ok
  let candidate ← joinedUrl hop.url location
  let canonical ← redirectTarget candidate allowlist
  let next ← redirectUrl canonical
  refuse (U.scheme hop.url == "https" && U.scheme next == "http")
    "HTTPS-to-HTTP redirect downgrade is forbidden"
  refuse (hop.seen.contains (U.print next)) "redirect loop detected"
  let seen := U.print next :: hop.seen
  return if response.status = 303 then ⟨next, .get, [], false, seen⟩
    else { hop with url := next, seen }

/-- Read the body until it ends, fails or grows too large. -/
def readChunks (status : UInt16) (failure : Option String) : Nat → List Octets →
    Except String UInt16
  | _, [] => failure.elim (.ok status) fun error => .error ("response read failed: " ++ error)
  | responseBytes, chunk :: rest =>
    let responseBytes := responseBytes + chunk.length
    if callbackResponseBytes < responseBytes then
      .error ("response body exceeds " ++ toString callbackResponseBytes ++ " bytes")
    else readChunks status failure responseBytes rest

/-- Send the request of a hop, and go on with the response. -/
def hopThen (hop : Hop U) (rest : HopResponse → Prog (NetOp U) (Except String UInt16)) :
    Prog (NetOp U) (Except String UInt16) :=
  pinnedClient hop.url >>= fun pinned =>
    match pinned with
    | .error error => pure (.error error)
    | .ok (address, port) =>
      Prog.perform (.send (hop.request address port)) >>= fun answer =>
        match answer with
        | .error error => pure (.error ("request failed: " ++ error))
        | .ok response => rest response

/-- The loop, by the number of redirects it may still follow. -/
def sendBounded (allowlist : List String) :
    Nat → Hop U → Prog (NetOp U) (Except String UInt16)
  | 0, hop => hopThen hop fun response =>
      if isManualRedirect response.status then
        pure (.error ("redirect count exceeds " ++ toString maximumRedirectHops ++ " hops"))
      else pure (readChunks response.status response.failure 0 response.chunks)
  | hopsLeft + 1, hop => hopThen hop fun response =>
      if isManualRedirect response.status then
        match hop.next allowlist response with
        | .error error => pure (.error error)
        | .ok next => sendBounded allowlist hopsLeft next
      else pure (readChunks response.status response.failure 0 response.chunks)

variable (U) in
def targetUrl (url : String) (allowlist : List String) : Except String U.Url := do
  let canonical ← validateTarget U url allowlist
  match U.parse canonical with
  | .ok url => .ok url
  | .error error => .error ("invalid callback URL: " ++ error)

variable (U) in
/-- The whole operation may be cut off after any of its steps. -/
def postJson (url : String) (payload : Octets) (allowlist : List String) :
    Prog (NetOp U) (Except String UInt16) :=
  if callbackRequestBytes < payload.length then
    pure (.error ("request body exceeds " ++ toString callbackRequestBytes ++ " bytes"))
  else
    match targetUrl U url allowlist with
    | .error error => pure (.error error)
    | .ok url => sendBounded allowlist maximumRedirectHops ⟨url, .post, payload, true, [U.print url]⟩

abbrev Sent (U : UrlLibrary) := HopRequest U × Except String HopResponse

def sent? : Call (NetOp U) → Option (Sent U)
  | ⟨.send request, answer⟩ => some (request, answer)
  | _ => none

def sends (calls : List (Call (NetOp U))) : List (Sent U) := calls.filterMap sent?

/-- The calls after the last request. -/
def sinceSend (calls : List (Call (NetOp U))) : List (Call (NetOp U)) :=
  calls.rtakeWhile fun call => (sent? call).isNone

def Sent.is303 (s : Sent U) : Prop := ∃ response, s.2 = .ok response ∧ response.status = 303

/-- The address was chosen among these answers. -/
structure Selected (answers : List IpAddr) (address : IpAddr) : Prop where
  some : 1 ≤ answers.length
  bounded : answers.length ≤ maximumAnswers
  isPublic : ∀ answer ∈ answers, isPublicIp answer = true
  mem : address ∈ answers
  least : ∀ answer ∈ answers, address.atMost answer = true

/-- The complete answer set of a URL's own host, and the calls that gave it: a
literal address needs none, a name is looked up once, with the URL's port. -/
inductive Resolves (url : U.Url) (port : Nat) : List (Call (NetOp U)) → List IpAddr → Prop
  | ipv4 {address : Ipv4Addr} (host : U.host url = some (.ipv4 address)) :
      Resolves url port [] [.v4 address]
  | ipv6 {address : Ipv6Addr} (host : U.host url = some (.ipv6 address)) :
      Resolves url port [] [.v6 address]
  | domain {name : String} {answers : List IpAddr} (host : U.host url = some (.domain name)) :
      Resolves url port [⟨.lookupHost name port, some (.ok answers)⟩] answers

/-- The calls end with the client that was built for the URL's host, pinned to
the address selected among that host's answers. -/
def Pins (url : U.Url) (address : IpAddr) (port : Nat) (calls : List (Call (NetOp U))) : Prop :=
  ∃ lookups answers name, calls = lookups ++ [⟨.buildClient name address port, .ok ()⟩] ∧
    U.hostStr url = some name ∧ Resolves url port lookups answers ∧ Selected answers address

/-- The method, body and content type a request has, after these requests. -/
def Shaped (payload : Octets) (before : List (Sent U)) (method : Method) (body : Octets)
    (contentType : Bool) : Prop :=
  ((∀ s ∈ before, ¬s.is303) → method = .post ∧ body = payload ∧ contentType = true) ∧
    ((∃ s ∈ before, s.is303) → method = .get ∧ body = [] ∧ contentType = false)

/-- What is promised of a request, given the calls made before it. -/
structure PermittedSend (allowlist : List String) (payload : Octets)
    (before : List (Call (NetOp U))) (request : HopRequest U) : Prop where
  accepted : ∃ canonical, validateTarget U (U.print request.url) allowlist = .ok canonical
  port : U.port request.url = some request.port
  pinned : Pins request.url request.address request.port (sinceSend before)
  count : (sends before).length < maximumRedirectHops + 1
  fresh : ∀ s ∈ sends before, U.print s.1.url ≠ U.print request.url
  noDowngrade : ∀ s ∈ sends before, U.scheme s.1.url = "https" → U.scheme request.url ≠ "http"
  shaped : Shaped payload (sends before) request.method request.body request.contentType

/-- Calls per hop: a lookup, a client and a request. -/
def hopCalls : Nat := 3

def deliveryRule (allowlist : List String) (payload : Octets) (before : List (Call (NetOp U))) :
    ∀ {δ : Type}, NetOp U δ → Prop
  | _, .send request => PermittedSend allowlist payload before request ∧
      before.length < hopCalls * (maximumRedirectHops + 1)
  | _, _ => before.length < hopCalls * (maximumRedirectHops + 1)

@[simp] theorem sends_append (before after : List (Call (NetOp U))) :
    sends (before ++ after) = sends before ++ sends after := List.filterMap_append

@[simp] theorem sends_send (request : HopRequest U) (answer : Except String HopResponse) :
    sends [⟨.send request, answer⟩] = [(request, answer)] := rfl

theorem sinceSend_send (before : List (Call (NetOp U))) (request : HopRequest U)
    (answer : Except String HopResponse) : sinceSend (before ++ [⟨.send request, answer⟩]) = [] := by
  simp [sinceSend, sent?]

theorem sinceSend_append {before after : List (Call (NetOp U))} (hb : sinceSend before = [])
    (ha : sends after = []) : sinceSend (before ++ after) = after := by
  have hnone : ∀ call ∈ after.reverse, (sent? call).isNone = true := fun call hc =>
    Option.isNone_iff_eq_none.mpr (List.filterMap_eq_nil_iff.mp ha call (List.mem_reverse.mp hc))
  rw [sinceSend, List.rtakeWhile] at hb
  rw [sinceSend, List.rtakeWhile, List.reverse_append, List.takeWhile_append_of_pos hnone,
    List.reverse_append, List.reverse_reverse, hb, List.nil_append]

theorem validateAnswers_ok {addresses : List IpAddr} {address : IpAddr}
    (h : validateAnswers addresses = .ok address) : Selected addresses address := by
  unfold validateAnswers at h
  obtain ⟨_, hempty, h⟩ := bind_ok h
  obtain ⟨_, hmany, h⟩ := bind_ok h
  obtain ⟨_, hpublic, h⟩ := bind_ok h
  have hempty := refuse_ok hempty
  have hmany := refuse_ok hmany
  have hpublic := refuse_ok hpublic
  cases hs : addresses.dedup.mergeSort IpAddr.atMost with
  | nil =>
    rw [hs] at h
    exact absurd h (by simp)
  | cons first rest =>
    rw [hs] at h
    obtain rfl := Except.ok.inj h
    obtain ⟨hmem, hleast⟩ := atMost_of_mergeSort hs
    refine ⟨?_, by simpa using hmany, ?_, List.mem_dedup.mp hmem, ?_⟩
    · exact List.length_pos_iff.mpr fun he => by simp [he] at hempty
    · intro answer ha
      simpa using List.any_eq_false.mp hpublic answer ha
    · exact fun answer ha => hleast answer (List.mem_dedup.mpr ha)

theorem resolved_ok {answer : Option (Except String (List IpAddr))} {addresses : List IpAddr}
    (h : resolved answer = .ok addresses) : answer = some (.ok addresses) := by
  unfold resolved at h
  split at h
  · exact absurd h (by simp)
  · exact absurd h (by simp)
  · split_ifs at h
    rw [Except.ok.inj h]

/-- What gathering the addresses did: nothing, or one lookup. -/
theorem hostAddresses_trace {host : Host} {port : Nat} {result : Except String (List IpAddr)}
    {calls : List (Call (NetOp U))}
    (ht : Prog.Trace (hostAddresses U host port) calls (.pure result)) :
    (calls = [] ∧ ((∃ address, host = .ipv4 address ∧ result = .ok [.v4 address]) ∨
      ∃ address, host = .ipv6 address ∧ result = .ok [.v6 address])) ∨
    ∃ name answer, host = .domain name ∧ calls = [⟨.lookupHost name port, answer⟩] ∧
      result = resolved answer := by
  cases host with
  | ipv4 address =>
    obtain ⟨rfl, hp⟩ := Prog.trace_pure.mp ht
    exact Or.inl ⟨rfl, Or.inl ⟨address, rfl, Prog.pure.inj hp⟩⟩
  | ipv6 address =>
    obtain ⟨rfl, hp⟩ := Prog.trace_pure.mp ht
    exact Or.inl ⟨rfl, Or.inr ⟨address, rfl, Prog.pure.inj hp⟩⟩
  | domain name =>
    obtain ⟨answer, ds, rfl, hnext⟩ := Prog.trace_call.mp ht
    obtain ⟨rfl, hp⟩ := Prog.trace_pure.mp hnext
    exact Or.inr ⟨name, answer, rfl, rfl, Prog.pure.inj hp⟩

theorem hostAddresses_obeys {allowlist : List String} {payload : Octets}
    {before : List (Call (NetOp U))} (host : Host) (port : Nat)
    (hb : before.length < hopCalls * (maximumRedirectHops + 1)) :
    Prog.Obeys (deliveryRule allowlist payload) before (hostAddresses U host port) := by
  cases host with
  | ipv4 address => trivial
  | ipv6 address => trivial
  | domain name => exact ⟨hb, fun _ => trivial⟩

theorem pinnedClient_obeys {allowlist : List String} {payload : Octets}
    {before : List (Call (NetOp U))} (url : U.Url)
    (hb : before.length + 1 < hopCalls * (maximumRedirectHops + 1)) :
    Prog.Obeys (deliveryRule allowlist payload) before (pinnedClient url) := by
  unfold pinnedClient
  cases U.host url with
  | none => trivial
  | some host =>
    cases U.port url with
    | none => trivial
    | some port =>
      refine (hostAddresses_obeys host port (by omega)).bind ?_
      intro addresses calls ht
      have hcalls : calls.length ≤ 1 := by
        rcases hostAddresses_trace ht with ⟨rfl, _⟩ | ⟨_, _, _, rfl, _⟩ <;> simp
      cases addresses >>= validateAnswers with
      | error error => trivial
      | ok selected =>
        cases U.hostStr url with
        | none => trivial
        | some name =>
          refine ⟨?_, ?_⟩
          · change (before ++ calls).length < _
            rw [List.length_append]
            omega
          · intro built
            cases built <;> trivial

theorem Resolves.quiet {url : U.Url} {port : Nat} {lookups : List (Call (NetOp U))}
    {answers : List IpAddr} (h : Resolves url port lookups answers) :
    lookups.length ≤ 1 ∧ sends lookups = [] := by
  cases h with
  | ipv4 host => exact ⟨Nat.zero_le _, rfl⟩
  | ipv6 host => exact ⟨Nat.zero_le _, rfl⟩
  | domain host => exact ⟨Nat.le_refl _, rfl⟩

theorem Pins.quiet {url : U.Url} {address : IpAddr} {port : Nat} {calls : List (Call (NetOp U))}
    (h : Pins url address port calls) : calls.length ≤ 2 ∧ sends calls = [] := by
  obtain ⟨lookups, answers, name, rfl, -, hresolves, -⟩ := h
  obtain ⟨hlength, hsends⟩ := hresolves.quiet
  refine ⟨?_, ?_⟩
  · rw [List.length_append, List.length_singleton]
    omega
  · rw [sends_append, hsends, List.nil_append]
    rfl

/-- Addresses that were gathered are the answers of the host. -/
theorem hostAddresses_resolves {url : U.Url} {host : Host} {port : Nat} {answers : List IpAddr}
    {calls : List (Call (NetOp U))} (hhost : U.host url = some host)
    (ht : Prog.Trace (hostAddresses U host port) calls (.pure (.ok answers))) :
    Resolves url port calls answers := by
  rcases hostAddresses_trace ht with
    ⟨rfl, ⟨literal, rfl, hr⟩ | ⟨literal, rfl, hr⟩⟩ | ⟨domain, answer, rfl, rfl, hr⟩
  · obtain rfl := Except.ok.inj hr
    exact .ipv4 hhost
  · obtain rfl := Except.ok.inj hr
    exact .ipv6 hhost
  · obtain rfl := resolved_ok hr.symm
    exact .domain hhost

/-- A pinned client connects to the address selected from the hop's own answers. -/
theorem pinnedClient_trace {url : U.Url} {calls : List (Call (NetOp U))} {address : IpAddr}
    {port : Nat} (ht : Prog.Trace (pinnedClient url) calls (.pure (.ok (address, port)))) :
    U.port url = some port ∧ Pins url address port calls := by
  unfold pinnedClient at ht
  cases hhost : U.host url with
  | none => simp [hhost] at ht
  | some host =>
    cases hport : U.port url with
    | none => simp [hhost, hport] at ht
    | some port' =>
      simp only [hhost, hport] at ht
      obtain ⟨addresses, first, second, rfl, hfirst, hsecond⟩ := Prog.trace_bind.mp ht
      cases hvalid : addresses >>= validateAnswers with
      | error error => simp [hvalid] at hsecond
      | ok selected =>
        cases hname : U.hostStr url with
        | none => simp [hvalid, hname] at hsecond
        | some name =>
          simp only [hvalid, hname, Prog.perform_bind] at hsecond
          obtain ⟨built, last, rfl, hlast⟩ := Prog.trace_call.mp hsecond
          cases built with
          | error error => simp at hlast
          | ok _ =>
            obtain ⟨rfl, hp⟩ := Prog.trace_pure.mp hlast
            obtain ⟨rfl, rfl⟩ := Prod.mk.inj (Except.ok.inj (Prog.pure.inj hp))
            obtain ⟨answers, rfl, hsel⟩ := bind_ok hvalid
            exact ⟨rfl, first, answers, name, rfl, hname, hostAddresses_resolves hhost hfirst,
              validateAnswers_ok hsel⟩

/-- A name that resolves to permitted addresses alone is pinned. -/
theorem pinnedClient_named {url : U.Url} {host name : String} {port : Nat} {selected : IpAddr}
    {answer : Option (Except String (List IpAddr))} (hhost : U.host url = some (.domain host))
    (hport : U.port url = some port) (hname : U.hostStr url = some name)
    (hselected : resolved answer >>= validateAnswers = .ok selected) :
    Prog.Trace (pinnedClient url)
      [⟨.lookupHost host port, answer⟩, ⟨.buildClient name selected port, .ok ()⟩]
      (.pure (.ok (selected, port))) := by
  unfold pinnedClient
  simp only [hhost, hport]
  refine .cons ?_
  change Prog.Trace (match resolved _ >>= validateAnswers with | .error e => _ | .ok a => _) _ _
  rw [hselected]
  simp only [hname]
  exact .cons (.nil _)

end ClavenarLite
