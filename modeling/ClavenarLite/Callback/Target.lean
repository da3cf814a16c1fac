import ClavenarLite.Lib.Fallible
import ClavenarLite.Lib.IpAddr
import ClavenarLite.Lib.Text

/-! Which URLs a callback may be sent to: normalisation, the allowlist, and the
addresses that count as public. -/

namespace ClavenarLite

open Bytes Fallible Net Text

inductive Host
  | domain (name : String)
  | ipv4 (address : Ipv4Addr)
  | ipv6 (address : Ipv6Addr)

/-- The URL library: its values, and what it reads from them. -/
structure UrlLibrary where
  Url : Type
  parse : String → Except String Url
  print : Url → String
  scheme : Url → String
  username : Url → String
  password : Url → Option String
  fragment : Url → Option String
  query : Url → Option String
  host : Url → Option Host
  hostStr : Url → Option String
  /-- The explicit port, or the scheme's own. -/
  port : Url → Option Nat
  path : Url → String
  setHost : Url → String → Option Url
  setPath : Url → String → Url
  join : Url → String → Except String Url
  /-- The host a text stands for in an http or https URL. -/
  parseHost : String → Option Host

variable (U : UrlLibrary)

def isPublicIpv4 (address : Ipv4Addr) : Bool :=
  let ⟨a, b, c, _⟩ := address
  !(a == 0 || a == 10 || a == 127 || (a == 100 && 64 ≤ b && b ≤ 127) || (a == 169 && b == 254) ||
    (a == 172 && 16 ≤ b && b ≤ 31) || (a == 192 && b == 0 && c == 0) ||
    (a == 192 && b == 0 && c == 2) || (a == 192 && b == 88 && c == 99) || (a == 192 && b == 168) ||
    (a == 198 && (b == 18 || b == 19)) || (a == 198 && b == 51 && c == 100) ||
    (a == 203 && b == 0 && c == 113) || 224 ≤ a)

def isPublicIpv6 (address : Ipv6Addr) : Bool :=
  match address.toIpv4Mapped with
  | some mapped => isPublicIpv4 mapped
  | none =>
    let first := address.s0
    let ipv4Compatible := address.segments.take 6 == [0, 0, 0, 0, 0, 0]
    let globalUnicast := first &&& 0xe000 == 0x2000
    let documentation := first == 0x2001 && address.s1 == 0x0db8
    let benchmarking := first == 0x2001 && address.s1 == 0x0002
    let teredo := first == 0x2001 && address.s1 == 0
    let orchid := first == 0x2001 && address.s1 &&& 0xffe0 == 0x0020
    globalUnicast && !address.isUnspecified && !address.isLoopback && !address.isMulticast &&
      !ipv4Compatible && !documentation && !benchmarking && !teredo && !orchid

def isPublicIp : IpAddr → Bool
  | .v4 address => isPublicIpv4 address
  | .v6 address => isPublicIpv6 address

def isHexDigit (b : UInt8) : Bool :=
  (48 ≤ b && b ≤ 57) || (65 ≤ b && b ≤ 70) || (97 ≤ b && b ≤ 102)

/-- Every percent sign starts an escape of two digits. -/
def escapesWhole : Octets → Bool
  | [] => true
  | 37 :: rest =>
    match rest with
    | high :: low :: rest => isHexDigit high && isHexDigit low && escapesWhole rest
    | _ => false
  | _ :: rest => escapesWhole rest

def validatePercentEncoding (raw : String) : Except String Unit :=
  refuse (!escapesWhole (utf8 raw)) "invalid percent encoding"

def normalizeHost : Host → Except String String
  | .domain name =>
    let normalized := toAsciiLowercase (trimEnd '.' name)
    if normalized.isEmpty || !normalized.toList.contains '.' || normalized == "localhost" ||
        endsWith ".localhost" normalized || endsWith ".local" normalized ||
        endsWith ".internal" normalized || endsWith ".home.arpa" normalized then
      .error "local-use or single-label host is forbidden"
    else .ok normalized
  | .ipv4 address =>
    if isPublicIpv4 address then .ok address.text
    else .error "non-public IPv4 target is forbidden"
  | .ipv6 address =>
    if isPublicIpv6 address then .ok address.text
    else .error "non-public IPv6 target is forbidden"

def normalizePath (path : String) : String := if path = "/" then "/" else trimEnd '/' path

def pathMatches (allowed requested : String) : Bool :=
  allowed == "/" || requested == allowed ||
    (stripPrefix allowed requested).any fun rest => (stripPrefix "/" rest).isSome

structure NormalizedTarget where
  scheme : String
  host : String
  port : Nat
  path : String
  canonical : String

def parsedUrl (raw : String) : Except String U.Url :=
  match U.parse raw with
  | .ok url => .ok url
  | .error error => .error ("invalid URL: " ++ error)

def normalize (raw : String) (allowlistEntry : Bool) : Except String NormalizedTarget := do
  validatePercentEncoding raw
  let url ← parsedUrl U raw
  let scheme := toAsciiLowercase (U.scheme url)
  refuse (scheme != "http" && scheme != "https") "only http and https schemes are allowed"
  refuse (U.username url != "" || (U.password url).isSome) "URL credentials are forbidden"
  refuse (U.fragment url).isSome "URL fragments are forbidden"
  refuse (allowlistEntry && (U.query url).isSome) "allowlist entries cannot contain a query"
  let urlHost ← (U.host url).elim (.error "URL host is required") .ok
  let host ← normalizeHost urlHost
  let port ← (U.port url).elim (.error "URL effective port is required") .ok
  let path := normalizePath (U.path url)
  let url ← (U.setHost url host).elim (.error "normalized URL host is invalid") .ok
  let url := if allowlistEntry then U.setPath url path else url
  return ⟨scheme, host, port, path, U.print url⟩

def parseAllowlist (entries : List String) : Except String (List NormalizedTarget) :=
  entries.mapM fun entry => normalize U entry true

def normalizeAllowlistStrings (entries : List String) : Except String (List String) := do
  let rules ← parseAllowlist U entries
  return rules.map NormalizedTarget.canonical

/-- The rule covers the target. -/
def NormalizedTarget.covers (allowed normalized : NormalizedTarget) : Bool :=
  allowed.scheme == normalized.scheme && allowed.host == normalized.host &&
    allowed.port == normalized.port && pathMatches allowed.path normalized.path

def validateTarget (raw : String) (entries : List String) : Except String String := do
  let allowlist ← parseAllowlist U entries
  refuse allowlist.isEmpty "empty allowlist denies all targets"
  let normalized ← normalize U raw false
  refuse (!allowlist.any fun allowed => allowed.covers normalized)
    "normalized target is outside the configured allowlist"
  return normalized.canonical

def beforeColon (s : String) : String := String.ofList (s.toList.takeWhile (· != ':'))

/-- Two URLs that differ in their host only. -/
structure SameBesidesHost (u v : U.Url) : Prop where
  scheme : U.scheme u = U.scheme v
  username : U.username u = U.username v
  password : U.password u = U.password v
  fragment : U.fragment u = U.fragment v
  query : U.query u = U.query v
  port : U.port u = U.port v
  path : U.path u = U.path v

def isSpecial (url : U.Url) : Prop := U.scheme url = "http" ∨ U.scheme url = "https"

/-- What the code relies on of the URL library: a printed URL reads back as
itself, the host setter cuts an unbracketed text at its first colon, and a
domain is already in its normal form. -/
structure UrlLaws : Prop where
  parse_print : ∀ url, U.parse (U.print url) = .ok url
  scheme_lower : ∀ url, toAsciiLowercase (U.scheme url) = U.scheme url
  host_parsed : ∀ url host, isSpecial U url → U.host url = some host →
    ∃ s, U.parseHost s = some host
  setHost_host : ∀ url s url', isSpecial U url → U.setHost url s = some url' →
    s.toList.head? ≠ some '[' →
    (∃ host, U.parseHost (beforeColon s) = some host ∧ U.host url' = some host) ∧
      SameBesidesHost U url' url
  setHost_some : ∀ url s host, isSpecial U url → s.toList.head? ≠ some '[' →
    U.parseHost (beforeColon s) = some host → (U.setHost url s).isSome
  setPath_host : ∀ url p, U.host (U.setPath url p) = U.host url
  domain_lower : ∀ s name, U.parseHost s = some (.domain name) →
    toAsciiLowercase (trimEnd '.' name) = trimEnd '.' name ∧ ':' ∉ name.toList ∧ '[' ∉ name.toList
  domain_again : ∀ s name host, U.parseHost s = some (.domain name) →
    U.parseHost (trimEnd '.' name) = some host →
    host = .domain (trimEnd '.' name) ∨ ∃ address, host = .ipv4 address
  ipv4_text : ∀ address, U.parseHost address.text = some (.ipv4 address)
  empty_host : U.parseHost "" = none
  short_hex : ∀ s host, s.length ≤ 4 → (∀ c ∈ s.toList, c ∈ hexAlphabet) →
    U.parseHost s = some host →
    host = .domain s ∨ ∃ address, host = .ipv4 address ∧ address.a = 0
  escapes_parsed : ∀ raw url, escapesWhole (utf8 raw) = true → U.parse raw = .ok url →
    escapesWhole (utf8 (U.print url)) = true
  escapes_setHost : ∀ url s url', escapesWhole (utf8 (U.print url)) = true →
    U.setHost url s = some url' → escapesWhole (utf8 (U.print url')) = true

/-- The steps of a normalisation that succeeds. -/
structure Normalizes (raw : String) (entry : Bool) (url : U.Url) (host : Host) (url' : U.Url)
    (target : NormalizedTarget) : Prop where
  escapes : escapesWhole (utf8 raw) = true
  parsed : U.parse raw = .ok url
  scheme : target.scheme = toAsciiLowercase (U.scheme url)
  allowed : target.scheme = "http" ∨ target.scheme = "https"
  noUser : U.username url = "" ∧ U.password url = none
  noFragment : U.fragment url = none
  noQuery : entry = true → U.query url = none
  urlHost : U.host url = some host
  host : normalizeHost host = .ok target.host
  port : U.port url = some target.port
  path : target.path = normalizePath (U.path url)
  moved : U.setHost url target.host = some url'
  canonical : target.canonical = U.print (if entry then U.setPath url' target.path else url')

variable {U}

theorem normalize_ok {raw : String} {entry : Bool} {target : NormalizedTarget}
    (h : normalize U raw entry = .ok target) :
    ∃ url host url', Normalizes U raw entry url host url' target := by
  unfold normalize at h
  obtain ⟨_, hescapes, h⟩ := bind_ok h
  obtain ⟨url, hparse, h⟩ := bind_ok h
  obtain ⟨_, hscheme, h⟩ := bind_ok h
  obtain ⟨_, huser, h⟩ := bind_ok h
  obtain ⟨_, hfragment, h⟩ := bind_ok h
  obtain ⟨_, hquery, h⟩ := bind_ok h
  obtain ⟨urlHost, hurlHost, h⟩ := bind_ok h
  obtain ⟨host, hhost, h⟩ := bind_ok h
  obtain ⟨port, hport, h⟩ := bind_ok h
  obtain ⟨url', hmoved, h⟩ := bind_ok h
  obtain rfl := Except.ok.inj h
  refine ⟨url, urlHost, url', ?_⟩
  have hparsed : U.parse raw = .ok url := by
    unfold parsedUrl at hparse
    cases hp : U.parse raw with
    | error e =>
      rw [hp] at hparse
      exact absurd hparse (by simp)
    | ok u =>
      rw [hp] at hparse
      exact hparse
  have hs := refuse_ok hscheme
  have hu := refuse_ok huser
  have hf := refuse_ok hfragment
  have hq := refuse_ok hquery
  simp only [Bool.and_eq_false_iff, bne_eq_false_iff_eq] at hs
  simp only [Bool.or_eq_false_iff, bne_eq_false_iff_eq, Option.isSome_eq_false_iff,
    Option.isNone_iff_eq_none] at hu
  simp only [Option.isSome_eq_false_iff, Option.isNone_iff_eq_none] at hf
  simp only [Bool.and_eq_false_iff, Option.isSome_eq_false_iff, Option.isNone_iff_eq_none] at hq
  exact {
    escapes := by simpa using refuse_ok hescapes
    parsed := hparsed
    scheme := rfl
    allowed := hs
    noUser := hu
    noFragment := hf
    noQuery := fun he => hq.resolve_left (by simp [he])
    urlHost := elim_ok hurlHost
    host := hhost
    port := elim_ok hport
    path := rfl
    moved := elim_ok hmoved
    canonical := rfl }

variable (U) in
/-- The host setter gives the text's own host, and that host normalises to the text. -/
def Settled (text : String) : Prop :=
  text.toList.head? ≠ some '[' ∧
    ∃ host, U.parseHost (beforeColon text) = some host ∧ normalizeHost host = .ok text

theorem beforeColon_eq {s : String} (h : ':' ∉ s.toList) : beforeColon s = s := by
  have hall : s.toList.takeWhile (· != ':') = s.toList :=
    List.takeWhile_eq_self_iff.mpr fun c hc => by
      simpa using fun he : c = ':' => h (he ▸ hc)
  rw [beforeColon, hall, String.ofList_toList]

theorem head_ne_of_notMem {s : String} {c : Char} (h : c ∉ s.toList) : s.toList.head? ≠ some c :=
  fun hh => h (List.mem_of_mem_head? hh)

theorem ipv4_notMem {address : Ipv4Addr} {c : Char} (hd : c.isDigit = false) (hc : c ≠ '.') :
    c ∉ address.text.toList := by
  intro hm
  rcases address.text_chars c hm with h | h
  · exact absurd h (by simp [hd])
  · exact hc h

theorem settled_ipv4 (laws : UrlLaws U) {address : Ipv4Addr} (h : isPublicIpv4 address = true) :
    Settled U address.text := by
  refine ⟨head_ne_of_notMem (ipv4_notMem (by decide) (by decide)), .ipv4 address, ?_, if_pos h⟩
  rw [beforeColon_eq (ipv4_notMem (by decide) (by decide))]
  exact laws.ipv4_text address

theorem normalizeHost_ipv4 {address : Ipv4Addr} {text : String}
    (h : normalizeHost (.ipv4 address) = .ok text) :
    isPublicIpv4 address = true ∧ text = address.text := by
  unfold normalizeHost at h
  by_cases hp : isPublicIpv4 address = true
  · exact ⟨hp, (Except.ok.inj ((if_pos hp).symm.trans h)).symm⟩
  · exact absurd ((if_neg hp).symm.trans h) (by simp)

theorem normalizeHost_domain {name text : String} (h : normalizeHost (.domain name) = .ok text) :
    text = toAsciiLowercase (trimEnd '.' name) ∧ '.' ∈ text.toList := by
  unfold normalizeHost at h
  by_cases hbad : (toAsciiLowercase (trimEnd '.' name)).isEmpty ||
      !(toAsciiLowercase (trimEnd '.' name)).toList.contains '.' ||
      toAsciiLowercase (trimEnd '.' name) == "localhost" ||
      endsWith ".localhost" (toAsciiLowercase (trimEnd '.' name)) ||
      endsWith ".local" (toAsciiLowercase (trimEnd '.' name)) ||
      endsWith ".internal" (toAsciiLowercase (trimEnd '.' name)) ||
      endsWith ".home.arpa" (toAsciiLowercase (trimEnd '.' name))
  · exact absurd ((if_pos hbad).symm.trans h) (by simp)
  · obtain rfl := Except.ok.inj ((if_neg hbad).symm.trans h)
    simp only [Bool.or_eq_true, not_or] at hbad
    refine ⟨rfl, ?_⟩
    have hdot := hbad.1.1.1.1.1.2
    simpa using hdot

/-- The text of a public version 6 address before its first colon: nothing, or
its first segment. -/
theorem ipv6_text_cut {address : Ipv6Addr} (h : isPublicIpv6 address = true) :
    ∃ start more, address.text = String.ofList (start ++ ':' :: more) ∧ start.length ≤ 4 ∧
      ∀ c ∈ start, c ∈ hexAlphabet := by
  cases hm : address.toIpv4Mapped with
  | some v4 =>
    refine ⟨[], ":ffff:".toList ++ v4.text.toList, ?_, by decide, by simp⟩
    rw [Ipv6Addr.text, hm, ← String.toList_inj, String.toList_ofList, String.toList_append]
    rfl
  | none =>
    have hs : address.s0 ≠ 0 := by
      intro h0
      unfold isPublicIpv6 at h
      rw [hm] at h
      simp [h0] at h
    obtain ⟨more, htext⟩ := Ipv6Addr.text_start hm hs
    exact ⟨hexDigits address.s0, more, htext, hexDigits_length _, toDigits_hex _⟩

theorem beforeColon_cut {start more : List Char} (h : ∀ c ∈ start, c ∈ hexAlphabet) :
    beforeColon (String.ofList (start ++ ':' :: more)) = String.ofList start := by
  have hne : ∀ x ∈ hexAlphabet, (x != ':') = true :=
    List.all_eq_true.mp (by decide : hexAlphabet.all (· != ':') = true)
  rw [beforeColon, String.toList_ofList,
    List.takeWhile_append_of_pos fun c hc => hne c (h c hc)]
  simp

theorem head_cut {start more : List Char} (h : ∀ c ∈ start, c ∈ hexAlphabet) :
    (String.ofList (start ++ ':' :: more)).toList.head? ≠ some '[' := by
  rw [String.toList_ofList]
  cases start with
  | nil => exact fun he => absurd (Option.some.inj he) (by decide)
  | cons c cs =>
    intro he
    obtain rfl := Option.some.inj he
    exact absurd (h '[' List.mem_cons_self) (by decide)

theorem normalizeHost_ipv6 {address : Ipv6Addr} {text : String}
    (h : normalizeHost (.ipv6 address) = .ok text) :
    isPublicIpv6 address = true ∧ text = address.text := by
  unfold normalizeHost at h
  by_cases hp : isPublicIpv6 address = true
  · exact ⟨hp, (Except.ok.inj ((if_pos hp).symm.trans h)).symm⟩
  · exact absurd ((if_neg hp).symm.trans h) (by simp)

/-- The host that is left of a version 6 address without its brackets is refused. -/
theorem ipv6_cut_refused (laws : UrlLaws U) {address : Ipv6Addr} (hp : isPublicIpv6 address = true)
    {host : Host} (hparse : U.parseHost (beforeColon address.text) = some host) {text : String} :
    normalizeHost host ≠ .ok text := by
  intro hnorm
  obtain ⟨start, more, htext, hlen, hhex⟩ := ipv6_text_cut hp
  rw [htext, beforeColon_cut hhex] at hparse
  rcases laws.short_hex (String.ofList start) _ (by simpa using hlen)
    (by simpa [String.toList_ofList] using hhex) hparse with rfl | ⟨v4, rfl, hzero⟩
  · -- one label without a dot is no domain
    obtain ⟨rfl, hdot⟩ := normalizeHost_domain hnorm
    have hno : ∀ c ∈ hexAlphabet, (c.toLower != '.') = true :=
      List.all_eq_true.mp (by decide : hexAlphabet.all (·.toLower != '.') = true)
    rw [toAsciiLowercase, String.toList_ofList, trimEnd, String.toList_ofList,
      String.toList_ofList] at hdot
    obtain ⟨c, hc, hlow⟩ := List.mem_map.mp hdot
    exact bne_iff_ne.mp (hno c (hhex c ((List.rdropWhile_prefix _ _).sublist.subset hc))) hlow
  · obtain ⟨hpublic, _⟩ := normalizeHost_ipv4 hnorm
    simp [isPublicIpv4, hzero] at hpublic

/-- An allowlist entry that survives a second normalisation has a settled host. -/
theorem settled_entry (laws : UrlLaws U) {url₀ : U.Url} {host₀ host₁ : Host} {text₀ text₁ : String}
    (hspecial : isSpecial U url₀) (hhost : U.host url₀ = some host₀)
    (h₀ : normalizeHost host₀ = .ok text₀) {url₁ : U.Url} (hmoved : U.setHost url₀ text₀ = some url₁)
    (hhost₁ : U.host url₁ = some host₁) (h₁ : normalizeHost host₁ = .ok text₁) :
    Settled U text₁ := by
  cases host₀ with
  | ipv4 address =>
    obtain ⟨hpublic, rfl⟩ := normalizeHost_ipv4 h₀
    obtain ⟨hhead, host, hparse, hnorm⟩ := settled_ipv4 laws hpublic
    obtain ⟨⟨host₂, hparse₂, hhost₂⟩, _⟩ := laws.setHost_host _ _ _ hspecial hmoved hhead
    obtain rfl := Option.some.inj (hparse.symm.trans hparse₂)
    obtain rfl := Option.some.inj (hhost₂.symm.trans hhost₁)
    obtain rfl := Except.ok.inj (hnorm.symm.trans h₁)
    exact ⟨hhead, host, hparse, hnorm⟩
  | ipv6 address =>
    obtain ⟨hp, rfl⟩ := normalizeHost_ipv6 h₀
    obtain ⟨start, more, htext, _, hhex⟩ := ipv6_text_cut hp
    have hhead : address.text.toList.head? ≠ some '[' := htext ▸ head_cut hhex
    obtain ⟨⟨host₂, hparse₂, hhost₂⟩, _⟩ := laws.setHost_host _ _ _ hspecial hmoved hhead
    obtain rfl := Option.some.inj (hhost₂.symm.trans hhost₁)
    exact absurd h₁ (ipv6_cut_refused laws hp hparse₂)
  | domain name =>
    obtain ⟨htext, _⟩ := normalizeHost_domain h₀
    obtain ⟨s, hs⟩ := laws.host_parsed _ _ hspecial hhost
    obtain ⟨hlower, hcolon, hbracket⟩ := laws.domain_lower s name hs
    rw [hlower] at htext
    subst htext
    have hsub : (trimEnd '.' name).toList.Sublist name.toList := by
      rw [trimEnd, String.toList_ofList]
      exact (List.rdropWhile_prefix _ _).sublist
    have hhead := head_ne_of_notMem fun hm => hbracket (hsub.subset hm)
    have hcut := beforeColon_eq fun hm => hcolon (hsub.subset hm)
    obtain ⟨⟨host₂, hparse₂, hhost₂⟩, _⟩ := laws.setHost_host _ _ _ hspecial hmoved hhead
    obtain rfl := Option.some.inj (hhost₂.symm.trans hhost₁)
    rw [hcut] at hparse₂
    rcases laws.domain_again s name _ hs hparse₂ with rfl | ⟨address, rfl⟩
    · obtain ⟨htext₁, _⟩ := normalizeHost_domain h₁
      have hagain : trimEnd '.' (trimEnd '.' name) = trimEnd '.' name := by
        simp only [trimEnd, String.toList_ofList, List.rdropWhile_idempotent]
      rw [hagain, hlower] at htext₁
      subst htext₁
      exact ⟨hhead, _, hcut.symm ▸ hparse₂, h₁⟩
    · obtain ⟨hpublic, rfl⟩ := normalizeHost_ipv4 h₁
      exact settled_ipv4 laws hpublic

/-- What an acceptance was decided on. -/
theorem validateTarget_ok {raw canonical : String} {entries : List String}
    (h : validateTarget U raw entries = .ok canonical) :
    ∃ rules normalized, parseAllowlist U entries = .ok rules ∧
      normalize U raw false = .ok normalized ∧ canonical = normalized.canonical ∧
      ∃ rule ∈ rules, rule.covers normalized = true := by
  unfold validateTarget at h
  obtain ⟨rules, hrules, h⟩ := bind_ok h
  obtain ⟨_, _, h⟩ := bind_ok h
  obtain ⟨normalized, hnormal, h⟩ := bind_ok h
  obtain ⟨_, hcovered, h⟩ := bind_ok h
  obtain rfl := Except.ok.inj h
  have hany := refuse_ok hcovered
  rw [Bool.not_eq_false', List.any_eq_true] at hany
  exact ⟨rules, normalized, hrules, hnormal, rfl, hany⟩

theorem Normalizes.special {raw : String} {entry : Bool} {url url' : U.Url} {host : Host}
    {target : NormalizedTarget} (laws : UrlLaws U) (h : Normalizes U raw entry url host url' target) :
    isSpecial U url := by
  have hs := h.scheme
  rw [laws.scheme_lower] at hs
  rcases h.allowed with ha | ha
  · exact Or.inl (hs.symm.trans ha)
  · exact Or.inr (hs.symm.trans ha)

/-- A rule of a normalised allowlist has a settled host. -/
theorem settled_rule (laws : UrlLaws U) {entries allowlist : List String}
    {rules : List NormalizedTarget} (ha : normalizeAllowlistStrings U entries = .ok allowlist)
    (hr : parseAllowlist U allowlist = .ok rules) {rule : NormalizedTarget} (hm : rule ∈ rules) :
    Settled U rule.host := by
  obtain ⟨first, hfirst, ha⟩ := bind_ok ha
  obtain rfl := Except.ok.inj ha
  obtain ⟨entry, hentry, hrule⟩ := mapM_mem hr rule hm
  obtain ⟨rule₀, hrule₀, rfl⟩ := List.mem_map.mp hentry
  obtain ⟨entry₀, _, hnormal₀⟩ := mapM_mem hfirst rule₀ hrule₀
  obtain ⟨url₀, host₀, url₁, n₀⟩ := normalize_ok hnormal₀
  obtain ⟨url₂, host₂, url₃, n₁⟩ := normalize_ok hrule
  -- the second reading starts from the very URL the first one printed
  have hread := n₁.parsed
  rw [n₀.canonical, laws.parse_print] at hread
  obtain rfl := Except.ok.inj hread
  have hhost := n₁.urlHost
  rw [if_pos rfl, laws.setPath_host] at hhost
  exact settled_entry laws (n₀.special laws) n₀.urlHost n₀.host n₀.moved hhost n₁.host

theorem normalize_of {raw : String} {entry : Bool} {url url' : U.Url} {host : Host}
    {target : NormalizedTarget} (h : Normalizes U raw entry url host url' target) :
    normalize U raw entry = .ok target := by
  have hscheme : (toAsciiLowercase (U.scheme url) != "http" &&
      toAsciiLowercase (U.scheme url) != "https") = false := by
    rw [← h.scheme]
    rcases h.allowed with ha | ha <;> simp [ha]
  have hquery : (entry && (U.query url).isSome) = false := by
    cases entry with
    | false => rfl
    | true => simp [h.noQuery rfl]
  unfold normalize validatePercentEncoding parsedUrl
  simp only [h.escapes, h.parsed, hscheme, h.noUser.1, h.noUser.2, h.noFragment, hquery, h.urlHost,
    h.host, h.port, h.moved, ok_bind, refuse_false, Bool.not_true, Option.elim_some,
    Option.isSome_none, bne_self_eq_false, Bool.or_self]
  obtain ⟨scheme, hostText, port, path, canonical⟩ := target
  have hs := h.scheme
  have hp := h.path
  have hc := h.canonical
  simp only at hs hp hc
  subst hs hp hc
  rfl

/-- What was accepted under a normalised allowlist is accepted as it was printed. -/
theorem validateTarget_again (laws : UrlLaws U) {entries allowlist : List String}
    (ha : normalizeAllowlistStrings U entries = .ok allowlist) {raw canonical : String}
    (h : validateTarget U raw allowlist = .ok canonical) :
    ∃ again, validateTarget U canonical allowlist = .ok again := by
  obtain ⟨rules, normalized, hrules, hnormal, rfl, rule, hrule, hcovers⟩ := validateTarget_ok h
  obtain ⟨url, host, url', n⟩ := normalize_ok hnormal
  have hcov := hcovers
  simp only [NormalizedTarget.covers, Bool.and_eq_true, beq_iff_eq] at hcov
  obtain ⟨⟨⟨_, hsamehost⟩, _⟩, _⟩ := hcov
  obtain ⟨hhead, host₁, hparse₁, hnorm₁⟩ := settled_rule laws ha hrules hrule
  rw [hsamehost] at hhead hparse₁ hnorm₁
  have hspecial := n.special laws
  obtain ⟨⟨host₂, hparse₂, hhost₂⟩, hsame⟩ := laws.setHost_host _ _ _ hspecial n.moved hhead
  obtain rfl := Option.some.inj (hparse₁.symm.trans hparse₂)
  have hspecial' : isSpecial U url' := by
    rw [isSpecial, hsame.scheme]
    exact hspecial
  obtain ⟨url'', hmoved⟩ :=
    Option.isSome_iff_exists.mp (laws.setHost_some url' _ host₁ hspecial' hhead hparse₁)
  have hcanonical : normalized.canonical = U.print url' := n.canonical
  have hagain : Normalizes U normalized.canonical false url' host₁ url''
      { normalized with canonical := U.print url'' } := {
    escapes := hcanonical ▸ laws.escapes_setHost _ _ _ (laws.escapes_parsed _ _ n.escapes n.parsed) n.moved
    parsed := hcanonical ▸ laws.parse_print url'
    scheme := hsame.scheme ▸ n.scheme
    allowed := n.allowed
    noUser := ⟨hsame.username ▸ n.noUser.1, hsame.password ▸ n.noUser.2⟩
    noFragment := hsame.fragment ▸ n.noFragment
    noQuery := fun he => absurd he (by simp)
    urlHost := hhost₂
    host := hnorm₁
    port := hsame.port ▸ n.port
    path := hsame.path ▸ n.path
    moved := hmoved
    canonical := rfl }
  have hcovers' : rule.covers { normalized with canonical := U.print url'' } = true := hcovers
  have hany : rules.any (fun allowed => allowed.covers
      { normalized with canonical := U.print url'' }) = true :=
    List.any_eq_true.mpr ⟨rule, hrule, hcovers'⟩
  have hne : rules.isEmpty = false := by
    cases rules with
    | nil => exact absurd hrule List.not_mem_nil
    | cons r rs => rfl
  refine ⟨U.print url'', ?_⟩
  unfold validateTarget
  rw [hrules, normalize_of hagain]
  simp only [ok_bind, hne, hany, Bool.not_true, refuse_false]
  rfl

/-- The octet a decimal text stands for. -/
def octetOf (cs : List Char) : Option UInt8 :=
  let n := cs.foldl (fun n c => 10 * n + (c.toNat - 48)) 0
  if n < 256 ∧ cs = Nat.toDigits 10 n then some (UInt8.ofNat n) else none

def ipv4Of (s : String) : Option Ipv4Addr :=
  match s.toList.splitOn '.' with
  | [a, b, c, d] => do return ⟨← octetOf a, ← octetOf b, ← octetOf c, ← octetOf d⟩
  | _ => none

def plainDomain : String := "hooks.example.com"

def plainHost (s : String) : Option Host :=
  if s = plainDomain then some (.domain s)
  else ((ipv4Of s).filter fun address => address.text == s).map .ipv4

def plainPrint (host : String) : String := "https://" ++ host ++ "/"

def plainParse (raw : String) : Except String String :=
  let host := String.ofList (raw.toList.drop 8).dropLast
  if plainPrint host = raw then .ok host else .error "relative URL without a base"

def plainSetHost (s : String) : Option String :=
  if (plainHost (beforeColon s)).isSome then some (beforeColon s) else none

/-- A library for https URLs whose host is a version 4 address or one domain. -/
def plainUrls : UrlLibrary where
  Url := String
  parse := plainParse
  print := plainPrint
  scheme _ := "https"
  username _ := ""
  password _ := none
  fragment _ := none
  query _ := none
  host := plainHost
  hostStr := some
  port _ := some 443
  path _ := "/"
  setHost _ := plainSetHost
  setPath url _ := url
  join _ location := .ok location
  parseHost := plainHost

theorem octetOf_decimal (b : UInt8) : octetOf (decimal b) = some b := by
  have hall : ∀ n : Fin 256, octetOf (Nat.toDigits 10 n) = some (UInt8.ofNat n) := by decide +kernel
  have h := hall ⟨b.toNat, b.toNat_lt⟩
  rwa [UInt8.ofNat_toNat] at h

theorem ipv4Of_text (address : Ipv4Addr) : ipv4Of address.text = some address := by
  have hno : ∀ b : UInt8, '.' ∉ decimal b := fun b hm =>
    absurd (decimal_isDigit b '.' hm) (by decide)
  have hparts : ∀ part ∈ [decimal address.a, decimal address.b, decimal address.c,
      decimal address.d], '.' ∉ part := by simp [hno]
  have hsplit := List.splitOn_intercalate '.' hparts (List.cons_ne_nil _ _)
  have htext : address.text.toList = ['.'].intercalate [decimal address.a, decimal address.b,
      decimal address.c, decimal address.d] := by simp [Ipv4Addr.text, List.intercalate]
  rw [ipv4Of, htext, hsplit]
  simp only [octetOf_decimal]
  rfl

theorem plainHost_text (address : Ipv4Addr) : plainHost address.text = some (.ipv4 address) := by
  have hne : address.text ≠ plainDomain := by
    intro he
    have hh : 'h' ∈ address.text.toList := he ▸ by decide
    rcases address.text_chars 'h' hh with h | h <;> exact absurd h (by decide)
  rw [plainHost, if_neg hne, ipv4Of_text]
  simp

theorem plainHost_some {s : String} {host : Host} (h : plainHost s = some host) :
    (s = plainDomain ∧ host = .domain plainDomain) ∨
      ∃ address : Ipv4Addr, s = address.text ∧ host = .ipv4 address := by
  unfold plainHost at h
  by_cases hs : s = plainDomain
  · subst hs
    exact Or.inl ⟨rfl, (Option.some.inj ((if_pos rfl).symm.trans h)).symm⟩
  · rw [if_neg hs] at h
    obtain ⟨address, ha, rfl⟩ := Option.map_eq_some_iff.mp h
    have ht := (Option.filter_eq_some_iff.mp ha).2
    exact Or.inr ⟨address, (eq_of_beq ht).symm, rfl⟩

theorem escapesWhole_of {bs : Octets} (h : 37 ∉ bs) : escapesWhole bs = true := by
  induction bs with
  | nil => rfl
  | cons b bs ih =>
    have hb : b ≠ 37 := fun he => h (he ▸ List.mem_cons_self)
    have hstep : escapesWhole (b :: bs) = escapesWhole bs := by
      rw [escapesWhole]
      exact hb
    rw [hstep, ih fun hm => h (List.mem_cons_of_mem b hm)]

/-- A digit or a dot is written as itself. -/
theorem utf8_plain {c : Char} (h : c.isDigit = true ∨ c = '.') : 37 ∉ String.utf8EncodeChar c := by
  rcases h with h | rfl
  · have hall : ∀ n : Fin 58, 48 ≤ n.val → 37 ∉ String.utf8EncodeChar (Char.ofNat n) := by decide
    have hd : 48 ≤ c.toNat ∧ c.toNat ≤ 57 := by simpa [Char.isDigit, UInt32.le_iff_toNat_le] using h
    have hc := hall ⟨c.toNat, by omega⟩ hd.1
    rwa [Char.ofNat_toNat] at hc
  · decide

theorem escapesWhole_plain {s : String} {host : Host} (h : plainHost s = some host) :
    escapesWhole (utf8 (plainPrint s)) = true := by
  refine escapesWhole_of ?_
  rw [plainPrint, utf8_append, utf8_append]
  have hs : 37 ∉ utf8 s := by
    rcases plainHost_some h with ⟨rfl, _⟩ | ⟨address, rfl, _⟩
    · decide
    · rw [← String.ofList_toList (s := address.text), utf8_ofList, List.mem_flatMap]
      rintro ⟨c, hc, hm⟩
      exact utf8_plain (address.text_chars c hc) hm
  simp only [List.mem_append, not_or]
  exact ⟨⟨by decide, hs⟩, by decide⟩

theorem plainParse_print (url : String) : plainParse (plainPrint url) = .ok url := by
  have hhost : String.ofList ((plainPrint url).toList.drop 8).dropLast = url := by
    have hlist : (plainPrint url).toList = "https://".toList ++ (url.toList ++ ['/']) := by
      simp [plainPrint]
    rw [hlist, List.drop_left' (by decide), List.dropLast_concat, String.ofList_toList]
  simp only [plainParse, hhost, if_pos]

theorem plainParse_ok {raw url : String} (h : plainParse raw = .ok url) : plainPrint url = raw := by
  unfold plainParse at h
  by_cases hr : plainPrint (String.ofList (raw.toList.drop 8).dropLast) = raw
  · rw [if_pos hr] at h
    exact Except.ok.inj h ▸ hr
  · rw [if_neg hr] at h
    exact absurd h (by simp)

theorem plainSetHost_some {s url : String} (h : plainSetHost s = some url) :
    url = beforeColon s ∧ ∃ host, plainHost (beforeColon s) = some host := by
  unfold plainSetHost at h
  obtain ⟨hsome, he⟩ := Option.ite_none_right_eq_some.mp h
  exact ⟨(Option.some.inj he).symm, Option.isSome_iff_exists.mp hsome⟩

theorem plainSetHost_isSome {s : String} {host : Host} (h : plainHost (beforeColon s) = some host) :
    (plainSetHost s).isSome = true := by
  rw [plainSetHost, if_pos (Option.isSome_of_eq_some h)]
  rfl

theorem plainUrls_laws : UrlLaws plainUrls where
  parse_print url := by
    simp only [plainUrls]
    exact plainParse_print url
  scheme_lower _ := (by decide : toAsciiLowercase "https" = "https")
  host_parsed url host _ h := ⟨url, h⟩
  setHost_host url s url' _ h _ := by
    obtain ⟨rfl, host, hhost⟩ := plainSetHost_some h
    exact ⟨⟨host, hhost, hhost⟩, rfl, rfl, rfl, rfl, rfl, rfl, rfl⟩
  setHost_some _ _ _ _ _ h := plainSetHost_isSome h
  setPath_host _ _ := rfl
  domain_lower s name h := by
    rcases plainHost_some h with ⟨rfl, hd⟩ | ⟨_, _, hd⟩
    · obtain rfl := Host.domain.inj hd
      decide
    · exact absurd hd (by simp)
  domain_again s name host h hagain := by
    rcases plainHost_some hagain with ⟨ht, rfl⟩ | ⟨address, _, rfl⟩
    · exact Or.inl (ht ▸ rfl)
    · exact Or.inr ⟨address, rfl⟩
  ipv4_text := plainHost_text
  empty_host := (by decide : plainHost "" = none)
  short_hex s host hlen hhex h := by
    rcases plainHost_some h with ⟨rfl, _⟩ | ⟨address, rfl, _⟩
    · exact absurd hlen (by decide)
    · have hdot : '.' ∈ address.text.toList := by simp [Ipv4Addr.text]
      exact absurd (hhex '.' hdot) (by decide)
  escapes_parsed raw url h hp := by
    have hraw : plainUrls.print url = raw := plainParse_ok hp
    rw [hraw]
    exact h
  escapes_setHost url s url' _ h := by
    obtain ⟨rfl, host, hhost⟩ := plainSetHost_some h
    exact escapesWhole_plain hhost

end ClavenarLite
