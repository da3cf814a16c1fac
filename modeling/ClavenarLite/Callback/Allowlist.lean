import ClavenarLite.Callback.Paths

/-! An allowlist is normalised once, when the process starts, and its entries and
the accepted targets are read again from their printed form: at parking, at the
decision, and before sending. Whether all readings agree. -/

namespace ClavenarLite

open Bytes Fallible Net Segments Text

variable {U : UrlLibrary}

structure SameBesidesPath (u v : U.Url) : Prop where
  scheme : U.scheme u = U.scheme v
  username : U.username u = U.username v
  password : U.password u = U.password v
  fragment : U.fragment u = U.fragment v
  query : U.query u = U.query v
  port : U.port u = U.port v
  host : U.host u = U.host v

variable (U) in
/-- A setter that is given what a URL has already leaves the URL as it is, and a
path without its trailing slashes is taken as it is, the empty one as the root. -/
structure SetterLaws : Prop extends UrlLaws U where
  setHost_same : ∀ url s host, isSpecial U url → s.toList.head? ≠ some '[' →
    U.host url = some host → U.parseHost (beforeColon s) = some host → U.setHost url s = some url
  path_rooted : ∀ url, isSpecial U url → IsRooted (U.path url)
  setPath_same : ∀ url, isSpecial U url → U.setPath url (U.path url) = url
  setPath_trimmed : ∀ url, isSpecial U url →
    U.path (U.setPath url (trimEnd '/' (U.path url))) =
      if trimEnd '/' (U.path url) = "" then "/" else trimEnd '/' (U.path url)
  setPath_besides : ∀ url p, SameBesidesPath (U.setPath url p) url
  escapes_setPath : ∀ url, escapesWhole (utf8 (U.print url)) = true →
    escapesWhole (utf8 (U.print (U.setPath url (trimEnd '/' (U.path url))))) = true

variable (U) in
/-- The host is no version 6 address, and no domain that is read as an address in
another spelling, or as one that is not public, once its trailing dots are gone. -/
def KeepsHost : Host → Prop
  | .domain name => ∀ address, U.parseHost (trimEnd '.' name) = some (.ipv4 address) →
      isPublicIpv4 address = true ∧ address.text = trimEnd '.' name
  | .ipv4 _ => True
  | .ipv6 _ => False

variable (U) in
def KeepsHosts (entries : List String) : Prop :=
  ∀ entry ∈ entries, ∀ url host, U.parse entry = .ok url → U.host url = some host →
    KeepsHost U host

def Host.text : Host → String
  | .domain name => name
  | .ipv4 address => address.text
  | .ipv6 address => "[" ++ address.text ++ "]"

/-- The host that a settled text is read as: it normalises to the text, and stands
in a URL as the text. -/
structure HostOf (U : UrlLibrary) (text : String) (host : Host) : Prop where
  head : text.toList.head? ≠ some '['
  parsed : U.parseHost (beforeColon text) = some host
  normal : normalizeHost host = .ok text
  written : host.text = text

section Hosts

variable {raw : String} {entry : Bool} {url url' : U.Url} {host : Host} {target : NormalizedTarget}

/-- A trimmed domain: the library reads its text back as itself, or as an address. -/
theorem Normalizes.domain_text (laws : UrlLaws U) {name : String}
    (n : Normalizes U raw entry url (.domain name) url' target) :
    target.host = trimEnd '.' name ∧ target.host.toList.head? ≠ some '[' ∧
      beforeColon target.host = target.host ∧
      (U.parseHost target.host = some (.domain target.host) ∨
        ∃ address, U.parseHost target.host = some (.ipv4 address)) := by
  obtain ⟨htext, _⟩ := normalizeHost_domain n.host
  obtain ⟨s, hs⟩ := laws.host_parsed _ _ (n.special laws) n.urlHost
  obtain ⟨hlower, hcolon, hbracket⟩ := laws.domain_lower s name hs
  rw [hlower] at htext
  have hsub : (trimEnd '.' name).toList.Sublist name.toList := by
    rw [trimEnd, String.toList_ofList]
    exact (List.rdropWhile_prefix _ _).sublist
  rw [← htext] at hsub
  have hhead := head_ne_of_notMem fun hm => hbracket (hsub.subset hm)
  have hcut := beforeColon_eq fun hm => hcolon (hsub.subset hm)
  obtain ⟨⟨host', hparse, _⟩, _⟩ := laws.setHost_host _ _ _ (n.special laws) n.moved hhead
  rw [hcut] at hparse
  refine ⟨htext, hhead, hcut, ?_⟩
  rcases laws.domain_again s name host' hs (htext ▸ hparse) with rfl | ⟨address, rfl⟩
  · exact Or.inl (hparse.trans (by rw [htext]))
  · exact Or.inr ⟨address, hparse⟩

theorem hostOf_ipv4 (laws : UrlLaws U) {address : Ipv4Addr} (h : isPublicIpv4 address = true) :
    HostOf U address.text (.ipv4 address) := by
  obtain ⟨hhead, host, hparse, hnorm⟩ := settled_ipv4 laws h
  have hread := laws.ipv4_text address
  rw [beforeColon_eq (ipv4_notMem (by decide) (by decide))] at hparse
  obtain rfl := Option.some.inj (hparse.symm.trans hread)
  refine ⟨hhead, ?_, hnorm, rfl⟩
  rw [beforeColon_eq (ipv4_notMem (by decide) (by decide))]
  exact hread

theorem trimEnd_idem (c : Char) (s : String) : trimEnd c (trimEnd c s) = trimEnd c s := by
  simp only [trimEnd, String.toList_ofList, List.rdropWhile_idempotent]

theorem normalizeHost_trim {name name' : String} (h : trimEnd '.' name = trimEnd '.' name') :
    normalizeHost (.domain name) = normalizeHost (.domain name') := by
  simp only [normalizeHost, h]

theorem Normalizes.hostOf (laws : UrlLaws U) (n : Normalizes U raw entry url host url' target)
    (hk : KeepsHost U host) : ∃ host', HostOf U target.host host' := by
  cases host with
  | ipv6 address => exact hk.elim
  | ipv4 address =>
    obtain ⟨hpublic, htext⟩ := normalizeHost_ipv4 n.host
    exact ⟨.ipv4 address, htext ▸ hostOf_ipv4 laws hpublic⟩
  | domain name =>
    obtain ⟨htext, hhead, hcut, hread | ⟨address, hread⟩⟩ := n.domain_text laws
    · have hsame : trimEnd '.' target.host = trimEnd '.' name := by rw [htext, trimEnd_idem]
      exact ⟨.domain target.host, hhead, hcut.symm ▸ hread,
        (normalizeHost_trim hsame).trans n.host, rfl⟩
    · obtain ⟨hpublic, hsame⟩ := hk address (htext ▸ hread)
      rw [htext, ← hsame]
      exact ⟨.ipv4 address, hostOf_ipv4 laws hpublic⟩

theorem Normalizes.moved_host (laws : UrlLaws U) {host' : Host}
    (n : Normalizes U raw entry url host url' target) (ho : HostOf U target.host host') :
    U.host url' = some host' ∧ SameBesidesHost U url' url ∧ isSpecial U url' := by
  obtain ⟨⟨host₂, hparse, hhost⟩, hsame⟩ :=
    laws.setHost_host _ _ _ (n.special laws) n.moved ho.head
  obtain rfl := Option.some.inj (hparse.symm.trans ho.parsed)
  refine ⟨hhost, hsame, ?_⟩
  rw [isSpecial, hsame.scheme]
  exact n.special laws

/-- A target is read again as the URL it was printed from, and stays. -/
theorem Normalizes.target_again (laws : SetterLaws U) {host' : Host}
    (n : Normalizes U raw false url host url' target) (ho : HostOf U target.host host') :
    Normalizes U target.canonical false url' host' url' target := by
  obtain ⟨hhost, hsame, hspecial⟩ := n.moved_host laws.toUrlLaws ho
  have hcanonical : target.canonical = U.print url' := n.canonical
  exact {
    escapes := hcanonical ▸
      laws.escapes_setHost _ _ _ (laws.escapes_parsed _ _ n.escapes n.parsed) n.moved
    parsed := hcanonical ▸ laws.parse_print url'
    scheme := hsame.scheme ▸ n.scheme
    allowed := n.allowed
    noUser := ⟨hsame.username ▸ n.noUser.1, hsame.password ▸ n.noUser.2⟩
    noFragment := hsame.fragment ▸ n.noFragment
    noQuery := fun he => absurd he (by simp)
    urlHost := hhost
    host := ho.normal
    port := hsame.port ▸ n.port
    path := hsame.path ▸ n.path
    moved := laws.setHost_same _ _ _ hspecial ho.head hhost ho.parsed
    canonical := n.canonical }

/-- What an empty path reads as. -/
def rootPath (path : String) : String := if path = "" then "/" else path

def NormalizedTarget.rooted (target : NormalizedTarget) : NormalizedTarget :=
  { target with path := rootPath target.path }

theorem normalizePath_rootPath (path : String) :
    normalizePath (rootPath (normalizePath path)) = rootPath (normalizePath path) := by
  by_cases hroot : normalizePath path = ""
  · rw [hroot]
    decide
  · rw [rootPath, if_neg hroot]
    by_cases hslash : path = "/"
    · rw [hslash]
      decide
    · have htrim : normalizePath path = trimEnd '/' path := if_neg hslash
      rw [htrim]
      by_cases h : trimEnd '/' path = "/"
      · rw [h]
        decide
      · rw [normalizePath, if_neg h, trimEnd_idem]

theorem setPath_path (laws : SetterLaws U) {url : U.Url} (h : isSpecial U url) :
    U.path (U.setPath url (normalizePath (U.path url))) = rootPath (normalizePath (U.path url)) := by
  by_cases hslash : U.path url = "/"
  · have hnorm : normalizePath (U.path url) = U.path url := by
      rw [hslash]
      rfl
    have hroot : rootPath (U.path url) = U.path url := by
      rw [hslash]
      rfl
    rw [hnorm, laws.setPath_same url h, hroot]
  · have htrim : normalizePath (U.path url) = trimEnd '/' (U.path url) := if_neg hslash
    rw [htrim, laws.setPath_trimmed url h]
    rfl

theorem escapes_setPath (laws : SetterLaws U) {url : U.Url} (hs : isSpecial U url)
    (h : escapesWhole (utf8 (U.print url)) = true) :
    escapesWhole (utf8 (U.print (U.setPath url (normalizePath (U.path url))))) = true := by
  by_cases hslash : U.path url = "/"
  · have hnorm : normalizePath (U.path url) = U.path url := by
      rw [hslash]
      rfl
    rwa [hnorm, laws.setPath_same url hs]
  · have htrim : normalizePath (U.path url) = trimEnd '/' (U.path url) := if_neg hslash
    rw [htrim]
    exact laws.escapes_setPath url h

/-- An entry is read again as the URL it was printed from, and stays, but for an
empty path, which is read as the root. -/
theorem Normalizes.entry_again (laws : SetterLaws U) {host' : Host}
    (n : Normalizes U raw true url host url' target) (ho : HostOf U target.host host') :
    normalize U target.canonical true = .ok target.rooted := by
  obtain ⟨hhost, hsame, hspecial⟩ := n.moved_host laws.toUrlLaws ho
  have hpath : target.path = normalizePath (U.path url') := hsame.path ▸ n.path
  have hcanonical : target.canonical = U.print (U.setPath url' target.path) := n.canonical
  have hset := laws.setPath_besides url' target.path
  have hread : U.path (U.setPath url' target.path) = rootPath target.path := by
    rw [hpath]
    exact setPath_path laws hspecial
  have hspecial' : isSpecial U (U.setPath url' target.path) := by
    rw [isSpecial, hset.scheme]
    exact hspecial
  have hstays : normalizePath (rootPath target.path) = rootPath target.path := by
    rw [hpath]
    exact normalizePath_rootPath _
  have hescapes : escapesWhole (utf8 (U.print (U.setPath url' target.path))) = true := by
    rw [hpath]
    exact escapes_setPath laws hspecial
      (laws.escapes_setHost _ _ _ (laws.escapes_parsed _ _ n.escapes n.parsed) n.moved)
  have hagain : Normalizes U target.canonical true (U.setPath url' target.path) host'
      (U.setPath url' target.path) target.rooted := {
    escapes := hcanonical ▸ hescapes
    parsed := hcanonical ▸ laws.parse_print _
    scheme := hset.scheme ▸ hsame.scheme ▸ n.scheme
    allowed := n.allowed
    noUser := ⟨hset.username ▸ hsame.username ▸ n.noUser.1,
      hset.password ▸ hsame.password ▸ n.noUser.2⟩
    noFragment := hset.fragment ▸ hsame.fragment ▸ n.noFragment
    noQuery := fun he => hset.query ▸ hsame.query ▸ n.noQuery he
    urlHost := hset.host ▸ hhost
    host := ho.normal
    port := hset.port ▸ hsame.port ▸ n.port
    path := by rw [hread, hstays]; rfl
    moved := laws.setHost_same _ _ _ hspecial' ho.head (hset.host ▸ hhost) ho.parsed
    canonical := by
      have hsetAgain := laws.setPath_same _ hspecial'
      rw [hread] at hsetAgain
      show target.canonical = U.print (U.setPath _ (rootPath target.path))
      rw [hsetAgain, hcanonical] }
  exact normalize_of hagain

end Hosts

section Allowlist

variable {entries out : List String} {rules : List NormalizedTarget}

theorem rules_again (laws : SetterLaws U) (hk : KeepsHosts U entries)
    (hrules : parseAllowlist U entries = .ok rules) :
    parseAllowlist U (rules.map NormalizedTarget.canonical) =
      .ok (rules.map NormalizedTarget.rooted) := by
  refine mapM_map_ok fun rule hrule => ?_
  obtain ⟨entry, hentry, hnormal⟩ := mapM_mem hrules rule hrule
  obtain ⟨url, host, url', n⟩ := normalize_ok hnormal
  obtain ⟨host', ho⟩ := n.hostOf laws.toUrlLaws (hk entry hentry url host n.parsed n.urlHost)
  exact n.entry_again laws ho

theorem pathMatches_empty {path : String} (h : IsRooted path) :
    pathMatches "" (normalizePath path) = true := by
  rw [pathMatches_iff]
  by_cases hslash : path = "/"
  · exact Or.inr (Or.inr ⟨[], by rw [hslash]; rfl⟩)
  by_cases hnil : trunk '/' path.toList = []
  · refine Or.inr (Or.inl ?_)
    rw [← String.toList_inj, toList_normalizePath hslash, hnil]
    rfl
  · obtain ⟨rest, hrest⟩ := trunk_rooted h hnil
    exact Or.inr (Or.inr ⟨rest, by rw [toList_normalizePath hslash, hrest]; rfl⟩)

/-- A rule for the empty path and one for the root cover the same targets. -/
theorem covers_rooted (rule : NormalizedTarget) {target : NormalizedTarget} {path : String}
    (hp : target.path = normalizePath path) (hr : IsRooted path) :
    rule.rooted.covers target = rule.covers target := by
  by_cases hempty : rule.path = ""
  · have hroot : rule.rooted.path = "/" := if_pos hempty
    have hany : pathMatches "/" target.path = true := rfl
    have hempty' : pathMatches "" target.path = true := by
      rw [hp]
      exact pathMatches_empty hr
    rw [NormalizedTarget.covers, NormalizedTarget.covers, hroot, hempty, hany, hempty']
    rfl
  · have hsame : rule.rooted = rule := by
      rw [NormalizedTarget.rooted, rootPath, if_neg hempty]
    rw [hsame]

theorem validateTarget_again_eq (laws : SetterLaws U)
    (hrules : parseAllowlist U entries = .ok rules)
    (hout : parseAllowlist U out = .ok (rules.map NormalizedTarget.rooted)) (raw : String) :
    validateTarget U raw out = validateTarget U raw entries := by
  unfold validateTarget
  rw [hrules, hout]
  simp only [ok_bind, List.isEmpty_map]
  refine congrArg _ (funext fun _ => ?_)
  cases hnormal : normalize U raw false with
  | error e => rfl
  | ok target =>
    obtain ⟨url, host, url', n⟩ := normalize_ok hnormal
    have hrooted := laws.path_rooted url (n.special laws.toUrlLaws)
    have hany : ((rules.map NormalizedTarget.rooted).any fun allowed => allowed.covers target) =
        rules.any fun allowed => allowed.covers target := by
      rw [List.any_map]
      exact congrArg _ (funext fun rule => covers_rooted rule n.path hrooted)
    simp only [ok_bind, hany]

/-- The printed target stands for what the raw one does: the host is in lower
case, without trailing dots, and nothing else differs. -/
def Denotes (U : UrlLibrary) (canonical raw : String) : Prop :=
  ∃ url url' host host', U.parse raw = .ok url ∧ U.parse canonical = .ok url' ∧
    SameBesidesHost U url' url ∧ U.host url = some host ∧ U.host url' = some host' ∧
    host'.text = toAsciiLowercase (trimEnd '.' host.text)

theorem ipv4_text_lower (address : Ipv4Addr) :
    toAsciiLowercase (trimEnd '.' address.text) = address.text := by
  have hlast : address.text.toList.rdropWhile (· == '.') = address.text.toList := by
    refine List.rdropWhile_eq_self_iff.mpr fun hne hdot => ?_
    have hd : decimal address.d ≠ [] := Nat.toDigits_ne_nil
    have hmem : address.text.toList.getLast hne ∈ decimal address.d := by
      have hsplit : address.text.toList = (decimal address.a ++ '.' :: (decimal address.b ++ '.' ::
          (decimal address.c ++ ['.']))) ++ decimal address.d := by
        simp [Ipv4Addr.text]
      simp only [hsplit, List.getLast_append_of_ne_nil _ hd]
      exact List.getLast_mem hd
    have hdigit := decimal_isDigit _ _ hmem
    rw [eq_of_beq hdot] at hdigit
    exact absurd hdigit (by decide)
  have hlower : ∀ c ∈ address.text.toList, c.toLower = c := by
    intro c hc
    rcases address.text_chars c hc with h | rfl
    · have hc : ¬ (c.val ≥ 65 ∧ c.val ≤ 90) := by
        simp only [Char.isDigit, Bool.and_eq_true, decide_eq_true_eq, ge_iff_le] at h
        rintro ⟨hge, _⟩
        have h1 := UInt32.le_iff_toNat_le.mp h.2
        have h2 := UInt32.le_iff_toNat_le.mp hge
        simp at h1 h2
        omega
      exact dif_neg hc
    · decide
  rw [toAsciiLowercase, trimEnd, String.toList_ofList, hlast, List.map_congr_left hlower,
    List.map_id', String.ofList_toList]

theorem HostOf.written_lower (laws : UrlLaws U) {raw : String} {entry : Bool} {url url' : U.Url}
    {host host' : Host} {target : NormalizedTarget}
    (n : Normalizes U raw entry url host url' target) (ho : HostOf U target.host host') :
    host'.text = toAsciiLowercase (trimEnd '.' host.text) := by
  rw [ho.written]
  cases host with
  | domain name => exact (normalizeHost_domain n.host).1
  | ipv4 address =>
    rw [(normalizeHost_ipv4 n.host).2, Host.text, ipv4_text_lower]
  | ipv6 address =>
    obtain ⟨hp, htext⟩ := normalizeHost_ipv6 n.host
    exact absurd ho.normal (ipv6_cut_refused laws hp (htext ▸ ho.parsed))

/-- An accepted target is printed as it is read, and accepted as it is printed. -/
theorem accepted_kept (laws : SetterLaws U) (hk : KeepsHosts U entries)
    (hrules : parseAllowlist U entries = .ok rules)
    (hout : parseAllowlist U out = .ok (rules.map NormalizedTarget.rooted)) {raw canonical : String}
    (h : validateTarget U raw out = .ok canonical) :
    Denotes U canonical raw ∧ validateTarget U canonical out = .ok canonical := by
  obtain ⟨rules', target, hrules', hnormal, rfl, rule', hrule', hcovers⟩ := validateTarget_ok h
  obtain rfl := Except.ok.inj (hrules'.symm.trans hout)
  obtain ⟨rule, hrule, rfl⟩ := List.mem_map.mp hrule'
  obtain ⟨entry, hentry, hentryNormal⟩ := mapM_mem hrules rule hrule
  obtain ⟨url₀, host₀, url₁, n₀⟩ := normalize_ok hentryNormal
  obtain ⟨host', ho⟩ := n₀.hostOf laws.toUrlLaws (hk entry hentry url₀ host₀ n₀.parsed n₀.urlHost)
  have hsame : rule.host = target.host := by
    simp only [NormalizedTarget.covers, Bool.and_eq_true, beq_iff_eq] at hcovers
    exact hcovers.1.1.2
  rw [hsame] at ho
  obtain ⟨url, host, url', n⟩ := normalize_ok hnormal
  have hagain := n.target_again laws ho
  obtain ⟨hhost, hbesides, _⟩ := n.moved_host laws.toUrlLaws ho
  refine ⟨⟨url, url', host, host', n.parsed, hagain.parsed, hbesides, n.urlHost, hhost,
    ho.written_lower laws.toUrlLaws n⟩, ?_⟩
  unfold validateTarget at h ⊢
  rw [hnormal, hrules'] at h
  rw [normalize_of hagain, hrules']
  exact h

/-- Normalising the allowlist again changes nothing, the two lists decide alike, and
an accepted target stays accepted. -/
structure Stable (U : UrlLibrary) (entries out : List String) : Prop where
  again : normalizeAllowlistStrings U out = .ok out
  alike : ∀ raw, validateTarget U raw out = validateTarget U raw entries
  kept : ∀ raw canonical, validateTarget U raw out = .ok canonical →
    Denotes U canonical raw ∧ validateTarget U canonical out = .ok canonical

theorem stable_of_keeps (laws : SetterLaws U) (ha : normalizeAllowlistStrings U entries = .ok out)
    (hk : KeepsHosts U entries) : Stable U entries out := by
  obtain ⟨rules, hrules, ha⟩ := bind_ok ha
  obtain rfl := Except.ok.inj ha
  have hout := rules_again laws hk hrules
  refine ⟨?_, validateTarget_again_eq laws hrules hout, fun raw canonical h =>
    accepted_kept laws hk hrules hout h⟩
  unfold normalizeAllowlistStrings
  rw [hout, ok_bind, List.map_map]
  rfl

/-- An entry covers itself as a target. -/
theorem entry_validated {entry : String} {url url' : U.Url} {host : Host} {rule : NormalizedTarget}
    (n : Normalizes U entry true url host url' rule) (hrules : parseAllowlist U entries = .ok rules)
    (hrule : rule ∈ rules) : ∃ canonical, validateTarget U entry entries = .ok canonical := by
  have htarget : Normalizes U entry false url host url' { rule with canonical := U.print url' } :=
    { n with noQuery := fun he => absurd he (by simp), canonical := rfl }
  have hcovers : rule.covers { rule with canonical := U.print url' } = true := by
    simp [NormalizedTarget.covers, pathMatches]
  have hany : rules.any (fun allowed => allowed.covers { rule with canonical := U.print url' }) =
      true := List.any_eq_true.mpr ⟨rule, hrule, hcovers⟩
  have hne : rules.isEmpty = false := List.isEmpty_eq_false_iff.mpr (List.ne_nil_of_mem hrule)
  refine ⟨U.print url', ?_⟩
  unfold validateTarget
  rw [hrules, normalize_of htarget]
  simp only [ok_bind, hne, hany, Bool.not_true, refuse_false]
  rfl

/-- The second reading of an entry starts from the host that the first one set. -/
theorem second_host (laws : UrlLaws U) {raw : String} {url url' : U.Url} {host : Host}
    {rule rule₂ : NormalizedTarget} (n : Normalizes U raw true url host url' rule)
    (h : normalize U rule.canonical true = .ok rule₂) :
    ∃ host₂, U.host url' = some host₂ ∧ normalizeHost host₂ = .ok rule₂.host := by
  obtain ⟨url₂, host₂, url₃, n₂⟩ := normalize_ok h
  have hread := n₂.parsed
  rw [n.canonical, laws.parse_print] at hread
  obtain rfl := Except.ok.inj hread
  have hhost := n₂.urlHost
  rw [if_pos rfl, laws.setPath_host] at hhost
  exact ⟨host₂, hhost, n₂.host⟩

/-- An entry whose domain is read as an address in another spelling covers itself
before it is normalised, and no more after that. -/
theorem respelled_text (laws : UrlLaws U) (ha : normalizeAllowlistStrings U entries = .ok out)
    (hs : Stable U entries out) (hrules : parseAllowlist U entries = .ok rules) {entry name : String}
    {url url' : U.Url} {rule : NormalizedTarget} (hrule : rule ∈ rules)
    (n : Normalizes U entry true url (.domain name) url' rule) {address : Ipv4Addr}
    (hread : U.parseHost (trimEnd '.' name) = some (.ipv4 address)) :
    address.text = trimEnd '.' name := by
  obtain ⟨htext, _, hcut, _⟩ := n.domain_text laws
  obtain ⟨canonical, hvalid⟩ := entry_validated n hrules hrule
  rw [← hs.alike entry] at hvalid
  obtain ⟨rules₂, target, hrules₂, hnormal, rfl, rule', hrule', hcovers⟩ := validateTarget_ok hvalid
  obtain ⟨url₀, host₀, url₁, n₀⟩ := normalize_ok hnormal
  obtain rfl := Except.ok.inj (n.parsed.symm.trans n₀.parsed)
  obtain rfl := Option.some.inj (n.urlHost.symm.trans n₀.urlHost)
  have hsame : rule'.host = trimEnd '.' name := by
    simp only [NormalizedTarget.covers, Bool.and_eq_true, beq_iff_eq] at hcovers
    rw [hcovers.1.1.2, ← htext]
    exact Except.ok.inj (n₀.host.symm.trans n.host)
  obtain ⟨-, host', hparse, hnorm⟩ := settled_rule laws ha hrules₂ hrule'
  rw [hsame, ← htext, hcut, htext, hread] at hparse
  obtain rfl := Option.some.inj hparse
  rw [hsame] at hnorm
  exact (normalizeHost_ipv4 hnorm).2.symm

theorem keeps_of_stable (laws : UrlLaws U) (ha : normalizeAllowlistStrings U entries = .ok out)
    (hs : Stable U entries out) : KeepsHosts U entries := by
  intro entry hentry url host hparse hhost
  obtain ⟨rules, hrules, hcanonical⟩ := bind_ok ha
  obtain ⟨rule, hrule, hnormal⟩ := mapM_ok hrules entry hentry
  obtain ⟨url₀, host₀, url', n⟩ := normalize_ok hnormal
  obtain rfl := Except.ok.inj (hparse.symm.trans n.parsed)
  obtain rfl := Option.some.inj (hhost.symm.trans n.urlHost)
  obtain ⟨rules₂, hrules₂, -⟩ := bind_ok hs.again
  have hmem : rule.canonical ∈ out := by
    rw [← Except.ok.inj hcanonical]
    exact List.mem_map_of_mem hrule
  obtain ⟨rule₂, -, hnormal₂⟩ := mapM_ok hrules₂ rule.canonical hmem
  obtain ⟨host₂, hhost₂, hnorm₂⟩ := second_host laws n hnormal₂
  cases host with
  | ipv4 address => trivial
  | ipv6 address =>
    obtain ⟨hp, htext⟩ := normalizeHost_ipv6 n.host
    obtain ⟨start, more, hcut, _, hhex⟩ := ipv6_text_cut hp
    have hhead : rule.host.toList.head? ≠ some '[' := by
      rw [htext, hcut]
      exact head_cut hhex
    obtain ⟨⟨host₃, hparse₃, hhost₃⟩, _⟩ := laws.setHost_host _ _ _ (n.special laws) n.moved hhead
    obtain rfl := Option.some.inj (hhost₂.symm.trans hhost₃)
    exact absurd hnorm₂ (ipv6_cut_refused laws hp (htext ▸ hparse₃))
  | domain name =>
    intro address hread
    obtain ⟨htext, hhead, hcut, _⟩ := n.domain_text laws
    obtain ⟨⟨host₃, hparse₃, hhost₃⟩, _⟩ := laws.setHost_host _ _ _ (n.special laws) n.moved hhead
    obtain rfl := Option.some.inj (hhost₂.symm.trans hhost₃)
    rw [hcut, htext, hread] at hparse₃
    obtain rfl := Option.some.inj hparse₃
    exact ⟨(normalizeHost_ipv4 hnorm₂).1, respelled_text laws ha hs hrules hrule n hread⟩

/-- An accepted allowlist is stable exactly if it keeps the hosts of its entries. -/
theorem allowlist_stable_iff (laws : SetterLaws U)
    (ha : normalizeAllowlistStrings U entries = .ok out) :
    Stable U entries out ↔ KeepsHosts U entries :=
  ⟨keeps_of_stable laws.toUrlLaws ha, stable_of_keeps laws ha⟩

end Allowlist

deriving instance DecidableEq for Host

def resolverAddress : Ipv6Addr := ⟨0x2606, 0x4700, 0x4700, 0, 0, 0, 0, 0x1111⟩

/-- The plain hosts, one address in brackets, and the number it starts with, which
is an address of version 4 by itself. -/
def literalHost (s : String) : Option Host :=
  if s = "2606" then some (.ipv4 ⟨0, 0, 10, 46⟩)
  else if s = "[2606:4700:4700::1111]" then some (.ipv6 resolverAddress)
  else plainHost s

theorem literalHost_some {s : String} {host : Host} (h : literalHost s = some host) :
    (s = "2606" ∧ host = .ipv4 ⟨0, 0, 10, 46⟩) ∨
      (s = "[2606:4700:4700::1111]" ∧ host = .ipv6 resolverAddress) ∨ plainHost s = some host := by
  unfold literalHost at h
  split_ifs at h with h₁ h₂
  · exact Or.inl ⟨h₁, (Option.some.inj h).symm⟩
  · exact Or.inr (Or.inl ⟨h₂, (Option.some.inj h).symm⟩)
  · exact Or.inr (Or.inr h)

theorem literalHost_ipv4 (address : Ipv4Addr) : literalHost address.text = some (.ipv4 address) := by
  have hdot : '.' ∈ address.text.toList := by simp [Ipv4Addr.text]
  have hne : ∀ s : String, '.' ∉ s.toList → address.text ≠ s := by
    rintro s hs rfl
    exact hs hdot
  rw [literalHost, if_neg (hne _ (by decide)), if_neg (hne _ (by decide)), plainHost_text]

theorem literalHost_domain : literalHost plainDomain = some (.domain plainDomain) := by
  decide +kernel

theorem literalHost_ipv6 : literalHost (Host.ipv6 resolverAddress).text =
    some (.ipv6 resolverAddress) := by
  decide +kernel

/-- A host that is read stands in a URL by its own text. -/
theorem literalHost_text {s : String} {host : Host} (h : literalHost s = some host) :
    literalHost host.text = some host := by
  rcases literalHost_some h with ⟨-, rfl⟩ | ⟨-, rfl⟩ | h
  · exact literalHost_ipv4 _
  · exact literalHost_ipv6
  · rcases plainHost_some h with ⟨-, rfl⟩ | ⟨address, -, rfl⟩
    · exact literalHost_domain
    · exact literalHost_ipv4 address

abbrev LiteralUrl := { host : Host // literalHost host.text = some host }

def literalUrl (host : Host) : Option LiteralUrl :=
  if h : literalHost host.text = some host then some ⟨host, h⟩ else none

theorem literalUrl_val (url : LiteralUrl) : literalUrl url.val = some url := dif_pos url.property

def literalParse (raw : String) : Except String LiteralUrl :=
  let inner := String.ofList (raw.toList.drop 8).dropLast
  match (literalHost inner).bind literalUrl with
  | some url =>
    if plainPrint url.val.text = raw then .ok url else .error "relative URL without a base"
  | none => .error "invalid domain character"

/-- The setter reads a text in brackets whole, and any other one up to its first colon. -/
def literalSetHost (s : String) : Option LiteralUrl :=
  (literalHost (if s.toList.head? = some '[' then s else beforeColon s)).bind literalUrl

/-- A library for https URLs whose host is one domain, an address of version 4, or
one of version 6. -/
def literalUrls : UrlLibrary where
  Url := LiteralUrl
  parse := literalParse
  print url := plainPrint url.val.text
  scheme _ := "https"
  username _ := ""
  password _ := none
  fragment _ := none
  query _ := none
  host url := some url.val
  hostStr url := some url.val.text
  port _ := some 443
  path _ := "/"
  setHost _ := literalSetHost
  setPath url _ := url
  join _ := literalParse
  parseHost := literalHost

theorem literalParse_print (url : LiteralUrl) :
    literalParse (plainPrint url.val.text) = .ok url := by
  have hinner : String.ofList ((plainPrint url.val.text).toList.drop 8).dropLast = url.val.text := by
    have hlist : (plainPrint url.val.text).toList =
        "https://".toList ++ (url.val.text.toList ++ ['/']) := by simp [plainPrint]
    rw [hlist, List.drop_left' (by decide), List.dropLast_concat, String.ofList_toList]
  simp only [literalParse, hinner, url.property, Option.bind_some, literalUrl_val, if_true]

theorem literalParse_ok {raw : String} {url : LiteralUrl} (h : literalParse raw = .ok url) :
    plainPrint url.val.text = raw := by
  unfold literalParse at h
  simp only at h
  split at h
  · split_ifs at h with hprint
    rw [← Except.ok.inj h]
    exact hprint
  · cases h

theorem literalSetHost_cut {s : String} (h : s.toList.head? ≠ some '[') :
    literalSetHost s = (literalHost (beforeColon s)).bind literalUrl := by
  rw [literalSetHost, if_neg h]

theorem literalSetHost_some {s : String} {host : Host} (hs : s.toList.head? ≠ some '[')
    (h : literalHost (beforeColon s) = some host) :
    ∃ url : LiteralUrl, literalSetHost s = some url ∧ url.val = host := by
  refine ⟨⟨host, literalHost_text h⟩, ?_, rfl⟩
  rw [literalSetHost_cut hs, h, Option.bind_some]
  exact literalUrl_val ⟨host, literalHost_text h⟩

theorem escapesWhole_literal {host : Host} (h : literalHost host.text = some host) :
    escapesWhole (utf8 (plainPrint host.text)) = true := by
  rcases literalHost_some h with ⟨htext, -⟩ | ⟨htext, -⟩ | h
  · rw [htext]
    decide +kernel
  · rw [htext]
    decide +kernel
  · exact escapesWhole_plain h

theorem literalUrls_laws : UrlLaws literalUrls where
  parse_print := literalParse_print
  scheme_lower _ := (by decide : toAsciiLowercase "https" = "https")
  host_parsed url host _ h := by
    obtain rfl : url.val = host := Option.some.inj h
    exact ⟨url.val.text, url.property⟩
  setHost_host url s url' _ h hs := by
    have hset : literalSetHost s = some url' := h
    rw [literalSetHost_cut hs] at hset
    obtain ⟨host, hparse, hurl⟩ := Option.bind_eq_some_iff.mp hset
    obtain ⟨hread, hurl⟩ := Option.dite_none_right_eq_some.mp hurl
    obtain rfl := Option.some.inj hurl
    exact ⟨⟨host, hparse, rfl⟩, rfl, rfl, rfl, rfl, rfl, rfl, rfl⟩
  setHost_some _ _ _ _ hs h := by
    obtain ⟨url, hurl, -⟩ := literalSetHost_some hs h
    exact Option.isSome_of_eq_some hurl
  setPath_host _ _ := rfl
  domain_lower s name h := by
    rcases literalHost_some h with ⟨-, hd⟩ | ⟨-, hd⟩ | h
    · exact absurd hd (by simp)
    · exact absurd hd (by simp)
    · exact plainUrls_laws.domain_lower s name h
  domain_again s name host h hagain := by
    have hname : name = plainDomain := by
      rcases literalHost_some h with ⟨-, hd⟩ | ⟨-, hd⟩ | h
      · exact absurd hd (by simp)
      · exact absurd hd (by simp)
      · rcases plainHost_some h with ⟨-, hd⟩ | ⟨_, -, hd⟩
        · exact Host.domain.inj hd
        · exact absurd hd (by simp)
    have htrim : trimEnd '.' plainDomain = plainDomain := by decide +kernel
    have hread : literalHost (trimEnd '.' name) = some host := hagain
    rw [hname, htrim, literalHost_domain] at hread
    rw [hname, htrim]
    exact Or.inl (Option.some.inj hread).symm
  ipv4_text := literalHost_ipv4
  empty_host := (by decide +kernel : literalHost "" = none)
  short_hex s host hlen hhex h := by
    rcases literalHost_some h with ⟨-, rfl⟩ | ⟨rfl, -⟩ | h
    · exact Or.inr ⟨_, rfl, rfl⟩
    · exact absurd hlen (by decide)
    · exact plainUrls_laws.short_hex s host hlen hhex h
  escapes_parsed raw url h hp := by
    have hraw : literalUrls.print url = raw := literalParse_ok hp
    rw [hraw]
    exact h
  escapes_setHost url s url' _ h := escapesWhole_literal url'.property

theorem literalUrls_setters : SetterLaws literalUrls where
  toUrlLaws := literalUrls_laws
  setHost_same url s host _ hs hhost hparse := by
    obtain ⟨url', hset, hval⟩ := literalSetHost_some hs hparse
    have hsame : url' = url := Subtype.ext (hval.trans (Option.some.inj hhost).symm)
    exact hset.trans (congrArg some hsame)
  path_rooted _ _ := (by rfl : IsRooted "/")
  setPath_same _ _ := rfl
  setPath_trimmed _ _ := (by decide : "/" = if trimEnd '/' "/" = "" then "/" else trimEnd '/' "/")
  setPath_besides _ _ := ⟨rfl, rfl, rfl, rfl, rfl, rfl, rfl⟩
  escapes_setPath _ h := h

def literalEntry : String := "https://[2606:4700:4700::1111]/"

/-- The entry is accepted, and turned into one for another host. -/
theorem literalEntry_normalized :
    normalizeAllowlistStrings literalUrls [literalEntry] = .ok ["https://0.0.10.46/"] :=
  ok_of_toOption (by decide +kernel)

/-- A domain, and an address of version 4. -/
def plainEntries : List String := ["https://hooks.example.com/", "https://93.184.216.34/"]

theorem plainEntries_host {entry : String} (h : entry ∈ plainEntries) {url : LiteralUrl}
    (hp : literalParse entry = .ok url) :
    url.val = .domain plainDomain ∨ ∃ address, url.val = .ipv4 address := by
  have hone : ∀ entry ∈ plainEntries, (literalParse entry).toOption.all (fun url =>
      url.val = .domain plainDomain ∨ url.val = .ipv4 ⟨93, 184, 216, 34⟩) = true := by
    decide +kernel
  have hurl := hone entry h
  rw [hp] at hurl
  rcases of_decide_eq_true hurl with hdomain | hipv4
  · exact Or.inl hdomain
  · exact Or.inr ⟨_, hipv4⟩

theorem allowlist_stable_plain : Stable literalUrls plainEntries plainEntries := by
  have hnormal : normalizeAllowlistStrings literalUrls plainEntries = .ok plainEntries :=
    ok_of_toOption (by decide +kernel)
  refine (allowlist_stable_iff literalUrls_setters hnormal).mpr ?_
  intro entry hentry url host hp hhost
  obtain rfl : url.val = host := Option.some.inj hhost
  rcases plainEntries_host hentry hp with hdomain | ⟨address, hipv4⟩
  · rw [hdomain]
    intro address hread
    have hname : trimEnd '.' plainDomain = plainDomain := by decide +kernel
    have hread : literalHost plainDomain = some (.ipv4 address) := hname ▸ hread
    rw [literalHost_domain] at hread
    exact absurd (Option.some.inj hread) (by simp)
  · rw [hipv4]
    trivial

/-- An entry with a version 6 literal is accepted, and then the list cannot be
read again, so that every callback is refused. -/
theorem literal_entry_lost :
    normalizeAllowlistStrings literalUrls [literalEntry] = .ok ["https://0.0.10.46/"] ∧
      (∀ out, normalizeAllowlistStrings literalUrls ["https://0.0.10.46/"] ≠ .ok out) ∧
      validateTarget literalUrls literalEntry [literalEntry] = .ok "https://0.0.10.46/" ∧
      ∀ raw canonical, validateTarget literalUrls raw ["https://0.0.10.46/"] ≠ .ok canonical := by
  have hnone : (parseAllowlist literalUrls ["https://0.0.10.46/"]).toOption.isNone = true := by
    decide +kernel
  have hparse : ∀ rules, parseAllowlist literalUrls ["https://0.0.10.46/"] ≠ .ok rules := by
    intro rules h
    rw [h] at hnone
    exact Bool.noConfusion hnone
  refine ⟨literalEntry_normalized, fun out h => ?_, ok_of_toOption (by decide +kernel),
    fun raw canonical h => ?_⟩
  · obtain ⟨rules, hrules, -⟩ := bind_ok h
    exact hparse rules hrules
  · obtain ⟨rules, _, hrules, -⟩ := validateTarget_ok h
    exact hparse rules hrules

end ClavenarLite
