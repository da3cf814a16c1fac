import ClavenarLite.Ledger.Report
import ClavenarLite.Lib.DateTimeText
import ClavenarLite.Lib.Fallible
import ClavenarLite.Lib.JsonRecord

/-! The signed form of a graduation report: its canonical text, the file it is
written to, and what a signature found valid says of the report beside it. -/

namespace ClavenarLite

open Bytes Rfc3339 TextJson

def reportKeyId : String := "clavenar-lite-file:v1"

structure SignedGraduationReport where
  report : GraduationReport
  reportCanonicalJson : String
  signature : Option String
  algorithm : String
  keyId : String
  pubkeyPem : Option String
  signedAt : Option DateTime

def timeJson (t : DateTime) : Json := .str (serialized t)

def timeOfJson? (j : Json) : Option DateTime := j.asStr?.bind parseDateTime

def IntentCount.members (entry : IntentCount) : List (String × Json) :=
  [("intent_category", .str entry.intentCategory), ("count", natural entry.count)]

def IntentCount.toJson (entry : IntentCount) : Json := .obj entry.members

def IntentCount.ofJson? (j : Json) : Option IntentCount := do
  let get ← fields ["intent_category", "count"] j
  return { intentCategory := ← required Json.asStr? (get "intent_category"),
           count := ← required Json.asU64? (get "count") }

def AgentCount.members (entry : AgentCount) : List (String × Json) :=
  [("agent_id", .str entry.agentId), ("count", natural entry.count)]

def AgentCount.toJson (entry : AgentCount) : Json := .obj entry.members

def AgentCount.ofJson? (j : Json) : Option AgentCount := do
  let get ← fields ["agent_id", "count"] j
  return { agentId := ← required Json.asStr? (get "agent_id"),
           count := ← required Json.asU64? (get "count") }

def GraduationReport.members (r : GraduationReport) : List (String × Json) :=
  [("schema_version", .str r.schemaVersion),
   ("generated_at", timeJson r.generatedAt),
   ("window_start", orNull timeJson r.windowStart),
   ("window_end", orNull timeJson r.windowEnd),
   ("ledger_entries_checked", natural r.ledgerEntriesChecked),
   ("ledger_chain_valid", .bool r.ledgerChainValid),
   ("total_requests", natural r.totalRequests),
   ("would_deny", natural r.wouldDeny),
   ("would_pend", natural r.wouldPend),
   ("allowed", natural r.allowed),
   ("by_intent_category", .arr (r.byIntentCategory.map IntentCount.toJson)),
   ("top_agents", .arr (r.topAgents.map AgentCount.toJson)),
   ("recommend_enforce", .bool r.recommendEnforce),
   ("recommendation", .str r.recommendation)]

def GraduationReport.toJson (r : GraduationReport) : Json := .obj r.members

def reportFields : List String :=
  ["schema_version", "generated_at", "window_start", "window_end", "ledger_entries_checked",
   "ledger_chain_valid", "total_requests", "would_deny", "would_pend", "allowed",
   "by_intent_category", "top_agents", "recommend_enforce", "recommendation"]

def GraduationReport.ofJson? (j : Json) : Option GraduationReport := do
  let get ← fields reportFields j
  return { schemaVersion := ← required Json.asStr? (get "schema_version"),
           generatedAt := ← required timeOfJson? (get "generated_at"),
           windowStart := ← optional timeOfJson? (get "window_start"),
           windowEnd := ← optional timeOfJson? (get "window_end"),
           ledgerEntriesChecked := ← required Json.asU64? (get "ledger_entries_checked"),
           ledgerChainValid := ← required Json.asBool? (get "ledger_chain_valid"),
           totalRequests := ← required Json.asU64? (get "total_requests"),
           wouldDeny := ← required Json.asU64? (get "would_deny"),
           wouldPend := ← required Json.asU64? (get "would_pend"),
           allowed := ← required Json.asU64? (get "allowed"),
           byIntentCategory :=
             ← required (Json.asList? IntentCount.ofJson?) (get "by_intent_category"),
           topAgents := ← required (Json.asList? AgentCount.ofJson?) (get "top_agents"),
           recommendEnforce := ← required Json.asBool? (get "recommend_enforce"),
           recommendation := ← required Json.asStr? (get "recommendation") }

def SignedGraduationReport.members (s : SignedGraduationReport) : List (String × Json) :=
  [("report", s.report.toJson),
   ("report_canonical_json", .str s.reportCanonicalJson),
   ("signature", orNull Json.str s.signature),
   ("algorithm", .str s.algorithm),
   ("key_id", .str s.keyId),
   ("pubkey_pem", orNull Json.str s.pubkeyPem),
   ("signed_at", orNull timeJson s.signedAt)]

def SignedGraduationReport.toJson (s : SignedGraduationReport) : Json := .obj s.members

def signedReportFields : List String :=
  ["report", "report_canonical_json", "signature", "algorithm", "key_id", "pubkey_pem", "signed_at"]

def SignedGraduationReport.ofJson? (j : Json) : Option SignedGraduationReport := do
  let get ← fields signedReportFields j
  return { report := ← required GraduationReport.ofJson? (get "report"),
           reportCanonicalJson := ← required Json.asStr? (get "report_canonical_json"),
           signature := ← optional Json.asStr? (get "signature"),
           algorithm := ← required Json.asStr? (get "algorithm"),
           keyId := ← required Json.asStr? (get "key_id"),
           pubkeyPem := ← optional Json.asStr? (get "pubkey_pem"),
           signedAt := ← optional timeOfJson? (get "signed_at") }

/-- The date-times that the library's type holds. -/
def HeldTime (t : DateTime) : Prop := Decoded t ∧ InRange t

structure GraduationReport.Held (r : GraduationReport) : Prop where
  generatedAt : HeldTime r.generatedAt
  windowStart : ∀ t ∈ r.windowStart, HeldTime t
  windowEnd : ∀ t ∈ r.windowEnd, HeldTime t
  ledgerEntriesChecked : r.ledgerEntriesChecked < 2 ^ 64
  totalRequests : r.totalRequests < 2 ^ 64
  wouldDeny : r.wouldDeny < 2 ^ 64
  wouldPend : r.wouldPend < 2 ^ 64
  allowed : r.allowed < 2 ^ 64
  byIntentCategory : ∀ entry ∈ r.byIntentCategory, entry.count < 2 ^ 64
  topAgents : ∀ entry ∈ r.topAgents, entry.count < 2 ^ 64

structure SignedGraduationReport.Held (s : SignedGraduationReport) : Prop where
  report : s.report.Held
  signedAt : ∀ t ∈ s.signedAt, HeldTime t

theorem timeOfJson?_timeJson {t : DateTime} (h : HeldTime t) : timeOfJson? (timeJson t) = some t :=
  parseDateTime_serialized h.1 h.2

theorem optional_timeJson {t : Option DateTime} (h : ∀ u ∈ t, HeldTime u) :
    optional timeOfJson? (some (orNull timeJson t)) = some t :=
  optional_orNull (fun _ => by simp [timeJson]) fun u hu => timeOfJson?_timeJson (h u hu)

theorem optional_str (s : Option String) :
    optional Json.asStr? (some (orNull Json.str s)) = some s :=
  optional_orNull (fun _ => by simp) fun _ _ => rfl

theorem IntentCount.members_nodup (entry : IntentCount) :
    (entry.members.map Prod.fst).Nodup := by
  simp [IntentCount.members]

theorem IntentCount.ofJson?_toJson {entry : IntentCount} (h : entry.count < 2 ^ 64) :
    IntentCount.ofJson? entry.toJson = some entry := by
  have hget {key : String} {v : Json} (hv : (key, v) ∈ entry.members) :=
    lookup_of_mem entry.members_nodup hv
  have hcategory := hget (show ("intent_category", .str entry.intentCategory) ∈ _ by
    simp [IntentCount.members])
  have hcount := hget (show ("count", natural entry.count) ∈ _ by simp [IntentCount.members])
  simp [IntentCount.ofJson?, IntentCount.toJson, fields_obj _ entry.members_nodup, hcategory,
    hcount, asU64?_natural h]

theorem AgentCount.members_nodup (entry : AgentCount) :
    (entry.members.map Prod.fst).Nodup := by
  simp [AgentCount.members]

theorem AgentCount.ofJson?_toJson {entry : AgentCount} (h : entry.count < 2 ^ 64) :
    AgentCount.ofJson? entry.toJson = some entry := by
  have hget {key : String} {v : Json} (hv : (key, v) ∈ entry.members) :=
    lookup_of_mem entry.members_nodup hv
  have hagent := hget (show ("agent_id", .str entry.agentId) ∈ _ by simp [AgentCount.members])
  have hcount := hget (show ("count", natural entry.count) ∈ _ by simp [AgentCount.members])
  simp [AgentCount.ofJson?, AgentCount.toJson, fields_obj _ entry.members_nodup, hagent,
    hcount, asU64?_natural h]

theorem GraduationReport.members_nodup (r : GraduationReport) :
    (r.members.map Prod.fst).Nodup := by
  simp [GraduationReport.members]

/-- Each field is found under its name. -/
theorem GraduationReport.lookup_members (r : GraduationReport) :
    lookup "schema_version" r.members = some (.str r.schemaVersion) ∧
    lookup "generated_at" r.members = some (timeJson r.generatedAt) ∧
    lookup "window_start" r.members = some (orNull timeJson r.windowStart) ∧
    lookup "window_end" r.members = some (orNull timeJson r.windowEnd) ∧
    lookup "ledger_entries_checked" r.members = some (natural r.ledgerEntriesChecked) ∧
    lookup "ledger_chain_valid" r.members = some (.bool r.ledgerChainValid) ∧
    lookup "total_requests" r.members = some (natural r.totalRequests) ∧
    lookup "would_deny" r.members = some (natural r.wouldDeny) ∧
    lookup "would_pend" r.members = some (natural r.wouldPend) ∧
    lookup "allowed" r.members = some (natural r.allowed) ∧
    lookup "by_intent_category" r.members =
      some (.arr (r.byIntentCategory.map IntentCount.toJson)) ∧
    lookup "top_agents" r.members = some (.arr (r.topAgents.map AgentCount.toJson)) ∧
    lookup "recommend_enforce" r.members = some (.bool r.recommendEnforce) ∧
    lookup "recommendation" r.members = some (.str r.recommendation) := by
  refine ⟨?_, ?_, ?_, ?_, ?_, ?_, ?_, ?_, ?_, ?_, ?_, ?_, ?_, ?_⟩ <;>
    exact lookup_of_mem r.members_nodup (by simp [GraduationReport.members])

theorem GraduationReport.ofJson?_toJson {r : GraduationReport} (h : r.Held) :
    GraduationReport.ofJson? r.toJson = some r := by
  have hintents := asList?_map fun entry hentry =>
    IntentCount.ofJson?_toJson (h.byIntentCategory entry hentry)
  have hagents := asList?_map fun entry hentry =>
    AgentCount.ofJson?_toJson (h.topAgents entry hentry)
  obtain ⟨hschema, hat, hstart, hend, hchecked, hvalid, htotal, hdeny, hpend, hallowed, hby, htop,
    hrecommend, htext⟩ := r.lookup_members
  rw [GraduationReport.ofJson?, GraduationReport.toJson,
    bind_read (fields_obj _ r.members_nodup)]
  beta_reduce
  rw [hschema, required_some, bind_read (asStr?_str _),
    hat, required_some, bind_read (timeOfJson?_timeJson h.generatedAt),
    hstart, bind_read (optional_timeJson h.windowStart),
    hend, bind_read (optional_timeJson h.windowEnd),
    hchecked, required_some, bind_read (asU64?_natural h.ledgerEntriesChecked),
    hvalid, required_some, bind_read (asBool?_bool _),
    htotal, required_some, bind_read (asU64?_natural h.totalRequests),
    hdeny, required_some, bind_read (asU64?_natural h.wouldDeny),
    hpend, required_some, bind_read (asU64?_natural h.wouldPend),
    hallowed, required_some, bind_read (asU64?_natural h.allowed),
    hby, required_some, bind_read hintents, htop, required_some, bind_read hagents,
    hrecommend, required_some, bind_read (asBool?_bool _),
    htext, required_some, bind_read (asStr?_str _), Option.pure_def]

theorem SignedGraduationReport.members_nodup (s : SignedGraduationReport) :
    (s.members.map Prod.fst).Nodup := by
  simp [SignedGraduationReport.members]

theorem SignedGraduationReport.lookup_members (s : SignedGraduationReport) :
    lookup "report" s.members = some s.report.toJson ∧
    lookup "report_canonical_json" s.members = some (.str s.reportCanonicalJson) ∧
    lookup "signature" s.members = some (orNull Json.str s.signature) ∧
    lookup "algorithm" s.members = some (.str s.algorithm) ∧
    lookup "key_id" s.members = some (.str s.keyId) ∧
    lookup "pubkey_pem" s.members = some (orNull Json.str s.pubkeyPem) ∧
    lookup "signed_at" s.members = some (orNull timeJson s.signedAt) := by
  refine ⟨?_, ?_, ?_, ?_, ?_, ?_, ?_⟩ <;>
    exact lookup_of_mem s.members_nodup (by simp [SignedGraduationReport.members])

theorem SignedGraduationReport.ofJson?_toJson {s : SignedGraduationReport} (h : s.Held) :
    SignedGraduationReport.ofJson? s.toJson = some s := by
  simp only [SignedGraduationReport.ofJson?, SignedGraduationReport.toJson,
    fields_obj _ s.members_nodup, s.lookup_members, Option.bind_eq_bind, Option.bind_some,
    required_some, asStr?_str, GraduationReport.ofJson?_toJson h.report, optional_str,
    optional_timeJson h.signedAt, Option.pure_def]

/-- The canonical signing text. Writing these fields to a string has no way to fail,
so the branches for an encoding error are left out below. -/
def buildReportCanonicalJson (F : FloatText) (r : GraduationReport) : String :=
  printText F r.toJson

inductive ReportError
  | pem (e : String)

def ReportError.display : ReportError → String
  | .pem e => "pem: " ++ e

/-- The signature library with the texts of its keys and signatures. -/
structure Ed25519 where
  SigningKey : Type
  VerifyingKey : Type
  Signature : Type
  verifyingKey : SigningKey → VerifyingKey
  sign : SigningKey → Octets → Signature
  verify : VerifyingKey → Octets → Signature → Bool
  toBytes : Signature → Octets
  fromSlice : Octets → Except String Signature
  toPublicKeyPem : VerifyingKey → Except String String
  fromPublicKeyPem : String → Except String VerifyingKey
  base64Encode : Octets → String
  base64Decode : String → Except String Octets

inductive VerifyOutcome
  | valid
  | unsigned
  | forged (reason : String)
  | malformed (reason : String)
  deriving DecidableEq

section Verifying

variable (S : Ed25519) (F : FloatText)

def Ed25519.signReport (report : GraduationReport) (key : S.SigningKey) (signedAt : DateTime) :
    Except ReportError SignedGraduationReport := do
  let canonical := buildReportCanonicalJson F report
  let sig := S.sign key (utf8 canonical)
  let pubkeyPem ← (S.toPublicKeyPem (S.verifyingKey key)).mapError .pem
  return { report, reportCanonicalJson := canonical,
           signature := some (S.base64Encode (S.toBytes sig)), algorithm := "ed25519",
           keyId := reportKeyId, pubkeyPem := some pubkeyPem, signedAt := some signedAt }

def unsignedReport (report : GraduationReport) : SignedGraduationReport where
  report := report
  reportCanonicalJson := buildReportCanonicalJson F report
  signature := none
  algorithm := "ed25519"
  keyId := reportKeyId
  pubkeyPem := none
  signedAt := none

def Ed25519.verifyReport (signed : SignedGraduationReport) (pubkeyPemOverride : Option String) :
    VerifyOutcome :=
  if buildReportCanonicalJson F signed.report ≠ signed.reportCanonicalJson then
    .forged "structured report does not match its canonical JSON"
  else
    match signed.signature with
    | none => .unsigned
    | some sigB64 =>
      match pubkeyPemOverride.or signed.pubkeyPem with
      | none => .malformed "signed report has no embedded pubkey_pem and no override supplied"
      | some pem =>
        match S.fromPublicKeyPem pem with
        | .error e => .malformed ("public key PEM: " ++ e)
        | .ok key =>
          match S.base64Decode sigB64 with
          | .error e => .malformed ("signature base64: " ++ e)
          | .ok raw =>
            match S.fromSlice raw with
            | .error e => .malformed ("signature bytes: " ++ e)
            | .ok sig =>
              if S.verify key (utf8 signed.reportCanonicalJson) sig then .valid
              else .forged "ed25519 verification failed"

/-- A report file is the indented text and a line feed. -/
def renderReport (signed : SignedGraduationReport) : String :=
  String.ofList (layOut F Layout.pretty 0 signed.toJson ++ ['\n'])

def parseReport (raw : String) : Option SignedGraduationReport :=
  (parse F raw.toList).bind SignedGraduationReport.ofJson?

/-- The signature that a reader finds in a report. -/
def Ed25519.signatureOf (s : SignedGraduationReport) : Option S.Signature := do
  let raw ← (S.base64Decode (← s.signature)).toOption
  (S.fromSlice raw).toOption

/-- A signature made for a key and a message. -/
def Ed25519.Made (vk : S.VerifyingKey) (m : Octets) (sig : S.Signature) : Prop :=
  ∃ key, S.verifyingKey key = vk ∧ S.sign key m = sig

/-- The scheme idealised: a signature verifies where it was made, and was made for one
key and one message. The texts of keys and signatures are read back. -/
structure Ed25519.Ideal : Prop where
  verify_iff : ∀ vk m sig, S.verify vk m sig = true ↔ S.Made vk m sig
  made_once : ∀ {vk vk' m m' sig}, S.Made vk m sig → S.Made vk' m' sig → vk = vk' ∧ m = m'
  slice : ∀ sig, S.fromSlice (S.toBytes sig) = .ok sig
  pem : ∀ vk, ∃ text, S.toPublicKeyPem vk = .ok text ∧ S.fromPublicKeyPem text = .ok vk
  base64 : ∀ bs, S.base64Decode (S.base64Encode bs) = .ok bs

/-- The holder of the key has signed the report, with the signature found in `s`. -/
def Ed25519.SignedBy (key : S.SigningKey) (report : GraduationReport)
    (s : SignedGraduationReport) : Prop :=
  ∃ signedAt signed, S.signReport F report key signedAt = .ok signed ∧
    S.signatureOf signed = S.signatureOf s ∧ (S.signatureOf s).isSome

variable {S F}

theorem verifyReport_valid_iff {s : SignedGraduationReport} {pinned : Option String} :
    S.verifyReport F s pinned = .valid ↔
      buildReportCanonicalJson F s.report = s.reportCanonicalJson ∧
        ∃ pem ∈ pinned.or s.pubkeyPem, ∃ vk, S.fromPublicKeyPem pem = .ok vk ∧
          ∃ sig ∈ S.signatureOf s, S.verify vk (utf8 s.reportCanonicalJson) sig = true := by
  unfold Ed25519.verifyReport Ed25519.signatureOf
  by_cases hmatch : buildReportCanonicalJson F s.report = s.reportCanonicalJson
  · rw [if_neg (not_not.mpr hmatch)]
    cases hsig : s.signature with
    | none => simp
    | some sigB64 =>
      cases hpem : pinned.or s.pubkeyPem with
      | none => simp
      | some pem =>
        cases hkey : S.fromPublicKeyPem pem with
        | error e => simp [hkey]
        | ok vk =>
          cases hraw : S.base64Decode sigB64 with
          | error e => simp [hkey, hraw, Except.toOption]
          | ok raw =>
            cases hslice : S.fromSlice raw with
            | error e => simp [hkey, hraw, hslice, Except.toOption]
            | ok sig =>
              simp only [hkey, hraw, hslice]
              by_cases hv : S.verify vk (utf8 s.reportCanonicalJson) sig = true
              · simp [hv, hmatch, hkey, hraw, hslice, Except.toOption]
              · simp [hv, hmatch, hkey, hraw, hslice, Except.toOption]
  · rw [if_pos hmatch]
    simp [hmatch]

/-- The last check, reached with a key and a signature. -/
theorem verifyReport_found {s : SignedGraduationReport} {pinned : Option String} {pem : String}
    {vk : S.VerifyingKey} {sig : S.Signature}
    (hmatch : buildReportCanonicalJson F s.report = s.reportCanonicalJson)
    (hpem : pem ∈ pinned.or s.pubkeyPem) (hkey : S.fromPublicKeyPem pem = .ok vk)
    (hsig : sig ∈ S.signatureOf s) :
    S.verifyReport F s pinned =
      if S.verify vk (utf8 s.reportCanonicalJson) sig then .valid
      else .forged "ed25519 verification failed" := by
  rw [Option.mem_def] at hpem hsig
  simp only [Ed25519.signatureOf, Option.bind_eq_bind, Option.bind_eq_some_iff] at hsig
  obtain ⟨sigB64, hb64, raw, hraw, hslice⟩ := hsig
  have hraw' : S.base64Decode sigB64 = .ok raw := Fallible.ok_of_toOption hraw
  have hslice' : S.fromSlice raw = .ok sig := Fallible.ok_of_toOption hslice
  rw [Ed25519.verifyReport, if_neg (not_not.mpr hmatch), hb64, hpem]
  simp only [hkey, hraw', hslice']

theorem buildReportCanonicalJson_inj {r r' : GraduationReport} (h : r.Held) (h' : r'.Held)
    (he : buildReportCanonicalJson F r = buildReportCanonicalJson F r') : r = r' := by
  have hjson : r.toJson = r'.toJson := print_injective F (String.ofList_injective he)
  have hr := GraduationReport.ofJson?_toJson h
  rw [hjson, GraduationReport.ofJson?_toJson h'] at hr
  exact (Option.some.inj hr).symm

theorem parseReport_renderReport {s : SignedGraduationReport} (h : s.Held) :
    parseReport F (renderReport F s) = some s := by
  have hfeed : ∀ c ∈ ['\n'], isWhitespace c = true := by simp [isWhitespace]
  rw [parseReport, renderReport, String.toList_ofList,
    parse_layOut F Layout.pretty s.toJson hfeed, Option.bind_some,
    SignedGraduationReport.ofJson?_toJson h]

theorem parseReport_printText {s : SignedGraduationReport} (h : s.Held) :
    parseReport F (printText F s.toJson) = some s := by
  rw [parseReport, printText, String.toList_ofList, parse_print, Option.bind_some,
    SignedGraduationReport.ofJson?_toJson h]

theorem signReport_ideal (hS : S.Ideal) (report : GraduationReport) (key : S.SigningKey)
    (signedAt : DateTime) :
    ∃ signed pem, S.signReport F report key signedAt = .ok signed ∧ signed.report = report ∧
      signed.reportCanonicalJson = buildReportCanonicalJson F report ∧
      signed.signedAt = some signedAt ∧ signed.pubkeyPem = some pem ∧
      S.fromPublicKeyPem pem = .ok (S.verifyingKey key) ∧
      S.signatureOf signed = some (S.sign key (utf8 (buildReportCanonicalJson F report))) := by
  obtain ⟨pem, hto, hfrom⟩ := hS.pem (S.verifyingKey key)
  refine ⟨_, pem, by simp only [Ed25519.signReport, hto]; rfl, rfl, rfl, rfl, rfl, hfrom, ?_⟩
  simp [Ed25519.signatureOf, hS.base64, hS.slice, Except.toOption]

theorem signReport_verifies (hS : S.Ideal) {report : GraduationReport} {key : S.SigningKey}
    {signedAt : DateTime} {signed : SignedGraduationReport} {pinned : Option String}
    (h : S.signReport F report key signedAt = .ok signed)
    (hp : ∀ pem ∈ pinned, S.fromPublicKeyPem pem = .ok (S.verifyingKey key)) :
    S.verifyReport F signed pinned = .valid := by
  obtain ⟨_, pem, hok, hreport, hcanonical, -, hpem, hfrom, hsig⟩ :=
    signReport_ideal hS (F := F) report key signedAt
  rw [h] at hok
  obtain rfl := Except.ok.inj hok
  have hmade : S.verify (S.verifyingKey key) (utf8 signed.reportCanonicalJson)
      (S.sign key (utf8 (buildReportCanonicalJson F report))) = true :=
    (hS.verify_iff _ _ _).mpr ⟨key, rfl, by rw [hcanonical]⟩
  have hkey : ∃ text ∈ pinned.or signed.pubkeyPem,
      S.fromPublicKeyPem text = .ok (S.verifyingKey key) := by
    cases pinned with
    | none => exact ⟨pem, hpem, hfrom⟩
    | some text => exact ⟨text, rfl, hp text rfl⟩
  obtain ⟨text, htext, hvk⟩ := hkey
  rw [verifyReport_found (by rw [hreport, hcanonical]) htext hvk hsig, if_pos hmade]

/-- A report in which a signature is found valid is one that the key's holder signed, and
nobody signed another with that signature. -/
theorem signedBy_of_valid (hS : S.Ideal) {s : SignedGraduationReport} {pem : String}
    (h : S.verifyReport F s (some pem) = .valid) :
    ∃ key, S.fromPublicKeyPem pem = .ok (S.verifyingKey key) ∧ S.SignedBy F key s.report s := by
  obtain ⟨hmatch, text, htext, vk, hvk, sig, hsig, hverify⟩ := verifyReport_valid_iff.mp h
  obtain rfl : pem = text := by simpa using htext
  obtain ⟨key, rfl, hmade⟩ := (hS.verify_iff _ _ _).mp hverify
  obtain ⟨signed, _, hok, -, -, -, -, -, hfound⟩ :=
    signReport_ideal hS (F := F) s.report key ⟨0, 1, 1, 0, 0⟩
  rw [hmatch, hmade] at hfound
  exact ⟨key, hvk, _, signed, hok, by rw [hfound, hsig], by rw [hsig]; rfl⟩

theorem signedBy_unique (hS : S.Ideal) {s : SignedGraduationReport} {key key' : S.SigningKey}
    {r r' : GraduationReport} (hr : r.Held) (hr' : r'.Held) (h : S.SignedBy F key r s)
    (h' : S.SignedBy F key' r' s) : r' = r ∧ S.verifyingKey key' = S.verifyingKey key := by
  have hmade : ∀ {k : S.SigningKey} {report : GraduationReport}, S.SignedBy F k report s →
      S.signatureOf s = some (S.sign k (utf8 (buildReportCanonicalJson F report))) := by
    rintro k report ⟨signedAt, signed, hok, hsig, -⟩
    obtain ⟨_, _, hok', -, -, -, -, -, hfound⟩ := signReport_ideal hS (F := F) report k signedAt
    rw [hok] at hok'
    rw [← Except.ok.inj hok', hsig] at hfound
    exact hfound
  have heq := Option.some.inj ((hmade h').symm.trans (hmade h))
  obtain ⟨hkey, htext⟩ := hS.made_once ⟨key', rfl, heq⟩ ⟨key, rfl, rfl⟩
  exact ⟨buildReportCanonicalJson_inj hr' hr (utf8_injective htext), hkey⟩

/-- A signature does not carry over to another report or another text. -/
theorem verifyReport_changed (hS : S.Ideal) {s t : SignedGraduationReport}
    {pinned : Option String} (hs : s.report.Held) (ht : t.report.Held)
    (hsig : t.signature = s.signature) (hpem : t.pubkeyPem = s.pubkeyPem)
    (h : S.verifyReport F s pinned = .valid)
    (hne : t.report ≠ s.report ∨ t.reportCanonicalJson ≠ s.reportCanonicalJson) :
    ∃ reason, S.verifyReport F t pinned = .forged reason := by
  obtain ⟨hmatch, pem, hmem, vk, hvk, sig, hfound, hverify⟩ := verifyReport_valid_iff.mp h
  by_cases hagain : buildReportCanonicalJson F t.report = t.reportCanonicalJson
  · have htext : t.reportCanonicalJson ≠ s.reportCanonicalJson := by
      intro heq
      have hsame : t.report = s.report :=
        buildReportCanonicalJson_inj ht hs (hagain.trans (heq.trans hmatch.symm))
      exact hne.elim (fun hn => hn hsame) fun hn => hn heq
    have hfalse : ¬S.verify vk (utf8 t.reportCanonicalJson) sig = true := by
      intro hv
      have honce := hS.made_once ((hS.verify_iff _ _ _).mp hv) ((hS.verify_iff _ _ _).mp hverify)
      exact htext (utf8_injective honce.2)
    have hfound' : sig ∈ S.signatureOf t := by
      rw [Ed25519.signatureOf, hsig]
      exact hfound
    refine ⟨"ed25519 verification failed", ?_⟩
    rw [verifyReport_found hagain (by rw [hpem]; exact hmem) hvk hfound', if_neg hfalse]
  · exact ⟨"structured report does not match its canonical JSON", by
      rw [Ed25519.verifyReport, if_pos hagain]⟩

/-- A signed report is read back from its file and found valid, with the embedded key or
with the matching one pinned; the text that is signed determines the report; and what a
pinned key finds valid is a report that its holder signed, any change of which is found. -/
theorem signed_report_binds (hS : S.Ideal) :
    (∀ report key signedAt, report.Held → HeldTime signedAt →
      ∃ signed, S.signReport F report key signedAt = .ok signed ∧
        parseReport F (renderReport F signed) = some signed ∧
        parseReport F (printText F signed.toJson) = some signed ∧
        S.verifyReport F signed none = .valid ∧
        ∀ pem, S.fromPublicKeyPem pem = .ok (S.verifyingKey key) →
          S.verifyReport F signed (some pem) = .valid) ∧
    (∀ r r' : GraduationReport, r.Held → r'.Held →
      buildReportCanonicalJson F r = buildReportCanonicalJson F r' → r = r') ∧
    ∀ (s : SignedGraduationReport) (pem : String), s.report.Held →
      S.verifyReport F s (some pem) = .valid →
      (∃ key, S.fromPublicKeyPem pem = .ok (S.verifyingKey key) ∧ S.SignedBy F key s.report s ∧
        ∀ key' r', r'.Held → S.SignedBy F key' r' s →
          r' = s.report ∧ S.verifyingKey key' = S.verifyingKey key) ∧
      ∀ (report : GraduationReport) (canonical : String), report.Held →
        (report ≠ s.report ∨ canonical ≠ s.reportCanonicalJson) →
        ∃ reason, S.verifyReport F { s with report := report, reportCanonicalJson := canonical }
          (some pem) = .forged reason := by
  refine ⟨fun report key signedAt hr ht => ?_, fun r r' hr hr' => buildReportCanonicalJson_inj hr hr',
    fun s pem hs hvalid => ⟨?_, fun report canonical hr hne => ?_⟩⟩
  · obtain ⟨signed, pem, hok, hreport, -, hat, -⟩ := signReport_ideal hS (F := F) report key signedAt
    have hheld : signed.Held := by
      refine ⟨by rw [hreport]; exact hr, fun t hmem => ?_⟩
      rw [hat] at hmem
      rwa [← Option.some.inj hmem]
    exact ⟨signed, hok, parseReport_renderReport hheld, parseReport_printText hheld,
      signReport_verifies hS hok (by simp),
      fun text htext => signReport_verifies hS hok (by simpa using htext)⟩
  · obtain ⟨key, hkey, hsigned⟩ := signedBy_of_valid hS hvalid
    exact ⟨key, hkey, hsigned, fun key' r' hr' h' => signedBy_unique hS hs hr' hsigned h'⟩
  · exact verifyReport_changed hS hs hr rfl rfl hvalid hne

end Verifying

/-- A scheme of two keys whose signatures are the signed texts. -/
def plainScheme : Ed25519 where
  SigningKey := Bool
  VerifyingKey := Bool
  Signature := Bool × Octets
  verifyingKey := id
  sign key m := (key, m)
  verify vk m sig := sig.1 == vk && sig.2 == m
  toBytes sig := (if sig.1 then 1 else 0) :: sig.2
  fromSlice
    | [] => .error "signature error"
    | b :: m => .ok (b == 1, m)
  toPublicKeyPem vk := .ok (if vk then "1" else "0")
  fromPublicKeyPem text :=
    if text = "1" then .ok true else if text = "0" then .ok false else .error "PEM error"
  base64Encode := hexText
  base64Decode text := (hexDecode text.toList).elim (.error "Invalid byte") .ok

theorem plainScheme_ideal : plainScheme.Ideal where
  verify_iff := by
    rintro (vk : Bool) m ⟨key, text⟩
    constructor
    · intro h
      have hboth : (key == vk && text == m) = true := h
      simp only [Bool.and_eq_true, beq_iff_eq] at hboth
      exact ⟨key, hboth.1, Prod.ext rfl hboth.2.symm⟩
    · rintro ⟨signer, hk, h⟩
      obtain ⟨hkey, htext⟩ := Prod.mk.inj h
      have hvk : key = vk := hkey.symm.trans hk
      show (key == vk && text == m) = true
      rw [hvk, ← htext, beq_self_eq_true, beq_self_eq_true, Bool.and_true]
  made_once := by
    rintro vk vk' m m' sig ⟨key, hk, hm⟩ ⟨key', hk', hm'⟩
    obtain ⟨hkey, hmsg⟩ := Prod.mk.inj (hm.trans hm'.symm)
    exact ⟨hk.symm.trans (hkey.trans hk'), hmsg⟩
  slice := by
    rintro ⟨key, m⟩
    cases key <;> rfl
  pem := by
    intro vk
    cases vk
    · exact ⟨"0", rfl, rfl⟩
    · exact ⟨"1", rfl, rfl⟩
  base64 := by
    intro bs
    simp [plainScheme, hexText, hexDecode_hexEncode]

def reportTime : DateTime := ⟨2026, 6, 7, 0, 0⟩

/-- Ten requests, none of which would be blocked. -/
def cleanReport : GraduationReport :=
  GraduationReport.fromStats
    { total := 10, wouldDeny := 0, wouldPend := 0, allowed := 10, byIntent := [("PolicyDeny", 0)],
      topAgents := [("agent-a", 10)], windowStart := none, windowEnd := none } true reportTime

theorem heldTime_reportTime : HeldTime reportTime :=
  ⟨⟨by decide, by decide, by decide, by decide⟩, by decide⟩

theorem held_cleanReport (n : Nat) (hn : n < 2 ^ 64) :
    { cleanReport with wouldDeny := n }.Held where
  generatedAt := heldTime_reportTime
  windowStart := by simp [cleanReport, GraduationReport.fromStats]
  windowEnd := by simp [cleanReport, GraduationReport.fromStats]
  ledgerEntriesChecked := by simp [cleanReport, GraduationReport.fromStats]
  totalRequests := by simp [cleanReport, GraduationReport.fromStats]
  wouldDeny := hn
  wouldPend := by simp [cleanReport, GraduationReport.fromStats]
  allowed := by simp [cleanReport, GraduationReport.fromStats]
  byIntentCategory := by simp [cleanReport, GraduationReport.fromStats]
  topAgents := by simp [cleanReport, GraduationReport.fromStats]

/-- A count that is changed after signing. -/
theorem signed_report_binds_clean :
    ∃ signed, plainScheme.signReport bitsText cleanReport true reportTime = .ok signed ∧
      plainScheme.verifyReport bitsText signed (some "1") = .valid ∧
      ∃ reason, plainScheme.verifyReport bitsText
        { signed with report := { cleanReport with wouldDeny := 99 },
                      reportCanonicalJson := signed.reportCanonicalJson }
        (some "1") = .forged reason := by
  have hclean : cleanReport.Held := held_cleanReport 0 (by decide)
  have hbinds := signed_report_binds (F := bitsText) plainScheme_ideal
  obtain ⟨signed, hok, -, -, -, hpinned⟩ := hbinds.1 cleanReport true reportTime hclean
    heldTime_reportTime
  have hvalid := hpinned "1" rfl
  obtain ⟨_, _, hok', hreport, -⟩ :=
    signReport_ideal (F := bitsText) plainScheme_ideal cleanReport true reportTime
  rw [hok] at hok'
  rw [← Except.ok.inj hok'] at hreport
  have hchanged := (hbinds.2.2 signed "1" (by rw [hreport]; exact hclean) hvalid).2
    { cleanReport with wouldDeny := 99 } signed.reportCanonicalJson
    (held_cleanReport 99 (by decide))
  refine ⟨signed, hok, hvalid, hchanged (Or.inl fun he => ?_)⟩
  have hcount := congrArg GraduationReport.wouldDeny (he.trans hreport)
  exact absurd hcount (by simp [cleanReport, GraduationReport.fromStats])

end ClavenarLite
