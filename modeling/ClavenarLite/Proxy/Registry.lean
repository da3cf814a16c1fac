import ClavenarLite.Lib.Fallible
import ClavenarLite.Lib.Keyed
import ClavenarLite.Lib.Text

/-! The bearer tokens of agents and operators: the registries parsed at boot
and their lookup at request time. -/

namespace ClavenarLite

open Bytes Fallible Keyed Text

/-- Lower-case header names with the bytes of their values; a name may occur
more than once, and `get` sees its first value. -/
abbrev HeaderMap := List (String × Octets)

def HeaderMap.get (h : HeaderMap) (name : String) : Option Octets := List.lookup name h

def HeaderMap.containsKey (h : HeaderMap) (name : String) : Bool := (h.get name).isSome

def isVisibleAscii (b : UInt8) : Bool := (32 ≤ b && b < 127) || b == 9

/-- The value as text, if all its bytes are visible. -/
def headerStr (value : Octets) : Option String :=
  if value.all isVisibleAscii then fromUtf8 value else none

/-- The token after `Bearer ` in the authorization header. -/
def suppliedToken (headers : HeaderMap) : Option String :=
  ((headers.get "authorization").bind headerStr).bind (stripPrefix "Bearer ")

def isLabelByte (b : UInt8) : Bool :=
  (48 ≤ b && b ≤ 57) || (65 ≤ b && b ≤ 90) || (97 ≤ b && b ≤ 122) || b == 46 || b == 95 || b == 45

def validLabel (value : String) : Bool :=
  !value.isEmpty && byteLength value ≤ 63 && (utf8 value).all isLabelByte

structure AgentIdentity where
  tenant : String
  agentId : String
  valid : validLabel tenant = true ∧ validLabel agentId = true

/-- Why a registry is refused, with the values its message shows. -/
inductive RegistryError
  | badTenant (tenant : String)
  | badAgentId (agentId : String)
  | missingSeparator (entry : String)
  | emptyToken (id : String)
  | notTenantAgent (id : String)
  | noTenant (id : String)
  | duplicateToken (existing id : String)
  | empty

def AgentIdentity.new (tenant agentId : String) : Except RegistryError AgentIdentity :=
  if ht : validLabel tenant = true then
    if ha : validLabel agentId = true then .ok ⟨tenant, agentId, ht, ha⟩
    else .error (.badAgentId agentId)
  else .error (.badTenant tenant)

def AgentIdentity.canonicalKey (identity : AgentIdentity) : String :=
  identity.tenant ++ "/" ++ identity.agentId

/-- A stored value found by comparing the supplied bytes with every key. -/
def findToken {α : Type} (token : String) (byToken : AList fun _ : String => α) : Option α :=
  (byToken.entries.find? fun e => constantTimeEq (utf8 token) (utf8 e.1)).map Sigma.snd

/-- The entries of a comma-separated list, each added to those before it. -/
def parseEntries {α : Type} (parseEntry : (AList fun _ : String => α) → String →
    Except RegistryError (AList fun _ : String => α)) (spec : String) :
    Except RegistryError (AList fun _ : String => α) := do
  let byToken ← (split ',' spec).foldlM parseEntry ∅
  if byToken.entries = [] then .error .empty else .ok byToken

structure AgentRegistry where
  byToken : AList fun _ : String => AgentIdentity

def bearerAgent : AgentIdentity := ⟨"_legacy_unqualified", "bearer-agent", by decide +kernel⟩

def AgentRegistry.single (token : String) : AgentRegistry :=
  ⟨(∅ : AList fun _ : String => AgentIdentity).insert token bearerAgent⟩

/-- The message text after the registry's own name. -/
def RegistryError.agentMessage (debug : String → String) : RegistryError → String
  | .badTenant tenant => "tenant " ++ debug tenant ++ " must match [A-Za-z0-9._-]\x7b1,63\x7d"
  | .badAgentId agentId => "agent id " ++ debug agentId ++ " must match [A-Za-z0-9._-]\x7b1,63\x7d"
  | .missingSeparator entry => "agent registry entry missing ':' separator: " ++ debug entry
  | .emptyToken id => "agent registry entry " ++ debug id ++ " has empty token"
  | .notTenantAgent id => "agent registry key " ++ debug id ++ " must be tenant/agent"
  | .noTenant id => "agent registry key " ++ debug id ++
      " must be tenant/agent; use --token for explicit single-user compatibility"
  | .duplicateToken existing id => "agent registry has duplicate token shared by " ++
      debug existing ++ " and " ++ debug id
  | .empty => "agent registry is empty (no id:token pairs parsed)"

def agentIdentityOf (id : String) : Except RegistryError AgentIdentity :=
  match splitOnce '/' id with
  | some (tenant, agent) =>
    if '/' ∈ agent.toList then .error (.notTenantAgent id) else AgentIdentity.new tenant agent
  | none => .error (.noTenant id)

/-- One entry of the list, added to those before it. -/
def AgentRegistry.parseEntry (byToken : AList fun _ : String => AgentIdentity) (raw : String) :
    Except RegistryError (AList fun _ : String => AgentIdentity) :=
  let entry := trim raw
  if entry.isEmpty then .ok byToken
  else
    match splitOnce ':' entry with
    | none => .error (.missingSeparator entry)
    | some (id, token) =>
      let id := trim id
      let token := trim token
      if token.isEmpty then .error (.emptyToken id)
      else do
        let identity ← agentIdentityOf id
        match byToken.lookup token with
        | some existing => .error (.duplicateToken existing.canonicalKey id)
        | none => .ok (byToken.insert token identity)

def AgentRegistry.parse (spec : String) : Except RegistryError AgentRegistry := do
  let byToken ← parseEntries AgentRegistry.parseEntry spec
  return ⟨byToken⟩

def AgentRegistry.lookup (registry : AgentRegistry) (token : String) : Option AgentIdentity :=
  findToken token registry.byToken

structure TenantRegistry where
  byToken : AList fun _ : String => String

def RegistryError.tenantMessage (debug : String → String) : RegistryError → String
  | .missingSeparator entry => "decider registry entry missing ':' separator: " ++ debug entry
  | .emptyToken tenant => "decider registry entry " ++ debug tenant ++ " has empty token"
  | .duplicateToken existing tenant => "decider registry has duplicate token shared by " ++
      debug existing ++ " and " ++ debug tenant
  | .empty => "decider registry is empty (no tenant:token pairs parsed)"
  | e => e.agentMessage debug

def TenantRegistry.parseEntry (byToken : AList fun _ : String => String) (raw : String) :
    Except RegistryError (AList fun _ : String => String) :=
  let entry := trim raw
  if entry.isEmpty then .ok byToken
  else
    match splitOnce ':' entry with
    | none => .error (.missingSeparator entry)
    | some (tenant, token) => do
      let tenant := trim tenant
      let token := trim token
      let _ ← AgentIdentity.new tenant "operator"
      if token.isEmpty then .error (.emptyToken tenant)
      else
        match byToken.lookup token with
        | some existing => .error (.duplicateToken existing tenant)
        | none => .ok (byToken.insert token tenant)

def TenantRegistry.parse (spec : String) : Except RegistryError TenantRegistry := do
  let byToken ← parseEntries TenantRegistry.parseEntry spec
  return ⟨byToken⟩

def TenantRegistry.lookup (registry : TenantRegistry) (token : String) : Option String :=
  findToken token registry.byToken

/-- The operator's tenant, `none` where decisions are open to everyone. -/
def resolveOperatorTenant (deciders : Option TenantRegistry) (decideToken : Option String)
    (headers : HeaderMap) : Except String (Option String) :=
  let supplied := suppliedToken headers
  match deciders with
  | some registry =>
    match supplied.bind registry.lookup with
    | some tenant => .ok (some tenant)
    | none => .error "missing or invalid tenant-bearing operator token"
  | none =>
    match decideToken with
    | some expected =>
      if supplied.any fun token => constantTimeEq (utf8 token) (utf8 expected) then
        .ok (some "_legacy_unqualified")
      else .error "missing or invalid decide token"
    | none => .ok none

theorem findToken_eq {α : Type} (token : String) (byToken : AList fun _ : String => α) :
    findToken token byToken = byToken.lookup token := by
  unfold findToken
  cases h : byToken.entries.find? fun e => constantTimeEq (utf8 token) (utf8 e.1) with
  | none =>
    have hnot : token ∉ byToken := by
      intro hm
      obtain ⟨a, ha⟩ := Option.isSome_iff_exists.mp (AList.lookup_isSome.mpr hm)
      have hne := List.find?_eq_none.mp h _ (AList.mem_lookup_iff.mp ha)
      exact hne ((constantTimeEq_iff _ _).mpr rfl)
    exact (AList.lookup_eq_none.mpr hnot).symm
  | some e =>
    obtain ⟨k, a⟩ := e
    have hc := List.find?_some h
    have hk : token = k := utf8_injective ((constantTimeEq_iff _ _).mp hc)
    subst hk
    exact (AList.mem_lookup_iff.mpr (List.mem_of_find?_eq_some h)).symm

/-- The entry has the token after its first colon. -/
def EntryToken (raw token : String) : Prop :=
  (trim raw).isEmpty = false ∧ ∃ id t, splitOnce ':' (trim raw) = some (id, t) ∧ trim t = token

theorem agents_parseEntry_keys {m m' : AList fun _ : String => AgentIdentity} {raw k : String}
    (h : AgentRegistry.parseEntry m raw = .ok m') (hk : k ∈ m') : k ∈ m ∨ EntryToken raw k := by
  unfold AgentRegistry.parseEntry at h
  by_cases he : (trim raw).isEmpty = true
  · obtain rfl := Except.ok.inj ((if_pos he).symm.trans h)
    exact Or.inl hk
  · replace h := (if_neg he).symm.trans h
    cases hs : splitOnce ':' (trim raw) with
    | none =>
      rw [hs] at h
      exact absurd h (by simp)
    | some p =>
      obtain ⟨id, t⟩ := p
      simp only [hs] at h
      by_cases ht : (trim t).isEmpty = true
      · exact absurd ((if_pos ht).symm.trans h) (by simp)
      · replace h := (if_neg ht).symm.trans h
        cases hi : agentIdentityOf (trim id) with
        | error e =>
          rw [hi] at h
          exact absurd h (by simp [bind, Except.bind])
        | ok identity =>
          rw [hi] at h
          cases hl : m.lookup (trim t) with
          | some existing => exact absurd h (by simp [bind, Except.bind, hl])
          | none =>
            obtain rfl : m.insert (trim t) identity = m' := by
              simpa [bind, Except.bind, hl] using h
            rcases (AList.mem_insert m).mp hk with rfl | hk
            · exact Or.inr ⟨Bool.not_eq_true _ ▸ he, id, t, hs, rfl⟩
            · exact Or.inl hk

theorem tenants_parseEntry_keys {m m' : AList fun _ : String => String} {raw k : String}
    (h : TenantRegistry.parseEntry m raw = .ok m') (hk : k ∈ m') : k ∈ m ∨ EntryToken raw k := by
  unfold TenantRegistry.parseEntry at h
  by_cases he : (trim raw).isEmpty = true
  · obtain rfl := Except.ok.inj ((if_pos he).symm.trans h)
    exact Or.inl hk
  · replace h := (if_neg he).symm.trans h
    cases hs : splitOnce ':' (trim raw) with
    | none =>
      rw [hs] at h
      exact absurd h (by simp)
    | some p =>
      obtain ⟨id, t⟩ := p
      simp only [hs] at h
      cases hi : AgentIdentity.new (trim id) "operator" with
      | error e =>
        rw [hi] at h
        exact absurd h (by simp [bind, Except.bind])
      | ok identity =>
        rw [hi] at h
        by_cases ht : (trim t).isEmpty = true
        · exact absurd ((if_pos ht).symm.trans h) (by simp)
        · replace h := (if_neg ht).symm.trans h
          cases hl : m.lookup (trim t) with
          | some existing => exact absurd h (by simp [hl])
          | none =>
            obtain rfl : m.insert (trim t) (trim id) = m' := by simpa [hl] using h
            rcases (AList.mem_insert m).mp hk with rfl | hk
            · exact Or.inr ⟨Bool.not_eq_true _ ▸ he, id, t, hs, rfl⟩
            · exact Or.inl hk

theorem parseEntries_tokens {α : Type} {parseEntry : (AList fun _ : String => α) → String →
      Except RegistryError (AList fun _ : String => α)}
    (hstep : ∀ m raw m' k, parseEntry m raw = .ok m' → k ∈ m' → k ∈ m ∨ EntryToken raw k)
    {spec token : String} {byToken : AList fun _ : String => α}
    (h : parseEntries parseEntry spec = .ok byToken) (ht : (findToken token byToken).isSome) :
    ∃ raw ∈ split ',' spec, EntryToken raw token := by
  rw [findToken_eq, AList.lookup_isSome] at ht
  obtain ⟨m, hf, h⟩ := bind_ok h
  by_cases he : m.entries = []
  · exact absurd ((if_pos he).symm.trans h) (by simp)
  · obtain rfl := Except.ok.inj ((if_neg he).symm.trans h)
    refine foldlM_ok (P := fun m => ∀ k ∈ m, ∃ raw ∈ split ',' spec, EntryToken raw k) ?_ hf
      (fun k hk => absurd hk (AList.notMem_empty k)) token ht
    intro m₁ raw m₂ hraw hm hall k hk
    rcases hstep m₁ raw m₂ k hm hk with hk | hk
    · exact hall k hk
    · exact ⟨raw, hraw, hk⟩

theorem agents_parse_tokens {spec token : String} {registry : AgentRegistry}
    (h : AgentRegistry.parse spec = .ok registry) (hl : (registry.lookup token).isSome) :
    ∃ raw ∈ split ',' spec, EntryToken raw token := by
  obtain ⟨byToken, hp, h⟩ := bind_ok h
  obtain rfl := Except.ok.inj h
  exact parseEntries_tokens (fun _ _ _ _ => agents_parseEntry_keys) hp hl

theorem tenants_parse_tokens {spec token : String} {registry : TenantRegistry}
    (h : TenantRegistry.parse spec = .ok registry) (hl : (registry.lookup token).isSome) :
    ∃ raw ∈ split ',' spec, EntryToken raw token := by
  obtain ⟨byToken, hp, h⟩ := bind_ok h
  obtain rfl := Except.ok.inj h
  exact parseEntries_tokens (fun _ _ _ _ => tenants_parseEntry_keys) hp hl

theorem single_lookup {token supplied : String}
    (h : ((AgentRegistry.single token).lookup supplied).isSome) : supplied = token := by
  rw [AgentRegistry.lookup, findToken_eq, AList.lookup_isSome, AgentRegistry.single,
    AList.mem_insert] at h
  exact h.resolve_right (AList.notMem_empty supplied)

end ClavenarLite
