import ClavenarLite.Proxy.Registry

/-! The lists that an agent registry accepts, and what it finds in them. -/

namespace ClavenarLite

open Bytes Fallible Keyed Text

def isLabelChar (c : Char) : Bool :=
  ('0' ≤ c && c ≤ '9') || ('A' ≤ c && c ≤ 'Z') || ('a' ≤ c && c ≤ 'z') || c == '.' || c == '_' ||
    c == '-'

/-- A label has 1 to 63 characters. -/
structure IsLabel (s : String) : Prop where
  nonempty : 1 ≤ s.toList.length
  short : s.toList.length ≤ 63
  chars : ∀ c ∈ s.toList, isLabelChar c = true

def LabelCode (n : Nat) : Prop :=
  (48 ≤ n ∧ n ≤ 57) ∨ (65 ≤ n ∧ n ≤ 90) ∨ (97 ≤ n ∧ n ≤ 122) ∨ n = 46 ∨ n = 95 ∨ n = 45

theorem isLabelByte_iff (b : UInt8) : isLabelByte b = true ↔ LabelCode b.toNat := by
  simp [isLabelByte, LabelCode, UInt8.le_iff_toNat_le, ← UInt8.toNat_inj, or_assoc]

theorem isLabelChar_iff (c : Char) : isLabelChar c = true ↔ LabelCode c.val.toNat := by
  simp [isLabelChar, LabelCode, Char.le_def, UInt32.le_iff_toNat_le, Char.ext_iff,
    ← UInt32.toNat_inj, or_assoc]

theorem leadByte_not_label {n : Nat} (h : 128 ≤ n) (h' : n < 256) :
    ¬ LabelCode (UInt8.ofNat n).toNat := by
  rw [UInt8.toNat_ofNat_of_lt' h', LabelCode]
  omega

/-- Only the characters of labels have the bytes of labels. -/
theorem labelBytes_iff (c : Char) : (∀ b ∈ String.utf8EncodeChar c, isLabelByte b = true) ↔
    isLabelChar c = true := by
  simp only [isLabelByte_iff, isLabelChar_iff]
  unfold String.utf8EncodeChar
  generalize c.val.toNat = v
  have hlarge : 128 ≤ v → ¬ LabelCode v := by
    unfold LabelCode
    omega
  simp only
  split_ifs with h1 h2 h3
  · simp [UInt8.toNat_ofNat_of_lt' (show v < 256 by omega)]
  · refine iff_of_false (fun h => ?_) (hlarge (by omega))
    exact leadByte_not_label (by omega) (by omega) (h _ List.mem_cons_self)
  · refine iff_of_false (fun h => ?_) (hlarge (by omega))
    exact leadByte_not_label (by omega) (by omega) (h _ List.mem_cons_self)
  · refine iff_of_false (fun h => ?_) (hlarge (by omega))
    exact leadByte_not_label (by omega) (by omega) (h _ List.mem_cons_self)

theorem labelChar_length {c : Char} (h : isLabelChar c = true) :
    (String.utf8EncodeChar c).length = 1 := by
  rw [isLabelChar_iff, LabelCode] at h
  unfold String.utf8EncodeChar
  rw [if_pos (show c.val.toNat ≤ 0x7f by omega)]
  rfl

theorem utf8_chars (s : String) : utf8 s = s.toList.flatMap String.utf8EncodeChar := by
  rw [← utf8_ofList, String.ofList_toList]

theorem byteLength_label {s : String} (h : ∀ c ∈ s.toList, isLabelChar c = true) :
    byteLength s = s.toList.length := by
  rw [byteLength, utf8_chars, List.length_flatMap,
    List.map_congr_left fun c hc => labelChar_length (h c hc)]
  simp

theorem validLabel_iff (s : String) : validLabel s = true ↔ IsLabel s := by
  have hchars : (utf8 s).all isLabelByte = true ↔ ∀ c ∈ s.toList, isLabelChar c = true := by
    rw [utf8_chars, List.all_eq_true]
    simp only [List.mem_flatMap, forall_exists_index, and_imp, ← labelBytes_iff]
    constructor
    · exact fun h c hc b hb => h b c hc hb
    · exact fun h b c hc hb => h c hc b hb
  have hempty : s.isEmpty = false ↔ 1 ≤ s.toList.length := by
    rw [← Bool.not_eq_true, String.isEmpty_iff, ← String.toList_eq_nil_iff, Nat.one_le_iff_ne_zero,
      ne_eq, List.length_eq_zero_iff]
  simp only [validLabel, Bool.and_eq_true, Bool.not_eq_true', hchars, hempty, decide_eq_true_eq]
  constructor
  · rintro ⟨⟨hn, hs⟩, hc⟩
    rw [byteLength_label hc] at hs
    exact ⟨hn, hs, hc⟩
  · intro h
    rw [byteLength_label h.chars]
    exact ⟨⟨h.nonempty, h.short⟩, h.chars⟩

theorem IsLabel.not_mem {s : String} (h : IsLabel s) {c : Char} (hc : isLabelChar c = false) :
    c ∉ s.toList := by
  intro hmem
  exact absurd ((h.chars c hmem).symm.trans hc) (by simp)

theorem AgentIdentity.labels (identity : AgentIdentity) :
    IsLabel identity.tenant ∧ IsLabel identity.agentId :=
  ⟨(validLabel_iff _).mp identity.valid.1, (validLabel_iff _).mp identity.valid.2⟩

theorem splitOnce_slash {tenant agent : String} (h : IsLabel tenant) :
    splitOnce '/' (tenant ++ "/" ++ agent) = some (tenant, agent) :=
  splitOnce_iff.mpr ⟨rfl, h.not_mem rfl⟩

theorem AgentIdentity.eq_of {identity identity' : AgentIdentity}
    (ht : identity.tenant = identity'.tenant) (ha : identity.agentId = identity'.agentId) :
    identity = identity' := by
  obtain ⟨tenant, agentId, _⟩ := identity
  obtain rfl : tenant = identity'.tenant := ht
  obtain rfl : agentId = identity'.agentId := ha
  rfl

theorem canonicalKey_injective : Function.Injective AgentIdentity.canonicalKey := by
  intro identity identity' h
  have hsplit := (splitOnce_slash identity.labels.1).symm.trans
    ((congrArg (splitOnce '/') h).trans (splitOnce_slash identity'.labels.1))
  obtain ⟨ht, ha⟩ := Prod.mk.inj (Option.some.inj hsplit)
  exact AgentIdentity.eq_of ht ha

/-- The entry `tenant/agent:token`, where blanks around the two parts do not count. -/
structure EntryFor (raw tenant agent token : String) : Prop where
  parts : ∃ id t, trim raw = id ++ ":" ++ t ∧ ':' ∉ id.toList ∧
    trim id = tenant ++ "/" ++ agent ∧ trim t = token
  tenant : IsLabel tenant
  agent : IsLabel agent
  token : token ≠ ""

theorem identityNew_iff {tenant agent : String} {identity : AgentIdentity} :
    AgentIdentity.new tenant agent = .ok identity ↔
      tenant = identity.tenant ∧ agent = identity.agentId := by
  unfold AgentIdentity.new
  constructor
  · intro h
    split_ifs at h
    obtain rfl := Except.ok.inj h
    exact ⟨rfl, rfl⟩
  · rintro ⟨rfl, rfl⟩
    rw [dif_pos identity.valid.1, dif_pos identity.valid.2]

theorem agentIdentityOf_iff {id : String} {identity : AgentIdentity} :
    agentIdentityOf id = .ok identity ↔ id = identity.tenant ++ "/" ++ identity.agentId := by
  unfold agentIdentityOf
  constructor
  · intro h
    cases hs : splitOnce '/' id with
    | none => simp [hs] at h
    | some p =>
      obtain ⟨tenant, agent⟩ := p
      simp only [hs] at h
      split_ifs at h
      obtain ⟨rfl, rfl⟩ := identityNew_iff.mp h
      exact (splitOnce_iff.mp hs).1
  · rintro rfl
    rw [splitOnce_slash identity.labels.1]
    simp only
    rw [if_neg (identity.labels.2.not_mem rfl)]
    exact identityNew_iff.mpr ⟨rfl, rfl⟩

/-- An entry has one reading. -/
theorem EntryFor.unique {raw tenant agent token tenant' agent' token' : String}
    (h : EntryFor raw tenant agent token) (h' : EntryFor raw tenant' agent' token') :
    tenant = tenant' ∧ agent = agent' ∧ token = token' := by
  obtain ⟨id, t, hraw, hcolon, hid, rfl⟩ := h.parts
  obtain ⟨id', t', hraw', hcolon', hid', rfl⟩ := h'.parts
  have hsplit : splitOnce ':' (trim raw) = some (id, t) := splitOnce_iff.mpr ⟨hraw, hcolon⟩
  have hsplit' : splitOnce ':' (trim raw) = some (id', t') := splitOnce_iff.mpr ⟨hraw', hcolon'⟩
  obtain ⟨rfl, rfl⟩ := Prod.mk.inj (Option.some.inj (hsplit.symm.trans hsplit'))
  have hslash := (splitOnce_slash h.tenant).symm.trans
    ((congrArg (splitOnce '/') (hid.symm.trans hid')).trans (splitOnce_slash h'.tenant))
  obtain ⟨rfl, rfl⟩ := Prod.mk.inj (Option.some.inj hslash)
  exact ⟨rfl, rfl, rfl⟩

theorem parseEntry_blank {raw : String} (h : (trim raw).isEmpty = true)
    (m : AList fun _ : String => AgentIdentity) : AgentRegistry.parseEntry m raw = .ok m :=
  if_pos h

/-- An entry is added if it has the form, under a token that is not taken. -/
theorem parseEntry_iff {raw : String} (h : (trim raw).isEmpty = false)
    {m m' : AList fun _ : String => AgentIdentity} : AgentRegistry.parseEntry m raw = .ok m' ↔
      ∃ identity token, EntryFor raw identity.tenant identity.agentId token ∧
        m.lookup token = none ∧ m' = m.insert token identity := by
  unfold AgentRegistry.parseEntry
  simp only [h, Bool.false_eq_true, if_false]
  constructor
  · intro hp
    cases hs : splitOnce ':' (trim raw) with
    | none => simp [hs] at hp
    | some p =>
      obtain ⟨id, t⟩ := p
      simp only [hs] at hp
      split_ifs at hp with ht
      obtain ⟨identity, hidentity, hp⟩ := bind_ok hp
      cases hl : m.lookup (trim t) with
      | some existing => simp [hl] at hp
      | none =>
        simp only [hl, Except.ok.injEq] at hp
        obtain ⟨hraw, hcolon⟩ := splitOnce_iff.mp hs
        refine ⟨identity, trim t, ⟨⟨id, t, hraw, hcolon, agentIdentityOf_iff.mp hidentity, rfl⟩,
          identity.labels.1, identity.labels.2, ?_⟩, hl, hp.symm⟩
        exact fun he => ht (String.isEmpty_iff.mpr he)
  · rintro ⟨identity, token, hentry, hl, rfl⟩
    obtain ⟨id, t, hraw, hcolon, hid, rfl⟩ := hentry.parts
    have ht : (trim t).isEmpty = false := by
      rw [← Bool.not_eq_true, String.isEmpty_iff]
      exact hentry.token
    rw [splitOnce_iff.mpr ⟨hraw, hcolon⟩]
    simp only [ht, Bool.false_eq_true, if_false]
    rw [agentIdentityOf_iff.mpr hid, ok_bind, hl]

def filled (raws : List String) : List String := raws.filter fun raw => !(trim raw).isEmpty

/-- The entries have no token in common. -/
def Apart (raw raw' : String) : Prop :=
  ∀ tenant agent tenant' agent' token token', EntryFor raw tenant agent token →
    EntryFor raw' tenant' agent' token' → token ≠ token'

theorem filled_cons_blank {raw : String} (h : (trim raw).isEmpty = true) (raws : List String) :
    filled (raw :: raws) = filled raws := by
  simp [filled, h]

theorem filled_cons {raw : String} (h : (trim raw).isEmpty = false) (raws : List String) :
    filled (raw :: raws) = raw :: filled raws := by
  simp [filled, h]

/-- What a list of entries that is read says, and what is read from it. -/
theorem foldlM_parseEntry_ok {raws : List String} {m m' : AList fun _ : String => AgentIdentity}
    (h : raws.foldlM AgentRegistry.parseEntry m = .ok m') :
    (∀ raw ∈ filled raws, ∃ tenant agent token, EntryFor raw tenant agent token ∧
      m.lookup token = none) ∧ (filled raws).Pairwise Apart ∧
    ∀ token identity, m'.lookup token = some identity ↔ m.lookup token = some identity ∨
      ∃ raw ∈ filled raws, EntryFor raw identity.tenant identity.agentId token := by
  induction raws generalizing m with
  | nil =>
    obtain rfl := Except.ok.inj h
    simp [filled]
  | cons raw raws ih =>
    rw [List.foldlM_cons] at h
    obtain ⟨m₁, hstep, h⟩ := bind_ok h
    obtain ⟨hentries, hapart, hlookup⟩ := ih h
    cases hblank : (trim raw).isEmpty with
    | true =>
      obtain rfl := Except.ok.inj ((parseEntry_blank hblank m).symm.trans hstep)
      rw [filled_cons_blank hblank]
      exact ⟨hentries, hapart, hlookup⟩
    | false =>
      obtain ⟨identity, token, hentry, hfree, rfl⟩ := (parseEntry_iff hblank).mp hstep
      have hother : ∀ token', (m.insert token identity).lookup token' = none →
          token' ≠ token ∧ m.lookup token' = none := by
        intro token' hnone
        by_cases he : token' = token
        · subst he
          rw [AList.lookup_insert] at hnone
          exact absurd hnone (by simp)
        · rw [AList.lookup_insert_ne he] at hnone
          exact ⟨he, hnone⟩
      rw [filled_cons hblank]
      refine ⟨?_, ?_, ?_⟩
      · intro raw' hraw'
        rcases List.mem_cons.mp hraw' with rfl | hraw'
        · exact ⟨_, _, token, hentry, hfree⟩
        · obtain ⟨tenant, agent, token', he, hnone⟩ := hentries raw' hraw'
          exact ⟨tenant, agent, token', he, (hother token' hnone).2⟩
      · refine List.pairwise_cons.mpr ⟨?_, hapart⟩
        intro raw' hraw' tenant agent tenant' agent' token₁ token₂ h₁ h₂
        obtain ⟨_, _, token', he, hnone⟩ := hentries raw' hraw'
        rw [(h₁.unique hentry).2.2, (h₂.unique he).2.2]
        exact (hother token' hnone).1.symm
      · intro token' identity'
        rw [hlookup]
        by_cases he : token' = token
        · subst he
          rw [AList.lookup_insert]
          constructor
          · rintro (hi | ⟨raw', hraw', he⟩)
            · exact Or.inr ⟨raw, List.mem_cons_self, Option.some.inj hi ▸ hentry⟩
            · exact Or.inr ⟨raw', List.mem_cons_of_mem _ hraw', he⟩
          · rintro (hi | ⟨raw', hraw', he⟩)
            · exact absurd (hfree.symm.trans hi) (by simp)
            · rcases List.mem_cons.mp hraw' with rfl | hraw'
              · obtain ⟨ht, ha, _⟩ := hentry.unique he
                exact Or.inl (congrArg some (AgentIdentity.eq_of ht ha))
              · exact Or.inr ⟨raw', hraw', he⟩
        · rw [AList.lookup_insert_ne he]
          refine or_congr_right ?_
          constructor
          · rintro ⟨raw', hraw', he⟩
            exact ⟨raw', List.mem_cons_of_mem _ hraw', he⟩
          · rintro ⟨raw', hraw', hentry'⟩
            rcases List.mem_cons.mp hraw' with rfl | hraw'
            · exact absurd (hentry'.unique hentry).2.2 he
            · exact ⟨raw', hraw', hentry'⟩

/-- Entries of the form, with tokens that are free, are all read. -/
theorem foldlM_parseEntry_accepts {raws : List String} {m : AList fun _ : String => AgentIdentity}
    (hentries : ∀ raw ∈ filled raws, ∃ tenant agent token, EntryFor raw tenant agent token ∧
      m.lookup token = none) (hapart : (filled raws).Pairwise Apart) :
    ∃ m', raws.foldlM AgentRegistry.parseEntry m = .ok m' := by
  induction raws generalizing m with
  | nil => exact ⟨m, rfl⟩
  | cons raw raws ih =>
    rw [List.foldlM_cons]
    cases hblank : (trim raw).isEmpty with
    | true =>
      rw [filled_cons_blank hblank] at hentries hapart
      rw [parseEntry_blank hblank, ok_bind]
      exact ih hentries hapart
    | false =>
      rw [filled_cons hblank] at hentries hapart
      obtain ⟨hfirst, hapart⟩ := List.pairwise_cons.mp hapart
      obtain ⟨tenant, agent, token, hentry, hfree⟩ := hentries raw List.mem_cons_self
      let identity : AgentIdentity := ⟨tenant, agent, (validLabel_iff _).mpr hentry.tenant,
        (validLabel_iff _).mpr hentry.agent⟩
      have hstep : AgentRegistry.parseEntry m raw = .ok (m.insert token identity) :=
        (parseEntry_iff hblank).mpr ⟨identity, token, hentry, hfree, rfl⟩
      rw [hstep, ok_bind]
      refine ih (fun raw' hraw' => ?_) hapart
      obtain ⟨tenant', agent', token', he, hnone⟩ := hentries raw' (List.mem_cons_of_mem _ hraw')
      have hne : token' ≠ token := (hfirst raw' hraw' _ _ _ _ _ _ hentry he).symm
      exact ⟨tenant', agent', token', he, (AList.lookup_insert_ne hne).trans hnone⟩

/-- The list has an entry, all entries have the form, and no two share a token. -/
structure WellFormed (spec : String) : Prop where
  nonempty : filled (split ',' spec) ≠ []
  entries : ∀ raw ∈ filled (split ',' spec), ∃ tenant agent token, EntryFor raw tenant agent token
  apart : (filled (split ',' spec)).Pairwise Apart

theorem agents_parse_ok {spec : String} {registry : AgentRegistry}
    (h : AgentRegistry.parse spec = .ok registry) :
    (split ',' spec).foldlM AgentRegistry.parseEntry ∅ = .ok registry.byToken ∧
      registry.byToken.entries ≠ [] := by
  obtain ⟨byToken, hp, h⟩ := bind_ok h
  obtain rfl := Except.ok.inj h
  obtain ⟨m, hf, hp⟩ := bind_ok hp
  split_ifs at hp with he
  obtain rfl := Except.ok.inj hp
  exact ⟨hf, he⟩

theorem agents_lookup_iff {spec : String} {registry : AgentRegistry}
    (h : AgentRegistry.parse spec = .ok registry) (token : String) (identity : AgentIdentity) :
    registry.lookup token = some identity ↔
      ∃ raw ∈ filled (split ',' spec), EntryFor raw identity.tenant identity.agentId token := by
  obtain ⟨_, _, hlookup⟩ := foldlM_parseEntry_ok (agents_parse_ok h).1
  rw [AgentRegistry.lookup, findToken_eq, hlookup, AList.lookup_empty]
  simp

theorem agents_wellFormed {spec : String} {registry : AgentRegistry}
    (h : AgentRegistry.parse spec = .ok registry) : WellFormed spec := by
  obtain ⟨hf, hne⟩ := agents_parse_ok h
  obtain ⟨hentries, hapart, hlookup⟩ := foldlM_parseEntry_ok hf
  refine ⟨?_, ?_, hapart⟩
  · intro hnil
    obtain ⟨e, es, he⟩ := List.exists_cons_of_ne_nil hne
    have hfound : registry.byToken.lookup e.1 = some e.2 :=
      AList.mem_lookup_iff.mpr (he ▸ List.mem_cons_self)
    rw [hlookup, hnil, AList.lookup_empty] at hfound
    simp at hfound
  · intro raw hraw
    obtain ⟨tenant, agent, token, he, _⟩ := hentries raw hraw
    exact ⟨tenant, agent, token, he⟩

theorem WellFormed.parses {spec : String} (h : WellFormed spec) :
    ∃ registry, AgentRegistry.parse spec = .ok registry := by
  have hfree : ∀ raw ∈ filled (split ',' spec), ∃ tenant agent token,
      EntryFor raw tenant agent token ∧
        (∅ : AList fun _ : String => AgentIdentity).lookup token = none := by
    intro raw hraw
    obtain ⟨tenant, agent, token, he⟩ := h.entries raw hraw
    exact ⟨tenant, agent, token, he, AList.lookup_empty token⟩
  obtain ⟨m, hm⟩ := foldlM_parseEntry_accepts hfree h.apart
  have hne : m.entries ≠ [] := by
    intro hnil
    obtain ⟨raw, raws, hraws⟩ := List.exists_cons_of_ne_nil h.nonempty
    have hraw : raw ∈ filled (split ',' spec) := hraws ▸ List.mem_cons_self
    obtain ⟨tenant, agent, token, he⟩ := h.entries raw hraw
    let identity : AgentIdentity := ⟨tenant, agent, (validLabel_iff _).mpr he.tenant,
      (validLabel_iff _).mpr he.agent⟩
    have hfound : m.lookup token = some identity :=
      ((foldlM_parseEntry_ok hm).2.2 token identity).mpr (Or.inr ⟨raw, hraw, he⟩)
    have hmem := AList.mem_lookup_iff.mp hfound
    rw [hnil] at hmem
    exact List.not_mem_nil hmem
  refine ⟨⟨m⟩, ?_⟩
  unfold AgentRegistry.parse parseEntries
  rw [hm, ok_bind, if_neg hne]
  rfl

/-- The lookup, with the entries of the map visited in some order. -/
def lookupIn (order : List (Sigma fun _ : String => AgentIdentity)) (token : String) :
    Option AgentIdentity :=
  (order.find? fun e => constantTimeEq (utf8 token) (utf8 e.1)).map Sigma.snd

/-- The order in which a map is visited does not matter. -/
theorem lookupIn_perm {registry : AgentRegistry}
    {order : List (Sigma fun _ : String => AgentIdentity)}
    (h : order.Perm registry.byToken.entries) (token : String) :
    lookupIn order token = registry.lookup token := by
  have hkeys : order.NodupKeys := (List.perm_nodupKeys h).mpr registry.byToken.nodupKeys
  have hordered : lookupIn order token = (AList.mk order hkeys).lookup token :=
    findToken_eq token (AList.mk order hkeys)
  rw [hordered, AgentRegistry.lookup, findToken_eq]
  exact AList.perm_lookup h

/-- A registry accepts the well-formed lists, finds in one exactly what its
entries say, and identities are told apart by their keys. -/
theorem agents_parse_exact (spec : String) :
    ((∃ registry, AgentRegistry.parse spec = .ok registry) ↔ WellFormed spec) ∧
    (∀ registry, AgentRegistry.parse spec = .ok registry →
      ∀ order, order.Perm registry.byToken.entries → ∀ token identity,
        (lookupIn order token = some identity ↔ registry.lookup token = some identity) ∧
        (registry.lookup token = some identity ↔ ∃ raw ∈ filled (split ',' spec),
          EntryFor raw identity.tenant identity.agentId token)) ∧
    Function.Injective AgentIdentity.canonicalKey := by
  refine ⟨⟨?_, WellFormed.parses⟩, ?_, canonicalKey_injective⟩
  · intro h
    obtain ⟨_, hp⟩ := h
    exact agents_wellFormed hp
  · intro registry h order hp token identity
    exact ⟨by rw [lookupIn_perm hp], agents_lookup_iff h token identity⟩

end ClavenarLite
