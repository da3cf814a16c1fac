import ClavenarLite.Lib.JsonOrder
import ClavenarLite.Lib.Keyed
import ClavenarLite.Ledger.Runs

/-! The pinned tool catalog of each agent key, and the alarm raised when a
later `tools/list` answer differs from it. -/

namespace ClavenarLite

open Bytes Keyed Sha TextJson

variable (F : FloatText)

/-- Tool name to hash of the canonical definition. -/
abbrev Catalog := AList fun _ : String => String

/-- Agent key to the catalog pinned for it. -/
abbrev ToolPinStore := AList fun _ : String => Catalog

def canonicalize (j : Json) : Octets := utf8 (printText F (sortKeys j))

def parsedTools (toolsListBody : Octets) : Option (List Json) := do
  let parsed ← fromSlice F toolsListBody
  let result ← parsed.json.get? "result"
  let tools ← result.get? "tools"
  tools.asArray?

/-- A member that is absent is written as null. -/
def canonicalDefinition (tool : Json) : Json :=
  .obj [("description", (tool.get? "description").getD .null),
    ("inputSchema", (tool.get? "inputSchema").getD .null)]

def toolHash (tool : Json) : String := hexText (sha256 (canonicalize F (canonicalDefinition tool)))

def toolName (tool : Json) : Option String := (tool.get? "name").bind Json.asStr?

def definitionHashes (toolsListBody : Octets) : Option Catalog := do
  let tools ← parsedTools F toolsListBody
  return tools.foldl (fun out tool =>
    match toolName tool with
    | none => out
    | some name => out.insert name (toolHash F tool)) ∅

def changedSince (pinned : Catalog) (name hash : String) : Option String :=
  match pinned.lookup name with
  | some pinnedHash =>
    if pinnedHash ≠ hash then some s!"tool '{name}' definition changed since pin" else none
  | none => some s!"tool '{name}' added since pin"

def removedSince (fresh : Catalog) (name : String) : Option String :=
  if name ∈ fresh then none else some s!"tool '{name}' removed since pin"

/-- The lines are sorted, so the order the maps are walked in does not show. -/
def diffAgainstPin (pinned fresh : Catalog) : List String :=
  (fresh.entries.filterMap (fun e => changedSince pinned e.1 e.2) ++
    pinned.keys.filterMap (removedSince fresh)).insertionSort (· ≤ ·)

def poisonedLog (agentId : String) (changes : List String) : LogRequest where
  agentId := agentId
  method := "tools/list"
  intentCategory := "SupplyChain"
  authorized := false
  reasoning :=
    "tool_schema_poisoned: upstream tools/list diverged from the pinned catalog — " ++
      "; ".intercalate changes
  policyDecision := some (.object [("signal", .str "tool_schema_poisoned")])
  correlationId := none

/-- Pin or compare, under the lock of the store: the row to append, if any. -/
def pinOrDiff (agentKey agentId : String) (body : Octets) (pins : ToolPinStore) :
    Option LogRequest × ToolPinStore :=
  match definitionHashes F body with
  | none => (none, pins)
  | some fresh =>
    match pins.lookup agentKey with
    | none => (none, pins.insert agentKey fresh)
    | some pinned =>
      let changes := diffAgainstPin pinned fresh
      if changes = [] then (none, pins) else (some (poisonedLog agentId changes), pins)

theorem pinOrDiff_log {agentKey agentId : String} {body : Octets} {pins pins' : ToolPinStore}
    {log : LogRequest} (h : pinOrDiff F agentKey agentId body pins = (some log, pins')) :
    ∃ changes, log = poisonedLog agentId changes := by
  unfold pinOrDiff at h
  cases hf : definitionHashes F body with
  | none => simp [hf] at h
  | some fresh =>
    cases hp : pins.lookup agentKey with
    | none => simp [hf, hp] at h
    | some pinned =>
      simp only [hf, hp] at h
      split_ifs at h
      · exact absurd (Prod.mk.inj h).1 (by simp)
      · exact ⟨_, (Option.some.inj (Prod.mk.inj h).1).symm⟩

structure Observation where
  agentKey : String
  agentId : String
  body : Octets
  oracle : Oracle

structure Observed where
  pins : ToolPinStore
  db : Db

/-- The row handed to the ledger; a failed append is only logged. -/
def observeToolsList (o : Observation) (s : Observed) : Option LogRequest × Observed :=
  match pinOrDiff F o.agentKey o.agentId o.body s.pins with
  | (none, pins) => (none, { s with pins })
  | (some log, pins) => (some log, ⟨pins, (Ledger.append F log o.oracle s.db).2⟩)

/-- The canonical bytes tell two documents apart unless they differ in the order
of members alone. -/
theorem canonicalize_eq_iff (v w : Document) :
    canonicalize F v.json = canonicalize F w.json ↔ v.json.Permuted w.json := by
  rw [← sortKeys_eq_iff]
  constructor
  · intro h
    exact print_injective F (String.ofList_injective (utf8_injective h))
  · intro h
    rw [canonicalize, canonicalize, h]

theorem changedSince_none {pinned : Catalog} {name hash : String} :
    changedSince pinned name hash = none ↔ pinned.lookup name = some hash := by
  unfold changedSince
  cases h : pinned.lookup name with
  | none => simp
  | some pinnedHash =>
    by_cases he : pinnedHash = hash
    · simp [he]
    · simp [he]

theorem removedSince_none {fresh : Catalog} {name : String} :
    removedSince fresh name = none ↔ name ∈ fresh := by
  unfold removedSince
  by_cases h : name ∈ fresh
  · simp [h]
  · simp [h]

theorem diffAgainstPin_nil {pinned fresh : Catalog} :
    diffAgainstPin pinned fresh = [] ↔ ∀ name, pinned.lookup name = fresh.lookup name := by
  have hsort : diffAgainstPin pinned fresh = [] ↔
      (∀ e ∈ fresh.entries, pinned.lookup e.1 = some e.2) ∧ ∀ name ∈ pinned, name ∈ fresh := by
    rw [← List.length_eq_zero_iff, diffAgainstPin, List.length_insertionSort,
      List.length_eq_zero_iff, List.append_eq_nil_iff, List.filterMap_eq_nil_iff,
      List.filterMap_eq_nil_iff]
    simp only [changedSince_none, removedSince_none, AList.mem_keys]
  rw [hsort]
  constructor
  · rintro ⟨hkept, hall⟩ name
    cases hf : fresh.lookup name with
    | some hash => exact hkept ⟨name, hash⟩ (AList.mem_lookup_iff.mp hf)
    | none =>
      have hnot : name ∉ pinned := fun hm => AList.lookup_eq_none.mp hf (hall name hm)
      exact AList.lookup_eq_none.mpr hnot
  · intro h
    refine ⟨fun e he => (h e.1).trans (AList.mem_lookup_iff.mpr he), ?_⟩
    intro name hm
    rw [← AList.lookup_isSome] at hm ⊢
    exact h name ▸ hm

/-- A named tool as a client sees it. -/
structure ToolListing where
  name : String
  description : Option Json
  inputSchema : Option Json

def listed (tool : Json) : Option ToolListing :=
  (toolName tool).map fun name => ⟨name, tool.get? "description", tool.get? "inputSchema"⟩

def listing (body : Octets) : Option (List ToolListing) :=
  (parsedTools F body).map (List.filterMap listed)

def ToolListing.definition (t : ToolListing) : Json :=
  .obj [("description", t.description.getD .null), ("inputSchema", t.inputSchema.getD .null)]

/-- The listing with absent members read as null. -/
def ToolListing.filled (t : ToolListing) : ToolListing where
  name := t.name
  description := some (t.description.getD .null)
  inputSchema := some (t.inputSchema.getD .null)

/-- No two named tools of the list share a name. -/
def NamesOnce (l : List ToolListing) : Prop := (l.map ToolListing.name).Nodup

def SpellsNoNull (l : List ToolListing) : Prop :=
  ∀ t ∈ l, t.description ≠ some .null ∧ t.inputSchema ≠ some .null

def Differs (fresh pinned : List ToolListing) : Prop :=
  ¬ (fresh.map ToolListing.filled).Perm (pinned.map ToolListing.filled)

/-- The list is the pinned one again, or neither repeats a name. -/
def Comparable (fresh pinned : List ToolListing) : Prop :=
  fresh.map ToolListing.filled = pinned.map ToolListing.filled ∨ NamesOnce fresh ∧ NamesOnce pinned

/-- The messages hashed for the tools of a list. -/
def definitionMessages (l : List ToolListing) : Set Octets :=
  { m | ∃ t ∈ l, m = canonicalize F t.definition }

def ToolListing.entry (t : ToolListing) : String × String :=
  (t.name, hexText (sha256 (canonicalize F t.definition)))

theorem perm_of_map {α β : Type*} {f : α → β} {l l' : List α}
    (hf : Set.InjOn f { x | x ∈ l ∨ x ∈ l' }) (h : (l.map f).Perm (l'.map f)) : l.Perm l' := by
  rcases isEmpty_or_nonempty α with hα | hα
  · rw [Subsingleton.elim l l']
  · have hinv := hf.leftInvOn_invFunOn
    have hback := h.map (Function.invFunOn f { x | x ∈ l ∨ x ∈ l' })
    have hl : (l.map f).map (Function.invFunOn f { x | x ∈ l ∨ x ∈ l' }) = l := by
      rw [List.map_map]
      exact (List.map_congr_left fun x hx => hinv (Or.inl hx)).trans (List.map_id' l)
    have hl' : (l'.map f).map (Function.invFunOn f { x | x ∈ l ∨ x ∈ l' }) = l' := by
      rw [List.map_map]
      exact (List.map_congr_left fun x hx => hinv (Or.inr hx)).trans (List.map_id' l')
    rwa [hl, hl'] at hback

theorem definitionHashes_eq (body : Octets) :
    definitionHashes F body =
      (listing F body).map fun l => fromEntries (l.map (ToolListing.entry F)) := by
  unfold definitionHashes listing
  cases parsedTools F body with
  | none => rfl
  | some tools =>
    refine congrArg some ?_
    show tools.foldl _ ∅ = fromEntries ((tools.filterMap listed).map (ToolListing.entry F))
    rw [fromEntries, List.foldl_map, List.foldl_filterMap]
    refine List.foldl_ext _ _ ∅ ?_
    intro out tool _
    unfold listed
    cases toolName tool with
    | none => rfl
    | some name => rfl

/-- The members of a listed tool are values, whatever the body. -/
theorem listing_canonical {body : Octets} {l : List ToolListing} (h : listing F body = some l) :
    ∀ t ∈ l, t.definition.Canonical := by
  obtain ⟨tools, htools, rfl⟩ := Option.map_eq_some_iff.mp h
  simp only [parsedTools, Option.bind_eq_bind, Option.bind_eq_some_iff] at htools
  obtain ⟨parsed, _, result, hr, ts, ht, hts⟩ := htools
  have hcan := ((parsed.canonical.get? hr).get? ht).asArray? hts
  have hmember : ∀ tool ∈ tools, ∀ key, ((tool.get? key).getD .null).Canonical := by
    intro tool hm key
    cases hg : tool.get? key with
    | none => exact .null
    | some j => exact (hcan tool hm).get? hg
  intro t hm
  obtain ⟨tool, htool, hl⟩ := List.mem_filterMap.mp hm
  obtain ⟨name, _, rfl⟩ := Option.map_eq_some_iff.mp hl
  refine .obj ?_ ?_
  · have hlt : "description" < "inputSchema" := String.lt_iff_toList_lt.mpr (by decide)
    exact List.pairwise_pair.mpr hlt
  · intro m hm
    rcases List.mem_cons.mp hm with rfl | hm
    · exact hmember tool htool "description"
    · obtain rfl := List.mem_singleton.mp hm
      exact hmember tool htool "inputSchema"

/-- The hash of a definition determines the definition. -/
theorem entry_injective {l : List ToolListing} (hc : ∀ t ∈ l, t.definition.Canonical)
    (hsha : Set.InjOn sha256 (definitionMessages F l)) {t t' : ToolListing} (ht : t ∈ l)
    (ht' : t' ∈ l) (h : t.entry F = t'.entry F) : t.filled = t'.filled := by
  obtain ⟨hname, hhash⟩ := Prod.mk.inj h
  have htext := hsha ⟨t, ht, rfl⟩ ⟨t', ht', rfl⟩ (hexText_injective hhash)
  simp only [canonicalize, sortKeys_self (hc t ht), sortKeys_self (hc t' ht')] at htext
  have hdef := print_injective F (String.ofList_injective (utf8_injective htext))
  simp only [ToolListing.definition, Json.obj.injEq, List.cons.injEq, Prod.mk.injEq,
    true_and, and_true] at hdef
  simp only [ToolListing.filled, hname, hdef.1, hdef.2]

/-- Catalogs of such lists differ exactly when the lists do. -/
theorem diffAgainstPin_listing {fresh pinned : List ToolListing} (h : Comparable fresh pinned)
    (hcf : ∀ t ∈ fresh, t.definition.Canonical)
    (hcp : ∀ t ∈ pinned, t.definition.Canonical)
    (hsha : Set.InjOn sha256 (definitionMessages F (fresh ++ pinned))) :
    diffAgainstPin (fromEntries (pinned.map (ToolListing.entry F)))
        (fromEntries (fresh.map (ToolListing.entry F))) ≠ [] ↔ Differs fresh pinned := by
  have hkeys : ∀ l : List ToolListing,
      (l.map (ToolListing.entry F)).map Prod.fst = l.map ToolListing.name :=
    fun l => List.map_map
  -- an entry is a function of the filled listing
  have hentry : ∀ l : List ToolListing, l.map (ToolListing.entry F) =
      (l.map ToolListing.filled).map (ToolListing.entry F) := by
    intro l
    rw [List.map_map]
    rfl
  refine not_congr ?_
  rw [diffAgainstPin_nil]
  rcases h with hsame | ⟨hf, hp⟩
  · rw [hentry pinned, hentry fresh, hsame]
    exact iff_of_true (fun _ => rfl) (List.Perm.refl _)
  rw [lookup_fromEntries_perm ((hkeys pinned).symm ▸ hp) ((hkeys fresh).symm ▸ hf), hentry pinned,
    hentry fresh]
  constructor
  · intro h
    refine (perm_of_map ?_ h).symm
    rintro x hx y hy hxy
    have hall : ∀ z, (z ∈ pinned.map ToolListing.filled ∨ z ∈ fresh.map ToolListing.filled) →
        ∃ t ∈ fresh ++ pinned, t.filled = z := by
      rintro z (hz | hz)
      · obtain ⟨t, ht, rfl⟩ := List.mem_map.mp hz
        exact ⟨t, List.mem_append_right _ ht, rfl⟩
      · obtain ⟨t, ht, rfl⟩ := List.mem_map.mp hz
        exact ⟨t, List.mem_append_left _ ht, rfl⟩
    obtain ⟨t, ht, rfl⟩ := hall x hx
    obtain ⟨t', ht', rfl⟩ := hall y hy
    refine entry_injective F ?_ hsha ht ht' hxy
    exact fun t ht => (List.mem_append.mp ht).elim (hcf t) (hcp t)
  · exact fun h => (h.map _).symm

theorem filled_injective {t t' : ToolListing}
    (h : t.description ≠ some .null ∧ t.inputSchema ≠ some .null)
    (h' : t'.description ≠ some .null ∧ t'.inputSchema ≠ some .null)
    (he : t.filled = t'.filled) : t = t' := by
  have hget : ∀ {a b : Option Json}, a ≠ some .null → b ≠ some .null →
      a.getD .null = b.getD .null → a = b := by
    intro a b ha hb hab
    cases a with
    | none =>
      cases b with
      | none => rfl
      | some b => exact absurd (congrArg some hab.symm) hb
    | some a =>
      cases b with
      | none => exact absurd (congrArg some hab) ha
      | some b => exact congrArg some hab
  obtain ⟨name, d, s⟩ := t
  obtain ⟨name', d', s'⟩ := t'
  simp only [ToolListing.filled, ToolListing.mk.injEq, Option.some.injEq] at he
  obtain ⟨rfl, hd, hs⟩ := he
  obtain rfl : d = d' := hget h.1 h'.1 hd
  obtain rfl : s = s' := hget h.2 h'.2 hs
  rfl

/-- Where no member is spelt null, reading absent members as null hides nothing. -/
theorem differs_iff {fresh pinned : List ToolListing} (hf : SpellsNoNull fresh)
    (hp : SpellsNoNull pinned) : Differs fresh pinned ↔ ¬ fresh.Perm pinned := by
  refine not_congr ⟨fun h => perm_of_map ?_ h, fun h => h.map _⟩
  have hall : ∀ t, (t ∈ fresh ∨ t ∈ pinned) → t.description ≠ some .null ∧
      t.inputSchema ≠ some .null := fun t ht => ht.elim (hf t) (hp t)
  exact fun t ht t' ht' he => filled_injective (hall t ht) (hall t' ht') he

/-- What an observation does to the pin of its own key. -/
def pinCell (o : Observation) (pin : Option Catalog) : Option LogRequest × Option Catalog :=
  match definitionHashes F o.body with
  | none => (none, pin)
  | some fresh =>
    match pin with
    | none => (none, some fresh)
    | some pinned =>
      let changes := diffAgainstPin pinned fresh
      if changes = [] then (none, pin) else (some (poisonedLog o.agentId changes), pin)

def Observed.pin (s : Observed) (key : String) : Option Catalog := s.pins.lookup key

theorem observe_pinCell (o : Observation) (s : Observed) :
    (observeToolsList F o s).1 = (pinCell F o (s.pin o.agentKey)).1 ∧
      ∀ k, (observeToolsList F o s).2.pin k =
        if k = o.agentKey then (pinCell F o (s.pin k)).2 else s.pin k := by
  have hpins : ∀ k, (observeToolsList F o s).2.pin k =
      (pinOrDiff F o.agentKey o.agentId o.body s.pins).2.lookup k := by
    intro k
    unfold observeToolsList
    generalize pinOrDiff F o.agentKey o.agentId o.body s.pins = r
    obtain ⟨log, pins⟩ := r
    cases log <;> rfl
  have hlog : (observeToolsList F o s).1 = (pinOrDiff F o.agentKey o.agentId o.body s.pins).1 := by
    unfold observeToolsList
    generalize pinOrDiff F o.agentKey o.agentId o.body s.pins = r
    obtain ⟨log, pins⟩ := r
    cases log <;> rfl
  simp only [hpins, hlog]
  unfold pinOrDiff pinCell Observed.pin
  cases definitionHashes F o.body with
  | none => exact ⟨rfl, fun k => (ite_self _).symm⟩
  | some fresh =>
    cases hpin : s.pins.lookup o.agentKey with
    | none =>
      refine ⟨rfl, ?_⟩
      intro k
      by_cases hk : k = o.agentKey
      · rw [if_pos hk, hk, hpin]
        exact AList.lookup_insert _
      · rw [if_neg hk]
        exact AList.lookup_insert_ne hk
    | some pinned =>
      by_cases hd : diffAgainstPin pinned fresh = []
      · simp only [if_pos hd]
        refine ⟨trivial, ?_⟩
        intro k
        by_cases hk : k = o.agentKey
        · rw [if_pos hk, hk, hpin]
          simp only [if_pos hd]
        · rw [if_neg hk]
      · simp only [if_neg hd]
        refine ⟨trivial, ?_⟩
        intro k
        by_cases hk : k = o.agentKey
        · rw [if_pos hk, hk, hpin]
          simp only [if_neg hd]
        · rw [if_neg hk]

theorem observe_local : Local Observation.agentKey (pinCell F) Observed.pin (fun _ => True)
    (observeToolsList F) where
  inv _ _ _ := trivial
  answer o s _ := (observe_pinCell F o s).1
  self o s _ := by rw [(observe_pinCell F o s).2, if_pos rfl]
  other o s k _ hk := by rw [(observe_pinCell F o s).2, if_neg hk]

/-- The ledger changes by the append of the alarm only. -/
theorem observe_db (o : Observation) (s : Observed) :
    (observeToolsList F o s).2.db =
      match (observeToolsList F o s).1 with
      | none => s.db
      | some log => (Ledger.append F log o.oracle s.db).2 := by
  unfold observeToolsList
  generalize pinOrDiff F o.agentKey o.agentId o.body s.pins = r
  obtain ⟨log, pins⟩ := r
  cases log <;> rfl

/-- The first list seen for the key that parses. -/
def firstListing (key : String) (seen : List Observation) : Option (List ToolListing) :=
  (seen.filter fun o => o.agentKey = key).findSome? fun o => listing F o.body

theorem pinCell_pin (o : Observation) (pin : Option Catalog) :
    (pinCell F o pin).2 = pin.or (definitionHashes F o.body) := by
  unfold pinCell
  cases definitionHashes F o.body with
  | none => exact (Option.or_none).symm
  | some fresh =>
    cases pin with
    | none => rfl
    | some pinned =>
      by_cases hd : diffAgainstPin pinned fresh = []
      · simp only [if_pos hd, Option.or_some]
        rfl
      · simp only [if_neg hd, Option.or_some]
        rfl

theorem final_pinCell (seen : List Observation) (pin : Option Catalog) :
    final (pinCell F) pin seen =
      pin.or (seen.findSome? fun o => definitionHashes F o.body) := by
  induction seen generalizing pin with
  | nil => exact (Option.or_none).symm
  | cons o rest ih =>
    rw [final_cons, ih, pinCell_pin, Option.or_assoc, List.findSome?_cons]
    cases definitionHashes F o.body <;> rfl

theorem findSome?_map {α β γ : Type*} (f : α → Option β) (g : β → γ) (l : List α) :
    (l.findSome? fun a => (f a).map g) = (l.findSome? f).map g := by
  induction l with
  | nil => rfl
  | cons a l ih =>
    rw [List.findSome?_cons, List.findSome?_cons]
    cases f a with
    | none => exact ih
    | some b => rfl

/-- The pin of a key is the catalog of the first list that parsed. -/
theorem pin_first (seen : List Observation) (db : Db) (key : String) :
    (final (observeToolsList F) ⟨∅, db⟩ seen).pin key =
      (firstListing F key seen).map fun l => fromEntries (l.map (ToolListing.entry F)) := by
  have hcell := (observe_local F).final_of_key key seen (s := ⟨∅, db⟩) trivial
  rw [hcell, final_pinCell, firstListing, ← findSome?_map]
  show Option.or none _ = _
  rw [Option.none_or]
  exact congrArg (fun f => List.findSome? f _) (funext fun o => definitionHashes_eq F o.body)

theorem firstListing_mem {key : String} {seen : List Observation} {l : List ToolListing}
    (h : firstListing F key seen = some l) : ∃ o ∈ seen, listing F o.body = some l := by
  obtain ⟨o, ho, hl⟩ := List.exists_of_findSome?_eq_some h
  exact ⟨o, (List.mem_filter.mp ho).1, hl⟩

theorem alarm_iff {o : Observation} {s : Observed} :
    (observeToolsList F o s).1.isSome ↔ ∃ fresh pinned, definitionHashes F o.body = some fresh ∧
      s.pin o.agentKey = some pinned ∧ diffAgainstPin pinned fresh ≠ [] := by
  rw [(observe_pinCell F o s).1]
  unfold pinCell
  cases definitionHashes F o.body with
  | none => simp
  | some fresh =>
    cases s.pin o.agentKey with
    | none => simp
    | some pinned =>
      by_cases hd : diffAgainstPin pinned fresh = []
      · simp [hd]
      · simp [hd]

/-- The row an alarm appends is the signal, under the agent's own name. -/
theorem alarm_log {o : Observation} {s : Observed} {log : LogRequest}
    (h : (observeToolsList F o s).1 = some log) :
    log.intentCategory = "SupplyChain" ∧ log.agentId = o.agentId := by
  unfold observeToolsList at h
  generalize hr : pinOrDiff F o.agentKey o.agentId o.body s.pins = r at h
  obtain ⟨found, pins⟩ := r
  cases found with
  | none => exact absurd h (by simp)
  | some log' =>
    obtain rfl := Option.some.inj h
    obtain ⟨changes, rfl⟩ := pinOrDiff_log F hr
    exact ⟨rfl, rfl⟩

theorem comparable_of_once {run : List Observation}
    (h : ∀ o ∈ run, ∀ l ∈ listing F o.body, NamesOnce l) :
    ∀ seen o rest, run = seen ++ o :: rest → ∀ fresh ∈ listing F o.body,
      ∀ pinned ∈ firstListing F o.agentKey seen, Comparable fresh pinned := by
  intro seen o rest hrun fresh hf pinned hp
  obtain ⟨x, hx, hl⟩ := firstListing_mem F hp
  refine Or.inr ⟨h o (hrun ▸ List.mem_append_right _ List.mem_cons_self) fresh hf, ?_⟩
  exact h x (hrun ▸ List.mem_append_left _ hx) pinned hl

/-- Over every run in which each list is the pinned one again, or neither repeats a tool name:
pins are first sights, alarms are exactly the differences from them, and keys do not interfere. -/
theorem rug_pull_detected (run : List Observation) (db : Db)
    (hcompare : ∀ seen o rest, run = seen ++ o :: rest → ∀ fresh ∈ listing F o.body,
      ∀ pinned ∈ firstListing F o.agentKey seen, Comparable fresh pinned)
    (hsha : Set.InjOn sha256
      { m | ∃ o ∈ run, ∃ l ∈ listing F o.body, m ∈ definitionMessages F l }) :
    (∀ seen rest key, run = seen ++ rest →
      (final (observeToolsList F) ⟨∅, db⟩ seen).pin key =
        (firstListing F key seen).map fun l => fromEntries (l.map (ToolListing.entry F))) ∧
    (∀ seen o rest, run = seen ++ o :: rest →
      let s := final (observeToolsList F) ⟨∅, db⟩ seen
      ((observeToolsList F o s).1.isSome ↔ ∃ fresh pinned, listing F o.body = some fresh ∧
        firstListing F o.agentKey seen = some pinned ∧ Differs fresh pinned) ∧
      (∀ fresh pinned, listing F o.body = some fresh → firstListing F o.agentKey seen = some pinned →
        SpellsNoNull fresh → SpellsNoNull pinned →
        ((observeToolsList F o s).1.isSome ↔ ¬ fresh.Perm pinned)) ∧
      (∀ log ∈ (observeToolsList F o s).1,
        log.intentCategory = "SupplyChain" ∧ log.agentId = o.agentId ∧
        (observeToolsList F o s).2.db = (Ledger.append F log o.oracle s.db).2) ∧
      ((observeToolsList F o s).1 = none → (observeToolsList F o s).2.db = s.db)) ∧
    (∀ key, (outcomes (observeToolsList F) ⟨∅, db⟩ run).filter (fun p => p.1.agentKey = key) =
      outcomes (observeToolsList F) ⟨∅, db⟩ (run.filter fun o => o.agentKey = key)) := by
  refine ⟨fun seen _ key _ => pin_first F seen db key, ?_, ?_⟩
  · intro seen o rest hrun s
    have hin : o ∈ run := hrun ▸ List.mem_append_right _ List.mem_cons_self
    have hseen : ∀ x ∈ seen, x ∈ run := fun x hx => hrun ▸ List.mem_append_left _ hx
    have hiff : ∀ fresh pinned, listing F o.body = some fresh →
        firstListing F o.agentKey seen = some pinned →
        ((observeToolsList F o s).1.isSome ↔ Differs fresh pinned) := by
      intro fresh pinned hf hp
      obtain ⟨x, hx, hl⟩ := firstListing_mem F hp
      have hmessages : Set.InjOn sha256 (definitionMessages F (fresh ++ pinned)) := by
        refine hsha.mono ?_
        rintro m ⟨t, ht, rfl⟩
        rcases List.mem_append.mp ht with ht | ht
        · exact ⟨o, hin, fresh, hf, t, ht, rfl⟩
        · exact ⟨x, hseen x hx, pinned, hl, t, ht, rfl⟩
      have hdiff := diffAgainstPin_listing F (hcompare seen o rest hrun fresh hf pinned hp)
        (listing_canonical F hf) (listing_canonical F hl) hmessages
      rw [← hdiff, alarm_iff, definitionHashes_eq, hf, pin_first, hp]
      simp
    refine ⟨?_, ?_, ?_, ?_⟩
    · constructor
      · intro h
        obtain ⟨fresh, pinned, hf, hp, _⟩ := (alarm_iff F).mp h
        rw [definitionHashes_eq] at hf
        rw [pin_first] at hp
        obtain ⟨lf, hlf, _⟩ := Option.map_eq_some_iff.mp hf
        obtain ⟨lp, hlp, _⟩ := Option.map_eq_some_iff.mp hp
        exact ⟨lf, lp, hlf, hlp, (hiff lf lp hlf hlp).mp h⟩
      · rintro ⟨fresh, pinned, hf, hp, hd⟩
        exact (hiff fresh pinned hf hp).mpr hd
    · intro fresh pinned hf hp hnf hnp
      rw [hiff fresh pinned hf hp, differs_iff hnf hnp]
    · intro log hlog
      obtain ⟨hintent, hagent⟩ := alarm_log F hlog
      have hdb := observe_db F o s
      rw [Option.mem_def.mp hlog] at hdb
      exact ⟨hintent, hagent, hdb⟩
    · intro hnone
      have hdb := observe_db F o s
      rwa [hnone] at hdb
  · intro key
    have hmine : ∀ o ∈ run.filter (fun o => o.agentKey = key), o.agentKey = key :=
      fun o ho => of_decide_eq_true (List.mem_filter.mp ho).2
    rw [(observe_local F).outcomes_of_key key run trivial,
      (observe_local F).outcomes_alone hmine trivial]

def sampleTool (description : String) : Value :=
  .object [("name", .str "read"), ("description", .str description)]

def sampleBody (tools : List Value) : Octets :=
  utf8 ((Value.object [("result", .object [("tools", .arr tools)])]).text bitsText)

def sampleListing (description : String) : ToolListing := ⟨"read", some (.str description), none⟩

theorem parsedTools_sampleBody (descriptions : List String) :
    parsedTools bitsText (sampleBody (descriptions.map sampleTool)) =
      some ((descriptions.map sampleTool).map Value.json) := by
  have htool : ∀ v ∈ descriptions.map sampleTool, v.depth ≤ 1 := by
    intro v hv
    obtain ⟨d, _, rfl⟩ := List.mem_map.mp hv
    refine Value.depth_object_le (List.forall_mem_cons.mpr ⟨le_refl 0, ?_⟩)
    exact List.forall_mem_singleton.mpr (le_refl 0)
  have hresult : (Value.object [("tools", .arr (descriptions.map sampleTool))]).depth ≤ 3 :=
    Value.depth_object_le (List.forall_mem_singleton.mpr (Value.depth_arr_le htool))
  have hbody : (Value.object [("result", .object
      [("tools", .arr (descriptions.map sampleTool))])]).depth ≤ 4 :=
    Value.depth_object_le (List.forall_mem_singleton.mpr hresult)
  have hparse := fromSlice_text bitsText (hbody.trans (by decide : 4 ≤ recursionLimit))
  unfold parsedTools sampleBody
  rw [hparse]
  simp only [Option.bind_eq_bind, Option.bind_some, Value.get?_object, List.map_cons,
    List.map_nil, lookup, if_true]
  rfl

theorem listing_sampleBody (descriptions : List String) :
    listing bitsText (sampleBody (descriptions.map sampleTool)) =
      some (descriptions.map sampleListing) := by
  have htool : listed ∘ (Value.json ∘ sampleTool) = some ∘ sampleListing := by
    funext d
    simp only [Function.comp, listed, toolName, sampleTool, Value.get?_object, List.map_cons,
      List.map_nil, lookup]
    rfl
  rw [listing, parsedTools_sampleBody, Option.map_some, List.map_map, List.filterMap_map, htool,
    List.filterMap_eq_map]

def observation (descriptions : List String) : Observation where
  agentKey := "acme/bot"
  agentId := "bot"
  body := sampleBody (descriptions.map sampleTool)
  oracle := calm 0

/-- A second definition under a pinned name goes unnoticed when the pinned one follows it. -/
theorem shadowed_unnoticed :
    let s := final (observeToolsList bitsText) ⟨∅, Db.empty⟩ [observation ["reads a file"]]
    let later := observation ["sends a file", "reads a file"]
    (observeToolsList bitsText later s).1 = none ∧
      firstListing bitsText "acme/bot" [observation ["reads a file"]] =
        some (["reads a file"].map sampleListing) ∧
      listing bitsText later.body = some (["sends a file", "reads a file"].map sampleListing) ∧
      ¬ (["sends a file", "reads a file"].map sampleListing).Perm
        (["reads a file"].map sampleListing) := by
  have hfirst : firstListing bitsText "acme/bot" [observation ["reads a file"]] =
      some (["reads a file"].map sampleListing) := by
    rw [firstListing, List.filter_cons_of_pos (by decide), List.findSome?_cons]
    simp only [observation, listing_sampleBody]
  have hlater : listing bitsText (observation ["sends a file", "reads a file"]).body =
      some (["sends a file", "reads a file"].map sampleListing) := listing_sampleBody _
  refine ⟨?_, hfirst, hlater, ?_⟩
  · rw [← Option.not_isSome_iff_eq_none, alarm_iff]
    rintro ⟨fresh, pinned, hf, hp, hd⟩
    rw [definitionHashes_eq, hlater] at hf
    have hpin := (pin_first bitsText [observation ["reads a file"]] Db.empty "acme/bot").symm.trans hp
    rw [hfirst] at hpin
    obtain rfl := Option.some.inj hf
    obtain rfl := Option.some.inj hpin
    let e := (sampleListing "reads a file").entry bitsText
    let e' := (sampleListing "sends a file").entry bitsText
    refine hd (diffAgainstPin_nil.mpr ?_)
    intro name
    show ((∅ : Catalog).insert e.1 e.2).lookup name =
      (((∅ : Catalog).insert e'.1 e'.2).insert e.1 e.2).lookup name
    by_cases hn : name = e.1
    · rw [hn, AList.lookup_insert, AList.lookup_insert]
    · have hn' : name ≠ e'.1 := hn
      rw [AList.lookup_insert_ne hn, AList.lookup_insert_ne hn, AList.lookup_insert_ne hn']
  · intro h
    exact absurd h.length_eq (by decide)

def withdrawal : List Observation := [observation ["reads a file"], observation []]

/-- A withdrawn tool is noticed. -/
theorem rug_pull_detected_withdrawal :
    (observeToolsList bitsText (observation [])
      (final (observeToolsList bitsText) ⟨∅, Db.empty⟩ [observation ["reads a file"]])).1.isSome := by
  have honce : ∀ o ∈ withdrawal, ∀ l ∈ listing bitsText o.body, NamesOnce l := by
    intro o ho l hl
    rcases List.mem_cons.mp ho with rfl | ho
    · obtain rfl := Option.some.inj ((listing_sampleBody ["reads a file"]).symm.trans hl)
      exact List.nodup_singleton _
    · obtain rfl := List.mem_singleton.mp ho
      obtain rfl := Option.some.inj ((listing_sampleBody []).symm.trans hl)
      exact List.nodup_nil
  have hone : ∀ m, (∃ o ∈ withdrawal, ∃ l ∈ listing bitsText o.body,
      m ∈ definitionMessages bitsText l) →
      m = canonicalize bitsText (sampleListing "reads a file").definition := by
    rintro m ⟨o, ho, l, hl, t, ht, rfl⟩
    rcases List.mem_cons.mp ho with rfl | ho
    · obtain rfl := Option.some.inj ((listing_sampleBody ["reads a file"]).symm.trans hl)
      obtain rfl := List.mem_singleton.mp ht
      rfl
    · obtain rfl := List.mem_singleton.mp ho
      obtain rfl := Option.some.inj ((listing_sampleBody []).symm.trans hl)
      exact absurd ht List.not_mem_nil
  have hsha : Set.InjOn Sha.sha256 { m | ∃ o ∈ withdrawal, ∃ l ∈ listing bitsText o.body,
      m ∈ definitionMessages bitsText l } :=
    fun x hx y hy _ => (hone x hx).trans (hone y hy).symm
  have hfirst : firstListing bitsText "acme/bot" [observation ["reads a file"]] =
      some [sampleListing "reads a file"] := by
    rw [firstListing, List.filter_cons_of_pos (by decide), List.findSome?_cons]
    simp only [observation, listing_sampleBody]
    rfl
  have halarm := ((rug_pull_detected bitsText withdrawal Db.empty (comparable_of_once bitsText honce)
    hsha).2.1
    [observation ["reads a file"]] (observation []) [] rfl).1
  refine halarm.mpr ⟨[], [sampleListing "reads a file"], listing_sampleBody [], hfirst, ?_⟩
  exact fun h => absurd h.length_eq (by decide)

end ClavenarLite
