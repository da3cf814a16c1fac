import ClavenarLite.Ledger.Statements
import ClavenarLite.Lib.HashChain

/-! Appending an entry to the hash chain: the tip read, the version 1 hash, and
the insert that relies on the unique position. -/

namespace ClavenarLite

open Bytes HashChain Rfc3339 Sha TextJson Transaction

variable (F : FloatText)

def policyDecisionJson : Option Value → Json
  | none => .null
  | some v => v.json

/-- The hashed fields, in the order that is the chain version. -/
def hashableEntryV1 (e : LedgerEntry) : Json :=
  .obj [("id", .str e.id.text), ("timestamp", .str (serialized e.timestamp)),
    ("agent_id", .str e.agentId), ("method", .str e.method),
    ("intent_category", .str e.intentCategory), ("authorized", .bool e.authorized),
    ("reasoning", .str e.reasoning), ("policy_decision", policyDecisionJson e.policyDecision),
    ("seq", .num (.int e.seq)), ("prev_hash", .str e.prevHash)]

def hashMessageV1 (e : LedgerEntry) : Octets :=
  utf8 e.prevHash ++ utf8 "|" ++ utf8 (printText F (hashableEntryV1 e))

def computeEntryHashV1 (e : LedgerEntry) : String := hexText (sha256 (hashMessageV1 F e))

def recomputeForVersion (version : Int) (e : LedgerEntry) : Option String :=
  if version = 1 then some (computeEntryHashV1 F e) else none

/-- The row an entry is stored as. -/
def LedgerEntry.row (e : LedgerEntry) : EntryRow where
  id := e.id.text
  seq := e.seq
  timestamp := toRfc3339 e.timestamp
  agentId := e.agentId
  method := e.method
  intentCategory := e.intentCategory
  authorized := if e.authorized then 1 else 0
  reasoning := e.reasoning
  policyDecision := e.policyDecision.map (Value.text F)
  prevHash := e.prevHash
  entryHash := e.entryHash
  chainVersion := e.chainVersion
  correlationId := e.correlationId

/-- The position and predecessor of the next entry; any failure of the read
counts as an empty table. A file holds fewer rows than `i64::MAX`. -/
def readTip : LedgerM (Int × String) :=
  unwrapOr (do
    let (seq, entryHash) ← query .selectTip
    return (seq + 1, entryHash))
    (1, genesisPrevHash)

def newEntry (id : Uuid) (timestamp : Clock) (tip : Int × String) (req : LogRequest) :
    LedgerEntry :=
  let entry : LedgerEntry :=
    { id, timestamp
      agentId := req.agentId
      method := req.method
      intentCategory := req.intentCategory
      authorized := req.authorized
      reasoning := req.reasoning
      policyDecision := req.policyDecision
      seq := tip.1
      prevHash := tip.2
      entryHash := ""
      chainVersion := currentChainVersion
      correlationId := req.correlationId }
  -- the version is the current one, so the recomputation cannot refuse it
  { entry with entryHash := (recomputeForVersion F entry.chainVersion entry).getD "" }

def appendOnConnection (req : LogRequest) : LedgerM LedgerEntry := do
  let tip ← readTip
  let id ← newUuid
  let now ← utcNow
  let entry := newEntry F id now tip req
  query (.insertEntry (entry.row F))
  return entry

def Ledger.append (req : LogRequest) : Oracle → Db → Except SqlError LedgerEntry × Db :=
  runAutocommit (appendOnConnection F req)

def entryShape : Shape EntryRow String where
  seq := EntryRow.seq
  prev := EntryRow.prevHash
  hash := EntryRow.entryHash
  genesis := genesisPrevHash

/-- The row holds an entry together with the version 1 hash of that entry. -/
def Hashed (r : EntryRow) : Prop :=
  ∃ e : LedgerEntry, r = e.row F ∧ e.chainVersion = currentChainVersion ∧
    e.entryHash = computeEntryHashV1 F e

theorem newEntry_entryHash (id : Uuid) (t : Clock) (tip : Int × String) (req : LogRequest) :
    (newEntry F id t tip req).entryHash = computeEntryHashV1 F (newEntry F id t tip req) := rfl

theorem newEntry_hashed (id : Uuid) (t : Clock) (tip : Int × String) (req : LogRequest) :
    Hashed F ((newEntry F id t tip req).row F) :=
  ⟨_, rfl, rfl, newEntry_entryHash F id t tip req⟩

variable {F}

theorem results_readTip {db db' : Db} {tip : Int × String} (h : Results readTip db tip db') :
    db' = db ∧ (tip = (1, genesisPrevHash) ∨
      ∃ t, tipOf db.entries = .ok t ∧ tip = (t.1 + 1, t.2)) := by
  rcases h.unwrapOr with h | ⟨rfl, e, h⟩
  · obtain ⟨t, db₁, hq, hr⟩ := h.bind
    obtain ⟨ht, rfl⟩ := results_selectTip hq
    obtain ⟨rfl, rfl⟩ := hr.pure
    exact ⟨rfl, Or.inr ⟨t, ht, rfl⟩⟩
  · refine ⟨?_, Or.inl rfl⟩
    rcases h.bind with h | ⟨_, _, _, h⟩
    · exact fails_query (fun _ => rfl) h
    · exact h.pure.elim

theorem results_appendOnConnection {db db' : Db} {req : LogRequest} {e : LedgerEntry}
    (h : Results (appendOnConnection F req) db e db') :
    ∃ id now tip, Results readTip db tip db ∧ e = newEntry F id now tip req ∧
      (∀ r ∈ db.entries, r.id ≠ id.text ∧ r.seq ≠ tip.1) ∧
      db' = { db with entries := db.entries ++ [e.row F] } := by
  obtain ⟨tip, db₁, ht, h₁⟩ := h.bind
  obtain rfl := (results_readTip ht).1
  obtain ⟨id, db₂, hid, h₂⟩ := h₁.bind
  obtain rfl := results_newUuid hid
  obtain ⟨now, db₃, hnow, h₃⟩ := h₂.bind
  obtain rfl := results_utcNow hnow
  obtain ⟨_, db₄, hi, h₄⟩ := h₃.bind
  obtain ⟨hu, rfl⟩ := results_insertEntry hi
  obtain ⟨rfl, rfl⟩ := h₄.pure
  exact ⟨id, now, tip, ht, rfl, hu, rfl⟩

theorem fails_appendOnConnection {db db' : Db} {req : LogRequest} {x : SqlError}
    (h : Failure (appendOnConnection F req) db x db') : db' = db := by
  rcases h.bind with h₁ | ⟨tip, db₁, ht, h₁⟩
  · obtain ⟨s, s', _, _, he⟩ := h₁
    rw [readTip, unwrapOr, ExceptT.run_mk, Interaction.Prog.run_bind] at he
    exact absurd (Prod.mk.inj he).1 (by simp)
  obtain rfl := (results_readTip ht).1
  rcases h₁.bind with h₂ | ⟨id, db₂, hid, h₂⟩
  · exact h₂.lift.elim
  obtain rfl := results_newUuid hid
  rcases h₂.bind with h₃ | ⟨now, db₃, hnow, h₃⟩
  · exact h₃.lift.elim
  obtain rfl := results_utcNow hnow
  rcases h₃.bind with h₄ | ⟨_, _, _, h₄⟩
  · exact fails_query (fun _ => rfl) h₄
  · exact h₄.pure.elim

theorem append_error {db db' : Db} {req : LogRequest} {oracle : Oracle} {x : SqlError}
    (h : Ledger.append F req oracle db = (.error x, db')) : db' = db :=
  fails_appendOnConnection (autocommit_error h)

theorem greatestSeq_chain {rows : List EntryRow} {r : EntryRow}
    (h : Chain entryShape (rows ++ [r])) : greatestSeq (rows ++ [r]) = some r := by
  unfold greatestSeq
  rw [List.argmax_concat]
  cases hm : @List.argmax EntryRow Int Int.instLinearOrder.toPreorder Int.decLt EntryRow.seq rows with
  | none => rfl
  | some m =>
    have hlt := (List.pairwise_append.mp h.pairwise).2.2 m (List.argmax_mem hm) r (by simp)
    exact if_pos hlt

/-- A tip that was really read continues the chain. -/
theorem tipOf_next {rows : List EntryRow} (hc : Chain entryShape rows) {t : Int × String}
    (h : tipOf rows = .ok t) : (t.1 + 1, t.2) = next entryShape rows := by
  unfold tipOf at h
  rcases List.eq_nil_or_concat rows with rfl | ⟨pre, x, rfl⟩
  · exact absurd h (by simp [greatestSeq])
  · rw [List.concat_eq_append] at h hc ⊢
    rw [greatestSeq_chain hc] at h
    obtain rfl := Except.ok.inj h
    exact hc.next_of_last.symm

/-- The fallback of a failed read continues the empty chain only. -/
theorem readTip_next {db db' : Db} {tip : Int × String} (hc : Chain entryShape db.entries)
    (h : Results readTip db tip db') :
    tip = next entryShape db.entries ∨ tip = next entryShape [] := by
  rcases (results_readTip h).2 with rfl | ⟨t, ht, rfl⟩
  · exact Or.inr rfl
  · exact Or.inl (tipOf_next hc ht)

theorem newEntry_shape (F : FloatText) (id : Uuid) (t : Clock) (tip : Int × String)
    (req : LogRequest) :
    (entryShape.seq ((newEntry F id t tip req).row F),
      entryShape.prev ((newEntry F id t tip req).row F)) = tip := rfl

theorem appendOnConnection_chain {db db' : Db} {req : LogRequest} {e : LedgerEntry}
    (hc : Chain entryShape db.entries) (h : Results (appendOnConnection F req) db e db') :
    Chain entryShape db'.entries := by
  obtain ⟨id, now, tip, ht, rfl, hu, rfl⟩ := results_appendOnConnection h
  have hs := newEntry_shape F id now tip req
  have hne : ∀ x ∈ db.entries, entryShape.seq x ≠
      entryShape.seq ((newEntry F id now tip req).row F) := fun x hx => (hu x hx).2
  rcases readTip_next hc ht with he | he
  · exact hc.append (hs.trans he)
  · exact hc.append_extending List.nil_prefix (hs.trans he) hne

end ClavenarLite
