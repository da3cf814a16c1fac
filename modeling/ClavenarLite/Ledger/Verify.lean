import ClavenarLite.Ledger.Runs

/-! Verifying the chain as it is stored: rows of cells of any type, decoded one
by one in the order of their positions and hashed again. -/

namespace ClavenarLite

open Bytes HashChain Rfc3339 Sha TextJson

variable (F : FloatText)

structure EntryCells where
  id : SqlValue
  seq : SqlValue
  timestamp : SqlValue
  agentId : SqlValue
  method : SqlValue
  intentCategory : SqlValue
  authorized : SqlValue
  reasoning : SqlValue
  policyDecision : SqlValue
  prevHash : SqlValue
  entryHash : SqlValue
  chainVersion : SqlValue
  correlationId : SqlValue
  deriving DecidableEq

def SqlValue.ofString (s : String) : SqlValue := .text (utf8 s)

def SqlValue.ofOption : Option String → SqlValue
  | some s => .ofString s
  | none => .null

def EntryRow.cells (r : EntryRow) : EntryCells where
  id := .ofString r.id
  seq := .integer r.seq
  timestamp := .ofString r.timestamp
  agentId := .ofString r.agentId
  method := .ofString r.method
  intentCategory := .ofString r.intentCategory
  authorized := .integer r.authorized
  reasoning := .ofString r.reasoning
  policyDecision := .ofOption r.policyDecision
  prevHash := .ofString r.prevHash
  entryHash := .ofString r.entryHash
  chainVersion := .integer r.chainVersion
  correlationId := .ofOption r.correlationId

def getString (column : Nat) : SqlValue → Except SqlError String
  | .text bytes =>
    match fromUtf8 bytes with
    | some s => .ok s
    | none => .error (.fromSqlConversionFailure column)
  | _ => .error (.invalidColumnType column)

def getOption (column : Nat) : SqlValue → Except SqlError (Option String)
  | .null => .ok none
  | v => (getString column v).map some

def getInt (column : Nat) : SqlValue → Except SqlError Int
  | .integer i => .ok i
  | _ => .error (.invalidColumnType column)

def converted {α : Type} (column : Nat) : Option α → Except SqlError α
  | some a => .ok a
  | none => .error (.fromSqlConversionFailure column)

/-- A policy decision whose text is no JSON document counts as `null`. -/
def decodePolicyDecision (text : String) : Value := (fromStr F text).getD .null

def rowToEntry (row : EntryCells) : Except SqlError LedgerEntry := do
  let idStr ← getString 0 row.id
  let timestampStr ← getString 2 row.timestamp
  let policyDecisionStr ← getOption 8 row.policyDecision
  let id ← converted 0 (Uuid.parseStr idStr)
  let seq ← getInt 1 row.seq
  let timestamp ← converted 2 (parseFromRfc3339 timestampStr)
  let agentId ← getString 3 row.agentId
  let method ← getString 4 row.method
  let intentCategory ← getString 5 row.intentCategory
  let authorized ← getInt 6 row.authorized
  let reasoning ← getString 7 row.reasoning
  let prevHash ← getString 9 row.prevHash
  let entryHash ← getString 10 row.entryHash
  let chainVersion ← getInt 11 row.chainVersion
  let correlationId ← getOption 12 row.correlationId
  return { id, seq, timestamp, agentId, method, intentCategory
           authorized := authorized != 0
           reasoning
           policyDecision := policyDecisionStr.map (decodePolicyDecision F)
           prevHash, entryHash, chainVersion, correlationId }

structure VerifyResult where
  valid : Bool
  entriesChecked : Nat
  firstInvalidSeq : Option Int
  unsupportedChainVersion : Option Int
  deriving DecidableEq

/-- The walk after `count` entries, the last of which had the hash `expectedPrev`. -/
def verifyFrom (expectedPrev : String) (count : Nat) :
    List EntryCells → Except SqlError VerifyResult
  | [] => .ok ⟨true, count, none, none⟩
  | row :: rows => do
    let entry ← rowToEntry F row
    match recomputeForVersion F entry.chainVersion entry with
    | none => .ok ⟨false, count, none, some entry.chainVersion⟩
    | some recomputed =>
      if entry.prevHash ≠ expectedPrev ∨ recomputed ≠ entry.entryHash then
        .ok ⟨false, count, some entry.seq, none⟩
      else verifyFrom entry.entryHash (count + 1) rows

def bySeq (table : List EntryCells) : List EntryCells :=
  table.insertionSort fun r s => r.seq.Before s.seq

def verify (table : List EntryCells) : Except SqlError VerifyResult :=
  verifyFrom F genesisPrevHash 0 (bySeq table)

variable {F}

theorem getString_ofString (column : Nat) (s : String) :
    getString column (.ofString s) = .ok s := by
  rw [SqlValue.ofString, getString, fromUtf8_utf8]

theorem getOption_ofOption (column : Nat) (o : Option String) :
    getOption column (.ofOption o) = .ok o := by
  cases o with
  | none => rfl
  | some s => exact congrArg (Except.map some) (getString_ofString column s)

/-- What is left of a document once its text has been read back. -/
def readBack (v : Value) : Value := if v.depth ≤ recursionLimit then v else .null

theorem decodePolicyDecision_text (v : Value) : decodePolicyDecision F (v.text F) = readBack v := by
  rw [decodePolicyDecision, fromStr_text, readBack]
  by_cases hd : v.depth ≤ recursionLimit
  · rw [if_pos hd, if_pos hd]
    rfl
  · rw [if_neg hd, if_neg hd]
    rfl

def LedgerEntry.decoded (e : LedgerEntry) : LedgerEntry :=
  { e with policyDecision := e.policyDecision.map readBack }

theorem rowToEntry_row {e : LedgerEntry} (ht : Reading e.timestamp) :
    rowToEntry F (e.row F).cells = .ok e.decoded := by
  have hpolicy : (e.policyDecision.map (Value.text F)).map (decodePolicyDecision F) =
      e.policyDecision.map readBack := by
    rw [Option.map_map]
    exact congrArg (fun f => e.policyDecision.map f) (funext decodePolicyDecision_text)
  have hauth : ((if e.authorized then 1 else 0 : Int) != 0) = e.authorized := by
    cases e.authorized <;> rfl
  simp only [rowToEntry, EntryRow.cells, LedgerEntry.row, getString_ofString, getOption_ofOption,
    getInt, converted, Uuid.parseStr_text, parseFromRfc3339_toRfc3339 ht, hpolicy, hauth,
    Except.bind, bind, pure, Except.pure, LedgerEntry.decoded]

/-- An entry whose document reads back is decoded to itself. -/
theorem LedgerEntry.decoded_self {e : LedgerEntry}
    (hd : ∀ v ∈ e.policyDecision, v.depth ≤ recursionLimit) : e.decoded = e := by
  unfold LedgerEntry.decoded
  have hp : e.policyDecision.map readBack = e.policyDecision := by
    cases hp : e.policyDecision with
    | none => rfl
    | some v => exact congrArg some (if_pos (hd v hp))
  rw [hp]

variable (F)

/-- The row of an appended entry whose policy decision reads back. -/
def Written (r : EntryRow) : Prop :=
  ∃ id now tip req, r = (newEntry F id now tip req).row F ∧
    ∀ v ∈ req.policyDecision, v.depth ≤ recursionLimit

structure Honest (rows : List EntryRow) : Prop where
  chain : Chain entryShape rows
  written : ∀ r ∈ rows, Written F r

variable {F}

theorem Written.decodes {r : EntryRow} (h : Written F r) :
    ∃ e, rowToEntry F r.cells = .ok e ∧ e.chainVersion = 1 ∧ e.prevHash = r.prevHash ∧
      e.entryHash = r.entryHash ∧ computeEntryHashV1 F e = e.entryHash := by
  obtain ⟨id, now, tip, req, rfl, hd⟩ := h
  have hrow := rowToEntry_row (F := F) (e := newEntry F id now tip req) now.property
  rw [LedgerEntry.decoded_self hd] at hrow
  exact ⟨_, hrow, rfl, rfl, rfl, (newEntry_entryHash F id now tip req).symm⟩

theorem verifyFrom_cons {prev : String} {count : Nat} {row : EntryCells} {rows : List EntryCells}
    {e : LedgerEntry} (hrow : rowToEntry F row = .ok e) (hversion : e.chainVersion = 1)
    (hprev : e.prevHash = prev) (hstored : e.entryHash = computeEntryHashV1 F e) :
    verifyFrom F prev count (row :: rows) = verifyFrom F e.entryHash (count + 1) rows := by
  have hok : ¬ (e.prevHash ≠ prev ∨ computeEntryHashV1 F e ≠ e.entryHash) :=
    not_or.mpr ⟨not_not.mpr hprev, not_not.mpr hstored.symm⟩
  simp only [verifyFrom, hrow, bind, Except.bind, recomputeForVersion, if_pos hversion, if_neg hok]

/-- The walk passes over the rows of a linked list whose documents read back. -/
theorem verifyFrom_append {prev : String} {n : Int} {rows : List EntryRow} (count : Nat)
    (hl : Linked entryShape prev n rows) (hw : ∀ r ∈ rows, Written F r) (rest : List EntryCells) :
    verifyFrom F prev count (rows.map EntryRow.cells ++ rest) =
      verifyFrom F (lastHash entryShape prev rows) (count + rows.length) rest := by
  induction rows generalizing prev n count with
  | nil => rfl
  | cons r rows ih =>
    obtain ⟨_, hp, hrows⟩ := hl
    obtain ⟨e, hdecode, hversion, hprev, hstored, hhash⟩ := (hw r List.mem_cons_self).decodes
    have hih := ih (count + 1) hrows fun x hx => hw x (List.mem_cons_of_mem r hx)
    have hlast : e.entryHash = entryShape.hash r := hstored
    rw [List.map_cons, List.cons_append,
      verifyFrom_cons hdecode hversion (hprev.trans hp) hhash.symm, hlast, hih, List.length_cons,
      Nat.add_right_comm, Nat.add_assoc]
    rfl

theorem bySeq_cells {rows : List EntryRow} (h : Chain entryShape rows) :
    bySeq (rows.map EntryRow.cells) = rows.map EntryRow.cells := by
  apply List.Pairwise.insertionSort_eq
  rw [List.pairwise_map]
  refine h.pairwise.imp ?_
  intro r s hlt
  exact le_of_lt hlt

theorem Honest.verify {rows : List EntryRow} (h : Honest F rows) :
    verify F (rows.map EntryRow.cells) = .ok ⟨true, rows.length, none, none⟩ := by
  have hwalk := verifyFrom_append 0 h.chain h.written []
  rw [List.append_nil, Nat.zero_add] at hwalk
  rw [ClavenarLite.verify, bySeq_cells h.chain]
  exact hwalk

theorem appends_honest {req : LogRequest} {db db' : Db} (h : Honest F db.entries)
    (hd : ∀ v ∈ req.policyDecision, v.depth ≤ recursionLimit) (ha : Appends F req db db') :
    Honest F db'.entries := by
  obtain ⟨e, hr⟩ := ha
  refine ⟨appendOnConnection_chain h.chain hr, ?_⟩
  obtain ⟨id, now, tip, _, _, rfl⟩ := appends_entries ⟨e, hr⟩
  intro r hmem
  rcases List.mem_append.mp hmem with hmem | hmem
  · exact h.written r hmem
  · exact ⟨id, now, tip, req, List.mem_singleton.mp hmem, hd⟩

theorem depth_object_str {ms : List (String × Value)} (h : ∀ m ∈ ms, m.2.depth = 0) :
    (Value.object ms).depth ≤ recursionLimit :=
  (Value.depth_object_le (n := 0) fun m hm => (h m hm).le).trans (by decide)

theorem intentReceipt_depth (b : ServerExecutionBinding) :
    (intentReceipt b).depth ≤ recursionLimit := by
  apply depth_object_str
  simp [Value.depth, Value.str, Json.depth]

theorem uncertainReceipt_depth (row : ExecutionRow) :
    (uncertainReceipt row).depth ≤ recursionLimit := by
  apply depth_object_str
  simp [Value.depth, Value.str, Json.depth]

/-- The receipt nests the response one level deeper. -/
theorem completedReceipt_depth (b : ServerExecutionBinding) (st : UInt16) {body : Octets}
    (h : (resultValue F body).depth < recursionLimit) :
    (completedReceipt F b st body).depth ≤ recursionLimit := by
  refine (Value.depth_object_le (n := recursionLimit - 1) ?_).trans (by decide)
  have hd : (resultValue F body).json.depth ≤ 126 := Nat.le_of_lt_succ h
  simpa [Value.depth, Value.str, Value.ofUInt16, Json.depth, recursionLimit] using hd

variable (F)

/-- What the operation puts into the chain is read back: an appended decision is
nested at most to the recursion limit, a received document less than that. -/
def LedgerOp.Reparses : LedgerOp → Prop
  | .append req => ∀ v ∈ req.policyDecision, v.depth ≤ recursionLimit
  | .complete _ _ _ body => ∀ v, fromSlice F body = some v → v.depth < recursionLimit
  | _ => True

/-- What the operations of a run add to the chain is read back. -/
def RunReparses : List (LedgerOp × Oracle) → Db → Prop
  | [], _ => True
  | op :: ops, db => ((op.1.apply F op.2 db).entries ≠ db.entries → op.1.Reparses F) ∧
      RunReparses ops (op.1.apply F op.2 db)

variable {F}

theorem runReparses_of_all {ops : List (LedgerOp × Oracle)} (h : ∀ op ∈ ops, op.1.Reparses F)
    (db : Db) : RunReparses F ops db := by
  induction ops generalizing db with
  | nil => trivial
  | cons op ops ih =>
    exact ⟨fun _ => h op List.mem_cons_self, ih (fun x hx => h x (List.mem_cons_of_mem op hx)) _⟩

theorem resultValue_depth {body : Octets}
    (h : ∀ v, fromSlice F body = some v → v.depth < recursionLimit) :
    (resultValue F body).depth < recursionLimit := by
  unfold resultValue
  cases hv : fromSlice F body with
  | none => exact Nat.zero_lt_succ _
  | some v => exact h v hv

theorem classifications_honest {db db' : Db} (h : Honest F db.entries)
    (hc : Classifications F db db') : Honest F db'.entries := by
  induction hc with
  | refl => exact h
  | tail _ hstep ih =>
    obtain ⟨row, hrow⟩ := hstep
    obtain ⟨now, _, _, happ⟩ := hrow.updates
    have hdb : Honest F (Db.withUncertain _ row.executionId now (uncertainOutboxRow F row now)).entries := ih
    refine appends_honest hdb ?_ happ
    intro v hv
    obtain rfl := Option.some.inj hv
    exact uncertainReceipt_depth row

theorem LedgerOp.apply_honest {op : LedgerOp} (hop : op.Reparses F) (oracle : Oracle) {db : Db}
    (h : Honest F db.entries) : Honest F (op.apply F oracle db).entries := by
  have hpendings : ∀ {db'}, (∃ rows, db' = { db with pendings := rows }) → Honest F db'.entries := by
    rintro _ ⟨rows, rfl⟩
    exact h
  cases op with
  | append req =>
    simp only [LedgerOp.apply]
    generalize hr : Ledger.append F req oracle db = r
    obtain ⟨r, db'⟩ := r
    cases r with
    | error e =>
      rw [append_error hr]
      exact h
    | ok e => exact appends_honest h hop ⟨e, Transaction.autocommit_ok hr⟩
  | inspect b =>
    rw [LedgerOp.apply, inspect_db]
    exact h
  | begin i b =>
    simp only [LedgerOp.apply]
    generalize hr : Ledger.beginServerExecution F i b oracle db = r
    obtain ⟨r, db'⟩ := r
    cases r with
    | error e =>
      rw [Transaction.transaction_error hr]
      exact h
    | ok out =>
      rcases begin_ok hr with ⟨rfl, _⟩ | ⟨_, hb⟩
      · exact h
      · obtain ⟨createdAt, happ⟩ := hb.appends
        have hdb : Honest F (db.withIntent (intentRow i b createdAt)).entries := h
        refine appends_honest hdb ?_ happ
        intro v hv
        obtain rfl := Option.some.inj hv
        exact intentReceipt_depth b
  | complete b st ct body =>
    simp only [LedgerOp.apply]
    generalize hr : Ledger.completeServerExecution F b st ct body oracle db = r
    obtain ⟨r, db'⟩ := r
    cases r with
    | error e =>
      rw [Transaction.transaction_error hr]
      exact h
    | ok c =>
      obtain ⟨now, _, _, happ⟩ := (complete_ok hr).2.updates
      have hdb : Honest F (db.withCompletion (completionOf F b st ct body now)
        (completedOutboxRow F b st body now)).entries := h
      refine appends_honest hdb ?_ happ
      intro v hv
      obtain rfl := Option.some.inj hv
      exact completedReceipt_depth b st (resultValue_depth hop)
  | reconcile i now =>
    simp only [LedgerOp.apply]
    generalize hr : Ledger.reconcileServerExecutionsAt F i now oracle db = r
    obtain ⟨r, db'⟩ := r
    cases r with
    | error e =>
      rw [Transaction.transaction_error hr]
      exact h
    | ok n => exact classifications_honest h (reconcile_ok hr)
  | park req => exact hpendings (pendingsOnly_autocommit (parkPending_only req) oracle db)
  | decide c t d n => exact hpendings (decide_pendings c t d n oracle db)
  | getPending c => exact hpendings (pendingsOnly_autocommit (getPending_only c) oracle db)

theorem runOps_honest {ops : List (LedgerOp × Oracle)} {db : Db} (h : Honest F db.entries)
    (hops : RunReparses F ops db) : Honest F (runOps F ops db).entries := by
  induction ops generalizing db with
  | nil => exact h
  | cons op ops ih =>
    refine ih ?_ hops.2
    by_cases hsame : (op.1.apply F op.2 db).entries = db.entries
    · rw [hsame]
      exact h
    · exact LedgerOp.apply_honest (hops.1 hsame) op.2 h

/-- After any run that stores only documents that read back, the ledger verifies, and every
entry decoded from its row hashes to the hash stored with it. -/
theorem verify_honest {ops : List (LedgerOp × Oracle)} (h : RunReparses F ops Db.empty) :
    verify F ((runOps F ops Db.empty).entries.map EntryRow.cells) =
        .ok ⟨true, (runOps F ops Db.empty).entries.length, none, none⟩ ∧
      ∀ r ∈ (runOps F ops Db.empty).entries, ∃ e, rowToEntry F r.cells = .ok e ∧
        computeEntryHashV1 F e = r.entryHash := by
  have hh : Honest F (runOps F ops Db.empty).entries := by
    apply runOps_honest _ h
    exact ⟨trivial, fun r hr => absurd hr List.not_mem_nil⟩
  refine ⟨hh.verify, ?_⟩
  intro r hr
  obtain ⟨e, hdecode, _, _, hstored, hhash⟩ := (hh.written r hr).decodes
  exact ⟨e, hdecode, hhash.trans hstored⟩

theorem resultValue_text {v : Value} (h : v.depth ≤ recursionLimit) :
    resultValue F (utf8 (v.text F)) = v := by
  rw [resultValue, fromSlice, fromUtf8_utf8, Option.bind_some, fromStr_text, if_pos h]
  rfl

def nestedArrays : Nat → Value
  | 0 => .arr []
  | n + 1 => .arr [nestedArrays n]

theorem nestedArrays_depth (n : Nat) : (nestedArrays n).depth = n + 1 := by
  induction n with
  | zero => rfl
  | succ n ih =>
    show max (nestedArrays n).depth 0 + 1 = n + 2
    rw [ih, Nat.max_zero]

/-- A document of `n + 1` nested arrays. -/
def nestedBody (n : Nat) : Octets := utf8 ((nestedArrays n).text bitsText)

def nestedOps (n : Nat) : List (LedgerOp × Oracle) :=
  [(.begin "p1" sampleBinding, calm 1),
    (.complete sampleBinding 200 none (nestedBody n), calm 10)]

/-- One level less than the reader's limit is retained and verifies. -/
theorem verify_honest_nested :
    verify bitsText ((runOps bitsText (nestedOps 125) Db.empty).entries.map EntryRow.cells) =
        .ok ⟨true, (runOps bitsText (nestedOps 125) Db.empty).entries.length, none, none⟩ ∧
      ∀ r ∈ (runOps bitsText (nestedOps 125) Db.empty).entries, ∃ e,
        rowToEntry bitsText r.cells = .ok e ∧ computeEntryHashV1 bitsText e = r.entryHash := by
  apply verify_honest
  refine runReparses_of_all (fun op hop => ?_) Db.empty
  rcases List.mem_pair.mp hop with rfl | rfl
  · trivial
  · intro v hv
    have hd : (nestedArrays 125).depth ≤ recursionLimit := by
      rw [nestedArrays_depth]
      decide
    rw [nestedBody, fromSlice, fromUtf8_utf8, Option.bind_some, fromStr_text, if_pos hd] at hv
    obtain rfl := Option.some.inj hv
    rw [nestedArrays_depth]
    decide

def nestedIntent : LedgerEntry :=
  newEntry bitsText (numberedUuid 6) newYear (1, genesisPrevHash) (intentRequest sampleBinding)

def nestedCompletion : LedgerEntry :=
  newEntry bitsText (numberedUuid 15) newYear (2, nestedIntent.entryHash)
    (completedRequest bitsText sampleBinding 200 (nestedBody 126))

theorem nested_entries : (runOps bitsText (nestedOps 126) Db.empty).entries =
    [nestedIntent.row bitsText, nestedCompletion.row bitsText] := by rfl

theorem nestedBody_result : resultValue bitsText (nestedBody 126) = nestedArrays 126 :=
  resultValue_text (by rw [nestedArrays_depth]; decide)

theorem nestedReceipt_depth :
    recursionLimit < (completedReceipt bitsText sampleBinding 200 (nestedBody 126)).depth := by
  rw [completedReceipt, nestedBody_result]
  have hlookup : (nestedArrays 126).json.depth < (receiptOf sampleBinding 200 (nestedBody 126)
      (nestedArrays 126)).depth := Value.depth_get?_object "result" rfl
  have hd : (nestedArrays 126).json.depth = 127 := nestedArrays_depth 126
  rwa [hd] at hlookup

/-- The hashed octets, encoded character by character. -/
theorem hashMessageV1_chars (F : FloatText) {e : LedgerEntry} {prev : List Char}
    (h : e.prevHash = String.ofList prev) :
    hashMessageV1 F e =
      (prev ++ '|' :: print F (hashableEntryV1 e)).flatMap String.utf8EncodeChar := by
  rw [hashMessageV1, h, printText, utf8_ofList, utf8_ofList, utf8_ofList, ← List.flatMap_append,
    ← List.flatMap_append, List.append_assoc]
  rfl

/-- The digest of an entry that follows this hash. -/
def linkedDigest (e : LedgerEntry) (prev : List Char) : Octets :=
  sha256 ((prev ++ '|' :: print bitsText (hashableEntryV1 { e with
    prevHash := String.ofList prev })).flatMap String.utf8EncodeChar)

theorem linkedDigest_eq {e : LedgerEntry} {prev : List Char} (h : e.prevHash = String.ofList prev) :
    sha256 (hashMessageV1 bitsText e) = linkedDigest e prev := by
  rw [linkedDigest, ← h]
  exact congrArg sha256 (hashMessageV1_chars bitsText h)

/-- The digest of an entry that starts a chain. -/
def firstDigest (e : LedgerEntry) : Octets := linkedDigest e genesisPrevHash.toList

theorem firstDigest_eq {e : LedgerEntry} (h : e.prevHash = genesisPrevHash) :
    sha256 (hashMessageV1 bitsText e) = firstDigest e :=
  linkedDigest_eq (h.trans String.ofList_toList.symm)

def nestedPrev : List Char := hexEncode (firstDigest nestedIntent)

def nestedDigest (policyDecision : Value) : Octets :=
  linkedDigest { nestedCompletion with policyDecision := some policyDecision } nestedPrev

theorem nestedIntent_entryHash : nestedIntent.entryHash = String.ofList nestedPrev := by
  have hhash : nestedIntent.entryHash = computeEntryHashV1 bitsText nestedIntent :=
    newEntry_entryHash _ _ _ _ _
  rw [hhash, computeEntryHashV1, firstDigest_eq (e := nestedIntent) rfl, hexText, nestedPrev]

theorem nestedDigest_hash (v : Value) :
    computeEntryHashV1 bitsText { nestedCompletion with policyDecision := some v } =
      hexText (nestedDigest v) := by
  have hprev : nestedCompletion.prevHash = String.ofList nestedPrev := nestedIntent_entryHash
  rw [nestedDigest, computeEntryHashV1]
  exact congrArg hexText (linkedDigest_eq hprev)

theorem nestedDigest_ne : nestedDigest .null ≠
    nestedDigest (receiptOf sampleBinding 200 (nestedBody 126) (nestedArrays 126)) := by
  have hhead : (nestedDigest .null).head? ≠
      (nestedDigest (receiptOf sampleBinding 200 (nestedBody 126)
        (nestedArrays 126))).head? := by
    decide +kernel
  exact fun h => hhead (congrArg List.head? h)

theorem nestedCompletion_policy : nestedCompletion.policyDecision =
    some (receiptOf sampleBinding 200 (nestedBody 126) (nestedArrays 126)) := by
  have hreceipt : nestedCompletion.policyDecision =
    some (completedReceipt bitsText sampleBinding 200 (nestedBody 126)) := rfl
  rw [hreceipt, completedReceipt, nestedBody_result]

theorem nestedCompletion_hash_ne :
    computeEntryHashV1 bitsText nestedCompletion.decoded ≠ nestedCompletion.entryHash := by
  have hstored : nestedCompletion.entryHash = computeEntryHashV1 bitsText nestedCompletion :=
    newEntry_entryHash _ _ _ _ _
  have hself : nestedCompletion = { nestedCompletion with
      policyDecision :=
        some (receiptOf sampleBinding 200 (nestedBody 126) (nestedArrays 126)) } := by
    rw [← nestedCompletion_policy]
  have hdecoded : nestedCompletion.decoded =
      { nestedCompletion with policyDecision := some .null } := by
    rw [LedgerEntry.decoded, nestedCompletion_policy, Option.map_some, readBack, if_neg]
    have hd := nestedReceipt_depth
    rw [completedReceipt, nestedBody_result] at hd
    exact Nat.not_le.mpr hd
  rw [hdecoded, hstored, hself, nestedDigest_hash, nestedDigest_hash]
  exact fun h => nestedDigest_ne (hexText_injective h)

theorem nested_chain :
    Chain entryShape [nestedIntent.row bitsText, nestedCompletion.row bitsText] :=
  ⟨rfl, rfl, rfl, rfl, trivial⟩

theorem nestedIntent_written : Written bitsText (nestedIntent.row bitsText) := by
  refine ⟨_, _, _, _, rfl, ?_⟩
  intro v hv
  obtain rfl := Option.some.inj hv
  exact intentReceipt_depth sampleBinding

/-- The walk stops at a row whose decoded entry does not hash to what it stores. -/
theorem verifyFrom_refused {prev : String} {count : Nat} {row : EntryCells} {e : LedgerEntry}
    (hrow : rowToEntry F row = .ok e) (hversion : e.chainVersion = 1)
    (hne : computeEntryHashV1 F e ≠ e.entryHash) (rest : List EntryCells) :
    verifyFrom F prev count (row :: rest) = .ok ⟨false, count, some e.seq, none⟩ := by
  have hrec : recomputeForVersion F e.chainVersion e = some (computeEntryHashV1 F e) := by
    rw [recomputeForVersion, if_pos hversion]
  simp only [verifyFrom, hrow, bind, Except.bind, hrec]
  exact if_pos (Or.inr hne)

/-- A response of 127 nested arrays is retained too, but the ledger no longer
verifies. -/
theorem nested_refused :
    verify bitsText ((runOps bitsText (nestedOps 126) Db.empty).entries.map EntryRow.cells) =
      .ok ⟨false, 1, some 2, none⟩ := by
  have hrow : rowToEntry bitsText (nestedCompletion.row bitsText).cells =
      .ok nestedCompletion.decoded := rowToEntry_row newYear.property
  have hlinked : Linked entryShape genesisPrevHash 1 [nestedIntent.row bitsText] := by
    obtain ⟨hs, hp, _⟩ := nested_chain
    exact ⟨hs, hp, trivial⟩
  have hwalk := verifyFrom_append (F := bitsText) 0 hlinked
    (fun r hr => List.mem_singleton.mp hr ▸ nestedIntent_written)
    [(nestedCompletion.row bitsText).cells]
  rw [nested_entries, verify, bySeq_cells nested_chain]
  refine hwalk.trans ?_
  exact verifyFrom_refused hrow rfl nestedCompletion_hash_ne []

end ClavenarLite
