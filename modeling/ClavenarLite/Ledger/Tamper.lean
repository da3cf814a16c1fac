import ClavenarLite.Ledger.Verify
import ClavenarLite.Lib.DateTimeText
import ClavenarLite.Lib.Fallible

/-! Tamper evidence: a table that verifies is determined, in every hashed field
of every row, by the number of its rows and the hash of the last one. -/

namespace ClavenarLite

open Bytes Fallible HashChain Rfc3339 Sha TextJson

variable (F : FloatText)

/-- The hashed fields of an entry; an absent policy decision counts as `null`. -/
structure HashedFields where
  id : Uuid
  timestamp : DateTime
  agentId : String
  method : String
  intentCategory : String
  authorized : Bool
  reasoning : String
  policyDecision : Value
  seq : Int
  prevHash : String

def LedgerEntry.hashedFields (e : LedgerEntry) : HashedFields where
  id := e.id
  timestamp := e.timestamp
  agentId := e.agentId
  method := e.method
  intentCategory := e.intentCategory
  authorized := e.authorized
  reasoning := e.reasoning
  policyDecision := e.policyDecision.getD .null
  seq := e.seq
  prevHash := e.prevHash

def decodedShape : Shape LedgerEntry String where
  seq := LedgerEntry.seq
  prev := LedgerEntry.prevHash
  hash := LedgerEntry.entryHash
  genesis := genesisPrevHash

abbrev Decodes (rows : List EntryCells) (es : List LedgerEntry) : Prop :=
  List.Forall₂ (fun row e => rowToEntry F row = .ok e) rows es

/-- The messages that verifying the table hashes. -/
def hashedMessages (table : List EntryCells) : Set Octets :=
  { m | ∃ row ∈ table, ∃ e, rowToEntry F row = .ok e ∧ m = hashMessageV1 F e }

variable {F}

/-- The columns of a row that decodes, as far as the walk depends on them. -/
theorem rowToEntry_ok {row : EntryCells} {e : LedgerEntry} (h : rowToEntry F row = .ok e) :
    (∃ s, parseFromRfc3339 s = some e.timestamp) ∧ getString 10 row.entryHash = .ok e.entryHash := by
  iterate 5 obtain ⟨_, _, h⟩ := bind_ok h
  obtain ⟨timestamp, ht, h₁⟩ := bind_ok h
  iterate 6 obtain ⟨_, _, h₁⟩ := bind_ok h₁
  obtain ⟨entryHash, hhash, h₂⟩ := bind_ok h₁
  iterate 2 obtain ⟨_, _, h₂⟩ := bind_ok h₂
  obtain rfl := Except.ok.inj h₂
  refine ⟨?_, hhash⟩
  unfold converted at ht
  split at ht
  · next t hp =>
    obtain rfl := Except.ok.inj ht
    exact ⟨_, hp⟩
  · exact absurd ht (by simp)

/-- A walk that ends valid decoded every row, found each linked to the one before
and hashed to what it stores. -/
theorem verifyFrom_valid {prev : String} {count : Nat} {rows : List EntryCells} {r : VerifyResult}
    (h : verifyFrom F prev count rows = .ok r) (hv : r.valid = true) :
    r.entriesChecked = count + rows.length ∧
      ∃ es, Decodes F rows es ∧ Links decodedShape prev es ∧
        ∀ e ∈ es, e.entryHash = computeEntryHashV1 F e := by
  induction rows generalizing prev count with
  | nil =>
    obtain rfl := Except.ok.inj h
    exact ⟨rfl, [], .nil, trivial, fun e he => absurd he List.not_mem_nil⟩
  | cons row rows ih =>
    obtain ⟨e, hrow, hrest⟩ := bind_ok h
    by_cases hversion : e.chainVersion = 1
    · rw [recomputeForVersion, if_pos hversion] at hrest
      by_cases hbad : e.prevHash ≠ prev ∨ computeEntryHashV1 F e ≠ e.entryHash
      · obtain rfl := Except.ok.inj ((if_pos hbad).symm.trans hrest)
        exact absurd hv (by simp)
      · obtain ⟨hprev, hhash⟩ := not_or.mp hbad
        obtain ⟨hcount, es, hes, hlinks, hall⟩ := ih ((if_neg hbad).symm.trans hrest)
        refine ⟨?_, e :: es, .cons hrow hes, ⟨not_not.mp hprev, hlinks⟩, ?_⟩
        · rw [hcount, List.length_cons]
          omega
        · intro x hx
          rcases List.mem_cons.mp hx with rfl | hx
          · exact (not_not.mp hhash).symm
          · exact hall x hx
    · rw [recomputeForVersion, if_neg hversion] at hrest
      obtain rfl := Except.ok.inj hrest
      exact absurd hv (by simp)

/-- A text without the separator in front of it is determined by the whole. -/
theorem append_bar_inj {xs ys cs ds : List Char} (hx : '|' ∉ xs) (hy : '|' ∉ ys)
    (h : xs ++ '|' :: cs = ys ++ '|' :: ds) : xs = ys ∧ cs = ds := by
  induction xs generalizing ys with
  | nil =>
    cases ys with
    | nil => exact ⟨rfl, (List.cons.inj h).2⟩
    | cons y ys => exact absurd ((List.cons.inj h).1 ▸ List.mem_cons_self) hy
  | cons x xs ih =>
    cases ys with
    | nil => exact absurd ((List.cons.inj h).1 ▸ List.mem_cons_self) hx
    | cons y ys =>
      obtain ⟨rfl, hrest⟩ := List.cons.inj h
      obtain ⟨rfl, rfl⟩ := ih (fun hm => hx (List.mem_cons_of_mem _ hm))
        (fun hm => hy (List.mem_cons_of_mem _ hm)) hrest
      exact ⟨rfl, rfl⟩

theorem hashMessageV1_text (e : LedgerEntry) : hashMessageV1 F e =
    utf8 (String.ofList (e.prevHash.toList ++ '|' :: print F (hashableEntryV1 e))) := by
  rw [hashMessageV1_chars F String.ofList_toList.symm, utf8_ofList]

/-- The message determines the hashed fields: the separator ends the predecessor,
and the document names every field. -/
theorem hashMessageV1_inj {e e' : LedgerEntry} (ht : ∃ s, parseFromRfc3339 s = some e.timestamp)
    (ht' : ∃ s, parseFromRfc3339 s = some e'.timestamp) (hb : '|' ∉ e.prevHash.toList)
    (hb' : '|' ∉ e'.prevHash.toList) (h : hashMessageV1 F e = hashMessageV1 F e') :
    e.hashedFields = e'.hashedFields := by
  rw [hashMessageV1_text, hashMessageV1_text] at h
  obtain ⟨_, hprint⟩ := append_bar_inj hb hb' (String.ofList_injective (utf8_injective h))
  have hjson := print_injective F hprint
  simp only [hashableEntryV1, Json.obj.injEq, List.cons.injEq, Prod.mk.injEq, Json.str.injEq,
    Json.bool.injEq, Json.num.injEq, Number.int.injEq, true_and, and_true] at hjson
  obtain ⟨hid, htime, hagent, hmethod, hintent, hauth, hreason, hpolicy, hseq, hprev⟩ := hjson
  obtain ⟨s, hs⟩ := ht
  obtain ⟨s', hs'⟩ := ht'
  have hdecision : e.policyDecision.getD .null = e'.policyDecision.getD .null := by
    have hjson : ∀ d : Option Value, (d.getD .null).json = policyDecisionJson d := by
      intro d
      cases d <;> rfl
    exact Value.ext (by rw [hjson, hjson, hpolicy])
  simp only [LedgerEntry.hashedFields, Uuid.text_injective hid, serialized_inj hs hs' htime, hagent,
    hmethod, hintent, hauth, hreason, hdecision, hseq, hprev]

theorem computeEntryHashV1_noBar (e : LedgerEntry) : '|' ∉ (computeEntryHashV1 F e).toList := by
  rw [computeEntryHashV1, hexText, String.toList_ofList]
  exact not_mem_hexEncode (by decide)

theorem links_noBar {prev : String} {es : List LedgerEntry} (hp : '|' ∉ prev.toList)
    (hl : Links decodedShape prev es) (hh : ∀ e ∈ es, e.entryHash = computeEntryHashV1 F e) :
    ∀ e ∈ es, '|' ∉ e.prevHash.toList := by
  induction es generalizing prev with
  | nil => exact fun e he => absurd he List.not_mem_nil
  | cons x es ih =>
    obtain ⟨hx, hrest⟩ := hl
    have hnext : '|' ∉ x.entryHash.toList := by
      rw [hh x List.mem_cons_self]
      exact computeEntryHashV1_noBar x
    intro e he
    rcases List.mem_cons.mp he with rfl | he
    · have hprev : e.prevHash = prev := hx
      rwa [hprev]
    · exact ih hnext hrest (fun y hy => hh y (List.mem_cons_of_mem x hy)) e he

theorem Decodes.lastHash {rows : List EntryCells} {es : List LedgerEntry} (h : Decodes F rows es)
    (g : String) : (rows = [] ∧ es = []) ∨ ∃ row, rows.getLast? = some row ∧
      getString 10 row.entryHash = .ok (lastHash decodedShape g es) := by
  induction h generalizing g with
  | nil => exact Or.inl ⟨rfl, rfl⟩
  | @cons row e rows es hrow hrest ih =>
    rcases ih e.entryHash with ⟨rfl, rfl⟩ | ⟨last, hlast, hhash⟩
    · exact Or.inr ⟨row, rfl, (rowToEntry_ok hrow).2⟩
    · refine Or.inr ⟨last, ?_, hhash⟩
      rw [List.getLast?_cons, hlast]
      rfl

theorem Decodes.lastHash_eq {rows rows' : List EntryCells} {es es' : List LedgerEntry}
    (h : Decodes F rows es) (h' : Decodes F rows' es')
    (hlast : rows.getLast?.map EntryCells.entryHash = rows'.getLast?.map EntryCells.entryHash)
    (g : String) : HashChain.lastHash decodedShape g es = HashChain.lastHash decodedShape g es' := by
  rcases h.lastHash g with ⟨rfl, rfl⟩ | ⟨row, hrow, hhash⟩
  · rcases h'.lastHash g with ⟨_, rfl⟩ | ⟨row', hrow', _⟩
    · rfl
    · rw [hrow'] at hlast
      exact absurd hlast (by simp)
  · rcases h'.lastHash g with ⟨rfl, rfl⟩ | ⟨row', hrow', hhash'⟩
    · rw [hrow] at hlast
      exact absurd hlast (by simp)
    · rw [hrow, hrow'] at hlast
      rw [Option.some.inj hlast] at hhash
      exact Except.ok.inj (hhash.symm.trans hhash')

theorem Decodes.mem {rows : List EntryCells} {es : List LedgerEntry} (h : Decodes F rows es)
    {e : LedgerEntry} (he : e ∈ es) : ∃ row ∈ rows, rowToEntry F row = .ok e := by
  induction h with
  | nil => exact absurd he List.not_mem_nil
  | @cons row x rows es hrow hrest ih =>
    rcases List.mem_cons.mp he with rfl | he
    · exact ⟨row, List.mem_cons_self, hrow⟩
    · obtain ⟨y, hy, hye⟩ := ih he
      exact ⟨y, List.mem_cons_of_mem row hy, hye⟩

/-- Two tables that both verify, with as many rows and the same last hash, agree
in the hashed fields of every row, unless two of the messages they hash collide. -/
theorem verify_binding {table table' : List EntryCells} {r r' : VerifyResult}
    (h : verify F table = .ok r) (h' : verify F table' = .ok r') (hv : r.valid = true)
    (hv' : r'.valid = true) (hn : r.entriesChecked = r'.entriesChecked)
    (hlast : (bySeq table).getLast?.map EntryCells.entryHash =
      (bySeq table').getLast?.map EntryCells.entryHash)
    (hsha : Set.InjOn sha256 (hashedMessages F table ∪ hashedMessages F table')) :
    ∃ es es', Decodes F (bySeq table) es ∧ Decodes F (bySeq table') es' ∧
      es.map LedgerEntry.hashedFields = es'.map LedgerEntry.hashedFields := by
  obtain ⟨hcount, es, hes, hlinks, hhash⟩ := verifyFrom_valid h hv
  obtain ⟨hcount', es', hes', hlinks', hhash'⟩ := verifyFrom_valid h' hv'
  refine ⟨es, es', hes, hes', links_binding ?_ hlinks hlinks' ?_ (hes.lastHash_eq hes' hlast _)⟩
  · intro x hx y hy hxy
    obtain ⟨row, hrow, hrx⟩ := hes.mem hx
    obtain ⟨row', hrow', hry⟩ := hes'.mem hy
    have hmx : hashMessageV1 F x ∈ hashedMessages F table ∪ hashedMessages F table' :=
      Or.inl ⟨row, (List.mem_insertionSort _).mp hrow, x, hrx, rfl⟩
    have hmy : hashMessageV1 F y ∈ hashedMessages F table ∪ hashedMessages F table' :=
      Or.inr ⟨row', (List.mem_insertionSort _).mp hrow', y, hry, rfl⟩
    have hdigest : hexText (sha256 (hashMessageV1 F x)) = hexText (sha256 (hashMessageV1 F y)) := by
      have hx' := hhash x hx
      have hy' := hhash' y hy
      exact hx'.symm.trans (hxy.trans hy')
    have hmessage := hsha hmx hmy (hexText_injective hdigest)
    have hgenesis : '|' ∉ genesisPrevHash.toList := by decide
    have hfields := hashMessageV1_inj (rowToEntry_ok hrx).1 (rowToEntry_ok hry).1
      (links_noBar hgenesis hlinks hhash x hx) (links_noBar hgenesis hlinks' hhash' y hy) hmessage
    exact ⟨hfields, congrArg HashedFields.prevHash hfields⟩
  · have := hes.length_eq
    have := hes'.length_eq
    omega

variable (F) in
/-- An entry that is decoded from its row as it was, and hashes to what it stores. -/
structure LedgerEntry.Sound (e : LedgerEntry) : Prop where
  time : Reading e.timestamp
  decodes : e.decoded = e
  version : e.chainVersion = 1
  hashed : e.entryHash = computeEntryHashV1 F e

variable (F) in
def cellsOf (es : List LedgerEntry) : List EntryCells := es.map fun e => (e.row F).cells

theorem LedgerEntry.Sound.decoded {e : LedgerEntry} (h : e.Sound F) :
    rowToEntry F (e.row F).cells = .ok e := by
  rw [rowToEntry_row h.time, h.decodes]

theorem cellsOf_decodes {es : List LedgerEntry} (h : ∀ e ∈ es, e.Sound F) :
    Decodes F (cellsOf F es) es :=
  List.forall₂_map_left_iff.mpr (List.forall₂_same.mpr fun e he => (h e he).decoded)

theorem cellsOf_message {es : List LedgerEntry} (h : ∀ e ∈ es, e.Sound F) {m : Octets}
    (hm : m ∈ hashedMessages F (cellsOf F es)) : ∃ e ∈ es, m = hashMessageV1 F e := by
  obtain ⟨row, hrow, e, hdecode, rfl⟩ := hm
  obtain ⟨x, hx, rfl⟩ := List.mem_map.mp hrow
  rw [(h x hx).decoded] at hdecode
  exact ⟨x, hx, by rw [Except.ok.inj hdecode]⟩

theorem verifyFrom_cellsOf {prev : String} {es : List LedgerEntry} (h : ∀ e ∈ es, e.Sound F)
    (hlinks : Links decodedShape prev es) (count : Nat) :
    verifyFrom F prev count (cellsOf F es) = .ok ⟨true, count + es.length, none, none⟩ := by
  induction es generalizing prev count with
  | nil => rfl
  | cons e es ih =>
    have he := h e List.mem_cons_self
    have hrest := ih (fun x hx => h x (List.mem_cons_of_mem e hx)) hlinks.2 (count + 1)
    have hstep : verifyFrom F prev count (cellsOf F (e :: es)) =
        verifyFrom F e.entryHash (count + 1) (cellsOf F es) :=
      verifyFrom_cons he.decoded he.version hlinks.1 he.hashed
    rw [hstep, List.length_cons, Nat.add_comm es.length, ← Nat.add_assoc]
    exact hrest

def absentEntry : LedgerEntry :=
  newEntry bitsText (numberedUuid 1) newYear (1, genesisPrevHash) sampleRequest

/-- The same entry with an explicit `null` for its absent policy decision. -/
def nullEntry : LedgerEntry := { absentEntry with policyDecision := some .null }

/-- The entry that follows. -/
def nextEntry : LedgerEntry :=
  newEntry bitsText (numberedUuid 2) newYear (2, absentEntry.entryHash) sampleRequest

theorem absentEntry_sound : absentEntry.Sound bitsText :=
  ⟨newYear.property, rfl, rfl, newEntry_entryHash _ _ _ _ _⟩

theorem nullEntry_sound : nullEntry.Sound bitsText :=
  ⟨newYear.property, rfl, rfl, newEntry_entryHash _ _ _ _ _⟩

theorem nextEntry_sound : nextEntry.Sound bitsText :=
  ⟨newYear.property, rfl, rfl, newEntry_entryHash _ _ _ _ _⟩

def nextDigest : Octets := linkedDigest nextEntry (hexEncode (firstDigest absentEntry))

theorem nextEntry_digest : sha256 (hashMessageV1 bitsText nextEntry) = nextDigest := by
  refine linkedDigest_eq ?_
  have hprev : nextEntry.prevHash = absentEntry.entryHash := rfl
  rw [hprev, absentEntry_sound.hashed, computeEntryHashV1, firstDigest_eq (e := absentEntry) rfl, hexText]

theorem absentEntry_heads : [hashMessageV1 bitsText absentEntry, hashMessageV1 bitsText nextEntry].map
    (fun m => (sha256 m).head?) = [some 122, some 171] := by
  have hheads : (firstDigest absentEntry).head? = some 122 ∧ nextDigest.head? = some 171 := by
    decide +kernel
  rw [List.map_cons, List.map_cons, List.map_nil, firstDigest_eq (e := absentEntry) rfl,
    nextEntry_digest, hheads.1, hheads.2]

/-- No two of these messages have one digest. -/
theorem injOn_of_heads {messages : List Octets} {S : Set Octets} (h : ∀ m ∈ S, m ∈ messages)
    (hnodup : (messages.map fun m => (sha256 m).head?).Nodup) : Set.InjOn sha256 S :=
  fun m hm m' hm' he =>
    List.inj_on_of_nodup_map hnodup (h m hm) (h m' hm') (congrArg List.head? he)

theorem verify_binding_null :
    ∃ es es', Decodes bitsText (bySeq (cellsOf bitsText [absentEntry, nextEntry])) es ∧
      Decodes bitsText (bySeq (cellsOf bitsText [nullEntry, nextEntry])) es' ∧
      es.map LedgerEntry.hashedFields = es'.map LedgerEntry.hashedFields := by
  have habsent : ∀ e ∈ [absentEntry, nextEntry], e.Sound bitsText :=
    List.forall_mem_cons.mpr ⟨absentEntry_sound, List.forall_mem_singleton.mpr nextEntry_sound⟩
  have hnull : ∀ e ∈ [nullEntry, nextEntry], e.Sound bitsText :=
    List.forall_mem_cons.mpr ⟨nullEntry_sound, List.forall_mem_singleton.mpr nextEntry_sound⟩
  have hmessages : ∀ m ∈ hashedMessages bitsText (cellsOf bitsText [absentEntry, nextEntry]) ∪
      hashedMessages bitsText (cellsOf bitsText [nullEntry, nextEntry]),
      m ∈ [hashMessageV1 bitsText absentEntry, hashMessageV1 bitsText nextEntry] := by
    rintro m (hm | hm)
    · obtain ⟨e, he, rfl⟩ := cellsOf_message habsent hm
      exact List.mem_map_of_mem he
    · obtain ⟨e, he, rfl⟩ := cellsOf_message hnull hm
      exact List.mem_map_of_mem (f := hashMessageV1 bitsText) he
  refine verify_binding (verifyFrom_cellsOf habsent ⟨rfl, rfl, trivial⟩ 0)
    (verifyFrom_cellsOf hnull ⟨rfl, rfl, trivial⟩ 0) rfl rfl rfl rfl
    (injOn_of_heads hmessages ?_)
  rw [absentEntry_heads]
  decide

end ClavenarLite
