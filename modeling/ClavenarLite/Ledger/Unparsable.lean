import ClavenarLite.Ledger.Tamper

/-! Policy decisions whose stored text is no JSON document: the decoder reads them
as `null`, which is also how a row without a decision is hashed. -/

namespace ClavenarLite

open Bytes Fallible HashChain Rfc3339 Sha TextJson

variable (F : FloatText)

/-- A text is stored, and it is no JSON document. -/
def Unparsable (cell : SqlValue) : Prop := ∃ bytes, cell = .text bytes ∧ fromSlice F bytes = none

/-- An unparsable text taken out of the column, as far as it is a text to SQLite. -/
def blankCell : SqlValue → SqlValue
  | .text bytes =>
    match fromUtf8 bytes with
    | some s => if (fromStr F s).isSome then .text bytes else .null
    | none => .text bytes
  | v => v

def EntryCells.blank (row : EntryCells) : EntryCells :=
  { row with policyDecision := blankCell F row.policyDecision }

/-- The rows decode, each names the hash before it, and each stores the version 1
hash of what it decodes to. -/
inductive IntactFrom : String → List EntryCells → Prop
  | nil (prev : String) : IntactFrom prev []
  | cons {row : EntryCells} {rows : List EntryCells} {e : LedgerEntry}
      (decodes : rowToEntry F row = .ok e) (version : e.chainVersion = 1)
      (stored : e.entryHash = computeEntryHashV1 F e) (rest : IntactFrom e.entryHash rows) :
      IntactFrom e.prevHash (row :: rows)

def Intact (table : List EntryCells) : Prop := IntactFrom F genesisPrevHash (bySeq table)

variable {F}

theorem intactFrom_cons {prev : String} {row : EntryCells} {rows : List EntryCells} :
    IntactFrom F prev (row :: rows) ↔ ∃ e, rowToEntry F row = .ok e ∧ e.prevHash = prev ∧
      e.chainVersion = 1 ∧ e.entryHash = computeEntryHashV1 F e ∧ IntactFrom F e.entryHash rows := by
  constructor
  · intro h
    cases h with
    | cons hdecode hversion hstored hrest => exact ⟨_, hdecode, rfl, hversion, hstored, hrest⟩
  · rintro ⟨e, hdecode, rfl, hversion, hstored, hrest⟩
    exact .cons hdecode hversion hstored hrest

theorem verifyFrom_intact {prev : String} {count : Nat} {rows : List EntryCells} :
    (∃ r, verifyFrom F prev count rows = .ok r ∧ r.valid = true) ↔ IntactFrom F prev rows := by
  induction rows generalizing prev count with
  | nil => exact ⟨fun _ => .nil prev, fun _ => ⟨_, rfl, rfl⟩⟩
  | cons row rows ih =>
    rw [intactFrom_cons]
    constructor
    · rintro ⟨r, h, hv⟩
      obtain ⟨-, es, hes, hlinks, hall⟩ := verifyFrom_valid h hv
      cases hes with
      | @cons _ e _ es hrow hrest =>
        have hversion : e.chainVersion = 1 := by
          by_contra hne
          rw [verifyFrom, hrow] at h
          simp only [bind, Except.bind, recomputeForVersion, if_neg hne] at h
          obtain rfl := Except.ok.inj h
          exact absurd hv (by simp)
        have hstored := hall e List.mem_cons_self
        rw [verifyFrom_cons hrow hversion hlinks.1 hstored] at h
        exact ⟨e, hrow, hlinks.1, hversion, hstored, ih.mp ⟨r, h, hv⟩⟩
    · rintro ⟨e, hrow, hprev, hversion, hstored, hrest⟩
      rw [verifyFrom_cons hrow hversion hprev hstored]
      exact ih.mpr hrest

theorem rowToEntry_policy {row : EntryCells} {e : LedgerEntry} (h : rowToEntry F row = .ok e) :
    ∃ o, getOption 8 row.policyDecision = .ok o ∧
      e.policyDecision = o.map (decodePolicyDecision F) ∧
      ∀ c o', getOption 8 c = .ok o' → rowToEntry F { row with policyDecision := c } =
        .ok { e with policyDecision := o'.map (decodePolicyDecision F) } := by
  obtain ⟨_, h1, h⟩ := bind_ok h
  obtain ⟨_, h2, h⟩ := bind_ok h
  obtain ⟨o, ho, h⟩ := bind_ok h
  obtain ⟨_, h3, h⟩ := bind_ok h
  obtain ⟨_, h4, h⟩ := bind_ok h
  obtain ⟨_, h5, h⟩ := bind_ok h
  obtain ⟨_, h6, h⟩ := bind_ok h
  obtain ⟨_, h7, h⟩ := bind_ok h
  obtain ⟨_, h8, h⟩ := bind_ok h
  obtain ⟨_, h9, h⟩ := bind_ok h
  obtain ⟨_, h10, h⟩ := bind_ok h
  obtain ⟨_, h11, h⟩ := bind_ok h
  obtain ⟨_, h12, h⟩ := bind_ok h
  obtain ⟨_, h13, h⟩ := bind_ok h
  obtain ⟨_, h14, h⟩ := bind_ok h
  obtain rfl := Except.ok.inj h
  refine ⟨o, ho, rfl, fun c o' hc => ?_⟩
  simp only [rowToEntry, h1, h2, hc, h3, h4, h5, h6, h7, h8, h9, h10, h11, h12, h13, h14, bind,
    Except.bind, pure, Except.pure]

/-- The column and its blank form decode alike, up to `null` for nothing. -/
theorem blankCell_reads (c : SqlValue) :
    (∃ x, getOption 8 c = .error x ∧ getOption 8 (blankCell F c) = .error x) ∨
      ∃ o o', getOption 8 c = .ok o ∧ getOption 8 (blankCell F c) = .ok o' ∧
        policyDecisionJson (o'.map (decodePolicyDecision F)) =
          policyDecisionJson (o.map (decodePolicyDecision F)) := by
  cases c with
  | text bytes =>
    have hread : getOption 8 (.text bytes) = (getString 8 (.text bytes)).map some := rfl
    rw [getString] at hread
    cases hu : fromUtf8 bytes with
    | none =>
      rw [hu] at hread
      rw [blankCell, hu]
      exact Or.inl ⟨_, hread, hread⟩
    | some s =>
      rw [hu] at hread
      rw [blankCell, hu]
      by_cases hs : (fromStr F s).isSome = true
      · exact Or.inr ⟨some s, some s, hread, by simp only [if_pos hs]; exact hread, rfl⟩
      · refine Or.inr ⟨some s, none, hread, by simp only [if_neg hs]; rfl, ?_⟩
        have hnone : fromStr F s = none := Option.not_isSome_iff_eq_none.mp hs
        rw [Option.map_some, decodePolicyDecision, hnone]
        rfl
  | null => exact Or.inr ⟨none, none, rfl, rfl, rfl⟩
  | integer i => exact Or.inl ⟨_, rfl, rfl⟩
  | real x => exact Or.inl ⟨_, rfl, rfl⟩
  | blob bytes => exact Or.inl ⟨_, rfl, rfl⟩

theorem computeEntryHashV1_policy {e : LedgerEntry} {d : Option Value}
    (h : policyDecisionJson d = policyDecisionJson e.policyDecision) :
    computeEntryHashV1 F { e with policyDecision := d } = computeEntryHashV1 F e := by
  rw [computeEntryHashV1, computeEntryHashV1, hashMessageV1, hashMessageV1, hashableEntryV1,
    hashableEntryV1, h]

theorem rowToEntry_blank {row : EntryCells} {e : LedgerEntry} (h : rowToEntry F row = .ok e) :
    ∃ d, rowToEntry F (row.blank F) = .ok { e with policyDecision := d } ∧
      policyDecisionJson d = policyDecisionJson e.policyDecision := by
  obtain ⟨o, ho, hpolicy, hreplace⟩ := rowToEntry_policy h
  rcases blankCell_reads (F := F) row.policyDecision with ⟨x, hx, -⟩ | ⟨o₁, o', ho₁, ho', hjson⟩
  · exact absurd (hx.symm.trans ho) (by simp)
  · obtain rfl := Except.ok.inj (ho₁.symm.trans ho)
    refine ⟨_, hreplace _ o' ho', ?_⟩
    rw [hpolicy]
    exact hjson

theorem rowToEntry_of_blank {row : EntryCells} {e : LedgerEntry}
    (h : rowToEntry F (row.blank F) = .ok e) :
    ∃ d, rowToEntry F row = .ok { e with policyDecision := d } ∧
      policyDecisionJson d = policyDecisionJson e.policyDecision := by
  obtain ⟨o', ho', hpolicy, hreplace⟩ := rowToEntry_policy h
  rcases blankCell_reads (F := F) row.policyDecision with ⟨x, -, hx⟩ | ⟨o, o₁, ho, ho₁, hjson⟩
  · exact absurd (hx.symm.trans ho') (by simp)
  · obtain rfl := Except.ok.inj (ho₁.symm.trans ho')
    refine ⟨_, hreplace _ o ho, ?_⟩
    rw [hpolicy]
    exact hjson.symm

theorem intactFrom_blank {prev : String} {rows : List EntryCells} :
    IntactFrom F prev (rows.map (EntryCells.blank F)) ↔ IntactFrom F prev rows := by
  induction rows generalizing prev with
  | nil => exact ⟨fun _ => .nil prev, fun _ => .nil prev⟩
  | cons row rows ih =>
    rw [List.map_cons, intactFrom_cons, intactFrom_cons]
    constructor
    · rintro ⟨e, hrow, hprev, hversion, hstored, hrest⟩
      obtain ⟨d, hrow', hjson⟩ := rowToEntry_of_blank hrow
      refine ⟨_, hrow', hprev, hversion, ?_, ih.mp hrest⟩
      rw [computeEntryHashV1_policy hjson]
      exact hstored
    · rintro ⟨e, hrow, hprev, hversion, hstored, hrest⟩
      obtain ⟨d, hrow', hjson⟩ := rowToEntry_blank hrow
      refine ⟨_, hrow', hprev, hversion, ?_, ih.mpr hrest⟩
      rw [computeEntryHashV1_policy hjson]
      exact hstored

theorem bySeq_blank (table : List EntryCells) :
    bySeq (table.map (EntryCells.blank F)) = (bySeq table).map (EntryCells.blank F) := by
  have hsort := List.map_insertionSort (fun r s : EntryCells => r.seq.Before s.seq)
    (fun r s : EntryCells => r.seq.Before s.seq) (EntryCells.blank F) table
  exact (hsort fun _ _ _ _ => Iff.rfl).symm

theorem intact_blank {table : List EntryCells} :
    Intact F (table.map (EntryCells.blank F)) ↔ Intact F table := by
  rw [Intact, bySeq_blank]
  exact intactFrom_blank

theorem linked_intactFrom {prev : String} {n : Int} {rows : List EntryRow}
    (hl : Linked entryShape prev n rows) (hw : ∀ r ∈ rows, Written F r) :
    IntactFrom F prev (rows.map EntryRow.cells) := by
  induction rows generalizing prev n with
  | nil => exact .nil prev
  | cons r rows ih =>
    obtain ⟨-, hp, hrows⟩ := hl
    obtain ⟨e, hdecode, hversion, hprev, hstored, hhash⟩ := (hw r List.mem_cons_self).decodes
    have hrest := ih hrows fun x hx => hw x (List.mem_cons_of_mem r hx)
    have hlast : e.entryHash = entryShape.hash r := hstored
    rw [← hlast] at hrest
    exact intactFrom_cons.mpr ⟨e, hdecode, hprev.trans hp, hversion, hhash.symm, hrest⟩

/-- Where everything else is intact, a row is accepted exactly if its own hash fits. -/
theorem intactFrom_replaced {prev : String} {pre post : List EntryCells} {row row' : EntryCells}
    {e : LedgerEntry} {d : Option Value} (h : IntactFrom F prev (pre ++ row :: post))
    (hrow : rowToEntry F row = .ok e)
    (hrow' : rowToEntry F row' = .ok { e with policyDecision := d }) :
    IntactFrom F prev (pre ++ row' :: post) ↔
      e.entryHash = computeEntryHashV1 F { e with policyDecision := d } := by
  induction pre generalizing prev with
  | nil =>
    obtain ⟨e₁, hdecode, hprev, hversion, -, hrest⟩ := intactFrom_cons.mp h
    obtain rfl := Except.ok.inj (hdecode.symm.trans hrow)
    rw [List.nil_append, intactFrom_cons]
    constructor
    · rintro ⟨e', hdecode', -, -, hstored, -⟩
      obtain rfl := Except.ok.inj (hdecode'.symm.trans hrow')
      exact hstored
    · intro hstored
      exact ⟨_, hrow', hprev, hversion, hstored, hrest⟩
  | cons x pre ih =>
    obtain ⟨y, hdecode, hprev, hversion, hstored, hrest⟩ := intactFrom_cons.mp h
    rw [List.cons_append, intactFrom_cons, ← ih hrest]
    constructor
    · rintro ⟨y', hdecode', -, -, -, hrest'⟩
      obtain rfl := Except.ok.inj (hdecode'.symm.trans hdecode)
      exact hrest'
    · intro hrest'
      exact ⟨y, hdecode, hprev, hversion, hstored, hrest'⟩

theorem policyDecisionJson_null {d : Option Value} :
    policyDecisionJson d = .null ↔ d = none ∨ d = some .null := by
  cases d with
  | none => simp [policyDecisionJson]
  | some v =>
    have hv : v.json = Json.null ↔ v = .null := ⟨fun h => Value.ext h, fun h => congrArg _ h⟩
    simpa [policyDecisionJson] using hv

theorem hashMessageV1_null {e : LedgerEntry} :
    hashMessageV1 F e = hashMessageV1 F { e with policyDecision := some .null } ↔
      e.policyDecision = none ∨ e.policyDecision = some .null := by
  rw [← policyDecisionJson_null]
  constructor
  · intro h
    have htext := utf8_injective (List.append_cancel_left h)
    have hjson := print_injective F (String.ofList_injective htext)
    simp only [hashableEntryV1, Json.obj.injEq, List.cons.injEq, Prod.mk.injEq] at hjson
    exact hjson.2.2.2.2.2.2.2.1.2
  · intro h
    rw [hashMessageV1, hashMessageV1, hashableEntryV1, hashableEntryV1, h]
    rfl

theorem bySeq_replaced {pre post : List EntryRow} {r : EntryRow} {row : EntryCells}
    (hc : Chain entryShape (pre ++ r :: post)) (hs : row.seq = r.cells.seq) :
    bySeq (pre.map EntryRow.cells ++ row :: post.map EntryRow.cells) =
      pre.map EntryRow.cells ++ row :: post.map EntryRow.cells := by
  have hsorted : ((pre ++ r :: post).map fun x => x.cells.seq).Pairwise SqlValue.Before := by
    rw [List.pairwise_map]
    exact hc.pairwise.imp fun hlt => le_of_lt hlt
  have hseqs : (pre.map EntryRow.cells ++ row :: post.map EntryRow.cells).map EntryCells.seq =
      (pre ++ r :: post).map fun x => x.cells.seq := by
    simp [hs, Function.comp_def]
  rw [← hseqs, List.pairwise_map] at hsorted
  exact List.Pairwise.insertionSort_eq hsorted

/-- The row as it is stored, but for another text in the column of the decision. -/
def EntryRow.overwritten (r : EntryRow) (text : String) : EntryCells :=
  { r.cells with policyDecision := .ofString text }

/-- A row of an honest ledger passes with an unparsable decision exactly if it had
none, unless the two messages collide. -/
theorem overwritten_accepted_iff {pre post : List EntryRow} {r : EntryRow} {e : LedgerEntry}
    {text : String} (h : Honest F (pre ++ r :: post)) (hrow : rowToEntry F r.cells = .ok e)
    (htext : fromStr F text = none) (hsha : Set.InjOn sha256
      {hashMessageV1 F e, hashMessageV1 F { e with policyDecision := some .null }}) :
    (∃ res, verify F (pre.map EntryRow.cells ++ r.overwritten text :: post.map EntryRow.cells) =
      .ok res ∧ res.valid = true) ↔ e.policyDecision = none ∨ e.policyDecision = some .null := by
  have hintact : IntactFrom F genesisPrevHash
      (pre.map EntryRow.cells ++ r.cells :: post.map EntryRow.cells) := by
    have hall := linked_intactFrom h.chain h.written
    rwa [List.map_append, List.map_cons] at hall
  have hnull : decodePolicyDecision F text = .null := by
    rw [decodePolicyDecision, htext]
    rfl
  have hrow' : rowToEntry F (r.overwritten text) =
      .ok { e with policyDecision := some .null } := by
    obtain ⟨-, -, -, hreplace⟩ := rowToEntry_policy hrow
    have hread : getOption 8 (SqlValue.ofString text) = .ok (some text) :=
      getOption_ofOption 8 (some text)
    rw [EntryRow.overwritten, hreplace _ _ hread, Option.map_some, hnull]
  obtain ⟨w, hw, -, -, hstored, hhash⟩ := (h.written r (by simp)).decodes
  obtain rfl := Except.ok.inj (hw.symm.trans hrow)
  have hfits : w.entryHash = computeEntryHashV1 F { w with policyDecision := some .null } ↔
      hashMessageV1 F w = hashMessageV1 F { w with policyDecision := some .null } := by
    constructor
    · intro he
      exact hsha (Or.inl rfl) (Or.inr rfl) (hexText_injective (hhash.trans he))
    · intro he
      exact hhash.symm.trans (congrArg (fun m => hexText (sha256 m)) he)
  have hsorted := bySeq_replaced h.chain
    (show (r.overwritten text).seq = r.cells.seq from rfl)
  rw [verify, hsorted, verifyFrom_intact, intactFrom_replaced hintact hrow hrow', hfits,
    hashMessageV1_null]

/-- The walk accepts a table with an unparsable policy decision exactly if the table
is intact once such texts are taken out of it; and of an honest ledger, exactly if
the overwritten row had no policy decision. -/
theorem unparsable_rejected_iff :
    (∀ table : List EntryCells, ((∃ row ∈ table, Unparsable F row.policyDecision) →
        ∀ r, verify F table = .ok r → r.valid = false) ↔
      ((∃ row ∈ table, Unparsable F row.policyDecision) →
        ¬ Intact F (table.map (EntryCells.blank F)))) ∧
    ∀ (pre post : List EntryRow) (r : EntryRow) (e : LedgerEntry) (text : String),
      Honest F (pre ++ r :: post) → rowToEntry F r.cells = .ok e → fromStr F text = none →
      Set.InjOn sha256
        {hashMessageV1 F e, hashMessageV1 F { e with policyDecision := some .null }} →
      ((∀ res, verify F (pre.map EntryRow.cells ++ r.overwritten text :: post.map EntryRow.cells) =
        .ok res → res.valid = false) ↔ ¬ (e.policyDecision = none ∨ e.policyDecision = some .null)) := by
  have hrefused : ∀ table : List EntryCells,
      (∀ r, verify F table = .ok r → r.valid = false) ↔
        ¬ ∃ r, verify F table = .ok r ∧ r.valid = true := by
    intro table
    simp only [not_exists, not_and, Bool.not_eq_true]
  refine ⟨fun table => ?_, fun pre post r e text h hrow htext hsha => ?_⟩
  · refine imp_congr_right fun _ => ?_
    rw [hrefused, verify, verifyFrom_intact, intact_blank, Intact]
  · rw [hrefused, overwritten_accepted_iff h hrow htext hsha]

theorem absent_honest : Honest bitsText [absentEntry.row bitsText] where
  chain := ⟨rfl, rfl, trivial⟩
  written r hr := by
    rw [List.mem_singleton.mp hr]
    exact ⟨_, _, _, _, rfl, by simp [sampleRequest]⟩

theorem unparsable_rejected_iff_absent :
    ¬ ∀ res, verify bitsText [(absentEntry.row bitsText).overwritten "not json"] = .ok res →
      res.valid = false := by
  have hsha : Set.InjOn sha256 {hashMessageV1 bitsText absentEntry,
      hashMessageV1 bitsText { absentEntry with policyDecision := some .null }} := by
    rintro m (rfl | rfl) m' (rfl | rfl) - <;> rfl
  have hp := (unparsable_rejected_iff (F := bitsText)).2 [] [] _ _ "not json" absent_honest
    absentEntry_sound.decoded (by decide +kernel) hsha
  exact fun h => hp.mp h (Or.inl rfl)

/-- Garbage in the column of a row written without a decision goes unnoticed. -/
theorem unparsable_accepted :
    Unparsable bitsText ((absentEntry.row bitsText).overwritten "not json").policyDecision ∧
      verify bitsText [(absentEntry.row bitsText).overwritten "not json"] =
        .ok ⟨true, 1, none, none⟩ := by
  have htext : fromStr bitsText "not json" = none := by decide +kernel
  refine ⟨⟨utf8 "not json", rfl, by rw [fromSlice, fromUtf8_utf8, Option.bind_some, htext]⟩, ?_⟩
  have hrow : rowToEntry bitsText ((absentEntry.row bitsText).overwritten "not json") =
      .ok nullEntry := by
    obtain ⟨-, -, -, hreplace⟩ := rowToEntry_policy absentEntry_sound.decoded
    have hread : getOption 8 (SqlValue.ofString "not json") = .ok (some "not json") :=
      getOption_ofOption 8 (some "not json")
    rw [EntryRow.overwritten, hreplace _ _ hread, Option.map_some, decodePolicyDecision, htext]
    rfl
  exact verifyFrom_cons hrow rfl rfl nullEntry_sound.hashed

end ClavenarLite
