import ClavenarLite.Ledger.Tamper

/-! Where the walk stops on a table that was tampered with. -/

namespace ClavenarLite

open Bytes HashChain Sha TextJson

variable (F : FloatText)

/-- The walk goes on past the entry after one whose hash was `prev`. -/
structure Passing (prev : String) (e : LedgerEntry) : Prop where
  version : e.chainVersion = 1
  linked : e.prevHash = prev
  hashed : computeEntryHashV1 F e = e.entryHash

def Verifies : String → List LedgerEntry → Prop
  | _, [] => True
  | prev, e :: es => Passing F prev e ∧ Verifies e.entryHash es

/-- The result of a walk that stops at the entry after `count` others. -/
def stoppedAt (count : Nat) (e : LedgerEntry) : VerifyResult :=
  if e.chainVersion = 1 then ⟨false, count, some e.seq, none⟩
  else ⟨false, count, none, some e.chainVersion⟩

variable {F}

theorem stoppedAt_invalid (count : Nat) (e : LedgerEntry) : (stoppedAt count e).valid = false := by
  unfold stoppedAt
  split_ifs <;> rfl

theorem stoppedAt_checked (count : Nat) (e : LedgerEntry) :
    (stoppedAt count e).entriesChecked = count := by
  unfold stoppedAt
  split_ifs <;> rfl

theorem verifies_append {prev : String} {xs ys : List LedgerEntry} :
    Verifies F prev (xs ++ ys) ↔
      Verifies F prev xs ∧ Verifies F (lastHash decodedShape prev xs) ys := by
  induction xs generalizing prev with
  | nil => exact ⟨fun h => ⟨trivial, h⟩, fun h => h.2⟩
  | cons x xs ih =>
    simp only [List.cons_append, Verifies, lastHash, ih, and_assoc]
    rfl

theorem Verifies.links {prev : String} {es : List LedgerEntry} (h : Verifies F prev es) :
    Links decodedShape prev es ∧ ∀ e ∈ es, e.entryHash = computeEntryHashV1 F e := by
  induction es generalizing prev with
  | nil => exact ⟨trivial, fun e he => absurd he List.not_mem_nil⟩
  | cons x es ih =>
    obtain ⟨hx, hes⟩ := h
    obtain ⟨hlinks, hall⟩ := ih hes
    refine ⟨⟨hx.linked, hlinks⟩, ?_⟩
    intro e he
    rcases List.mem_cons.mp he with rfl | he
    · exact hx.hashed.symm
    · exact hall e he

/-- The walk passes every entry, or stops at the first that it cannot pass. -/
theorem verifyFrom_decoded {rows : List EntryCells} {es : List LedgerEntry} (h : Decodes F rows es)
    (prev : String) (count : Nat) :
    (Verifies F prev es ∧
        verifyFrom F prev count rows = .ok ⟨true, count + es.length, none, none⟩) ∨
      ∃ good e late, es = good ++ e :: late ∧ Verifies F prev good ∧
        ¬ Passing F (lastHash decodedShape prev good) e ∧
        verifyFrom F prev count rows = .ok (stoppedAt (count + good.length) e) := by
  induction h generalizing prev count with
  | nil => exact Or.inl ⟨trivial, rfl⟩
  | @cons row e rows es hrow hrest ih =>
    by_cases hversion : e.chainVersion = 1
    · by_cases hbad : e.prevHash ≠ prev ∨ computeEntryHashV1 F e ≠ e.entryHash
      · refine Or.inr ⟨[], e, es, rfl, trivial, ?_, ?_⟩
        · intro hp
          rcases hbad with hlink | hhash
          · exact hlink hp.linked
          · exact hhash hp.hashed
        · simp only [verifyFrom, hrow, bind, Except.bind, recomputeForVersion, if_pos hversion,
            if_pos hbad, stoppedAt, List.length_nil, Nat.add_zero]
      · obtain ⟨hlink, hhash⟩ := not_or.mp hbad
        have hpass : Passing F prev e := ⟨hversion, not_not.mp hlink, not_not.mp hhash⟩
        have hstep : verifyFrom F prev count (row :: rows) =
            verifyFrom F e.entryHash (count + 1) rows :=
          verifyFrom_cons hrow hversion hpass.linked hpass.hashed.symm
        have hcount (n : Nat) : count + 1 + n = count + (n + 1) := by omega
        rcases ih e.entryHash (count + 1) with ⟨hall, hrun⟩ | ⟨good, x, late, hes, hgood, hx, hrun⟩
        · refine Or.inl ⟨⟨hpass, hall⟩, ?_⟩
          rw [hstep, hrun, hcount, List.length_cons]
        · refine Or.inr ⟨e :: good, x, late, ?_, ⟨hpass, hgood⟩, hx, ?_⟩
          · rw [hes, List.cons_append]
          · rw [hstep, hrun, hcount, List.length_cons]
    · refine Or.inr ⟨[], e, es, rfl, trivial, fun hp => hversion hp.version, ?_⟩
      simp only [verifyFrom, hrow, bind, Except.bind, recomputeForVersion, if_neg hversion,
        stoppedAt, List.length_nil, Nat.add_zero]

theorem mem_hashedMessages {table : List EntryCells} {e : LedgerEntry}
    (h : ∃ row ∈ table, rowToEntry F row = .ok e) : hashMessageV1 F e ∈ hashedMessages F table := by
  obtain ⟨row, hrow, hok⟩ := h
  exact ⟨row, hrow, e, hok, rfl⟩

/-- Entries of two tables that a walk passes have the same hashed fields if they end in the
same hash, however many they are. -/
theorem verifies_determined {table table' : List EntryCells} {xs ys : List LedgerEntry}
    (hsha : Set.InjOn sha256 (hashedMessages F table ∪ hashedMessages F table'))
    (hgenesis : ∀ m ∈ hashedMessages F table ∪ hashedMessages F table',
      hexText (sha256 m) ≠ genesisPrevHash)
    (hmx : ∀ x ∈ xs, ∃ row ∈ table, rowToEntry F row = .ok x)
    (hmy : ∀ y ∈ ys, ∃ row ∈ table', rowToEntry F row = .ok y)
    (hx : Verifies F genesisPrevHash xs) (hy : Verifies F genesisPrevHash ys)
    (hlast : lastHash decodedShape genesisPrevHash xs = lastHash decodedShape genesisPrevHash ys) :
    xs.map LedgerEntry.hashedFields = ys.map LedgerEntry.hashedFields := by
  obtain ⟨hlinks, hhash⟩ := hx.links
  obtain ⟨hlinks', hhash'⟩ := hy.links
  have hbar : '|' ∉ genesisPrevHash.toList := by decide
  have hmessage : ∀ x ∈ xs, hashMessageV1 F x ∈ hashedMessages F table ∪ hashedMessages F table' :=
    fun x hx => Or.inl (mem_hashedMessages (hmx x hx))
  have hmessage' : ∀ y ∈ ys,
      hashMessageV1 F y ∈ hashedMessages F table ∪ hashedMessages F table' :=
    fun y hy => Or.inr (mem_hashedMessages (hmy y hy))
  have hbind : ∀ x ∈ xs, ∀ y ∈ ys, decodedShape.hash x = decodedShape.hash y →
      x.hashedFields = y.hashedFields ∧ decodedShape.prev x = decodedShape.prev y := by
    intro x hx y hy hxy
    obtain ⟨row, _, hrx⟩ := hmx x hx
    obtain ⟨row', _, hry⟩ := hmy y hy
    have hdigest : hexText (sha256 (hashMessageV1 F x)) = hexText (sha256 (hashMessageV1 F y)) :=
      (hhash x hx).symm.trans (hxy.trans (hhash' y hy))
    have hsame := hsha (hmessage x hx) (hmessage' y hy) (hexText_injective hdigest)
    have hfields := hashMessageV1_inj (rowToEntry_ok hrx).1 (rowToEntry_ok hry).1
      (links_noBar hbar hlinks hhash x hx) (links_noBar hbar hlinks' hhash' y hy) hsame
    exact ⟨hfields, congrArg HashedFields.prevHash hfields⟩
  refine links_binding hbind hlinks hlinks' ?_ hlast
  refine links_length_eq (fun x hx y hy hxy => (hbind x hx y hy hxy).2) hlinks hlinks' ?_ ?_ hlast
  · exact fun x hx he => hgenesis _ (hmessage x hx) ((hhash x hx).symm.trans he)
  · exact fun y hy he => hgenesis _ (hmessage' y hy) ((hhash' y hy).symm.trans he)

theorem stops_after {prev : String} {before es good late : List LedgerEntry} {e : LedgerEntry}
    (hbefore : Verifies F prev before) (hsplit : before ++ es = good ++ e :: late)
    (he : ¬ Passing F (lastHash decodedShape prev good) e) : before.length ≤ good.length := by
  rcases List.append_eq_append_iff.mp hsplit with ⟨as, hgood, _⟩ | ⟨bs, hlonger, hlate⟩
  · rw [hgood, List.length_append]
    omega
  · cases bs with
    | nil => rw [hlonger, List.append_nil]
    | cons b bs =>
      obtain ⟨rfl, _⟩ := List.cons.inj hlate
      rw [hlonger] at hbefore
      exact absurd (verifies_append.mp hbefore).2.1 he

theorem stops_by {prev : String} {xs rest good late : List LedgerEntry} {e : LedgerEntry}
    (hgood : Verifies F prev good) (hsplit : xs ++ rest = good ++ e :: late)
    (hrest : ∀ x ys late, rest = (x :: ys) ++ late → ¬ Verifies F prev (xs ++ x :: ys)) :
    good.length ≤ xs.length := by
  rcases List.append_eq_append_iff.mp hsplit with ⟨as, hlonger, hlate⟩ | ⟨bs, hxs, _⟩
  · cases as with
    | nil => rw [hlonger, List.append_nil]
    | cons a as => exact absurd (hlonger ▸ hgood) (hrest a as (e :: late) hlate)
  · rw [hxs, List.length_append]
    omega

theorem Decodes.stored {table : List EntryCells} {es rest : List LedgerEntry}
    (h : Decodes F (bySeq table) (es ++ rest)) :
    ∀ e ∈ es, ∃ row ∈ table, rowToEntry F row = .ok e := by
  intro e he
  obtain ⟨row, hrow, hok⟩ := h.mem (List.mem_append_left rest he)
  exact ⟨row, (List.mem_insertionSort _).mp hrow, hok⟩

/-- Where entries in the middle of a valid table are replaced by others, the walk stops
inside the replacement or right after it. It accepts the table only if nothing follows
and the replacement continues what came before. -/
theorem tampering_located {table table' : List EntryCells} {r : VerifyResult}
    {before removed forged rest : List LedgerEntry} (h : verify F table = .ok r)
    (hv : r.valid = true) (hd : Decodes F (bySeq table) (before ++ removed ++ rest))
    (hd' : Decodes F (bySeq table') (before ++ forged ++ rest))
    (hne : forged.map LedgerEntry.hashedFields ≠ removed.map LedgerEntry.hashedFields)
    (hsha : Set.InjOn sha256 (hashedMessages F table ∪ hashedMessages F table'))
    (hgenesis : ∀ m ∈ hashedMessages F table ∪ hashedMessages F table',
      hexText (sha256 m) ≠ genesisPrevHash) :
    ∃ r', verify F table' = .ok r' ∧ before.length ≤ r'.entriesChecked ∧
      r'.entriesChecked ≤ before.length + forged.length ∧
      (r'.valid = true ↔
        rest = [] ∧ Verifies F (lastHash decodedShape genesisPrevHash before) forged) ∧
      (r'.valid = false → ∃ e, (before ++ forged ++ rest)[r'.entriesChecked]? = some e ∧
        r' = stoppedAt r'.entriesChecked e) := by
  have hpasses : Verifies F genesisPrevHash (before ++ removed ++ rest) := by
    rcases verifyFrom_decoded hd genesisPrevHash 0 with ⟨hp, _⟩ | ⟨good, e, _, _, _, _, hrun⟩
    · exact hp
    · obtain rfl := Except.ok.inj (hrun.symm.trans h)
      exact absurd hv (by rw [stoppedAt_invalid]; decide)
  obtain ⟨hearly, hrest⟩ := verifies_append.mp hpasses
  have hbefore := (verifies_append.mp hearly).1
  -- an entry after the replacement is linked to what was replaced
  have hstops : ∀ x xs late, rest = (x :: xs) ++ late →
      ¬ Verifies F genesisPrevHash (before ++ forged ++ x :: xs) := by
    intro x xs late hsplit hp
    obtain ⟨hforged, hx', _⟩ := verifies_append.mp hp
    rw [hsplit] at hrest
    have hlast := hrest.1.linked.symm.trans hx'.linked
    have hfields := verifies_determined hsha hgenesis hd.stored hd'.stored hearly hforged hlast
    rw [List.map_append, List.map_append] at hfields
    exact hne (List.append_cancel_left hfields).symm
  rcases verifyFrom_decoded hd' genesisPrevHash 0 with
    ⟨hp, hrun⟩ | ⟨good, e, late, hsplit, hgood, he, hrun⟩
  · have hnil : rest = [] := by
      cases rest with
      | nil => rfl
      | cons x xs => exact absurd hp (hstops x xs [] (List.append_nil _).symm)
    subst hnil
    rw [List.append_nil] at hp hrun
    refine ⟨_, hrun, ?_, ?_, ⟨fun _ => ⟨rfl, (verifies_append.mp hp).2⟩, fun _ => rfl⟩,
      fun hfalse => absurd hfalse (by simp)⟩
    · simp only [List.length_append]
      omega
    · simp only [List.length_append]
      omega
  · have hlow : before.length ≤ good.length :=
      stops_after hbefore ((List.append_assoc before forged rest).symm.trans hsplit) he
    have hhigh := stops_by hgood hsplit hstops
    rw [List.length_append] at hhigh
    refine ⟨_, hrun, ?_, ?_, ⟨?_, ?_⟩, fun _ => ⟨e, ?_, ?_⟩⟩
    · rw [stoppedAt_checked]
      omega
    · rw [stoppedAt_checked]
      omega
    · exact fun hvalid => absurd hvalid (by rw [stoppedAt_invalid]; decide)
    · rintro ⟨rfl, hforged⟩
      have hall : Verifies F genesisPrevHash (before ++ forged ++ []) := by
        rw [List.append_nil]
        exact verifies_append.mpr ⟨hbefore, hforged⟩
      rw [hsplit] at hall
      exact absurd (verifies_append.mp hall).2.1 he
    · rw [stoppedAt_checked, hsplit, Nat.zero_add, List.getElem?_append_right (le_refl _),
        Nat.sub_self, List.getElem?_cons_zero]
    · rw [stoppedAt_checked]

/-- The first entry with another reasoning, and the hash that goes with it. -/
def editedEntry : LedgerEntry :=
  newEntry bitsText (numberedUuid 1) newYear (1, genesisPrevHash)
    { sampleRequest with reasoning := "edited" }

theorem editedEntry_sound : editedEntry.Sound bitsText :=
  ⟨newYear.property, rfl, rfl, newEntry_entryHash _ _ _ _ _⟩

theorem hexText_ne_genesis {digest : Octets} (h : digest.head? ≠ some 0) :
    hexText digest ≠ genesisPrevHash := by
  have hzeros : genesisPrevHash = hexText (List.replicate 32 0) := by decide +kernel
  intro he
  rw [hzeros] at he
  rw [hexText_injective he] at h
  exact h rfl

theorem editedEntry_heads : ([editedEntry, absentEntry, nextEntry].map (hashMessageV1 bitsText)).map
    (fun m => (sha256 m).head?) = [some 44, some 122, some 171] := by
  have hhead : (firstDigest editedEntry).head? = some 44 := by decide +kernel
  rw [List.map_cons, List.map_cons, firstDigest_eq (e := editedEntry) rfl, hhead]
  exact congrArg (List.cons (some 44)) absentEntry_heads

/-- The walk does not pass the entry that follows an edited one. -/
theorem tampering_located_edited : ∃ r',
    verify bitsText (cellsOf bitsText [editedEntry, nextEntry]) = .ok r' ∧ r'.valid = false ∧
      r'.entriesChecked ≤ 1 := by
  have habsent : ∀ e ∈ [absentEntry, nextEntry], e.Sound bitsText :=
    List.forall_mem_cons.mpr ⟨absentEntry_sound, List.forall_mem_singleton.mpr nextEntry_sound⟩
  have hedited : ∀ e ∈ [editedEntry, nextEntry], e.Sound bitsText :=
    List.forall_mem_cons.mpr ⟨editedEntry_sound, List.forall_mem_singleton.mpr nextEntry_sound⟩
  have hne : [editedEntry].map LedgerEntry.hashedFields ≠
      [absentEntry].map LedgerEntry.hashedFields := by
    intro he
    have hreason : "edited" = sampleRequest.reasoning :=
      congrArg HashedFields.reasoning (List.cons.inj he).1
    exact absurd hreason (by decide)
  have hmessages : ∀ m ∈ hashedMessages bitsText (cellsOf bitsText [absentEntry, nextEntry]) ∪
      hashedMessages bitsText (cellsOf bitsText [editedEntry, nextEntry]),
      m ∈ [editedEntry, absentEntry, nextEntry].map (hashMessageV1 bitsText) := by
    rintro m (hm | hm)
    · obtain ⟨e, he, rfl⟩ := cellsOf_message habsent hm
      exact List.mem_map_of_mem (List.mem_cons_of_mem _ he)
    · obtain ⟨e, he, rfl⟩ := cellsOf_message hedited hm
      refine List.mem_map_of_mem ?_
      rcases List.mem_cons.mp he with rfl | he
      · exact List.mem_cons_self
      · exact List.mem_cons_of_mem _ (List.mem_cons_of_mem _ he)
  have hgenesis : ∀ m ∈ hashedMessages bitsText (cellsOf bitsText [absentEntry, nextEntry]) ∪
      hashedMessages bitsText (cellsOf bitsText [editedEntry, nextEntry]),
      hexText (sha256 m) ≠ genesisPrevHash := by
    intro m hm
    have hhead := List.mem_map_of_mem (f := fun m => (sha256 m).head?) (hmessages m hm)
    rw [editedEntry_heads] at hhead
    exact hexText_ne_genesis fun hzero => absurd (hzero ▸ hhead) (by decide)
  have hsha := injOn_of_heads hmessages (by rw [editedEntry_heads]; decide)
  have hd : Decodes bitsText (bySeq (cellsOf bitsText [absentEntry, nextEntry]))
      ([] ++ [absentEntry] ++ [nextEntry]) := cellsOf_decodes habsent
  have hd' : Decodes bitsText (bySeq (cellsOf bitsText [editedEntry, nextEntry]))
      ([] ++ [editedEntry] ++ [nextEntry]) := cellsOf_decodes hedited
  have hverify : verify bitsText (cellsOf bitsText [absentEntry, nextEntry]) =
      .ok ⟨true, 2, none, none⟩ := verifyFrom_cellsOf habsent ⟨rfl, rfl, trivial⟩ 0
  obtain ⟨r', hrun, _, hle, hvalid, _⟩ := tampering_located hverify rfl hd hd' hne hsha hgenesis
  exact ⟨r', hrun, Bool.eq_false_iff.mpr fun hv => absurd (hvalid.mp hv).1 (List.cons_ne_nil _ _), hle⟩

end ClavenarLite
