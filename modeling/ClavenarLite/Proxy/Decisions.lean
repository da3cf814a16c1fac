import ClavenarLite.Proxy.Decide

/-! Pendings over a run of parks and decisions: the rows stay sound and only grow, and
the decisions are counted against their entries. -/

namespace ClavenarLite

open Bytes Interaction Rfc3339 TextJson Transaction

variable {F : FloatText} {X : LibraryTexts} {readBody : Octets → Except String DecideRequest}

theorem PendingsSound.of_eq {db db' : Db} (h : PendingsSound db)
    (he : db'.pendings = db.pendings) : PendingsSound db' :=
  ⟨he ▸ h.distinct, he ▸ h.stamped, he ▸ h.values⟩

theorem PendingsSound.unique {db : Db} (h : PendingsSound db) {r r' : PendingRow}
    (hr : r ∈ db.pendings) (hr' : r' ∈ db.pendings) (he : r.correlationId = r'.correlationId) :
    r = r' :=
  List.inj_on_of_nodup_map h.distinct hr hr' he

/-- A row for a free id, without a decision. -/
theorem PendingsSound.added {row : PendingRow} {db db' : Db} (h : PendingsSound db)
    (hfree : ∀ r ∈ db.pendings, r.correlationId ≠ row.correlationId) (hat : row.decidedAt = none)
    (hdec : row.decision = none) (hrows : db'.pendings = db.pendings ++ [row]) :
    PendingsSound db' := by
  refine ⟨?_, ?_, ?_⟩
  · rw [hrows, List.map_append, List.map_singleton]
    refine List.nodup_append.mpr ⟨h.distinct, List.nodup_singleton _, ?_⟩
    rintro _ hr _ hs rfl
    obtain ⟨r, hr, he⟩ := List.mem_map.mp hr
    exact hfree r hr (he.trans (List.mem_singleton.mp hs))
  · intro r hr
    rw [hrows] at hr
    rcases List.mem_append.mp hr with hr | hr
    · exact h.stamped r hr
    · obtain rfl := List.mem_singleton.mp hr
      rw [hat, hdec]
  · intro r hr d hd
    rw [hrows] at hr
    rcases List.mem_append.mp hr with hr | hr
    · exact h.values r hr d hd
    · obtain rfl := List.mem_singleton.mp hr
      rw [hdec] at hd
      exact absurd hd (by simp)

/-- The undecided row gets a decision and its time. -/
theorem PendingsSound.stored {c at' d : String} {t n : Option String} {db db' : Db}
    (h : PendingsSound db) (hd : d = "allow" ∨ d = "deny")
    (hrows : db'.pendings =
      db.pendings.map fun r => if Undecided c t r then r.decided at' d n else r) :
    PendingsSound db' := by
  refine ⟨?_, ?_, ?_⟩
  · have hids : ∀ r : PendingRow,
        (if Undecided c t r then r.decided at' d n else r).correlationId = r.correlationId := by
      intro r
      split_ifs <;> rfl
    have hmap : db'.pendings.map PendingRow.correlationId =
        db.pendings.map PendingRow.correlationId := by
      rw [hrows, List.map_map]
      exact List.map_congr_left fun r _ => hids r
    rw [hmap]
    exact h.distinct
  · intro r' hr'
    rw [hrows] at hr'
    obtain ⟨r, hr, rfl⟩ := List.mem_map.mp hr'
    by_cases hu : Undecided c t r
    · rw [if_pos hu]
      exact ⟨fun _ => rfl, fun _ => rfl⟩
    · rw [if_neg hu]
      exact h.stamped r hr
  · intro r' hr' x hx
    rw [hrows] at hr'
    obtain ⟨r, hr, rfl⟩ := List.mem_map.mp hr'
    by_cases hu : Undecided c t r
    · rw [if_pos hu] at hx
      obtain rfl := Option.some.inj hx
      exact hd
    · rw [if_neg hu] at hx
      exact h.values r hr x hx

theorem PendingsSound.performs {before : List (Call Sql)} {β : Type} {op : Sql β} {db db' : Db}
    {b : β} (hrule : PendingRule F before op) (hp : SqlPerforms op db b db')
    (h : PendingsSound db) : PendingsSound db' := by
  obtain ⟨hpend, _, hans⟩ := hp.after
  cases op with
  | insertPending row =>
    cases b with
    | error e => exact h.of_eq hpend
    | ok u => exact h.added hans hrule.1 hrule.2 hpend
  | updatePending c t at' d n =>
    cases b with
    | error e => exact h.of_eq hpend
    | ok changed => exact h.stored hrule hpend
  | _ => exact h.of_eq hpend

theorem PendingsGrow.of_eq {db db' : Db} (h : db'.pendings = db.pendings) : PendingsGrow db db' :=
  fun r hr => ⟨r, h ▸ hr, .refl r, fun _ => rfl⟩

theorem PendingsGrow.added {row : PendingRow} {db db' : Db}
    (hrows : db'.pendings = db.pendings ++ [row]) : PendingsGrow db db' :=
  fun r hr => ⟨r, hrows ▸ List.mem_append_left _ hr, .refl r, fun _ => rfl⟩

theorem PendingsGrow.stored {c at' d : String} {t n : Option String} {db db' : Db}
    (hrows : db'.pendings =
      db.pendings.map fun r => if Undecided c t r then r.decided at' d n else r) :
    PendingsGrow db db' := by
  intro r hr
  refine ⟨_, hrows ▸ List.mem_map_of_mem hr, ?_, ?_⟩
  · split_ifs <;> rfl
  · intro hdec
    have hu : ¬ Undecided c t r := fun hu => by simp [hu.2.1] at hdec
    exact if_neg hu

/-- Any statement leaves decided rows alone. -/
theorem PendingsGrow.performs {β : Type} {op : Sql β} {db db' : Db} {b : β}
    (hp : SqlPerforms op db b db') : PendingsGrow db db' := by
  obtain ⟨hpend, _, _⟩ := hp.after
  cases op with
  | insertPending row =>
    cases b with
    | error e => exact .of_eq hpend
    | ok u => exact .added hpend
  | updatePending c t at' d n =>
    cases b with
    | error e => exact .of_eq hpend
    | ok changed => exact .stored hpend
  | _ => exact .of_eq hpend

theorem PendingsGrow.elsewhere {db db' : Db} (h : Elsewhere db db') : PendingsGrow db db' :=
  .of_eq h.1

variable (F) in
/-- What a call that was made says about the rows from then on. -/
def CallHolds : Call Sql → Db → Prop
  | ⟨.selectPending c _, .ok (some row)⟩, db =>
    row.correlationId = c ∧ ∃ r ∈ db.pendings, row.SameRequest r
  | ⟨.updatePending c _ at' d n, .ok changed⟩, db => changed ≠ 0 →
    ∃ r ∈ db.pendings, r.correlationId = c ∧ r.decidedAt = some at' ∧ r.decision = some d ∧
      r.deciderNote = n
  | ⟨.insertEntry e, .ok _⟩, db => ∀ id, e.Decides id →
    ∃ r ∈ db.pendings, r.correlationId = id ∧ e.Reports F r
  | _, _ => True

theorem EntryRow.Reports.decided {e : EntryRow} {r : PendingRow} (h : e.Reports F r) :
    r.decidedAt.isSome := by
  obtain ⟨_, _, _, _, _, hd, _⟩ := h
  exact hd

theorem CallHolds.grow {call : Call Sql} {db db' : Db} (h : CallHolds F call db)
    (hg : PendingsGrow db db') : CallHolds F call db' := by
  obtain ⟨op, b⟩ := call
  cases op with
  | selectPending c t =>
    cases b with
    | error e => trivial
    | ok found =>
      cases found with
      | none => trivial
      | some row =>
        obtain ⟨hc, r, hr, hs⟩ := h
        obtain ⟨r', hr', hs', _⟩ := hg r hr
        exact ⟨hc, r', hr', hs.trans hs'⟩
  | updatePending c t at' d n =>
    cases b with
    | error e => trivial
    | ok changed =>
      intro hz
      obtain ⟨r, hr, hid, hat, hrest⟩ := h hz
      obtain ⟨r', hr', _, hsame⟩ := hg r hr
      obtain rfl := hsame (by simp [hat])
      exact ⟨r', hr', hid, hat, hrest⟩
  | insertEntry e =>
    cases b with
    | error e => trivial
    | ok u =>
      intro id hid
      obtain ⟨r, hr, hk, hrep⟩ := h id hid
      obtain ⟨r', hr', _, hsame⟩ := hg r hr
      obtain rfl := hsame hrep.decided
      exact ⟨r', hr', hk, hrep⟩
  | _ => trivial

theorem timestampColumn_clock (column : Nat) (now : Clock) :
    timestampColumn column (toRfc3339 now.val) = .ok now.val := by
  rw [timestampColumn, parseFromRfc3339_toRfc3339 now.property]

/-- A decided row reads as the pending it was, with the decision. -/
theorem rowToPending_decided {row : PendingRow} {p : Pending} (h : rowToPending F row = .ok p)
    (now : Clock) (d : String) (n : Option String) :
    rowToPending F (row.decided (toRfc3339 now.val) d n) =
      .ok { p with decidedAt := some now.val, decision := some d, deciderNote := n } := by
  unfold rowToPending at h ⊢
  obtain ⟨requestedAt, hreq, h⟩ := Fallible.bind_ok h
  obtain ⟨decidedAt, _, h⟩ := Fallible.bind_ok h
  obtain rfl := Except.ok.inj h
  have hreq' : timestampColumn 5 (row.decided (toRfc3339 now.val) d n).requestedAt =
      .ok requestedAt := hreq
  have hdec : (row.decided (toRfc3339 now.val) d n).decidedAt.mapM (timestampColumn 6) =
      .ok (some now.val) := by
    change (some (toRfc3339 now.val)).mapM (timestampColumn 6) = _
    simp only [Option.mapM_some, timestampColumn_clock]
    rfl
  rw [hreq', hdec]
  rfl

theorem rowToPending_id {row : PendingRow} {p : Pending} (h : rowToPending F row = .ok p) :
    p.correlationId = row.correlationId := by
  unfold rowToPending at h
  obtain ⟨_, _, h⟩ := Fallible.bind_ok h
  obtain ⟨_, _, h⟩ := Fallible.bind_ok h
  obtain rfl := Except.ok.inj h
  rfl

/-- An entry for a decision that was stored reports the stored row. -/
theorem HasDecided.reports {calls : List (Call Sql)} {decided : Pending} {db : Db}
    (h : HasDecided F calls decided) (hs : PendingsSound db)
    (hc : ∀ call ∈ calls, CallHolds F call db) {eid : Uuid} {enow : Clock} {tip : Int × String} :
    ∃ r ∈ db.pendings, r.correlationId = decided.correlationId ∧
      ((newEntry F eid enow tip (decideLogRequest decided)).row F).Reports F r := by
  obtain ⟨c, t, d, n, row, p, now, changed, hz, hu, hsel, hrow, rfl⟩ := h
  obtain ⟨r, hr, hid, hat, hd, hn⟩ := hc _ hu hz
  obtain ⟨hc', r₂, hr₂, hsame⟩ := hc _ hsel
  have he : r = r₂ := hs.unique hr hr₂ (by rw [hid, hsame.id, hc'])
  subst he
  have hdecided : r = row.decided (toRfc3339 now.val) d n := by
    rw [hsame, hat, hd, hn]
    rfl
  have hread := rowToPending_decided hrow now d n
  have hkey : r.correlationId = p.correlationId := by rw [hid, ← hc', rowToPending_id hrow]
  refine ⟨r, hr, hkey, _, eid, enow, tip, hdecided ▸ hread, ?_, rfl⟩
  rw [hat]
  rfl

theorem CallHolds.performs {before : List (Call Sql)} {β : Type} {op : Sql β} {db db' : Db} {b : β}
    (hrule : PendingRule F before op) (hp : SqlPerforms op db b db') (hs : PendingsSound db)
    (hbefore : ∀ call ∈ before, CallHolds F call db') : CallHolds F ⟨op, b⟩ db' := by
  have hs' := hs.performs hrule hp
  obtain ⟨hpend, _, hans⟩ := hp.after
  cases op with
  | selectPending c t =>
    cases b with
    | error e => trivial
    | ok found =>
      cases found with
      | none => trivial
      | some row =>
        have hfind : db.pendings.find? (fun r => r.correlationId = c ∧ r.OfTenant t) = some row :=
          hans.symm
        have hrows : db'.pendings = db.pendings := hpend
        have hmatch := List.find?_some hfind
        exact ⟨(of_decide_eq_true hmatch).1, row, hrows ▸ List.mem_of_find?_eq_some hfind, .refl row⟩
  | updatePending c t at' d n =>
    cases b with
    | error e => trivial
    | ok changed =>
      intro hz
      have hcount : changed = db.pendings.countP (Undecided c t) := hans
      obtain ⟨r, hr, hu⟩ := List.countP_pos_iff.mp (Nat.pos_of_ne_zero (hcount ▸ hz))
      have hrows : db'.pendings =
          db.pendings.map fun r => if Undecided c t r then r.decided at' d n else r := hpend
      have hu := of_decide_eq_true hu
      refine ⟨r.decided at' d n, ?_, hu.1, rfl, rfl, rfl⟩
      rw [hrows]
      exact List.mem_map.mpr ⟨r, hr, if_pos hu⟩
  | insertEntry e =>
    cases b with
    | error e => trivial
    | ok u =>
      intro id hid
      obtain ⟨_, decided, eid, enow, tip, hdec, rfl⟩ := hrule
      obtain rfl : decided.correlationId = id := Option.some.inj hid.2
      exact hdec.reports hs' hbefore
  | _ => trivial

def isDecided (id : String) (r : PendingRow) : Bool :=
  r.correlationId == id && r.decidedAt.isSome

/-- One for a call that stored a decision on the request. -/
def storesDecision (id : String) : Call Sql → Nat
  | ⟨.updatePending c _ _ _ _, .ok changed⟩ => if c = id ∧ changed ≠ 0 then 1 else 0
  | _ => 0

/-- One for a call that entered a decision on the request into the ledger. -/
def entersDecision (id : String) : Call Sql → Nat
  | ⟨.insertEntry e, .ok _⟩ => if e.Decides id then 1 else 0
  | _ => 0

theorem entries_count {β : Type} {op : Sql β} {db db' : Db} {b : β} (hp : SqlPerforms op db b db')
    (id : String) : db'.entries.countP (EntryRow.Decides id) =
      db.entries.countP (EntryRow.Decides id) + entersDecision id ⟨op, b⟩ := by
  obtain ⟨_, hentries, _⟩ := hp.after
  cases op with
  | insertEntry e =>
    cases b with
    | error x => exact congrArg _ hentries
    | ok u =>
      have hrows : db'.entries = db.entries ++ [e] := hentries
      rw [hrows, List.countP_append, List.countP_singleton]
      simp only [entersDecision, decide_eq_true_eq]
  | _ => exact congrArg _ hentries

theorem decided_count {β : Type} {op : Sql β} {db db' : Db} {b : β} {before : List (Call Sql)}
    (hrule : PendingRule F before op) (hp : SqlPerforms op db b db') (hs : PendingsSound db)
    (id : String) : db'.pendings.countP (isDecided id) =
      db.pendings.countP (isDecided id) + storesDecision id ⟨op, b⟩ := by
  have hs' := hs.performs hrule hp
  obtain ⟨hpend, _, hans⟩ := hp.after
  have hkey : ∀ r, isDecided id r = true → r.correlationId = id := fun r hr =>
    eq_of_beq (Bool.and_eq_true_iff.mp hr).1
  cases op with
  | insertPending row =>
    cases b with
    | error e => exact congrArg _ hpend
    | ok u =>
      have hrows : db'.pendings = db.pendings ++ [row] := hpend
      have hrow : isDecided id row = false := by simp [isDecided, hrule.1]
      rw [hrows, List.countP_append, List.countP_singleton, hrow]
      rfl
  | updatePending c t at' d n =>
    cases b with
    | error e => exact congrArg _ hpend
    | ok changed =>
      have hcount : changed = db.pendings.countP (Undecided c t) := hans
      have hrows : db'.pendings =
          db.pendings.map fun r => if Undecided c t r then r.decided at' d n else r := hpend
      by_cases hnew : c = id ∧ changed ≠ 0
      · obtain ⟨rfl, hz⟩ := hnew
        obtain ⟨r, hr, hu⟩ := List.countP_pos_iff.mp (Nat.pos_of_ne_zero (hcount ▸ hz))
        have hu := of_decide_eq_true hu
        -- the row of this key is undecided before, and decided after
        have hnone : db.pendings.any (isDecided c) = false := by
          refine List.any_eq_false.mpr fun x hx hdec => ?_
          obtain rfl := hs.unique hx hr ((hkey x hdec).trans hu.1.symm)
          simp [isDecided, hu.2.1] at hdec
        have hsome : db'.pendings.any (isDecided c) = true := by
          refine List.any_eq_true.mpr ⟨r.decided at' d n, ?_, ?_⟩
          · rw [hrows]
            exact List.mem_map.mpr ⟨r, hr, if_pos hu⟩
          · simp [isDecided, PendingRow.decided, hu.1]
        have hone : storesDecision c ⟨.updatePending c t at' d n, .ok changed⟩ = 1 :=
          if_pos ⟨rfl, hz⟩
        rw [Keyed.countP_key hs.distinct c hkey, Keyed.countP_key hs'.distinct c hkey, hnone,
          hsome, hone]
        rfl
      · have hzero : storesDecision id ⟨.updatePending c t at' d n, .ok changed⟩ = 0 := if_neg hnew
        rw [hzero, hrows, List.countP_map, Nat.add_zero]
        refine List.countP_congr fun r hr => ?_
        have hid : Undecided c t r → r.correlationId ≠ id := by
          intro hu he
          refine hnew ⟨hu.1.symm.trans he, ?_⟩
          rw [hcount]
          exact (List.countP_pos_iff.mpr ⟨r, hr, decide_eq_true hu⟩).ne'
        by_cases hu : Undecided c t r
        · simp [hu, isDecided, PendingRow.decided, hid hu]
        · simp [hu]
  | _ => exact congrArg _ hpend

theorem HasDecided.stores {calls : List (Call Sql)} {decided : Pending} {db : Db}
    (h : HasDecided F calls decided) (hc : ∀ call ∈ calls, CallHolds F call db) :
    1 ≤ (calls.map (storesDecision decided.correlationId)).sum := by
  obtain ⟨c, t, d, n, row, p, now, changed, hz, hu, hsel, hrow, rfl⟩ := h
  obtain ⟨hid, _⟩ := hc _ hsel
  have hone : storesDecision row.correlationId
      ⟨.updatePending c t (toRfc3339 now.val) d n, .ok changed⟩ = 1 := if_pos ⟨hid.symm, hz⟩
  rw [← hone, ← rowToPending_id hrow]
  exact List.single_le_sum (fun _ _ => Nat.zero_le _) _ (List.mem_map_of_mem hu)

theorem enters_le_stores {t : Thread Sql PendingJob PendingResult}
    (h : t.Follows (pendingRules F X readBody)) {db : Db}
    (hc : ∀ call ∈ t.calls, CallHolds F call db) (id : String) :
    t.total (entersDecision id) ≤ t.total (storesDecision id) := by
  refine Thread.Follows.total_le (P := fun _ => PendingRule F) (program_obeys (X := X)) ?_ ?_ h hc
  · rintro ⟨op, b⟩
    cases op with
    | insertEntry e =>
      cases b with
      | error x => exact Nat.zero_le 1
      | ok u =>
        simp only [entersDecision]
        split_ifs <;> decide
    | _ => exact Nat.zero_le 1
  · rintro before ⟨op, b⟩ hrule hbefore hone
    cases op with
    | insertEntry e =>
      cases b with
      | error x => exact absurd hone (by simp [entersDecision])
      | ok u =>
        have hid : e.Decides id := by
          by_contra hno
          simp [entersDecision, hno] at hone
        obtain ⟨hnoEntry, decided, eid, enow, tip, hdec, rfl⟩ := hrule
        refine ⟨List.sum_eq_zero fun k hk => ?_, ?_⟩
        · obtain ⟨call, hc, rfl⟩ := List.mem_map.mp hk
          obtain ⟨op, b⟩ := call
          have hnot := hnoEntry _ hc
          cases op with
          | insertEntry e => exact absurd hnot (by simp [isEntry])
          | _ => rfl
        · obtain rfl : decided.correlationId = id := Option.some.inj hid.2
          exact hdec.stores hbefore
    | _ => exact absurd hone (by simp [entersDecision])

end ClavenarLite
