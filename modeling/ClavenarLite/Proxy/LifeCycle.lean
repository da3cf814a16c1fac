import ClavenarLite.Proxy.Decisions

/-! What any run of parks and decisions keeps of the pending requests. -/

namespace ClavenarLite

open Bytes Interaction Rfc3339 TextJson Transaction

variable {F : FloatText} {X : LibraryTexts} {readBody : Octets → Except String DecideRequest}
  {db₀ : Db} {p : Pool Sql Db PendingJob PendingResult}

theorem Elsewhere.sound {db db' : Db} (h : Elsewhere db db') (hs : PendingsSound db) :
    PendingsSound db' :=
  hs.of_eq h.1

theorem sound_of_reachable (hs : PendingsSound db₀)
    (h : Pool.Reachable (pendingRules F X readBody) db₀ p) : PendingsSound p.state :=
  h.keeps (P := fun _ => PendingRule F) program_obeys hs (fun _ _ _ _ _ _ _ hr hp hq => hq.performs hr hp)
    fun _ _ ho hq => Elsewhere.sound ho hq

theorem calls_hold_of_reachable (hs : PendingsSound db₀)
    (h : Pool.Reachable (pendingRules F X readBody) db₀ p) :
    ∀ t ∈ p.threads, ∀ call ∈ t.calls, CallHolds F call p.state :=
  h.calls_hold (P := fun _ => PendingRule F) program_obeys (fun _ hp => sound_of_reachable hs hp)
    (fun _ _ _ _ _ _ _ hr hp hq hb => CallHolds.performs hr hp hq hb)
    (fun _ _ _ _ _ hp hc => hc.grow (.performs hp)) fun _ _ _ ho hc => hc.grow (.elsewhere ho)

theorem grow_of_steps {p' : Pool Sql Db PendingJob PendingResult}
    (h : Pool.Steps (pendingRules F X readBody) p p') : PendingsGrow p.state p'.state :=
  h.related PendingsGrow.refl (fun _ _ _ => PendingsGrow.trans) (fun _ _ _ _ hp => .performs hp)
    fun _ _ ho => .elsewhere ho

theorem Elsewhere.count {db db' : Db} (h : Elsewhere db db') (id : String) :
    db'.entries.countP (EntryRow.Decides id) = db.entries.countP (EntryRow.Decides id) := by
  obtain ⟨_, rows, hrows, hnone⟩ := h
  have hzero : rows.countP (EntryRow.Decides id) = 0 := by
    refine List.countP_eq_zero.mpr fun r hr hd => ?_
    exact absurd (of_decide_eq_true hd).1 (by simp [hnone r hr])
  rw [hrows, List.countP_append, hzero, Nat.add_zero]

/-- Entries of decisions never outnumber the decisions. -/
theorem entries_le_decided (hs : PendingsSound db₀)
    (h : Pool.Reachable (pendingRules F X readBody) db₀ p) {id : String}
    (hinit : db₀.entries.countP (EntryRow.Decides id) ≤ db₀.pendings.countP (isDecided id)) :
    p.state.entries.countP (EntryRow.Decides id) ≤ p.state.pendings.countP (isDecided id) := by
  have hentries := h.accounts (P := fun _ => PendingRule F) (Q := PendingsSound)
    (f := fun db => db.entries.countP (EntryRow.Decides id)) (g := entersDecision id)
    program_obeys (fun _ hp => sound_of_reachable hs hp)
    (fun _ _ _ _ _ _ _ _ hp _ => entries_count hp id) fun _ _ ho => ho.count id
  have hdecided := h.accounts (P := fun _ => PendingRule F) (Q := PendingsSound)
    (f := fun db => db.pendings.countP (isDecided id)) (g := storesDecision id)
    program_obeys (fun _ hp => sound_of_reachable hs hp)
    (fun _ _ _ _ _ _ _ hr hp hq => decided_count hr hp hq id) fun _ _ ho => by rw [ho.1]
  have hcalls := calls_hold_of_reachable hs h
  have hle : p.total (entersDecision id) ≤ p.total (storesDecision id) :=
    Pool.total_le fun t ht => enters_le_stores (h.follows t ht) (hcalls t ht) id
  have hentries : p.state.entries.countP (EntryRow.Decides id) =
      db₀.entries.countP (EntryRow.Decides id) + p.total (entersDecision id) := hentries
  have hdecided : p.state.pendings.countP (isDecided id) =
      db₀.pendings.countP (isDecided id) + p.total (storesDecision id) := hdecided
  omega

theorem decided_le_one {db : Db} (hs : PendingsSound db) (id : String) :
    db.pendings.countP (isDecided id) ≤ 1 :=
  Keyed.countP_key_le_one hs.distinct id fun _ hr => eq_of_beq (Bool.and_eq_true_iff.mp hr).1

theorem PendingsKept.initially {db : Db} (h : PendingsKept F db) (id : String) :
    db.entries.countP (EntryRow.Decides id) ≤ db.pendings.countP (isDecided id) := by
  rcases Nat.eq_zero_or_pos (db.entries.countP (EntryRow.Decides id)) with hz | hpos
  · omega
  · obtain ⟨e, he, hd⟩ := List.countP_pos_iff.mp hpos
    obtain ⟨r, hr, hid, hrep⟩ := h.reported id e he (of_decide_eq_true hd)
    have hone : 0 < db.pendings.countP (isDecided id) :=
      List.countP_pos_iff.mpr ⟨r, hr, by simp [isDecided, hid, hrep.decided]⟩
    have := h.once id
    omega

theorem reported_of_reachable (hk : PendingsKept F db₀)
    (h : Pool.Reachable (pendingRules F X readBody) db₀ p) :
    ∀ id, ∀ e ∈ p.state.entries, e.Decides id →
      ∃ r ∈ p.state.pendings, r.correlationId = id ∧ e.Reports F r := by
  refine h.induct (I := fun p => ∀ id, ∀ e ∈ p.state.entries, e.Decides id →
    ∃ r ∈ p.state.pendings, r.correlationId = id ∧ e.Reports F r) hk.reported ?_
  intro p p' hreach hstep ih
  have hgrow := grow_of_steps (.single hstep)
  have hcalls := calls_hold_of_reachable hk.toPendingsSound (hreach.tail hstep)
  have hold : ∀ id, ∀ e ∈ p.state.entries, e.Decides id →
      ∃ r ∈ p'.state.pendings, r.correlationId = id ∧ e.Reports F r := by
    intro id e he hd
    obtain ⟨r, hr, hid, hrep⟩ := ih id e he hd
    obtain ⟨r', hr', _, hsame⟩ := hgrow r hr
    obtain rfl := hsame hrep.decided
    exact ⟨r', hr', hid, hrep⟩
  cases hstep with
  | start job => exact hold
  | @call s s' pre post t δ op next b hr hp =>
    intro id e he hd
    have hentries : s'.entries = entriesAfter ⟨op, b⟩ s.entries := hp.after.2.1
    have he : e ∈ entriesAfter ⟨op, b⟩ s.entries := hentries ▸ he
    cases op with
    | insertEntry row =>
      cases b with
      | error x => exact hold id e he hd
      | ok u =>
        rcases List.mem_append.mp he with he | he
        · exact hold id e he hd
        · obtain rfl := List.mem_singleton.mp he
          have hmade := hcalls (t.answered (.insertEntry e) (.ok u) (next (.ok u))) (by simp)
            ⟨.insertEntry e, .ok u⟩ (by simp [Thread.answered])
          exact hmade id hd
    | _ => exact hold id e he hd
  | @outside s s' threads ho =>
    intro id e he hd
    obtain ⟨_, rows, hrows, hnone⟩ : Elsewhere s s' := ho
    rcases List.mem_append.mp (hrows ▸ he) with he | he
    · exact hold id e he hd
    · exact absurd hd.1 (by simp [hnone e he])

theorem kept_of_reachable (hk : PendingsKept F db₀)
    (h : Pool.Reachable (pendingRules F X readBody) db₀ p) : PendingsKept F p.state := by
  have hs := sound_of_reachable hk.toPendingsSound h
  refine ⟨hs, fun id => ?_, reported_of_reachable hk h⟩
  exact (entries_le_decided hk.toPendingsSound h (hk.initially id)).trans (decided_le_one hs id)

theorem PendingsKept.empty : PendingsKept F Db.empty where
  distinct := List.nodup_nil
  stamped _ hr := absurd hr List.not_mem_nil
  values _ hr := absurd hr List.not_mem_nil
  once _ := Nat.zero_le 1
  reported _ _ he := absurd he List.not_mem_nil

/-- Wherever the call is answered like this, it changes nothing. -/
def Inert (call : Call Sql) : Prop :=
  ∀ db db', SqlPerforms call.op db call.answer db' → db' = db

theorem inert_newUuid (u : Uuid) : Inert ⟨.newUuid, u⟩ := by
  rintro _ _ ⟨s, s', rfl, rfl, he⟩
  obtain rfl := (Prod.mk.inj he).2
  rfl

theorem inert_utcNow (now : Clock) : Inert ⟨.utcNow, now⟩ := by
  rintro _ _ ⟨s, s', rfl, rfl, he⟩
  obtain rfl := (Prod.mk.inj he).2
  rfl

theorem inert_selectPending (c : String) (t : Option String)
    (found : Except SqlError (Option PendingRow)) : Inert ⟨.selectPending c t, found⟩ := by
  intro db db' h
  rcases performs_statement (fun _ => rfl) h with ⟨_, rfl⟩ | ⟨a, _, he⟩
  · rfl
  · exact (Prod.mk.inj (Except.ok.inj he)).2.symm

theorem inert_insertPending (row : PendingRow) (e : SqlError) :
    Inert ⟨.insertPending row, .error e⟩ := by
  intro db db' h
  rcases performs_statement (fun _ => rfl) h with ⟨_, rfl⟩ | ⟨a, ha, _⟩
  · rfl
  · exact absurd ha (by simp)

/-- An update that meets no row. -/
theorem inert_updatePending (c : String) (t : Option String) (at' d : String) (n : Option String)
    {changed : Except SqlError Nat} (hz : ∀ k, changed = .ok k → k = 0) :
    Inert ⟨.updatePending c t at' d n, changed⟩ := by
  intro db db' h
  rcases performs_statement (fun _ => rfl) h with ⟨_, rfl⟩ | ⟨k, hk, he⟩
  · rfl
  · obtain ⟨hcount, rfl⟩ := Prod.mk.inj (Except.ok.inj he)
    have hnone : db.pendings.countP (Undecided c t) = 0 := hcount.trans (hz k hk)
    have hrows : (db.pendings.map fun r => if Undecided c t r then r.decided at' d n else r) =
        db.pendings := by
      refine (List.map_congr_left fun r hr => ?_).trans (List.map_id _)
      exact if_neg fun hu => List.countP_eq_zero.mp hnone r hr (decide_eq_true hu)
    exact congrArg (fun rows => { db with pendings := rows }) hrows

theorem decideFound_failed {id decision : String} {tenant note : Option String}
    {found : Except SqlError (Option PendingRow)} {calls : List (Call Sql)}
    {r : Except SqlError (Except DecideError Pending)}
    (ht : Prog.Trace (decideFound F id tenant decision note found) calls (.pure r))
    (hr : ∀ decided, r ≠ .ok (.ok decided)) : ∀ call ∈ calls, Inert call := by
  have hnone : calls = [] → ∀ call ∈ calls, Inert call := by
    rintro rfl call hc
    exact absurd hc List.not_mem_nil
  cases found with
  | error e => exact hnone (Prog.trace_pure.mp ht).1
  | ok found =>
    cases found with
    | none => exact hnone (Prog.trace_pure.mp ht).1
    | some row =>
      simp only [decideFound] at ht
      cases hrow : rowToPending F row with
      | error e =>
        rw [hrow] at ht
        exact hnone (Prog.trace_pure.mp ht).1
      | ok p =>
        rw [hrow] at ht
        by_cases hp : p.decision.isSome = true
        · simp only [if_pos hp] at ht
          exact hnone (Prog.trace_pure.mp ht).1
        · simp only [if_neg hp] at ht
          obtain ⟨now, rest, rfl, hrest⟩ := Prog.trace_call.mp ht
          obtain ⟨changed, last, rfl, hlast⟩ := Prog.trace_call.mp hrest
          have hz : ∀ k, changed = .ok k → k = 0 := by
            rintro k rfl
            by_contra hk
            simp only [if_neg hk] at hlast
            exact hr _ (Prog.pure.inj (Prog.trace_pure.mp hlast).2)
          have hlast : last = [] := by
            cases changed with
            | error e => exact (Prog.trace_pure.mp hlast).1
            | ok k =>
              simp only [if_pos (hz k rfl)] at hlast
              exact (Prog.trace_pure.mp hlast).1
          subst hlast
          intro call hc
          rcases List.mem_cons.mp hc with rfl | hc
          · exact inert_utcNow now
          · obtain rfl := List.mem_singleton.mp hc
            exact inert_updatePending _ _ _ _ _ hz

theorem decidePendingCall_failed {id decision : String} {tenant note : Option String}
    {calls : List (Call Sql)} {e : DecideError}
    (ht : Prog.Trace (decidePendingCall F id tenant decision note) calls (.pure (.error e))) :
    ∀ call ∈ calls, Inert call := by
  unfold decidePendingCall at ht
  by_cases hd : decision ≠ "allow" ∧ decision ≠ "deny"
  · rw [if_pos hd] at ht
    obtain ⟨rfl, _⟩ := Prog.trace_pure.mp ht
    exact fun _ hc => absurd hc List.not_mem_nil
  · rw [if_neg hd, decideStored_run] at ht
    obtain ⟨result, first, last, rfl, hfirst, hlast⟩ := Prog.trace_bind.mp ht
    obtain ⟨found, rest, rfl, hrest⟩ := Prog.trace_call.mp hfirst
    have hfail : ∀ decided, result ≠ .ok (.ok decided) := by
      rintro decided rfl
      have he := Prog.pure.inj (Prog.trace_pure.mp hlast).2
      exact absurd he (by simp)
    have hlast : last = [] := by
      cases result <;> exact (Prog.trace_pure.mp hlast).1
    rw [hlast, List.append_nil]
    intro call hc
    rcases List.mem_cons.mp hc with rfl | hc
    · exact inert_selectPending _ _ _
    · exact decideFound_failed hrest hfail call hc

theorem recordDecision_trace {state : AppState} {decideCorr : String} {decided : Pending}
    {calls : List (Call Sql)} {r : Reply}
    (ht : Prog.Trace (recordDecision F state decideCorr decided) calls (.pure r)) :
    r.1.status = 200 := by
  obtain ⟨_, _, _, _, _, hrest⟩ := Prog.trace_bind.mp ht
  obtain ⟨ts, _, _, hlast⟩ := Prog.trace_call.mp hrest
  obtain rfl := Prog.pure.inj (Prog.trace_pure.mp hlast).2
  rfl

theorem program_failed {job : PendingJob} {calls : List (Call Sql)} {r : PendingResult}
    (ht : Prog.Trace (job.program F X readBody) calls (.pure r)) (hr : r.Failed) :
    ∀ call ∈ calls, Inert call := by
  cases job with
  | park req =>
    obtain ⟨now, rest, rfl, hrest⟩ := Prog.trace_call.mp ht
    obtain ⟨answer, last, rfl, hlast⟩ := Prog.trace_call.mp hrest
    cases answer with
    | ok u =>
      obtain ⟨_, he⟩ := Prog.trace_pure.mp hlast
      obtain rfl := Prog.pure.inj he
      exact absurd hr (by simp [PendingResult.Failed, Except.toOption])
    | error e =>
      obtain ⟨rfl, _⟩ := Prog.trace_pure.mp hlast
      intro call hc
      rcases List.mem_cons.mp hc with rfl | hc
      · exact inert_utcNow now
      · obtain rfl := List.mem_singleton.mp hc
        exact inert_insertPending _ e
  | decide id tenant decision note =>
    obtain ⟨result, first, last, rfl, hfirst, hlast⟩ := Prog.trace_bind.mp ht
    obtain ⟨rfl, he⟩ := Prog.trace_pure.mp hlast
    obtain rfl := Prog.pure.inj he
    cases result with
    | ok decided => exact absurd hr (by simp [PendingResult.Failed, Except.toOption])
    | error e =>
      rw [List.append_nil]
      exact decidePendingCall_failed hfirst
  | route state id headers body =>
    obtain ⟨reply, first, last, rfl, hfirst, hlast⟩ := Prog.trace_bind.mp ht
    obtain ⟨rfl, he⟩ := Prog.trace_pure.mp hlast
    obtain rfl := Prog.pure.inj he
    rw [List.append_nil]
    obtain ⟨decideCorr, rest, rfl, hrest⟩ := Prog.trace_call.mp hfirst
    have hmore : ∀ call ∈ rest, Inert call := by
      have hdone : rest = [] → ∀ call ∈ rest, Inert call := by
        rintro rfl call hc
        exact absurd hc List.not_mem_nil
      cases hten : resolveOperatorTenant state.deciders state.decideToken headers with
      | error message =>
        rw [hten] at hrest
        exact hdone (Prog.trace_pure.mp hrest).1
      | ok tenant =>
        cases hbody : readBody body with
        | error e =>
          rw [hten, hbody] at hrest
          exact hdone (Prog.trace_pure.mp hrest).1
        | ok req =>
          rw [hten, hbody] at hrest
          obtain ⟨decision, ds, es, rfl, hdecide, hreply⟩ := Prog.trace_bind
            (p := decidePendingCall F id tenant req.decision req.note).mp hrest
          cases decision with
          | ok decided => exact absurd (recordDecision_trace hreply) hr
          | error e =>
            obtain ⟨rfl, _⟩ := Prog.trace_pure.mp hreply
            rw [List.append_nil]
            exact decidePendingCall_failed hdecide
    intro call hc
    rcases List.mem_cons.mp hc with rfl | hc
    · exact inert_newUuid decideCorr
    · exact hmore call hc

def Taken (id : String) (db : Db) : Prop := ∃ r ∈ db.pendings, r.correlationId = id

/-- No insert under the id has succeeded. -/
def NoInsert (id : String) : Call Sql → Prop
  | ⟨.insertPending row, .ok _⟩ => row.correlationId ≠ id
  | _ => True

theorem Taken.grow {id : String} {db db' : Db} (h : Taken id db) (hg : PendingsGrow db db') :
    Taken id db' := by
  obtain ⟨r, hr, hid⟩ := h
  obtain ⟨r', hr', hs, _⟩ := hg r hr
  exact ⟨r', hr', hs.id.trans hid⟩

theorem Taken.noInsert {id : String} {β : Type} {op : Sql β} {db db' : Db} {b : β}
    (h : Taken id db) (hp : SqlPerforms op db b db') : NoInsert id ⟨op, b⟩ := by
  obtain ⟨r, hr, hid⟩ := h
  obtain ⟨_, _, hans⟩ := hp.after
  cases op with
  | insertPending row =>
    cases b with
    | error e => trivial
    | ok u => exact fun he => hans r hr (hid.trans he.symm)
  | _ => trivial

theorem park_trace {req : ParkRequest} {calls : List (Call Sql)} {r : PendingResult}
    (ht : Prog.Trace ((PendingJob.park req).program F X readBody) calls (.pure r))
    (hc : ∀ call ∈ calls, NoInsert req.correlationId call) : r.Failed := by
  obtain ⟨now, rest, rfl, hrest⟩ := Prog.trace_call.mp ht
  obtain ⟨answer, last, rfl, hlast⟩ := Prog.trace_call.mp hrest
  cases answer with
  | ok u => exact absurd rfl (hc ⟨.insertPending (parkedRow F req now), .ok u⟩ (by simp))
  | error e =>
    obtain ⟨_, he⟩ := Prog.trace_pure.mp hlast
    obtain rfl := Prog.pure.inj he
    rfl

theorem park_taken {p' : Pool Sql Db PendingJob PendingResult}
    (h : Pool.Reachable (pendingRules F X readBody) db₀ p)
    (h' : Pool.Steps (pendingRules F X readBody) p p') {t : Thread Sql PendingJob PendingResult}
    (ht : t ∈ p.startedSince p') {req : ParkRequest} (hj : t.job = .park req)
    (hid : Taken req.correlationId p.state) {r : PendingResult} (hr : t.rest = .pure r) :
    r.Failed := by
  have hcalls := h'.started (Q := Taken req.correlationId) (K := NoInsert req.correlationId)
    (fun _ _ _ _ hp hq => ⟨hq.grow (.performs hp), hq.noInsert hp⟩)
    (fun _ _ ho hq => hq.grow (.elsewhere ho)) hid t ht
  have hfollows : Prog.Trace (t.job.program F X readBody) t.calls t.rest :=
    Pool.Reachable.follows (h.trans h') t (List.mem_of_mem_drop ht)
  rw [hj, hr] at hfollows
  exact park_trace hfollows hcalls

/-- The tenant has no request under the id, whether another tenant has or not. -/
def Unseen (id tenant : String) (db : Db) : Prop :=
  ∀ r ∈ db.pendings, r.correlationId = id → r.tenant ≠ tenant

/-- The refusal, before the row is looked for or because there is none. -/
def unseenError (decision : String) (fails : Bool) : DecideError :=
  if decision ≠ "allow" ∧ decision ≠ "deny" then .invalidDecision decision
  else if fails then .sqlite .sqliteFailure
  else .notFound

theorem Unseen.select {id tenant : String} {db : Db} (h : Unseen id tenant db) :
    db.pendings.find? (fun r => r.correlationId = id ∧ r.OfTenant (some tenant)) = none := by
  refine List.find?_eq_none.mpr fun r hr hm => ?_
  obtain ⟨hid, hten⟩ := of_decide_eq_true hm
  exact h r hr hid (hten tenant rfl)

theorem selectPending_unseen {id tenant : String} {s : Session StepEnv Db}
    (h : Unseen id tenant s.view) :
    (Sql.selectPending id (some tenant)).answer s =
      (if (s.oracle s.step).fails then .error .sqliteFailure else .ok none, s.tick) := by
  change statement StepEnv.fails .sqliteFailure (ClavenarLite.selectPending id (some tenant)) s = _
  unfold statement
  by_cases hf : (s.oracle s.step).fails = true
  · rw [if_pos hf, if_pos hf]
  · rw [if_neg hf, if_neg hf]
    simp only [ClavenarLite.selectPending, h.select]
    rfl

theorem decidePendingCall_unseen {id tenant : String} (decision : String) (note : Option String)
    {s : Session StepEnv Db} (h : Unseen id tenant s.view) :
    ∃ s', (decidePendingCall F id (some tenant) decision note).run Sql.answer s =
      (.error (unseenError decision (s.oracle s.step).fails), s') ∧ s'.view = s.view := by
  unfold decidePendingCall unseenError
  by_cases hd : decision ≠ "allow" ∧ decision ≠ "deny"
  · rw [if_pos hd, if_pos hd]
    exact ⟨s, rfl, rfl⟩
  · rw [if_neg hd, if_neg hd, decideStored_run]
    refine ⟨s.tick, ?_, rfl⟩
    rw [Prog.run_bind, Prog.run_call, selectPending_unseen h]
    by_cases hf : (s.oracle s.step).fails = true
    · rw [if_pos hf, if_pos hf]
      rfl
    · rw [if_neg hf, if_neg hf]
      rfl

/-- The ledger call is the program run with no other call in between. -/
theorem decidePendingScoped_eq (id decision : String) (tenant note : Option String)
    (oracle : Oracle) (db : Db) :
    Ledger.decidePendingScoped F id tenant decision note oracle db =
      (((decidePendingCall F id tenant decision note).run Sql.answer ⟨oracle, 0, db⟩).1,
        ((decidePendingCall F id tenant decision note).run Sql.answer ⟨oracle, 0, db⟩).2.view) := by
  unfold Ledger.decidePendingScoped decidePendingCall
  by_cases hd : decision ≠ "allow" ∧ decision ≠ "deny"
  · rw [if_pos hd, if_pos hd]
    rfl
  · rw [if_neg hd, if_neg hd, Prog.run_bind]
    unfold runAutocommit autocommit
    cases ((decideStored F id tenant decision note).run.run Sql.answer ⟨oracle, 0, db⟩).1 with
    | ok result => rfl
    | error e => rfl

theorem decidePendingForTenant_unseen {id tenant : String} (decision : String)
    (note : Option String) (oracle : Oracle) {db : Db} (h : Unseen id tenant db) :
    Ledger.decidePendingForTenant F id tenant decision note oracle db =
      (.error (unseenError decision (oracle 0).fails), db) := by
  obtain ⟨s', hrun, hview⟩ :=
    decidePendingCall_unseen (F := F) decision note (s := ⟨oracle, 0, db⟩) h
  rw [Ledger.decidePendingForTenant, decidePendingScoped_eq, hrun, hview]

theorem handleDecidePending_unseen {state : AppState} {id tenant : String} {headers : HeaderMap}
    {body : Octets} (ht : resolveOperatorTenant state.deciders state.decideToken headers =
      .ok (some tenant)) {s s' : Session StepEnv Db} (ho : s.oracle = s'.oracle)
    (hstep : s.step = s'.step) (h : Unseen id tenant s.view) (h' : Unseen id tenant s'.view) :
    ((handleDecidePending F X readBody state id headers body).run Sql.answer s).1 =
        ((handleDecidePending F X readBody state id headers body).run Sql.answer s').1 ∧
      ((handleDecidePending F X readBody state id headers body).run Sql.answer s).2.view =
        s.view := by
  -- the answer depends on the identifier of the attempt and on a failure of the read only
  have hrun : ∃ reply : Uuid → Bool → Reply, ∀ r : Session StepEnv Db, Unseen id tenant r.view →
      ∃ r', (handleDecidePending F X readBody state id headers body).run Sql.answer r =
        (reply (r.oracle r.step).uuid (r.oracle (r.step + 1)).fails, r') ∧ r'.view = r.view := by
    unfold handleDecidePending
    cases hbody : readBody body with
    | error e =>
      refine ⟨fun u _ => (plainResponse 400 u.text state.mode
        (.text ("invalid decision body: " ++ e)), []), fun r _ => ⟨r.tick, ?_, rfl⟩⟩
      rw [Prog.perform_bind, Prog.run_call, ht]
      rfl
    | ok req =>
      refine ⟨fun u fails => (plainResponse ((unseenError req.decision fails).answer X id).1 u.text
        state.mode (.text ((unseenError req.decision fails).answer X id).2), []), fun r hr => ?_⟩
      obtain ⟨r', hdecide, hview⟩ :=
        decidePendingCall_unseen (F := F) req.decision req.note (s := r.tick) hr
      refine ⟨r', ?_, hview⟩
      rw [Prog.perform_bind, Prog.run_call, ht]
      change ((decidePendingCall F id (some tenant) req.decision req.note >>= _).run Sql.answer
        r.tick) = _
      rw [Prog.run_bind, hdecide]
      rfl
  obtain ⟨reply, hreply⟩ := hrun
  obtain ⟨r, hr, hview⟩ := hreply s h
  obtain ⟨r', hr', _⟩ := hreply s' h'
  refine ⟨?_, by rw [hr, hview]⟩
  rw [hr, hr', ho, hstep]

/-- From the file as it was created, or any state kept so: a request is decided
at most once and for good, its decision has at most one entry, failing calls
change nothing, a taken id is not parked again, and another tenant's request is
answered as an unknown one. -/
theorem pending_life_cycle (hk : PendingsKept F db₀)
    (h : Pool.Reachable (pendingRules F X readBody) db₀ p) :
    PendingsKept F p.state ∧
      (∀ p', Pool.Steps (pendingRules F X readBody) p p' → PendingsGrow p.state p'.state ∧
        ∀ t ∈ p.startedSince p', ∀ req r, t.job = .park req → Taken req.correlationId p.state →
          t.rest = .pure r → r.Failed) ∧
      (∀ t ∈ p.threads, ∀ r, t.rest = .pure r → r.Failed → ∀ call ∈ t.calls, Inert call) ∧
      (∀ id tenant decision note oracle db, Unseen id tenant db →
        Ledger.decidePendingForTenant F id tenant decision note oracle db =
          (.error (unseenError decision (oracle 0).fails), db)) ∧
      ∀ state id tenant headers body (s s' : Session StepEnv Db),
        resolveOperatorTenant state.deciders state.decideToken headers = .ok (some tenant) →
          s.oracle = s'.oracle → s.step = s'.step →
          Unseen id tenant s.view → Unseen id tenant s'.view →
          ((handleDecidePending F X readBody state id headers body).run Sql.answer s).1 =
              ((handleDecidePending F X readBody state id headers body).run Sql.answer s').1 ∧
            ((handleDecidePending F X readBody state id headers body).run Sql.answer s).2.view =
              s.view := by
  refine ⟨kept_of_reachable hk h, ?_, ?_, ?_, ?_⟩
  · intro p' h'
    exact ⟨grow_of_steps h', fun t ht req r hj hid hr => park_taken h h' ht hj hid hr⟩
  · intro t ht r hr hfail
    have hfollows : Prog.Trace (t.job.program F X readBody) t.calls t.rest := h.follows t ht
    rw [hr] at hfollows
    exact program_failed hfollows hfail
  · intro id tenant decision note oracle db hu
    exact decidePendingForTenant_unseen decision note oracle hu
  · intro state id tenant headers body s s' ht ho hstep hu hu'
    exact handleDecidePending_unseen ht ho hstep hu hu'

def sampleParkRequest : ParkRequest where
  correlationId := "corr-1"
  tenant := "tenant-a"
  agentId := "billing"
  toolType := "wire_transfer"
  method := "tools/call"
  reviewReasons := ["amount above limit"]
  callbackUrl := none

def unreadableBody : Octets → Except String DecideRequest :=
  fun _ => .error "EOF while parsing a value at line 1 column 0"

def sampleRow : PendingRow := parkedRow bitsText sampleParkRequest newYear

def sampleDecision (decision : String) : PendingJob :=
  .decide "corr-1" (some "tenant-a") decision none

theorem serve_sample (job : PendingJob) (db : Db)
    (threads : List (Thread Sql PendingJob PendingResult)) :
    let s : Session StepEnv Db := ⟨fun _ => ⟨false, numberedUuid 1, newYear⟩, 0, db⟩
    let served := (job.program bitsText sampleTexts unreadableBody).run Sql.answer s
    ∃ cs, Pool.Steps (pendingRules bitsText sampleTexts unreadableBody) ⟨db, threads⟩
      ⟨served.2.view, threads ++ [⟨job, cs, .pure served.1⟩]⟩ := by
  intro s served
  have hperforms {β : Type} (op : Sql β) (s : Session StepEnv Db) :
      SqlPerforms op (Session.view s) (Sql.answer op s).1 (Session.view (Sql.answer op s).2) :=
    ⟨s, _, rfl, rfl, rfl⟩
  obtain ⟨cs, hruns⟩ :=
    Prog.RunsTo.of_run hperforms (job.program bitsText sampleTexts unreadableBody) s
  exact ⟨cs, Pool.Steps.serve hruns threads⟩

/-- The second decision of a request is refused, and leaves the row to the first. -/
theorem pending_life_cycle_decided : ∃ p : Pool Sql Db PendingJob PendingResult,
    p.threads.map Thread.job =
        [.park sampleParkRequest, sampleDecision "allow", sampleDecision "deny"] ∧
      p.state.pendings = [sampleRow.decided (toRfc3339 newYear) "allow" none] ∧
      PendingsKept bitsText p.state ∧
      ∃ t ∈ p.threads, t.job = sampleDecision "deny" ∧
        t.rest = .pure (.decided (.error .alreadyDecided)) ∧ ∀ call ∈ t.calls, Inert call := by
  let R := pendingRules bitsText sampleTexts unreadableBody
  let parked : Db := { Db.empty with pendings := [sampleRow] }
  let decided : Db :=
    { Db.empty with pendings := [sampleRow.decided (toRfc3339 newYear) "allow" none] }
  obtain ⟨cs, hpark⟩ : ∃ cs, Pool.Steps R ⟨Db.empty, []⟩
      ⟨parked, [⟨.park sampleParkRequest, cs, _⟩]⟩ :=
    serve_sample (.park sampleParkRequest) Db.empty []
  obtain ⟨ds, hallow⟩ : ∃ ds, Pool.Steps R ⟨parked, [⟨.park sampleParkRequest, cs, _⟩]⟩
      ⟨decided, [⟨.park sampleParkRequest, cs, _⟩, ⟨sampleDecision "allow", ds, _⟩]⟩ :=
    serve_sample (sampleDecision "allow") parked _
  obtain ⟨es, hdeny⟩ : ∃ es, Pool.Steps R
      ⟨decided, [⟨.park sampleParkRequest, cs, _⟩, ⟨sampleDecision "allow", ds, _⟩]⟩
      ⟨decided, [⟨.park sampleParkRequest, cs, _⟩, ⟨sampleDecision "allow", ds, _⟩,
        ⟨sampleDecision "deny", es, .pure (.decided (.error .alreadyDecided))⟩]⟩ :=
    serve_sample (sampleDecision "deny") decided _
  obtain ⟨hkept, _, hfailed, _⟩ := pending_life_cycle .empty ((hpark.trans hallow).trans hdeny)
  let refused : Thread Sql PendingJob PendingResult :=
    ⟨sampleDecision "deny", es, .pure (.decided (.error .alreadyDecided))⟩
  refine ⟨_, rfl, rfl, hkept, refused, .tail _ (.tail _ (.head _)), rfl, rfl, ?_⟩
  exact hfailed refused (.tail _ (.tail _ (.head _))) _ rfl rfl

end ClavenarLite
