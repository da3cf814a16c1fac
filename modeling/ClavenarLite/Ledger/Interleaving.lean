import ClavenarLite.Ledger.Runs

/-! Ledger calls whose statements interleave. Connections of any number of
processes share one file; a standalone append reads the tip in one step and
inserts in another, and only the unique position decides between two of them. -/

namespace ClavenarLite

open HashChain Interaction TextJson Transaction

variable (F : FloatText)

def Ending.commits {α : Type} : Ending α → Bool
  | .commit _ => true
  | .rollback _ => false

/-- The statements of a call, and whether a transaction around them commits. -/
def LedgerOp.program : LedgerOp → LedgerM Bool
  | .append req => do let _ ← appendOnConnection F req; return true
  | .inspect b => do let _ ← inspectServerExecution b; return true
  | .begin i b => do return Ending.commits (← beginServerExecution F i b)
  | .complete b st ct body => do return Ending.commits (← completeServerExecution F b st ct body)
  | .reconcile i now => do return Ending.commits (← reconcileServerExecutionsAt F i now)
  | .park req => do let _ ← parkPending F req; return true
  | .decide c t d n =>
    if d ≠ "allow" ∧ d ≠ "deny" then return true
    else do let _ ← decideStored F c t d n; return true
  | .getPending c => do let _ ← ClavenarLite.getPending F c; return true

def LedgerOp.InTransaction : LedgerOp → Prop
  | .begin _ _ => True
  | .complete _ _ _ _ => True
  | .reconcile _ _ => True
  | _ => False

instance (op : LedgerOp) : Decidable op.InTransaction := by
  cases op <;> unfold LedgerOp.InTransaction <;> infer_instance

def tipOfAnswer : Except SqlError (Int × String) → Int × String
  | .ok t => (t.1 + 1, t.2)
  | .error _ => (1, genesisPrevHash)

def tipCall : Call Sql → Option (Int × String)
  | ⟨.selectTip, answer⟩ => some (tipOfAnswer answer)
  | _ => none

/-- What the last tip read among the calls left in the program's hands. -/
def lastRead (calls : List (Call Sql)) : Option (Int × String) :=
  (calls.filterMap tipCall).getLast?

def insertedCall : Call Sql → Option EntryRow
  | ⟨.insertEntry row, .ok _⟩ => some row
  | _ => none

def insertedRows (calls : List (Call Sql)) : List EntryRow := calls.filterMap insertedCall

/-- An entry is inserted at the position read last, with its own hash. -/
def AppendRule : List (Call Sql) → ∀ {β : Type}, Sql β → Prop
  | calls, _, .insertEntry row => lastRead calls = some (row.seq, row.prevHash) ∧ Hashed F row
  | _, _, _ => True

theorem appendOnConnection_run (req : LogRequest) :
    (appendOnConnection F req).run =
      .call .selectTip fun answer => .call .newUuid fun id => .call .utcNow fun now =>
        .call (.insertEntry ((newEntry F id now (tipOfAnswer answer) req).row F)) fun r =>
          .pure (r.map fun _ => newEntry F id now (tipOfAnswer answer) req) := by
  refine congrArg (Prog.call _) (funext fun answer => ?_)
  have htip : ∀ tip, tip = tipOfAnswer answer →
      (do
        let id ← newUuid
        let now ← utcNow
        query (.insertEntry ((newEntry F id now tip req).row F))
        return newEntry F id now tip req : LedgerM LedgerEntry).run =
      .call .newUuid fun id => .call .utcNow fun now =>
        .call (.insertEntry ((newEntry F id now (tipOfAnswer answer) req).row F)) fun r =>
          .pure (r.map fun _ => newEntry F id now (tipOfAnswer answer) req) := by
    rintro _ rfl
    refine congrArg (Prog.call _) (funext fun id => congrArg (Prog.call _) (funext fun now =>
      congrArg (Prog.call _) (funext fun r => ?_)))
    cases r <;> rfl
  cases answer with
  | ok t => exact htip _ rfl
  | error e => exact htip _ rfl

theorem lastRead_append (calls ds : List (Call Sql)) (answer : Except SqlError (Int × String))
    (h : ds.filterMap tipCall = []) :
    lastRead (calls ++ ⟨.selectTip, answer⟩ :: ds) = some (tipOfAnswer answer) := by
  simp [lastRead, tipCall, h]

theorem appendOnConnection_safe (req : LogRequest) :
    Prog.Safe (AppendRule F) (appendOnConnection F req).run := by
  rw [appendOnConnection_run]
  intro calls
  refine ⟨trivial, fun answer => ⟨trivial, fun id => ⟨trivial, fun now => ⟨⟨?_, ?_⟩, fun _ => ?_⟩⟩⟩⟩
  · rw [List.append_assoc, List.append_assoc]
    exact lastRead_append calls [⟨.newUuid, id⟩, ⟨.utcNow, now⟩] answer rfl
  · exact newEntry_hashed F id now _ req
  · trivial

def OnEntries : {β : Type} → Sql β → Prop
  | _, .selectTip => True
  | _, .insertEntry _ => True
  | _, _ => False

abbrev OffEntries {α : Type} (p : LedgerM α) : Prop :=
  Prog.Safe (fun _ {_} op => ¬ OnEntries op) p.run

theorem OffEntries.appendRule {α : Type} {p : LedgerM α} (h : OffEntries p) :
    Prog.Safe (AppendRule F) p.run := by
  refine h.mono ?_
  intro cs β op hop
  cases op with
  | insertEntry row => exact absurd trivial hop
  | _ => trivial

theorem PendingsOnly.offEntries {α : Type} {p : LedgerM α} (h : PendingsOnly p) :
    OffEntries p := by
  refine h.mono ?_
  intro cs β op hop
  cases op with
  | selectTip => exact hop.elim
  | insertEntry row => exact hop.elim
  | _ => exact id

theorem inspect_offEntries (b : ServerExecutionBinding) : OffEntries (inspectServerExecution b) :=
  safe_bind (safe_query fun _ => id) fun _ => safe_liftExcept _

theorem begin_safe (i : String) (b : ServerExecutionBinding) :
    Prog.Safe (AppendRule F) (beginServerExecution F i b).run := by
  refine safe_bind ((inspect_offEntries b).appendRule F) fun out => ?_
  cases out with
  | missing =>
    refine safe_bind (safe_lift fun _ => trivial) fun _ => ?_
    refine safe_bind (safe_query fun _ => trivial) fun _ => ?_
    exact safe_bind (appendOnConnection_safe F _) fun _ => safe_pure _
  | _ => exact safe_pure _

theorem complete_safe (b : ServerExecutionBinding) (st : UInt16) (ct : Option String)
    (body : Bytes.Octets) : Prog.Safe (AppendRule F) (completeServerExecution F b st ct body).run := by
  refine safe_bind (safe_lift fun _ => trivial) fun now => ?_
  refine safe_bind (safe_query fun _ => trivial) fun changed => ?_
  have hrest : Prog.Safe (AppendRule F) (do
      query (.insertOutbox (completedOutboxRow F b st body now))
      let _ ← appendOnConnection F (completedRequest F b st body)
      return .commit (completedResult F b st ct body) :
        LedgerM (Ending ServerExecutionCompleted)).run := by
    refine safe_bind (safe_query fun _ => trivial) fun _ => ?_
    exact safe_bind (appendOnConnection_safe F _) fun _ => safe_pure _
  by_cases hc : changed ≠ 1
  · rw [if_pos hc]
    exact safe_bind (safe_throw _) fun _ => hrest
  · rw [if_neg hc]
    exact hrest

theorem classify_safe (now : String) (row : ExecutionRow) :
    Prog.Safe (AppendRule F) (classifyUncertain F now row).run := by
  refine safe_bind (safe_query fun _ => trivial) fun changed => ?_
  have hrest : Prog.Safe (AppendRule F) (do
      query (.insertOutbox (uncertainOutboxRow F row now))
      let _ ← appendOnConnection F (uncertainRequest row) : LedgerM PUnit).run := by
    refine safe_bind (safe_query fun _ => trivial) fun _ => ?_
    exact safe_bind (appendOnConnection_safe F _) fun _ => safe_pure _
  by_cases hc : changed ≠ 1
  · rw [if_pos hc]
    exact safe_bind (safe_throw _) fun _ => hrest
  · rw [if_neg hc]
    exact hrest

theorem reconcile_safe (i : String) (now : Rfc3339.Clock) :
    Prog.Safe (AppendRule F) (reconcileServerExecutionsAt F i now).run := by
  refine safe_bind (safe_query fun _ => trivial) fun rows => ?_
  exact safe_bind (safe_forM (classify_safe F _) rows) fun _ => safe_pure _

theorem LedgerOp.program_offEntries {op : LedgerOp} (ht : ¬ op.InTransaction)
    (ha : ∀ req, op ≠ .append req) : OffEntries (op.program F) := by
  cases op with
  | append req => exact absurd rfl (ha req)
  | inspect b => exact safe_bind (inspect_offEntries b) fun _ => safe_pure _
  | park req => exact safe_bind (PendingsOnly.offEntries (parkPending_only req)) fun _ => safe_pure _
  | decide c t d n =>
    simp only [LedgerOp.program]
    by_cases hd : d ≠ "allow" ∧ d ≠ "deny"
    · rw [if_pos hd]
      exact safe_pure _
    · rw [if_neg hd]
      have hdecide := PendingsOnly.offEntries (decideStored_only (F := F) c t d n)
      exact safe_bind hdecide fun _ => safe_pure _
  | getPending c => exact safe_bind (PendingsOnly.offEntries (getPending_only c)) fun _ => safe_pure _
  | _ => exact absurd trivial ht

theorem LedgerOp.program_safe (op : LedgerOp) : Prog.Safe (AppendRule F) (op.program F).run := by
  cases op with
  | append req => exact safe_bind (appendOnConnection_safe F req) fun _ => safe_pure _
  | begin i b => exact safe_bind (begin_safe F i b) fun _ => safe_pure _
  | complete b st ct body => exact safe_bind (complete_safe F b st ct body) fun _ => safe_pure _
  | reconcile i now => exact safe_bind (reconcile_safe F i now) fun _ => safe_pure _
  | _ => exact OffEntries.appendRule F (program_offEntries F id (by simp))

/-- A call under way. Its statements see the committed entries or, inside a
transaction, a snapshot of them and the rows the call has inserted itself. -/
structure Running : Type 1 where
  op : LedgerOp
  calls : List (Call Sql)
  snapshot : Option (List EntryRow)
  own : List EntryRow
  rest : Prog Sql (Except SqlError Bool)

structure System (C : Type) : Type 1 where
  entries : List EntryRow
  conns : C → Option Running

def System.empty {C : Type} : System C := ⟨[], fun _ => none⟩

def Running.view (r : Running) (entries : List EntryRow) : List EntryRow :=
  match r.snapshot with
  | some s => s ++ r.own
  | none => entries

def Running.start (entries : List EntryRow) (op : LedgerOp) : Running where
  op := op
  calls := []
  snapshot := if op.InTransaction then some entries else none
  own := []
  rest := (op.program F).run

def Running.answered (r : Running) (call : Call Sql) (rest : Prog Sql (Except SqlError Bool)) :
    Running :=
  { r with calls := r.calls ++ [call], rest := rest }

def Running.inserted (r : Running) (row : EntryRow) (rest : Prog Sql (Except SqlError Bool)) :
    Running :=
  { r.answered ⟨.insertEntry row, .ok ()⟩ rest with own := r.own ++ [row] }

variable {C : Type} [DecidableEq C]

def System.set (s : System C) (c : C) (r : Option Running) : System C :=
  { s with conns := Function.update s.conns c r }

/-- One step of one connection. A transaction's snapshot dates from before its
first insert, statements on the other tables answer anything, and every call
may fail or be abandoned at any point. -/
inductive Step (s : System C) : System C → Prop
  | start {c : C} {op : LedgerOp} (h : s.conns c = none) :
      Step s (s.set c (some (Running.start F s.entries op)))
  | snapshot {c : C} {r : Running} (h : s.conns c = some r) (ht : r.snapshot.isSome)
      (ho : r.own = []) : Step s (s.set c (some { r with snapshot := some s.entries }))
  | other {c : C} {r : Running} {β : Type} {op : Sql β}
      {next : β → Prog Sql (Except SqlError Bool)} (h : s.conns c = some r)
      (hr : r.rest = .call op next) (ho : ¬ OnEntries op) (answer : β) :
      Step s (s.set c (some (r.answered ⟨op, answer⟩ (next answer))))
  | tip {c : C} {r : Running}
      {next : Except SqlError (Int × String) → Prog Sql (Except SqlError Bool)}
      (h : s.conns c = some r) (hr : r.rest = .call .selectTip next)
      {answer : Except SqlError (Int × String)}
      (ha : answer = tipOf (r.view s.entries) ∨ ∃ e, answer = .error e) :
      Step s (s.set c (some (r.answered ⟨.selectTip, answer⟩ (next answer))))
  | insertFails {c : C} {r : Running} {row : EntryRow}
      {next : Except SqlError Unit → Prog Sql (Except SqlError Bool)} (h : s.conns c = some r)
      (hr : r.rest = .call (.insertEntry row) next) (e : SqlError) :
      Step s (s.set c (some (r.answered ⟨.insertEntry row, .error e⟩ (next (.error e)))))
  | insert {c : C} {r : Running} {row : EntryRow}
      {next : Except SqlError Unit → Prog Sql (Except SqlError Bool)} (h : s.conns c = some r)
      (hr : r.rest = .call (.insertEntry row) next)
      (hu : ∀ x ∈ r.view s.entries, x.id ≠ row.id ∧ x.seq ≠ row.seq) :
      Step s ({ s with entries := if r.snapshot.isSome then s.entries else s.entries ++ [row] }.set c
        (some (r.inserted row (next (.ok ())))))
  | commit {c : C} {r : Running} (h : s.conns c = some r) (hr : r.rest = .pure (.ok true))
      (ht : r.snapshot.isSome)
      (hu : ∀ x ∈ r.own, ∀ y ∈ s.entries, y.id ≠ x.id ∧ y.seq ≠ x.seq) :
      Step s ({ s with entries := s.entries ++ r.own }.set c none)
  | stop {c : C} {r : Running} (h : s.conns c = some r) : Step s (s.set c none)

abbrev Reachable (s : System C) : Prop := Relation.ReflTransGen (Step F) System.empty s

/-- What a connection under way has read is the tip of an earlier state, and
what it has inserted continues its snapshot. -/
structure Running.Sound (entries : List EntryRow) (r : Running) : Prop where
  trace : Prog.Trace (r.op.program F).run r.calls r.rest
  transactional : r.snapshot.isSome ↔ r.op.InTransaction
  own_eq : r.own = insertedRows r.calls
  read : ∀ t, lastRead r.calls = some t → ∃ pre, pre <+: r.view entries ∧ t = next entryShape pre
  based : ∀ snap, r.snapshot = some snap → snap <+: entries ∧ Chain entryShape (snap ++ r.own)
  hashed : ∀ x ∈ r.own, Hashed F x

structure System.Linear (s : System C) : Prop where
  chain : Chain entryShape s.entries
  hashed : ∀ x ∈ s.entries, Hashed F x
  sound : ∀ c r, s.conns c = some r → r.Sound F s.entries

variable {F}

theorem Running.view_none {r : Running} (h : r.snapshot = none) (entries : List EntryRow) :
    r.view entries = entries := by
  rw [Running.view, h]

theorem Running.view_some {r : Running} {snap : List EntryRow} (h : r.snapshot = some snap)
    (entries : List EntryRow) : r.view entries = snap ++ r.own := by
  rw [Running.view, h]

theorem Running.view_mono {entries entries' : List EntryRow} (r : Running)
    (h : entries <+: entries') : r.view entries <+: r.view entries' := by
  unfold Running.view
  cases r.snapshot with
  | none => exact h
  | some snap => exact List.prefix_rfl

theorem Running.Sound.mono {entries entries' : List EntryRow} {r : Running}
    (hs : r.Sound F entries) (h : entries <+: entries') : r.Sound F entries' where
  trace := hs.trace
  transactional := hs.transactional
  own_eq := hs.own_eq
  read := by
    intro t ht
    obtain ⟨pre, hp, he⟩ := hs.read t ht
    exact ⟨pre, hp.trans (r.view_mono h), he⟩
  based := by
    intro snap hsnap
    obtain ⟨hp, hc⟩ := hs.based snap hsnap
    exact ⟨hp.trans h, hc⟩
  hashed := hs.hashed

theorem Running.Sound.view_chain {entries : List EntryRow} {r : Running} (hs : r.Sound F entries)
    (hc : Chain entryShape entries) : Chain entryShape (r.view entries) := by
  cases hsnap : r.snapshot with
  | none => rwa [r.view_none hsnap]
  | some snap =>
    rw [r.view_some hsnap]
    exact (hs.based snap hsnap).2

theorem Running.start_sound {entries : List EntryRow} (hc : Chain entryShape entries)
    (op : LedgerOp) : (Running.start F entries op).Sound F entries where
  trace := .nil _
  transactional := by
    by_cases ht : op.InTransaction
    · simp [Running.start, ht]
    · simp [Running.start, ht]
  own_eq := rfl
  read := by
    intro t ht
    exact absurd ht (by simp [Running.start, lastRead])
  based := by
    intro snap hsnap
    by_cases ht : op.InTransaction
    · obtain rfl : entries = snap := by simpa [Running.start, ht] using hsnap
      refine ⟨List.prefix_rfl, ?_⟩
      show Chain entryShape (entries ++ [])
      rwa [List.append_nil]
    · exact absurd hsnap (by simp [Running.start, ht])
  hashed := by
    intro x hx
    exact absurd hx (List.not_mem_nil)

theorem Running.Sound.snapshot {entries : List EntryRow} {r : Running} (hs : r.Sound F entries)
    (hc : Chain entryShape entries) (ht : r.snapshot.isSome) (ho : r.own = []) :
    Running.Sound F entries { r with snapshot := some entries } where
  trace := hs.trace
  transactional := ⟨fun _ => hs.transactional.mp ht, fun _ => rfl⟩
  own_eq := hs.own_eq
  read := by
    intro t hr
    obtain ⟨pre, hp, he⟩ := hs.read t hr
    obtain ⟨snap, hsnap⟩ := Option.isSome_iff_exists.mp ht
    rw [r.view_some hsnap, ho, List.append_nil] at hp
    refine ⟨pre, ?_, he⟩
    show pre <+: entries ++ r.own
    rw [ho, List.append_nil]
    exact hp.trans (hs.based snap hsnap).1
  based := by
    intro snap hsnap
    obtain rfl : entries = snap := Option.some.inj hsnap
    refine ⟨List.prefix_rfl, ?_⟩
    show Chain entryShape (entries ++ r.own)
    rwa [ho, List.append_nil]
  hashed := hs.hashed

theorem lastRead_snoc {calls : List (Call Sql)} {call : Call Sql} (h : tipCall call = none) :
    lastRead (calls ++ [call]) = lastRead calls := by
  simp [lastRead, h]

theorem insertedRows_snoc {calls : List (Call Sql)} {call : Call Sql}
    (h : insertedCall call = none) : insertedRows (calls ++ [call]) = insertedRows calls := by
  simp [insertedRows, h]

theorem tipCall_other {β : Type} {op : Sql β} (ho : ¬ OnEntries op) (answer : β) :
    tipCall ⟨op, answer⟩ = none := by
  cases op with
  | selectTip => exact absurd trivial ho
  | _ => rfl

theorem insertedCall_other {β : Type} {op : Sql β} (ho : ¬ OnEntries op) (answer : β) :
    insertedCall ⟨op, answer⟩ = none := by
  cases op with
  | insertEntry row => exact absurd trivial ho
  | _ => rfl

/-- A call that neither reads the tip nor inserts a row. -/
theorem Running.Sound.answered {entries : List EntryRow} {r : Running} {β : Type} {op : Sql β}
    {next : β → Prog Sql (Except SqlError Bool)} {answer : β} (hs : r.Sound F entries)
    (hr : r.rest = .call op next) (ht : tipCall ⟨op, answer⟩ = none)
    (hi : insertedCall ⟨op, answer⟩ = none) :
    (r.answered ⟨op, answer⟩ (next answer)).Sound F entries where
  trace := by
    have htrace := hs.trace
    rw [hr] at htrace
    exact htrace.snoc answer
  transactional := hs.transactional
  own_eq := hs.own_eq.trans (insertedRows_snoc hi).symm
  read := by
    intro t hread
    exact hs.read t (by rwa [Running.answered, lastRead_snoc ht] at hread)
  based := hs.based
  hashed := hs.hashed

theorem tipOfAnswer_next {rows : List EntryRow} (hc : Chain entryShape rows)
    {answer : Except SqlError (Int × String)}
    (ha : answer = tipOf rows ∨ ∃ e, answer = .error e) :
    ∃ pre, pre <+: rows ∧ tipOfAnswer answer = next entryShape pre := by
  cases answer with
  | error e => exact ⟨[], List.nil_prefix, rfl⟩
  | ok t =>
    rcases ha with ha | ⟨e, he⟩
    · exact ⟨rows, List.prefix_rfl, tipOf_next hc ha.symm⟩
    · exact absurd he (by simp)

theorem Running.Sound.tip {entries : List EntryRow} {r : Running}
    {next : Except SqlError (Int × String) → Prog Sql (Except SqlError Bool)}
    {answer : Except SqlError (Int × String)} (hs : r.Sound F entries)
    (hc : Chain entryShape entries) (hr : r.rest = .call .selectTip next)
    (ha : answer = tipOf (r.view entries) ∨ ∃ e, answer = .error e) :
    (r.answered ⟨.selectTip, answer⟩ (next answer)).Sound F entries where
  trace := by
    have htrace := hs.trace
    rw [hr] at htrace
    exact htrace.snoc answer
  transactional := hs.transactional
  own_eq := hs.own_eq.trans (insertedRows_snoc rfl).symm
  read := by
    intro t hread
    rw [Running.answered, lastRead_append r.calls [] answer rfl] at hread
    obtain rfl := Option.some.inj hread
    exact tipOfAnswer_next (hs.view_chain hc) ha
  based := hs.based
  hashed := hs.hashed

/-- Where an insert succeeds, the row continues everything its connection sees. -/
theorem Running.Sound.insert_chain {entries : List EntryRow} {r : Running} {row : EntryRow}
    {next : Except SqlError Unit → Prog Sql (Except SqlError Bool)} (hs : r.Sound F entries)
    (hc : Chain entryShape entries) (hr : r.rest = .call (.insertEntry row) next)
    (hu : ∀ x ∈ r.view entries, x.id ≠ row.id ∧ x.seq ≠ row.seq) :
    Chain entryShape (r.view entries ++ [row]) ∧ Hashed F row := by
  have hobeys : Prog.Obeys (AppendRule F) ([] ++ r.calls) r.rest :=
    (r.op.program_safe F []).of_trace hs.trace
  rw [hr, List.nil_append] at hobeys
  obtain ⟨⟨hread, hhash⟩, _⟩ := hobeys
  obtain ⟨pre, hp, he⟩ := hs.read _ hread
  exact ⟨(hs.view_chain hc).append_extending hp he fun x hx => (hu x hx).2, hhash⟩

theorem Running.Sound.insert {entries entries' : List EntryRow} {r : Running} {row : EntryRow}
    {next : Except SqlError Unit → Prog Sql (Except SqlError Bool)} (hs : r.Sound F entries)
    (hr : r.rest = .call (.insertEntry row) next)
    (hview : r.snapshot = none → r.view entries ++ [row] <+: entries') (hp : entries <+: entries')
    (hchain : Chain entryShape (r.view entries ++ [row])) (hhash : Hashed F row) :
    (r.inserted row (next (.ok ()))).Sound F entries' where
  trace := by
    have htrace := hs.trace
    rw [hr] at htrace
    exact htrace.snoc (.ok ())
  transactional := hs.transactional
  own_eq := by
    show r.own ++ [row] = insertedRows (r.calls ++ [⟨.insertEntry row, .ok ()⟩])
    rw [hs.own_eq]
    simp [insertedRows, insertedCall]
  read := by
    intro t hread
    have hcalls : lastRead (r.inserted row (next (.ok ()))).calls = lastRead r.calls :=
      lastRead_snoc rfl
    obtain ⟨pre, hpre, he⟩ := hs.read t (hcalls.symm.trans hread)
    refine ⟨pre, ?_, he⟩
    cases hsnap : r.snapshot with
    | none =>
      rw [Running.view_none (r := r.inserted row _) hsnap]
      exact hpre.trans ((List.prefix_append _ _).trans (hview hsnap))
    | some snap =>
      rw [r.view_some hsnap] at hpre
      rw [Running.view_some (r := r.inserted row _) hsnap]
      refine hpre.trans ?_
      show snap ++ r.own <+: snap ++ (r.own ++ [row])
      rw [← List.append_assoc]
      exact List.prefix_append _ _
  based := by
    intro snap hsnap
    rw [r.view_some hsnap, List.append_assoc] at hchain
    exact ⟨(hs.based snap hsnap).1.trans hp, hchain⟩
  hashed := by
    intro x hx
    rcases List.mem_append.mp hx with hx | hx
    · exact hs.hashed x hx
    · rwa [List.mem_singleton.mp hx]

theorem System.Linear.set {s : System C} {entries : List EntryRow} {c : C} {o : Option Running}
    (hs : s.Linear F) (hp : s.entries <+: entries) (hc : Chain entryShape entries)
    (hh : ∀ x ∈ entries, Hashed F x) (ho : ∀ r, o = some r → r.Sound F entries) :
    System.Linear F ({ s with entries := entries }.set c o) where
  chain := hc
  hashed := hh
  sound := by
    intro d r hr
    by_cases hd : d = c
    · subst hd
      exact ho r (by simpa [System.set] using hr)
    · have hold : s.conns d = some r := by simpa [System.set, hd] using hr
      exact (hs.sound d r hold).mono hp

theorem System.Linear.running {s : System C} {c : C} {r : Running} (hs : s.Linear F)
    (hr : r.Sound F s.entries) : System.Linear F (s.set c (some r)) :=
  hs.set List.prefix_rfl hs.chain hs.hashed fun _ he => Option.some.inj he ▸ hr

theorem step_linear {s s' : System C} (hs : s.Linear F) (h : Step F s s') :
    s'.Linear F ∧ s.entries <+: s'.entries := by
  cases h with
  | start h => exact ⟨hs.running (Running.start_sound hs.chain _), List.prefix_rfl⟩
  | snapshot h ht ho =>
    exact ⟨hs.running ((hs.sound _ _ h).snapshot hs.chain ht ho), List.prefix_rfl⟩
  | other h hr ho answer =>
    exact ⟨hs.running ((hs.sound _ _ h).answered hr (tipCall_other ho answer)
      (insertedCall_other ho answer)), List.prefix_rfl⟩
  | tip h hr ha => exact ⟨hs.running ((hs.sound _ _ h).tip hs.chain hr ha), List.prefix_rfl⟩
  | insertFails h hr e =>
    exact ⟨hs.running ((hs.sound _ _ h).answered hr rfl rfl), List.prefix_rfl⟩
  | @insert c r row next h hr hu =>
    have hsound := hs.sound _ _ h
    obtain ⟨hchain, hhash⟩ := hsound.insert_chain hs.chain hr hu
    cases hsnap : r.snapshot with
    | none =>
      have hview := r.view_none hsnap s.entries
      have hp : s.entries <+: s.entries ++ [row] := List.prefix_append _ _
      rw [hview] at hchain
      refine ⟨hs.set hp hchain ?_ ?_, hp⟩
      · intro x hx
        rcases List.mem_append.mp hx with hx | hx
        · exact hs.hashed x hx
        · rwa [List.mem_singleton.mp hx]
      · intro r' he
        obtain rfl := Option.some.inj he
        rw [← hview] at hchain
        exact hsound.insert hr (fun _ => by rw [hview]; exact List.prefix_rfl) hp hchain hhash
    | some snap =>
      refine ⟨hs.running ?_, List.prefix_rfl⟩
      exact hsound.insert hr (fun hn => absurd (hn.symm.trans hsnap) (by simp)) List.prefix_rfl
        hchain hhash
  | @commit c r h hr ht hu =>
    obtain ⟨snap, hsnap⟩ := Option.isSome_iff_exists.mp ht
    have hsound := hs.sound _ _ h
    obtain ⟨hp, hchain⟩ := hsound.based snap hsnap
    refine ⟨hs.set (List.prefix_append _ _) ?_ ?_ (by simp), List.prefix_append _ _⟩
    · exact hs.chain.commit hp hchain fun x hx y hy => (hu x hx y hy).2
    · intro x hx
      rcases List.mem_append.mp hx with hx | hx
      · exact hs.hashed x hx
      · exact hsound.hashed x hx
  | stop h => exact ⟨hs.set List.prefix_rfl hs.chain hs.hashed (by simp), List.prefix_rfl⟩

theorem reachable_linear {s : System C} (h : Reachable F s) : s.Linear F := by
  induction h with
  | refl =>
    refine ⟨trivial, ?_, ?_⟩
    · intro x hx
      exact absurd hx List.not_mem_nil
    · intro c r hr
      exact absurd hr (by simp [System.empty])
  | tail _ hstep ih => exact (step_linear ih hstep).1

theorem insertedRows_offEntries {α : Type} {p : LedgerM α} (h : OffEntries p)
    {calls : List (Call Sql)} {q : Prog Sql (Except SqlError α)}
    (ht : Prog.Trace p.run calls q) : insertedRows calls = [] := by
  rw [insertedRows, List.filterMap_eq_nil_iff]
  intro call hcall
  obtain ⟨before, after, he⟩ := List.append_of_mem hcall
  exact insertedCall_other ((h []).rule_of_trace ht he) call.answer

theorem append_program (req : LogRequest) :
    ((LedgerOp.append req).program F).run =
      .call .selectTip fun answer => .call .newUuid fun id => .call .utcNow fun now =>
        .call (.insertEntry ((newEntry F id now (tipOfAnswer answer) req).row F)) fun r =>
          .pure (r.map fun _ => true) := by
  rw [LedgerOp.program, ExceptT.run_bind, appendOnConnection_run]
  refine congrArg (Prog.call _) (funext fun answer => congrArg (Prog.call _) (funext fun id =>
    congrArg (Prog.call _) (funext fun now => congrArg (Prog.call _) (funext fun r => ?_))))
  cases r <;> rfl

theorem append_failed {req : LogRequest} {calls : List (Call Sql)} {x : SqlError}
    (h : Prog.Trace ((LedgerOp.append req).program F).run calls (.pure (.error x))) :
    insertedRows calls = [] := by
  rw [append_program] at h
  obtain ⟨answer, _, rfl, h₁⟩ := Prog.trace_call.mp h
  obtain ⟨id, _, rfl, h₂⟩ := Prog.trace_call.mp h₁
  obtain ⟨now, _, rfl, h₃⟩ := Prog.trace_call.mp h₂
  obtain ⟨r, _, rfl, h₄⟩ := Prog.trace_call.mp h₃
  cases r with
  | ok u =>
    obtain ⟨_, he⟩ := Prog.trace_pure.mp h₄
    exact absurd he (by simp [Except.map])
  | error e =>
    obtain ⟨rfl, _⟩ := Prog.trace_pure.mp h₄
    rfl

/-- A call outside a transaction that failed has inserted nothing. -/
theorem Running.Sound.failed {entries : List EntryRow} {r : Running} (hs : r.Sound F entries)
    (hn : r.snapshot = none) {x : SqlError} (hr : r.rest = .pure (.error x)) : r.own = [] := by
  have htrace := hs.trace
  have ht : ¬ r.op.InTransaction := by
    rw [← hs.transactional, hn]
    simp
  rw [hs.own_eq]
  by_cases ha : ∃ req, r.op = .append req
  · obtain ⟨req, ha⟩ := ha
    rw [hr, ha] at htrace
    exact append_failed htrace
  · exact insertedRows_offEntries (LedgerOp.program_offEntries F ht (not_exists.mp ha)) htrace

theorem System.set_other {s : System C} {c d : C} (hd : d ≠ c) (o : Option Running) :
    (s.set c o).conns d = s.conns d :=
  Function.update_of_ne hd _ _

/-- A step of a connection whose call has failed leaves the entries alone. -/
theorem failed_step {s s' : System C} {c : C} {r : Running} {x : SqlError}
    (hr : s.conns c = some r) (hrest : r.rest = .pure (.error x)) (h : Step F s s')
    (hne : s'.conns c ≠ some r) : s'.entries = s.entries := by
  cases h with
  | @insert d r' row next h hcall hu =>
    by_cases hd : c = d
    · subst hd
      obtain rfl : r = r' := Option.some.inj (hr.symm.trans h)
      exact absurd (hrest.symm.trans hcall) (by simp)
    · exact absurd ((System.set_other hd _).trans hr) hne
  | @commit d r' h hdone ht hu =>
    by_cases hd : c = d
    · subst hd
      obtain rfl : r = r' := Option.some.inj (hr.symm.trans h)
      exact absurd (hrest.symm.trans hdone) (by simp)
    · exact absurd ((System.set_other hd _).trans hr) hne
  | _ => rfl

/-- The entries are numbered from one, each is linked to the one before it and
carries its own hash, every step only appends to them, and a call that failed
has added none. -/
structure Orderly (F : FloatText) (s : System C) : Prop where
  numbered : ∀ (i : Nat) r, s.entries[i]? = some r → r.seq = i + 1
  first : ∀ r, s.entries[0]? = some r → r.prevHash = genesisPrevHash
  linked : ∀ (i : Nat) p r, s.entries[i]? = some p → s.entries[i + 1]? = some r →
    r.prevHash = p.entryHash
  hashed : ∀ r ∈ s.entries, Hashed F r
  grows : ∀ s', Step F s s' → s.entries <+: s'.entries
  failed : ∀ c r x, s.conns c = some r → r.rest = .pure (.error x) →
    (r.snapshot = none → r.own = []) ∧
      ∀ s', Step F s s' → s'.conns c ≠ some r → s'.entries = s.entries

theorem chain_interleaved {s : System C} (h : Reachable F s) : Orderly F s where
  numbered := by
    intro i r hi
    exact (linked_getElem? (reachable_linear h).chain hi).1.trans (Int.add_comm 1 i)
  first := by
    intro r hi
    exact (linked_getElem? (reachable_linear h).chain hi).2.1 rfl
  linked := by
    intro i p r hp hr
    exact (linked_getElem? (reachable_linear h).chain hr).2.2 p (Nat.succ_pos i) hp
  hashed := (reachable_linear h).hashed
  grows := fun s' hstep => (step_linear (reachable_linear h) hstep).2
  failed := by
    intro c r x hr hrest
    refine ⟨fun hn => ((reachable_linear h).sound c r hr).failed hn hrest, ?_⟩
    intro s' hstep hne
    exact failed_step hr hrest hstep hne

theorem System.set_self {s : System C} {c : C} {o : Option Running} : (s.set c o).conns c = o :=
  Function.update_self _ _ _

theorem System.set_set {s : System C} {c : C} {o o' : Option Running} :
    (s.set c o).set c o' = s.set c o' :=
  congrArg (System.mk s.entries) (Function.update_idem _ _ _)

theorem other_step {s : System C} {c : C} {r : Running} {β : Type} {op : Sql β}
    {next : β → Prog Sql (Except SqlError Bool)} (hr : r.rest = .call op next)
    (ho : ¬ OnEntries op) (answer : β) :
    Step F (s.set c (some r)) (s.set c (some (r.answered ⟨op, answer⟩ (next answer)))) := by
  have hstep := Step.other (F := F) (s := s.set c (some r)) System.set_self hr ho answer
  rwa [System.set_set] at hstep

/-- An idle connection can carry an append up to its insert. -/
theorem append_pending {s : System C} {c : C} (h : s.conns c = none)
    {answer : Except SqlError (Int × String)}
    (ha : answer = tipOf s.entries ∨ ∃ e, answer = .error e) (id₀ : Uuid) (now : Rfc3339.Clock)
    (req : LogRequest) :
    ∃ r, Relation.ReflTransGen (Step F) s (s.set c (some r)) ∧ r.snapshot = none ∧
      r.rest = .call (.insertEntry ((newEntry F id₀ now (tipOfAnswer answer) req).row F)) fun r =>
        .pure (r.map fun _ => true) := by
  have hstart : Step F s (s.set c (some (Running.start F s.entries (.append req)))) := .start h
  have htip := Step.tip (F := F) (s := s.set c (some (Running.start F s.entries (.append req))))
    System.set_self (append_program req) ha
  rw [System.set_set] at htip
  refine ⟨_, (((Relation.ReflTransGen.single hstart).tail htip).tail
    (other_step rfl ?_ id₀)).tail (other_step rfl ?_ now), rfl, rfl⟩
  · exact id
  · exact id

def raceRow (n : Nat) : EntryRow :=
  (newEntry bitsText (numberedUuid n) newYear (1, genesisPrevHash) sampleRequest).row bitsText

/-- Two appends that both saw an empty table: the first insert is committed, and
the other call is refused the position. -/
theorem race_reachable : ∃ s : System Bool, Reachable bitsText s ∧ s.entries = [raceRow 1] ∧
    ∃ r, s.conns true = some r ∧ r.rest = .pure (.error .constraintViolation) := by
  have ha : ∀ rows, (.error .queryReturnedNoRows : Except SqlError (Int × String)) = tipOf rows ∨
      ∃ e, (.error .queryReturnedNoRows : Except SqlError (Int × String)) = .error e :=
    fun _ => Or.inr ⟨_, rfl⟩
  obtain ⟨r₁, h₁, hn₁, hr₁⟩ := append_pending (F := bitsText) (s := System.empty) (c := false) rfl
    (ha _) (numberedUuid 1) newYear sampleRequest
  obtain ⟨r₂, h₂, _, hr₂⟩ := append_pending (F := bitsText)
    (s := System.set System.empty false (some r₁)) (c := true) rfl (ha _) (numberedUuid 2) newYear
    sampleRequest
  have hinsert := Step.insert (F := bitsText)
    (s := System.set (System.set System.empty false (some r₁)) true (some r₂)) (c := false) rfl hr₁ (by
      rw [r₁.view_none hn₁]
      exact fun x hx => absurd hx List.not_mem_nil)
  refine ⟨_, ((h₁.trans h₂).tail hinsert).tail (.insertFails (c := true) ?_ hr₂ .constraintViolation),
    ?_, _, System.set_self, rfl⟩
  · have hset : ((System.empty.set false (some r₁)).set true (some r₂)).conns true = some r₂ :=
      System.set_self
    rw [System.set_other (by decide)]
    exact hset
  · rw [hn₁]
    rfl

theorem chain_interleaved_race : ∃ s : System Bool, s.entries = [raceRow 1] ∧
    (∃ r, s.conns true = some r ∧ r.rest = .pure (.error .constraintViolation)) ∧
      Orderly bitsText s := by
  obtain ⟨s, hs, he, hr⟩ := race_reachable
  exact ⟨s, he, hr, chain_interleaved hs⟩

end ClavenarLite
