import ClavenarLite.Proxy.PendingRoutes

/-! Tenants apart. To the operators and agents of one tenant every run of the routes is a run
in which the others do not exist. -/

namespace ClavenarLite

open Bytes Fallible Interaction Rfc3339 TextJson Transaction

def Db.ofTenant (T : String) (db : Db) : Db :=
  { db with pendings := db.pendings.filter fun r => r.tenant = T }

/-- What there is of a tenant, whose parked requests go under ids of its own. -/
structure Seen (T : String) (own : String → Prop) (db r : Db) : Prop where
  rows : r.pendings = db.pendings.filter fun row => row.tenant = T
  apart : ∀ row ∈ db.pendings, own row.correlationId → row.tenant = T

/-- A job that decides for one tenant at most, and parks under an id of the tenant it is of. -/
structure RouteJob.Separate (T : String) (own : String → Prop) (job : RouteJob) : Prop where
  limited : ¬ job.DecidesForAll
  parks : ∀ req, job = .park req → (own req.correlationId ↔ req.tenant = T)

section Rows

variable {T : String} {own : String → Prop} {db db' r r' : Db}

theorem Seen.of_eq (h : Seen T own db r) (hdb : db'.pendings = db.pendings)
    (hr : r'.pendings = r.pendings) : Seen T own db' r' where
  rows := by rw [hr, hdb, h.rows]
  apart := by
    rw [hdb]
    exact h.apart

theorem Seen.added (h : Seen T own db r) {row : PendingRow} (htenant : row.tenant = T)
    (hdb : db'.pendings = db.pendings ++ [row]) (hr : r'.pendings = r.pendings ++ [row]) :
    Seen T own db' r' where
  rows := by
    rw [hr, hdb, List.filter_append, h.rows, List.filter_cons_of_pos (by simpa using htenant),
      List.filter_nil]
  apart := by
    intro row' hrow' hown
    rw [hdb] at hrow'
    rcases List.mem_append.mp hrow' with hmem | hmem
    · exact h.apart row' hmem hown
    · rw [List.mem_singleton.mp hmem]
      exact htenant

/-- The row of another tenant. -/
theorem Seen.added_elsewhere (h : Seen T own db r) {row : PendingRow} (htenant : row.tenant ≠ T)
    (hid : ¬ own row.correlationId) (hdb : db'.pendings = db.pendings ++ [row]) :
    Seen T own db' r where
  rows := by
    rw [hdb, List.filter_append, h.rows, List.filter_cons_of_neg (by simpa using htenant),
      List.filter_nil, List.append_nil]
  apart := by
    intro row' hrow' hown
    rw [hdb] at hrow'
    rcases List.mem_append.mp hrow' with hmem | hmem
    · exact h.apart row' hmem hown
    · rw [List.mem_singleton.mp hmem] at hown
      exact absurd hown hid

/-- An update keeps tenants and ids, and with them who a row is of. -/
theorem Seen.updated (h : Seen T own db r) {p : PendingRow → Prop} [DecidablePred p]
    {f : PendingRow → PendingRow} (hf : ∀ row, (f row).tenant = row.tenant)
    (hid : ∀ row, (f row).correlationId = row.correlationId)
    (hdb : db'.pendings = db.pendings.map fun row => if p row then f row else row)
    (hr : r'.pendings = r.pendings.map fun row => if p row then f row else row) :
    Seen T own db' r' where
  rows := by
    rw [hr, hdb, h.rows, List.filter_map]
    refine congrArg _ (List.filter_congr fun row _ => ?_)
    simp only [Function.comp]
    split_ifs
    · rw [hf]
    · rfl
  apart := by
    intro row' hrow' hown
    rw [hdb] at hrow'
    obtain ⟨row, hrow, rfl⟩ := List.mem_map.mp hrow'
    have happart := h.apart row hrow
    split_ifs at hown ⊢ with hp
    · rw [hf]
      exact happart (hid row ▸ hown)
    · exact happart hown

theorem Seen.updated_elsewhere (h : Seen T own db r) {p : PendingRow → Prop} [DecidablePred p]
    {f : PendingRow → PendingRow} (hp : ∀ row, p row → row.tenant ≠ T)
    (hf : ∀ row, (f row).tenant = row.tenant)
    (hid : ∀ row, (f row).correlationId = row.correlationId)
    (hdb : db'.pendings = db.pendings.map fun row => if p row then f row else row) :
    Seen T own db' r := by
  let rows := r.pendings.map fun row => if p row then f row else row
  have hkept : Seen T own db' { r with pendings := rows } := h.updated hf hid hdb rfl
  refine hkept.of_eq rfl (Eq.symm ((List.map_congr_left fun row hrow => ?_).trans (List.map_id _)))
  rw [h.rows] at hrow
  exact if_neg fun hrow' => hp row hrow' (by simpa using (List.mem_filter.mp hrow).2)

theorem Seen.find (h : Seen T own db r) {p : PendingRow → Prop} [DecidablePred p]
    (hp : ∀ row, p row → row.tenant = T) :
    r.pendings.find? (fun row => p row) = db.pendings.find? fun row => p row := by
  rw [h.rows, List.find?_filter]
  refine List.find?_congr fun row _ => ?_
  by_cases hrow : p row
  · simp [hrow, hp row hrow]
  · simp [hrow]

theorem Seen.count (h : Seen T own db r) {p : PendingRow → Prop} [DecidablePred p]
    (hp : ∀ row, p row → row.tenant = T) :
    r.pendings.countP (fun row => p row) = db.pendings.countP fun row => p row := by
  rw [h.rows, List.countP_filter]
  refine List.countP_congr fun row _ => ?_
  by_cases hrow : p row
  · simp [hrow, hp row hrow]
  · simp [hrow]

theorem Seen.listed (h : Seen T own db r) (filter : PendingFilter) (limit : UInt32)
    (sort : PendingSort) : selectPendings filter limit sort (some T) r.pendings =
      selectPendings filter limit sort (some T) db.pendings := by
  rw [selectPendings, selectPendings, h.rows, List.filter_filter]
  congr 2
  refine List.filter_congr fun row _ => ?_
  by_cases hrow : row.tenant = T <;> simp [PendingRow.OfTenant, hrow]

end Rows

/-- Some answer is always given. -/
theorem SqlPerforms.exists {β : Type} (op : Sql β) (db : Db) : ∃ b db', SqlPerforms op db b db' :=
  have env : StepEnv := ⟨false, numberedUuid 0, newYear⟩
  ⟨_, _, ⟨fun _ => env, 0, db⟩, _, rfl, rfl, rfl⟩

/-- A statement that would do the same to other data is answered the same there. -/
theorem SqlPerforms.again {β : Type} {op : Sql (Except SqlError β)}
    {exec : Db → Except SqlError (β × Db)} (hop : ∀ s, op.answer s = Sql.answer.send exec s)
    {S : Db → Db → Prop} {db db' r : Db} {b : Except SqlError β} (h : SqlPerforms op db b db')
    (hS : S db r) (hok : ∀ a db', exec db = .ok (a, db') → ∃ r', exec r = .ok (a, r') ∧ S db' r')
    (herror : ∀ e, exec db = .error e → exec r = .error e) :
    ∃ r', SqlPerforms op r b r' ∧ S db' r' := by
  obtain ⟨s, s', rfl, rfl, he⟩ := h
  rw [hop] at he
  by_cases hfails : StepEnv.fails (s.oracle s.step) = true
  · obtain ⟨rfl, rfl⟩ : .error .sqliteFailure = b ∧ s.tick = s' := by
      simpa [Sql.answer.send, statement, hfails] using he
    refine ⟨r, ⟨⟨s.oracle, s.step, r⟩, ⟨s.oracle, s.step + 1, r⟩, rfl, rfl, ?_⟩, hS⟩
    rw [hop, Sql.answer.send, statement, if_pos hfails]
    rfl
  · cases hexec : exec s.view with
    | error e =>
      obtain ⟨rfl, rfl⟩ : .error e = b ∧ s.tick = s' := by
        simpa [Sql.answer.send, statement, hfails, hexec] using he
      refine ⟨r, ⟨⟨s.oracle, s.step, r⟩, ⟨s.oracle, s.step + 1, r⟩, rfl, rfl, ?_⟩, hS⟩
      rw [hop, Sql.answer.send, statement, if_neg hfails, herror e hexec]
      rfl
    | ok result =>
      obtain ⟨a, v⟩ := result
      obtain ⟨rfl, rfl⟩ : .ok a = b ∧ { s.tick with view := v } = s' := by
        simpa [Sql.answer.send, statement, hfails, hexec] using he
      obtain ⟨r', hr', hS'⟩ := hok a v hexec
      refine ⟨r', ⟨⟨s.oracle, s.step, r⟩, ⟨s.oracle, s.step + 1, r'⟩, rfl, rfl, ?_⟩, hS'⟩
      rw [hop, Sql.answer.send, statement, if_neg hfails, hr']
      rfl

theorem isEntryInsert_frame {β : Type} {op : Sql β} (h : isEntryInsert op = true) (b : β)
    (rows : List PendingRow) : pendingsAfter ⟨op, b⟩ rows = rows := by
  cases op with
  | insertEntry row => rfl
  | _ => exact absurd h (by simp [isEntryInsert])

theorem isEntryInsert_answer {β : Type} {op : Sql β} (h : isEntryInsert op = true) (op' : Sql β)
    (b b' : β) : chainBlind.answer op op' b b' := by
  cases op with
  | insertEntry row => trivial
  | _ => exact absurd h (by simp [isEntryInsert])

section Shown

variable {T : String} {own : String → Prop} {db db' r : Db}

theorem Seen.insert {row : PendingRow} {b : Except SqlError Unit} (h : Seen T own db r)
    (htenant : row.tenant = T) (hown : own row.correlationId)
    (hp : SqlPerforms (.insertPending row) db b db') :
    ∃ r', SqlPerforms (.insertPending row) r b r' ∧ Seen T own db' r' := by
  have htaken : (∃ q ∈ db.pendings, q.correlationId = row.correlationId) ↔
      ∃ q ∈ r.pendings, q.correlationId = row.correlationId := by
    constructor
    · rintro ⟨q, hq, hid⟩
      refine ⟨q, ?_, hid⟩
      rw [h.rows]
      exact List.mem_filter.mpr ⟨hq, by simpa using h.apart q hq (hid ▸ hown)⟩
    · rintro ⟨q, hq, hid⟩
      rw [h.rows] at hq
      exact ⟨q, (List.mem_filter.mp hq).1, hid⟩
  refine hp.again (fun _ => rfl) h ?_ ?_
  · intro a db' hexec
    unfold insertPending at hexec ⊢
    split_ifs at hexec with hdb
    obtain ⟨rfl, rfl⟩ := Prod.mk.inj (Except.ok.inj hexec)
    rw [if_neg fun hr => hdb (htaken.mpr hr)]
    exact ⟨_, rfl, h.added htenant rfl rfl⟩
  · intro e hexec
    unfold insertPending at hexec ⊢
    split_ifs at hexec with hdb
    rw [if_pos (htaken.mp hdb)]
    exact hexec

theorem Seen.update {c at' d : String} {n : Option String} {b : Except SqlError Nat}
    (h : Seen T own db r) (hp : SqlPerforms (.updatePending c (some T) at' d n) db b db') :
    ∃ r', SqlPerforms (.updatePending c (some T) at' d n) r b r' ∧ Seen T own db' r' := by
  have htenant : ∀ row, Undecided c (some T) row → row.tenant = T := fun row hrow => hrow.2.2 T rfl
  refine hp.again (fun _ => rfl) h ?_ fun e he => by simp [updatePending] at he
  intro a db' hexec
  obtain ⟨rfl, rfl⟩ := Prod.mk.inj (Except.ok.inj hexec)
  let rows := r.pendings.map fun row =>
    if Undecided c (some T) row then row.decided at' d n else row
  refine ⟨{ r with pendings := rows }, ?_, h.updated (p := Undecided c (some T))
    (f := PendingRow.decided at' d n) (fun _ => rfl) (fun _ => rfl) rfl rfl⟩
  rw [updatePending, updateRows, h.count htenant]
  rfl

/-- A row that is read by its tenant is found just as well without the others. -/
theorem Seen.read {op : Sql (Except SqlError (Option PendingRow))} {p : PendingRow → Prop}
    [DecidablePred p] (hop : ∀ s, op.answer s = Sql.answer.send
      (fun db => .ok (db.pendings.find? fun row => p row, db)) s)
    (htenant : ∀ row, p row → row.tenant = T) {b : Except SqlError (Option PendingRow)}
    (h : Seen T own db r) (hp : SqlPerforms op db b db') :
    ∃ r', SqlPerforms op r b r' ∧ Seen T own db' r' := by
  refine hp.again hop h ?_ fun e he => by simp at he
  intro a db' hexec
  obtain ⟨rfl, rfl⟩ := Prod.mk.inj (Except.ok.inj hexec)
  exact ⟨r, by rw [h.find htenant], h⟩

theorem Seen.frame {β : Type} {op : Sql β} {b : β} (h : Seen T own db r)
    (hp : SqlPerforms op db b db') (hop : ∀ b rows, pendingsAfter ⟨op, b⟩ rows = rows) :
    Seen T own db' r :=
  h.of_eq (by rw [hp.after.1, hop]) rfl

/-- Statements on the chain. -/
theorem Seen.chain {β : Type} {op : Sql β} {b : β} (h : Seen T own db r) (op' : Sql β)
    (hp : SqlPerforms op db b db') (hop : ∀ b rows, pendingsAfter ⟨op, b⟩ rows = rows)
    (hop' : ∀ b rows, pendingsAfter ⟨op', b⟩ rows = rows) :
    ∃ b' r', SqlPerforms op' r b' r' ∧ Seen T own db' r' := by
  obtain ⟨b', r', hr⟩ := SqlPerforms.exists op' r
  exact ⟨b', r', hr, (h.frame hp hop).of_eq rfl (by rw [hr.after.1, hop'])⟩

end Shown

variable {F : FloatText} {X : LibraryTexts} {readBody : Octets → Except String DecideRequest}

/-- A statement on behalf of the tenant is answered without the others as it was with them. -/
theorem Seen.shows {T : String} {own : String → Prop} {job : RouteJob} {δ : Type} {op op' : Sql δ}
    {db db' r : Db} {b : δ} (hjob : job.scope = .tenant T) (hgood : job.Separate T own)
    (hrule : job.Permits (.inl op)) (hop : chainBlind.op op op') (h : Seen T own db r)
    (hp : SqlPerforms op db b db') :
    ∃ b' r', SqlPerforms op' r b' r' ∧ chainBlind.answer op op' b b' ∧ Seen T own db' r' := by
  have hsame : ∀ tenant, job.scope = .of tenant → tenant = some T := by
    intro tenant hscope
    rw [hjob] at hscope
    cases tenant with
    | none => cases hscope
    | some t => rw [Scope.tenant.inj hscope]
  rcases hop with rfl | ⟨hinsert, hinsert'⟩
  · cases op with
    | newUuid =>
      obtain ⟨s, s', rfl, rfl, he⟩ := hp
      obtain ⟨rfl, rfl⟩ := Prod.mk.inj he
      exact ⟨_, r, ⟨⟨s.oracle, s.step, r⟩, ⟨s.oracle, s.step + 1, r⟩, rfl, rfl, rfl⟩, rfl, h⟩
    | utcNow =>
      obtain ⟨s, s', rfl, rfl, he⟩ := hp
      obtain ⟨rfl, rfl⟩ := Prod.mk.inj he
      exact ⟨_, r, ⟨⟨s.oracle, s.step, r⟩, ⟨s.oracle, s.step + 1, r⟩, rfl, rfl, rfl⟩, rfl, h⟩
    | selectTip =>
      obtain ⟨b', r', hr, hS⟩ := h.chain .selectTip hp (fun _ _ => rfl) fun _ _ => rfl
      exact ⟨b', r', hr, trivial, hS⟩
    | insertEntry row =>
      obtain ⟨b', r', hr, hS⟩ := h.chain (.insertEntry row) hp (fun _ _ => rfl) fun _ _ => rfl
      exact ⟨b', r', hr, trivial, hS⟩
    | insertPending row =>
      obtain ⟨req, rfl, hid, htenant⟩ := hrule
      obtain rfl : req.tenant = T := Scope.tenant.inj hjob
      have hown : own row.correlationId := hid ▸ (hgood.parks req rfl).mpr rfl
      obtain ⟨r', hr, hS⟩ := h.insert htenant hown hp
      exact ⟨b, r', hr, rfl, hS⟩
    | selectPending c t =>
      obtain rfl := hsame t hrule
      obtain ⟨r', hr, hS⟩ := h.read (fun _ => rfl) (fun row hrow => hrow.2 T rfl) hp
      exact ⟨b, r', hr, rfl, hS⟩
    | selectPendingForAgent c t a =>
      obtain rfl : t = T := Scope.tenant.inj (hrule.symm.trans hjob)
      obtain ⟨r', hr, hS⟩ := h.read (fun _ => rfl) (fun row hrow => hrow.2.1) hp
      exact ⟨b, r', hr, rfl, hS⟩
    | updatePending c t at' d n =>
      obtain rfl := hsame t hrule.1
      obtain ⟨r', hr, hS⟩ := h.update hp
      exact ⟨b, r', hr, rfl, hS⟩
    | _ => exact hrule.elim
  · obtain ⟨b', r', hr, hS⟩ := h.chain op' hp (isEntryInsert_frame hinsert)
      (isEntryInsert_frame hinsert')
    exact ⟨b', r', hr, isEntryInsert_answer hinsert op' b b', hS⟩

/-- A statement on behalf of anybody else. -/
theorem Seen.hides {T : String} {own : String → Prop} {job : RouteJob} {δ : Type} {op : Sql δ}
    {db db' r : Db} {b : δ} (hjob : job.scope ≠ .tenant T) (hgood : job.Separate T own)
    (hrule : job.Permits (.inl op)) (h : Seen T own db r) (hp : SqlPerforms op db b db') :
    Seen T own db' r := by
  cases op with
  | newUuid => exact h.frame hp fun _ _ => rfl
  | utcNow => exact h.frame hp fun _ _ => rfl
  | selectTip => exact h.frame hp fun _ _ => rfl
  | insertEntry row => exact h.frame hp fun _ _ => rfl
  | insertPending row =>
    obtain ⟨req, rfl, hid, htenant⟩ := hrule
    have hother : req.tenant ≠ T := fun heq => hjob (congrArg Scope.tenant heq)
    have hown : ¬ own row.correlationId := fun hown => hother ((hgood.parks req rfl).mp (hid ▸ hown))
    have hafter := hp.after.1
    cases b with
    | error e => exact h.of_eq hafter rfl
    | ok u => exact h.added_elsewhere (htenant ▸ hother) hown hafter
  | selectPending c t => exact h.frame hp fun _ _ => rfl
  | selectPendingForAgent c t a => exact h.frame hp fun _ _ => rfl
  | updatePending c t at' d n =>
    have hafter := hp.after.1
    cases b with
    | error e => exact h.of_eq hafter rfl
    | ok changed =>
      cases t with
      | none => exact absurd (hrule.2 rfl) hgood.limited
      | some t =>
        have hother : t ≠ T := fun heq => hjob (hrule.1.trans (congrArg Scope.tenant heq))
        exact h.updated_elsewhere (p := Undecided c (some t)) (f := PendingRow.decided at' d n)
          (fun row hrow => hrow.2.2 t rfl ▸ hother) (fun _ => rfl) (fun _ => rfl) hafter
  | _ => exact hrule.elim

variable (F X readBody) in
theorem routes_unwind (T : String) (own : String → Prop) :
    Unwinding (routeRules F X readBody) routeBlind (fun job => job.scope = .tenant T)
      (RouteJob.Separate T own) (fun job _ {_} op => job.Permits op) (Seen T own) where
  obeys job _ := program_permits job []
  blind job _ _ := program_blind job
  shows := by
    intro job before δ op op' db b db' r hshown hgood hrule hop hS hp
    rcases op with op | op
    · rcases op' with op' | op'
      · exact hS.shows hshown hgood hrule hop hp
      · exact hop.elim
    · obtain rfl : .inr op = op' := by
        rcases op' with op' | op'
        · exact hop.elim
        · exact congrArg Sum.inr hop
      cases op with
      | selectPendings filter limit sort tenant =>
        obtain ⟨rfl, hb⟩ := hp
        obtain rfl : tenant = some T := by
          have hscope := hrule.symm.trans hshown
          cases tenant with
          | none => cases hscope
          | some t => rw [Scope.tenant.inj hscope]
        exact ⟨b, r, ⟨rfl, by rw [hS.listed]; exact hb⟩, rfl, hS⟩
  hides := by
    intro job before δ op db b db' r hshown hgood hrule hS hp
    rcases op with op | op
    · exact hS.hides hshown hgood hrule hp
    · cases op with
      | selectPendings filter limit sort tenant =>
        obtain ⟨rfl, _⟩ := hp
        exact hS
  outside db db' r hS ho := ⟨r, .refl, hS.of_eq ho rfl⟩

/-- Under an id that a tenant parks under, nobody else parks or has parked. -/
structure IdsApart (T : String) (db : Db) (p : Pool RouteOp Db RouteJob PendingResult) : Prop where
  parks : ∀ t ∈ p.threads, ∀ t' ∈ p.threads, ∀ req req', t.job = .park req → t'.job = .park req' →
    req.correlationId = req'.correlationId → req.tenant = T → req'.tenant = T
  rows : ∀ t ∈ p.threads, ∀ req, t.job = .park req → req.tenant = T →
    ∀ row ∈ db.pendings, row.correlationId = req.correlationId → row.tenant = T

/-- However the requests interleave, with no decision made for all tenants at once, those of a
tenant have the outcomes they have with that tenant alone. -/
theorem tenant_isolated (T : String) {db : Db} {p : Pool RouteOp Db RouteJob PendingResult}
    (h : Pool.Reachable (routeRules F X readBody) db p)
    (hlimited : ∀ t ∈ p.threads, ¬ t.job.DecidesForAll) (hapart : IdsApart T db p) :
    ∃ q, Pool.Reachable (routeRules F X readBody) (db.ofTenant T) q ∧
      q.state.pendings = p.state.pendings.filter (fun row => row.tenant = T) ∧
      List.Forall₂ Thread.SameOutcome (p.threads.filter fun t => t.job.scope = .tenant T)
        q.threads := by
  let own : String → Prop := fun id =>
    ∃ t ∈ p.threads, ∃ req, t.job = .park req ∧ req.tenant = T ∧ req.correlationId = id
  have hseen : Seen T own db (db.ofTenant T) := by
    refine ⟨rfl, ?_⟩
    rintro row hrow ⟨t, ht, req, hjob, htenant, hid⟩
    exact hapart.rows t ht req hjob htenant row hrow hid.symm
  have hgood : ∀ t ∈ p.threads, t.job.Separate T own := by
    refine fun t ht => ⟨hlimited t ht, fun req hjob => ⟨?_, ?_⟩⟩
    · rintro ⟨t', ht', req', hjob', htenant, hid⟩
      exact hapart.parks t' ht' t ht req' req hjob' hjob hid htenant
    · exact fun htenant => ⟨t, ht, req, hjob, htenant, rfl⟩
  obtain ⟨q, hq, hS, hthreads⟩ := (routes_unwind F X readBody T own).project hseen h hgood
  exact ⟨q, hq, hS.rows, hthreads.imp fun _ _ halike => halike.outcome⟩

def transferRequest (tenant id : String) : ParkRequest where
  correlationId := id
  tenant := tenant
  agentId := "billing"
  toolType := "wire_transfer"
  method := "tools/call"
  reviewReasons := ["amount above limit"]
  callbackUrl := none

def transferRow (tenant id : String) : PendingRow :=
  parkedRow bitsText (transferRequest tenant id) newYear

def allowBody : Octets := utf8 "\x7b\"decision\":\"allow\"\x7d"

def readAllow (body : Octets) : Except String DecideRequest :=
  if body = allowBody then .ok ⟨"allow", none⟩
  else .error "EOF while parsing a value at line 1 column 0"

def twoTenants : AppState where
  instanceId := "node-1"
  agents := none
  deciders := some ⟨((∅ : AList fun _ : String => String).insert "acme-token" "acme").insert
    "globex-token" "globex"⟩
  decideToken := none
  mode := .enforce
  upstreamAdapter := .mcpJsonRpcV1
  callbackAllowlist := []
  slackWebhookUrl := none
  webhookUrl := none
  rateLimited := false
  verboseVerdicts := false

def operatorAllows (token id : String) : RouteJob :=
  .decide twoTenants id [("authorization", utf8 ("Bearer " ++ token))] allowBody

/-- The second operator first tries the request of the other tenant. -/
def twoTenantJobs : List RouteJob :=
  [.park (transferRequest "globex" "corr-1"), .park (transferRequest "acme" "corr-2"),
    operatorAllows "globex-token" "corr-2", operatorAllows "globex-token" "corr-1",
    operatorAllows "acme-token" "corr-2"]

def readAllowRules : Rules RouteOp Db RouteJob PendingResult :=
  routeRules bitsText sampleTexts readAllow

def routeAnswer : {δ : Type} → RouteOp δ → Session StepEnv Db → δ × Session StepEnv Db
  | _, .inl op, s => op.answer s
  | _, .inr (.selectPendings filter limit sort tenant), s =>
    (.ok (selectPendings filter limit sort tenant s.view.pendings), s)

theorem routeAnswer_performs {δ : Type} (op : RouteOp δ) (s : Session StepEnv Db) :
    RoutePerforms op s.view (routeAnswer op s).1 (routeAnswer op s).2.view := by
  rcases op with op | op
  · exact ⟨s, _, rfl, rfl, rfl⟩
  · cases op with
    | selectPendings filter limit sort tenant => exact ⟨rfl, .inr rfl⟩

def twoTenantRun : List (RouteJob × PendingResult) × Session StepEnv Db :=
  serveAll readAllowRules.program routeAnswer twoTenantJobs
    ⟨fun _ => ⟨false, numberedUuid 1, newYear⟩, 0, Db.empty⟩

def PendingResult.status : PendingResult → Option UInt16
  | .answered r => some r.1.status
  | _ => none

theorem twoTenantRun_ne_nil : twoTenantRun.1 ≠ [] := List.cons_ne_nil _ _

theorem twoTenantRun_last :
    (operatorAllows "acme-token" "corr-2", (twoTenantRun.1.getLast twoTenantRun_ne_nil).2) ∈
        twoTenantRun.1 ∧
      (twoTenantRun.1.getLast twoTenantRun_ne_nil).2.status = some 200 :=
  ⟨List.getLast_mem twoTenantRun_ne_nil, by decide +kernel⟩

theorem twoTenantJobs_apart : (∀ job ∈ twoTenantJobs, ¬ job.DecidesForAll) ∧
    ∀ job ∈ twoTenantJobs, ∀ req, job = .park req →
      (req.tenant = "acme" ↔ req.correlationId = "corr-2") := by
  have hscope : ∀ job ∈ twoTenantJobs, job.scope ≠ .everyone := by decide +kernel
  constructor
  · intro job hjob hall
    cases job with
    | decide state id headers body => exact hscope _ hjob hall
    | _ => exact hall
  · intro job hjob req hreq
    subst hreq
    simp only [twoTenantJobs, operatorAllows, List.mem_cons, List.not_mem_nil, or_false,
      RouteJob.park.injEq, reduceCtorEq] at hjob
    rcases hjob with rfl | rfl
    · decide
    · decide

/-- The operator of the one tenant is refused the request of the other, who decides it as if
it were alone. -/
theorem tenant_isolated_decided : ∃ q : Pool RouteOp Db RouteJob PendingResult,
    Pool.Reachable readAllowRules Db.empty q ∧
      q.state.pendings = [(transferRow "acme" "corr-2").decided (toRfc3339 newYear) "allow" none] ∧
      ∃ t ∈ q.threads, t.job = operatorAllows "acme-token" "corr-2" ∧
        ∃ r, t.rest = .pure r ∧ r.status = some 200 := by
  obtain ⟨threads, hsteps, hjobs, hserved⟩ := Pool.Steps.serveAll (R := readAllowRules)
    routeAnswer_performs twoTenantJobs ⟨fun _ => ⟨false, numberedUuid 1, newYear⟩, 0, Db.empty⟩ []
  have hjobs : ∀ t ∈ threads, t.job ∈ twoTenantJobs := fun t ht =>
    hjobs ▸ List.mem_map_of_mem ht
  have happart : IdsApart "acme" Db.empty ⟨twoTenantRun.2.view, threads⟩ := by
    refine ⟨?_, fun _ _ _ _ _ _ hrow => by cases hrow⟩
    intro t ht t' ht' req req' hreq hreq' hid htenant
    have hiff := twoTenantJobs_apart.2 _ (hjobs t ht) req hreq
    have hiff' := twoTenantJobs_apart.2 _ (hjobs t' ht') req' hreq'
    exact hiff'.mpr (hid.symm.trans (hiff.mp htenant))
  obtain ⟨q, hq, hrows, hthreads⟩ := tenant_isolated "acme" hsteps
    (fun t ht => twoTenantJobs_apart.1 _ (hjobs t ht)) happart
  have hpendings : q.state.pendings = twoTenantRun.2.view.pendings.filter fun row =>
      row.tenant = "acme" := hrows
  refine ⟨q, hq, hpendings.trans (by decide +kernel), ?_⟩
  -- the decision has the answer there that it has among the others
  obtain ⟨hmem, hstatus⟩ := twoTenantRun_last
  obtain ⟨t, ht, hjob, hrest⟩ := hserved _ hmem
  have hscope : (operatorAllows "acme-token" "corr-2").scope = .tenant "acme" := by decide +kernel
  have hshown : t ∈ threads.filter fun t => t.job.scope = .tenant "acme" :=
    List.mem_filter.mpr ⟨ht, decide_eq_true (hjob ▸ hscope)⟩
  obtain ⟨pre, post, hsplit⟩ := List.append_of_mem hshown
  obtain ⟨_, t', _, hq', _, hsame, _⟩ := forall₂_split (hsplit ▸ hthreads)
  exact ⟨t', by simp [hq'], hsame.job.trans hjob, _, (hsame.result _).mp hrest, hstatus⟩

end ClavenarLite
