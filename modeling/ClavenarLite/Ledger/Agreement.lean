import ClavenarLite.Ledger.Replay

/-! The execution table, the outbox and the hash chain tell one story: an
execution is pending, resolved or uncertain in all three, and never two of these. -/

namespace ClavenarLite

open Bytes Interaction Rfc3339 TextJson Transaction

variable (F : FloatText)

/-- A text field of a stored JSON object. -/
def textField (key text : String) : Option String :=
  (parse F text.toList).bind fun j => (j.get? key).bind Json.asStr?

/-- The execution an entry is about. -/
def EntryRow.executionId (e : EntryRow) : Option String :=
  e.policyDecision.bind (textField F "execution_id")

def Db.stagesOf (db : Db) (executionId : String) : List EntryRow :=
  db.entries.filter fun e => e.executionId F = some executionId

def Db.outboxOf (db : Db) (executionId : String) : List OutboxRow :=
  db.serverExecutionOutbox.filter fun o => o.executionId = executionId

def IsIntent (e : EntryRow) : Prop := e.intentCategory = "ServerExecutionIntent"

/-- No outbox row, and exactly one entry, for the intent. -/
def AgreesPending (db : Db) (r : ExecutionRow) : Prop :=
  db.outboxOf r.executionId = [] ∧ ∃ intent, db.stagesOf F r.executionId = [intent] ∧ IsIntent intent

/-- One outbox row and, after the intent, one completion entry, both carrying
the receipt; the digest is that of the retained body. -/
def AgreesResolved (db : Db) (r : ExecutionRow) : Prop :=
  ∃ body receipt out intent done,
    r.responseBody = some body ∧ r.resultSha256 = some (sha256Label body) ∧
      r.receiptJson = some receipt ∧
      db.outboxOf r.executionId = [out] ∧ out.payloadJson = receipt ∧
      db.stagesOf F r.executionId = [intent, done] ∧ IsIntent intent ∧
      done.intentCategory = "ServerExecutionCompleted" ∧ done.policyDecision = some receipt

/-- One uncertain outbox row and, after the intent, one uncertain entry. -/
def AgreesUncertain (db : Db) (r : ExecutionRow) : Prop :=
  ∃ out intent lost,
    db.outboxOf r.executionId = [out] ∧
      textField F "stage" out.payloadJson = some "execution.uncertain" ∧
      db.stagesOf F r.executionId = [intent, lost] ∧ IsIntent intent ∧
      lost.intentCategory = "ServerExecutionUncertain" ∧ lost.policyDecision = some out.payloadJson

/-- A row is in exactly one of the three, by its two state columns. -/
def RowAgrees (db : Db) (r : ExecutionRow) : Prop :=
  match r.state, r.reconciliationState with
  | .inFlight, .pending => AgreesPending F db r
  | .completed, .resolved => AgreesResolved F db r
  | .inFlight, .uncertain => AgreesUncertain F db r
  | _, _ => False

structure Agreement (db : Db) : Prop where
  rows : ∀ r ∈ db.serverExecutions, RowAgrees F db r
  named : ∀ r ∈ db.serverExecutions, r.executionId = (executionIdFor r.agentId r.idempotencyId).text
  distinct : (db.serverExecutions.map ExecutionRow.executionId).Nodup
  outbox : ∀ o ∈ db.serverExecutionOutbox, ∃ r ∈ db.serverExecutions, r.executionId = o.executionId
  stages : ∀ e ∈ db.entries, ∀ id, e.executionId F = some id →
    ∃ r ∈ db.serverExecutions, r.executionId = id

variable {F}

theorem textField_text (key : String) (v : Value) :
    textField F key (v.text F) = (v.json.get? key).bind Json.asStr? := by
  rw [textField, Value.text, printText, String.toList_ofList, parse_print]
  rfl

theorem executionId_newEntry (id : Uuid) (t : Clock) (tip : Int × String) {req : LogRequest}
    {v : Value} (hv : req.policyDecision = some v) :
    ((newEntry F id t tip req).row F).executionId F =
      (v.json.get? "execution_id").bind Json.asStr? := by
  have hp : ((newEntry F id t tip req).row F).policyDecision = some (v.text F) := by
    show req.policyDecision.map (Value.text F) = _
    rw [hv]
    rfl
  rw [EntryRow.executionId, hp, Option.bind_some, textField_text]

theorem intentReceipt_executionId (b : ServerExecutionBinding) :
    ((intentReceipt b).json.get? "execution_id").bind Json.asStr? = some b.executionId.text := by
  rw [intentReceipt, Value.get?_object]
  rfl

theorem completedReceipt_executionId (b : ServerExecutionBinding) (st : UInt16) (body : Octets) :
    ((completedReceipt F b st body).json.get? "execution_id").bind Json.asStr? =
      some b.executionId.text := by
  rw [completedReceipt, receiptOf, Value.get?_object]
  rfl

theorem uncertainReceipt_executionId (row : ExecutionRow) :
    ((uncertainReceipt row).json.get? "execution_id").bind Json.asStr? = some row.executionId := by
  rw [uncertainReceipt, Value.get?_object]
  rfl

theorem uncertainReceipt_stage (row : ExecutionRow) :
    ((uncertainReceipt row).json.get? "stage").bind Json.asStr? = some "execution.uncertain" := by
  rw [uncertainReceipt, Value.get?_object]
  rfl

/-- One more entry, and perhaps outbox rows, about the execution `id`. -/
structure Extends (F : FloatText) (id : String) (out : List OutboxRow) (e : EntryRow)
    (db db' : Db) : Prop where
  entries : db'.entries = db.entries ++ [e]
  about : e.executionId F = some id
  outbox : db'.serverExecutionOutbox = db.serverExecutionOutbox ++ out
  outAbout : ∀ o ∈ out, o.executionId = id

section Extends

variable {id : String} {out : List OutboxRow} {e : EntryRow} {db db' : Db}

theorem Extends.stages_self (h : Extends F id out e db db') :
    db'.stagesOf F id = db.stagesOf F id ++ [e] := by
  rw [Db.stagesOf, h.entries, List.filter_append, Db.stagesOf]
  simp [h.about]

theorem Extends.stages_other (h : Extends F id out e db db') {id' : String} (hne : id' ≠ id) :
    db'.stagesOf F id' = db.stagesOf F id' := by
  rw [Db.stagesOf, h.entries, List.filter_append, Db.stagesOf]
  simp [h.about, Ne.symm hne]

theorem Extends.outbox_self (h : Extends F id out e db db') :
    db'.outboxOf id = db.outboxOf id ++ out := by
  rw [Db.outboxOf, h.outbox, List.filter_append, Db.outboxOf]
  congr 1
  rw [List.filter_eq_self]
  intro o ho
  simp [h.outAbout o ho]

theorem Extends.outbox_other (h : Extends F id out e db db') {id' : String} (hne : id' ≠ id) :
    db'.outboxOf id' = db.outboxOf id' := by
  have hnil : out.filter (fun o => o.executionId = id') = [] := by
    rw [List.filter_eq_nil_iff]
    intro o ho
    simp [h.outAbout o ho, Ne.symm hne]
  rw [Db.outboxOf, h.outbox, List.filter_append, Db.outboxOf, hnil, List.append_nil]

theorem RowAgrees.frame {r : ExecutionRow} (h : RowAgrees F db r)
    (hs : db'.stagesOf F r.executionId = db.stagesOf F r.executionId)
    (ho : db'.outboxOf r.executionId = db.outboxOf r.executionId) : RowAgrees F db' r := by
  unfold RowAgrees AgreesPending AgreesResolved AgreesUncertain at h ⊢
  rw [hs, ho]
  exact h

theorem Extends.stages_row {rows : List ExecutionRow} (h : Extends F id out e db db')
    (hs : ∀ e ∈ db.entries, ∀ id, e.executionId F = some id → ∃ r ∈ rows, r.executionId = id)
    (hid : ∃ r ∈ rows, r.executionId = id) :
    ∀ e ∈ db'.entries, ∀ id, e.executionId F = some id → ∃ r ∈ rows, r.executionId = id := by
  intro x hx id' hid'
  rw [h.entries] at hx
  rcases List.mem_append.mp hx with hx | hx
  · exact hs x hx id' hid'
  · rw [List.mem_singleton.mp hx, h.about] at hid'
    rwa [← Option.some.inj hid']

theorem Extends.outbox_row {rows : List ExecutionRow} (h : Extends F id out e db db')
    (hs : ∀ o ∈ db.serverExecutionOutbox, ∃ r ∈ rows, r.executionId = o.executionId)
    (hid : ∃ r ∈ rows, r.executionId = id) :
    ∀ o ∈ db'.serverExecutionOutbox, ∃ r ∈ rows, r.executionId = o.executionId := by
  intro o ho
  rw [h.outbox] at ho
  rcases List.mem_append.mp ho with ho | ho
  · exact hs o ho
  · rwa [h.outAbout o ho]

/-- The one row with the execution id changes and agrees again; so do the rows
of other executions, which see nothing new. -/
theorem Agreement.update {p : ExecutionRow → Prop} [DecidablePred p]
    {f : ExecutionRow → ExecutionRow} (h : Agreement F db) (hx : Extends F id out e db db')
    (hrows : db'.serverExecutions = db.serverExecutions.map fun r => if p r then f r else r)
    (hcols : ∀ r, (f r).columns = r.columns)
    (hid : ∀ r ∈ db.serverExecutions, p r → r.executionId = id)
    (hex : ∃ r ∈ db.serverExecutions, p r)
    (hnew : ∀ r ∈ db.serverExecutions, p r → RowAgrees F db' (f r)) : Agreement F db' := by
  obtain ⟨r₀, hr₀, hp₀⟩ := hex
  have hids : db'.serverExecutions.map ExecutionRow.executionId =
      db.serverExecutions.map ExecutionRow.executionId := by
    rw [hrows]
    apply map_update
    intro r
    exact congrArg RequestColumns.executionId (hcols r)
  have hhas : ∀ {i}, (∃ r ∈ db.serverExecutions, r.executionId = i) →
      ∃ r ∈ db'.serverExecutions, r.executionId = i := by
    intro i hi
    have hmem : i ∈ db.serverExecutions.map ExecutionRow.executionId := List.mem_map.mpr hi
    rw [← hids] at hmem
    exact List.mem_map.mp hmem
  have hthis : ∃ r ∈ db'.serverExecutions, r.executionId = id := hhas ⟨r₀, hr₀, hid r₀ hr₀ hp₀⟩
  refine ⟨?_, ?_, ?_, ?_, ?_⟩
  · intro r' hr'
    rw [hrows] at hr'
    obtain ⟨r, hr, rfl⟩ := List.mem_map.mp hr'
    by_cases hp : p r
    · rw [if_pos hp]
      exact hnew r hr hp
    · rw [if_neg hp]
      have hne : r.executionId ≠ id := by
        intro he
        have hsame : r = r₀ :=
          List.inj_on_of_nodup_map h.distinct hr hr₀ (he.trans (hid r₀ hr₀ hp₀).symm)
        exact hp (hsame ▸ hp₀)
      exact (h.rows r hr).frame (hx.stages_other hne) (hx.outbox_other hne)
  · intro r' hr'
    rw [hrows] at hr'
    obtain ⟨r, hr, rfl⟩ := List.mem_map.mp hr'
    by_cases hp : p r
    · rw [if_pos hp]
      have hc := hcols r
      have hn := h.named r hr
      simp only [ExecutionRow.columns, RequestColumns.mk.injEq] at hc
      rw [hc.1, hc.2.1, hc.2.2.1, hn]
    · rw [if_neg hp]
      exact h.named r hr
  · rw [hids]
    exact h.distinct
  · exact hx.outbox_row (fun o ho => hhas (h.outbox o ho)) hthis
  · exact hx.stages_row (fun x hx i hi => hhas (h.stages x hx i hi)) hthis

end Extends

theorem appends_extends {req : LogRequest} {v : Value} {id : String} {db₁ db' : Db} (db : Db)
    (out : List OutboxRow) (h : Appends F req db₁ db') (hv : req.policyDecision = some v)
    (hid : (v.json.get? "execution_id").bind Json.asStr? = some id)
    (he : db₁.entries = db.entries)
    (ho : db₁.serverExecutionOutbox = db.serverExecutionOutbox ++ out)
    (hoid : ∀ o ∈ out, o.executionId = id) :
    ∃ e, Extends F id out e db db' ∧ e.intentCategory = req.intentCategory ∧
      e.policyDecision = some (v.text F) ∧ db'.serverExecutions = db₁.serverExecutions := by
  obtain ⟨u, now, tip, _, _, rfl⟩ := appends_entries h
  refine ⟨(newEntry F u now tip req).row F, ⟨?_, ?_, ho, hoid⟩, rfl, ?_, rfl⟩
  · exact congrArg (· ++ [_]) he
  · exact (executionId_newEntry u now tip hv).trans hid
  · show req.policyDecision.map (Value.text F) = _
    rw [hv]
    rfl

theorem begins_agreement {i : String} {b : ServerExecutionBinding} {db db' : Db}
    (ha : Agreement F db) (h : Begins F i b db db') : Agreement F db' := by
  obtain ⟨createdAt, happ⟩ := h.appends
  obtain ⟨e, hx, hcat, _, hrows⟩ := appends_extends db [] happ rfl
    (intentReceipt_executionId b) rfl (List.append_nil _).symm (by simp)
  have hmem : ∀ {r}, r ∈ db'.serverExecutions ↔
      r ∈ db.serverExecutions ∨ r = intentRow i b createdAt := by
    intro r
    rw [hrows]
    exact List.mem_append.trans (or_congr_right List.mem_singleton)
  have hnone : ∀ {id}, (∃ r ∈ db.serverExecutions, r.executionId = id) →
      id ≠ b.executionId.text := by
    rintro _ ⟨r, hr, rfl⟩
    exact h.free r hr
  have hstages : db.stagesOf F b.executionId.text = [] := by
    rw [Db.stagesOf, List.filter_eq_nil_iff]
    intro x hx hxid
    exact hnone (ha.stages x hx _ (by simpa using hxid)) rfl
  have houtbox : db.outboxOf b.executionId.text = [] := by
    rw [Db.outboxOf, List.filter_eq_nil_iff]
    intro o ho hoid
    exact hnone (ha.outbox o ho) (by simpa using hoid)
  have hhas : ∀ {id}, (∃ r ∈ db.serverExecutions, r.executionId = id) →
      ∃ r ∈ db'.serverExecutions, r.executionId = id := by
    rintro _ ⟨r, hr, rfl⟩
    exact ⟨r, hmem.mpr (Or.inl hr), rfl⟩
  have hthis : ∃ r ∈ db'.serverExecutions, r.executionId = b.executionId.text :=
    ⟨intentRow i b createdAt, hmem.mpr (Or.inr rfl), rfl⟩
  refine ⟨?_, ?_, ?_, ?_, ?_⟩
  · intro r hr
    rcases hmem.mp hr with hr | rfl
    · have hne : r.executionId ≠ b.executionId.text := h.free r hr
      exact (ha.rows r hr).frame (hx.stages_other hne) (hx.outbox_other hne)
    · refine ⟨?_, e, ?_, hcat⟩
      · show db'.outboxOf b.executionId.text = []
        rw [hx.outbox_self, houtbox, List.append_nil]
      · show db'.stagesOf F b.executionId.text = [e]
        rw [hx.stages_self, hstages, List.nil_append]
  · intro r hr
    rcases hmem.mp hr with hr | rfl
    · exact ha.named r hr
    · rfl
  · rw [hrows, Db.withIntent, List.map_append, List.nodup_append]
    refine ⟨ha.distinct, by simp, ?_⟩
    intro id hid id' hid' he
    obtain ⟨r, hr, rfl⟩ := List.mem_map.mp hid
    rw [List.map_singleton, List.mem_singleton] at hid'
    exact h.free r hr (he.trans hid')
  · exact hx.outbox_row (fun o ho => hhas (ha.outbox o ho)) hthis
  · exact hx.stages_row (fun x hx i hi => hhas (ha.stages x hx i hi)) hthis

/-- An execution in flight without an outbox row is pending. -/
theorem RowAgrees.pending {db : Db} {r : ExecutionRow} {out : OutboxRow} (h : RowAgrees F db r)
    (hs : r.state = .inFlight) (hf : OutboxFree db out) (ho : out.executionId = r.executionId) :
    r.reconciliationState = .pending ∧ AgreesPending F db r := by
  unfold RowAgrees at h
  rw [hs] at h
  cases hr : r.reconciliationState with
  | pending =>
    rw [hr] at h
    exact ⟨rfl, h⟩
  | uncertain =>
    rw [hr] at h
    obtain ⟨o, _, _, hbox, _⟩ := h
    have hmem : o ∈ db.outboxOf r.executionId := by
      rw [hbox]
      simp
    obtain ⟨hin, hid⟩ := List.mem_filter.mp hmem
    exact absurd ((of_decide_eq_true hid).trans ho.symm) (hf o hin).2
  | legacy =>
    rw [hr] at h
    exact h.elim
  | resolved =>
    rw [hr] at h
    exact h.elim

theorem completes_agreement {b : ServerExecutionBinding} {st : UInt16} {ct : Option String}
    {body : Octets} {db db' : Db} (ha : Agreement F db) (h : Completes F b st ct body db db') :
    Agreement F db' := by
  obtain ⟨now, hone, hfree, happ⟩ := h.updates
  obtain ⟨e, hx, hcat, hpol, hrows⟩ := appends_extends db
    [completedOutboxRow F b st body now] happ rfl (completedReceipt_executionId b st body)
    rfl rfl (by
      intro o ho
      rw [List.mem_singleton.mp ho]
      rfl)
  have hid : ∀ r ∈ db.serverExecutions, (completionOf F b st ct body now).Matches r →
      r.executionId = b.executionId.text := by
    intro r hr hm
    rw [ha.named r hr, hm.1, hm.2.1]
    rfl
  refine ha.update hx hrows (fun _ => rfl) hid (exists_of_countP hone) ?_
  intro r hr hm
  have hrid := hid r hr hm
  obtain ⟨_, hbox, intent, hstages, hintent⟩ := (ha.rows r hr).pending hm.2.2.1 hfree hrid.symm
  rw [hrid] at hbox hstages
  refine ⟨body, (completedReceipt F b st body).text F, completedOutboxRow F b st body now, intent,
    e, rfl, rfl, rfl, ?_, rfl, ?_, hintent, hcat, hpol⟩
  · show db'.outboxOf r.executionId = _
    rw [hrid, hx.outbox_self, hbox, List.nil_append]
  · show db'.stagesOf F r.executionId = _
    rw [hrid, hx.stages_self, hstages]
    rfl

theorem RowAgrees.of_uncertain {db : Db} {r : ExecutionRow} (hs : r.state = .inFlight)
    (hr : r.reconciliationState = .uncertain) (h : AgreesUncertain F db r) : RowAgrees F db r := by
  unfold RowAgrees
  rw [hs, hr]
  exact h

theorem classifies_agreement {row : ExecutionRow} {db db' : Db} (ha : Agreement F db)
    (h : Classifies F row db db') : Agreement F db' := by
  obtain ⟨now, hone, hfree, happ⟩ := h.updates
  obtain ⟨e, hx, hcat, hpol, hrows⟩ := appends_extends db
    [uncertainOutboxRow F row now] happ rfl (uncertainReceipt_executionId row) rfl rfl (by
      intro o ho
      rw [List.mem_singleton.mp ho]
      rfl)
  refine ha.update hx hrows (fun _ => rfl) (fun r _ hp => hp.1) (exists_of_countP hone) ?_
  rintro r hr ⟨hrid, hs, _⟩
  obtain ⟨_, hbox, intent, hstages, hintent⟩ := (ha.rows r hr).pending hs hfree hrid.symm
  rw [hrid] at hbox hstages
  refine RowAgrees.of_uncertain (r := r.toUncertain now) hs rfl ?_
  refine ⟨uncertainOutboxRow F row now, intent, e, ?_, ?_, ?_, hintent, hcat, hpol⟩
  · show db'.outboxOf r.executionId = _
    rw [hrid, hx.outbox_self, hbox, List.nil_append]
  · show textField F "stage" ((uncertainReceipt row).text F) = _
    rw [textField_text, uncertainReceipt_stage]
  · show db'.stagesOf F r.executionId = _
    rw [hrid, hx.stages_self, hstages]
    rfl

theorem effect_agreement {db db' : Db} (h : ExecutionEffect F db db') (ha : Agreement F db) :
    Agreement F db' := by
  cases h with
  | begins h => exact begins_agreement ha h
  | completes h => exact completes_agreement ha h
  | classifies h => exact classifies_agreement ha h

theorem effects_agreement {db db' : Db} (h : ExecutionEffects F db db') (ha : Agreement F db) :
    Agreement F db' := by
  induction h with
  | refl => exact ha
  | tail _ he ih => exact effect_agreement he ih

theorem agreement_empty : Agreement F Db.empty where
  rows := by simp [Db.empty]
  named := by simp [Db.empty]
  distinct := by simp [Db.empty]
  outbox := by simp [Db.empty]
  stages := by simp [Db.empty]

theorem runOps_agreement {ops : List (LedgerOp × Oracle)} (h : ∀ op ∈ ops, op.1.OnExecutions) :
    Agreement F (runOps F ops Db.empty) := by
  induction ops using List.reverseRec with
  | nil => exact agreement_empty
  | append_singleton ops op ih =>
    rw [runOps_append]
    have hops := ih fun o ho => h o (by simp [ho])
    exact effects_agreement (op.1.onExecutions_effects (h op (by simp)) op.2 _) hops

/-- A completion that comes after its execution was recorded as uncertain is
refused by the outbox, and rolls back. -/
theorem late_completion {db : Db} (ha : Agreement F db) {r : ExecutionRow}
    (hr : r ∈ db.serverExecutions) (hu : r.reconciliationState = .uncertain)
    {b : ServerExecutionBinding} (hk : r.key = b.key) (st : UInt16) (ct : Option String)
    (body : Octets) (oracle : Oracle) :
    ∃ e, Ledger.completeServerExecution F b st ct body oracle db = (.error e, db) := by
  generalize hres : Ledger.completeServerExecution F b st ct body oracle db = res
  obtain ⟨res, db'⟩ := res
  cases res with
  | error e => exact ⟨e, by rw [transaction_error hres]⟩
  | ok c =>
    obtain ⟨now, hone, hfree, _⟩ := (complete_ok hres).2.updates
    obtain ⟨x, hx, hm⟩ := exists_of_countP hone
    have hxid : x.executionId = b.executionId.text := by
      rw [ha.named x hx, hm.1, hm.2.1]
      rfl
    have hrid : r.executionId = b.executionId.text := by
      obtain ⟨hagent, hidem⟩ := Prod.mk.inj hk
      rw [ha.named r hr, hagent, hidem]
      rfl
    obtain rfl : x = r := List.inj_on_of_nodup_map ha.distinct hx hr (hxid.trans hrid.symm)
    have hp := ((ha.rows x hx).pending hm.2.2.1 hfree hxid.symm).1
    exact absurd (hu.symm.trans hp) (by simp)

/-- In every state a run of begins, completions and reconciliations reaches, each
row agrees with the outbox and the chain, and an operation that returns an error
leaves all tables as they were. -/
theorem executions_agree {ops : List (LedgerOp × Oracle)} (h : ∀ op ∈ ops, op.1.OnExecutions) :
    (∀ r ∈ (runOps F ops Db.empty).serverExecutions, RowAgrees F (runOps F ops Db.empty) r) ∧
      (∀ i b o e db', Ledger.beginServerExecution F i b o (runOps F ops Db.empty) =
        (.error e, db') → db' = runOps F ops Db.empty) ∧
      (∀ b st ct body o e db', Ledger.completeServerExecution F b st ct body o
        (runOps F ops Db.empty) = (.error e, db') → db' = runOps F ops Db.empty) ∧
      (∀ i now o e db', Ledger.reconcileServerExecutionsAt F i now o (runOps F ops Db.empty) =
        (.error e, db') → db' = runOps F ops Db.empty) ∧
      (∀ r ∈ (runOps F ops Db.empty).serverExecutions, r.reconciliationState = .uncertain →
        ∀ (b : ServerExecutionBinding) st ct body o, r.key = b.key →
          ∃ e, Ledger.completeServerExecution F b st ct body o (runOps F ops Db.empty) =
            (.error e, runOps F ops Db.empty)) := by
  have ha : Agreement F (runOps F ops Db.empty) := runOps_agreement h
  refine ⟨ha.rows, ?_, ?_, ?_, ?_⟩
  · intro i b o e db' he
    exact transaction_error he
  · intro b st ct body o e db' he
    exact transaction_error he
  · intro i now o e db' he
    exact transaction_error he
  · intro r hr hu b st ct body o hk
    exact late_completion ha hr hu hk st ct body o

/-- Two executions, one completed and the other left to a later process. -/
def sampleOps : List (LedgerOp × Oracle) :=
  [(.begin "p1" sampleBinding, calm 1), (.complete sampleBinding 200 none [0x5B, 0x5D], calm 10),
    (.begin "p1" { sampleBinding with agentId := "a2" }, calm 20), (.reconcile "p2" noon, calm 30)]

theorem executions_agree_sample :
    (∀ r ∈ (runOps bitsText sampleOps Db.empty).serverExecutions,
        RowAgrees bitsText (runOps bitsText sampleOps Db.empty) r) ∧
      (∀ i b o e db', Ledger.beginServerExecution bitsText i b o
        (runOps bitsText sampleOps Db.empty) = (.error e, db') →
          db' = runOps bitsText sampleOps Db.empty) ∧
      (∀ b st ct body o e db', Ledger.completeServerExecution bitsText b st ct body o
        (runOps bitsText sampleOps Db.empty) = (.error e, db') →
          db' = runOps bitsText sampleOps Db.empty) ∧
      (∀ i now o e db', Ledger.reconcileServerExecutionsAt bitsText i now o
        (runOps bitsText sampleOps Db.empty) = (.error e, db') →
          db' = runOps bitsText sampleOps Db.empty) ∧
      (∀ r ∈ (runOps bitsText sampleOps Db.empty).serverExecutions,
        r.reconciliationState = .uncertain →
        ∀ (b : ServerExecutionBinding) st ct body o, r.key = b.key →
          ∃ e, Ledger.completeServerExecution bitsText b st ct body o
            (runOps bitsText sampleOps Db.empty) =
              (.error e, runOps bitsText sampleOps Db.empty)) :=
  executions_agree (by simp [sampleOps, LedgerOp.OnExecutions])

end ClavenarLite
