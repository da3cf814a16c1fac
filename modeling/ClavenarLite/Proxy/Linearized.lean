import ClavenarLite.Lib.Once
import ClavenarLite.Proxy.Served

/-! The execution table as a sequential store. Whatever is interleaved, fails, is cut off or
reconciled, the executions are begun, finished and looked up as in a store of work that is
done at most once, one call after the other. -/

namespace ClavenarLite

open Bytes Interaction Rfc3339 TextJson Transaction

/-- What a retry has to repeat. -/
structure Terms where
  route : String
  method : String
  toolName : String
  submittedRequestSha256 : String
  deriving DecidableEq

def ServerExecutionBinding.terms (b : ServerExecutionBinding) : Terms :=
  ⟨b.route, b.method, b.toolName, b.submittedRequestSha256⟩

def ExecutionRow.terms (r : ExecutionRow) : Terms :=
  ⟨r.route, r.method, r.toolName, r.submittedRequestSha256⟩

abbrev Stage := Once.Stage ServerExecutionCompleted

/-- A completed row that cannot be read counts as lost. -/
def ExecutionRow.stage (r : ExecutionRow) : Stage :=
  match r.state with
  | .completed => (retained r).toOption.elim .lost .done
  | .inFlight => if r.reconciliationState = .uncertain then .lost else .begun

def ExecutionRow.record (r : ExecutionRow) : Once.Record Terms ServerExecutionCompleted :=
  ⟨r.terms, r.stage⟩

abbrev ExecutionStore := Once.Store (String × String) Terms ServerExecutionCompleted

abbrev ExecutionEvent := Once.Event (String × String) Terms ServerExecutionCompleted

def Db.executions (db : Db) : ExecutionStore :=
  fun key => (db.findExecution key).map ExecutionRow.record

def ServerExecutionOutcome.toAnswer : ServerExecutionOutcome → Once.Answer ServerExecutionCompleted
  | .missing => .missing
  | .started => .started
  | .completed c => .done c
  | .uncertain => .unknown
  | .conflict => .conflict

/-- The event that a call is to the store, if it succeeded. -/
def executionEvent : Call McpOp → Option ExecutionEvent
  | ⟨.inspectServerExecution b, .ok out⟩ => some (.look b.key b.terms out.toAnswer)
  | ⟨.beginServerExecution _ b, .ok out⟩ => some (.start b.key b.terms out.toAnswer)
  | ⟨.completeServerExecution b _ _ _, .ok c⟩ => some (.finish b.key c)
  | _ => none

/-- What the table keeps: one row a key, named after it, that reads back once it is completed,
and that has its outbox row once it is uncertain. -/
structure ExecutionsKept (db : Db) : Prop where
  distinct : KeysDistinct db
  named : ∀ r ∈ db.serverExecutions, r.executionId = (executionIdFor r.agentId r.idempotencyId).text
  readable : ∀ r ∈ db.serverExecutions, r.state = .completed → ∃ c, retained r = .ok c
  reported : ∀ r ∈ db.serverExecutions, r.state = .inFlight → r.reconciliationState = .uncertain →
    ∃ o ∈ db.serverExecutionOutbox, o.executionId = r.executionId

theorem executionsKept_empty : ExecutionsKept Db.empty where
  distinct := List.nodup_nil
  named _ hr := absurd hr List.not_mem_nil
  readable _ hr := absurd hr List.not_mem_nil
  reported _ hr := absurd hr List.not_mem_nil

variable {F : FloatText} {L : Libraries} {db db' : Db}

theorem sameRequest_iff {r : ExecutionRow} {b : ServerExecutionBinding} :
    SameRequest r b ↔ r.terms = b.terms := by
  simp [SameRequest, ExecutionRow.terms, ServerExecutionBinding.terms]

theorem stage_completed {r : ExecutionRow} {c : ServerExecutionCompleted}
    (hs : r.state = .completed) (hr : retained r = .ok c) : r.stage = .done c := by
  rw [ExecutionRow.stage, hs, hr]
  rfl

theorem stage_inFlight {r : ExecutionRow} (hs : r.state = .inFlight) :
    r.stage = if r.reconciliationState = .uncertain then .lost else .begun := by
  rw [ExecutionRow.stage, hs]

/-- The code's lookup answers as the store. -/
theorem outcomeOf_answer {b : ServerExecutionBinding} {out : ServerExecutionOutcome}
    (h : outcomeOf b (db.findExecution b.key) = .ok out) :
    out.toAnswer = db.executions.answer b.key b.terms := by
  rw [Once.Store.answer, Db.executions]
  cases hf : db.findExecution b.key with
  | none =>
    rw [hf] at h
    obtain rfl := Except.ok.inj h
    rfl
  | some r =>
    rw [hf] at h
    rw [Option.map_some, Option.elim_some, Once.Record.answer]
    rcases outcomeOf_some h with ⟨hn, rfl⟩ | ⟨hs, hc, rfl⟩ | ⟨hs, hc, c, hr, rfl⟩
    · rw [if_neg fun he : r.record.terms = b.terms => hn (sameRequest_iff.mpr he)]
      rfl
    · rw [if_pos (show r.record.terms = b.terms from sameRequest_iff.mp hs)]
      have hflight : r.state = .inFlight := by
        cases hstate : r.state with
        | inFlight => rfl
        | completed => exact absurd hstate hc
      have hstage : r.record.stage = if r.reconciliationState = .uncertain then .lost else .begun :=
        stage_inFlight hflight
      rw [hstage]
      by_cases hu : r.reconciliationState = .uncertain
      · rw [if_pos hu]
        rfl
      · rw [if_neg hu]
        rfl
    · rw [if_pos (show r.record.terms = b.terms from sameRequest_iff.mp hs)]
      have hstage : r.record.stage = .done c := stage_completed hc hr
      rw [hstage]
      rfl

theorem findExecution_eq (db : Db) (k : String × String) :
    db.findExecution k = db.serverExecutions.find? fun r => r.key = k := by
  rw [Db.findExecution]
  congr 1
  funext r
  simp [ExecutionRow.key, Prod.ext_iff]

theorem executions_congr (h : db'.serverExecutions = db.serverExecutions) :
    db'.executions = db.executions := by
  funext k
  rw [Db.executions, Db.executions, Db.findExecution, Db.findExecution, h]

/-- A row is added under a new key. -/
theorem executions_added {row : ExecutionRow} (hfree : db.findExecution row.key = none)
    (h : db'.serverExecutions = db.serverExecutions ++ [row]) :
    db'.executions = Function.update db.executions row.key (some row.record) := by
  funext k
  have hfind : db'.findExecution k = (db.findExecution k).or (if row.key = k then some row else none) := by
    rw [findExecution_eq, findExecution_eq, h, List.find?_append]
    by_cases hk : row.key = k <;> simp [hk]
  rw [Function.update_apply, Db.executions, hfind]
  by_cases hk : k = row.key
  · rw [if_pos hk, hk, hfree, if_pos rfl]
    rfl
  · rw [if_neg hk, if_neg (Ne.symm hk), Option.or_none]
    rfl

/-- One row is changed, and keeps its key. -/
theorem executions_changed {p : ExecutionRow → Prop} [DecidablePred p]
    {f : ExecutionRow → ExecutionRow} (hd : KeysDistinct db) (hf : ∀ r, (f r).key = r.key)
    (hone : db.serverExecutions.countP p = 1)
    (h : db'.serverExecutions = db.serverExecutions.map fun r => if p r then f r else r) :
    ∃ r ∈ db.serverExecutions, p r ∧ db.findExecution r.key = some r ∧
      db'.executions = Function.update db.executions r.key (some (f r).record) := by
  obtain ⟨r, hr, hp⟩ := exists_of_countP hone
  refine ⟨r, hr, hp, hd.find hr, ?_⟩
  have honly : ∀ r' ∈ db.serverExecutions, p r' → r' = r := by
    intro r' hr' hp'
    rw [List.countP_eq_length_filter, List.length_eq_one_iff] at hone
    obtain ⟨only, honly⟩ := hone
    have hmem : ∀ x ∈ db.serverExecutions, p x → x = only := by
      intro x hx hpx
      have : x ∈ db.serverExecutions.filter p := List.mem_filter.mpr ⟨hx, by simpa using hpx⟩
      rw [honly] at this
      exact List.mem_singleton.mp this
    rw [hmem r' hr' hp', hmem r hr hp]
  have hkey : ∀ x, (if p x then f x else x).key = x.key := by
    intro x
    split_ifs
    · exact hf x
    · rfl
  funext k
  have hfind : db'.findExecution k = (db.findExecution k).map fun x => if p x then f x else x := by
    rw [findExecution_eq, findExecution_eq, h, List.find?_map]
    congr 2
    funext x
    simp only [Function.comp_apply, hkey]
  rw [Function.update_apply, Db.executions, hfind]
  by_cases hk : k = r.key
  · rw [if_pos hk, hk, hd.find hr, Option.map_some, if_pos hp]
    rfl
  · rw [if_neg hk, Db.executions]
    cases hfound : db.findExecution k with
    | none => rfl
    | some x =>
      obtain ⟨hx, hxk⟩ := Db.findExecution_some hfound
      rw [Option.map_some, if_neg fun hpx => hk (hxk ▸ congrArg _ (honly x hx hpx))]

theorem ExecutionsKept.of_eq (hk : ExecutionsKept db)
    (hrows : db'.serverExecutions = db.serverExecutions)
    (hout : db'.serverExecutionOutbox = db.serverExecutionOutbox) : ExecutionsKept db' where
  distinct := by
    rw [KeysDistinct, hrows]
    exact hk.distinct
  named := hrows ▸ hk.named
  readable := hrows ▸ hk.readable
  reported := by
    rw [hrows, hout]
    exact hk.reported

theorem ExecutionsKept.begins {i : String} {b : ServerExecutionBinding} (hk : ExecutionsKept db)
    (h : Begins F i b db db') : ExecutionsKept db' ∧
      db'.executions = Function.update db.executions b.key (some ⟨b.terms, .begun⟩) := by
  have hd := effect_keysDistinct (.execution (.begins h)) hk.distinct
  obtain ⟨createdAt, ha⟩ := h.appends
  obtain ⟨hrows, hout, _⟩ := appends_tables ha
  have hadded : db'.serverExecutions = db.serverExecutions ++ [intentRow i b createdAt] := hrows
  have hfree : db.findExecution (intentRow i b createdAt).key = none := h.missing
  refine ⟨⟨hd, ?_, ?_, ?_⟩, executions_added hfree hadded⟩
  · intro r hr
    rw [hadded] at hr
    rcases List.mem_append.mp hr with hr | hr
    · exact hk.named r hr
    · rw [List.mem_singleton.mp hr]
      rfl
  · intro r hr hs
    rw [hadded] at hr
    rcases List.mem_append.mp hr with hr | hr
    · exact hk.readable r hr hs
    · rw [List.mem_singleton.mp hr] at hs
      cases hs
  · intro r hr hs hu
    rw [hadded] at hr
    rw [hout]
    rcases List.mem_append.mp hr with hr | hr
    · exact hk.reported r hr hs hu
    · rw [List.mem_singleton.mp hr] at hu
      cases hu

theorem ExecutionsKept.completes {b : ServerExecutionBinding} {st : UInt16} {ct : Option String}
    {body : Octets} (hk : ExecutionsKept db) (h : Completes F b st ct body db db') :
    ExecutionsKept db' ∧
      Once.Step db.executions (.finish b.key (completedResult F b st ct body)) db'.executions := by
  have hd := effect_keysDistinct (.execution (.completes h)) hk.distinct
  obtain ⟨now, hone, hfree, ha⟩ := h.updates
  obtain ⟨hrows, hout, _⟩ := appends_tables ha
  let c := completionOf F b st ct body now
  have hupdated : db'.serverExecutions =
      db.serverExecutions.map fun r => if c.Matches r then c.apply r else r := hrows
  have hname : ∀ r ∈ db.serverExecutions, c.Matches r → r.executionId = b.executionId.text := by
    intro r hr hm
    rw [hk.named r hr, hm.1, hm.2.1]
    rfl
  obtain ⟨r, hr, hm, hfind, hstore⟩ :=
    executions_changed (f := c.apply) hk.distinct (fun _ => rfl) hone hupdated
  have hkey : r.key = b.key := Prod.ext hm.1 hm.2.1
  have hbegun : db.executions b.key = some ⟨r.terms, .begun⟩ := by
    rw [Db.executions, ← hkey, hfind, Option.map_some, ExecutionRow.record, stage_inFlight hm.2.2.1,
      if_neg]
    intro hu
    obtain ⟨o, ho, hid⟩ := hk.reported r hr hm.2.2.1 hu
    exact (hfree o ho).2 (hid.trans (hname r hr hm))
  have hread : ∀ x ∈ db.serverExecutions, c.Matches x →
      retained (c.apply x) = .ok (completedResult F b st ct body) :=
    fun x hx hmx => retained_apply b st ct body now (hname x hx hmx)
  have hdone : (c.apply r).record = ⟨r.terms, .done (completedResult F b st ct body)⟩ := by
    rw [ExecutionRow.record, stage_completed rfl (hread r hr hm)]
    rfl
  refine ⟨⟨hd, ?_, ?_, ?_⟩, ?_⟩
  · intro r' hr'
    rw [hupdated] at hr'
    obtain ⟨x, hx, rfl⟩ := List.mem_map.mp hr'
    split_ifs
    · exact hk.named x hx
    · exact hk.named x hx
  · intro r' hr' hs
    rw [hupdated] at hr'
    obtain ⟨x, hx, rfl⟩ := List.mem_map.mp hr'
    split_ifs at hs ⊢ with hmx
    · exact ⟨_, hread x hx hmx⟩
    · exact hk.readable x hx hs
  · intro r' hr' hs hu
    rw [hupdated] at hr'
    obtain ⟨x, hx, rfl⟩ := List.mem_map.mp hr'
    split_ifs at hs hu ⊢ with hmx
    · cases hs
    · obtain ⟨o, ho, hid⟩ := hk.reported x hx hs hu
      exact ⟨o, by rw [hout]; exact List.mem_append_left _ ho, hid⟩
  · rw [hstore, hdone, hkey]
    exact .finish _ hbegun

theorem ExecutionsKept.classifies {row : ExecutionRow} (hk : ExecutionsKept db)
    (h : Classifies F row db db') : ExecutionsKept db' ∧
      ∃ k, Once.Step db.executions (.lose k) db'.executions := by
  have hd := effect_keysDistinct (.execution (.classifies h)) hk.distinct
  obtain ⟨now, hone, hfree, ha⟩ := h.updates
  obtain ⟨hrows, hout, _⟩ := appends_tables ha
  have hupdated : db'.serverExecutions = db.serverExecutions.map fun r =>
      if AwaitsReconciliation row.executionId r then r.toUncertain now else r := hrows
  obtain ⟨r, hr, hm, hfind, hstore⟩ :=
    executions_changed (f := ExecutionRow.toUncertain now) hk.distinct (fun _ => rfl) hone hupdated
  have hbegun : db.executions r.key = some ⟨r.terms, .begun⟩ := by
    rw [Db.executions, hfind, Option.map_some, ExecutionRow.record, stage_inFlight hm.2.1, if_neg]
    rw [hm.2.2]
    simp
  have hlost : (r.toUncertain now).record = ⟨r.terms, .lost⟩ := by
    rw [ExecutionRow.record, stage_inFlight (r := r.toUncertain now) hm.2.1]
    rfl
  refine ⟨⟨hd, ?_, ?_, ?_⟩, r.key, ?_⟩
  · intro r' hr'
    rw [hupdated] at hr'
    obtain ⟨x, hx, rfl⟩ := List.mem_map.mp hr'
    split_ifs
    · exact hk.named x hx
    · exact hk.named x hx
  · intro r' hr' hs
    rw [hupdated] at hr'
    obtain ⟨x, hx, rfl⟩ := List.mem_map.mp hr'
    split_ifs at hs ⊢ with hmx
    · exact absurd (hs.symm.trans hmx.2.1) (by simp)
    · exact hk.readable x hx hs
  · intro r' hr' hs hu
    rw [hupdated] at hr'
    rw [hout]
    obtain ⟨x, hx, rfl⟩ := List.mem_map.mp hr'
    split_ifs at hs hu ⊢ with hmx
    · exact ⟨_, List.mem_append_right _ List.mem_cons_self, hmx.1.symm⟩
    · obtain ⟨o, ho, hid⟩ := hk.reported x hx hs hu
      exact ⟨o, List.mem_append_left _ ho, hid⟩
  · rw [hstore, hlost]
    exact .lose hbegun

theorem ExecutionsKept.classifications (hk : ExecutionsKept db) (h : Classifications F db db') :
    ExecutionsKept db' ∧ ∃ lost : List (String × String),
      Once.Run db.executions (lost.map .lose) db'.executions := by
  induction h with
  | refl => exact ⟨hk, [], .nil⟩
  | tail _ hc ih =>
    obtain ⟨hk', lost, hrun⟩ := ih
    obtain ⟨row, hc⟩ := hc
    obtain ⟨hk'', k, hstep⟩ := hk'.classifies hc
    refine ⟨hk'', lost ++ [k], ?_⟩
    rw [List.map_append]
    exact hrun.snoc hstep

/-- What a call does to the table is the event it is to the store. -/
theorem ExecutionsKept.call {β : Type} {op : McpOp β} {w w' : World} {a : β}
    (hk : ExecutionsKept w.db) (h : McpPerforms L op w a w') : ExecutionsKept w'.db ∧
      match executionEvent ⟨op, a⟩ with
      | none => w'.db.executions = w.db.executions
      | some e => Once.Step w.db.executions e w'.db.executions := by
  have hunchanged : w'.db.serverExecutions = w.db.serverExecutions →
      w'.db.serverExecutionOutbox = w.db.serverExecutionOutbox →
        ExecutionsKept w'.db ∧ w'.db.executions = w.db.executions :=
    fun hrows hout => ⟨hk.of_eq hrows hout, executions_congr hrows⟩
  have hsame : w'.db = w.db → ExecutionsKept w'.db ∧ w'.db.executions = w.db.executions :=
    fun hdb => hunchanged (congrArg _ hdb) (congrArg _ hdb)
  have hw := h.writes
  cases op with
  | append req =>
    cases a with
    | error e => exact hsame hw
    | ok e =>
      obtain ⟨hrows, hout, _⟩ := appends_tables ⟨e, hw⟩
      exact hunchanged hrows hout
  | inspectServerExecution b =>
    cases a with
    | error e => exact hsame hw
    | ok out =>
      obtain ⟨hk', hstore⟩ := hsame hw.1
      refine ⟨hk', ?_⟩
      simp only [executionEvent]
      rw [hstore, outcomeOf_answer hw.2]
      exact .look _ _ _
  | getPending c =>
    cases a with
    | error e => exact hsame hw
    | ok found => exact hsame hw.1
  | parkPending req =>
    cases a with
    | error e => exact hsame hw
    | ok p =>
      obtain ⟨_, now, hdb⟩ := hw
      exact hunchanged (by rw [hdb]) (by rw [hdb])
  | beginServerExecution i b =>
    cases a with
    | error e => exact hsame hw
    | ok out =>
      obtain ⟨oracle, db₁, hr, hworld⟩ := h
      simp only [executionEvent]
      rcases begin_ok hr with ⟨hdb, hne, _, ho⟩ | ⟨rfl, hb⟩
      · obtain ⟨hk', hstore⟩ := hsame (by rw [hworld, hdb])
        have hanswer := outcomeOf_answer ho
        refine ⟨hk', ?_⟩
        rw [hstore, hanswer]
        refine .known _ fun hnone => hne ?_
        rw [Once.Store.answer, hnone] at hanswer
        cases out with
        | missing => rfl
        | _ => cases hanswer
      · obtain rfl : db₁ = w'.db := by rw [hworld]
        obtain ⟨hk', hstore⟩ := hk.begins hb
        refine ⟨hk', ?_⟩
        rw [hstore]
        exact .start b.terms (by rw [Db.executions, hb.missing]; rfl)
  | completeServerExecution b st ct body =>
    cases a with
    | error e => exact hsame hw
    | ok c =>
      obtain ⟨oracle, db₁, hr, _⟩ := h
      obtain ⟨rfl, _⟩ := complete_ok hr
      exact hk.completes hw
  | _ => exact hsame hw

theorem ExecutionsKept.outside {w w' : World} (hk : ExecutionsKept w.db)
    (h : Outside F w w') : ExecutionsKept w'.db ∧ ∃ lost : List (String × String),
      Once.Run w.db.executions (lost.map .lose) w'.db.executions := by
  have hkept : w'.db.serverExecutions = w.db.serverExecutions →
      w'.db.serverExecutionOutbox = w.db.serverExecutionOutbox → ExecutionsKept w'.db ∧
        ∃ lost : List (String × String),
          Once.Run w.db.executions (lost.map .lose) w'.db.executions := by
    intro hrows hout
    refine ⟨hk.of_eq hrows hout, [], ?_⟩
    rw [executions_congr hrows]
    exact .nil
  cases h.change with
  | classifies h => exact hk.classifications h
  | decides _ h => exact hkept (by rw [h]) (by rw [h])
  | records h =>
    obtain ⟨hrows, hout, _⟩ := appends_tables h
    exact hkept hrows hout

/-- The events of a thread, in the order of its calls. -/
def executionEvents (t : Thread McpOp McpJob Ended) : List ExecutionEvent :=
  t.calls.filterMap executionEvent

def isLoss : ExecutionEvent → Bool
  | .lose _ => true
  | _ => false

theorem executionEvent_not_loss {made : Call McpOp} {e : ExecutionEvent}
    (h : executionEvent made = some e) : isLoss e = false := by
  obtain ⟨op, a⟩ := made
  cases op with
  | inspectServerExecution b =>
    cases a with
    | error x => cases h
    | ok out => cases h; rfl
  | beginServerExecution i b =>
    cases a with
    | error x => cases h
    | ok out => cases h; rfl
  | completeServerExecution b st ct body =>
    cases a with
    | error x => cases h
    | ok c => cases h; rfl
  | _ => cases h

theorem executionEvents_answered {β : Type} (t : Thread McpOp McpJob Ended) (op : McpOp β) (a : β)
    (rest : Prog McpOp Ended) : executionEvents (t.answered op a rest) =
      executionEvents t ++ (executionEvent ⟨op, a⟩).toList := by
  rw [executionEvents, Thread.answered, List.filterMap_append]
  congr 1

/-- One order of all the events that every thread agrees with, and that holds nothing else but
what the reconcilers gave up. -/
structure Linearized (w : World) (p : Pool McpOp World McpJob Ended) (log : List ExecutionEvent) :
    Prop where
  run : Once.Run w.db.executions log p.state.db.executions
  ordered : ∀ t ∈ p.threads, (executionEvents t).Sublist log
  complete : (p.threads.flatMap executionEvents).Perm (log.filter fun e => !isLoss e)

theorem Linearized.late {w : World} {p : Pool McpOp World McpJob Ended} {log : List ExecutionEvent}
    {s : World} (h : Linearized w p log) {lost : List (String × String)}
    (hrun : Once.Run p.state.db.executions (lost.map .lose) s.db.executions) :
    Linearized w ⟨s, p.threads⟩ (log ++ lost.map .lose) where
  run := h.run.append hrun
  ordered t ht := (h.ordered t ht).trans (List.sublist_append_left _ _)
  complete := by
    have hnil : (lost.map (Once.Event.lose : _ → ExecutionEvent)).filter (fun e => !isLoss e) = [] := by
      refine List.filter_eq_nil_iff.mpr fun e he => ?_
      obtain ⟨k, _, rfl⟩ := List.mem_map.mp he
      simp [isLoss]
    rw [List.filter_append, hnil, List.append_nil]
    exact h.complete

theorem linearized_step {w : World} {p p' : Pool McpOp World McpJob Ended}
    (hs : Pool.Step (mcpRules L) p p') (hk : ExecutionsKept p.state.db)
    {log : List ExecutionEvent} (h : Linearized w p log) :
    ExecutionsKept p'.state.db ∧ ∃ log, Linearized w p' log := by
  cases hs with
  | start job =>
    refine ⟨hk, log, h.run, fun t ht => ?_, ?_⟩
    · rcases List.mem_append.mp ht with ht | ht
      · exact h.ordered t ht
      · rw [List.mem_singleton.mp ht]
        exact List.nil_sublist log
    · rw [List.flatMap_append, List.flatMap_singleton]
      simpa [executionEvents] using h.complete
  | outside ho =>
    obtain ⟨hk', lost, hrun⟩ := hk.outside ho
    exact ⟨hk', _, h.late hrun⟩
  | @call s s' pre post t δ op next a hr hp =>
    obtain ⟨hk', hevent⟩ := hk.call hp
    refine ⟨hk', log ++ (executionEvent ⟨op, a⟩).toList, ?_, ?_, ?_⟩
    · cases he : executionEvent ⟨op, a⟩ with
      | none =>
        rw [he] at hevent
        rw [Option.toList_none, List.append_nil, hevent]
        exact h.run
      | some e =>
        rw [he] at hevent
        exact h.run.snoc hevent
    · intro u hu
      have hkept : ∀ u ∈ pre ++ t :: post,
          (executionEvents u).Sublist (log ++ (executionEvent ⟨op, a⟩).toList) :=
        fun u hu => (h.ordered u hu).trans (List.sublist_append_left _ _)
      rcases List.mem_append.mp hu with hu | hu
      · exact hkept u (List.mem_append_left _ hu)
      · rcases List.mem_cons.mp hu with rfl | hu
        · rw [executionEvents_answered]
          exact (h.ordered t (by simp)).append (List.Sublist.refl _)
        · exact hkept u (List.mem_append_right _ (List.mem_cons_of_mem _ hu))
    · have hnew : (executionEvent ⟨op, a⟩).toList.filter (fun e => !isLoss e) =
          (executionEvent ⟨op, a⟩).toList := by
        refine List.filter_eq_self.mpr fun e he => ?_
        rw [executionEvent_not_loss (Option.mem_toList.mp he)]
        rfl
      have hcomplete := h.complete
      simp only [List.flatMap_append, List.flatMap_cons, executionEvents_answered,
        List.filter_append, hnew, List.append_assoc] at hcomplete ⊢
      refine .trans ?_ (hcomplete.append_right _)
      simp only [List.append_assoc]
      exact (List.perm_append_comm.append_left _).append_left _

theorem linearized_of_reachable {w : World} {p : Pool McpOp World McpJob Ended}
    (h : Pool.Reachable (mcpRules L) w p) (hk : ExecutionsKept w.db) :
    ExecutionsKept p.state.db ∧ ∃ log, Linearized w p log := by
  refine h.induct (I := fun p => ExecutionsKept p.state.db ∧ ∃ log, Linearized w p log)
    ⟨hk, [], .nil, fun _ ht => absurd ht List.not_mem_nil, .nil⟩ ?_
  rintro p p' _ hs ⟨hk, log, hlog⟩
  exact linearized_step hs hk hlog

/-- Every run of the requests is a run of the store: the answers that the requests were given
are those of the store, in one order that no request contradicts. -/
theorem executions_linearized {w : World} {p : Pool McpOp World McpJob Ended}
    (h : Pool.Reachable (mcpRules L) w p) (hk : ExecutionsKept w.db) :
    ∃ log, Linearized w p log := (linearized_of_reachable h hk).2

/-- The execution that is served in the fresh world. -/
theorem executed_pool : ∃ (w : World) (t : Thread McpOp McpJob Ended) (call : McpCall) (value : Value),
    Pool.Reachable (mcpRules plainLibraries) freshWorld ⟨w, [t]⟩ ∧ t.job = executionJob ∧
      gates plainLibraries executionJob.state executionJob.headers executionJob.body
        (numberedUuid 1).text = .ok call ∧
      Bound plainLibraries executionJob call
        (some (bindingOf plainLibraries call (numberedUuid 7) value)) ∧
      ⟨.completeServerExecution (bindingOf plainLibraries call (numberedUuid 7) value) 200
          (some "application/json") executionAnswer.body,
        .ok (completedResult bitsText (bindingOf plainLibraries call (numberedUuid 7) value) 200
          (some "application/json") executionAnswer.body)⟩ ∈ t.calls := by
  obtain ⟨call, value, e, w, r, hg, hb, hrun⟩ :=
    executionJob_executed .undefined .undefined .undefined
  have hreach := @Pool.Steps.serve _ _ _ _ (mcpRules plainLibraries) _ _ executionJob _ _ hrun []
  exact ⟨w, _, call, value, hreach, rfl, hg, hb, by simp⟩

theorem executions_linearized_executed : ∃ (p : Pool McpOp World McpJob Ended)
    (log : List ExecutionEvent) (k : String × String) (c : ServerExecutionCompleted),
    Pool.Reachable (mcpRules plainLibraries) freshWorld p ∧
      (∃ t ∈ p.threads, .finish k c ∈ executionEvents t) ∧ Linearized freshWorld p log := by
  obtain ⟨w, t, call, value, hreach, _, _, _, hm⟩ := executed_pool
  obtain ⟨log, hlog⟩ := executions_linearized hreach executionsKept_empty
  exact ⟨_, log, _, _, hreach, ⟨t, List.mem_singleton_self t, List.mem_filterMap.mpr ⟨_, hm, rfl⟩⟩,
    hlog⟩

end ClavenarLite
