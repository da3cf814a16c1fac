import ClavenarLite.Ledger.Listings
import ClavenarLite.Lib.Projection
import ClavenarLite.Proxy.Decide
import ClavenarLite.Proxy.Gates

/-! The routes of the parked requests. Operators list and decide those of their tenant and
agents poll their own, and nothing that another tenant does can be told from the answers. -/

namespace ClavenarLite

open Bytes Fallible Interaction Rfc3339 TextJson Transaction

inductive Listing : Type → Type
  | selectPendings (filter : PendingFilter) (limit : UInt32) (sort : PendingSort)
      (tenant : Option String) : Listing (Except SqlError (List PendingRow))

abbrev RouteOp (δ : Type) : Type := Sql δ ⊕ Listing δ

def onRoute {α : Type} (p : Prog Sql α) : Prog RouteOp α := p.embed Sum.inl

/-- One statement, committed by itself. -/
def RoutePerforms : {δ : Type} → RouteOp δ → Db → δ → Db → Prop
  | _, .inl op, db, b, db' => SqlPerforms op db b db'
  | _, .inr (.selectPendings filter limit sort tenant), db, b, db' => db' = db ∧
      (b = .error .sqliteFailure ∨ b = .ok (selectPendings filter limit sort tenant db.pendings))

variable (F : FloatText) (X : LibraryTexts) (readBody : Octets → Except String DecideRequest)

structure ListPendingParams where
  status : Option String
  limit : Option UInt32
  sort : Option String

def listPendingDefaultLimit : UInt32 := 50

def listPendingMaxLimit : UInt32 := 500

def ListPendingParams.filter (params : ListPendingParams) : Except String PendingFilter :=
  match params.status with
  | none => .ok .parked
  | some status =>
    if status = "parked" then .ok .parked
    else if status = "decided" then .ok .decided
    else if status = "all" then .ok .all
    else .error ("unknown status filter " ++ X.debug status ++ " (want parked|decided|all)")

/-- The longest waiting come first, and the latest decisions. -/
def ListPendingParams.order (params : ListPendingParams) (filter : PendingFilter) :
    Except String PendingSort :=
  match params.sort with
  | none =>
    match filter with
    | .parked => .ok .oldest
    | .decided | .all => .ok .newest
  | some sort =>
    if sort = "oldest" then .ok .oldest
    else if sort = "newest" then .ok .newest
    else .error ("unknown sort " ++ X.debug sort ++ " (want oldest|newest)")

def ListPendingParams.rows (params : ListPendingParams) : UInt32 :=
  min (params.limit.getD listPendingDefaultLimit) listPendingMaxLimit

def ListPendingParams.read (params : ListPendingParams) :
    Except String (PendingFilter × PendingSort) := do
  let filter ← params.filter X
  let sort ← params.order X filter
  return (filter, sort)

def internalError (correlationId : String) (mode : ClavenarMode) : Response :=
  plainResponse 500 correlationId mode (.text "internal ledger error")

def listPendingsCall (filter : PendingFilter) (limit : UInt32) (sort : PendingSort)
    (tenant : Option String) : Prog RouteOp (Except SqlError (List Pending)) :=
  Prog.perform (.inr (.selectPendings filter limit sort tenant)) >>= fun rows =>
    pure (rows.bind fun rows => rows.mapM (rowToPending F))

def handleListPendings (state : AppState) (params : ListPendingParams) (headers : HeaderMap) :
    Prog RouteOp Response :=
  Prog.perform (.inl .newUuid) >>= fun corr =>
    match resolveOperatorTenant state.deciders state.decideToken headers with
    | .error message => pure (plainResponse 401 corr.text state.mode (.text message))
    | .ok tenant =>
      match params.read X with
      | .error reason => pure (plainResponse 400 corr.text state.mode (.text reason))
      | .ok (filter, sort) =>
        listPendingsCall F filter params.rows sort tenant >>= fun rows =>
          match rows with
          | .ok rows => pure (plainResponse 200 corr.text state.mode
              (.json (.arr (rows.map pendingView))))
          | .error _ => pure (internalError corr.text state.mode)

/-- The poll of an agent, by the tenant and the name of its token. -/
def handleGetPending (state : AppState) (id : String) (headers : HeaderMap) :
    Prog RouteOp Response :=
  Prog.perform (.inl .newUuid) >>= fun pollCorr =>
    match identify state.agents headers with
    | none =>
      pure (plainResponse 401 pollCorr.text state.mode (.text "missing or invalid bearer token"))
    | some identity =>
      onRoute (getPendingForAgent F id identity.tenant identity.agentId).run >>= fun found =>
        match found with
        | .ok (some p) => pure (plainResponse 200 pollCorr.text state.mode (.json (pendingView p)))
        | .ok none => pure (plainResponse 404 pollCorr.text state.mode
            (.text ("no pending with correlation_id " ++ id)))
        | .error _ => pure (internalError pollCorr.text state.mode)

/-- A request to one of the routes, or a call to `/mcp` that parks. -/
inductive RouteJob
  | park (req : ParkRequest)
  | list (state : AppState) (params : ListPendingParams) (headers : HeaderMap)
  | poll (state : AppState) (id : String) (headers : HeaderMap)
  | decide (state : AppState) (id : String) (headers : HeaderMap) (body : Octets)

def RouteJob.program : RouteJob → Prog RouteOp PendingResult
  | .park req => onRoute (parkPending F req).run >>= fun r => pure (.parked r)
  | .list state params headers =>
    handleListPendings F X state params headers >>= fun r => pure (.answered (r, []))
  | .poll state id headers => handleGetPending F state id headers >>= fun r =>
    pure (.answered (r, []))
  | .decide state id headers body =>
    onRoute (handleDecidePending F X readBody state id headers body) >>= fun r =>
      pure (.answered r)

/-- Whatever else happens in the process leaves the pendings alone. -/
def routeRules : Rules RouteOp Db RouteJob PendingResult where
  program := RouteJob.program F X readBody
  performs := RoutePerforms
  outside := fun db db' => db'.pendings = db.pendings

/-- On whose behalf a request is made. -/
inductive Scope
  | nobody
  | tenant (name : String)
  | everyone
  deriving DecidableEq

def Scope.of (tenant : Option String) : Scope := tenant.elim .everyone .tenant

def operatorScope (state : AppState) (headers : HeaderMap) : Scope :=
  match resolveOperatorTenant state.deciders state.decideToken headers with
  | .error _ => .nobody
  | .ok tenant => .of tenant

def RouteJob.scope : RouteJob → Scope
  | .park req => .tenant req.tenant
  | .list state _ headers => operatorScope state headers
  | .poll state _ headers => (identify state.agents headers).elim .nobody fun i => .tenant i.tenant
  | .decide state _ headers _ => operatorScope state headers

/-- A decision that may be on a row of any tenant. -/
def RouteJob.DecidesForAll : RouteJob → Prop
  | .decide state _ headers _ => operatorScope state headers = .everyone
  | _ => False

/-- What a statement of a request may touch. -/
def RouteJob.Permits (job : RouteJob) : {δ : Type} → RouteOp δ → Prop
  | _, .inl .newUuid => True
  | _, .inl .utcNow => True
  | _, .inl .selectTip => True
  | _, .inl (.insertEntry _) => True
  | _, .inl (.insertPending row) => ∃ req, job = .park req ∧
      row.correlationId = req.correlationId ∧ row.tenant = req.tenant
  | _, .inl (.selectPending _ tenant) => job.scope = .of tenant
  | _, .inl (.selectPendingForAgent _ tenant _) => job.scope = .tenant tenant
  | _, .inl (.updatePending _ tenant _ _ _) => job.scope = .of tenant ∧
      (tenant = none → job.DecidesForAll)
  | _, .inr (.selectPendings _ _ _ tenant) => job.scope = .of tenant
  | _, _ => False

/-- The statements of a decision. -/
def DecideStatement (id : String) (tenant : Option String) : {δ : Type} → Sql δ → Prop
  | _, .utcNow => True
  | _, .selectPending c t => c = id ∧ t = tenant
  | _, .updatePending c t _ _ _ => c = id ∧ t = tenant
  | _, _ => False

variable {F X readBody}

theorem decideCall_statements (id : String) (tenant : Option String) (decision : String)
    (note : Option String) : Prog.Safe (fun _ {δ} (op : Sql δ) => DecideStatement id tenant op)
      (decidePendingCall F id tenant decision note) := by
  intro cs
  unfold decidePendingCall
  by_cases hd : decision ≠ "allow" ∧ decision ≠ "deny"
  · rw [if_pos hd]
    trivial
  · rw [if_neg hd, decideStored_run]
    refine Prog.Obeys.bind ⟨⟨rfl, rfl⟩, fun found => ?_⟩ fun result _ _ => by cases result <;> trivial
    rcases found with e | _ | row
    · trivial
    · trivial
    · simp only [decideFound]
      cases rowToPending F row with
      | error e => trivial
      | ok p =>
        by_cases hp : p.decision.isSome = true
        · simp only [if_pos hp]
          trivial
        · simp only [if_neg hp]
          refine ⟨trivial, fun now => ⟨⟨rfl, rfl⟩, fun changed => ?_⟩⟩
          cases changed with
          | error e => trivial
          | ok changed =>
            simp only
            split_ifs <;> trivial

theorem getPendingForAgent_run (id tenant agentId : String) :
    (getPendingForAgent F id tenant agentId).run =
      .call (.selectPendingForAgent id tenant agentId) fun found => .pure (match found with
        | .ok (some row) => (rowToPending F row).map some
        | .ok none => .ok none
        | .error e => .error e) := by
  refine congrArg (Prog.call _) (funext fun found => ?_)
  rcases found with e | _ | row
  · rfl
  · rfl
  · change (liftExcept (rowToPending F row) >>= fun p => pure (some p) :
      LedgerM (Option Pending)).run = .pure ((rowToPending F row).map some)
    generalize rowToPending F row = parsed
    cases parsed with
    | error e => rfl
    | ok p => rfl

theorem append_statements (req : LogRequest) {A : ∀ {δ : Type}, Sql δ → Prop}
    (hreads : A Sql.selectTip ∧ A Sql.newUuid ∧ A Sql.utcNow) (hinsert : ∀ row, A (.insertEntry row)) :
    Prog.Safe (fun _ {δ} (op : Sql δ) => A op) (appendOnConnection F req).run := by
  rw [appendOnConnection_run]
  exact fun cs => ⟨hreads.1, fun tip => ⟨hreads.2.1, fun id => ⟨hreads.2.2, fun now =>
    ⟨hinsert _, fun done => trivial⟩⟩⟩⟩

theorem operatorScope_of {state : AppState} {headers : HeaderMap} {tenant : Option String}
    (h : resolveOperatorTenant state.deciders state.decideToken headers = .ok tenant) :
    operatorScope state headers = .of tenant := by
  rw [operatorScope, h]

theorem handleDecide_permits (state : AppState) (id : String) (headers : HeaderMap)
    (body : Octets) : Prog.Safe
      (fun _ {δ} (op : Sql δ) => (RouteJob.decide state id headers body).Permits (.inl op))
      (handleDecidePending F X readBody state id headers body) := by
  intro cs
  refine ⟨trivial, fun decideCorr => ?_⟩
  simp only [Prog.bind]
  cases htenant : resolveOperatorTenant state.deciders state.decideToken headers with
  | error message => trivial
  | ok tenant =>
    have hscope := operatorScope_of htenant
    simp only
    cases readBody body with
    | error e => trivial
    | ok req =>
      have hstatements : Prog.Safe
          (fun _ {δ} (op : Sql δ) => (RouteJob.decide state id headers body).Permits (.inl op))
          (decidePendingCall F id tenant req.decision req.note) := by
        refine (decideCall_statements id tenant req.decision req.note).mono ?_
        intro _ δ op h
        cases op with
        | utcNow => trivial
        | selectPending c t => exact h.2 ▸ hscope
        | updatePending c t at' d n =>
          obtain ⟨_, rfl⟩ := h
          exact ⟨hscope, fun hnone => by rw [hnone] at hscope; exact hscope⟩
        | _ => exact h.elim
      refine hstatements.bind (fun decision => ?_) _
      cases decision with
      | error e => exact Prog.Safe.pure _
      | ok decided =>
        refine (append_statements _ ⟨trivial, trivial, trivial⟩ fun _ => trivial).bind fun _ => ?_
        exact fun cs => ⟨trivial, fun ts => trivial⟩

theorem program_permits (job : RouteJob) :
    Prog.Safe (fun _ {δ} (op : RouteOp δ) => job.Permits op) (job.program F X readBody) := by
  cases job with
  | park req =>
    have hpark : Prog.Safe (fun _ {δ} (op : Sql δ) => (RouteJob.park req).Permits (.inl op))
        (parkPending F req).run := by
      refine fun cs => ⟨trivial, fun now => ⟨⟨req, rfl, rfl, rfl⟩, fun r => ?_⟩⟩
      cases r with
      | error e => trivial
      | ok u => trivial
    exact (hpark.embed fun _ h => h).bind fun r => Prog.Safe.pure _
  | list state params headers =>
    refine Prog.Safe.bind (fun cs => ⟨trivial, fun corr => ?_⟩) fun r => Prog.Safe.pure _
    simp only [Prog.bind]
    cases htenant : resolveOperatorTenant state.deciders state.decideToken headers with
    | error message => trivial
    | ok tenant =>
      simp only
      cases params.read X with
      | error reason => trivial
      | ok found =>
        refine ⟨operatorScope_of htenant, fun rows => ?_⟩
        simp only [Prog.bind, Prog.pure_eq]
        cases rows.bind fun rows => rows.mapM (rowToPending F) with
        | error e => trivial
        | ok rows => trivial
  | poll state id headers =>
    refine Prog.Safe.bind (fun cs => ⟨trivial, fun corr => ?_⟩) fun r => Prog.Safe.pure _
    simp only [Prog.bind]
    cases hidentity : identify state.agents headers with
    | none => trivial
    | some identity =>
      have hpoll : Prog.Safe (fun _ {δ} (op : Sql δ) =>
          (RouteJob.poll state id headers).Permits (.inl op))
          (getPendingForAgent F id identity.tenant identity.agentId).run := by
        rw [getPendingForAgent_run]
        refine fun cs => ⟨?_, fun found => trivial⟩
        simp only [RouteJob.Permits, RouteJob.scope, hidentity, Option.elim_some]
      refine (hpoll.embed fun _ h => h).bind (fun found => ?_) _
      rcases found with e | _ | p
      · exact Prog.Safe.pure _
      · exact Prog.Safe.pure _
      · exact Prog.Safe.pure _
  | decide state id headers body =>
    exact ((handleDecide_permits state id headers body).embed fun _ h => h).bind
      fun r => Prog.Safe.pure _

def isEntryInsert : {δ : Type} → Sql δ → Bool
  | _, .insertEntry _ => true
  | _, _ => false

/-- Where the chain has got to, and whether an entry was made, is all the same. -/
def chainBlind : Likeness Sql where
  op op op' := op = op' ∨ isEntryInsert op = true ∧ isEntryInsert op' = true
  answer
    | .selectTip, _ => fun _ _ => True
    | .insertEntry _, _ => fun _ _ => True
    | _, _ => Eq

def routeBlind : Likeness RouteOp := chainBlind.sum (Likeness.exact Listing)

theorem decideCall_blind (id : String) (tenant : Option String) (decision : String)
    (note : Option String) : Prog.Alike chainBlind Eq (decidePendingCall F id tenant decision note)
      (decidePendingCall F id tenant decision note) := by
  refine Prog.Alike.refl ((decideCall_statements id tenant decision note).mono ?_)
  intro _ δ op h
  refine ⟨Or.inl rfl, ?_⟩
  cases op with
  | utcNow => exact fun _ _ h => h
  | selectPending c t => exact fun _ _ h => h
  | updatePending c t at' d n => exact fun _ _ h => h
  | _ => exact h.elim

theorem append_blind (req : LogRequest) : Prog.Alike chainBlind (fun _ _ => True)
    (appendOnConnection F req).run (appendOnConnection F req).run := by
  rw [appendOnConnection_run]
  refine .call (Or.inl rfl) fun tip tip' _ => ?_
  refine .call (Or.inl rfl) fun id id' hid => ?_
  refine .call (Or.inl rfl) fun now now' hnow => ?_
  refine .call (Or.inr ⟨rfl, rfl⟩) fun done done' _ => .pure trivial

theorem handleDecide_blind (state : AppState) (id : String) (headers : HeaderMap) (body : Octets) :
    Prog.Alike chainBlind Eq (handleDecidePending F X readBody state id headers body)
      (handleDecidePending F X readBody state id headers body) := by
  refine .call (Or.inl rfl) fun decideCorr decideCorr' hcorr => ?_
  obtain rfl : decideCorr = decideCorr' := hcorr
  simp only [Prog.bind]
  cases resolveOperatorTenant state.deciders state.decideToken headers with
  | error message => exact .pure rfl
  | ok tenant =>
    simp only
    cases readBody body with
    | error e => exact .pure rfl
    | ok req =>
      refine (decideCall_blind id tenant req.decision req.note).bind fun decision decision' h => ?_
      obtain rfl : decision = decision' := h
      cases decision with
      | error e => exact .pure rfl
      | ok decided =>
        refine (append_blind _).bind fun _ _ _ => ?_
        refine .call (Or.inl rfl) fun ts ts' hts => ?_
        obtain rfl : ts = ts' := hts
        exact .pure rfl

theorem onRoute_blind {α : Type} {ρ : α → α → Prop} {p q : Prog Sql α}
    (h : Prog.Alike chainBlind ρ p q) : Prog.Alike routeBlind ρ (onRoute p) (onRoute q) :=
  h.embed (fun _ _ hop => hop) fun _ _ _ _ hd => hd

theorem pollCall_blind (id tenant agentId : String) : Prog.Alike chainBlind Eq
    (getPendingForAgent F id tenant agentId).run (getPendingForAgent F id tenant agentId).run := by
  rw [getPendingForAgent_run]
  refine .call (Or.inl rfl) fun found found' hfound => ?_
  obtain rfl : found = found' := hfound
  exact .pure rfl

theorem parkCall_blind (req : ParkRequest) : Prog.Alike chainBlind Eq (parkPending F req).run
    (parkPending F req).run := by
  refine .call (Or.inl rfl) fun now now' hnow => ?_
  obtain rfl : now = now' := hnow
  refine .call (Or.inl rfl) fun r r' hr => ?_
  obtain rfl : r = r' := hr
  cases r with
  | error e => exact .pure rfl
  | ok u => exact .pure rfl

theorem handleList_blind (state : AppState) (params : ListPendingParams) (headers : HeaderMap) :
    Prog.Alike routeBlind Eq (handleListPendings F X state params headers)
      (handleListPendings F X state params headers) := by
  refine .call (Or.inl rfl) fun corr corr' hcorr => ?_
  obtain rfl : corr = corr' := hcorr
  simp only [Prog.bind]
  cases resolveOperatorTenant state.deciders state.decideToken headers with
  | error message => exact .pure rfl
  | ok tenant =>
    simp only
    cases params.read X with
    | error reason => exact .pure rfl
    | ok found =>
      refine .call rfl fun rows rows' hrows => ?_
      obtain rfl : rows = rows' := hrows
      simp only [Prog.bind, Prog.pure_eq]
      cases rows.bind fun rows => rows.mapM (rowToPending F) with
      | error e => exact .pure rfl
      | ok rows => exact .pure rfl

theorem handleGet_blind (state : AppState) (id : String) (headers : HeaderMap) :
    Prog.Alike routeBlind Eq (handleGetPending F state id headers)
      (handleGetPending F state id headers) := by
  refine .call (Or.inl rfl) fun corr corr' hcorr => ?_
  obtain rfl : corr = corr' := hcorr
  simp only [Prog.bind]
  cases identify state.agents headers with
  | none => exact .pure rfl
  | some identity =>
    refine (onRoute_blind (pollCall_blind id identity.tenant identity.agentId)).bind
      fun found found' h => ?_
    obtain rfl : found = found' := h
    rcases found with e | _ | p
    · exact .pure rfl
    · exact .pure rfl
    · exact .pure rfl

theorem program_blind (job : RouteJob) :
    Prog.Alike routeBlind Eq (job.program F X readBody) (job.program F X readBody) := by
  cases job with
  | park req => exact (onRoute_blind (parkCall_blind req)).bind fun r r' h => .pure (congrArg _ h)
  | list state params headers =>
    exact (handleList_blind state params headers).bind fun r r' h => .pure (by rw [h])
  | poll state id headers =>
    exact (handleGet_blind state id headers).bind fun r r' h => .pure (by rw [h])
  | decide state id headers body =>
    exact (onRoute_blind (handleDecide_blind state id headers body)).bind
      fun r r' h => .pure (congrArg _ h)

end ClavenarLite
