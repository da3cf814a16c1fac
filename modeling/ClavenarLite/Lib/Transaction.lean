import ClavenarLite.Lib.Interaction

/-! Fallible programs of database statements, run inside a transaction that
commits as a whole or rolls back, or with every statement committed by itself. -/

namespace Transaction

open Interaction

variable {E : Type → Type} {A ε σ α β : Type}

abbrev Body (E : Type → Type) (ε α : Type) : Type 1 := ExceptT ε (Prog E) α

/-- What a connection sees: the answers the environment has in store for its
steps, and the data with its own uncommitted writes. -/
structure Session (A σ : Type) where
  oracle : Nat → A
  step : Nat
  view : σ

def Session.tick (s : Session A σ) : Session A σ := { s with step := s.step + 1 }

@[simp] theorem Session.tick_view (s : Session A σ) : s.tick.view = s.view := rfl

/-- One statement: it may fail by itself, and leaves the data alone if it does. -/
def statement (fails : A → Bool) (fault : ε) (exec : σ → Except ε (β × σ)) (s : Session A σ) :
    Except ε β × Session A σ :=
  if fails (s.oracle s.step) then (.error fault, s.tick)
  else
    match exec s.view with
    | .ok (b, v) => (.ok b, { s.tick with view := v })
    | .error e => (.error e, s.tick)

theorem statement_ok {fails : A → Bool} {fault : ε} {exec : σ → Except ε (β × σ)}
    {s s' : Session A σ} {b : β} (h : statement fails fault exec s = (.ok b, s')) :
    exec s.view = .ok (b, s'.view) := by
  unfold statement at h
  split at h
  · exact absurd (Prod.mk.inj h).1 (by simp)
  · split at h
    · next b' v he =>
      obtain ⟨hb, hs⟩ := Prod.mk.inj h
      obtain rfl := Except.ok.inj hb
      rw [he, ← hs]
    · exact absurd (Prod.mk.inj h).1 (by simp)

theorem statement_error {fails : A → Bool} {fault : ε} {exec : σ → Except ε (β × σ)}
    {s s' : Session A σ} {e : ε} (h : statement fails fault exec s = (.error e, s')) :
    s'.view = s.view := by
  unfold statement at h
  split at h
  · rw [← (Prod.mk.inj h).2, Session.tick_view]
  · split at h
    · exact absurd (Prod.mk.inj h).1 (by simp)
    · rw [← (Prod.mk.inj h).2, Session.tick_view]

variable (answer : ∀ {δ : Type}, E δ → Session A σ → δ × Session A σ)

/-- Some answers of the environment take the program from `v` to the result `a`
with the data `v'`. -/
def Yields (p : Body E ε α) (v : σ) (a : α) (v' : σ) : Prop :=
  ∃ s s' : Session A σ, s.view = v ∧ s'.view = v' ∧ p.run.run answer s = (.ok a, s')

/-- Some answers of the environment make the program fail with `e`, and leave the
data `v'`. -/
def Fails (p : Body E ε α) (v : σ) (e : ε) (v' : σ) : Prop :=
  ∃ s s' : Session A σ, s.view = v ∧ s'.view = v' ∧ p.run.run answer s = (.error e, s')

/-- Rust's `unwrap_or`: a failure of the program counts as the value `a`. -/
def unwrapOr (p : Body E ε α) (a : α) : Body E ε α :=
  ExceptT.mk (p.run >>= fun r => Prog.pure (.ok (r.toOption.getD a)))

variable {answer}

theorem Yields.pure {a b : α} {v v' : σ}
    (h : Yields answer (Pure.pure a : Body E ε α) v b v') : b = a ∧ v' = v := by
  obtain ⟨s, s', rfl, rfl, he⟩ := h
  obtain ⟨hb, hs⟩ := Prod.mk.inj he
  exact ⟨(Except.ok.inj hb).symm, by rw [hs]⟩

theorem Yields.throw {e : ε} {b : α} {v v' : σ}
    (h : Yields answer (throw e : Body E ε α) v b v') : False := by
  obtain ⟨s, s', rfl, rfl, he⟩ := h
  exact absurd (Prod.mk.inj he).1 (by simp)

theorem Yields.bind {x : Body E ε α} {f : α → Body E ε β} {v v' : σ} {b : β}
    (h : Yields answer (x >>= f) v b v') :
    ∃ a v₁, Yields answer x v a v₁ ∧ Yields answer (f a) v₁ b v' := by
  obtain ⟨s, s', rfl, rfl, he⟩ := h
  rw [ExceptT.run_bind, Prog.run_bind] at he
  generalize hr : x.run.run answer s = r at he
  obtain ⟨r, t⟩ := r
  cases r with
  | error e => exact absurd (Prod.mk.inj he).1 (by simp)
  | ok a => exact ⟨a, t.view, ⟨s, t, rfl, rfl, hr⟩, ⟨t, s', rfl, rfl, he⟩⟩

theorem Yields.unwrapOr {x : Body E ε α} {d a : α} {v v' : σ}
    (h : Yields answer (unwrapOr x d) v a v') :
    Yields answer x v a v' ∨ (a = d ∧ ∃ e, Fails answer x v e v') := by
  obtain ⟨s, s', rfl, rfl, he⟩ := h
  rw [Transaction.unwrapOr, ExceptT.run_mk, Prog.run_bind] at he
  generalize hr : x.run.run answer s = r at he
  obtain ⟨r, t⟩ := r
  obtain ⟨ha, rfl⟩ := Prod.mk.inj he
  cases r with
  | ok b =>
    obtain rfl : b = a := Except.ok.inj ha
    exact Or.inl ⟨s, t, rfl, rfl, hr⟩
  | error e =>
    obtain rfl : d = a := Except.ok.inj ha
    exact Or.inr ⟨rfl, e, s, t, rfl, rfl, hr⟩

theorem Fails.bind {x : Body E ε α} {f : α → Body E ε β} {v v' : σ} {e : ε}
    (h : Fails answer (x >>= f) v e v') :
    Fails answer x v e v' ∨ ∃ a v₁, Yields answer x v a v₁ ∧ Fails answer (f a) v₁ e v' := by
  obtain ⟨s, s', rfl, rfl, he⟩ := h
  rw [ExceptT.run_bind, Prog.run_bind] at he
  generalize hr : x.run.run answer s = r at he
  obtain ⟨r, t⟩ := r
  cases r with
  | error e' =>
    obtain ⟨he', rfl⟩ := Prod.mk.inj he
    obtain rfl : e' = e := Except.error.inj he'
    exact Or.inl ⟨s, t, rfl, rfl, hr⟩
  | ok a => exact Or.inr ⟨a, t.view, ⟨s, t, rfl, rfl, hr⟩, ⟨t, s', rfl, rfl, he⟩⟩

theorem Fails.pure {b : α} {v v' : σ} {e : ε}
    (h : Fails answer (Pure.pure b : Body E ε α) v e v') : False := by
  obtain ⟨s, s', rfl, rfl, he⟩ := h
  exact absurd (Prod.mk.inj he).1 (by simp)

theorem Fails.perform {op : E (Except ε β)} {e : ε} {v v' : σ}
    (h : Fails answer (ExceptT.mk (Prog.perform op) : Body E ε β) v e v') :
    ∃ s s', s.view = v ∧ s'.view = v' ∧ answer op s = (.error e, s') := by
  obtain ⟨s, s', rfl, rfl, he⟩ := h
  exact ⟨s, s', rfl, rfl, he⟩

theorem Fails.lift {op : E β} {e : ε} {v v' : σ}
    (h : Fails answer (ExceptT.lift (Prog.perform op) : Body E ε β) v e v') : False := by
  obtain ⟨s, s', rfl, rfl, he⟩ := h
  exact absurd (Prod.mk.inj he).1 (by simp)

theorem Yields.perform {op : E (Except ε β)} {b : β} {v v' : σ}
    (h : Yields answer (ExceptT.mk (Prog.perform op) : Body E ε β) v b v') :
    ∃ s s', s.view = v ∧ s'.view = v' ∧ answer op s = (.ok b, s') := by
  obtain ⟨s, s', rfl, rfl, he⟩ := h
  exact ⟨s, s', rfl, rfl, he⟩

theorem Yields.lift {op : E β} {b : β} {v v' : σ}
    (h : Yields answer (ExceptT.lift (Prog.perform op) : Body E ε β) v b v') :
    ∃ s s', s.view = v ∧ s'.view = v' ∧ answer op s = (b, s') := by
  obtain ⟨s, s', rfl, rfl, he⟩ := h
  obtain ⟨hb, hs⟩ := Prod.mk.inj he
  exact ⟨s, s', rfl, rfl, Prod.ext (Except.ok.inj hb) hs⟩

theorem Yields.forM {γ : Type} {f : γ → Body E ε PUnit} {R : σ → List γ → σ → Prop}
    (hnil : ∀ v, R v [] v)
    (hcons : ∀ x xs v₁ v₂ v₃, Yields answer (f x) v₁ ⟨⟩ v₂ → R v₂ xs v₃ → R v₁ (x :: xs) v₃)
    {xs : List γ} {u : PUnit} {v v' : σ} (h : Yields answer (xs.forM f) v u v') : R v xs v' := by
  induction xs generalizing v with
  | nil =>
    have hpure : Yields answer (Pure.pure ⟨⟩ : Body E ε PUnit) v u v' := h
    obtain ⟨_, rfl⟩ := hpure.pure
    exact hnil v'
  | cons x xs ih =>
    obtain ⟨_, v₁, hx, hxs⟩ := Yields.bind h
    exact hcons x xs v v₁ v' hx (ih hxs)

section Safe

variable {rule : List (Call E) → ∀ {δ : Type}, E δ → Prop}

theorem safe_pure (a : α) : Prog.Safe rule (Pure.pure a : Body E ε α).run := Prog.Safe.pure _

theorem safe_throw (e : ε) : Prog.Safe rule (throw e : Body E ε α).run := Prog.Safe.pure _

theorem safe_bind {x : Body E ε α} {f : α → Body E ε β} (h : Prog.Safe rule x.run)
    (hf : ∀ a, Prog.Safe rule (f a).run) : Prog.Safe rule (x >>= f).run := by
  rw [ExceptT.run_bind]
  refine h.bind ?_
  intro r
  cases r with
  | ok a => exact hf a
  | error e => exact Prog.Safe.pure _

theorem safe_lift {op : E β} (h : ∀ cs, rule cs op) :
    Prog.Safe rule (ExceptT.lift (Prog.perform op) : Body E ε β).run :=
  (Prog.Safe.perform h).bind fun _ => Prog.Safe.pure _

theorem safe_forM {γ : Type} {f : γ → Body E ε PUnit} (h : ∀ x, Prog.Safe rule (f x).run)
    (xs : List γ) : Prog.Safe rule (xs.forM f).run := by
  induction xs with
  | nil => exact safe_pure _
  | cons x xs ih => exact safe_bind (h x) fun _ => ih

end Safe

/-- How the body of a transaction ends: by committing, or by returning early,
which drops the transaction and with it the writes. -/
inductive Ending (α : Type)
  | commit (a : α)
  | rollback (a : α)

variable (answer)

def transaction (fails : A → Bool) (fault : ε) (p : Body E ε (Ending α)) (oracle : Nat → A)
    (db : σ) : Except ε α × σ :=
  if fails (oracle 0) then (.error fault, db)
  else
    match p.run.run answer ⟨oracle, 1, db⟩ with
    | (.error e, _) => (.error e, db)
    | (.ok (.rollback a), _) => (.ok a, db)
    | (.ok (.commit a), s) => if fails (oracle s.step) then (.error fault, db) else (.ok a, s.view)

def autocommit (p : Body E ε α) (oracle : Nat → A) (db : σ) : Except ε α × σ :=
  ((p.run.run answer ⟨oracle, 0, db⟩).1, (p.run.run answer ⟨oracle, 0, db⟩).2.view)

variable {answer}

theorem transaction_error {fails : A → Bool} {fault : ε} {p : Body E ε (Ending α)}
    {oracle : Nat → A} {db db' : σ} {e : ε}
    (h : transaction answer fails fault p oracle db = (.error e, db')) : db' = db := by
  unfold transaction at h
  split at h
  · exact (Prod.mk.inj h).2.symm
  · split at h
    · exact (Prod.mk.inj h).2.symm
    · exact absurd (Prod.mk.inj h).1 (by simp)
    · split at h
      · exact (Prod.mk.inj h).2.symm
      · exact absurd (Prod.mk.inj h).1 (by simp)

theorem transaction_ok {fails : A → Bool} {fault : ε} {p : Body E ε (Ending α)}
    {oracle : Nat → A} {db db' : σ} {a : α}
    (h : transaction answer fails fault p oracle db = (.ok a, db')) :
    (db' = db ∧ ∃ v, Yields answer p db (.rollback a) v) ∨ Yields answer p db (.commit a) db' := by
  unfold transaction at h
  split at h
  · exact absurd (Prod.mk.inj h).1 (by simp)
  · split at h
    · exact absurd (Prod.mk.inj h).1 (by simp)
    · next a' s he =>
      obtain ⟨ha, hdb⟩ := Prod.mk.inj h
      obtain rfl := Except.ok.inj ha
      exact Or.inl ⟨hdb.symm, s.view, _, s, rfl, rfl, he⟩
    · next a' s he =>
      split at h
      · exact absurd (Prod.mk.inj h).1 (by simp)
      · obtain ⟨ha, hdb⟩ := Prod.mk.inj h
        obtain rfl := Except.ok.inj ha
        exact Or.inr ⟨_, s, rfl, hdb, he⟩

theorem autocommit_error {p : Body E ε α} {oracle : Nat → A} {db db' : σ} {e : ε}
    (h : autocommit answer p oracle db = (.error e, db')) : Fails answer p db e db' := by
  obtain ⟨he, hdb⟩ := Prod.mk.inj h
  exact ⟨_, _, rfl, hdb, Prod.ext he rfl⟩

theorem autocommit_ok {p : Body E ε α} {oracle : Nat → A} {db db' : σ} {a : α}
    (h : autocommit answer p oracle db = (.ok a, db')) : Yields answer p db a db' := by
  obtain ⟨ha, hdb⟩ := Prod.mk.inj h
  exact ⟨_, _, rfl, hdb, Prod.ext ha rfl⟩

section Succeeds

variable {oracle : Nat → A}

variable (answer) in
/-- With these answers in store, the program started at step `n` yields `a` and
stops at step `m`. -/
def Reaches (oracle : Nat → A) (p : Body E ε α) (n : Nat) (v : σ) (a : α) (m : Nat) (v' : σ) :
    Prop :=
  p.run.run answer ⟨oracle, n, v⟩ = (.ok a, ⟨oracle, m, v'⟩)

theorem Reaches.pure {a : α} {n : Nat} {v : σ} :
    Reaches answer oracle (Pure.pure a : Body E ε α) n v a n v := rfl

theorem Reaches.bind {x : Body E ε α} {f : α → Body E ε β} {n m k : Nat} {v v' v'' : σ} {a : α}
    {b : β} (h : Reaches answer oracle x n v a m v')
    (hf : Reaches answer oracle (f a) m v' b k v'') :
    Reaches answer oracle (x >>= f) n v b k v'' := by
  rw [Reaches, ExceptT.run_bind, Prog.run_bind, h]
  exact hf

theorem Reaches.unwrapOr {x : Body E ε α} {n m : Nat} {v v' : σ} {a d : α}
    (h : Reaches answer oracle x n v a m v') :
    Reaches answer oracle (Transaction.unwrapOr x d) n v a m v' := by
  rw [Reaches, Transaction.unwrapOr, ExceptT.run_mk, Prog.run_bind, h]
  rfl

theorem Reaches.yields {p : Body E ε α} {n m : Nat} {v v' : σ} {a : α}
    (h : Reaches answer oracle p n v a m v') : Yields answer p v a v' :=
  ⟨_, _, rfl, rfl, h⟩

theorem Reaches.transaction {fails : A → Bool} {fault : ε} {p : Body E ε (Ending α)} {m : Nat}
    {db db' : σ} {a : α} (h : Reaches answer oracle p 1 db (.commit a) m db')
    (hf : ∀ n, fails (oracle n) = false) :
    transaction answer fails fault p oracle db = (.ok a, db') := by
  have hrun : p.run.run answer ⟨oracle, 1, db⟩ = (.ok (.commit a), ⟨oracle, m, db'⟩) := h
  simp [Transaction.transaction, hrun, hf]

variable (answer) in
/-- With these answers in store, the program yields `a` at whichever step it starts. -/
def Succeeds (oracle : Nat → A) (p : Body E ε α) (v : σ) (a : α) (v' : σ) : Prop :=
  ∀ n, ∃ m, p.run.run answer ⟨oracle, n, v⟩ = (.ok a, ⟨oracle, m, v'⟩)

theorem Succeeds.pure {a : α} {v : σ} :
    Succeeds answer oracle (Pure.pure a : Body E ε α) v a v := fun n => ⟨n, Reaches.pure⟩

theorem Succeeds.bind {x : Body E ε α} {f : α → Body E ε β} {v v' v'' : σ} {a : α} {b : β}
    (h : Succeeds answer oracle x v a v') (hf : Succeeds answer oracle (f a) v' b v'') :
    Succeeds answer oracle (x >>= f) v b v'' := by
  intro n
  obtain ⟨m, hm⟩ := h n
  obtain ⟨k, hk⟩ := hf m
  exact ⟨k, Reaches.bind hm hk⟩

theorem Succeeds.autocommit {p : Body E ε α} {db db' : σ} {a : α}
    (h : Succeeds answer oracle p db a db') : autocommit answer p oracle db = (.ok a, db') := by
  obtain ⟨m, hm⟩ := h 0
  rw [Transaction.autocommit, hm]

theorem Succeeds.transaction {fails : A → Bool} {fault : ε} {p : Body E ε (Ending α)}
    {db db' : σ} {a : α} (h : Succeeds answer oracle p db (.commit a) db')
    (hf : ∀ n, fails (oracle n) = false) :
    transaction answer fails fault p oracle db = (.ok a, db') := by
  obtain ⟨m, hm⟩ := h 1
  exact Reaches.transaction hm hf

end Succeeds

end Transaction
