import ClavenarLite.Lib.Meets
import Mathlib.Logic.Relation
import Mathlib.Algebra.Order.BigOperators.Group.List
import Mathlib.Algebra.Order.Group.Nat
import Mathlib.Data.List.Induction
import Mathlib.Algebra.GroupWithZero.Nat

/-! Programs that run side by side on a shared state, one operation at a time.
A thread may be started at any moment, and one that is never scheduled again
stands for a program that was cut off. -/

namespace Interaction

variable {E : Type → Type} {σ J α : Type}

structure Thread (E : Type → Type) (J α : Type) : Type 1 where
  job : J
  calls : List (Call E)
  rest : Prog E α

def Thread.answered {δ : Type} (t : Thread E J α) (op : E δ) (b : δ) (rest : Prog E α) :
    Thread E J α where
  job := t.job
  calls := t.calls ++ [⟨op, b⟩]
  rest := rest

structure Pool (E : Type → Type) (σ J α : Type) : Type 1 where
  state : σ
  threads : List (Thread E J α)

/-- What the threads run, what their operations do, and what may happen to the
state besides. -/
structure Rules (E : Type → Type) (σ J α : Type) where
  program : J → Prog E α
  performs : ∀ {δ : Type}, E δ → σ → δ → σ → Prop
  outside : σ → σ → Prop

variable (R : Rules E σ J α)

inductive Pool.Step : Pool E σ J α → Pool E σ J α → Prop
  | start (p : Pool E σ J α) (job : J) :
      Step p ⟨p.state, p.threads ++ [⟨job, [], R.program job⟩]⟩
  | call {s s' : σ} {pre post : List (Thread E J α)} {t : Thread E J α} {δ : Type} {op : E δ}
      {next : δ → Prog E α} {b : δ} (hr : t.rest = .call op next) (hp : R.performs op s b s') :
      Step ⟨s, pre ++ t :: post⟩ ⟨s', pre ++ t.answered op b (next b) :: post⟩
  | outside {s s' : σ} {threads : List (Thread E J α)} (ho : R.outside s s') :
      Step ⟨s, threads⟩ ⟨s', threads⟩

abbrev Pool.Steps : Pool E σ J α → Pool E σ J α → Prop := Relation.ReflTransGen (Pool.Step R)

/-- The pools that come of a state no thread has touched yet. -/
abbrev Pool.Reachable (s : σ) (p : Pool E σ J α) : Prop := Pool.Steps R ⟨s, []⟩ p

variable {R}

theorem Pool.Steps.run {s s' : σ} {pre : List (Thread E J α)} {job : J} {calls cs : List (Call E)}
    {p : Prog E α} {a : α} (h : Prog.RunsTo R.performs p s cs a s') :
    Pool.Steps R ⟨s, pre ++ [⟨job, calls, p⟩]⟩ ⟨s', pre ++ [⟨job, calls ++ cs, .pure a⟩]⟩ := by
  induction p generalizing s calls cs with
  | pure b =>
    obtain ⟨rfl, rfl, rfl⟩ := h
    rw [List.append_nil]
  | call op next ih =>
    obtain ⟨b, s₁, ds, hp, rfl, hrest⟩ := h
    have hstep : Pool.Step R ⟨s, pre ++ [⟨job, calls, .call op next⟩]⟩
        ⟨s₁, pre ++ [⟨job, calls ++ [⟨op, b⟩], next b⟩]⟩ :=
      .call (t := ⟨job, calls, .call op next⟩) rfl hp
    have hsteps := @ih b s₁ (calls ++ [⟨op, b⟩]) ds hrest
    rw [List.append_assoc] at hsteps
    exact .head hstep hsteps

/-- A program that is run with nothing in between. -/
theorem Pool.Steps.serve {s s' : σ} {job : J} {cs : List (Call E)} {a : α}
    (h : Prog.RunsTo R.performs (R.program job) s cs a s') (threads : List (Thread E J α)) :
    Pool.Steps R ⟨s, threads⟩ ⟨s', threads ++ [⟨job, cs, .pure a⟩]⟩ :=
  .head (.start _ job) (Pool.Steps.run h)

/-- Jobs served one after the other, with the results. -/
def serveAll {S : Type} (program : J → Prog E α) (answer : ∀ {δ : Type}, E δ → S → δ × S) :
    List J → S → List (J × α) × S
  | [], s => ([], s)
  | job :: jobs, s =>
    let served := (program job).run answer s
    let rest := serveAll program answer jobs served.2
    ((job, served.1) :: rest.1, rest.2)

theorem Pool.Steps.serveAll {S : Type} {view : S → σ} {answer : ∀ {δ : Type}, E δ → S → δ × S}
    (h : ∀ {δ : Type} (op : E δ) s, R.performs op (view s) (answer op s).1 (view (answer op s).2))
    (jobs : List J) (s : S) (pre : List (Thread E J α)) : ∃ threads,
      Pool.Steps R ⟨view s, pre⟩
          ⟨view (serveAll R.program answer jobs s).2, pre ++ threads⟩ ∧
        threads.map Thread.job = jobs ∧
        ∀ served ∈ (serveAll R.program answer jobs s).1,
          ∃ t ∈ threads, t.job = served.1 ∧ t.rest = .pure served.2 := by
  induction jobs generalizing s pre with
  | nil => exact ⟨[], by rw [List.append_nil]; exact .refl, rfl, fun _ hs => by cases hs⟩
  | cons job jobs ih =>
    obtain ⟨cs, hruns⟩ := Prog.RunsTo.of_run h (R.program job) s
    let served := (R.program job).run answer s
    obtain ⟨threads, hsteps, hjobs, hserved⟩ := ih served.2 (pre ++ [⟨job, cs, .pure served.1⟩])
    rw [List.append_assoc] at hsteps
    refine ⟨⟨job, cs, .pure served.1⟩ :: threads, (Pool.Steps.serve hruns pre).trans hsteps,
      congrArg (List.cons job) hjobs, ?_⟩
    intro other hother
    rcases List.mem_cons.mp hother with rfl | hother
    · exact ⟨_, List.mem_cons_self, rfl, rfl⟩
    · obtain ⟨t, ht, hmade⟩ := hserved other hother
      exact ⟨t, List.mem_cons_of_mem _ ht, hmade⟩

/-- The pool just before an operation of such a run. -/
theorem Pool.Steps.before {s s' : σ} {pre : List (Thread E J α)} {job : J}
    {calls cs ds : List (Call E)} {p : Prog E α} {a : α} {made : Call E}
    (h : Prog.RunsTo R.performs p s (cs ++ made :: ds) a s') : ∃ s₁ next,
      Pool.Steps R ⟨s, pre ++ [⟨job, calls, p⟩]⟩
        ⟨s₁, pre ++ [⟨job, calls ++ cs, .call made.op next⟩]⟩ := by
  induction cs generalizing s calls p with
  | nil =>
    cases p with
    | pure b => exact absurd h.1 (by simp)
    | call op next =>
      obtain ⟨b, s₁, es, _, hcs, _⟩ := h
      obtain rfl := (List.cons.inj hcs).1
      rw [List.append_nil]
      exact ⟨s, next, .refl⟩
  | cons c cs ih =>
    cases p with
    | pure b => exact absurd h.1 (by simp)
    | call op next =>
      obtain ⟨b, s₁, es, hp, hcs, hrest⟩ := h
      obtain ⟨rfl, rfl⟩ := List.cons.inj hcs
      have hstep : Pool.Step R ⟨s, pre ++ [⟨job, calls, .call op next⟩]⟩
          ⟨s₁, pre ++ [⟨job, calls ++ [⟨op, b⟩], next b⟩]⟩ :=
        .call (t := ⟨job, calls, .call op next⟩) rfl hp
      obtain ⟨s₂, next', hsteps⟩ := @ih s₁ (calls ++ [⟨op, b⟩]) (next b) hrest
      rw [List.append_assoc] at hsteps
      exact ⟨s₂, next', .head hstep hsteps⟩

theorem Pool.Steps.invariant {I : Pool E σ J α → Prop}
    (hstep : ∀ p p', Pool.Step R p p' → I p → I p') {p p' : Pool E σ J α}
    (h : Pool.Steps R p p') (hp : I p) : I p' := by
  induction h with
  | refl => exact hp
  | tail _ hs ih => exact hstep _ _ hs ih

/-- The pool, with a part of its state. -/
def Pool.onState {τ : Type} (f : σ → τ) (p : Pool E σ J α) : Pool E τ J α := ⟨f p.state, p.threads⟩

/-- Rules whose steps are steps of others on a part of the state have their runs. -/
theorem Pool.Steps.image {τ : Type} {R' : Rules E τ J α} (f : σ → τ)
    (hprogram : R.program = R'.program)
    (hperforms : ∀ {δ : Type} (op : E δ) s b s', R.performs op s b s' →
      R'.performs op (f s) b (f s'))
    (hout : ∀ s s', R.outside s s' → R'.outside (f s) (f s') ∨ f s' = f s) {p p' : Pool E σ J α}
    (h : Pool.Steps R p p') : Pool.Steps R' (p.onState f) (p'.onState f) := by
  induction h with
  | refl => exact .refl
  | @tail q _ _ hs ih =>
    cases hs with
    | start _ job =>
      have hstep : Pool.Step R' (q.onState f) _ := .start (q.onState f) job
      rw [← hprogram] at hstep
      exact ih.tail hstep
    | call hr hp => exact ih.tail (.call hr (hperforms _ _ _ _ hp))
    | @outside s s' threads ho =>
      rcases hout s s' ho with hstep | hsame
      · exact ih.tail (.outside hstep)
      · have hpool : Pool.onState f ⟨s', threads⟩ = Pool.onState f ⟨s, threads⟩ :=
          congrArg (fun t => (⟨t, threads⟩ : Pool E τ J α)) hsame
        rwa [hpool]

def Thread.Follows (R : Rules E σ J α) (t : Thread E J α) : Prop :=
  Prog.Trace (R.program t.job) t.calls t.rest

theorem Thread.Follows.answered {t : Thread E J α} {δ : Type} {op : E δ} {next : δ → Prog E α}
    (h : t.Follows R) (hr : t.rest = .call op next) (b : δ) :
    (t.answered op b (next b)).Follows R := by
  unfold Thread.Follows at h
  rw [hr] at h
  exact h.snoc b

theorem Pool.Steps.follows {p p' : Pool E σ J α} (h : Pool.Steps R p p')
    (hp : ∀ t ∈ p.threads, t.Follows R) : ∀ t ∈ p'.threads, t.Follows R := by
  refine h.invariant (I := fun p => ∀ t ∈ p.threads, t.Follows R) ?_ hp
  intro p p' hs hf
  cases hs with
  | start job =>
    intro t ht
    rcases List.mem_append.mp ht with ht | ht
    · exact hf t ht
    · exact List.mem_singleton.mp ht ▸ .nil _
  | @call s s' pre post u δ op next b hr hp =>
    intro t ht
    rcases List.mem_append.mp ht with ht | ht
    · exact hf t (List.mem_append_left _ ht)
    · rcases List.mem_cons.mp ht with rfl | ht
      · exact (hf u (by simp)).answered hr b
      · exact hf t (List.mem_append_right _ (List.mem_cons_of_mem _ ht))
  | outside ho => exact hf

theorem Pool.Reachable.follows {s : σ} {p : Pool E σ J α} (h : Pool.Reachable R s p) :
    ∀ t ∈ p.threads, t.Follows R :=
  Pool.Steps.follows h fun _ ht => absurd ht List.not_mem_nil

/-- A relation every operation and everything outside has, every run has. -/
theorem Pool.Steps.related {Q : σ → σ → Prop} (hrefl : ∀ s, Q s s)
    (htrans : ∀ s s' s'', Q s s' → Q s' s'' → Q s s'')
    (hcall : ∀ {δ : Type} (op : E δ) s b s', R.performs op s b s' → Q s s')
    (hout : ∀ s s', R.outside s s' → Q s s') {p p' : Pool E σ J α} (h : Pool.Steps R p p') :
    Q p.state p'.state := by
  refine h.invariant (I := fun q => Q p.state q.state) ?_ (hrefl p.state)
  intro q q' hs hq
  cases hs with
  | start job => exact hq
  | call hr hp => exact htrans _ _ _ hq (hcall _ _ _ _ hp)
  | outside ho => exact htrans _ _ _ hq (hout _ _ ho)

/-- An induction whose steps know that the pool was reached. -/
theorem Pool.Reachable.induct {s₀ : σ} {p : Pool E σ J α} {I : Pool E σ J α → Prop}
    (hinit : I ⟨s₀, []⟩)
    (hstep : ∀ p p', Pool.Reachable R s₀ p → Pool.Step R p p' → I p → I p')
    (h : Pool.Reachable R s₀ p) : I p := by
  induction h with
  | refl => exact hinit
  | tail hr hs ih => exact hstep _ _ hr hs ih

/-- The threads that were started on the way from `p` to `p'`. -/
def Pool.startedSince (p p' : Pool E σ J α) : List (Thread E J α) :=
  p'.threads.drop p.threads.length

/-- What the state of `p` says about answers from then on, the threads started
since have been answered. -/
theorem Pool.Steps.started {Q : σ → Prop} {K : Call E → Prop}
    (hcall : ∀ {δ : Type} (op : E δ) s b s', R.performs op s b s' → Q s → Q s' ∧ K ⟨op, b⟩)
    (hout : ∀ s s', R.outside s s' → Q s → Q s') {p p' : Pool E σ J α} (h : Pool.Steps R p p')
    (hp : Q p.state) : ∀ t ∈ p.startedSince p', ∀ call ∈ t.calls, K call := by
  have hinv := h.invariant (I := fun q => Q q.state ∧ p.threads.length ≤ q.threads.length ∧
    ∀ t ∈ q.threads.drop p.threads.length, ∀ call ∈ t.calls, K call) ?_ ⟨hp, Nat.le_refl _, ?_⟩
  · exact hinv.2.2
  · rintro q q' hs ⟨hq, hlen, hk⟩
    cases hs with
    | start job =>
      refine ⟨hq, by simp only [List.length_append, List.length_singleton]; omega, ?_⟩
      intro t ht call hc
      rw [List.drop_append_of_le_length hlen] at ht
      rcases List.mem_append.mp ht with ht | ht
      · exact hk t ht call hc
      · obtain rfl := List.mem_singleton.mp ht
        exact absurd hc List.not_mem_nil
    | @call s s' pre post u δ op next b hr hperf =>
      obtain ⟨hq', hnew⟩ := hcall op s b s' hperf hq
      refine ⟨hq', by simpa using hlen, ?_⟩
      intro t ht call hc
      simp only [List.drop_append] at ht hk
      rcases List.mem_append.mp ht with ht | ht
      · exact hk t (List.mem_append_left _ ht) call hc
      · cases hn : p.threads.length - pre.length with
        | zero =>
          rw [hn] at ht hk
          rcases List.mem_cons.mp ht with rfl | ht
          · rcases List.mem_append.mp hc with hc | hc
            · exact hk u (by simp) call hc
            · exact List.mem_singleton.mp hc ▸ hnew
          · exact hk t (List.mem_append_right _ (List.mem_cons_of_mem _ ht)) call hc
        | succ k =>
          rw [hn] at ht hk
          exact hk t (List.mem_append_right _ ht) call hc
    | outside ho => exact ⟨hout _ _ ho hq, hlen, hk⟩
  · intro t ht
    rw [List.drop_length] at ht
    exact absurd ht List.not_mem_nil

section Rule

variable {P : J → List (Call E) → ∀ {δ : Type}, E δ → Prop}
  (hrule : ∀ job, Prog.Obeys (P job) [] (R.program job)) {s₀ : σ} {p : Pool E σ J α}

include hrule

theorem Thread.permitted {t : Thread E J α} {δ : Type} {op : E δ} {next : δ → Prog E α}
    (h : t.Follows R) (hr : t.rest = .call op next) : P t.job t.calls op := by
  have ho := (hrule t.job).of_trace h
  rw [hr] at ho
  exact ho.1

/-- What every permitted operation and everything outside keeps, every run keeps. -/
theorem Pool.Reachable.keeps {Q : σ → Prop} (hinit : Q s₀)
    (hcall : ∀ job before {δ : Type} (op : E δ) s b s', P job before op → R.performs op s b s' →
      Q s → Q s')
    (hout : ∀ s s', R.outside s s' → Q s → Q s') (h : Pool.Reachable R s₀ p) : Q p.state := by
  refine h.induct (I := fun p => Q p.state) hinit ?_
  intro p p' hreach hs hq
  cases hs with
  | start job => exact hq
  | @call s s' pre post t δ op next b hr hp =>
    exact hcall t.job t.calls op s b s' (Thread.permitted hrule (hreach.follows t (by simp)) hr) hp hq
  | outside ho => exact hout _ _ ho hq

/-- What a call establishes and nothing destroys holds of every call made. -/
theorem Pool.Reachable.calls_hold {Q : σ → Prop} {K : Call E → σ → Prop}
    (hQ : ∀ p, Pool.Reachable R s₀ p → Q p.state)
    (hnew : ∀ job before {δ : Type} (op : E δ) s b s', P job before op → R.performs op s b s' →
      Q s → (∀ call ∈ before, K call s') → K ⟨op, b⟩ s')
    (hcall : ∀ {δ : Type} (op : E δ) s b s' call, R.performs op s b s' → K call s → K call s')
    (hout : ∀ s s' call, R.outside s s' → K call s → K call s')
    (h : Pool.Reachable R s₀ p) : ∀ t ∈ p.threads, ∀ call ∈ t.calls, K call p.state := by
  refine h.induct (I := fun p => ∀ t ∈ p.threads, ∀ call ∈ t.calls, K call p.state)
    (fun _ ht => absurd ht List.not_mem_nil) ?_
  intro p p' hreach hs hk
  have hq := hQ p hreach
  cases hs with
  | start job =>
    intro t ht call hc
    rcases List.mem_append.mp ht with ht | ht
    · exact hk t ht call hc
    · obtain rfl := List.mem_singleton.mp ht
      exact absurd hc List.not_mem_nil
  | @call s s' pre post u δ op next b hr hp =>
    intro t ht call hc
    have hold : ∀ t ∈ pre ++ u :: post, ∀ call ∈ t.calls, K call s' :=
      fun t ht call hc => hcall op s b s' call hp (hk t ht call hc)
    have hu : u ∈ pre ++ u :: post := by simp
    rcases List.mem_append.mp ht with ht | ht
    · exact hold t (List.mem_append_left _ ht) call hc
    · rcases List.mem_cons.mp ht with rfl | ht
      · rcases List.mem_append.mp hc with hc | hc
        · exact hold u hu call hc
        · obtain rfl := List.mem_singleton.mp hc
          exact hnew u.job u.calls op s b s' (Thread.permitted hrule (hreach.follows u hu) hr) hp hq
            (hold u hu)
      · exact hold t (List.mem_append_right _ (List.mem_cons_of_mem _ ht)) call hc
  | outside ho => exact fun t ht call hc => hout _ _ call ho (hk t ht call hc)

end Rule

theorem Thread.answered_prefix {δ : Type} (t : Thread E J α) (op : E δ) (b : δ) (rest : Prog E α) :
    t.calls <+: (t.answered op b rest).calls := ⟨_, rfl⟩

/-- A thread goes on from the calls it has made. -/
theorem Pool.Steps.continues {p p' : Pool E σ J α} (h : Pool.Steps R p p') :
    ∀ t ∈ p.threads, ∃ t' ∈ p'.threads, t'.job = t.job ∧ t.calls <+: t'.calls := by
  refine h.invariant (I := fun q => ∀ t ∈ p.threads, ∃ t' ∈ q.threads, t'.job = t.job ∧
    t.calls <+: t'.calls) ?_ fun t ht => ⟨t, ht, rfl, List.prefix_rfl⟩
  intro q q' hs hq t ht
  obtain ⟨t', ht', hjob, hcalls⟩ := hq t ht
  cases hs with
  | start job => exact ⟨t', List.mem_append_left _ ht', hjob, hcalls⟩
  | @call s s' pre post u δ op next b hr hp =>
    rcases List.mem_append.mp ht' with hmem | hmem
    · exact ⟨t', List.mem_append_left _ hmem, hjob, hcalls⟩
    · rcases List.mem_cons.mp hmem with heq | hmem
      · rw [heq] at hjob hcalls
        exact ⟨u.answered op b (next b), by simp, hjob,
          hcalls.trans (u.answered_prefix op b (next b))⟩
      · exact ⟨t', List.mem_append_right _ (List.mem_cons_of_mem _ hmem), hjob, hcalls⟩
  | outside ho => exact ⟨t', ht', hjob, hcalls⟩

/-- The step at which a call was made. -/
theorem Pool.Reachable.made {s₀ : σ} {p : Pool E σ J α} (h : Pool.Reachable R s₀ p)
    {job : J} {before after : List (Call E)} {c : Call E}
    (hmade : ∃ t ∈ p.threads, t.job = job ∧ t.calls = before ++ c :: after) :
    ∃ s s' pre post u next, Pool.Reachable R s₀ ⟨s, pre ++ u :: post⟩ ∧ u.job = job ∧
      u.calls = before ∧ u.rest = .call c.op next ∧ R.performs c.op s c.answer s' ∧
      Pool.Steps R ⟨s', pre ++ u.answered c.op c.answer (next c.answer) :: post⟩ p := by
  refine h.induct (I := fun p => ∀ after, (∃ t ∈ p.threads, t.job = job ∧
    t.calls = before ++ c :: after) → ∃ s s' pre post u next,
      Pool.Reachable R s₀ ⟨s, pre ++ u :: post⟩ ∧ u.job = job ∧ u.calls = before ∧
      u.rest = .call c.op next ∧ R.performs c.op s c.answer s' ∧
      Pool.Steps R ⟨s', pre ++ u.answered c.op c.answer (next c.answer) :: post⟩ p) ?_ ?_ after hmade
  · rintro after ⟨t, ht, -⟩
    exact absurd ht List.not_mem_nil
  · rintro q q' hreach hs ih after ⟨t, ht, hjob, hcalls⟩
    have hearlier : ∀ late, (∃ t ∈ q.threads, t.job = job ∧ t.calls = before ++ c :: late) →
        ∃ s s' pre post u next, Pool.Reachable R s₀ ⟨s, pre ++ u :: post⟩ ∧ u.job = job ∧
          u.calls = before ∧ u.rest = .call c.op next ∧ R.performs c.op s c.answer s' ∧
          Pool.Steps R ⟨s', pre ++ u.answered c.op c.answer (next c.answer) :: post⟩ q' := by
      intro late hthere
      obtain ⟨s, s', pre, post, u, next, hr, hj, hc, hrest, hperf, hsteps⟩ := ih late hthere
      exact ⟨s, s', pre, post, u, next, hr, hj, hc, hrest, hperf, hsteps.tail hs⟩
    cases hs with
    | start newJob =>
      rcases List.mem_append.mp ht with ht | ht
      · exact hearlier after ⟨t, ht, hjob, hcalls⟩
      · rw [List.mem_singleton.mp ht] at hcalls
        exact absurd hcalls (by simp)
    | outside ho => exact hearlier after ⟨t, ht, hjob, hcalls⟩
    | @call s s' pre post u δ op next b hr hp =>
      rcases List.mem_append.mp ht with ht | ht
      · exact hearlier after ⟨t, List.mem_append_left _ ht, hjob, hcalls⟩
      · rcases List.mem_cons.mp ht with heq | ht
        · rw [heq] at hjob hcalls
          have hsnoc : u.calls ++ [⟨op, b⟩] = before ++ c :: after := hcalls
          rcases List.eq_nil_or_concat after with hnil | ⟨late, last, hlast⟩
          · rw [hnil] at hsnoc
            obtain ⟨hbefore, hc⟩ := List.append_inj' hsnoc rfl
            obtain rfl : (⟨op, b⟩ : Call E) = c := (List.cons.inj hc).1
            exact ⟨s, s', pre, post, u, next, hreach, hjob, hbefore, hr, hp, .refl⟩
          · rw [hlast, List.concat_eq_append, ← List.cons_append, ← List.append_assoc] at hsnoc
            exact hearlier late ⟨u, by simp, hjob, (List.append_inj' hsnoc rfl).1⟩
        · exact hearlier after ⟨t, List.mem_append_right _ (List.mem_cons_of_mem _ ht), hjob, hcalls⟩

/-- A kind of call that is made only as the first of its kind is made once. -/
theorem Thread.Follows.once {P : J → List (Call E) → ∀ {δ : Type}, E δ → Prop}
    (hrule : ∀ job, Prog.Obeys (P job) [] (R.program job)) {kind : Call E → Bool}
    {t : Thread E J α} (hfirst : ∀ before (call : Call E), P t.job before call.op →
      kind call = true → before.countP kind = 0) (h : t.Follows R) : t.calls.countP kind ≤ 1 := by
  have hprefix : ∀ calls after : List (Call E), t.calls = calls ++ after →
      calls.countP kind ≤ 1 := by
    intro calls
    induction calls using List.reverseRecOn with
    | nil => exact fun _ _ => Nat.zero_le _
    | append_singleton before call ih =>
      intro after hc
      rw [List.append_assoc] at hc
      have hmade := (hrule t.job).rule_of_trace h hc
      rw [List.countP_append, List.countP_singleton]
      by_cases hk : kind call = true
      · rw [hfirst before call hmade hk, if_pos hk]
      · rw [if_neg hk]
        exact ih _ hc
  exact hprefix t.calls [] (List.append_nil _).symm

def Thread.total (g : Call E → Nat) (t : Thread E J α) : Nat := (t.calls.map g).sum

def Pool.total (g : Call E → Nat) (p : Pool E σ J α) : Nat :=
  (p.threads.map (Thread.total g)).sum

theorem Thread.total_answered {δ : Type} (g : Call E → Nat) (t : Thread E J α) (op : E δ) (b : δ)
    (rest : Prog E α) : (t.answered op b rest).total g = t.total g + g ⟨op, b⟩ := by
  simp [Thread.total, Thread.answered]

theorem Pool.total_le {g g' : Call E → Nat} {p : Pool E σ J α}
    (h : ∀ t ∈ p.threads, t.total g ≤ t.total g') : p.total g ≤ p.total g' :=
  List.sum_le_sum h

/-- A total that is not zero is counted somewhere. -/
theorem Pool.total_ge (g : Call E → Nat) {p : Pool E σ J α} {t : Thread E J α}
    (ht : t ∈ p.threads) : t.total g ≤ p.total g :=
  List.le_sum_of_mem (List.mem_map_of_mem ht)

theorem Pool.total_add {f g g' : Call E → Nat} (h : ∀ c, f c = g c + g' c) (p : Pool E σ J α) :
    p.total f = p.total g + p.total g' := by
  have hthread : ∀ t : Thread E J α, t.total f = t.total g + t.total g' := by
    intro t
    rw [Thread.total, List.map_congr_left fun c _ => h c, List.sum_map_add, Thread.total,
      Thread.total]
  rw [Pool.total, List.map_congr_left fun t _ => hthread t, List.sum_map_add, Pool.total, Pool.total]

theorem Pool.exists_of_total {g : Call E → Nat} {p : Pool E σ J α} (h : p.total g ≠ 0) :
    ∃ t ∈ p.threads, ∃ c ∈ t.calls, g c ≠ 0 := by
  by_contra hnone
  simp only [not_exists, not_and, not_not] at hnone
  refine h (List.sum_eq_zero_iff.mpr fun n hn => ?_)
  obtain ⟨t, ht, rfl⟩ := List.mem_map.mp hn
  refine List.sum_eq_zero_iff.mpr fun m hm => ?_
  obtain ⟨c, hc, rfl⟩ := List.mem_map.mp hm
  exact hnone t ht c hc

/-- A total of one is counted in a single thread. -/
theorem Pool.eq_of_total_le_one {g : Call E → Nat} {p : Pool E σ J α} (h : p.total g ≤ 1)
    {t t' : Thread E J α} (ht : t ∈ p.threads) (ht' : t' ∈ p.threads) (hg : 1 ≤ t.total g)
    (hg' : 1 ≤ t'.total g) : t = t' := by
  by_contra hne
  obtain ⟨pre, post, hsplit⟩ := List.append_of_mem ht
  have hrest : t' ∈ pre ++ post := by
    rw [hsplit] at ht'
    rcases List.mem_append.mp ht' with hmem | hmem
    · exact List.mem_append_left _ hmem
    · exact List.mem_append_right _ ((List.mem_cons.mp hmem).resolve_left fun he => hne he.symm)
  have hle : t'.total g ≤ ((pre ++ post).map (Thread.total g)).sum :=
    List.le_sum_of_mem (List.mem_map_of_mem hrest)
  rw [Pool.total, hsplit, List.map_append, List.sum_append, List.map_cons, List.sum_cons] at h
  rw [List.map_append, List.sum_append] at hle
  omega

open Classical in
/-- How many threads there are of a kind. -/
noncomputable def Pool.number (P : Thread E J α → Prop) (p : Pool E σ J α) : Nat :=
  p.threads.countP fun t => decide (P t)

theorem Pool.number_eq_zero {P : Thread E J α → Prop} {p : Pool E σ J α} :
    p.number P = 0 ↔ ∀ t ∈ p.threads, ¬ P t := by
  simp [Pool.number, List.countP_eq_zero]

theorem Pool.number_congr {P Q : Thread E J α → Prop} {p : Pool E σ J α}
    (h : ∀ t ∈ p.threads, P t ↔ Q t) : p.number P = p.number Q :=
  List.countP_congr fun t ht => by simpa using h t ht

/-- Two calls of a kind that is made at most once are one call. -/
theorem eq_of_countP_le_one {kind : Call E → Bool} {calls : List (Call E)}
    (h : calls.countP kind ≤ 1) {c c' : Call E} (hc : c ∈ calls) (hc' : c' ∈ calls)
    (hk : kind c = true) (hk' : kind c' = true) : c = c' := by
  by_contra hne
  obtain ⟨before, after, rfl⟩ := List.append_of_mem hc
  have hrest : c' ∈ before ++ after := by
    rcases List.mem_append.mp hc' with hm | hm
    · exact List.mem_append_left _ hm
    · exact List.mem_append_right _ ((List.mem_cons.mp hm).resolve_left fun he => hne he.symm)
  have hpos : 0 < (before ++ after).countP kind := List.countP_pos_iff.mpr ⟨c', hrest, hk'⟩
  rw [List.countP_append, List.countP_cons_of_pos hk] at h
  rw [List.countP_append] at hpos
  omega

/-- What a thread counts, if it makes at most one call that counts. -/
theorem Thread.total_once {g : Call E → Nat} {kind : Call E → Bool} {t : Thread E J α}
    (hone : t.calls.countP kind ≤ 1) (hkind : ∀ c, g c ≠ 0 → kind c = true) {c : Call E}
    (hc : c ∈ t.calls) (hg : g c = 1) : t.total g = 1 := by
  obtain ⟨before, after, hcalls⟩ := List.append_of_mem hc
  have hk : kind c = true := hkind c (by omega)
  rw [hcalls, List.countP_append, List.countP_cons_of_pos hk] at hone
  have hzero : ∀ l : List (Call E), l.countP kind = 0 → (l.map g).sum = 0 := by
    intro l hl
    rw [List.sum_eq_zero_iff]
    intro n hn
    obtain ⟨d, hd, rfl⟩ := List.mem_map.mp hn
    by_contra hne
    exact List.countP_eq_zero.mp hl d hd (hkind d hne)
  rw [Thread.total, hcalls, List.map_append, List.map_cons, List.sum_append, List.sum_cons,
    hzero before (by omega), hzero after (by omega), hg]

open Classical in
/-- A thread that makes at most one call that counts, counts whether it makes one. -/
theorem Thread.total_indicator {g : Call E → Nat} {kind : Call E → Bool} {t : Thread E J α}
    (hone : t.calls.countP kind ≤ 1) (hkind : ∀ c, g c ≠ 0 → kind c = true) (hle : ∀ c, g c ≤ 1) :
    t.total g = if ∃ c ∈ t.calls, g c = 1 then 1 else 0 := by
  split_ifs with h
  · obtain ⟨c, hc, hg⟩ := h
    exact Thread.total_once hone hkind hc hg
  · rw [Thread.total, List.sum_eq_zero_iff]
    intro n hn
    obtain ⟨d, hd, rfl⟩ := List.mem_map.mp hn
    have := hle d
    have hne : g d ≠ 1 := fun hg => h ⟨d, hd, hg⟩
    omega

open Classical in
theorem Pool.number_eq_sum (P : Thread E J α → Prop) (p : Pool E σ J α) :
    p.number P = (p.threads.map fun t => if P t then 1 else 0).sum := by
  rw [Pool.number]
  induction p.threads with
  | nil => rfl
  | cons t ts ih =>
    rw [List.map_cons, List.sum_cons, List.countP_cons, ih, Nat.add_comm]
    simp only [decide_eq_true_eq]

/-- The threads that make a call that counts, each once. -/
theorem Pool.total_eq_number {g : Call E → Nat} {kind : Call E → Bool} {p : Pool E σ J α}
    (hone : ∀ t ∈ p.threads, t.calls.countP kind ≤ 1) (hkind : ∀ c, g c ≠ 0 → kind c = true)
    (hle : ∀ c, g c ≤ 1) : p.total g = p.number fun t => ∃ c ∈ t.calls, g c = 1 := by
  rw [Pool.number_eq_sum, Pool.total]
  refine congrArg List.sum (List.map_congr_left fun t ht => ?_)
  convert Thread.total_indicator (hone t ht) hkind hle

open Classical in
theorem Pool.number_add_total (P : Thread E J α → Prop) (g : Call E → Nat) (p : Pool E σ J α) :
    p.number P + p.total g =
      (p.threads.map fun t => (if P t then 1 else 0) + t.total g).sum := by
  rw [Pool.number_eq_sum, Pool.total, List.sum_map_add]

/-- A quantity of the state that operations alone add to is what the calls of
the threads have added. -/
theorem Pool.Reachable.accounts {P : J → List (Call E) → ∀ {δ : Type}, E δ → Prop}
    (hrule : ∀ job, Prog.Obeys (P job) [] (R.program job)) {s₀ : σ} {Q : σ → Prop} {f : σ → Nat}
    {g : Call E → Nat} (hQ : ∀ p, Pool.Reachable R s₀ p → Q p.state)
    (hcall : ∀ job before {δ : Type} (op : E δ) s b s', P job before op → R.performs op s b s' →
      Q s → f s' = f s + g ⟨op, b⟩)
    (hout : ∀ s s', R.outside s s' → f s' = f s) {p : Pool E σ J α}
    (h : Pool.Reachable R s₀ p) : f p.state = f s₀ + p.total g := by
  refine h.induct (I := fun p => f p.state = f s₀ + p.total g) rfl ?_
  intro p p' hreach hs hn
  have hq := hQ p hreach
  cases hs with
  | start job =>
    rw [hn]
    simp [Pool.total, Thread.total]
  | @call s s' pre post u δ op next b hr hp =>
    have ho := Thread.permitted hrule (hreach.follows u (by simp)) hr
    rw [hcall u.job u.calls op s b s' ho hp hq, hn]
    simp only [Pool.total, List.map_append, List.map_cons, List.sum_append, List.sum_cons,
      Thread.total_answered]
    omega
  | outside ho => rw [hout _ _ ho, hn]; rfl

/-- A call that may be made once, and only after another, is counted at most as
often as that one. -/
theorem Thread.Follows.total_le {P : J → List (Call E) → ∀ {δ : Type}, E δ → Prop}
    (hrule : ∀ job, Prog.Obeys (P job) [] (R.program job)) {g g' : Call E → Nat}
    {K : Call E → Prop} {t : Thread E J α} (hone : ∀ call, g call ≤ 1)
    (hpaid : ∀ before (call : Call E), P t.job before call.op → (∀ c ∈ before, K c) → g call = 1 →
      (before.map g).sum = 0 ∧ 1 ≤ (before.map g').sum) (h : t.Follows R) (hk : ∀ c ∈ t.calls, K c) : t.total g ≤ t.total g' := by
  have hlast : ∀ calls after : List (Call E), t.calls = calls ++ after → (after.map g).sum = 0 →
      (calls.map g).sum ≤ (calls.map g').sum := by
    intro calls
    induction calls using List.reverseRecOn with
    | nil => exact fun _ _ _ => Nat.le_refl _
    | append_singleton before call ih =>
      intro after hc hz
      have hmade := (hrule t.job).rule_of_trace h (by rw [hc, List.append_assoc]; rfl)
      rcases Nat.le_one_iff_eq_zero_or_eq_one.mp (hone call) with h0 | h1
      · have hrest := ih (call :: after) (by rw [hc, List.append_assoc]; rfl) (by simp [h0, hz])
        simp only [List.map_append, List.map_singleton, List.sum_append, List.sum_singleton, h0]
        omega
      · obtain ⟨hbefore, hpay⟩ := hpaid before call hmade (fun c hc' => hk c (by simp [hc, hc'])) h1
        simp only [List.map_append, List.map_singleton, List.sum_append, List.sum_singleton, h1,
          hbefore]
        omega
  exact hlast t.calls [] (List.append_nil _).symm rfl

end Interaction
