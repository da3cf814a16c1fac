import ClavenarLite.Lib.Threads

/-! Runs without some of their threads. If what the shown threads are answered does not
depend on the others, then every run is, to the shown threads, a run of them alone. -/

namespace Interaction

variable {E : Type → Type} {σ J α β γ : Type}

/-- Which operations, and which answers to them, are taken for the same. -/
structure Likeness (E : Type → Type) where
  op : ∀ {δ : Type}, E δ → E δ → Prop
  answer : ∀ {δ : Type}, E δ → E δ → δ → δ → Prop

variable (K : Likeness E)

/-- Answered alike, the programs act alike, and come to results that are related. -/
inductive Prog.Alike (ρ : α → β → Prop) : Prog E α → Prog E β → Prop
  | pure {a : α} {b : β} (h : ρ a b) : Alike ρ (.pure a) (.pure b)
  | call {δ : Type} {op op' : E δ} {next : δ → Prog E α} {next' : δ → Prog E β}
      (hop : K.op op op') (h : ∀ d d', K.answer op op' d d' → Alike ρ (next d) (next' d')) :
      Alike ρ (.call op next) (.call op' next')

inductive Call.Alike : Call E → Call E → Prop
  | intro {δ : Type} {op op' : E δ} {d d' : δ} (hop : K.op op op') (h : K.answer op op' d d') :
      Alike ⟨op, d⟩ ⟨op', d'⟩

variable {K} {ρ : α → β → Prop}

theorem Prog.Alike.of_call {δ : Type} {op : E δ} {next : δ → Prog E α} {q : Prog E β}
    (h : Prog.Alike K ρ (.call op next) q) : ∃ op' next', q = .call op' next' ∧ K.op op op' ∧
      ∀ d d', K.answer op op' d d' → Prog.Alike K ρ (next d) (next' d') := by
  cases h with
  | call hop h => exact ⟨_, _, rfl, hop, h⟩

theorem Prog.Alike.of_pure {a : α} {q : Prog E β} (h : Prog.Alike K ρ (.pure a) q) :
    ∃ b, q = .pure b ∧ ρ a b := by
  cases h with
  | pure h => exact ⟨_, rfl, h⟩

theorem Prog.Alike.bind {α' β' : Type} {ρ' : α' → β' → Prop} {p : Prog E α} {q : Prog E β}
    {f : α → Prog E α'} {g : β → Prog E β'} (h : Prog.Alike K ρ p q)
    (hf : ∀ a b, ρ a b → Prog.Alike K ρ' (f a) (g b)) : Prog.Alike K ρ' (p >>= f) (q >>= g) := by
  induction h with
  | pure hab => exact hf _ _ hab
  | call hop _ ih => exact .call hop ih

/-- A program that is only answered the same runs alike with itself. -/
theorem Prog.Alike.refl {p : Prog E α}
    (h : Prog.Safe (fun _ {δ} (op : E δ) => K.op op op ∧ ∀ d d', K.answer op op d d' → d = d') p) :
    Prog.Alike K Eq p p := by
  have hall : ∀ (p : Prog E α) cs, Prog.Obeys
      (fun _ {δ} (op : E δ) => K.op op op ∧ ∀ d d', K.answer op op d d' → d = d') cs p →
      Prog.Alike K Eq p p := by
    intro p
    induction p with
    | pure a => exact fun _ _ => .pure rfl
    | call op next ih =>
      intro cs ho
      refine .call ho.1.1 fun d d' hd => ?_
      obtain rfl := ho.1.2 d d' hd
      exact ih d _ (ho.2 d)
  exact hall p [] (h [])

/-- Answered in step, a program comes to one result on states that are related. -/
theorem Prog.run_related {answer : ∀ {δ : Type}, E δ → σ → δ × σ}
    {A : ∀ {δ : Type}, E δ → Prop} {S : σ → σ → Prop}
    (hstep : ∀ {δ : Type} (op : E δ) s r, A op → S s r →
      (answer op r).1 = (answer op s).1 ∧ S (answer op s).2 (answer op r).2) {p : Prog E α}
    (hp : Prog.Safe (fun _ {δ} (op : E δ) => A op) p) {s r : σ} (h : S s r) :
    (p.run answer r).1 = (p.run answer s).1 ∧ S (p.run answer s).2 (p.run answer r).2 := by
  have hall : ∀ (p : Prog E α) cs s r, Prog.Obeys (fun _ {δ} (op : E δ) => A op) cs p → S s r →
      (p.run answer r).1 = (p.run answer s).1 ∧ S (p.run answer s).2 (p.run answer r).2 := by
    intro p
    induction p with
    | pure a => exact fun _ _ _ _ h => ⟨rfl, h⟩
    | call op next ih =>
      intro cs s r ho h
      obtain ⟨hanswer, hafter⟩ := hstep op s r ho.1 h
      rw [Prog.run_call, Prog.run_call, hanswer]
      exact ih _ _ _ _ (ho.2 _) hafter
  exact hall p [] s r (hp []) h

section Embed

variable {E' : Type → Type} {K' : Likeness E'} (f : ∀ {δ : Type}, E δ → E' δ)

def Prog.embed : Prog E α → Prog E' α
  | .pure a => .pure a
  | .call op next => .call (f op) fun d => (next d).embed

variable {f}

theorem Prog.Alike.embed {p : Prog E α} {q : Prog E β} (h : Prog.Alike K ρ p q)
    (hop : ∀ {δ : Type} (op op' : E δ), K.op op op' → K'.op (f op) (f op'))
    (hanswer : ∀ {δ : Type} (op op' : E δ) d d', K'.answer (f op) (f op') d d' →
      K.answer op op' d d') : Prog.Alike K' ρ (p.embed f) (q.embed f) := by
  induction h with
  | pure h => exact .pure h
  | call h _ ih => exact .call (hop _ _ h) fun d d' hd => ih d d' (hanswer _ _ d d' hd)

/-- What is demanded of each operation alone carries over. -/
theorem Prog.Safe.embed {A : ∀ {δ : Type}, E δ → Prop} {A' : ∀ {δ : Type}, E' δ → Prop}
    {p : Prog E α} (h : Prog.Safe (fun _ {δ} (op : E δ) => A op) p)
    (hop : ∀ {δ : Type} (op : E δ), A op → A' (f op)) :
    Prog.Safe (fun _ {δ} (op : E' δ) => A' op) (p.embed f) := by
  have hall : ∀ (p : Prog E α) cs cs', Prog.Obeys (fun _ {δ} (op : E δ) => A op) cs p →
      Prog.Obeys (fun _ {δ} (op : E' δ) => A' op) cs' (p.embed f) := by
    intro p
    induction p with
    | pure a => exact fun _ _ _ => trivial
    | call op next ih => exact fun cs cs' ho => ⟨hop op ho.1, fun d => ih d _ _ (ho.2 d)⟩
  exact fun cs => hall p [] cs (h [])

end Embed

/-- Operations of two kinds, each with its own likeness. -/
def Likeness.sum {E₁ E₂ : Type → Type} (K₁ : Likeness E₁) (K₂ : Likeness E₂) :
    Likeness fun δ => E₁ δ ⊕ E₂ δ where
  op
    | .inl op, .inl op' => K₁.op op op'
    | .inr op, .inr op' => K₂.op op op'
    | _, _ => False
  answer
    | .inl op, .inl op' => K₁.answer op op'
    | .inr op, .inr op' => K₂.answer op op'
    | _, _ => fun _ _ => False

/-- Nothing is taken for the same but what is. -/
def Likeness.exact (E : Type → Type) : Likeness E where
  op := Eq
  answer _ _ := Eq

variable (K) in
structure Thread.Alike (t t' : Thread E J α) : Prop where
  job : t'.job = t.job
  calls : List.Forall₂ (Call.Alike K) t.calls t'.calls
  rest : Prog.Alike K Eq t.rest t'.rest

theorem forall₂_split {α β : Type*} {R : α → β → Prop} {l₁ l₂ : List α} {a : α} {m : List β}
    (h : List.Forall₂ R (l₁ ++ a :: l₂) m) : ∃ m₁ b m₂, m = m₁ ++ b :: m₂ ∧
      List.Forall₂ R l₁ m₁ ∧ R a b ∧ List.Forall₂ R l₂ m₂ := by
  induction l₁ generalizing m with
  | nil =>
    cases h with
    | cons hab h => exact ⟨[], _, _, rfl, .nil, hab, h⟩
  | cons c l₁ ih =>
    cases h with
    | cons hcd h =>
      obtain ⟨m₁, b, m₂, rfl, h₁, hab, h₂⟩ := ih h
      exact ⟨_ :: m₁, b, m₂, rfl, .cons hcd h₁, hab, h₂⟩

/-- The state the shown threads see is changed by them and by the surroundings alone, and
what they are answered depends on nothing else. -/
structure Unwinding (R : Rules E σ J α) (K : Likeness E) (shown good : J → Prop)
    (P : J → List (Call E) → ∀ {δ : Type}, E δ → Prop) (S : σ → σ → Prop) : Prop where
  obeys : ∀ job, good job → Prog.Obeys (P job) [] (R.program job)
  blind : ∀ job, shown job → good job → Prog.Alike K Eq (R.program job) (R.program job)
  shows : ∀ job before {δ : Type} (op op' : E δ) s b s' r, shown job → good job →
    P job before op → K.op op op' → S s r → R.performs op s b s' →
      ∃ b' r', R.performs op' r b' r' ∧ K.answer op op' b b' ∧ S s' r'
  hides : ∀ job before {δ : Type} (op : E δ) s b s' r, ¬ shown job → good job →
    P job before op → S s r → R.performs op s b s' → S s' r
  outside : ∀ s s' r, S s r → R.outside s s' → ∃ r', Relation.ReflTransGen R.outside r r' ∧ S s' r'

/-- Threads of one job, which have come to the same result or to none. -/
structure Thread.SameOutcome (t t' : Thread E J α) : Prop where
  job : t'.job = t.job
  result : ∀ a, t.rest = .pure a ↔ t'.rest = .pure a

theorem Thread.Alike.outcome {t t' : Thread E J α} (h : t.Alike K t') : t.SameOutcome t' := by
  refine ⟨h.job, fun a => ⟨fun ha => ?_, fun ha => ?_⟩⟩
  · obtain ⟨b, hb, rfl⟩ := (ha ▸ h.rest).of_pure
    exact hb
  · cases hr : t.rest with
    | pure b =>
      obtain ⟨c, hc, rfl⟩ := (hr ▸ h.rest).of_pure
      rw [← ha, hc]
    | call op next =>
      obtain ⟨op', next', hc, _⟩ := (hr ▸ h.rest).of_call
      rw [hc] at ha
      exact absurd ha (by simp)

variable {R : Rules E σ J α} {shown good : J → Prop}
  {P : J → List (Call E) → ∀ {δ : Type}, E δ → Prop} {S : σ → σ → Prop}

theorem Pool.Steps.outside {s s' : σ} {threads : List (Thread E J α)}
    (h : Relation.ReflTransGen R.outside s s') :
    Pool.Steps R ⟨s, threads⟩ ⟨s', threads⟩ := by
  induction h with
  | refl => exact .refl
  | tail _ hs ih => exact ih.tail (.outside hs)

theorem Thread.Alike.answered {t t' : Thread E J α} (h : t.Alike K t') {δ : Type} {op op' : E δ}
    {d d' : δ} {rest rest' : Prog E α} (hop : K.op op op') (hd : K.answer op op' d d')
    (hrest : Prog.Alike K Eq rest rest') :
    (t.answered op d rest).Alike K (t'.answered op' d' rest') where
  job := h.job
  calls := List.rel_append h.calls (.cons (.intro hop hd) .nil)
  rest := hrest

/-- The shown threads of a run have a run of their own, with the same results. -/
theorem Unwinding.project [DecidablePred shown] (U : Unwinding R K shown good P S) {s₀ r₀ : σ} {p : Pool E σ J α}
    (hS : S s₀ r₀) (h : Pool.Reachable R s₀ p) (hgood : ∀ t ∈ p.threads, good t.job) :
    ∃ q, Pool.Reachable R r₀ q ∧ S p.state q.state ∧
      List.Forall₂ (Thread.Alike K) (p.threads.filter fun t => shown t.job) q.threads := by
  induction h with
  | refl => exact ⟨⟨r₀, []⟩, .refl, hS, .nil⟩
  | @tail p p' hreach hs ih =>
    have hbefore : ∀ t ∈ p.threads, good t.job := by
      intro t ht
      obtain ⟨t', ht', hjob, -⟩ := Pool.Steps.continues (.single hs) t ht
      exact hjob ▸ hgood t' ht'
    obtain ⟨q, hq, hstate, hthreads⟩ := ih hbefore
    cases hs with
    | start _ job =>
      have hjob : good job := hgood ⟨job, [], R.program job⟩ (by simp)
      by_cases hshown : shown job
      · refine ⟨_, hq.tail (.start q job), hstate, ?_⟩
        rw [List.filter_append, List.filter_cons_of_pos (by simpa using hshown), List.filter_nil]
        exact List.rel_append hthreads (.cons ⟨rfl, .nil, U.blind job hshown hjob⟩ .nil)
      · refine ⟨q, hq, hstate, ?_⟩
        rw [List.filter_append, List.filter_cons_of_neg (by simpa using hshown), List.filter_nil,
          List.append_nil]
        exact hthreads
    | @call s s' pre post t δ op next b hr hp =>
      have ht : t ∈ pre ++ t :: post := by simp
      have hrule : P t.job t.calls op := by
        have ho := (U.obeys t.job (hbefore t ht)).of_trace (Pool.Reachable.follows hreach t ht)
        rw [hr] at ho
        exact ho.1
      by_cases hshown : shown t.job
      · rw [List.filter_append, List.filter_cons_of_pos (by simpa using hshown)] at hthreads
        obtain ⟨pre', t', post', hq', hpre, halike, hpost⟩ := forall₂_split hthreads
        obtain ⟨op', next', hr', hop, hnext⟩ := (hr ▸ halike.rest).of_call
        obtain ⟨r, threads⟩ := q
        obtain rfl : threads = pre' ++ t' :: post' := hq'
        obtain ⟨b', r', hp', hb, hS'⟩ := U.shows t.job t.calls op op' s b s' r hshown
          (hbefore t ht) hrule hop hstate hp
        refine ⟨_, hq.tail (.call hr' hp'), hS', ?_⟩
        have hshown' : shown (t.answered op b (next b)).job := hshown
        rw [List.filter_append, List.filter_cons_of_pos (by simpa using hshown')]
        exact List.rel_append hpre (.cons (halike.answered hop hb (hnext _ _ hb)) hpost)
      · refine ⟨q, hq, U.hides t.job t.calls op s b s' q.state hshown (hbefore t ht) hrule hstate hp,
          ?_⟩
        have hshown' : ¬ shown (t.answered op b (next b)).job := hshown
        rw [List.filter_append, List.filter_cons_of_neg (by simpa using hshown)] at hthreads
        rw [List.filter_append, List.filter_cons_of_neg (by simpa using hshown')]
        exact hthreads
    | @outside s s' threads ho =>
      obtain ⟨r', hr', hS'⟩ := U.outside s s' q.state hstate ho
      exact ⟨⟨r', q.threads⟩, hq.trans (Pool.Steps.outside hr'), hS', hthreads⟩

end Interaction
