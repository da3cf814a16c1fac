import ClavenarLite.Lib.Transaction

/-! Triples over histories: what a program may do next depends on the calls it
has made, and what its result says on all of them. -/

namespace Interaction

namespace Prog

variable {E : Type → Type} {α β σ : Type} {rule : List (Call E) → ∀ {δ : Type}, E δ → Prop}
  {post mid : List (Call E) → α → Prop} {cs : List (Call E)} {p : Prog E α}

/-- After the calls `cs`, the program obeys the rule, and `post` holds of its
result and of all calls made by then. -/
def Meets (rule : List (Call E) → ∀ {δ : Type}, E δ → Prop) (post : List (Call E) → α → Prop) :
    List (Call E) → Prog E α → Prop
  | cs, .pure a => post cs a
  | cs, .call op next => rule cs op ∧ ∀ b, Meets rule post (cs ++ [⟨op, b⟩]) (next b)

theorem Meets.bind {post : List (Call E) → β → Prop} {f : α → Prog E β} (h : Meets rule mid cs p)
    (hf : ∀ ds a, mid ds a → Meets rule post ds (f a)) : Meets rule post cs (p >>= f) := by
  induction p generalizing cs with
  | pure a => exact hf cs a h
  | call op next ih => exact ⟨h.1, fun b => ih b (h.2 b)⟩

theorem Meets.mono {post' : List (Call E) → α → Prop} (h : Meets rule post cs p)
    (hp : ∀ ds a, post ds a → post' ds a) : Meets rule post' cs p := by
  induction p generalizing cs with
  | pure a => exact hp cs a h
  | call op next ih => exact ⟨h.1, fun b => ih b (h.2 b)⟩

theorem Meets.obeys (h : Meets rule post cs p) : Obeys rule cs p := by
  induction p generalizing cs with
  | pure a => trivial
  | call op next ih => exact ⟨h.1, fun b => ih b (h.2 b)⟩

theorem Meets.of_trace {q : Prog E α} {ds : List (Call E)} (h : Meets rule post cs p)
    (ht : Trace p ds q) : Meets rule post (cs ++ ds) q := by
  induction ht generalizing cs with
  | nil p => simpa using h
  | cons _ ih => simpa using ih (h.2 _)

/-- A finished run leaves the result and its calls as `post` says. -/
theorem Meets.result {a : α} {ds : List (Call E)} (h : Meets rule post cs p)
    (ht : Trace p ds (.pure a)) : post (cs ++ ds) a :=
  h.of_trace ht

/-- The program run on a state that nothing else touches. -/
def RunsTo (performs : ∀ {δ : Type}, E δ → σ → δ → σ → Prop) :
    Prog E α → σ → List (Call E) → α → σ → Prop
  | .pure a, s, cs, b, s' => cs = [] ∧ b = a ∧ s' = s
  | .call op next, s, cs, a, s'' => ∃ b s' ds, performs op s b s' ∧ cs = ⟨op, b⟩ :: ds ∧
      RunsTo performs (next b) s' ds a s''

variable {performs : ∀ {δ : Type}, E δ → σ → δ → σ → Prop}

/-- A run whose first answer is known. -/
theorem runsTo_call {op : E β} {next : β → Prog E α} {s s' : σ} {b : β} {a : α} :
    RunsTo performs (.call op next) s (⟨op, b⟩ :: cs) a s' ↔
      ∃ s₁, performs op s b s₁ ∧ RunsTo performs (next b) s₁ cs a s' := by
  constructor
  · intro h
    obtain ⟨_, s₁, _, hp, hcs, hrest⟩ := h
    obtain ⟨hc, rfl⟩ := List.cons.inj hcs
    obtain rfl := eq_of_heq (Call.mk.inj hc).2.2
    exact ⟨s₁, hp, hrest⟩
  · intro h
    obtain ⟨s₁, hp, hrest⟩ := h
    exact ⟨b, s₁, cs, hp, rfl, hrest⟩

/-- A run without operations is over at once. -/
theorem runsTo_nil {s s' : σ} {a : α} :
    RunsTo performs p s [] a s' ↔ p = .pure a ∧ s' = s := by
  cases p with
  | pure b =>
    constructor
    · intro h
      exact ⟨congrArg Prog.pure h.2.1.symm, h.2.2⟩
    · intro h
      exact ⟨rfl, (Prog.pure.inj h.1).symm, h.2⟩
  | call op next =>
    constructor
    · intro h
      obtain ⟨_, _, _, _, hcs, _⟩ := h
      exact absurd hcs (List.cons_ne_nil _ _).symm
    · intro h
      exact absurd h.1 (by simp)

/-- The parts of a run without operations. -/
theorem runsTo_bind_nil {f : α → Prog E β} {s s' : σ} {b : β}
    (h : RunsTo performs (p >>= f) s [] b s') :
    ∃ a, RunsTo performs p s [] a s ∧ RunsTo performs (f a) s [] b s' := by
  cases p with
  | pure a => exact ⟨a, ⟨rfl, rfl, rfl⟩, h⟩
  | call op next =>
    obtain ⟨_, _, _, _, hcs, _⟩ := h
    exact absurd hcs (List.cons_ne_nil _ _).symm

theorem RunsTo.trace {s s' : σ} {cs : List (Call E)} {a : α} (h : RunsTo performs p s cs a s') :
    Trace p cs (.pure a) := by
  induction p generalizing s cs with
  | pure b =>
    obtain ⟨rfl, rfl, _⟩ := h
    exact .nil _
  | call op next ih =>
    obtain ⟨b, s₁, ds, _, rfl, hrest⟩ := h
    exact .cons (ih b hrest)

theorem RunsTo.bind {f : α → Prog E β} {s s' s'' : σ} {cs ds : List (Call E)} {a : α} {b : β}
    (h : RunsTo performs p s cs a s') (hf : RunsTo performs (f a) s' ds b s'') :
    RunsTo performs (p >>= f) s (cs ++ ds) b s'' := by
  induction p generalizing s cs with
  | pure c =>
    obtain ⟨rfl, rfl, rfl⟩ := h
    exact hf
  | call op next ih =>
    obtain ⟨c, s₁, es, hp, rfl, hrest⟩ := h
    exact ⟨c, s₁, es ++ ds, hp, rfl, ih c hrest⟩

/-- What a session answers, performed one operation after the other. -/
theorem RunsTo.of_run {S : Type} {view : S → σ} {answer : ∀ {δ : Type}, E δ → S → δ × S}
    (h : ∀ {δ : Type} (op : E δ) s, performs op (view s) (answer op s).1 (view (answer op s).2))
    (p : Prog E α) (s : S) :
    ∃ cs, RunsTo performs p (view s) cs (p.run answer s).1 (view (p.run answer s).2) := by
  induction p generalizing s with
  | pure a => exact ⟨[], rfl, rfl, rfl⟩
  | call op next ih =>
    obtain ⟨cs, hcs⟩ := ih (answer op s).1 (answer op s).2
    exact ⟨_, _, _, cs, h op s, rfl, hcs⟩

end Prog

end Interaction

namespace Transaction

open Interaction

variable {E : Type → Type} {ε α β : Type} {rule : List (Call E) → ∀ {δ : Type}, E δ → Prop}
  {err : List (Call E) → ε → Prop} {post mid : List (Call E) → α → Prop} {cs : List (Call E)}

def Outcome (err : List (Call E) → ε → Prop) (post : List (Call E) → α → Prop)
    (cs : List (Call E)) : Except ε α → Prop
  | .ok a => post cs a
  | .error e => err cs e

/-- `post` holds of a result, `err` of what the program ended early with. -/
abbrev Meets (rule : List (Call E) → ∀ {δ : Type}, E δ → Prop) (err : List (Call E) → ε → Prop)
    (post : List (Call E) → α → Prop) (cs : List (Call E)) (p : Body E ε α) : Prop :=
  Prog.Meets rule (Outcome err post) cs p.run

theorem Meets.pure {a : α} (h : post cs a) : Meets rule err post cs (Pure.pure a : Body E ε α) := h

theorem Meets.throw {e : ε} (h : err cs e) : Meets rule err post cs (throw e : Body E ε α) := h

/-- An operation and what follows each of its answers. -/
theorem Meets.ask {post : List (Call E) → β → Prop} {op : E α} {f : α → Body E ε β}
    (hr : rule cs op) (hf : ∀ a, Meets rule err post (cs ++ [⟨op, a⟩]) (f a)) :
    Meets rule err post cs (ExceptT.lift (Prog.perform op) >>= f) :=
  ⟨hr, hf⟩

theorem Meets.bind {post : List (Call E) → β → Prop} {x : Body E ε α} {f : α → Body E ε β}
    (h : Meets rule err mid cs x) (hf : ∀ ds a, mid ds a → Meets rule err post ds (f a)) :
    Meets rule err post cs (x >>= f) := by
  have hrun : Prog.Meets rule (Outcome err post) cs (x >>= f).run := by
    rw [ExceptT.run_bind]
    refine Prog.Meets.bind h fun ds r hr => ?_
    cases r with
    | ok a => exact hf ds a hr
    | error e => exact hr
  exact hrun

section RunsTo

variable {σ : Type} {performs : ∀ {δ : Type}, E δ → σ → δ → σ → Prop} {s s' s'' : σ}
  {ds : List (Call E)}

/-- The body run alone ends in this way. -/
abbrev RunsTo (performs : ∀ {δ : Type}, E δ → σ → δ → σ → Prop) (x : Body E ε α) (s : σ)
    (cs : List (Call E)) (r : Except ε α) (s' : σ) : Prop :=
  Prog.RunsTo performs x.run s cs r s'

theorem RunsTo.pure {a : α} : RunsTo performs (Pure.pure a : Body E ε α) s [] (.ok a) s :=
  ⟨rfl, rfl, rfl⟩

theorem RunsTo.throw {e : ε} : RunsTo performs (throw e : Body E ε α) s [] (.error e) s :=
  ⟨rfl, rfl, rfl⟩

theorem RunsTo.ask {op : E α} {f : α → Body E ε β} {a : α} {r : Except ε β}
    (hp : performs op s a s') (h : RunsTo performs (f a) s' cs r s'') :
    RunsTo performs (ExceptT.lift (Prog.perform op) >>= f) s (⟨op, a⟩ :: cs) r s'' :=
  ⟨a, s', cs, hp, rfl, h⟩

theorem RunsTo.bind {x : Body E ε α} {f : α → Body E ε β} {a : α} {r : Except ε β}
    (h : RunsTo performs x s cs (.ok a) s') (hf : RunsTo performs (f a) s' ds r s'') :
    RunsTo performs (x >>= f) s (cs ++ ds) r s'' := by
  have hrun : Prog.RunsTo performs (x >>= f).run s (cs ++ ds) r s'' := by
    rw [ExceptT.run_bind]
    exact Prog.RunsTo.bind h hf
  exact hrun

/-- What follows is not reached. -/
theorem RunsTo.ended {x : Body E ε α} {f : α → Body E ε β} {e : ε}
    (h : RunsTo performs x s cs (.error e) s') : RunsTo performs (x >>= f) s cs (.error e) s' := by
  have hrun : Prog.RunsTo performs (x >>= f).run s (cs ++ []) (.error e) s' := by
    rw [ExceptT.run_bind]
    exact Prog.RunsTo.bind h ⟨rfl, rfl, rfl⟩
  rwa [List.append_nil] at hrun

end RunsTo

end Transaction
