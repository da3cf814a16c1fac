import Mathlib.Data.List.Basic

/-! Programs that interact with their surroundings one operation at a time. A
program is a tree of operations whose answers choose the continuation, so that
a scheduler can interleave several programs at every operation. -/

namespace Interaction

/-- A program over the operations `E`: it has finished, or it waits for the
answer to its next operation. -/
inductive Prog (E : Type → Type) (α : Type) : Type 1
  | pure (a : α)
  | call {β : Type} (op : E β) (next : β → Prog E α)

structure Call (E : Type → Type) : Type 1 where
  {β : Type}
  op : E β
  answer : β

namespace Prog

variable {E : Type → Type} {α β γ : Type}

protected def bind : Prog E α → (α → Prog E β) → Prog E β
  | .pure a, f => f a
  | .call op next, f => .call op (fun b => (next b).bind f)

instance : Monad (Prog E) where
  pure := Prog.pure
  bind := Prog.bind

def perform (op : E β) : Prog E β := .call op .pure

@[simp] theorem pure_bind (a : α) (f : α → Prog E β) : (Prog.pure a >>= f) = f a := rfl

@[simp] theorem pure_eq (a : α) : (Pure.pure a : Prog E α) = .pure a := rfl

@[simp] theorem call_bind (op : E γ) (next : γ → Prog E α) (f : α → Prog E β) :
    (Prog.call op next >>= f) = .call op (fun b => next b >>= f) := rfl

@[simp] theorem perform_bind (op : E γ) (f : γ → Prog E β) :
    (perform op >>= f) = .call op f := rfl

/-- Running a program alone, with a state that answers its operations. -/
def run {σ : Type} (answer : ∀ {δ : Type}, E δ → σ → δ × σ) : Prog E α → σ → α × σ
  | .pure a, s => (a, s)
  | .call op next, s => (next (answer op s).1).run answer (answer op s).2

section Run

variable {σ : Type} (answer : ∀ {δ : Type}, E δ → σ → δ × σ)

@[simp] theorem run_pure (a : α) (s : σ) : (Prog.pure a : Prog E α).run answer s = (a, s) := rfl

@[simp] theorem run_call (op : E β) (next : β → Prog E α) (s : σ) :
    (Prog.call op next).run answer s = (next (answer op s).1).run answer (answer op s).2 := rfl

theorem run_bind (p : Prog E α) (f : α → Prog E β) (s : σ) :
    (p >>= f).run answer s = (f (p.run answer s).1).run answer (p.run answer s).2 := by
  induction p generalizing s with
  | pure a => rfl
  | call op next ih => exact ih _ _

end Run

inductive Trace : Prog E α → List (Call E) → Prog E α → Prop
  | nil (p : Prog E α) : Trace p [] p
  | cons {δ : Type} {op : E δ} {next : δ → Prog E α} {b : δ} {cs : List (Call E)}
      {q : Prog E α} (h : Trace (next b) cs q) : Trace (.call op next) (⟨op, b⟩ :: cs) q

@[simp] theorem trace_pure {a : α} {cs : List (Call E)} {q : Prog E α} :
    Trace (.pure a) cs q ↔ cs = [] ∧ q = .pure a := by
  constructor
  · rintro ⟨⟩
    exact ⟨rfl, rfl⟩
  · rintro ⟨rfl, rfl⟩
    exact .nil _

theorem trace_call {op : E β} {next : β → Prog E α} {cs : List (Call E)} {a : α} :
    Trace (.call op next) cs (.pure a) ↔
      ∃ b ds, cs = ⟨op, b⟩ :: ds ∧ Trace (next b) ds (.pure a) := by
  constructor
  · intro h
    cases h with
    | cons h => exact ⟨_, _, rfl, h⟩
  · rintro ⟨b, ds, rfl, h⟩
    exact .cons h

theorem trace_bind {p : Prog E α} {f : α → Prog E β} {cs : List (Call E)} {b : β} :
    Trace (p >>= f) cs (.pure b) ↔
      ∃ a ds es, cs = ds ++ es ∧ Trace p ds (.pure a) ∧ Trace (f a) es (.pure b) := by
  induction p generalizing cs with
  | pure a =>
    constructor
    · intro h
      exact ⟨a, [], cs, rfl, .nil _, h⟩
    · rintro ⟨a', ds, es, rfl, hp, hf⟩
      obtain ⟨rfl, he⟩ := trace_pure.mp hp
      obtain rfl := Prog.pure.inj he
      exact hf
  | call op next ih =>
    constructor
    · intro h
      obtain ⟨c, rest, rfl, hnext⟩ := trace_call.mp h
      obtain ⟨a, ds, es, rfl, hp, hf⟩ := (ih c).mp hnext
      exact ⟨a, ⟨op, c⟩ :: ds, es, rfl, .cons hp, hf⟩
    · rintro ⟨a, ds, es, rfl, hp, hf⟩
      obtain ⟨c, rest, rfl, hnext⟩ := trace_call.mp hp
      exact .cons ((ih c).mpr ⟨a, rest, es, rfl, hnext, hf⟩)

/-- What is left of a program is determined by the calls it made. -/
theorem Trace.unique {p q q' : Prog E α} {cs : List (Call E)} (h : Trace p cs q)
    (h' : Trace p cs q') : q = q' := by
  induction h with
  | nil p =>
    cases h'
    rfl
  | cons _ ih =>
    cases h' with
    | cons h' => exact ih h'

theorem Trace.snoc {p : Prog E α} {cs : List (Call E)} {op : E β} {next : β → Prog E α}
    (h : Trace p cs (.call op next)) (b : β) : Trace p (cs ++ [⟨op, b⟩]) (next b) := by
  generalize he : Prog.call op next = q at h
  induction h with
  | nil p => subst he; exact .cons (.nil _)
  | cons _ ih => exact .cons (ih he)

/-- Every operation the program may still perform obeys `rule`, which sees the
calls made so far. -/
def Obeys (rule : List (Call E) → ∀ {δ : Type}, E δ → Prop) : List (Call E) → Prog E α → Prop
  | _, .pure _ => True
  | cs, .call op next => rule cs op ∧ ∀ b, Obeys rule (cs ++ [⟨op, b⟩]) (next b)

variable {rule : List (Call E) → ∀ {δ : Type}, E δ → Prop}

@[simp] theorem obeys_pure (cs : List (Call E)) (a : α) : Obeys rule cs (.pure a) := trivial

@[simp] theorem obeys_call (cs : List (Call E)) (op : E β) (next : β → Prog E α) :
    Obeys rule cs (.call op next) ↔ rule cs op ∧ ∀ b, Obeys rule (cs ++ [⟨op, b⟩]) (next b) :=
  Iff.rfl

theorem Obeys.of_trace {p q : Prog E α} {pre cs : List (Call E)} (h : Obeys rule pre p)
    (ht : Trace p cs q) : Obeys rule (pre ++ cs) q := by
  induction ht generalizing pre with
  | nil p => simpa using h
  | cons _ ih => simpa using ih (h.2 _)

theorem Obeys.rule_of_trace {p q : Prog E α} {pre cs : List (Call E)} (h : Obeys rule pre p)
    (ht : Trace p cs q) {before after : List (Call E)} {c : Call E}
    (hc : cs = before ++ c :: after) : rule (pre ++ before) c.op := by
  induction ht generalizing pre before with
  | nil p => simp at hc
  | @cons _ op next b cs q ht ih =>
    cases before with
    | nil =>
      obtain ⟨rfl, rfl⟩ := List.cons.inj hc
      simpa using h.1
    | cons d before =>
      obtain ⟨rfl, hrest⟩ := List.cons.inj hc
      simpa using ih (h.2 b) hrest

theorem Obeys.bind {p : Prog E α} {f : α → Prog E β} {cs : List (Call E)} (h : Obeys rule cs p)
    (hf : ∀ a ds, Trace p ds (.pure a) → Obeys rule (cs ++ ds) (f a)) :
    Obeys rule cs (p >>= f) := by
  induction p generalizing cs with
  | pure a => simpa using hf a [] (.nil _)
  | call op next ih =>
    refine ⟨h.1, ?_⟩
    intro b
    apply ih b (h.2 b)
    intro a ds ht
    simpa using hf a (⟨op, b⟩ :: ds) (.cons ht)

/-- The program obeys the rule whatever calls were made before it. -/
def Safe (rule : List (Call E) → ∀ {δ : Type}, E δ → Prop) (p : Prog E α) : Prop :=
  ∀ cs, Obeys rule cs p

theorem Safe.pure (a : α) : Safe rule (.pure a : Prog E α) := fun _ => trivial

theorem Safe.perform {op : E β} (h : ∀ cs, rule cs op) : Safe rule (Prog.perform op) :=
  fun cs => ⟨h cs, fun _ => trivial⟩

theorem Safe.bind {p : Prog E α} {f : α → Prog E β} (h : Safe rule p)
    (hf : ∀ a, Safe rule (f a)) : Safe rule (p >>= f) :=
  fun cs => (h cs).bind fun a ds _ => hf a (cs ++ ds)

theorem Safe.mono {rule' : List (Call E) → ∀ {δ : Type}, E δ → Prop} {p : Prog E α}
    (h : Safe rule p) (hr : ∀ cs {δ : Type} (op : E δ), rule cs op → rule' cs op) :
    Safe rule' p := by
  have hp : ∀ (p : Prog E α) cs, Obeys rule cs p → Obeys rule' cs p := by
    intro p
    induction p with
    | pure a => exact fun _ _ => trivial
    | call op next ih => exact fun cs ho => ⟨hr cs op ho.1, fun b => ih b _ (ho.2 b)⟩
  exact fun cs => hp p cs (h cs)

/-- What every permitted operation keeps, a program of them keeps. -/
theorem Safe.run_invariant {σ : Type} {answer : ∀ {δ : Type}, E δ → σ → δ × σ} {Q : σ → Prop}
    {p : Prog E α} (h : Safe rule p)
    (hstep : ∀ {δ : Type} (op : E δ) cs s, rule cs op → Q s → Q (answer op s).2) {s : σ}
    (hs : Q s) : Q (p.run answer s).2 := by
  have hrun : ∀ (p : Prog E α) cs s, Obeys rule cs p → Q s → Q (p.run answer s).2 := by
    intro p
    induction p with
    | pure a => exact fun _ _ _ hq => hq
    | call op next ih =>
      intro cs s ho hq
      exact ih _ _ _ (ho.2 _) (hstep op cs s ho.1 hq)
  exact hrun p [] s (h []) hs

end Prog

end Interaction
