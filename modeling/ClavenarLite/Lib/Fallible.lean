import Mathlib.Data.List.Basic

/-! Computations that may be refused: what their success says. -/

namespace Fallible

variable {ε α β σ : Type}

theorem bind_ok {x : Except ε α} {f : α → Except ε β} {b : β} (h : (x >>= f) = .ok b) :
    ∃ a, x = .ok a ∧ f a = .ok b := by
  cases x with
  | ok a => exact ⟨a, rfl, h⟩
  | error e => exact absurd h (by simp [bind, Except.bind])

/-- The first computation fails, or what follows its result does. -/
theorem bind_error {x : Except ε α} {f : α → Except ε β} {e : ε} (h : (x >>= f) = .error e) :
    x = .error e ∨ ∃ a, x = .ok a ∧ f a = .error e := by
  cases x with
  | ok a => exact Or.inr ⟨a, rfl, h⟩
  | error e' => exact Or.inl (congrArg Except.error (Except.error.inj h))

@[simp] theorem ok_bind (a : α) (f : α → Except ε β) : (Except.ok a >>= f) = f a := rfl

/-- Refuse with the reason, if the fault is present. -/
def refuse (fault : Bool) (reason : ε) : Except ε Unit :=
  if fault then .error reason else .ok ()

@[simp] theorem refuse_false (reason : ε) : refuse false reason = .ok () := rfl

theorem refuse_ok {fault : Bool} {reason : ε} {u : Unit} (h : refuse fault reason = .ok u) :
    fault = false := by
  cases fault with
  | false => rfl
  | true => exact absurd h (by simp [refuse])

theorem refuse_error {fault : Bool} {reason e : ε} (h : refuse fault reason = .error e) :
    fault = true ∧ e = reason := by
  cases fault with
  | false => exact absurd h (by simp)
  | true => exact ⟨rfl, (Except.error.inj h).symm⟩

theorem elim_error {o : Option α} {reason e : ε}
    (h : o.elim (.error reason) .ok = Except.error e) : o = none ∧ e = reason := by
  cases o with
  | none => exact ⟨rfl, (Except.error.inj h).symm⟩
  | some b => exact absurd h (by simp)

theorem mapError_error {δ : Type} {x : Except ε α} {f : ε → δ} {e : δ}
    (h : x.mapError f = .error e) : ∃ e', x = .error e' ∧ e = f e' := by
  cases x with
  | ok b => exact absurd h (by simp [Except.mapError])
  | error e' => exact ⟨e', rfl, (Except.error.inj h).symm⟩

theorem elim_ok {o : Option α} {reason : ε} {a : α}
    (h : o.elim (.error reason) .ok = Except.ok a) : o = some a := by
  cases o with
  | none => exact absurd h (by simp)
  | some b => exact congrArg some (Except.ok.inj h)

theorem mapError_ok {δ : Type} {x : Except ε α} {f : ε → δ} {a : α} (h : x.mapError f = .ok a) :
    x = .ok a := by
  cases x with
  | ok b => exact congrArg Except.ok (Except.ok.inj h)
  | error e => exact absurd h (by simp [Except.mapError])

theorem foldlM_ok {step : σ → α → Except ε σ} {P : σ → Prop} {l : List α}
    (hstep : ∀ s a s', a ∈ l → step s a = .ok s' → P s → P s') {s s' : σ}
    (h : l.foldlM step s = .ok s') (hs : P s) : P s' := by
  induction l generalizing s with
  | nil => exact Except.ok.inj h ▸ hs
  | cons a l ih =>
    rw [List.foldlM_cons] at h
    obtain ⟨s₁, hs₁, h⟩ := bind_ok h
    exact ih (fun s x s' hx => hstep s x s' (List.mem_cons_of_mem a hx)) h
      (hstep s a s₁ List.mem_cons_self hs₁ hs)

theorem ok_of_toOption {x : Except ε α} {a : α} (h : x.toOption = some a) :
    x = .ok a := by
  cases x with
  | ok b => exact congrArg Except.ok (Option.some.inj h)
  | error e => exact absurd h (by simp [Except.toOption])

theorem mapM_ok {f : α → Except ε β} {l : List α} {ys : List β} (h : l.mapM f = .ok ys) :
    ∀ a ∈ l, ∃ y ∈ ys, f a = .ok y := by
  induction l generalizing ys with
  | nil => exact fun a ha => absurd ha List.not_mem_nil
  | cons x l ih =>
    rw [List.mapM_cons] at h
    obtain ⟨y, hy, h⟩ := bind_ok h
    obtain ⟨zs, hzs, h⟩ := bind_ok h
    obtain rfl := Except.ok.inj h
    intro a ha
    rcases List.mem_cons.mp ha with rfl | ha
    · exact ⟨y, List.mem_cons_self, hy⟩
    · obtain ⟨z, hz, hf⟩ := ih hzs a ha
      exact ⟨z, List.mem_cons_of_mem y hz, hf⟩

theorem mapM_map_ok {γ : Type} {f : β → Except ε γ} {g : α → β} {k : α → γ} {l : List α}
    (h : ∀ a ∈ l, f (g a) = .ok (k a)) : (l.map g).mapM f = .ok (l.map k) := by
  induction l with
  | nil => rfl
  | cons a l ih =>
    rw [List.map_cons, List.mapM_cons, h a List.mem_cons_self, ok_bind,
      ih fun b hb => h b (List.mem_cons_of_mem a hb)]
    rfl

theorem mapM_mem {f : α → Except ε β} {l : List α} {ys : List β} (h : l.mapM f = .ok ys) :
    ∀ y ∈ ys, ∃ a ∈ l, f a = .ok y := by
  induction l generalizing ys with
  | nil =>
    obtain rfl := Except.ok.inj h
    exact fun y hy => absurd hy List.not_mem_nil
  | cons x l ih =>
    rw [List.mapM_cons] at h
    obtain ⟨y, hy, h⟩ := bind_ok h
    obtain ⟨zs, hzs, h⟩ := bind_ok h
    obtain rfl := Except.ok.inj h
    intro z hz
    rcases List.mem_cons.mp hz with rfl | hz
    · exact ⟨x, List.mem_cons_self, hy⟩
    · obtain ⟨a, ha, hf⟩ := ih hzs z hz
      exact ⟨a, List.mem_cons_of_mem x ha, hf⟩

end Fallible
