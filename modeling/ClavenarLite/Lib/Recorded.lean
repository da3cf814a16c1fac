import ClavenarLite.Lib.Threads

/-! Runs whose operations are written down, each with the thread that made it and
the state it was made on. -/

namespace Interaction

variable {E : Type → Type} {σ J α : Type}

structure Moment (E : Type → Type) (σ : Type) : Type 1 where
  thread : Nat
  before : σ
  call : Call E

variable (R : Rules E σ J α) (s₀ : σ)

/-- A run from a state no thread has touched yet; a thread goes by its place. -/
inductive Pool.Run : List (Moment E σ) → Pool E σ J α → Prop
  | init : Run [] ⟨s₀, []⟩
  | start {run : List (Moment E σ)} {p : Pool E σ J α} (h : Run run p) (job : J) :
      Run run ⟨p.state, p.threads ++ [⟨job, [], R.program job⟩]⟩
  | call {run : List (Moment E σ)} {s s' : σ} {pre post : List (Thread E J α)} {t : Thread E J α}
      {δ : Type} {op : E δ} {next : δ → Prog E α} {b : δ} (h : Run run ⟨s, pre ++ t :: post⟩)
      (hr : t.rest = .call op next) (hp : R.performs op s b s') :
      Run (run ++ [⟨pre.length, s, ⟨op, b⟩⟩]) ⟨s', pre ++ t.answered op b (next b) :: post⟩
  | outside {run : List (Moment E σ)} {s s' : σ} {threads : List (Thread E J α)}
      (h : Run run ⟨s, threads⟩) (ho : R.outside s s') : Run run ⟨s', threads⟩

variable {R s₀} {run : List (Moment E σ)} {p : Pool E σ J α}

theorem Pool.Run.reachable (h : Pool.Run R s₀ run p) : Pool.Reachable R s₀ p := by
  induction h with
  | init => exact .refl
  | start _ job ih => exact ih.tail (.start _ job)
  | call _ hr hp ih => exact ih.tail (.call hr hp)
  | outside _ ho ih => exact ih.tail (.outside ho)

/-- Every pool that is reached is reached by a run. -/
theorem Pool.Reachable.recorded (h : Pool.Reachable R s₀ p) : ∃ run, Pool.Run R s₀ run p := by
  refine h.induct (I := fun p => ∃ run, Pool.Run R s₀ run p) ⟨[], .init⟩ ?_
  rintro p p' - hs ⟨run, hrun⟩
  cases hs with
  | start _ job => exact ⟨run, hrun.start job⟩
  | call hr hp => exact ⟨_, hrun.call hr hp⟩
  | outside ho => exact ⟨run, hrun.outside ho⟩

/-- The calls of a thread are its moments. -/
theorem Pool.Run.calls (h : Pool.Run R s₀ run p) (i : Nat) :
    p.threads[i]?.elim [] Thread.calls = (run.filter fun e => e.thread = i).map Moment.call := by
  induction h with
  | init => rfl
  | @start run p _ job ih =>
    rw [← ih, List.getElem?_append]
    split_ifs with hi
    · rfl
    · rw [List.getElem?_eq_none (by omega : p.threads.length ≤ i)]
      cases i - p.threads.length <;> rfl
  | @call run s s' pre post t δ op next b _ hr _ ih =>
    rw [List.filter_append, List.map_append, ← ih]
    rcases Nat.lt_trichotomy i pre.length with hi | rfl | hi
    · have hne : pre.length ≠ i := by omega
      simp [List.getElem?_append_left hi, hne]
    · simp [Thread.answered]
    · have hne : pre.length ≠ i := by omega
      obtain ⟨k, hk⟩ : ∃ k, i - pre.length = k + 1 := ⟨i - pre.length - 1, by omega⟩
      simp [List.getElem?_append_right hi.le, hk, hne]
  | outside _ _ ih => exact ih

/-- A call that was made was recorded. -/
theorem Pool.Run.moment (h : Pool.Run R s₀ run p) {i : Nat} {t : Thread E J α}
    (ht : p.threads[i]? = some t) {made : Call E} (hm : made ∈ t.calls) :
    ∃ s, ⟨i, s, made⟩ ∈ run := by
  have hcalls := h.calls i
  rw [ht] at hcalls
  rw [show t.calls = _ from hcalls] at hm
  obtain ⟨e, hof, rfl⟩ := List.mem_map.mp hm
  obtain ⟨he, hi⟩ := List.mem_filter.mp hof
  obtain rfl : e.thread = i := by simpa using hi
  exact ⟨e.before, he⟩

/-- A call that was recorded was made. -/
theorem Pool.Run.made (h : Pool.Run R s₀ run p) {e : Moment E σ} (he : e ∈ run) :
    ∃ t, p.threads[e.thread]? = some t ∧ e.call ∈ t.calls := by
  have hcalls := h.calls e.thread
  have hmem : e.call ∈ (run.filter fun e' => e'.thread = e.thread).map Moment.call :=
    List.mem_map_of_mem (List.mem_filter.mpr ⟨he, by simp⟩)
  rw [← hcalls] at hmem
  cases ht : p.threads[e.thread]? with
  | none =>
    rw [ht] at hmem
    exact absurd hmem List.not_mem_nil
  | some t =>
    rw [ht] at hmem
    exact ⟨t, rfl, hmem⟩

/-- A call of a kind that the thread makes at most once has the one moment of that kind. -/
theorem Pool.Run.only (h : Pool.Run R s₀ run p) {i : Nat} {t : Thread E J α}
    (ht : p.threads[i]? = some t) {kind : Call E → Bool} (hone : t.calls.countP kind ≤ 1)
    {made : Call E} (hm : made ∈ t.calls) (hk : kind made = true) :
    ∃ s, (run.filter fun m => m.thread == i && kind m.call) = [⟨i, s, made⟩] := by
  obtain ⟨s, hs⟩ := h.moment ht hm
  have hcalls := h.calls i
  rw [ht] at hcalls
  rw [show t.calls = _ from hcalls, List.countP_map, List.countP_eq_length_filter,
    List.filter_filter] at hone
  have hmem : ⟨i, s, made⟩ ∈ run.filter fun m => m.thread == i && kind m.call :=
    List.mem_filter.mpr ⟨hs, by simp [hk]⟩
  have hlength : (run.filter fun m => m.thread == i && kind m.call).length ≤ 1 := by
    simpa [Bool.and_comm, beq_eq_decide] using hone
  obtain ⟨m, hsingle⟩ := List.length_eq_one_iff.mp
    (Nat.le_antisymm hlength (List.length_pos_of_mem hmem))
  rw [hsingle, List.mem_singleton] at hmem
  exact ⟨s, hmem ▸ hsingle⟩

/-- Every moment is an operation performed on a state of the run. -/
theorem Pool.Run.performed (h : Pool.Run R s₀ run p) : ∀ e ∈ run, ∃ q s',
    Pool.Reachable R s₀ q ∧ q.state = e.before ∧ R.performs e.call.op e.before e.call.answer s' := by
  induction h with
  | init => exact fun e he => absurd he List.not_mem_nil
  | start _ _ ih => exact ih
  | call hrun _ hp ih =>
    intro e he
    rcases List.mem_append.mp he with he | he
    · exact ih e he
    · obtain rfl := List.mem_singleton.mp he
      exact ⟨_, _, hrun.reachable, rfl, hp⟩
  | outside _ _ ih => exact ih

/-- What the threads have counted is what the run has. -/
theorem Pool.Run.total (h : Pool.Run R s₀ run p) (g : Call E → Nat) :
    p.total g = (run.map fun e => g e.call).sum := by
  induction h with
  | init => rfl
  | start _ _ ih =>
    rw [← ih]
    simp [Pool.total, Thread.total]
  | call _ _ _ ih =>
    rw [List.map_append, List.sum_append, ← ih]
    simp only [Pool.total, List.map_append, List.map_cons, List.sum_append, List.sum_cons,
      Thread.total_answered, List.map_nil, List.sum_nil]
    omega
  | outside _ _ ih => exact ih

/-- The moments of a kind, if they are those whose calls count. -/
theorem Pool.Run.total_eq_countP (h : Pool.Run R s₀ run p) {g : Call E → Nat}
    {kind : Moment E σ → Bool} (hkind : ∀ e ∈ run, g e.call = if kind e then 1 else 0) :
    p.total g = run.countP kind := by
  rw [h.total, List.map_congr_left hkind]
  clear h hkind
  induction run with
  | nil => rfl
  | cons e run ih =>
    rw [List.map_cons, List.sum_cons, List.countP_cons, ih, Nat.add_comm]

end Interaction
