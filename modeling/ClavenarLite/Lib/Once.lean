import Mathlib.Data.List.Count
import Mathlib.Logic.Function.Basic

/-! Work that is done at most once. A sequential store of keyed work, which a table that many
clients share can be compared with: under a key the work is begun once, and comes to one result
or is lost. -/

namespace Once

variable {K D V : Type}

inductive Stage (V : Type)
  | begun
  | done (v : V)
  | lost

/-- Work that was begun, and under which terms. -/
structure Record (D V : Type) where
  terms : D
  stage : Stage V

abbrev Store (K D V : Type) := K → Option (Record D V)

inductive Answer (V : Type)
  | missing
  | started
  | done (v : V)
  | unknown
  | conflict

inductive Event (K D V : Type)
  | look (k : K) (d : D) (a : Answer V)
  | start (k : K) (d : D) (a : Answer V)
  | finish (k : K) (v : V)
  | lose (k : K)

variable [DecidableEq D]

/-- What the store says to who asks under the terms. -/
def Record.answer (r : Record D V) (d : D) : Answer V :=
  if r.terms = d then
    match r.stage with
    | .done v => .done v
    | .begun | .lost => .unknown
  else .conflict

def Store.answer (s : Store K D V) (k : K) (d : D) : Answer V :=
  (s k).elim .missing fun r => r.answer d

theorem Record.answer_done {r : Record D V} {d : D} {v : V} (h : r.answer d = .done v) :
    r = ⟨d, .done v⟩ := by
  obtain ⟨terms, stage⟩ := r
  unfold Record.answer at h
  split_ifs at h with hd
  obtain rfl : terms = d := hd
  cases stage with
  | begun => simp at h
  | done w => rw [Answer.done.inj h]
  | lost => simp at h

theorem Record.answer_ne_started (r : Record D V) (d : D) : r.answer d ≠ .started := by
  unfold Record.answer
  split_ifs
  · cases r.stage <;> simp
  · simp

theorem Store.answer_done {s : Store K D V} {k : K} {d : D} {v : V} (h : s.answer k d = .done v) :
    s k = some ⟨d, .done v⟩ := by
  unfold Store.answer at h
  cases hk : s k with
  | none => simp [hk] at h
  | some r =>
    rw [hk, Option.elim_some] at h
    rw [Record.answer_done h]

theorem Store.answer_ne_started (s : Store K D V) (k : K) (d : D) : s.answer k d ≠ .started := by
  unfold Store.answer
  cases s k with
  | none => simp
  | some r => exact r.answer_ne_started d

variable [DecidableEq K]

inductive Step : Store K D V → Event K D V → Store K D V → Prop
  | look (s : Store K D V) (k : K) (d : D) : Step s (.look k d (s.answer k d)) s
  | start {s : Store K D V} {k : K} (d : D) (h : s k = none) :
      Step s (.start k d .started) (Function.update s k (some ⟨d, .begun⟩))
  | known {s : Store K D V} {k : K} (d : D) (h : s k ≠ none) : Step s (.start k d (s.answer k d)) s
  | finish {s : Store K D V} {k : K} {d : D} (v : V) (h : s k = some ⟨d, .begun⟩) :
      Step s (.finish k v) (Function.update s k (some ⟨d, .done v⟩))
  | lose {s : Store K D V} {k : K} {d : D} (h : s k = some ⟨d, .begun⟩) :
      Step s (.lose k) (Function.update s k (some ⟨d, .lost⟩))

inductive Run (s : Store K D V) : List (Event K D V) → Store K D V → Prop
  | nil : Run s [] s
  | snoc {log : List (Event K D V)} {e : Event K D V} {s' s'' : Store K D V} (h : Run s log s')
      (hs : Step s' e s'') : Run s (log ++ [e]) s''

theorem Run.append {s s' s'' : Store K D V} {log late : List (Event K D V)} (h : Run s log s')
    (h' : Run s' late s'') : Run s (log ++ late) s'' := by
  induction h' with
  | nil => rwa [List.append_nil]
  | snoc _ hs ih =>
    rw [← List.append_assoc]
    exact ih.snoc hs

section Step

variable {s s' : Store K D V} {e : Event K D V} {k : K} {r : Record D V} {v : V}

omit [DecidableEq D] in
theorem update_ne_none {k' : K} (hk : s k ≠ none) : Function.update s k' (some r) k ≠ none := by
  rw [Function.update_apply]
  split_ifs
  · simp
  · exact hk

/-- A key that is taken stays taken. -/
theorem Step.taken (h : Step s e s') (hk : s k ≠ none) : s' k ≠ none := by
  cases h with
  | look => exact hk
  | known => exact hk
  | start d hnone => exact update_ne_none hk
  | finish v hbegun => exact update_ne_none hk
  | lose hbegun => exact update_ne_none hk

/-- What is done stays as it is. -/
theorem Step.settled (h : Step s e s') (hk : s k = some r) (hr : r.stage = .done v) :
    s' k = some r := by
  have hne : ∀ {k' d}, s k' = some ⟨d, .begun⟩ → k ≠ k' := by
    rintro k' d hbegun rfl
    rw [hbegun] at hk
    rw [← Option.some.inj hk] at hr
    cases hr
  cases h with
  | look => exact hk
  | known => exact hk
  | start d hnone =>
    rw [Function.update_of_ne]
    · exact hk
    · rintro rfl
      simp [hnone] at hk
  | finish v hbegun => rwa [Function.update_of_ne (hne hbegun)]
  | lose hbegun => rwa [Function.update_of_ne (hne hbegun)]

end Step

/-- The event names the result of the work. -/
def Event.Reports (k : K) (v : V) : Event K D V → Prop
  | .look k' _ a => k' = k ∧ a = .done v
  | .start k' _ a => k' = k ∧ a = .done v
  | .finish k' w => k' = k ∧ w = v
  | .lose _ => False

theorem Step.reports {s s' : Store K D V} {e : Event K D V} {k : K} {v : V} (h : Step s e s')
    (hr : e.Reports k v) : ∃ r, s' k = some r ∧ r.stage = .done v := by
  cases h with
  | look k d =>
    obtain ⟨rfl, ha⟩ := hr
    exact ⟨_, Store.answer_done ha, rfl⟩
  | start d hnone => exact absurd hr.2 (by simp)
  | known d hk =>
    obtain ⟨rfl, ha⟩ := hr
    exact ⟨_, Store.answer_done ha, rfl⟩
  | finish v' hbegun =>
    obtain ⟨rfl, rfl⟩ := hr
    exact ⟨_, Function.update_self _ _ _, rfl⟩
  | lose hbegun => exact hr.elim

/-- What any event reported is what the store holds in the end. -/
theorem Run.reported {s s' : Store K D V} {log : List (Event K D V)} (h : Run s log s')
    {e : Event K D V} {k : K} {v : V} (he : e ∈ log) (hr : e.Reports k v) :
    ∃ r, s' k = some r ∧ r.stage = .done v := by
  induction h with
  | nil => exact absurd he List.not_mem_nil
  | snoc _ hs ih =>
    rcases List.mem_append.mp he with he | he
    · obtain ⟨r, hk, hstage⟩ := ih he
      exact ⟨r, hs.settled hk hstage, hstage⟩
    · obtain rfl := List.mem_singleton.mp he
      exact hs.reports hr

/-- All reports of one key agree. -/
theorem Run.reports_agree {s s' : Store K D V} {log : List (Event K D V)} (h : Run s log s')
    {e e' : Event K D V} {k : K} {v v' : V} (he : e ∈ log) (he' : e' ∈ log) (hr : e.Reports k v)
    (hr' : e'.Reports k v') : v = v' := by
  obtain ⟨r, hk, hstage⟩ := h.reported he hr
  obtain ⟨r', hk', hstage'⟩ := h.reported he' hr'
  obtain rfl := Option.some.inj (hk.symm.trans hk')
  exact Stage.done.inj (hstage.symm.trans hstage')

/-- What is done was finished, or done before. -/
theorem Run.finished {s s' : Store K D V} {log : List (Event K D V)} (h : Run s log s') {k : K}
    {r : Record D V} {v : V} (hk : s' k = some r) (hr : r.stage = .done v) :
    .finish k v ∈ log ∨ s k = some r := by
  induction h generalizing r with
  | nil => exact Or.inr hk
  | @snoc log e s' s'' _ hs ih =>
    have hearlier : s' k = some r → .finish k v ∈ log ++ [e] ∨ s k = some r := fun hk' =>
      (ih hk' hr).imp_left (List.mem_append_left _)
    cases hs with
    | look => exact hearlier hk
    | known => exact hearlier hk
    | @start k' d hnone =>
      by_cases he : k = k'
      · rw [he, Function.update_self] at hk
        rw [← Option.some.inj hk] at hr
        cases hr
      · exact hearlier (by rwa [Function.update_of_ne he] at hk)
    | @finish k' d w hbegun =>
      by_cases he : k = k'
      · rw [he, Function.update_self] at hk
        rw [← Option.some.inj hk] at hr
        obtain rfl := Stage.done.inj hr
        exact Or.inl (by simp [he])
      · exact hearlier (by rwa [Function.update_of_ne he] at hk)
    | @lose k' d hbegun =>
      by_cases he : k = k'
      · rw [he, Function.update_self] at hk
        rw [← Option.some.inj hk] at hr
        cases hr
      · exact hearlier (by rwa [Function.update_of_ne he] at hk)

/-- The event holds the terms of the work: it began under them, or its result was given to who
asked under them. -/
def Event.Meets (k : K) (d : D) : Event K D V → Prop
  | .look k' d' a => k' = k ∧ d' = d ∧ ∃ v, a = .done v
  | .start k' d' a => k' = k ∧ d' = d ∧ (a = .started ∨ ∃ v, a = .done v)
  | .finish _ _ | .lose _ => False

theorem Step.terms {s s' : Store K D V} {e : Event K D V} {k : K} {r : Record D V}
    (h : Step s e s') (hk : s k = some r) : ∃ r', s' k = some r' ∧ r'.terms = r.terms := by
  have hupdate : ∀ {k' d} (stage : Stage V), s k' = some ⟨d, .begun⟩ →
      ∃ r', Function.update s k' (some ⟨d, stage⟩) k = some r' ∧ r'.terms = r.terms := by
    intro k' d stage hbegun
    rw [Function.update_apply]
    split_ifs with he
    · rw [he, hbegun] at hk
      rw [← Option.some.inj hk]
      exact ⟨_, rfl, rfl⟩
    · exact ⟨r, hk, rfl⟩
  cases h with
  | look => exact ⟨r, hk, rfl⟩
  | known => exact ⟨r, hk, rfl⟩
  | start d hnone =>
    rw [Function.update_apply]
    split_ifs with he
    · rw [he, hnone] at hk
      exact absurd hk (by simp)
    · exact ⟨r, hk, rfl⟩
  | finish v hbegun => exact hupdate _ hbegun
  | lose hbegun => exact hupdate _ hbegun

theorem Step.meets {s s' : Store K D V} {e : Event K D V} {k : K} {d : D} (h : Step s e s')
    (hm : e.Meets k d) : ∃ r, s' k = some r ∧ r.terms = d := by
  cases h with
  | look k' d' =>
    obtain ⟨rfl, rfl, v, ha⟩ := hm
    exact ⟨_, Store.answer_done ha, rfl⟩
  | start d' hnone =>
    obtain ⟨rfl, rfl, _⟩ := hm
    exact ⟨_, Function.update_self _ _ _, rfl⟩
  | @known k' d' hk =>
    obtain ⟨rfl, rfl, ha | ⟨v, ha⟩⟩ := hm
    · exact absurd ha (s.answer_ne_started k' d')
    · exact ⟨_, Store.answer_done ha, rfl⟩
  | finish v hbegun => exact hm.elim
  | lose hbegun => exact hm.elim

theorem Run.meets {s s' : Store K D V} {log : List (Event K D V)} (h : Run s log s')
    {e : Event K D V} {k : K} {d : D} (he : e ∈ log) (hm : e.Meets k d) :
    ∃ r, s' k = some r ∧ r.terms = d := by
  induction h with
  | nil => exact absurd he List.not_mem_nil
  | snoc _ hs ih =>
    rcases List.mem_append.mp he with he | he
    · obtain ⟨r, hk, hr⟩ := ih he
      obtain ⟨r', hk', hr'⟩ := hs.terms hk
      exact ⟨r', hk', hr'.trans hr⟩
    · obtain rfl := List.mem_singleton.mp he
      exact hs.meets hm

/-- Work is begun under the terms that its result is given to. -/
theorem Run.terms_agree {s s' : Store K D V} {log : List (Event K D V)} (h : Run s log s')
    {e e' : Event K D V} {k : K} {d d' : D} (he : e ∈ log) (he' : e' ∈ log) (hm : e.Meets k d)
    (hm' : e'.Meets k d') : d = d' := by
  obtain ⟨r, hk, rfl⟩ := h.meets he hm
  obtain ⟨r', hk', rfl⟩ := h.meets he' hm'
  rw [Option.some.inj (hk.symm.trans hk')]

def Event.isStart (k : K) : Event K D V → Bool
  | .start k' _ .started => k' = k
  | _ => false

theorem Step.starts {s s' : Store K D V} {e : Event K D V} {k : K} (h : Step s e s')
    (he : e.isStart k = true) : s k = none ∧ s' k ≠ none := by
  cases h with
  | @start k' d hnone =>
    obtain rfl : k' = k := by simpa [Event.isStart] using he
    exact ⟨hnone, by simp⟩
  | @known k' d hk =>
    cases ha : s.answer k' d with
    | started => exact absurd ha (s.answer_ne_started k' d)
    | _ => simp [Event.isStart, ha] at he
  | _ => simp [Event.isStart] at he

/-- Work is begun once, if it had not been begun before. -/
theorem Run.started_once {s s' : Store K D V} {log : List (Event K D V)} (h : Run s log s') (k : K) :
    log.countP (Event.isStart k) ≤ 1 ∧ (log.countP (Event.isStart k) = 1 → s' k ≠ none) := by
  induction h with
  | nil => simp
  | @snoc log e s' s'' _ hs ih =>
    rw [List.countP_append, List.countP_singleton]
    by_cases he : e.isStart k = true
    · obtain ⟨hnone, hsome⟩ := hs.starts he
      have hzero : log.countP (Event.isStart k) = 0 := by
        rcases Nat.le_one_iff_eq_zero_or_eq_one.mp ih.1 with hz | hone
        · exact hz
        · exact absurd hnone (ih.2 hone)
      rw [hzero, if_pos he]
      exact ⟨Nat.le_refl 1, fun _ => hsome⟩
    · rw [if_neg he, Nat.add_zero]
      exact ⟨ih.1, fun hone => hs.taken (ih.2 hone)⟩

end Once
