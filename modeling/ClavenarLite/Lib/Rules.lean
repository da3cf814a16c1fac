import ClavenarLite.Lib.Fallible
import Mathlib.Data.List.ReduceOption

/-! Policies that are written as rules. A rule gives a value, does not apply, or meets an
error, and a set of rules gives what its members give. -/

namespace Rules

open Fallible

variable {ι ε α : Type}

abbrev Rule (ι ε α : Type) := ι → Except ε (Option α)

/-- The value, where the condition holds. -/
def given (p : ι → Prop) [DecidablePred p] (value : ι → α) : Rule ι ε α :=
  fun i => .ok (if p i then some (value i) else none)

def fired (rules : List (Rule ι ε α)) (i : ι) : Except ε (List α) :=
  (rules.mapM fun rule : Rule ι ε α => rule i).map List.reduceOption

theorem given_some {p : ι → Prop} [DecidablePred p] {value : ι → α} {i : ι} {a : α} :
    (given p value : Rule ι ε α) i = .ok (some a) ↔ p i ∧ value i = a := by
  by_cases h : p i
  · simp [given, h]
  · simp [given, h]

section Fired

variable {rules : List (Rule ι ε α)} {i : ι} {values : List α}

theorem fired_ok (h : fired rules i = .ok values) : ∃ found,
    (rules.mapM fun rule : Rule ι ε α => rule i) = .ok found ∧ values = found.reduceOption := by
  unfold fired at h
  cases hm : rules.mapM fun rule : Rule ι ε α => rule i with
  | error e => exact absurd h (by simp [hm, Except.map])
  | ok found =>
    rw [hm] at h
    exact ⟨found, rfl, (Except.ok.inj h).symm⟩

/-- The values are those that some rule gives. -/
theorem mem_fired (h : fired rules i = .ok values) {a : α} :
    a ∈ values ↔ ∃ rule ∈ rules, rule i = .ok (some a) := by
  obtain ⟨found, hm, rfl⟩ := fired_ok h
  rw [List.reduceOption_mem_iff]
  constructor
  · intro ha
    obtain ⟨rule, hrule, hgiven⟩ := mapM_mem hm _ ha
    exact ⟨rule, hrule, hgiven⟩
  · rintro ⟨rule, hrule, hgiven⟩
    obtain ⟨v, hv, hgot⟩ := mapM_ok hm rule hrule
    obtain rfl := Except.ok.inj (hgiven.symm.trans hgot)
    exact hv

theorem fired_eq_nil (h : fired rules i = .ok values) :
    values = [] ↔ ∀ rule ∈ rules, ∀ a, rule i ≠ .ok (some a) := by
  rw [List.eq_nil_iff_forall_not_mem]
  constructor
  · intro hnone rule hrule a hgiven
    exact hnone a ((mem_fired h).mpr ⟨rule, hrule, hgiven⟩)
  · intro hnone a ha
    obtain ⟨rule, hrule, hgiven⟩ := (mem_fired h).mp ha
    exact hnone rule hrule a hgiven

/-- Rules that meet no error have values together. -/
theorem fired_of_ok (h : ∀ rule ∈ rules, ∃ found, rule i = .ok found) :
    ∃ values, fired rules i = .ok values := by
  have hall : ∃ founds, (rules.mapM fun rule : Rule ι ε α => rule i) = .ok founds := by
    induction rules with
    | nil => exact ⟨[], rfl⟩
    | cons rule rules ih =>
      obtain ⟨found, hfound⟩ := h rule List.mem_cons_self
      obtain ⟨founds, hfounds⟩ := ih fun r hr => h r (List.mem_cons_of_mem _ hr)
      exact ⟨found :: founds, by rw [List.mapM_cons, hfound, ok_bind, hfounds]; rfl⟩
  obtain ⟨founds, hfounds⟩ := hall
  exact ⟨founds.reduceOption, by rw [fired, hfounds]; rfl⟩

end Fired

end Rules
