import Mathlib.Data.List.DropRight
import Mathlib.Data.List.Infix
import Mathlib.Data.List.Induction

/-! Sequences cut into segments by a separator, with trailing empty segments
left out, and when the segments of one are the first segments of another. -/

namespace Segments

variable {α : Type}

theorem intercalate_append {sep : α} {xs ys : List (List α)} (hx : xs ≠ []) (hy : ys ≠ []) :
    [sep].intercalate (xs ++ ys) = [sep].intercalate xs ++ sep :: [sep].intercalate ys := by
  induction xs with
  | nil => exact absurd rfl hx
  | cons x xs ih =>
    by_cases hxs : xs = []
    · subst hxs
      obtain ⟨y, ys, rfl⟩ := List.exists_cons_of_ne_nil hy
      simp [List.intercalate_cons_cons]
    · obtain ⟨z, zs, rfl⟩ := List.exists_cons_of_ne_nil hxs
      have hstep := ih (List.cons_ne_nil z zs)
      simp only [List.cons_append, List.intercalate_cons_cons, List.append_assoc] at hstep ⊢
      rw [hstep]

variable [DecidableEq α] (sep : α)

/-- The sequence without the separators at its end. -/
def trunk (l : List α) : List α := l.rdropWhile (· == sep)

def segments (l : List α) : List (List α) := (l.splitOn sep).rdropWhile List.isEmpty

variable {sep}

theorem trunk_concat_sep (l : List α) : trunk sep (l ++ [sep]) = trunk sep l :=
  List.rdropWhile_concat_pos _ _ _ (by simp)

theorem trunk_concat {l : List α} {x : α} (h : x ≠ sep) : trunk sep (l ++ [x]) = l ++ [x] :=
  List.rdropWhile_concat_neg _ _ _ (by simpa using h)

/-- A sequence that does not end in a separator has a last segment. -/
theorem splitOn_concat {xs : List α} {x : α} (h : x ≠ sep) {init : List (List α)} :
    (xs ++ [x]).splitOn sep ≠ init ++ [[]] := by
  intro he
  have hl : [sep].intercalate ((xs ++ [x]).splitOn sep) = xs ++ [x] := List.intercalate_splitOn sep
  rw [he] at hl
  by_cases hinit : init = []
  · subst hinit
    simp at hl
  · rw [intercalate_append hinit (List.cons_ne_nil _ _), List.intercalate_singleton] at hl
    exact h (List.singleton_inj.mp (List.append_inj_right' hl rfl)).symm

theorem segments_eq (l : List α) :
    segments sep l = if trunk sep l = [] then [] else (trunk sep l).splitOn sep := by
  induction l using List.reverseRecOn with
  | nil => simp [segments, trunk, List.splitOn_nil]
  | append_singleton xs x ih =>
    by_cases hx : x = sep
    · subst hx
      have hsegments : segments x (xs ++ [x]) = segments x xs := by
        rw [segments, List.splitOn_append_cons_self, List.splitOn_nil]
        exact List.rdropWhile_concat_pos _ _ _ rfl
      rw [hsegments, trunk_concat_sep, ih]
    · rw [trunk_concat hx, if_neg (by simp), segments, List.rdropWhile_eq_self_iff]
      intro hne hlast
      have hnil : ((xs ++ [x]).splitOn sep).getLast hne = [] := List.isEmpty_iff.mp hlast
      have hsplit := List.dropLast_append_getLast hne
      rw [hnil] at hsplit
      exact splitOn_concat hx hsplit.symm

theorem splitOn_prefix_iff {t u : List α} :
    t.splitOn sep <+: u.splitOn sep ↔ u = t ∨ ∃ w, u = t ++ sep :: w := by
  constructor
  · rintro ⟨rest, h⟩
    have hu : [sep].intercalate (u.splitOn sep) = u := List.intercalate_splitOn sep
    rw [← h] at hu
    by_cases hrest : rest = []
    · subst hrest
      rw [List.append_nil, List.intercalate_splitOn] at hu
      exact Or.inl hu.symm
    · rw [intercalate_append (List.splitOn_ne_nil _ _) hrest, List.intercalate_splitOn] at hu
      exact Or.inr ⟨_, hu.symm⟩
  · rintro (rfl | ⟨w, rfl⟩)
    · exact List.prefix_refl _
    · rw [List.splitOn_append_cons_self]
      exact List.prefix_append _ _

/-- The segments of one sequence start those of another exactly if the other
goes on at a separator. -/
theorem segments_prefix_iff {a r : List α} : segments sep a <+: segments sep r ↔
    trunk sep a = [] ∨ trunk sep r = trunk sep a ∨ ∃ w, trunk sep r = trunk sep a ++ sep :: w := by
  rw [segments_eq, segments_eq]
  by_cases ha : trunk sep a = []
  · simp [ha]
  · rw [if_neg ha]
    by_cases hr : trunk sep r = []
    · rw [if_pos hr, hr]
      refine iff_of_false (fun h => List.splitOn_ne_nil _ _ (List.prefix_nil.mp h)) ?_
      rintro (h | h | ⟨w, h⟩)
      · exact ha h
      · exact ha h.symm
      · simp at h
    · rw [if_neg hr, splitOn_prefix_iff]
      exact (or_iff_right ha).symm

theorem segments_concat_sep (l : List α) : segments sep (l ++ [sep]) = segments sep l := by
  rw [segments_eq, segments_eq, trunk_concat_sep]

/-- A sequence that only extends the last segment does not start with the
segments. -/
theorem not_segments_prefix {a : List α} {x e : α} {rest : List α} (hx : x ≠ sep) (he : e ≠ sep) :
    ¬ segments sep (a ++ [x]) <+: segments sep (a ++ [x] ++ e :: rest) := by
  rw [segments_prefix_iff, trunk_concat hx]
  have htrunk : ∃ more, trunk sep (a ++ [x] ++ e :: rest) = a ++ [x] ++ e :: more := by
    induction rest using List.reverseRecOn with
    | nil => exact ⟨[], trunk_concat he⟩
    | append_singleton rest y ih =>
      have hassoc : a ++ [x] ++ e :: (rest ++ [y]) = a ++ [x] ++ e :: rest ++ [y] := by simp
      rw [hassoc]
      by_cases hy : y = sep
      · subst hy
        rw [trunk_concat_sep]
        exact ih
      · exact ⟨rest ++ [y], by rw [trunk_concat hy]; simp⟩
  obtain ⟨more, hmore⟩ := htrunk
  rw [hmore]
  rintro (h | h | ⟨w, h⟩)
  · simp at h
  · simp at h
  · exact he (List.cons.inj (List.append_cancel_left h)).1

end Segments
