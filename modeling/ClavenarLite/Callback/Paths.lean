import ClavenarLite.Callback.Target
import ClavenarLite.Lib.Segments

/-! Which paths a rule of the allowlist covers: those whose segments start with
the segments of the rule's own path. -/

namespace ClavenarLite

open Segments Text

/-- The segments of a path, without the empty ones at its end. -/
def pathSegments (path : String) : List (List Char) := segments '/' path.toList

def Covers (allowed requested : String) : Prop := pathSegments allowed <+: pathSegments requested

/-- A path of a URL starts with a slash. -/
def IsRooted (path : String) : Prop := path.toList.head? = some '/'

theorem toList_normalizePath {path : String} (h : path ≠ "/") :
    (normalizePath path).toList = trunk '/' path.toList := by
  rw [normalizePath, if_neg h, trimEnd, String.toList_ofList, trunk]

theorem trunk_rooted {path : String} (h : IsRooted path) (hne : trunk '/' path.toList ≠ []) :
    ∃ rest, trunk '/' path.toList = '/' :: rest := by
  obtain ⟨c, cs, hc⟩ := List.exists_cons_of_ne_nil hne
  have hprefix : trunk '/' path.toList <+: path.toList := List.rdropWhile_prefix _ _
  rw [hc] at hprefix
  obtain ⟨late, hlate⟩ := hprefix
  rw [IsRooted, ← hlate] at h
  obtain rfl : c = '/' := by simpa using h
  exact ⟨cs, hc⟩

theorem trunk_ne_slash (l : List Char) : trunk '/' l ≠ ['/'] := by
  intro h
  have hne : l.rdropWhile (· == '/') ≠ [] := by
    rw [show l.rdropWhile (· == '/') = ['/'] from h]
    simp
  have hlast := List.rdropWhile_last_not (· == '/') l hne
  simp [show l.rdropWhile (· == '/') = ['/'] from h] at hlast

theorem stripPrefix_eq_some {start s rest : String} :
    stripPrefix start s = some rest ↔ s.toList = start.toList ++ rest.toList := by
  rw [stripPrefix, Option.map_eq_some_iff]
  constructor
  · rintro ⟨cs, hcs, rfl⟩
    obtain ⟨p, hp, hsame⟩ := List.dropPrefix?_eq_some_iff.mp hcs
    rw [hp, eq_of_beq hsame, String.toList_ofList]
  · intro h
    refine ⟨rest.toList, List.dropPrefix?_eq_some_iff.mpr ⟨start.toList, h, beq_self_eq_true _⟩, ?_⟩
    exact String.ofList_toList

theorem pathMatches_iff {allowed requested : String} : pathMatches allowed requested = true ↔
    allowed = "/" ∨ requested = allowed ∨ ∃ w, requested.toList = allowed.toList ++ '/' :: w := by
  have hafter : ((stripPrefix allowed requested).any fun rest => (stripPrefix "/" rest).isSome) =
      true ↔ ∃ w, requested.toList = allowed.toList ++ '/' :: w := by
    rw [Option.any_eq_true]
    constructor
    · rintro ⟨rest, hrest, hslash⟩
      obtain ⟨w, hw⟩ := Option.isSome_iff_exists.mp hslash
      rw [stripPrefix_eq_some] at hrest hw
      exact ⟨w.toList, by rw [hrest, hw]; rfl⟩
    · rintro ⟨w, hw⟩
      refine ⟨String.ofList ('/' :: w), stripPrefix_eq_some.mpr (by rw [hw, String.toList_ofList]), ?_⟩
      refine Option.isSome_iff_exists.mpr ⟨String.ofList w, stripPrefix_eq_some.mpr ?_⟩
      rw [String.toList_ofList]
      simp
  simp only [pathMatches, Bool.or_eq_true, beq_iff_eq, hafter, or_assoc]

/-- The match the code makes, of a rule's path and a target's. -/
def Accepts (allowed requested : String) : Prop :=
  pathMatches (normalizePath allowed) (normalizePath requested) = true

theorem accepts_root {requested : String} : Accepts "/" requested :=
  pathMatches_iff.mpr (Or.inl rfl)

/-- A path that is all slashes covers what a single slash does. -/
theorem accepts_of_trunk_nil {a r : String} (hr : IsRooted r) (h : trunk '/' a.toList = []) :
    Accepts a r := by
  by_cases ha : a = "/"
  · rw [ha]
    exact accepts_root
  · refine pathMatches_iff.mpr (Or.inr ?_)
    have hnil : (normalizePath a).toList = [] := (toList_normalizePath ha).trans h
    rw [hnil]
    by_cases hslash : r = "/"
    · subst hslash
      exact Or.inr ⟨[], rfl⟩
    · by_cases hne : trunk '/' r.toList = []
      · refine Or.inl (String.toList_inj.mp ?_)
        rw [hnil, toList_normalizePath hslash, hne]
      · obtain ⟨rest, hrest⟩ := trunk_rooted hr hne
        exact Or.inr ⟨rest, (toList_normalizePath hslash).trans hrest⟩

theorem accepts_iff_covers {a r : String} (hr : IsRooted r) : Accepts a r ↔ Covers a r := by
  rw [Covers, pathSegments, pathSegments, segments_prefix_iff]
  by_cases hnil : trunk '/' a.toList = []
  · exact iff_of_true (accepts_of_trunk_nil hr hnil) (Or.inl hnil)
  · have ha : a ≠ "/" := fun h => hnil (h ▸ rfl)
    have htrunk := toList_normalizePath ha
    have hroot : normalizePath a ≠ "/" := fun h => trunk_ne_slash a.toList (htrunk ▸ h ▸ rfl)
    rw [Accepts, pathMatches_iff, or_iff_right hroot, or_iff_right hnil, ← String.toList_inj, htrunk]
    by_cases hslash : r = "/"
    · subst hslash
      -- a target without segments, which the code leaves as a slash
      have hone : (normalizePath "/").toList = ['/'] := rfl
      have hnone : trunk '/' "/".toList = [] := rfl
      rw [hone, hnone]
      refine iff_of_false ?_ ?_
      · rintro (h | ⟨w, h⟩)
        · exact trunk_ne_slash a.toList h.symm
        · obtain ⟨c, cs, hc⟩ := List.exists_cons_of_ne_nil hnil
          simp [hc] at h
      · rintro (h | ⟨w, h⟩)
        · exact hnil h.symm
        · simp at h
    · rw [toList_normalizePath hslash]

theorem pathSegments_slash (path : String) : pathSegments (path ++ "/") = pathSegments path := by
  rw [pathSegments, String.toList_append]
  exact segments_concat_sep path.toList

theorem not_covers_extension {a e : String} (ha : a.toList.getLast? ≠ some '/') (hne : a ≠ "")
    (he : e.toList.head? ≠ some '/') (hee : e ≠ "") : ¬ Covers a (a ++ e) := by
  obtain ⟨c, cs, hcs⟩ := List.exists_cons_of_ne_nil fun h => hee (String.toList_inj.mp h)
  have hne' : a.toList ≠ [] := fun h => hne (String.toList_inj.mp h)
  have hsplit := List.dropLast_append_getLast hne'
  rw [Covers, pathSegments, pathSegments, String.toList_append, hcs, ← hsplit]
  refine not_segments_prefix (fun h => ha ?_) (fun h => he ?_)
  · rw [List.getLast?_eq_some_getLast hne', h]
  · rw [hcs, h]
    rfl

/-- Path matching compares segments: it is reflexive and transitive, it does not
see slashes at the end, and it never covers a longer last segment. -/
theorem path_matching {a b r : String} (ha : IsRooted a) (hb : IsRooted b) (hr : IsRooted r) :
    (Accepts a r ↔ Covers a r) ∧ Accepts a a ∧ (Accepts a b → Accepts b r → Accepts a r) ∧
      (Accepts (a ++ "/") r ↔ Accepts a r) ∧ (Accepts a (r ++ "/") ↔ Accepts a r) ∧
      ∀ e : String, e ≠ "" → e.toList.head? ≠ some '/' → a.toList.getLast? ≠ some '/' →
        ¬ Accepts a (a ++ e) := by
  have hrooted : ∀ {s t : String}, IsRooted s → IsRooted (s ++ t) := by
    intro s t hs
    rw [IsRooted, String.toList_append, List.head?_append, show s.toList.head? = some '/' from hs]
    rfl
  refine ⟨accepts_iff_covers hr, ?_, ?_, ?_, ?_, ?_⟩
  · exact (accepts_iff_covers ha).mpr (List.prefix_refl _)
  · rw [accepts_iff_covers hb, accepts_iff_covers hr, accepts_iff_covers hr]
    exact List.IsPrefix.trans
  · rw [accepts_iff_covers hr, accepts_iff_covers hr, Covers, Covers, pathSegments_slash]
  · rw [accepts_iff_covers (hrooted hr), accepts_iff_covers hr, Covers, Covers, pathSegments_slash]
  · intro e hne he hlast
    rw [accepts_iff_covers (hrooted ha)]
    refine not_covers_extension hlast (fun h => ?_) he hne
    rw [h] at ha
    simp [IsRooted] at ha

theorem path_matching_boundary : ¬ Accepts "/hil" "/hil-evil" ∧ Accepts "/hil/" "/hil//result" :=
  ⟨(path_matching (a := "/hil") (b := "/hil") (r := "/hil") rfl rfl rfl).2.2.2.2.2 "-evil"
      (by decide) (by decide) (by decide),
    ((path_matching (a := "/hil/") (b := "/hil/") (r := "/hil//result") rfl rfl rfl).1).mpr
      (by unfold Covers; decide)⟩

end ClavenarLite
