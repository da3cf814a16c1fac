import ClavenarLite.Lib.JsonValue
import Mathlib.Data.List.Perm.Basic
import Mathlib.Data.List.Forall2

/-! Documents up to the order of the members of their objects. Sorting the keys
of a document picks one representative of each class. -/

namespace TextJson

/-- No object of the document repeats a key. -/
inductive Json.KeysDistinct : Json → Prop
  | null : KeysDistinct .null
  | bool (b : Bool) : KeysDistinct (.bool b)
  | num (n : Number) : KeysDistinct (.num n)
  | str (s : String) : KeysDistinct (.str s)
  | arr {xs : List Json} (h : ∀ x ∈ xs, KeysDistinct x) : KeysDistinct (.arr xs)
  | obj {ms : List (String × Json)} (hk : (ms.map Prod.fst).Nodup)
      (hv : ∀ m ∈ ms, KeysDistinct m.2) : KeysDistinct (.obj ms)

structure Document where
  json : Json
  distinct : json.KeysDistinct

/-- The same document, up to a permutation of the members of every object. -/
inductive Json.Permuted : Json → Json → Prop
  | null : Permuted .null .null
  | bool (b : Bool) : Permuted (.bool b) (.bool b)
  | num (n : Number) : Permuted (.num n) (.num n)
  | str (s : String) : Permuted (.str s) (.str s)
  | arr {xs ys : List Json} (hl : xs.length = ys.length)
      (h : ∀ p ∈ xs.zip ys, Permuted p.1 p.2) : Permuted (.arr xs) (.arr ys)
  | obj {ms ks ns : List (String × Json)} (hp : ms.Perm ks)
      (hk : ks.map Prod.fst = ns.map Prod.fst)
      (h : ∀ p ∈ ks.zip ns, Permuted p.1.2 p.2.2) : Permuted (.obj ms) (.obj ns)

section Lists

variable {α β γ : Type*}

theorem map_eq_map_iff_zip {f : α → γ} {g : β → γ} {xs : List α} {ys : List β} :
    xs.map f = ys.map g ↔ xs.length = ys.length ∧ ∀ p ∈ xs.zip ys, f p.1 = g p.2 := by
  induction xs generalizing ys with
  | nil => cases ys <;> simp
  | cons x xs ih =>
    cases ys with
    | nil => simp
    | cons y ys =>
      simp only [List.map_cons, List.cons.injEq, List.length_cons, Nat.add_right_cancel_iff,
        List.zip_cons_cons, List.forall_mem_cons, ih]
      constructor
      · intro h
        exact ⟨h.2.1, h.1, h.2.2⟩
      · intro h
        exact ⟨h.2.1, h.1, h.2.2⟩

/-- A permutation of an image is the image of a permutation. -/
theorem perm_of_perm_map {f : α → β} {l : List α} {l' : List β} (h : (l.map f).Perm l') :
    ∃ k, l.Perm k ∧ k.map f = l' := by
  have hf : List.Forall₂ (fun b a => b = f a) (l.map f) l := by
    rw [List.forall₂_map_left_iff]
    exact List.forall₂_same.mpr fun a _ => rfl
  obtain ⟨k, hk, hp⟩ := List.perm_comp_forall₂ h.symm hf
  refine ⟨k, hp.symm, ?_⟩
  clear hp h hf
  induction hk with
  | nil => rfl
  | cons he _ ih => rw [List.map_cons, ih, he]

end Lists

theorem insertMember_perm {key : String} {value : Json} {ms : List (String × Json)}
    (h : key ∉ ms.map Prod.fst) : (insertMember key value ms).Perm ((key, value) :: ms) := by
  induction ms with
  | nil => exact .refl _
  | cons m ms ih =>
    obtain ⟨k, v⟩ := m
    simp only [List.map_cons, List.mem_cons, not_or] at h
    rw [insertMember]
    by_cases hlt : key < k
    · rw [if_pos hlt]
    · rw [if_neg hlt, if_neg h.1]
      exact ((ih h.2).cons (k, v)).trans (.swap _ _ _)

/-- Collecting members of distinct keys loses none of them. -/
theorem collect_perm {ms : List (String × Json)} (h : (ms.map Prod.fst).Nodup) :
    (collect ms).Perm ms := by
  induction ms using List.reverseRecOn with
  | nil => exact .refl _
  | append_singleton ms m ih =>
    rw [List.map_append, List.nodup_append] at h
    obtain ⟨hms, _, hnew⟩ := h
    have hp := ih hms
    have hm : m.1 ∉ (collect ms).map Prod.fst := by
      intro hmem
      exact hnew m.1 ((hp.map Prod.fst).subset hmem) m.1 (by simp) rfl
    have hlast : collect (ms ++ [m]) = insertMember m.1 m.2 (collect ms) := by
      rw [collect, List.foldl_append]
      rfl
    rw [hlast]
    exact (insertMember_perm hm).trans ((hp.cons m).trans (List.perm_append_singleton m ms).symm)

theorem collect_eq_iff {ms ns : List (String × Json)} (hm : (ms.map Prod.fst).Nodup)
    (hn : (ns.map Prod.fst).Nodup) : collect ms = collect ns ↔ ms.Perm ns := by
  constructor
  · intro h
    exact (collect_perm hm).symm.trans (h ▸ collect_perm hn)
  · intro h
    have hp : (collect ms).Perm (collect ns) :=
      (collect_perm hm).trans (h.trans (collect_perm hn).symm)
    have hsorted : ∀ l, (collect l).Pairwise fun a b => a.1 < b.1 :=
      fun l => List.pairwise_map.mp (keysSorted_collect l)
    exact hp.eq_of_pairwise (fun a b _ _ hab hba => absurd hab (lt_asymm hba)) (hsorted ms)
      (hsorted ns)

def sortValue (m : String × Json) : String × Json := (m.1, sortKeys m.2)

theorem sortElems_eq (xs : List Json) : sortElems xs = xs.map sortKeys := by
  induction xs with
  | nil => rfl
  | cons x xs ih => rw [sortElems, ih, List.map_cons]

theorem sortMembers_eq (ms : List (String × Json)) : sortMembers ms = ms.map sortValue := by
  induction ms with
  | nil => rfl
  | cons m ms ih =>
    obtain ⟨key, value⟩ := m
    rw [sortMembers, ih, List.map_cons]
    rfl

theorem sortMembers_keys (ms : List (String × Json)) :
    (sortMembers ms).map Prod.fst = ms.map Prod.fst := by
  rw [sortMembers_eq, List.map_map]
  rfl

/-- Members of the same sorted values, up to their order. -/
theorem sortKeys_obj_iff {ms ns : List (String × Json)} (hm : (ms.map Prod.fst).Nodup)
    (hn : (ns.map Prod.fst).Nodup) : sortKeys (.obj ms) = sortKeys (.obj ns) ↔
      ∃ ks, ms.Perm ks ∧ ks.map Prod.fst = ns.map Prod.fst ∧
        ∀ p ∈ ks.zip ns, sortKeys p.1.2 = sortKeys p.2.2 := by
  rw [sortKeys, sortKeys, Json.obj.injEq,
    collect_eq_iff (by rwa [sortMembers_keys]) (by rwa [sortMembers_keys]), sortMembers_eq,
    sortMembers_eq]
  constructor
  · intro h
    obtain ⟨ks, hp, hk⟩ := perm_of_perm_map h
    obtain ⟨hl, hz⟩ := map_eq_map_iff_zip.mp hk
    refine ⟨ks, hp, map_eq_map_iff_zip.mpr ⟨hl, ?_⟩, ?_⟩
    · exact fun p hmem => (Prod.mk.inj (hz p hmem)).1
    · exact fun p hmem => (Prod.mk.inj (hz p hmem)).2
  · intro h
    obtain ⟨ks, hp, hk, hv⟩ := h
    obtain ⟨hl, hz⟩ := map_eq_map_iff_zip.mp hk
    have hks : ks.map sortValue = ns.map sortValue :=
      map_eq_map_iff_zip.mpr ⟨hl, fun p hmem => Prod.ext (hz p hmem) (hv p hmem)⟩
    exact hks ▸ hp.map sortValue

theorem Json.Permuted.sortKeys_eq {v w : Json} (h : v.Permuted w) (hv : v.KeysDistinct)
    (hw : w.KeysDistinct) : sortKeys v = sortKeys w := by
  induction h with
  | arr hl _ ih =>
    cases hv with
    | arr hv =>
      cases hw with
      | arr hw =>
        rw [sortKeys, sortKeys, sortElems_eq, sortElems_eq]
        refine congrArg Json.arr (map_eq_map_iff_zip.mpr ⟨hl, fun p hp => ?_⟩)
        obtain ⟨hx, hy⟩ := List.of_mem_zip hp
        exact ih p hp (hv _ hx) (hw _ hy)
  | obj hp hk _ ih =>
    cases hv with
    | obj hkv hv =>
      cases hw with
      | obj hkw hw =>
        refine (sortKeys_obj_iff hkv hkw).mpr ⟨_, hp, hk, fun p hmem => ?_⟩
        obtain ⟨hx, hy⟩ := List.of_mem_zip hmem
        exact ih p hmem (hv _ (hp.mem_iff.mpr hx)) (hw _ hy)
  | _ => rfl

theorem Json.permuted_of_sortKeys {v w : Json} (hv : v.KeysDistinct) (hw : w.KeysDistinct)
    (h : sortKeys v = sortKeys w) : v.Permuted w := by
  induction v using Json.induct generalizing w with
  | arr xs ih =>
    cases hw with
    | @arr ys hw =>
      cases hv with
      | arr hv =>
        rw [sortKeys, sortKeys, sortElems_eq, sortElems_eq, Json.arr.injEq] at h
        obtain ⟨hl, hz⟩ := map_eq_map_iff_zip.mp h
        refine .arr hl fun p hp => ?_
        obtain ⟨hx, hy⟩ := List.of_mem_zip hp
        exact ih _ hx (hv _ hx) (hw _ hy) (hz p hp)
    | _ => exact absurd h (by simp [sortKeys])
  | obj ms ih =>
    cases hw with
    | @obj ns hkw hw =>
      cases hv with
      | obj hkv hv =>
        obtain ⟨ks, hp, hk, hz⟩ := (sortKeys_obj_iff hkv hkw).mp h
        refine .obj hp hk fun p hmem => ?_
        obtain ⟨hx, hy⟩ := List.of_mem_zip hmem
        have hx := hp.mem_iff.mpr hx
        exact ih _ hx (hv _ hx) (hw _ hy) (hz p hmem)
    | _ => exact absurd h (by simp [sortKeys])
  | null =>
    cases hw with
    | null => exact .null
    | _ => exact absurd h (by simp [sortKeys])
  | bool b =>
    cases hw with
    | bool b' => exact Json.bool.inj h ▸ .bool b
    | _ => exact absurd h (by simp [sortKeys])
  | num n =>
    cases hw with
    | num n' => exact Json.num.inj h ▸ .num n
    | _ => exact absurd h (by simp [sortKeys])
  | str s =>
    cases hw with
    | str s' => exact Json.str.inj h ▸ .str s
    | _ => exact absurd h (by simp [sortKeys])

/-- Two documents have the same sorted form if and only if they are the same up
to the order of members. -/
theorem sortKeys_eq_iff (v w : Document) :
    sortKeys v.json = sortKeys w.json ↔ v.json.Permuted w.json :=
  ⟨Json.permuted_of_sortKeys v.distinct w.distinct, fun h => h.sortKeys_eq v.distinct w.distinct⟩

end TextJson
