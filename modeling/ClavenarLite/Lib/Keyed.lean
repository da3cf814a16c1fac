import Mathlib.Data.List.AList
import Mathlib.Tactic

/-! Machines whose inputs carry a key and touch one cell of the state. What
a key is answered over a run is what its cell alone would answer. -/

namespace Keyed

universe u v w

variable {ι S κ σ ω : Type*}

/-- The answers to a list of inputs, each beside its input. -/
def outcomes (f : ι → S → ω × S) : S → List ι → List (ι × ω)
  | _, [] => []
  | s, i :: is => (i, (f i s).1) :: outcomes f (f i s).2 is

def final (f : ι → S → ω × S) (s : S) (is : List ι) : S :=
  is.foldl (fun s i => (f i s).2) s

@[simp] theorem outcomes_nil (f : ι → S → ω × S) (s : S) : outcomes f s [] = [] := rfl

@[simp] theorem final_nil (f : ι → S → ω × S) (s : S) : final f s [] = s := rfl

@[simp] theorem final_cons (f : ι → S → ω × S) (s : S) (i : ι) (is : List ι) :
    final f s (i :: is) = final f (f i s).2 is := rfl

theorem final_append (f : ι → S → ω × S) (s : S) (is js : List ι) :
    final f s (is ++ js) = final f (final f s is) js := List.foldl_append

/-- Under `Inv`, `f` is `cell` on the cell of the input's key, and leaves the
other cells alone. -/
structure Local (key : ι → κ) (cell : ι → σ → ω × σ) (view : S → κ → σ) (Inv : S → Prop)
    (f : ι → S → ω × S) : Prop where
  inv : ∀ i s, Inv s → Inv (f i s).2
  answer : ∀ i s, Inv s → (f i s).1 = (cell i (view s (key i))).1
  self : ∀ i s, Inv s → view (f i s).2 (key i) = (cell i (view s (key i))).2
  other : ∀ i s k, Inv s → k ≠ key i → view (f i s).2 k = view s k

variable {key : ι → κ} {cell : ι → σ → ω × σ} {view : S → κ → σ}
  {Inv : S → Prop} {f : ι → S → ω × S}

theorem Local.final_inv (h : Local key cell view Inv f) (is : List ι) {s : S} (hs : Inv s) :
    Inv (final f s is) := by
  induction is generalizing s with
  | nil => exact hs
  | cons i is ih => exact ih (h.inv i s hs)

variable [DecidableEq κ]

theorem Local.outcomes_of_key (h : Local key cell view Inv f) (k : κ) (is : List ι) {s : S}
    (hs : Inv s) :
    (outcomes f s is).filter (fun p => key p.1 = k) =
      outcomes cell (view s k) (is.filter fun i => key i = k) := by
  induction is generalizing s with
  | nil => rfl
  | cons i is ih =>
    have hrest := ih (h.inv i s hs)
    by_cases hk : key i = k
    · have hself := h.self i s hs
      rw [hk] at hself
      rw [List.filter_cons_of_pos (by simpa using hk)]
      simp only [outcomes]
      rw [List.filter_cons_of_pos (by simpa using hk), hrest, hself, h.answer i s hs, hk]
    · rw [List.filter_cons_of_neg (by simpa using hk)]
      simp only [outcomes]
      rw [List.filter_cons_of_neg (by simpa using hk), hrest, h.other i s k hs (Ne.symm hk)]

theorem outcomes_inputs (f : ι → S → ω × S) (s : S) (is : List ι) :
    (outcomes f s is).map Prod.fst = is := by
  induction is generalizing s with
  | nil => rfl
  | cons i is ih => rw [outcomes, List.map_cons, ih]

omit [DecidableEq κ] in
/-- An outcome is the answer to its input after the inputs before it. -/
theorem outcomes_split {f : ι → S → ω × S} {s : S} {is : List ι} {before after : List (ι × ω)}
    {p : ι × ω} (h : outcomes f s is = before ++ p :: after) : ∃ js ks, is = js ++ p.1 :: ks ∧
      before = outcomes f s js ∧ p.2 = (f p.1 (final f s js)).1 := by
  induction is generalizing s before with
  | nil => exact absurd h (by simp)
  | cons i is ih =>
    cases before with
    | nil =>
      obtain ⟨rfl, -⟩ := List.cons.inj h
      exact ⟨[], is, rfl, rfl, rfl⟩
    | cons q before =>
      obtain ⟨rfl, hrest⟩ := List.cons.inj h
      obtain ⟨js, ks, rfl, rfl, hp⟩ := ih hrest
      exact ⟨i :: js, ks, rfl, rfl, hp⟩

theorem Local.outcomes_alone (h : Local key cell view Inv f) {k : κ} {is : List ι}
    (hk : ∀ i ∈ is, key i = k) {s : S} (hs : Inv s) :
    outcomes f s is = outcomes cell (view s k) is := by
  have hall : is.filter (fun i => key i = k) = is :=
    List.filter_eq_self.mpr fun i hi => by simpa using hk i hi
  have hkept : (outcomes f s is).filter (fun p => key p.1 = k) = outcomes f s is := by
    refine List.filter_eq_self.mpr fun p hp => ?_
    have hin : p.1 ∈ (outcomes f s is).map Prod.fst := List.mem_map_of_mem hp
    rw [outcomes_inputs] at hin
    simpa using hk p.1 hin
  rw [← hkept, h.outcomes_of_key k is hs, hall]

theorem Local.final_of_key (h : Local key cell view Inv f) (k : κ) (is : List ι) {s : S}
    (hs : Inv s) :
    view (final f s is) k = final cell (view s k) (is.filter fun i => key i = k) := by
  induction is generalizing s with
  | nil => rfl
  | cons i is ih =>
    have hrest := ih (h.inv i s hs)
    rw [final_cons]
    by_cases hk : key i = k
    · have hself := h.self i s hs
      rw [hk] at hself
      rw [List.filter_cons_of_pos (by simpa using hk), final_cons, hrest, hself]
    · rw [List.filter_cons_of_neg (by simpa using hk), hrest, h.other i s k hs (Ne.symm hk)]

variable {α : Type u} {β : α → Type v} [DecidableEq α]

def retain (keep : ∀ a, β a → Bool) (m : AList β) : AList β where
  entries := m.entries.filter fun e => keep e.1 e.2
  nodupKeys := (List.filter_sublist.map Sigma.fst).nodup m.nodupKeys

theorem retain_all {keep : ∀ a, β a → Bool} {m : AList β}
    (h : ∀ a, ∀ b ∈ m.lookup a, keep a b = true) : retain keep m = m := by
  apply AList.ext
  refine List.filter_eq_self.mpr ?_
  rintro ⟨a, b⟩ he
  exact h a b (AList.mem_lookup_iff.mpr he)

def keepEntry (f : ∀ a, β a → Option (β a)) (e : Sigma β) : Option (Sigma β) :=
  (f e.1 e.2).map (Sigma.mk e.1)

omit [DecidableEq α] in
theorem keepEntry_keys_sublist (f : ∀ a, β a → Option (β a)) (l : List (Sigma β)) :
    ((l.filterMap (keepEntry f)).map Sigma.fst).Sublist (l.map Sigma.fst) := by
  induction l with
  | nil => exact List.Sublist.slnil
  | cons e l ih =>
    cases hf : f e.1 e.2 with
    | none =>
      rw [List.filterMap_cons_none (by rw [keepEntry, hf]; rfl), List.map_cons]
      exact ih.cons e.1
    | some b =>
      rw [List.filterMap_cons_some (by rw [keepEntry, hf]; rfl), List.map_cons, List.map_cons]
      exact ih.cons_cons e.1

/-- Change or drop every value. -/
def retainMap (f : ∀ a, β a → Option (β a)) (m : AList β) : AList β where
  entries := m.entries.filterMap (keepEntry f)
  nodupKeys := (keepEntry_keys_sublist f m.entries).nodup m.nodupKeys

theorem lookup_retainMap (f : ∀ a, β a → Option (β a)) (m : AList β) (a : α) :
    (retainMap f m).lookup a = (m.lookup a).bind (f a) := by
  apply Option.ext
  intro b
  have hentry : (⟨a, b⟩ : Sigma β) ∈ (retainMap f m).entries ↔
      ∃ c, ⟨a, c⟩ ∈ m.entries ∧ f a c = some b := by
    simp only [retainMap, keepEntry, List.mem_filterMap, Option.map_eq_some_iff]
    constructor
    · rintro ⟨⟨a', c⟩, hm, b', hf, he⟩
      obtain ⟨rfl, hb⟩ := Sigma.mk.inj he
      obtain rfl := eq_of_heq hb
      exact ⟨c, hm, hf⟩
    · rintro ⟨c, hm, hf⟩
      exact ⟨⟨a, c⟩, hm, b, hf, rfl⟩
  calc (retainMap f m).lookup a = some b
      ↔ ⟨a, b⟩ ∈ (retainMap f m).entries := AList.mem_lookup_iff
    _ ↔ ∃ c, ⟨a, c⟩ ∈ m.entries ∧ f a c = some b := hentry
    _ ↔ ∃ c, m.lookup a = some c ∧ f a c = some b :=
      exists_congr fun c => and_congr_left' AList.mem_lookup_iff.symm
    _ ↔ (m.lookup a).bind (f a) = some b := Option.bind_eq_some_iff.symm

variable {γ : Type v}

/-- The store after inserting the pairs in order: the last value of a key stays. -/
def fromEntries (l : List (α × γ)) : AList fun _ : α => γ :=
  l.foldl (fun m e => m.insert e.1 e.2) ∅

theorem lookup_foldl_insert (l : List (α × γ)) (m : AList fun _ : α => γ) {a : α}
    (h : a ∉ l.map Prod.fst) : (l.foldl (fun m e => m.insert e.1 e.2) m).lookup a = m.lookup a := by
  induction l generalizing m with
  | nil => rfl
  | cons e l ih =>
    simp only [List.map_cons, List.mem_cons, not_or] at h
    rw [List.foldl_cons, ih _ h.2]
    exact AList.lookup_insert_ne h.1

theorem lookup_foldl_insert_mem {l : List (α × γ)} (hn : (l.map Prod.fst).Nodup)
    (m : AList fun _ : α => γ) {a : α} {c : γ} (h : (a, c) ∈ l) :
    (l.foldl (fun m e => m.insert e.1 e.2) m).lookup a = some c := by
  induction l generalizing m with
  | nil => exact absurd h List.not_mem_nil
  | cons e l ih =>
    obtain ⟨hnot, hn⟩ := List.nodup_cons.mp hn
    rcases List.mem_cons.mp h with rfl | h
    · rw [List.foldl_cons, lookup_foldl_insert l _ hnot]
      exact AList.lookup_insert _
    · exact ih hn _ h

theorem lookup_fromEntries {l : List (α × γ)} (hn : (l.map Prod.fst).Nodup) (a : α) (c : γ) :
    (fromEntries l).lookup a = some c ↔ (a, c) ∈ l := by
  constructor
  · intro h
    by_cases ha : a ∈ l.map Prod.fst
    · obtain ⟨⟨b, d⟩, hm, rfl⟩ := List.mem_map.mp ha
      have hd := lookup_foldl_insert_mem hn ∅ hm
      obtain rfl := Option.some.inj (hd.symm.trans h)
      exact hm
    · rw [fromEntries, lookup_foldl_insert l ∅ ha] at h
      exact absurd h (by simp)
  · exact lookup_foldl_insert_mem hn ∅

/-- Stores filled from lists that repeat no key agree exactly when the lists do. -/
theorem lookup_fromEntries_perm {l l' : List (α × γ)} (hn : (l.map Prod.fst).Nodup)
    (hn' : (l'.map Prod.fst).Nodup) :
    (∀ a, (fromEntries l).lookup a = (fromEntries l').lookup a) ↔ l.Perm l' := by
  rw [List.perm_ext_iff_of_nodup hn.of_map hn'.of_map]
  constructor
  · rintro h ⟨a, c⟩
    rw [← lookup_fromEntries hn, ← lookup_fromEntries hn', h]
  · intro h a
    apply Option.ext
    intro c
    rw [lookup_fromEntries hn, lookup_fromEntries hn', h]

/-- Rows of one key are counted at most once. -/
theorem countP_key_le_one {α β : Type*} {row : α → β} {l : List α} (h : (l.map row).Nodup) (k : β)
    {p : α → Bool} (hp : ∀ r, p r = true → row r = k) : l.countP p ≤ 1 := by
  rw [List.countP_eq_length_filter]
  have hsame : (l.filter p).map row = List.replicate (l.filter p).length k :=
    List.eq_replicate_iff.mpr ⟨List.length_map _, fun x hx => by
      obtain ⟨r, hr, rfl⟩ := List.mem_map.mp hx
      exact hp r (List.of_mem_filter hr)⟩
  have hnodup := h.sublist ((List.filter_sublist (p := p)).map row)
  rw [hsame] at hnodup
  exact List.nodup_replicate.mp hnodup

theorem countP_key {α β : Type*} {row : α → β} {l : List α} (h : (l.map row).Nodup) (k : β)
    {p : α → Bool} (hp : ∀ r, p r = true → row r = k) :
    l.countP p = if l.any p then 1 else 0 := by
  have hle := countP_key_le_one h k hp
  by_cases ha : l.any p = true
  · rw [if_pos ha]
    obtain ⟨r, hr, hpr⟩ := List.any_eq_true.mp ha
    exact Nat.le_antisymm hle (List.countP_pos_iff.mpr ⟨r, hr, hpr⟩)
  · rw [if_neg ha, List.countP_eq_zero]
    exact fun r hr hpr => ha (List.any_eq_true.mpr ⟨r, hr, hpr⟩)

/-- If whoever is let in sees at most so many within the window behind it, then no window
of that length has more of them, wherever it ends. -/
theorem countP_window_le {α K : Type*} [AddCommGroup K] [LinearOrder K] [IsOrderedAddMonoid K]
    {l : List α} {time : α → K} {letIn counted : α → Prop} [DecidablePred letIn]
    [DecidablePred counted] {window : K} {n : Nat} (hsub : ∀ a ∈ l, letIn a → counted a)
    (hseen : ∀ before a after, l = before ++ a :: after → letIn a →
      (before ++ [a]).countP (fun b => counted b ∧ time a - time b ≤ window) ≤ n) (t : K) :
    l.countP (fun a => letIn a ∧ time a ≤ t ∧ t - time a ≤ window) ≤ n := by
  induction l using List.reverseRecOn with
  | nil => exact Nat.zero_le n
  | append_singleton l c ih =>
    by_cases hc : letIn c ∧ time c ≤ t ∧ t - time c ≤ window
    · refine le_trans (List.countP_mono_left fun b hb hin => ?_) (hseen l c [] rfl hc.1)
      simp only [decide_eq_true_eq] at hin ⊢
      have hlater : time c - time b ≤ t - time b := sub_le_sub_right hc.2.1 _
      exact ⟨hsub b hb hin.1, hlater.trans hin.2.2⟩
    · rw [List.countP_append, List.countP_singleton, if_neg (by simpa using hc), Nat.add_zero]
      refine ih (fun a ha => hsub a (List.mem_append_left _ ha)) fun before a after hl => ?_
      exact hseen before a (after ++ [c]) (by rw [hl, List.append_assoc]; rfl)

end Keyed
