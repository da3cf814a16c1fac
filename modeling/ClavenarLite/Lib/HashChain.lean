import Mathlib.Data.List.Basic
import Mathlib.Data.List.Induction

/-! Numbered hash chains: each record names its position and the hash of the
record before it. Appends that raced are told apart by their positions alone. -/

namespace HashChain

/-- How a record shows its position, its predecessor's hash and its own. -/
structure Shape (R H : Type) where
  seq : R → Int
  prev : R → H
  hash : R → H
  genesis : H

variable {R H C : Type} (S : Shape R H)

def Linked : H → Int → List R → Prop
  | _, _, [] => True
  | g, n, r :: rs => S.seq r = n ∧ S.prev r = g ∧ Linked (S.hash r) (n + 1) rs

/-- The hashes alone: each record names the hash before it, wherever it stands. -/
def Links : H → List R → Prop
  | _, [] => True
  | g, r :: rs => S.prev r = g ∧ Links (S.hash r) rs

def lastHash : H → List R → H
  | g, [] => g
  | _, r :: rs => lastHash (S.hash r) rs

/-- Numbered from one without a gap, the first record linked to the genesis hash. -/
def Chain (rows : List R) : Prop := Linked S S.genesis 1 rows

/-- The position and predecessor that continue a chain. -/
def next (rows : List R) : Int × H := (rows.length + 1, lastHash S S.genesis rows)

variable {S}

theorem lastHash_append (g : H) (xs ys : List R) :
    lastHash S g (xs ++ ys) = lastHash S (lastHash S g xs) ys := by
  induction xs generalizing g with
  | nil => rfl
  | cons x xs ih => exact ih (S.hash x)

theorem linked_append {g : H} {n : Int} {xs ys : List R} :
    Linked S g n (xs ++ ys) ↔
      Linked S g n xs ∧ Linked S (lastHash S g xs) (n + xs.length) ys := by
  induction xs generalizing g n with
  | nil => simp [Linked, lastHash]
  | cons x xs ih =>
    have hn : n + 1 + (xs.length : Int) = n + ((x :: xs).length : Int) := by
      simp only [List.length_cons]
      omega
    simp only [List.cons_append, Linked, lastHash, ih, hn, and_assoc]

theorem linked_seq {g : H} {n : Int} {rows : List R} (h : Linked S g n rows) {r : R}
    (hr : r ∈ rows) : n ≤ S.seq r ∧ S.seq r < n + rows.length := by
  induction rows generalizing g n with
  | nil => simp at hr
  | cons x xs ih =>
    obtain ⟨hs, _, hxs⟩ := h
    simp only [List.length_cons]
    rcases List.mem_cons.mp hr with rfl | hr
    · omega
    · have := ih hxs hr
      omega

theorem linked_exists {g : H} {n k : Int} {rows : List R} (h : Linked S g n rows) (hn : n ≤ k)
    (hk : k < n + rows.length) : ∃ r ∈ rows, S.seq r = k := by
  induction rows generalizing g n with
  | nil =>
    simp only [List.length_nil] at hk
    omega
  | cons x xs ih =>
    obtain ⟨hs, _, hxs⟩ := h
    by_cases he : n = k
    · exact ⟨x, by simp, hs.trans he⟩
    · simp only [List.length_cons] at hk
      obtain ⟨r, hr, hseq⟩ := ih hxs (by omega) (by omega)
      exact ⟨r, List.mem_cons_of_mem _ hr, hseq⟩

theorem Chain.next_of_last {rows : List R} {r : R} (h : Chain S (rows ++ [r])) :
    next S (rows ++ [r]) = (S.seq r + 1, S.hash r) := by
  obtain ⟨_, hs, _⟩ := linked_append.mp h
  unfold next
  rw [lastHash_append, hs, List.length_append, List.length_singleton]
  refine Prod.ext ?_ rfl
  simp only
  omega

theorem Chain.append {rows : List R} {r : R} (h : Chain S rows)
    (hr : (S.seq r, S.prev r) = next S rows) : Chain S (rows ++ [r]) := by
  obtain ⟨hs, hp⟩ := Prod.mk.inj hr
  refine linked_append.mpr ⟨h, ?_, hp, trivial⟩
  rw [hs]
  omega

/-- A record that continues an earlier state of the chain either continues the
chain itself or repeats a position. -/
theorem Chain.append_extending {pre rows : List R} {r : R} (h : Chain S rows) (hp : pre <+: rows)
    (hr : (S.seq r, S.prev r) = next S pre) (hu : ∀ x ∈ rows, S.seq x ≠ S.seq r) :
    Chain S (rows ++ [r]) := by
  have hle := hp.length_le
  have hs : S.seq r = pre.length + 1 := (Prod.mk.inj hr).1
  by_cases he : pre.length = rows.length
  · rw [hp.eq_of_length he] at hr
    exact h.append hr
  · obtain ⟨x, hx, hxs⟩ := linked_exists (k := S.seq r) h (by omega) (by omega)
    exact absurd hxs (hu x hx)

/-- Records appended to an earlier state of the chain may be added to the chain
as it is now if they repeat no position of it. -/
theorem Chain.commit {base rows own : List R} (h : Chain S rows) (hb : base <+: rows)
    (ho : Chain S (base ++ own)) (hu : ∀ r ∈ own, ∀ x ∈ rows, S.seq x ≠ S.seq r) :
    Chain S (rows ++ own) := by
  have hle := hb.length_le
  cases own with
  | nil => simpa using h
  | cons r own =>
    by_cases he : base.length = rows.length
    · rwa [hb.eq_of_length he] at ho
    · obtain ⟨_, hs, _⟩ := linked_append.mp ho
      obtain ⟨x, hx, hxs⟩ := linked_exists (k := S.seq r) h (by omega) (by omega)
      exact absurd hxs (hu r (by simp) x hx)

theorem linked_getElem? {g : H} {n : Int} {rows : List R} (h : Linked S g n rows) {i : Nat} {r : R}
    (hi : rows[i]? = some r) :
    S.seq r = n + i ∧ (i = 0 → S.prev r = g) ∧
      ∀ p, 0 < i → rows[i - 1]? = some p → S.prev r = S.hash p := by
  induction rows generalizing g n i with
  | nil => simp at hi
  | cons x xs ih =>
    obtain ⟨hs, hp, hxs⟩ := h
    cases i with
    | zero =>
      obtain rfl : x = r := by simpa using hi
      refine ⟨by simp [hs], fun _ => hp, fun _ h0 => absurd h0 (Nat.lt_irrefl 0)⟩
    | succ i =>
      rw [List.getElem?_cons_succ] at hi
      obtain ⟨hseq, hfirst, hrest⟩ := ih hxs hi
      refine ⟨by push_cast; omega, fun h0 => absurd h0 (Nat.succ_ne_zero i), ?_⟩
      intro p _ hprev
      rw [Nat.add_sub_cancel] at hprev
      cases i with
      | zero =>
        obtain rfl : x = p := by simpa using hprev
        exact hfirst rfl
      | succ i => exact hrest p (Nat.succ_pos i) (by simpa using hprev)

theorem Chain.pairwise {rows : List R} (h : Chain S rows) :
    rows.Pairwise fun x y => S.seq x < S.seq y := by
  unfold Chain at h
  generalize S.genesis = g at h
  generalize (1 : Int) = n at h
  induction rows generalizing g n with
  | nil => simp
  | cons x xs ih =>
    obtain ⟨hs, _, hxs⟩ := h
    rw [List.pairwise_cons]
    refine ⟨?_, ih _ _ hxs⟩
    intro y hy
    have := (linked_seq hxs hy).1
    omega

theorem links_append {g : H} {xs ys : List R} :
    Links S g (xs ++ ys) ↔ Links S g xs ∧ Links S (lastHash S g xs) ys := by
  induction xs generalizing g with
  | nil => simp [Links, lastHash]
  | cons x xs ih => simp only [List.cons_append, Links, lastHash, ih, and_assoc]

/-- Where equal hashes mean equal contents and equal predecessors, the last hash
determines every record of two lists of one length. -/
theorem links_binding {content : R → C} {g : H} {xs ys : List R}
    (hb : ∀ x ∈ xs, ∀ y ∈ ys, S.hash x = S.hash y → content x = content y ∧ S.prev x = S.prev y)
    (hx : Links S g xs) (hy : Links S g ys) (hlen : xs.length = ys.length)
    (hlast : lastHash S g xs = lastHash S g ys) : xs.map content = ys.map content := by
  induction xs using List.reverseRec generalizing ys with
  | nil =>
    have : ys = [] := List.eq_nil_of_length_eq_zero (by simpa using hlen.symm)
    rw [this]
  | append_singleton xs x ih =>
    rcases List.eq_nil_or_concat ys with rfl | ⟨ys, y, rfl⟩
    · simp at hlen
    · rw [List.concat_eq_append] at *
      obtain ⟨hxs, hpx, _⟩ := links_append.mp hx
      obtain ⟨hys, hpy, _⟩ := links_append.mp hy
      rw [lastHash_append, lastHash_append] at hlast
      obtain ⟨hc, hp⟩ := hb x (by simp) y (by simp) hlast
      have hprev : lastHash S g xs = lastHash S g ys := by rw [← hpx, ← hpy, hp]
      have hih := ih (fun a ha b hb' => hb a (by simp [ha]) b (by simp [hb'])) hxs hys
        (by simpa using hlen) hprev
      rw [List.map_append, List.map_append, hih, List.map_singleton, List.map_singleton, hc]

/-- Where moreover no record has the hash the lists start from, two lists with one
last hash are equally long. -/
theorem links_length_eq {g : H} {xs ys : List R}
    (hb : ∀ x ∈ xs, ∀ y ∈ ys, S.hash x = S.hash y → S.prev x = S.prev y)
    (hx : Links S g xs) (hy : Links S g ys) (hgx : ∀ x ∈ xs, S.hash x ≠ g)
    (hgy : ∀ y ∈ ys, S.hash y ≠ g) (hlast : lastHash S g xs = lastHash S g ys) :
    xs.length = ys.length := by
  induction xs using List.reverseRec generalizing ys with
  | nil =>
    rcases List.eq_nil_or_concat ys with rfl | ⟨ys, y, rfl⟩
    · rfl
    · rw [List.concat_eq_append] at hlast hgy
      rw [lastHash_append] at hlast
      exact absurd hlast.symm (hgy y (by simp))
  | append_singleton xs x ih =>
    rw [lastHash_append] at hlast
    rcases List.eq_nil_or_concat ys with rfl | ⟨ys, y, rfl⟩
    · exact absurd hlast (hgx x (by simp))
    · rw [List.concat_eq_append] at *
      obtain ⟨hxs, hpx, _⟩ := links_append.mp hx
      obtain ⟨hys, hpy, _⟩ := links_append.mp hy
      rw [lastHash_append] at hlast
      have hprev : lastHash S g xs = lastHash S g ys := by
        rw [← hpx, ← hpy, hb x (by simp) y (by simp) hlast]
      have hih := ih (fun a ha b hb' => hb a (by simp [ha]) b (by simp [hb'])) hxs hys
        (fun a ha => hgx a (by simp [ha])) (fun b hb' => hgy b (by simp [hb'])) hprev
      rw [List.length_append, List.length_append, hih, List.length_singleton, List.length_singleton]

end HashChain
