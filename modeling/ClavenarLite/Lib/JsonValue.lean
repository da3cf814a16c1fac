import ClavenarLite.Lib.JsonParse
import Mathlib.Algebra.Ring.Int.Defs

/-! The JSON values a map-based library holds: integers of 64 bits, and objects
whose keys are distinct and sorted. Reading normalises a document to such a
value, and refuses one that nests too deeply. -/

namespace TextJson

def Int64Range (i : Int) : Prop := -2 ^ 63 ≤ i ∧ i < 2 ^ 64

instance (i : Int) : Decidable (Int64Range i) := by
  unfold Int64Range
  infer_instance

def Number.InRange : Number → Prop
  | .int i => Int64Range i
  | .float _ => True

def KeysSorted (ms : List (String × Json)) : Prop := (ms.map Prod.fst).Pairwise (· < ·)

inductive Json.Canonical : Json → Prop
  | null : Canonical .null
  | bool (b : Bool) : Canonical (.bool b)
  | num {n : Number} (h : n.InRange) : Canonical (.num n)
  | str (s : String) : Canonical (.str s)
  | arr {xs : List Json} (h : ∀ x ∈ xs, Canonical x) : Canonical (.arr xs)
  | obj {ms : List (String × Json)} (hk : KeysSorted ms) (hv : ∀ m ∈ ms, Canonical m.2) :
      Canonical (.obj ms)

def insertMember (key : String) (value : Json) : List (String × Json) → List (String × Json)
  | [] => [(key, value)]
  | (k, v) :: ms =>
    if key < k then (key, value) :: (k, v) :: ms
    else if key = k then (key, value) :: ms
    else (k, v) :: insertMember key value ms

/-- The members a sorted map holds after inserting a list of them in order. -/
def collect (ms : List (String × Json)) : List (String × Json) :=
  ms.foldl (fun acc m => insertMember m.1 m.2 acc) []

theorem mem_insertMember {key : String} {value : Json} {ms : List (String × Json)}
    {m : String × Json} (h : m ∈ insertMember key value ms) : m = (key, value) ∨ m ∈ ms := by
  induction ms with
  | nil => simpa [insertMember] using h
  | cons n ms ih =>
    obtain ⟨k, v⟩ := n
    unfold insertMember at h
    split_ifs at h
    · simpa using h
    · rcases List.mem_cons.mp h with h | h
      · exact Or.inl h
      · exact Or.inr (List.mem_cons_of_mem _ h)
    · rcases List.mem_cons.mp h with h | h
      · exact Or.inr (by simp [h])
      · rcases ih h with h | h
        · exact Or.inl h
        · exact Or.inr (List.mem_cons_of_mem _ h)

theorem keysSorted_insertMember {key : String} {value : Json} {ms : List (String × Json)}
    (h : KeysSorted ms) : KeysSorted (insertMember key value ms) := by
  induction ms with
  | nil => simp [insertMember, KeysSorted]
  | cons n ms ih =>
    obtain ⟨k, v⟩ := n
    simp only [KeysSorted, List.map_cons, List.pairwise_cons] at h
    obtain ⟨hk, hms⟩ := h
    unfold insertMember
    split_ifs with hlt heq
    · simp only [KeysSorted, List.map_cons, List.pairwise_cons]
      refine ⟨?_, hk, hms⟩
      intro a ha
      rcases List.mem_cons.mp ha with rfl | ha
      · exact hlt
      · exact lt_trans hlt (hk a ha)
    · subst heq
      simp only [KeysSorted, List.map_cons, List.pairwise_cons]
      exact ⟨hk, hms⟩
    · simp only [KeysSorted, List.map_cons, List.pairwise_cons]
      refine ⟨?_, ih hms⟩
      intro a ha
      obtain ⟨m, hm, rfl⟩ := List.mem_map.mp ha
      rcases mem_insertMember hm with rfl | hm
      · exact lt_of_le_of_ne (not_lt.mp hlt) (fun he => heq he.symm)
      · exact hk _ (List.mem_map_of_mem hm)

theorem insertMember_last {key : String} {value : Json} {ms : List (String × Json)}
    (h : ∀ m ∈ ms, m.1 < key) : insertMember key value ms = ms ++ [(key, value)] := by
  induction ms with
  | nil => rfl
  | cons n ms ih =>
    obtain ⟨k, v⟩ := n
    have hk : k < key := h (k, v) (by simp)
    rw [insertMember, if_neg (lt_asymm hk), if_neg (ne_of_gt hk), ih fun m hm => h m (by simp [hm])]
    rfl

theorem keysSorted_foldl {ms acc : List (String × Json)} (h : KeysSorted acc) :
    KeysSorted (ms.foldl (fun acc m => insertMember m.1 m.2 acc) acc) := by
  induction ms generalizing acc with
  | nil => exact h
  | cons m ms ih => exact ih (keysSorted_insertMember h)

theorem keysSorted_collect (ms : List (String × Json)) : KeysSorted (collect ms) :=
  keysSorted_foldl List.Pairwise.nil

theorem mem_foldl_insertMember {ms acc : List (String × Json)} {m : String × Json}
    (h : m ∈ ms.foldl (fun acc m => insertMember m.1 m.2 acc) acc) : m ∈ ms ∨ m ∈ acc := by
  induction ms generalizing acc with
  | nil => exact Or.inr h
  | cons n ms ih =>
    rcases ih h with h | h
    · exact Or.inl (List.mem_cons_of_mem _ h)
    · rcases mem_insertMember h with rfl | h
      · exact Or.inl (by simp)
      · exact Or.inr h

theorem mem_collect {ms : List (String × Json)} {m : String × Json} (h : m ∈ collect ms) :
    m ∈ ms := by
  rcases mem_foldl_insertMember h with h | h
  · exact h
  · simp at h

theorem collect_sorted {ms : List (String × Json)} (h : KeysSorted ms) : collect ms = ms := by
  induction ms using List.reverseRec with
  | nil => rfl
  | append_singleton ms m ih =>
    simp only [KeysSorted, List.map_append, List.pairwise_append] at h
    obtain ⟨hms, _, hlt⟩ := h
    have hi : collect ms = ms := ih hms
    rw [collect, List.foldl_append, ← collect, hi]
    apply insertMember_last
    intro n hn
    exact hlt n.1 (List.mem_map_of_mem hn) m.1 (by simp)

theorem lookup_cons (key k : String) (v : Json) (ms : List (String × Json)) :
    lookup key ((k, v) :: ms) = (lookup key ms).or (if k = key then some v else none) := by
  rw [lookup]
  cases lookup key ms <;> rfl

theorem lookup_none {key : String} {ms : List (String × Json)} (h : key ∉ ms.map Prod.fst) :
    lookup key ms = none := by
  induction ms with
  | nil => rfl
  | cons m ms ih =>
    obtain ⟨k, v⟩ := m
    simp only [List.map_cons, List.mem_cons, not_or] at h
    rw [lookup_cons, ih h.2, if_neg (Ne.symm h.1)]
    rfl

theorem lookup_insertMember {key k : String} {v : Json} {ms : List (String × Json)}
    (h : KeysSorted ms) :
    lookup key (insertMember k v ms) = if k = key then some v else lookup key ms := by
  induction ms with
  | nil => simp [insertMember, lookup]
  | cons n ms ih =>
    obtain ⟨j, w⟩ := n
    simp only [KeysSorted, List.map_cons, List.pairwise_cons] at h
    obtain ⟨hj, hms⟩ := h
    have hnot : ∀ i ≤ j, i ∉ ms.map Prod.fst := fun i hi hmem =>
      absurd (lt_of_le_of_lt hi (hj i hmem)) (lt_irrefl i)
    unfold insertMember
    by_cases hlt : k < j
    · rw [if_pos hlt, lookup_cons]
      by_cases hkey : k = key
      · have hne : j ≠ key := by
          rw [← hkey]
          exact ne_of_gt hlt
        rw [lookup_cons, lookup_none (hnot key (hkey ▸ hlt.le)), if_neg hne, if_pos hkey,
          if_pos hkey]
        rfl
      · rw [if_neg hkey, if_neg hkey, Option.or_none]
    · rw [if_neg hlt]
      by_cases heq : k = j
      · subst heq
        rw [if_pos rfl, lookup_cons, lookup_cons]
        by_cases hkey : k = key
        · rw [lookup_none (hnot key (hkey ▸ le_refl k)), if_pos hkey, if_pos hkey]
          rfl
        · rw [if_neg hkey, if_neg hkey, if_neg hkey]
      · rw [if_neg heq, lookup_cons, ih hms, lookup_cons]
        by_cases hkey : k = key
        · rw [if_pos hkey, if_pos hkey]
          rfl
        · rw [if_neg hkey, if_neg hkey]

/-- A sorted map built from a list of members shows the last value of each key. -/
theorem lookup_collect (key : String) (ms : List (String × Json)) :
    lookup key (collect ms) = lookup key ms := by
  have hfold : ∀ acc, KeysSorted acc →
      lookup key (ms.foldl (fun acc m => insertMember m.1 m.2 acc) acc) =
        (lookup key ms).or (lookup key acc) := by
    induction ms with
    | nil => exact fun acc _ => rfl
    | cons m ms ih =>
      intro acc hacc
      obtain ⟨k, v⟩ := m
      rw [List.foldl_cons, ih _ (keysSorted_insertMember hacc), lookup_insertMember hacc,
        lookup_cons]
      cases lookup key ms with
      | some w => rfl
      | none =>
        split_ifs <;> rfl
  have h := hfold [] List.Pairwise.nil
  rw [collect, h]
  exact Option.or_none

theorem lookup_mem {key : String} {ms : List (String × Json)} {j : Json}
    (h : lookup key ms = some j) : (key, j) ∈ ms := by
  induction ms with
  | nil => exact absurd h (by simp [lookup])
  | cons m ms ih =>
    obtain ⟨k, v⟩ := m
    rw [lookup_cons] at h
    cases hl : lookup key ms with
    | some w =>
      obtain rfl := Option.some.inj ((congrArg (Option.or · _) hl).symm.trans h)
      exact List.mem_cons_of_mem _ (ih hl)
    | none =>
      rw [hl, Option.none_or] at h
      by_cases hk : k = key
      · obtain rfl := Option.some.inj ((if_pos hk).symm.trans h)
        exact hk ▸ List.mem_cons_self
      · exact absurd ((if_neg hk).symm.trans h) (by simp)

theorem Json.Canonical.get? {j v : Json} {key : String} (hj : j.Canonical)
    (h : j.get? key = some v) : v.Canonical := by
  cases hj with
  | obj _ hv => exact hv _ (lookup_mem h)
  | _ => exact absurd h (by simp [Json.get?])

theorem Json.Canonical.asArray? {j : Json} {xs : List Json} (hj : j.Canonical)
    (h : j.asArray? = some xs) : ∀ x ∈ xs, x.Canonical := by
  cases hj with
  | arr hx => exact Option.some.inj h ▸ hx
  | _ => exact absurd h (by simp [Json.asArray?])

structure Value where
  json : Json
  canonical : json.Canonical

namespace Value

@[ext]
theorem ext {v w : Value} (h : v.json = w.json) : v = w := by
  cases v
  cases w
  simpa using h

def null : Value := ⟨.null, .null⟩

def bool (b : Bool) : Value := ⟨.bool b, .bool b⟩

def str (s : String) : Value := ⟨.str s, .str s⟩

def ofUInt16 (n : UInt16) : Value :=
  ⟨.num (.int n.toNat), .num (by
    have h := n.toNat_lt
    constructor <;> omega)⟩

def arr (vs : List Value) : Value :=
  ⟨.arr (vs.map Value.json), .arr (by
    intro x hx
    obtain ⟨v, _, rfl⟩ := List.mem_map.mp hx
    exact v.canonical)⟩

def object (ms : List (String × Value)) : Value :=
  ⟨.obj (collect (ms.map fun m => (m.1, m.2.json))), .obj (keysSorted_collect _) (by
    intro m hm
    obtain ⟨n, _, rfl⟩ := List.mem_map.mp (mem_collect hm)
    exact n.2.canonical)⟩

theorem get?_object (key : String) (ms : List (String × Value)) :
    (object ms).json.get? key = lookup key (ms.map fun m => (m.1, m.2.json)) :=
  lookup_collect key _

def depth (v : Value) : Nat := v.json.depth

theorem depthMembers_le {n : Nat} {ms : List (String × Json)} (h : ∀ m ∈ ms, m.2.depth ≤ n) :
    Json.depthMembers ms ≤ n := by
  induction ms with
  | nil => exact Nat.zero_le n
  | cons m ms ih =>
    have hm : m.2.depth ≤ n := h m List.mem_cons_self
    exact max_le hm (ih fun x hx => h x (List.mem_cons_of_mem m hx))

theorem depth_object_le {n : Nat} {ms : List (String × Value)} (h : ∀ m ∈ ms, m.2.depth ≤ n) :
    (object ms).depth ≤ n + 1 := by
  apply Nat.succ_le_succ
  apply depthMembers_le
  intro m hm
  obtain ⟨x, hx, rfl⟩ := List.mem_map.mp (mem_collect hm)
  exact h x hx

theorem depth_arr_le {n : Nat} {vs : List Value} (h : ∀ v ∈ vs, v.depth ≤ n) :
    (arr vs).depth ≤ n + 1 := by
  apply Nat.succ_le_succ
  induction vs with
  | nil => exact Nat.zero_le n
  | cons v vs ih =>
    exact max_le (h v List.mem_cons_self) (ih fun x hx => h x (List.mem_cons_of_mem v hx))

theorem lookup_depth {key : String} {ms : List (String × Json)} {j : Json}
    (h : lookup key ms = some j) : j.depth ≤ Json.depthMembers ms := by
  induction ms with
  | nil => exact absurd h (by simp [lookup])
  | cons m ms ih =>
    obtain ⟨k, v⟩ := m
    rw [lookup_cons] at h
    show j.depth ≤ max v.depth (Json.depthMembers ms)
    cases hl : lookup key ms with
    | some w =>
      rw [hl] at h ih
      exact (ih h).trans (le_max_right _ _)
    | none =>
      rw [hl] at h
      by_cases hk : k = key
      · have hv : v = j := by simpa [hk] using h
        exact hv ▸ le_max_left _ _
      · exact absurd h (by simp [hk])

/-- A member is nested less deep than its object. -/
theorem depth_get?_object (key : String) {ms : List (String × Value)} {j : Json}
    (h : lookup key (ms.map fun m => (m.1, m.2.json)) = some j) : j.depth < (object ms).depth := by
  rw [← get?_object] at h
  exact Nat.lt_succ_of_le (lookup_depth h)

def text (F : FloatText) (v : Value) : String := printText F v.json

end Value

mutual

def sortKeys : Json → Json
  | .null => .null
  | .bool b => .bool b
  | .num n => .num n
  | .str s => .str s
  | .arr xs => .arr (sortElems xs)
  | .obj ms => .obj (collect (sortMembers ms))

def sortElems : List Json → List Json
  | [] => []
  | x :: xs => sortKeys x :: sortElems xs

def sortMembers : List (String × Json) → List (String × Json)
  | [] => []
  | (key, value) :: ms => (key, sortKeys value) :: sortMembers ms

end

theorem sortElems_self {xs : List Json} (h : ∀ x ∈ xs, sortKeys x = x) : sortElems xs = xs := by
  induction xs with
  | nil => rfl
  | cons x xs ih => rw [sortElems, h x (by simp), ih fun y hy => h y (by simp [hy])]

theorem sortMembers_self {ms : List (String × Json)} (h : ∀ m ∈ ms, sortKeys m.2 = m.2) :
    sortMembers ms = ms := by
  induction ms with
  | nil => rfl
  | cons m ms ih =>
    obtain ⟨key, value⟩ := m
    have hm : sortKeys value = value := h (key, value) (by simp)
    rw [sortMembers, hm, ih fun n hn => h n (by simp [hn])]

theorem sortKeys_self {j : Json} (h : j.Canonical) : sortKeys j = j := by
  induction h with
  | arr _ ih => rw [sortKeys, sortElems_self ih]
  | obj hk _ ih => rw [sortKeys, sortMembers_self ih, collect_sorted hk]
  | _ => rfl

variable (F : FloatText)

/-- An integer that does not fit 64 bits is read as a float. -/
def normaliseNumber : Number → Option Number
  | .int i => if Int64Range i then some (.int i) else (F.read (printInt i)).map .float
  | .float f => some (.float f)

mutual

def normalise : Json → Option Json
  | .null => some .null
  | .bool b => some (.bool b)
  | .num n => (normaliseNumber F n).map .num
  | .str s => some (.str s)
  | .arr xs => (normaliseElems xs).map .arr
  | .obj ms => (normaliseMembers ms).map fun ms => .obj (collect ms)

def normaliseElems : List Json → Option (List Json)
  | [] => some []
  | x :: xs => do return (← normalise x) :: (← normaliseElems xs)

def normaliseMembers : List (String × Json) → Option (List (String × Json))
  | [] => some []
  | (key, value) :: ms => do return (key, ← normalise value) :: (← normaliseMembers ms)

end

theorem normaliseNumber_inRange {n m : Number} (h : normaliseNumber F n = some m) : m.InRange := by
  cases n with
  | int i =>
    simp only [normaliseNumber] at h
    split_ifs at h with hi
    · obtain rfl := Option.some.inj h
      exact hi
    · obtain ⟨f, _, rfl⟩ := Option.map_eq_some_iff.mp h
      trivial
  | float f =>
    obtain rfl := Option.some.inj h
    trivial

theorem normaliseElems_canonical {xs ys : List Json}
    (ih : ∀ x ∈ xs, ∀ y, normalise F x = some y → y.Canonical)
    (h : normaliseElems F xs = some ys) : ∀ y ∈ ys, y.Canonical := by
  induction xs generalizing ys with
  | nil =>
    obtain rfl : [] = ys := by simpa [normaliseElems] using h
    simp
  | cons x xs ihxs =>
    simp only [normaliseElems, Option.bind_eq_bind, Option.bind_eq_some_iff] at h
    obtain ⟨y, hy, zs, hzs, he⟩ := h
    obtain rfl := Option.some.inj he
    intro z hz
    rcases List.mem_cons.mp hz with rfl | hz
    · exact ih x (by simp) z hy
    · exact ihxs (fun w hw => ih w (by simp [hw])) hzs z hz

theorem normaliseMembers_canonical {ms ns : List (String × Json)}
    (ih : ∀ m ∈ ms, ∀ y, normalise F m.2 = some y → y.Canonical)
    (h : normaliseMembers F ms = some ns) : ∀ n ∈ ns, n.2.Canonical := by
  induction ms generalizing ns with
  | nil =>
    obtain rfl : [] = ns := by simpa [normaliseMembers] using h
    simp
  | cons m ms ihms =>
    obtain ⟨key, value⟩ := m
    simp only [normaliseMembers, Option.bind_eq_bind, Option.bind_eq_some_iff] at h
    obtain ⟨y, hy, zs, hzs, he⟩ := h
    obtain rfl := Option.some.inj he
    intro z hz
    rcases List.mem_cons.mp hz with rfl | hz
    · exact ih (key, value) (by simp) y hy
    · exact ihms (fun w hw => ih w (by simp [hw])) hzs z hz

theorem normalise_canonical (j : Json) : ∀ k, normalise F j = some k → k.Canonical := by
  induction j using Json.induct with
  | null =>
    intro k h
    obtain rfl : Json.null = k := by simpa [normalise] using h
    exact .null
  | bool b =>
    intro k h
    obtain rfl : Json.bool b = k := by simpa [normalise] using h
    exact .bool b
  | str s =>
    intro k h
    obtain rfl : Json.str s = k := by simpa [normalise] using h
    exact .str s
  | num n =>
    intro k h
    obtain ⟨m, hm, rfl⟩ := Option.map_eq_some_iff.mp (by simpa only [normalise] using h)
    exact .num (normaliseNumber_inRange F hm)
  | arr xs ih =>
    intro k h
    obtain ⟨ys, hys, rfl⟩ := Option.map_eq_some_iff.mp (by simpa only [normalise] using h)
    exact .arr (normaliseElems_canonical F ih hys)
  | obj ms ih =>
    intro k h
    obtain ⟨ns, hns, rfl⟩ := Option.map_eq_some_iff.mp (by simpa only [normalise] using h)
    have hn := normaliseMembers_canonical F ih hns
    exact .obj (keysSorted_collect ns) fun m hm => hn m (mem_collect hm)

theorem normaliseElems_self {xs : List Json} (h : ∀ x ∈ xs, normalise F x = some x) :
    normaliseElems F xs = some xs := by
  induction xs with
  | nil => rfl
  | cons x xs ih =>
    simp [normaliseElems, h x (by simp), ih fun y hy => h y (by simp [hy])]

theorem normaliseMembers_self {ms : List (String × Json)}
    (h : ∀ m ∈ ms, normalise F m.2 = some m.2) : normaliseMembers F ms = some ms := by
  induction ms with
  | nil => rfl
  | cons m ms ih =>
    obtain ⟨key, value⟩ := m
    have hm : normalise F value = some value := h (key, value) (by simp)
    simp [normaliseMembers, hm, ih fun n hn => h n (by simp [hn])]

theorem normalise_self {j : Json} (h : j.Canonical) : normalise F j = some j := by
  induction h with
  | null => rfl
  | bool b => rfl
  | str s => rfl
  | @num n h =>
    cases n with
    | int i => simp [normalise, normaliseNumber, show Int64Range i from h]
    | float f => rfl
  | arr h ih => simp [normalise, normaliseElems_self F ih]
  | obj hk hv ih => simp [normalise, normaliseMembers_self F ih, collect_sorted hk]

def toValue (j : Json) : Option Value :=
  match h : normalise F j with
  | some k => some ⟨k, normalise_canonical F j k h⟩
  | none => none

theorem toValue_self (v : Value) : toValue F v.json = some v := by
  unfold toValue
  split
  · next k hk =>
    rw [normalise_self F v.canonical] at hk
    exact congrArg some (Value.ext (Option.some.inj hk).symm)
  · next hk =>
    rw [normalise_self F v.canonical] at hk
    exact absurd hk (by simp)

/-- The number of nested containers a reader accepts. -/
def recursionLimit : Nat := 127

def fromChars (cs : List Char) : Option Value := do
  let j ← parse F cs
  if j.depth ≤ recursionLimit then toValue F j else none

def fromStr (s : String) : Option Value := fromChars F s.toList

def fromSlice (bs : Bytes.Octets) : Option Value := (Bytes.fromUtf8 bs).bind (fromStr F)

theorem fromStr_text (v : Value) :
    fromStr F (v.text F) = if v.depth ≤ recursionLimit then some v else none := by
  rw [fromStr, fromChars, Value.text, printText, String.toList_ofList, parse_print,
    Option.bind_eq_bind, Option.bind_some, toValue_self]
  rfl

theorem fromSlice_text {v : Value} (h : v.depth ≤ recursionLimit) :
    fromSlice F (Bytes.utf8 (v.text F)) = some v := by
  rw [fromSlice, Bytes.fromUtf8_utf8, Option.bind_some, fromStr_text, if_pos h]

theorem text_injective : Function.Injective (Value.text F) := by
  intro v w h
  exact Value.ext (print_injective F (String.ofList_injective h))

end TextJson
