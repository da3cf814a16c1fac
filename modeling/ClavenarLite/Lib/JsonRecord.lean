import ClavenarLite.Lib.JsonValue

/-! Records as a deriving serializer writes them, an object with the fields in
order, and as it reads them: from an object in any order or from an array. -/

namespace TextJson

variable {α : Type}

/-- What a reader finds under each name: members of other names are read over, a
name that comes twice is refused, and an array has to hold a value for each. -/
def fields (names : List String) : Json → Option (String → Option Json)
  | .obj ms =>
    if ∀ name ∈ names, (ms.map Prod.fst).count name ≤ 1 then some fun name => lookup name ms
    else none
  | .arr xs =>
    if xs.length = names.length then some fun name => lookup name (names.zip xs) else none
  | _ => none

def required (read : Json → Option α) (field : Option Json) : Option α := field.bind read

/-- A field that may be absent or null. -/
def optional (read : Json → Option α) : Option Json → Option (Option α)
  | none => some none
  | some .null => some none
  | some j => (read j).map some

def Json.asBool? : Json → Option Bool
  | .bool b => some b
  | _ => none

def Json.asU64? : Json → Option Nat
  | .num (.int i) => if 0 ≤ i ∧ i.toNat < 2 ^ 64 then some i.toNat else none
  | _ => none

def Json.asList? (read : Json → Option α) : Json → Option (List α)
  | .arr xs => xs.mapM read
  | _ => none

def natural (n : Nat) : Json := .num (.int n)

def orNull (write : α → Json) : Option α → Json
  | none => .null
  | some a => write a

theorem fields_obj (names : List String) {ms : List (String × Json)}
    (hn : (ms.map Prod.fst).Nodup) :
    fields names (.obj ms) = some fun name => lookup name ms := by
  rw [fields, if_pos]
  intro name _
  exact List.nodup_iff_count_le_one.mp hn name

theorem lookup_of_mem {key : String} {v : Json} {ms : List (String × Json)}
    (hn : (ms.map Prod.fst).Nodup) (h : (key, v) ∈ ms) : lookup key ms = some v := by
  induction ms with
  | nil => exact absurd h List.not_mem_nil
  | cons m ms ih =>
    obtain ⟨k, w⟩ := m
    obtain ⟨hk, hms⟩ := List.nodup_cons.mp hn
    rw [lookup_cons]
    rcases List.mem_cons.mp h with heq | hmem
    · obtain ⟨rfl, rfl⟩ := Prod.mk.inj heq
      rw [lookup_none hk, if_pos rfl, Option.none_or]
    · have hne : k ≠ key := by
        rintro rfl
        exact hk (List.mem_map.mpr ⟨_, hmem, rfl⟩)
      rw [ih hms hmem, if_neg hne, Option.or_none]

theorem bind_read {β : Type} {x : Option α} {a : α} {f : α → Option β} (h : x = some a) :
    (x >>= f) = f a := by
  rw [h, Option.bind_eq_bind, Option.bind_some]

@[simp] theorem required_some (read : Json → Option α) (j : Json) :
    required read (some j) = read j := by
  rw [required, Option.bind_some]

@[simp] theorem asStr?_str (s : String) : (Json.str s).asStr? = some s := rfl

@[simp] theorem asBool?_bool (b : Bool) : (Json.bool b).asBool? = some b := rfl

theorem asU64?_natural {n : Nat} (h : n < 2 ^ 64) : (natural n).asU64? = some n := by
  rw [natural, Json.asU64?, Int.toNat_natCast, if_pos ⟨by omega, h⟩]

theorem asList?_map {read : Json → Option α} {write : α → Json} {xs : List α}
    (h : ∀ x ∈ xs, read (write x) = some x) :
    (Json.arr (xs.map write)).asList? read = some xs := by
  rw [Json.asList?]
  induction xs with
  | nil => rfl
  | cons x xs ih =>
    rw [List.map_cons, List.mapM_cons, h x List.mem_cons_self,
      ih fun y hy => h y (List.mem_cons_of_mem x hy)]
    rfl

theorem optional_orNull {read : Json → Option α} {write : α → Json} {field : Option α}
    (hnull : ∀ a, write a ≠ .null) (h : ∀ a ∈ field, read (write a) = some a) :
    optional read (some (orNull write field)) = some field := by
  cases field with
  | none => rfl
  | some a =>
    have hread : optional read (some (write a)) = (read (write a)).map some := by
      unfold optional
      split
      · rename_i hnone
        exact absurd hnone (by simp)
      · rename_i hnul
        exact absurd (Option.some.inj hnul) (hnull a)
      · rename_i hj
        rw [Option.some.inj hj]
    rw [orNull, hread, h a rfl, Option.map_some]

end TextJson
