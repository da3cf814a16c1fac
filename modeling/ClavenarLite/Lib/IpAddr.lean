import Mathlib.Data.Nat.Digits.Defs

/-! Internet addresses: their octets, their texts, and an order that puts every
version 4 address before every version 6 address. -/

namespace Net

structure Ipv4Addr where
  a : UInt8
  b : UInt8
  c : UInt8
  d : UInt8
  deriving DecidableEq

def Ipv4Addr.octets (x : Ipv4Addr) : List UInt8 := [x.a, x.b, x.c, x.d]

def decimal (b : UInt8) : List Char := Nat.toDigits 10 b.toNat

def Ipv4Addr.text (x : Ipv4Addr) : String :=
  String.ofList (decimal x.a ++ '.' :: decimal x.b ++ '.' :: decimal x.c ++ '.' :: decimal x.d)

structure Ipv6Addr where
  s0 : UInt16
  s1 : UInt16
  s2 : UInt16
  s3 : UInt16
  s4 : UInt16
  s5 : UInt16
  s6 : UInt16
  s7 : UInt16
  deriving DecidableEq

def Ipv6Addr.segments (x : Ipv6Addr) : List UInt16 :=
  [x.s0, x.s1, x.s2, x.s3, x.s4, x.s5, x.s6, x.s7]

def segmentOctets (s : UInt16) : List UInt8 := [(s >>> 8).toUInt8, s.toUInt8]

def Ipv6Addr.octets (x : Ipv6Addr) : List UInt8 := x.segments.flatMap segmentOctets

/-- The version 4 address in `::ffff:0:0/96`. -/
def Ipv6Addr.toIpv4Mapped (x : Ipv6Addr) : Option Ipv4Addr :=
  if x.s0 = 0 ∧ x.s1 = 0 ∧ x.s2 = 0 ∧ x.s3 = 0 ∧ x.s4 = 0 ∧ x.s5 = 0xffff then
    some ⟨(x.s6 >>> 8).toUInt8, x.s6.toUInt8, (x.s7 >>> 8).toUInt8, x.s7.toUInt8⟩
  else none

def Ipv6Addr.isUnspecified (x : Ipv6Addr) : Bool := x.segments == [0, 0, 0, 0, 0, 0, 0, 0]

def Ipv6Addr.isLoopback (x : Ipv6Addr) : Bool := x.segments == [0, 0, 0, 0, 0, 0, 0, 1]

def Ipv6Addr.isMulticast (x : Ipv6Addr) : Bool := x.s0 &&& 0xff00 == 0xff00

def hexDigits (s : UInt16) : List Char := Nat.toDigits 16 s.toNat

/-- The number of zero segments the list starts with. -/
def leadingZeros : List UInt16 → Nat
  | 0 :: rest => leadingZeros rest + 1
  | _ => 0

/-- Start and length of the first longest run of zero segments. -/
def longestZeros : Nat → List UInt16 → Nat × Nat
  | _, [] => (0, 0)
  | at', s :: rest =>
    let here := leadingZeros (s :: rest)
    let later := longestZeros (at' + 1) rest
    if later.2 ≤ here then (at', here) else later

def joinSegments : List UInt16 → List Char
  | [] => []
  | [s] => hexDigits s
  | s :: rest => hexDigits s ++ ':' :: joinSegments rest

def compress (segments : List UInt16) : List Char :=
  let zeros := longestZeros 0 segments
  if 1 < zeros.2 then
    joinSegments (segments.take zeros.1) ++
      (':' :: ':' :: joinSegments (segments.drop (zeros.1 + zeros.2)))
  else joinSegments segments

def Ipv6Addr.text (x : Ipv6Addr) : String :=
  match x.toIpv4Mapped with
  | some v4 => "::ffff:" ++ v4.text
  | none => String.ofList (compress x.segments)

def hexAlphabet : List Char := "0123456789abcdef".toList

theorem digitChar_hex {n : Nat} (h : n < 16) : Nat.digitChar n ∈ hexAlphabet := by
  have hall : ∀ k : Fin 16, Nat.digitChar k ∈ hexAlphabet := by decide
  exact hall ⟨n, h⟩

theorem toDigits_hex (n : Nat) : ∀ c ∈ Nat.toDigits 16 n, c ∈ hexAlphabet := by
  induction n using Nat.strong_induction_on with
  | _ n ih =>
    intro c hc
    rw [Nat.toDigits_eq_if (by decide)] at hc
    by_cases hn : n < 16
    · rw [if_pos hn] at hc
      exact List.mem_singleton.mp hc ▸ digitChar_hex hn
    · rw [if_neg hn] at hc
      rcases List.mem_append.mp hc with hc | hc
      · exact ih (n / 16) (Nat.div_lt_self (by omega) (by decide)) c hc
      · exact List.mem_singleton.mp hc ▸ digitChar_hex (Nat.mod_lt n (by decide))

theorem hexDigits_length (s : UInt16) : (hexDigits s).length ≤ 4 :=
  Nat.toDigits_length 16 s.toNat 4 (by decide) s.toNat_lt

theorem decimal_isDigit (b : UInt8) : ∀ c ∈ decimal b, c.isDigit = true :=
  fun _ hc => Nat.isDigit_of_mem_toDigits (by decide) (by decide) hc

theorem Ipv4Addr.text_chars (x : Ipv4Addr) : ∀ c ∈ x.text.toList, c.isDigit = true ∨ c = '.' := by
  intro c hc
  rw [Ipv4Addr.text, String.toList_ofList] at hc
  simp only [List.append_assoc, List.cons_append, List.mem_append, List.mem_cons] at hc
  rcases hc with hc | rfl | hc | rfl | hc | rfl | hc
  · exact Or.inl (decimal_isDigit _ c hc)
  · exact Or.inr rfl
  · exact Or.inl (decimal_isDigit _ c hc)
  · exact Or.inr rfl
  · exact Or.inl (decimal_isDigit _ c hc)
  · exact Or.inr rfl
  · exact Or.inl (decimal_isDigit _ c hc)

theorem longestZeros_start (n : Nat) (l : List UInt16) :
    n ≤ (longestZeros n l).1 ∨ (longestZeros n l).2 = 0 := by
  induction l generalizing n with
  | nil => exact Or.inr rfl
  | cons s rest ih =>
    simp only [longestZeros]
    by_cases h : (longestZeros (n + 1) rest).2 ≤ leadingZeros (s :: rest)
    · rw [if_pos h]
      exact Or.inl (Nat.le_refl n)
    · rw [if_neg h]
      exact (ih (n + 1)).imp_left Nat.le_of_succ_le

/-- No run of zeros starts at a segment that is not zero. -/
theorem longestZeros_nonzero {s : UInt16} (hs : s ≠ 0) (rest : List UInt16) :
    1 ≤ (longestZeros 0 (s :: rest)).1 ∨ (longestZeros 0 (s :: rest)).2 = 0 := by
  have hlead : leadingZeros (s :: rest) = 0 := by
    unfold leadingZeros
    split
    · next heq => exact absurd (List.cons.inj heq).1 hs
    · rfl
  simp only [longestZeros, hlead]
  by_cases h : (longestZeros 1 rest).2 ≤ 0
  · rw [if_pos h]
    exact Or.inr rfl
  · rw [if_neg h]
    exact longestZeros_start 1 rest

theorem joinSegments_cons (s : UInt16) (rest : List UInt16) (hr : rest ≠ []) :
    joinSegments (s :: rest) = hexDigits s ++ ':' :: joinSegments rest := by
  cases rest with
  | nil => exact absurd rfl hr
  | cons t rest => rfl

theorem compress_start {s : UInt16} (hs : s ≠ 0) {rest : List UInt16} (hr : rest ≠ []) :
    ∃ more, compress (s :: rest) = hexDigits s ++ ':' :: more := by
  have hstart := longestZeros_nonzero hs rest
  unfold compress
  generalize longestZeros 0 (s :: rest) = zeros at hstart ⊢
  obtain ⟨start, length⟩ := zeros
  by_cases hlen : 1 < length
  · simp only [if_pos hlen]
    have hpos : 1 ≤ start := hstart.resolve_right (Nat.ne_of_gt (Nat.lt_of_succ_lt hlen))
    obtain ⟨k, rfl⟩ := Nat.exists_eq_succ_of_ne_zero (Nat.one_le_iff_ne_zero.mp hpos)
    rw [List.take_succ_cons]
    by_cases htail : rest.take k = []
    · rw [htail]
      exact ⟨_, rfl⟩
    · rw [joinSegments_cons s _ htail, List.append_assoc, List.cons_append]
      exact ⟨_, rfl⟩
  · simp only [if_neg hlen]
    exact ⟨_, joinSegments_cons s rest hr⟩

/-- An address whose first segment is not zero starts with that segment. -/
theorem Ipv6Addr.text_start {x : Ipv6Addr} (hm : x.toIpv4Mapped = none) (hs : x.s0 ≠ 0) :
    ∃ more, x.text = String.ofList (hexDigits x.s0 ++ ':' :: more) := by
  obtain ⟨more, h⟩ := compress_start hs (List.cons_ne_nil x.s1 [x.s2, x.s3, x.s4, x.s5, x.s6, x.s7])
  refine ⟨more, ?_⟩
  rw [Ipv6Addr.text, hm]
  exact congrArg String.ofList h

inductive IpAddr
  | v4 (x : Ipv4Addr)
  | v6 (x : Ipv6Addr)
  deriving DecidableEq

def compareAddresses : IpAddr → IpAddr → Ordering
  | .v4 left, .v4 right => compare left.octets right.octets
  | .v6 left, .v6 right => compare left.octets right.octets
  | .v4 _, .v6 _ => .lt
  | .v6 _, .v4 _ => .gt

/-- At most, in the order that goes by version and then by octets. -/
def IpAddr.atMost (left right : IpAddr) : Bool := (compareAddresses left right).isLE

theorem compare_isLE_trans {l r t : List UInt8} (hlr : (compare l r).isLE = true)
    (hrt : (compare r t).isLE = true) : (compare l t).isLE = true := Std.TransCmp.isLE_trans hlr hrt

theorem IpAddr.atMost_trans (x y z : IpAddr) (hxy : x.atMost y = true) (hyz : y.atMost z = true) :
    x.atMost z = true := by
  cases x with
  | v4 x =>
    cases z with
    | v6 z => rfl
    | v4 z =>
      cases y with
      | v4 y => exact compare_isLE_trans hxy hyz
      | v6 y => exact absurd hyz (by simp [IpAddr.atMost, compareAddresses])
  | v6 x =>
    cases y with
    | v4 y => exact absurd hxy (by simp [IpAddr.atMost, compareAddresses])
    | v6 y =>
      cases z with
      | v4 z => exact absurd hyz (by simp [IpAddr.atMost, compareAddresses])
      | v6 z => exact compare_isLE_trans hxy hyz

theorem isLE_total (l r : List UInt8) : ((compare l r).isLE || (compare r l).isLE) = true := by
  have hswap : compare r l = (compare l r).swap := Std.OrientedCmp.eq_swap
  rw [hswap]
  cases compare l r <;> rfl

theorem IpAddr.atMost_total (x y : IpAddr) : (x.atMost y || y.atMost x) = true := by
  cases x with
  | v4 x =>
    cases y with
    | v4 y => exact isLE_total _ _
    | v6 y => rfl
  | v6 x =>
    cases y with
    | v4 y => rfl
    | v6 y => exact isLE_total _ _

/-- The first address of a sorted list is at most every other. -/
theorem atMost_of_mergeSort {l : List IpAddr} {x : IpAddr} {rest : List IpAddr}
    (h : l.mergeSort IpAddr.atMost = x :: rest) : x ∈ l ∧ ∀ y ∈ l, x.atMost y = true := by
  have hsorted := List.pairwise_mergeSort IpAddr.atMost_trans IpAddr.atMost_total l
  rw [h] at hsorted
  have hmem : ∀ y, y ∈ x :: rest ↔ y ∈ l := fun y => h ▸ List.mem_mergeSort
  refine ⟨(hmem x).mp List.mem_cons_self, ?_⟩
  intro y hy
  rcases List.mem_cons.mp ((hmem y).mpr hy) with rfl | hy
  · have hself := IpAddr.atMost_total y y
    rwa [Bool.or_self] at hself
  · exact (List.pairwise_cons.mp hsorted).1 y hy

end Net
