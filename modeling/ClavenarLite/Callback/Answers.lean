import ClavenarLite.Callback.Containment

/-! The answer that a delivery is pinned to: the choice among the addresses of a
host does not depend on the order in which they are listed or walked. -/

namespace ClavenarLite

open Fallible Net

/-- Version 4 comes first; within a version, the order goes by the octets. -/
def Precedes : IpAddr → IpAddr → Prop
  | .v4 x, .v4 y => x.octets < y.octets
  | .v4 _, .v6 _ => True
  | .v6 _, .v4 _ => False
  | .v6 x, .v6 y => x.octets < y.octets

theorem segmentOctets_injective {s t : UInt16} (h : segmentOctets s = segmentOctets t) : s = t := by
  simp only [segmentOctets, List.cons.injEq, and_true, ← UInt8.toNat_inj, UInt16.toNat_toUInt8,
    UInt16.toNat_shiftRight] at h
  simp [Nat.shiftRight_eq_div_pow] at h
  have hs := s.toNat_lt
  have ht := t.toNat_lt
  rw [← UInt16.toNat_inj]
  omega

theorem ipv4_octets_injective {x y : Ipv4Addr} (h : x.octets = y.octets) : x = y := by
  obtain ⟨a, b, c, d⟩ := x
  obtain ⟨a', b', c', d'⟩ := y
  simpa [Ipv4Addr.octets] using h

theorem ipv6_octets_injective {x y : Ipv6Addr} (h : x.octets = y.octets) : x = y := by
  obtain ⟨s0, s1, s2, s3, s4, s5, s6, s7⟩ := x
  obtain ⟨t0, t1, t2, t3, t4, t5, t6, t7⟩ := y
  have hsegments : ∀ (ss ts : List UInt16), ss.length = ts.length →
      ss.flatMap segmentOctets = ts.flatMap segmentOctets → ss = ts := by
    intro ss
    induction ss with
    | nil =>
      intro ts hlen _
      exact (List.length_eq_zero_iff.mp hlen.symm).symm
    | cons s ss ih =>
      intro ts hlen he
      cases ts with
      | nil => exact absurd hlen (by simp)
      | cons t ts =>
        rw [List.flatMap_cons, List.flatMap_cons] at he
        obtain ⟨hhead, htail⟩ := List.append_inj he rfl
        rw [segmentOctets_injective hhead, ih ts (Nat.succ.inj hlen) htail]
  have hsame := hsegments (Ipv6Addr.segments ⟨s0, s1, s2, s3, s4, s5, s6, s7⟩)
    (Ipv6Addr.segments ⟨t0, t1, t2, t3, t4, t5, t6, t7⟩) rfl h
  simpa [Ipv6Addr.segments] using hsame

theorem compare_lt_iff {l r : List UInt8} : compare l r = .lt ↔ l < r := by
  induction l generalizing r with
  | nil => cases r <;> simp [compare, List.compareLex]
  | cons a l ih =>
    cases r with
    | nil => simp [compare, List.compareLex]
    | cons b r =>
      rw [List.cons_lt_cons_iff, ← ih, List.compare_cons_cons, Ordering.then_eq_lt,
        Std.compare_eq_lt, Std.compare_eq_iff_eq]

theorem compare_isLE_iff {l r : List UInt8} : (compare l r).isLE = true ↔ l = r ∨ l < r := by
  rw [Ordering.isLE_iff_eq_lt_or_eq_eq, compare_lt_iff, Std.compare_eq_iff_eq, or_comm]

theorem atMost_iff {x y : IpAddr} : x.atMost y = true ↔ x = y ∨ Precedes x y := by
  cases x with
  | v4 x =>
    cases y with
    | v4 y =>
      have hsame : x.octets = y.octets ↔ IpAddr.v4 x = IpAddr.v4 y :=
        ⟨fun h => by rw [ipv4_octets_injective h], fun h => by rw [IpAddr.v4.inj h]⟩
      rw [← hsame]
      exact compare_isLE_iff
    | v6 y => simp [IpAddr.atMost, compareAddresses, Precedes]
  | v6 x =>
    cases y with
    | v4 y => simp [IpAddr.atMost, compareAddresses, Precedes]
    | v6 y =>
      have hsame : x.octets = y.octets ↔ IpAddr.v6 x = IpAddr.v6 y :=
        ⟨fun h => by rw [ipv6_octets_injective h], fun h => by rw [IpAddr.v6.inj h]⟩
      rw [← hsame]
      exact compare_isLE_iff

theorem Precedes.asymm {x y : IpAddr} (h : Precedes x y) : ¬ Precedes y x := by
  cases x with
  | v4 x =>
    cases y with
    | v4 y => exact List.lt_asymm h
    | v6 y => exact id
  | v6 x =>
    cases y with
    | v4 y => exact absurd h id
    | v6 y => exact List.lt_asymm h

/-- The order in which a hash set is walked is not specified. -/
structure SetWalk where
  walk : List IpAddr → List IpAddr
  perm : ∀ l, (walk l).Perm l.dedup

def firstOf : List IpAddr → Except String IpAddr
  | [] => .error "DNS answer set is empty"
  | first :: _ => .ok first

def validateAnswersBy (w : SetWalk) (addresses : List IpAddr) : Except String IpAddr := do
  refuse addresses.isEmpty "DNS answer set is empty"
  refuse (maximumAnswers < addresses.length)
    ("DNS answer set exceeds " ++ toString maximumAnswers ++ " addresses")
  refuse (addresses.any fun address => !isPublicIp address)
    "DNS answer set contains a non-public address"
  firstOf ((w.walk addresses).mergeSort IpAddr.atMost)

theorem validateAnswers_eq (addresses : List IpAddr) :
    validateAnswers addresses = validateAnswersBy ⟨List.dedup, fun l => .refl l.dedup⟩ addresses := rfl

/-- The first of a sorted set is its least element. -/
theorem sorted_first (w : SetWalk) {l : List IpAddr} (hne : l ≠ []) :
    ∃ x rest, (w.walk l).mergeSort IpAddr.atMost = x :: rest ∧ x ∈ l ∧
      ∀ y ∈ l, y ≠ x → Precedes x y := by
  have hmem : ∀ y, y ∈ (w.walk l).mergeSort IpAddr.atMost ↔ y ∈ l := fun y => by
    rw [List.mem_mergeSort, (w.perm l).mem_iff, List.mem_dedup]
  cases hsorted : (w.walk l).mergeSort IpAddr.atMost with
  | nil =>
    obtain ⟨y, hy⟩ := List.exists_mem_of_ne_nil l hne
    exact absurd ((hmem y).mpr hy) (by simp [hsorted])
  | cons x rest =>
    obtain ⟨hx, hleast⟩ := atMost_of_mergeSort hsorted
    have hx : x ∈ l := (hmem x).mp (hsorted ▸ List.mem_cons_self)
    refine ⟨x, rest, rfl, hx, fun y hy hyx => ?_⟩
    have hwalk : y ∈ w.walk l := (w.perm l).mem_iff.mpr (List.mem_dedup.mpr hy)
    exact (atMost_iff.mp (hleast y hwalk)).resolve_left hyx.symm

/-- A set has one least element. -/
theorem least_unique {l l' : List IpAddr} (hset : ∀ x, x ∈ l ↔ x ∈ l') {x x' : IpAddr}
    (hx : x ∈ l) (hx' : x' ∈ l') (hleast : ∀ y ∈ l, y ≠ x → Precedes x y)
    (hleast' : ∀ y ∈ l', y ≠ x' → Precedes x' y) : x = x' := by
  by_contra hne
  have h : Precedes x x' := hleast x' ((hset x').mpr hx') (Ne.symm hne)
  exact h.asymm (hleast' x ((hset x).mp hx) hne)

theorem validateAnswersBy_refused (w : SetWalk) {l : List IpAddr} (h : l = [] ∨ 32 < l.length) :
    ∃ e, validateAnswersBy w l = .error e := by
  rcases h with rfl | h
  · exact ⟨_, rfl⟩
  · have hne : l.isEmpty = false := by
      cases l with
      | nil => exact absurd h (by simp)
      | cons x l => rfl
    unfold validateAnswersBy
    rw [hne, refuse_false, ok_bind, refuse, if_pos (by simp only [maximumAnswers, h, decide_true])]
    exact ⟨_, rfl⟩

/-- What a list of acceptable length is answered with. -/
theorem validateAnswersBy_of (w : SetWalk) {l : List IpAddr} (h1 : 1 ≤ l.length)
    (h32 : l.length ≤ 32) : validateAnswersBy w l =
      if l.any fun address => !isPublicIp address then
        .error "DNS answer set contains a non-public address"
      else firstOf ((w.walk l).mergeSort IpAddr.atMost) := by
  have hne : l.isEmpty = false := by
    cases l with
    | nil => exact absurd h1 (by simp)
    | cons x l => rfl
  have hshort : decide (maximumAnswers < l.length) = false := decide_eq_false (Nat.not_lt.mpr h32)
  unfold validateAnswersBy
  rw [hne, hshort, refuse_false, ok_bind, refuse_false, ok_bind, refuse]
  by_cases hany : (l.any fun address => !isPublicIp address) = true
  · rw [if_pos hany, if_pos hany]
    rfl
  · rw [if_neg hany, if_neg hany]
    rfl

/-- The pinned address is the least of the set of answers, whatever their order
and however the set is walked. -/
theorem answers_order_free (w w' : SetWalk) {l l' : List IpAddr} (hset : ∀ x, x ∈ l ↔ x ∈ l')
    (hl : 1 ≤ l.length ∧ l.length ≤ 32) (hl' : 1 ≤ l'.length ∧ l'.length ≤ 32) :
    validateAnswersBy w l = validateAnswersBy w' l' ∧
      ((∃ x ∈ l, isPublicIp x = false) → ∃ e, validateAnswersBy w l = .error e) ∧
      ((∀ x ∈ l, isPublicIp x = true) → ∃! x, validateAnswersBy w l = .ok x ∧ x ∈ l ∧
        ∀ y ∈ l, y ≠ x → Precedes x y) ∧
      ∀ k : List IpAddr, k = [] ∨ 32 < k.length → ∃ e, validateAnswersBy w k = .error e := by
  have hne : l ≠ [] := fun h => by simp [h] at hl
  have hne' : l' ≠ [] := fun h => by simp [h] at hl'
  obtain ⟨x, rest, hsort, hx, hleast⟩ := sorted_first w hne
  obtain ⟨x', rest', hsort', hx', hleast'⟩ := sorted_first w' hne'
  have hfirst : x = x' := least_unique hset hx hx' hleast hleast'
  have hany : (l.any fun address => !isPublicIp address) =
      l'.any fun address => !isPublicIp address := by
    rw [Bool.eq_iff_iff, List.any_eq_true, List.any_eq_true]
    exact exists_congr fun y => by rw [hset]
  have hval := validateAnswersBy_of w hl.1 hl.2
  have hval' := validateAnswersBy_of w' hl'.1 hl'.2
  rw [hsort] at hval
  rw [hsort'] at hval'
  refine ⟨?_, ?_, ?_, fun k hk => validateAnswersBy_refused w hk⟩
  · rw [hval, hval', hany, hfirst]
    rfl
  · rintro ⟨y, hy, hpublic⟩
    rw [hval, if_pos (List.any_eq_true.mpr ⟨y, hy, by simp [hpublic]⟩)]
    exact ⟨_, rfl⟩
  · intro hpublic
    have hno : ¬ (l.any fun address => !isPublicIp address) = true := by
      rw [List.any_eq_true]
      rintro ⟨y, hy, hbad⟩
      simp [hpublic y hy] at hbad
    rw [hval, if_neg hno]
    refine ⟨x, ⟨rfl, hx, hleast⟩, ?_⟩
    rintro y ⟨hy, _, _⟩
    exact (Except.ok.inj hy).symm

theorem answers_order_free_repeated :
    validateAnswersBy ⟨List.dedup, fun l => .refl l.dedup⟩
        [.v6 ⟨0x2606, 0x4700, 0x4700, 0, 0, 0, 0, 0x1111⟩, .v4 ⟨8, 8, 8, 8⟩, .v4 ⟨1, 1, 1, 1⟩,
          .v4 ⟨8, 8, 8, 8⟩] =
      validateAnswersBy ⟨fun l => l.dedup.reverse, fun _ => List.reverse_perm _⟩
        [.v4 ⟨1, 1, 1, 1⟩, .v6 ⟨0x2606, 0x4700, 0x4700, 0, 0, 0, 0, 0x1111⟩, .v4 ⟨8, 8, 8, 8⟩] :=
  (answers_order_free _ _ (by simp; tauto) (by decide) (by decide)).1

end ClavenarLite
