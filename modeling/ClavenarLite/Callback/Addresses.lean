import ClavenarLite.Callback.Target
import ClavenarLite.Lib.AddressBlocks

/-! Which addresses the classifier lets through, against the blocks that the
target contract names and the forms that carry a version 4 address. -/

namespace ClavenarLite

open Net

/-- The address classes that the target contract rejects. -/
inductive TargetClass
  | unspecified
  | loopback
  | privateUse
  | linkLocal
  | sharedAddressSpace
  | documentation
  | benchmark
  | multicast
  | reserved

def ipv4Blocks : TargetClass → List (Block Ipv4Addr)
  | .unspecified => [⟨⟨0, 0, 0, 0⟩, 8⟩]
  | .loopback => [⟨⟨127, 0, 0, 0⟩, 8⟩]
  | .privateUse => [⟨⟨10, 0, 0, 0⟩, 8⟩, ⟨⟨172, 16, 0, 0⟩, 12⟩, ⟨⟨192, 168, 0, 0⟩, 16⟩]
  | .linkLocal => [⟨⟨169, 254, 0, 0⟩, 16⟩]
  | .sharedAddressSpace => [⟨⟨100, 64, 0, 0⟩, 10⟩]
  | .documentation =>
    [⟨⟨192, 0, 2, 0⟩, 24⟩, ⟨⟨198, 51, 100, 0⟩, 24⟩, ⟨⟨203, 0, 113, 0⟩, 24⟩]
  | .benchmark => [⟨⟨198, 18, 0, 0⟩, 15⟩]
  | .multicast => [⟨⟨224, 0, 0, 0⟩, 4⟩]
  | .reserved => [⟨⟨240, 0, 0, 0⟩, 4⟩]

/-- A block of version 6 addresses given by its first two segments. -/
def block6 (s0 s1 : UInt16) (bits : Nat) : Block Ipv6Addr := ⟨⟨s0, s1, 0, 0, 0, 0, 0, 0⟩, bits⟩

def uniqueLocal : Block Ipv6Addr := block6 0xfc00 0 7

def documentation3fff : Block Ipv6Addr := block6 0x3fff 0 20

/-- The reserved blocks are those outside the unicast space, but for `::/8`. -/
def ipv6Blocks : TargetClass → List (Block Ipv6Addr)
  | .unspecified => [⟨⟨0, 0, 0, 0, 0, 0, 0, 0⟩, 128⟩]
  | .loopback => [⟨⟨0, 0, 0, 0, 0, 0, 0, 1⟩, 128⟩]
  | .privateUse => [uniqueLocal]
  | .linkLocal => [block6 0xfe80 0 10]
  | .sharedAddressSpace => []
  | .documentation => [block6 0x2001 0x0db8 32, documentation3fff]
  | .benchmark => [⟨⟨0x2001, 2, 0, 0, 0, 0, 0, 0⟩, 48⟩]
  | .multicast => [block6 0xff00 0 8]
  | .reserved =>
    [block6 0x0100 0 8, block6 0x0200 0 7, block6 0x0400 0 6, block6 0x0800 0 5, block6 0x1000 0 4,
      block6 0x4000 0 3, block6 0x6000 0 3, block6 0x8000 0 3, block6 0xa000 0 3, block6 0xc000 0 3,
      block6 0xe000 0 4, block6 0xf000 0 5, block6 0xf800 0 6, block6 0xfe00 0 9, block6 0xfec0 0 10]

def mappedBlock : Block Ipv6Addr := ⟨⟨0, 0, 0, 0, 0, 0xffff, 0, 0⟩, 96⟩

/-- The address belongs to the class; `::/8` is reserved apart from the
addresses that stand for version 4 ones. -/
def InClass (c : TargetClass) : IpAddr → Prop
  | .v4 x => ∃ block ∈ ipv4Blocks c, block.Has4 x
  | .v6 x => (∃ block ∈ ipv6Blocks c, block.Has6 x) ∨
      c = .reserved ∧ (block6 0 0 8).Has6 x ∧ ¬ mappedBlock.Has6 x

def sixToFour : Block Ipv6Addr := block6 0x2002 0 16

/-- The version 6 address carries the version 4 address. -/
inductive Embeds (x : Ipv6Addr) : Ipv4Addr → Prop
  | mapped (h : mappedBlock.Has6 x) : Embeds x (ipv4OfSegments x.s6 x.s7)
  | compatible (h : (block6 0 0 96).Has6 x) : Embeds x (ipv4OfSegments x.s6 x.s7)
  | nat64 (h : (block6 0x0064 0xff9b 96).Has6 x) : Embeds x (ipv4OfSegments x.s6 x.s7)
  | sixToFour (h : sixToFour.Has6 x) : Embeds x (ipv4OfSegments x.s1 x.s2)
  | teredoServer (h : (block6 0x2001 0 32).Has6 x) : Embeds x (ipv4OfSegments x.s2 x.s3)
  | teredoClient (h : (block6 0x2001 0 32).Has6 x) :
      Embeds x (ipv4OfSegments (x.s6 ^^^ 0xffff) (x.s7 ^^^ 0xffff))

/-- The blocks of the special-purpose registry and the multicast block. -/
def specialIpv4 : List (Block Ipv4Addr) :=
  [⟨⟨0, 0, 0, 0⟩, 8⟩, ⟨⟨10, 0, 0, 0⟩, 8⟩, ⟨⟨100, 64, 0, 0⟩, 10⟩, ⟨⟨127, 0, 0, 0⟩, 8⟩,
    ⟨⟨169, 254, 0, 0⟩, 16⟩, ⟨⟨172, 16, 0, 0⟩, 12⟩, ⟨⟨192, 0, 0, 0⟩, 24⟩, ⟨⟨192, 0, 2, 0⟩, 24⟩,
    ⟨⟨192, 31, 196, 0⟩, 24⟩, ⟨⟨192, 52, 193, 0⟩, 24⟩, ⟨⟨192, 88, 99, 0⟩, 24⟩,
    ⟨⟨192, 168, 0, 0⟩, 16⟩, ⟨⟨192, 175, 48, 0⟩, 24⟩, ⟨⟨198, 18, 0, 0⟩, 15⟩,
    ⟨⟨198, 51, 100, 0⟩, 24⟩, ⟨⟨203, 0, 113, 0⟩, 24⟩, ⟨⟨224, 0, 0, 0⟩, 4⟩, ⟨⟨240, 0, 0, 0⟩, 4⟩]

def globalUnicast : Block Ipv6Addr := block6 0x2000 0 3

/-- The blocks inside global unicast that need not be accepted. -/
def specialIpv6 : List (Block Ipv6Addr) :=
  [block6 0x2001 0 23, block6 0x2001 0x0db8 32, sixToFour, documentation3fff]

def Ordinary : IpAddr → Prop
  | .v4 x => ∀ block ∈ specialIpv4, ¬ block.Has4 x
  | .v6 x => globalUnicast.Has6 x ∧ ∀ block ∈ specialIpv6, ¬ block.Has6 x

/-- The blocks that the classifier compares octets with. -/
def rejectedIpv4 : List (Block Ipv4Addr) :=
  [⟨⟨0, 0, 0, 0⟩, 8⟩, ⟨⟨10, 0, 0, 0⟩, 8⟩, ⟨⟨127, 0, 0, 0⟩, 8⟩, ⟨⟨100, 64, 0, 0⟩, 10⟩,
    ⟨⟨169, 254, 0, 0⟩, 16⟩, ⟨⟨172, 16, 0, 0⟩, 12⟩, ⟨⟨192, 0, 0, 0⟩, 24⟩, ⟨⟨192, 0, 2, 0⟩, 24⟩,
    ⟨⟨192, 88, 99, 0⟩, 24⟩, ⟨⟨192, 168, 0, 0⟩, 16⟩, ⟨⟨198, 18, 0, 0⟩, 15⟩,
    ⟨⟨198, 51, 100, 0⟩, 24⟩, ⟨⟨203, 0, 113, 0⟩, 24⟩, ⟨⟨224, 0, 0, 0⟩, 3⟩]

theorem octet_bounds (x : Ipv4Addr) :
    x.a.toNat < 2 ^ 8 ∧ x.b.toNat < 2 ^ 8 ∧ x.c.toNat < 2 ^ 8 ∧ x.d.toNat < 2 ^ 8 :=
  ⟨x.a.toNat_lt, x.b.toNat_lt, x.c.toNat_lt, x.d.toNat_lt⟩

def firstThree (x : Ipv4Addr) : Nat := (x.a.toNat * 2 ^ 8 + x.b.toNat) * 2 ^ 8 + x.c.toNat

theorem block4_iff {start x : Ipv4Addr} {bits : Nat} (h : bits ≤ 24) :
    Block.Has4 ⟨start, bits⟩ x ↔
      firstThree x / 2 ^ (24 - bits) = firstThree start / 2 ^ (24 - bits) := by
  have hsplit : ∀ y : Ipv4Addr, y.value / 2 ^ (32 - bits) = firstThree y / 2 ^ (24 - bits) := by
    intro y
    have hthree : firstThree y = y.value / 2 ^ 8 := by
      have hbounds := octet_bounds y
      simp [Ipv4Addr.value, firstThree]
      omega
    rw [hthree, Nat.div_div_eq_div_mul, ← Nat.pow_add]
    congr 2
    omega
  show x.value / 2 ^ (32 - bits) = start.value / 2 ^ (32 - bits) ↔ _
  rw [hsplit, hsplit]

theorem has4_slash8 {a : UInt8} {x : Ipv4Addr} : Block.Has4 ⟨⟨a, 0, 0, 0⟩, 8⟩ x ↔ x.a = a := by
  have hbounds := octet_bounds x
  rw [block4_iff (by decide), ← UInt8.toNat_inj]
  simp [firstThree]
  omega

theorem has4_slash16 {a b : UInt8} {x : Ipv4Addr} :
    Block.Has4 ⟨⟨a, b, 0, 0⟩, 16⟩ x ↔ x.a = a ∧ x.b = b := by
  have hbounds := octet_bounds x
  have hb := b.toNat_lt
  rw [block4_iff (by decide), ← UInt8.toNat_inj, ← UInt8.toNat_inj]
  simp [firstThree]
  omega

theorem has4_slash24 {a b c : UInt8} {x : Ipv4Addr} :
    Block.Has4 ⟨⟨a, b, c, 0⟩, 24⟩ x ↔ x.a = a ∧ x.b = b ∧ x.c = c := by
  have hbounds := octet_bounds x
  have hb := b.toNat_lt
  have hc := c.toNat_lt
  rw [block4_iff (by decide), ← UInt8.toNat_inj, ← UInt8.toNat_inj, ← UInt8.toNat_inj]
  simp [firstThree]
  omega

theorem isPublicIpv4_iff {x : Ipv4Addr} :
    isPublicIpv4 x = true ↔ ∀ block ∈ rejectedIpv4, ¬ block.Has4 x := by
  have hbounds := octet_bounds x
  have hshared : Block.Has4 ⟨⟨100, 64, 0, 0⟩, 10⟩ x ↔ x.a = 100 ∧ 64 ≤ x.b ∧ x.b ≤ 127 := by
    rw [block4_iff (by decide), ← UInt8.toNat_inj, UInt8.le_iff_toNat_le, UInt8.le_iff_toNat_le]
    simp [firstThree]
    omega
  have hprivate : Block.Has4 ⟨⟨172, 16, 0, 0⟩, 12⟩ x ↔ x.a = 172 ∧ 16 ≤ x.b ∧ x.b ≤ 31 := by
    rw [block4_iff (by decide), ← UInt8.toNat_inj, UInt8.le_iff_toNat_le, UInt8.le_iff_toNat_le]
    simp [firstThree]
    omega
  have hbenchmark : Block.Has4 ⟨⟨198, 18, 0, 0⟩, 15⟩ x ↔ x.a = 198 ∧ (x.b = 18 ∨ x.b = 19) := by
    rw [block4_iff (by decide), ← UInt8.toNat_inj, ← UInt8.toNat_inj, ← UInt8.toNat_inj]
    simp [firstThree]
    omega
  have hhigh : Block.Has4 ⟨⟨224, 0, 0, 0⟩, 3⟩ x ↔ 224 ≤ x.a := by
    rw [block4_iff (by decide), UInt8.le_iff_toNat_le]
    simp [firstThree]
    omega
  simp only [rejectedIpv4, List.forall_mem_cons, List.not_mem_nil, has4_slash8, has4_slash16,
    has4_slash24, hshared, hprivate, hbenchmark, hhigh, isPublicIpv4]
  simp [imp_iff_not_or, and_assoc, or_assoc]

theorem ipv4_class_not_public {c : TargetClass} {x : Ipv4Addr} (h : InClass c (.v4 x)) :
    isPublicIpv4 x = false := by
  obtain ⟨block, hblock, hhas⟩ := h
  have hrejected : ∀ block ∈ rejectedIpv4, block.Has4 x → isPublicIpv4 x = false :=
    fun block hb hx => Bool.eq_false_iff.mpr fun hp => isPublicIpv4_iff.mp hp block hb hx
  have hhigh : ∀ block : Block Ipv4Addr, block = ⟨⟨224, 0, 0, 0⟩, 4⟩ ∨
      block = ⟨⟨240, 0, 0, 0⟩, 4⟩ → block.Has4 x → isPublicIpv4 x = false := by
    intro block hb hx
    refine hrejected ⟨⟨224, 0, 0, 0⟩, 3⟩ (by simp [rejectedIpv4]) ?_
    rcases hb with rfl | rfl <;>
    · rw [block4_iff (by decide)] at hx ⊢
      simp [firstThree] at hx ⊢
      omega
  cases c with
  | multicast => exact hhigh block (Or.inl (List.mem_singleton.mp hblock)) hhas
  | reserved => exact hhigh block (Or.inr (List.mem_singleton.mp hblock)) hhas
  | _ =>
    refine hrejected block ?_ hhas
    simp only [ipv4Blocks, List.mem_cons, List.not_mem_nil, or_false] at hblock
    simp only [rejectedIpv4, List.mem_cons, List.not_mem_nil, or_false]
    tauto

theorem ipv4_ordinary_public {x : Ipv4Addr} (h : Ordinary (.v4 x)) : isPublicIpv4 x = true := by
  rw [isPublicIpv4_iff]
  intro block hblock hhas
  by_cases hs : block ∈ specialIpv4
  · exact h block hs hhas
  · have hhigh : block = ⟨⟨224, 0, 0, 0⟩, 3⟩ := by
      simp only [rejectedIpv4, List.mem_cons, List.not_mem_nil, or_false] at hblock
      simp only [specialIpv4, List.mem_cons, List.not_mem_nil, or_false] at hs
      tauto
    subst hhigh
    have h224 := h ⟨⟨224, 0, 0, 0⟩, 4⟩ (by simp [specialIpv4])
    have h240 := h ⟨⟨240, 0, 0, 0⟩, 4⟩ (by simp [specialIpv4])
    rw [block4_iff (by decide)] at h224 h240 hhas
    simp [firstThree] at h224 h240 hhas
    omega

theorem segment_bounds (x : Ipv6Addr) : x.s0.toNat < 2 ^ 16 ∧ x.s1.toNat < 2 ^ 16 ∧
    x.s2.toNat < 2 ^ 16 ∧ x.s3.toNat < 2 ^ 16 ∧ x.s4.toNat < 2 ^ 16 ∧ x.s5.toNat < 2 ^ 16 ∧
    x.s6.toNat < 2 ^ 16 ∧ x.s7.toNat < 2 ^ 16 :=
  ⟨x.s0.toNat_lt, x.s1.toNat_lt, x.s2.toNat_lt, x.s3.toNat_lt, x.s4.toNat_lt, x.s5.toNat_lt,
    x.s6.toNat_lt, x.s7.toNat_lt⟩

theorem mapped_iff {x : Ipv6Addr} : mappedBlock.Has6 x ↔
    x.s0 = 0 ∧ x.s1 = 0 ∧ x.s2 = 0 ∧ x.s3 = 0 ∧ x.s4 = 0 ∧ x.s5 = 0xffff := by
  have hbounds := segment_bounds x
  simp [mappedBlock, Block.Has6, Ipv6Addr.value, Ipv6Addr.segments, ← UInt16.toNat_inj]
  omega

theorem toIpv4Mapped_of {x : Ipv6Addr} (h : mappedBlock.Has6 x) :
    x.toIpv4Mapped = some (ipv4OfSegments x.s6 x.s7) :=
  if_pos (mapped_iff.mp h)

theorem toIpv4Mapped_none {x : Ipv6Addr} (h : ¬ mappedBlock.Has6 x) : x.toIpv4Mapped = none :=
  if_neg fun hs => h (mapped_iff.mpr hs)

theorem mask_iff {s mask value : UInt16} {k n : Nat} (hk : k ≤ 16) (hm : mask.toNat = 2 ^ 16 - 2 ^ k)
    (hv : value.toNat = n * 2 ^ k) : s &&& mask = value ↔ s.toNat / 2 ^ k = n := by
  rw [← UInt16.toNat_inj, UInt16.toNat_and, hm, land_mask s.toNat_lt hk, hv]
  exact Nat.mul_left_inj (Nat.two_pow_pos k).ne'

/-- Outside the mapped block, an address is public if it is global unicast and
in none of five blocks under `2001::/16`. -/
theorem isPublicIpv6_iff {x : Ipv6Addr} (hm : x.toIpv4Mapped = none) : isPublicIpv6 x = true ↔
    x.s0.toNat / 2 ^ 13 = 1 ∧ ¬ (x.s0.toNat = 0x2001 ∧ (x.s1.toNat = 0x0db8 ∨ x.s1.toNat = 2 ∨
      x.s1.toNat = 0 ∨ x.s1.toNat / 2 ^ 5 = 1)) := by
  have hunicast : (x.s0 &&& 0xe000 = 0x2000) ↔ x.s0.toNat / 2 ^ 13 = 1 :=
    mask_iff (by decide) (by decide) (by decide)
  have horchid : (x.s1 &&& 0xffe0 = 0x0020) ↔ x.s1.toNat / 2 ^ 5 = 1 :=
    mask_iff (by decide) (by decide) (by decide)
  have hmulticast : (x.s0 &&& 0xff00 = 0xff00) ↔ x.s0.toNat / 2 ^ 8 = 0xff :=
    mask_iff (by decide) (by decide) (by decide)
  -- the other classes are not global unicast anyway
  have hfirst : x.s0.toNat / 2 ^ 13 = 1 → x.isUnspecified = false ∧ x.isLoopback = false ∧
      x.isMulticast = false ∧ x.segments.take 6 ≠ [0, 0, 0, 0, 0, 0] := by
    intro h
    have hzero : x.s0 ≠ 0 := fun h0 => by simp [h0] at h
    have hno : ¬ x.s0.toNat / 2 ^ 8 = 0xff := by omega
    simp [Ipv6Addr.isUnspecified, Ipv6Addr.isLoopback, Ipv6Addr.isMulticast, Ipv6Addr.segments,
      hzero, hmulticast]
    omega
  have hcode : isPublicIpv6 x = true ↔ ((((((((x.s0.toNat / 2 ^ 13 = 1 ∧ x.isUnspecified = false) ∧
      x.isLoopback = false) ∧ x.isMulticast = false) ∧ ¬ x.segments.take 6 = [0, 0, 0, 0, 0, 0]) ∧
      ¬ (x.s0.toNat = 0x2001 ∧ x.s1.toNat = 0x0db8)) ∧ ¬ (x.s0.toNat = 0x2001 ∧ x.s1.toNat = 2)) ∧
      ¬ (x.s0.toNat = 0x2001 ∧ x.s1.toNat = 0)) ∧
      ¬ (x.s0.toNat = 0x2001 ∧ x.s1.toNat / 2 ^ 5 = 1)) := by
    simp [isPublicIpv6, hm, hunicast, horchid, ← UInt16.toNat_inj, imp_iff_not_or]
  rw [hcode]
  constructor
  · rintro ⟨⟨⟨⟨⟨⟨⟨⟨h, _⟩, _⟩, _⟩, _⟩, h1⟩, h2⟩, h3⟩, h4⟩
    exact ⟨h, by omega⟩
  · rintro ⟨h, hno⟩
    obtain ⟨h1, h2, h3, h4⟩ := hfirst h
    exact ⟨⟨⟨⟨⟨⟨⟨⟨h, h1⟩, h2⟩, h3⟩, h4⟩, by omega⟩, by omega⟩, by omega⟩, by omega⟩

def firstTwo (x : Ipv6Addr) : Nat := x.s0.toNat * 2 ^ 16 + x.s1.toNat

theorem value_firstTwo (x : Ipv6Addr) : x.value / 2 ^ 96 = firstTwo x := by
  have hbounds := segment_bounds x
  simp [Ipv6Addr.value, Ipv6Addr.segments, firstTwo]
  omega

/-- A block of at most 32 bits looks at two segments. -/
theorem has6_iff {block : Block Ipv6Addr} {x : Ipv6Addr} (h : block.bits ≤ 32) : block.Has6 x ↔
    firstTwo x / 2 ^ (32 - block.bits) = firstTwo block.start / 2 ^ (32 - block.bits) := by
  have hsplit : ∀ y : Ipv6Addr,
      y.value / 2 ^ (128 - block.bits) = firstTwo y / 2 ^ (32 - block.bits) := by
    intro y
    rw [← value_firstTwo, Nat.div_div_eq_div_mul, ← Nat.pow_add]
    congr 2
    omega
  rw [Block.Has6, hsplit, hsplit]

theorem block6_iff {s0 s1 : UInt16} {bits : Nat} {x : Ipv6Addr} (h : bits ≤ 32) :
    (block6 s0 s1 bits).Has6 x ↔
      firstTwo x / 2 ^ (32 - bits) = (s0.toNat * 2 ^ 16 + s1.toNat) / 2 ^ (32 - bits) :=
  has6_iff h

/-- A block of at least 32 bits fixes two segments. -/
theorem firstTwo_of_has {block : Block Ipv6Addr} {x : Ipv6Addr} (h : 32 ≤ block.bits)
    (hb : block.bits ≤ 128) (hhas : block.Has6 x) : firstTwo x = firstTwo block.start := by
  have hsplit : ∀ y : Ipv6Addr,
      firstTwo y = y.value / 2 ^ (128 - block.bits) / 2 ^ (block.bits - 32) := by
    intro y
    rw [← value_firstTwo, Nat.div_div_eq_div_mul, ← Nat.pow_add]
    congr 2
    omega
  rw [hsplit, hsplit, show x.value / _ = _ from hhas]

/-- A named block other than `3fff::/20` holds no public address. -/
theorem not_public_of_class {c : TargetClass} {x : Ipv6Addr} (h : InClass c (.v6 x))
    (hm : ¬ mappedBlock.Has6 x) (hp : isPublicIpv6 x = true) : documentation3fff.Has6 x := by
  rw [isPublicIpv6_iff (toIpv4Mapped_none hm)] at hp
  have hbounds := segment_bounds x
  have hfirst : firstTwo x = x.s0.toNat * 2 ^ 16 + x.s1.toNat := rfl
  have hvalue := value_firstTwo x
  rcases h with ⟨block, hblock, hhas⟩ | ⟨_, h, _⟩
  · cases c with
    | unspecified | loopback | benchmark =>
      obtain rfl := List.mem_singleton.mp hblock
      have htwo := firstTwo_of_has (by decide) (by decide) hhas
      simp [firstTwo] at htwo
      omega
    | sharedAddressSpace => exact absurd hblock List.not_mem_nil
    | privateUse =>
      obtain rfl := List.mem_singleton.mp hblock
      rw [uniqueLocal, block6_iff (by decide)] at hhas
      simp at hhas
      omega
    | linkLocal | multicast =>
      obtain rfl := List.mem_singleton.mp hblock
      rw [block6_iff (by decide)] at hhas
      simp at hhas
      omega
    | documentation =>
      rcases List.mem_pair.mp hblock with rfl | rfl
      · rw [block6_iff (by decide)] at hhas
        simp at hhas
        omega
      · exact hhas
    | reserved =>
      simp only [ipv6Blocks, List.mem_cons, List.not_mem_nil, or_false] at hblock
      rcases hblock with rfl | rfl | rfl | rfl | rfl | rfl | rfl | rfl | rfl | rfl | rfl | rfl |
        rfl | rfl | rfl <;>
      · rw [block6_iff (by decide)] at hhas
        simp at hhas
        omega
  · rw [block6_iff (by decide)] at h
    simp at h
    omega

/-- No named block holds an address that stands for a version 4 one. -/
theorem mapped_no_class {c : TargetClass} {x : Ipv6Addr} (hm : mappedBlock.Has6 x) :
    ¬ InClass c (.v6 x) := by
  have htwo : firstTwo x = 0 := firstTwo_of_has (by decide) (by decide) hm
  have hvalue : x.value / 2 ^ 32 = 0xffff := hm
  rintro (⟨block, hblock, hhas⟩ | ⟨_, _, h⟩)
  · by_cases hbits : block.bits ≤ 32
    · -- a short block would have to start with zero segments
      have hstart : ∀ b ∈ ipv6Blocks c, b.bits ≤ 32 → firstTwo b.start / 2 ^ (32 - b.bits) ≠ 0 := by
        cases c <;> decide
      have hzero := (has6_iff hbits).mp hhas
      rw [htwo, Nat.zero_div] at hzero
      exact hstart block hblock hbits hzero.symm
    · have hlong : ∀ b ∈ ipv6Blocks c, ¬ b.bits ≤ 32 →
          b.bits ≤ 128 ∧ (firstTwo b.start ≠ 0 ∨ b.bits = 128 ∧ b.start.value ≤ 1) := by
        cases c <;> decide
      obtain ⟨hb, hfirst | ⟨h128, hsmall⟩⟩ := hlong block hblock hbits
      · exact hfirst ((firstTwo_of_has (Nat.le_of_not_le hbits) hb hhas).symm.trans htwo)
      · rw [Block.Has6, h128] at hhas
        omega
  · exact h hm

/-- Every embedding form but 6to4 is refused, or judged by the embedded address. -/
theorem embeds_public {x : Ipv6Addr} {v : Ipv4Addr} (h : Embeds x v)
    (hp : isPublicIpv6 x = true) : isPublicIpv4 v = true ∨
      sixToFour.Has6 x ∧ v = ipv4OfSegments x.s1 x.s2 := by
  by_cases hm : mappedBlock.Has6 x
  · have hjudged : isPublicIpv4 (ipv4OfSegments x.s6 x.s7) = true := by
      rw [isPublicIpv6, toIpv4Mapped_of hm] at hp
      exact hp
    have htwo := firstTwo_of_has (by decide) (by decide) hm
    cases h with
    | mapped h => exact Or.inl hjudged
    | compatible h => exact Or.inl hjudged
    | nat64 h => exact Or.inl hjudged
    | sixToFour h => exact Or.inr ⟨h, rfl⟩
    | teredoServer h | teredoClient h =>
      have hother := firstTwo_of_has (by decide) (by decide) h
      exact absurd (htwo.symm.trans hother) (by decide)
  · rw [isPublicIpv6_iff (toIpv4Mapped_none hm)] at hp
    have hbounds := segment_bounds x
    have hfirst : firstTwo x = x.s0.toNat * 2 ^ 16 + x.s1.toNat := rfl
    cases h with
    | mapped h => exact absurd h hm
    | compatible h | nat64 h =>
      have htwo := firstTwo_of_has (by decide) (by decide) h
      simp [firstTwo, block6] at htwo
      omega
    | sixToFour h => exact Or.inr ⟨h, rfl⟩
    | teredoServer h | teredoClient h =>
      rw [block6_iff (by decide)] at h
      simp at h
      omega

theorem ipv6_ordinary_public {x : Ipv6Addr} (h : Ordinary (.v6 x)) : isPublicIpv6 x = true := by
  obtain ⟨hglobal, hspecial⟩ := h
  have hbounds := segment_bounds x
  have hfirst : firstTwo x = x.s0.toNat * 2 ^ 16 + x.s1.toNat := rfl
  have h23 : ¬ (block6 0x2001 0 23).Has6 x := hspecial _ (by simp [specialIpv6])
  have hdoc : ¬ (block6 0x2001 0x0db8 32).Has6 x := hspecial _ (by simp [specialIpv6])
  rw [globalUnicast, block6_iff (by decide)] at hglobal
  rw [block6_iff (by decide)] at h23 hdoc
  simp at hglobal h23 hdoc
  have hm : ¬ mappedBlock.Has6 x := fun hm => by
    have htwo := firstTwo_of_has (by decide) (by decide) hm
    simp [firstTwo, mappedBlock] at htwo
    omega
  rw [isPublicIpv6_iff (toIpv4Mapped_none hm)]
  omega

/-- An address that is let through is in no named block, and so is every version
4 address it carries. -/
def Sound (x : IpAddr) : Prop :=
  isPublicIp x = true →
    (∀ c, ¬ InClass c x) ∧ ∀ y v, x = .v6 y → Embeds y v → isPublicIp (.v4 v) = true

/-- The address is not in the blocks that the classifier does not know: the
second documentation block, and 6to4 in front of a version 4 address that is not
public. -/
def Known : IpAddr → Prop
  | .v4 _ => True
  | .v6 x => ¬ documentation3fff.Has6 x ∧
      (sixToFour.Has6 x → isPublicIp (.v4 (ipv4OfSegments x.s1 x.s2)) = true)

instance (x : Ipv6Addr) : Decidable (Known (.v6 x)) := by
  unfold Known
  infer_instance

theorem unknown_public {x : Ipv6Addr} (h : documentation3fff.Has6 x ∨ sixToFour.Has6 x) :
    isPublicIpv6 x = true := by
  have hbounds := segment_bounds x
  have hfirst : firstTwo x = x.s0.toNat * 2 ^ 16 + x.s1.toNat := rfl
  rw [documentation3fff, sixToFour, block6_iff (by decide), block6_iff (by decide)] at h
  simp at h
  have hm : ¬ mappedBlock.Has6 x := fun hm => by
    have htwo := firstTwo_of_has (by decide) (by decide) hm
    simp [firstTwo, mappedBlock] at htwo
    omega
  rw [isPublicIpv6_iff (toIpv4Mapped_none hm)]
  omega

theorem sound_v4 (x : Ipv4Addr) : Sound (.v4 x) := by
  intro hp
  refine ⟨fun c hc => ?_, fun y v he => absurd he (by simp)⟩
  have hno := ipv4_class_not_public hc
  rw [isPublicIp] at hp
  simp [hp] at hno

theorem sound_v6_iff (x : Ipv6Addr) : Sound (.v6 x) ↔ Known (.v6 x) := by
  constructor
  · intro h
    constructor
    · intro hdoc
      exact (h (unknown_public (Or.inl hdoc))).1 .documentation (Or.inl ⟨_, by simp [ipv6Blocks], hdoc⟩)
    · intro hsix
      exact (h (unknown_public (Or.inr hsix))).2 x _ rfl (.sixToFour hsix)
  · rintro ⟨hdoc, hsix⟩ hp
    refine ⟨fun c hc => ?_, ?_⟩
    · by_cases hm : mappedBlock.Has6 x
      · exact mapped_no_class hm hc
      · exact hdoc (not_public_of_class hc hm hp)
    · intro y v hy he
      obtain rfl := IpAddr.v6.inj hy
      rcases embeds_public he hp with hv | ⟨hs, rfl⟩
      · exact hv
      · exact hsix hs

/-- Every ordinary address is let through, and the classifier is sound exactly
at the addresses it knows. -/
theorem classifier_complete (x : IpAddr) :
    (Ordinary x → isPublicIp x = true) ∧ (Sound x ↔ Known x) := by
  cases x with
  | v4 x => exact ⟨ipv4_ordinary_public, iff_of_true (sound_v4 x) trivial⟩
  | v6 x => exact ⟨ipv6_ordinary_public, sound_v6_iff x⟩

/-- An address of the second documentation block is let through, and so is the
6to4 form of a private address. -/
theorem unknown_let_through : ¬ Sound (.v6 ⟨0x3fff, 0, 0, 0, 0, 0, 0, 1⟩) ∧
    ¬ Sound (.v6 ⟨0x2002, 0x0a00, 0x0001, 0, 0, 0, 0, 1⟩) := by
  rw [sound_v6_iff, sound_v6_iff]
  decide

end ClavenarLite
