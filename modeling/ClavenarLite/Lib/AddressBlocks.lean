import ClavenarLite.Lib.IpAddr
import Mathlib.Tactic.Ring

/-! Blocks of internet addresses: the addresses that share their leading bits
with a start address. -/

namespace Net

def Ipv4Addr.value (x : Ipv4Addr) : Nat :=
  ((x.a.toNat * 2 ^ 8 + x.b.toNat) * 2 ^ 8 + x.c.toNat) * 2 ^ 8 + x.d.toNat

def Ipv6Addr.value (x : Ipv6Addr) : Nat :=
  x.segments.foldl (fun n s => n * 2 ^ 16 + s.toNat) 0

/-- A start address and the number of leading bits that count. -/
structure Block (Addr : Type) where
  start : Addr
  bits : Nat

def Block.Has4 (block : Block Ipv4Addr) (x : Ipv4Addr) : Prop :=
  x.value / 2 ^ (32 - block.bits) = block.start.value / 2 ^ (32 - block.bits)

def Block.Has6 (block : Block Ipv6Addr) (x : Ipv6Addr) : Prop :=
  x.value / 2 ^ (128 - block.bits) = block.start.value / 2 ^ (128 - block.bits)

instance (block : Block Ipv4Addr) (x : Ipv4Addr) : Decidable (block.Has4 x) := by
  unfold Block.Has4
  infer_instance

instance (block : Block Ipv6Addr) (x : Ipv6Addr) : Decidable (block.Has6 x) := by
  unfold Block.Has6
  infer_instance

/-- The version 4 address in two segments. -/
def ipv4OfSegments (high low : UInt16) : Ipv4Addr :=
  ⟨(high >>> 8).toUInt8, high.toUInt8, (low >>> 8).toUInt8, low.toUInt8⟩

/-- A mask of leading bits keeps the multiples of the bit below them. -/
theorem land_mask {x k : Nat} (hx : x < 2 ^ 16) (hk : k ≤ 16) :
    x &&& (2 ^ 16 - 2 ^ k) = x / 2 ^ k * 2 ^ k := by
  have hmask : 2 ^ 16 - 2 ^ k = (2 ^ (16 - k) - 1) * 2 ^ k := by
    rw [Nat.sub_mul, one_mul, ← Nat.pow_add, Nat.sub_add_cancel hk]
  apply Nat.eq_of_testBit_eq
  intro i
  rw [hmask, Nat.testBit_and, Nat.testBit_mul_two_pow, Nat.testBit_mul_two_pow,
    Nat.testBit_two_pow_sub_one, Nat.testBit_div_two_pow]
  by_cases hi : k ≤ i
  · have hsum : i - k + k = i := Nat.sub_add_cancel hi
    by_cases hlow : i < 16
    · have hlt : i - k < 16 - k := by omega
      simp [hi, hlt, hsum]
    · have hbig : x < 2 ^ i := hx.trans_le (Nat.pow_le_pow_right (by decide) (by omega))
      simp [hi, hsum, Nat.testBit_lt_two_pow hbig]
  · simp [hi]

end Net
