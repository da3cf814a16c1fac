import ClavenarLite.Lib.Bytes
import Mathlib.Algebra.Group.Nat.Defs

/-! The SHA-256 and SHA-1 digests, on 32-bit words kept as natural numbers. -/

namespace Sha

open Bytes

def wordSize : Nat := 2 ^ 32

def addWords (a b : Nat) : Nat := (a + b) % wordSize

def rotateRight (n x : Nat) : Nat := x >>> n ||| (x <<< (32 - n)) % wordSize

def rotateLeft (n x : Nat) : Nat := (x <<< n) % wordSize ||| x >>> (32 - n)

def complement (x : Nat) : Nat := wordSize - 1 - x

def bigEndian (bs : Octets) : Nat := bs.foldl (fun n b => n * 256 + b.toNat) 0

def toBigEndian : Nat → Nat → Octets
  | 0, _ => []
  | size + 1, n => toBigEndian size (n / 256) ++ [UInt8.ofNat (n % 256)]

/-- The message followed by a one bit, zeroes, and its length in bits. -/
def pad (message : Octets) : Octets :=
  message ++ 0x80 :: List.replicate ((119 - message.length % 64) % 64) 0 ++
    toBigEndian 8 (8 * message.length)

def chunks (size : Nat) : Nat → Octets → List Octets
  | 0, _ => []
  | fuel + 1, bs => if bs = [] then [] else bs.take size :: chunks size fuel (bs.drop size)

def blocks (message : Octets) : List (List Nat) :=
  (chunks 64 (message.length + 72) (pad message)).map fun block => (chunks 4 16 block).map bigEndian

def roundConstants : List Nat :=
  [0x428a2f98, 0x71374491, 0xb5c0fbcf, 0xe9b5dba5, 0x3956c25b, 0x59f111f1, 0x923f82a4, 0xab1c5ed5,
   0xd807aa98, 0x12835b01, 0x243185be, 0x550c7dc3, 0x72be5d74, 0x80deb1fe, 0x9bdc06a7, 0xc19bf174,
   0xe49b69c1, 0xefbe4786, 0x0fc19dc6, 0x240ca1cc, 0x2de92c6f, 0x4a7484aa, 0x5cb0a9dc, 0x76f988da,
   0x983e5152, 0xa831c66d, 0xb00327c8, 0xbf597fc7, 0xc6e00bf3, 0xd5a79147, 0x06ca6351, 0x14292967,
   0x27b70a85, 0x2e1b2138, 0x4d2c6dfc, 0x53380d13, 0x650a7354, 0x766a0abb, 0x81c2c92e, 0x92722c85,
   0xa2bfe8a1, 0xa81a664b, 0xc24b8b70, 0xc76c51a3, 0xd192e819, 0xd6990624, 0xf40e3585, 0x106aa070,
   0x19a4c116, 0x1e376c08, 0x2748774c, 0x34b0bcb5, 0x391c0cb3, 0x4ed8aa4a, 0x5b9cca4f, 0x682e6ff3,
   0x748f82ee, 0x78a5636f, 0x84c87814, 0x8cc70208, 0x90befffa, 0xa4506ceb, 0xbef9a3f7, 0xc67178f2]

structure State where
  a : Nat
  b : Nat
  c : Nat
  d : Nat
  e : Nat
  f : Nat
  g : Nat
  h : Nat

def State.words (s : State) : List Nat := [s.a, s.b, s.c, s.d, s.e, s.f, s.g, s.h]

def State.add (s t : State) : State :=
  ⟨addWords s.a t.a, addWords s.b t.b, addWords s.c t.c, addWords s.d t.d,
    addWords s.e t.e, addWords s.f t.f, addWords s.g t.g, addWords s.h t.h⟩

def round (s : State) (kw : Nat) : State :=
  let s1 := rotateRight 6 s.e ^^^ rotateRight 11 s.e ^^^ rotateRight 25 s.e
  let choice := (s.e &&& s.f) ^^^ (complement s.e &&& s.g)
  let t1 := s.h + s1 + choice + kw
  let s0 := rotateRight 2 s.a ^^^ rotateRight 13 s.a ^^^ rotateRight 22 s.a
  let majority := (s.a &&& s.b) ^^^ (s.a &&& s.c) ^^^ (s.b &&& s.c)
  ⟨addWords t1 (s0 + majority), s.a, s.b, s.c, addWords s.d t1, s.e, s.f, s.g⟩

/-- The message schedule, from a sliding window of the last sixteen words. -/
def schedule : Nat → List Nat → List Nat
  | 0, _ => []
  | fuel + 1, window =>
    let w0 := window.getD 0 0
    let w1 := window.getD 1 0
    let w14 := window.getD 14 0
    let s0 := rotateRight 7 w1 ^^^ rotateRight 18 w1 ^^^ w1 >>> 3
    let s1 := rotateRight 17 w14 ^^^ rotateRight 19 w14 ^^^ w14 >>> 10
    let next := addWords (w0 + s0) (window.getD 9 0 + s1)
    w0 :: schedule fuel (window.drop 1 ++ [next])

def compress (s : State) (block : List Nat) : State :=
  s.add ((List.zipWith (· + ·) roundConstants (schedule 64 block)).foldl round s)

def sha256 (message : Octets) : Octets :=
  ((blocks message).foldl compress
    ⟨0x6a09e667, 0xbb67ae85, 0x3c6ef372, 0xa54ff53a, 0x510e527f, 0x9b05688c, 0x1f83d9ab,
      0x5be0cd19⟩).words.flatMap (toBigEndian 4)

def State1.words (s : State) : List Nat := [s.a, s.b, s.c, s.d, s.e]

def round1 (s : State) (step w : Nat) : State :=
  let (f, k) :=
    if step < 20 then ((s.b &&& s.c) ||| (complement s.b &&& s.d), 0x5A827999)
    else if step < 40 then (s.b ^^^ s.c ^^^ s.d, 0x6ED9EBA1)
    else if step < 60 then ((s.b &&& s.c) ||| (s.b &&& s.d) ||| (s.c &&& s.d), 0x8F1BBCDC)
    else (s.b ^^^ s.c ^^^ s.d, 0xCA62C1D6)
  ⟨addWords (rotateLeft 5 s.a + f) (s.e + k + w), s.a, rotateLeft 30 s.b, s.c, s.d, 0, 0, 0⟩

def schedule1 : Nat → List Nat → List Nat
  | 0, _ => []
  | fuel + 1, window =>
    let next := rotateLeft 1
      (window.getD 13 0 ^^^ window.getD 8 0 ^^^ window.getD 2 0 ^^^ window.getD 0 0)
    window.getD 0 0 :: schedule1 fuel (window.drop 1 ++ [next])

def compress1 (s : State) (block : List Nat) : State :=
  s.add ((List.zip (List.range 80) (schedule1 80 block)).foldl (fun s kw => round1 s kw.1 kw.2) s)

def sha1 (message : Octets) : Octets :=
  (State1.words ((blocks message).foldl compress1
    ⟨0x67452301, 0xEFCDAB89, 0x98BADCFE, 0x10325476, 0xC3D2E1F0, 0, 0, 0⟩)).flatMap (toBigEndian 4)

example : hexText (sha256 (utf8 "abc")) =
    "ba7816bf8f01cfea414140de5dae2223b00361a396177a9cb410ff61f20015ad" := by decide +kernel

example : hexText (sha1 (utf8 "abc")) = "a9993e364706816aba3e25717850c26c9cd0d89d" := by
  decide +kernel

end Sha
