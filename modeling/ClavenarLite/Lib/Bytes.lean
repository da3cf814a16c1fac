import Mathlib.Data.List.Basic
import Mathlib.Tactic.FinCases
import Mathlib.Data.Fintype.Basic

/-! Byte strings: the UTF-8 form of a text, its strict and its lossy decoding,
and lower-case hexadecimal. -/

namespace Bytes

abbrev Octets := List UInt8

def utf8 (s : String) : Octets := s.toByteArray.data.toList

def fromUtf8 (bs : Octets) : Option String := String.fromUTF8? ⟨bs.toArray⟩

theorem utf8_injective : Function.Injective utf8 := by
  intro s t h
  have hd : s.toByteArray.data = t.toByteArray.data := Array.toList_inj.mp h
  exact String.toByteArray_inj.mp (ByteArray.ext hd)

theorem utf8_append (s t : String) : utf8 (s ++ t) = utf8 s ++ utf8 t := by
  simp [utf8, String.toByteArray_append]

theorem utf8_ofList (cs : List Char) : utf8 (String.ofList cs) = cs.flatMap String.utf8EncodeChar :=
  List.toList_data_toByteArray

theorem fromUtf8_utf8 (s : String) : fromUtf8 (utf8 s) = some s := by
  have he : (⟨(utf8 s).toArray⟩ : ByteArray) = s.toByteArray := by
    simp [utf8]
  rw [fromUtf8, he, String.fromUTF8?, dif_pos s.isValidUTF8]
  rfl

theorem eq_utf8 {bs : Octets} {s : String} (h : fromUtf8 bs = some s) : bs = utf8 s := by
  unfold fromUtf8 String.fromUTF8? at h
  split at h
  · rw [← Option.some.inj h]
    rfl
  · exact absurd h (by simp)

/-- A multi-byte character under way: how many bytes it still needs, the range
of the next one, and the bits read so far. -/
structure Partial where
  needed : Nat
  low : Nat
  high : Nat
  bits : Nat

def replacement : Char := '\uFFFD'

def leadByte (b : Nat) : Char ⊕ Partial :=
  if b < 0x80 then .inl (Char.ofNat b)
  else if 0xC2 ≤ b ∧ b ≤ 0xDF then .inr ⟨1, 0x80, 0xBF, b - 0xC0⟩
  else if b = 0xE0 then .inr ⟨2, 0xA0, 0xBF, 0⟩
  else if b = 0xED then .inr ⟨2, 0x80, 0x9F, 0xD⟩
  else if 0xE1 ≤ b ∧ b ≤ 0xEF then .inr ⟨2, 0x80, 0xBF, b - 0xE0⟩
  else if b = 0xF0 then .inr ⟨3, 0x90, 0xBF, 0⟩
  else if 0xF1 ≤ b ∧ b ≤ 0xF3 then .inr ⟨3, 0x80, 0xBF, b - 0xF0⟩
  else if b = 0xF4 then .inr ⟨3, 0x80, 0x8F, 4⟩
  else .inl replacement

/-- Every maximal prefix of a character that is not continued, and every byte
that starts none, becomes one replacement character. -/
def lossyChars : Option Partial → Octets → List Char
  | none, [] => []
  | some _, [] => [replacement]
  | none, b :: bs =>
    match leadByte b.toNat with
    | .inl c => c :: lossyChars none bs
    | .inr p => lossyChars (some p) bs
  | some p, b :: bs =>
    if p.low ≤ b.toNat ∧ b.toNat ≤ p.high then
      if p.needed = 1 then Char.ofNat (p.bits * 64 + (b.toNat - 0x80)) :: lossyChars none bs
      else lossyChars (some ⟨p.needed - 1, 0x80, 0xBF, p.bits * 64 + (b.toNat - 0x80)⟩) bs
    else
      replacement ::
        match leadByte b.toNat with
        | .inl c => c :: lossyChars none bs
        | .inr q => lossyChars (some q) bs

def fromUtf8Lossy (bs : Octets) : String := String.ofList (lossyChars none bs)

example : fromUtf8Lossy [0x61, 0xE2, 0x82, 0x62, 0xF0, 0x9F, 0x98, 0x80, 0xFF] = "a�b😀�" := by
  decide

theorem leadByte_of {n : Nat} {p : Partial} (h : leadByte n = .inr p) (hn : n < 256) (bs : Octets) :
    lossyChars none (UInt8.ofNat n :: bs) = lossyChars (some p) bs := by
  rw [lossyChars, UInt8.toNat_ofNat_of_lt' hn, h]

theorem lossyChars_last {p : Partial} {n : Nat} (h1 : p.needed = 1) (hlow : p.low ≤ n)
    (hhigh : n ≤ p.high) (hn : n < 256) (bs : Octets) :
    lossyChars (some p) (UInt8.ofNat n :: bs) =
      Char.ofNat (p.bits * 64 + (n - 0x80)) :: lossyChars none bs := by
  rw [lossyChars, UInt8.toNat_ofNat_of_lt' hn, if_pos ⟨hlow, hhigh⟩, if_pos h1]

theorem lossyChars_more {p : Partial} {n : Nat} (h1 : p.needed ≠ 1) (hlow : p.low ≤ n)
    (hhigh : n ≤ p.high) (hn : n < 256) (bs : Octets) :
    lossyChars (some p) (UInt8.ofNat n :: bs) =
      lossyChars (some ⟨p.needed - 1, 0x80, 0xBF, p.bits * 64 + (n - 0x80)⟩) bs := by
  rw [lossyChars, UInt8.toNat_ofNat_of_lt' hn, if_pos ⟨hlow, hhigh⟩, if_neg h1]

theorem leadByte_two {n : Nat} (h : 0xC2 ≤ n) (h' : n ≤ 0xDF) :
    leadByte n = .inr ⟨1, 0x80, 0xBF, n - 0xC0⟩ := by
  rw [leadByte, if_neg (by omega), if_pos ⟨h, h'⟩]

/-- The range of the second byte of three depends on the first. -/
theorem leadByte_three {n : Nat} (h : 0xE0 ≤ n) (h' : n ≤ 0xEF) :
    ∃ low high, leadByte n = .inr ⟨2, low, high, n - 0xE0⟩ ∧
      low = (if n = 0xE0 then 0xA0 else 0x80) ∧ high = (if n = 0xED then 0x9F else 0xBF) := by
  unfold leadByte
  rw [if_neg (by omega), if_neg (by omega)]
  by_cases h0 : n = 0xE0
  · subst h0
    exact ⟨0xA0, 0xBF, by simp, by simp, by simp⟩
  · by_cases hd : n = 0xED
    · subst hd
      exact ⟨0x80, 0x9F, by simp, by simp, by simp⟩
    · exact ⟨0x80, 0xBF, by simp [h0, hd, h']; omega, by simp [h0], by simp [hd]⟩

theorem leadByte_four {n : Nat} (h : 0xF0 ≤ n) (h' : n ≤ 0xF4) :
    ∃ low high, leadByte n = .inr ⟨3, low, high, n - 0xF0⟩ ∧
      low = (if n = 0xF0 then 0x90 else 0x80) ∧ high = (if n = 0xF4 then 0x8F else 0xBF) := by
  unfold leadByte
  rw [if_neg (by omega), if_neg (by omega), if_neg (by omega), if_neg (by omega), if_neg (by omega)]
  by_cases h0 : n = 0xF0
  · subst h0
    exact ⟨0x90, 0xBF, by simp, by simp, by simp⟩
  · by_cases h4 : n = 0xF4
    · subst h4
      exact ⟨0x80, 0x8F, by simp, by simp, by simp⟩
    · exact ⟨0x80, 0xBF, by simp [h0, h4]; omega, by simp [h0], by simp [h4]⟩

/-- A character is read from its own bytes. -/
theorem lossyChars_char (c : Char) (bs : Octets) :
    lossyChars none (String.utf8EncodeChar c ++ bs) = c :: lossyChars none bs := by
  have hvalid : c.val.toNat < 0xD800 ∨ 0xDFFF < c.val.toNat ∧ c.val.toNat < 0x110000 := c.valid
  have hc : Char.ofNat c.val.toNat = c := Char.ofNat_toNat c
  unfold String.utf8EncodeChar
  generalize c.val.toNat = v at hvalid hc ⊢
  simp only
  split_ifs with h1 h2 h3
  · rw [List.singleton_append, lossyChars, UInt8.toNat_ofNat_of_lt' (show v < 256 by omega)]
    simp only [leadByte, if_pos (show v < 0x80 by omega), hc]
  · rw [List.cons_append, List.singleton_append, leadByte_of (leadByte_two (by omega) (by omega)) (by omega),
      lossyChars_last rfl (by simp only; omega) (by simp only; omega) (by omega)]
    simp only
    rw [show (v / 64 % 32 + 192 - 192) * 64 + (v % 64 + 128 - 128) = v by omega, hc]
  · obtain ⟨low, high, hlead, hlow, hhigh⟩ := leadByte_three (n := v / 4096 % 16 + 0xE0)
      (by omega) (by omega)
    have hl : low ≤ v / 64 % 64 + 128 := by rw [hlow]; split_ifs <;> omega
    have hh : v / 64 % 64 + 128 ≤ high := by rw [hhigh]; split_ifs <;> omega
    rw [List.cons_append, List.cons_append, List.singleton_append, leadByte_of hlead (by omega),
      lossyChars_more (by simp) hl hh (by omega),
      lossyChars_last rfl (by simp only; omega) (by simp only; omega) (by omega)]
    simp only
    rw [show ((v / 4096 % 16 + 224 - 224) * 64 + (v / 64 % 64 + 128 - 128)) * 64 +
      (v % 64 + 128 - 128) = v by omega, hc]
  · obtain ⟨low, high, hlead, hlow, hhigh⟩ := leadByte_four (n := v / 262144 % 8 + 0xF0)
      (by omega) (by omega)
    have hl : low ≤ v / 4096 % 64 + 128 := by rw [hlow]; split_ifs <;> omega
    have hh : v / 4096 % 64 + 128 ≤ high := by rw [hhigh]; split_ifs <;> omega
    rw [List.cons_append, List.cons_append, List.cons_append, List.singleton_append,
      leadByte_of hlead (by omega), lossyChars_more (by simp) hl hh (by omega),
      lossyChars_more (by simp) (by simp only; omega) (by simp only; omega) (by omega),
      lossyChars_last rfl (by simp only; omega) (by simp only; omega) (by omega)]
    simp only
    rw [show (((v / 262144 % 8 + 240 - 240) * 64 + (v / 4096 % 64 + 128 - 128)) * 64 +
      (v / 64 % 64 + 128 - 128)) * 64 + (v % 64 + 128 - 128) = v by omega, hc]

theorem fromUtf8Lossy_utf8 (s : String) : fromUtf8Lossy (utf8 s) = s := by
  have hchars : ∀ cs : List Char, lossyChars none (cs.flatMap String.utf8EncodeChar) = cs := by
    intro cs
    induction cs with
    | nil => rfl
    | cons c cs ih => rw [List.flatMap_cons, lossyChars_char, ih]
  have hs := hchars s.toList
  rw [← utf8_ofList, String.ofList_toList] at hs
  rw [fromUtf8Lossy, hs, String.ofList_toList]

def hexByte (b : UInt8) : List Char := [Nat.digitChar (b.toNat / 16), Nat.digitChar (b.toNat % 16)]

def hexEncode (bs : Octets) : List Char := bs.flatMap hexByte

def hexText (bs : Octets) : String := String.ofList (hexEncode bs)

def hexValue (c : Char) : Option Nat :=
  if c.isDigit then some (c.toNat - '0'.toNat)
  else if 'a' ≤ c ∧ c ≤ 'f' then some (c.toNat - 'a'.toNat + 10)
  else if 'A' ≤ c ∧ c ≤ 'F' then some (c.toNat - 'A'.toNat + 10)
  else none

def hexDecode : List Char → Option Octets
  | [] => some []
  | h :: l :: cs => do
    let h ← hexValue h
    let l ← hexValue l
    let bs ← hexDecode cs
    return UInt8.ofNat (h * 16 + l) :: bs
  | [_] => none

theorem hexValue_digitChar {n : Nat} (h : n < 16) : hexValue (Nat.digitChar n) = some n := by
  have hall : ∀ m : Fin 16, hexValue (Nat.digitChar m) = some m.val := by decide
  exact hall ⟨n, h⟩

theorem byte_div_lt (b : UInt8) : b.toNat / 16 < 16 := by
  have h := b.toNat_lt
  omega

theorem byte_mod_lt (b : UInt8) : b.toNat % 16 < 16 := Nat.mod_lt _ (by omega)

theorem hexDecode_hexEncode (bs : Octets) : hexDecode (hexEncode bs) = some bs := by
  induction bs with
  | nil => rfl
  | cons b bs ih =>
    have hb : b.toNat / 16 * 16 + b.toNat % 16 = b.toNat := by omega
    have he : hexEncode (b :: bs) = Nat.digitChar (b.toNat / 16) ::
        Nat.digitChar (b.toNat % 16) :: hexEncode bs := by
      simp [hexEncode, hexByte]
    rw [he, hexDecode, hexValue_digitChar (byte_div_lt b), hexValue_digitChar (byte_mod_lt b), ih]
    simp only [Option.bind_eq_bind, Option.bind_some, hb, UInt8.ofNat_toNat, Option.pure_def]

theorem hexEncode_injective : Function.Injective hexEncode := by
  intro as bs h
  have ha := hexDecode_hexEncode as
  rw [h, hexDecode_hexEncode] at ha
  exact (Option.some.inj ha).symm

theorem hexText_injective : Function.Injective hexText := by
  intro as bs h
  exact hexEncode_injective (String.ofList_injective h)

theorem hexEncode_length (bs : Octets) : (hexEncode bs).length = 2 * bs.length := by
  induction bs with
  | nil => rfl
  | cons b bs ih =>
    simp only [hexEncode, List.flatMap_cons, List.length_append, List.length_cons] at ih ⊢
    simp only [hexByte, List.length_cons, List.length_nil]
    omega

theorem hexEncode_isHex {bs : Octets} {c : Char} (h : c ∈ hexEncode bs) :
    (hexValue c).isSome = true := by
  obtain ⟨b, _, hb⟩ := List.mem_flatMap.mp h
  rcases List.mem_cons.mp hb with rfl | hb
  · rw [hexValue_digitChar (byte_div_lt b)]
    rfl
  · rw [List.mem_singleton.mp hb, hexValue_digitChar (byte_mod_lt b)]
    rfl

theorem not_mem_hexEncode {bs : Octets} {c : Char} (hc : hexValue c = none) :
    c ∉ hexEncode bs := by
  intro h
  have hs := hexEncode_isHex h
  rw [hc] at hs
  exact Bool.noConfusion hs

end Bytes
