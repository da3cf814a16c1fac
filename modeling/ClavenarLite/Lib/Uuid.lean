import ClavenarLite.Lib.Sha

/-! UUIDs, their hyphenated text and the forms a reader accepts, and the
name-based version 5. -/

open Bytes Sha

structure Uuid where
  bytes : Octets
  size : bytes.length = 16
  deriving DecidableEq

namespace Uuid

def groups (bs : Octets) : List Octets :=
  [bs.take 4, (bs.drop 4).take 2, (bs.drop 6).take 2, (bs.drop 8).take 2, bs.drop 10]

def chars (u : Uuid) : List Char := ['-'].intercalate ((groups u.bytes).map hexEncode)

def text (u : Uuid) : String := String.ofList u.chars

def ofOctets (bs : Octets) : Option Uuid :=
  if h : bs.length = 16 then some ⟨bs, h⟩ else none

def parseHyphenated (cs : List Char) : Option Uuid :=
  if (cs.splitOn '-').map List.length = [8, 4, 4, 4, 12] then
    (hexDecode (cs.splitOn '-').flatten).bind ofOctets
  else none

/-- The simple form, the hyphenated form, and the latter in braces or as a URN. -/
def parseStr (s : String) : Option Uuid :=
  let cs := s.toList
  if cs.length = 32 then (hexDecode cs).bind ofOctets
  else if cs.length = 36 then parseHyphenated cs
  else if cs.length = 38 ∧ cs.head? = some '{' ∧ cs.getLast? = some '}' then
    parseHyphenated (cs.tail.dropLast)
  else if cs.length = 45 ∧ cs.take 9 = ['u', 'r', 'n', ':', 'u', 'u', 'i', 'd', ':'] then
    parseHyphenated (cs.drop 9)
  else none

theorem splitOn_chars (u : Uuid) : u.chars.splitOn '-' = (groups u.bytes).map hexEncode := by
  apply List.splitOn_intercalate
  · intro l hl
    obtain ⟨bs, _, rfl⟩ := List.mem_map.mp hl
    exact not_mem_hexEncode (by decide)
  · simp [groups]

theorem take_append_drop_at (bs : Octets) (i j : Nat) :
    (bs.drop i).take j ++ bs.drop (i + j) = bs.drop i := by
  rw [← List.drop_drop, List.take_append_drop]

theorem flatten_groups (bs : Octets) : (groups bs).flatten = bs := by
  have h3 := take_append_drop_at bs 8 2
  have h2 := take_append_drop_at bs 6 2
  have h1 := take_append_drop_at bs 4 2
  simp only [groups, List.flatten_cons, List.flatten_nil, List.append_nil]
  rw [h3, h2, h1, List.take_append_drop]

theorem hexEncode_flatten (gs : List Octets) :
    (gs.map hexEncode).flatten = hexEncode gs.flatten := by
  induction gs with
  | nil => rfl
  | cons g gs ih =>
    rw [List.map_cons, List.flatten_cons, ih, List.flatten_cons, hexEncode, hexEncode, hexEncode,
      List.flatMap_append]

theorem length_groups (u : Uuid) :
    ((groups u.bytes).map hexEncode).map List.length = [8, 4, 4, 4, 12] := by
  have h := u.size
  simp only [groups, List.map_cons, List.map_nil, hexEncode_length, List.length_take,
    List.length_drop]
  rw [h]
  rfl

theorem length_chars (u : Uuid) : u.chars.length = 36 := by
  have h := length_groups u
  simp only [groups, List.map_cons, List.map_nil, List.cons.injEq] at h
  simp only [chars, groups, List.map_cons, List.map_nil, List.intercalate, List.intersperse,
    List.flatten_cons, List.flatten_nil, List.length_append, List.length_cons, List.length_nil]
  omega

theorem parseHyphenated_chars (u : Uuid) : parseHyphenated u.chars = some u := by
  unfold parseHyphenated
  rw [splitOn_chars, if_pos (length_groups u), hexEncode_flatten, flatten_groups,
    hexDecode_hexEncode]
  simp [ofOctets, u.size]

theorem parseStr_text (u : Uuid) : parseStr u.text = some u := by
  have h := length_chars u
  simp [parseStr, text, h, parseHyphenated_chars]

theorem text_injective : Function.Injective text := by
  intro u v h
  have hu := parseStr_text u
  rw [h, parseStr_text] at hu
  exact (Option.some.inj hu).symm

def versionByte (digest : Octets) (i : Nat) : UInt8 :=
  if i = 6 then (digest.getD 6 0 &&& 0x0F) ||| 0x50
  else if i = 8 then (digest.getD 8 0 &&& 0x3F) ||| 0x80
  else digest.getD i 0

def newV5 (space : Uuid) (name : Octets) : Uuid where
  bytes := (List.range 16).map (versionByte (sha1 (space.bytes ++ name)))
  size := by simp

def namespaceUrl : Uuid :=
  ⟨[0x6b, 0xa7, 0xb8, 0x11, 0x9d, 0xad, 0x11, 0xd1, 0x80, 0xb4, 0x00, 0xc0, 0x4f, 0xd4, 0x30, 0xc8],
    rfl⟩

example : (newV5 namespaceUrl (utf8 "https://example.com/")).text =
    "dd2c1780-811a-5296-81c5-178a0ef488bc" := by decide +kernel

end Uuid
