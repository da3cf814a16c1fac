import ClavenarLite.Lib.Bytes
import Mathlib.Algebra.GroupWithZero.Nat
import Mathlib.Algebra.Ring.Int.Defs
import Mathlib.Data.List.DropRight

/-! Trimming and splitting of texts, and a byte comparison that looks at every
byte. -/

namespace Text

open Bytes

/-- The characters with the Unicode property `White_Space`. -/
def isWhiteSpace (c : Char) : Bool :=
  let n := c.toNat
  (9 ≤ n && n ≤ 13) || n == 0x20 || n == 0x85 || n == 0xa0 || n == 0x1680 ||
    (0x2000 ≤ n && n ≤ 0x200a) || n == 0x2028 || n == 0x2029 || n == 0x202f || n == 0x205f ||
    n == 0x3000

def trimChars (cs : List Char) : List Char := (cs.dropWhile isWhiteSpace).rdropWhile isWhiteSpace

def trim (s : String) : String := String.ofList (trimChars s.toList)

/-- The parts between the separators; a text without one is its only part. -/
def split (sep : Char) (s : String) : List String := (s.toList.splitOn sep).map String.ofList

/-- The parts before and after the first separator. -/
def splitOnce (sep : Char) (s : String) : Option (String × String) :=
  match s.toList.dropWhile (· != sep) with
  | [] => none
  | _ :: after => some (String.ofList (s.toList.takeWhile (· != sep)), String.ofList after)

def stripPrefix (start s : String) : Option String :=
  (s.toList.dropPrefix? start.toList).map String.ofList

def endsWith (suffix s : String) : Bool := suffix.toList.isSuffixOf s.toList

def toAsciiLowercase (s : String) : String := String.ofList (s.toList.map Char.toLower)

/-- The text without the trailing occurrences of the character. -/
def trimEnd (c : Char) (s : String) : String := String.ofList (s.toList.rdropWhile (· == c))

def byteLength (s : String) : Nat := (utf8 s).length

theorem utf8_length_sublist {cs ds : List Char} (h : cs.Sublist ds) :
    (utf8 (String.ofList cs)).length ≤ (utf8 (String.ofList ds)).length := by
  rw [utf8_ofList, utf8_ofList]
  induction h with
  | slnil => exact Nat.le_refl _
  | cons c _ ih => exact ih.trans (by simp)
  | cons_cons c _ ih => simpa using ih

theorem trimChars_sublist (cs : List Char) : (trimChars cs).Sublist cs :=
  (List.rdropWhile_prefix _ _).sublist.trans (List.dropWhile_sublist _)

theorem byteLength_trim_le (s : String) : byteLength (trim s) ≤ byteLength s := by
  have h := utf8_length_sublist (trimChars_sublist s.toList)
  rwa [String.ofList_toList] at h

/-- The first separator is the one without another before it. -/
theorem splitOnce_iff {sep : Char} {s before after : String} :
    splitOnce sep s = some (before, after) ↔
      s = before ++ String.singleton sep ++ after ∧ sep ∉ before.toList := by
  have hwhole := List.takeWhile_append_dropWhile (p := (· != sep)) (l := s.toList)
  unfold splitOnce
  constructor
  · intro h
    cases hd : s.toList.dropWhile (· != sep) with
    | nil => simp [hd] at h
    | cons c rest =>
      rw [hd] at h
      obtain ⟨rfl, rfl⟩ := Prod.mk.inj (Option.some.inj h)
      have hc : c = sep := by
        have hhead := List.head_dropWhile_not (p := (· != sep)) (l := s.toList)
          (hd ▸ List.cons_ne_nil c rest)
        simpa [hd] using hhead
      subst hc
      refine ⟨String.toList_injective ?_, ?_⟩
      · rw [hd] at hwhole
        simpa using hwhole.symm
      · rw [String.toList_ofList]
        intro hmem
        simpa using List.mem_takeWhile_imp hmem
  · rintro ⟨rfl, hnot⟩
    have hne : ∀ c ∈ before.toList, (c != sep) = true := by
      intro c hc
      rw [bne_iff_ne]
      exact fun he => hnot (he ▸ hc)
    have hlist : (before ++ String.singleton sep ++ after).toList =
        before.toList ++ sep :: after.toList := by
      simp [String.toList_append]
    rw [hlist, List.dropWhile_append_of_pos hne, List.takeWhile_append_of_pos hne]
    simp

/-- Every pair of bytes is looked at, whatever the earlier ones were. -/
def constantTimeEq (supplied expected : Octets) : Bool :=
  if supplied.length ≠ expected.length then false
  else (List.zipWith (· ^^^ ·) supplied expected).foldl (· ||| ·) 0 == 0

theorem foldl_or_eq_zero (bs : Octets) (acc : UInt8) :
    bs.foldl (· ||| ·) acc = 0 ↔ acc = 0 ∧ ∀ b ∈ bs, b = 0 := by
  induction bs generalizing acc with
  | nil => simp
  | cons b bs ih =>
    rw [List.foldl_cons, ih, UInt8.or_eq_zero_iff, List.forall_mem_cons, and_assoc]

theorem zipWith_xor_zero {as bs : Octets} (h : as.length = bs.length) :
    (∀ b ∈ List.zipWith (· ^^^ ·) as bs, b = 0) ↔ as = bs := by
  induction as generalizing bs with
  | nil => simp [List.eq_nil_of_length_eq_zero h.symm]
  | cons a as ih =>
    cases bs with
    | nil => exact absurd h (by simp)
    | cons b bs =>
      rw [List.zipWith_cons_cons, List.forall_mem_cons, ih (Nat.succ.inj h),
        UInt8.xor_eq_zero_iff, List.cons.injEq]

theorem constantTimeEq_iff (supplied expected : Octets) :
    constantTimeEq supplied expected = true ↔ supplied = expected := by
  unfold constantTimeEq
  by_cases h : supplied.length = expected.length
  · rw [if_neg (not_not.mpr h), beq_iff_eq, foldl_or_eq_zero, zipWith_xor_zero h]
    exact and_iff_right rfl
  · rw [if_pos h]
    refine iff_of_false (by simp) ?_
    rintro rfl
    exact h rfl

def charsLength (cs : List Char) : Nat := (cs.map Char.utf8Size).sum

/-- The characters before and after a byte position, if none straddles it. -/
def splitChars : Nat → List Char → Option (List Char × List Char)
  | 0, cs => some ([], cs)
  | _ + 1, [] => none
  | n + 1, c :: cs =>
    if c.utf8Size ≤ n + 1 then
      (splitChars (n + 1 - c.utf8Size) cs).map fun parts => (c :: parts.1, parts.2)
    else none

def splitAt (i : Nat) (s : String) : Option (String × String) :=
  (splitChars i s.toList).map fun parts => (String.ofList parts.1, String.ofList parts.2)

theorem byteLength_eq (s : String) : byteLength s = charsLength s.toList := by
  rw [byteLength, ← String.ofList_toList (s := s), utf8_ofList, String.toList_ofList, charsLength]
  generalize s.toList = cs
  induction cs with
  | nil => rfl
  | cons c cs ih =>
    rw [List.flatMap_cons, List.length_append, ih, List.map_cons, List.sum_cons,
      String.length_utf8EncodeChar]

theorem charsLength_eq_zero {cs : List Char} : charsLength cs = 0 ↔ cs = [] := by
  cases cs with
  | nil => simp [charsLength]
  | cons c cs =>
    have hpos := c.utf8Size_pos
    simp only [charsLength, List.map_cons, List.sum_cons, reduceCtorEq, iff_false]
    omega

theorem splitChars_iff {i : Nat} {cs before after : List Char} :
    splitChars i cs = some (before, after) ↔ cs = before ++ after ∧ charsLength before = i := by
  induction cs generalizing i before with
  | nil =>
    cases i with
    | zero =>
      rw [splitChars, charsLength_eq_zero]
      simp [and_comm, eq_comm]
    | succ i =>
      refine iff_of_false (by simp [splitChars]) ?_
      rintro ⟨hnil, hlen⟩
      obtain ⟨rfl, -⟩ := List.append_eq_nil_iff.mp hnil.symm
      exact absurd hlen (by simp [charsLength])
  | cons c cs ih =>
    cases i with
    | zero =>
      rw [splitChars, charsLength_eq_zero]
      constructor
      · intro h
        obtain ⟨rfl, rfl⟩ := Prod.mk.inj (Option.some.inj h)
        exact ⟨rfl, rfl⟩
      · rintro ⟨h, rfl⟩
        rw [h, List.nil_append]
    | succ i =>
      cases before with
      | nil =>
        refine iff_of_false ?_ fun h => absurd h.2 (by simp [charsLength])
        rw [splitChars]
        split_ifs <;> simp
      | cons b before =>
        have hlen : charsLength (b :: before) = b.utf8Size + charsLength before := by
          simp [charsLength]
        rw [splitChars, hlen, List.cons_append, List.cons.injEq]
        constructor
        · intro h
          split_ifs at h with hc
          obtain ⟨parts, hparts, he⟩ := Option.map_eq_some_iff.mp h
          obtain ⟨hcons, rfl⟩ := Prod.mk.inj he
          obtain ⟨rfl, rfl⟩ := List.cons.inj hcons
          obtain ⟨hcs, hrest⟩ := ih.mp hparts
          exact ⟨⟨rfl, hcs⟩, by omega⟩
        · rintro ⟨⟨rfl, hcs⟩, hsum⟩
          rw [if_pos (by omega), ih.mpr ⟨hcs, by omega⟩]
          rfl

theorem charsLength_append (cs ds : List Char) :
    charsLength (cs ++ ds) = charsLength cs + charsLength ds := by
  simp [charsLength]

theorem charsLength_eq_one {cs : List Char} :
    charsLength cs = 1 ↔ ∃ c : Char, c.utf8Size = 1 ∧ cs = [c] := by
  constructor
  · intro h
    cases cs with
    | nil => exact absurd h (by simp [charsLength])
    | cons c cs =>
      have hpos := c.utf8Size_pos
      have hsum : c.utf8Size + charsLength cs = 1 := by simpa [charsLength] using h
      obtain rfl := charsLength_eq_zero.mp (by omega : charsLength cs = 0)
      exact ⟨c, by simpa [charsLength] using hsum, rfl⟩
  · rintro ⟨c, hc, rfl⟩
    simpa [charsLength] using hc

/-- Split before its last byte, a text yields its last character if that is one
byte; otherwise there is no such split. -/
theorem splitAt_last {s before after : String} :
    splitAt (byteLength s - 1) s = some (before, after) ↔
      s = before ++ after ∧ (s = "" ∨ ∃ c : Char, c.utf8Size = 1 ∧ after = String.singleton c) := by
  have hparts : splitAt (byteLength s - 1) s = some (before, after) ↔
      splitChars (byteLength s - 1) s.toList = some (before.toList, after.toList) := by
    rw [splitAt, Option.map_eq_some_iff]
    constructor
    · rintro ⟨parts, hs, he⟩
      obtain ⟨rfl, rfl⟩ := Prod.mk.inj he
      rw [hs, String.toList_ofList, String.toList_ofList]
    · intro hs
      exact ⟨_, hs, by rw [String.ofList_toList, String.ofList_toList]⟩
  rw [hparts, splitChars_iff, byteLength_eq, ← String.toList_append, String.toList_inj]
  refine and_congr_right ?_
  rintro rfl
  have hsingle : (∃ c : Char, c.utf8Size = 1 ∧ after = String.singleton c) ↔
      charsLength after.toList = 1 := by
    rw [charsLength_eq_one]
    refine exists_congr fun c => and_congr_right fun _ => ?_
    rw [← String.toList_inj]
    simp
  have hempty : before ++ after = "" ↔ charsLength before.toList = 0 ∧ charsLength after.toList = 0 := by
    rw [charsLength_eq_zero, charsLength_eq_zero, ← String.toList_inj, String.toList_append]
    exact List.append_eq_nil_iff
  rw [hsingle, hempty, String.toList_append, charsLength_append]
  omega

/-- The text of an integer: an optional sign and at least one digit. -/
def IsDecimal (s : String) (n : Int) : Prop :=
  ∃ sign digits, s.toList = sign ++ digits ∧ digits ≠ [] ∧ (∀ c ∈ digits, c.isDigit = true) ∧
    ((sign = [] ∨ sign = ['+']) ∧ n = Nat.ofDigitChars 10 digits 0 ∨
      sign = ['-'] ∧ n = -Nat.ofDigitChars 10 digits 0)

def digitsOf (cs : List Char) : Option Nat :=
  if cs ≠ [] ∧ cs.all Char.isDigit then some (Nat.ofDigitChars 10 cs 0) else none

def decimalValue : List Char → Option Int
  | '-' :: digits => (digitsOf digits).map fun n : Nat => -(n : Int)
  | '+' :: digits => (digitsOf digits).map fun n : Nat => (n : Int)
  | digits => (digitsOf digits).map fun n : Nat => (n : Int)

/-- An integer of 64 bits, after at most one sign. -/
def parseI64 (s : String) : Option Int :=
  (decimalValue s.toList).filter fun n => -2 ^ 63 ≤ n ∧ n < 2 ^ 63

theorem digitsOf_iff {cs : List Char} {n : Nat} : digitsOf cs = some n ↔
    cs ≠ [] ∧ (∀ c ∈ cs, c.isDigit = true) ∧ n = Nat.ofDigitChars 10 cs 0 := by
  unfold digitsOf
  split_ifs with h
  · rw [Option.some.injEq, eq_comm]
    exact ⟨fun he => ⟨h.1, List.all_eq_true.mp h.2, he⟩, fun he => he.2.2⟩
  · refine iff_of_false (by simp) ?_
    rintro ⟨hne, hall, -⟩
    exact h ⟨hne, List.all_eq_true.mpr hall⟩

theorem decimalValue_digits {cs : List Char} (h : ∀ c ∈ cs, c.isDigit = true) :
    decimalValue cs = (digitsOf cs).map fun n : Nat => (n : Int) := by
  unfold decimalValue
  split
  · exact absurd (h '-' List.mem_cons_self) (by decide)
  · exact absurd (h '+' List.mem_cons_self) (by decide)
  · rfl

theorem decimalValue_iff {s : String} {n : Int} :
    decimalValue s.toList = some n ↔ IsDecimal s n := by
  constructor
  · intro h
    unfold decimalValue at h
    split at h
    · next digits hs =>
      obtain ⟨m, hm, rfl⟩ := Option.map_eq_some_iff.mp h
      obtain ⟨hne, hall, rfl⟩ := digitsOf_iff.mp hm
      exact ⟨['-'], digits, hs, hne, hall, Or.inr ⟨rfl, rfl⟩⟩
    · next digits hs =>
      obtain ⟨m, hm, rfl⟩ := Option.map_eq_some_iff.mp h
      obtain ⟨hne, hall, rfl⟩ := digitsOf_iff.mp hm
      exact ⟨['+'], digits, hs, hne, hall, Or.inl ⟨Or.inr rfl, rfl⟩⟩
    · obtain ⟨m, hm, rfl⟩ := Option.map_eq_some_iff.mp h
      obtain ⟨hne, hall, rfl⟩ := digitsOf_iff.mp hm
      exact ⟨[], s.toList, rfl, hne, hall, Or.inl ⟨Or.inl rfl, rfl⟩⟩
  · rintro ⟨sign, digits, hs, hne, hall, ⟨rfl | rfl, rfl⟩ | ⟨rfl, rfl⟩⟩
    · rw [hs, List.nil_append, decimalValue_digits hall, digitsOf_iff.mpr ⟨hne, hall, rfl⟩]
      rfl
    · rw [hs, List.singleton_append, decimalValue, digitsOf_iff.mpr ⟨hne, hall, rfl⟩]
      rfl
    · rw [hs, List.singleton_append, decimalValue, digitsOf_iff.mpr ⟨hne, hall, rfl⟩]
      rfl

theorem parseI64_iff {s : String} {n : Int} :
    parseI64 s = some n ↔ IsDecimal s n ∧ -2 ^ 63 ≤ n ∧ n < 2 ^ 63 := by
  rw [parseI64, Option.filter_eq_some_iff, decimalValue_iff, decide_eq_true_iff]

theorem IsDecimal.unique {s : String} {m n : Int} (hm : IsDecimal s m) (hn : IsDecimal s n) :
    m = n := by
  rw [← decimalValue_iff] at hm hn
  exact Option.some.inj (hm.symm.trans hn)

end Text
