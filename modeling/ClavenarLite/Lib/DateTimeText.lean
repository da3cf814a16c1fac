import ClavenarLite.Lib.Duration
import ClavenarLite.Lib.Text

/-! The lenient reader of date-times that a deserializer uses: years of any length
behind a sign, blanks between the parts, and a choice of separators. It inverts the
printer on every date-time of the range. -/

namespace Rfc3339

def trimStart (cs : List Char) : List Char := cs.dropWhile Text.isWhiteSpace

/-- At least one digit and at most `max` of them. -/
def readUpTo (max : Nat) (cs : List Char) : Option (Nat × List Char) :=
  let digits := (cs.takeWhile Char.isDigit).take max
  if digits = [] then none else some (digitsValue digits, cs.drop digits.length)

def readNumeric (cs : List Char) : Option (Nat × List Char) := readUpTo 2 (trimStart cs)

/-- Behind a sign a year may have any number of digits. -/
def readYear (cs : List Char) : Option (Int × List Char) :=
  match trimStart cs with
  | '-' :: cs => (readUpTo cs.length cs).map fun r => (-(r.1 : Int), r.2)
  | '+' :: cs => (readUpTo cs.length cs).map fun r => ((r.1 : Int), r.2)
  | cs => (readUpTo 4 cs).map fun r => ((r.1 : Int), r.2)

def readSeparator (c : Char) (cs : List Char) : Option (List Char) :=
  readChar (· == c) (trimStart cs)

/-- Hours and minutes, with colons and blanks between them read over. -/
def readZone (cs : List Char) : Option (Nat × List Char) := do
  let (hours, cs) ← readDigits 2 cs
  let (minutes, cs) ← readDigits 2 (cs.dropWhile fun c => c == ':' || Text.isWhiteSpace c)
  if hours ≤ 23 ∧ minutes ≤ 59 then return (hours * 3600 + minutes * 60, cs) else none

def readZoneOffset : List Char → Option (Int × List Char)
  | [] => none
  | c :: cs =>
    if ((c :: cs).take 3).map Char.toUpper = ['U', 'T', 'C'] then some (0, (c :: cs).drop 3)
    else if c = 'Z' ∨ c = 'z' then some (0, cs)
    else if c = '+' then (readZone cs).map fun r => ((r.1 : Int), r.2)
    else if c = '-' ∨ c = '\u2212' then (readZone cs).map fun r => (-(r.1 : Int), r.2)
    else none

def readDateTime (cs : List Char) : Option (DateTime × List Char) := do
  let (year, cs) ← readYear cs
  let cs ← readSeparator '-' cs
  let (month, cs) ← readNumeric cs
  let cs ← readSeparator '-' cs
  let (day, cs) ← readNumeric cs
  let cs ← readChar (fun c => c == 't' || c == 'T' || c == ' ') cs
  let (hour, cs) ← readNumeric cs
  let cs ← readSeparator ':' cs
  let (minute, cs) ← readNumeric cs
  let cs ← readSeparator ':' cs
  let (sec, cs) ← readNumeric cs
  let (nano, cs) ← readFraction cs
  if ValidDate year month day ∧ hour ≤ 23 ∧ minute ≤ 59 ∧ sec ≤ 60 then
    return ({ year, month, day,
              secs := hour * 3600 + minute * 60 + (if sec = 60 then 59 else sec),
              frac := if sec = 60 then nano + second else nano }, cs)
  else none

def parseDateTime (s : String) : Option DateTime := do
  let (t, cs) ← readDateTime s.toList
  let (offset, cs) ← readZoneOffset (trimStart cs)
  if trimStart cs = [] ∧ InRange t ∧ InRange (minusSeconds t offset) then
    return minusSeconds t offset
  else none

theorem trimStart_cons {c : Char} (h : Text.isWhiteSpace c = false) (cs : List Char) :
    trimStart (c :: cs) = c :: cs := by
  simp [trimStart, h]

theorem isWhiteSpace_digit {c : Char} (h : c.isDigit = true) : Text.isWhiteSpace c = false := by
  have hlow : '0'.toNat ≤ c.toNat := by
    simp only [Char.isDigit, Bool.and_eq_true, decide_eq_true_eq] at h
    exact h.1
  have hhigh : c.toNat ≤ '9'.toNat := by
    simp only [Char.isDigit, Bool.and_eq_true, decide_eq_true_eq] at h
    exact h.2
  have h0 : '0'.toNat = 48 := rfl
  have h9 : '9'.toNat = 57 := rfl
  simp only [Text.isWhiteSpace]
  simp
  omega

/-- What may follow a number: no digit. -/
def DigitsEnd (cs : List Char) : Prop := ∀ c ∈ cs.head?, c.isDigit = false

theorem takeWhile_digits {ds cs : List Char} (hall : ∀ c ∈ ds, c.isDigit = true)
    (hend : DigitsEnd cs) : (ds ++ cs).takeWhile Char.isDigit = ds := by
  rw [List.takeWhile_append_of_pos hall]
  cases cs with
  | nil => simp
  | cons c cs => rw [List.takeWhile_cons_of_neg (by simp [hend c (by simp)]), List.append_nil]

theorem readUpTo_digits {max : Nat} {ds cs : List Char} (hne : ds ≠ [])
    (hall : ∀ c ∈ ds, c.isDigit = true) (hlen : ds.length ≤ max) (hend : DigitsEnd cs) :
    readUpTo max (ds ++ cs) = some (digitsValue ds, cs) := by
  simp only [readUpTo, takeWhile_digits hall hend, List.take_of_length_le hlen, if_neg hne,
    List.drop_left]

theorem trimStart_digits {ds : List Char} (hne : ds ≠ []) (hall : ∀ c ∈ ds, c.isDigit = true)
    (cs : List Char) : trimStart (ds ++ cs) = ds ++ cs := by
  obtain ⟨d, rest, rfl⟩ := List.exists_cons_of_ne_nil hne
  exact trimStart_cons (isWhiteSpace_digit (hall d List.mem_cons_self)) _

theorem readNumeric_fixedDigits {n : Nat} (hn : n < 10 ^ 2) {cs : List Char}
    (hend : DigitsEnd cs) : readNumeric (fixedDigits 2 n ++ cs) = some (n, cs) := by
  have hne : fixedDigits 2 n ≠ [] := fixedDigits_ne_nil (by decide)
  have hall := isDigit_fixedDigits 2 n
  rw [readNumeric, trimStart_digits hne hall,
    readUpTo_digits hne hall (by rw [length_fixedDigits]) hend, digitsValue_fixedDigits hn]

theorem digitsValue_eq (cs : List Char) : digitsValue cs = Nat.ofDigitChars 10 cs 0 := by
  rw [digitsValue, Nat.ofDigitChars_eq_foldl]
  congr 1
  funext n c
  rw [Nat.mul_comm]

/-- The digits of a year behind its sign. -/
theorem readUpTo_natAbs (y : Int) {cs : List Char} (hend : DigitsEnd cs) :
    let digits := if y.natAbs ≤ 9999 then fixedDigits 4 y.natAbs else Nat.toDigits 10 y.natAbs
    readUpTo (digits ++ cs).length (digits ++ cs) = some (y.natAbs, cs) := by
  simp only
  split_ifs with hsmall
  · rw [readUpTo_digits (fixedDigits_ne_nil (by decide)) (isDigit_fixedDigits 4 _)
      (by rw [List.length_append]; omega) hend, digitsValue_fixedDigits (by omega)]
  · have hall : ∀ c ∈ Nat.toDigits 10 y.natAbs, c.isDigit = true :=
      fun c hc => Nat.isDigit_of_mem_toDigits (by decide) (by decide) hc
    rw [readUpTo_digits Nat.toDigits_ne_nil hall (by rw [List.length_append]; omega) hend,
      digitsValue_eq, Nat.ofDigitChars_ten_toDigits]

/-- A text that starts with a digit is read as an unsigned year. -/
theorem readYear_digits {ds cs : List Char} (hne : ds ≠ []) (hall : ∀ c ∈ ds, c.isDigit = true) :
    readYear (ds ++ cs) = (readUpTo 4 (ds ++ cs)).map fun r => ((r.1 : Int), r.2) := by
  rw [readYear, trimStart_digits hne hall]
  obtain ⟨d, rest, rfl⟩ := List.exists_cons_of_ne_nil hne
  have hd : d.isDigit = true := hall d List.mem_cons_self
  rw [List.cons_append]
  split
  · rename_i hcons
    rw [(List.cons.inj hcons).1] at hd
    exact absurd hd (by decide)
  · rename_i hcons
    rw [(List.cons.inj hcons).1] at hd
    exact absurd hd (by decide)
  · rfl

theorem readYear_yearText (y : Int) {cs : List Char} (hend : DigitsEnd cs) :
    readYear (yearText y ++ cs) = some (y, cs) := by
  unfold yearText
  by_cases hy : 0 ≤ y ∧ y ≤ 9999
  · have hne : fixedDigits 4 y.toNat ≠ [] := fixedDigits_ne_nil (by decide)
    have hall := isDigit_fixedDigits 4 y.toNat
    have hread : readUpTo 4 (fixedDigits 4 y.toNat ++ cs) = some (y.toNat, cs) := by
      rw [readUpTo_digits hne hall (by rw [length_fixedDigits]) hend,
        digitsValue_fixedDigits (by omega)]
    rw [if_pos hy, readYear_digits hne hall, hread, Option.map_some, Int.toNat_of_nonneg hy.1]
  · rw [if_neg hy]
    have hread := readUpTo_natAbs y hend
    simp only at hread
    by_cases hneg : y < 0
    · rw [if_pos hneg, List.cons_append, readYear, trimStart_cons (by decide)]
      simp only [hread, Option.map_some]
      congr 2
      omega
    · rw [if_neg hneg, List.cons_append, readYear, trimStart_cons (by decide)]
      simp only [hread, Option.map_some]
      congr 2
      omega

theorem readDateTime_written {t : DateTime} (h : Decoded t) {cs : List Char} (hc : EndsTime cs) :
    readDateTime (yearText t.year ++ (afterYear t ++ cs)) = some (t, cs) := by
  obtain ⟨hour, minute, sec, nano, hw⟩ := h.writtenAs
  have hhour : hour < 10 ^ 2 := by have := hw.hour_le; omega
  have hminute : minute < 10 ^ 2 := by have := hw.minute_le; omega
  have hsec : sec < 10 ^ 2 := by have := hw.sec_le; omega
  have hdash : ∀ ds, DigitsEnd ('-' :: ds) := by
    intro ds c hc
    obtain rfl : '-' = c := by simpa using hc
    decide
  have htee : ∀ ds, DigitsEnd ('T' :: ds) := by
    intro ds c hc
    obtain rfl : 'T' = c := by simpa using hc
    decide
  have hcolon : ∀ ds, DigitsEnd (':' :: ds) := by
    intro ds c hc
    obtain rfl : ':' = c := by simpa using hc
    decide
  have hfraction : DigitsEnd (fractionText nano ++ cs) := by
    intro c hmem
    unfold fractionText at hmem
    split_ifs at hmem
    · exact (hc c hmem).1
    all_goals
      obtain rfl : '.' = c := by simpa using hmem
      decide
  have hblank : Text.isWhiteSpace '-' = false ∧ Text.isWhiteSpace ':' = false := by decide
  rw [hw.text]
  simp only [readDateTime, localText, List.cons_append, List.append_assoc,
    readYear_yearText t.year (hdash _), readSeparator, trimStart_cons hblank.1,
    trimStart_cons hblank.2, readChar, readNumeric_fixedDigits h.date.month_lt (hdash _),
    readNumeric_fixedDigits h.date.day_lt (htee _), readNumeric_fixedDigits hhour (hcolon _),
    readNumeric_fixedDigits hminute (hcolon _), readNumeric_fixedDigits hsec hfraction,
    readFraction_fractionText hw.nano_lt hc, Option.bind_eq_bind, Option.bind_some,
    beq_self_eq_true, if_true, Bool.or_true, Bool.true_or]
  rw [if_pos ⟨h.date, hw.hour_le, hw.minute_le, hw.sec_le⟩, Option.pure_def, hw.same]

/-- A deserializer reads the date-time that a serializer wrote. -/
theorem parseDateTime_serialized {t : DateTime} (h : Decoded t) (hr : InRange t) :
    parseDateTime (serialized t) = some t := by
  have hz : EndsTime ['Z'] := by
    intro c hc
    obtain rfl : 'Z' = c := by simpa using hc
    exact ⟨by decide, by decide⟩
  have hzone : readZoneOffset (trimStart ['Z']) = some (0, []) := by decide
  simp only [parseDateTime, serialized, writeRfc3339, String.toList_ofList,
    readDateTime_written h hz, Option.bind_eq_bind, Option.bind_some, hzone,
    minusSeconds_zero h.secs]
  rw [if_pos ⟨rfl, hr, hr⟩, Option.pure_def]

/-- The serialized text determines what the strict reader yields. -/
theorem serialized_inj {s s' : String} {t t' : DateTime} (h : parseFromRfc3339 s = some t)
    (h' : parseFromRfc3339 s' = some t') (he : serialized t = serialized t') : t = t' := by
  have hread {text : String} {u : DateTime} (hu : parseFromRfc3339 text = some u) :
      parseDateTime (serialized u) = some u := by
    obtain ⟨hd, hmin, hmax⟩ := parseFromRfc3339_decoded hu
    exact parseDateTime_serialized hd ⟨by omega, by omega⟩
  have ht := hread h
  rw [he, hread h'] at ht
  exact (Option.some.inj ht).symm

end Rfc3339
