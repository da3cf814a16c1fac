import Mathlib.Data.List.Induction
import Mathlib.Data.List.TakeWhile
import Mathlib.Tactic.Ring

/-! Civil UTC date-times and their RFC 3339 text: the shortest of no, three, six
or nine fraction digits when printed, and a reader that takes any offset. -/

namespace Rfc3339

/-- `secs` counts from midnight, `frac` counts nanoseconds and runs on past one
second within a leap second. -/
structure DateTime where
  year : Int
  month : Nat
  day : Nat
  secs : Nat
  frac : Nat
  deriving DecidableEq

def second : Nat := 1000000000

def isLeapYear (y : Int) : Bool := y % 4 == 0 && (y % 100 != 0 || y % 400 == 0)

def daysInMonth (y : Int) (m : Nat) : Nat :=
  if m = 2 then (if isLeapYear y then 29 else 28)
  else if m = 4 ∨ m = 6 ∨ m = 9 ∨ m = 11 then 30 else 31

def ValidDate (y : Int) (m d : Nat) : Prop := 1 ≤ m ∧ m ≤ 12 ∧ 1 ≤ d ∧ d ≤ daysInMonth y m

instance (y : Int) (m d : Nat) : Decidable (ValidDate y m d) := by
  unfold ValidDate
  infer_instance

def prevDay (t : DateTime) : DateTime :=
  if 1 < t.day then { t with day := t.day - 1 }
  else if 1 < t.month then { t with month := t.month - 1, day := daysInMonth t.year (t.month - 1) }
  else { t with year := t.year - 1, month := 12, day := 31 }

def nextDay (t : DateTime) : DateTime :=
  if t.day < daysInMonth t.year t.month then { t with day := t.day + 1 }
  else if t.month < 12 then { t with month := t.month + 1, day := 1 }
  else { t with year := t.year + 1, month := 1, day := 1 }

/-- The time `s` seconds earlier, for shifts of less than a day either way. -/
def minusSeconds (t : DateTime) (s : Int) : DateTime :=
  let shifted := (t.secs : Int) - s
  if shifted < 0 then { prevDay t with secs := (shifted + 86400).toNat }
  else if 86400 ≤ shifted then { nextDay t with secs := (shifted - 86400).toNat }
  else { t with secs := shifted.toNat }

def fixedDigits : Nat → Nat → List Char
  | 0, _ => []
  | width + 1, n => fixedDigits width (n / 10) ++ [Nat.digitChar (n % 10)]

def yearText (y : Int) : List Char :=
  if 0 ≤ y ∧ y ≤ 9999 then fixedDigits 4 y.toNat
  else
    (if y < 0 then '-' else '+') ::
      (if y.natAbs ≤ 9999 then fixedDigits 4 y.natAbs else Nat.toDigits 10 y.natAbs)

def fractionText (n : Nat) : List Char :=
  if n = 0 then []
  else if n % 1000000 = 0 then '.' :: fixedDigits 3 (n / 1000000)
  else if n % 1000 = 0 then '.' :: fixedDigits 6 (n / 1000)
  else '.' :: fixedDigits 9 n

def localText (month day hour minute sec nano : Nat) : List Char :=
  '-' :: (fixedDigits 2 month ++ '-' :: (fixedDigits 2 day ++ 'T' :: (fixedDigits 2 hour ++ ':' ::
    (fixedDigits 2 minute ++ ':' :: (fixedDigits 2 sec ++ fractionText nano)))))

def afterYear (t : DateTime) : List Char :=
  localText t.month t.day (t.secs / 3600) (t.secs / 60 % 60)
    (if second ≤ t.frac then t.secs % 60 + 1 else t.secs % 60)
    (if second ≤ t.frac then t.frac - second else t.frac)

def writeRfc3339 (t : DateTime) (zone : List Char) : String :=
  String.ofList (yearText t.year ++ (afterYear t ++ zone))

def toRfc3339 (t : DateTime) : String := writeRfc3339 t ['+', '0', '0', ':', '0', '0']

/-- The form a serializer writes, with `Z` for the offset. -/
def serialized (t : DateTime) : String := writeRfc3339 t ['Z']

def digitsValue (cs : List Char) : Nat := cs.foldl (fun n c => n * 10 + (c.toNat - '0'.toNat)) 0

def readDigits (width : Nat) (cs : List Char) : Option (Nat × List Char) :=
  if (cs.take width).length = width ∧ (cs.take width).all Char.isDigit then
    some (digitsValue (cs.take width), cs.drop width)
  else none

def readChar (p : Char → Bool) : List Char → Option (List Char)
  | [] => none
  | c :: cs => if p c then some cs else none

/-- Digits after the ninth are read over. -/
def fractionDigits (cs : List Char) : List Char := (cs.takeWhile Char.isDigit).take 9

def readFraction (cs : List Char) : Option (Nat × List Char) :=
  if cs.head? = some '.' then
    if fractionDigits cs.tail = [] then none
    else some (digitsValue (fractionDigits cs.tail) * 10 ^ (9 - (fractionDigits cs.tail).length),
      cs.tail.dropWhile Char.isDigit)
  else some (0, cs)

/-- A date and time after the year, and what follows it. -/
def readLocal (year : Int) (cs : List Char) : Option (DateTime × List Char) := do
  let cs ← readChar (· == '-') cs
  let (month, cs) ← readDigits 2 cs
  let cs ← readChar (· == '-') cs
  let (day, cs) ← readDigits 2 cs
  let cs ← readChar (fun c => c == 't' || c == 'T' || c == ' ') cs
  let (hour, cs) ← readDigits 2 cs
  let cs ← readChar (· == ':') cs
  let (minute, cs) ← readDigits 2 cs
  let cs ← readChar (· == ':') cs
  let (sec, cs) ← readDigits 2 cs
  let (nano, cs) ← readFraction cs
  if ValidDate year month day ∧ hour ≤ 23 ∧ minute ≤ 59 ∧ sec ≤ 60 then
    return ({ year, month, day,
              secs := hour * 3600 + minute * 60 + (if sec = 60 then 59 else sec),
              frac := if sec = 60 then nano + second else nano }, cs)
  else none

def readHoursMinutes (cs : List Char) : Option (Nat × List Char) := do
  let (hours, cs) ← readDigits 2 cs
  let cs ← readChar (· == ':') cs
  let (minutes, cs) ← readDigits 2 cs
  if hours ≤ 23 ∧ minutes ≤ 59 then return (hours * 3600 + minutes * 60, cs) else none

/-- The offset in seconds east of UTC. -/
def readOffset : List Char → Option (Int × List Char)
  | [] => none
  | c :: cs =>
    if c = 'Z' ∨ c = 'z' then some (0, cs)
    else if c = '+' then (readHoursMinutes cs).map fun (n, cs) => ((n : Int), cs)
    else if c = '-' ∨ c = '\u2212' then (readHoursMinutes cs).map fun (n, cs) => (-(n : Int), cs)
    else none

def parseFromRfc3339 (s : String) : Option DateTime := do
  let (year, cs) ← readDigits 4 s.toList
  let (t, cs) ← readLocal year cs
  let (offset, cs) ← readOffset cs
  if cs = [] then return minusSeconds t offset else none

theorem length_fixedDigits (w n : Nat) : (fixedDigits w n).length = w := by
  induction w generalizing n with
  | zero => rfl
  | succ w ih => simp [fixedDigits, ih]

theorem fixedDigits_ne_nil {w n : Nat} (hw : 0 < w) : fixedDigits w n ≠ [] := by
  intro h
  have := length_fixedDigits w n
  rw [h, List.length_nil] at this
  omega

theorem isDigit_digitChar {n : Nat} (h : n < 10) : (Nat.digitChar n).isDigit = true := by
  have hall : ∀ m : Fin 10, (Nat.digitChar m).isDigit = true := by decide
  exact hall ⟨n, h⟩

theorem toNat_digitChar {n : Nat} (h : n < 10) : (Nat.digitChar n).toNat - '0'.toNat = n := by
  have hall : ∀ m : Fin 10, (Nat.digitChar m).toNat - '0'.toNat = m.val := by decide
  exact hall ⟨n, h⟩

theorem isDigit_fixedDigits (w n : Nat) : ∀ c ∈ fixedDigits w n, c.isDigit = true := by
  induction w generalizing n with
  | zero => simp [fixedDigits]
  | succ w ih =>
    intro c hc
    rcases List.mem_append.mp hc with hc | hc
    · exact ih _ c hc
    · rw [List.mem_singleton.mp hc]
      exact isDigit_digitChar (Nat.mod_lt _ (by omega))

theorem digitsValue_fixedDigits {w n : Nat} (h : n < 10 ^ w) :
    digitsValue (fixedDigits w n) = n := by
  induction w generalizing n with
  | zero =>
    have hn : n = 0 := by simpa using h
    rw [hn]
    rfl
  | succ w ih =>
    have hd : n / 10 < 10 ^ w := by
      rw [Nat.div_lt_iff_lt_mul (by omega), ← pow_succ]
      exact h
    have hv := ih hd
    unfold digitsValue at hv ⊢
    rw [fixedDigits, List.foldl_append, hv]
    simp only [List.foldl_cons, List.foldl_nil]
    rw [toNat_digitChar (Nat.mod_lt _ (by omega))]
    omega

theorem readDigits_fixedDigits {w n : Nat} (h : n < 10 ^ w) (cs : List Char) :
    readDigits w (fixedDigits w n ++ cs) = some (n, cs) := by
  have ht : (fixedDigits w n ++ cs).take w = fixedDigits w n := by
    rw [List.take_append_of_le_length (by rw [length_fixedDigits])]
    exact List.take_of_length_le (by rw [length_fixedDigits])
  have hd : (fixedDigits w n ++ cs).drop w = cs := by
    rw [List.drop_append_of_le_length (by rw [length_fixedDigits])]
    simp [length_fixedDigits]
  have ha : (fixedDigits w n).all Char.isDigit = true :=
    List.all_eq_true.mpr (isDigit_fixedDigits w n)
  rw [readDigits, ht, hd, digitsValue_fixedDigits h, if_pos ⟨length_fixedDigits w n, ha⟩]

/-- What may follow a printed time: nothing that continues its digits. -/
def EndsTime (cs : List Char) : Prop := ∀ c ∈ cs.head?, c.isDigit = false ∧ c ≠ '.'

theorem readFraction_digits {w n : Nat} (hw : 0 < w) (hw9 : w ≤ 9) (hn : n < 10 ^ w)
    {cs : List Char} (hc : EndsTime cs) :
    readFraction ('.' :: (fixedDigits w n ++ cs)) = some (n * 10 ^ (9 - w), cs) := by
  have hall := isDigit_fixedDigits w n
  have htake : fractionDigits (fixedDigits w n ++ cs) = fixedDigits w n := by
    have he : (fixedDigits w n ++ cs).takeWhile Char.isDigit = fixedDigits w n := by
      rw [List.takeWhile_append_of_pos hall]
      cases cs with
      | nil => simp
      | cons c cs => rw [List.takeWhile_cons_of_neg (by simp [(hc c (by simp)).1]), List.append_nil]
    rw [fractionDigits, he]
    exact List.take_of_length_le (by rw [length_fixedDigits]; exact hw9)
  have hdrop : (fixedDigits w n ++ cs).dropWhile Char.isDigit = cs := by
    rw [List.dropWhile_append_of_pos hall]
    cases cs with
    | nil => rfl
    | cons c cs => rw [List.dropWhile_cons_of_neg (by simp [(hc c (by simp)).1])]
  simp only [readFraction, List.head?_cons, if_true, List.tail_cons, htake,
    if_neg (fixedDigits_ne_nil hw), hdrop, digitsValue_fixedDigits hn, length_fixedDigits]

theorem readFraction_fractionText {n : Nat} (hn : n < second) {cs : List Char}
    (hc : EndsTime cs) : readFraction (fractionText n ++ cs) = some (n, cs) := by
  unfold second at hn
  unfold fractionText
  split_ifs with h0 h6 h3
  · have hne : cs.head? ≠ some '.' := fun he => (hc '.' (by simp [he])).2 rfl
    simp [readFraction, hne, h0]
  · have hr := readFraction_digits (w := 3) (by omega) (by omega)
      (show n / 1000000 < 10 ^ 3 by omega) hc
    rw [List.cons_append, hr]
    have he : n / 1000000 * 10 ^ (9 - 3) = n := by omega
    rw [he]
  · have hr := readFraction_digits (w := 6) (by omega) (by omega)
      (show n / 1000 < 10 ^ 6 by omega) hc
    rw [List.cons_append, hr]
    have he : n / 1000 * 10 ^ (9 - 6) = n := by omega
    rw [he]
  · have hr := readFraction_digits (w := 9) (by omega) (by omega)
      (show n < 10 ^ 9 by omega) hc
    rw [List.cons_append, hr]
    simp

/-- The date-times a reader yields, before it shifts them by their offset. -/
structure Decoded (t : DateTime) : Prop where
  date : ValidDate t.year t.month t.day
  secs : t.secs < 86400
  frac : t.frac < 2 * second
  leap : second ≤ t.frac → t.secs % 60 = 59

/-- The fields the text after the year is written of. -/
structure WrittenAs (t : DateTime) (hour minute sec nano : Nat) : Prop where
  hour_le : hour ≤ 23
  minute_le : minute ≤ 59
  sec_le : sec ≤ 60
  nano_lt : nano < second
  text : afterYear t = localText t.month t.day hour minute sec nano
  same : (⟨t.year, t.month, t.day, hour * 3600 + minute * 60 + (if sec = 60 then 59 else sec),
    if sec = 60 then nano + second else nano⟩ : DateTime) = t

theorem Decoded.writtenAs {t : DateTime} (h : Decoded t) :
    ∃ hour minute sec nano, WrittenAs t hour minute sec nano := by
  obtain ⟨year, month, day, secs, frac⟩ := t
  obtain ⟨-, hs, hf, hl⟩ := h
  simp only at hs hf hl
  by_cases hleap : second ≤ frac
  · have h59 := hl hleap
    have he : secs / 3600 * 3600 + secs / 60 % 60 * 60 + 59 = secs := by omega
    refine ⟨secs / 3600, secs / 60 % 60, secs % 60 + 1, frac - second, by omega, by omega, by omega,
      by omega, by simp only [afterYear, if_pos hleap], ?_⟩
    rw [if_pos (by omega), if_pos (by omega), Nat.sub_add_cancel hleap, he]
  · have he : secs / 3600 * 3600 + secs / 60 % 60 * 60 + secs % 60 = secs := by omega
    refine ⟨secs / 3600, secs / 60 % 60, secs % 60, frac, by omega, by omega, by omega, by omega,
      by simp only [afterYear, if_neg hleap], ?_⟩
    rw [if_neg (by omega), if_neg (by omega), he]

theorem ValidDate.month_lt {year : Int} {month day : Nat} (h : ValidDate year month day) :
    month < 10 ^ 2 := by
  have := h.2.1
  omega

theorem ValidDate.day_lt {year : Int} {month day : Nat} (h : ValidDate year month day) :
    day < 10 ^ 2 := by
  have hle : daysInMonth year month ≤ 31 := by unfold daysInMonth; split_ifs <;> omega
  have := h.2.2.2
  omega

theorem readLocal_afterYear {t : DateTime} (h : Decoded t) {cs : List Char} (hc : EndsTime cs) :
    readLocal t.year (afterYear t ++ cs) = some (t, cs) := by
  obtain ⟨hour, minute, sec, nano, hw⟩ := h.writtenAs
  have hhour : hour < 10 ^ 2 := by have := hw.hour_le; omega
  have hminute : minute < 10 ^ 2 := by have := hw.minute_le; omega
  have hsec : sec < 10 ^ 2 := by have := hw.sec_le; omega
  rw [hw.text]
  simp only [readLocal, localText, List.cons_append, List.append_assoc, readChar,
    readDigits_fixedDigits h.date.month_lt, readDigits_fixedDigits h.date.day_lt,
    readDigits_fixedDigits hhour, readDigits_fixedDigits hminute, readDigits_fixedDigits hsec,
    readFraction_fractionText hw.nano_lt hc, Option.bind_eq_bind, Option.bind_some,
    beq_self_eq_true, if_true, Bool.or_true, Bool.true_or]
  rw [if_pos ⟨h.date, hw.hour_le, hw.minute_le, hw.sec_le⟩, Option.pure_def, hw.same]

/-- A date-time a clock reads: a four-digit year and no leap second. -/
structure Reading (t : DateTime) : Prop where
  decoded : Decoded t
  year_nonneg : 0 ≤ t.year
  year_le : t.year ≤ 9999
  frac_lt : t.frac < second

abbrev Clock := { t : DateTime // Reading t }

theorem minusSeconds_zero {t : DateTime} (h : t.secs < 86400) : minusSeconds t 0 = t := by
  unfold minusSeconds
  simp only [sub_zero]
  rw [if_neg (by omega), if_neg (by omega)]
  simp

theorem parseFromRfc3339_toRfc3339 {t : DateTime} (h : Reading t) :
    parseFromRfc3339 (toRfc3339 t) = some t := by
  have hy : t.year.toNat < 10 ^ 4 := by
    have := h.year_le
    omega
  have hz : EndsTime ['+', '0', '0', ':', '0', '0'] := by
    intro c hc
    obtain rfl : '+' = c := by simpa using hc
    exact ⟨by decide, by decide⟩
  have hyear : (t.year.toNat : Int) = t.year := Int.toNat_of_nonneg h.year_nonneg
  have ho : readOffset ['+', '0', '0', ':', '0', '0'] = some (0, []) := by decide
  have hz' : minusSeconds t 0 = t := minusSeconds_zero h.decoded.secs
  simp only [parseFromRfc3339, toRfc3339, writeRfc3339, String.toList_ofList, yearText,
    if_pos (And.intro h.year_nonneg h.year_le), readDigits_fixedDigits hy, Option.bind_eq_bind,
    Option.bind_some, hyear, readLocal_afterYear h.decoded hz, ho, if_true, hz']
  rfl

theorem digit_value_le {c : Char} (h : c.isDigit = true) : c.toNat - '0'.toNat ≤ 9 := by
  have hc := h
  simp only [Char.isDigit, Bool.and_eq_true, decide_eq_true_eq, ge_iff_le] at hc
  have h9 : c.val.toNat ≤ 57 := UInt32.le_iff_toNat_le.mp hc.2
  have h0 : '0'.toNat = 48 := by decide
  have hv : c.toNat = c.val.toNat := rfl
  omega

theorem digitsValue_lt {cs : List Char} (h : ∀ c ∈ cs, c.isDigit = true) :
    digitsValue cs < 10 ^ cs.length := by
  induction cs using List.reverseRec with
  | nil => simp [digitsValue]
  | append_singleton cs c ih =>
    have hcs := ih (fun d hd => h d (by simp [hd]))
    have hc := digit_value_le (h c (by simp))
    unfold digitsValue at hcs ⊢
    rw [List.foldl_append, List.length_append, List.length_singleton, pow_succ]
    simp only [List.foldl_cons, List.foldl_nil]
    omega

theorem readDigits_lt {w n : Nat} {cs rest : List Char} (h : readDigits w cs = some (n, rest)) :
    n < 10 ^ w := by
  unfold readDigits at h
  split_ifs at h with hd
  obtain ⟨rfl, rfl⟩ := Prod.mk.inj (Option.some.inj h)
  have hlt := digitsValue_lt (List.all_eq_true.mp hd.2)
  rwa [hd.1] at hlt

theorem readFraction_lt {n : Nat} {cs rest : List Char} (h : readFraction cs = some (n, rest)) :
    n < second := by
  unfold readFraction at h
  split_ifs at h
  · obtain ⟨rfl, rfl⟩ := Prod.mk.inj (Option.some.inj h)
    generalize hds : fractionDigits cs.tail = ds
    have hlen : ds.length ≤ 9 := by
      rw [← hds]
      exact List.length_take_le _ _
    have hall : ∀ c ∈ ds, c.isDigit = true := by
      intro c hc
      rw [← hds] at hc
      exact List.mem_takeWhile_imp (List.mem_of_mem_take hc)
    have hlt := digitsValue_lt hall
    have hpos : 0 < 10 ^ (9 - ds.length) := Nat.pow_pos (by omega)
    calc digitsValue ds * 10 ^ (9 - ds.length)
        < 10 ^ ds.length * 10 ^ (9 - ds.length) := Nat.mul_lt_mul_of_pos_right hlt hpos
      _ = 10 ^ 9 := by rw [← pow_add, Nat.add_sub_cancel' hlen]
  · obtain ⟨rfl, rfl⟩ := Prod.mk.inj (Option.some.inj h)
    unfold second
    omega

theorem readLocal_decoded {year : Int} {cs rest : List Char} {t : DateTime}
    (h : readLocal year cs = some (t, rest)) : t.year = year ∧ Decoded t := by
  simp only [readLocal, Option.bind_eq_bind, Option.bind_eq_some_iff] at h
  obtain ⟨_, _, ⟨month, _⟩, _, _, _, ⟨day, _⟩, _, _, _, ⟨hour, _⟩, _, _, _, ⟨minute, _⟩, _, _, _,
    ⟨sec, _⟩, _, ⟨nano, _⟩, hn, h⟩ := h
  have hnano := readFraction_lt hn
  by_cases hv : ValidDate year month day ∧ hour ≤ 23 ∧ minute ≤ 59 ∧ sec ≤ 60
  · rw [if_pos hv] at h
    obtain ⟨rfl, rfl⟩ := Prod.mk.inj (Option.some.inj h)
    obtain ⟨hdate, hhour, hminute, hsec⟩ := hv
    refine ⟨rfl, hdate, ?_, ?_, ?_⟩
    · show _ + _ + (if sec = 60 then 59 else sec) < 86400
      split_ifs <;> omega
    · show (if sec = 60 then nano + second else nano) < 2 * second
      split_ifs <;> omega
    · show second ≤ (if sec = 60 then nano + second else nano) →
        (hour * 3600 + minute * 60 + (if sec = 60 then 59 else sec)) % 60 = 59
      split_ifs <;> omega
  · rw [if_neg hv] at h
    exact absurd h (by simp)

theorem readHoursMinutes_bounds {cs rest : List Char} {n : Nat}
    (h : readHoursMinutes cs = some (n, rest)) : n < 86400 ∧ n % 60 = 0 := by
  simp only [readHoursMinutes, Option.bind_eq_bind, Option.bind_eq_some_iff] at h
  obtain ⟨⟨hours, _⟩, _, _, _, ⟨minutes, _⟩, _, h⟩ := h
  simp only at h
  split_ifs at h with hb
  obtain ⟨rfl, rfl⟩ := Prod.mk.inj (Option.some.inj h)
  omega

theorem readOffset_bounds {cs rest : List Char} {offset : Int}
    (h : readOffset cs = some (offset, rest)) :
    -86400 < offset ∧ offset < 86400 ∧ offset % 60 = 0 := by
  cases cs with
  | nil => simp [readOffset] at h
  | cons c cs =>
    simp only [readOffset] at h
    split_ifs at h with hz hplus hminus
    · obtain ⟨rfl, rfl⟩ := Prod.mk.inj (Option.some.inj h)
      omega
    all_goals
      obtain ⟨⟨n, rest'⟩, hn, he⟩ := Option.map_eq_some_iff.mp h
      obtain ⟨rfl, rfl⟩ := Prod.mk.inj he
      have hb := readHoursMinutes_bounds hn
      omega

theorem daysInMonth_pos (y : Int) (m : Nat) : 1 ≤ daysInMonth y m := by
  unfold daysInMonth
  split_ifs <;> omega

theorem prevDay_validDate {t : DateTime} (h : ValidDate t.year t.month t.day) :
    ValidDate (prevDay t).year (prevDay t).month (prevDay t).day := by
  obtain ⟨hm1, hm2, hd1, hd2⟩ := h
  unfold prevDay
  split_ifs with hday hmonth
  · refine ⟨hm1, hm2, ?_, ?_⟩ <;> simp only <;> omega
  · refine ⟨?_, ?_, daysInMonth_pos _ _, le_refl _⟩ <;> simp only <;> omega
  · simp [ValidDate, daysInMonth]

theorem nextDay_validDate {t : DateTime} (h : ValidDate t.year t.month t.day) :
    ValidDate (nextDay t).year (nextDay t).month (nextDay t).day := by
  obtain ⟨hm1, hm2, hd1, hd2⟩ := h
  unfold nextDay
  split_ifs with hday hmonth
  · refine ⟨hm1, hm2, ?_, ?_⟩ <;> simp only <;> omega
  · refine ⟨?_, ?_, le_refl _, daysInMonth_pos _ _⟩ <;> simp only <;> omega
  · simp [ValidDate, daysInMonth]

theorem prevDay_year (t : DateTime) : t.year - 1 ≤ (prevDay t).year ∧ (prevDay t).year ≤ t.year := by
  unfold prevDay
  split_ifs <;> simp

theorem nextDay_year (t : DateTime) : t.year ≤ (nextDay t).year ∧ (nextDay t).year ≤ t.year + 1 := by
  unfold nextDay
  split_ifs <;> simp

theorem minusSeconds_decoded {t : DateTime} {s : Int} (h : Decoded t) (hs : -86400 < s)
    (hs' : s < 86400) (hm : s % 60 = 0) :
    Decoded (minusSeconds t s) ∧ t.year - 1 ≤ (minusSeconds t s).year ∧
      (minusSeconds t s).year ≤ t.year + 1 := by
  obtain ⟨hd, hsecs, hf, hl⟩ := h
  have hpf : (prevDay t).frac = t.frac := by unfold prevDay; split_ifs <;> rfl
  have hnf : (nextDay t).frac = t.frac := by unfold nextDay; split_ifs <;> rfl
  have hp := prevDay_year t
  have hn := nextDay_year t
  unfold minusSeconds
  simp only
  split_ifs with h0 h1
  · refine ⟨⟨prevDay_validDate hd, ?_, by rw [← hpf] at hf; exact hf, ?_⟩, hp.1, by simp only; omega⟩
    · show ((t.secs : Int) - s + 86400).toNat < 86400
      omega
    · intro hle
      have h59 := hl (by rw [← hpf]; exact hle)
      show ((t.secs : Int) - s + 86400).toNat % 60 = 59
      omega
  · refine ⟨⟨nextDay_validDate hd, ?_, by rw [← hnf] at hf; exact hf, ?_⟩, by simp only; omega, hn.2⟩
    · show ((t.secs : Int) - s - 86400).toNat < 86400
      omega
    · intro hle
      have h59 := hl (by rw [← hnf]; exact hle)
      show ((t.secs : Int) - s - 86400).toNat % 60 = 59
      omega
  · refine ⟨⟨hd, ?_, hf, ?_⟩, by simp only; omega, by simp only; omega⟩
    · show ((t.secs : Int) - s).toNat < 86400
      omega
    · intro hle
      have h59 := hl hle
      show ((t.secs : Int) - s).toNat % 60 = 59
      omega

theorem parseFromRfc3339_decoded {s : String} {t : DateTime} (h : parseFromRfc3339 s = some t) :
    Decoded t ∧ -1 ≤ t.year ∧ t.year ≤ 10000 := by
  simp only [parseFromRfc3339, Option.bind_eq_bind, Option.bind_eq_some_iff] at h
  obtain ⟨⟨year, _⟩, hy, ⟨u, _⟩, hu, ⟨offset, _⟩, ho, h⟩ := h
  have hlt := readDigits_lt hy
  obtain ⟨hyear, hdec⟩ := readLocal_decoded hu
  obtain ⟨hlow, hhigh, hmod⟩ := readOffset_bounds ho
  simp only at h hyear
  split_ifs at h
  obtain rfl := Option.some.inj h
  obtain ⟨hd, hmin, hmax⟩ := minusSeconds_decoded hdec hlow hhigh hmod
  exact ⟨hd, by omega, by omega⟩

end Rfc3339
