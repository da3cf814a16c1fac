import ClavenarLite.Lib.Bytes
import ClavenarLite.Lib.Rfc3339

/-! The chronological order of date-times, and that their texts have it too. -/

namespace Rfc3339

open Bytes

/-- Days from the first of January of the year zero. -/
def daysBeforeYear (y : Int) : Int := 365 * y + (y + 3) / 4 - (y + 99) / 100 + (y + 399) / 400

def daysBeforeMonth (y : Int) (m : Nat) : Nat :=
  ((List.range (m - 1)).map fun k => daysInMonth y (k + 1)).sum

def dayNumber (t : DateTime) : Int :=
  daysBeforeYear t.year + daysBeforeMonth t.year t.month + t.day

/-- Nanoseconds on one time line. -/
def nanos (t : DateTime) : Int := (dayNumber t * 86400 + t.secs) * second + t.frac

theorem daysBeforeYear_succ (y : Int) :
    daysBeforeYear (y + 1) = daysBeforeYear y + if isLeapYear y then 366 else 365 := by
  unfold daysBeforeYear isLeapYear
  split_ifs with h
  · simp only [Bool.and_eq_true, Bool.or_eq_true, beq_iff_eq, bne_iff_ne] at h
    omega
  · simp only [Bool.and_eq_true, Bool.or_eq_true, beq_iff_eq, bne_iff_ne, not_and_or, not_or,
      not_not] at h
    omega

theorem daysBeforeMonth_succ {y : Int} {m : Nat} (h : 1 ≤ m) :
    daysBeforeMonth y (m + 1) = daysBeforeMonth y m + daysInMonth y m := by
  obtain ⟨k, rfl⟩ : ∃ k, m = k + 1 := ⟨m - 1, by omega⟩
  simp [daysBeforeMonth, List.range_succ]

theorem daysBeforeMonth_mono {y : Int} {m n : Nat} (hm : 1 ≤ m) (hmn : m < n) :
    daysBeforeMonth y m + daysInMonth y m ≤ daysBeforeMonth y n := by
  induction n with
  | zero => omega
  | succ n ih =>
    rcases Nat.lt_succ_iff_lt_or_eq.mp hmn with hlt | rfl
    · have hn := ih hlt
      rw [daysBeforeMonth_succ (by omega)]
      omega
    · rw [daysBeforeMonth_succ hm]

theorem daysBeforeMonth_december (y : Int) :
    daysBeforeMonth y 12 + 31 = if isLeapYear y then 366 else 365 := by
  have h : List.range (12 - 1) = [0, 1, 2, 3, 4, 5, 6, 7, 8, 9, 10] := by decide
  rw [daysBeforeMonth, h]
  cases hleap : isLeapYear y with
  | true => simp [daysInMonth, hleap]
  | false => simp [daysInMonth, hleap]

/-- A day of the year lies before the first of the next one. -/
theorem dayOfYear_le {y : Int} {m d : Nat} (h : ValidDate y m d) :
    daysBeforeMonth y m + d ≤ if isLeapYear y then 366 else 365 := by
  obtain ⟨hm1, hm2, hd1, hd2⟩ := h
  rw [← daysBeforeMonth_december]
  rcases Nat.lt_or_eq_of_le hm2 with hlt | rfl
  · have := daysBeforeMonth_mono (y := y) hm1 hlt
    omega
  · have h31 : daysInMonth y 12 = 31 := by simp [daysInMonth]
    omega

theorem daysBeforeYear_le {y z : Int} (h : y < z) :
    (daysBeforeYear y + if isLeapYear y then 366 else 365) ≤ daysBeforeYear z := by
  rw [← daysBeforeYear_succ]
  unfold daysBeforeYear
  omega

/-- Date-times are compared field by field. -/
def Precedes (t u : DateTime) : Prop :=
  t.year < u.year ∨ t.year = u.year ∧ (t.month < u.month ∨ t.month = u.month ∧
    (t.day < u.day ∨ t.day = u.day ∧ (t.secs < u.secs ∨ t.secs = u.secs ∧ t.frac < u.frac)))

instance (t u : DateTime) : Decidable (Precedes t u) := by
  unfold Precedes
  infer_instance

theorem Precedes.total (t u : DateTime) : Precedes t u ∨ t = u ∨ Precedes u t := by
  obtain ⟨y, m, d, s, f⟩ := t
  obtain ⟨y', m', d', s', f'⟩ := u
  simp only [Precedes, DateTime.mk.injEq]
  omega

variable {t u : DateTime}

theorem dayNumber_lt_of_year (ht : Decoded t) (hu : Decoded u) (h : t.year < u.year) :
    dayNumber t < dayNumber u := by
  have hlast := dayOfYear_le ht.date
  have hyears := daysBeforeYear_le h
  have hday := hu.date.2.2.1
  unfold dayNumber
  split_ifs at hlast hyears <;> omega

theorem dayNumber_lt_of_month (ht : Decoded t) (hu : Decoded u) (hy : t.year = u.year)
    (h : t.month < u.month) : dayNumber t < dayNumber u := by
  have hmonths := daysBeforeMonth_mono (y := t.year) ht.date.1 h
  have hlast := ht.date.2.2.2
  have hday := hu.date.2.2.1
  rw [dayNumber, dayNumber, ← hy]
  omega

theorem nanos_lt_of_day (ht : Decoded t) (hf : t.frac < second) (h : dayNumber t < dayNumber u) :
    nanos t < nanos u := by
  have hs := ht.secs
  unfold nanos second at *
  omega

/-- Comparing the fields is comparing the instants. -/
theorem nanos_lt_of_precedes (ht : Reading t) (hu : Reading u) (h : Precedes t u) :
    nanos t < nanos u := by
  rcases h with hy | ⟨hy, hm | ⟨hm, hd | ⟨hd, h⟩⟩⟩
  · exact nanos_lt_of_day ht.decoded ht.frac_lt (dayNumber_lt_of_year ht.decoded hu.decoded hy)
  · exact nanos_lt_of_day ht.decoded ht.frac_lt (dayNumber_lt_of_month ht.decoded hu.decoded hy hm)
  · refine nanos_lt_of_day ht.decoded ht.frac_lt ?_
    rw [dayNumber, dayNumber, ← hy, ← hm]
    omega
  · have hday : dayNumber t = dayNumber u := by rw [dayNumber, dayNumber, hy, hm, hd]
    have hf := ht.frac_lt
    unfold nanos second at *
    omega

theorem precedes_iff (ht : Reading t) (hu : Reading u) : Precedes t u ↔ nanos t < nanos u := by
  refine ⟨nanos_lt_of_precedes ht hu, fun h => ?_⟩
  rcases Precedes.total t u with hlt | rfl | hgt
  · exact hlt
  · exact absurd h (lt_irrefl _)
  · exact absurd h (lt_asymm (nanos_lt_of_precedes hu ht hgt))

theorem dayNumber_prevDay (h : ValidDate t.year t.month t.day) :
    dayNumber (prevDay t) = dayNumber t - 1 := by
  obtain ⟨hm1, hm2, hd1, hd2⟩ := h
  unfold prevDay
  split_ifs with hday hmonth
  · simp only [dayNumber]
    omega
  · have hmonths := daysBeforeMonth_succ (y := t.year) (m := t.month - 1) (by omega)
    rw [Nat.sub_add_cancel hm1] at hmonths
    simp only [dayNumber]
    omega
  · have hfirst : t.month = 1 := by omega
    have hyears := daysBeforeYear_succ (t.year - 1)
    have hlast := daysBeforeMonth_december (t.year - 1)
    rw [sub_add_cancel] at hyears
    have hzero : daysBeforeMonth t.year 1 = 0 := rfl
    simp only [dayNumber, hfirst, hzero]
    split_ifs at hyears hlast <;> omega

/-- A shift back by less than a day shifts the instant. -/
theorem nanos_minusSeconds {s : Int} (ht : Decoded t) (h0 : 0 ≤ s) (hs : s < 86400) :
    nanos (minusSeconds t s) = nanos t - s * second := by
  have hsecs := ht.secs
  have hprev := dayNumber_prevDay ht.date
  have hfrac : (prevDay t).frac = t.frac := by
    unfold prevDay
    split_ifs <;> rfl
  unfold minusSeconds
  simp only
  rw [if_neg (show ¬ (86400 : Int) ≤ (t.secs : Int) - s by omega)]
  split_ifs with hneg
  · have hday : dayNumber { prevDay t with secs := ((t.secs : Int) - s + 86400).toNat } =
        dayNumber (prevDay t) := rfl
    unfold nanos second
    rw [hday, hprev]
    simp only [hfrac]
    omega
  · have hday : dayNumber { t with secs := ((t.secs : Int) - s).toNat } = dayNumber t := rfl
    unfold nanos second
    rw [hday]
    simp only
    omega

/-- What a reading shifted back is like: its year may be the one before zero. -/
theorem minusSeconds_reading {s : Int} (ht : Reading t) (h0 : 0 ≤ s) (hs : s < 86400)
    (hm : s % 60 = 0) : Decoded (minusSeconds t s) ∧ (minusSeconds t s).frac < second ∧
      -1 ≤ (minusSeconds t s).year ∧ (minusSeconds t s).year ≤ 9999 := by
  have hdec := (minusSeconds_decoded ht.decoded (by omega) hs hm).1
  have hsecs := ht.decoded.secs
  have hmin := ht.year_nonneg
  have hmax := ht.year_le
  have hf := ht.frac_lt
  have hyear := prevDay_year t
  have hfrac : (prevDay t).frac = t.frac := by
    unfold prevDay
    split_ifs <;> rfl
  refine ⟨hdec, ?_⟩
  unfold minusSeconds
  simp only
  rw [if_neg (show ¬ (86400 : Int) ≤ (t.secs : Int) - s by omega)]
  split_ifs
  · simp only
    omega
  · simp only
    omega

theorem append_lt_append {α : Type} [LT α] {a b : List α} (h : a < b) (hlen : a.length = b.length)
    (x y : List α) : a ++ x < b ++ y := by
  induction a generalizing b with
  | nil =>
    rw [List.eq_nil_of_length_eq_zero hlen.symm] at h
    exact absurd h (List.not_lt_nil _)
  | cons c a ih =>
    cases b with
    | nil => exact absurd hlen (by simp)
    | cons d b =>
      rw [List.cons_append, List.cons_append, List.cons_lt_cons_iff]
      rcases List.cons_lt_cons_iff.mp h with hlt | ⟨rfl, hlt⟩
      · exact Or.inl hlt
      · exact Or.inr ⟨rfl, ih hlt (Nat.succ.inj hlen)⟩

theorem digitChar_lt {m n : Nat} (h : m < n) (hn : n < 10) : Nat.digitChar m < Nat.digitChar n := by
  have hall : ∀ i j : Fin 10, i < j → Nat.digitChar i < Nat.digitChar j := by decide
  exact hall ⟨m, by omega⟩ ⟨n, hn⟩ h

theorem fixedDigits_lt {w m n : Nat} (h : m < n) (hn : n < 10 ^ w) :
    fixedDigits w m < fixedDigits w n := by
  induction w generalizing m n with
  | zero => omega
  | succ w ih =>
    rw [fixedDigits, fixedDigits]
    rcases Nat.lt_or_ge (m / 10) (n / 10) with hlt | hge
    · exact append_lt_append (ih hlt (by rw [pow_succ] at hn; omega)) (by simp [length_fixedDigits])
        _ _
    · have heq : m / 10 = n / 10 := by omega
      rw [heq]
      refine List.append_left_lt (List.cons_lt_cons_iff.mpr (Or.inl ?_))
      exact digitChar_lt (by omega) (by omega)

/-- The first digits and the last ones. -/
theorem fixedDigits_add (a b n : Nat) :
    fixedDigits (a + b) n = fixedDigits a (n / 10 ^ b) ++ fixedDigits b n := by
  induction b generalizing n with
  | zero => simp [fixedDigits]
  | succ b ih =>
    rw [← Nat.add_assoc, fixedDigits, ih, fixedDigits, List.append_assoc, Nat.div_div_eq_div_mul,
      pow_succ, Nat.mul_comm 10]

/-- The number of digits a fraction is printed with. -/
def fractionWidth (n : Nat) : Nat :=
  if n % 1000000 = 0 then 3 else if n % 1000 = 0 then 6 else 9

theorem fractionText_pos {n : Nat} (h : 0 < n) :
    fractionText n = '.' :: fixedDigits (fractionWidth n) (n / 10 ^ (9 - fractionWidth n)) := by
  unfold fractionText fractionWidth
  rw [if_neg (by omega)]
  split_ifs <;> simp

theorem fractionWidth_spec (n : Nat) :
    fractionWidth n ≤ 9 ∧ n / 10 ^ (9 - fractionWidth n) * 10 ^ (9 - fractionWidth n) = n := by
  unfold fractionWidth
  split_ifs <;> norm_num <;> omega

theorem div_pow_div (n : Nat) {a b : Nat} (ha : a ≤ b) (hb : b ≤ 9) :
    n / 10 ^ (9 - b) / 10 ^ (b - a) = n / 10 ^ (9 - a) := by
  rw [Nat.div_div_eq_div_mul, ← pow_add]
  congr 2
  omega

theorem point_lt_digit {c : Char} (h : c.isDigit = true) : '.' < c := by
  simp only [Char.isDigit, Bool.and_eq_true, decide_eq_true_eq, ge_iff_le] at h
  exact Nat.lt_of_lt_of_le (show '.'.val.toNat < 48 by decide) (UInt32.le_iff_toNat_le.mp h.1)

theorem lt_fixedDigits {k n : Nat} (hk : 0 < k) {c : Char} (hc : c < '.') (cs ds : List Char) :
    c :: cs < fixedDigits k n ++ ds := by
  have hlen := length_fixedDigits k n
  have hdigit := isDigit_fixedDigits k n
  generalize fixedDigits k n = text at hlen hdigit
  cases text with
  | nil => exact absurd hlen (by simp only [List.length_nil]; omega)
  | cons d text =>
    refine List.cons_lt_cons_iff.mpr (Or.inl ?_)
    exact Char.lt_trans hc (point_lt_digit (hdigit d List.mem_cons_self))

/-- Where one fraction ends and the other continues, what follows the fraction
comes before any digit. -/
theorem fractionText_lt {m n : Nat} (h : m < n) (hn : n < second) {c : Char} (hc : c < '.')
    (cs : List Char) : fractionText m ++ c :: cs < fractionText n ++ c :: cs := by
  rw [fractionText_pos (n := n) (by omega), List.cons_append]
  rcases Nat.eq_zero_or_pos m with rfl | hm
  · exact List.cons_lt_cons_iff.mpr (Or.inl hc)
  rw [fractionText_pos hm, List.cons_append]
  refine List.cons_lt_cons_iff.mpr (Or.inr ⟨rfl, ?_⟩)
  obtain ⟨hw, hmw⟩ := fractionWidth_spec m
  obtain ⟨hv, hnv⟩ := fractionWidth_spec n
  generalize fractionWidth m = w at hw hmw ⊢
  generalize fractionWidth n = v at hv hnv ⊢
  have hbound : ∀ {a}, a ≤ 9 → n / 10 ^ (9 - a) < 10 ^ a := fun {a} ha => by
    rw [Nat.div_lt_iff_lt_mul (Nat.pow_pos (by omega)), ← pow_add, Nat.add_sub_cancel' ha]
    exact hn
  rcases Nat.le_total w v with hwv | hvw
  · -- the earlier text has no more digits: what they share is compared first
    obtain ⟨k, rfl⟩ := Nat.exists_eq_add_of_le hwv
    have hn' := div_pow_div n hwv hv
    rw [Nat.add_sub_cancel_left] at hn'
    rw [fixedDigits_add, hn', List.append_assoc]
    have hle : m / 10 ^ (9 - w) ≤ n / 10 ^ (9 - w) := Nat.div_le_div_right h.le
    rcases Nat.lt_or_eq_of_le hle with hlt | heq
    · exact append_lt_append (fixedDigits_lt hlt (hbound hw)) (by simp [length_fixedDigits]) _ _
    · rw [heq]
      refine List.append_left_lt (lt_fixedDigits ?_ hc _ _)
      rcases Nat.eq_zero_or_pos k with rfl | hk
      · rw [Nat.add_zero] at hnv
        rw [heq, hnv] at hmw
        omega
      · exact hk
  · -- the later text is the shorter one: its digits are already greater
    obtain ⟨k, rfl⟩ := Nat.exists_eq_add_of_le hvw
    have hm' := div_pow_div m hvw hw
    rw [Nat.add_sub_cancel_left] at hm'
    rw [fixedDigits_add, hm', List.append_assoc]
    have hlt : m / 10 ^ (9 - v) < n / 10 ^ (9 - v) := by
      rw [Nat.div_lt_iff_lt_mul (Nat.pow_pos (by omega)), hnv]
      exact h
    exact append_lt_append (fixedDigits_lt hlt (hbound hv)) (by simp [length_fixedDigits]) _ _

theorem cons_lt {x y : List Char} (c : Char) (h : x < y) : c :: x < c :: y :=
  List.cons_lt_cons_iff.mpr (Or.inr ⟨rfl, h⟩)

theorem field_lt {w a b : Nat} {x y : List Char} (hb : b < 10 ^ w) (h : a < b ∨ a = b ∧ x < y) :
    fixedDigits w a ++ x < fixedDigits w b ++ y := by
  rcases h with hlt | ⟨rfl, hxy⟩
  · exact append_lt_append (fixedDigits_lt hlt hb) (by simp [length_fixedDigits]) _ _
  · exact List.append_left_lt hxy

/-- The texts of a day's readings, by their parts. -/
theorem localText_lt {t u : DateTime} (hu : Reading u) {c : Char} (hc : c < '.') (cs : List Char)
    (h : t.month < u.month ∨ t.month = u.month ∧ (t.day < u.day ∨ t.day = u.day ∧
      (t.secs < u.secs ∨ t.secs = u.secs ∧ t.frac < u.frac))) :
    localText t.month t.day (t.secs / 3600) (t.secs / 60 % 60) (t.secs % 60) t.frac ++ c :: cs <
      localText u.month u.day (u.secs / 3600) (u.secs / 60 % 60) (u.secs % 60) u.frac ++
        c :: cs := by
  have hsecs := hu.decoded.secs
  have hmonth := hu.decoded.date.month_lt
  have hday := hu.decoded.date.day_lt
  simp only [localText, List.cons_append, List.append_assoc]
  refine cons_lt _ (field_lt hmonth (h.imp_right fun hm => ⟨hm.1, cons_lt _ ?_⟩))
  refine field_lt hday (hm.2.imp_right fun hd => ⟨hd.1, cons_lt _ ?_⟩)
  rcases hd.2 with hlt | ⟨hs, hf⟩
  · -- a later second shows in the hour, the minute or the second
    refine field_lt (by omega) ?_
    rcases Nat.lt_or_ge (t.secs / 3600) (u.secs / 3600) with hhour | hhour
    · exact Or.inl hhour
    refine Or.inr ⟨by omega, cons_lt _ (field_lt (by omega) ?_)⟩
    rcases Nat.lt_or_ge (t.secs / 60 % 60) (u.secs / 60 % 60) with hminute | hminute
    · exact Or.inl hminute
    exact Or.inr ⟨by omega, cons_lt _ (field_lt (by omega) (Or.inl (by omega)))⟩
  · rw [hs]
    refine List.append_left_lt (cons_lt _ (List.append_left_lt (cons_lt _ ?_)))
    exact List.append_left_lt (fractionText_lt hf hu.frac_lt hc cs)

theorem toRfc3339_toList {t : DateTime} (ht : Reading t) :
    (toRfc3339 t).toList = fixedDigits 4 t.year.toNat ++
      (localText t.month t.day (t.secs / 3600) (t.secs / 60 % 60) (t.secs % 60) t.frac ++
        ['+', '0', '0', ':', '0', '0']) := by
  have hf : ¬ second ≤ t.frac := by
    have := ht.frac_lt
    omega
  rw [toRfc3339, writeRfc3339, String.toList_ofList, yearText,
    if_pos ⟨ht.year_nonneg, ht.year_le⟩, afterYear, if_neg hf, if_neg hf]

/-- An earlier reading has a smaller text. -/
theorem toList_lt_of_precedes {t u : DateTime} (ht : Reading t) (hu : Reading u)
    (h : Precedes t u) : (toRfc3339 t).toList < (toRfc3339 u).toList := by
  have hyt := ht.year_nonneg
  have hyu := hu.year_nonneg
  have hyu' := hu.year_le
  rw [toRfc3339_toList ht, toRfc3339_toList hu]
  refine field_lt (by omega) ?_
  rcases h with hy | ⟨hy, h⟩
  · exact Or.inl (by omega)
  · exact Or.inr ⟨by rw [hy], localText_lt hu (by decide) _ h⟩

theorem toList_lt_iff {t u : DateTime} (ht : Reading t) (hu : Reading u) :
    (toRfc3339 t).toList < (toRfc3339 u).toList ↔ nanos t < nanos u := by
  rw [← precedes_iff ht hu]
  refine ⟨fun h => ?_, toList_lt_of_precedes ht hu⟩
  rcases Precedes.total t u with hlt | rfl | hgt
  · exact hlt
  · exact absurd h (List.lt_irrefl _)
  · exact absurd h (List.lt_asymm (toList_lt_of_precedes hu ht hgt))

theorem toRfc3339_le_iff {t u : DateTime} (ht : Reading t) (hu : Reading u) :
    toRfc3339 t ≤ toRfc3339 u ↔ nanos t ≤ nanos u :=
  (not_congr (toList_lt_iff hu ht)).trans not_lt

/-- A cutoff may lie in the year before the year zero, and then nothing is as early. -/
theorem toRfc3339_le_cutoff {t u : DateTime} (ht : Reading t) (hu : Decoded u)
    (hf : u.frac < second) (hmin : -1 ≤ u.year) (hmax : u.year ≤ 9999) :
    toRfc3339 t ≤ toRfc3339 u ↔ nanos t ≤ nanos u := by
  rcases Int.lt_or_le u.year 0 with hneg | hnonneg
  · have hlt := nanos_lt_of_day hu hf (dayNumber_lt_of_year hu ht.decoded
      (lt_of_lt_of_le hneg ht.year_nonneg))
    have hyear : u.year = -1 := by omega
    have hsign : yearText u.year = '-' :: ['0', '0', '0', '1'] := by
      rw [hyear]
      decide
    have htext : (toRfc3339 u).toList < (toRfc3339 t).toList := by
      rw [toRfc3339_toList ht, toRfc3339, writeRfc3339, String.toList_ofList, hsign,
        List.cons_append]
      exact lt_fixedDigits (by omega) (by decide) _ _
    exact iff_of_false (not_not.mpr htext) (not_le.mpr hlt)
  · exact toRfc3339_le_iff ht ⟨hu, hnonneg, hmax, hf⟩

def Ascii (cs : List Char) : Prop := ∀ c ∈ cs, c.toNat < 128

theorem utf8EncodeChar_ascii {c : Char} (h : c.toNat < 128) :
    String.utf8EncodeChar c = [c.val.toUInt8] := by
  refine String.utf8EncodeChar_eq_singleton ?_
  have hle : c.val ≤ 0x7f := UInt32.le_iff_toNat_le.mpr (Nat.le_of_lt_succ h)
  exact if_pos hle

theorem ascii_lt {cs ds : List Char} (h : cs < ds) (hcs : Ascii cs) (hds : Ascii ds) :
    cs.flatMap String.utf8EncodeChar < ds.flatMap String.utf8EncodeChar := by
  induction cs generalizing ds with
  | nil =>
    cases ds with
    | nil => exact absurd h (List.lt_irrefl _)
    | cons d ds =>
      rw [List.flatMap_cons, utf8EncodeChar_ascii (hds d List.mem_cons_self)]
      exact List.nil_lt_cons _ _
  | cons c cs ih =>
    cases ds with
    | nil => exact absurd h (List.not_lt_nil _)
    | cons d ds =>
      have hc := hcs c List.mem_cons_self
      have hd := hds d List.mem_cons_self
      rw [List.flatMap_cons, List.flatMap_cons, utf8EncodeChar_ascii hc, utf8EncodeChar_ascii hd]
      refine List.cons_lt_cons_iff.mpr ((List.cons_lt_cons_iff.mp h).imp ?_ ?_)
      · intro hlt
        have hnat : c.toNat < d.toNat := hlt
        rw [UInt8.lt_iff_toNat_lt, UInt32.toNat_toUInt8, UInt32.toNat_toUInt8]
        change c.toNat % 2 ^ 8 < d.toNat % 2 ^ 8
        omega
      · rintro ⟨rfl, hlt⟩
        exact ⟨rfl, ih hlt (fun x hx => hcs x (List.mem_cons_of_mem _ hx))
          (fun x hx => hds x (List.mem_cons_of_mem _ hx))⟩

theorem Ascii.append {cs ds : List Char} (hcs : Ascii cs) (hds : Ascii ds) : Ascii (cs ++ ds) :=
  fun c hc => (List.mem_append.mp hc).elim (hcs c) (hds c)

theorem Ascii.cons {c : Char} {cs : List Char} (hc : c.toNat < 128) (hcs : Ascii cs) :
    Ascii (c :: cs) := by
  intro d hd
  rcases List.mem_cons.mp hd with rfl | hd
  · exact hc
  · exact hcs d hd

theorem ascii_fixedDigits (w n : Nat) : Ascii (fixedDigits w n) := by
  intro c hc
  have hdigit := isDigit_fixedDigits w n c hc
  simp only [Char.isDigit, Bool.and_eq_true, decide_eq_true_eq, ge_iff_le] at hdigit
  exact Nat.lt_of_le_of_lt (UInt32.le_iff_toNat_le.mp hdigit.2) (by decide)

theorem ascii_fractionText (n : Nat) : Ascii (fractionText n) := by
  unfold fractionText
  split_ifs
  · exact fun c hc => absurd hc List.not_mem_nil
  all_goals exact Ascii.cons (by decide) (ascii_fixedDigits _ _)

theorem ascii_toRfc3339 {t : DateTime} (ht : Reading t) : Ascii (toRfc3339 t).toList := by
  rw [toRfc3339_toList ht, localText]
  have hzone : Ascii ['+', '0', '0', ':', '0', '0'] := by simp [Ascii]
  have hd := ascii_fixedDigits
  refine (hd 4 _).append (Ascii.append ?_ hzone)
  exact .cons (by decide) ((hd 2 _).append (.cons (by decide) ((hd 2 _).append (.cons (by decide)
    ((hd 2 _).append (.cons (by decide) ((hd 2 _).append (.cons (by decide) ((hd 2 _).append
      (ascii_fractionText _))))))))))

/-- The texts of readings are in the order of the instants, byte by byte. -/
theorem utf8_lt_iff {t u : DateTime} (ht : Reading t) (hu : Reading u) :
    utf8 (toRfc3339 t) < utf8 (toRfc3339 u) ↔ nanos t < nanos u := by
  have hbytes : ∀ {t u}, Reading t → Reading u → nanos t < nanos u →
      utf8 (toRfc3339 t) < utf8 (toRfc3339 u) := fun {t u} ht hu h => by
    rw [← String.ofList_toList (s := toRfc3339 t), ← String.ofList_toList (s := toRfc3339 u),
      utf8_ofList, utf8_ofList]
    exact ascii_lt ((toList_lt_iff ht hu).mpr h) (ascii_toRfc3339 ht) (ascii_toRfc3339 hu)
  refine ⟨fun h => ?_, hbytes ht hu⟩
  rcases Precedes.total t u with hlt | rfl | hgt
  · exact (precedes_iff ht hu).mp hlt
  · exact absurd h (List.lt_irrefl _)
  · exact absurd h (List.lt_asymm (hbytes hu ht ((precedes_iff hu ht).mp hgt)))

end Rfc3339
