import ClavenarLite.Lib.TimeOrder

/-! Spans of whole seconds, and what it takes to go back by one: the span has to
fit a 64-bit count of milliseconds, and the result the years of a date-time. -/

namespace Rfc3339

def SpanFits (seconds : Int) : Prop := seconds.natAbs * 1000 ≤ 2 ^ 63 - 1

instance (seconds : Int) : Decidable (SpanFits seconds) := by
  unfold SpanFits
  infer_instance

def InRange (t : DateTime) : Prop := -262143 ≤ t.year ∧ t.year ≤ 262142

instance (t : DateTime) : Decidable (InRange t) := by
  unfold InRange
  infer_instance

def shiftDays : Int → DateTime → DateTime
  | .ofNat n, t => nextDay^[n] t
  | .negSucc n, t => prevDay^[n + 1] t

/-- The time `s` seconds earlier, however many. -/
def minusSpan (t : DateTime) (s : Int) : DateTime :=
  let shifted := (t.secs : Int) - s
  { shiftDays (shifted / 86400) t with secs := (shifted % 86400).toNat }

variable {t : DateTime}

theorem prevDay_secs (t : DateTime) : (prevDay t).secs = t.secs ∧ (prevDay t).frac = t.frac := by
  unfold prevDay
  split_ifs <;> exact ⟨rfl, rfl⟩

theorem nextDay_secs (t : DateTime) : (nextDay t).secs = t.secs ∧ (nextDay t).frac = t.frac := by
  unfold nextDay
  split_ifs <;> exact ⟨rfl, rfl⟩

theorem dayNumber_nextDay (h : ValidDate t.year t.month t.day) :
    dayNumber (nextDay t) = dayNumber t + 1 := by
  obtain ⟨hm1, hm2, hd1, hd2⟩ := h
  unfold nextDay
  split_ifs with hday hmonth
  · simp only [dayNumber]
    omega
  · have hmonths := daysBeforeMonth_succ (y := t.year) hm1
    simp only [dayNumber]
    omega
  · have hlast : t.month = 12 := by omega
    have hyears := daysBeforeYear_succ t.year
    have hdecember := daysBeforeMonth_december t.year
    have hzero : daysBeforeMonth (t.year + 1) 1 = 0 := rfl
    have hdays : daysInMonth t.year 12 = 31 := rfl
    rw [hlast] at hday hd2
    simp only [dayNumber, hlast, hzero]
    split_ifs at hyears hdecember <;> omega

/-- What a shift by days does: the date stays one, and its number moves along. -/
structure Shifted (t u : DateTime) (days : Int) : Prop where
  date : ValidDate u.year u.month u.day
  number : dayNumber u = dayNumber t + days
  frac : u.frac = t.frac

theorem nextDays_shifted (h : ValidDate t.year t.month t.day) (n : Nat) :
    Shifted t (nextDay^[n] t) n := by
  induction n with
  | zero => exact ⟨h, by simp, rfl⟩
  | succ n ih =>
    rw [Function.iterate_succ_apply']
    refine ⟨nextDay_validDate ih.date, ?_, (nextDay_secs _).2.trans ih.frac⟩
    rw [dayNumber_nextDay ih.date, ih.number]
    push_cast
    ring

theorem prevDays_shifted (h : ValidDate t.year t.month t.day) (n : Nat) :
    Shifted t (prevDay^[n] t) (-n) := by
  induction n with
  | zero => exact ⟨h, by simp, rfl⟩
  | succ n ih =>
    rw [Function.iterate_succ_apply']
    refine ⟨prevDay_validDate ih.date, ?_, (prevDay_secs _).2.trans ih.frac⟩
    rw [dayNumber_prevDay ih.date, ih.number]
    push_cast
    ring

theorem shiftDays_shifted (h : ValidDate t.year t.month t.day) (days : Int) :
    Shifted t (shiftDays days t) days := by
  cases days with
  | ofNat n => exact nextDays_shifted h n
  | negSucc n =>
    have hs := prevDays_shifted h (n + 1)
    rwa [show -((n + 1 : Nat) : Int) = Int.negSucc n from rfl] at hs

/-- Going back by a span shifts the instant by it. -/
theorem nanos_minusSpan (h : ValidDate t.year t.month t.day) (s : Int) :
    nanos (minusSpan t s) = nanos t - s * second := by
  have hs := shiftDays_shifted h (((t.secs : Int) - s) / 86400)
  have hnumber : dayNumber (minusSpan t s) = dayNumber t + ((t.secs : Int) - s) / 86400 := hs.number
  have hfrac : (minusSpan t s).frac = t.frac := hs.frac
  have hsecs : ((minusSpan t s).secs : Int) = ((t.secs : Int) - s) % 86400 :=
    Int.toNat_of_nonneg (Int.emod_nonneg _ (by decide))
  have hdivide := Int.mul_ediv_add_emod ((t.secs : Int) - s) 86400
  rw [nanos, nanos, hnumber, hfrac, hsecs]
  unfold second
  push_cast
  omega

/-- The years of a date-time span fewer days than a span can. -/
theorem dayNumber_bounds (hd : ValidDate t.year t.month t.day) (h : InRange t) :
    -100000000 ≤ dayNumber t ∧ dayNumber t ≤ 100000000 := by
  obtain ⟨hmin, hmax⟩ := h
  have hday := dayOfYear_le hd
  unfold dayNumber daysBeforeYear
  split_ifs at hday <;> omega

theorem spanFits_of_inRange {s : Int} (hd : ValidDate t.year t.month t.day) (ht : InRange t)
    (hsecs : t.secs < 86400) (h : InRange (minusSpan t s)) : SpanFits s := by
  have hs := shiftDays_shifted hd (((t.secs : Int) - s) / 86400)
  have hnumber : dayNumber (minusSpan t s) = dayNumber t + ((t.secs : Int) - s) / 86400 := hs.number
  have hold := dayNumber_bounds hd ht
  have hnew := dayNumber_bounds (t := minusSpan t s) hs.date h
  unfold SpanFits
  omega

end Rfc3339
