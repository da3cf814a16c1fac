import ClavenarLite.Ledger.Runs
import ClavenarLite.Lib.Duration
import ClavenarLite.Lib.Text

/-! The `--since` option of the command line: an instant in RFC 3339, or a number
of hours, days or minutes before now. -/

namespace ClavenarLite

open Rfc3339 Text

/-- The calls that panic outside their preconditions. -/
inductive SincePanic
  | splitAt
  | duration
  | subtraction
  deriving DecidableEq

inductive SinceError
  | notDuration (s : String)
  | unknownUnit (s : String)
  deriving DecidableEq

def SinceError.message (debug : String → String) : SinceError → String
  | .notDuration s => "not RFC 3339 and not a `<N>\x7bh,d,m\x7d` duration: " ++ debug s
  | .unknownUnit s => "unknown duration unit in " ++ debug s ++ " (use h, d, or m)"

def unitSeconds : String → Option Int
  | "h" => some 3600
  | "d" => some 86400
  | "m" => some 60
  | _ => none

/-- A product that overflows 64 bits is no span either. -/
def duration (seconds : Int) : Except SincePanic Int :=
  if SpanFits seconds then .ok seconds else .error .duration

def subtract (now : DateTime) (seconds : Int) : Except SincePanic DateTime :=
  if InRange (minusSpan now seconds) then .ok (minusSpan now seconds) else .error .subtraction

def parseSince (now : Clock) (s : String) : Except SincePanic (Except SinceError DateTime) :=
  let s := trim s
  match parseFromRfc3339 s with
  | some t => .ok (.ok t)
  | none =>
    match splitAt (byteLength s - 1) s with
    | none => .error .splitAt
    | some (num, unit) =>
      match parseI64 num with
      | none => .ok (.error (.notDuration s))
      | some n =>
        match unitSeconds unit with
        | none => .ok (.error (.unknownUnit s))
        | some perUnit => do
          let dur ← duration (n * perUnit)
          let t ← subtract now.val dur
          return .ok t

/-- A decimal integer and a unit, as a number of seconds. -/
def IsRelative (s : String) (seconds : Int) : Prop :=
  ∃ num unit n perUnit, s = num ++ unit ∧ IsDecimal num n ∧ unitSeconds unit = some perUnit ∧
    seconds = n * perUnit

def Representable (now : Clock) (seconds : Int) : Prop := InRange (minusSpan now.val seconds)

/-- The result is the given instant, or the instant the span before now, or an error. -/
structure SinceExact (now : Clock) (s : String) (r : Except SinceError DateTime) : Prop where
  instant : ∀ t, parseFromRfc3339 s = some t → r = .ok t
  relative : parseFromRfc3339 s = none → ∀ t, r = .ok t ↔
    ∃ seconds, IsRelative s seconds ∧ Representable now seconds ∧ t = minusSpan now.val seconds

/-- The text is an instant; or it ends in a one-byte character, if it has any, and
the span it gives with a 64-bit number does not leave the range of date-times. -/
def SinceSafe (now : Clock) (s : String) : Prop :=
  (parseFromRfc3339 s).isSome ∨
    (s = "" ∨ ∃ before, ∃ c : Char, c.utf8Size = 1 ∧ s = before ++ String.singleton c) ∧
      ∀ num unit n perUnit, s = num ++ unit → IsDecimal num n → -2 ^ 63 ≤ n → n < 2 ^ 63 →
        unitSeconds unit = some perUnit → Representable now (n * perUnit)

variable {now : Clock} {s : String}

theorem unitSeconds_some {unit : String} {perUnit : Int} (h : unitSeconds unit = some perUnit) :
    60 ≤ perUnit ∧ ∃ c : Char, c.utf8Size = 1 ∧ unit = String.singleton c := by
  unfold unitSeconds at h
  split at h
  · obtain rfl := Option.some.inj h
    exact ⟨by decide, 'h', by decide, rfl⟩
  · obtain rfl := Option.some.inj h
    exact ⟨by decide, 'd', by decide, rfl⟩
  · obtain rfl := Option.some.inj h
    exact ⟨by decide, 'm', by decide, rfl⟩
  · exact absurd h (by simp)

theorem Representable.spanFits {seconds : Int} (h : Representable now seconds) :
    SpanFits seconds := by
  have hmin := now.property.year_nonneg
  have hmax := now.property.year_le
  exact spanFits_of_inRange now.property.decoded.date ⟨by omega, by omega⟩
    now.property.decoded.secs h

/-- A number of units whose span fits is one of 64 bits. -/
theorem SpanFits.number {n perUnit : Int} (h : SpanFits (n * perUnit)) (hunit : 60 ≤ perUnit) :
    -2 ^ 63 ≤ n ∧ n < 2 ^ 63 := by
  unfold SpanFits at h
  rw [Int.natAbs_mul] at h
  have hpos : 1 ≤ perUnit.natAbs := by omega
  have hle : n.natAbs * 1 ≤ n.natAbs * perUnit.natAbs := Nat.mul_le_mul_left _ hpos
  omega

/-- The one split at a unit is the split before the last byte. -/
theorem splitAt_unit {num unit : String} {perUnit : Int} (hs : s = num ++ unit)
    (hunit : unitSeconds unit = some perUnit) :
    splitAt (byteLength s - 1) s = some (num, unit) := by
  obtain ⟨c, hc, hsingle⟩ := (unitSeconds_some hunit).2
  exact splitAt_last.mpr ⟨hs, Or.inr ⟨c, hc, hsingle⟩⟩

/-- With the text split, the two ways to say what it gives are one. -/
theorem isRelative_split {num unit : String} (h : splitAt (byteLength s - 1) s = some (num, unit))
    {seconds : Int} : IsRelative s seconds ↔ ∃ n perUnit, IsDecimal num n ∧
      unitSeconds unit = some perUnit ∧ seconds = n * perUnit := by
  constructor
  · rintro ⟨num', unit', n, perUnit, hs, hn, hunit, he⟩
    obtain ⟨rfl, rfl⟩ := Prod.mk.inj (Option.some.inj ((splitAt_unit hs hunit).symm.trans h))
    exact ⟨n, perUnit, hn, hunit, he⟩
  · rintro ⟨n, perUnit, hn, hunit, he⟩
    exact ⟨num, unit, n, perUnit, (splitAt_last.mp h).1, hn, hunit, he⟩

theorem sinceSafe_split {num unit : String} (hnone : parseFromRfc3339 s = none)
    (h : splitAt (byteLength s - 1) s = some (num, unit)) :
    SinceSafe now s ↔ ∀ n perUnit, parseI64 num = some n → unitSeconds unit = some perUnit →
      Representable now (n * perUnit) := by
  obtain ⟨hs, hlast⟩ := splitAt_last.mp h
  constructor
  · rintro (hsome | ⟨-, hall⟩) n perUnit hn hunit
    · rw [hnone] at hsome
      exact absurd hsome (by simp)
    · obtain ⟨hdecimal, hlow, hhigh⟩ := parseI64_iff.mp hn
      exact hall num unit n perUnit hs hdecimal hlow hhigh hunit
  · intro hall
    refine Or.inr ⟨?_, ?_⟩
    · rcases hlast with hempty | ⟨c, hc, rfl⟩
      · exact Or.inl hempty
      · exact Or.inr ⟨num, c, hc, hs⟩
    · intro num' unit' n perUnit hs' hn hlow hhigh hunit
      obtain ⟨rfl, rfl⟩ := Prod.mk.inj (Option.some.inj ((splitAt_unit hs' hunit).symm.trans h))
      exact hall n perUnit (parseI64_iff.mpr ⟨hn, hlow, hhigh⟩) hunit

/-- An error is exact where no span that can be represented is given. -/
theorem sinceExact_error {e : SinceError} (hnone : parseFromRfc3339 s = none)
    (h : ∀ seconds, IsRelative s seconds → ¬ Representable now seconds) :
    SinceExact now s (.error e) := by
  refine ⟨fun t ht => absurd (hnone.symm.trans ht) (by simp), fun _ t => ?_⟩
  refine iff_of_false (by simp) ?_
  rintro ⟨seconds, hrel, hrep, -⟩
  exact h seconds hrel hrep

instance (now : Clock) (seconds : Int) : Decidable (Representable now seconds) := by
  unfold Representable
  infer_instance

/-- The two partial operations succeed exactly on the spans that can be represented. -/
theorem duration_subtract (now : Clock) (seconds : Int) :
    (duration seconds >>= fun dur => subtract now.val dur >>= fun t =>
      Except.ok (Except.ok t : Except SinceError DateTime)) =
      if Representable now seconds then .ok (.ok (minusSpan now.val seconds))
      else .error (if SpanFits seconds then .subtraction else .duration) := by
  unfold duration subtract
  by_cases hfits : SpanFits seconds
  · by_cases hrep : Representable now seconds
    · have hrange : InRange (minusSpan now.val seconds) := hrep
      simp only [if_pos hfits, if_pos hrep, if_pos hrange, bind, Except.bind]
    · have hrange : ¬ InRange (minusSpan now.val seconds) := hrep
      simp only [if_pos hfits, if_neg hrep, if_neg hrange, bind, Except.bind]
  · have hrep : ¬ Representable now seconds := fun h => hfits h.spanFits
    simp only [if_neg hfits, if_neg hrep, bind, Except.bind]

theorem sinceExact_relative {num unit : String} {n perUnit : Int}
    (hnone : parseFromRfc3339 s = none)
    (h : splitAt (byteLength s - 1) s = some (num, unit)) (hn : parseI64 num = some n)
    (hunit : unitSeconds unit = some perUnit) (hrep : Representable now (n * perUnit)) :
    SinceExact now s (.ok (minusSpan now.val (n * perUnit))) := by
  have hdecimal := (parseI64_iff.mp hn).1
  refine ⟨fun t ht => absurd (hnone.symm.trans ht) (by simp), fun _ t => ?_⟩
  rw [Except.ok.injEq]
  constructor
  · rintro rfl
    exact ⟨_, (isRelative_split h).mpr ⟨n, perUnit, hdecimal, hunit, rfl⟩, hrep, rfl⟩
  · rintro ⟨seconds, hrel, -, rfl⟩
    obtain ⟨m, perUnit', hm, hperUnit, rfl⟩ := (isRelative_split h).mp hrel
    obtain rfl := Option.some.inj (hunit.symm.trans hperUnit)
    rw [hdecimal.unique hm]

theorem parseSince_split {num unit : String} (hnone : parseFromRfc3339 (trim s) = none)
    (h : splitAt (byteLength (trim s) - 1) (trim s) = some (num, unit)) :
    (∃ r, parseSince now s = .ok r ∧ SinceExact now (trim s) r) ↔
      ∀ n perUnit, parseI64 num = some n → unitSeconds unit = some perUnit →
        Representable now (n * perUnit) := by
  simp only [parseSince, hnone, h]
  cases hn : parseI64 num with
  | none =>
    refine iff_of_true ⟨_, rfl, sinceExact_error hnone ?_⟩ (by simp)
    intro seconds hrel hrep
    obtain ⟨n, perUnit, hdecimal, hunit, rfl⟩ := (isRelative_split h).mp hrel
    have hnumber := SpanFits.number hrep.spanFits (unitSeconds_some hunit).1
    exact absurd (parseI64_iff.mpr ⟨hdecimal, hnumber⟩) (by simp [hn])
  | some n =>
    cases hunit : unitSeconds unit with
    | none =>
      refine iff_of_true ⟨_, rfl, sinceExact_error hnone ?_⟩ (by simp)
      intro seconds hrel
      obtain ⟨m, perUnit, -, hperUnit, -⟩ := (isRelative_split h).mp hrel
      exact absurd (hunit.symm.trans hperUnit) (by simp)
    | some perUnit =>
      have hresult := duration_subtract now (n * perUnit)
      simp only [Option.some.injEq]
      constructor
      · rintro ⟨r, hr, -⟩ m perUnit' rfl rfl
        by_contra hrep
        rw [if_neg hrep] at hresult
        exact absurd (hresult.symm.trans hr) (by simp)
      · intro hall
        have hrep := hall n perUnit rfl rfl
        rw [if_pos hrep] at hresult
        exact ⟨_, hresult, sinceExact_relative hnone h hn hunit hrep⟩

/-- The option is read without a panic, and as what it means, exactly where it is
safe; and going back by a span is going back by its instant. -/
theorem parse_since_exact_iff (now : Clock) (s : String) :
    ((∃ r, parseSince now s = .ok r ∧ SinceExact now (trim s) r) ↔ SinceSafe now (trim s)) ∧
      ∀ seconds, nanos (minusSpan now.val seconds) = nanos now - seconds * second := by
  refine ⟨?_, nanos_minusSpan now.property.decoded.date⟩
  cases hparse : parseFromRfc3339 (trim s) with
  | some t =>
    refine iff_of_true ⟨.ok t, ?_, ?_⟩ (Or.inl (by simp [hparse]))
    · simp only [parseSince, hparse]
    · refine ⟨fun u hu => ?_, fun hnone => absurd (hnone.symm.trans hparse) (by simp)⟩
      rw [← Option.some.inj (hparse.symm.trans hu)]
  | none =>
    cases hsplit : splitAt (byteLength (trim s) - 1) (trim s) with
    | some parts =>
      rw [sinceSafe_split hparse hsplit]
      exact parseSince_split hparse hsplit
    | none =>
      refine iff_of_false ?_ ?_
      · rintro ⟨r, hr, -⟩
        simp only [parseSince, hparse, hsplit] at hr
        exact absurd hr (by simp)
      · rintro (hsome | ⟨hempty | ⟨before, c, hc, hs⟩, -⟩)
        · rw [hparse] at hsome
          exact absurd hsome (by simp)
        · have hwhole := splitAt_last.mpr ⟨(String.append_empty (s := trim s)).symm, Or.inl hempty⟩
          exact absurd (hsplit.symm.trans hwhole) (by simp)
        · have hlast := splitAt_last.mpr ⟨hs, Or.inr ⟨c, hc, rfl⟩⟩
          exact absurd (hsplit.symm.trans hlast) (by simp)

/-- A unit of more than one byte, and a span of more than 64 bits of milliseconds. -/
theorem parse_since_panics : parseSince noon "7時" = .error .splitAt ∧
    parseSince noon "9223372036854775807h" = .error .duration := by
  decide +kernel

end ClavenarLite
