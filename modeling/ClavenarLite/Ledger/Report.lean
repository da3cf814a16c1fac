import ClavenarLite.Ledger.Listings
import ClavenarLite.Ledger.Tamper

/-! The graduation report: the counts of a window of the ledger, and whether
they recommend to enforce. -/

namespace ClavenarLite

open Bytes Rfc3339 TextJson

def reportSchemaVersion : String := "1"

structure IntentCount where
  intentCategory : String
  count : Nat

structure AgentCount where
  agentId : String
  count : Nat

structure GraduationReport where
  schemaVersion : String
  generatedAt : DateTime
  windowStart : Option DateTime
  windowEnd : Option DateTime
  ledgerEntriesChecked : Nat
  ledgerChainValid : Bool
  totalRequests : Nat
  wouldDeny : Nat
  wouldPend : Nat
  allowed : Nat
  byIntentCategory : List IntentCount
  topAgents : List AgentCount
  recommendEnforce : Bool
  recommendation : String

def recommendation (stats : GraduationStats) (chainValid : Bool) : Bool × String :=
  if !chainValid then
    (false, "DO NOT ENFORCE — the observe-mode ledger failed its integrity check; " ++
      "investigate before trusting these counts.")
  else if stats.total = 0 then
    (false, "NO DATA — no traffic observed yet; run representative traffic before graduating.")
  else if stats.wouldDeny = 0 ∧ stats.wouldPend = 0 then
    (true, "SAFE TO ENFORCE — " ++ toString stats.total ++
      " request(s) observed, none would be blocked or parked.")
  else
    (false, "REVIEW FIRST — enforce would block " ++ toString stats.wouldDeny ++ " and park " ++
      toString stats.wouldPend ++ " of " ++ toString stats.total ++ " observed request(s).")

def GraduationReport.fromStats (stats : GraduationStats) (ledgerChainValid : Bool)
    (generatedAt : DateTime) : GraduationReport where
  schemaVersion := reportSchemaVersion
  generatedAt := generatedAt
  windowStart := stats.windowStart
  windowEnd := stats.windowEnd
  ledgerEntriesChecked := stats.total
  ledgerChainValid := ledgerChainValid
  totalRequests := stats.total
  wouldDeny := stats.wouldDeny
  wouldPend := stats.wouldPend
  allowed := stats.allowed
  byIntentCategory := stats.byIntent.map fun entry => ⟨entry.1, entry.2⟩
  topAgents := stats.topAgents.map fun entry => ⟨entry.1, entry.2⟩
  recommendEnforce := (ClavenarLite.recommendation stats ledgerChainValid).1
  recommendation := (ClavenarLite.recommendation stats ledgerChainValid).2

theorem recommendEnforce_iff {stats : GraduationStats} {chainValid : Bool} {now : DateTime} :
    (GraduationReport.fromStats stats chainValid now).recommendEnforce = true ↔
      chainValid = true ∧ stats.total ≠ 0 ∧ stats.wouldDeny = 0 ∧ stats.wouldPend = 0 := by
  simp only [GraduationReport.fromStats, ClavenarLite.recommendation]
  cases chainValid with
  | false => simp
  | true =>
    by_cases ht : stats.total = 0
    · simp [ht]
    · by_cases hd : stats.wouldDeny = 0 ∧ stats.wouldPend = 0
      · simp [ht, hd]
      · simp [ht, hd]

/-- The comparison that selects a row, of the texts of the two times. -/
def InWindow (since : Option DateTime) (timestamp : String) : Prop :=
  ∀ s ∈ since, toRfc3339 s ≤ timestamp

instance (since : Option DateTime) (timestamp : String) : Decidable (InWindow since timestamp) := by
  unfold InWindow
  cases since with
  | none => exact isTrue (by simp)
  | some s => exact decidable_of_iff (toRfc3339 s ≤ timestamp) (by simp)

theorem foldl_counts {α β : Type} {step : β → α → β} {field : β → Nat} {p : α → Bool}
    (h : ∀ acc a, field (step acc a) = field acc + if p a then 1 else 0) (acc : β) (l : List α) :
    field (l.foldl step acc) = field acc + l.countP p := by
  induction l generalizing acc with
  | nil => rfl
  | cons a l ih =>
    rw [List.foldl_cons, ih, h, List.countP_cons]
    omega

theorem countP_selectSince (since : Option DateTime) (rows : List EntryRow) (p : EntryRow → Bool) :
    (selectSince (since.map toRfc3339) rows).countP p =
      rows.countP fun r => decide (InWindow since r.timestamp) && p r := by
  rw [selectSince, (List.perm_insertionSort _ _).countP_eq, List.countP_filter]
  refine List.countP_congr fun r _ => ?_
  cases since with
  | none => simp [InWindow]
  | some s => simp [InWindow, and_comm]

section Counts

variable (since : Option DateTime) (db : Db)

/-- The rows of the window of a kind. -/
def rowsInWindow (p : EntryRow → Bool) : Nat :=
  db.entries.countP fun r => decide (InWindow since r.timestamp) && p r

theorem graduationStats_field (field : Tally → Nat) {p : EntryRow → Bool}
    (hzero : field {} = 0)
    (h : ∀ tally row, field (tally.count row) = field tally + if p row then 1 else 0) :
    field ((selectSince (since.map toRfc3339) db.entries).foldl Tally.count {}) =
      rowsInWindow since db p := by
  rw [foldl_counts h, hzero, Nat.zero_add, countP_selectSince, rowsInWindow]

theorem graduationStats_total :
    (graduationStats since db).total = rowsInWindow since db fun _ => true :=
  graduationStats_field since db Tally.total rfl fun _ _ => rfl

theorem graduationStats_allowed :
    (graduationStats since db).allowed = rowsInWindow since db fun r => r.authorized != 0 := by
  refine graduationStats_field since db Tally.allowed rfl fun tally row => ?_
  simp only [Tally.count]
  split_ifs <;> simp_all

theorem graduationStats_wouldDeny : (graduationStats since db).wouldDeny =
    rowsInWindow since db fun r => wouldDenyIntents.contains r.intentCategory := by
  refine graduationStats_field since db Tally.wouldDeny rfl fun tally row => ?_
  simp only [Tally.count]
  split_ifs <;> rfl

theorem graduationStats_wouldPend : (graduationStats since db).wouldPend =
    rowsInWindow since db fun r => r.intentCategory == "PendingReview" := by
  refine graduationStats_field since db Tally.wouldPend rfl fun tally row => ?_
  simp only [Tally.count]
  by_cases hp : row.intentCategory = "PendingReview"
  · have hno : "PendingReview" ∉ wouldDenyIntents := by decide
    simp [hp, hno]
  · simp [hp]

end Counts

/-- A chain that verifies has been walked to its end. -/
theorem verify_valid {F : FloatText} {table : List EntryCells} {result : VerifyResult}
    (h : verify F table = .ok result) (hv : result.valid = true) :
    result.entriesChecked = table.length := by
  rw [(verifyFrom_valid h hv).1, bySeq, List.length_insertionSort, Nat.zero_add]

end ClavenarLite
