import ClavenarLite.Cli.Restore
import ClavenarLite.Ledger.Tamper

/-! The runs of a restore, and when one is all or nothing. -/

namespace ClavenarLite

open Bytes Files TextJson

section Runs

variable {F : FloatText} {machine : Machine} {input : Octets} {ledgerPath : String} {force : Bool}
  {disk checked staged : HostFiles}

theorem checkSnapshot_valid {inputStr : String} {rows : List EntryCells} {v : VerifyResult}
    (hopen : machine.sqlite.openLedger inputStr disk = (.ok (.ok rows), checked))
    (hverify : verify F rows = .ok v) (hvalid : v.valid = true) :
    checkSnapshot F machine inputStr disk = (.ok (), machine.sqlite.close inputStr checked) := by
  simp only [checkSnapshot, hopen, Except.bind, hverify, hvalid, if_true]

theorem checkedDisk_of_found {inputStr : String} (h : pathExists machine.faults input disk = true)
    (hs : fromUtf8 input = some inputStr) :
    checkedDisk F machine input disk = (checkSnapshot F machine inputStr disk).2 := by
  rw [checkedDisk, if_pos h, hs]
  rfl

theorem Staged.checked_eq (h : Staged F machine input ledgerPath force disk checked staged) :
    checked = checkedDisk F machine input disk := by
  obtain ⟨inputStr, hs, hcheck, -⟩ := h.copied
  rw [checkedDisk_of_found h.found hs, hcheck]

theorem Staged.staged_eq (h : Staged F machine input ledgerPath force disk checked staged) :
    (pathExists machine.faults (utf8 ledgerPath) checked && !force) = false ∧
      ∃ content, checked input = some content ∧
        staged = Function.update checked (utf8 (restoreTmp ledgerPath))
          (some (if input = utf8 (restoreTmp ledgerPath) then [] else content)) := by
  obtain ⟨inputStr, hs, -, hcopy⟩ := h.copied
  rw [eq_utf8 hs]
  exact copySnapshot_ok hcopy

theorem Staged.runs (h : Staged F machine input ledgerPath force disk checked staged) :
    runRestore F machine input ledgerPath force disk = install F machine ledgerPath staged := by
  obtain ⟨inputStr, hs, hcheck, hcopy⟩ := h.copied
  simp [runRestore, h.found, hs, hcheck, hcopy]

/-- A run ends before the rename, at a rename that fails, or after it. -/
theorem runRestore_cases (F : FloatText) (machine : Machine) (input : Octets) (ledgerPath : String)
    (force : Bool) (disk : HostFiles) :
    (∃ exit disk', runRestore F machine input ledgerPath force disk = (exit, disk') ∧
      Early exit ∧ TargetKept ledgerPath (checkedDisk F machine input disk) disk' ∧
      ∀ checked staged, ¬ Staged F machine input ledgerPath force disk checked staged) ∨
    ∃ checked staged, Staged F machine input ledgerPath force disk checked staged ∧
      runRestore F machine input ledgerPath force disk = install F machine ledgerPath staged := by
  by_cases hfound : pathExists machine.faults input disk = true
  · cases hs : fromUtf8 input with
    | none =>
      refine Or.inl ⟨.inputNotUtf8, disk, ?_, ⟨by decide, rfl⟩, ?_, ?_⟩
      · simp [runRestore, hfound, hs]
      · rw [checkedDisk, if_pos hfound, hs]
        exact fun _ _ => rfl
      · rintro checked staged ⟨-, inputStr, hs', -⟩
        exact absurd (hs.symm.trans hs') (by simp)
    | some inputStr =>
      have hstaged : ∀ {checked staged},
          Staged F machine input ledgerPath force disk checked staged →
            checkSnapshot F machine inputStr disk = (.ok (), checked) ∧
              copySnapshot machine inputStr ledgerPath force checked = (.ok (), staged) := by
        rintro checked staged ⟨-, inputStr', hs', hparts⟩
        rw [← Option.some.inj (hs.symm.trans hs')] at hparts
        exact hparts
      have hchecked := checkedDisk_of_found (F := F) hfound hs
      generalize hcheck : checkSnapshot F machine inputStr disk = result at hchecked
      obtain ⟨answer, checked⟩ := result
      cases answer with
      | error exit =>
        refine Or.inl ⟨exit, checked, by simp [runRestore, hfound, hs, hcheck],
          checkSnapshot_error hcheck, ?_, ?_⟩
        · rw [hchecked]
          exact fun _ _ => rfl
        · intro _ _ h
          exact absurd (hcheck.symm.trans (hstaged h).1) (by simp)
      | ok u =>
        cases u
        generalize hcopy : copySnapshot machine inputStr ledgerPath force checked = result
        obtain ⟨answer, staged⟩ := result
        cases answer with
        | error exit =>
          refine Or.inl ⟨exit, staged, by simp [runRestore, hfound, hs, hcheck, hcopy],
            copySnapshot_error hcopy, ?_, ?_⟩
          · intro p hp
            have hne : p ≠ utf8 (restoreTmp ledgerPath) := fun he =>
              restoreTmp_not_mem ledgerPath (he ▸ hp)
            have hother : (copySnapshot machine inputStr ledgerPath force checked).2 p =
                checked p := copySnapshot_other hne
            rw [hcopy] at hother
            rw [hchecked]
            exact hother
          · intro checked' staged' h
            obtain ⟨h₁, h₂⟩ := hstaged h
            rw [← (Prod.mk.inj (hcheck.symm.trans h₁)).2, hcopy] at h₂
            exact absurd h₂ (by simp)
        | ok u =>
          cases u
          have hstage : Staged F machine input ledgerPath force disk checked staged :=
            ⟨hfound, inputStr, hs, hcheck, hcopy⟩
          exact Or.inr ⟨checked, staged, hstage, hstage.runs⟩
  · refine Or.inl ⟨.inputMissing, disk, ?_, ⟨by decide, rfl⟩, ?_, ?_⟩
    · simp [runRestore, hfound]
    · rw [checkedDisk, if_neg hfound]
      exact fun _ _ => rfl
    · exact fun _ _ hstaged => hfound hstaged.found

theorem target_not_journal (ledgerPath : String) : utf8 ledgerPath ∉ journals ledgerPath := by
  have hlonger : ∀ suffix : String, 0 < suffix.length → utf8 ledgerPath ≠ utf8 (ledgerPath ++ suffix) := by
    intro suffix hsuffix h
    have hlength := congrArg String.length (utf8_injective h)
    rw [String.length_append] at hlength
    omega
  simp only [journals, List.mem_cons, List.not_mem_nil, or_false, not_or]
  exact ⟨hlonger _ (by decide), hlonger _ (by decide)⟩

/-- Copying changes neither the target nor its journals. -/
theorem Staged.target (h : Staged F machine input ledgerPath force disk checked staged) {p : Octets}
    (hp : p ∈ utf8 ledgerPath :: journals ledgerPath) :
    staged p = checkedDisk F machine input disk p := by
  obtain ⟨-, content, -, hstaged⟩ := h.staged_eq
  have hne : p ≠ utf8 (restoreTmp ledgerPath) := fun he => restoreTmp_not_mem ledgerPath (he ▸ hp)
  rw [hstaged, Function.update_of_ne hne, h.checked_eq]

theorem Staged.dropped (h : Staged F machine input ledgerPath force disk checked staged) {p : Octets}
    (hp : p ∈ journals ledgerPath) : dropJournals machine ledgerPath staged p =
      if (machine.faults.fails (.removeFile p)).isSome then checkedDisk F machine input disk p
      else none := by
  rw [dropJournals_journal hp, h.target (List.mem_cons_of_mem _ hp)]

/-- The copy is of the snapshot, unless it is the snapshot itself. -/
theorem Staged.copy (h : Staged F machine input ledgerPath force disk checked staged) :
    ∃ content, checked input = some content ∧ staged (utf8 (restoreTmp ledgerPath)) =
      some (if input = utf8 (restoreTmp ledgerPath) then [] else content) := by
  obtain ⟨-, content, hcontent, hstaged⟩ := h.staged_eq
  exact ⟨content, hcontent, by rw [hstaged, Function.update_self]⟩

/-- Checking a snapshot at another path neither makes nor removes a journal of the target. -/
theorem Staged.journal_none (h : Staged F machine input ledgerPath force disk checked staged)
    (hne : input ≠ utf8 ledgerPath) {p : Octets} (hp : p ∈ journals ledgerPath) :
    checkedDisk F machine input disk p = none ↔ disk p = none := by
  obtain ⟨inputStr, hs, -, -⟩ := h.copied
  obtain ⟨-, content, hcontent, -⟩ := h.staged_eq
  by_cases hd : p ∈ databaseFiles inputStr
  · have hpath : inputStr ≠ ledgerPath := fun he => hne (he ▸ eq_utf8 hs)
    have hinput : p = input := (journal_of_other hpath hp hd).trans (eq_utf8 hs).symm
    rw [hinput, ← h.checked_eq, hcontent]
    exact iff_of_false (by simp) (pathExists_some h.found)
  · rw [checkedDisk_of_found h.found hs, checkSnapshot_other hd]

/-- A run whose rename fails. -/
theorem Staged.failed (h : Staged F machine input ledgerPath force disk checked staged)
    (hf : RenameFails machine ledgerPath) {exit : RestoreExit} {disk' : HostFiles}
    (hrun : install F machine ledgerPath staged = (exit, disk')) :
    Early exit ∧ disk' (utf8 ledgerPath) = checkedDisk F machine input disk (utf8 ledgerPath) ∧
      ∀ p ∈ journals ledgerPath, disk' p =
        if (machine.faults.fails (.removeFile p)).isSome then checkedDisk F machine input disk p
        else none := by
  obtain ⟨content, -, hcopy⟩ := h.copy
  obtain ⟨e, disk'', hreplace, hsame⟩ := replaceTarget_failed hcopy hf
  rw [install, hreplace] at hrun
  obtain ⟨rfl, rfl⟩ := Prod.mk.inj hrun
  refine ⟨⟨by simp [RestoreExit.code], rfl⟩, ?_, fun p hp => ?_⟩
  · rw [hsame _ List.mem_cons_self, dropJournals_other (target_not_journal ledgerPath),
      h.target List.mem_cons_self]
  · rw [hsame p (List.mem_cons_of_mem _ hp), h.dropped hp]

/-- A rename that completes. -/
theorem Staged.renamed (h : Staged F machine input ledgerPath force disk checked staged)
    {renamed : HostFiles} (hreplace : replaceTarget machine ledgerPath staged = (.ok (), renamed)) :
    ¬ RenameFails machine ledgerPath ∧ (∃ content, checked input = some content ∧
      renamed (utf8 ledgerPath) =
        some (if input = utf8 (restoreTmp ledgerPath) then [] else content)) ∧
      ∀ p ∈ journals ledgerPath, renamed p =
        if (machine.faults.fails (.removeFile p)).isSome then checkedDisk F machine input disk p
        else none := by
  obtain ⟨content, hcontent, hcopy⟩ := h.copy
  obtain ⟨hf, hrenamed⟩ := (replaceTarget_iff hcopy).mp hreplace
  refine ⟨hf, ⟨content, hcontent, by rw [hrenamed, Function.update_self]⟩, fun p hp => ?_⟩
  have htarget : p ≠ utf8 ledgerPath := fun he => target_not_journal ledgerPath (he ▸ hp)
  have htmp : p ≠ utf8 (restoreTmp ledgerPath) := fun he =>
    restoreTmp_not_mem ledgerPath (he ▸ List.mem_cons_of_mem _ hp)
  rw [hrenamed, Function.update_of_ne htarget, Function.update_of_ne htmp, h.dropped hp]

theorem Staged.completes (h : Staged F machine input ledgerPath force disk checked staged)
    (hf : ¬ RenameFails machine ledgerPath) :
    ∃ renamed, replaceTarget machine ledgerPath staged = (.ok (), renamed) := by
  obtain ⟨content, -, hcopy⟩ := h.copy
  exact ⟨_, (replaceTarget_iff hcopy).mpr ⟨hf, rfl⟩⟩

theorem reverify_renamed (F : FloatText) (machine : Machine) (ledgerPath : String)
    (disk : HostFiles) : (reverify F machine ledgerPath disk).1.renamed = true := by
  unfold reverify
  split
  · rfl
  · dsimp only
    split
    · split_ifs <;> rfl
    · rfl

theorem TargetKept.trans {disk' disk'' : HostFiles} (h : TargetKept ledgerPath disk disk')
    (h' : TargetKept ledgerPath disk' disk'') : TargetKept ledgerPath disk disk'' :=
  fun p hp => (h' p hp).trans (h p hp)

theorem TargetKept.symm {disk' : HostFiles} (h : TargetKept ledgerPath disk disk') :
    TargetKept ledgerPath disk' disk := fun p hp => (h p hp).symm

end Runs

section Safety

variable {F : FloatText} {machine : Machine} {input : Octets} {ledgerPath : String} {force : Bool}
  {disk : HostFiles}

theorem install_replaced {checked staged : HostFiles}
    (h : Staged F machine input ledgerPath force disk checked staged)
    (hf : ¬ RenameFails machine ledgerPath) :
    (install F machine ledgerPath staged).1.renamed = true := by
  obtain ⟨renamed, hreplace⟩ := h.completes hf
  rw [install, hreplace]
  exact reverify_renamed F machine ledgerPath renamed

/-- Of a run that does not replace the target. -/
theorem kept_of_safe (hsafe : RestoresSafely F machine input ledgerPath force disk)
    {exit : RestoreExit} {disk' : HostFiles}
    (hrun : runRestore F machine input ledgerPath force disk = (exit, disk'))
    (hnot : ¬ Replaces F machine input ledgerPath force disk) :
    exit.renamed = false ∧ TargetKept ledgerPath disk disk' := by
  have halone : TargetKept ledgerPath disk (checkedDisk F machine input disk) :=
    hsafe.alone.resolve_right fun h => hnot h.1
  rcases runRestore_cases F machine input ledgerPath force disk with
    ⟨exit', disk'', hrun', hearly, hkept, -⟩ | ⟨checked, staged, hstaged, hrun'⟩
  · obtain ⟨rfl, rfl⟩ := Prod.mk.inj (hrun.symm.trans hrun')
    exact ⟨hearly.2, halone.trans hkept⟩
  · have hf : RenameFails machine ledgerPath := by
      by_contra hf
      exact hnot ⟨⟨checked, staged, hstaged⟩, hf⟩
    obtain ⟨hearly, htarget, hjournals⟩ := hstaged.failed hf (hrun'.symm.trans hrun)
    refine ⟨hearly.2, fun p hp => ?_⟩
    rcases List.mem_cons.mp hp with rfl | hp
    · exact htarget.trans (halone _ List.mem_cons_self)
    · rw [hjournals p hp]
      split_ifs with hfails
      · exact halone p (List.mem_cons_of_mem _ hp)
      · rcases hsafe.journalKept ⟨checked, staged, hstaged⟩ hf p hp with hnone | hsome
        · exact hnone.symm
        · exact absurd (Option.isSome_iff_ne_none.mpr hsome) hfails

/-- A run that replaces the target says so. -/
theorem not_replaces {exit : RestoreExit} {disk' : HostFiles}
    (hrun : runRestore F machine input ledgerPath force disk = (exit, disk'))
    (hexit : exit.renamed = false) : ¬ Replaces F machine input ledgerPath force disk := by
  rintro ⟨⟨checked, staged, hstaged⟩, hf⟩
  rcases runRestore_cases F machine input ledgerPath force disk with
    ⟨_, _, _, _, _, hnone⟩ | ⟨checked', staged', hstaged', hrun'⟩
  · exact hnone checked staged hstaged
  · have hrenamed := install_replaced hstaged' hf
    rw [← hrun', hrun, hexit] at hrenamed
    exact absurd hrenamed (by simp)

/-- Without `--force` a run that is safe does not replace an existing target. -/
theorem not_replaces_unforced (hexists : disk (utf8 ledgerPath) ≠ none)
    (hsafe : RestoresSafely F machine input ledgerPath force disk) (hforce : force = false) :
    ¬ Replaces F machine input ledgerPath force disk := by
  intro hreplaces
  have hunforced : force ≠ true := by simp [hforce]
  have hseen := (hsafe.seen hreplaces).resolve_left hunforced
  have halone := hsafe.alone.resolve_right fun h => hunforced h.2
  obtain ⟨⟨checked, staged, hstaged⟩, -⟩ := hreplaces
  obtain ⟨hpass, -⟩ := hstaged.staged_eq
  have htarget : (checked (utf8 ledgerPath)).isSome = true := by
    rw [hstaged.checked_eq, halone _ List.mem_cons_self]
    exact Option.isSome_iff_ne_none.mpr hexists
  simp [pathExists, hseen, htarget, hforce] at hpass

theorem replaced_of_safe (hne : input ≠ utf8 ledgerPath)
    (hsafe : RestoresSafely F machine input ledgerPath force disk) {checked staged renamed : HostFiles}
    (hstaged : Staged F machine input ledgerPath force disk checked staged)
    (hreplace : replaceTarget machine ledgerPath staged = (.ok (), renamed)) :
    renamed (utf8 ledgerPath) = checked input ∧ ∀ p ∈ journals ledgerPath, renamed p = none := by
  obtain ⟨hf, ⟨content, hcontent, htarget⟩, hjournals⟩ := hstaged.renamed hreplace
  have hreplaces : Replaces F machine input ledgerPath force disk :=
    ⟨⟨checked, staged, hstaged⟩, hf⟩
  refine ⟨?_, fun p hp => ?_⟩
  · rw [htarget, hcontent]
    split_ifs with htmp
    · have hempty := (hsafe.apart hreplaces).resolve_left fun h => h htmp
      rw [← hstaged.checked_eq, hcontent] at hempty
      rw [hempty]
    · rfl
  · rw [hjournals p hp]
    split_ifs with hfails
    · have hnone := (hsafe.journalGone hreplaces p hp).resolve_right fun h => by simp [h] at hfails
      exact (hstaged.journal_none hne hp).mpr hnone
    · rfl

theorem safe_of_all_or_nothing (hne : input ≠ utf8 ledgerPath)
    (h : AllOrNothing F machine input ledgerPath force disk) :
    RestoresSafely F machine input ledgerPath force disk := by
  generalize hrun : runRestore F machine input ledgerPath force disk = result
  obtain ⟨exit, disk'⟩ := result
  have hforced : Replaces F machine input ledgerPath force disk → force = true := by
    intro hreplaces
    by_contra hforce
    exact not_replaces hrun (h.refused (Bool.not_eq_true _ ▸ hforce) exit disk' hrun).1 hreplaces
  -- A failed rename leaves the target and its journals as they were.
  have hfailed : ∀ {checked staged}, Staged F machine input ledgerPath force disk checked staged →
      RenameFails machine ledgerPath →
        checkedDisk F machine input disk (utf8 ledgerPath) = disk (utf8 ledgerPath) ∧
          ∀ p ∈ journals ledgerPath, (if (machine.faults.fails (.removeFile p)).isSome then
            checkedDisk F machine input disk p else none) = disk p := by
    intro checked staged hstaged hf
    rcases runRestore_cases F machine input ledgerPath force disk with
      ⟨_, _, _, _, _, hnone⟩ | ⟨checked', staged', hstaged', hrun'⟩
    · exact absurd hstaged (hnone checked staged)
    · obtain ⟨hearly, htarget, hjournals⟩ := hstaged'.failed hf (hrun'.symm.trans hrun)
      have hkept := h.kept exit disk' hrun hearly.1 hearly.2
      refine ⟨htarget.symm.trans (hkept _ List.mem_cons_self), fun p hp => ?_⟩
      exact (hjournals p hp).symm.trans (hkept p (List.mem_cons_of_mem _ hp))
  refine ⟨?_, fun hreplaces => Or.inl (hforced hreplaces), ?_, ?_, ?_⟩
  · rcases runRestore_cases F machine input ledgerPath force disk with
      ⟨exit', disk'', hrun', hearly, hkept, -⟩ | ⟨checked, staged, hstaged, hrun'⟩
    · exact Or.inl ((h.kept exit' disk'' hrun' hearly.1 hearly.2).trans hkept.symm)
    · by_cases hf : RenameFails machine ledgerPath
      · obtain ⟨htarget, hjournals⟩ := hfailed hstaged hf
        refine Or.inl fun p hp => ?_
        rcases List.mem_cons.mp hp with rfl | hp
        · exact htarget
        · have hp' := hjournals p hp
          split_ifs at hp' with hfails
          · exact hp'
          · rw [← hp', hstaged.journal_none hne hp]
            exact hp'.symm
      · have hreplaces : Replaces F machine input ledgerPath force disk :=
          ⟨⟨checked, staged, hstaged⟩, hf⟩
        exact Or.inr ⟨hreplaces, hforced hreplaces⟩
  · rintro ⟨checked, staged, hstaged⟩ hf p hp
    have hp' := (hfailed hstaged hf).2 p hp
    split_ifs at hp' with hfails
    · exact Or.inr (Option.isSome_iff_ne_none.mp hfails)
    · exact Or.inl hp'.symm
  · rintro ⟨⟨checked, staged, hstaged⟩, hf⟩ p hp
    obtain ⟨renamed, hreplace⟩ := hstaged.completes hf
    have hnone := (h.replaced checked staged renamed hstaged hreplace).2 p hp
    rw [(hstaged.renamed hreplace).2.2 p hp] at hnone
    split_ifs at hnone with hfails
    · exact Or.inl ((hstaged.journal_none hne hp).mp hnone)
    · exact Or.inr (Option.not_isSome_iff_eq_none.mp hfails)
  · rintro ⟨⟨checked, staged, hstaged⟩, hf⟩
    obtain ⟨renamed, hreplace⟩ := hstaged.completes hf
    obtain ⟨-, ⟨content, hcontent, htarget⟩, -⟩ := hstaged.renamed hreplace
    have hsame := (h.replaced checked staged renamed hstaged hreplace).1
    rw [htarget, hcontent] at hsame
    by_cases htmp : input = utf8 (restoreTmp ledgerPath)
    · rw [if_pos htmp] at hsame
      exact Or.inr (by rw [← hstaged.checked_eq, hcontent, hsame])
    · exact Or.inl htmp

/-- A restore onto an existing ledger at another path is all or nothing exactly if it
meets none of these faults. -/
theorem restore_all_or_nothing_iff (hne : input ≠ utf8 ledgerPath)
    (hexists : disk (utf8 ledgerPath) ≠ none) :
    AllOrNothing F machine input ledgerPath force disk ↔
      RestoresSafely F machine input ledgerPath force disk := by
  constructor
  · exact safe_of_all_or_nothing hne
  · intro hsafe
    refine ⟨?_, ?_, ?_⟩
    · intro exit disk' hrun _ hrenamed
      exact (kept_of_safe hsafe hrun (not_replaces hrun hrenamed)).2
    · intro checked staged renamed hstaged hreplace
      exact replaced_of_safe hne hsafe hstaged hreplace
    · intro hforce exit disk' hrun
      exact kept_of_safe hsafe hrun (not_replaces_unforced hexists hsafe hforce)

end Safety

def sqliteHeader : Octets := utf8 "SQLite format 3" ++ [0]

def snapshotFile : Octets := sqliteHeader ++ [1]

def snapshotRows : List EntryCells := cellsOf bitsText [absentEntry, nextEntry]

/-- Databases by their header, all but the snapshot without entries. -/
def sampleSqlite : Sqlite where
  openLedger path disk :=
    match disk (utf8 path) with
    | none => (.ok (.ok []), fun p => if p = utf8 path then some sqliteHeader else disk p)
    | some content =>
      if sqliteHeader <+: content then
        (.ok (.ok (if content = snapshotFile then snapshotRows else [])), disk)
      else (.error "file is not a database", disk)
  close _ disk := disk
  display _ := "database error"
  open_other path disk p hp := by
    have hne : p ≠ utf8 path := fun h => hp (h ▸ List.mem_cons_self)
    cases hd : disk (utf8 path) with
    | none => exact if_neg hne
    | some content =>
      dsimp only
      split_ifs <;> rfl
  close_other _ _ _ _ := rfl

/-- A snapshot, and a ledger with entries that are still in its journal. -/
def liveDisk : HostFiles := fun p =>
  if p = utf8 "snapshot.db" then some snapshotFile
  else if p = utf8 "ledger.db" then some (sqliteHeader ++ [2])
  else if p = utf8 "ledger.db-wal" then some [3]
  else none

theorem snapshotRows_verify : verify bitsText snapshotRows = .ok ⟨true, 2, none, none⟩ :=
  verifyFrom_cellsOf (List.forall_mem_cons.mpr ⟨absentEntry_sound,
    List.forall_mem_singleton.mpr nextEntry_sound⟩) ⟨rfl, rfl, trivial⟩ 0

theorem sampleSqlite_open :
    sampleSqlite.openLedger "snapshot.db" liveDisk = (.ok (.ok snapshotRows), liveDisk) := by
  have hfile : liveDisk (utf8 "snapshot.db") = some snapshotFile := if_pos rfl
  have hheader : sqliteHeader <+: snapshotFile := List.prefix_append _ _
  simp only [sampleSqlite, hfile, if_pos hheader, if_pos]

theorem checkSnapshot_sample (faults : Faults Octets Octets) :
    checkSnapshot bitsText ⟨sampleSqlite, faults⟩ "snapshot.db" liveDisk = (.ok (), liveDisk) :=
  checkSnapshot_valid sampleSqlite_open snapshotRows_verify rfl

def soundMachine : Machine := ⟨sampleSqlite, ⟨fun _ => none, fun _ before => before⟩⟩

theorem restore_forced_all_or_nothing :
    AllOrNothing bitsText soundMachine (utf8 "snapshot.db") "ledger.db" true liveDisk := by
  have hchecked : checkedDisk bitsText soundMachine (utf8 "snapshot.db") liveDisk = liveDisk :=
    (checkedDisk_of_found (by decide +kernel) (fromUtf8_utf8 _)).trans
      (congrArg Prod.snd (checkSnapshot_sample _))
  have hnofault : ¬ RenameFails soundMachine "ledger.db" := fun h => h rfl
  refine (restore_all_or_nothing_iff (by decide +kernel) (by decide +kernel)).mpr
    ⟨Or.inl ?_, fun _ => Or.inl rfl, fun _ h => absurd h hnofault, fun _ _ _ => Or.inr rfl,
      fun _ => Or.inl (by decide +kernel)⟩
  rw [hchecked]
  exact fun _ _ => rfl

/-- A machine on which the rename fails, as one onto an immutable file does. -/
def lockedMachine : Machine where
  sqlite := sampleSqlite
  faults :=
    { fails := fun op => match op with
        | .rename _ _ => some "Operation not permitted (os error 1)"
        | _ => none
      left := fun _ before => before }

/-- The copy is written, and the run goes on from it. -/
def lockedCopy : HostFiles := (copySnapshot lockedMachine "snapshot.db" "ledger.db" true liveDisk).2

def lockedRest : RestoreExit × HostFiles := install bitsText lockedMachine "ledger.db" lockedCopy

theorem lockedCopy_staged : Staged bitsText lockedMachine (utf8 "snapshot.db") "ledger.db" true
    liveDisk liveDisk lockedCopy where
  found := by decide +kernel
  copied := by
    have hcopy : copySnapshot lockedMachine "snapshot.db" "ledger.db" true liveDisk =
        (.ok (), lockedCopy) := Prod.ext (by decide +kernel) rfl
    exact ⟨"snapshot.db", fromUtf8_utf8 _, checkSnapshot_sample _, hcopy⟩

theorem restore_loses_journal :
    ¬ AllOrNothing bitsText lockedMachine (utf8 "snapshot.db") "ledger.db" true liveDisk := by
  intro h
  have hcode : lockedRest.1.code ≠ 0 := by decide +kernel
  have hnot : lockedRest.1.renamed = false := by decide +kernel
  have hlost : lockedRest.2 (utf8 "ledger.db-wal") = none := by decide +kernel
  have hkept := h.kept lockedRest.1 lockedRest.2 lockedCopy_staged.runs hcode hnot
    (utf8 "ledger.db-wal") (by simp [journals])
  rw [hlost] at hkept
  exact absurd hkept (by decide +kernel)

end ClavenarLite
