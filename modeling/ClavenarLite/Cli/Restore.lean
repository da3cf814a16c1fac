import ClavenarLite.Ledger.Verify
import ClavenarLite.Lib.Files

/-! `restore`: a snapshot that verifies is copied beside the target ledger and renamed
onto it. -/

namespace ClavenarLite

open Bytes Files TextJson

/-- Files by the bytes of their paths. -/
abbrev HostFiles := Disk Octets Octets

/-- The files SQLite keeps for a database. -/
def databaseFiles (path : String) : List Octets :=
  [utf8 path, utf8 (path ++ "-wal"), utf8 (path ++ "-shm"), utf8 (path ++ "-journal")]

/-- What SQLite does with databases. -/
structure Sqlite where
  /-- A ledger is opened, and a query of its entries reads these rows. -/
  openLedger : String → HostFiles → Except String (Except SqlError (List EntryCells)) × HostFiles
  close : String → HostFiles → HostFiles
  display : SqlError → String
  open_other : ∀ path disk, ∀ p ∉ databaseFiles path, (openLedger path disk).2 p = disk p
  close_other : ∀ path disk, ∀ p ∉ databaseFiles path, close path disk p = disk p

structure Machine where
  sqlite : Sqlite
  faults : Faults Octets Octets

/-- The ways `run_restore` returns. -/
inductive RestoreExit
  | inputMissing
  | inputNotUtf8
  | snapshotWontOpen (e : String)
  | snapshotInvalid
  | snapshotVerifyFailed (e : String)
  | targetExists
  | copyFailed (e : String)
  | renameFailed (e : String)
  | wontReopen (e : String)
  | restored (entriesChecked : Nat)
  | notSurvived
  | reverifyErrored (e : String)
  deriving DecidableEq

def RestoreExit.code : RestoreExit → Int
  | .restored _ => 0
  | .snapshotInvalid | .wontReopen _ | .notSurvived => 2
  | _ => 1

/-- The returns after the rename has completed. -/
def RestoreExit.renamed : RestoreExit → Bool
  | .wontReopen _ | .restored _ | .notSurvived | .reverifyErrored _ => true
  | _ => false

/-- The copy is written beside the target. -/
def restoreTmp (ledgerPath : String) : String :=
  join ((parent ledgerPath).getD ".")
    ("." ++ (fileName ledgerPath).getD "clavenar-lite.db" ++ ".restore-tmp")

/-- The line printed at the end. -/
def RestoreExit.line (input : Octets) (ledgerPath : String) : RestoreExit → String
  | .inputMissing => "error: --input " ++ fromUtf8Lossy input ++ " does not exist"
  | .inputNotUtf8 => "error: --input path is not valid UTF-8"
  | .snapshotWontOpen e => "error: snapshot " ++ fromUtf8Lossy input ++ " won't open: " ++ e
  | .snapshotInvalid => "error: snapshot " ++ fromUtf8Lossy input ++
      " fails chain verification — refusing to restore"
  | .snapshotVerifyFailed e => "error: snapshot verify failed: " ++ e
  | .targetExists => "error: target ledger " ++ ledgerPath ++
      " already exists. Pass --force to overwrite (this is destructive)"
  | .copyFailed e => "error: copy " ++ fromUtf8Lossy input ++ " -> " ++ restoreTmp ledgerPath ++
      " failed: " ++ e
  | .renameFailed e => "error: rename tmp -> " ++ ledgerPath ++ " failed: " ++ e
  | .wontReopen e => "error: target " ++ ledgerPath ++ " won't reopen post-restore: " ++ e
  | .restored entriesChecked => "restored " ++ ledgerPath ++ " from " ++ fromUtf8Lossy input ++
      " — " ++ toString entriesChecked ++ " entr" ++ (if entriesChecked = 1 then "y" else "ies") ++
      " verified"
  | .notSurvived => "error: post-restore verify failed on " ++ ledgerPath ++
      " — restored bytes did not survive the rename"
  | .reverifyErrored e => "error: post-restore verify errored: " ++ e

section Program

variable (F : FloatText) (machine : Machine)

def checkSnapshot (inputStr : String) (disk : HostFiles) : Except RestoreExit Unit × HostFiles :=
  match machine.sqlite.openLedger inputStr disk with
  | (.error e, disk) => (.error (.snapshotWontOpen e), disk)
  | (.ok rows, disk) =>
    let answer := match rows.bind (verify F) with
      | .ok v => if v.valid then .ok () else .error .snapshotInvalid
      | .error e => .error (.snapshotVerifyFailed (machine.sqlite.display e))
    (answer, machine.sqlite.close inputStr disk)

def copySnapshot (inputStr ledgerPath : String) (force : Bool) (disk : HostFiles) :
    Except RestoreExit Unit × HostFiles :=
  if pathExists machine.faults (utf8 ledgerPath) disk && !force then (.error .targetExists, disk)
  else
    let tmp := utf8 (restoreTmp ledgerPath)
    match copy machine.faults [] (utf8 inputStr) tmp disk with
    | (.error e, disk) => (.error (.copyFailed e), (removeFile machine.faults tmp disk).2)
    | (.ok (), disk) => (.ok (), disk)

def dropJournals (ledgerPath : String) (disk : HostFiles) : HostFiles :=
  let disk := (removeFile machine.faults (utf8 (ledgerPath ++ "-wal")) disk).2
  (removeFile machine.faults (utf8 (ledgerPath ++ "-shm")) disk).2

def replaceTarget (ledgerPath : String) (disk : HostFiles) : Except RestoreExit Unit × HostFiles :=
  let tmp := utf8 (restoreTmp ledgerPath)
  match rename machine.faults tmp (utf8 ledgerPath) (dropJournals machine ledgerPath disk) with
  | (.error e, disk) => (.error (.renameFailed e), (removeFile machine.faults tmp disk).2)
  | (.ok (), disk) => (.ok (), disk)

def reverify (ledgerPath : String) (disk : HostFiles) : RestoreExit × HostFiles :=
  match machine.sqlite.openLedger ledgerPath disk with
  | (.error e, disk) => (.wontReopen e, disk)
  | (.ok rows, disk) =>
    let exit := match rows.bind (verify F) with
      | .ok v => if v.valid then .restored v.entriesChecked else .notSurvived
      | .error e => .reverifyErrored (machine.sqlite.display e)
    (exit, machine.sqlite.close ledgerPath disk)

/-- From the dropped journals to the end. -/
def install (ledgerPath : String) (disk : HostFiles) : RestoreExit × HostFiles :=
  match replaceTarget machine ledgerPath disk with
  | (.error exit, disk) => (exit, disk)
  | (.ok (), disk) => reverify F machine ledgerPath disk

def runRestore (input : Octets) (ledgerPath : String) (force : Bool) (disk : HostFiles) :
    RestoreExit × HostFiles :=
  if !pathExists machine.faults input disk then (.inputMissing, disk)
  else
    match fromUtf8 input with
    | none => (.inputNotUtf8, disk)
    | some inputStr =>
      match checkSnapshot F machine inputStr disk with
      | (.error exit, disk) => (exit, disk)
      | (.ok (), disk) =>
        match copySnapshot machine inputStr ledgerPath force disk with
        | (.error exit, disk) => (exit, disk)
        | (.ok (), disk) => install F machine ledgerPath disk

end Program

section Property

variable (F : FloatText) (machine : Machine) (input : Octets) (ledgerPath : String) (force : Bool)
  (disk : HostFiles)

def journals (ledgerPath : String) : List Octets :=
  [utf8 (ledgerPath ++ "-wal"), utf8 (ledgerPath ++ "-shm")]

/-- The target and its journals are as before. -/
def TargetKept (ledgerPath : String) (disk disk' : HostFiles) : Prop :=
  ∀ p ∈ utf8 ledgerPath :: journals ledgerPath, disk' p = disk p

/-- The run gets as far as the rename: the snapshot was checked, which left the files
`checked`, and copied, which left the files `staged`. -/
structure Staged (checked staged : HostFiles) : Prop where
  found : pathExists machine.faults input disk = true
  copied : ∃ inputStr, fromUtf8 input = some inputStr ∧
    checkSnapshot F machine inputStr disk = (.ok (), checked) ∧
      copySnapshot machine inputStr ledgerPath force checked = (.ok (), staged)

/-- A restore is all or nothing. -/
structure AllOrNothing : Prop where
  kept : ∀ exit disk', runRestore F machine input ledgerPath force disk = (exit, disk') →
    exit.code ≠ 0 → exit.renamed = false → TargetKept ledgerPath disk disk'
  replaced : ∀ checked staged renamed, Staged F machine input ledgerPath force disk checked staged →
    replaceTarget machine ledgerPath staged = (.ok (), renamed) →
      renamed (utf8 ledgerPath) = checked input ∧ ∀ p ∈ journals ledgerPath, renamed p = none
  refused : force = false → ∀ exit disk',
    runRestore F machine input ledgerPath force disk = (exit, disk') →
      exit.renamed = false ∧ TargetKept ledgerPath disk disk'

/-- The files after the snapshot was opened, verified and closed. -/
def checkedDisk : HostFiles :=
  if pathExists machine.faults input disk then
    (fromUtf8 input).elim disk fun inputStr => (checkSnapshot F machine inputStr disk).2
  else disk

def RenameFails : Prop :=
  machine.faults.fails (.rename (utf8 (restoreTmp ledgerPath)) (utf8 ledgerPath)) ≠ none

/-- The run gets as far as the rename, and the rename does not fail. -/
def Replaces : Prop :=
  (∃ checked staged, Staged F machine input ledgerPath force disk checked staged) ∧
    ¬ RenameFails machine ledgerPath

/-- When a restore is all or nothing. -/
structure RestoresSafely : Prop where
  /-- SQLite leaves the target alone when it checks the snapshot, unless the target was to be
  overwritten and was. -/
  alone : TargetKept ledgerPath disk (checkedDisk F machine input disk) ∨
    Replaces F machine input ledgerPath force disk ∧ force = true
  /-- Without `--force` the look at the target does not fail. -/
  seen : Replaces F machine input ledgerPath force disk →
    force = true ∨ machine.faults.fails (.look (utf8 ledgerPath)) = none
  /-- A rename that fails finds no journal that could have been removed before. -/
  journalKept : (∃ checked staged, Staged F machine input ledgerPath force disk checked staged) →
    RenameFails machine ledgerPath → ∀ p ∈ journals ledgerPath,
      disk p = none ∨ machine.faults.fails (.removeFile p) ≠ none
  /-- Before a rename that completes no journal withstands its removal. -/
  journalGone : Replaces F machine input ledgerPath force disk → ∀ p ∈ journals ledgerPath,
    disk p = none ∨ machine.faults.fails (.removeFile p) = none
  /-- The snapshot is not the file the copy is written to, unless it is empty. -/
  apart : Replaces F machine input ledgerPath force disk →
    input ≠ utf8 (restoreTmp ledgerPath) ∨ checkedDisk F machine input disk input = some []

end Property

theorem isName_tmp {name : String} (h : '/' ∉ name.toList) :
    IsName ("." ++ name ++ ".restore-tmp") := by
  have hlength : ("." ++ name ++ ".restore-tmp").length = name.length + 13 := by
    simp only [String.length_append]
    have hdot : ".".length = 1 := by decide
    have hsuffix : ".restore-tmp".length = 12 := by decide
    omega
  have hlong : ∀ short : String, short.length ≤ 2 → "." ++ name ++ ".restore-tmp" ≠ short := by
    intro short hshort he
    rw [he] at hlength
    omega
  exact ⟨hlong _ (by decide), hlong _ (by decide), hlong _ (by decide), by simp [h]⟩

theorem fileName_restoreTmp (ledgerPath : String) : fileName (restoreTmp ledgerPath) =
    some ("." ++ (fileName ledgerPath).getD "clavenar-lite.db" ++ ".restore-tmp") := by
  refine fileName_join _ (isName_tmp ?_)
  cases hname : fileName ledgerPath with
  | none => decide
  | some name => exact fileName_slash hname

theorem restoreTmp_ne (ledgerPath : String) : restoreTmp ledgerPath ≠ ledgerPath := by
  intro h
  have hname := fileName_restoreTmp ledgerPath
  rw [h] at hname
  rw [hname, Option.getD_some] at hname
  have hlength := congrArg String.length (Option.some.inj hname)
  simp only [String.length_append] at hlength
  have hdot : ".".length = 1 := by decide
  omega

/-- Two texts that end differently differ. -/
theorem append_ne {s t a b : String} {n : Nat}
    (h : a.toList.reverse[n]? ≠ b.toList.reverse[n]?) (ha : n < a.length) (hb : n < b.length) :
    s ++ a ≠ t ++ b := by
  intro he
  have hreverse := congrArg (fun x : String => x.toList.reverse[n]?) he
  simp only [String.toList_append, List.reverse_append] at hreverse
  rw [List.getElem?_append_left (by rwa [List.length_reverse, String.length_toList]),
    List.getElem?_append_left (by rwa [List.length_reverse, String.length_toList])] at hreverse
  exact h hreverse

theorem restoreTmp_not_mem (ledgerPath : String) :
    utf8 (restoreTmp ledgerPath) ∉ utf8 ledgerPath :: journals ledgerPath := by
  obtain ⟨before, hbefore⟩ : ∃ before, restoreTmp ledgerPath = before ++ ".restore-tmp" := by
    obtain ⟨before, hjoin⟩ := join_suffix ((parent ledgerPath).getD ".")
      ("." ++ (fileName ledgerPath).getD "clavenar-lite.db" ++ ".restore-tmp")
    exact ⟨_, hjoin.trans String.append_assoc.symm⟩
  simp only [journals, List.mem_cons, List.not_mem_nil, or_false, not_or,
    utf8_injective.eq_iff]
  refine ⟨restoreTmp_ne ledgerPath, ?_, ?_⟩
  · rw [hbefore]
    exact append_ne (n := 0) (by decide) (by decide) (by decide)
  · rw [hbefore]
    exact append_ne (n := 0) (by decide) (by decide) (by decide)

/-- A journal of the target is no journal of another database. -/
theorem journal_of_other {inputStr ledgerPath : String} (hne : inputStr ≠ ledgerPath) {p : Octets}
    (hp : p ∈ journals ledgerPath) (hd : p ∈ databaseFiles inputStr) : p = utf8 inputStr := by
  have hsame : ∀ suffix, inputStr ++ suffix ≠ ledgerPath ++ suffix := fun suffix he =>
    hne ((String.append_left_inj suffix).mp he)
  simp only [journals, databaseFiles, List.mem_cons, List.not_mem_nil, or_false] at hp hd
  rcases hd with hd | hd | hd | hd
  · exact hd
  all_goals
    rcases hp with hp | hp
  all_goals
    have he := utf8_injective (hd.symm.trans hp)
  · exact absurd he (hsame _)
  · exact absurd he (append_ne (n := 0) (by decide) (by decide) (by decide))
  · exact absurd he (append_ne (n := 0) (by decide) (by decide) (by decide))
  · exact absurd he (hsame _)
  · exact absurd he (append_ne (n := 2) (by decide) (by decide) (by decide))
  · exact absurd he (append_ne (n := 0) (by decide) (by decide) (by decide))

section Parts

variable {F : FloatText} {machine : Machine} {inputStr ledgerPath : String} {force : Bool}
  {disk staged : HostFiles} {p : Octets}

theorem checkSnapshot_other (hp : p ∉ databaseFiles inputStr) :
    (checkSnapshot F machine inputStr disk).2 p = disk p := by
  have hopen := machine.sqlite.open_other inputStr disk p hp
  unfold checkSnapshot
  generalize machine.sqlite.openLedger inputStr disk = opened at hopen ⊢
  obtain ⟨answer, disk'⟩ := opened
  cases answer with
  | error e => exact hopen
  | ok rows => exact (machine.sqlite.close_other inputStr disk' p hp).trans hopen

theorem copySnapshot_other (hp : p ≠ utf8 (restoreTmp ledgerPath)) :
    (copySnapshot machine inputStr ledgerPath force disk).2 p = disk p := by
  unfold copySnapshot
  split
  · rfl
  · have hcopy : (copy machine.faults [] (utf8 inputStr) (utf8 (restoreTmp ledgerPath)) disk).2 p =
        disk p := copy_other hp
    dsimp only
    generalize copy machine.faults [] (utf8 inputStr) (utf8 (restoreTmp ledgerPath)) disk = copied
      at hcopy ⊢
    obtain ⟨answer, disk'⟩ := copied
    cases answer with
    | error e => exact (removeFile_other hp).trans hcopy
    | ok _ => exact hcopy

theorem copySnapshot_ok (h : copySnapshot machine inputStr ledgerPath force disk = (.ok (), staged)) :
    (pathExists machine.faults (utf8 ledgerPath) disk && !force) = false ∧
      ∃ content, disk (utf8 inputStr) = some content ∧
        staged = Function.update disk (utf8 (restoreTmp ledgerPath))
          (some (if utf8 inputStr = utf8 (restoreTmp ledgerPath) then [] else content)) := by
  unfold copySnapshot at h
  split_ifs at h with hexists
  · exact absurd (congrArg Prod.fst h) (by simp)
  · refine ⟨Bool.not_eq_true _ ▸ hexists, ?_⟩
    dsimp only at h
    generalize hcopy : copy machine.faults [] (utf8 inputStr) (utf8 (restoreTmp ledgerPath)) disk
      = copied at h
    obtain ⟨answer, disk'⟩ := copied
    cases answer with
    | error e => exact absurd (congrArg Prod.fst h) (by simp)
    | ok _ =>
      rw [← (Prod.mk.inj h).2]
      exact copy_ok hcopy

theorem dropJournals_other (hp : p ∉ journals ledgerPath) :
    dropJournals machine ledgerPath disk p = disk p := by
  simp only [journals, List.mem_cons, List.not_mem_nil, or_false, not_or] at hp
  exact (removeFile_other hp.2).trans (removeFile_other hp.1)

theorem journals_ne (ledgerPath : String) :
    utf8 (ledgerPath ++ "-wal") ≠ utf8 (ledgerPath ++ "-shm") := fun h =>
  append_ne (n := 0) (by decide) (by decide) (by decide) (utf8_injective h)

theorem dropJournals_journal (hp : p ∈ journals ledgerPath) :
    dropJournals machine ledgerPath disk p =
      if (machine.faults.fails (.removeFile p)).isSome then disk p else none := by
  simp only [journals, List.mem_cons, List.not_mem_nil, or_false] at hp
  unfold dropJournals
  rcases hp with rfl | rfl
  · rw [removeFile_other (journals_ne ledgerPath), removeFile_self]
  · rw [removeFile_self, removeFile_other (journals_ne ledgerPath).symm]

variable {content : Octets}

theorem staged_dropped (h : staged (utf8 (restoreTmp ledgerPath)) = some content) :
    dropJournals machine ledgerPath staged (utf8 (restoreTmp ledgerPath)) = some content := by
  rw [dropJournals_other fun hp => restoreTmp_not_mem ledgerPath (List.mem_cons_of_mem _ hp)]
  exact h

theorem replaceTarget_failed (h : staged (utf8 (restoreTmp ledgerPath)) = some content)
    (hf : RenameFails machine ledgerPath) : ∃ e disk',
      replaceTarget machine ledgerPath staged = (.error (.renameFailed e), disk') ∧
        ∀ q ∈ utf8 ledgerPath :: journals ledgerPath,
          disk' q = dropJournals machine ledgerPath staged q := by
  simp only [replaceTarget]
  generalize hrename : rename machine.faults (utf8 (restoreTmp ledgerPath)) (utf8 ledgerPath)
    (dropJournals machine ledgerPath staged) = renamed
  obtain ⟨answer, disk'⟩ := renamed
  cases answer with
  | ok _ => exact absurd ((rename_iff (staged_dropped h)).mp hrename).1 hf
  | error e =>
    refine ⟨e, _, rfl, fun q hq => ?_⟩
    have hne : q ≠ utf8 (restoreTmp ledgerPath) := fun he => restoreTmp_not_mem ledgerPath (he ▸ hq)
    rw [removeFile_other hne, rename_failed hrename]

theorem replaceTarget_iff (h : staged (utf8 (restoreTmp ledgerPath)) = some content)
    {renamed : HostFiles} : replaceTarget machine ledgerPath staged = (.ok (), renamed) ↔
      ¬ RenameFails machine ledgerPath ∧
        renamed = Function.update (Function.update (dropJournals machine ledgerPath staged)
          (utf8 (restoreTmp ledgerPath)) none) (utf8 ledgerPath) (some content) := by
  have hpresent : dropJournals machine ledgerPath staged (utf8 (restoreTmp ledgerPath)) =
      some content := staged_dropped h
  rw [RenameFails, not_not, ← rename_iff hpresent]
  simp only [replaceTarget]
  generalize rename machine.faults (utf8 (restoreTmp ledgerPath)) (utf8 ledgerPath)
    (dropJournals machine ledgerPath staged) = result
  obtain ⟨answer, disk'⟩ := result
  cases answer with
  | ok _ => simp
  | error e => simp

/-- The exit is one before the rename. -/
def Early (exit : RestoreExit) : Prop := exit.code ≠ 0 ∧ exit.renamed = false

theorem checkSnapshot_error {exit : RestoreExit} {disk' : HostFiles}
    (h : checkSnapshot F machine inputStr disk = (.error exit, disk')) : Early exit := by
  unfold checkSnapshot at h
  split at h
  · rw [← Except.error.inj (Prod.mk.inj h).1]
    exact ⟨by simp [RestoreExit.code], rfl⟩
  · have hanswer := (Prod.mk.inj h).1
    split at hanswer
    · split_ifs at hanswer
      rw [← Except.error.inj hanswer]
      exact ⟨by simp [RestoreExit.code], rfl⟩
    · rw [← Except.error.inj hanswer]
      exact ⟨by simp [RestoreExit.code], rfl⟩

theorem copySnapshot_error {exit : RestoreExit} {disk' : HostFiles}
    (h : copySnapshot machine inputStr ledgerPath force disk = (.error exit, disk')) :
    Early exit := by
  unfold copySnapshot at h
  split_ifs at h
  · rw [← Except.error.inj (Prod.mk.inj h).1]
    exact ⟨by simp [RestoreExit.code], rfl⟩
  · dsimp only at h
    split at h
    · rw [← Except.error.inj (Prod.mk.inj h).1]
      exact ⟨by simp [RestoreExit.code], rfl⟩
    · exact absurd (Prod.mk.inj h).1 (by simp)

end Parts

end ClavenarLite
