import ClavenarLite.Lib.Text
import Mathlib.Logic.Function.Basic

/-! Paths as texts, and a file system as a map from paths to contents whose
operations may each fail. -/

namespace Files

open Text

/-- The segments of a path, without the empty ones and those of the directory itself at
its end. The first segment stays: it is empty if the path is absolute. -/
def components (segments : List String) : List String :=
  segments.take 1 ++ (segments.drop 1).rdropWhile fun s => s == "" || s == "."

def fileName (path : String) : Option String :=
  (components (split '/' path)).getLast?.filter fun s => s != "" && s != "." && s != ".."

def render (segments : List String) : String :=
  if segments = [""] then "/" else "/".intercalate segments

def parent (path : String) : Option String :=
  let segments := components (split '/' path)
  if segments = [""] then none else some (render (components segments.dropLast))

def join (path name : String) : String :=
  if name.toList.head? = some '/' then name
  else if path = "" then name
  else if endsWith "/" path then path ++ name
  else path ++ "/" ++ name

example : (parent "/var/lib/ledger.db", fileName "/var/lib/ledger.db") =
    (some "/var/lib", some "ledger.db") := by decide +kernel

example : (parent "ledger.db", parent "./ledger.db", parent "/ledger.db", parent "/", fileName "..") =
    (some "", some ".", some "/", none, none) := by decide +kernel

theorem join_suffix (path name : String) : ∃ before, join path name = before ++ name := by
  unfold join
  split_ifs
  · exact ⟨"", by simp⟩
  · exact ⟨"", by simp⟩
  · exact ⟨path, rfl⟩
  · exact ⟨path ++ "/", rfl⟩

/-- A name that can stand for a file. -/
structure IsName (name : String) : Prop where
  nonempty : name ≠ ""
  current : name ≠ "."
  upper : name ≠ ".."
  slash : '/' ∉ name.toList

theorem not_mem_segment {α : Type} [BEq α] [LawfulBEq α] {sep : α} {l segment : List α}
    (h : segment ∈ l.splitOn sep) : sep ∉ segment := by
  induction l generalizing segment with
  | nil =>
    rw [List.splitOn_nil, List.mem_singleton] at h
    rw [h]
    exact List.not_mem_nil
  | cons x l ih =>
    rw [List.splitOn_cons_eq_if_modifyHead] at h
    obtain ⟨first, rest, hsplit⟩ := List.exists_cons_of_ne_nil (List.splitOn_ne_nil sep l)
    rw [hsplit] at h ih
    by_cases hx : (x == sep) = true
    · rw [if_pos hx] at h
      rcases List.mem_cons.mp h with rfl | h
      · exact List.not_mem_nil
      · exact ih h
    · rw [if_neg hx, List.modifyHead_cons] at h
      rcases List.mem_cons.mp h with rfl | h
      · intro hsep
        rcases List.mem_cons.mp hsep with rfl | hsep
        · exact hx (beq_self_eq_true _)
        · exact ih List.mem_cons_self hsep
      · exact ih (List.mem_cons_of_mem _ h)

theorem mem_of_mem_components {segments : List String} {s : String} (h : s ∈ components segments) :
    s ∈ segments := by
  rcases List.mem_append.mp h with h | h
  · exact List.mem_of_mem_take h
  · exact List.mem_of_mem_drop ((List.rdropWhile_prefix _ _).subset h)

theorem fileName_slash {path name : String} (h : fileName path = some name) :
    '/' ∉ name.toList := by
  have hlast := (Option.filter_eq_some_iff.mp h).1
  obtain ⟨segment, hsegment, rfl⟩ := List.mem_map.mp
    (mem_of_mem_components (List.mem_of_getLast? hlast))
  rw [String.toList_ofList]
  exact not_mem_segment hsegment

theorem split_concat {path name : String} (h : '/' ∉ name.toList) :
    split '/' (path ++ "/" ++ name) = split '/' path ++ [name] := by
  have hsep : ("/" : String).toList = ['/'] := rfl
  simp only [split, String.toList_append, hsep, List.append_assoc, List.singleton_append]
  rw [List.splitOn_append_cons_self, List.splitOn_eq_singleton h, List.map_append]
  simp

theorem fileName_of_split {path name : String} {init : List String} (hn : IsName name)
    (h : split '/' path = init ++ [name]) : fileName path = some name := by
  have hlast : (components (init ++ [name])).getLast? = some name := by
    cases init with
    | nil => rfl
    | cons s init =>
      have hkept : (init ++ [name]).rdropWhile (fun s => s == "" || s == ".") = init ++ [name] :=
        List.rdropWhile_concat_neg _ _ _ (by simp [hn.nonempty, hn.current])
      simp only [components, List.cons_append, List.take_succ_cons, List.take_zero,
        List.drop_succ_cons, List.drop_zero, hkept]
      exact List.getLast?_concat (a := name) (l := s :: init)
  rw [fileName, h, hlast]
  simp [hn.nonempty, hn.current, hn.upper]

theorem fileName_join (path : String) {name : String} (hn : IsName name) :
    fileName (join path name) = some name := by
  have hhead : name.toList.head? ≠ some '/' := fun h => hn.slash (List.mem_of_head? h)
  have halone : split '/' name = [] ++ [name] := by
    rw [split, List.splitOn_eq_singleton hn.slash]
    simp
  rw [join, if_neg hhead]
  by_cases hempty : path = ""
  · rw [if_pos hempty]
    exact fileName_of_split hn halone
  · rw [if_neg hempty]
    by_cases hslash : endsWith "/" path = true
    · rw [if_pos hslash]
      obtain ⟨cs, hcs⟩ := List.isSuffixOf_iff_suffix.mp hslash
      have hpath : path = String.ofList cs ++ "/" := String.toList_inj.mp (by simp [← hcs])
      rw [hpath]
      exact fileName_of_split hn (split_concat hn.slash)
    · rw [if_neg hslash]
      exact fileName_of_split hn (split_concat hn.slash)

variable {P C : Type}

/-- The contents of each path at which there is a file. -/
abbrev Disk (P C : Type) := P → Option C

inductive FileOp (P : Type)
  | look (path : P)
  | copy (source target : P)
  | removeFile (path : P)
  | rename (source target : P)
  deriving DecidableEq

/-- The operations that fail, each with its error, and what a failed copy leaves at its
target. -/
structure Faults (P C : Type) where
  fails : FileOp P → Option String
  left : P → Option C → Option C

def notFound : String := "No such file or directory (os error 2)"

variable (faults : Faults P C)

/-- A look that fails sees nothing. -/
def pathExists (path : P) (disk : Disk P C) : Bool :=
  (faults.fails (.look path)).isNone && (disk path).isSome

theorem pathExists_some {faults : Faults P C} {path : P} {disk : Disk P C}
    (h : pathExists faults path disk = true) : disk path ≠ none := by
  simp only [pathExists, Bool.and_eq_true] at h
  exact Option.isSome_iff_ne_none.mp h.2

variable [DecidableEq P]

/-- The target is emptied before the source is read. -/
def copy (empty : C) (source target : P) (disk : Disk P C) : Except String Unit × Disk P C :=
  match faults.fails (.copy source target) with
  | some e => (.error e, Function.update disk target (faults.left target (disk target)))
  | none =>
    match disk source with
    | none => (.error notFound, disk)
    | some content =>
      (.ok (), Function.update disk target (some (if source = target then empty else content)))

def removeFile (path : P) (disk : Disk P C) : Except String Unit × Disk P C :=
  match faults.fails (.removeFile path) with
  | some e => (.error e, disk)
  | none =>
    match disk path with
    | none => (.error notFound, disk)
    | some _ => (.ok (), Function.update disk path none)

def rename (source target : P) (disk : Disk P C) : Except String Unit × Disk P C :=
  match faults.fails (.rename source target) with
  | some e => (.error e, disk)
  | none =>
    match disk source with
    | none => (.error notFound, disk)
    | some content =>
      (.ok (), Function.update (Function.update disk source none) target (some content))

variable {faults} {empty : C} {source target path p : P} {disk disk' : Disk P C}

theorem copy_other (h : p ≠ target) : (copy faults empty source target disk).2 p = disk p := by
  unfold copy
  split
  · exact Function.update_of_ne h _ _
  · split
    · rfl
    · exact Function.update_of_ne h _ _

theorem copy_ok (h : copy faults empty source target disk = (.ok (), disk')) :
    ∃ content, disk source = some content ∧
      disk' = Function.update disk target (some (if source = target then empty else content)) := by
  unfold copy at h
  split at h
  · exact absurd (congrArg Prod.fst h) (by simp)
  · split at h
    · exact absurd (congrArg Prod.fst h) (by simp)
    · exact ⟨_, ‹_›, (congrArg Prod.snd h).symm⟩

theorem removeFile_other (h : p ≠ path) : (removeFile faults path disk).2 p = disk p := by
  unfold removeFile
  split
  · rfl
  · split
    · rfl
    · exact Function.update_of_ne h _ _

/-- After a removal the file is gone, unless the removal failed. -/
theorem removeFile_self (faults : Faults P C) (path : P) (disk : Disk P C) :
    (removeFile faults path disk).2 path =
      if (faults.fails (.removeFile path)).isSome then disk path else none := by
  unfold removeFile
  cases hf : faults.fails (.removeFile path) with
  | some e => rfl
  | none =>
    cases hd : disk path with
    | none => exact hd
    | some content => exact Function.update_self _ _ _

theorem rename_failed {e : String} (h : rename faults source target disk = (.error e, disk')) :
    disk' = disk := by
  unfold rename at h
  split at h
  · exact (congrArg Prod.snd h).symm
  · split at h
    · exact (congrArg Prod.snd h).symm
    · exact absurd (congrArg Prod.fst h) (by simp)

/-- A rename of a file completes exactly if it does not fail. -/
theorem rename_iff {content : C} (h : disk source = some content) :
    rename faults source target disk = (.ok (), disk') ↔
      faults.fails (.rename source target) = none ∧
        disk' = Function.update (Function.update disk source none) target (some content) := by
  unfold rename
  cases hf : faults.fails (.rename source target) with
  | some e => simp
  | none => simp [h, eq_comm]

end Files
