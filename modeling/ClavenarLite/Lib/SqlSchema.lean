import Mathlib.Data.List.Basic
import Mathlib.Logic.Function.Basic

/-! Scripts that bring a database of unknown age to a schema: tables and indexes
created where they are missing, columns added where a table lacks them. A static
check of the script tells whether it runs through. -/

namespace SqlSchema

structure Column (V : Type) where
  name : String
  type : String
  default : V
  deriving DecidableEq

structure Table (V : Type) where
  columns : List (Column V)
  constraints : List String
  rows : List (List V)
  deriving DecidableEq

structure Index where
  name : String
  table : String
  columns : List String
  deriving DecidableEq

structure Schema (V : Type) where
  tables : String → Option (Table V)
  indexes : List Index

inductive Error
  | noSuchTable (table : String)
  | noSuchColumn (column : String)
  | duplicateColumn (column : String)
  deriving DecidableEq

/-- One step of a script. The last adds a column to a table that lacks it, and
then the indexes that go with it. -/
inductive Step (V : Type)
  | createTable (name : String) (columns : List (Column V)) (constraints : List String)
  | createIndex (index : Index)
  | addMissing (table : String) (column : Column V) (indexes : List Index)
  deriving DecidableEq

variable {V : Type}

def Table.names (t : Table V) : List String := t.columns.map Column.name

def Table.extend (t : Table V) (extra : List (Column V)) : Table V :=
  { t with
    columns := t.columns ++ extra
    rows := t.rows.map (· ++ extra.map Column.default) }

def Schema.Has (s : Schema V) (table column : String) : Prop :=
  ∃ t, s.tables table = some t ∧ column ∈ t.names

def Schema.setTable (s : Schema V) (name : String) (t : Table V) : Schema V :=
  { s with tables := Function.update s.tables name (some t) }

def Schema.createTable (s : Schema V) (name : String) (columns : List (Column V))
    (constraints : List String) : Schema V :=
  match s.tables name with
  | some _ => s
  | none => s.setTable name ⟨columns, constraints, []⟩

/-- An index on a column that its table lacks is an error, unless an index of
that name is there already. -/
def Schema.createIndex (s : Schema V) (index : Index) : Except Error (Schema V) :=
  if ∃ i ∈ s.indexes, i.name = index.name then .ok s
  else
    match s.tables index.table with
    | none => .error (.noSuchTable index.table)
    | some t =>
      match index.columns.find? (· ∉ t.names) with
      | some column => .error (.noSuchColumn column)
      | none => .ok { s with indexes := s.indexes ++ [index] }

def Schema.addColumn (s : Schema V) (table : String) (column : Column V) :
    Except Error (Schema V) :=
  match s.tables table with
  | none => .error (.noSuchTable table)
  | some t =>
    if column.name ∈ t.names then .error (.duplicateColumn column.name)
    else .ok (s.setTable table (t.extend [column]))

/-- The columns a table is reported to have; none if there is no such table. -/
def Schema.tableInfo (s : Schema V) (table : String) : List String :=
  match s.tables table with
  | some t => t.names
  | none => []

/-- Statements one after the other; an error ends the run and keeps what was done. -/
def createIndexes : List Index → Schema V → Except Error Unit × Schema V
  | [], s => (.ok (), s)
  | index :: rest, s =>
    match s.createIndex index with
    | .ok s' => createIndexes rest s'
    | .error e => (.error e, s)

def Step.run : Step V → Schema V → Except Error Unit × Schema V
  | .createTable name columns constraints, s => (.ok (), s.createTable name columns constraints)
  | .createIndex index, s => createIndexes [index] s
  | .addMissing table column indexes, s =>
    if column.name ∈ s.tableInfo table then (.ok (), s)
    else
      match s.addColumn table column with
      | .ok s' => createIndexes indexes s'
      | .error e => (.error e, s)

def run : List (Step V) → Schema V → Except Error Unit × Schema V
  | [], s => (.ok (), s)
  | step :: rest, s =>
    match step.run s with
    | (.ok (), s') => run rest s'
    | (.error e, s') => (.error e, s')

/-- `s'` has every table of `s`, perhaps with columns of `added` more, every index,
and no rows in the tables that are new. -/
structure Grown (added : String → Column V → Prop) (s s' : Schema V) : Prop where
  kept : ∀ name t, s.tables name = some t → ∃ extra, s'.tables name = some (t.extend extra) ∧
    ∀ c ∈ extra, added name c
  created : ∀ name, s.tables name = none → ∀ t, s'.tables name = some t → t.rows = []
  indexes : s.indexes <+: s'.indexes

def Step.added : Step V → List (String × Column V)
  | .addMissing table column _ => [(table, column)]
  | _ => []

def Step.Adds (step : Step V) (name : String) (c : Column V) : Prop := (name, c) ∈ step.added

@[simp] theorem Table.extend_nil (t : Table V) : t.extend [] = t := by
  simp [Table.extend]

theorem Table.extend_extend (t : Table V) (xs ys : List (Column V)) :
    (t.extend xs).extend ys = t.extend (xs ++ ys) := by
  simp [Table.extend, Function.comp_def]

theorem Table.extend_names (t : Table V) (xs : List (Column V)) :
    (t.extend xs).names = t.names ++ xs.map Column.name := by
  simp [Table.extend, Table.names]

variable {added : String → Column V → Prop}

theorem Grown.refl (s : Schema V) : Grown added s s where
  kept := fun name t h => ⟨[], by rw [Table.extend_nil, h], by simp⟩
  created := fun name h t ht => by
    rw [h] at ht
    exact absurd ht (by simp)
  indexes := List.prefix_rfl

theorem Grown.trans {s₁ s₂ s₃ : Schema V} (h : Grown added s₁ s₂) (h' : Grown added s₂ s₃) :
    Grown added s₁ s₃ where
  kept := by
    intro name t ht
    obtain ⟨xs, hxs, hax⟩ := h.kept name t ht
    obtain ⟨ys, hys, hay⟩ := h'.kept name _ hxs
    refine ⟨xs ++ ys, by rw [hys, Table.extend_extend], ?_⟩
    intro c hc
    rcases List.mem_append.mp hc with hc | hc
    · exact hax c hc
    · exact hay c hc
  created := by
    intro name hn t ht
    cases hm : s₂.tables name with
    | none => exact h'.created name hm t ht
    | some u =>
      have hu := h.created name hn u hm
      obtain ⟨ys, hys, _⟩ := h'.kept name u hm
      obtain rfl := Option.some.inj (hys.symm.trans ht)
      simp [Table.extend, hu]
  indexes := h.indexes.trans h'.indexes

theorem Grown.mono {added' : String → Column V → Prop} {s s' : Schema V} (h : Grown added s s')
    (hle : ∀ name c, added name c → added' name c) : Grown added' s s' where
  kept := by
    intro name t ht
    obtain ⟨extra, hx, ha⟩ := h.kept name t ht
    exact ⟨extra, hx, fun c hc => hle name c (ha c hc)⟩
  created := h.created
  indexes := h.indexes

theorem Grown.has {s s' : Schema V} (h : Grown added s s') {table column : String}
    (hc : s.Has table column) : s'.Has table column := by
  obtain ⟨t, ht, hm⟩ := hc
  obtain ⟨extra, hx, _⟩ := h.kept table t ht
  refine ⟨_, hx, ?_⟩
  rw [Table.extend_names]
  exact List.mem_append_left _ hm

theorem Grown.isSome {s s' : Schema V} (h : Grown added s s') {table : String}
    (ht : (s.tables table).isSome) : (s'.tables table).isSome := by
  obtain ⟨t, ht⟩ := Option.isSome_iff_exists.mp ht
  obtain ⟨extra, hx, _⟩ := h.kept table t ht
  rw [hx]
  rfl

theorem createTable_grown (name : String) (columns : List (Column V)) (constraints : List String)
    (s : Schema V) : Grown added s (s.createTable name columns constraints) := by
  unfold Schema.createTable
  cases hn : s.tables name with
  | some t => exact Grown.refl s
  | none =>
    refine ⟨?_, ?_, List.prefix_rfl⟩
    · intro other t ht
      have hne : other ≠ name := by
        rintro rfl
        exact absurd (hn.symm.trans ht) (by simp)
      refine ⟨[], ?_, by simp⟩
      rw [Table.extend_nil, ← ht]
      exact Function.update_of_ne hne _ _
    · intro other ho t ht
      by_cases he : other = name
      · subst he
        have hself := Function.update_self other (some (⟨columns, constraints, []⟩ : Table V)) s.tables
        rw [← Option.some.inj (hself.symm.trans ht)]
      · have hold := Function.update_of_ne he (some (⟨columns, constraints, []⟩ : Table V)) s.tables
        exact absurd (ho.symm.trans (hold.symm.trans ht)) (by simp)

theorem createIndex_ok {index : Index} {s s' : Schema V} (h : s.createIndex index = .ok s') :
    s'.tables = s.tables ∧ s.indexes <+: s'.indexes ∧ ∃ i ∈ s'.indexes, i.name = index.name := by
  unfold Schema.createIndex at h
  by_cases hi : ∃ i ∈ s.indexes, i.name = index.name
  · rw [if_pos hi] at h
    obtain rfl := Except.ok.inj h
    exact ⟨rfl, List.prefix_rfl, hi⟩
  · rw [if_neg hi] at h
    split at h
    · exact absurd h (by simp)
    · split at h
      · exact absurd h (by simp)
      · obtain rfl := Except.ok.inj h
        exact ⟨rfl, List.prefix_append _ _, index, by simp, rfl⟩

theorem createIndexes_grown (indexes : List Index) (s : Schema V) :
    Grown added s (createIndexes indexes s).2 := by
  induction indexes generalizing s with
  | nil => exact Grown.refl s
  | cons index rest ih =>
    unfold createIndexes
    cases h : s.createIndex index with
    | error e => exact Grown.refl s
    | ok s' =>
      obtain ⟨htables, hprefix, _⟩ := createIndex_ok h
      have hs : Grown added s s' := by
        refine ⟨?_, ?_, hprefix⟩
        · intro name t ht
          exact ⟨[], by rw [htables, Table.extend_nil, ht], by simp⟩
        · intro name hn t ht
          rw [htables, hn] at ht
          exact absurd ht (by simp)
      exact hs.trans (ih s')

theorem addColumn_grown {table : String} {column : Column V} {s s' : Schema V}
    (h : s.addColumn table column = .ok s') (ha : added table column) :
    Grown added s s' ∧ s'.Has table column.name := by
  unfold Schema.addColumn at h
  cases ht : s.tables table with
  | none =>
    rw [ht] at h
    exact absurd h (by simp)
  | some t =>
    rw [ht] at h
    by_cases hc : column.name ∈ t.names
    · exact absurd ((if_pos hc).symm.trans h) (by simp)
    · obtain rfl := Except.ok.inj ((if_neg hc).symm.trans h)
      have hself := Function.update_self table (some (t.extend [column])) s.tables
      refine ⟨⟨?_, ?_, List.prefix_rfl⟩, _, hself, by simp [Table.extend_names]⟩
      · intro name u hu
        by_cases hn : name = table
        · subst hn
          obtain rfl := Option.some.inj (ht.symm.trans hu)
          exact ⟨[column], hself, fun c hm => List.mem_singleton.mp hm ▸ ha⟩
        · refine ⟨[], ?_, by simp⟩
          rw [Table.extend_nil, ← hu]
          exact Function.update_of_ne hn _ _
      · intro name hn u hu
        have hne : name ≠ table := by
          rintro rfl
          exact absurd (hn.symm.trans ht) (by simp)
        have hold := Function.update_of_ne hne (some (t.extend [column])) s.tables
        exact absurd (hn.symm.trans (hold.symm.trans hu)) (by simp)

theorem addColumn_grown_any {table : String} {column : Column V} {s s' : Schema V}
    (h : s.addColumn table column = .ok s') :
    Grown (fun _ _ => True) s s' ∧ s'.Has table column.name := addColumn_grown h trivial

theorem Step.run_grown (step : Step V) (s : Schema V) : Grown step.Adds s (step.run s).2 := by
  cases step with
  | createTable name columns constraints => exact createTable_grown name columns constraints s
  | createIndex index => exact createIndexes_grown [index] s
  | addMissing table column indexes =>
    simp only [Step.run]
    by_cases hc : column.name ∈ s.tableInfo table
    · rw [if_pos hc]
      exact Grown.refl s
    · rw [if_neg hc]
      cases h : s.addColumn table column with
      | error e => exact Grown.refl s
      | ok s' =>
        exact (addColumn_grown h (List.mem_singleton_self _)).1.trans (createIndexes_grown indexes s')

def Adds (steps : List (Step V)) (name : String) (c : Column V) : Prop :=
  (name, c) ∈ steps.flatMap Step.added

theorem run_grown (steps : List (Step V)) (s : Schema V) : Grown (Adds steps) s (run steps s).2 := by
  induction steps generalizing s with
  | nil => exact Grown.refl s
  | cons step rest ih =>
    have hstep : Grown (Adds (step :: rest)) s (step.run s).2 :=
      (step.run_grown s).mono fun name c h => List.mem_flatMap.mpr ⟨step, List.mem_cons_self, h⟩
    have hrest : ∀ s', Grown (Adds (step :: rest)) s' (run rest s').2 := fun s' =>
      (ih s').mono fun name c h => List.mem_append_right _ h
    unfold run
    generalize step.run s = r at hstep ⊢
    obtain ⟨r, s'⟩ := r
    cases r with
    | error e => exact hstep
    | ok u => exact hstep.trans (hrest s')

def Step.indexes : Step V → List Index
  | .createIndex index => [index]
  | .addMissing _ _ indexes => indexes
  | _ => []

theorem createIndexes_indexes (indexes : List Index) (s : Schema V) :
    ∀ i ∈ (createIndexes indexes s).2.indexes, i ∈ s.indexes ∨ i ∈ indexes := by
  induction indexes generalizing s with
  | nil => exact fun i hi => Or.inl hi
  | cons index rest ih =>
    intro i hi
    unfold createIndexes at hi
    cases h : s.createIndex index with
    | error e =>
      rw [h] at hi
      exact Or.inl hi
    | ok s' =>
      rw [h] at hi
      rcases ih s' i hi with hi | hi
      · unfold Schema.createIndex at h
        split at h
        · obtain rfl := Except.ok.inj h
          exact Or.inl hi
        · split at h
          · exact absurd h (by simp)
          · split at h
            · exact absurd h (by simp)
            · obtain rfl := Except.ok.inj h
              rcases List.mem_append.mp hi with hi | hi
              · exact Or.inl hi
              · exact Or.inr (List.mem_singleton.mp hi ▸ List.mem_cons_self)
      · exact Or.inr (List.mem_cons_of_mem _ hi)

theorem Step.run_indexes (step : Step V) (s : Schema V) :
    ∀ i ∈ (step.run s).2.indexes, i ∈ s.indexes ∨ i ∈ step.indexes := by
  cases step with
  | createTable name columns constraints =>
    intro i hi
    simp only [Step.run, Schema.createTable] at hi
    split at hi
    · exact Or.inl hi
    · exact Or.inl hi
  | createIndex index => exact createIndexes_indexes [index] s
  | addMissing table column indexes =>
    intro i hi
    simp only [Step.run] at hi
    split at hi
    · exact Or.inl hi
    · split at hi
      · next s' hadd =>
        have hsame : s'.indexes = s.indexes := by
          unfold Schema.addColumn at hadd
          split at hadd
          · exact absurd hadd (by simp)
          · split at hadd
            · exact absurd hadd (by simp)
            · rw [← Except.ok.inj hadd]
              rfl
        rw [← hsame]
        exact createIndexes_indexes indexes s' i hi
      · exact Or.inl hi

/-- A script leaves no index but the old ones and its own. -/
theorem run_indexes (steps : List (Step V)) (s : Schema V) :
    ∀ i ∈ (run steps s).2.indexes, i ∈ s.indexes ∨ i ∈ steps.flatMap Step.indexes := by
  induction steps generalizing s with
  | nil => exact fun i hi => Or.inl hi
  | cons step rest ih =>
    have hstep := step.run_indexes s
    intro i hi
    unfold run at hi
    rw [List.flatMap_cons, List.mem_append]
    generalize step.run s = r at hstep hi
    obtain ⟨r, s'⟩ := r
    cases r with
    | error e => exact (hstep i hi).imp_right Or.inl
    | ok u =>
      rcases ih s' i hi with hi | hi
      · exact (hstep i hi).imp_right Or.inl
      · exact Or.inr (Or.inr hi)

/-- What a check knows of the schema at a point of the script. -/
structure Known where
  tables : List String
  columns : List (String × String)

/-- Existing tables have the columns `assume` says, tables made by now exist, and
columns known by now are there. -/
structure Known.Holds (assume : String → List String) (k : Known) (s : Schema V) : Prop where
  assumed : ∀ name t, s.tables name = some t → ∀ c ∈ assume name, c ∈ t.names
  tables : ∀ name ∈ k.tables, (s.tables name).isSome
  columns : ∀ c ∈ k.columns, s.Has c.1 c.2

instance lawfulPair : LawfulBEq (String × String) := inferInstance

def Known.Covers (k : Known) (index : Index) : Prop :=
  index.table ∈ k.tables ∧ ∀ c ∈ index.columns, (index.table, c) ∈ k.columns

instance (k : Known) (index : Index) : Decidable (k.Covers index) := by
  unfold Known.Covers
  infer_instance

def Known.withColumn (k : Known) (table column : String) : Known :=
  { k with columns := (table, column) :: k.columns }

def Step.check (assume : String → List String) (k : Known) : Step V → Option Known
  | .createTable name columns _ =>
    if ∀ c ∈ assume name, c ∈ columns.map Column.name then
      some ⟨name :: k.tables, (assume name).map (fun c => (name, c)) ++ k.columns⟩
    else none
  | .createIndex index => if k.Covers index then some k else none
  | .addMissing table column indexes =>
    let k' := k.withColumn table column.name
    if table ∈ k.tables ∧ ∀ index ∈ indexes, k'.Covers index then some k' else none

def check (assume : String → List String) : Known → List (Step V) → Option Known
  | k, [] => some k
  | k, step :: rest => (step.check assume k).bind fun k' => check assume k' rest

variable {assume : String → List String}

theorem Known.Holds.grown {k : Known} {s s' : Schema V} (h : k.Holds assume s)
    (hg : Grown added s s')
    (hnew : ∀ name t, s.tables name = none → s'.tables name = some t →
      ∀ c ∈ assume name, c ∈ t.names) : k.Holds assume s' where
  assumed := by
    intro name t ht c hc
    cases ho : s.tables name with
    | none => exact hnew name t ho ht c hc
    | some u =>
      obtain ⟨extra, hx, _⟩ := hg.kept name u ho
      obtain rfl := Option.some.inj (hx.symm.trans ht)
      rw [Table.extend_names]
      exact List.mem_append_left _ (h.assumed name u ho c hc)
  tables := fun name hn => hg.isSome (h.tables name hn)
  columns := fun c hc => hg.has (h.columns c hc)

theorem createIndex_covered {k : Known} {s : Schema V} {index : Index} (h : k.Holds assume s)
    (hc : k.Covers index) : ∃ s', s.createIndex index = .ok s' := by
  unfold Schema.createIndex
  by_cases hi : ∃ i ∈ s.indexes, i.name = index.name
  · exact ⟨s, if_pos hi⟩
  · obtain ⟨t, ht⟩ := Option.isSome_iff_exists.mp (h.tables _ hc.1)
    have hnone : index.columns.find? (· ∉ t.names) = none := by
      rw [List.find?_eq_none]
      intro c hm
      obtain ⟨u, hu, hcu⟩ := h.columns _ (hc.2 c hm)
      obtain rfl := Option.some.inj (ht.symm.trans hu)
      simpa using hcu
    rw [if_neg hi, ht]
    simp only [hnone]
    exact ⟨_, rfl⟩

theorem Known.Holds.same_tables {k : Known} {s s' : Schema V} (h : k.Holds assume s)
    (ht : s'.tables = s.tables) : k.Holds assume s' where
  assumed := by
    rw [ht]
    exact h.assumed
  tables := by
    rw [ht]
    exact h.tables
  columns := by
    intro c hc
    obtain ⟨t, hs, hm⟩ := h.columns c hc
    exact ⟨t, by rw [ht, hs], hm⟩

theorem createIndexes_ok {k : Known} {indexes : List Index} {s : Schema V} (h : k.Holds assume s)
    (hc : ∀ index ∈ indexes, k.Covers index) :
    (createIndexes indexes s).1 = .ok () ∧ (createIndexes indexes s).2.tables = s.tables ∧
      ∀ index ∈ indexes, ∃ i ∈ (createIndexes indexes s).2.indexes, i.name = index.name := by
  induction indexes generalizing s with
  | nil => exact ⟨rfl, rfl, fun index hi => absurd hi List.not_mem_nil⟩
  | cons index rest ih =>
    obtain ⟨s', hs'⟩ := createIndex_covered h (hc index List.mem_cons_self)
    obtain ⟨htables, _, i, hi, hname⟩ := createIndex_ok hs'
    obtain ⟨hok, hsame, hall⟩ :=
      ih (h.same_tables htables) fun x hx => hc x (List.mem_cons_of_mem _ hx)
    simp only [createIndexes, hs']
    refine ⟨hok, hsame.trans htables, ?_⟩
    intro x hx
    rcases List.mem_cons.mp hx with rfl | hx
    · have hg : Grown (fun _ _ => True) s' (createIndexes rest s').2 :=
        createIndexes_grown rest s'
      exact ⟨i, hg.indexes.subset hi, hname⟩
    · exact hall x hx

theorem createTable_isSome (name : String) (columns : List (Column V)) (constraints : List String)
    (s : Schema V) : ((s.createTable name columns constraints).tables name).isSome := by
  unfold Schema.createTable
  cases hn : s.tables name with
  | some t => rw [hn]; rfl
  | none =>
    have hself := Function.update_self name (some (⟨columns, constraints, []⟩ : Table V)) s.tables
    exact Option.isSome_iff_exists.mpr ⟨_, hself⟩

theorem createTable_new {name other : String} {columns : List (Column V)}
    {constraints : List String} {s : Schema V} {t : Table V} (hn : s.tables other = none)
    (ht : (s.createTable name columns constraints).tables other = some t) :
    other = name ∧ t = ⟨columns, constraints, []⟩ := by
  unfold Schema.createTable at ht
  cases hs : s.tables name with
  | some u =>
    rw [hs] at ht
    exact absurd (hn.symm.trans ht) (by simp)
  | none =>
    rw [hs] at ht
    by_cases he : other = name
    · subst he
      have hself := Function.update_self other (some (⟨columns, constraints, []⟩ : Table V)) s.tables
      exact ⟨rfl, (Option.some.inj (hself.symm.trans ht)).symm⟩
    · have hold := Function.update_of_ne he (some (⟨columns, constraints, []⟩ : Table V)) s.tables
      exact absurd (hn.symm.trans (hold.symm.trans ht)) (by simp)

/-- A step that passes the check runs without an error, and what the check says
afterwards holds. -/
theorem Step.check_ok {k k' : Known} {step : Step V} {s : Schema V} (h : k.Holds assume s)
    (hc : step.check assume k = some k') :
    (step.run s).1 = .ok () ∧ k'.Holds assume (step.run s).2 := by
  have hgrown := step.run_grown s
  cases step with
  | createTable name columns constraints =>
    simp only [Step.check] at hc
    by_cases hall : ∀ c ∈ assume name, c ∈ columns.map Column.name
    · obtain rfl := Option.some.inj ((if_pos hall).symm.trans hc)
      have hold : k.Holds assume (s.createTable name columns constraints) := by
        refine h.grown hgrown ?_
        intro other t hn ht c hm
        obtain ⟨rfl, rfl⟩ := createTable_new hn ht
        exact hall c hm
      have hname := createTable_isSome name columns constraints s
      refine ⟨rfl, hold.assumed, ?_, ?_⟩
      · intro x hx
        rcases List.mem_cons.mp hx with rfl | hx
        · exact hname
        · exact hold.tables x hx
      · intro c hm
        rcases List.mem_append.mp hm with hm | hm
        · obtain ⟨x, hx, rfl⟩ := List.mem_map.mp hm
          obtain ⟨t, ht⟩ := Option.isSome_iff_exists.mp hname
          exact ⟨t, ht, hold.assumed name t ht x hx⟩
        · exact hold.columns c hm
    · exact absurd ((if_neg hall).symm.trans hc) (by simp)
  | createIndex index =>
    simp only [Step.check] at hc
    by_cases hcover : k.Covers index
    · obtain rfl := Option.some.inj ((if_pos hcover).symm.trans hc)
      have hall : ∀ x ∈ [index], k.Covers x := fun x hx => List.mem_singleton.mp hx ▸ hcover
      obtain ⟨hok, htables, _⟩ := createIndexes_ok h hall
      exact ⟨hok, h.same_tables htables⟩
    · exact absurd ((if_neg hcover).symm.trans hc) (by simp)
  | addMissing table column indexes =>
    simp only [Step.check] at hc
    by_cases hcheck : table ∈ k.tables ∧
        ∀ index ∈ indexes, (k.withColumn table column.name).Covers index
    · obtain rfl := Option.some.inj ((if_pos hcheck).symm.trans hc)
      have hk : ∀ s' : Schema V, k.Holds assume s' → s'.Has table column.name →
          (k.withColumn table column.name).Holds assume s' := by
        intro s' hs' hhas
        refine ⟨hs'.assumed, hs'.tables, ?_⟩
        intro c hm
        rcases List.mem_cons.mp hm with rfl | hm
        · exact hhas
        · exact hs'.columns c hm
      obtain ⟨t, ht⟩ := Option.isSome_iff_exists.mp (h.tables table hcheck.1)
      simp only [Step.run]
      by_cases hhas : column.name ∈ s.tableInfo table
      · rw [if_pos hhas]
        refine ⟨rfl, hk s h ⟨t, ht, ?_⟩⟩
        rwa [Schema.tableInfo, ht] at hhas
      · rw [if_neg hhas]
        have hadd : s.addColumn table column = .ok (s.setTable table (t.extend [column])) := by
          have hn : column.name ∉ t.names := by rwa [Schema.tableInfo, ht] at hhas
          rw [Schema.addColumn, ht]
          exact if_neg hn
        obtain ⟨hg, hnew⟩ := addColumn_grown_any hadd
        have hs' : k.Holds assume (s.setTable table (t.extend [column])) := by
          refine h.grown hg ?_
          intro other u hn hu
          have hne : other ≠ table := by
            rintro rfl
            exact absurd (hn.symm.trans ht) (by simp)
          have hold := Function.update_of_ne hne (some (t.extend [column])) s.tables
          exact absurd (hn.symm.trans (hold.symm.trans hu)) (by simp)
        rw [hadd]
        have hk' := hk _ hs' hnew
        obtain ⟨hok, htables, _⟩ := createIndexes_ok hk' hcheck.2
        exact ⟨hok, hk'.same_tables htables⟩
    · exact absurd ((if_neg hcheck).symm.trans hc) (by simp)

theorem check_ok {k k' : Known} {steps : List (Step V)} {s : Schema V} (h : k.Holds assume s)
    (hc : check assume k steps = some k') :
    (run steps s).1 = .ok () ∧ k'.Holds assume (run steps s).2 := by
  induction steps generalizing k s with
  | nil =>
    obtain rfl := Option.some.inj hc
    exact ⟨rfl, h⟩
  | cons step rest ih =>
    obtain ⟨k₁, hstep, hrest⟩ := Option.bind_eq_some_iff.mp hc
    obtain ⟨hok, hk₁⟩ := Step.check_ok h hstep
    unfold run
    generalize step.run s = r at hok hk₁ ⊢
    obtain ⟨r, s'⟩ := r
    obtain rfl : r = .ok () := hok
    exact ih hk₁ hrest

/-- Everything the step would create is there. -/
def Step.Done (s : Schema V) : Step V → Prop
  | .createTable name _ _ => (s.tables name).isSome
  | .createIndex index => ∃ i ∈ s.indexes, i.name = index.name
  | .addMissing table column _ => s.Has table column.name

theorem Step.Done.run {step : Step V} {s : Schema V} (h : step.Done s) :
    step.run s = (.ok (), s) := by
  cases step with
  | createTable name columns constraints =>
    obtain ⟨t, ht⟩ := Option.isSome_iff_exists.mp h
    rw [Step.run, Schema.createTable, ht]
  | createIndex index =>
    have hi : ∃ i ∈ s.indexes, i.name = index.name := h
    rw [Step.run, createIndexes, Schema.createIndex, if_pos hi]
    rfl
  | addMissing table column indexes =>
    obtain ⟨t, ht, hm⟩ := h
    have hinfo : column.name ∈ s.tableInfo table := by rwa [Schema.tableInfo, ht]
    simp only [Step.run, if_pos hinfo]

theorem Step.Done.grown {step : Step V} {s s' : Schema V} (h : step.Done s)
    (hg : Grown added s s') : step.Done s' := by
  cases step with
  | createTable name columns constraints => exact hg.isSome h
  | createIndex index =>
    obtain ⟨i, hi, hn⟩ := h
    exact ⟨i, hg.indexes.subset hi, hn⟩
  | addMissing table column indexes => exact hg.has h

theorem run_done {steps : List (Step V)} {s : Schema V} (h : ∀ step ∈ steps, step.Done s) :
    run steps s = (.ok (), s) := by
  induction steps with
  | nil => rfl
  | cons step rest ih =>
    rw [run, (h step List.mem_cons_self).run]
    exact ih fun x hx => h x (List.mem_cons_of_mem _ hx)

/-- A step that ran without an error has created what it should. -/
theorem Step.run_done {step : Step V} {s : Schema V} (h : (step.run s).1 = .ok ()) :
    step.Done (step.run s).2 := by
  cases step with
  | createTable name columns constraints => exact createTable_isSome name columns constraints s
  | createIndex index =>
    simp only [Step.run, createIndexes] at h ⊢
    cases hi : s.createIndex index with
    | error e =>
      rw [hi] at h
      exact absurd h (by simp)
    | ok s' => exact (createIndex_ok hi).2.2
  | addMissing table column indexes =>
    simp only [Step.run] at h ⊢
    by_cases hhas : column.name ∈ s.tableInfo table
    · rw [if_pos hhas]
      unfold Schema.tableInfo at hhas
      cases ht : s.tables table with
      | none =>
        rw [ht] at hhas
        exact absurd hhas List.not_mem_nil
      | some t =>
        rw [ht] at hhas
        exact ⟨t, ht, hhas⟩
    · rw [if_neg hhas] at h ⊢
      cases hadd : s.addColumn table column with
      | error e =>
        rw [hadd] at h
        exact absurd h (by simp)
      | ok s' =>
        obtain ⟨_, hnew⟩ := addColumn_grown_any hadd
        have hg : Grown (fun _ _ => True) s' (createIndexes indexes s').2 :=
          createIndexes_grown indexes s'
        exact hg.has hnew

theorem run_all_done {steps : List (Step V)} {s : Schema V} (h : (run steps s).1 = .ok ()) :
    ∀ step ∈ steps, step.Done (run steps s).2 := by
  induction steps generalizing s with
  | nil => exact fun step hs => absurd hs List.not_mem_nil
  | cons step rest ih =>
    have hstep : (step.run s).1 = .ok () → step.Done (step.run s).2 := Step.run_done
    unfold run at h ⊢
    generalize step.run s = r at hstep h ⊢
    obtain ⟨r, s'⟩ := r
    cases r with
    | error e => exact absurd h (by simp)
    | ok u =>
      intro x hx
      rcases List.mem_cons.mp hx with rfl | hx
      · exact (hstep rfl).grown (run_grown rest s')
      · exact ih h x hx

theorem run_append (pre post : List (Step V)) (s : Schema V) (h : (run pre s).1 = .ok ()) :
    run (pre ++ post) s = run post (run pre s).2 := by
  induction pre generalizing s with
  | nil => rfl
  | cons step rest ih =>
    unfold run at h
    rw [List.cons_append, run, run]
    generalize step.run s = r at h ⊢
    obtain ⟨r, s'⟩ := r
    cases r with
    | error e => exact absurd h (by simp)
    | ok u => exact ih s' h

theorem run_prefix_ok {pre post : List (Step V)} {s : Schema V}
    (h : (run (pre ++ post) s).1 = .ok ()) : (run pre s).1 = .ok () := by
  induction pre generalizing s with
  | nil => rfl
  | cons step rest ih =>
    rw [List.cons_append, run] at h
    rw [run]
    generalize step.run s = r at h ⊢
    obtain ⟨r, s'⟩ := r
    cases r with
    | error e => exact absurd h (by simp)
    | ok u => exact ih h

/-- A script that wants an index on a column its table lacks, before any step
adds columns, does not run through. -/
theorem run_blocked {pre post : List (Step V)} {index : Index} {s : Schema V} {t : Table V}
    {c : String} (ht : s.tables index.table = some t) (hc : c ∈ index.columns) (hn : c ∉ t.names)
    (hadds : ∀ name c, ¬ Adds pre name c)
    (hindex : ∀ i ∈ (run pre s).2.indexes, i.name ≠ index.name) :
    (run (pre ++ .createIndex index :: post) s).1 ≠ .ok () := by
  intro h
  have hpre := run_prefix_ok h
  rw [run_append pre _ s hpre] at h
  obtain ⟨extra, hx, ha⟩ := (run_grown pre s).kept _ t ht
  have hextra : extra = [] := by
    cases extra with
    | nil => rfl
    | cons x xs => exact absurd (ha x List.mem_cons_self) (hadds _ x)
  rw [hextra, Table.extend_nil] at hx
  have hno : ¬ ∃ i ∈ (run pre s).2.indexes, i.name = index.name := by
    rintro ⟨i, hi, he⟩
    exact hindex i hi he
  have hfind : (index.columns.find? (· ∉ t.names)).isSome :=
    List.find?_isSome.mpr ⟨c, hc, by simpa using hn⟩
  obtain ⟨x, hfind⟩ := Option.isSome_iff_exists.mp hfind
  have hfails : (run pre s).2.createIndex index = .error (.noSuchColumn x) := by
    rw [Schema.createIndex, if_neg hno, hx]
    simp only [hfind]
  simp only [run, Step.run, createIndexes, hfails] at h
  exact absurd h (by simp)

end SqlSchema
