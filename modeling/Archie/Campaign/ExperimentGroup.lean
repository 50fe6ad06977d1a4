import Archie.Lib.Keyed
import Archie.Campaign.Collector
import Mathlib.Data.List.AList

/-! What the group of an experiment holds.

    The collector goes through its own list of datasets and looks each one up in the result, so a
    dataset of the result that is not on the list is not seen:

        keyword    tbinfo  tbexec      meminfo  memdumplist  memmaplist   …registers  tbfaulted
        table      tbinfo  tbexeclist  meminfo  memdumps     memory_map   …registers  tbfaulted

    A value that does not fit its column raises an exception or is changed. -/

namespace Archie.Campaign
open Python

/-- What a worker puts into the queue. -/
structure ExperimentResult where
  index : Int
  faultlist : List ConfigFault
  architecture : Option Text
  datasets : AList fun _ : Text => List Row

/-- The result as the collector's messages have it. -/
def ExperimentResult.runData (exp : ExperimentResult) : RunData where
  architecture := exp.architecture
  tbinfo := exp.datasets.lookup "tbinfo".toList
  tbexec := exp.datasets.lookup "tbexec".toList
  meminfo := exp.datasets.lookup "meminfo".toList
  memdumplist := exp.datasets.lookup "memdumplist".toList
  memmaplist := exp.datasets.lookup "memmaplist".toList
  armregisters := exp.datasets.lookup "armregisters".toList
  riscvregisters := exp.datasets.lookup "riscvregisters".toList
  aarch64registers := exp.datasets.lookup "aarch64registers".toList
  tbfaulted := exp.datasets.lookup "tbfaulted".toList
  faultlist := exp.faultlist

/-- The rows of the tables, by name; those of the dumps have their arrays with them. -/
structure ExperimentGroup where
  tables : List (Text × List Row)
  faults : List FaultRow

/-- A function of the collector for one dataset. -/
inductive ProcessFn where
  | table (name : Text) (t : Table)
  | dumps

/-- The functions and the keywords of their datasets. -/
def hdf5Datasets : List (ProcessFn × Text) :=
  [(.table "tbinfo".toList translationBlockTable, "tbinfo".toList),
    (.table "tbexeclist".toList translationBlockExecTable, "tbexec".toList),
    (.table "meminfo".toList memoryInformationTable, "meminfo".toList),
    (.dumps, "memdumplist".toList),
    (.table "memory_map".toList memmapTable, "memmaplist".toList),
    (.table "armregisters".toList armRegistersTable, "armregisters".toList),
    (.table "riscvregisters".toList riscvRegistersTable, "riscvregisters".toList),
    (.table "aarch64registers".toList aarch64RegistersTable, "aarch64registers".toList),
    (.table "tbfaulted".toList translationBlockFaultedTable, "tbfaulted".toList)]

namespace ProcessFn

def tableName : ProcessFn → Text
  | table name _ => name
  | dumps => "memdumps".toList

/-- The rows that get into the table. -/
def select : ProcessFn → List Row → List Row
  | table _ _, rows => rows
  | dumps, rows => Hdf5.newDumps [] rows

end ProcessFn

namespace Hdf5

variable (lib : Hdf5) (exp : ExperimentResult)

/-- The value that a column holds in the end. -/
def cell : Column → Int → Result Int
  | .uint bits, v => (lib.columns.store bits v).map fun n : ℕ => (n : Int)
  | .int64, v => lib.int64 v

/-- Fills the columns from the entries of a row. -/
def fill {α β : Type} (store : α → β → Result β) : List α → List β → Result (List β)
  | [], _ => .ok []
  | _ :: _, [] => .error .keyError
  | c :: cs, v :: vs => do
    let v ← store c v
    return v :: (← fill store cs vs)

def appendRow (t : Table) (r : Row) : Result Row := do
  let cells ← fill lib.cell t.columns r.cells
  let texts ← fill (fun _ => lib.text) (List.replicate t.texts ()) r.texts
  return ⟨cells, texts, []⟩

/-- The row of a table, or that of a dump together with its array. -/
def append : ProcessFn → Row → Result Row
  | .table _ t, r => lib.appendRow t r
  | .dumps, r => do
    let row ← lib.appendRow memoryDumpTable r
    lib.carray r.dumps
    return { row with dumps := r.dumps }

def process (fn : ProcessFn) (rows : List Row) : Result (List Row) := (fn.select rows).mapM (lib.append fn)

/-- The loop over the datasets of the collector. -/
def writeDatasets : List (ProcessFn × Text) → Result (List (Text × List Row))
  | [] => .ok []
  | d :: datasets =>
    match exp.datasets.lookup d.2 with
    | none => writeDatasets datasets
    | some rows => do
      let stored ← lib.process d.1 rows
      return (d.1.tableName, stored) :: (← writeDatasets datasets)

def writeGroup : Result ExperimentGroup := do
  let tables ← lib.writeDatasets exp hdf5Datasets
  let faultlist ← exp.faultlist.mapM intFault
  let faults ← processFaults lib.columns faultlist
  return ⟨tables, faults⟩

/-- Numbers are kept where they fit, other numbers are not; a text that was kept once is kept again. -/
structure Lawful : Prop where
  int64_of_fits : ∀ v : Int, -2 ^ 63 ≤ v → v < 2 ^ 63 → lib.int64 v = .ok v
  fits_of_int64 : ∀ v w : Int, lib.int64 v = .ok w → -2 ^ 63 ≤ w ∧ w < 2 ^ 63
  text_text : ∀ t t' : Text, lib.text t = .ok t' → lib.text t' = .ok t'

end Hdf5

/-! ### What a group should hold -/

namespace ExperimentGroup

variable (group : ExperimentGroup) (exp : ExperimentResult)

def ShowsFaults : Prop :=
  List.Forall₂ (fun f row => ∃ g, Hdf5.intFault f = .ok g ∧ row.Shows g) exp.faultlist group.faults

/-- Every row of every dataset is in the table of the dataset, every fault has its row. -/
@[mk_iff]
structure Contains : Prop where
  datasets : ∀ keyword rows, exp.datasets.lookup keyword = some rows → ∃ fn,
    (fn, keyword) ∈ hdf5Datasets ∧ ∃ stored, (fn.tableName, stored) ∈ group.tables ∧ rows ⊆ stored
  faults : group.ShowsFaults exp

/-- The tables are the datasets, row by row. -/
@[mk_iff]
structure Equals : Prop where
  datasets : ∀ keyword rows, exp.datasets.lookup keyword = some rows → ∃ fn,
    (fn, keyword) ∈ hdf5Datasets ∧ (fn.tableName, rows) ∈ group.tables
  faults : group.ShowsFaults exp

end ExperimentGroup

/-! ### What fits -/

def Column.Fits : Column → Int → Prop
  | .uint bits, v => 0 ≤ v ∧ v < 2 ^ bits
  | .int64, v => -2 ^ 63 ≤ v ∧ v < 2 ^ 63

instance : ∀ (c : Column) (v : Int), Decidable (c.Fits v)
  | .uint _, _ => inferInstanceAs (Decidable (_ ∧ _))
  | .int64, _ => inferInstanceAs (Decidable (_ ∧ _))

namespace Hdf5

variable (lib : Hdf5)

/-- The row has a number for each column, which fits, and texts that are kept. -/
structure RowFits (t : Table) (r : Row) : Prop where
  cells : List.Forall₂ Column.Fits t.columns r.cells
  texts : List.Forall₂ (fun _ text => lib.text text = .ok text) (List.replicate t.texts ()) r.texts

/-- A dump needs an array besides. -/
def Fits : ProcessFn → Row → Prop
  | .table _ t, r => lib.RowFits t r ∧ r.dumps = []
  | .dumps, r => lib.RowFits memoryDumpTable r ∧ lib.carray r.dumps = .ok ()

/-- The address and the mask of a fault are numbers, and all its numbers fit. -/
def FaultFitsTable (f : ConfigFault) : Prop :=
  ∃ g, intFault f = .ok g ∧ FitsTable g ∧ g.mask < 2 ^ 128

/-- Everything fits that the collector looks at. -/
structure ResultFits (exp : ExperimentResult) : Prop where
  datasets : ∀ d ∈ hdf5Datasets, ∀ rows, exp.datasets.lookup d.2 = some rows →
    ∀ r ∈ rows, lib.Fits d.1 r
  faults : ∀ f ∈ exp.faultlist, FaultFitsTable f

/-! ### One row -/

variable {lib} {c : Column} {v w : Int} {t : Table} {r r' : Row} {fn : ProcessFn} {rows stored : List Row}

/-- What a column holds fits it. -/
theorem Lawful.fits (hlib : lib.Lawful) (h : lib.cell c v = .ok w) : c.Fits w := by
  cases c with
  | uint bits =>
    rw [cell] at h
    rcases hstore : lib.columns.store bits v with e | n
    · rw [hstore] at h
      cases h
    · rw [hstore] at h
      obtain rfl := Except.ok.inj h
      have hlt : (n : Int) < 2 ^ bits := by exact_mod_cast lib.columns.store_lt bits v n hstore
      exact ⟨Int.natCast_nonneg n, hlt⟩
  | int64 => exact hlib.fits_of_int64 v w h

theorem Lawful.cell_ok (hlib : lib.Lawful) (h : c.Fits v) : lib.cell c v = .ok v := by
  cases c with
  | uint bits =>
    obtain ⟨n, rfl⟩ := Int.eq_ofNat_of_zero_le h.1
    rw [cell, lib.columns.store_natCast bits n (by exact_mod_cast h.2)]
    rfl
  | int64 => exact hlib.int64_of_fits v h.1 h.2

theorem fill_ok {α β : Type} {store : α → β → Result β} {P : α → β → Prop}
    (hstore : ∀ c v w, store c v = .ok w → P c w) :
    ∀ {cs : List α} {vs ws : List β}, fill store cs vs = .ok ws → List.Forall₂ P cs ws
  | [], vs, ws, h => by
    obtain rfl := Except.ok.inj h
    exact .nil
  | c :: cs, [], ws, h => by cases h
  | c :: cs, v :: vs, ws, h => by
    obtain ⟨w, hw, h⟩ := bind_eq_ok.mp h
    obtain ⟨ws', hws', h⟩ := bind_eq_ok.mp h
    obtain rfl := Except.ok.inj h
    exact .cons (hstore c v w hw) (fill_ok hstore hws')

theorem fill_self {α β : Type} {store : α → β → Result β} {cs : List α} {vs : List β}
    (h : List.Forall₂ (fun c v => store c v = .ok v) cs vs) : fill store cs vs = .ok vs := by
  induction h with
  | nil => rfl
  | cons hv _ ih => exact bind_eq_ok.mpr ⟨_, hv, bind_eq_ok.mpr ⟨_, ih, rfl⟩⟩

theorem Lawful.appendRow_ok (hlib : lib.Lawful) (h : lib.appendRow t r = .ok r') :
    lib.RowFits t r' ∧ r'.dumps = [] := by
  obtain ⟨cells, hcells, h⟩ := bind_eq_ok.mp h
  obtain ⟨texts, htexts, h⟩ := bind_eq_ok.mp h
  obtain rfl := Except.ok.inj h
  refine ⟨⟨?_, ?_⟩, rfl⟩
  · exact fill_ok (P := Column.Fits) (fun _ _ _ hw => hlib.fits hw) hcells
  · exact fill_ok (fun _ text text' => hlib.text_text text text') htexts

theorem Lawful.appendRow_self (hlib : lib.Lawful) (h : lib.RowFits t r) :
    lib.appendRow t r = .ok { r with dumps := [] } :=
  bind_eq_ok.mpr ⟨r.cells, fill_self (h.cells.imp fun _ _ => hlib.cell_ok),
    bind_eq_ok.mpr ⟨r.texts, fill_self h.texts, rfl⟩⟩

/-- What the file holds fits. -/
theorem Lawful.append_ok (hlib : lib.Lawful) (h : lib.append fn r = .ok r') : lib.Fits fn r' := by
  cases fn with
  | table name t => exact hlib.appendRow_ok h
  | dumps =>
    obtain ⟨row, hrow, h⟩ := bind_eq_ok.mp h
    obtain ⟨⟨⟩, harray, h⟩ := bind_eq_ok.mp h
    obtain rfl := Except.ok.inj h
    exact ⟨⟨(hlib.appendRow_ok hrow).1.cells, (hlib.appendRow_ok hrow).1.texts⟩, harray⟩

/-- What fits gets into the file as it is. -/
theorem Lawful.append_self (hlib : lib.Lawful) (h : lib.Fits fn r) : lib.append fn r = .ok r := by
  cases fn with
  | table name t =>
    have hrow := hlib.appendRow_self h.1
    rw [← h.2] at hrow
    exact hrow
  | dumps => exact bind_eq_ok.mpr ⟨_, hlib.appendRow_self h.1, bind_eq_ok.mpr ⟨(), h.2, rfl⟩⟩

/-! ### One dataset -/

theorem newDumps_sublist : ∀ (names : List (List Int)) (rows : List Row), (newDumps names rows).Sublist rows
  | _, [] => .slnil
  | names, r :: rows => by
    rw [newDumps]
    split
    · exact (newDumps_sublist names rows).cons r
    · exact (newDumps_sublist _ rows).cons_cons r

theorem select_sublist : (fn.select rows).Sublist rows := by
  cases fn with
  | table name t => exact List.Sublist.refl rows
  | dumps => exact newDumps_sublist [] rows

theorem Lawful.process_fits (hlib : lib.Lawful) (h : lib.process fn rows = .ok stored) :
    ∀ r ∈ stored, lib.Fits fn r := by
  intro r hr
  obtain ⟨r₀, -, hr₀⟩ := (mem_mapM h).mp hr
  exact hlib.append_ok hr₀

theorem Lawful.process_self (hlib : lib.Lawful) (h : ∀ r ∈ rows, lib.Fits fn r) :
    lib.process fn rows = .ok (fn.select rows) :=
  mapM_eq_ok.mpr (List.forall₂_same.mpr fun _ hr => hlib.append_self (h _ (select_sublist.subset hr)))

/-- The rows of a dataset are in its table iff they fit and none of them is left out. -/
theorem Lawful.process_subset_iff (hlib : lib.Lawful) :
    (∃ stored, lib.process fn rows = .ok stored ∧ rows ⊆ stored) ↔
      (∀ r ∈ rows, lib.Fits fn r) ∧ rows ⊆ fn.select rows := by
  constructor
  · rintro ⟨stored, hstored, hsub⟩
    have hfits : ∀ r ∈ rows, lib.Fits fn r := fun r hr => hlib.process_fits hstored r (hsub hr)
    rw [hlib.process_self hfits] at hstored
    obtain rfl := Except.ok.inj hstored
    exact ⟨hfits, hsub⟩
  · rintro ⟨hfits, hsub⟩
    exact ⟨fn.select rows, hlib.process_self hfits, hsub⟩

theorem Lawful.process_eq_iff (hlib : lib.Lawful) :
    lib.process fn rows = .ok rows ↔ (∀ r ∈ rows, lib.Fits fn r) ∧ fn.select rows = rows := by
  constructor
  · intro hstored
    have hfits := hlib.process_fits hstored
    rw [hlib.process_self hfits] at hstored
    exact ⟨hfits, Except.ok.inj hstored⟩
  · rintro ⟨hfits, hselect⟩
    rw [hlib.process_self hfits, hselect]

/-! ### All datasets -/

variable {exp : ExperimentResult} {datasets : List (ProcessFn × Text)} {tables : List (Text × List Row)}

theorem writeDatasets_total_iff : (∃ tables, lib.writeDatasets exp datasets = .ok tables) ↔
    ∀ d ∈ datasets, ∀ rows, exp.datasets.lookup d.2 = some rows →
      ∃ stored, lib.process d.1 rows = .ok stored := by
  induction datasets with
  | nil => exact iff_of_true ⟨[], rfl⟩ fun d hd => absurd hd List.not_mem_nil
  | cons d datasets ih =>
    rw [List.forall_mem_cons, ← ih, writeDatasets]
    cases hd : exp.datasets.lookup d.2 with
    | none =>
      exact ⟨fun h => ⟨nofun, h⟩, fun h => h.2⟩
    | some rows =>
      constructor
      · rintro ⟨tables, h⟩
        obtain ⟨stored, hstored, h⟩ := bind_eq_ok.mp h
        obtain ⟨tables', htables', -⟩ := bind_eq_ok.mp h
        exact ⟨fun rows' hrows' => Option.some.inj hrows' ▸ ⟨stored, hstored⟩, tables', htables'⟩
      · rintro ⟨hstored, tables, htables⟩
        obtain ⟨stored, hstored⟩ := hstored rows rfl
        exact ⟨_, bind_eq_ok.mpr ⟨stored, hstored, bind_eq_ok.mpr ⟨tables, htables, rfl⟩⟩⟩

/-- The tables are the datasets that are there, under the names of their tables. -/
theorem mem_writeDatasets {name : Text} : ∀ {datasets : List (ProcessFn × Text)}
    {tables : List (Text × List Row)}, lib.writeDatasets exp datasets = .ok tables →
    ((name, stored) ∈ tables ↔ ∃ d ∈ datasets, d.1.tableName = name ∧
      ∃ rows, exp.datasets.lookup d.2 = some rows ∧ lib.process d.1 rows = .ok stored)
  | [], tables, h => by
    obtain rfl := Except.ok.inj h
    simp
  | d :: datasets, tables, h => by
    rw [writeDatasets] at h
    cases hd : exp.datasets.lookup d.2 with
    | none =>
      rw [hd] at h
      simp [mem_writeDatasets h, hd]
    | some rows =>
      rw [hd] at h
      obtain ⟨stored', hstored', h⟩ := bind_eq_ok.mp h
      obtain ⟨tables', htables', h⟩ := bind_eq_ok.mp h
      obtain rfl := Except.ok.inj h
      rw [List.mem_cons, mem_writeDatasets htables', Prod.mk.injEq]
      simp only [List.exists_mem_cons_iff, hd, Option.some.injEq, exists_eq_left', hstored',
        Except.ok.injEq]
      tauto

theorem faults_shown_iff {c : Columns} {faultlist : List ConfigFault} :
    (∃ fs, faultlist.mapM intFault = .ok fs ∧ ∃ rows, processFaults c fs = .ok rows ∧
      List.Forall₂ (fun f row => ∃ g, intFault f = .ok g ∧ row.Shows g) faultlist rows) ↔
      ∀ f ∈ faultlist, FaultFitsTable f := by
  simp only [FaultFitsTable, ← processFault_shows_iff (c := c), processFaults]
  induction faultlist with
  | nil => exact iff_of_true ⟨[], rfl, [], rfl, .nil⟩ fun f hf => absurd hf List.not_mem_nil
  | cons f faultlist ih =>
    rw [List.forall_mem_cons, ← ih]
    simp only [mapM_eq_ok, List.forall₂_cons_left_iff]
    constructor
    · rintro ⟨_, ⟨g, gs, hg, hgs, rfl⟩, rows, hrows, row', rows', ⟨g', hg', hshows⟩, hshown, rfl⟩
      obtain rfl := Except.ok.inj (hg.symm.trans hg')
      obtain ⟨hrow, hrest⟩ := List.forall₂_cons.mp hrows
      exact ⟨⟨g, hg, row', hrow, hshows⟩, gs, hgs, rows', hrest, hshown⟩
    · rintro ⟨⟨g, hg, row, hrow, hshows⟩, gs, hgs, rows, hrows, hshown⟩
      exact ⟨g :: gs, ⟨g, gs, hg, hgs, rfl⟩, row :: rows, .cons hrow hrows, row, rows, ⟨g, hg, hshows⟩,
        hshown, rfl⟩

/-! ### The group -/

theorem writeGroup_eq_ok {group : ExperimentGroup} : lib.writeGroup exp = .ok group ↔
    lib.writeDatasets exp hdf5Datasets = .ok group.tables ∧
      ∃ fs, exp.faultlist.mapM intFault = .ok fs ∧ processFaults lib.columns fs = .ok group.faults := by
  constructor
  · intro h
    obtain ⟨tables, htables, h⟩ := bind_eq_ok.mp h
    obtain ⟨fs, hfs, h⟩ := bind_eq_ok.mp h
    obtain ⟨faults, hfaults, h⟩ := bind_eq_ok.mp h
    obtain rfl := Except.ok.inj h
    exact ⟨htables, fs, hfs, hfaults⟩
  · rintro ⟨htables, fs, hfs, hfaults⟩
    exact bind_eq_ok.mpr ⟨_, htables, bind_eq_ok.mpr ⟨fs, hfs, bind_eq_ok.mpr ⟨_, hfaults, rfl⟩⟩⟩

/-- The collector looks at every dataset of the result. -/
def Known (exp : ExperimentResult) : Prop := ∀ keyword ∈ exp.datasets, keyword ∈ hdf5Datasets.map Prod.snd

theorem nodup_keywords : (hdf5Datasets.map Prod.snd).Nodup := by decide

theorem nodup_tableNames : (hdf5Datasets.map fun d => d.1.tableName).Nodup := by decide

/-- A table holds its dataset. -/
theorem mem_tables (htables : lib.writeDatasets exp hdf5Datasets = .ok tables) {keyword : Text}
    (hfn : (fn, keyword) ∈ hdf5Datasets) (hrows : exp.datasets.lookup keyword = some rows) :
    (fn.tableName, stored) ∈ tables ↔ lib.process fn rows = .ok stored := by
  rw [mem_writeDatasets htables]
  constructor
  · rintro ⟨d, hd, hname, rows', hrows', hstored⟩
    obtain rfl : d = (fn, keyword) := Keyed.eq_of_key nodup_tableNames hd hfn hname
    rw [hrows] at hrows'
    rwa [Option.some.inj hrows']
  · exact fun hstored => ⟨_, hfn, rfl, rows, hrows, hstored⟩

/-- What can be said of the tables of the known datasets, one by one. -/
theorem tables_iff {P : List Row → List Row → Prop} :
    (∃ tables, lib.writeDatasets exp hdf5Datasets = .ok tables ∧
      ∀ keyword rows, exp.datasets.lookup keyword = some rows → ∃ fn, (fn, keyword) ∈ hdf5Datasets ∧
        ∃ stored, (fn.tableName, stored) ∈ tables ∧ P rows stored) ↔
      Known exp ∧ ∀ d ∈ hdf5Datasets, ∀ rows, exp.datasets.lookup d.2 = some rows →
        ∃ stored, lib.process d.1 rows = .ok stored ∧ P rows stored := by
  constructor
  · rintro ⟨tables, htables, hall⟩
    constructor
    · intro keyword hkeyword
      obtain ⟨rows, hrows⟩ := Option.isSome_iff_exists.mp (AList.lookup_isSome.mpr hkeyword)
      obtain ⟨fn, hfn, -⟩ := hall keyword rows hrows
      exact List.mem_map_of_mem hfn
    · rintro ⟨fn', keyword⟩ hd rows hrows
      obtain ⟨fn, hfn, stored, hstored, hP⟩ := hall keyword rows hrows
      obtain ⟨rfl, -⟩ := Prod.mk.inj (Keyed.eq_of_key nodup_keywords hfn hd rfl)
      exact ⟨stored, (mem_tables htables hfn hrows).mp hstored, hP⟩
  · rintro ⟨hknown, hall⟩
    obtain ⟨tables, htables⟩ := writeDatasets_total_iff.mpr fun d hd rows hrows =>
      (hall d hd rows hrows).imp fun stored h => h.1
    refine ⟨tables, htables, fun keyword rows hrows => ?_⟩
    have hkeyword : keyword ∈ exp.datasets := AList.lookup_isSome.mp (hrows ▸ rfl)
    obtain ⟨⟨fn, _⟩, hfn, rfl⟩ := List.mem_map.mp (hknown keyword hkeyword)
    obtain ⟨stored, hstored, hP⟩ := hall _ hfn rows hrows
    exact ⟨fn, hfn, stored, (mem_tables htables hfn hrows).mpr hstored, hP⟩

theorem group_iff {P : List Row → List Row → Prop} :
    (∃ group, lib.writeGroup exp = .ok group ∧ (∀ keyword rows, exp.datasets.lookup keyword = some rows →
      ∃ fn, (fn, keyword) ∈ hdf5Datasets ∧ ∃ stored, (fn.tableName, stored) ∈ group.tables ∧
        P rows stored) ∧ group.ShowsFaults exp) ↔
      Known exp ∧ (∀ d ∈ hdf5Datasets, ∀ rows, exp.datasets.lookup d.2 = some rows →
        ∃ stored, lib.process d.1 rows = .ok stored ∧ P rows stored) ∧
      ∀ f ∈ exp.faultlist, FaultFitsTable f := by
  rw [← and_assoc, ← tables_iff, ← faults_shown_iff (c := lib.columns)]
  constructor
  · rintro ⟨group, hgroup, hdatasets, hfaults⟩
    obtain ⟨htables, fs, hfs, hrows⟩ := writeGroup_eq_ok.mp hgroup
    exact ⟨⟨group.tables, htables, hdatasets⟩, fs, hfs, group.faults, hrows, hfaults⟩
  · rintro ⟨⟨tables, htables, hdatasets⟩, fs, hfs, rows, hrows, hfaults⟩
    exact ⟨⟨tables, rows⟩, writeGroup_eq_ok.mpr ⟨htables, fs, hfs, hrows⟩, hdatasets, hfaults⟩

/-- What is asked of the dumps is true of the other tables. -/
theorem forall_select_iff {P : List Row → List Row → Prop} (hrefl : ∀ rows, P rows rows) :
    (∀ d ∈ hdf5Datasets, ∀ rows, exp.datasets.lookup d.2 = some rows → P rows (d.1.select rows)) ↔
      ∀ rows, exp.datasets.lookup "memdumplist".toList = some rows → P rows (newDumps [] rows) := by
  simp only [hdf5Datasets, List.forall_mem_cons, ProcessFn.select, hrefl, implies_true,
    List.not_mem_nil, IsEmpty.forall_iff, true_and, and_true]

theorem fits_select_iff {P : List Row → List Row → Prop} (hrefl : ∀ rows, P rows rows) :
    (∀ d ∈ hdf5Datasets, ∀ rows, exp.datasets.lookup d.2 = some rows →
      (∀ r ∈ rows, lib.Fits d.1 r) ∧ P rows (d.1.select rows)) ∧
      (∀ f ∈ exp.faultlist, FaultFitsTable f) ↔ lib.ResultFits exp ∧
        ∀ rows, exp.datasets.lookup "memdumplist".toList = some rows → P rows (newDumps [] rows) := by
  rw [← forall_select_iff hrefl]
  constructor
  · rintro ⟨hall, hfaults⟩
    exact ⟨⟨fun d hd rows h => (hall d hd rows h).1, hfaults⟩, fun d hd rows h => (hall d hd rows h).2⟩
  · rintro ⟨hfits, hselect⟩
    exact ⟨fun d hd rows h => ⟨hfits.datasets d hd rows h, hselect d hd rows h⟩, hfits.faults⟩

/-- The group holds the whole result iff its keywords are known, its values fit and the dumps that are
    left out are there a second time. -/
theorem Lawful.contains_iff (hlib : lib.Lawful) :
    (∃ group, lib.writeGroup exp = .ok group ∧ group.Contains exp) ↔ Known exp ∧ lib.ResultFits exp ∧
      ∀ rows, exp.datasets.lookup "memdumplist".toList = some rows → rows ⊆ newDumps [] rows := by
  rw [← fits_select_iff (P := fun rows stored => rows ⊆ stored) List.Subset.refl]
  simp only [← hlib.process_subset_iff, ExperimentGroup.contains_iff]
  exact group_iff

/-- The tables are the datasets iff, besides, no dump is left out. -/
theorem Lawful.equals_iff (hlib : lib.Lawful) :
    (∃ group, lib.writeGroup exp = .ok group ∧ group.Equals exp) ↔ Known exp ∧ lib.ResultFits exp ∧
      ∀ rows, exp.datasets.lookup "memdumplist".toList = some rows → newDumps [] rows = rows := by
  rw [← fits_select_iff (P := fun rows stored => stored = rows) fun _ => rfl]
  have hgroup := @group_iff lib exp fun rows stored => stored = rows
  simp only [exists_eq_right] at hgroup
  simp only [← hlib.process_eq_iff, ExperimentGroup.equals_iff]
  exact hgroup

/-- No two entries have one name: then every entry has an array of its own. -/
theorem newDumps_eq_self_iff : ∀ {names : List (List Int)} {rows : List Row}, newDumps names rows = rows ↔
    (rows.map fun r => r.cells.take 3).Nodup ∧ ∀ r ∈ rows, r.cells.take 3 ∉ names
  | names, [] => by simp [newDumps]
  | names, r :: rows => by
    rw [newDumps, List.map_cons, List.nodup_cons, List.forall_mem_cons]
    split
    · next hr =>
      refine iff_of_false (fun h => ?_) fun h => h.2.1 hr
      have hle := (newDumps_sublist names rows).length_le
      rw [h, List.length_cons] at hle
      omega
    · next hr =>
      rw [List.cons.injEq, newDumps_eq_self_iff]
      simp only [true_and, List.mem_map, List.mem_cons, not_or, not_exists, not_and, hr,
        not_false_eq_true]
      constructor
      · rintro ⟨hnodup, hnew⟩
        exact ⟨⟨fun r' hr' => (hnew r' hr').1, hnodup⟩, fun r' hr' => (hnew r' hr').2⟩
      · rintro ⟨⟨hfresh, hnodup⟩, hnew⟩
        exact ⟨hnodup, fun r' hr' => ⟨hfresh r' hr', hnew r' hr'⟩⟩

/-! ### The step of the collector -/

theorem storeCell_eq_ok : lib.storeCell c v = .ok () ↔ ∃ w, lib.cell c v = .ok w := by
  cases c with
  | uint bits =>
    rw [storeCell, cell]
    cases lib.columns.store bits v <;> simp [Except.map]
  | int64 =>
    rw [storeCell, cell]
    cases lib.int64 v <;> simp [Except.map]

theorem storeText_eq_ok {text : Text} : lib.storeText text = .ok () ↔ ∃ t, lib.text text = .ok t := by
  rw [storeText]
  cases lib.text text <;> simp [Except.map]

theorem fill_total_iff {α β : Type} {store : α → β → Result β} {storeUnit : α → β → Result Unit}
    (hunit : ∀ c v, storeUnit c v = .ok () ↔ ∃ w, store c v = .ok w) :
    ∀ {cs : List α} {vs : List β}, (∃ ws, fill store cs vs = .ok ws) ↔ storeRow storeUnit cs vs = .ok ()
  | [], _ => iff_of_true ⟨[], rfl⟩ rfl
  | _ :: _, [] => iff_of_false nofun nofun
  | c :: cs, v :: vs => by
    rw [storeRow, seq_eq_ok, hunit, ← fill_total_iff hunit]
    constructor
    · rintro ⟨ws, h⟩
      obtain ⟨w, hw, h⟩ := bind_eq_ok.mp h
      obtain ⟨ws', hws', -⟩ := bind_eq_ok.mp h
      exact ⟨⟨w, hw⟩, ws', hws'⟩
    · rintro ⟨⟨w, hw⟩, ws, hws⟩
      exact ⟨_, bind_eq_ok.mpr ⟨w, hw, bind_eq_ok.mpr ⟨ws, hws, rfl⟩⟩⟩

theorem appendRow_total_iff : (∃ r', lib.appendRow t r = .ok r') ↔ lib.processTable t [r] = .ok () := by
  rw [processTable, forM_eq_ok, List.forall_mem_singleton, seq_eq_ok,
    ← fill_total_iff fun _ _ => storeCell_eq_ok,
    ← @fill_total_iff Unit Text (fun _ => lib.text) _ fun _ _ => storeText_eq_ok]
  constructor
  · rintro ⟨r', h⟩
    obtain ⟨cells, hcells, h⟩ := bind_eq_ok.mp h
    obtain ⟨texts, htexts, -⟩ := bind_eq_ok.mp h
    exact ⟨⟨cells, hcells⟩, texts, htexts⟩
  · rintro ⟨⟨cells, hcells⟩, texts, htexts⟩
    exact ⟨_, bind_eq_ok.mpr ⟨cells, hcells, bind_eq_ok.mpr ⟨texts, htexts, rfl⟩⟩⟩

theorem process_table_total_iff {name : Text} :
    (∃ stored, lib.process (.table name t) rows = .ok stored) ↔ lib.processTable t rows = .ok () := by
  rw [process, mapM_total_iff, processTable, forM_eq_ok]
  refine forall₂_congr fun r _ => appendRow_total_iff.trans ?_
  rw [processTable, forM_eq_ok, List.forall_mem_singleton]

theorem process_dumps_total_iff :
    (∃ stored, lib.process .dumps rows = .ok stored) ↔ lib.processDumps rows = .ok () := by
  rw [process, mapM_total_iff, processDumps, forM_eq_ok]
  refine forall₂_congr fun r _ => ?_
  rw [seq_eq_ok, ← appendRow_total_iff]
  constructor
  · rintro ⟨r', h⟩
    obtain ⟨row, hrow, h⟩ := bind_eq_ok.mp h
    obtain ⟨⟨⟩, harray, -⟩ := bind_eq_ok.mp h
    exact ⟨⟨row, hrow⟩, harray⟩
  · rintro ⟨⟨row, hrow⟩, harray⟩
    exact ⟨_, bind_eq_ok.mpr ⟨row, hrow, bind_eq_ok.mpr ⟨(), harray, rfl⟩⟩⟩

/-- The collector goes on after a result iff the group can be written. -/
theorem logRun_runData_iff : lib.logRun exp.runData = .ok () ↔ ∃ group, lib.writeGroup exp = .ok group := by
  have hgroup : (∃ group, lib.writeGroup exp = .ok group) ↔
      (∃ tables, lib.writeDatasets exp hdf5Datasets = .ok tables) ∧
        ∃ fs, exp.faultlist.mapM intFault = .ok fs ∧ ∃ rows, processFaults lib.columns fs = .ok rows := by
    simp only [writeGroup_eq_ok]
    constructor
    · rintro ⟨group, htables, fs, hfs, hrows⟩
      exact ⟨⟨group.tables, htables⟩, fs, hfs, group.faults, hrows⟩
    · rintro ⟨⟨tables, htables⟩, fs, hfs, rows, hrows⟩
      exact ⟨⟨tables, rows⟩, htables, fs, hfs, hrows⟩
  rw [hgroup, writeDatasets_total_iff, faults_eq_ok, logRun]
  simp only [seq_eq_ok, processDataset_eq_ok, logFaults_eq_ok, hdf5Datasets, List.forall_mem_cons,
    process_table_total_iff, process_dumps_total_iff, processTbinfo, processTbexec, processMemoryInfo,
    processMemmap, processArmRegisters, processRiscvRegisters, processAarch64Registers, processTbFaulted,
    ExperimentResult.runData, List.not_mem_nil, IsEmpty.forall_iff, implies_true, and_true, and_assoc]

end Hdf5

end Archie.Campaign
