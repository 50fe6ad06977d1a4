import Archie.Campaign.Logger

/-! The collector of a campaign with a golden run.

    Each message takes one step of the loop condition: an experiment counts down, the others clear
    their flag. So the loop ends with the last message, if all are there and can be written. -/

namespace Archie.Campaign
open Python

/-! ### Statements that raise nothing -/

theorem seq_eq_ok {x y : Result Unit} : (x >>= fun _ => y) = .ok () ↔ x = .ok () ∧ y = .ok () := by
  refine bind_eq_ok.trans ⟨?_, ?_⟩
  · rintro ⟨⟨⟩, hx, hy⟩
    exact ⟨hx, hy⟩
  · rintro ⟨hx, hy⟩
    exact ⟨(), hx, hy⟩

theorem forM_eq_ok {α : Type} {f : α → Result Unit} : ∀ {l : List α},
    l.forM f = .ok () ↔ ∀ x ∈ l, f x = .ok ()
  | [] => iff_of_true rfl fun x hx => absurd hx List.not_mem_nil
  | x :: l => by
    have hcons : (x :: l).forM f = f x >>= fun _ => l.forM f := rfl
    rw [hcons, seq_eq_ok, List.forall_mem_cons, forM_eq_ok]

theorem mapM_total_iff {α β : Type} {f : α → Result β} : ∀ {l : List α},
    (∃ r, l.mapM f = .ok r) ↔ ∀ x ∈ l, ∃ y, f x = .ok y
  | [] => iff_of_true ⟨[], rfl⟩ fun x hx => absurd hx List.not_mem_nil
  | x :: l => by
    rw [List.forall_mem_cons, ← mapM_total_iff]
    simp only [mapM_eq_ok, List.forall₂_cons_left_iff]
    constructor
    · rintro ⟨_, y, ys, hy, hys, rfl⟩
      exact ⟨⟨y, hy⟩, ys, hys⟩
    · rintro ⟨⟨y, hy⟩, ys, hys⟩
      exact ⟨y :: ys, y, ys, hy, hys, rfl⟩

namespace Hdf5

variable {lib : Hdf5}

/-! ### What can be written -/

/-- The numbers and texts of the rows are there and the library takes them. -/
def TableFits (lib : Hdf5) (t : Table) (rows : List Row) : Prop :=
  ∀ r ∈ rows, t.columns.length ≤ r.cells.length ∧ t.texts ≤ r.texts.length ∧
    (∀ p ∈ t.columns.zip r.cells, lib.storeCell p.1 p.2 = .ok ()) ∧
    ∀ text ∈ r.texts.take t.texts, lib.storeText text = .ok ()

/-- The address and the mask of a fault are numbers and the library takes all its numbers. -/
def FaultFits (lib : Hdf5) (f : ConfigFault) : Prop :=
  ∃ (address : Int) (mask : ℕ), f.address = .int address ∧ f.mask = .int mask ∧
    ∀ p ∈ [(64, f.trigger.address), (64, (f.trigger.hitcounter : Int)), (64, address),
      (8, (f.type : Int)), (8, (f.model : Int)), (64, f.lifespan),
      (64, (((mask >>> 64) &&& (2 ^ 64 - 1) : ℕ) : Int)), (64, ((mask &&& (2 ^ 64 - 1) : ℕ) : Int)),
      (8, (f.numBytes : Int))], ∃ n, lib.columns.store p.1 p.2 = .ok n

structure RunFits (lib : Hdf5) (d : RunData) : Prop where
  tables : ∀ p ∈ [(translationBlockTable, d.tbinfo), (translationBlockExecTable, d.tbexec),
    (memoryInformationTable, d.meminfo), (memmapTable, d.memmaplist),
    (armRegistersTable, d.armregisters), (riscvRegistersTable, d.riscvregisters),
    (aarch64RegistersTable, d.aarch64registers), (translationBlockFaultedTable, d.tbfaulted)],
    ∀ rows, p.2 = some rows → lib.TableFits p.1 rows
  dumps : ∀ rows, d.memdumplist = some rows → lib.TableFits memoryDumpTable (newDumps [] rows) ∧
    ∀ r ∈ newDumps [] rows, lib.carray r.dumps = .ok ()
  faults : ∀ f ∈ d.faultlist, lib.FaultFits f

structure ConfigFits (lib : Hdf5) (config : QemuConfig) : Prop where
  texts : ∀ t ∈ config.hash ++ [config.hashFunction, config.qemu, config.kernel, config.plugin,
    config.machine, config.additionalQemuArgs, config.bios], lib.storeText t = .ok ()
  limit : lib.storeCell (.uint 64) config.maxInstructionCount = .ok ()
  addresses : ∀ p ∈ config.start.toList ++ config.end_.getD [],
    lib.storeCell (.uint 64) p.1 = .ok () ∧ lib.storeCell (.uint 64) p.2 = .ok ()

theorem storeRow_eq_ok {α β : Type} {store : α → β → Result Unit} : ∀ {cs : List α} {vs : List β},
    storeRow store cs vs = .ok () ↔
      cs.length ≤ vs.length ∧ ∀ p ∈ cs.zip vs, store p.1 p.2 = .ok ()
  | [], vs => iff_of_true rfl ⟨Nat.zero_le _, fun p hp => by simp at hp⟩
  | c :: cs, [] => iff_of_false nofun fun h => absurd h.1 (Nat.not_succ_le_zero _)
  | c :: cs, v :: vs => by
    rw [storeRow, seq_eq_ok, storeRow_eq_ok, List.zip_cons_cons, List.forall_mem_cons,
      List.length_cons, List.length_cons, Nat.succ_le_succ_iff]
    exact and_left_comm

theorem storeTexts_eq_ok : ∀ {n : ℕ} {texts : List Text},
    storeRow (fun _ => lib.storeText) (List.replicate n ()) texts = .ok () ↔
      n ≤ texts.length ∧ ∀ text ∈ texts.take n, lib.storeText text = .ok ()
  | 0, texts => iff_of_true rfl ⟨Nat.zero_le _, fun t ht => absurd ht List.not_mem_nil⟩
  | n + 1, [] => iff_of_false nofun fun h => absurd h.1 (Nat.not_succ_le_zero _)
  | n + 1, t :: texts => by
    rw [List.replicate_succ, storeRow, seq_eq_ok, storeTexts_eq_ok, List.take_succ_cons,
      List.forall_mem_cons, List.length_cons, Nat.succ_le_succ_iff]
    exact and_left_comm

theorem processTable_eq_ok {t : Table} {rows : List Row} :
    lib.processTable t rows = .ok () ↔ lib.TableFits t rows := by
  rw [processTable, forM_eq_ok]
  refine forall₂_congr fun r _ => ?_
  rw [seq_eq_ok, storeRow_eq_ok, storeTexts_eq_ok]
  tauto

theorem processDataset_eq_ok {fn : List Row → Result Unit} : ∀ {rows : Option (List Row)},
    processDataset fn rows = .ok () ↔ ∀ r, rows = some r → fn r = .ok ()
  | none => iff_of_true rfl nofun
  | some rows => ⟨fun h _ hr => Option.some.inj hr ▸ h, fun h => h rows rfl⟩

theorem processDumps_eq_ok {rows : List Row} : lib.processDumps rows = .ok () ↔
    lib.TableFits memoryDumpTable (newDumps [] rows) ∧
      ∀ r ∈ newDumps [] rows, lib.carray r.dumps = .ok () := by
  rw [processDumps, forM_eq_ok, TableFits, ← forall₂_and]
  refine forall₂_congr fun r _ => ?_
  rw [seq_eq_ok, processTable_eq_ok, TableFits, List.forall_mem_singleton]

theorem fault_eq_ok {f : ConfigFault} : (∃ g, intFault f = .ok g ∧
    ∃ row, processFault lib.columns g = .ok row) ↔ lib.FaultFits f := by
  have hrow : ∀ g : IntFault, (∃ row, processFault lib.columns g = .ok row) ↔
      ∀ p ∈ [(64, g.trigger.address), (64, (g.trigger.hitcounter : Int)), (64, g.address),
        (8, (g.type : Int)), (8, (g.model : Int)), (64, g.lifespan),
        (64, (((g.mask >>> 64) &&& (2 ^ 64 - 1) : ℕ) : Int)), (64, ((g.mask &&& (2 ^ 64 - 1) : ℕ) : Int)),
        (8, (g.numBytes : Int))], ∃ n, lib.columns.store p.1 p.2 = .ok n := by
    intro g
    simp only [processFault, bind, bind_eq_ok, List.forall_mem_cons, List.not_mem_nil,
      IsEmpty.forall_iff, implies_true, and_true]
    constructor
    · rintro ⟨_, a, ha, b, hb, c, hc, d, hd, e, he, l, hl, u, hu, m, hm, n, hn, -⟩
      exact ⟨⟨a, ha⟩, ⟨b, hb⟩, ⟨c, hc⟩, ⟨d, hd⟩, ⟨e, he⟩, ⟨l, hl⟩, ⟨u, hu⟩, ⟨m, hm⟩, n, hn⟩
    · rintro ⟨⟨a, ha⟩, ⟨b, hb⟩, ⟨c, hc⟩, ⟨d, hd⟩, ⟨e, he⟩, ⟨l, hl⟩, ⟨u, hu⟩, ⟨m, hm⟩, n, hn⟩
      exact ⟨_, a, ha, b, hb, c, hc, d, hd, e, he, l, hl, u, hu, m, hm, n, hn, rfl⟩
  constructor
  · rintro ⟨g, hg, hstored⟩
    rcases haddress : f.address with address | w
    · rcases hmask : f.mask with mask | masks
      · simp only [intFault, haddress, hmask] at hg
        obtain rfl := Except.ok.inj hg
        exact ⟨address, mask, haddress, hmask, (hrow _).mp hstored⟩
      · simp only [intFault, haddress, hmask] at hg
        cases hg
    · simp only [intFault, haddress] at hg
      cases hg
  · rintro ⟨address, mask, haddress, hmask, hstored⟩
    refine ⟨{ f with address := address, mask := mask }, ?_, (hrow _).mpr hstored⟩
    simp only [intFault, haddress, hmask]

theorem faults_eq_ok {faultlist : List ConfigFault} : (∃ fs, faultlist.mapM intFault = .ok fs ∧
    ∃ rows, processFaults lib.columns fs = .ok rows) ↔ ∀ f ∈ faultlist, lib.FaultFits f := by
  simp only [← fault_eq_ok, processFaults]
  induction faultlist with
  | nil => exact iff_of_true ⟨[], rfl, [], rfl⟩ fun f hf => absurd hf List.not_mem_nil
  | cons f faultlist ih =>
    rw [List.forall_mem_cons, ← ih]
    simp only [mapM_eq_ok, List.forall₂_cons_left_iff]
    constructor
    · rintro ⟨_, ⟨g, gs, hg, hgs, rfl⟩, _, hrows⟩
      obtain ⟨row, rows, hrow, hrest, rfl⟩ := List.forall₂_cons_left_iff.mp hrows
      exact ⟨⟨g, hg, row, hrow⟩, gs, hgs, rows, hrest⟩
    · rintro ⟨⟨g, hg, row, hrow⟩, gs, hgs, rows, hrows⟩
      exact ⟨g :: gs, ⟨g, gs, hg, hgs, rfl⟩, row :: rows, .cons hrow hrows⟩

theorem logFaults_eq_ok {faultlist : List ConfigFault} :
    (faultlist.mapM intFault >>= fun fs => processFaults lib.columns fs >>= fun _ => pure ()) = .ok () ↔
      ∀ f ∈ faultlist, lib.FaultFits f := by
  rw [← faults_eq_ok]
  refine bind_eq_ok.trans (exists_congr fun fs => and_congr_right fun _ => ?_)
  exact bind_eq_ok.trans (exists_congr fun rows => and_iff_left rfl)

theorem logRun_eq_ok {d : RunData} : lib.logRun d = .ok () ↔ lib.RunFits d := by
  have htables : lib.RunFits d ↔ (∀ p ∈ [(translationBlockTable, d.tbinfo),
      (translationBlockExecTable, d.tbexec), (memoryInformationTable, d.meminfo),
      (memmapTable, d.memmaplist), (armRegistersTable, d.armregisters),
      (riscvRegistersTable, d.riscvregisters), (aarch64RegistersTable, d.aarch64registers),
      (translationBlockFaultedTable, d.tbfaulted)], ∀ rows, p.2 = some rows → lib.TableFits p.1 rows) ∧
      (∀ rows, d.memdumplist = some rows → lib.TableFits memoryDumpTable (newDumps [] rows) ∧
        ∀ r ∈ newDumps [] rows, lib.carray r.dumps = .ok ()) ∧ ∀ f ∈ d.faultlist, lib.FaultFits f :=
    ⟨fun ⟨h₁, h₂, h₃⟩ => ⟨h₁, h₂, h₃⟩, fun ⟨h₁, h₂, h₃⟩ => ⟨h₁, h₂, h₃⟩⟩
  rw [htables, logRun]
  simp only [seq_eq_ok, processDataset_eq_ok, processTbinfo, processTbexec, processMemoryInfo,
    processMemmap, processArmRegisters, processRiscvRegisters, processAarch64Registers,
    processTbFaulted, processTable_eq_ok, processDumps_eq_ok, logFaults_eq_ok, List.forall_mem_cons]
  tauto

theorem processConfig_eq_ok {config : QemuConfig} : lib.processConfig config = .ok () ↔
    config.start.isSome ∧ config.end_.isSome ∧ lib.ConfigFits config := by
  have hfits : lib.ConfigFits config ↔ (∀ t ∈ config.hash ++ [config.hashFunction, config.qemu,
      config.kernel, config.plugin, config.machine, config.additionalQemuArgs, config.bios],
        lib.storeText t = .ok ()) ∧ lib.storeCell (.uint 64) config.maxInstructionCount = .ok () ∧
      ∀ p ∈ config.start.toList ++ config.end_.getD [],
        lib.storeCell (.uint 64) p.1 = .ok () ∧ lib.storeCell (.uint 64) p.2 = .ok () :=
    ⟨fun ⟨h₁, h₂, h₃⟩ => ⟨h₁, h₂, h₃⟩, fun ⟨h₁, h₂, h₃⟩ => ⟨h₁, h₂, h₃⟩⟩
  rw [hfits, processConfig]
  rcases hstart : config.start with _ | start
  · simp only [seq_eq_ok, reduceCtorEq, and_false, Option.isSome_none, Bool.false_eq_true, false_and]
  · rcases hend : config.end_ with _ | ends
    · simp only [seq_eq_ok, reduceCtorEq, and_false, Option.isSome_none, Bool.false_eq_true, false_and]
    · simp only [seq_eq_ok, forM_eq_ok, List.forall_mem_append, List.forall_mem_cons,
        Option.isSome_some, true_and, Option.toList_some, Option.getD_some]
      tauto

theorem writeExperiments_total_iff {count : ℕ} : ∀ {exps : List Experiment} {i : ℕ},
    (∃ groups, writeExperiments lib.columns (fun _ => false) count i exps = .ok groups) ↔
      ∀ e ∈ exps, ∃ rows, processFaults lib.columns e.faultlist = .ok rows
  | [], _ => iff_of_true ⟨[], rfl⟩ fun e he => absurd he List.not_mem_nil
  | e :: exps, i => by
    rw [List.forall_mem_cons, ← writeExperiments_total_iff (i := i + 1), writeExperiments,
      if_neg Bool.false_ne_true]
    constructor
    · rintro ⟨groups, hgroups⟩
      obtain ⟨rows, hrows, hgroups⟩ := bind_eq_ok.mp hgroups
      obtain ⟨rest, hrest, -⟩ := bind_eq_ok.mp hgroups
      exact ⟨⟨rows, hrows⟩, rest, hrest⟩
    · rintro ⟨⟨rows, hrows⟩, rest, hrest⟩
      exact ⟨_, bind_eq_ok.mpr ⟨rows, hrows, bind_eq_ok.mpr ⟨rest, hrest, rfl⟩⟩⟩

theorem faultlists_eq_ok {faultlists : List (List ConfigFault)} :
    (∃ fss, faultlists.mapM (fun faultlist => faultlist.mapM intFault) = .ok fss ∧
      ∀ fs ∈ fss, ∃ rows, processFaults lib.columns fs = .ok rows) ↔
      ∀ faultlist ∈ faultlists, ∀ f ∈ faultlist, lib.FaultFits f := by
  induction faultlists with
  | nil => exact iff_of_true ⟨[], rfl, nofun⟩ fun l hl => absurd hl List.not_mem_nil
  | cons l faultlists ih =>
    rw [List.forall_mem_cons, ← ih, ← faults_eq_ok]
    simp only [mapM_eq_ok, List.forall₂_cons_left_iff]
    constructor
    · rintro ⟨_, ⟨fs, fss, hfs, hfss, rfl⟩, hrows⟩
      obtain ⟨hhead, htail⟩ := List.forall_mem_cons.mp hrows
      exact ⟨⟨fs, hfs, hhead⟩, fss, hfss, htail⟩
    · rintro ⟨⟨fs, hfs, hhead⟩, fss, hfss, htail⟩
      exact ⟨fs :: fss, ⟨fs, fss, hfs, hfss, rfl⟩, List.forall_mem_cons.mpr ⟨hhead, htail⟩⟩

theorem logBackup_eq_ok {config : QemuConfig} {faultlists : List (List ConfigFault)} :
    lib.logBackup config faultlists = .ok () ↔ config.start.isSome ∧ config.end_.isSome ∧
      lib.ConfigFits config ∧ (∃ n, lib.columns.store 64 faultlists.length = .ok n) ∧
      ∀ faultlist ∈ faultlists, ∀ f ∈ faultlist, lib.FaultFits f := by
  have hbackup : (faultlists.mapM (fun faultlist => faultlist.mapM intFault) >>= fun fss =>
      processBackup lib.columns (fun _ => false) (fss.map fun fs => ⟨0, fs⟩) >>= fun _ => pure ()) = .ok ()
        ↔ (∃ n, lib.columns.store 64 faultlists.length = .ok n) ∧
          ∀ faultlist ∈ faultlists, ∀ f ∈ faultlist, lib.FaultFits f := by
    rw [← faultlists_eq_ok]
    refine bind_eq_ok.trans ⟨?_, ?_⟩
    · rintro ⟨fss, hfss, h⟩
      obtain ⟨backup, hbackup, -⟩ := bind_eq_ok.mp h
      obtain ⟨n, hn, h⟩ := bind_eq_ok.mp hbackup
      obtain ⟨groups, hgroups, -⟩ := bind_eq_ok.mp h
      have hlength := (mapM_eq_ok.mp hfss).length_eq
      rw [List.length_map, ← hlength] at hn
      refine ⟨⟨n, hn⟩, fss, hfss, fun fs hfs => ?_⟩
      exact writeExperiments_total_iff.mp ⟨groups, hgroups⟩ ⟨0, fs⟩ (List.mem_map_of_mem hfs)
    · rintro ⟨⟨n, hn⟩, fss, hfss, hrows⟩
      have hlength := (mapM_eq_ok.mp hfss).length_eq
      obtain ⟨groups, hgroups⟩ := writeExperiments_total_iff.mpr
        (List.forall_mem_map (f := fun fs => (⟨0, fs⟩ : Experiment)).mpr hrows)
      refine ⟨fss, hfss, bind_eq_ok.mpr ⟨_, bind_eq_ok.mpr ⟨n, ?_, bind_eq_ok.mpr ⟨groups, hgroups, rfl⟩⟩, rfl⟩⟩
      rw [List.length_map, ← hlength]
      exact hn
  rw [logBackup, seq_eq_ok, processConfig_eq_ok, hbackup]
  tauto

end Hdf5

/-! ### One message -/

namespace Collector

variable {lib : Hdf5} {s s' : Collector} {m : Message} {g : Group} {ms rest : List Message}

theorem groupname_inj {i j : ℕ} (h : s.groupname i = s.groupname j) : i = j :=
  Decimal.formatPadded_inj (List.append_cancel_left h)

/-- An experiment finds a free group. -/
theorem experiment_free (index : ℕ) : .experiment (s.groupname (s.freeIndex index)) ∉ s.groups := by
  have hsome : ((List.range' index (s.file.length + 1)).find? fun i =>
      decide (.experiment (s.groupname i) ∉ s.groups)).isSome := by
    by_contra hnone
    rw [Option.not_isSome_iff_eq_none, List.find?_eq_none] at hnone
    -- all names would be taken, more than there are groups
    have hsub : (List.range' index (s.file.length + 1)).map (fun i => Group.experiment (s.groupname i))
        ⊆ s.groups := by
      intro g hg
      obtain ⟨i, hi, rfl⟩ := List.mem_map.mp hg
      by_contra hfree
      exact hnone i hi (decide_eq_true hfree)
    have hnodup : ((List.range' index (s.file.length + 1)).map
        fun i => Group.experiment (s.groupname i)).Nodup := by
      refine List.Nodup.map (fun i j hij => groupname_inj (Group.experiment.inj hij)) ?_
      exact List.nodup_range' ..
    have hle := (hnodup.subperm hsub).length_le
    rw [List.length_map, List.length_range', groups, List.length_map] at hle
    omega
  obtain ⟨i, hi⟩ := Option.isSome_iff_exists.mp hsome
  rw [freeIndex, hi, Option.getD_some]
  simpa using List.find?_some hi

/-- The index of the one message that a group is for. -/
def index : Group → Option Int
  | .pregoldenrun => some (-2)
  | .goldenrun => some (-1)
  | .backup => some (-3)
  | .experiment _ => none

/-- Does the collector wait for the message of this group? -/
def expects (s : Collector) : Group → Bool
  | .pregoldenrun => s.logPregoldenrun
  | .goldenrun => s.logGoldenrun
  | .backup => s.logConfig
  | .experiment _ => true

/-- The group that a message asks for. -/
def Asks (m : Message) (g : Group) : Prop :=
  (∃ name, g = .experiment name ∧ 0 ≤ m.index) ∨ index g = some m.index

theorem Asks.of_nonneg (h : Asks m g) (hm : 0 ≤ m.index) : ∃ name, g = .experiment name := by
  rcases h with ⟨name, rfl, -⟩ | h
  · exact ⟨name, rfl⟩
  · cases g <;> simp only [index, Option.some.injEq, reduceCtorEq] at h <;> omega

theorem Asks.of_neg (h : Asks m g) (hm : ¬ 0 ≤ m.index) : index g = some m.index := by
  rcases h with ⟨-, -, hm'⟩ | h
  · exact absurd hm' hm
  · exact h

theorem index_neg {i : Int} (h : index g = some i) : ¬ 0 ≤ i := by
  cases g <;> simp only [index, Option.some.injEq, reduceCtorEq] at h <;> omega

theorem index_inj {g' : Group} {i : Int} (h : index g = some i) (h' : index g' = some i) : g = g' := by
  cases g <;> cases g' <;> simp_all [index] <;> omega

theorem Asks.group {p : Group} (h : Asks m g) (h' : index p = some m.index) : g = p :=
  index_inj (h.of_neg (index_neg h')) h'

/-- What messages do to the loop condition. -/
structure Counted (s : Collector) (ms : List Message) (s' : Collector) : Prop where
  numExp : s'.numExp = s.numExp - ms.countP fun m => decide (0 ≤ m.index)
  flags : ∀ g i, index g = some i → s'.expects g = (s.expects g && ms.all fun m => decide (m.index ≠ i))

theorem Counted.refl : Counted s [] s :=
  ⟨(Int.sub_zero _).symm, fun _ _ _ => (Bool.and_true _).symm⟩

theorem Counted.trans {s₁ : Collector} (h : Counted s [m] s₁) (h' : Counted s₁ ms s') :
    Counted s (m :: ms) s' := by
  refine ⟨?_, fun g i hi => ?_⟩
  · rw [h'.numExp, h.numExp]
    by_cases hm : 0 ≤ m.index
    · simp [hm]; omega
    · simp [hm]
  · rw [h'.flags g i hi, h.flags g i hi, List.all_cons, List.all_cons, List.all_nil, Bool.and_true,
      Bool.and_assoc]

theorem createGroup_eq_ok {e : PyError} : s.createGroup g e = .ok () ↔ g ∉ s.groups := by
  rw [createGroup]
  split
  · next h => exact iff_of_false nofun fun h' => h' h
  · next h => exact iff_of_true rfl h

/-- An experiment counts down. -/
theorem counted_experiment (hm : 0 ≤ m.index) : Counted s [m] { s with numExp := s.numExp - 1 } := by
  refine ⟨by simp [hm], fun g i hi => ?_⟩
  have hne : m.index ≠ i := fun h => index_neg hi (h ▸ hm)
  have hexpects : expects { s with numExp := s.numExp - 1 } g = s.expects g := by cases g <;> rfl
  rw [hexpects, List.all_cons, decide_eq_true hne]
  simp

/-- Any other message clears the flag of its group and no other. -/
theorem counted_flag {i : Int} (hi : index g = some i) (hm : m.index = i) (hnum : s'.numExp = s.numExp)
    (hclear : s'.expects g = false) (hkeep : ∀ g', g' ≠ g → s'.expects g' = s.expects g') :
    Counted s [m] s' := by
  have hneg : ¬ 0 ≤ m.index := hm ▸ index_neg hi
  refine ⟨by simp [hneg, hnum], fun g' i' hi' => ?_⟩
  rw [List.all_cons, List.all_nil, Bool.and_true]
  by_cases hsame : g' = g
  · obtain rfl := hsame
    have heq : ¬ m.index ≠ i' := not_not.mpr (hm.trans (Option.some.inj (hi.symm.trans hi')))
    rw [hclear, decide_eq_false heq, Bool.and_false]
  · have hne : m.index ≠ i' := fun h => hsame (index_inj (h ▸ hi') (hm ▸ hi))
    rw [hkeep g' hsame, decide_eq_true hne, Bool.and_true]

/-- So does a message that is dropped, its flag is down already. -/
theorem counted_drop (hneg : ¬ 0 ≤ m.index) (hdown : ∀ g, index g = some m.index → s.expects g = false) :
    Counted s [m] s := by
  refine ⟨by simp [hneg], fun g i hi => ?_⟩
  rw [List.all_cons, List.all_nil, Bool.and_true]
  by_cases hm : m.index = i
  · rw [hdown g (hm ▸ hi)]
    rfl
  · rw [decide_eq_true hm, Bool.and_true]

/-- The group of a message and the variables after it. -/
theorem expGroup_step {o : Option (Group × Collector)} (h : s.expGroup m = .ok o) :
    (o = none ∧ Counted s [m] s ∧ ∀ g, Asks m g → s.expects g = false) ∨
    ∃ g s₁, o = some (g, s₁) ∧ Counted s [m] s₁ ∧ s₁.file = s.file ∧ g ∉ s.groups ∧ Asks m g := by
  unfold expGroup at h
  split at h
  · next hindex =>
    obtain ⟨⟨⟩, hfree, h⟩ := bind_eq_ok.mp h
    obtain rfl := Except.ok.inj h
    exact .inr ⟨_, _, rfl, counted_experiment hindex, rfl, createGroup_eq_ok.mp hfree,
      .inl ⟨_, rfl, hindex⟩⟩
  · next hneg =>
    have hkeep : ∀ (g : Group) (s₁ : Collector), s₁.numExp = s.numExp → index g = some m.index →
        s₁.expects g = false → (∀ g', g' ≠ g → s₁.expects g' = s.expects g') → Counted s [m] s₁ :=
      fun g s₁ hnum hi hclear hkeep => counted_flag hi rfl hnum hclear hkeep
    split at h
    · next hpre =>
      obtain ⟨⟨⟩, hfree, h⟩ := bind_eq_ok.mp h
      obtain rfl := Except.ok.inj h
      have hi : index .pregoldenrun = some m.index := by rw [hpre.1]; rfl
      refine .inr ⟨_, _, rfl, hkeep _ _ rfl hi rfl fun g' hg' => ?_, rfl, createGroup_eq_ok.mp hfree, .inr hi⟩
      cases g' <;> first | rfl | exact absurd rfl hg'
    · next hpre =>
      split at h
      · next hgolden =>
        obtain ⟨⟨⟩, hfree, h⟩ := bind_eq_ok.mp h
        obtain rfl := Except.ok.inj h
        have hi : index .goldenrun = some m.index := by rw [hgolden.1]; rfl
        refine .inr ⟨_, _, rfl, hkeep _ _ rfl hi rfl fun g' hg' => ?_, rfl, createGroup_eq_ok.mp hfree, .inr hi⟩
        cases g' <;> first | rfl | exact absurd rfl hg'
      · next hgolden =>
        split at h
        · next hconfig =>
          obtain ⟨⟨⟩, hfree, h⟩ := bind_eq_ok.mp h
          obtain rfl := Except.ok.inj h
          have hi : index .backup = some m.index := by rw [hconfig.1]; rfl
          refine .inr ⟨_, _, rfl, hkeep _ _ rfl hi rfl fun g' hg' => ?_, rfl, createGroup_eq_ok.mp hfree,
            .inr hi⟩
          cases g' <;> first | rfl | exact absurd rfl hg'
        · next hconfig =>
          obtain rfl := Except.ok.inj h
          have hdown : ∀ g, index g = some m.index → s.expects g = false := by
            intro g hi
            refine Bool.eq_false_iff.mpr fun hflag => ?_
            cases g with
            | pregoldenrun => exact hpre ⟨(Option.some.inj hi).symm, hflag⟩
            | goldenrun => exact hgolden ⟨(Option.some.inj hi).symm, hflag⟩
            | backup => exact hconfig ⟨(Option.some.inj hi).symm, hflag⟩
            | experiment name => cases hi
          exact .inl ⟨rfl, counted_drop hneg hdown, fun g hasks => hdown g (hasks.of_neg hneg)⟩

/-- A message is dropped or written into the group it asks for. -/
theorem handle_step (h : s.handle lib m = .ok s') : Counted s [m] s' ∧ (s'.file = s.file ∨
    ∃ g, s'.file = s.file ++ [(g, m)] ∧ g ∉ s.groups ∧ Asks m g ∧ write lib g m = .ok ()) := by
  obtain ⟨o, ho, h⟩ := bind_eq_ok.mp h
  rcases expGroup_step ho with ⟨rfl, hcounted, -⟩ | ⟨g, s₁, rfl, hcounted, hfile, hfree, hasks⟩
  · obtain rfl := Except.ok.inj h
    exact ⟨hcounted, .inl rfl⟩
  · obtain ⟨⟨⟩, hwrite, h⟩ := bind_eq_ok.mp h
    obtain rfl := Except.ok.inj h
    refine ⟨⟨hcounted.numExp, fun g' i hi => ?_⟩,
      .inr ⟨g, congrArg (· ++ [(g, m)]) hfile, hfree, hasks, hwrite⟩⟩
    rw [← hcounted.flags g' i hi]
    cases g' <;> rfl

/-- The group of a message raises nothing where it is free. -/
theorem expGroup_ok (hfree : ∀ g, index g = some m.index → g ∉ s.groups) :
    ∃ o, s.expGroup m = .ok o := by
  have hcreate : ∀ {g : Group} {e : PyError} {o : Option (Group × Collector)}, g ∉ s.groups →
      (s.createGroup g e >>= fun _ => pure o : Result (Option (Group × Collector))) = .ok o :=
    fun hg => bind_eq_ok.mpr ⟨(), createGroup_eq_ok.mpr hg, rfl⟩
  unfold expGroup
  split
  · exact ⟨_, hcreate (experiment_free _)⟩
  · split
    · next h => exact ⟨_, hcreate (hfree .pregoldenrun (by rw [h.1]; rfl))⟩
    · split
      · next h => exact ⟨_, hcreate (hfree .goldenrun (by rw [h.1]; rfl))⟩
      · split
        · next h => exact ⟨_, hcreate (hfree .backup (by rw [h.1]; rfl))⟩
        · exact ⟨none, rfl⟩

/-- A message that is expected, has its group free and fits is written. -/
theorem handle_ok (hasks : ∃ g, Asks m g) (hexpects : ∀ g, Asks m g → s.expects g = true)
    (hfree : ∀ g, index g = some m.index → g ∉ s.groups)
    (hfits : ∀ g, Asks m g → write lib g m = .ok ()) :
    ∃ s' g, s.handle lib m = .ok s' ∧ Asks m g ∧ s'.file = s.file ++ [(g, m)] := by
  obtain ⟨o, ho⟩ := expGroup_ok hfree
  rcases expGroup_step ho with ⟨-, -, hdown⟩ | ⟨g, s₁, rfl, -, hfile, -, hasks⟩
  · obtain ⟨g, hg⟩ := hasks
    exact absurd ((hexpects g hg).symm.trans (hdown g hg)) (by decide)
  · refine ⟨{ s₁ with file := s₁.file ++ [(g, m)] }, g, ?_, hasks, congrArg (· ++ [(g, m)]) hfile⟩
    exact bind_eq_ok.mpr ⟨_, ho, bind_eq_ok.mpr ⟨(), hfits g hasks, rfl⟩⟩

theorem write_run_iff {i : Int} {d : RunData} (hi : index g ≠ some (-3)) :
    write lib g ⟨i, .run d⟩ = .ok () ↔ (g = .pregoldenrun → d.architecture ≠ none) ∧ lib.RunFits d := by
  have hne : g ≠ .backup := fun h => hi (h ▸ rfl)
  simp only [write, if_neg hne]
  split
  · next h => exact iff_of_false nofun fun h' => h'.1 h.1 h.2
  · next h => rw [Hdf5.logRun_eq_ok, and_iff_right fun hg harch => h ⟨hg, harch⟩]

theorem running_eq_false_iff : s.running = false ↔
    s.numExp ≤ 0 ∧ ∀ g, index g ≠ none → s.expects g = false := by
  simp only [running, Bool.or_eq_false_iff, decide_eq_false_iff_not, not_lt]
  constructor
  · rintro ⟨⟨⟨hnum, hgolden⟩, hpre⟩, hconfig⟩
    refine ⟨hnum, fun g hg => ?_⟩
    cases g with
    | pregoldenrun => exact hpre
    | goldenrun => exact hgolden
    | backup => exact hconfig
    | experiment name => exact absurd rfl hg
  · rintro ⟨hnum, hflags⟩
    exact ⟨⟨⟨hnum, hflags .goldenrun nofun⟩, hflags .pregoldenrun nofun⟩, hflags .backup nofun⟩

/-! ### All messages -/

/-- The messages that are left are the ones that the collector waits for, and can be written. -/
structure Pending (lib : Hdf5) (s : Collector) (ms : List Message) : Prop where
  numExp : s.numExp = ms.countP fun m => decide (0 ≤ m.index)
  flags : ∀ g i, index g = some i → (ms.map Message.index).count i = (s.expects g).toNat
  asks : ∀ m ∈ ms, ∃ g, Asks m g
  free : ∀ g, index g ≠ none → s.expects g = true → g ∉ s.groups
  fits : ∀ m ∈ ms, ∀ g, Asks m g → write lib g m = .ok ()

theorem Pending.running (h : Pending lib s (m :: ms)) : s.running = true := by
  refine Bool.eq_true_of_not_eq_false fun hidle => ?_
  obtain ⟨hnum, hflags⟩ := running_eq_false_iff.mp hidle
  obtain ⟨g, hg⟩ := h.asks m List.mem_cons_self
  by_cases hm : 0 ≤ m.index
  · have hpos : 0 < (m :: ms).countP fun m => decide (0 ≤ m.index) :=
      List.countP_pos_iff.mpr ⟨m, List.mem_cons_self, decide_eq_true hm⟩
    have hcount := h.numExp
    omega
  · have hi := hg.of_neg hm
    have hcount := h.flags g _ hi
    rw [hflags g (hi ▸ Option.some_ne_none _), List.map_cons, List.count_cons_self] at hcount
    cases hcount

theorem Pending.idle (h : Pending lib s []) : s.running = false := by
  refine running_eq_false_iff.mpr ⟨h.numExp.le, fun g hg => ?_⟩
  obtain ⟨i, hi⟩ := Option.ne_none_iff_exists'.mp hg
  have hcount := h.flags g i hi
  rcases hflag : s.expects g with _ | _
  · rfl
  · rw [hflag] at hcount
    cases hcount

/-- The next message is written, the others stay pending. -/
theorem Pending.handle (h : Pending lib s (m :: ms)) : ∃ s' g, s.handle lib m = .ok s' ∧
    s'.file = s.file ++ [(g, m)] ∧ Pending lib s' ms := by
  have hexpects : ∀ g, Asks m g → s.expects g = true := by
    rintro g (⟨name, rfl, -⟩ | hi)
    · rfl
    · have hcount := h.flags g _ hi
      rw [List.map_cons, List.count_cons_self] at hcount
      rcases hflag : s.expects g with _ | _
      · rw [hflag] at hcount
        cases hcount
      · rfl
  obtain ⟨s', g, hs', hg, hfile⟩ := handle_ok (h.asks m List.mem_cons_self) hexpects
    (fun g hi => h.free g (hi ▸ Option.some_ne_none _) (hexpects g (.inr hi)))
    (h.fits m List.mem_cons_self)
  obtain ⟨hcounted, -⟩ := handle_step hs'
  refine ⟨s', g, hs', hfile, ?_, ?_, fun m' hm' => h.asks m' (List.mem_cons_of_mem _ hm'), ?_,
    fun m' hm' => h.fits m' (List.mem_cons_of_mem _ hm')⟩
  · rw [hcounted.numExp, h.numExp]
    by_cases hm : 0 ≤ m.index <;> simp [hm]
  · intro g' i hi
    have hcount := h.flags g' i hi
    rw [hcounted.flags g' i hi, List.all_cons, List.all_nil, Bool.and_true]
    by_cases hm : m.index = i
    · rw [List.map_cons, hm, List.count_cons_self, hexpects g' (.inr (hm ▸ hi))] at hcount
      rw [decide_eq_false (not_not.mpr hm), Bool.and_false]
      exact Nat.succ.inj hcount
    · rw [List.map_cons, List.count_cons_of_ne hm] at hcount
      rw [decide_eq_true hm, Bool.and_true]
      exact hcount
  · intro g' hg' hflag
    obtain ⟨i, hi⟩ := Option.ne_none_iff_exists'.mp hg'
    rw [hcounted.flags g' i hi, Bool.and_eq_true, List.all_cons, List.all_nil, Bool.and_true,
      decide_eq_true_iff] at hflag
    rw [groups, hfile, List.map_append, List.mem_append, not_or]
    refine ⟨h.free g' hg' hflag.1, fun hsame => ?_⟩
    obtain rfl : g' = g := List.mem_singleton.mp hsame
    rcases hg with ⟨name, rfl, -⟩ | hi'
    · exact hg' rfl
    · exact hflag.2 (Option.some.inj (hi'.symm.trans hi))

theorem Pending.perm {ms' : List Message} (hperm : ms.Perm ms') (h : Pending lib s ms') :
    Pending lib s ms where
  numExp := h.numExp.trans (congrArg _ (hperm.countP_eq _).symm)
  flags g i hi := ((hperm.map _).count_eq i).trans (h.flags g i hi)
  asks m hm := h.asks m (hperm.mem_iff.mp hm)
  free := h.free
  fits m hm := h.fits m (hperm.mem_iff.mp hm)

/-- So all messages are written and the loop ends with the last one. -/
theorem Pending.collect (h : Pending lib s ms) : ∃ s', hdf5collector lib s ms = .ok (s', []) ∧
    s'.file.map Prod.snd = s.file.map Prod.snd ++ ms ∧ s'.running = false := by
  induction ms generalizing s with
  | nil => exact ⟨s, rfl, (List.append_nil _).symm, h.idle⟩
  | cons m ms ih =>
    obtain ⟨s₁, g, hs₁, hfile, hpending⟩ := h.handle
    obtain ⟨s', hs', hfile', hidle⟩ := ih hpending
    refine ⟨s', ?_, ?_, hidle⟩
    · rw [hdf5collector, if_pos h.running]
      exact bind_eq_ok.mpr ⟨s₁, hs₁, hs'⟩
    · rw [hfile', hfile, List.map_append, List.append_assoc]
      rfl

/-! ### What a run tells -/

theorem collect_file : ∀ {ms : List Message} {s : Collector}, hdf5collector lib s ms = .ok (s', rest) →
    ∃ new, s'.file = s.file ++ new ∧ (new.map Prod.snd).Sublist ms
  | [], s, h => by
    obtain ⟨rfl, -⟩ := Prod.mk.inj (Except.ok.inj h)
    exact ⟨[], (List.append_nil _).symm, .slnil⟩
  | m :: ms, s, h => by
    rw [hdf5collector] at h
    split at h
    · obtain ⟨s₁, hs₁, h⟩ := bind_eq_ok.mp h
      obtain ⟨new, hnew, hsub⟩ := collect_file h
      rcases (handle_step hs₁).2 with hfile | ⟨g, hfile, -⟩
      · exact ⟨new, hfile ▸ hnew, hsub.cons _⟩
      · exact ⟨(g, m) :: new, by rw [hnew, hfile, List.append_assoc]; rfl, hsub.cons_cons _⟩
    · obtain ⟨rfl, -⟩ := Prod.mk.inj (Except.ok.inj h)
      exact ⟨[], (List.append_nil _).symm, List.nil_sublist _⟩

theorem collect_counted : ∀ {ms : List Message} {s : Collector}, hdf5collector lib s ms = .ok (s', []) →
    Counted s ms s'
  | [], s, h => by
    obtain ⟨rfl, -⟩ := Prod.mk.inj (Except.ok.inj h)
    exact .refl
  | m :: ms, s, h => by
    rw [hdf5collector] at h
    split at h
    · obtain ⟨s₁, hs₁, h⟩ := bind_eq_ok.mp h
      exact (handle_step hs₁).1.trans (collect_counted h)
    · cases (Prod.mk.inj (Except.ok.inj h)).2

/-- A run that writes all messages found each group free and could write it. -/
theorem collect_written : ∀ {ms : List Message} {s : Collector}, hdf5collector lib s ms = .ok (s', []) →
    s'.file.map Prod.snd = s.file.map Prod.snd ++ ms →
    ∀ m ∈ ms, ∃ g, g ∉ s.groups ∧ Asks m g ∧ write lib g m = .ok ()
  | [], s, _, _, m, hm => absurd hm List.not_mem_nil
  | m' :: ms, s, h, hall, m, hm => by
    rw [hdf5collector] at h
    split at h
    · obtain ⟨s₁, hs₁, h⟩ := bind_eq_ok.mp h
      rcases (handle_step hs₁).2 with hfile | ⟨g, hfile, hfree, hasks, hwrite⟩
      · -- a message that is dropped is missing at the end
        obtain ⟨new, hnew, hsub⟩ := collect_file h
        rw [hnew, hfile, List.map_append, List.append_cancel_left_eq] at hall
        have hle := hsub.length_le
        rw [hall, List.length_cons] at hle
        omega
      · rcases List.mem_cons.mp hm with rfl | hm
        · exact ⟨g, hfree, hasks, hwrite⟩
        · have hrest : s'.file.map Prod.snd = s₁.file.map Prod.snd ++ ms := by
            rw [hall, hfile, List.map_append, List.append_assoc]
            rfl
          obtain ⟨g', hfree', hasks', hwrite'⟩ := collect_written h hrest m hm
          refine ⟨g', fun hg' => hfree' ?_, hasks', hwrite'⟩
          rw [groups, hfile, List.map_append]
          exact List.mem_append_left _ hg'
    · cases (Prod.mk.inj (Except.ok.inj h)).2

end Collector

/-! ### The campaign -/

namespace Session

open Collector Hdf5

variable {lib : Hdf5} {c : Session} {msgs : List Message}

/-- The collector writes all messages, in the order in which they arrive, and its loop ends. -/
def Terminates (c : Session) (lib : Hdf5) (msgs : List Message) : Prop :=
  ∃ s, hdf5collector lib c.logger msgs = .ok (s, []) ∧
    s.file.map Prod.snd = c.file.map Prod.snd ++ msgs ∧ s.running = false

/-- A start point and end points are configured, the groups are free, the indices are not negative
    and the library takes all values. -/
structure Loggable (c : Session) (lib : Hdf5) : Prop where
  start : c.configQemu.start.isSome
  end_ : c.configQemu.end_.isSome
  free : ∀ g ∈ [Group.pregoldenrun, .goldenrun, .backup], g ∉ c.file.map Prod.fst
  indices : ∀ e ∈ c.scheduled, 0 ≤ e.index
  architecture : c.pregoldenrun.architecture ≠ none
  runs : ∀ d ∈ c.pregoldenrun :: c.goldenrun :: c.scheduled.map Scheduled.output, lib.RunFits d
  config : lib.ConfigFits c.configQemu
  count : ∃ n, lib.columns.store 64 c.faultlist.length = .ok n
  expanded : ∀ e ∈ c.faultlist, ∀ f ∈ e.faultlist, lib.FaultFits f

theorem messages_eq (hstart : c.configQemu.start.isSome) : c.messages =
    ⟨-2, .run c.pregoldenrun⟩ :: ⟨-1, .run c.goldenrun⟩ :: c.backup :: c.workers := by
  rw [messages, goldenrunMessages, if_pos hstart]
  rfl

theorem countP_messages :
    (c.messages.countP fun m => decide (0 ≤ m.index)) = c.workers.countP fun m => decide (0 ≤ m.index) := by
  have hgolden : (c.goldenrunMessages.countP fun m => decide (0 ≤ m.index)) = 0 := by
    rw [goldenrunMessages]
    split <;> rfl
  rw [messages, List.countP_append, hgolden, Nat.zero_add]
  exact List.countP_cons_of_neg (by simp [backup])

theorem length_workers : c.workers.length = c.scheduled.length := List.length_map _

/-- The experiments all count down iff no index is negative. -/
theorem countP_workers : (c.workers.countP fun m => decide (0 ≤ m.index)) = c.scheduled.length ↔
    ∀ e ∈ c.scheduled, 0 ≤ e.index := by
  rw [← length_workers, List.countP_eq_length, workers, List.forall_mem_map]
  simp only [decide_eq_true_eq]

theorem Loggable.pending (h : c.Loggable lib) : Pending lib c.logger c.messages := by
  have hworkers : ∀ m ∈ c.workers, 0 ≤ m.index := List.forall_mem_map.mpr h.indices
  have hruns := List.forall_mem_cons.mp h.runs
  have hruns' := List.forall_mem_cons.mp hruns.2
  refine ⟨?_, fun g i hi => ?_, ?_, fun g hg _ => ?_, ?_⟩
  · rw [countP_messages, countP_workers.mpr h.indices]
    rfl
  · have hnone : (c.workers.map Message.index).count i = 0 := by
      refine List.count_eq_zero.mpr fun hmem => ?_
      obtain ⟨m, hm, rfl⟩ := List.mem_map.mp hmem
      exact index_neg hi (hworkers m hm)
    rw [messages_eq h.start, List.map_cons, List.map_cons, List.map_cons, List.count_cons,
      List.count_cons, List.count_cons, hnone]
    cases g with
    | experiment name => cases hi
    | _ => obtain rfl := Option.some.inj hi; rfl
  · rw [messages_eq h.start]
    simp only [List.forall_mem_cons]
    refine ⟨⟨.pregoldenrun, .inr rfl⟩, ⟨.goldenrun, .inr rfl⟩, ⟨.backup, .inr rfl⟩, fun m hm => ?_⟩
    exact ⟨.experiment [], .inl ⟨[], rfl, hworkers m hm⟩⟩
  · refine h.free g ?_
    cases g <;> simp_all [index]
  · rw [messages_eq h.start]
    simp only [List.forall_mem_cons]
    refine ⟨fun g hg => ?_, fun g hg => ?_, fun g hg => ?_, fun m hm g hg => ?_⟩
    · obtain rfl := hg.group (p := .pregoldenrun) rfl
      exact (write_run_iff (by decide)).mpr ⟨fun _ => h.architecture, hruns.1⟩
    · obtain rfl := hg.group (p := .goldenrun) rfl
      exact (write_run_iff (by decide)).mpr ⟨nofun, hruns'.1⟩
    · obtain rfl := hg.group (p := .backup) rfl
      refine logBackup_eq_ok.mpr ⟨h.start, h.end_, h.config, ?_, ?_⟩
      · rw [List.length_map]
        exact h.count
      · exact List.forall_mem_map.mpr h.expanded
    · obtain ⟨name, rfl⟩ := hg.of_nonneg (hworkers m hm)
      obtain ⟨e, he, rfl⟩ := List.mem_map.mp hm
      exact (write_run_iff (g := .experiment name) (Option.some_ne_none _).symm).mpr
        ⟨nofun, hruns'.2 _ (List.mem_map_of_mem he)⟩

theorem Terminates.loggable (hperm : msgs.Perm c.messages) (h : c.Terminates lib msgs) :
    c.Loggable lib := by
  obtain ⟨s, hrun, hall, hidle⟩ := h
  have hwritten : ∀ m ∈ c.messages, ∃ g, g ∉ c.file.map Prod.fst ∧ Asks m g ∧ write lib g m = .ok () :=
    fun m hm => collect_written hrun hall m (hperm.mem_iff.mpr hm)
  have hcounted := collect_counted hrun
  obtain ⟨hnum, -⟩ := running_eq_false_iff.mp hidle
  -- all experiments have counted down
  have hindices : ∀ e ∈ c.scheduled, 0 ≤ e.index := by
    refine countP_workers.mp (le_antisymm ?_ ?_)
    · rw [← length_workers]
      exact List.countP_le_length
    · rw [hcounted.numExp, hperm.countP_eq, countP_messages] at hnum
      have hstart : c.logger.numExp = c.scheduled.length := rfl
      omega
  obtain ⟨g, hfree, hasks, hwrite⟩ := hwritten c.backup
    (List.mem_append_right _ List.mem_cons_self)
  obtain rfl := hasks.group (p := .backup) rfl
  obtain ⟨hstart, hend, hconfig, hcount, hexpanded⟩ := logBackup_eq_ok.mp hwrite
  rw [messages_eq hstart] at hwritten
  simp only [List.forall_mem_cons] at hwritten
  obtain ⟨⟨g₁, hfree₁, hasks₁, hwrite₁⟩, ⟨g₂, hfree₂, hasks₂, hwrite₂⟩, -, hworkers⟩ := hwritten
  obtain rfl := hasks₁.group (p := .pregoldenrun) rfl
  obtain rfl := hasks₂.group (p := .goldenrun) rfl
  obtain ⟨harch, hpre⟩ := (write_run_iff (by decide)).mp hwrite₁
  obtain ⟨-, hgolden⟩ := (write_run_iff (by decide)).mp hwrite₂
  refine ⟨hstart, hend, ?_, hindices, harch rfl, ?_, hconfig, ?_, ?_⟩
  · simp only [List.forall_mem_cons]
    exact ⟨hfree₁, hfree₂, hfree, nofun⟩
  · simp only [List.forall_mem_cons]
    refine ⟨hpre, hgolden, List.forall_mem_map.mpr fun e he => ?_⟩
    obtain ⟨g, -, hasks, hwrite⟩ := hworkers _ (List.mem_map_of_mem he)
    obtain ⟨name, rfl⟩ := hasks.of_nonneg (hindices e he)
    exact ((write_run_iff (g := .experiment name) (Option.some_ne_none _).symm).mp hwrite).2
  · rw [List.length_map] at hcount
    exact hcount
  · exact List.forall_mem_map.mp hexpanded

/-- The logger of a campaign with a golden run terminates iff the campaign is loggable, whatever the
    order in which the messages arrive. -/
theorem terminates_iff (lib : Hdf5) (c : Session) {msgs : List Message} (hperm : msgs.Perm c.messages) :
    c.Terminates lib msgs ↔ c.Loggable lib :=
  ⟨Terminates.loggable hperm, fun h => (h.pending.perm hperm).collect⟩

end Session

/-! ### Two campaigns -/

/-- A library that takes all texts and arrays, and the numbers that fit. -/
def Hdf5.plain : Hdf5 where
  columns := Columns.strict
  int64 v := if -2 ^ 63 ≤ v ∧ v < 2 ^ 63 then .ok v else .error .overflowError
  text t := .ok t
  carray _ := .ok ()

/-- A run without datasets. -/
def emptyRun : RunData :=
  ⟨some "arm".toList, none, none, none, none, none, none, none, none, none, []⟩

/-- A TB is executed, then the registers are dumped. -/
def oneTbRun : RunData :=
  { emptyRun with
    tbinfo := some [⟨[0x80, 4, 1, 1], ["[       80 ]: nop !!".toList], []⟩]
    tbexec := some [⟨[0x80, 0], [], []⟩]
    armregisters := some [⟨List.replicate 19 0, [], []⟩] }

/-- A start and an end point, two experiments. -/
def twoExperiments : Session where
  configQemu := ⟨[], [], [], [], [], [], [], [], 100, some (0x80, 1), some [(0x100, 1)]⟩
  pregoldenrun := emptyRun
  goldenrun := oneTbRun
  goldenrunOnly := false
  faultlist := [⟨0, [⟨⟨0x80, 1⟩, .int 0x100, [], 1, 0, 1, .int 0xff, 1, false⟩], oneTbRun⟩,
    ⟨1, [⟨⟨0x84, 1⟩, .int 0x100, [], 1, 0, 0, .int 0xff, 1, false⟩], emptyRun⟩]
  file := []

theorem twoExperiments_loggable : twoExperiments.Loggable Hdf5.plain :=
  Session.Terminates.loggable (List.Perm.refl twoExperiments.messages) ⟨_, rfl, rfl, rfl⟩

/-- The experiments arrive first, the later one in front. -/
theorem terminates_iff_twoExperiments :
    twoExperiments.Terminates Hdf5.plain twoExperiments.messages.reverse :=
  (Session.terminates_iff Hdf5.plain twoExperiments (List.reverse_perm _)).mpr twoExperiments_loggable

/-- One end point, no start point, no experiments. -/
def endOnly : Session where
  configQemu := ⟨[], [], [], [], [], [], [], [], 100, none, some [(0x100, 1)]⟩
  pregoldenrun := emptyRun
  goldenrun := emptyRun
  goldenrunOnly := false
  faultlist := []
  file := []

/-- The backup of a campaign without a start point cannot be written, nor would the loop end. -/
theorem endOnly_not_terminates : ¬ endOnly.Terminates Hdf5.plain endOnly.messages :=
  fun h => absurd (h.loggable (List.Perm.refl endOnly.messages)).start Bool.false_ne_true

end Archie.Campaign
