import Archie.Campaign.AsmText
import Archie.Campaign.ExperimentGroup
import Archie.Campaign.MemInfoTb
import Archie.Campaign.ProcessDumps
import Archie.Campaign.TbFilter
import Archie.Worker.DumpKeys

/-! The results of the two workers of faultclass.py, and what the file has of them.

    Both put their datasets under keywords; that of the registers is made of an architecture:

        readout_data             arm   riscv     aarch64      the type in the message
        python_worker_unicorn    arm   riscv64   aarch64      the name of the target
        hdf5collector            arm   riscv     aarch64

    So the registers of a riscv64 target are lost where Unicorn is the engine. -/

namespace Archie.Campaign
open Python
open Plugin (MemCall MemDumpInfo)
open Worker (Env LoopEvent MainLoop MemDump UnicornEvent)

abbrev Output := AList fun _ : Text => List Row

/-! ### Rows -/

def TbInfo.row (t : TbInfo) : Row := ⟨[t.id, t.size, t.insCount, t.numExec], [t.assembler], []⟩

def TbExec.row (e : TbExec) : Row := ⟨[e.tb, e.pos], [], []⟩

def MemInfoRow.row (m : MemInfoRow) : Row :=
  ⟨[m.ins, m.tbid, m.size, m.address, m.direction, m.counter], [], []⟩

/-! ### QEMU -/

structure RegisterDump where
  pc : ℕ
  tbCount : ℕ
  registerValues : List ℕ

structure FaultedData where
  triggerAddress : ℕ
  assembler : Text

structure MemMapInfo where
  address : ℕ
  size : ℕ

/-- The message of the plugin, as far as its datasets are made of it. -/
structure Data where
  architecture : Text
  tbInformations : List TbInformation
  tbExecOrders : List TbExec
  memInfos : List MemInfoMessage
  archType : ℕ
  registerDumps : List RegisterDump
  faultedDatas : List FaultedData
  memDumpInfos : List MemDumpInfo
  memMapInfos : List MemMapInfo

/-- The frames of the golden run that the workers look up. -/
structure GoldenrunData where
  tbexec : Option (List TbExec)
  tbinfo : Option (List TbInfo)
  meminfo : Option (List MemInfoRow)

def goldenFrame {α : Type} (frame : Option (List α)) : Result (List α) :=
  match frame with
  | some rows => .ok rows
  | none => .error .keyError

/-- `write_output_wrt_goldenrun`; there is nothing to compare with before the golden run. -/
def outputWrtGoldenrun {α : Type} [DecidableEq α] (goldenrunData : Option GoldenrunData)
    (keyword : GoldenrunData → Option (List α)) (data : List α) : Result (List α) :=
  match goldenrunData with
  | none => .ok data
  | some golden => do
    return writeOutputWrtGoldenrun data (some (← goldenFrame (keyword golden)))

/-- The type of the registers: 0 for `ARM`, 1 for `RISCV`, 2 for `ARM64`. -/
def regtype (archType : ℕ) : Option Text :=
  if archType = 0 then some "arm".toList
  else if archType = 1 then some "riscv".toList
  else if archType = 2 then some "aarch64".toList
  else none

/-- The registers of a dump: `r0` to `r15` and `xpsr`, `x0` to `x32`, `x0` to `x30` with `sp` and `cpsr`. -/
def regCount (archType : ℕ) : ℕ :=
  if archType = 0 then 16 + 1 else if archType = 1 then 32 + 1 else 31 + 2

def readoutRegisters (archType : ℕ) (registerDumps : List RegisterDump) : Result (List Row) :=
  registerDumps.mapM fun d =>
    if d.registerValues.length < regCount archType then .error .indexError
    else .ok ⟨d.pc :: d.tbCount :: (d.registerValues.take (regCount archType)).map Nat.cast, [], []⟩

def readoutTbFaulted (faultedDatas : List FaultedData) : List Row :=
  faultedDatas.map fun d => ⟨[d.triggerAddress], [replace d.assembler "!!".toList "\n".toList], []⟩

def readoutMemmap (memMapInfos : List MemMapInfo) : List Row :=
  memMapInfos.map fun m => ⟨[m.address, m.size], [], []⟩

/-- The trace, if there is one, by position; after the golden run without its single steps, unless it is
    a ring buffer. -/
def readoutTbexec (goldenrunData : Option GoldenrunData) (ringBuffer : Bool) (tbExecOrders : List TbExec)
    (tblist : List TbInfo) : Result (List TbExec × List TbInfo) :=
  let pdtbexeclist := tbExecOrders.insertionSort fun a b => a.pos ≤ b.pos
  match goldenrunData with
  | none => .ok (pdtbexeclist, tblist)
  | some golden =>
    if tbExecOrders.isEmpty then .ok ([], tblist)
    else if ringBuffer then .ok (pdtbexeclist.reverse, tblist)
    else do
      let _ ← goldenFrame golden.tbexec
      filterTb pdtbexeclist tblist (← goldenFrame golden.tbinfo)

/-- `output[keyword] = data` if the flag is set. -/
def setDataset (output : Output) (flag : Bool) (keyword : Text) (data : Result (List Row)) :
    Result Output :=
  if flag then data.map fun rows => output.insert keyword rows else .ok output

def readoutData (index : Int) (faultlist : List ConfigFault) (goldenrunData : Option GoldenrunData)
    (ringBuffer : Bool) (data : Data) : Result ExperimentResult := do
  let tblist := readoutTbinfo data.tbInformations
  let memlist := connectMeminfoTb (readoutMeminfo data.memInfos) tblist
  let (pdtbexeclist, tblist) ← readoutTbexec goldenrunData ringBuffer data.tbExecOrders tblist
  let output : Output :=
    (∅ : Output).insert "memdumplist".toList ((readoutMemdump data.memDumpInfos).map Memdump.row)
  let output ← setDataset output (!data.faultedDatas.isEmpty) "tbfaulted".toList
    (.ok (readoutTbFaulted data.faultedDatas))
  let output ← setDataset output (!data.tbInformations.isEmpty) "tbinfo".toList
    ((outputWrtGoldenrun goldenrunData GoldenrunData.tbinfo tblist).map (List.map TbInfo.row))
  let output ← setDataset output (!data.tbExecOrders.isEmpty) "tbexec".toList
    ((outputWrtGoldenrun goldenrunData GoldenrunData.tbexec pdtbexeclist).map (List.map TbExec.row))
  let output ← setDataset output (!data.memInfos.isEmpty) "meminfo".toList
    ((outputWrtGoldenrun goldenrunData GoldenrunData.meminfo memlist).map (List.map MemInfoRow.row))
  let output ← setDataset output (regtype data.archType).isSome
    ((regtype data.archType).getD [] ++ "registers".toList)
    (readoutRegisters data.archType data.registerDumps)
  let output ← setDataset output (!data.memMapInfos.isEmpty) "memmaplist".toList
    (.ok (readoutMemmap data.memMapInfos))
  return ⟨index, faultlist, some data.architecture, output⟩

/-! ### Unicorn -/

inductive UnicornArchitecture where
  | arm | riscv64 | aarch64
  deriving DecidableEq

/-- The worker panics on other names. -/
def unicornArchitecture (archStr : Text) : Option UnicornArchitecture :=
  if archStr = "arm".toList then some .arm
  else if archStr = "riscv64".toList then some .riscv64
  else if archStr = "aarch64".toList then some .aarch64
  else none

/-- The keys of a register dump, in the order of the columns. -/
def registerNames : UnicornArchitecture → List Text
  | .arm => ["pc".toList, "tbcounter".toList] ++ (List.range 16).map (fun i : ℕ => 'r' :: strInt i) ++
      ["xpsr".toList]
  | .riscv64 => ["pc".toList, "tbcounter".toList] ++ (List.range 32).map (fun i : ℕ => 'x' :: strInt i)
  | .aarch64 => ["pc".toList, "tbcounter".toList] ++ (List.range 31).map (fun i : ℕ => 'x' :: strInt i) ++
      ["sp".toList, "cpsr".toList]

def registerRow (arch : UnicornArchitecture) (dump : Text → BitVec 64) : Row :=
  ⟨(registerNames arch).map fun name => ((dump name).toNat : Int), [], []⟩

/-- What `run_unicorn` returns. -/
structure Logs where
  meminfo : List MemInfoRow
  tbinfo : List TbInfo
  tbexec : List TbExec
  registerlist : List (Text → BitVec 64)
  memdumps : List (ℕ × MemDump)

def unicornMemdump (e : ℕ × MemDump) : Memdump where
  address := e.1
  len := e.2.len
  numdumps := e.2.dumps.length
  dumps := e.2.dumps.map fun dump => dump.map BitVec.toNat

/-- `arch` is the target with the name `architecture`. -/
def pythonWorkerUnicorn (index : Int) (faultlist : List ConfigFault) (architecture : Text)
    (arch : UnicornArchitecture) (goldenrunData : GoldenrunData) (logs : Logs) :
    Result ExperimentResult := do
  let output := (∅ : Output).insert "memdumplist".toList
    (logs.memdumps.map fun e => (unicornMemdump e).row)
  let output := output.insert "meminfo".toList (logs.meminfo.map MemInfoRow.row)
  let _ ← goldenFrame goldenrunData.tbexec
  let (pdtbexeclist, tblist) ← filterTb logs.tbexec logs.tbinfo (← goldenFrame goldenrunData.tbinfo)
  let tbexec ← outputWrtGoldenrun (some goldenrunData) GoldenrunData.tbexec pdtbexeclist
  let output := output.insert "tbexec".toList (tbexec.map TbExec.row)
  let tbinfo ← outputWrtGoldenrun (some goldenrunData) GoldenrunData.tbinfo tblist
  let output := output.insert "tbinfo".toList (tbinfo.map TbInfo.row)
  let output := output.insert (architecture ++ "registers".toList)
    (logs.registerlist.map (registerRow arch))
  return ⟨index, faultlist, none, output⟩

inductive Engine where
  | qemu | unicorn
  deriving DecidableEq

/-- A result that a worker puts into the queue. The plugin reports its memory regions, the Unicorn
    worker lists the values of its map in any order. -/
inductive PutBy : Engine → Text → ExperimentResult → Prop
  | pythonWorker (s : Plugin.State) (numberOfRegions : ℕ) (calls : List MemCall) (data : Data)
      (index : Int) (faultlist : List ConfigFault) (goldenrunData : Option GoldenrunData)
      (ringBuffer : Bool) (exp : ExperimentResult)
      (hdumps : data.memDumpInfos = reportedRegions s numberOfRegions calls)
      (hput : readoutData index faultlist goldenrunData ringBuffer data = .ok exp) :
      PutBy .qemu data.architecture exp
  | pythonWorkerUnicorn (env : Env) (cpu : Cpu) (ends memorydump : List (ℕ × ℕ))
      (faults : List Worker.Fault) (count : ℕ) (calls : ℕ → List UnicornEvent) (fuel : ℕ)
      (r : MainLoop) (logs : Logs) (architecture : Text) (arch : UnicornArchitecture) (index : Int)
      (faultlist : List ConfigFault) (goldenrunData : GoldenrunData) (exp : ExperimentResult)
      (harch : unicornArchitecture architecture = some arch)
      (hrun : MainLoop.runUnicorn env cpu ends memorydump faults count calls fuel = .finished r)
      (hlogs : logs.memdumps.Perm r.emulation.state.memdumps)
      (hput : pythonWorkerUnicorn index faultlist architecture arch goldenrunData logs = .ok exp) :
      PutBy .unicorn architecture exp

/-! ### Keywords -/

variable {output output' : Output} {flag : Bool} {keyword : Text} {rows : Result (List Row)}
  {exp : ExperimentResult} {engine : Engine} {architecture : Text}

def keywords : List Text := hdf5Datasets.map Prod.snd

/-- The dumps are in the output, the other keywords of it are known too. -/
structure Collected (output : Output) (memdumplist : List Memdump) : Prop where
  known : ∀ keyword ∈ output, keyword ∈ keywords
  dumps : output.lookup "memdumplist".toList = some (memdumplist.map Memdump.row)

theorem Collected.insert {memdumplist : List Memdump} (h : Collected output memdumplist)
    (hknown : keyword ∈ keywords) (hne : keyword ≠ "memdumplist".toList) (rows : List Row) :
    Collected (output.insert keyword rows) memdumplist where
  known k hk := ((AList.mem_insert _).mp hk).elim (fun hk => hk ▸ hknown) (h.known k)
  dumps := (AList.lookup_insert_ne hne.symm).trans h.dumps

theorem Collected.setDataset {memdumplist : List Memdump} (h : Collected output memdumplist)
    (hknown : flag = true → keyword ∈ keywords) (hne : keyword ≠ "memdumplist".toList)
    (hset : setDataset output flag keyword rows = .ok output') : Collected output' memdumplist := by
  rw [Campaign.setDataset] at hset
  split at hset
  · next hflag =>
    rcases rows with e | rows
    · cases hset
    · obtain rfl := Except.ok.inj hset
      exact h.insert (hknown hflag) hne rows
  · obtain rfl := Except.ok.inj hset
    exact h

theorem collected_memdumplist (memdumplist : List Memdump) : Collected
    ((∅ : Output).insert "memdumplist".toList (memdumplist.map Memdump.row)) memdumplist where
  known k hk := ((AList.mem_insert _).mp hk).elim (fun hk => hk ▸ by decide)
    fun hk => absurd hk (AList.notMem_empty k)
  dumps := AList.lookup_insert _

/-- A keyword that ends like one of the registers is not that of the dumps. -/
theorem append_registers_ne (regtype : Text) : regtype ++ "registers".toList ≠ "memdumplist".toList := by
  intro h
  have hlast := congrArg List.getLast? h
  rw [List.getLast?_append_of_ne_nil _ (by decide)] at hlast
  exact absurd hlast (by decide)

theorem regtype_keyword {archType : ℕ} (h : (regtype archType).isSome = true) :
    (regtype archType).getD [] ++ "registers".toList ∈ keywords := by
  unfold regtype at h ⊢
  split
  · decide
  · split
    · decide
    · split
      · decide
      · next h₀ h₁ h₂ => simp [h₀, h₁, h₂] at h

/-- The keywords of a QEMU result are all known. -/
theorem readoutData_collected {index : Int} {faultlist : List ConfigFault}
    {goldenrunData : Option GoldenrunData} {ringBuffer : Bool} {data : Data}
    (h : readoutData index faultlist goldenrunData ringBuffer data = .ok exp) :
    Collected exp.datasets (readoutMemdump data.memDumpInfos) := by
  unfold readoutData at h
  obtain ⟨⟨pdtbexeclist, tblist⟩, -, h⟩ := bind_eq_ok.mp h
  obtain ⟨output₁, h₁, h⟩ := bind_eq_ok.mp h
  obtain ⟨output₂, h₂, h⟩ := bind_eq_ok.mp h
  obtain ⟨output₃, h₃, h⟩ := bind_eq_ok.mp h
  obtain ⟨output₄, h₄, h⟩ := bind_eq_ok.mp h
  obtain ⟨output₅, h₅, h⟩ := bind_eq_ok.mp h
  obtain ⟨output₆, h₆, h⟩ := bind_eq_ok.mp h
  obtain rfl := Except.ok.inj h
  have hc₁ := (collected_memdumplist _).setDataset (fun _ => by decide) (by decide) h₁
  have hc₂ := hc₁.setDataset (fun _ => by decide) (by decide) h₂
  have hc₃ := hc₂.setDataset (fun _ => by decide) (by decide) h₃
  have hc₄ := hc₃.setDataset (fun _ => by decide) (by decide) h₄
  have hc₅ := hc₄.setDataset regtype_keyword (append_registers_ne _) h₅
  exact hc₅.setDataset (fun _ => by decide) (by decide) h₆

/-- Those of a Unicorn result are, but for the registers of one target. -/
theorem pythonWorkerUnicorn_datasets {index : Int} {faultlist : List ConfigFault}
    {arch : UnicornArchitecture} {goldenrunData : GoldenrunData} {logs : Logs}
    (h : pythonWorkerUnicorn index faultlist architecture arch goldenrunData logs = .ok exp) :
    ∃ output rows, Collected output (logs.memdumps.map unicornMemdump) ∧
      exp.datasets = output.insert (architecture ++ "registers".toList) rows := by
  obtain ⟨-, -, h⟩ := bind_eq_ok.mp h
  obtain ⟨golden, -, h⟩ := bind_eq_ok.mp h
  obtain ⟨⟨pdtbexeclist, tblist⟩, -, h⟩ := bind_eq_ok.mp h
  obtain ⟨tbexec, -, h⟩ := bind_eq_ok.mp h
  obtain ⟨tbinfo, -, h⟩ := bind_eq_ok.mp h
  obtain rfl := Except.ok.inj h
  refine ⟨_, _, ?_, rfl⟩
  have hc := collected_memdumplist (logs.memdumps.map unicornMemdump)
  rw [List.map_map] at hc
  exact ((hc.insert (by decide) (by decide) _).insert (by decide) (by decide) _).insert
    (by decide) (by decide) _

theorem unicornArchitecture_cases {arch : UnicornArchitecture}
    (h : unicornArchitecture architecture = some arch) : architecture = "arm".toList ∨
      architecture = "riscv64".toList ∨ architecture = "aarch64".toList := by
  unfold unicornArchitecture at h
  split at h
  · next ha => exact .inl ha
  · split at h
    · next hr => exact .inr (.inl hr)
    · split at h
      · next ha => exact .inr (.inr ha)
      · cases h

theorem PutBy.known_iff (h : PutBy engine architecture exp) :
    Hdf5.Known exp ↔ ¬ (engine = .unicorn ∧ architecture = "riscv64".toList) := by
  cases h with
  | pythonWorker s numberOfRegions calls data index faultlist goldenrunData ringBuffer _ hdumps hput =>
    exact iff_of_true (readoutData_collected hput).known fun h => by cases h.1
  | pythonWorkerUnicorn env cpu ends memorydump faults count calls fuel r logs _ arch index faultlist
      goldenrunData _ harch hrun hlogs hput =>
    obtain ⟨output, rows, hcollected, hdatasets⟩ := pythonWorkerUnicorn_datasets hput
    have hknown : Hdf5.Known exp ↔ architecture ++ "registers".toList ∈ keywords := by
      rw [Hdf5.Known, hdatasets]
      simp only [AList.mem_insert]
      constructor
      · exact fun h => h _ (.inl rfl)
      · rintro h keyword (rfl | hkeyword)
        · exact h
        · exact hcollected.known keyword hkeyword
    rw [hknown]
    rcases unicornArchitecture_cases harch with rfl | rfl | rfl
    · exact iff_of_true (by decide) (by decide)
    · exact iff_of_false (by decide) (by decide)
    · exact iff_of_true (by decide) (by decide)

/-! ### Dumps -/

/-- No two regions agree in address, length and number of their dumps. -/
def ExperimentResult.DistinctRegions (exp : ExperimentResult) : Prop :=
  ∀ rows, exp.datasets.lookup "memdumplist".toList = some rows → (rows.map fun r => r.cells.take 3).Nodup

theorem distinctRegions_iff : exp.DistinctRegions ↔
    ∀ rows, exp.datasets.lookup "memdumplist".toList = some rows → Hdf5.newDumps [] rows = rows := by
  refine forall₂_congr fun rows _ => Iff.trans ?_ Hdf5.newDumps_eq_self_iff.symm
  exact (and_iff_left fun _ _ => List.not_mem_nil).symm

/-- A region of QEMU that is left out is there a second time. -/
theorem subset_newDumps (s : Plugin.State) (numberOfRegions : ℕ) (calls : List MemCall) :
    (readoutMemdump (reportedRegions s numberOfRegions calls)).map Memdump.row ⊆
      Hdf5.newDumps [] ((readoutMemdump (reportedRegions s numberOfRegions calls)).map Memdump.row) := by
  rw [newDumps_eq_storedDumps]
  refine List.map_subset _ (subset_storedDumps_iff.mpr fun m hm m' hm' => ?_)
  exact name_readoutMemdump_inj hm hm'

/-- The Unicorn worker has one region for each address. -/
theorem nodup_unicornMemdumps {memdumps : List (ℕ × MemDump)} (h : (memdumps.map Prod.fst).Nodup) :
    (((memdumps.map unicornMemdump).map Memdump.row).map fun r => r.cells.take 3).Nodup := by
  refine List.Nodup.of_map List.head? ?_
  have haddress : (((memdumps.map unicornMemdump).map Memdump.row).map fun r => r.cells.take 3).map
      List.head? = (memdumps.map Prod.fst).map fun address : ℕ => some (address : Int) := by
    simp only [List.map_map]
    rfl
  rw [haddress]
  exact h.map fun a b hab => by simpa using hab

theorem PutBy.subset_newDumps (h : PutBy engine architecture exp) :
    (∀ rows, exp.datasets.lookup "memdumplist".toList = some rows → rows ⊆ Hdf5.newDumps [] rows) ∧
      (engine = .unicorn → exp.DistinctRegions) := by
  cases h with
  | pythonWorker s numberOfRegions calls data index faultlist goldenrunData ringBuffer _ hdumps hput =>
    refine ⟨fun rows hrows => ?_, nofun⟩
    rw [(readoutData_collected hput).dumps, hdumps] at hrows
    obtain rfl := Option.some.inj hrows
    exact Campaign.subset_newDumps s numberOfRegions calls
  | pythonWorkerUnicorn env cpu ends memorydump faults count calls fuel r logs _ arch index faultlist
      goldenrunData _ harch hrun hlogs hput =>
    obtain ⟨output, registers, hcollected, hdatasets⟩ := pythonWorkerUnicorn_datasets hput
    have hdistinct : exp.DistinctRegions := by
      intro rows hrows
      rw [hdatasets, AList.lookup_insert_ne (append_registers_ne architecture).symm,
        hcollected.dumps] at hrows
      obtain rfl := Option.some.inj hrows
      refine nodup_unicornMemdumps ((hlogs.map Prod.fst).nodup_iff.mpr ?_)
      exact MainLoop.runUnicorn_distinctDumps hrun
    exact ⟨fun rows hrows => (distinctRegions_iff.mp hdistinct rows hrows).symm ▸ List.Subset.refl _,
      fun _ => hdistinct⟩

/-- The group has all rows of a result iff its values fit, unless they are those of a riscv64 target in
    Unicorn. The tables are the datasets iff no region of QEMU is configured twice, besides. -/
theorem writeGroup_complete_iff {lib : Hdf5} (hlib : lib.Lawful) (hput : PutBy engine architecture exp) :
    ((∃ group, lib.writeGroup exp = .ok group ∧ group.Contains exp) ↔
      ¬ (engine = .unicorn ∧ architecture = "riscv64".toList) ∧ lib.ResultFits exp) ∧
    ((∃ group, lib.writeGroup exp = .ok group ∧ group.Equals exp) ↔
      ¬ (engine = .unicorn ∧ architecture = "riscv64".toList) ∧ lib.ResultFits exp ∧
        (engine = .qemu → exp.DistinctRegions)) := by
  obtain ⟨hsubset, hdistinct⟩ := hput.subset_newDumps
  rw [hlib.contains_iff, hlib.equals_iff, ← distinctRegions_iff, hput.known_iff]
  refine ⟨and_congr_right fun _ => and_iff_left hsubset,
    and_congr_right fun _ => and_congr_right fun _ => ?_⟩
  constructor
  · exact fun h _ => h
  · intro h
    cases engine with
    | qemu => exact h rfl
    | unicorn => exact hdistinct rfl

/-! ### One target after the other -/

/-- A golden run of one TB. -/
def startGolden : GoldenrunData :=
  ⟨some [⟨0x100, 0⟩], some [⟨0x100, 2, 1, 1, "[ 100 ]: nop \n".toList⟩], some []⟩

/-- An experiment that ends up elsewhere. -/
def trapLogs : Logs :=
  ⟨[], [⟨0x200, 2, 1, 1, "[ 200 ]: ebreak \n".toList⟩], [⟨0x200, 0⟩], [fun _ => 0], []⟩

def trapResult (architecture : Text) (arch : UnicornArchitecture) : ExperimentResult where
  index := 0
  faultlist := []
  architecture := none
  datasets := (((((∅ : Output).insert "memdumplist".toList []).insert "meminfo".toList []).insert
    "tbexec".toList [⟨[0x200, 0], [], []⟩]).insert
    "tbinfo".toList [⟨[0x200, 2, 1, 1], ["[ 200 ]: ebreak \n".toList], []⟩]).insert
    (architecture ++ "registers".toList) [registerRow arch fun _ => 0]

theorem filterTb_trapLogs : filterTb trapLogs.tbexec trapLogs.tbinfo
    [⟨0x100, 2, 1, 1, "[ 100 ]: nop \n".toList⟩] = .ok (trapLogs.tbexec, trapLogs.tbinfo) := by
  decide

theorem trapResult_put {arch : UnicornArchitecture} (h : unicornArchitecture architecture = some arch) :
    PutBy .unicorn architecture (trapResult architecture arch) := by
  refine .pythonWorkerUnicorn Env.plain Worker.zeroCpu [] [] [MainLoop.codeFault] 1
    (fun _ => [.block 0x200 2, .insn 0x200]) 1 _ trapLogs architecture arch 0 [] startGolden _ h rfl
    (List.Perm.refl []) ?_
  unfold pythonWorkerUnicorn
  refine bind_eq_ok.mpr ⟨_, rfl, bind_eq_ok.mpr ⟨_, rfl, bind_eq_ok.mpr ⟨_, filterTb_trapLogs, ?_⟩⟩⟩
  exact bind_eq_ok.mpr ⟨trapLogs.tbexec, by decide, bind_eq_ok.mpr ⟨trapLogs.tbinfo, by decide, rfl⟩⟩

theorem Hdf5.plain_lawful : Hdf5.plain.Lawful where
  int64_of_fits v h₁ h₂ := if_pos ⟨h₁, h₂⟩
  fits_of_int64 v w h := by
    simp only [Hdf5.plain] at h
    split at h
    · next hv => exact Except.ok.inj h ▸ hv
    · cases h
  text_text t t' _ := rfl

theorem forall₂_replicate_iff {α β : Type} {P : α → β → Prop} {a : α} : ∀ {n : ℕ} {l : List β},
    List.Forall₂ P (List.replicate n a) l ↔ l.length = n ∧ ∀ b ∈ l, P a b
  | 0, l => by
    rw [List.replicate_zero, List.forall₂_nil_left_iff]
    constructor
    · rintro rfl
      exact ⟨rfl, nofun⟩
    · exact fun h => List.length_eq_zero_iff.mp h.1
  | n + 1, [] => by simp
  | n + 1, b :: l => by
    rw [List.replicate_succ, List.forall₂_cons, forall₂_replicate_iff, List.forall_mem_cons,
      List.length_cons, Nat.succ_inj]
    exact and_left_comm

/-- The registers of a Unicorn target fit the table for `n` of them. -/
theorem registerRow_fits {lib : Hdf5} {arch : UnicornArchitecture} {n : ℕ}
    (hn : (registerNames arch).length = n) (dump : Text → BitVec 64) :
    lib.RowFits ⟨List.replicate n (.uint 64), 0⟩ (registerRow arch dump) where
  cells := by
    refine forall₂_replicate_iff.mpr ⟨(List.length_map _).trans hn, fun v hv => ?_⟩
    obtain ⟨name, -, rfl⟩ := List.mem_map.mp hv
    exact ⟨Int.natCast_nonneg _, by exact_mod_cast (dump name).isLt⟩
  texts := .nil

theorem trapResult_fits : Hdf5.plain.ResultFits (trapResult "arm".toList .arm) where
  datasets := by
    have hnames : (registerNames .arm).length = 19 := rfl
    have hregisters : Hdf5.plain.RowFits armRegistersTable (registerRow .arm fun _ => 0) :=
      registerRow_fits hnames _
    simp only [hdf5Datasets, List.forall_mem_cons, List.not_mem_nil, IsEmpty.forall_iff, implies_true,
      and_true]
    refine ⟨?_, ?_, ?_, ?_, ?_, ?_, ?_, ?_, ?_⟩ <;> intro rows hrows <;> cases hrows
    · exact List.forall_mem_singleton.mpr ⟨⟨by decide, .cons rfl .nil⟩, rfl⟩
    · exact List.forall_mem_singleton.mpr ⟨⟨by decide, .nil⟩, rfl⟩
    · exact List.forall_mem_nil _
    · exact List.forall_mem_nil _
    · exact List.forall_mem_singleton.mpr ⟨hregisters, rfl⟩
  faults := List.forall_mem_nil _

theorem writeGroup_complete_iff_arm : ∃ group,
    Hdf5.plain.writeGroup (trapResult "arm".toList .arm) = .ok group ∧
      group.Equals (trapResult "arm".toList .arm) := by
  have hput : PutBy .unicorn "arm".toList (trapResult "arm".toList .arm) := trapResult_put rfl
  refine (writeGroup_complete_iff Hdf5.plain_lawful hput).2.mpr ⟨by decide, trapResult_fits, nofun⟩

/-- The registers of a riscv64 target are not written, and nothing is said. -/
theorem trapResult_riscv64_incomplete :
    PutBy .unicorn "riscv64".toList (trapResult "riscv64".toList .riscv64) ∧
    (trapResult "riscv64".toList .riscv64).datasets.lookup "riscv64registers".toList
      = some [registerRow .riscv64 fun _ => 0] ∧
    (∃ group, Hdf5.plain.writeGroup (trapResult "riscv64".toList .riscv64) = .ok group) ∧
    ¬ ∃ group, Hdf5.plain.writeGroup (trapResult "riscv64".toList .riscv64) = .ok group ∧
      group.Contains (trapResult "riscv64".toList .riscv64) := by
  refine ⟨trapResult_put rfl, rfl, ⟨_, rfl⟩, fun h => ?_⟩
  have hkey := (Hdf5.plain_lawful.contains_iff.mp h).1 ("riscv64".toList ++ "registers".toList)
    (AList.lookup_isSome.mp rfl)
  exact absurd hkey (by decide)

end Archie.Campaign
