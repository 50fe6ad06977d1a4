import Archie.Campaign.Backup

/-! The logger process, hdf5logger.py.

    Messages arrive in a queue. Each one gets a group of the file and its tables are written there:

        index    ≥ 0           -1          -2             -3
        group    experiment…   Goldenrun   Pregoldenrun   Backup

    The collector waits until it has seen all experiments and one message for each flag. -/

namespace Archie.Campaign
open Python

/-- The library: the values that its columns and arrays take. -/
structure Hdf5 where
  columns : Columns
  int64 : Int → Result Int
  text : Text → Result Text
  carray : List (List ℕ) → Result Unit

inductive Column where
  | uint (bits : ℕ)
  | int64

/-- The columns of a table: numbers, then texts. -/
structure Table where
  columns : List Column
  texts : ℕ

/-- One entry of a dataset: its numbers and texts in the order of the columns, and its dumps. -/
structure Row where
  cells : List Int
  texts : List Text
  dumps : List (List ℕ)

/-- What a run puts into the queue; a dataset may be missing. -/
structure RunData where
  architecture : Option Text
  tbinfo : Option (List Row)
  tbexec : Option (List Row)
  meminfo : Option (List Row)
  memdumplist : Option (List Row)
  memmaplist : Option (List Row)
  armregisters : Option (List Row)
  riscvregisters : Option (List Row)
  aarch64registers : Option (List Row)
  tbfaulted : Option (List Row)
  faultlist : List ConfigFault

/-- The configuration as far as the file keeps it; the addresses with their counters. -/
structure QemuConfig where
  hash : List Text
  hashFunction : Text
  qemu : Text
  kernel : Text
  plugin : Text
  machine : Text
  additionalQemuArgs : Text
  bios : Text
  maxInstructionCount : Int
  start : Option (Int × Int)
  end_ : Option (List (Int × Int))

inductive Exp where
  | run (data : RunData)
  | backup (config : QemuConfig) (expandedFaultlist : List (List ConfigFault))

structure Message where
  index : Int
  exp : Exp

inductive Group where
  | pregoldenrun
  | goldenrun
  | backup
  | experiment (name : Text)
  deriving DecidableEq

/-! ### Tables -/

def translationBlockTable : Table := ⟨[.uint 64, .uint 64, .uint 64, .uint 64], 1⟩

def translationBlockExecTable : Table := ⟨[.uint 64, .uint 64], 0⟩

def memoryInformationTable : Table := ⟨[.int64, .uint 64, .uint 64, .int64, .uint 8, .uint 64], 0⟩

def memoryDumpTable : Table := ⟨[.uint 64, .uint 64, .uint 64], 0⟩

def memmapTable : Table := ⟨[.uint 64, .uint 64], 0⟩

/-- `pc`, `tbcounter`, `r0` to `r15`, `xpsr` -/
def armRegistersTable : Table := ⟨List.replicate 19 (.uint 64), 0⟩

/-- `pc`, `tbcounter`, `x0` to `x32` -/
def riscvRegistersTable : Table := ⟨List.replicate 35 (.uint 64), 0⟩

/-- `pc`, `tbcounter`, `x0` to `x30`, `sp`, `cpsr` -/
def aarch64RegistersTable : Table := ⟨List.replicate 35 (.uint 64), 0⟩

def translationBlockFaultedTable : Table := ⟨[.uint 64], 1⟩

namespace Hdf5

variable (lib : Hdf5)

def storeCell : Column → Int → Result Unit
  | .uint bits, v => (lib.columns.store bits v).map fun _ => ()
  | .int64, v => (lib.int64 v).map fun _ => ()

def storeText (t : Text) : Result Unit := (lib.text t).map fun _ => ()

/-- Fills the columns from the entries of a row, a `KeyError` where one is missing. -/
def storeRow {α β : Type} (store : α → β → Result Unit) : List α → List β → Result Unit
  | [], _ => .ok ()
  | _ :: _, [] => .error .keyError
  | c :: cs, v :: vs => do
    store c v
    storeRow store cs vs

def processTable (t : Table) (rows : List Row) : Result Unit :=
  rows.forM fun r => do
    storeRow lib.storeCell t.columns r.cells
    storeRow (fun _ => lib.storeText) (List.replicate t.texts ()) r.texts

def processTbinfo : List Row → Result Unit := lib.processTable translationBlockTable

def processTbexec : List Row → Result Unit := lib.processTable translationBlockExecTable

def processMemoryInfo : List Row → Result Unit := lib.processTable memoryInformationTable

def processMemmap : List Row → Result Unit := lib.processTable memmapTable

def processArmRegisters : List Row → Result Unit := lib.processTable armRegistersTable

def processRiscvRegisters : List Row → Result Unit := lib.processTable riscvRegistersTable

def processAarch64Registers : List Row → Result Unit := lib.processTable aarch64RegistersTable

def processTbFaulted : List Row → Result Unit := lib.processTable translationBlockFaultedTable

/-- The first dump of each name; a name spells address, length and number of the dumps. -/
def newDumps : List (List Int) → List Row → List Row
  | _, [] => []
  | names, r :: rows =>
    if r.cells.take 3 ∈ names then newDumps names rows else r :: newDumps (r.cells.take 3 :: names) rows

def processDumps (rows : List Row) : Result Unit :=
  (newDumps [] rows).forM fun r => do
    lib.processTable memoryDumpTable [r]
    lib.carray r.dumps

/-! ### Messages -/

/-- A dataset, where there is one. -/
def processDataset (fn : List Row → Result Unit) : Option (List Row) → Result Unit
  | some rows => fn rows
  | none => .ok ()

/-- A fault whose address or mask is a dictionary has no columns. -/
def intFault (f : ConfigFault) : Result IntFault :=
  match f.address, f.mask with
  | .int address, .int mask => .ok { f with address := address, mask := mask }
  | _, _ => .error .typeError

def logRun (d : RunData) : Result Unit := do
  processDataset lib.processTbinfo d.tbinfo
  processDataset lib.processTbexec d.tbexec
  processDataset lib.processMemoryInfo d.meminfo
  processDataset lib.processDumps d.memdumplist
  processDataset lib.processMemmap d.memmaplist
  processDataset lib.processArmRegisters d.armregisters
  processDataset lib.processRiscvRegisters d.riscvregisters
  processDataset lib.processAarch64Registers d.aarch64registers
  processDataset lib.processTbFaulted d.tbfaulted
  let faultlist ← d.faultlist.mapM intFault
  let _ ← processFaults lib.columns faultlist

def processConfig (exp : QemuConfig) : Result Unit := do
  exp.hash.forM lib.storeText
  lib.storeText exp.hashFunction
  [exp.qemu, exp.kernel, exp.plugin, exp.machine, exp.additionalQemuArgs, exp.bios].forM lib.storeText
  lib.storeCell (.uint 64) exp.maxInstructionCount
  match exp.start with
  | none => .error .keyError
  | some start =>
    lib.storeCell (.uint 64) start.1
    lib.storeCell (.uint 64) start.2
    match exp.end_ with
    | none => .error .keyError
    | some ends => ends.forM fun endpoint => do
      lib.storeCell (.uint 64) endpoint.1
      lib.storeCell (.uint 64) endpoint.2

/-- The configuration, then the number of faults and the faults. -/
def logBackup (config : QemuConfig) (expandedFaultlist : List (List ConfigFault)) : Result Unit := do
  lib.processConfig config
  let faultlists ← expandedFaultlist.mapM fun faultlist => faultlist.mapM intFault
  let _ ← processBackup lib.columns (fun _ => false) (faultlists.map fun faultlist => ⟨0, faultlist⟩)

end Hdf5

/-! ### The collector -/

/-- The variables of the collector; the file holds a group for each message written. -/
structure Collector where
  width : ℕ
  numExp : Int
  logGoldenrun : Bool
  logPregoldenrun : Bool
  logConfig : Bool
  file : List (Group × Message)

namespace Collector

variable (lib : Hdf5) (s : Collector)

def groupname (index : ℕ) : Text := "experiment".toList ++ formatPadded s.width index

def groups : List Group := s.file.map Prod.fst

def createGroup (group : Group) (error : PyError) : Result Unit :=
  if group ∈ s.groups then .error error else .ok ()

/-- The first free index; one of the next ones is, whatever the file holds. -/
def freeIndex (index : ℕ) : ℕ :=
  ((List.range' index (s.file.length + 1)).find? fun i =>
    decide (.experiment (s.groupname i) ∉ s.groups)).getD index

/-- The group for a message and the variables after that; `none` for a message that is dropped. -/
def expGroup (m : Message) : Result (Option (Group × Collector)) :=
  if m.index ≥ 0 then do
    let group := .experiment (s.groupname (s.freeIndex m.index.toNat))
    s.createGroup group .nodeError
    return some (group, { s with numExp := s.numExp - 1 })
  else if m.index = -2 ∧ s.logPregoldenrun = true then do
    s.createGroup .pregoldenrun .valueError
    return some (.pregoldenrun, { s with logPregoldenrun := false })
  else if m.index = -1 ∧ s.logGoldenrun = true then do
    s.createGroup .goldenrun .valueError
    return some (.goldenrun, { s with logGoldenrun := false })
  else if m.index = -3 ∧ s.logConfig = true then do
    s.createGroup .backup .nodeError
    return some (.backup, { s with logConfig := false })
  else return none

/-- A run needs its keys, so does a backup; only the pre-golden run is asked for its architecture. -/
def write (group : Group) (m : Message) : Result Unit :=
  match m.exp with
  | .run d =>
    if group = .backup then .error .keyError
    else if group = .pregoldenrun ∧ d.architecture = none then .error .keyError
    else lib.logRun d
  | .backup config expandedFaultlist =>
    if group = .backup then lib.logBackup config expandedFaultlist else .error .keyError

def handle (m : Message) : Result Collector := do
  match ← s.expGroup m with
  | none => return s
  | some (group, s) => do
    write lib group m
    return { s with file := s.file ++ [(group, m)] }

/-- The variables before the loop: the pre-golden run is logged with the golden run. -/
def start (file : List (Group × Message)) (numExp : ℕ) (logGoldenrun logConfig : Bool) : Collector :=
  { width := (Nat.toDigits 10 numExp).length
    numExp := numExp
    logGoldenrun
    logPregoldenrun := logGoldenrun
    logConfig
    file }

def running : Bool :=
  decide (s.numExp > 0) || s.logGoldenrun || s.logPregoldenrun || s.logConfig

end Collector

/-- The loop of the collector, as far as messages arrive; what it leaves in the queue. -/
def hdf5collector (lib : Hdf5) : Collector → List Message → Result (Collector × List Message)
  | s, [] => .ok (s, [])
  | s, m :: ms =>
    if s.running then do
      let s ← s.handle lib m
      hdf5collector lib s ms
    else .ok (s, m :: ms)

/-! ### A campaign with a golden run -/

/-- An experiment that is scheduled, with what its worker puts into the queue. -/
structure Scheduled where
  index : Int
  faultlist : List ConfigFault
  output : RunData

/-- A campaign after its golden run; `file` is what the file holds when the logger opens it. -/
structure Session where
  configQemu : QemuConfig
  pregoldenrun : RunData
  goldenrun : RunData
  goldenrunOnly : Bool
  faultlist : List Scheduled
  file : List (Group × Message)

namespace Session

variable (c : Session)

/-- `run_goldenrun` -/
def goldenrunMessages : List Message :=
  (if c.configQemu.start.isSome then [⟨-2, .run c.pregoldenrun⟩] else []) ++ [⟨-1, .run c.goldenrun⟩]

/-- `create_backup` -/
def backup : Message := ⟨-3, .backup c.configQemu (c.faultlist.map Scheduled.faultlist)⟩

def scheduled : List Scheduled := if c.goldenrunOnly then [] else c.faultlist

/-- One worker per scheduled experiment. -/
def workers : List Message := c.scheduled.map fun e => ⟨e.index, .run e.output⟩

def messages : List Message := c.goldenrunMessages ++ c.backup :: c.workers

/-- The logger as the controller starts it with a golden run; it passes the two flags in each other's
    place. -/
def logger : Collector :=
  let logConfig := true
  let logGoldenrun := true
  Collector.start c.file c.scheduled.length logConfig logGoldenrun

end Session

end Archie.Campaign
