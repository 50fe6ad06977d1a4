import Archie.Worker.State

/-! The hooks of the Unicorn worker, hooks.rs and hooks/util.rs.

    The worker is built in release mode, where integers wrap: in debug mode its first log entry would
    already panic. A priority below zero or above `u64::MAX` wraps, and so does the end of a block. The
    guest's memory is total here, so the reads and writes that are unwrapped do not fail, nor does the
    removal of TBs from the cache. The logs of translation blocks and of memory accesses are left out,
    no other hook reads them. -/

namespace Archie.Worker
open LittleEndian

/-! ### util.rs -/

def applyModel (data : ℕ) (f : Fault) : ℕ :=
  match f.model with
  | .set0 => data ^^^ (data &&& f.mask)
  | .set1 => data ||| f.mask
  | .toggle => data ^^^ ((1 <<< data.size) - 1)
  | .overwrite => f.mask

/-- How many bytes a fault changes in memory. -/
def calculateFaultSize (env : Env) (f : Fault) : ℕ :=
  if f.model = .overwrite then f.numBytes else env.maskSize f.mask

namespace State

variable (env : Env) (s : State)

def dumpMemory (address size : ℕ) : State :=
  let dump := s.cpu.read address size
  match s.memdumps.lookup address with
  | some m => { s with memdumps := insertKey s.memdumps address { m with dumps := m.dumps ++ [dump] } }
  | none => { s with memdumps := insertKey s.memdumps address ⟨size, [dump]⟩ }

def dumpRegisters : State :=
  { s with registerlist := s.registerlist ++ [(s.tbcounter, s.cpu.regs)] }

/-- Restores what the live fault of the highest priority changed, if its time has come; returns that
    fault. -/
def undoFaults : Option (State × Option Fault) :=
  match env.peek s.liveFaults with
  | none => some (s, none)
  | some ((address, prefaultData), priority) =>
    let lifespan := (2 ^ 64 - 1) - priority
    if lifespan > s.instructionCount then some (s, none)
    else
      match s.faults.lookup address with
      | none => none
      | some f =>
        let s := { s with
          liveFaults := popLive s.liveFaults (address, prefaultData)
          undone := s.undone ++ [(address, s.instructionCount)] }
        match f.type with
        | .register =>
          if prefaultData < 2 ^ 64 then
            some ({ s with cpu := s.cpu.writeReg f.address (BitVec.ofNat 64 prefaultData) }, some f)
          else none
        | .data | .instruction =>
          some ({ s with cpu := s.cpu.write f.address (toBytes prefaultData) }, some f)

/-! ### hooks.rs -/

/-- Installs the single step hook before a temporary fault is due, removes it when none is live. -/
def blockHookCb (address size : ℕ) : State :=
  let s := { s with lastTbid := address, lastTbSize := size, tbcounter := s.tbcounter + 1 }
  let s := if s.liveFaults = [] ∧ s.singleStepHook = true then { s with singleStepHook := false } else s
  if s.singleStepHook = true then s
  else if s.faults.any fun e => decide (e.2.lifespan ≠ 0 ∧ e.2.trigger.hitcounter = 1 ∧
      e.2.trigger.address ≥ address ∧ e.2.trigger.address ≤ (address + size) % 2 ^ 64) then
    { s with singleStepHook := true }
  else s

/-- The logs of an undone fault. -/
def dumpUndone (address : ℕ) : Option Fault → State
  | some f =>
    if f.type ≠ FaultType.register then
      (s.dumpMemory address (calculateFaultSize env f)).dumpRegisters
    else s.dumpRegisters
  | none => s

def singleStepHookCb (address : ℕ) : Option State := do
  let (s, undone) ← s.undoFaults env
  let s := s.dumpUndone env address undone
  return { s with instructionCount := s.instructionCount + 1 }

/-- The end hook runs before the single step hook of its instruction, so it calls that itself. -/
def lastSingleStep (address : ℕ) : Option State :=
  if s.singleStepHook then s.singleStepHookCb env address else some s

/-- Stops at an end point whose counter is down to one. -/
def endHookCb (address firstEndpoint : ℕ) (memorydump : List (ℕ × ℕ)) : Option State := do
  let counter ← s.endpoints.lookup address
  if counter > 1 then
    return { s with endpoints := insertKey s.endpoints address (counter - 1) }
  let s := { s with endpoint := (decide (address = firstEndpoint), address, 1) }
  let s ← s.lastSingleStep env address
  let s := memorydump.foldl (fun s d => s.dumpMemory d.1 d.2) s
  return { s with stopped := true }

/-- The fault's bytes in memory, before and after; fails when the new value is longer than the
    fault. -/
def faultMemory (f : Fault) : Option (State × ℕ) :=
  let faultSize := calculateFaultSize env f
  let data := fromBytes (s.cpu.read f.address faultSize)
  let s := s.dumpMemory f.address faultSize
  let faultData := toBytes (applyModel data f)
  if faultData.length ≤ faultSize then
    let faultData := faultData ++ List.replicate (faultSize - faultData.length) 0
    some ({ s with cpu := s.cpu.write f.address faultData }, data)
  else none

/-- An instruction fault in the TB being executed stops emulation, to re-enter at its trigger. -/
def requestReenter (f : Fault) (address : ℕ) : State :=
  if f.type = .instruction ∧ f.address ≥ s.lastTbid ∧
      f.address < (s.lastTbid + s.lastTbSize) % 2 ^ 64 then
    { s with reenterAddress := some address, stopped := true }
  else s

def faultRegister (f : Fault) : Option (State × ℕ) :=
  let data := (s.cpu.regs f.address).toNat
  let newValue := applyModel data f
  if newValue < 2 ^ 64 then
    some ({ s with cpu := s.cpu.writeReg f.address (BitVec.ofNat 64 newValue) }, data)
  else none

/-- The injection itself: the state and the data before the fault. -/
def injectFault (f : Fault) (address : ℕ) : Option (State × ℕ) :=
  match f.type with
  | .register => s.faultRegister f
  | .data | .instruction => do
    let (s, data) ← s.faultMemory env f
    return ((s.requestReenter f address).dumpMemory f.address (calculateFaultSize env f), data)

/-- The priority of a live fault, in 64 bits. -/
def livePriority (lifespan instructionCount : ℕ) : ℕ :=
  ((2 ^ 64 - 1) - lifespan + instructionCount) % 2 ^ 64

/-- A temporary fault is live from its injection on. -/
def addLiveFault (f : Fault) (prefaultData : ℕ) : State :=
  if f.lifespan ≠ 0 then
    let priority := livePriority f.lifespan s.instructionCount
    { s with liveFaults := pushLive s.liveFaults (f.trigger.address, prefaultData) priority }
  else s

def faultHookCb (address : ℕ) : Option State := do
  let f ← s.faults.lookup address
  if f.trigger.hitcounter = 0 then return s
  let f := f.setHitcounter (f.trigger.hitcounter - 1)
  let s := { s with faults := insertKey s.faults address f }
  if f.trigger.hitcounter ≥ 1 then return s
  let (s, prefaultData) ← s.injectFault env f address
  let s := { s with injected := s.injected ++ [Injection.mk f s.instructionCount] }
  return (s.addLiveFault f prefaultData).dumpRegisters

/-- Every end point gets a hook. -/
def initializeEndHook (ends : List (ℕ × ℕ)) : State :=
  ends.foldl (fun s e => { s with
    endpoints := insertKey s.endpoints e.1 e.2
    endHooks := s.endHooks ++ [e.1] }) s

/-- Every fault goes into the map and gets a hook of its own. -/
def initializeFaultHook (faults : List Fault) : State :=
  faults.foldl (fun s f => { s with
    faults := insertKey s.faults f.trigger.address f
    faultHooks := s.faultHooks ++ [f.trigger.address] }) s

/-- The worker with all its hooks. -/
def initializeHooks (cpu : Cpu) (ends : List (ℕ × ℕ)) (faults : List Fault) : State :=
  ((State.new cpu).initializeEndHook ends).initializeFaultHook faults

end State

end Archie.Worker
