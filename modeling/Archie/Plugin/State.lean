import Archie.Plugin.FaultList

/-! The global variables of the QEMU plugin and the state of the virtual CPU it changes.

    `Faultplugin` holds the variables of faultplugin.c. Those of singlestep.c, faultdata.c,
    registerdump.c and tb_faulted_collection.c come with the functions of these files. -/

namespace Archie.Plugin

/-- A translated instruction as the plugin API shows it. -/
structure Insn where
  vaddr : ℕ
  size : ℕ
  disas : List Char
  deriving DecidableEq

/-- A translation block: instructions without gaps, none of them empty. -/
structure Tb where
  insns : List Insn
  nonempty : insns ≠ []
  sized : ∀ i ∈ insns, 0 < i.size
  contiguous : insns.IsChain fun i j => j.vaddr = i.vaddr + i.size

namespace Tb

variable (tb : Tb)

/-- `qemu_plugin_tb_vaddr` -/
def vaddr : ℕ := (tb.insns.head tb.nonempty).vaddr

/-- `calculate_bytesize_instructions` -/
def bytesize : ℕ :=
  let last := tb.insns.getLast tb.nonempty
  last.vaddr - tb.vaddr + last.size

/-- The TB tests of the translation callbacks, where the end of a TB is a `uint64_t`. -/
def Meets (address : ℕ) : Prop :=
  tb.vaddr ≤ address ∧ (tb.vaddr + tb.bytesize) % 2 ^ 64 > address

instance (address : ℕ) : Decidable (tb.Meets address) := inferInstanceAs (Decidable (_ ∧ _))

end Tb

/-- The instruction test of `evaluate_trigger`; the end of the instruction wraps, too. -/
def Insn.Meets (i : Insn) (address : ℕ) : Prop :=
  address ≥ i.vaddr ∧ address < (i.vaddr + i.size) % 2 ^ 64

instance (i : Insn) (address : ℕ) : Decidable (i.Meets address) :=
  inferInstanceAs (Decidable (_ ∧ _))

/-- The address is a byte of the instruction. No function of the plugin computes this: it says what the
    executions of an instruction are. -/
def Insn.Contains (i : Insn) (address : ℕ) : Prop :=
  address ≥ i.vaddr ∧ address < i.vaddr + i.size

instance (i : Insn) (address : ℕ) : Decidable (i.Contains address) :=
  inferInstanceAs (Decidable (_ ∧ _))

/-! ### The target -/

inductive Architecture where
  | arm | riscv | arm64
  deriving DecidableEq

/-- What depends on the target and on the compiler of the plugin. -/
structure Target where
  arch : Architecture
  /-- The value of an `int` made of a byte shifted left by `8 * i` bits, converted to `uint64_t`. C
      defines it where the result fits into the type. A byte from `0x80` on does not for `i = 3`: there
      it is what GCC documents, the sign bit is set. From `i = 4` on the shift is wider than the type,
      and the value is left open. -/
  intShl : Byte → ℕ → BitVec 64
  intShl_eq : ∀ b i, i < 4 → intShl b i = ((b.setWidth 32) <<< (8 * i)).signExtend 64

/-! ### Globals -/

/-- The globals of faultplugin.c. -/
structure Faultplugin where
  faultTriggerAddresses : List ℕ
  liveFaults : List (Option ℕ)
  faultNumber : ℕ
  liveFaultsNumber : ℕ
  firstTb : ℕ
  startPoint : FaultTrigger

/-- One memory region of faultdata.c with its dumps. -/
structure Memorydump where
  address : ℕ
  len : ℕ
  numDumps : ℕ
  usedDumps : ℕ
  buf : List (List Byte)

structure Registerdump where
  pc : BitVec 64
  tbcount : ℕ
  regs : List (BitVec 64)

/-- The globals of tb_faulted_collection.c, newest entry of the list first. -/
structure TbFaulted where
  list : List (ℕ × Option (List Char))
  activeTriggers : List ℕ
  maxTriggers : ℕ
  currentTriggers : ℕ
  doneTriggers : ℕ

def tbFaultedInit (numberFaults : ℕ) : TbFaulted :=
  ⟨[], List.replicate numberFaults 0xdeadbeef, numberFaults, 0, 0⟩

inductive Call where
  | injectFault (current : ℕ)
  | reverseFault (current : ℕ)
  deriving DecidableEq

structure State where
  target : Target
  cpu : Cpu
  faults : List Fault
  plugin : Faultplugin
  reqSinglestep : ℕ
  /-- the mode last passed to `qemu_plugin_single_step` -/
  singleStep : Bool
  /-- `NULL` until the module is configured -/
  memdump : Option (List Memorydump)
  usedMemdump : ℕ
  registerdumps : List Registerdump
  tbFaulted : TbFaulted
  /-- a flush of the TB cache is requested -/
  flush : Bool
  /-- the injections and reversals so far, kept for the statements only -/
  calls : List Call
  /-- the requests withdrawn while there was none, kept for the statements only -/
  zeroReleases : ℕ

namespace State

variable (s : State)

/-- Mutating the fault behind a pointer. -/
def modifyFault (current : ℕ) (f : Fault → Fault) : State :=
  { s with faults := s.faults.modify current f }

def flushTb : State := { s with flush := true }

/-! ### singlestep.c -/

def checkSinglestep : State := { s with singleStep := decide (s.reqSinglestep ≠ 0) }.flushTb

def addSinglestepReq : State := { s with reqSinglestep := s.reqSinglestep + 1 }.checkSinglestep

def remSinglestepReq : State :=
  if s.reqSinglestep ≠ 0 then { s with reqSinglestep := s.reqSinglestep - 1 }.checkSinglestep
  else { s with zeroReleases := s.zeroReleases + 1 }

end State

end Archie.Plugin
