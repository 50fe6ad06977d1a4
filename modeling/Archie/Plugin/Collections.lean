import Archie.Plugin.State

/-! What the plugin records while it injects: memory dumps (faultdata.c), register dumps
    (registerdump.c) and the assembler of faulted TBs (tb_faulted_collection.c).

    None of it touches the faults, the trigger vector or the guest. -/

namespace Archie.Plugin

/-! ### Memory dumps -/

/-- A dump of the region goes into the next unused buffer, a new one if there is none. -/
def Memorydump.record (m : Memorydump) (dump : List Byte) : Memorydump :=
  let m := if m.numDumps = m.usedDumps then
      { m with buf := m.buf ++ [List.replicate m.len 0], numDumps := m.numDumps + 1 }
    else m
  { m with buf := m.buf.set m.usedDumps dump, usedDumps := m.usedDumps + 1 }

namespace State

variable (s : State)

/-- Fills the next unused slot of the vector, which grows by one when all are used. -/
def insertMemorydumpConfig (baseaddress len : ℕ) : State :=
  match s.memdump with
  | none => s
  | some memdump =>
    let memdump := if memdump.length = s.usedMemdump then memdump ++ [⟨0, 0, 0, 0, []⟩] else memdump
    { s with
      memdump := some (memdump.modify s.usedMemdump fun m =>
        ⟨baseaddress, len, 1, m.usedDumps, [List.replicate len 0]⟩)
      usedMemdump := s.usedMemdump + 1 }

def readMemoryregion (position : ℕ) : State :=
  { s with memdump := s.memdump.map fun memdump =>
      memdump.modify position fun m => m.record (s.cpu.read m.address m.len) }

/-- Dumps every region that starts at the address. -/
def readSpecificMemoryregion (baseaddress : ℕ) : State :=
  (List.range s.usedMemdump).foldl (fun s i =>
    match (s.memdump.getD [])[i]? with
    | some m => if m.address = baseaddress then s.readMemoryregion i else s
    | none => s) s

/-! ### Register dumps -/

/-- The registers of a dump and the program counter. -/
def readoutRegisters : BitVec 64 × List (BitVec 64) :=
  let read := fun n => (List.range n).map s.cpu.regs
  match s.target.arch with
  | .arm => (s.cpu.regs 15, read 16 ++ [s.cpu.regs 25])
  | .riscv => (s.cpu.regs 32, read 33)
  | .arm64 => (s.cpu.regs 32, read 31 ++ [s.cpu.regs 31, s.cpu.regs 33])

def addNewRegisterdump (tbcount : ℕ) : State :=
  let (pc, regs) := s.readoutRegisters
  { s with registerdumps := ⟨pc, tbcount, regs⟩ :: s.registerdumps }

/-! ### Faulted TBs -/

/-- `%8lx` -/
def hex8 (n : ℕ) : List Char :=
  let digits := Nat.toDigits 16 n
  List.replicate (8 - digits.length) ' ' ++ digits

def decodeAssembler (tb : Tb) : List Char :=
  tb.insns.flatMap fun i => "[ ".toList ++ hex8 i.vaddr ++ " ]: ".toList ++ i.disas ++ " !!".toList

/-- Stores the assembler of the TB in the newest entry for the address. -/
def insertFaultedAssembly (tb : Tb) (triggerAddress : ℕ) : State :=
  match s.tbFaulted.list.findIdx? fun item => item.1 = triggerAddress with
  | none => s
  | some i =>
    { s.remSinglestepReq with tbFaulted := { s.tbFaulted with
        list := s.tbFaulted.list.modify i fun item => (item.1, some (decodeAssembler tb)) } }

/-- Asks for the assembler of the next TB at the address. -/
def tbFaultedRegister (faultAddress : ℕ) : State :=
  let t := s.tbFaulted
  if t.maxTriggers = t.currentTriggers then s
  else { s.addSinglestepReq with tbFaulted := { t with
    list := (faultAddress, none) :: t.list
    activeTriggers := t.activeTriggers.set t.currentTriggers faultAddress
    currentTriggers := t.currentTriggers + 1 } }

/-- The end of the TB is a 64-bit sum. -/
def checkTbFaulted (tb : Tb) : State :=
  if s.tbFaulted.doneTriggers = s.tbFaulted.currentTriggers then s
  else (List.range s.tbFaulted.currentTriggers).foldl (fun s i =>
    match s.tbFaulted.activeTriggers[i]? with
    | some address =>
      if address ≥ tb.vaddr ∧ address ≤ (tb.vaddr + tb.bytesize) % 2 ^ 64 then
        let s := s.insertFaultedAssembly tb address
        { s with tbFaulted := { s.tbFaulted with
            activeTriggers := s.tbFaulted.activeTriggers.set i 0xdeadbeaf
            doneTriggers := s.tbFaulted.doneTriggers + 1 } }
      else s
    | none => s) s

/-! ### Frames -/

/-- Faults, trigger vector, guest and calls are as before. -/
structure Same (s s' : State) : Prop where
  faults : s'.faults = s.faults
  plugin : s'.plugin = s.plugin
  cpu : s'.cpu = s.cpu
  calls : s'.calls = s.calls

variable {s} {s' s'' : State}

theorem Same.refl : Same s s := ⟨rfl, rfl, rfl, rfl⟩

theorem Same.trans (h : Same s s') (h' : Same s' s'') : Same s s'' :=
  ⟨h'.faults.trans h.faults, h'.plugin.trans h.plugin, h'.cpu.trans h.cpu, h'.calls.trans h.calls⟩

theorem Same.foldl {α : Type*} {f : State → α → State} (hf : ∀ s x, Same s (f s x)) :
    ∀ (l : List α) (s : State), Same s (l.foldl f s)
  | [], _ => .refl
  | x :: xs, s => (hf s x).trans (Same.foldl hf xs (f s x))

theorem same_flushTb : Same s s.flushTb := ⟨rfl, rfl, rfl, rfl⟩

theorem same_addSinglestepReq : Same s s.addSinglestepReq := ⟨rfl, rfl, rfl, rfl⟩

theorem same_remSinglestepReq : Same s s.remSinglestepReq := by
  unfold remSinglestepReq
  split <;> exact ⟨rfl, rfl, rfl, rfl⟩

theorem same_insertMemorydumpConfig (baseaddress len : ℕ) :
    Same s (s.insertMemorydumpConfig baseaddress len) := by
  unfold insertMemorydumpConfig
  split
  · exact .refl
  · exact ⟨rfl, rfl, rfl, rfl⟩

theorem same_readMemoryregion (position : ℕ) : Same s (s.readMemoryregion position) :=
  ⟨rfl, rfl, rfl, rfl⟩

theorem same_readSpecificMemoryregion (baseaddress : ℕ) :
    Same s (s.readSpecificMemoryregion baseaddress) := by
  refine Same.foldl (fun s i => ?_) _ s
  split
  · split
    · exact same_readMemoryregion i
    · exact .refl
  · exact .refl

theorem same_addNewRegisterdump (tbcount : ℕ) : Same s (s.addNewRegisterdump tbcount) :=
  ⟨rfl, rfl, rfl, rfl⟩

theorem same_insertFaultedAssembly (tb : Tb) (triggerAddress : ℕ) :
    Same s (s.insertFaultedAssembly tb triggerAddress) := by
  unfold insertFaultedAssembly
  split
  · exact .refl
  · obtain ⟨hf, hp, hc, hl⟩ := same_remSinglestepReq (s := s)
    exact ⟨hf, hp, hc, hl⟩

theorem same_tbFaultedRegister (faultAddress : ℕ) : Same s (s.tbFaultedRegister faultAddress) := by
  unfold tbFaultedRegister
  simp only
  split
  · exact .refl
  · exact ⟨rfl, rfl, rfl, rfl⟩

theorem same_checkTbFaulted (tb : Tb) : Same s (s.checkTbFaulted tb) := by
  unfold checkTbFaulted
  split
  · exact .refl
  · refine Same.foldl (fun s i => ?_) _ s
    split
    · split
      · exact (same_insertFaultedAssembly tb _).trans ⟨rfl, rfl, rfl, rfl⟩
      · exact .refl
    · exact .refl

end State

end Archie.Plugin
