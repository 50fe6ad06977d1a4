import Mathlib

/-! The guest that both engines change: its memory and its registers. -/

namespace Archie

abbrev Byte := BitVec 8

structure Cpu where
  mem : ℕ → Byte
  regs : ℕ → BitVec 64

namespace Cpu

variable (c : Cpu)

/-- `n` bytes of guest memory. -/
def read (address n : ℕ) : List Byte := (List.range n).map fun i => c.mem (address + i)

/-- Overwrites guest memory from an address on. -/
def write (address : ℕ) (bytes : List Byte) : Cpu :=
  { c with mem := fun a =>
      if address ≤ a then (bytes[a - address]?).getD (c.mem a) else c.mem a }

def writeReg (r : ℕ) (value : BitVec 64) : Cpu :=
  { c with regs := Function.update c.regs r value }

@[simp] theorem write_regs (address : ℕ) (bytes : List Byte) : (c.write address bytes).regs = c.regs := rfl

@[simp] theorem writeReg_mem (r : ℕ) (value : BitVec 64) : (c.writeReg r value).mem = c.mem := rfl

@[simp] theorem writeReg_self (r : ℕ) (value : BitVec 64) : (c.writeReg r value).regs r = value := by
  simp [writeReg]

theorem getElem?_read {address n i : ℕ} (h : i < n) : (c.read address n)[i]? = some (c.mem (address + i)) := by
  simp [read, h]

@[simp] theorem length_read (address n : ℕ) : (c.read address n).length = n := by simp [read]

/-- Outside the bytes written memory stays as it is, inside it is the byte of that offset. -/
theorem write_mem (address : ℕ) (bytes : List Byte) (a : ℕ) : (c.write address bytes).mem a =
    if address ≤ a then (bytes[a - address]?).getD (c.mem a) else c.mem a := rfl

end Cpu

end Archie
