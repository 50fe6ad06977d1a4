import Archie.Plugin.Restore
import Archie.Plugin.TriggerVector

/-! One temporary memory fault, injected and reversed with nothing in between.

    The reversal takes the fault mask for a selection of bits. In an overwrite it is a value, written
    to the first `num_bytes` bytes; behind them the reversal clears its bits all the same. -/

namespace Archie.Plugin
open State

/-- The guest after an injection and a reversal. -/
def memoryRoundTrip (c : Cpu) (f : Fault) : Cpu :=
  (injectMemoryFault c f).1.processReverseFault f.address f.mask (injectMemoryFault c f).2.restoremask

section Byte

variable (value mask : Byte)

theorem restore_set0 : ((value &&& ~~~mask) &&& ~~~mask) ||| (value &&& mask) = value := by
  ext i hi
  simp only [BitVec.getElem_or, BitVec.getElem_and, BitVec.getElem_not]
  cases value[i] <;> cases mask[i] <;> rfl

theorem restore_set1 : ((value ||| mask) &&& ~~~mask) ||| (value &&& mask) = value := by
  ext i hi
  simp only [BitVec.getElem_or, BitVec.getElem_and, BitVec.getElem_not]
  cases value[i] <;> cases mask[i] <;> rfl

theorem restore_toggle : ((value ^^^ mask) &&& ~~~mask) ||| (value &&& mask) = value := by
  ext i hi
  simp only [BitVec.getElem_or, BitVec.getElem_and, BitVec.getElem_not, BitVec.getElem_xor]
  cases value[i] <;> cases mask[i] <;> rfl

/-- An overwritten byte is in the restore mask as a whole. -/
theorem restore_overwrite : (mask &&& ~~~mask) ||| value = value := by
  ext i hi
  simp only [BitVec.getElem_or, BitVec.getElem_and, BitVec.getElem_not, Bool.and_not_self,
    Bool.false_or]

/-- A byte behind the overwritten ones loses the bits of the mask. -/
theorem restore_behind_iff : (value &&& ~~~mask) ||| 0 = value ↔ value &&& mask = 0 := by
  simp only [BitVec.ofNat_eq_ofNat, BitVec.or_zero]
  constructor
  · intro h
    rw [← h]
    ext i hi
    simp only [BitVec.getElem_and, BitVec.getElem_not, BitVec.getElem_zero, Bool.and_assoc,
      Bool.not_and_self, Bool.and_false]
  · intro h
    ext i hi
    have hbit : (value[i] && mask[i]) = false := by
      rw [← BitVec.getElem_and, h, BitVec.getElem_zero]
    simp only [BitVec.getElem_and, BitVec.getElem_not]
    revert hbit
    cases value[i] <;> cases mask[i] <;> simp

end Byte

section Memory

variable {c : Cpu} {f : Fault}

/-- A bit model restores a byte if its operation loses nothing outside the mask. -/
theorem reverse_processMemory {op : Byte → Byte → Byte} {address : ℕ} {mask : Mask}
    (hop : ∀ value mask, (op value mask &&& ~~~mask) ||| (value &&& mask) = value) :
    ((c.processMemory op address mask).1.processReverseFault address mask
      (c.processMemory op address mask).2).mem = c.mem := by
  funext a
  by_cases hin : ∃ k : Fin 16, a = address + k
  · obtain ⟨k, rfl⟩ := hin
    rw [Cpu.processReverseFault, writeWindow_mem_inside _ _ _ _ k k.isLt]
    refine Eq.trans ?_ (hop (c.mem (address + k)) (mask k))
    rw [Cpu.window, Cpu.processMemory, writeWindow_mem_inside _ _ _ _ k k.isLt]
    rfl
  · have hout : ∀ k : Fin 16, k.val < 16 → a ≠ address + k := fun k _ ha => hin ⟨k, ha⟩
    rw [Cpu.processReverseFault, writeWindow_mem_outside _ _ _ _ hout, Cpu.processMemory,
      writeWindow_mem_outside _ _ _ _ hout]

theorem clip_lt_iff {numBytes : ℕ} (k : Fin 16) :
    k.val < (if numBytes > 16 then 16 else numBytes) ↔ k.val < numBytes := by
  split <;> omega

/-- What is left of the window after an overwrite and its reversal. -/
theorem overwrite_window (hmodel : f.model = OVERWRITE) (k : Fin 16) :
    (memoryRoundTrip c f).mem (f.address + k) =
      if k.val < f.numBytes then c.mem (f.address + k)
      else (c.mem (f.address + k) &&& ~~~(f.mask k)) ||| 0 := by
  have hinside := writeWindow_mem_inside (injectMemoryFault c f).1 f.address 16
    (fun i => ((injectMemoryFault c f).1.window f.address i &&& ~~~(f.mask i))
      ||| (injectMemoryFault c f).2.restoremask i) k k.isLt
  refine hinside.trans ?_
  simp only [injectMemoryFault, hmodel, Cpu.processOverwriteMemory, Cpu.window]
  by_cases hk : k.val < f.numBytes
  · rw [if_pos ((clip_lt_iff k).mpr hk), if_pos hk,
      writeWindow_mem_inside _ _ _ _ k ((clip_lt_iff k).mpr hk)]
    exact restore_overwrite _ _
  · have hout : ∀ j : Fin 16, j.val < (if f.numBytes > 16 then 16 else f.numBytes) →
        f.address + k ≠ f.address + j := by
      intro j hj heq
      exact hk (by rw [clip_lt_iff] at hj; omega)
    rw [if_neg (mt (clip_lt_iff k).mp hk), if_neg hk, writeWindow_mem_outside _ _ _ _ hout]

theorem overwrite_outside (hmodel : f.model = OVERWRITE) {a : ℕ}
    (hout : ∀ k : Fin 16, a ≠ f.address + k) : (memoryRoundTrip c f).mem a = c.mem a := by
  rw [memoryRoundTrip, Cpu.processReverseFault, writeWindow_mem_outside _ _ _ _ fun k _ => hout k]
  simp only [injectMemoryFault, hmodel, Cpu.processOverwriteMemory]
  exact writeWindow_mem_outside _ _ _ _ fun k _ => hout k

/-- The three bit models restore, an overwrite iff behind its bytes nothing of the mask is set in
    memory. -/
theorem memoryRoundTrip_iff
    (hmodel : f.model = SET0 ∨ f.model = SET1 ∨ f.model = TOGGLE ∨ f.model = OVERWRITE) :
    (memoryRoundTrip c f).mem = c.mem ↔
      (f.model = OVERWRITE → ∀ k : Fin 16, f.numBytes ≤ k → c.mem (f.address + k) &&& f.mask k = 0) := by
  rcases hmodel with h | h | h | h
  · refine iff_of_true ?_ fun ho => absurd (h.symm.trans ho) (by decide)
    simp only [memoryRoundTrip, injectMemoryFault, h]
    exact reverse_processMemory restore_set0
  · refine iff_of_true ?_ fun ho => absurd (h.symm.trans ho) (by decide)
    simp only [memoryRoundTrip, injectMemoryFault, h]
    exact reverse_processMemory restore_set1
  · refine iff_of_true ?_ fun ho => absurd (h.symm.trans ho) (by decide)
    simp only [memoryRoundTrip, injectMemoryFault, h]
    exact reverse_processMemory restore_toggle
  · constructor
    · intro hmem _ k hk
      have hbyte := congrFun hmem (f.address + k)
      rw [overwrite_window h, if_neg (not_lt.mpr hk)] at hbyte
      exact (restore_behind_iff _ _).mp hbyte
    · intro hcond
      funext a
      by_cases hin : ∃ k : Fin 16, a = f.address + k
      · obtain ⟨k, rfl⟩ := hin
        rw [overwrite_window h]
        split
        · rfl
        · next hk => exact (restore_behind_iff _ _).mpr (hcond h k (not_lt.mp hk))
      · exact overwrite_outside h fun k ha => hin ⟨k, ha⟩

end Memory

/-! ### In the plugin -/

section Plugin

variable {s : State} {current : ℕ} {f : Fault}

theorem reverseFault_cpu (hf : s.faults[current]? = some f)
    (htype : f.type = INSTRUCTION ∨ f.type = DATA) :
    (s.reverseFault current).cpu = s.cpu.processReverseFault f.address f.mask f.restoremask := by
  have hregister : ¬f.type = REGISTER := by rcases htype with h | h <;> rw [h] <;> decide
  simp only [State.reverseFault, hf]
  rw [(State.same_addNewRegisterdump _).cpu, State.same_remSinglestepReq.cpu, State.reverseByType,
    if_pos htype, if_neg hregister]
  exact (State.same_readSpecificMemoryregion (s := State.flushTb _) f.address).cpu

/-- `inject_memory_fault`, then `reverse_fault`. -/
theorem reverseFault_injectMemoryFault_iff (hf : s.faults[current]? = some f)
    (htype : f.type = INSTRUCTION ∨ f.type = DATA)
    (hmodel : f.model = SET0 ∨ f.model = SET1 ∨ f.model = TOGGLE ∨ f.model = OVERWRITE) :
    ((s.injectWith injectMemoryFault current).reverseFault current).cpu.mem = s.cpu.mem ↔
      (f.model = OVERWRITE → ∀ k : Fin 16, f.numBytes ≤ k →
        s.cpu.mem (f.address + k) &&& f.mask k = 0) := by
  obtain ⟨hlt, -⟩ := List.getElem?_eq_some_iff.mp hf
  have hf' : (s.injectWith injectMemoryFault current).faults[current]?
      = some (injectMemoryFault s.cpu f).2 := by
    simp only [injectWith, hf]
    exact List.getElem?_set_self hlt
  rw [reverseFault_cpu hf' htype, ← memoryRoundTrip_iff hmodel]
  simp only [injectWith, hf]
  rfl

/-- A mask of two bytes of which `numBytes` are written. -/
def twoByteOverwrite (numBytes : ℕ) : Fault :=
  ⟨0x20, DATA, OVERWRITE, 1, numBytes, fun k => if k.val < 2 then 0xff else 0, fun _ => 0, ⟨0x10, 1, 0⟩⟩

def twoByteState (numBytes : ℕ) : State :=
  { freshState [twoByteOverwrite numBytes] with cpu := ⟨fun _ => 0x3c, fun _ => 0⟩ }

theorem reverseFault_injectMemoryFault_iff_two :
    (((twoByteState 2).injectWith injectMemoryFault 0).reverseFault 0).cpu.mem = (twoByteState 2).cpu.mem ↔
      ((twoByteOverwrite 2).model = OVERWRITE → ∀ k : Fin 16, (twoByteOverwrite 2).numBytes ≤ k →
        (twoByteState 2).cpu.mem ((twoByteOverwrite 2).address + k) &&& (twoByteOverwrite 2).mask k = 0) :=
  reverseFault_injectMemoryFault_iff (s := twoByteState 2) rfl (Or.inr rfl) (by decide)

/-- The second byte is not written, its bits are cleared by the reversal. -/
theorem twoByteState_not_restored :
    (((twoByteState 1).injectWith injectMemoryFault 0).reverseFault 0).cpu.mem
      ≠ (twoByteState 1).cpu.mem := by
  intro h
  exact absurd (congrFun h 0x21) (by decide)

end Plugin

end Archie.Plugin
