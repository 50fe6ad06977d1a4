import Archie.Plugin.Collections

/-! fault_injection.c: changing the guest and changing it back.

    The three bit models share the window of 16 bytes and the restore mask, they differ in one byte
    operation. `inject_fault` also moves the fault from the trigger vector to `live_faults`. -/

namespace Archie
open Plugin

namespace Cpu

variable (c : Cpu)

/-! ### Memory -/

/-- The 16 bytes at an address. -/
def window (address : ℕ) : Mask := fun i => c.mem (address + i)

/-- Writes the first `n` bytes of a buffer. -/
def writeWindow (address n : ℕ) (value : Mask) : Cpu :=
  c.write address (((List.finRange 16).map value).take n)

/-- A bit model on the window: the guest afterwards and the restore mask. -/
def processMemory (op : Byte → Byte → Byte) (address : ℕ) (mask : Mask) : Cpu × Mask :=
  let value := c.window address
  (c.writeWindow address 16 fun i => op (value i) (mask i), fun i => value i &&& mask i)

def processSet0Memory (address : ℕ) (mask : Mask) : Cpu × Mask :=
  c.processMemory (fun value mask => value &&& ~~~mask) address mask

def processSet1Memory (address : ℕ) (mask : Mask) : Cpu × Mask :=
  c.processMemory (fun value mask => value ||| mask) address mask

def processToggleMemory (address : ℕ) (mask : Mask) : Cpu × Mask :=
  c.processMemory (fun value mask => value ^^^ mask) address mask

def processOverwriteMemory (address numBytes : ℕ) (mask : Mask) : Cpu × Mask :=
  let numBytes := if numBytes > 16 then 16 else numBytes
  let value := c.window address
  (c.writeWindow address numBytes mask, fun i => if i < numBytes then value i else 0)

def processReverseFault (address : ℕ) (mask restoremask : Mask) : Cpu :=
  let value := c.window address
  c.writeWindow address 16 fun i => (value i &&& ~~~(mask i)) ||| restoremask i

end Cpu

namespace Plugin

/-- The guest after `inject_memory_fault` and the fault with its restore mask. -/
def injectMemoryFault (c : Cpu) (f : Fault) : Cpu × Fault :=
  let process : Cpu × Mask := match f.model with
    | SET0 => c.processSet0Memory f.address f.mask
    | SET1 => c.processSet1Memory f.address f.mask
    | TOGGLE => c.processToggleMemory f.address f.mask
    | OVERWRITE => c.processOverwriteMemory f.address f.numBytes f.mask
    | _ => (c, f.restoremask)
  (process.1, { f with restoremask := process.2 })

/-! ### Registers -/

/-- Byte `i` of a register. -/
def byteOf (reg : BitVec 64) (i : ℕ) : Byte := (reg >>> (8 * i)).setWidth 8

/-- One round of the overwrite loop. -/
def overwriteRegisterByte (t : Target) (mask : Mask) (st : BitVec 64 × Mask) (i : Fin 8) :
    BitVec 64 × Mask :=
  let (reg, restoremask) := st
  let j : Fin 16 := i.castLE (by decide)
  let restoremask := Function.update restoremask j (byteOf reg i)
  let reg := reg &&& ~~~(t.intShl 0xff i)
  (reg + t.intShl (mask j) i, restoremask)

def injectRegisterFault (t : Target) (c : Cpu) (f : Fault) : Cpu × Fault :=
  let reg := c.regs f.address
  let restoremask : Mask := fun i => if i.val < 8 then byteOf reg i &&& f.mask i else f.restoremask i
  let mask := ((List.finRange 8).map fun i : Fin 8 => t.intShl (f.mask (i.castLE (by decide))) i).sum
  let f := { f with restoremask }
  match f.model with
  | SET0 => (c.writeReg f.address (reg &&& ~~~mask), f)
  | SET1 => (c.writeReg f.address (reg ||| mask), f)
  | TOGGLE => (c.writeReg f.address (reg ^^^ mask), f)
  | OVERWRITE =>
    let numBytes := if f.numBytes > 8 then 8 else f.numBytes
    let (reg, restoremask) := ((List.finRange 8).take numBytes).foldl
      (overwriteRegisterByte t f.mask) (reg, restoremask)
    (c.writeReg f.address reg, { f with numBytes, restoremask })
  | _ => (c.writeReg f.address reg, f)

def reverseRegisterFault (c : Cpu) (f : Fault) : Cpu :=
  let reg := (List.finRange 8).foldl (fun reg i =>
    let j : Fin 16 := i.castLE (by decide)
    (reg &&& ~~~((f.mask j).setWidth 64 <<< (8 * i.val))) |||
      (f.restoremask j).setWidth 64 <<< (8 * i.val)) (c.regs f.address)
  c.writeReg f.address reg

/-! ### Injecting and reversing -/

namespace State

variable (s : State)

/-- Injects into the guest and keeps what the restore needs in the fault. -/
def injectWith (inject : Cpu → Fault → Cpu × Fault) (current : ℕ) : State :=
  match s.faults[current]? with
  | none => s
  | some f => { s with cpu := (inject s.cpu f).1, faults := s.faults.set current (inject s.cpu f).2 }

def invalidateFaultTriggerAddress (number : ℕ) : State :=
  { s with plugin := { s.plugin with
      faultTriggerAddresses := s.plugin.faultTriggerAddresses.set number 0 } }

/-- Makes the fault a live one; returns its number, `-1` when all are taken. -/
def registerLiveFaultsCallback (current : ℕ) : State × ℕ :=
  if s.plugin.liveFaultsNumber = s.plugin.faultNumber then (s, 2 ^ 64 - 1)
  else
    let s := s.addSinglestepReq
    ({ s with plugin := { s.plugin with
        liveFaults := s.plugin.liveFaults.set s.plugin.liveFaultsNumber (some current)
        liveFaultsNumber := s.plugin.liveFaultsNumber + 1 } }, s.plugin.liveFaultsNumber)

/-- The part of the injection that depends on the fault type. -/
def injectByType (current : ℕ) (f : Fault) : State :=
  let s := if f.type = INSTRUCTION then
      let s := ((s.insertMemorydumpConfig f.address 16).readSpecificMemoryregion
        f.address).tbFaultedRegister f.address
      ((s.injectWith injectMemoryFault current).flushTb).readSpecificMemoryregion f.address
    else s
  let s := if f.type = DATA then
      let s := (s.insertMemorydumpConfig f.address 16).readSpecificMemoryregion f.address
      ((s.injectWith injectMemoryFault current).flushTb).readSpecificMemoryregion f.address
    else s
  if f.type = REGISTER then s.injectWith (injectRegisterFault s.target) current else s

def injectFault (current : ℕ) : State :=
  match s.faults[current]? with
  | none => s
  | some f =>
    let s := { s with calls := s.calls ++ [Call.injectFault current] }.injectByType current f
    let s := (s.invalidateFaultTriggerAddress f.trigger.trignum).remSinglestepReq
    if f.lifetime ≠ 0 then
      let (s, trignum) := s.registerLiveFaultsCallback current
      (s.modifyFault current fun f => f.setTriggerNum trignum).addNewRegisterdump trignum
    else s.addNewRegisterdump f.trigger.trignum

/-- The part of the reversal that depends on the fault type. -/
def reverseByType (f : Fault) : State :=
  let s := if f.type = INSTRUCTION ∨ f.type = DATA then
      ({ s with cpu := s.cpu.processReverseFault f.address f.mask f.restoremask }.flushTb
        ).readSpecificMemoryregion f.address
    else s
  if f.type = REGISTER then { s with cpu := reverseRegisterFault s.cpu f } else s

def reverseFault (current : ℕ) : State :=
  match s.faults[current]? with
  | none => s
  | some f =>
    let s := { s with calls := s.calls ++ [Call.reverseFault current] }.reverseByType f
    s.remSinglestepReq.addNewRegisterdump f.trigger.trignum

end State

/-! ### What an injection changes -/

/-- The same fault up to its restore mask and a clipped byte count. -/
structure Fault.Agrees (f f' : Fault) : Prop where
  address : f'.address = f.address
  type : f'.type = f.type
  model : f'.model = f.model
  lifetime : f'.lifetime = f.lifetime
  mask : f'.mask = f.mask
  trigger : f'.trigger = f.trigger

theorem Fault.Agrees.refl (f : Fault) : f.Agrees f := ⟨rfl, rfl, rfl, rfl, rfl, rfl⟩

theorem injectMemoryFault_agrees (c : Cpu) (f : Fault) : f.Agrees (injectMemoryFault c f).2 :=
  ⟨rfl, rfl, rfl, rfl, rfl, rfl⟩

theorem injectRegisterFault_agrees (t : Target) (c : Cpu) (f : Fault) :
    f.Agrees (injectRegisterFault t c f).2 := by
  unfold injectRegisterFault
  simp only
  split <;> exact ⟨rfl, rfl, rfl, rfl, rfl, rfl⟩

namespace State

variable {s s' s'' : State} {current : ℕ} {f : Fault}

/-- Apart from the guest and the collections, one fault may have changed, to an agreeing one. -/
structure Injects (current : ℕ) (f : Fault) (s s' : State) : Prop where
  plugin : s'.plugin = s.plugin
  calls : s'.calls = s.calls
  faults : ∃ f', f.Agrees f' ∧ s'.faults = s.faults.set current f'

theorem Same.injects (h : Same s s') (hf : s.faults[current]? = some f) : Injects current f s s' := by
  refine ⟨h.plugin, h.calls, f, .refl f, ?_⟩
  obtain ⟨hlt, rfl⟩ := List.getElem?_eq_some_iff.mp hf
  rw [h.faults, List.set_getElem_self]

theorem Injects.then_same (h : Injects current f s s') (h' : Same s' s'') :
    Injects current f s s'' := by
  obtain ⟨hp, hc, f', hag, hf⟩ := h
  exact ⟨h'.plugin.trans hp, h'.calls.trans hc, f', hag, h'.faults.trans hf⟩

theorem Same.then_injects (h : Same s s') (h' : Injects current f s' s'') :
    Injects current f s s'' := by
  obtain ⟨hp, hc, f', hag, hf⟩ := h'
  exact ⟨hp.trans h.plugin, hc.trans h.calls, f', hag, hf.trans (by rw [h.faults])⟩

theorem injectWith_injects {inject : Cpu → Fault → Cpu × Fault}
    (hin : ∀ c f, Fault.Agrees f (inject c f).2) (hf : s.faults[current]? = some f) :
    Injects current f s (s.injectWith inject current) := by
  rw [injectWith, hf]
  exact ⟨rfl, rfl, _, hin s.cpu f, rfl⟩

/-- What the injection does for each fault type: dumps around the change in memory, a change of a
    register, nothing. -/
theorem injectByType_cases (s : State) (current : ℕ) (f : Fault) :
    (∃ s₁, (s₁ = (s.insertMemorydumpConfig f.address 16).readSpecificMemoryregion f.address ∨
        s₁ = ((s.insertMemorydumpConfig f.address 16).readSpecificMemoryregion
          f.address).tbFaultedRegister f.address) ∧
      s.injectByType current f
        = ((s₁.injectWith injectMemoryFault current).flushTb).readSpecificMemoryregion f.address) ∨
    s.injectByType current f = s.injectWith (injectRegisterFault s.target) current ∨
    s.injectByType current f = s := by
  have hdata : INSTRUCTION ≠ DATA := Nat.one_ne_zero
  have hregister : INSTRUCTION ≠ REGISTER ∧ DATA ≠ REGISTER := ⟨by decide, by decide⟩
  unfold injectByType
  by_cases hi : f.type = INSTRUCTION
  · refine .inl ⟨_, .inr rfl, ?_⟩
    simp only [hi, if_true, if_neg hdata, if_neg hregister.1]
  · by_cases hd : f.type = DATA
    · refine .inl ⟨_, .inl rfl, ?_⟩
      simp only [hd, if_neg hdata.symm, if_true, if_neg hregister.2]
    · simp only [if_neg hi, if_neg hd]
      split
      · exact .inr (.inl rfl)
      · exact .inr (.inr rfl)

theorem injectByType_injects (hf : s.faults[current]? = some f) :
    Injects current f s (s.injectByType current f) := by
  have hdump : Same s ((s.insertMemorydumpConfig f.address 16).readSpecificMemoryregion f.address) :=
    (same_insertMemorydumpConfig _ _).trans (same_readSpecificMemoryregion _)
  rcases injectByType_cases s current f with ⟨s₁, hs₁, heq⟩ | heq | heq
  · have h₁ : Same s s₁ := by
      rcases hs₁ with rfl | rfl
      · exact hdump
      · exact hdump.trans (same_tbFaultedRegister _)
    have hf₁ : s₁.faults[current]? = some f := by rw [h₁.faults]; exact hf
    rw [heq]
    exact ((h₁.then_injects (injectWith_injects injectMemoryFault_agrees hf₁)).then_same
      same_flushTb).then_same (same_readSpecificMemoryregion _)
  · rw [heq]
    exact injectWith_injects (injectRegisterFault_agrees s.target) hf
  · rw [heq]
    exact Same.refl.injects hf

/-- The trigger number of a fault once it is injected. -/
def injectedTrignum (p : Faultplugin) (f : Fault) : ℕ :=
  if f.lifetime = 0 then f.trigger.trignum
  else if p.liveFaultsNumber = p.faultNumber then 2 ^ 64 - 1 else p.liveFaultsNumber

/-- The globals after the injection of a fault. -/
def injectedPlugin (p : Faultplugin) (current : ℕ) (f : Fault) : Faultplugin :=
  let p := { p with faultTriggerAddresses := p.faultTriggerAddresses.set f.trigger.trignum 0 }
  if f.lifetime = 0 ∨ p.liveFaultsNumber = p.faultNumber then p
  else { p with
    liveFaults := p.liveFaults.set p.liveFaultsNumber (some current)
    liveFaultsNumber := p.liveFaultsNumber + 1 }

theorem registerLiveFaultsCallback_spec :
    (s.registerLiveFaultsCallback current).1.faults = s.faults ∧
    (s.registerLiveFaultsCallback current).1.calls = s.calls ∧
    (s.registerLiveFaultsCallback current).1.plugin
      = (if s.plugin.liveFaultsNumber = s.plugin.faultNumber then s.plugin
         else { s.plugin with
          liveFaults := s.plugin.liveFaults.set s.plugin.liveFaultsNumber (some current)
          liveFaultsNumber := s.plugin.liveFaultsNumber + 1 }) ∧
    (s.registerLiveFaultsCallback current).2
      = if s.plugin.liveFaultsNumber = s.plugin.faultNumber then 2 ^ 64 - 1
        else s.plugin.liveFaultsNumber := by
  unfold registerLiveFaultsCallback
  split <;> exact ⟨rfl, rfl, rfl, rfl⟩

/-- An injection clears the slot of the fault, makes a temporary fault live and renumbers it; all
    other faults stay as they are. -/
theorem injectFault_spec (hf : s.faults[current]? = some f) :
    (s.injectFault current).plugin = injectedPlugin s.plugin current f ∧
    (s.injectFault current).calls = s.calls ++ [Call.injectFault current] ∧
    ∃ f', f.Agrees f' ∧ (s.injectFault current).faults
      = s.faults.set current (f'.setTriggerNum (injectedTrignum s.plugin f)) := by
  obtain ⟨hp, hc, f', hag, hfs⟩ := injectByType_injects
    (s := { s with calls := s.calls ++ [Call.injectFault current] }) hf
  obtain ⟨hlt, -⟩ := List.getElem?_eq_some_iff.mp hf
  have hset : ∀ n, (s.faults.set current f').modify current (fun f => f.setTriggerNum n)
      = s.faults.set current (f'.setTriggerNum n) := by
    intro n; rw [List.modify_eq_set_getElem?]; simp [hlt]
  have hself : f'.setTriggerNum f.trigger.trignum = f' := by
    rw [← hag.trigger]; rfl
  -- the state once the slot is cleared and the single-step request withdrawn
  generalize hs₁ : injectByType { s with calls := s.calls ++ [Call.injectFault current] } current f
    = s₁ at hp hc hfs
  have hrem := same_remSinglestepReq (s := s₁.invalidateFaultTriggerAddress f.trigger.trignum)
  generalize hs₂ : (s₁.invalidateFaultTriggerAddress f.trigger.trignum).remSinglestepReq = s₂ at hrem
  have hp₂ : s₂.plugin = { s.plugin with
      faultTriggerAddresses := s.plugin.faultTriggerAddresses.set f.trigger.trignum 0 } := by
    rw [hrem.plugin, invalidateFaultTriggerAddress, hp]
  have hc₂ : s₂.calls = s.calls ++ [Call.injectFault current] := by rw [hrem.calls]; exact hc
  have hf₂ : s₂.faults = s.faults.set current f' := by rw [hrem.faults]; exact hfs
  simp only [injectFault, hf, hs₁, hs₂]
  by_cases hl : f.lifetime = 0
  · simp only [hl, ne_eq, not_true_eq_false, if_false, injectedPlugin, injectedTrignum, true_or,
      if_true]
    exact ⟨hp₂, hc₂, f', hag, by rw [hself]; exact hf₂⟩
  · obtain ⟨hrf, hrc, hrp, hrn⟩ := registerLiveFaultsCallback_spec (s := s₂)
    simp only [ne_eq, hl, not_false_eq_true, if_true, injectedPlugin, injectedTrignum, false_or,
      if_false]
    refine ⟨?_, hrc.trans hc₂, f', hag, ?_⟩
    · refine hrp.trans ?_
      rw [hp₂]
    · rw [← hset, ← hf₂, ← hrf]
      have hn : (s₂.registerLiveFaultsCallback current).2
          = if s.plugin.liveFaultsNumber = s.plugin.faultNumber then 2 ^ 64 - 1
            else s.plugin.liveFaultsNumber := by rw [hrn, hp₂]
      rw [← hn]
      rfl

theorem reverseByType_spec : (s.reverseByType f).plugin = s.plugin ∧
    (s.reverseByType f).faults = s.faults ∧ (s.reverseByType f).calls = s.calls := by
  have hread := same_readSpecificMemoryregion (s := State.flushTb
    { s with cpu := s.cpu.processReverseFault f.address f.mask f.restoremask }) f.address
  unfold reverseByType
  by_cases hm : f.type = INSTRUCTION ∨ f.type = DATA
  · have hr : ¬ f.type = REGISTER := by rcases hm with h | h <;> rw [h] <;> decide
    simp only [if_pos hm, if_neg hr]
    exact ⟨hread.plugin, hread.faults, hread.calls⟩
  · simp only [if_neg hm]
    split <;> exact ⟨rfl, rfl, rfl⟩

/-- A reversal changes the guest only. -/
theorem reverseFault_spec (hf : s.faults[current]? = some f) :
    (s.reverseFault current).plugin = s.plugin ∧ (s.reverseFault current).faults = s.faults ∧
    (s.reverseFault current).calls = s.calls ++ [Call.reverseFault current] := by
  obtain ⟨hp, hfs, hc⟩ := reverseByType_spec
    (s := { s with calls := s.calls ++ [Call.reverseFault current] }) (f := f)
  simp only [reverseFault, hf]
  have hlast : ∀ s₁ : State, Same s₁ (s₁.remSinglestepReq.addNewRegisterdump f.trigger.trignum) :=
    fun s₁ => same_remSinglestepReq.trans (same_addNewRegisterdump _)
  exact ⟨(hlast _).plugin.trans hp, (hlast _).faults.trans hfs, (hlast _).calls.trans hc⟩

end State

end Plugin

end Archie
