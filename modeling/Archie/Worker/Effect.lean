import Archie.Plugin.FaultInjection
import Archie.Plugin.SetupConfig
import Archie.Worker.ApplyModel

/-! The effect of a fault on memory and registers, documented and real.

    The documentation defines the models bit by bit. Both engines are compared with that: the plugin
    works on a window of 16 bytes, the worker on one number of as many bytes as the fault needs. -/

namespace Archie

/-! ### Bits in memory -/

namespace Cpu

variable {c : Cpu} {address n a b : ℕ}

theorem write_bytes_bit {w : ℕ} (hb : b < 8) : ((c.write address (LittleEndian.bytes w n)).mem a).getLsbD b
    = if address ≤ a ∧ a - address < w then n.testBit (8 * (a - address) + b)
      else (c.mem a).getLsbD b := by
  rw [write_mem]
  by_cases ha : address ≤ a
  · by_cases hw : a - address < w
    · rw [if_pos ha, if_pos ⟨ha, hw⟩, LittleEndian.getElem?_bytes n hw, Option.getD_some,
        BitVec.getLsbD_ofNat, Nat.testBit_shiftRight]
      simp [hb]
    · have hout : (LittleEndian.bytes w n)[a - address]? = none :=
        List.getElem?_eq_none (by rw [LittleEndian.length_bytes]; omega)
      rw [if_pos ha, if_neg (fun h => hw h.2), hout, Option.getD_none]
  · rw [if_neg ha, if_neg (fun h => ha h.1)]

theorem writeWindow_mem (value : Plugin.Mask) : (c.writeWindow address n value).mem a =
    if h : address ≤ a ∧ a - address < n ∧ a - address < 16 then value ⟨a - address, h.2.2⟩
    else c.mem a := by
  rw [writeWindow, write_mem]
  by_cases ha : address ≤ a
  · by_cases hn : a - address < n
    · by_cases h16 : a - address < 16
      · rw [if_pos ha, dif_pos ⟨ha, hn, h16⟩]
        simp [hn, h16]
      · rw [if_pos ha, dif_neg (fun h => h16 h.2.2), List.getElem?_eq_none (by simp; omega),
          Option.getD_none]
    · rw [if_pos ha, dif_neg (fun h => hn h.2.1), List.getElem?_eq_none (by simp; omega),
        Option.getD_none]
  · rw [if_neg ha, dif_neg (fun h => ha h.1)]

/-- The bits of a number read from memory. -/
theorem testBit_read {i : ℕ} (hi : i < n) (hb : b < 8) :
    (LittleEndian.fromBytes (c.read address n)).testBit (8 * i + b)
      = (c.mem (address + i)).getLsbD b := by
  rw [LittleEndian.testBit_fromBytes _ _ _ hb, c.getElem?_read hi, Option.getD_some]

end Cpu

namespace Worker
open LittleEndian
open Plugin (Mask maskByte injectMemoryFault)

/-! ### The documented effect -/

/-- Bit `pos` of the target after a fault: the bits of the mask are cleared, set or flipped, or the
    lowest bytes are replaced; every other bit stays. -/
def documentedBit (model : FaultModel) (numBytes mask pos : ℕ) (old : Bool) : Bool :=
  match model with
  | .set0 => old && !mask.testBit pos
  | .set1 => old || mask.testBit pos
  | .toggle => old ^^ mask.testBit pos
  | .overwrite => if pos < 8 * numBytes then mask.testBit pos else old

/-- `after` is the guest `before` with the fault, nothing else changed. -/
def DocumentedEffect (f : Fault) (before after : Cpu) : Prop :=
  match f.type with
  | .register => after.mem = before.mem ∧ (∀ r, r ≠ f.address → after.regs r = before.regs r) ∧
      ∀ pos < 64, (after.regs f.address).getLsbD pos
        = documentedBit f.model f.numBytes f.mask pos ((before.regs f.address).getLsbD pos)
  | .data | .instruction => after.regs = before.regs ∧ ∀ a b, b < 8 → (after.mem a).getLsbD b
      = if f.address ≤ a then documentedBit f.model f.numBytes f.mask (8 * (a - f.address) + b)
          ((before.mem a).getLsbD b)
        else (before.mem a).getLsbD b

/-- The faults a configuration can ask for. -/
structure Fault.Valid (f : Fault) : Prop where
  mask : f.mask < 2 ^ 128
  numBytes : f.numBytes ≤ 16
  overwrite : f.model = .overwrite → 1 ≤ f.numBytes ∧ f.mask < 2 ^ (8 * f.numBytes)
  register : f.type = .register → f.mask < 2 ^ 64 ∧ f.numBytes ≤ 8

/-! ### The plugin -/

def FaultModel.id : FaultModel → ℕ
  | .set0 => Plugin.SET0
  | .set1 => Plugin.SET1
  | .toggle => Plugin.TOGGLE
  | .overwrite => Plugin.OVERWRITE

def FaultType.id : FaultType → ℕ
  | .data => Plugin.DATA
  | .instruction => Plugin.INSTRUCTION
  | .register => Plugin.REGISTER

/-- The same fault in the plugin. -/
def Fault.toPlugin (f : Fault) : Plugin.Fault :=
  ⟨f.address, f.type.id, f.model.id, f.lifespan, f.numBytes, maskByte f.mask, fun _ => 0,
    ⟨f.trigger.address, f.trigger.hitcounter, 0⟩⟩

theorem getLsbD_maskByte (mask : ℕ) (i : Fin 16) {b : ℕ} (hb : b < 8) :
    (maskByte mask i).getLsbD b = mask.testBit (8 * i + b) := by
  have hff : 0xff = 2 ^ 8 - 1 := rfl
  simp only [maskByte, hff, BitVec.getLsbD_ofNat, Nat.testBit_and, Nat.testBit_shiftRight,
    Nat.testBit_two_pow_sub_one, hb, decide_true, Bool.and_true, Bool.true_and]

/-- The bit models of the plugin share their window. -/
theorem processMemory_bit {c : Cpu} {op : Byte → Byte → Byte} (bit : Bool → Bool → Bool)
    {address mask : ℕ} (hmask : mask < 2 ^ 128)
    (hop : ∀ x y b, b < 8 → (op x y).getLsbD b = bit (x.getLsbD b) (y.getLsbD b))
    (hbit : ∀ x, bit x false = x) {a b : ℕ} (hb : b < 8) :
    ((c.processMemory op address (maskByte mask)).1.mem a).getLsbD b
      = if address ≤ a then bit ((c.mem a).getLsbD b) (mask.testBit (8 * (a - address) + b))
        else (c.mem a).getLsbD b := by
  simp only [Cpu.processMemory, Cpu.writeWindow_mem]
  by_cases ha : address ≤ a
  · by_cases hw : a - address < 16
    · rw [dif_pos ⟨ha, hw, hw⟩, if_pos ha, hop _ _ _ hb, getLsbD_maskByte mask _ hb, Cpu.window,
        Nat.add_sub_cancel' ha]
    · rw [dif_neg (fun h => hw h.2.2), if_pos ha, testBit_of_lt hmask (by omega), hbit]
  · rw [dif_neg (fun h => ha h.1), if_neg ha]

/-- The plugin has the documented effect on memory. -/
theorem injectMemoryFault_documented {f : Fault} (hv : f.Valid) (hm : f.type ≠ .register) (c : Cpu) :
    DocumentedEffect f c (injectMemoryFault c f.toPlugin).1 := by
  have hbits : ∀ after : Cpu, after.regs = c.regs → (∀ a b, b < 8 → (after.mem a).getLsbD b
      = if f.address ≤ a then documentedBit f.model f.numBytes f.mask (8 * (a - f.address) + b)
          ((c.mem a).getLsbD b)
        else (c.mem a).getLsbD b) → DocumentedEffect f c after := by
    intro after hregs hmem
    unfold DocumentedEffect
    cases ht : f.type with
    | register => exact absurd ht hm
    | data => exact ⟨hregs, hmem⟩
    | instruction => exact ⟨hregs, hmem⟩
  refine hbits _ ?_ fun a b hb => ?_
  · cases hmodel : f.model <;> simp only [injectMemoryFault, Fault.toPlugin, hmodel, FaultModel.id] <;> rfl
  · cases hmodel : f.model with
    | set0 =>
      simp only [injectMemoryFault, Fault.toPlugin, hmodel, FaultModel.id, documentedBit]
      exact processMemory_bit (fun x y => x && !y) hv.mask (fun x y b hb => by simp [hb])
        (by simp) hb
    | set1 =>
      simp only [injectMemoryFault, Fault.toPlugin, hmodel, FaultModel.id, documentedBit]
      exact processMemory_bit (fun x y => x || y) hv.mask (by simp) (by simp) hb
    | toggle =>
      simp only [injectMemoryFault, Fault.toPlugin, hmodel, FaultModel.id, documentedBit]
      exact processMemory_bit (fun x y => x ^^ y) hv.mask (by simp) (by simp) hb
    | overwrite =>
      have h16 : ¬ f.numBytes > 16 := by have := hv.numBytes; omega
      simp only [injectMemoryFault, Fault.toPlugin, hmodel, FaultModel.id, documentedBit,
        Cpu.processOverwriteMemory, if_neg h16, Cpu.writeWindow_mem]
      by_cases ha : f.address ≤ a
      · by_cases hw : a - f.address < f.numBytes
        · have hw16 : a - f.address < 16 := by omega
          rw [dif_pos ⟨ha, hw, hw16⟩, if_pos ha, if_pos (by omega), getLsbD_maskByte _ _ hb]
        · rw [dif_neg (fun h => hw h.2.1), if_pos ha, if_neg (by omega)]
      · rw [dif_neg (fun h => ha h.1), if_neg ha]

/-! ### The worker -/

/-- Where the worker gets the effect right: always for set and clear; a toggle must be meant to flip
    everything up to the highest bit set; a register overwrite must find the other bytes zero. -/
def Meets (env : Env) (f : Fault) (c : Cpu) : Prop :=
  match f.model with
  | .set0 | .set1 => True
  | .toggle => f.mask = (1 <<< (prefaultData env f c).size) - 1
  | .overwrite => f.type = .register → (c.regs f.address).toNat < 2 ^ (8 * f.numBytes)

/-- The guest after the worker's injection. -/
def injectedCpu (env : Env) (f : Fault) (c : Cpu) : Cpu :=
  let value := applyModel (prefaultData env f c) f
  match f.type with
  | .register => c.writeReg f.address (BitVec.ofNat 64 value)
  | .data | .instruction => c.write f.address (bytes (calculateFaultSize env f) value)

section

variable {env : Env} {f : Fault} {c : Cpu} {s : State}

theorem Fault.Valid.one_le_size (hv : f.Valid) (env : Env) : 1 ≤ calculateFaultSize env f := by
  unfold calculateFaultSize
  split
  · next h => exact (hv.overwrite h).1
  · exact env.maskSize_pos f.mask

theorem Fault.Valid.mask_lt (hv : f.Valid) (env : Env) : f.mask < 2 ^ width env f := by
  unfold width
  split
  · next h => exact (hv.register h).1
  · unfold calculateFaultSize
    split
    · next h => exact (hv.overwrite h).2
    · exact lt_of_lt_of_le (lt_byteLen f.mask)
        (Nat.pow_le_pow_right (by norm_num) (Nat.mul_le_mul_left 8 (env.byteLen_le f.mask)))

theorem Fault.Valid.applyModel_lt (hv : f.Valid) (env : Env) :
    applyModel (prefaultData env f c) f < 2 ^ width env f :=
  Worker.applyModel_lt (prefaultData_lt env) fun _ _ => hv.mask_lt env

@[simp] theorem dumpMemory_cpu (address size : ℕ) : (s.dumpMemory address size).cpu = s.cpu := by
  unfold State.dumpMemory; split <;> rfl

@[simp] theorem requestReenter_cpu (address : ℕ) : (s.requestReenter f address).cpu = s.cpu := by
  unfold State.requestReenter; split <;> rfl

@[simp] theorem addLiveFault_cpu (prefaultData : ℕ) :
    (s.addLiveFault f prefaultData).cpu = s.cpu := by
  unfold State.addLiveFault; split <;> rfl

@[simp] theorem dumpRegisters_cpu : s.dumpRegisters.cpu = s.cpu := rfl

theorem injectedCpu_memory (hm : f.type ≠ .register) : injectedCpu env f c
    = c.write f.address (bytes (calculateFaultSize env f) (applyModel (prefaultData env f c) f)) := by
  unfold injectedCpu
  split
  · next h => exact absurd h hm
  · rfl
  · rfl

theorem injectedCpu_register (hr : f.type = .register) : injectedCpu env f c
    = c.writeReg f.address (BitVec.ofNat 64 (applyModel (prefaultData env f c) f)) := by
  rw [injectedCpu, hr]

/-- A valid memory fault writes its padded bytes. -/
theorem faultMemory_spec (env : Env) (hv : f.Valid) (hm : f.type ≠ .register) :
    s.faultMemory env f = some ({ s.dumpMemory f.address (calculateFaultSize env f) with
      cpu := injectedCpu env f s.cpu }, prefaultData env f s.cpu) := by
  have hlt := hv.applyModel_lt (c := s.cpu) env
  rw [width, if_neg hm] at hlt
  have hone := hv.one_le_size env
  rw [injectedCpu_memory hm, ← toBytes_append_zeros hone hlt]
  simp only [State.faultMemory, ← prefaultData_memory hm, if_pos (length_toBytes_le hone hlt),
    dumpMemory_cpu]

theorem faultRegister_spec (hv : f.Valid) (hr : f.type = .register) : s.faultRegister f
    = some ({ s with cpu := injectedCpu env f s.cpu }, prefaultData env f s.cpu) := by
  have hlt := hv.applyModel_lt (c := s.cpu) env
  rw [width, if_pos hr] at hlt
  rw [injectedCpu_register hr]
  simp only [State.faultRegister, ← prefaultData_register (f := f) env hr, if_pos hlt]

/-- The injection of a valid fault does not panic and leaves the guest as computed. -/
theorem injectFault_spec (env : Env) (hv : f.Valid) (address : ℕ) : ∃ s',
    s.injectFault env f address = some (s', prefaultData env f s.cpu) ∧
    s'.cpu = injectedCpu env f s.cpu := by
  by_cases hr : f.type = .register
  · exact ⟨_, by rw [State.injectFault, hr]; exact faultRegister_spec hv hr, rfl⟩
  · have hmem := faultMemory_spec (s := s) env hv hr
    refine ⟨(State.requestReenter { s.dumpMemory f.address (calculateFaultSize env f) with
      cpu := injectedCpu env f s.cpu } f address).dumpMemory f.address (calculateFaultSize env f),
      ?_, by simp⟩
    rw [State.injectFault]
    split
    · next h => exact absurd h hr
    · rw [hmem]; rfl
    · rw [hmem]; rfl

/-- The hook of a fault that is due injects it. -/
theorem faultHookCb_spec (env : Env) {address : ℕ} (hv : f.Valid) (hlook : s.faults.lookup address = some f)
    (hdue : f.trigger.hitcounter = 1) :
    ∃ s', s.faultHookCb env address = some s' ∧ s'.cpu = injectedCpu env f s.cpu := by
  have hv' : (f.setHitcounter 0).Valid := ⟨hv.mask, hv.numBytes, hv.overwrite, hv.register⟩
  obtain ⟨s₁, hs₁, hcpu⟩ := injectFault_spec env
    (s := { s with faults := insertKey s.faults address (f.setHitcounter 0) }) hv' address
  have hzero : ¬ (f.setHitcounter 0).trigger.hitcounter ≥ 1 := by simp [Fault.setHitcounter]
  simp only [State.faultHookCb, hlook, Option.bind_eq_bind, Option.bind_some, hdue, one_ne_zero,
    if_false, Nat.sub_self, if_neg hzero, hs₁]
  exact ⟨_, rfl, (addLiveFault_cpu ..).trans hcpu⟩

/-! ### When the effect is the documented one -/

/-- The effect is right iff every bit the worker rewrites is. -/
theorem documentedEffect_iff_bits (hv : f.Valid) : DocumentedEffect f c (injectedCpu env f c) ↔
    ∀ pos < width env f, (applyModel (prefaultData env f c) f).testBit pos
      = documentedBit f.model f.numBytes f.mask pos ((prefaultData env f c).testBit pos) := by
  by_cases hr : f.type = .register
  · have hbit : ∀ pos < 64, ((injectedCpu env f c).regs f.address).getLsbD pos
        = (applyModel (prefaultData env f c) f).testBit pos := by
      intro pos hpos
      rw [injectedCpu_register hr, Cpu.writeReg_self, BitVec.getLsbD_ofNat]
      simp [hpos]
    have hold : ∀ pos, (prefaultData env f c).testBit pos = (c.regs f.address).getLsbD pos := by
      intro pos; rw [prefaultData_register env hr]; rfl
    have hother : ∀ r, r ≠ f.address → (injectedCpu env f c).regs r = c.regs r := by
      intro r hne; rw [injectedCpu_register hr]; exact Function.update_of_ne hne _ _
    have hmem : (injectedCpu env f c).mem = c.mem := by rw [injectedCpu_register hr]; rfl
    rw [DocumentedEffect, hr, width, if_pos hr]
    constructor
    · rintro ⟨-, -, h⟩ pos hpos
      rw [← hbit pos hpos, hold]
      exact h pos hpos
    · intro h
      refine ⟨hmem, hother, fun pos hpos => ?_⟩
      rw [hbit pos hpos, ← hold]
      exact h pos hpos
  · have hdoc : DocumentedEffect f c (injectedCpu env f c) ↔ ∀ a b, b < 8 →
        ((injectedCpu env f c).mem a).getLsbD b = if f.address ≤ a then
          documentedBit f.model f.numBytes f.mask (8 * (a - f.address) + b) ((c.mem a).getLsbD b)
        else (c.mem a).getLsbD b := by
      have hregs : (injectedCpu env f c).regs = c.regs := by rw [injectedCpu_memory hr]; rfl
      unfold DocumentedEffect
      split
      · next h => exact absurd h hr
      · exact and_iff_right hregs
      · exact and_iff_right hregs
    have hsize : width env f = 8 * calculateFaultSize env f := if_neg hr
    rw [hdoc, hsize]
    constructor
    · intro h pos hpos
      have hpos' : 8 * (pos / 8) + pos % 8 = pos := Nat.div_add_mod pos 8
      have hb : pos % 8 < 8 := Nat.mod_lt _ (by norm_num)
      have hi : pos / 8 < calculateFaultSize env f := by omega
      have hadd : f.address + pos / 8 - f.address = pos / 8 := by omega
      have := h (f.address + pos / 8) (pos % 8) hb
      rw [injectedCpu_memory hr, Cpu.write_bytes_bit hb, hadd, if_pos ⟨by omega, hi⟩, hpos',
        if_pos (by omega), ← Cpu.testBit_read hi hb, ← prefaultData_memory hr, hpos'] at this
      exact this
    · intro h a b hb
      rw [injectedCpu_memory hr, Cpu.write_bytes_bit hb]
      by_cases ha : f.address ≤ a
      · by_cases hi : a - f.address < calculateFaultSize env f
        · rw [if_pos ⟨ha, hi⟩, if_pos ha, h _ (by omega), prefaultData_memory hr,
            Cpu.testBit_read hi hb, Nat.add_sub_cancel' ha]
        · -- beyond the bytes of the fault the mask has no bits
          rw [if_neg (fun h => hi h.2), if_pos ha]
          have hmask : f.mask.testBit (8 * (a - f.address) + b) = false :=
            testBit_of_lt (hsize ▸ hv.mask_lt env) (by omega)
          unfold documentedBit
          cases hm : f.model with
          | set0 => simp [hmask]
          | set1 => simp [hmask]
          | toggle => simp [hmask]
          | overwrite =>
            have hn : calculateFaultSize env f = f.numBytes := by simp [calculateFaultSize, hm]
            simp only [if_neg (show ¬ 8 * (a - f.address) + b < 8 * f.numBytes by omega)]
      · rw [if_neg (fun h => ha h.1), if_neg ha]

/-- The bits come out right iff the fault meets the condition. -/
theorem applyModel_documented_iff (hv : f.Valid) : (∀ pos < width env f,
    (applyModel (prefaultData env f c) f).testBit pos
      = documentedBit f.model f.numBytes f.mask pos ((prefaultData env f c).testBit pos)) ↔
    Meets env f c := by
  simp only [testBit_applyModel]
  unfold Meets documentedBit
  cases hm : f.model with
  | set0 => simp
  | set1 => simp
  | toggle =>
    constructor
    · intro h
      refine Nat.eq_of_testBit_eq fun pos => ?_
      rw [Nat.one_shiftLeft, Nat.testBit_two_pow_sub_one]
      by_cases hpos : pos < width env f
      · exact (Bool.xor_right_inj.mp (h pos hpos)).symm
      · -- neither the mask nor the data reaches that far
        have hsize := Nat.size_le.mpr (prefaultData_lt (f := f) (c := c) env)
        rw [testBit_of_lt (hv.mask_lt env) (not_lt.mp hpos), eq_comm, decide_eq_false_iff_not]
        omega
    · intro h pos _
      simp only [h, Nat.one_shiftLeft, Nat.testBit_two_pow_sub_one]
  | overwrite =>
    have hmask : ∀ pos, 8 * f.numBytes ≤ pos → f.mask.testBit pos = false := fun pos hpos =>
      testBit_of_lt (hv.overwrite hm).2 hpos
    by_cases hr : f.type = .register
    · have hnum := (hv.register hr).2
      simp only [width, hr, forall_const, ← prefaultData_register (f := f) env hr]
      constructor
      · intro h
        refine Nat.lt_pow_two_of_testBit _ fun pos hpos => ?_
        by_cases h64 : pos < 64
        · have := h pos h64
          rw [if_neg (by omega), hmask pos hpos] at this
          exact this.symm
        · have hlt := prefaultData_lt (f := f) (c := c) env
          rw [width, if_pos hr] at hlt
          exact testBit_of_lt hlt (by omega)
      · intro h pos _
        by_cases hpos : pos < 8 * f.numBytes
        · rw [if_pos hpos]
        · rw [if_neg hpos, hmask pos (by omega), testBit_of_lt h (by omega)]
    · have hsize : width env f = 8 * f.numBytes := by
        rw [width, if_neg hr, calculateFaultSize, if_pos hm]
      simp only [hsize, hr, false_imp_iff, iff_true]
      intro pos hpos
      rw [if_pos hpos]

/-- The documented effect leaves no choice. -/
theorem DocumentedEffect.unique {a b : Cpu} (ha : DocumentedEffect f c a)
    (hb : DocumentedEffect f c b) (hm : f.type ≠ .register) : a = b := by
  have hmem : ∀ x y : Cpu, (∀ p q, q < 8 → (x.mem p).getLsbD q = (y.mem p).getLsbD q) →
      x.regs = y.regs → x = y := by
    rintro ⟨xm, xr⟩ ⟨ym, yr⟩ h hr
    have : xm = ym := funext fun p => BitVec.eq_of_getLsbD_eq fun q hq => h p q hq
    simp only at hr
    rw [this, hr]
  unfold DocumentedEffect at ha hb
  cases ht : f.type with
  | register => exact absurd ht hm
  | data =>
    simp only [ht] at ha hb
    exact hmem a b (fun p q hq => by rw [ha.2 p q hq, hb.2 p q hq]) (by rw [ha.1, hb.1])
  | instruction =>
    simp only [ht] at ha hb
    exact hmem a b (fun p q hq => by rw [ha.2 p q hq, hb.2 p q hq]) (by rw [ha.1, hb.1])

/-- The hook of a due fault has the documented effect, and on memory that of the plugin. -/
def EffectAsDocumented (env : Env) (s : State) (address : ℕ) (f : Fault) : Prop :=
  ∃ s', s.faultHookCb env address = some s' ∧ DocumentedEffect f s.cpu s'.cpu ∧
    (f.type ≠ .register → s'.cpu = (injectMemoryFault s.cpu f.toPlugin).1)

/-- The worker's fault hook has the documented effect exactly on the faults that meet the
    condition. -/
theorem faultHookCb_asDocumented_iff {address : ℕ} (hv : f.Valid)
    (hlook : s.faults.lookup address = some f) (hdue : f.trigger.hitcounter = 1) :
    EffectAsDocumented env s address f ↔ Meets env f s.cpu := by
  obtain ⟨s', hs', hcpu⟩ := faultHookCb_spec env hv hlook hdue
  rw [← applyModel_documented_iff hv, ← documentedEffect_iff_bits hv]
  constructor
  · rintro ⟨s₁, hs₁, hdoc, -⟩
    obtain rfl : s' = s₁ := Option.some.inj (hs'.symm.trans hs₁)
    rwa [hcpu] at hdoc
  · intro hdoc
    rw [← hcpu] at hdoc
    exact ⟨s', hs', hdoc, fun hm => hdoc.unique (injectMemoryFault_documented hv hm s.cpu) hm⟩

end

/-- A guest with one byte in memory. -/
def oneByteCpu : Cpu := ⟨Function.update (fun _ => 0) 0x20 0x5, fun _ => 0⟩

/-- A worker about to inject the fault. -/
def dueState (c : Cpu) (f : Fault) : State := (State.new c).initializeFaultHook [f]

theorem faultHookCb_asDocumented_iff_set1 :
    EffectAsDocumented Env.plain (dueState oneByteCpu ⟨⟨0x104, 1⟩, 0x20, .data, .set1, 2, 0, 0⟩) 0x104
      ⟨⟨0x104, 1⟩, 0x20, .data, .set1, 2, 0, 0⟩ ↔
    Meets Env.plain ⟨⟨0x104, 1⟩, 0x20, .data, .set1, 2, 0, 0⟩ oneByteCpu :=
  faultHookCb_asDocumented_iff
    ⟨by norm_num, by norm_num, nofun, nofun⟩ rfl rfl

/-- Toggling the lowest bit of 5 must give 4; the worker flips all three bits. -/
theorem toggle_not_asDocumented : ¬ EffectAsDocumented Env.plain
    (dueState oneByteCpu ⟨⟨0x104, 1⟩, 0x20, .data, .toggle, 1, 0, 0⟩) 0x104
    ⟨⟨0x104, 1⟩, 0x20, .data, .toggle, 1, 0, 0⟩ := by
  rintro ⟨s', hs', hdoc, -⟩
  have hcpu : (s'.cpu.mem 0x20).getLsbD 1 = true := by
    have : (((dueState oneByteCpu ⟨⟨0x104, 1⟩, 0x20, .data, .toggle, 1, 0, 0⟩).faultHookCb Env.plain
        0x104).map fun s => (s.cpu.mem 0x20).getLsbD 1) = some true := by decide
    rw [hs'] at this
    exact Option.some.inj this
  have := hdoc.2 0x20 1 (by norm_num)
  rw [hcpu] at this
  exact absurd this (by decide)

end Worker

end Archie
