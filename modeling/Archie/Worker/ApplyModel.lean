import Archie.Worker.Hooks

/-! The numbers that the worker reads and writes for a fault, and the faults it can inject. -/

namespace Archie

theorem Cpu.read_lt {c : Cpu} {address n : ℕ} : LittleEndian.fromBytes (c.read address n) < 2 ^ (8 * n) := by
  have := LittleEndian.fromBytes_lt (c.read address n)
  rwa [length_read] at this

namespace Worker
open LittleEndian

theorem testBit_of_lt {mask k pos : ℕ} (h : mask < 2 ^ k) (hpos : k ≤ pos) : mask.testBit pos = false :=
  Nat.testBit_lt_two_pow (lt_of_lt_of_le h (Nat.pow_le_pow_right (by norm_num) hpos))

/-- The number in the bytes of a memory fault or in the register of a register fault. -/
def prefaultData (env : Env) (f : Fault) (c : Cpu) : ℕ :=
  match f.type with
  | .register => (c.regs f.address).toNat
  | .data | .instruction => fromBytes (c.read f.address (calculateFaultSize env f))

/-- The bits of the target that the worker rewrites. -/
def width (env : Env) (f : Fault) : ℕ :=
  if f.type = .register then 64 else 8 * calculateFaultSize env f

/-- Bits of the number that the worker writes, against those of the number it read. -/
theorem testBit_applyModel (data : ℕ) (f : Fault) (pos : ℕ) :
    (applyModel data f).testBit pos = match f.model with
      | .set0 => data.testBit pos && !f.mask.testBit pos
      | .set1 => data.testBit pos || f.mask.testBit pos
      | .toggle => data.testBit pos ^^ decide (pos < data.size)
      | .overwrite => f.mask.testBit pos := by
  unfold applyModel
  cases f.model with
  | set0 =>
    simp only [Nat.testBit_xor, Nat.testBit_and]
    cases data.testBit pos <;> cases f.mask.testBit pos <;> rfl
  | set1 => simp only [Nat.testBit_or]
  | toggle => simp only [Nat.testBit_xor, Nat.one_shiftLeft, Nat.testBit_two_pow_sub_one]
  | overwrite => rfl

/-- The new number fits where the old one and the mask fit. -/
theorem applyModel_lt {data k : ℕ} {f : Fault} (hdata : data < 2 ^ k) (hmask : f.model ≠ .set0 →
    f.model ≠ .toggle → f.mask < 2 ^ k) : applyModel data f < 2 ^ k := by
  refine Nat.lt_pow_two_of_testBit _ fun pos hpos => ?_
  have hd : data.testBit pos = false := testBit_of_lt hdata hpos
  have hsize : ¬ pos < data.size := by have := Nat.size_le.mpr hdata; omega
  rw [testBit_applyModel]
  cases hm : f.model with
  | set0 => simp [hd]
  | set1 => simp [hd, testBit_of_lt (hmask (by simp [hm]) (by simp [hm])) hpos]
  | toggle => simp [hd, hsize]
  | overwrite => exact testBit_of_lt (hmask (by simp [hm]) (by simp [hm])) hpos

section

variable {env : Env} {f : Fault} {c : Cpu} {s : State}

theorem prefaultData_lt (env : Env) : prefaultData env f c < 2 ^ width env f := by
  unfold prefaultData width
  cases f.type with
  | register => exact (c.regs f.address).isLt
  | data => exact Cpu.read_lt
  | instruction => exact Cpu.read_lt

theorem prefaultData_memory (hm : f.type ≠ .register) :
    prefaultData env f c = fromBytes (c.read f.address (calculateFaultSize env f)) := by
  unfold prefaultData
  split
  · next h => exact absurd h hm
  · rfl
  · rfl

theorem prefaultData_register (env : Env) (hr : f.type = .register) :
    prefaultData env f c = (c.regs f.address).toNat := by
  rw [prefaultData, hr]

/-! ### Injectable faults -/

/-- The faults whose new value always fits: an overwrite has room for its mask, in memory and in the
    64 bits of a register, where setting bits needs the same. -/
def Fault.Injectable (f : Fault) : Prop :=
  match f.type with
  | .register => f.model = .set1 ∨ f.model = .overwrite → f.mask < 2 ^ 64
  | .data | .instruction => f.model = .overwrite → (toBytes f.mask).length ≤ f.numBytes

theorem applyModel_lt_iff {data k : ℕ} (hdata : data < 2 ^ k) : applyModel data f < 2 ^ k ↔
    (f.model = .set1 ∨ f.model = .overwrite → f.mask < 2 ^ k) := by
  constructor
  · rintro h (hm | hm)
    · rw [applyModel, hm] at h
      exact lt_of_le_of_lt Nat.right_le_or h
    · rwa [applyModel, hm] at h
  · intro h
    refine applyModel_lt hdata fun h0 ht => h ?_
    cases hm : f.model with
    | set0 => exact absurd hm h0
    | set1 => exact .inl rfl
    | toggle => exact absurd hm ht
    | overwrite => exact .inr rfl

theorem length_applyModel_iff {data : ℕ} (hdata : data < 2 ^ (8 * calculateFaultSize env f)) :
    (toBytes (applyModel data f)).length ≤ calculateFaultSize env f ↔
      (f.model = .overwrite → (toBytes f.mask).length ≤ f.numBytes) := by
  by_cases hm : f.model = .overwrite
  · simp [applyModel, calculateFaultSize, hm]
  · simp only [hm, false_imp_iff, iff_true]
    have hsize : calculateFaultSize env f = env.maskSize f.mask := if_neg hm
    have hmask : f.mask < 2 ^ (8 * calculateFaultSize env f) := by
      rw [hsize]
      exact lt_of_lt_of_le (lt_byteLen f.mask)
        (Nat.pow_le_pow_right (by norm_num) (Nat.mul_le_mul_left 8 (env.byteLen_le f.mask)))
    exact length_toBytes_le (hsize ▸ env.maskSize_pos f.mask) (applyModel_lt hdata fun _ _ => hmask)

/-- The worker panics on no other fault. -/
theorem injectFault_isSome_iff (address : ℕ) :
    (s.injectFault env f address).isSome ↔ f.Injectable := by
  have hmemory : f.type ≠ .register → ((s.injectFault env f address).isSome ↔
      (f.model = .overwrite → (toBytes f.mask).length ≤ f.numBytes)) := by
    intro hm
    rw [← length_applyModel_iff
      (by have := prefaultData_lt (f := f) (c := s.cpu) env; rwa [width, if_neg hm] at this)]
    unfold State.injectFault
    split
    · next h => exact absurd h hm
    all_goals
      simp only [State.faultMemory, prefaultData_memory hm, Option.bind_eq_bind]
      split <;> simp_all
  unfold Fault.Injectable
  cases ht : f.type with
  | register =>
    rw [← applyModel_lt_iff (s.cpu.regs f.address).isLt]
    simp only [State.injectFault, ht, State.faultRegister]
    split <;> simp_all
  | data => exact hmemory (by simp [ht])
  | instruction => exact hmemory (by simp [ht])

end

end Worker

end Archie
