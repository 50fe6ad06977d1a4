import Archie.Worker.Book
import Archie.Worker.Effect

/-! An injection of the worker and its undo.

    The data before the fault is kept as a number, and the undo writes the bytes of that number. A
    number has no leading zeros, so it may be shorter than the fault:

        before   05 00 00 00        prefault_data 0x5
        fault    ff ff ff ff
        undo     05 ff ff ff                                                                -/

namespace Archie.Worker
open LittleEndian

variable {env : Env} {f : Fault} {c : Cpu} {s s' : State} {address : ℕ}

/-! ### The injection -/

/-- The new value of a fault that does not panic is written in full width. -/
theorem toBytes_append_zeros_of_le {n w : ℕ} (h : (toBytes n).length ≤ w) :
    toBytes n ++ List.replicate (w - (toBytes n).length) 0 = bytes w n ∧ n < 2 ^ (8 * w) := by
  have hlen : max 1 (byteLen n) ≤ w := by rwa [length_toBytes] at h
  have hlt : n < 2 ^ (8 * w) := lt_of_lt_of_le (lt_byteLen n)
    (Nat.pow_le_pow_right (by norm_num) (Nat.mul_le_mul_left 8 ((le_max_right 1 _).trans hlen)))
  exact ⟨toBytes_append_zeros ((le_max_left 1 _).trans hlen) hlt, hlt⟩

/-- An injection in memory dumps, writes the new value in full width and dumps again. -/
theorem injectFault_memory {data : ℕ} (hm : f.type ≠ .register)
    (h : s.injectFault env f address = some (s', data)) :
    s' = (({ s.dumpMemory f.address (calculateFaultSize env f) with
        cpu := s.cpu.write f.address (bytes (calculateFaultSize env f) (applyModel data f)) }
          : State).requestReenter f address).dumpMemory f.address (calculateFaultSize env f) ∧
      data = fromBytes (s.cpu.read f.address (calculateFaultSize env f)) ∧
      applyModel data f < 2 ^ (8 * calculateFaultSize env f) := by
  have hmemory : (s.faultMemory env f).bind (fun p => some
      ((p.1.requestReenter f address).dumpMemory f.address (calculateFaultSize env f), p.2))
        = some (s', data) := by
    rw [← h]
    unfold State.injectFault
    split
    · next ht => exact absurd ht hm
    · rfl
    · rfl
  simp only [State.faultMemory, Option.bind_eq_some_iff] at hmemory
  obtain ⟨⟨s₁, data₁⟩, h₁, h₂⟩ := hmemory
  split at h₁
  · next hle =>
    obtain ⟨rfl, rfl⟩ := Prod.mk.inj (Option.some.inj h₁)
    obtain ⟨rfl, rfl⟩ := Prod.mk.inj (Option.some.inj h₂)
    obtain ⟨hbytes, hlt⟩ := toBytes_append_zeros_of_le hle
    refine ⟨?_, rfl, hlt⟩
    rw [hbytes, dumpMemory_cpu]
  · cases h₁

/-- An injection that does not panic writes the whole new value and keeps the old one. -/
theorem injectFault_cpu {data : ℕ} (h : s.injectFault env f address = some (s', data)) :
    s'.cpu = injectedCpu env f s.cpu ∧ data = prefaultData env f s.cpu ∧
      applyModel data f < 2 ^ width env f := by
  by_cases hr : f.type = .register
  · simp only [State.injectFault, hr, State.faultRegister] at h
    split at h
    · next hlt =>
      obtain ⟨rfl, rfl⟩ := Prod.mk.inj (Option.some.inj h)
      rw [injectedCpu_register hr, prefaultData_register env hr, width, if_pos hr]
      exact ⟨rfl, rfl, hlt⟩
    · cases h
  · obtain ⟨rfl, hdata, hlt⟩ := injectFault_memory hr h
    rw [injectedCpu_memory hr, prefaultData_memory hr, width, if_neg hr, hdata]
    refine ⟨?_, rfl, hdata ▸ hlt⟩
    simp

/-- Nothing but the injection can fail in the hook of a fault that is due. -/
theorem faultHookCb_isSome_inject (hlook : s.faults.lookup address = some f)
    (hdue : f.trigger.hitcounter = 1) : (s.faultHookCb env address).isSome ↔
      (State.injectFault env { s with faults := insertKey s.faults address (f.setHitcounter 0) }
        (f.setHitcounter 0) address).isSome := by
  have hzero : ¬(f.setHitcounter 0).trigger.hitcounter ≥ 1 := by simp [Fault.setHitcounter]
  simp only [State.faultHookCb, hlook, Option.bind_eq_bind, Option.bind_some, hdue, one_ne_zero,
    if_false, Nat.sub_self, if_neg hzero]
  rw [Option.isSome_bind]
  simp

/-- A fault that is due is injected unless its new value does not fit. -/
theorem faultHookCb_isSome_iff (hlook : s.faults.lookup address = some f)
    (hdue : f.trigger.hitcounter = 1) : (s.faultHookCb env address).isSome ↔ f.Injectable :=
  (faultHookCb_isSome_inject hlook hdue).trans (injectFault_isSome_iff address)

/-- An overwrite without a number of bytes, the default. -/
def defaultOverwrite : Fault := ⟨⟨0x104, 1⟩, 0x20, .data, .overwrite, 0x1, 1, 0⟩

theorem faultHookCb_isSome_iff_default :
    ((dueState oneByteCpu defaultOverwrite).faultHookCb Env.plain 0x104).isSome ↔
      defaultOverwrite.Injectable :=
  faultHookCb_isSome_iff (f := defaultOverwrite) rfl rfl

/-- The mask is longer than the fault. -/
theorem defaultOverwrite_panics :
    ¬((dueState oneByteCpu defaultOverwrite).faultHookCb Env.plain 0x104).isSome := by
  decide

/-- What a due fault leaves behind: the guest, and its entry in front of the live faults. -/
theorem faultHookCb_due (hlook : s.faults.lookup address = some f) (hdue : f.trigger.hitcounter = 1)
    (hlife : f.lifespan ≠ 0) (h : s.faultHookCb env address = some s') :
    s'.cpu = injectedCpu env f s.cpu ∧ applyModel (prefaultData env f s.cpu) f < 2 ^ width env f ∧
    s'.faults = insertKey s.faults address (f.setHitcounter 0) ∧
    s'.liveFaults = pushLive s.liveFaults (f.trigger.address, prefaultData env f s.cpu)
      (State.livePriority f.lifespan s.instructionCount) := by
  obtain ⟨s₁, data, hinject, rfl⟩ : ∃ s₁ data, State.injectFault env
      { s with faults := insertKey s.faults address (f.setHitcounter 0) } (f.setHitcounter 0) address
        = some (s₁, data) ∧
      s' = (({ s₁ with injected := s₁.injected ++ [⟨f.setHitcounter 0, s₁.instructionCount⟩] }
        : State).addLiveFault (f.setHitcounter 0) data).dumpRegisters := by
    rcases State.faultHookCb_cases hlook h with ⟨hzero, -⟩ | ⟨hmore, -⟩ | ⟨-, hinject⟩
    · omega
    · omega
    · exact hinject
  obtain ⟨hcpu, hdata, hlt⟩ := injectFault_cpu hinject
  have hbook := (State.injectFault_frame hinject).1
  simp only [State.book, Book.mk.injEq] at hbook
  obtain ⟨hfaults, hlive, hcount, -, -⟩ := hbook
  rw [hdata] at hlt
  have hlife' : (f.setHitcounter 0).lifespan ≠ 0 := hlife
  refine ⟨(addLiveFault_cpu ..).trans hcpu, hlt, (State.addLiveFault_faults ..).trans hfaults, ?_⟩
  simp only [State.addLiveFault, if_pos hlife', State.dumpRegisters, hlive, hcount, hdata]
  rfl

/-! ### The undo -/

theorem undoFaults_due {e : LiveFault × ℕ} (hpeek : env.peek s.liveFaults = some e)
    (htime : (2 ^ 64 - 1) - e.2 ≤ s.instructionCount) (hlook : s.faults.lookup e.1.1 = some f)
    (hdata : e.1.2 < 2 ^ 64 ∨ f.type ≠ .register) : ∃ s₃, s.undoFaults env = some (s₃, some f) ∧
      s₃.cpu = if f.type = .register then s.cpu.writeReg f.address (BitVec.ofNat 64 e.1.2)
        else s.cpu.write f.address (toBytes e.1.2) := by
  obtain ⟨⟨address, data⟩, priority⟩ := e
  simp only [State.undoFaults, hpeek, if_neg (not_lt.mpr htime), hlook]
  cases ht : f.type with
  | register =>
    have hlt := hdata.resolve_right (not_not.mpr ht)
    simp only [if_pos hlt]
    exact ⟨_, rfl, rfl⟩
  | data => exact ⟨_, rfl, rfl⟩
  | instruction => exact ⟨_, rfl, rfl⟩

theorem writeReg_writeReg_self (c : Cpu) (r : ℕ) (v : BitVec 64) :
    (c.writeReg r v).writeReg r (c.regs r) = c := by
  simp [Cpu.writeReg]

/-- Writing the bytes of the old number over those of the new one restores memory iff the new number
    needs no more of them. -/
theorem write_toBytes_eq_iff {size data value : ℕ} (hone : 1 ≤ size)
    (hdata : data = fromBytes (c.read address size)) (hvalue : value < 2 ^ (8 * size)) :
    ((c.write address (bytes size value)).write address (toBytes data) = c ↔
      value < 2 ^ (8 * (toBytes data).length)) := by
  have hlt : data < 2 ^ (8 * size) := hdata ▸ Cpu.read_lt
  have hlen : (toBytes data).length ≤ size := length_toBytes_le hone hlt
  have hfit : data < 2 ^ (8 * (toBytes data).length) := (toBytes_append_zeros_of_le le_rfl).2
  have hold : ∀ i b, i < size → b < 8 → data.testBit (8 * i + b) = (c.mem (address + i)).getLsbD b := by
    intro i b hi hb
    rw [hdata, Cpu.testBit_read hi hb]
  have hbit : ∀ a b, b < 8 →
      (((c.write address (bytes size value)).write address (toBytes data)).mem a).getLsbD b =
        if address ≤ a ∧ a - address < (toBytes data).length then data.testBit (8 * (a - address) + b)
        else if address ≤ a ∧ a - address < size then value.testBit (8 * (a - address) + b)
        else (c.mem a).getLsbD b := by
    intro a b hb
    rw [length_toBytes, toBytes, Cpu.write_bytes_bit hb, Cpu.write_bytes_bit hb]
  constructor
  · intro h
    refine Nat.lt_pow_two_of_testBit _ fun pos hpos => ?_
    by_cases hin : pos < 8 * size
    · -- a byte that the undo does not reach held zero
      have hi : pos / 8 < size := by omega
      have hb : pos % 8 < 8 := Nat.mod_lt _ (by norm_num)
      have hpos' : 8 * (pos / 8) + pos % 8 = pos := Nat.div_add_mod pos 8
      have hadd : address + pos / 8 - address = pos / 8 := Nat.add_sub_cancel_left ..
      have hkept := hbit (address + pos / 8) (pos % 8) hb
      rw [h, hadd, if_neg (by omega), if_pos ⟨by omega, hi⟩, ← hold _ _ hi hb, hpos'] at hkept
      rw [← hkept]
      exact testBit_of_lt hfit hpos
    · exact testBit_of_lt hvalue (not_lt.mp hin)
  · intro hshort
    have hmem : ((c.write address (bytes size value)).write address (toBytes data)).mem = c.mem := by
      funext a
      refine BitVec.eq_of_getLsbD_eq fun b hb => ?_
      rw [hbit a b hb]
      by_cases ha : address ≤ a
      · obtain ⟨i, rfl⟩ := Nat.exists_eq_add_of_le ha
        rw [Nat.add_sub_cancel_left]
        by_cases hin : i < (toBytes data).length
        · rw [if_pos ⟨ha, hin⟩, hold i b (by omega) hb]
        · by_cases hi : i < size
          · rw [if_neg fun h => hin h.2, if_pos ⟨ha, hi⟩, ← hold i b hi hb,
              testBit_of_lt hshort (by omega), testBit_of_lt hfit (by omega)]
          · rw [if_neg fun h => hin h.2, if_neg fun h => hi h.2]
      · rw [if_neg fun h => ha h.1, if_neg fun h => ha h.1]
    rw [Cpu.write, Cpu.write] at hmem ⊢
    simp only at hmem
    rw [hmem]

theorem Fault.Injectable.one_le_size (h : f.Injectable) (env : Env) (hm : f.type ≠ .register) :
    1 ≤ calculateFaultSize env f := by
  unfold calculateFaultSize
  split
  · next hover =>
    have hlen : (toBytes f.mask).length ≤ f.numBytes := by
      unfold Fault.Injectable at h
      split at h
      · next hr => exact absurd hr hm
      · exact h hover
      · exact h hover
    rw [length_toBytes] at hlen
    omega
  · exact env.maskSize_pos f.mask

/-- Every byte of the mask lies below a byte of the old content that is not zero, or at its lowest
    byte. -/
def MaskCovered (env : Env) (f : Fault) (c : Cpu) : Prop :=
  ∀ i, 0 < i → 2 ^ (8 * i) ≤ f.mask →
    ∃ j, i ≤ j ∧ j < calculateFaultSize env f ∧ c.mem (f.address + j) ≠ 0

theorem two_pow_le_read_iff {i size : ℕ} : 2 ^ (8 * i) ≤ fromBytes (c.read address size) ↔
    ∃ j, i ≤ j ∧ j < size ∧ c.mem (address + j) ≠ 0 := by
  constructor
  · intro h
    by_contra hnone
    refine absurd h (not_le.mpr (Nat.lt_pow_two_of_testBit _ fun pos hpos => ?_))
    by_cases hin : pos < 8 * size
    · have hzero : c.mem (address + pos / 8) = 0 := by
        by_contra hne
        exact hnone ⟨pos / 8, by omega, by omega, hne⟩
      have hb : pos % 8 < 8 := Nat.mod_lt _ (by norm_num)
      have hread : (fromBytes (c.read address size)).testBit (8 * (pos / 8) + pos % 8)
          = (c.mem (address + pos / 8)).getLsbD (pos % 8) := Cpu.testBit_read (by omega) hb
      rw [Nat.div_add_mod, hzero] at hread
      rw [hread]
      exact BitVec.getLsbD_zero
    · exact testBit_of_lt Cpu.read_lt (not_lt.mp hin)
  · rintro ⟨j, hij, hj, hne⟩
    by_contra hlt
    refine hne (BitVec.eq_of_getLsbD_eq fun b hb => ?_)
    rw [← Cpu.testBit_read hj hb, testBit_of_lt (not_le.mp hlt) (by omega)]
    exact BitVec.getLsbD_zero.symm

theorem maskCovered_iff (env : Env) (hm : f.type ≠ .register) :
    MaskCovered env f c ↔ f.mask < 2 ^ (8 * (toBytes (prefaultData env f c)).length) := by
  have hold : ∀ i, 2 ^ (8 * i) ≤ prefaultData env f c ↔
      ∃ j, i ≤ j ∧ j < calculateFaultSize env f ∧ c.mem (f.address + j) ≠ 0 := by
    intro i
    rw [prefaultData_memory hm]
    exact two_pow_le_read_iff
  simp only [MaskCovered, ← hold]
  have hfit : prefaultData env f c < 2 ^ (8 * (toBytes (prefaultData env f c)).length) :=
    (toBytes_append_zeros_of_le le_rfl).2
  constructor
  · intro h
    by_contra hge
    have hpos : 0 < (toBytes (prefaultData env f c)).length := by
      rw [length_toBytes]
      omega
    exact absurd (h _ hpos (not_lt.mp hge)) (not_le.mpr hfit)
  · intro hlt i hi hmask
    by_contra hsmall
    have hlen := length_toBytes_le hi (not_le.mp hsmall)
    have hpow : 2 ^ (8 * (toBytes (prefaultData env f c)).length) ≤ 2 ^ (8 * i) :=
      Nat.pow_le_pow_right (by norm_num) (by omega)
    omega

/-- An injected fault whose entry is due next is undone. The guest is then as before, for a register
    always, for memory iff a fault that writes its mask covers it with the old content. -/
theorem undo_restores_iff {s₂ : State} {e : LiveFault × ℕ} (hlook : s.faults.lookup address = some f)
    (hkey : f.trigger.address = address) (hdue : f.trigger.hitcounter = 1) (hlife : f.lifespan ≠ 0)
    (hinject : s.faultHookCb env address = some s') (hcpu : s₂.cpu = s'.cpu)
    (hfaults : s₂.faults = s'.faults) (hpush : s'.liveFaults.head? = some e)
    (hpeek : env.peek s₂.liveFaults = some e) (htime : (2 ^ 64 - 1) - e.2 ≤ s₂.instructionCount) :
    (∃ s₃ g, s₂.undoFaults env = some (s₃, some g) ∧ s₃.cpu = s.cpu) ↔
      (f.type ≠ .register → f.model = .set1 ∨ f.model = .overwrite → MaskCovered env f s.cpu) := by
  obtain ⟨hnew, hlt, hmap, hlive⟩ := faultHookCb_due hlook hdue hlife hinject
  rw [hlive] at hpush
  obtain rfl := Option.some.inj hpush
  have hlook₂ : s₂.faults.lookup f.trigger.address = some (f.setHitcounter 0) := by
    rw [hfaults, hmap, lookup_insertKey, if_pos hkey]
  have hdata : prefaultData env f s.cpu < 2 ^ 64 ∨ (f.setHitcounter 0).type ≠ .register := by
    by_cases hr : f.type = .register
    · left
      rw [prefaultData_register env hr]
      exact (s.cpu.regs f.address).isLt
    · exact Or.inr hr
  obtain ⟨s₃, hundo, hcpu₃⟩ := undoFaults_due hpeek htime hlook₂ hdata
  have hiff : (∃ s₃ g, s₂.undoFaults env = some (s₃, some g) ∧ s₃.cpu = s.cpu) ↔ s₃.cpu = s.cpu := by
    constructor
    · rintro ⟨s₄, g, h₄, hcpu₄⟩
      obtain ⟨rfl, -⟩ := Prod.mk.inj (Option.some.inj (hundo.symm.trans h₄))
      exact hcpu₄
    · exact fun h => ⟨s₃, _, hundo, h⟩
  rw [hiff, hcpu₃, hcpu, hnew]
  by_cases hr : f.type = .register
  · refine iff_of_true ?_ fun hne => absurd hr hne
    rw [if_pos (show (f.setHitcounter 0).type = .register from hr), injectedCpu_register hr,
      prefaultData_register env hr, BitVec.ofNat_toNat, BitVec.setWidth_eq]
    exact writeReg_writeReg_self s.cpu f.address _
  · have hone : 1 ≤ calculateFaultSize env f := by
      have hinj : f.Injectable :=
        (injectFault_isSome_iff address).mp
          ((faultHookCb_isSome_inject hlook hdue).mp (Option.isSome_of_eq_some hinject))
      exact hinj.one_le_size env hr
    rw [if_neg (show ¬(f.setHitcounter 0).type = .register from hr), injectedCpu_memory hr]
    rw [width, if_neg hr] at hlt
    refine (write_toBytes_eq_iff hone (prefaultData_memory hr) hlt).trans ?_
    rw [applyModel_lt_iff (toBytes_append_zeros_of_le le_rfl).2, ← maskCovered_iff env hr]
    exact ⟨fun h _ => h, fun h => h hr⟩

/-- A fault on the byte 5 and the zeros behind it. -/
def temporarySet1 (mask : ℕ) : Fault := ⟨⟨0x104, 1⟩, 0x20, .data, .set1, mask, 1, 0⟩

theorem undo_restores_iff_byte : ∃ s', (dueState oneByteCpu (temporarySet1 2)).faultHookCb Env.plain 0x104
    = some s' ∧ ((∃ s₃ g, ({ s' with instructionCount := 1 } : State).undoFaults Env.plain
        = some (s₃, some g) ∧ s₃.cpu = oneByteCpu) ↔
      ((temporarySet1 2).type ≠ .register → (temporarySet1 2).model = .set1 ∨
        (temporarySet1 2).model = .overwrite → MaskCovered Env.plain (temporarySet1 2) oneByteCpu)) := by
  refine ⟨_, rfl, ?_⟩
  exact undo_restores_iff (s := dueState oneByteCpu (temporarySet1 2)) rfl rfl rfl (by decide) rfl rfl rfl
    rfl rfl (by decide)

/-- A mask of two bytes writes a zero byte, which the undo leaves as it is. -/
theorem temporarySet1_not_restored : ∃ s', (dueState oneByteCpu (temporarySet1 0x100)).faultHookCb
    Env.plain 0x104 = some s' ∧ ¬∃ s₃ g, ({ s' with instructionCount := 1 } : State).undoFaults Env.plain
      = some (s₃, some g) ∧ s₃.cpu = oneByteCpu := by
  refine ⟨_, rfl, ?_⟩
  rintro ⟨s₃, g, hundo, hcpu⟩
  have hbyte := congrArg (Option.map fun p => p.1.cpu.mem 0x21) hundo
  simp only [Option.map_some, hcpu] at hbyte
  exact absurd hbyte (by decide)

end Archie.Worker
