import Archie.Lib.ByteLanes
import Archie.Plugin.RoundTrip

/-! One register fault, injected and reversed.

    The mask of the register is a sum of shifted bytes, each of them an `int` before it is converted:

        byte      0   1   2        3               4   5   6   7
        summand   the byte         sign extended   shifted beyond the type

    The reversal casts first and is right for all eight bytes. -/

namespace Archie.Plugin
open ByteLanes

/-- The bytes that a sign extension puts in front of a byte. -/
def signByte (b : Byte) : Byte := if b.msb then 0xff else 0

theorem eight_le_sixteen : 8 ≤ 16 := by norm_num

local instance neZero_sixteen : NeZero 16 := ⟨by norm_num⟩

/-- A byte of the mask. -/
def Fault.maskByte (f : Fault) (i : ℕ) : Byte := f.mask (Fin.ofNat 16 i)

/-- What a fault makes of byte `i` of a register. -/
def Fault.faultedByte (f : Fault) (i : ℕ) (value : Byte) : Byte :=
  match f.model with
  | SET0 => value &&& ~~~f.maskByte i
  | SET1 => value ||| f.maskByte i
  | TOGGLE => value ^^^ f.maskByte i
  | OVERWRITE => if i < f.numBytes then f.maskByte i else value
  | _ => value

def Fault.faultedRegister (f : Fault) (reg : BitVec 64) : BitVec 64 :=
  ofLanes 64 fun i => f.faultedByte i (byteOf reg i)

/-- The register gets the faulted value, and the reversal gives the guest back. -/
def RegisterRestored (t : Target) (c : Cpu) (f : Fault) : Prop :=
  (injectRegisterFault t c f).1 = c.writeReg f.address (f.faultedRegister (c.regs f.address)) ∧
    reverseRegisterFault (injectRegisterFault t c f).1 (injectRegisterFault t c f).2 = c

/-- However far a zero byte is shifted, it stays zero. -/
def Target.ShiftsZero (t : Target) : Prop := ∀ i, t.intShl 0 i = 0

/-- All four upper bytes of a register. -/
def UpperIs (reg : BitVec 64) (b : Byte) : Prop := ∀ i, 4 ≤ i → i < 8 → byteOf reg i = b

/-- No byte of the mask is shifted beyond the type. -/
def Fault.FitsInt (f : Fault) : Prop := ∀ i, 4 ≤ i → i < 8 → f.maskByte i = 0

def Fault.RegisterSafe (f : Fault) (reg : BitVec 64) : Prop :=
  match f.model with
  | SET0 => reg = 0 ∨ f.FitsInt ∧ ((f.maskByte 3).msb = false ∨ UpperIs reg 0)
  | SET1 => reg = BitVec.allOnes 64 ∨ f.FitsInt ∧ ((f.maskByte 3).msb = false ∨ UpperIs reg 0xff)
  | TOGGLE => f.FitsInt ∧ (f.maskByte 3).msb = false
  | _ => f.numBytes ≤ 3 ∨ f.numBytes = 4 ∧ UpperIs reg (signByte (f.maskByte 3)) ∨
      4 < f.numBytes ∧ ∃ v : Byte, (v = 0 ∨ v = 0xff) ∧ (∀ i < f.numBytes, f.maskByte i = v) ∧ UpperIs reg v

/-! ### The mask -/

section Mask

variable (t : Target) (mask : Mask)

/-- The sum that the bit models take for the mask. -/
def registerMask : BitVec 64 :=
  ((List.finRange 8).map fun i : Fin 8 => t.intShl (mask (i.castLE eight_le_sixteen)) i).sum

theorem castLE_eq (i : Fin 8) : (i.castLE eight_le_sixteen : Fin 16) = Fin.ofNat 16 i := by
  refine Fin.ext ?_
  rw [Fin.val_castLE, Fin.val_ofNat, Nat.mod_eq_of_lt (by omega)]

theorem lane_intShl (b : Byte) {i j : ℕ} (hj : j < 4) (hi : i < 8) : lane (t.intShl b j) i =
    if i = j then b else if j = 3 ∧ 4 ≤ i then signByte b else 0 := by
  rw [t.intShl_eq b j hj, lane_signExtend (m := 3) _ rfl (by omega)]
  by_cases h : i ≤ 3
  · rw [if_pos h, lane_shiftLeft b j (by omega)]
    simp only [show ¬4 ≤ i by omega, and_false, if_false]
  · rw [if_neg h, lane_shiftLeft b j (by omega), if_neg (show ¬i = j by omega)]
    by_cases h3 : j = 3
    · subst h3
      simp only [if_true, show 4 ≤ i by omega, and_self]
      rfl
    · simp [Ne.symm h3, h3]

/-- Below a number without its low bytes a byte is added without a carry. -/
theorem lane_intShl_add {x : BitVec 64} (b : Byte) {i j : ℕ} (hj : j < 3) (hi : i < 8)
    (hx : ∀ k ≤ j, lane x k = 0) :
    lane (t.intShl b j + x) i = if i = j then b else lane x i := by
  have hb : ∀ k < 8, lane (t.intShl b j) k = if k = j then b else 0 := by
    intro k hk
    rw [lane_intShl t b (by omega) hk]
    simp only [show ¬j = 3 by omega, false_and, if_false]
  rw [lane_add (n := 8) _ _ i le_rfl, hb i hi]
  · split
    · next hij =>
      rw [hx i (by omega)]
      simp
    · simp
  · intro k hk
    rw [hb k hk]
    split
    · next hkj =>
      rw [hx k (by omega)]
      simp
    · simp

theorem registerMask_eq : registerMask t mask = t.intShl (mask 0) 0 + (t.intShl (mask 1) 1 +
    (t.intShl (mask 2) 2 + (t.intShl (mask 3) 3 + (t.intShl (mask 4) 4 + (t.intShl (mask 5) 5 +
      (t.intShl (mask 6) 6 + (t.intShl (mask 7) 7 + 0))))))) := rfl

variable {t}

/-- A mask of 32 bits comes out sign extended. -/
theorem lane_registerMask {f : Fault} (hzero : t.ShiftsZero) (hfits : f.FitsInt) {i : ℕ} (hi : i < 8) :
    lane (registerMask t f.mask) i = if i < 4 then f.maskByte i else signByte (f.maskByte 3) := by
  have hhigh : ∀ k, 4 ≤ k → k < 8 → t.intShl (f.maskByte k) k = 0 := by
    intro k hk hk8
    rw [hfits k hk hk8]
    exact hzero k
  have h4 : t.intShl (f.mask 4) 4 = 0 := hhigh 4 le_rfl (by decide)
  have h5 : t.intShl (f.mask 5) 5 = 0 := hhigh 5 (by decide) (by decide)
  have h6 : t.intShl (f.mask 6) 6 = 0 := hhigh 6 (by decide) (by decide)
  have h7 : t.intShl (f.mask 7) 7 = 0 := hhigh 7 (by decide) (by decide)
  rw [registerMask_eq, h4, h5, h6, h7, add_zero, add_zero, add_zero, add_zero, add_zero]
  -- from the sign-extended byte down
  have h3 : ∀ k < 8, lane (t.intShl (f.mask 3) 3) k
      = if k = 3 then f.mask 3 else if 4 ≤ k then signByte (f.mask 3) else 0 := by
    intro k hk
    rw [lane_intShl t _ (by decide) hk]
    simp only [true_and]
  have h2 : ∀ k < 8, lane (t.intShl (f.mask 2) 2 + t.intShl (f.mask 3) 3) k
      = if k = 2 then f.mask 2 else lane (t.intShl (f.mask 3) 3) k := by
    intro k hk
    refine lane_intShl_add t _ (by decide) hk fun j hj => ?_
    rw [h3 j (by omega), if_neg (by omega), if_neg (by omega)]
  have h1 : ∀ k < 8, lane (t.intShl (f.mask 1) 1 + (t.intShl (f.mask 2) 2 + t.intShl (f.mask 3) 3)) k
      = if k = 1 then f.mask 1 else lane (t.intShl (f.mask 2) 2 + t.intShl (f.mask 3) 3) k := by
    intro k hk
    refine lane_intShl_add t _ (by decide) hk fun j hj => ?_
    rw [h2 j (by omega), if_neg (by omega), h3 j (by omega), if_neg (by omega), if_neg (by omega)]
  rw [lane_intShl_add t _ (by decide) hi]
  · rw [h1 i hi, h2 i hi, h3 i hi]
    rcases i with _ | _ | _ | _ | i
    · rfl
    · rfl
    · rfl
    · rfl
    · simp [Fault.maskByte]
  · intro j hj
    rw [h1 j (by omega), if_neg (by omega), h2 j (by omega), if_neg (by omega), h3 j (by omega),
      if_neg (by omega), if_neg (by omega)]

/-! ### Compilers -/

/-- A compiler for which one shift beyond the type has a value of our choice, all others give zero. -/
def shiftTarget (b : Byte) (j : ℕ) (value : BitVec 64) : Target where
  arch := .arm64
  intShl := fun b' i => if i < 4 then ((b'.setWidth 32) <<< (8 * i)).signExtend 64
    else if i = j ∧ b' = b then value else 0
  intShl_eq := fun _ _ hi => if_pos hi

theorem shiftTarget_shiftsZero {b : Byte} (hb : b ≠ 0) (j : ℕ) (value : BitVec 64) :
    (shiftTarget b j value).ShiftsZero := by
  intro i
  simp only [shiftTarget]
  split
  · simp
  · rw [if_neg fun h => hb h.2.symm]

theorem shiftTarget_high (b b' : Byte) {i j : ℕ} (value : BitVec 64) (hi : 4 ≤ i) :
    (shiftTarget b j value).intShl b' i = if i = j ∧ b' = b then value else 0 :=
  if_neg (by omega)

/-- A byte beyond the type makes any mask possible. -/
theorem exists_registerMask {f : Fault} (hnot : ¬f.FitsInt) (value : BitVec 64) :
    ∃ t : Target, t.ShiftsZero ∧ registerMask t f.mask = value := by
  simp only [Fault.FitsInt, not_forall] at hnot
  obtain ⟨j, hj, hj8, hne⟩ := hnot
  have hsplit : ∀ v, registerMask (shiftTarget (f.maskByte j) j v) f.mask
      = registerMask (shiftTarget (f.maskByte j) j 0) f.mask + v := by
    intro v
    have hterm : ∀ i : Fin 8, (shiftTarget (f.maskByte j) j v).intShl (f.mask (i.castLE (by decide))) i
        = (shiftTarget (f.maskByte j) j 0).intShl (f.mask (i.castLE (by decide))) i
          + if i = (⟨j, hj8⟩ : Fin 8) then v else 0 := by
      intro i
      by_cases hij : i = (⟨j, hj8⟩ : Fin 8)
      · subst hij
        rw [castLE_eq, shiftTarget_high _ _ _ hj, shiftTarget_high _ _ _ hj]
        simp [Fault.maskByte]
      · have hval : ¬(i : ℕ) = j := fun h => hij (Fin.ext h)
        simp only [shiftTarget, hval, false_and, hij, if_false, add_zero]
    rw [registerMask, List.map_congr_left fun i _ => hterm i, List.sum_map_add]
    congr 1
    rw [← List.ofFn_eq_map, List.sum_ofFn, Finset.sum_ite_eq', if_pos (Finset.mem_univ _)]
  refine ⟨shiftTarget (f.maskByte j) j (value - registerMask (shiftTarget (f.maskByte j) j 0) f.mask),
    shiftTarget_shiftsZero hne _ _, ?_⟩
  rw [hsplit]
  ring

end Mask

/-! ### Injection and reversal -/

section Reverse

variable {t : Target} {c : Cpu} {f f' : Fault}

theorem byteOf_eq_iff {x y : BitVec 64} : x = y ↔ ∀ i < 8, byteOf x i = byteOf y i :=
  ⟨fun h i _ => congrArg (byteOf · i) h, fun h => ext_lane (n := 8) le_rfl h⟩

theorem byteOf_faultedRegister (reg : BitVec 64) {i : ℕ} (hi : i < 8) :
    byteOf (f.faultedRegister reg) i = f.faultedByte i (byteOf reg i) := lane_ofLanes _ (by omega)

/-- Where mask and restore mask are empty the reversal keeps a byte. -/
theorem keep_byte (b : Byte) : (b &&& ~~~0) ||| 0 = b := (restore_behind_iff b 0).mpr (BitVec.and_zero)

theorem writeReg_writeReg (r : ℕ) (v w : BitVec 64) : (c.writeReg r v).writeReg r w = c.writeReg r w := by
  simp [Cpu.writeReg]

theorem writeReg_eq_iff (r : ℕ) (v w : BitVec 64) : c.writeReg r v = c.writeReg r w ↔ v = w := by
  refine ⟨fun h => ?_, fun h => by rw [h]⟩
  simpa using congrArg (Cpu.regs · r) h

theorem writeReg_eq_self_iff (r : ℕ) (v : BitVec 64) : c.writeReg r v = c ↔ v = c.regs r := by
  have hself : c.writeReg r (c.regs r) = c := by simp [Cpu.writeReg]
  rw [← writeReg_eq_iff (c := c), hself]

/-- The reversal gives the register back iff it does so byte by byte. -/
theorem reverseRegisterFault_eq_iff (haddress : f'.address = f.address) (v : BitVec 64) :
    reverseRegisterFault (c.writeReg f.address v) f' = c ↔
      ∀ i < 8, (byteOf v i &&& ~~~f'.maskByte i) ||| f'.restoremask (Fin.ofNat 16 i)
        = byteOf (c.regs f.address) i := by
  rw [reverseRegisterFault, haddress, writeReg_writeReg, writeReg_eq_self_iff, byteOf_eq_iff,
    Cpu.writeReg_self]
  refine forall_congr' fun i => imp_congr_right fun hi => ?_
  have hround : ∀ (x : BitVec 64) (i j : Fin 8),
      lane ((x &&& ~~~((f'.mask (j.castLE (by decide))).setWidth 64 <<< (8 * j.val))) |||
        (f'.restoremask (j.castLE (by decide))).setWidth 64 <<< (8 * j.val)) i =
      if i = j then (lane x i &&& ~~~f'.maskByte i) ||| f'.restoremask (Fin.ofNat 16 i) else lane x i := by
    intro x i j
    have hin : 8 * i.val + 8 ≤ 64 := by omega
    rw [lane_or, lane_and, lane_not _ hin, lane_shiftLeft _ _ hin, lane_shiftLeft _ _ hin, castLE_eq]
    by_cases hij : i = j
    · subst hij
      simp [Fault.maskByte]
    · have hval : ¬i.val = j.val := Fin.ext_iff.not.mp hij
      rw [if_neg hval, if_neg hval, if_neg hij, keep_byte]
  have hfold := lane_foldl (n := 8) (w := 64)
    (fun reg i => (reg &&& ~~~((f'.mask (i.castLE (by decide))).setWidth 64 <<< (8 * i.val))) |||
      (f'.restoremask (i.castLE (by decide))).setWidth 64 <<< (8 * i.val))
    (fun i b => (b &&& ~~~f'.maskByte i) ||| f'.restoremask (Fin.ofNat 16 i))
    (fun x j => by rw [hround, if_pos rfl]) (fun x i j hij => by rw [hround, if_neg hij])
    (List.nodup_finRange 8) v ⟨i, hi⟩
  rw [if_pos (List.mem_finRange _)] at hfold
  exact Eq.congr_left hfold

end Reverse

/-! ### The bit models -/

section BitModels

variable {t : Target} {c : Cpu} {f : Fault}

/-- A bit model is right iff the register gets the faulted value, the reversal is right then. -/
theorem registerRestored_iff_of_op (op : BitVec 64 → BitVec 64 → BitVec 64) (opByte : Byte → Byte → Byte)
    (hinject : injectRegisterFault t c f =
      (c.writeReg f.address (op (c.regs f.address) (registerMask t f.mask)),
        { f with restoremask := fun i => if i.val < 8 then byteOf (c.regs f.address) i &&& f.mask i
          else f.restoremask i }))
    (hbyte : ∀ i b, f.faultedByte i b = opByte b (f.maskByte i))
    (hrestore : ∀ value mask, (opByte value mask &&& ~~~mask) ||| (value &&& mask) = value) :
    RegisterRestored t c f ↔
      op (c.regs f.address) (registerMask t f.mask) = f.faultedRegister (c.regs f.address) := by
  rw [RegisterRestored, hinject]
  refine ⟨fun h => (writeReg_eq_iff _ _ _).mp h.1, fun h => ⟨(writeReg_eq_iff _ _ _).mpr h, ?_⟩⟩
  dsimp only
  refine (reverseRegisterFault_eq_iff (f := f) (by rfl) _).mpr fun i hi => ?_
  rw [h, byteOf_faultedRegister _ hi, hbyte]
  have hval : (Fin.ofNat 16 i).val = i := by
    rw [Fin.val_ofNat, Nat.mod_eq_of_lt (by omega)]
  simp only [hval, hi, if_true]
  exact hrestore _ _

/-- For all compilers: either the mask does not matter, or it fits and its sign does not matter. -/
theorem forall_registerMask_iff (op : BitVec 64 → BitVec 64 → BitVec 64) (opByte : Byte → Byte → Byte)
    (hop : ∀ x y i, i < 8 → lane (op x y) i = opByte (lane x i) (lane y i))
    (hbyte : ∀ i b, f.faultedByte i b = opByte b (f.maskByte i)) (reg : BitVec 64) :
    (∀ t : Target, t.ShiftsZero → op reg (registerMask t f.mask) = f.faultedRegister reg) ↔
      (∀ value, op reg value = f.faultedRegister reg) ∨
      f.FitsInt ∧ ∀ i, 4 ≤ i → i < 8 →
        opByte (byteOf reg i) (signByte (f.maskByte 3)) = opByte (byteOf reg i) 0 := by
  have hlanes : ∀ t : Target, t.ShiftsZero → f.FitsInt → ∀ i < 8,
      byteOf (op reg (registerMask t f.mask)) i
        = opByte (byteOf reg i) (if i < 4 then f.maskByte i else signByte (f.maskByte 3)) := by
    intro t hzero hfits i hi
    exact (hop _ _ i hi).trans (congrArg _ (lane_registerMask hzero hfits hi))
  constructor
  · intro h
    by_cases hfits : f.FitsInt
    · right
      refine ⟨hfits, fun i h4 hi => ?_⟩
      have hzero := shiftTarget_shiftsZero (b := 1) (by decide) 4 0
      have hi' := hlanes _ hzero hfits i hi
      rw [h _ hzero, byteOf_faultedRegister _ hi, hbyte, if_neg (by omega), hfits i h4 hi] at hi'
      exact hi'.symm
    · left
      intro value
      obtain ⟨t, hzero, rfl⟩ := exists_registerMask hfits value
      exact h t hzero
  · rintro (h | ⟨hfits, hsign⟩) t hzero
    · exact h _
    · refine byteOf_eq_iff.mpr fun i hi => ?_
      rw [hlanes t hzero hfits i hi, byteOf_faultedRegister _ hi, hbyte]
      split
      · rfl
      · next h4 => rw [hsign i (by omega) hi, hfits i (by omega) hi]

theorem signByte_eq_zero_or (b : Byte) : b.msb = false ∧ signByte b = 0 ∨ b.msb = true ∧ signByte b = 0xff := by
  rw [signByte]
  cases b.msb
  · exact Or.inl ⟨rfl, rfl⟩
  · exact Or.inr ⟨rfl, rfl⟩

theorem registerRestored_set0 (hmodel : f.model = SET0) :
    (∀ t : Target, t.ShiftsZero → RegisterRestored t c f) ↔ f.RegisterSafe (c.regs f.address) := by
  have hbyte : ∀ i b, f.faultedByte i b = b &&& ~~~f.maskByte i := by
    intro i b
    simp only [Fault.faultedByte, hmodel]
  have hop : ∀ (x y : BitVec 64) (i : ℕ), i < 8 → lane (x &&& ~~~y) i = lane x i &&& ~~~lane y i := by
    intro x y i hi
    rw [lane_and, lane_not _ (by omega)]
  have hone : ∀ t, RegisterRestored t c f ↔ c.regs f.address &&& ~~~registerMask t f.mask
      = f.faultedRegister (c.regs f.address) := fun t =>
    registerRestored_iff_of_op (fun x y => x &&& ~~~y) (fun value mask => value &&& ~~~mask)
      (by simp only [injectRegisterFault, hmodel]; rfl) hbyte restore_set0
  simp only [hone]
  rw [forall_registerMask_iff (fun x y => x &&& ~~~y) (fun value mask => value &&& ~~~mask) hop hbyte,
    Fault.RegisterSafe, hmodel]
  generalize c.regs f.address = reg
  refine or_congr ⟨fun h => ?_, fun h value => ?_⟩ (and_congr_right fun _ => ?_)
  · have hkeep := h 0
    have hclear := h (BitVec.allOnes 64)
    simp only [BitVec.ofNat_eq_ofNat, BitVec.not_zero, BitVec.and_allOnes, BitVec.not_allOnes,
      BitVec.and_zero] at hkeep hclear
    exact hkeep.trans hclear.symm
  · refine byteOf_eq_iff.mpr fun i hi => ?_
    rw [byteOf_faultedRegister _ hi, hbyte, h]
    simp [byteOf]
  · rcases signByte_eq_zero_or (f.maskByte 3) with ⟨hmsb, hsign⟩ | ⟨hmsb, hsign⟩
    · simp [hmsb, hsign]
    · simp only [hmsb, hsign, Bool.true_eq_false, false_or, UpperIs]
      refine forall_congr' fun i => imp_congr_right fun _ => imp_congr_right fun _ => ?_
      have hones : (0xff : Byte) = BitVec.allOnes 8 := rfl
      simp only [hones, BitVec.ofNat_eq_ofNat, BitVec.not_allOnes, BitVec.and_zero, BitVec.not_zero,
        BitVec.and_allOnes]
      exact eq_comm

theorem registerRestored_set1 (hmodel : f.model = SET1) :
    (∀ t : Target, t.ShiftsZero → RegisterRestored t c f) ↔ f.RegisterSafe (c.regs f.address) := by
  have hbyte : ∀ i b, f.faultedByte i b = b ||| f.maskByte i := by
    intro i b
    simp only [Fault.faultedByte, hmodel]
  have hone : ∀ t, RegisterRestored t c f ↔ c.regs f.address ||| registerMask t f.mask
      = f.faultedRegister (c.regs f.address) := fun t =>
    registerRestored_iff_of_op (fun x y => x ||| y) (fun value mask => value ||| mask)
      (by simp only [injectRegisterFault, hmodel]; rfl) hbyte restore_set1
  simp only [hone]
  rw [forall_registerMask_iff (fun x y => x ||| y) (fun value mask => value ||| mask)
    (fun x y i _ => lane_or x y i) hbyte, Fault.RegisterSafe, hmodel]
  generalize c.regs f.address = reg
  refine or_congr ⟨fun h => ?_, fun h value => ?_⟩ (and_congr_right fun _ => ?_)
  · have hkeep := h 0
    have hset := h (BitVec.allOnes 64)
    simp only [BitVec.ofNat_eq_ofNat, BitVec.or_zero, BitVec.or_allOnes] at hkeep hset
    exact hkeep.trans hset.symm
  · refine byteOf_eq_iff.mpr fun i hi => ?_
    have hones : byteOf (BitVec.allOnes 64) i = BitVec.allOnes 8 := lane_allOnes (by omega)
    rw [byteOf_faultedRegister _ hi, hbyte, h, hones, BitVec.allOnes_or, BitVec.allOnes_or, hones]
  · rcases signByte_eq_zero_or (f.maskByte 3) with ⟨hmsb, hsign⟩ | ⟨hmsb, hsign⟩
    · simp [hmsb, hsign]
    · simp only [hmsb, hsign, Bool.true_eq_false, false_or, UpperIs]
      refine forall_congr' fun i => imp_congr_right fun _ => imp_congr_right fun _ => ?_
      have hones : (0xff : Byte) = BitVec.allOnes 8 := rfl
      rw [hones, BitVec.or_allOnes, eq_comm]
      simp

theorem registerRestored_toggle (hmodel : f.model = TOGGLE) :
    (∀ t : Target, t.ShiftsZero → RegisterRestored t c f) ↔ f.RegisterSafe (c.regs f.address) := by
  have hbyte : ∀ i b, f.faultedByte i b = b ^^^ f.maskByte i := by
    intro i b
    simp only [Fault.faultedByte, hmodel]
  have hone : ∀ t, RegisterRestored t c f ↔ c.regs f.address ^^^ registerMask t f.mask
      = f.faultedRegister (c.regs f.address) := fun t =>
    registerRestored_iff_of_op (fun x y => x ^^^ y) (fun value mask => value ^^^ mask)
      (by simp only [injectRegisterFault, hmodel]; rfl) hbyte restore_toggle
  simp only [hone]
  rw [forall_registerMask_iff (fun x y => x ^^^ y) (fun value mask => value ^^^ mask)
    (fun x y i _ => lane_xor x y i) hbyte, Fault.RegisterSafe, hmodel]
  generalize c.regs f.address = reg
  have hnever : ¬∀ value, reg ^^^ value = f.faultedRegister reg := by
    intro h
    have heq := (h 0).trans (h 1).symm
    exact absurd ((BitVec.xor_right_inj reg).mp heq) (by decide)
  rw [or_iff_right hnever]
  refine and_congr_right fun _ => ?_
  rcases signByte_eq_zero_or (f.maskByte 3) with ⟨hmsb, hsign⟩ | ⟨hmsb, hsign⟩
  · simp [hmsb, hsign]
  · simp only [hmsb, hsign, Bool.true_eq_false, iff_false]
    intro h
    exact absurd ((BitVec.xor_right_inj _).mp (h 4 le_rfl (by decide))) (by decide)

end BitModels

/-! ### Overwrite -/

section Overwrite

variable {t : Target} {c : Cpu} {f : Fault}

/-- One byte of the loop: cleared and then added, with the sign of the last `int`. -/
theorem lane_overwrite (x : BitVec 64) (b : Byte) {i j : ℕ} (hj : j < 4) (hi : i < 8) :
    lane ((x &&& ~~~t.intShl 0xff j) + t.intShl b j) i =
      if i = j then b else if j = 3 ∧ 4 ≤ i then signByte b else lane x i := by
  have hones : (0xff : Byte) = BitVec.allOnes 8 := rfl
  have hsign : signByte 0xff = BitVec.allOnes 8 := rfl
  have hclear : ∀ k < 8, lane (x &&& ~~~t.intShl 0xff j) k =
      if k = j ∨ j = 3 ∧ 4 ≤ k then 0 else lane x k := by
    intro k hk
    rw [lane_and, lane_not _ (by omega), lane_intShl t _ hj hk]
    by_cases hkj : k = j
    · rw [if_pos hkj, if_pos (Or.inl hkj), hones, BitVec.not_allOnes, BitVec.and_zero]
      rfl
    · by_cases h3 : j = 3 ∧ 4 ≤ k
      · rw [if_neg hkj, if_pos h3, if_pos (Or.inr h3), hsign, BitVec.not_allOnes, BitVec.and_zero]
        rfl
      · rw [if_neg hkj, if_neg h3, if_neg (not_or.mpr ⟨hkj, h3⟩)]
        simp only [BitVec.ofNat_eq_ofNat, BitVec.not_zero, BitVec.and_allOnes]
  have hadd : ∀ k < 8, lane (x &&& ~~~t.intShl 0xff j) k &&& lane (t.intShl b j) k = 0 := by
    intro k hk
    rw [hclear k hk, lane_intShl t b hj hk]
    by_cases hkj : k = j
    · simp [hkj]
    · by_cases h3 : j = 3 ∧ 4 ≤ k
      · simp [h3]
      · simp [hkj, h3]
  rw [lane_add (n := 8) _ _ i le_rfl hadd, hclear i hi, lane_intShl t b hj hi]
  by_cases hij : i = j
  · simp [hij]
  · by_cases h3 : j = 3 ∧ 4 ≤ i
    · simp [h3]
    · simp [hij, h3]

theorem overwriteRegisterByte_eq (st : BitVec 64 × Mask) (j : Fin 8) :
    overwriteRegisterByte t f.mask st j =
      ((st.1 &&& ~~~t.intShl 0xff j) + t.intShl (f.maskByte j) j,
        Function.update st.2 (Fin.ofNat 16 j) (byteOf st.1 j)) := by
  rw [overwriteRegisterByte, castLE_eq]
  rfl

theorem ofNat_inj {i j : ℕ} (hi : i < 16) (hj : j < 16) : Fin.ofNat 16 i = Fin.ofNat 16 j ↔ i = j := by
  rw [Fin.ext_iff, Fin.val_ofNat, Fin.val_ofNat, Nat.mod_eq_of_lt hi, Nat.mod_eq_of_lt hj]

/-- The first four rounds write the mask, the fourth also its sign; the restore mask holds the old
    bytes. -/
theorem overwrite_low (reg : BitVec 64) (r : Mask) : ∀ k ≤ 4,
    (∀ i < 8, byteOf (((List.finRange 8).take k).foldl (overwriteRegisterByte t f.mask) (reg, r)).1 i =
      if i < k then f.maskByte i else if k = 4 then signByte (f.maskByte 3) else byteOf reg i) ∧
    ∀ i < 8, (((List.finRange 8).take k).foldl (overwriteRegisterByte t f.mask) (reg, r)).2
      (Fin.ofNat 16 i) = if i < k then byteOf reg i else r (Fin.ofNat 16 i) := by
  intro k
  induction k with
  | zero => exact fun _ => ⟨fun i _ => rfl, fun i _ => rfl⟩
  | succ k ih =>
    intro hk
    obtain ⟨hreg, hrestore⟩ := ih (by omega)
    have hget : (List.finRange 8)[k]? = some ⟨k, by omega⟩ := by
      rw [List.getElem?_eq_getElem (by rw [List.length_finRange]; omega), List.getElem_finRange]
      rfl
    rw [List.take_add_one, hget, Option.toList_some, List.foldl_append, List.foldl_cons, List.foldl_nil]
    generalize ((List.finRange 8).take k).foldl (overwriteRegisterByte t f.mask) (reg, r) = st at hreg hrestore
    have hself : byteOf st.1 k = byteOf reg k := by
      rw [hreg k (by omega), if_neg (lt_irrefl k), if_neg (by omega)]
    refine ⟨fun i hi => ?_, fun i hi => ?_⟩
    · rw [overwriteRegisterByte_eq]
      refine (lane_overwrite st.1 (f.maskByte k) (by omega : k < 4) hi).trans ?_
      have hold : lane st.1 i = _ := hreg i hi
      rw [hold]
      rcases Nat.lt_trichotomy i k with hlt | rfl | hgt
      · rw [if_neg (by omega), if_neg (by omega), if_pos hlt, if_pos (by omega)]
      · rw [if_pos rfl, if_pos (by omega)]
      · rw [if_neg (by omega), if_neg (by omega : ¬i < k), if_neg (by omega : ¬i < k + 1),
          if_neg (by omega : ¬k = 4)]
        by_cases h3 : k = 3
        · subst h3
          rw [if_pos ⟨rfl, by omega⟩, if_pos rfl]
        · rw [if_neg fun h => h3 h.1, if_neg (by omega)]
    · rw [overwriteRegisterByte_eq]
      dsimp only
      by_cases hik : i = k
      · subst hik
        rw [Function.update_self, if_pos (by omega)]
        exact hself
      · have hne : Fin.ofNat 16 i ≠ Fin.ofNat 16 k := mt (ofNat_inj (by omega) (by omega)).mp hik
        rw [Function.update_of_ne hne, hrestore i hi]
        by_cases hlt : i < k
        · rw [if_pos hlt, if_pos (by omega)]
        · rw [if_neg hlt, if_neg (by omega)]

/-- Rounds that do not change the register save its bytes. -/
theorem overwrite_fixed {reg : BitVec 64} : ∀ (l : List (Fin 8)) (r : Mask),
    (∀ j ∈ l, (reg &&& ~~~t.intShl 0xff j) + t.intShl (f.maskByte j) j = reg) →
    (l.foldl (overwriteRegisterByte t f.mask) (reg, r)).1 = reg ∧
    (∀ i < 8, (∃ j ∈ l, j.val = i) →
      (l.foldl (overwriteRegisterByte t f.mask) (reg, r)).2 (Fin.ofNat 16 i) = byteOf reg i) ∧
    ∀ i < 8, (∀ j ∈ l, j.val ≠ i) →
      (l.foldl (overwriteRegisterByte t f.mask) (reg, r)).2 (Fin.ofNat 16 i) = r (Fin.ofNat 16 i)
  | [], r, _ => ⟨rfl, fun i _ ⟨j, hj, _⟩ => absurd hj List.not_mem_nil, fun i _ _ => rfl⟩
  | j :: l, r, h => by
    obtain ⟨hreg, hin, hout⟩ := overwrite_fixed l (Function.update r (Fin.ofNat 16 j) (byteOf reg j))
      fun k hk => h k (List.mem_cons_of_mem _ hk)
    have hround : overwriteRegisterByte t f.mask (reg, r) j
        = (reg, Function.update r (Fin.ofNat 16 j) (byteOf reg j)) := by
      rw [overwriteRegisterByte_eq, h j List.mem_cons_self]
    rw [List.foldl_cons, hround]
    refine ⟨hreg, fun i hi hex => ?_, fun i hi hnot => ?_⟩
    · by_cases hl : ∃ k ∈ l, k.val = i
      · exact hin i hi hl
      · rw [hout i hi fun k hk hki => hl ⟨k, hk, hki⟩]
        obtain ⟨k, hk, rfl⟩ := hex
        rcases List.mem_cons.mp hk with rfl | hk
        · rw [Function.update_self]
        · exact absurd ⟨k, hk, rfl⟩ hl
    · rw [hout i hi fun k hk => hnot k (List.mem_cons_of_mem _ hk)]
      refine Function.update_of_ne (mt (ofNat_inj (by omega) (by omega)).mp ?_) _ _
      exact Ne.symm (hnot j List.mem_cons_self)

/-- What the loop leaves after four rounds. -/
def Fault.signedRegister (f : Fault) : BitVec 64 :=
  ofLanes 64 fun i => if i < 4 then f.maskByte i else signByte (f.maskByte 3)

theorem byteOf_signedRegister {i : ℕ} (hi : i < 8) :
    byteOf f.signedRegister i = if i < 4 then f.maskByte i else signByte (f.maskByte 3) :=
  lane_ofLanes _ (by omega)

theorem overwrite_four (t : Target) (reg : BitVec 64) (r : Mask) : ∃ r₄ : Mask,
    ((List.finRange 8).take 4).foldl (overwriteRegisterByte t f.mask) (reg, r) = (f.signedRegister, r₄) ∧
      ∀ i < 8, r₄ (Fin.ofNat 16 i) = if i < 4 then byteOf reg i else r (Fin.ofNat 16 i) := by
  obtain ⟨hreg, hrestore⟩ := overwrite_low (t := t) (f := f) reg r 4 le_rfl
  refine ⟨_, Prod.ext (byteOf_eq_iff.mpr fun i hi => ?_) rfl, hrestore⟩
  rw [hreg i hi, byteOf_signedRegister hi, if_pos rfl]

theorem mem_drop_four {n : ℕ} (hn : n ≤ 8) (j : Fin 8) :
    j ∈ ((List.finRange 8).take n).drop 4 ↔ 4 ≤ j.val ∧ j.val < n := by
  revert j
  interval_cases n <;> decide

theorem foldl_take_four {α : Type} (step : α → Fin 8 → α) (st : α) {n : ℕ} (hn : 4 ≤ n) :
    ((List.finRange 8).take n).foldl step st
      = (((List.finRange 8).take n).drop 4).foldl step (((List.finRange 8).take 4).foldl step st) := by
  rw [← List.foldl_append]
  congr 1
  conv_lhs => rw [← List.take_append_drop 4 ((List.finRange 8).take n), List.take_take, min_eq_left hn]

/-- The restore mask before the loop. -/
def bitRestoremask (c : Cpu) (f : Fault) : Mask := fun i =>
  if i.val < 8 then byteOf (c.regs f.address) i &&& f.mask i else f.restoremask i

theorem bitRestoremask_ofNat {i : ℕ} (hi : i < 8) :
    bitRestoremask c f (Fin.ofNat 16 i) = byteOf (c.regs f.address) i &&& f.maskByte i := by
  have hval : (Fin.ofNat 16 i).val = i := by
    rw [Fin.val_ofNat, Nat.mod_eq_of_lt (by omega)]
  simp only [bitRestoremask, hval, hi, if_true]
  rfl

/-- The loop of an overwrite. -/
def overwriteLoop (t : Target) (c : Cpu) (f : Fault) : BitVec 64 × Mask :=
  ((List.finRange 8).take f.numBytes).foldl (overwriteRegisterByte t f.mask)
    (c.regs f.address, bitRestoremask c f)

theorem registerRestored_overwrite_iff (hmodel : f.model = OVERWRITE) (hn : f.numBytes ≤ 8) :
    RegisterRestored t c f ↔
      (∀ i < 8, byteOf (overwriteLoop t c f).1 i
        = if i < f.numBytes then f.maskByte i else byteOf (c.regs f.address) i) ∧
      ∀ i < 8, (byteOf (overwriteLoop t c f).1 i &&& ~~~f.maskByte i)
        ||| (overwriteLoop t c f).2 (Fin.ofNat 16 i) = byteOf (c.regs f.address) i := by
  have hinject : injectRegisterFault t c f = (c.writeReg f.address (overwriteLoop t c f).1,
      { f with numBytes := f.numBytes, restoremask := (overwriteLoop t c f).2 }) := by
    simp only [injectRegisterFault, hmodel, if_neg (not_lt.mpr hn)]
    rfl
  rw [RegisterRestored, hinject]
  dsimp only
  refine and_congr ?_ (reverseRegisterFault_eq_iff (by rfl) _)
  rw [writeReg_eq_iff, byteOf_eq_iff]
  refine forall_congr' fun i => imp_congr_right fun hi => ?_
  simp only [byteOf_faultedRegister _ hi, Fault.faultedByte, hmodel]

/-- Up to four bytes only the sign of the fourth does harm. -/
theorem registerRestored_low_iff (hmodel : f.model = OVERWRITE) (hn : f.numBytes ≤ 4)
    (hmask : ∀ i, f.numBytes ≤ i → i < 8 → f.maskByte i = 0) : RegisterRestored t c f ↔
      (f.numBytes = 4 → UpperIs (c.regs f.address) (signByte (f.maskByte 3))) := by
  obtain ⟨hreg, hrestore⟩ := overwrite_low (t := t) (f := f) (c.regs f.address) (bitRestoremask c f) _ hn
  rw [registerRestored_overwrite_iff hmodel (by omega)]
  constructor
  · rintro ⟨hright, -⟩ h4 i hi hi8
    have hbyte := (hreg i hi8).symm.trans (hright i hi8)
    rw [if_neg (by omega), if_pos h4, if_neg (by omega)] at hbyte
    exact hbyte.symm
  · intro hupper
    have hright : ∀ i < 8, byteOf (overwriteLoop t c f).1 i
        = if i < f.numBytes then f.maskByte i else byteOf (c.regs f.address) i := by
      intro i hi
      refine (hreg i hi).trans ?_
      split
      · rfl
      · split
        · next hge h4 => exact (hupper h4 i (by omega) hi).symm
        · rfl
    refine ⟨hright, fun i hi => ?_⟩
    have hsaved : (overwriteLoop t c f).2 (Fin.ofNat 16 i) = _ := hrestore i hi
    rw [hright i hi, hsaved]
    by_cases hlt : i < f.numBytes
    · rw [if_pos hlt, if_pos hlt]
      exact restore_overwrite _ _
    · have hempty : byteOf (c.regs f.address) i &&& 0 = 0 := BitVec.and_zero
      rw [if_neg hlt, if_neg hlt, bitRestoremask_ofNat hi, hmask i (by omega) hi, hempty]
      exact keep_byte _

/-- With one shift beyond the type at our choice the fifth round decides the register. -/
theorem overwriteLoop_shiftTarget (hn : 4 < f.numBytes) (hn8 : f.numBytes ≤ 8) (b : Byte)
    (value : BitVec 64) : (overwriteLoop (shiftTarget b 4 value) c f).1 =
      (f.signedRegister &&& ~~~(if 0xff = b then value else 0))
        + if f.maskByte 4 = b then value else 0 := by
  obtain ⟨r₄, hfour, -⟩ := overwrite_four (f := f) (shiftTarget b 4 value) (c.regs f.address)
    (bitRestoremask c f)
  have hcons : ∃ l : List (Fin 8), ((List.finRange 8).take f.numBytes).drop 4 = 4 :: l ∧
      ∀ j ∈ l, j.val ≠ 4 := by
    generalize f.numBytes = n at hn hn8
    interval_cases n
    · exact ⟨[], rfl, by decide⟩
    · exact ⟨[5], rfl, by decide⟩
    · exact ⟨[5, 6], rfl, by decide⟩
    · exact ⟨[5, 6, 7], rfl, by decide⟩
  obtain ⟨l, hl, hne⟩ := hcons
  have hhigh : ∀ j ∈ l, 4 ≤ j.val := by
    intro j hj
    exact ((mem_drop_four hn8 j).mp (hl ▸ List.mem_cons_of_mem _ hj)).1
  rw [overwriteLoop, foldl_take_four _ _ (by omega), hfour, hl, List.foldl_cons,
    overwriteRegisterByte_eq]
  obtain ⟨hreg, -⟩ := overwrite_fixed (t := shiftTarget b 4 value) (f := f) l _ fun j hj => by
    rw [shiftTarget_high _ _ _ (hhigh j hj), shiftTarget_high _ _ _ (hhigh j hj),
      if_neg fun h => hne j hj h.1, if_neg fun h => hne j hj h.1]
    simp only [BitVec.ofNat_eq_ofNat, BitVec.not_zero, BitVec.and_allOnes, BitVec.add_zero]
  rw [hreg]
  have hfive : ∀ b', (shiftTarget b 4 value).intShl b' (4 : Fin 8).val = if b' = b then value else 0 := by
    intro b'
    refine (shiftTarget_high b b' value (by decide)).trans ?_
    exact if_congr (and_iff_right rfl) rfl rfl
  rw [hfive, hfive]
  rfl

/-- Equal bytes in the whole register. -/
def Filled (reg : BitVec 64) (v : Byte) : Prop := ∀ i < 8, byteOf reg i = v

theorem filled_zero : Filled 0 0 := fun i _ => lane_zero i

theorem filled_allOnes : Filled (BitVec.allOnes 64) 0xff := fun i hi => lane_allOnes (by omega)

theorem Filled.eq {x y : BitVec 64} {v : Byte} (hx : Filled x v) (hy : Filled y v) : x = y :=
  byteOf_eq_iff.mpr fun i hi => (hx i hi).trans (hy i hi).symm

/-- Five bytes and more: only a register of equal bytes is right for all compilers. -/
theorem signedRegister_of_forall (hmodel : f.model = OVERWRITE) (hn : 4 < f.numBytes)
    (hn8 : f.numBytes ≤ 8) (h : ∀ t : Target, t.ShiftsZero → RegisterRestored t c f) :
    ∃ v : Byte, (v = 0 ∨ v = 0xff) ∧ Filled f.signedRegister v ∧
      Filled (f.faultedRegister (c.regs f.address)) v := by
  have hall : ∀ (b : Byte) (value : BitVec 64), b ≠ 0 →
      (f.signedRegister &&& ~~~(if 0xff = b then value else 0)) + (if f.maskByte 4 = b then value else 0)
        = f.faultedRegister (c.regs f.address) := by
    intro b value hb
    rw [← overwriteLoop_shiftTarget (c := c) hn hn8 b]
    have hright := ((registerRestored_overwrite_iff hmodel hn8).mp
      (h _ (shiftTarget_shiftsZero hb 4 value))).1
    refine byteOf_eq_iff.mpr fun i hi => ?_
    simp only [hright i hi, byteOf_faultedRegister _ hi, Fault.faultedByte, hmodel]
  by_cases h0 : f.maskByte 4 = 0
  · have hkeep := hall 0xff 0 (by decide)
    have hclear := hall 0xff (BitVec.allOnes 64) (by decide)
    rw [h0, if_pos rfl, if_neg (by decide)] at hkeep hclear
    simp only [BitVec.ofNat_eq_ofNat, BitVec.not_zero, BitVec.and_allOnes, BitVec.not_allOnes,
      BitVec.and_zero, BitVec.add_zero] at hkeep hclear
    refine ⟨0, Or.inl rfl, ?_, ?_⟩
    · rw [hkeep.trans hclear.symm]
      exact filled_zero
    · rw [← hclear]
      exact filled_zero
  · by_cases h1 : f.maskByte 4 = 0xff
    · have hkeep := hall 0xff 0 (by decide)
      have hset := hall 0xff (BitVec.allOnes 64) (by decide)
      rw [h1, if_pos rfl] at hkeep hset
      simp only [BitVec.ofNat_eq_ofNat, BitVec.not_zero, BitVec.and_allOnes, BitVec.not_allOnes,
        BitVec.and_zero, BitVec.add_zero, BitVec.zero_add] at hkeep hset
      refine ⟨0xff, Or.inr rfl, ?_, ?_⟩
      · rw [hkeep.trans hset.symm]
        exact filled_allOnes
      · rw [← hset]
        exact filled_allOnes
    · -- any other byte adds what the compiler makes of it
      have hzero := hall (f.maskByte 4) 0 h0
      have hone := hall (f.maskByte 4) 1 h0
      rw [if_neg (Ne.symm h1), if_pos rfl] at hzero hone
      have hne := hzero.trans hone.symm
      exact absurd (add_left_cancel hne) (by decide)

/-- The rounds after the fourth change nothing. -/
theorem overwriteLoop_fixed (hn : 4 < f.numBytes) (hn8 : f.numBytes ≤ 8)
    (hfixed : ∀ j : Fin 8, 4 ≤ j.val → j.val < f.numBytes →
      (f.signedRegister &&& ~~~t.intShl 0xff j) + t.intShl (f.maskByte j) j = f.signedRegister) :
    (overwriteLoop t c f).1 = f.signedRegister ∧
    ∀ i < 8, (overwriteLoop t c f).2 (Fin.ofNat 16 i) =
      if i < 4 then byteOf (c.regs f.address) i
      else if i < f.numBytes then byteOf f.signedRegister i else bitRestoremask c f (Fin.ofNat 16 i) := by
  obtain ⟨r₄, hfour, hsaved⟩ := overwrite_four (f := f) t (c.regs f.address) (bitRestoremask c f)
  rw [overwriteLoop, foldl_take_four _ _ (by omega), hfour]
  obtain ⟨hreg, hin, hout⟩ := overwrite_fixed (t := t) (f := f)
    (((List.finRange 8).take f.numBytes).drop 4) r₄ fun j hj =>
      hfixed j ((mem_drop_four hn8 j).mp hj).1 ((mem_drop_four hn8 j).mp hj).2
  refine ⟨hreg, fun i hi => ?_⟩
  by_cases h4 : i < 4
  · rw [hout i hi fun j hj => by have := (mem_drop_four hn8 j).mp hj; omega, hsaved i hi, if_pos h4,
      if_pos h4]
  · by_cases hlt : i < f.numBytes
    · rw [hin i hi ⟨⟨i, hi⟩, (mem_drop_four hn8 _).mpr ⟨not_lt.mp h4, hlt⟩, rfl⟩, if_neg h4, if_pos hlt]
    · rw [hout i hi fun j hj => by have := (mem_drop_four hn8 j).mp hj; omega, hsaved i hi, if_neg h4,
        if_neg h4, if_neg hlt]

theorem registerRestored_high_iff (hmodel : f.model = OVERWRITE) (hn : 4 < f.numBytes)
    (hn8 : f.numBytes ≤ 8) (hmask : ∀ i, f.numBytes ≤ i → i < 8 → f.maskByte i = 0) :
    (∀ t : Target, t.ShiftsZero → RegisterRestored t c f) ↔ ∃ v : Byte, (v = 0 ∨ v = 0xff) ∧
      (∀ i < f.numBytes, f.maskByte i = v) ∧ UpperIs (c.regs f.address) v := by
  constructor
  · intro h
    obtain ⟨v, hv, hsigned, hfaulted⟩ := signedRegister_of_forall hmodel hn hn8 h
    have hbyte : ∀ i < 8, (if i < f.numBytes then f.maskByte i else byteOf (c.regs f.address) i) = v := by
      intro i hi
      have := hfaulted i hi
      simpa only [byteOf_faultedRegister _ hi, Fault.faultedByte, hmodel] using this
    have hmasked : ∀ i < f.numBytes, f.maskByte i = v := by
      intro i hi
      rw [← hbyte i (by omega), if_pos hi]
    refine ⟨v, hv, hmasked, fun i h4 hi => ?_⟩
    by_cases hlt : i < f.numBytes
    · -- the byte comes back from a restore mask that was filled too late
      have hzero := shiftTarget_shiftsZero (b := 1) (by decide) 4 0
      obtain ⟨hright, hback⟩ := (registerRestored_overwrite_iff hmodel hn8).mp (h _ hzero)
      obtain ⟨-, hsaved⟩ := overwriteLoop_fixed (t := shiftTarget 1 4 0) (c := c) hn hn8 fun j hj _ => by
        rw [shiftTarget_high _ _ _ hj, shiftTarget_high _ _ _ hj, ite_self, ite_self]
        simp only [BitVec.ofNat_eq_ofNat, BitVec.not_zero, BitVec.and_allOnes, BitVec.add_zero]
      rw [← hback i hi, hright i hi, if_pos hlt, hsaved i hi, if_neg (by omega), if_pos hlt, hsigned i hi]
      exact restore_overwrite _ _
    · rw [← hbyte i hi, if_neg hlt]
  · rintro ⟨v, hv, hmasked, hupper⟩ t hzero
    have hsigned : Filled f.signedRegister v := by
      intro i hi
      rw [byteOf_signedRegister hi, hmasked 3 (by omega)]
      split
      · exact hmasked i (by omega)
      · rcases hv with rfl | rfl <;> rfl
    obtain ⟨hreg, hsaved⟩ := overwriteLoop_fixed (t := t) (c := c) hn hn8 fun j _ hj => by
      rw [hmasked j hj]
      rcases hv with rfl | rfl
      · rw [hsigned.eq filled_zero, hzero]
        simp only [BitVec.ofNat_eq_ofNat, BitVec.zero_and, BitVec.add_zero]
      · rw [hsigned.eq filled_allOnes, BitVec.allOnes_and, BitVec.add_comm, BitVec.add_not_self]
    have hright : ∀ i < 8, byteOf (overwriteLoop t c f).1 i
        = if i < f.numBytes then f.maskByte i else byteOf (c.regs f.address) i := by
      intro i hi
      rw [hreg, hsigned i hi]
      split
      · next hlt => exact (hmasked i hlt).symm
      · exact (hupper i (by omega) hi).symm
    refine (registerRestored_overwrite_iff hmodel hn8).mpr ⟨hright, fun i hi => ?_⟩
    rw [hright i hi, hsaved i hi]
    by_cases h4 : i < 4
    · rw [if_pos (by omega), if_pos h4]
      exact restore_overwrite _ _
    · by_cases hlt : i < f.numBytes
      · rw [if_pos hlt, if_neg h4, if_pos hlt, hsigned i hi, hupper i (by omega) hi]
        exact restore_overwrite _ _
      · have hempty : byteOf (c.regs f.address) i &&& 0 = 0 := BitVec.and_zero
        rw [if_neg hlt, if_neg h4, if_neg hlt, bitRestoremask_ofNat hi, hmask i (by omega) hi, hempty]
        exact keep_byte _

end Overwrite

/-- For which masks and registers an injection and its reversal are right, whatever the compiler makes
    of a shift beyond the type. -/
theorem registerRestored_iff {c : Cpu} {f : Fault}
    (hmodel : f.model = SET0 ∨ f.model = SET1 ∨ f.model = TOGGLE ∨ f.model = OVERWRITE)
    (hbytes : f.model = OVERWRITE → f.numBytes ≤ 8 ∧ ∀ k : Fin 16, f.numBytes ≤ k → f.mask k = 0) :
    (∀ t : Target, t.ShiftsZero → RegisterRestored t c f) ↔ f.RegisterSafe (c.regs f.address) := by
  rcases hmodel with h | h | h | h
  · exact registerRestored_set0 h
  · exact registerRestored_set1 h
  · exact registerRestored_toggle h
  · obtain ⟨hn8, hzero⟩ := hbytes h
    have hmask : ∀ i, f.numBytes ≤ i → i < 8 → f.maskByte i = 0 := by
      intro i hi hi8
      refine hzero _ ?_
      rwa [Fin.val_ofNat, Nat.mod_eq_of_lt (by omega)]
    simp only [Fault.RegisterSafe, h]
    rcases Nat.lt_or_ge 4 f.numBytes with hn | hn
    · rw [registerRestored_high_iff h hn hn8 hmask, or_iff_right (by omega), or_iff_right (by omega),
        and_iff_right hn]
    · have hlow : (∀ t : Target, t.ShiftsZero → RegisterRestored t c f) ↔
          (f.numBytes = 4 → UpperIs (c.regs f.address) (signByte (f.maskByte 3))) := by
        refine ⟨fun hall => ?_, fun hupper t _ => (registerRestored_low_iff h hn hmask).mpr hupper⟩
        exact (registerRestored_low_iff h hn hmask).mp
          (hall _ (shiftTarget_shiftsZero (b := 1) (by decide) 4 0))
      rw [hlow]
      constructor
      · intro hupper
        rcases Nat.lt_or_ge 3 f.numBytes with h3 | h3
        · exact Or.inr (Or.inl ⟨by omega, hupper (by omega)⟩)
        · exact Or.inl h3
      · rintro (h3 | ⟨-, hupper⟩ | ⟨hhigh, -⟩) h4
        · omega
        · exact hupper
        · omega

/-- Bit 31 of register 0. -/
def signBitFault : Fault :=
  ⟨0, REGISTER, SET0, 1, 4, fun k => if k.val = 3 then 0x80 else 0, fun _ => 0, ⟨0x10, 1, 0⟩⟩

theorem registerRestored_iff_signBit :
    (∀ t : Target, t.ShiftsZero → RegisterRestored t ⟨fun _ => 0, fun _ => 0x80000000⟩ signBitFault) ↔
      signBitFault.RegisterSafe 0x80000000 :=
  registerRestored_iff (c := ⟨fun _ => 0, fun _ => 0x80000000⟩) (Or.inl rfl) fun h => absurd h (by decide)

/-- The upper half of the register is cleared along with bit 31 and stays so. -/
theorem signBitFault_not_restored : ¬∀ t : Target, t.ShiftsZero →
    RegisterRestored t ⟨fun _ => 0, fun _ => BitVec.allOnes 64⟩ signBitFault := by
  intro h
  obtain ⟨-, hreverse⟩ := h (shiftTarget 1 4 0) (shiftTarget_shiftsZero (by decide) 4 0)
  exact absurd (congrArg (fun c => c.regs 0) hreverse) (by decide)

end Archie.Plugin
