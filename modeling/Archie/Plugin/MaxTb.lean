import Archie.Lib.FirstStop
import Archie.Plugin.FaultList

/-! The limit on executed instructions, from the Python configuration to the plugin.

    The limit and the count of executed instructions are compared as values of type `int`:

        max_instruction_count ──▶ int64 max_duration ──▶ int tb_counter_max ──┐
        TB sizes ──size_t──▶ int tb_counter ──────────────────────────────────┴──▶ "max tb"   -/

namespace Archie.Plugin
open FirstStop

structure TbCounter where
  startPoint : FaultTrigger
  tbCounter : BitVec 32
  tbCounterMax : BitVec 32

/-- `max_duration` in the control message, a `ValueError` for what does not fit. -/
def configureQemu (maxInstructionCount : ℤ) : Option (BitVec 64) :=
  if -2 ^ 63 ≤ maxInstructionCount ∧ maxInstructionCount < 2 ^ 63 then
    some (BitVec.ofInt 64 maxInstructionCount)
  else none

def readoutControlQemu (startPoint : FaultTrigger) (maxDuration : BitVec 64) : TbCounter :=
  ⟨startPoint, 0, maxDuration.setWidth 32⟩

/-- Runs before each TB of `ins` instructions; ends QEMU with the reason. -/
def tbExecEndMaxEvent (c : TbCounter) (ins : ℕ) : Except String TbCounter :=
  if c.startPoint.trignum ≠ 3 then
    if c.tbCounterMax.sle c.tbCounter then .error "max tb"
    else .ok { c with tbCounter := (c.tbCounter.signExtend 64 + BitVec.ofNat 64 ins).setWidth 32 }
  else .ok c

/-- The value of a number once it is converted to `int`. -/
def cInt (n : ℕ) : ℤ := (BitVec.ofNat 32 n).toInt

/-- The run of TBs of the given sizes ends with "max tb" at the first TB before which `m` instructions
    are executed, and nowhere else. -/
def EndsAtLimit (startPoint : FaultTrigger) (m : ℕ) (sizes : List ℕ) : Prop :=
  ∃ maxDuration, configureQemu m = some maxDuration ∧ ∀ i reason,
    stop tbExecEndMaxEvent (readoutControlQemu startPoint maxDuration) sizes = some (i, reason) ↔
      reason = "max tb" ∧ ∃ size, FirstAt (fun before _ => m ≤ before.sum) sizes i size

/-! ### The counter -/

theorem setWidth_add_size (k n : ℕ) :
    ((BitVec.ofNat 32 k).signExtend 64 + BitVec.ofNat 64 n).setWidth 32 = BitVec.ofNat 32 (k + n) := by
  have hlow : ((BitVec.ofNat 32 k).signExtend 64).setWidth 32 = BitVec.ofNat 32 k := by
    refine BitVec.eq_of_getLsbD_eq fun i hi => ?_
    have hi' : i < 64 := by omega
    simp only [BitVec.getLsbD_setWidth, BitVec.getLsbD_signExtend, hi, hi', decide_true,
      Bool.true_and, if_true]
  rw [BitVec.setWidth_add _ _ (by decide), hlow, BitVec.setWidth_ofNat_of_le (by decide),
    BitVec.ofNat_add]

theorem configureQemu_eq {m : ℕ} (hm : m < 2 ^ 63) : configureQemu m = some (BitVec.ofNat 64 m) := by
  rw [configureQemu, if_pos (by omega), BitVec.ofInt_natCast]

/-- The plugin ends the run by the converted numbers. -/
theorem stop_tbExecEndMaxEvent {startPoint : FaultTrigger} (hstart : startPoint.trignum ≠ 3) (m : ℕ)
    (sizes : List ℕ) (i : ℕ) (reason : String) :
    stop tbExecEndMaxEvent (readoutControlQemu startPoint (BitVec.ofNat 64 m)) sizes = some (i, reason) ↔
      reason = "max tb" ∧ ∃ size, FirstAt (fun before _ => cInt m ≤ cInt before.sum) sizes i size := by
  refine (stop_eq_some_iff
    (I := fun before c => c = ⟨startPoint, BitVec.ofNat 32 before.sum, BitVec.ofNat 32 m⟩)
    (P := fun before _ => cInt m ≤ cInt before.sum) (r := fun _ _ => "max tb") ?_ ?_ ?_).trans ?_
  · rintro before _ size rfl hle
    have hsle : (BitVec.ofNat 32 m).sle (BitVec.ofNat 32 before.sum) = true :=
      BitVec.sle_iff_toInt_le.mpr hle
    simp only [tbExecEndMaxEvent, if_pos hstart, hsle, if_true]
  · rintro before _ size rfl hlt
    have hsle : ¬ (BitVec.ofNat 32 m).sle (BitVec.ofNat 32 before.sum) = true :=
      fun h => hlt (BitVec.sle_iff_toInt_le.mp h)
    refine ⟨⟨startPoint, BitVec.ofNat 32 (before ++ [size]).sum, BitVec.ofNat 32 m⟩, ?_, rfl⟩
    simp only [tbExecEndMaxEvent, if_pos hstart, if_neg hsle, setWidth_add_size, List.sum_append,
      List.sum_singleton]
  · rw [readoutControlQemu, BitVec.setWidth_ofNat_of_le (by decide)]
    rfl
  · exact ⟨fun ⟨size, h, hr⟩ => ⟨hr, size, h⟩, fun ⟨hr, size, h⟩ => ⟨size, h, hr⟩⟩

/-! ### The limit -/

theorem endsAtLimit_iff_firstAt {startPoint : FaultTrigger} (hstart : startPoint.trignum ≠ 3) {m : ℕ}
    (hm : m < 2 ^ 63) (sizes : List ℕ) : EndsAtLimit startPoint m sizes ↔ ∀ i size,
      FirstAt (fun before _ => cInt m ≤ cInt before.sum) sizes i size ↔
        FirstAt (fun before _ => m ≤ before.sum) sizes i size := by
  simp only [EndsAtLimit, configureQemu_eq hm, Option.some.injEq, exists_eq_left',
    stop_tbExecEndMaxEvent hstart]
  constructor
  · intro h i size
    constructor
    · intro hfirst
      obtain ⟨-, size', hfirst'⟩ := (h i "max tb").mp ⟨rfl, size, hfirst⟩
      obtain rfl := Option.some.inj (hfirst.1.symm.trans hfirst'.1)
      exact hfirst'
    · intro hfirst
      obtain ⟨-, size', hfirst'⟩ := (h i "max tb").mpr ⟨rfl, size, hfirst⟩
      obtain rfl := Option.some.inj (hfirst.1.symm.trans hfirst'.1)
      exact hfirst'
  · intro h i reason
    exact and_congr_right fun _ => exists_congr fun size => h i size

/-- The run ends at the limit iff the conversion to `int` changes the outcome of no comparison up to
    that point. -/
theorem endsAtLimit_iff {startPoint : FaultTrigger} (hstart : startPoint.trignum ≠ 3) {m : ℕ}
    (hm : m < 2 ^ 63) (sizes : List ℕ) : EndsAtLimit startPoint m sizes ↔
      ∀ i < sizes.length, (∀ j < i, (sizes.take j).sum < m) →
        (cInt m ≤ cInt (sizes.take i).sum ↔ m ≤ (sizes.take i).sum) := by
  rw [endsAtLimit_iff_firstAt hstart hm, firstAt_congr_iff]
  constructor
  · intro h i hi hbefore
    refine h i _ (List.getElem?_eq_getElem hi) fun j hj _ _ => ?_
    exact Nat.not_le.mpr (hbefore j hj)
  · intro h i size hi hbefore
    obtain ⟨hlt, -⟩ := List.getElem?_eq_some_iff.mp hi
    refine h i hlt fun j hj => Nat.not_le.mp ?_
    exact hbefore j hj _ (List.getElem?_eq_getElem (hj.trans hlt))

/-- Two TBs reach a limit of five. -/
theorem endsAtLimit_iff_five : EndsAtLimit ⟨0, 0, 0⟩ 5 [3, 3, 3] ↔
    ∀ i < [3, 3, 3].length, (∀ j < i, ([3, 3, 3].take j).sum < 5) →
      (cInt 5 ≤ cInt ([3, 3, 3].take i).sum ↔ 5 ≤ ([3, 3, 3].take i).sum) :=
  endsAtLimit_iff (by decide) (by norm_num) [3, 3, 3]

/-! ### What the conversion does -/

theorem cInt_eq {n : ℕ} (h : n < 2 ^ 31) : cInt n = n := by
  rw [cInt, BitVec.toInt_ofNat', Int.bmod_def]
  omega

theorem cInt_take {sizes : List ℕ} (hsum : sizes.sum < 2 ^ 31) (i : ℕ) :
    cInt (sizes.take i).sum = (sizes.take i).sum := by
  have hle : (sizes.take i).sum ≤ sizes.sum :=
    (List.take_sublist i sizes).sum_le_sum fun _ _ => Nat.zero_le _
  exact cInt_eq (by omega)

/-- A limit below 2 ^ 31 is met, as long as the count stays below it too. -/
theorem endsAtLimit_of_small {startPoint : FaultTrigger} (hstart : startPoint.trignum ≠ 3) {m : ℕ}
    (hm : m < 2 ^ 31) {sizes : List ℕ} (hsum : sizes.sum < 2 ^ 31) : EndsAtLimit startPoint m sizes := by
  rw [endsAtLimit_iff_firstAt hstart (by omega), firstAt_congr_iff]
  intro i _ _ _
  rw [cInt_eq hm, cInt_take hsum, Nat.cast_le]

/-- The golden run is stopped before 10000000000000 instructions, once 1316134912 are executed. -/
theorem stop_goldenrun {startPoint : FaultTrigger} (hstart : startPoint.trignum ≠ 3) {sizes : List ℕ}
    (hsum : sizes.sum < 2 ^ 31) (i : ℕ) (reason : String) :
    stop tbExecEndMaxEvent (readoutControlQemu startPoint (BitVec.ofNat 64 10000000000000)) sizes
        = some (i, reason) ↔
      reason = "max tb" ∧ ∃ size, FirstAt (fun before _ => 1316134912 ≤ before.sum) sizes i size := by
  have hlimit : cInt 10000000000000 = (1316134912 : ℕ) := by decide
  rw [stop_tbExecEndMaxEvent hstart]
  refine and_congr_right fun _ => exists_congr fun size => firstAt_congr_iff.mpr ?_ i size
  intro j _ _ _
  rw [hlimit, cInt_take hsum, Nat.cast_le]

/-- A limit of 2 ^ 31 is a negative `int`: the run ends before its first TB. -/
theorem negativeLimit_not_endsAtLimit : ¬ EndsAtLimit ⟨0, 0, 0⟩ 2147483648 [4] := by
  rw [endsAtLimit_iff_firstAt (by decide) (by norm_num)]
  intro h
  have hfirst := h 0 4
  rw [firstAt_cons_zero, firstAt_cons_zero] at hfirst
  exact absurd (hfirst.mp (by decide)) (by decide)

end Archie.Plugin
