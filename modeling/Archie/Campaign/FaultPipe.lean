import Archie.Campaign.Fault

/-! `write_fault_list_to_pipe` of faultclass.py: an experiment as the message the plugin reads.

    A fault becomes one protobuf message, its 128-bit mask two 64-bit fields. Setting a field to a
    value outside its type raises. The message goes out after its size in decimal digits. -/

namespace Archie.Campaign
open Python

/-- The message `Fault` of fault.proto. -/
structure FaultMessage where
  address : ℕ
  type : ℕ
  model : ℕ
  lifespan : ℕ
  triggerAddress : ℕ
  triggerHitcounter : ℕ
  maskUpper : ℕ
  maskLower : ℕ
  numBytes : ℕ
  deriving DecidableEq, Repr

/-- Assigning an integer to an unsigned field of `bits` bits. -/
def setField (bits : ℕ) (value : Int) : Result ℕ :=
  if 0 ≤ value ∧ value.toNat < 2 ^ bits then .ok value.toNat else .error .valueError

/-- The message of one fault. -/
def faultMessage (fault : IntFault) : Result FaultMessage := do
  let address ← setField 64 fault.address
  let type ← setField 64 fault.type
  let model ← setField 64 fault.model
  let lifespan ← setField 64 fault.lifespan
  let triggerAddress ← setField 64 fault.trigger.address
  let triggerHitcounter ← setField 64 fault.trigger.hitcounter
  let maskUpper ← setField 64 (((fault.mask >>> 64) &&& (2 ^ 64 - 1) : ℕ))
  let maskLower ← setField 64 ((fault.mask &&& (2 ^ 64 - 1) : ℕ))
  let numBytes ← setField 32 fault.numBytes
  return ⟨address, type, model, lifespan, triggerAddress, triggerHitcounter, maskUpper, maskLower,
    numBytes⟩

/-- The bytes of a base-128 number. -/
def varintSize (n : ℕ) : ℕ := n.log2 / 7 + 1

/-- A field takes its tag and its number, zero is left out. -/
def fieldSize (n : ℕ) : ℕ := if n = 0 then 0 else 1 + varintSize n

def FaultMessage.byteSize (m : FaultMessage) : ℕ :=
  ([m.address, m.type, m.model, m.lifespan, m.triggerAddress, m.triggerHitcounter, m.maskUpper,
    m.maskLower, m.numBytes].map fieldSize).sum

/-- `fault_pack.ByteSize()` -/
def packSize (faults : List FaultMessage) : ℕ :=
  (faults.map fun m => 1 + varintSize m.byteSize + m.byteSize).sum

/-- The size and the faults of the message in the pipe. -/
def writeFaultListToPipe (faultList : List IntFault) : Result (ℕ × List FaultMessage) := do
  let faults ← faultList.mapM faultMessage
  return (packSize faults, faults)

/-- Only the empty list has an empty message. -/
theorem packSize_eq_zero {faults : List FaultMessage} : packSize faults = 0 ↔ faults = [] := by
  cases faults with
  | nil => simp [packSize]
  | cons m ms => simp [packSize]

/-! ### Faults that fit -/

/-- The fields of a fault fit the message, its mask and byte count the plugin. -/
structure Fits (f : IntFault) : Prop where
  address : 0 ≤ f.address ∧ f.address.toNat < 2 ^ 64
  type : f.type < 2 ^ 64
  model : f.model < 2 ^ 64
  lifespan : 0 ≤ f.lifespan ∧ f.lifespan.toNat < 2 ^ 64
  triggerAddress : 0 ≤ f.trigger.address ∧ f.trigger.address.toNat < 2 ^ 64
  hitcounter : f.trigger.hitcounter < 2 ^ 64
  mask : f.mask < 2 ^ 128
  numBytes : f.numBytes < 256

/-- The message that a fitting fault becomes. -/
def IntFault.message (f : IntFault) : FaultMessage :=
  ⟨f.address.toNat, f.type, f.model, f.lifespan.toNat, f.trigger.address.toNat, f.trigger.hitcounter,
    (f.mask >>> 64) &&& (2 ^ 64 - 1), f.mask &&& (2 ^ 64 - 1), f.numBytes⟩

theorem setField_natCast {bits n : ℕ} (h : n < 2 ^ bits) : setField bits (n : Int) = .ok n := by
  rw [setField, Int.toNat_natCast, if_pos ⟨Int.natCast_nonneg n, h⟩]

theorem Fits.faultMessage {f : IntFault} (h : Fits f) : faultMessage f = .ok (IntFault.message f) := by
  have hmask : ∀ n : ℕ, n &&& (2 ^ 64 - 1) < 2 ^ 64 := fun n => Nat.and_lt_two_pow n (by norm_num)
  have hbytes : f.numBytes < 2 ^ 32 := lt_trans h.numBytes (by norm_num)
  have hset : ∀ {v : Int}, 0 ≤ v ∧ v.toNat < 2 ^ 64 → setField 64 v = .ok v.toNat := fun hv => if_pos hv
  simp only [Campaign.faultMessage, hset h.address, setField_natCast h.type, setField_natCast h.model,
    hset h.lifespan, hset h.triggerAddress, setField_natCast h.hitcounter,
    setField_natCast (hmask (f.mask >>> 64)), setField_natCast (hmask f.mask),
    setField_natCast hbytes, bind, Except.bind]
  rfl

theorem writeFaultListToPipe_ok {faultList : List IntFault} (h : ∀ f ∈ faultList, Fits f) :
    writeFaultListToPipe faultList
      = .ok (packSize (faultList.map IntFault.message), faultList.map IntFault.message) := by
  rw [writeFaultListToPipe, mapM_ok fun f hf => (h f hf).faultMessage]
  rfl

end Archie.Campaign
