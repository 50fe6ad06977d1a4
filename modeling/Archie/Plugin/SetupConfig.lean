import Archie.Campaign.FaultPipe
import Archie.Plugin.FaultList

/-! `qemu_setup_config` of faultplugin.c: from the message in the pipe to the fault list.

    Unpacking allocates every fault on its own and returns an array of pointers to them. The loop
    dereferences the array once and counts on from the first fault:

        fault_pack->faults   [ p₀ | p₁ | p₂ ]        fault_array = p₀
        read by the loop       p₀, p₀ + 96, p₀ + 192                                            -/

namespace Archie.Plugin
open Campaign

/-- `sizeof(Archie__Fault)`: the message header, eight 64-bit fields and a padded 32-bit one. -/
def sizeofFault : ℕ := 96

/-- What unpacking returns: pointers to separate allocations, and what an `Archie__Fault` read at any
    address holds. Nothing is known of addresses that are not pointers. -/
structure FaultPack (messages : List FaultMessage) where
  faults : ℕ → ℕ
  memory : ℕ → FaultMessage
  unpacked : ∀ i m, messages[i]? = some m → memory (faults i) = m
  separate : ∀ i j, i < messages.length → j < messages.length → i ≠ j →
    faults i + sizeofFault ≤ faults j ∨ faults j + sizeofFault ≤ faults i

/-- The sixteen mask bytes of a message. -/
def faultMask (m : FaultMessage) : Mask := fun j =>
  if j < 8 then BitVec.ofNat 8 ((m.maskLower >>> (j.val * 8)) &&& 0xFF)
  else BitVec.ofNat 8 ((m.maskUpper >>> ((j.val - 8) * 8)) &&& 0xFF)

/-- `add_fault` with the fields of a message. -/
def addMessage (faults : List Fault) (m : FaultMessage) (trignum : ℕ) : List Fault :=
  addFault faults m.address m.type m.model m.lifespan (faultMask m) m.triggerAddress
    m.triggerHitcounter (m.numBytes % 256) trignum

/-- Adds the faults of the pack to the list and returns a status; a message without content is an
    error. `junk` is what `malloc` leaves in the trigger numbers. -/
def qemuSetupConfig (msgSize : ℕ) {messages : List FaultMessage} (pack : FaultPack messages)
    (junk : ℕ → ℕ) (faults : List Fault) : Int × List Fault :=
  if msgSize = 0 then (-1, faults)
  else
    let faultArray := pack.faults 0
    (0, (List.range messages.length).foldl (fun faults i =>
      addMessage faults (pack.memory (faultArray + i * sizeofFault)) (junk i)) faults)

/-! ### What the list should hold -/

/-- Byte `i` of a mask. -/
def maskByte (mask : ℕ) : Mask := fun i => BitVec.ofNat 8 ((mask >>> (8 * i.val)) &&& 0xff)

/-- The plugin's fault for a fault of the controller. -/
def ofIntFault (f : IntFault) (trignum : ℕ) : Fault :=
  ⟨f.address.toNat, f.type, f.model, f.lifespan.toNat, f.numBytes, maskByte f.mask, fun _ => 0,
    ⟨f.trigger.address.toNat, f.trigger.hitcounter, trignum⟩⟩

/-- Exactly the faults of the list are added, each in front of those before it. -/
def Delivers (faultList : List IntFault) : Prop :=
  ∀ size messages, writeFaultListToPipe faultList = .ok (size, messages) →
    ∀ (pack : FaultPack messages) (junk : ℕ → ℕ) (faults : List Fault),
      (qemuSetupConfig size pack junk faults).2
        = (faultList.mapIdx fun i f => ofIntFault f (junk i)).reverse ++ faults

/-- Splitting a mask into two words and those into bytes gives the bytes of the mask. -/
theorem faultMask_message (f : IntFault) : faultMask (IntFault.message f) = maskByte f.mask := by
  funext j
  have hff : 0xFF = 2 ^ 8 - 1 := rfl
  simp only [faultMask, maskByte, IntFault.message, hff]
  split
  · next hj =>
    have hj : j.val < 8 := hj
    refine congrArg (BitVec.ofNat 8) (Nat.eq_of_testBit_eq fun k => ?_)
    simp only [Nat.testBit_and, Nat.testBit_shiftRight, Nat.testBit_two_pow_sub_one]
    by_cases hk : k < 8
    · have hlt : j.val * 8 + k < 64 := by omega
      simp [hlt, Nat.mul_comm]
    · simp [hk]
  · next hj =>
    have hj : 8 ≤ j.val := by
      by_contra h
      exact hj (by simpa [Fin.lt_def] using h)
    have hj' : j.val < 16 := j.isLt
    refine congrArg (BitVec.ofNat 8) (Nat.eq_of_testBit_eq fun k => ?_)
    simp only [Nat.testBit_and, Nat.testBit_shiftRight, Nat.testBit_two_pow_sub_one]
    by_cases hk : k < 8
    · have hlt : (j.val - 8) * 8 + k < 64 := by omega
      have hadd : 64 + ((j.val - 8) * 8 + k) = 8 * j.val + k := by omega
      simp [hlt, hadd]
    · simp [hk]

/-- A message adds the fault it was made of. -/
theorem addMessage_message {f : IntFault} (h : Fits f) (faults : List Fault) (trignum : ℕ) :
    addMessage faults (IntFault.message f) trignum = ofIntFault f trignum :: faults := by
  have hbytes : f.numBytes % 256 = f.numBytes := Nat.mod_eq_of_lt h.numBytes
  simp only [addMessage, addFault, faultMask_message]
  simp only [IntFault.message, ofIntFault, hbytes]

/-! ### When the list is delivered -/

/-- Pointers with a gap between the allocations; what the loop reads there is not the next fault. -/
def gapPack (messages : List FaultMessage) (other : FaultMessage) : FaultPack messages where
  faults i := 192 * i
  memory p := if p % 192 = 0 then messages.getD (p / 192) other else other
  unpacked i m hi := by
    have hmod : 192 * i % 192 = 0 := Nat.mul_mod_right 192 i
    have hdiv : 192 * i / 192 = i := Nat.mul_div_cancel_left i (by norm_num)
    rw [if_pos hmod, hdiv, List.getD_eq_getElem?_getD, hi, Option.getD_some]
  separate i j _ _ hne := by unfold sizeofFault; omega

/-- The plugin gets the faults of an experiment right for every placement of the unpacked messages
    iff there is at most one. -/
theorem qemuSetupConfig_delivers_iff {faultList : List IntFault} (hfit : ∀ f ∈ faultList, Fits f) :
    Delivers faultList ↔ faultList.length ≤ 1 := by
  have hwrite := writeFaultListToPipe_ok hfit
  constructor
  · intro hdel
    by_contra hlen
    obtain ⟨f, g, rest, rfl⟩ : ∃ f g rest, faultList = f :: g :: rest := by
      match faultList, hlen with
      | [], h => simp at h
      | [_], h => simp at h
      | f :: g :: rest, _ => exact ⟨f, g, rest, rfl⟩
    -- the second fault is read from a place that holds another address
    obtain ⟨other, hother⟩ : ∃ other : FaultMessage, other.address ≠ g.address.toNat :=
      ⟨{ IntFault.message g with address := g.address.toNat + 1 }, Nat.succ_ne_self _⟩
    have hlist := hdel _ _ hwrite (gapPack _ other) (fun _ => 0) []
    have hsize : packSize ((f :: g :: rest).map IntFault.message) ≠ 0 :=
      mt packSize_eq_zero.mp (by simp)
    rw [qemuSetupConfig, if_neg hsize] at hlist
    have hsecond := congrArg (fun l : List Fault => (l.reverse[1]?).map Fault.address) hlist
    simp [addMessage, addFault, gapPack, sizeofFault, ofIntFault] at hsecond
    exact hother hsecond
  · intro hlen size messages hok pack junk faults
    obtain ⟨rfl, rfl⟩ := Prod.mk.inj (Except.ok.inj (hwrite.symm.trans hok))
    match faultList, hlen with
    | [], _ => rfl
    | [f], _ =>
      have hsize : packSize ([f].map IntFault.message) ≠ 0 :=
        mt packSize_eq_zero.mp (by simp)
      have hread : pack.memory (pack.faults 0 + 0 * sizeofFault) = IntFault.message f := by
        rw [Nat.zero_mul, Nat.add_zero]
        exact pack.unpacked 0 _ rfl
      rw [qemuSetupConfig, if_neg hsize]
      simp only [List.map_cons, List.map_nil, List.length_singleton, List.range_one, List.foldl_cons,
        List.foldl_nil, hread, addMessage_message (hfit f (by simp))]
      rfl

/-- A set-1 fault on the byte at an address. -/
def byteFault (address : Int) : IntFault := ⟨⟨0x10, 1⟩, address, [], 0, 1, 0, 1, 1, false⟩

theorem byteFault_fits {address : Int} (h : 0 ≤ address ∧ address.toNat < 2 ^ 64) :
    Fits (byteFault address) :=
  ⟨h, by norm_num [byteFault], by norm_num [byteFault], by norm_num [byteFault],
    by norm_num [byteFault], by norm_num [byteFault], by norm_num [byteFault], by norm_num [byteFault]⟩

theorem qemuSetupConfig_delivers_byteFault :
    Delivers [byteFault 0x100] ↔ [byteFault 0x100].length ≤ 1 :=
  qemuSetupConfig_delivers_iff (by simpa using byteFault_fits (by decide))

/-- Two faults at `0x100` and `0x200`, and a place that holds `0x300` behind the first. -/
theorem qemuSetupConfig_not_delivers : ¬ Delivers [byteFault 0x100, byteFault 0x200] := by
  intro hdel
  have hlist := hdel _ _ rfl (gapPack _ (IntFault.message (byteFault 0x300))) (fun _ => 0) []
  have haddresses := congrArg (List.map Fault.address) hlist
  exact absurd haddresses (by decide)

end Archie.Plugin
