import Archie.Cpu

/-! fault_list.c: the faults of an experiment inside the QEMU plugin.

    The plugin keeps a linked list that new faults are put in front of. The list is fixed once the
    guest runs, so a `fault_list_t *` is the position of its fault in it. -/

namespace Archie.Plugin

/-- `uint8_t mask[16]` -/
abbrev Mask := Fin 16 → Byte

structure FaultTrigger where
  address : ℕ
  hitcounter : ℕ
  /-- slot in the trigger vector, after the injection of a temporary fault slot in `live_faults` -/
  trignum : ℕ
  deriving DecidableEq

structure Fault where
  address : ℕ
  type : ℕ
  model : ℕ
  /-- `0` is permanent -/
  lifetime : ℕ
  numBytes : ℕ
  mask : Mask
  restoremask : Mask
  trigger : FaultTrigger
  deriving DecidableEq

/-! The enumerations of faultplugin.h. -/

@[match_pattern] abbrev DATA : ℕ := 0
@[match_pattern] abbrev INSTRUCTION : ℕ := 1
@[match_pattern] abbrev REGISTER : ℕ := 2

@[match_pattern] abbrev SET0 : ℕ := 0
@[match_pattern] abbrev SET1 : ℕ := 1
@[match_pattern] abbrev TOGGLE : ℕ := 2
@[match_pattern] abbrev OVERWRITE : ℕ := 3

/-- The new fault becomes the head of the list. Its trigger number is set when it is registered,
    `malloc` leaves it arbitrary. -/
def addFault (faults : List Fault) (address type model lifetime : ℕ) (mask : Mask)
    (triggerAddress triggerHitcounter numBytes trignum : ℕ) : List Fault :=
  ⟨address, type, model, lifetime, numBytes, mask, fun _ => 0,
    ⟨triggerAddress, triggerHitcounter, trignum⟩⟩ :: faults

/-- The first fault with this trigger address and number. -/
def getFaultStructByTrigger (faults : List Fault) (address number : ℕ) : Option ℕ :=
  faults.findIdx? fun f => decide (f.trigger.address = address) && decide (f.trigger.trignum = number)

def Fault.setTriggerNum (f : Fault) (trignum : ℕ) : Fault :=
  { f with trigger := { f.trigger with trignum } }

def Fault.setHitcounter (f : Fault) (hitcounter : ℕ) : Fault :=
  { f with trigger := { f.trigger with hitcounter } }

/-! ### Replacing one fault -/

section Replaced

variable {α : Type*} {l l' : List α} {p i : ℕ} {x y z : α}

theorem getElem?_replaced_self (hset : l' = l.set p y) (hp : l[p]? = some x) : l'[p]? = some y := by
  rw [hset, List.getElem?_set_self (List.getElem?_eq_some_iff.mp hp).1]

theorem getElem?_replaced_other (hset : l' = l.set p y) (hi : i ≠ p) : l'[i]? = l[i]? := by
  rw [hset, List.getElem?_set_ne hi.symm]

/-- An element of the new list is the new one, or an old one at another place. -/
theorem getElem?_replaced_cases (hset : l' = l.set p y) (hp : l[p]? = some x) (hz : l'[i]? = some z) :
    i = p ∧ z = y ∨ i ≠ p ∧ l[i]? = some z := by
  rcases eq_or_ne i p with rfl | hi
  · rw [getElem?_replaced_self hset hp] at hz
    exact .inl ⟨rfl, (Option.some.inj hz).symm⟩
  · rw [getElem?_replaced_other hset hi] at hz
    exact .inr ⟨hi, hz⟩

end Replaced

end Archie.Plugin
