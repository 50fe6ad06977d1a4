import Archie.Campaign.CalculateTrigger
import Archie.Campaign.Wildcard

/-! What `run_goldenrun` makes of the fault list once the golden run has finished, goldenrun.py.

        expand wildcards ─▶ resolve width masks ─▶ resolve triggers ─▶ check triggers ─▶ accepted
              │                     │                     │                  │
              └─────────── all in place, on one list ─────┴──── marks ───────┴─▶ returned

    The checks build a new list. `run_experiment` binds it to its own parameter `faultconfig`, and
    the list that `run_goldenrun` returns is the one it was given. -/

namespace Archie.Campaign
open Python

/-! ### Width masks -/

/-- The width of the instruction at the address, from the first TB of the trace that has it. -/
def executedWidth (address : FaultAddress) (tbinfo : List TbInfo) :
    List TbExec → Result (Option Int)
  | [] => .ok none
  | e :: rest => do
    let row ← tbIndexed e.tb tbinfo
    let asm ← asmAddresses row.assembler
    match asm.findIdx? fun a => decide (FaultAddress.int a = address) with
    | none => executedWidth address tbinfo rest
    | some idx => return some (← getItem (tbInfoSize asm row.size) idx)

/-- The mask for the width of the faulted instruction, and whether there is none. A fault on an
    instruction that is not executed keeps its masks. -/
def processSingleFault (tbexec : List TbExec) (tbinfo : List TbInfo) (heap : Heap ConfigFault) (r : ℕ) :
    Result (Heap ConfigFault × Bool) :=
  match (heap.get r).mask with
  | .int _ => .ok (heap, false)
  | .dict masks => do
    -- empty frames have no columns
    if tbinfo.isEmpty ∨ tbexec.isEmpty then .error .keyError
    match ← executedWidth (heap.get r).address tbinfo tbexec with
    | none => return (heap, false)
    | some width => match masks.lookup (strInt width) with
      | some m => return (heap.set r { heap.get r with mask := FaultMask.int m, numBytes := width.toNat }, false)
      | none => return (heap, true)

/-- A visit; the second component is `remove_list`. -/
def visitSingleFault (tbexec : List TbExec) (tbinfo : List TbInfo) (faultentry : FaultEntry)
    (st : Heap ConfigFault × List FaultEntry) (r : ℕ) : Result (Heap ConfigFault × List FaultEntry) := do
  let (heap, unmatched) ← processSingleFault tbexec tbinfo st.1 r
  return (heap, if unmatched then st.2 ++ [faultentry] else st.2)

def processSingleFaults (heap : Heap ConfigFault) (faultconfig : List FaultEntry) (tbexec : List TbExec)
    (tbinfo : List TbInfo) : Result (Heap ConfigFault × List FaultEntry) := do
  let (heap, removeList) ← faultconfig.foldlM (fun st faultentry =>
    faultentry.faultlist.foldlM (visitSingleFault tbexec tbinfo faultentry) st) (heap, [])
  return (heap, ← removeList.foldlM remove faultconfig)

/-! ### Checking the triggers -/

/-- The trigger addresses that are decided, and whether the experiment is marked. -/
structure TriggerCheck where
  validTriggers : List Int
  invalidTriggers : List Int
  delete : Bool

def checkTrigger (tbinfo : List TbInfo) (st : TriggerCheck) (fault : ConfigFault) : TriggerCheck :=
  if fault.trigger.address ∈ st.validTriggers then st
  else if fault.trigger.address ∈ st.invalidTriggers then { st with delete := true }
  else if findInsnAddressesInTb fault.trigger.address tbinfo then
    { st with validTriggers := st.validTriggers ++ [fault.trigger.address] }
  -- the plugin does not use the trigger of an instruction fault with hitcounter 0
  else if fault.trigger.hitcounter = 0 ∧ fault.model = 3 then st
  else { st with invalidTriggers := st.invalidTriggers ++ [fault.trigger.address], delete := true }

/-- Marks the experiments with a rejected trigger. -/
def markTriggers (heap : Heap ConfigFault) (tbinfo : List TbInfo) :
    TriggerCheck → List FaultEntry → TriggerCheck × List FaultEntry
  | st, [] => (st, [])
  | st, e :: es =>
    let st := (e.faultlist.map heap.get).foldl (checkTrigger tbinfo) { st with delete := e.delete }
    let (st', es) := markTriggers heap tbinfo st es
    (st', { e with delete := st.delete } :: es)

/-- The experiments, marked, and the new list of those that pass, with new indices. -/
structure CheckedTriggers where
  invalidTriggers : List Int
  marked : List FaultEntry
  accepted : List FaultEntry

def checktriggersInTb (heap : Heap ConfigFault) (faultconfig : List FaultEntry) (tbinfo : List TbInfo) :
    Result CheckedTriggers :=
  let (st, marked) := markTriggers heap tbinfo ⟨[], [], false⟩ faultconfig
  -- an empty frame has no column `delete` to query
  if faultconfig.isEmpty then .error .nameError
  else .ok ⟨st.invalidTriggers, marked,
    (marked.filter fun e => !e.delete).mapIdx fun i e => { e with index := (i : Int) }⟩

/-! ### The run -/

/-- The faults and the list that `run_goldenrun` returns, and what `checktriggers_in_tb` decided. -/
structure GoldenrunFaults where
  heap : Heap ConfigFault
  faultconfig : List FaultEntry
  accepted : List FaultEntry
  invalidTriggers : List Int

def runGoldenrun (heap : Heap ConfigFault) (faultconfig : List FaultEntry) (tbexec : List TbExec)
    (tbinfo : List TbInfo) : Result GoldenrunFaults := do
  let (heap, faultconfig) ← processWildcardFaults heap faultconfig tbexec tbinfo
  let (heap, faultconfig) ← processSingleFaults heap faultconfig tbexec tbinfo
  let heap ← calculateTriggerAddresses heap faultconfig tbexec tbinfo
  let checked ← checktriggersInTb heap faultconfig tbinfo
  return ⟨heap, checked.marked, checked.accepted, checked.invalidTriggers⟩

/-- The returned experiments are those that pass the check. -/
structure GoldenrunFaults.Filtered (g : GoldenrunFaults) : Prop where
  exact : g.faultconfig.map FaultEntry.faultlist = g.accepted.map FaultEntry.faultlist
  notDeleted : ∀ e ∈ g.faultconfig, e.delete = false
  nonempty : ∀ e ∈ g.faultconfig, e.faultlist ≠ []
  executed : ∀ e ∈ g.faultconfig, ∀ r ∈ e.faultlist,
    (g.heap.get r).trigger.address ∉ g.invalidTriggers

end Archie.Campaign
