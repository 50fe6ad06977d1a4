import Archie.Campaign.TbInfo

/-! Wildcard faults, goldenrun.py.

    A wildcard fault stands for one fault for each instruction that the golden run executed inside its
    range. The expansion walks the trace once and counts the executions of each TB on the way. -/

namespace Archie.Campaign
open Python

/-- A row of `tb_hitcounters`. -/
structure TbHits where
  id : ℕ
  hitcounter : ℕ
  tbStart : Int
  tbEnd : Int

def tbHitcounters (tbinfo : List TbInfo) : List TbHits :=
  tbinfo.map fun t => ⟨t.id, 0, t.id, t.id + t.size - 1⟩

/-- `tb_hitcounters.at[tb, …]` -/
def tbHitsAt (rows : List TbHits) (tb : ℕ) : Result TbHits :=
  match rows.find? fun r => r.id = tb with
  | some r => .ok r
  | none => .error .keyError

def countTb (rows : List TbHits) (tb : ℕ) : List TbHits :=
  rows.map fun r => if r.id = tb then { r with hitcounter := r.hitcounter + 1 } else r

/-- The differences of consecutive addresses, and what is left for the last instruction. `numpy.diff`
    is this difference for addresses below 2^63. -/
def tbInfoSize (asm : List ℕ) (totalSize : ℕ) : List Int :=
  let diff := asm.zipWith (fun a b => (b : Int) - a) asm.tail
  diff ++ [(totalSize : Int) - diff.sum]

/-- The hitcounter of the TB and, by start address, those of the sub-TBs that end with it. -/
structure TbAnalysis where
  tbHitcounter : ℕ
  instrHitcounters : List (Int × ℕ)

/-- Called after `tb` has been counted; `before` is its counter without that. -/
def analyzeTb (rows : List TbHits) (tb before : ℕ) : Result TbAnalysis := do
  -- is it a sub-TB?
  let containing := rows.filter fun r => (tb : Int) > r.tbStart ∧ (tb : Int) ≤ r.tbEnd
  -- does it contain sub-TBs?
  let lastInstr := (← tbHitsAt rows tb).tbEnd
  let contained := rows.filter fun r =>
    (tb : Int) < r.tbStart ∧ lastInstr > r.tbStart ∧ lastInstr ≤ r.tbEnd
  return ⟨before + (containing.map TbHits.hitcounter).sum,
    contained.map fun r => (r.tbStart, r.hitcounter)⟩

/-- The variables of the walk. -/
structure WildcardWalk where
  rangeStartCounter : ℕ
  rangeEndCounter : ℕ
  rangeEndReached : Bool
  localActive : Bool
  faults : List ConfigFault

/-- Counts the ends of the range, the last instruction of which is still faulted. -/
def WildcardWalk.countEnd (s : WildcardWalk) (w : WildcardRange) (instr : ℕ) : WildcardWalk :=
  if w.end_.hitcounter ≠ 0 ∧ (instr : Int) = w.end_.address then
    { s with
      rangeEndCounter := s.rangeEndCounter + 1
      rangeEndReached := s.rangeEndReached ||
        decide (s.rangeStartCounter = 0 ∧ s.rangeEndCounter + 1 = w.end_.hitcounter) }
  else s

/-- Waits for the start of the range; is this instruction inside? -/
def WildcardWalk.countStart (s : WildcardWalk) (w : WildcardRange) (instr : ℕ) :
    WildcardWalk × Bool :=
  if s.rangeStartCounter = 0 then (s, true)
  else if (instr : Int) = w.start.address then
    ({ s with rangeStartCounter := s.rangeStartCounter - 1 },
      decide (s.rangeStartCounter - 1 = 0))
  else (s, false)

/-- Switches a local range on and off; is this instruction inside? -/
def WildcardWalk.switchLocal (s : WildcardWalk) (w : WildcardRange) (instr : ℕ) :
    WildcardWalk × Bool :=
  if w.local_ then
    let active := s.localActive || decide ((instr : Int) = w.start.address)
    if active then ({ s with localActive := decide ((instr : Int) ≠ w.end_.address) }, true)
    else ({ s with localActive := false }, false)
  else (s, true)

/-- The copy of the wildcard fault for one instruction. -/
def instrFault (fault : ConfigFault) (tb : TbAnalysis) (instr : ℕ) (size : Int) :
    Result ConfigFault := do
  let hits := (tb.instrHitcounters.filter fun h => (instr : Int) ≥ h.1).map Prod.snd
  let f := { fault with
    wildcard := false
    address := FaultAddress.int instr
    trigger := { fault.trigger with hitcounter := 1 + tb.tbHitcounter + hits.sum } }
  match f.mask with
  | .int _ => return f
  | .dict masks => match masks.lookup (strInt size) with
    | some m => return { f with mask := FaultMask.int m, numBytes := size.toNat }
    | none => .error .keyError

/-- One instruction of the walk, and whether to leave the TB. -/
def wildcardInstr (fault : ConfigFault) (w : WildcardRange) (tb : TbAnalysis) (s : WildcardWalk)
    (instr : ℕ) (size : Int) : Result (WildcardWalk × Bool) := do
  let (s, inside) := (s.countEnd w instr).countStart w instr
  if !inside then return (s, false)
  let (s, inside) := s.switchLocal w instr
  if !inside then return (s, false)
  if fault.addressExclude.any fun region => decide ((instr : Int) ∈ region) then return (s, false)
  let f ← instrFault fault tb instr size
  return ({ s with faults := s.faults ++ [f] }, s.rangeEndReached)

def wildcardInstrs (fault : ConfigFault) (w : WildcardRange) (tb : TbAnalysis) :
    WildcardWalk → List (ℕ × Int) → Result WildcardWalk
  | s, [] => .ok s
  | s, (instr, size) :: rest => do
    let (s, leave) ← wildcardInstr fault w tb s instr size
    if leave then return s
    wildcardInstrs fault w tb s rest

/-- The walk over the trace. The analysis of a TB has no effects, the code makes it when it first
    needs it. -/
def wildcardTbs (fault : ConfigFault) (w : WildcardRange) (tbinfo : List TbInfo) :
    List TbHits → WildcardWalk → List TbExec → Result WildcardWalk
  | _, s, [] => .ok s
  | rows, s, e :: rest => do
    let before := (← tbHitsAt rows e.tb).hitcounter
    let rows := countTb rows e.tb
    let row ← tbIndexed e.tb tbinfo
    let asm ← asmAddresses row.assembler
    let tb ← analyzeTb rows e.tb before
    let s ← wildcardInstrs fault w tb s (asm.zip (tbInfoSize asm row.size))
    if s.rangeEndReached then return s
    wildcardTbs fault w tbinfo rows s rest

def generateWildcardFaults (fault : ConfigFault) (tbexec : List TbExec) (tbinfo : List TbInfo) :
    Result (List ConfigFault) := do
  -- empty frames have no columns
  if tbinfo.isEmpty ∨ tbexec.isEmpty then .error .keyError
  match fault.address with
  | .int _ => .error .typeError
  | .range w => do
    let s ← wildcardTbs fault w tbinfo (tbHitcounters tbinfo)
      ⟨w.start.hitcounter, 0, false, false, []⟩ tbexec
    -- unmet range conditions
    if s.rangeStartCounter ≠ 0 then .error .systemExit
    if w.end_.hitcounter ≠ 0 ∧ s.rangeEndReached = false then .error .systemExit
    return s.faults

/-- Expands the wildcard faults of one experiment and takes them out of it. -/
def processWildcardEntry (heap : Heap ConfigFault) (tbexec : List TbExec) (tbinfo : List TbInfo)
    (faultentry : FaultEntry) : Result (List ConfigFault × FaultEntry) := do
  let expandedFaults := faultentry.faultlist.filter fun r => (heap.get r).wildcard
  let generated ← expandedFaults.mapM fun r => generateWildcardFaults (heap.get r) tbexec tbinfo
  let faultlist ← expandedFaults.foldlM remove faultentry.faultlist
  return (generated.flatten,
    { faultentry with faultlist, delete := faultentry.delete || faultlist.isEmpty })

/-- An experiment of its own for each generated fault. -/
def addWildcardFaults : Heap ConfigFault → Int → List ConfigFault → Heap ConfigFault × List FaultEntry
  | heap, _, [] => (heap, [])
  | heap, index, f :: fs =>
    let (r, heap) := heap.alloc f
    let (heap, entries) := addWildcardFaults heap (index + 1) fs
    (heap, ⟨index, [r], false⟩ :: entries)

def processWildcardFaults (heap : Heap ConfigFault) (faultconfig : List FaultEntry)
    (tbexec : List TbExec) (tbinfo : List TbInfo) : Result (Heap ConfigFault × List FaultEntry) := do
  let indexBase := (← getItem faultconfig (-1)).index + 1
  if (faultconfig.flatMap FaultEntry.faultlist).all fun r => !(heap.get r).wildcard then
    return (heap, faultconfig)
  let processed ← faultconfig.mapM (processWildcardEntry heap tbexec tbinfo)
  let (heap, entries) := addWildcardFaults heap indexBase (processed.flatMap Prod.fst)
  return (heap, processed.map Prod.snd ++ entries)

end Archie.Campaign
