import Archie.Campaign.TbInfo

/-! calculate_trigger.py: resolving relative triggers against the trace of the golden run.

    A fault with trigger address `-x` and hitcounter `n` asks for the instruction executed `x`
    instructions before the `n`-th execution of the faulted one. The search walks back from there,
    first inside the TB (`same`), then TB by TB, and counts the hits of the instruction found:

        tbexec   … | T₃ : a b c | T₁ : d e | T₃ : a b c | …
                           ▲──────────x───────────┘ n-th `b`                                    -/

namespace Archie.Campaign
open Python

/-- The first and last byte of each TB, `tb_start_end`. In the frame `id + size - 1` is an integer for
    addresses below 2^63 only. -/
structure TbStartEnd where
  id : ℕ
  tbStart : Int
  tbEnd : Int

def tbStartEnd (tbinfo : List TbInfo) : List TbStartEnd :=
  tbinfo.map fun t => ⟨t.id, t.id, t.id + t.size - 1⟩

/-- The trace position and the instruction of an occurrence; `(-1, 0)` if there are too few. -/
def findFault (faultAddress : Int) (tbexec : List TbExec) (tbinfo : List TbInfo)
    (triggerOccurrences : ℕ) : Result (Int × Option ℕ) := do
  -- an empty frame has no column `tb` to query
  if tbexec.isEmpty then .error .nameError
  let matchingTbIds :=
    (tbinfo.filter fun t => (t.id : Int) ≤ faultAddress ∧ (t.id : Int) + t.size > faultAddress).map
      TbInfo.id
  let idx := (List.range tbexec.length).filter fun p =>
    (tbexec[p]?).any fun e => decide (e.tb ∈ matchingTbIds)
  if triggerOccurrences > idx.length then return (-1, some 0)
  let idx : ℕ ← getItem idx ((triggerOccurrences : Int) - 1)
  let row ← findTbInfoRow (← tbAt tbexec idx) tbinfo
  return (idx, ← allignFaultToInstruction faultAddress row)

/-- The instructions of a filter up to and including `instruction`. -/
def countUpTo (instruction : Option ℕ) : List ℕ → Int
  | [] => 0
  | ins :: rest => if some ins = instruction then 1 else 1 + countUpTo instruction rest

/-- The first filter whose head is `tbId`. -/
def matchingFilter (tbId : ℕ) : List (List ℕ) → Result (Option (List ℕ))
  | [] => .ok none
  | filt :: rest => do
    if (← getItem filt 0) = tbId then return some filt
    matchingFilter tbId rest

/-- How many instructions the golden run executes up to and including the faulted one. -/
def calculateLifespanFromStart (filters : List (List ℕ)) (faultAddress : Int)
    (tbexec : List TbExec) (tbinfo : List TbInfo) (triggerOccurrences : ℕ) : Result Int := do
  let (idx, instructionAddress) ← findFault faultAddress tbexec tbinfo triggerOccurrences
  let lifespan : Int := match ← matchingFilter (← tbAt tbexec idx) filters with
    | some filt => countUpTo instructionAddress filt
    | none => 0
  (List.range idx.toNat).foldlM (fun (lifespan : Int) (itter : ℕ) => do
    let row ← findTbInfoRow (← tbAt tbexec itter) tbinfo
    return lifespan + row.insCount) lifespan

/-- The variables of the search loop. -/
structure Search where
  idx : Int
  ins : Option ℕ
  triggerPosition : ℕ
  notSame : Bool

/-- The loop body while the search is in the TB of the fault: one round over the filters. -/
def searchSame (tbId : ℕ) (s : Search) (filt : List ℕ) : Result Search := do
  if (← getItem filt 0) ≠ tbId then return s
  match filt.findIdx? fun a => some a = s.ins with
  | none => return s
  | some i =>
    if i ≥ s.triggerPosition then
      return { s with ins := filt[i - s.triggerPosition]?, triggerPosition := 0 }
    else
      return { s with notSame := true, triggerPosition := s.triggerPosition - i, idx := s.idx - 1 }

/-- The loop body. -/
def searchStep (filters : List (List ℕ)) (tbexec : List TbExec) (tbinfo : List TbInfo)
    (s : Search) : Result Search := do
  let tbId ← tbAt tbexec s.idx
  let row ← findTbInfoRow tbId tbinfo
  if s.notSame then
    -- is the current TB too short for the trigger position?
    if s.triggerPosition > row.insCount then
      return { s with idx := s.idx - 1, triggerPosition := s.triggerPosition - row.insCount }
    else match ← matchingFilter row.id filters with
      | none => return s
      | some filt => do
        let ins ← getItem filt ((filt.length : Int) - s.triggerPosition)
        return { s with ins := some ins, triggerPosition := 0 }
  else
    filters.foldlM (searchSame tbId) s

/-- The loop. A round either ends it, moves back in the trace, leaves the TB of the fault or changes
    nothing; without fuel for one round per trace entry and two more, nothing changes any more. -/
def searchLoop (filters : List (List ℕ)) (tbexec : List TbExec) (tbinfo : List TbInfo) :
    ℕ → Search → Result Search
  | fuel, s =>
    if s.triggerPosition = 0 ∨ s.idx < 0 then .ok s
    else match fuel with
      | 0 => .error .loops
      | fuel + 1 => searchStep filters tbexec tbinfo s >>= searchLoop filters tbexec tbinfo fuel

/-- `tb_start_end.loc[tb, "tb_end"]` -/
def tbEndAt (tbStartEnd : List TbStartEnd) (tb : ℕ) : Result Int :=
  match tbStartEnd.find? fun r => r.id = tb with
  | some r => .ok r.tbEnd
  | none => .error .keyError

/-- How often the trigger was executed up to `idx`: its TB, the TBs that contain this TB and the TBs
    inside it that reach the trigger. -/
def triggerHits (tbexec : List TbExec) (tbStartEnd : List TbStartEnd) (idx : ℕ) (ins : ℕ) :
    Result ℕ := do
  let triggerTb ← tbAt tbexec idx
  let executed := (tbexec.take (idx + 1)).map TbExec.tb
  -- is the trigger TB a sub-TB?
  let containing := tbStartEnd.filter fun r => (triggerTb : Int) > r.tbStart ∧ (triggerTb : Int) ≤ r.tbEnd
  -- does the trigger TB contain a sub-TB?
  let lastInstr ← tbEndAt tbStartEnd triggerTb
  let contained := tbStartEnd.filter fun r =>
    (triggerTb : Int) < r.tbStart ∧ lastInstr > r.tbStart ∧ lastInstr ≤ r.tbEnd
  return executed.count triggerTb
    + (containing.map fun r => executed.count r.id).sum
    + ((contained.filter fun r => (ins : Int) ≥ r.tbStart).map fun r => executed.count r.id).sum

/-- Trigger address, hitcounter and lifespan of a relative trigger. -/
def searchForFaultLocation (filters : List (List ℕ)) (triggerPosition faultAddress : Int)
    (triggerOccurrences : ℕ) (faultLifespan : Int) (tbexec : List TbExec) (tbinfo : List TbInfo)
    (tbStartEnd : List TbStartEnd) : Result (Int × ℕ × Int) := do
  let (idx, ins) ← findFault faultAddress tbexec tbinfo triggerOccurrences
  if idx < 0 then return (-1, triggerOccurrences, faultLifespan)
  let lifespanDiff := triggerPosition + faultLifespan
  let s ← searchLoop filters tbexec tbinfo (tbexec.length + 2)
    { idx, ins, triggerPosition := (-triggerPosition).toNat, notSame := false }
  if s.triggerPosition ≠ 0 then
    -- the trigger lies before the start of the golden run
    if faultLifespan > 0 then
      let fromStart ← calculateLifespanFromStart filters faultAddress tbexec tbinfo triggerOccurrences
      return (faultAddress, 0, fromStart + lifespanDiff)
    return (faultAddress, 0, faultLifespan)
  match s.ins with
  | none => .error .typeError
  | some ins => return (ins, ← triggerHits tbexec tbStartEnd s.idx.toNat ins, faultLifespan)

/-- The one cached answer of a fault address. -/
structure CacheEntry where
  triggerhitcounter : ℕ
  triggeraddress : Int
  faultlifespan : Int
  answer : Int × ℕ × Int

/-- The answer for a relative trigger, before the cache comes in. -/
def triggerAnswer (filters : List (List ℕ)) (tbexec : List TbExec) (tbinfo : List TbInfo)
    (address : Int) (trigger : Trigger) (lifespan : Int) : Result (Int × ℕ × Int) :=
  if lifespan ≠ 0 ∧ trigger.address + lifespan < 0 then
    -- the lifespan is too short to take effect
    .ok (-1, trigger.hitcounter, lifespan)
  else
    searchForFaultLocation filters trigger.address address trigger.hitcounter lifespan tbexec tbinfo
      (tbStartEnd tbinfo)

/-- `fault.address` where an integer is needed. -/
def intAddress : FaultAddress → Result Int
  | .int a => .ok a
  | .range _ => .error .typeError

def Fault.setAnswer {A M : Type} (f : Fault A M) (answer : Int × ℕ × Int) : Fault A M :=
  { f with trigger := ⟨answer.1, answer.2.1⟩, lifespan := answer.2.2 }

/-- One visit of the loop over the faults; the cache maps a fault address to its last answer. -/
def calculateTriggerAddress (filters : List (List ℕ)) (tbexec : List TbExec) (tbinfo : List TbInfo)
    (st : Heap ConfigFault × List (Int × CacheEntry)) (r : ℕ) :
    Result (Heap ConfigFault × List (Int × CacheEntry)) := do
  let (heap, cache) := st
  let f := heap.get r
  if f.trigger.address ≥ 0 ∨ f.trigger.hitcounter = 0 then return (heap, cache)
  let address ← intAddress f.address
  let hit := (cache.lookup address).filter fun d => d.faultlifespan = f.lifespan ∧
    d.triggerhitcounter = f.trigger.hitcounter ∧ d.triggeraddress = f.trigger.address
  match hit with
  | some d => return (heap.set r (f.setAnswer d.answer), cache)
  | none =>
    let answer ← triggerAnswer filters tbexec tbinfo address f.trigger f.lifespan
    return (heap.set r (f.setAnswer answer),
      (address, ⟨f.trigger.hitcounter, f.trigger.address, f.lifespan, answer⟩) :: cache)

/-- Resolves every relative trigger of the fault list in place. -/
def calculateTriggerAddresses (heap : Heap ConfigFault) (faultList : List FaultEntry)
    (tbexec : List TbExec) (tbinfo : List TbInfo) : Result (Heap ConfigFault) := do
  -- nor a column `id`
  if tbinfo.isEmpty then .error .keyError
  let lists := (← buildFilters tbinfo).map List.reverse
  let refs := faultList.flatMap FaultEntry.faultlist
  return (← refs.foldlM (calculateTriggerAddress lists tbexec tbinfo) (heap, [])).1

end Archie.Campaign
