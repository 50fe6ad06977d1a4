import Archie.Lib.NestedLoops
import Archie.Campaign.RangeFaults

/-! Unrolling a fault configuration, `build_ranges` and `build_fault_list` of controller.py.

    A configuration is a list of dictionaries, whose faults are combined in one experiment. A call
    takes the last dictionary, loops over its six parameters and leaves the others to a call of its
    own; the innermost call appends the experiment to the list that all of them return.

        ⟨d₀, d₁⟩     d₁ ─ p ─▶ d₀ ─ q ─▶ ret_faults += [d₁(p), d₀(q)]                                -/

namespace Archie.Campaign
open Python NestedLoops

/-! ### Parameters -/

/-- What a loop variable may hold. -/
inductive ParamValue where
  | int (n : Int)
  | dict (masks : List (Text × ℕ))
  | wildcard (w : WildcardRange)
  deriving DecidableEq, Repr

/-- `isinstance(value, dict)`; the range of a wildcard is a dictionary, too. -/
def ParamValue.isDict : ParamValue → Bool
  | .int _ => false
  | .dict _ => true
  | .wildcard _ => true

/-- A dictionary in place of a range, by its entry `type`. -/
inductive RangeDict where
  | shift (range : List Int)
  | dict (masks : List (Text × ℕ))
  | unknown

/-- A parameter of a fault dictionary; `star` is the text `"*"`. -/
inductive FaultRange where
  | int (n : Int)
  | dict (d : RangeDict)
  | list (entries : List RangeEntry)
  | star

def buildRangesDict : RangeDict → Result (List ParamValue)
  | .shift [x, first, last] => do
    let counts ← range first last 1
    let shifted ← counts.mapM (shiftLeft x)
    return shifted.map .int
  | .shift _ => .error .valueError
  | .dict masks => .ok [.dict masks]
  | .unknown => .error .valueError

/-- An argument of `range`; text is none. -/
def intEntry : RangeEntry → Result Int
  | .int n => .ok n
  | .star => .error .typeError
  | .text _ _ => .error .typeError

def buildRanges (wildcard : Bool) : FaultRange → Result (List ParamValue)
  | .int n => do return (← range n (n + 1) 1).map .int
  | .dict d => buildRangesDict d
  | .star => .error .assertionError
  | .list entries =>
    if ¬(1 ≤ entries.length ∧ entries.length < 4) then .error .assertionError
    else if wildcard then
      match buildWildcardRange entries with
      | some w => .ok [.wildcard w]
      | none => .error .assertionError
    else do
      match ← entries.mapM intEntry with
      | [start] => return (← range start (start + 1) 1).map .int
      | [start, stop] => return (← range start stop 1).map .int
      | [start, stop, step] => return (← range start stop step).map .int
      | _ => .error .assertionError

/-- One dictionary of the configuration. -/
structure FaultDict where
  /-- the key `fault_livespan`, a misspelling, is present -/
  livespan : Bool
  faultAddress : FaultRange
  /-- empty without the key `fault_address_exclude` -/
  faultAddressExclude : List FaultRange
  faultType : Text
  faultModel : Text
  faultLifespan : FaultRange
  faultMask : FaultRange
  triggerAddress : FaultRange
  triggerCounter : FaultRange
  numBytes : Option FaultRange

def detectType (faultType : Text) : Result ℕ :=
  if faultType = "flash".toList ∨ faultType = "instruction".toList then .ok 1
  else if faultType = "sram".toList ∨ faultType = "data".toList then .ok 0
  else if faultType = "register".toList then .ok 2
  else .error .valueError

def detectModel (faultModel : Text) : Result ℕ :=
  if faultModel = "set1".toList then .ok 1
  else if faultModel = "set0".toList then .ok 0
  else if faultModel = "toggle".toList then .ok 2
  else if faultModel = "overwrite".toList then .ok 3
  else .error .valueError

/-- The arguments of `Fault`. -/
structure BuiltFault where
  address : ParamValue
  addressExclude : List (List ParamValue)
  type : ℕ
  model : ℕ
  lifespan : ParamValue
  mask : ParamValue
  triggerAddress : ParamValue
  triggerHitcounter : ParamValue
  numBytes : ParamValue
  wildcard : Bool
  deriving DecidableEq, Repr

/-! ### Unrolling -/

abbrev Experiments := List (List BuiltFault)

/-- What a call reads of its dictionary before the loops. -/
structure FaultKind where
  type : ℕ
  model : ℕ
  addressExclude : List (List ParamValue)
  wildcard : Bool
  deriving DecidableEq, Repr

/-- The asterisk as address becomes a list of its own. -/
def FaultDict.address (faultdev : FaultDict) : FaultRange :=
  match faultdev.faultAddress with
  | .star => .list [.star]
  | address => address

def FaultRange.hasStar : FaultRange → Bool
  | .list entries => entries.any fun
    | .star => true
    | .int _ => false
    | .text _ _ => false
  | .int _ => false
  | .dict _ => false
  | .star => false

def FaultDict.kind (faultdev : FaultDict) : Result FaultKind := do
  if faultdev.livespan then .error .systemExit
  let type ← detectType faultdev.faultType
  let model ← detectModel faultdev.faultModel
  let exclude ← faultdev.faultAddressExclude.mapM (buildRanges false)
  return ⟨type, model, exclude, faultdev.address.hasStar⟩

/-- The variables of the five inner loops. -/
structure LoopValues where
  lifespan : ParamValue
  mask : ParamValue
  triggerAddress : ParamValue
  triggerCounter : ParamValue
  numBytes : ParamValue
  deriving DecidableEq, Repr

/-- The variables that the loop bodies assign: the address of the outermost loop, the list to
    return, and the lists behind the references. -/
structure LoopState where
  faddress : ParamValue
  retIntFaults : ℕ
  lists : Heap Experiments

/-- `list.append` for each of the elements. -/
def appendAll (lists : Heap Experiments) (r : ℕ) (exps : Experiments) : Heap Experiments :=
  lists.set r (lists.get r ++ exps)

/-- `for value in range:` -/
def forEach (range : Result (List ParamValue)) (body : ParamValue → LoopState → Result LoopState)
    (st : LoopState) : Result LoopState := do
  let values ← range
  values.foldlM (fun st value => body value st) st

/-- A dictionary of masks by width overwrites an instruction, and sets the number of bytes itself. -/
def FaultKind.takesMask (kind : FaultKind) (mask numBytes : ParamValue) : Bool :=
  !mask.isDict || decide (kind.type = 1 ∧ kind.model = 3 ∧ numBytes = .int 0)

def FaultKind.fault (kind : FaultKind) (faddress : ParamValue) (v : LoopValues) : BuiltFault :=
  ⟨faddress, kind.addressExclude, kind.type, kind.model, v.lifespan, v.mask, v.triggerAddress,
    v.triggerCounter, v.numBytes, kind.wildcard⟩

/-- `if faddress == -1: faddress = taddress` -/
def replaceAddress (faddress taddress : ParamValue) : ParamValue :=
  if faddress = .int (-1) then taddress else faddress

/-- What becomes of an experiment so far: it is appended, or handed to the next call. -/
abbrev Emit := List BuiltFault → ℕ → Heap Experiments → Result (ℕ × Heap Experiments)

/-- The body of the innermost loop. -/
def visitCombination (kind : FaultKind) (combinedFaults : List BuiltFault) (emit : Emit) (v : LoopValues)
    (st : LoopState) : Result LoopState :=
  if kind.takesMask v.mask v.numBytes then do
    let faddress := replaceAddress st.faddress v.triggerAddress
    let intFaults := combinedFaults ++ [kind.fault faddress v]
    let (ret, lists) ← emit intFaults st.retIntFaults st.lists
    return ⟨faddress, ret, lists⟩
  else .error .assertionError

/-- The five loops for one address. -/
def visitAddress (faultdev : FaultDict) (kind : FaultKind) (combinedFaults : List BuiltFault)
    (emit : Emit) : LoopState → Result LoopState :=
  forEach (buildRanges false faultdev.faultLifespan) fun flifespan =>
    forEach (buildRanges false faultdev.faultMask) fun fmask =>
      forEach (buildRanges false faultdev.triggerAddress) fun taddress =>
        forEach (buildRanges false faultdev.triggerCounter) fun tcounter =>
          forEach (buildRanges false (faultdev.numBytes.getD (.list [.int 0]))) fun numbytes =>
            visitCombination kind combinedFaults emit ⟨flifespan, fmask, taddress, tcounter, numbytes⟩

/-- `any(faddress in region for region in faddress_exclude)` -/
def FaultKind.excludes (kind : FaultKind) (faddress : ParamValue) : Bool :=
  kind.addressExclude.any fun region => decide (faddress ∈ region)

/-- The loops over one dictionary. -/
def unrollDict (faultdev : FaultDict) (combinedFaults : List BuiltFault) (emit : Emit) (ret : ℕ)
    (lists : Heap Experiments) : Result (ℕ × Heap Experiments) := do
  let kind ← faultdev.kind
  let addresses ← buildRanges kind.wildcard faultdev.address
  addresses.foldlM (fun s faddress =>
    if kind.excludes faddress then .ok s
    else do
      let st ← visitAddress faultdev kind combinedFaults emit ⟨faddress, s.1, s.2⟩
      return (st.retIntFaults, st.lists)) (ret, lists)

/-- The calls, on the dictionaries in the order in which they are popped. Each gets the list
    `ret_faults` of the first one. -/
def unroll (retFaults : ℕ) : List FaultDict → List BuiltFault → Heap Experiments →
    Result (ℕ × Heap Experiments)
  | [], _, _ => .error .indexError
  | [faultdev], combinedFaults, lists =>
    unrollDict faultdev combinedFaults
      (fun intFaults ret lists => .ok (ret, appendAll lists ret [intFaults])) retFaults lists
  | faultdev :: next :: confList, combinedFaults, lists =>
    unrollDict faultdev combinedFaults
      (fun intFaults _ lists => unroll retFaults (next :: confList) intFaults lists) retFaults lists

/-- The list it returns is a reference, like the list it is given. -/
def buildFaultList (confList : List FaultDict) (combinedFaults : List BuiltFault) (retFaults : ℕ)
    (lists : Heap Experiments) : Result (ℕ × Heap Experiments) :=
  unroll retFaults confList.reverse combinedFaults lists

end Archie.Campaign
