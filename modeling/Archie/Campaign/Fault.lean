import Archie.Lib.Python

/-! The controller's data: `Trigger` and `Fault` of faultclass.py, the entries of the fault list and
    the tables of a golden run.

    `Fault.__init__` annotates the address and the mask as `int`. A configuration may put a
    dictionary in either place, which the golden run then expands: a wildcard range as address, a
    width-to-mask dictionary as mask. `Fault` is therefore generic in the two.

    The columns of the tables are integers here. Those of the data frames are int64 and just as exact
    while addresses stay below 2^63; from there on a column is uint64, `id + size` is a float64 and
    `numpy.diff` across 2^63 is not exact. What is said about the tables is about the exact case. -/

namespace Archie.Campaign
open Python

/-- A trigger; a negative address counts instructions back from the fault. -/
structure Trigger where
  address : Int
  hitcounter : ℕ
  deriving DecidableEq, Repr

structure Fault (Address Mask : Type) where
  trigger : Trigger
  address : Address
  /-- the excluded regions, each as the addresses of its `range` -/
  addressExclude : List (List Int)
  type : ℕ
  model : ℕ
  lifespan : Int
  mask : Mask
  numBytes : ℕ
  wildcard : Bool
  deriving DecidableEq, Repr

/-- The range dictionary that `build_ranges` makes of a wildcard address. -/
structure WildcardRange where
  start : Trigger
  end_ : Trigger
  local_ : Bool
  deriving DecidableEq, Repr

inductive FaultAddress where
  | int (a : Int)
  | range (w : WildcardRange)
  deriving DecidableEq, Repr

inductive FaultMask where
  | int (m : ℕ)
  /-- the masks by instruction width, the width as a decimal string -/
  | dict (masks : List (Text × ℕ))
  deriving DecidableEq, Repr

/-- A fault as a configuration may hold it. -/
abbrev ConfigFault := Fault FaultAddress FaultMask

/-- A fault whose address and mask are integers, as `Fault.__init__` annotates them. -/
abbrev IntFault := Fault Int ℕ

/-- One experiment of the fault list. Its faults are references: `build_fault_list` copies lists, not
    faults, so the experiments of combined faults share them. -/
structure FaultEntry where
  index : Int
  faultlist : List ℕ
  delete : Bool
  deriving DecidableEq, Repr

/-- A row of `tbinfo`; its columns are exact for addresses below 2^63. -/
structure TbInfo where
  id : ℕ
  size : ℕ
  insCount : ℕ
  numExec : ℕ
  assembler : Text
  deriving DecidableEq, Repr

/-- A row of `tbexec`. -/
structure TbExec where
  tb : ℕ
  pos : ℕ
  deriving DecidableEq, Repr

end Archie.Campaign
