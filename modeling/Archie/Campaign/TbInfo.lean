import Archie.Campaign.Fault

/-! Reading the translation-block table: the assembler text, the filters built from it
    (faultclass.py), the row lookups of calculate_trigger.py and goldenrun.py.

    The tables stand for the data frames of the golden run, below 2^63 their columns are exact. -/

namespace Archie.Campaign
open Python

/-- The instruction addresses of an assembler text, `"[ 80004a0 ]: mov r0, r1 \n[ …"`. -/
def asmAddresses (assembler : Text) : Result (List ℕ) :=
  (split assembler "[ ".toList).tail.mapM fun sp => do
    intHex (← getItem (split sp "]".toList) 0)

/-- The addresses of one TB, sorted, last one first. -/
def tbFilter (tb : TbInfo) : Result (List ℕ) := do
  return ((← asmAddresses tb.assembler).insertionSort (· ≤ ·)).reverse

/-- One filter per TB, the longest first. -/
def buildFilters (tbinfo : List TbInfo) : Result (List (List ℕ)) := do
  let filters ← tbinfo.mapM tbFilter
  return (filters.insertionSort fun a b => a.length ≤ b.length).reverse

/-- `frame[frame["id"] == tb_id]`, first row. -/
def findTbInfoRow (tbId : ℕ) (tbinfo : List TbInfo) : Result TbInfo :=
  match tbinfo.find? fun t => t.id = tbId with
  | some t => .ok t
  | none => .error .indexError

/-- `frame.set_index("id").at[tb, …]` -/
def tbIndexed (tbId : ℕ) (tbinfo : List TbInfo) : Result TbInfo :=
  match tbinfo.find? fun t => t.id = tbId with
  | some t => .ok t
  | none => .error .keyError

/-- `frame.at[idx, "tb"]` -/
def tbAt (tbexec : List TbExec) (idx : Int) : Result ℕ :=
  if idx < 0 then .error .keyError
  else match tbexec[idx.toNat]? with
    | some e => .ok e.tb
    | none => .error .keyError

/-- Is the address inside some executed TB? -/
def findInsnAddressesInTb (insnAddress : Int) (tbinfo : List TbInfo) : Bool :=
  tbinfo.any fun t => decide (insnAddress ≥ t.id) && decide (insnAddress < t.id + t.size)

/-- The first of consecutive addresses `a ≤ address < b`. -/
def allignGo (address : Int) : List ℕ → Option ℕ
  | a :: b :: as => if address ≥ a ∧ address < b then some a else allignGo address (b :: as)
  | _ => none

/-- The start of the instruction that contains the address; `None` if there is none. -/
def allignFaultToInstruction (address : Int) (tb : TbInfo) : Result (Option ℕ) := do
  return allignGo address ((← asmAddresses tb.assembler) ++ [tb.id + tb.size])

end Archie.Campaign
