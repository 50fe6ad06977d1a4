import Archie.Campaign.TbInfo

/-! The memory accesses of a run, each with the TB of its instruction (faultclass.py).

    A TB spans `[id, id + size)`, as `find_insn_addresses_in_tb` has it. `connect_meminfo_tb` leaves
    its first byte out:

        id          id + size
        ├───────────┤              the bytes of the TB
         ├──────────┤              where an access is connected to it -/

namespace Archie.Campaign

/-- A `MemInfo` message of the plugin. -/
structure MemInfoMessage where
  insAddress : ℕ
  size : ℕ
  memmoryAddress : ℕ
  direction : ℕ
  counter : ℕ
  deriving DecidableEq, Repr

/-- A row of `meminfo`. -/
structure MemInfoRow where
  ins : ℕ
  size : ℕ
  address : ℕ
  direction : ℕ
  counter : ℕ
  tbid : ℕ
  deriving DecidableEq, Repr

def readoutMeminfo (memInfos : List MemInfoMessage) : List MemInfoRow :=
  memInfos.map fun m => ⟨m.insAddress, m.size, m.memmoryAddress, m.direction, m.counter, 0⟩

/-- The loop over the TBs, left at the first match. -/
def connectTb (meminfo : MemInfoRow) : List TbInfo → MemInfoRow
  | [] => meminfo
  | t :: ts =>
    if meminfo.ins > t.id ∧ meminfo.ins < t.id + t.size then { meminfo with tbid := t.id }
    else connectTb meminfo ts

def connectMeminfoTb (meminfolist : List MemInfoRow) (tblist : List TbInfo) : List MemInfoRow :=
  meminfolist.map fun meminfo => connectTb meminfo tblist

/-! ### The TB of an access -/

/-- The first TB of the list that contains the address. -/
def firstTb (address : ℕ) (tblist : List TbInfo) : Option TbInfo :=
  tblist.find? fun t => findInsnAddressesInTb address [t]

/-- The row of an access, with the first TB that contains its instruction. -/
def MemInfoRow.connected (meminfo : MemInfoRow) (tblist : List TbInfo) : MemInfoRow :=
  { meminfo with tbid := ((firstTb meminfo.ins tblist).map TbInfo.id).getD 0 }

variable {meminfo : MemInfoRow} {t : TbInfo} {ts tblist : List TbInfo}

theorem findInsnAddressesInTb_singleton {address : ℕ} :
    findInsnAddressesInTb address [t] = true ↔ t.id ≤ address ∧ address < t.id + t.size := by
  simp only [findInsnAddressesInTb, List.any_cons, List.any_nil, Bool.or_false, Bool.and_eq_true,
    decide_eq_true_eq, ge_iff_le, Nat.cast_le]
  exact and_congr_right fun _ => by exact_mod_cast Iff.rfl

/-- The loop keeps everything but the TB. -/
theorem connectTb_eq : connectTb meminfo tblist =
    { meminfo with tbid := (connectTb meminfo tblist).tbid } := by
  induction tblist with
  | nil => rfl
  | cons t ts ih =>
    rw [connectTb]
    split
    · rfl
    · exact ih

/-- An access is never connected to a TB that starts at its instruction. -/
theorem connectTb_tbid (htbid : meminfo.tbid = 0) :
    (connectTb meminfo tblist).tbid = 0 ∨ (connectTb meminfo tblist).tbid < meminfo.ins := by
  induction tblist with
  | nil => exact .inl htbid
  | cons t ts ih =>
    rw [connectTb]
    split
    · next h => exact .inr h.1
    · exact ih

/-- The row of an access is right iff its instruction is not the first one of its TB. -/
theorem connectTb_eq_connected_iff (htbid : meminfo.tbid = 0) :
    connectTb meminfo tblist = meminfo.connected tblist ↔
      ∀ t, firstTb meminfo.ins tblist = some t → t.id = meminfo.ins → meminfo.ins = 0 := by
  have htb : connectTb meminfo tblist = meminfo.connected tblist ↔
      (connectTb meminfo tblist).tbid = ((firstTb meminfo.ins tblist).map TbInfo.id).getD 0 := by
    constructor
    · intro h
      rw [h]
      rfl
    · intro h
      rw [connectTb_eq, h]
      rfl
  rw [htb]
  clear htb
  induction tblist with
  | nil => simpa [connectTb, firstTb] using htbid
  | cons t ts ih =>
    by_cases hin : t.id ≤ meminfo.ins ∧ meminfo.ins < t.id + t.size
    · have hfirst : firstTb meminfo.ins (t :: ts) = some t :=
        List.find?_cons_of_pos (findInsnAddressesInTb_singleton.mpr hin)
      rw [hfirst]
      rcases Nat.eq_or_lt_of_le hin.1 with hstart | hlater
      · -- the TB is passed over, and no later one can give its address
        have hother : (connectTb meminfo ts).tbid = 0 ∨ (connectTb meminfo ts).tbid < meminfo.ins :=
          connectTb_tbid htbid
        rw [connectTb, if_neg (by omega), Option.map_some, Option.getD_some]
        constructor
        · intro h u hu hid
          obtain rfl := Option.some.inj hu
          omega
        · intro h
          have := h t rfl hstart
          omega
      · rw [connectTb, if_pos ⟨hlater, hin.2⟩, Option.map_some, Option.getD_some]
        refine iff_of_true rfl fun u hu hid => ?_
        obtain rfl := Option.some.inj hu
        omega
    · have hfirst : firstTb meminfo.ins (t :: ts) = firstTb meminfo.ins ts :=
        List.find?_cons_of_neg (mt findInsnAddressesInTb_singleton.mp hin)
      rw [hfirst, connectTb, if_neg (by omega)]
      exact ih

/-- Every access gets the first TB that contains its instruction, and 0 if there is none, iff no
    access is by the first instruction of that TB, the one at address 0 apart. -/
theorem connectMeminfoTb_eq_iff (memInfos : List MemInfoMessage) (tblist : List TbInfo) :
    connectMeminfoTb (readoutMeminfo memInfos) tblist =
        (readoutMeminfo memInfos).map (fun m => m.connected tblist) ↔
      ∀ m ∈ memInfos, ∀ t, firstTb m.insAddress tblist = some t → t.id = m.insAddress →
        m.insAddress = 0 := by
  rw [connectMeminfoTb, List.map_inj_left, readoutMeminfo, List.forall_mem_map]
  exact forall₂_congr fun m _ => connectTb_eq_connected_iff rfl

/-- An access by the only instruction of a TB. -/
theorem connectMeminfoTb_single_insn :
    connectMeminfoTb (readoutMeminfo [⟨0x1000, 4, 0x2000, 0, 1⟩]) [⟨0x1000, 4, 1, 1, []⟩] ≠
      (readoutMeminfo [⟨0x1000, 4, 0x2000, 0, 1⟩]).map
        (fun m => m.connected [⟨0x1000, 4, 1, 1, []⟩]) := by
  decide

end Archie.Campaign
