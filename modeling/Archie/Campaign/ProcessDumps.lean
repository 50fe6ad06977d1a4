import Archie.Lib.Decimal
import Archie.Lib.Hexadecimal
import Archie.Lib.Keyed
import Archie.Campaign.Logger
import Archie.Plugin.Memorydump

/-! The memory dumps on their way into the file: readout_memdump, then process_dumps.

    The array of a region is named by its address, its length and the number of its dumps, and only the
    first array of a name is created:

        location_80001000_16_2        a second region with these numbers is skipped

    Nothing is lost as long as regions with these numbers hold the same dumps. -/

namespace Archie.Campaign
open Python
open Plugin (State MemDumpInfo MemCall regions dumps_eq)

/-- An entry of `memdumplist`. -/
structure Memdump where
  address : ℕ
  len : ℕ
  numdumps : ℕ
  dumps : List (List ℕ)
  deriving DecidableEq

def memdumpdict (m : MemDumpInfo) : Memdump where
  address := m.address
  len := m.len
  numdumps := (m.dumps.map fun dump => dump.map BitVec.toNat).length
  dumps := m.dumps.map fun dump => dump.map BitVec.toNat

def readoutMemdump (memDumpInfos : List MemDumpInfo) : List Memdump :=
  memDumpInfos.map memdumpdict

/-- `"location_{:08x}_{:d}_{:d}"` -/
def dumpName (address len numdumps : ℕ) : Text :=
  "location".toList ++ '_' :: (Hexadecimal.formatHex 8 address ++ '_' :: (strInt len ++ '_' ::
    strInt numdumps))

def Memdump.name (m : Memdump) : Text := dumpName m.address m.len m.numdumps

/-- The dumps whose arrays are created beside the children that the group has. -/
def newArrays : List Text → List Memdump → List Memdump
  | _, [] => []
  | children, m :: memdumplist =>
    if children.any fun child => child = m.name then newArrays children memdumplist
    else m :: newArrays (m.name :: children) memdumplist

/-- What `process_dumps` writes; the table of the group is there already. -/
def storedDumps (memdumplist : List Memdump) : List Memdump := newArrays ["memdumps".toList] memdumplist

/-! ### Names -/

theorem dumpName_inj {address len numdumps address' len' numdumps' : ℕ}
    (h : dumpName address len numdumps = dumpName address' len' numdumps') :
    address = address' ∧ len = len' ∧ numdumps = numdumps' := by
  have hhex : ∀ n, ∀ c ∈ Hexadecimal.formatHex 8 n, c ≠ '_' := by
    rintro n c hc rfl
    rw [Hexadecimal.formatHex, List.mem_append] at hc
    rcases hc with hc | hc
    · exact absurd (List.eq_of_mem_replicate hc) (by decide)
    · exact Hexadecimal.not_mem_toDigits (by decide) n hc
  have hdec : ∀ n : ℕ, ∀ c ∈ strInt n, c ≠ '_' := by
    rintro n c hc rfl
    exact absurd (Decimal.isNumeral_strInt hc) (by unfold Decimal.IsNumeral; decide)
  obtain ⟨-, hrest⟩ := List.cons.inj (List.append_cancel_left h)
  obtain ⟨haddress, -, hrest⟩ := Decimal.append_cons_inj (p := (· ≠ '_')) (hhex _) (hhex _)
    (not_not.mpr rfl) (not_not.mpr rfl) hrest
  obtain ⟨hlen, -, hnum⟩ := Decimal.append_cons_inj (p := (· ≠ '_')) (hdec _) (hdec _)
    (not_not.mpr rfl) (not_not.mpr rfl) hrest
  exact ⟨Hexadecimal.formatHex_inj haddress, Decimal.strInt_natCast_inj hlen,
    Decimal.strInt_natCast_inj hnum⟩

/-- No array is taken for the table. -/
theorem Memdump.name_ne (m : Memdump) : m.name ≠ "memdumps".toList := by
  intro h
  exact absurd (List.cons.inj h).1 (by decide)

theorem newArrays_known {m : Memdump} {children : List Text} (h : m.name ∈ children)
    (memdumplist : List Memdump) : newArrays children (m :: memdumplist) = newArrays children memdumplist :=
  if_pos (List.any_eq_true.mpr ⟨m.name, h, decide_eq_true rfl⟩)

theorem newArrays_new {m : Memdump} {children : List Text} (h : m.name ∉ children)
    (memdumplist : List Memdump) :
    newArrays children (m :: memdumplist) = m :: newArrays (m.name :: children) memdumplist := by
  refine if_neg fun hany => h ?_
  obtain ⟨child, hchild, heq⟩ := List.any_eq_true.mp hany
  exact of_decide_eq_true heq ▸ hchild

/-- Every dump has its array, or one that was created before under its name. -/
theorem exists_newArrays {m : Memdump} : ∀ {children : List Text} {memdumplist : List Memdump},
    m ∈ memdumplist → m.name ∉ children → ∃ m' ∈ newArrays children memdumplist, m'.name = m.name
  | children, n :: memdumplist, hm, hchild => by
    rcases List.mem_cons.mp hm with rfl | hm
    · rw [newArrays_new hchild]
      exact ⟨m, List.mem_cons_self, rfl⟩
    · by_cases hn : n.name ∈ children
      · rw [newArrays_known hn]
        exact exists_newArrays hm hchild
      · rw [newArrays_new hn]
        by_cases hname : n.name = m.name
        · exact ⟨n, List.mem_cons_self, hname⟩
        · have hfresh : m.name ∉ n.name :: children := by
            simpa [hchild] using fun h => hname h.symm
          obtain ⟨m', hm', he⟩ := exists_newArrays hm hfresh
          exact ⟨m', List.mem_cons_of_mem n hm', he⟩

theorem newArrays_sublist : ∀ {children : List Text} {memdumplist : List Memdump},
    (newArrays children memdumplist).Sublist memdumplist
  | _, [] => .slnil
  | children, m :: memdumplist => by
    by_cases hm : m.name ∈ children
    · rw [newArrays_known hm]
      exact newArrays_sublist.cons m
    · rw [newArrays_new hm]
      exact newArrays_sublist.cons_cons m

/-- No two arrays have one name. -/
theorem nodup_newArrays : ∀ {children : List Text} {memdumplist : List Memdump},
    ((newArrays children memdumplist).map Memdump.name).Nodup ∧
      ∀ m ∈ newArrays children memdumplist, m.name ∉ children
  | _, [] => ⟨List.nodup_nil, by simp [newArrays]⟩
  | children, m :: memdumplist => by
    by_cases hm : m.name ∈ children
    · rw [newArrays_known hm]
      exact nodup_newArrays
    · rw [newArrays_new hm]
      obtain ⟨hnodup, hnot⟩ := @nodup_newArrays (m.name :: children) memdumplist
      constructor
      · rw [List.map_cons, List.nodup_cons]
        refine ⟨fun hmem => ?_, hnodup⟩
        obtain ⟨m', hm', he⟩ := List.mem_map.mp hmem
        exact hnot m' hm' (he ▸ List.mem_cons_self)
      · intro m' hm'
        rcases List.mem_cons.mp hm' with rfl | hm'
        · exact hm
        · exact fun hc => hnot m' hm' (List.mem_cons_of_mem _ hc)

/-- Nothing is lost where a name stands for one dump. -/
theorem subset_storedDumps_iff {memdumplist : List Memdump} :
    memdumplist ⊆ storedDumps memdumplist ↔
      ∀ m ∈ memdumplist, ∀ m' ∈ memdumplist, m.name = m'.name → m = m' := by
  constructor
  · intro h m hm m' hm' hname
    exact Keyed.eq_of_key nodup_newArrays.1 (h hm) (h hm') hname
  · intro h m hm
    obtain ⟨m', hm', hname⟩ := exists_newArrays hm
      (show m.name ∉ ["memdumps".toList] from fun hc => m.name_ne (List.mem_singleton.mp hc))
    rwa [← h m' (newArrays_sublist.subset hm') m hm hname]

/-- The row of the table, the array with it. -/
def Memdump.row (m : Memdump) : Row := ⟨[m.address, m.len, m.numdumps], [], m.dumps⟩

theorem Memdump.name_eq_iff {m m' : Memdump} : m.name = m'.name ↔ m.row.cells = m'.row.cells := by
  have hcells : m.row.cells = m'.row.cells ↔
      m.address = m'.address ∧ m.len = m'.len ∧ m.numdumps = m'.numdumps := by
    simp [Memdump.row]
  rw [hcells]
  refine ⟨dumpName_inj, ?_⟩
  rintro ⟨haddress, hlen, hnum⟩
  rw [Memdump.name, haddress, hlen, hnum]
  rfl

theorem newDumps_row : ∀ (children : List Text) (names : List (List Int)) (memdumplist : List Memdump),
    (∀ m : Memdump, m.name ∈ children ↔ m.row.cells ∈ names) →
      Hdf5.newDumps names (memdumplist.map Memdump.row) = (newArrays children memdumplist).map Memdump.row
  | _, _, [], _ => rfl
  | children, names, m :: memdumplist, h => by
    have htake : m.row.cells.take 3 = m.row.cells := rfl
    rw [List.map_cons, Hdf5.newDumps, htake]
    by_cases hm : m.name ∈ children
    · rw [newArrays_known hm, if_pos ((h m).mp hm)]
      exact newDumps_row children names memdumplist h
    · rw [newArrays_new hm, if_neg (mt (h m).mpr hm), List.map_cons]
      refine congrArg (m.row :: ·) (newDumps_row _ _ memdumplist fun m' => ?_)
      rw [List.mem_cons, List.mem_cons, Memdump.name_eq_iff, h m']

/-- The names are texts here and numbers where the queue is modelled. -/
theorem newDumps_eq_storedDumps (memdumplist : List Memdump) :
    Hdf5.newDumps [] (memdumplist.map Memdump.row) = (storedDumps memdumplist).map Memdump.row := by
  have hnames : ∀ m : Memdump, m.name ∈ ["memdumps".toList] ↔ m.row.cells ∈ ([] : List (List Int)) := by
    intro m
    rw [List.mem_singleton]
    exact ⟨fun h => absurd h m.name_ne, fun h => absurd h List.not_mem_nil⟩
  exact newDumps_row ["memdumps".toList] [] memdumplist hnames

/-! ### QEMU -/

/-- The regions that the plugin reports after some calls. -/
def reportedRegions (s : State) (numberOfRegions : ℕ) (calls : List MemCall) : List MemDumpInfo :=
  (calls.foldl State.memCall (s.initMemory numberOfRegions)).readoutAllMemorydump

theorem reportedRegions_eq (s : State) (numberOfRegions : ℕ) (calls : List MemCall) :
    reportedRegions s numberOfRegions calls = regions s.cpu calls :=
  Plugin.readoutAllMemorydump_run s numberOfRegions calls

theorem name_readoutMemdump_inj {s : State} {numberOfRegions : ℕ} {calls : List MemCall}
    {m m' : Memdump} (hm : m ∈ readoutMemdump (reportedRegions s numberOfRegions calls))
    (hm' : m' ∈ readoutMemdump (reportedRegions s numberOfRegions calls)) (hname : m.name = m'.name) :
    m = m' := by
  rw [readoutMemdump, reportedRegions_eq] at hm hm'
  obtain ⟨r, hr, rfl⟩ := List.mem_map.mp hm
  obtain ⟨r', hr', rfl⟩ := List.mem_map.mp hm'
  obtain ⟨haddress, hlen, hnum⟩ := dumpName_inj hname
  have hcount : r.dumps.length = r'.dumps.length := by
    simpa only [memdumpdict, List.length_map] using hnum
  have hdumps := dumps_eq hr hr' haddress hlen hcount
  rw [memdumpdict, memdumpdict, show r.address = r'.address from haddress, show r.len = r'.len from hlen,
    hdumps]

/-- A region as `readout_memdump` is to keep it: its numbers and the bytes of each dump. -/
structure Keeps (r : MemDumpInfo) (m : Memdump) : Prop where
  address : m.address = r.address
  len : m.len = r.len
  numdumps : m.numdumps = r.dumps.length
  dumps : m.dumps = r.dumps.map fun dump => dump.map BitVec.toNat

theorem keeps_readoutMemdump (memDumpInfos : List MemDumpInfo) :
    List.Forall₂ Keeps memDumpInfos (readoutMemdump memDumpInfos) :=
  List.forall₂_map_right_iff.mpr (List.forall₂_same.mpr fun _ _ => ⟨rfl, rfl, List.length_map _, rfl⟩)

/-- The regions are reported in order with all they have seen, each of them arrives, and none of it is
    lost in the file. -/
theorem memdumps_complete (s : State) (numberOfRegions : ℕ) (calls : List MemCall) :
    reportedRegions s numberOfRegions calls = regions s.cpu calls ∧
    (∀ r ∈ reportedRegions s numberOfRegions calls, ∀ r' ∈ reportedRegions s numberOfRegions calls,
      r.address = r'.address → r.len = r'.len → r.dumps.length = r'.dumps.length → r.dumps = r'.dumps) ∧
    List.Forall₂ Keeps (reportedRegions s numberOfRegions calls)
      (readoutMemdump (reportedRegions s numberOfRegions calls)) ∧
    readoutMemdump (reportedRegions s numberOfRegions calls)
      ⊆ storedDumps (readoutMemdump (reportedRegions s numberOfRegions calls)) := by
  refine ⟨reportedRegions_eq s numberOfRegions calls, ?_, keeps_readoutMemdump _, ?_⟩
  · rw [reportedRegions_eq]
    exact fun r hr r' hr' => dumps_eq hr hr'
  · exact subset_storedDumps_iff.mpr fun m hm m' hm' => name_readoutMemdump_inj hm hm'

end Archie.Campaign
