import Archie.Lib.Growable
import Archie.Plugin.Collections

/-! The memory dumps of faultdata.c over a whole run.

    A vector of regions, each with a vector of buffers. Both have slots that are allocated and not in
    use, and both grow by one slot when the next one is missing:

        memdump   [ region 0 | region 1 | unused … ]      used_memdump, num_memdump
        buf       [ dump 0 | dump 1 | unused … ]          used_dumps, num_dumps

    `regions` says what the dump of all regions has to be: what each region saw at the reads that
    addressed it, from its insertion on. Allocations and reads succeed. -/

namespace Archie.Plugin

/-! ### The code -/

/-- Unused slots, and no region yet. -/
def State.initMemory (s : State) (numberOfRegions : ℕ) : State :=
  { s with memdump := some (List.replicate numberOfRegions ⟨0, 0, 0, 0, []⟩), usedMemdump := 0 }

def State.readAllMemory (s : State) : State :=
  (List.range s.usedMemdump).foldl State.readMemoryregion s

/-- The protobuf message of a region. -/
structure MemDumpInfo where
  address : ℕ
  len : ℕ
  dumps : List (List Byte)
  deriving DecidableEq

/-- The first `used_dumps` buffers. -/
def Memorydump.readout (m : Memorydump) : MemDumpInfo := ⟨m.address, m.len, m.buf.take m.usedDumps⟩

def State.readoutAllMemorydump (s : State) : List MemDumpInfo :=
  (List.range s.usedMemdump).filterMap fun i => ((s.memdump.getD [])[i]?).map Memorydump.readout

/-- What happens to the regions; in between the guest runs and changes its memory. -/
inductive MemCall where
  | insert (baseaddress len : ℕ)
  | readSpecific (baseaddress : ℕ)
  | readAll
  | guest (cpu : Cpu)

def State.memCall (s : State) : MemCall → State
  | .insert baseaddress len => s.insertMemorydumpConfig baseaddress len
  | .readSpecific baseaddress => s.readSpecificMemoryregion baseaddress
  | .readAll => s.readAllMemory
  | .guest cpu => { s with cpu }

/-! ### The purpose -/

/-- What a region sees from here on: its bytes at each read that addresses it. -/
def snapshots (address len : ℕ) : Cpu → List MemCall → List (List Byte)
  | _, [] => []
  | cpu, .insert _ _ :: calls => snapshots address len cpu calls
  | cpu, .readSpecific baseaddress :: calls =>
    if address = baseaddress then cpu.read address len :: snapshots address len cpu calls
    else snapshots address len cpu calls
  | cpu, .readAll :: calls => cpu.read address len :: snapshots address len cpu calls
  | _, .guest cpu :: calls => snapshots address len cpu calls

/-- The regions in the order of their insertion, each with what it sees from there on. -/
def regions : Cpu → List MemCall → List MemDumpInfo
  | _, [] => []
  | cpu, .insert baseaddress len :: calls =>
    ⟨baseaddress, len, snapshots baseaddress len cpu calls⟩ :: regions cpu calls
  | _, .guest cpu :: calls => regions cpu calls
  | cpu, .readSpecific _ :: calls => regions cpu calls
  | cpu, .readAll :: calls => regions cpu calls

/-- A region sees its bytes. -/
def MemDumpInfo.snapshot (cpu : Cpu) (r : MemDumpInfo) : MemDumpInfo :=
  { r with dumps := r.dumps ++ [cpu.read r.address r.len] }

/-- Is the region addressed by the read? -/
def MemDumpInfo.seen (cpu : Cpu) (baseaddress : ℕ) (r : MemDumpInfo) : MemDumpInfo :=
  if r.address = baseaddress then r.snapshot cpu else r

/-! ### One call -/

/-- The buffers in use hold the dumps of the message. -/
structure Memorydump.Shows (m : Memorydump) (r : MemDumpInfo) : Prop where
  address : m.address = r.address
  len : m.len = r.len
  room : m.numDumps = m.buf.length
  used : m.usedDumps = r.dumps.length
  le : m.usedDumps ≤ m.numDumps
  dumps : m.buf.take m.usedDumps = r.dumps

theorem Memorydump.Shows.readout {m : Memorydump} {r : MemDumpInfo} (h : m.Shows r) : m.readout = r := by
  rw [Memorydump.readout, h.address, h.len, h.dumps]

theorem Memorydump.record_eq {m : Memorydump} (h : m.numDumps = m.buf.length) (dump : List Byte) :
    m.record dump =
      { address := m.address
        len := m.len
        numDumps := (Growable.grow (List.replicate m.len 0) m.usedDumps m.buf).length
        usedDumps := m.usedDumps + 1
        buf := (Growable.grow (List.replicate m.len 0) m.usedDumps m.buf).modify m.usedDumps fun _ => dump } := by
  rw [record, Growable.length_grow, Growable.grow, ← List.set_eq_modify, ← h]
  split <;> rfl

theorem Memorydump.Shows.record {m : Memorydump} {r : MemDumpInfo} (h : m.Shows r) (cpu : Cpu) :
    (m.record (cpu.read m.address m.len)).Shows (r.snapshot cpu) := by
  obtain ⟨haddress, hlen, hroom, hused, hle, hdumps⟩ := h
  obtain ⟨_, -, htake, -⟩ := Growable.exists_modify_grow (List.replicate m.len 0)
    (fun _ => cpu.read m.address m.len) (hroom ▸ hle)
  have hlt : m.usedDumps < (Growable.grow (List.replicate m.len 0) m.usedDumps m.buf).length := by
    rw [Growable.length_grow, ← hroom]
    split <;> omega
  rw [Memorydump.record_eq hroom]
  exact {
    address := haddress
    len := hlen
    room := (List.length_modify ..).symm
    used := by rw [MemDumpInfo.snapshot, List.length_append, List.length_singleton, hused]
    le := hlt
    dumps := by rw [htake, hdumps, haddress, hlen]; rfl }

/-! ### The vector of regions -/

/-- The slots in use show the messages, the others are as they were made. -/
structure Refines (s : State) (cpu : Cpu) (infos : List MemDumpInfo) : Prop where
  cpu : s.cpu = cpu
  used : s.usedMemdump = infos.length
  slots : ∃ memdump, s.memdump = some memdump ∧
    List.Forall₂ Memorydump.Shows (memdump.take infos.length) infos ∧
    ∀ m ∈ memdump.drop infos.length, m.usedDumps = 0

namespace Refines

variable {s : State} {cpu : Cpu} {infos : List MemDumpInfo}

theorem initMemory (s : State) (numberOfRegions : ℕ) : Refines (s.initMemory numberOfRegions) s.cpu [] where
  cpu := rfl
  used := rfl
  slots := ⟨_, rfl, .nil, fun m hm => by rw [List.eq_of_mem_replicate (List.mem_of_mem_drop hm)]⟩

theorem readoutAllMemorydump (h : Refines s cpu infos) : s.readoutAllMemorydump = infos := by
  obtain ⟨-, hused, memdump, hmemdump, hshows, -⟩ := h
  have hmap : ∀ {ms : List Memorydump} {rs : List MemDumpInfo}, List.Forall₂ Memorydump.Shows ms rs →
      ms.map Memorydump.readout = rs := by
    intro ms rs h
    induction h with
    | nil => rfl
    | cons hm _ ih => rw [List.map_cons, hm.readout, ih]
  rw [State.readoutAllMemorydump, hmemdump, Option.getD_some, Growable.filterMap_range, hused, hmap hshows]

theorem guest (h : Refines s cpu infos) (cpu' : Cpu) : Refines { s with cpu := cpu' } cpu' infos :=
  ⟨rfl, h.used, h.slots⟩

theorem insert (h : Refines s cpu infos) (baseaddress len : ℕ) :
    Refines (s.insertMemorydumpConfig baseaddress len) cpu (infos ++ [⟨baseaddress, len, []⟩]) := by
  obtain ⟨hcpu, hused, memdump, hmemdump, hshows, hfresh⟩ := h
  have hle : infos.length ≤ memdump.length := by
    have := hshows.length_eq
    rw [List.length_take] at this
    omega
  obtain ⟨x, hx, htake, hdrop⟩ := Growable.exists_modify_grow (⟨0, 0, 0, 0, []⟩ : Memorydump)
    (fun m => ⟨baseaddress, len, 1, m.usedDumps, [List.replicate len 0]⟩) hle
  -- a slot that is used for the first time has no dumps
  have hused0 : x.usedDumps = 0 := by
    rcases hx with rfl | hx
    · rfl
    · exact hfresh x hx
  have hnew : List.Forall₂ Memorydump.Shows
      [⟨baseaddress, len, 1, x.usedDumps, [List.replicate len 0]⟩] [⟨baseaddress, len, []⟩] :=
    .cons ⟨rfl, rfl, rfl, hused0, hused0 ▸ Nat.zero_le 1, by rw [hused0]; rfl⟩ .nil
  have hfill : s.insertMemorydumpConfig baseaddress len = { s with
      memdump := some ((Growable.grow ⟨0, 0, 0, 0, []⟩ infos.length memdump).modify infos.length fun m =>
        ⟨baseaddress, len, 1, m.usedDumps, [List.replicate len 0]⟩)
      usedMemdump := infos.length + 1 } := by
    rw [State.insertMemorydumpConfig, hmemdump, hused]
    rfl
  rw [hfill]
  refine ⟨hcpu, by rw [List.length_append]; rfl, _, rfl, ?_, ?_⟩
  · rw [List.length_append, List.length_singleton, htake]
    exact List.rel_append hshows hnew
  · rw [List.length_append, List.length_singleton]
    exact fun m hm => hfresh m (hdrop m hm)

/-- One region sees its bytes. -/
theorem readMemoryregion (h : Refines s cpu infos) (position : ℕ) (hlt : position < infos.length) :
    Refines (s.readMemoryregion position) cpu (infos.modify position (MemDumpInfo.snapshot cpu)) := by
  obtain ⟨hcpu, hused, memdump, hmemdump, hshows, hfresh⟩ := h
  refine ⟨hcpu, by rw [List.length_modify]; exact hused, memdump.modify position fun m =>
    m.record (cpu.read m.address m.len), ?_, ?_, ?_⟩
  · rw [State.readMemoryregion, hmemdump, hcpu]
    rfl
  · rw [List.length_modify, List.take_modify]
    exact Growable.forall₂_modify (fun m r hm => hm.record cpu) hshows position
  · rw [List.length_modify, List.drop_modify_of_lt _ _ _ _ hlt]
    exact hfresh

theorem slot (h : Refines s cpu infos) {i : ℕ} (hi : i < infos.length) :
    ∃ m, (s.memdump.getD [])[i]? = some m ∧ m.Shows infos[i] := by
  obtain ⟨-, -, memdump, hmemdump, hshows, -⟩ := h
  have hlen : i < (memdump.take infos.length).length := by rw [hshows.length_eq]; exact hi
  refine ⟨_, ?_, hshows.get hlen hi⟩
  rw [hmemdump, Option.getD_some, List.get_eq_getElem, List.getElem_take]
  exact List.getElem?_eq_getElem _

/-- A loop over the regions that changes one after the other. -/
theorem foldl {step : State → ℕ → State} {f : MemDumpInfo → MemDumpInfo}
    (hstep : ∀ {s infos} (i : ℕ), Refines s cpu infos → i < infos.length →
      Refines (step s i) cpu (infos.modify i f)) (h : Refines s cpu infos) :
    Refines ((List.range s.usedMemdump).foldl step s) cpu (infos.map f) := by
  have hprefix : ∀ n ≤ infos.length, Refines ((List.range n).foldl step s) cpu
      ((List.range n).foldl (fun l i => l.modify i f) infos) := by
    intro n
    induction n with
    | zero => exact fun _ => h
    | succ n ih =>
      intro hn
      rw [List.range_succ, List.foldl_append, List.foldl_append]
      refine hstep n (ih (by omega)) ?_
      rw [Growable.foldl_modify_range f infos n (by omega), List.length_append, List.length_map,
        List.length_take, List.length_drop]
      omega
  have hall := hprefix infos.length le_rfl
  rw [Growable.foldl_modify_range f infos _ le_rfl, List.take_length, List.drop_length,
    List.append_nil] at hall
  rw [h.used]
  exact hall

theorem readAllMemory (h : Refines s cpu infos) :
    Refines s.readAllMemory cpu (infos.map (MemDumpInfo.snapshot cpu)) :=
  h.foldl fun i h hi => h.readMemoryregion i hi

theorem readSpecificMemoryregion (h : Refines s cpu infos) (baseaddress : ℕ) :
    Refines (s.readSpecificMemoryregion baseaddress) cpu (infos.map (MemDumpInfo.seen cpu baseaddress)) := by
  refine h.foldl fun {s infos} i h hi => ?_
  obtain ⟨m, hm, hshows⟩ := h.slot hi
  have hmodify : ∀ g : MemDumpInfo → MemDumpInfo, infos[i].seen cpu baseaddress = g infos[i] →
      infos.modify i (MemDumpInfo.seen cpu baseaddress) = infos.modify i g := by
    intro g hg
    rw [List.modify_eq_take_cons_drop hi, List.modify_eq_take_cons_drop hi, hg]
  rw [hm]
  dsimp only
  by_cases haddress : m.address = baseaddress
  · rw [if_pos haddress, hmodify _ (if_pos (hshows.address.symm.trans haddress))]
    exact h.readMemoryregion i hi
  · rw [if_neg haddress, hmodify id (if_neg fun he => haddress (hshows.address.trans he)), List.modify_id]
    exact h

end Refines

/-! ### All calls -/

/-- The regions that there are see their bytes, those inserted later are added. -/
theorem Refines.run {s : State} {cpu : Cpu} {infos : List MemDumpInfo} (h : Refines s cpu infos)
    (calls : List MemCall) : (calls.foldl State.memCall s).readoutAllMemorydump
      = infos.map (fun r => { r with dumps := r.dumps ++ snapshots r.address r.len cpu calls })
        ++ regions cpu calls := by
  induction calls generalizing s cpu infos with
  | nil =>
    rw [List.foldl_nil, h.readoutAllMemorydump, regions, List.append_nil]
    simp [snapshots]
  | cons call calls ih =>
    rw [List.foldl_cons]
    cases call with
    | insert baseaddress len =>
      rw [State.memCall, ih (h.insert baseaddress len), List.map_append, List.append_assoc]
      rfl
    | readSpecific baseaddress =>
      rw [State.memCall, ih (h.readSpecificMemoryregion baseaddress), List.map_map, regions]
      congr 1
      refine List.map_congr_left fun r _ => ?_
      rw [Function.comp_apply, MemDumpInfo.seen, snapshots]
      split
      · simp [MemDumpInfo.snapshot]
      · rfl
    | readAll =>
      rw [State.memCall, ih h.readAllMemory, List.map_map, regions]
      congr 1
      refine List.map_congr_left fun r _ => ?_
      simp [MemDumpInfo.snapshot, snapshots]
    | guest cpu' => exact ih (h.guest cpu')

theorem readoutAllMemorydump_run (s : State) (numberOfRegions : ℕ) (calls : List MemCall) :
    (calls.foldl State.memCall (s.initMemory numberOfRegions)).readoutAllMemorydump = regions s.cpu calls :=
  (Refines.initMemory s numberOfRegions).run calls

/-! ### Regions at one address -/

/-- A region inserted later has seen the last of what one inserted before has seen. -/
theorem dumps_suffix_snapshots {cpu : Cpu} {calls : List MemCall} {r : MemDumpInfo}
    (h : r ∈ regions cpu calls) : r.dumps <:+ snapshots r.address r.len cpu calls := by
  induction calls generalizing cpu with
  | nil => exact absurd h List.not_mem_nil
  | cons call calls ih =>
    cases call with
    | insert baseaddress len =>
      rcases List.mem_cons.mp h with rfl | h
      · exact List.suffix_rfl
      · exact ih h
    | readSpecific baseaddress =>
      rw [snapshots]
      split
      · exact (ih h).trans (List.suffix_cons _ _)
      · exact ih h
    | readAll => exact (ih h).trans (List.suffix_cons _ _)
    | guest cpu' => exact ih h

/-- As many dumps of the same bytes are the same dumps. -/
theorem dumps_eq {cpu : Cpu} {calls : List MemCall} {r r' : MemDumpInfo} (h : r ∈ regions cpu calls)
    (h' : r' ∈ regions cpu calls) (haddress : r.address = r'.address) (hlen : r.len = r'.len)
    (hcount : r.dumps.length = r'.dumps.length) : r.dumps = r'.dumps := by
  have hr := dumps_suffix_snapshots h
  have hr' := dumps_suffix_snapshots h'
  rw [haddress, hlen] at hr
  exact (List.suffix_of_suffix_length_le hr hr' hcount.le).eq_of_length hcount

end Archie.Plugin
