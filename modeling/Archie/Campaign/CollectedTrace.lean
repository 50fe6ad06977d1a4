import Archie.Campaign.WorkerResults
import Archie.Plugin.MaxTb
import Archie.Plugin.TbInfo

/-! From the executed TBs to the tables of the golden run.

        executed TBs ──callbacks──▶ structs, list ──dump──▶ message ──readout_data──▶ tbinfo, tbexec
             │                                                                          │
             └───────────────── instruction by instruction, the same trace ─────────────┘

    The trigger search relies on `GoldenTrace`: here it is what the plugin collects, under what QEMU
    guarantees of the blocks that it translates.                                                    -/

namespace Archie.Campaign
open Python
open Plugin (Tb Insn TbEvent TbInfoT TbInfos TbMachine ExecOrder TbCounter readoutControlQemu tbExecEndMaxEvent)
open FirstStop

/-- The message of a struct. -/
def tbInformation (t : TbInfoT) : TbInformation where
  baseAddress := t.baseAddress
  size := t.size
  instructionCount := t.instructionCount
  numOfExec := t.numOfExec
  assembler := t.assembler

def tbExecOrder (e : ExecOrder.Message) : TbExec := ⟨e.tbBaseAddress, e.pos⟩

/-- The tables that `run_goldenrun` gets of a run, `none` where the plugin fails. -/
def goldenTables (m : TbMachine) : Option (List TbExec × List TbInfo) := do
  let informations ← m.infos.pluginDumpTbInformation
  let orders ← m.order.pluginDumpTbExecOrder
  (readoutTbexec none false (orders.tbExecOrders.map tbExecOrder)
    (readoutTbinfo (informations.map tbInformation))).toOption

/-- What QEMU guarantees of the TBs of one run, while nothing changes the code. -/
structure Coherent (tbs : List Tb) : Prop where
  printable : ∀ tb ∈ tbs, ∀ i ∈ tb.insns, Printable i.disas
  oneInsn : ∀ tb ∈ tbs, ∀ u ∈ tbs, ∀ i ∈ tb.insns, ∀ j ∈ u.insns, ∀ address : ℕ,
    i.Contains address → j.Contains address → i.vaddr = j.vaddr
  sameEnd : ∀ tb ∈ tbs, ∀ u ∈ tbs, ∀ i ∈ tb.insns, ∀ j ∈ u.insns, i.vaddr = j.vaddr →
    tb.vaddr + tb.bytesize = u.vaddr + u.bytesize

/-! ### Blocks -/

variable {tbs : List Tb} {tb u : Tb}

theorem exists_insn_contains {address : ℕ} (hlo : tb.vaddr ≤ address) (hhi : address < tb.vaddr + tb.bytesize) :
    ∃ i ∈ tb.insns, i.Contains address := by
  refine exists_contains tb.nonempty tb.contiguous hlo ?_
  have hle := tb.vaddr_le (List.getLast_mem tb.nonempty)
  rw [Plugin.Tb.bytesize] at hhi
  omega

/-- One block starts at an instruction of the other, and they end together: it is the end of it. -/
theorem Coherent.subset (h : Coherent tbs) (htb : tb ∈ tbs) (hu : u ∈ tbs) (hsame : tb.vaddr = u.vaddr) :
    tb.insns.map Insn.vaddr ⊆ u.insns.map Insn.vaddr := by
  intro address haddress
  obtain ⟨i, hi, rfl⟩ := List.mem_map.mp haddress
  have hend := h.sameEnd tb htb u hu _ (List.head_mem tb.nonempty) _ (List.head_mem u.nonempty) hsame
  have hself : i.Contains i.vaddr := ⟨le_rfl, Nat.lt_add_of_pos_right (tb.sized i hi)⟩
  obtain ⟨hlo, hhi⟩ := tb.contains_range hi hself
  obtain ⟨j, hj, hcont⟩ := exists_insn_contains (hsame ▸ hlo : u.vaddr ≤ i.vaddr) (hend ▸ hhi)
  exact List.mem_map.mpr ⟨j, hj, (h.oneInsn tb htb u hu i hi j hj i.vaddr hself hcont).symm⟩

/-- Blocks at one address have the same instructions. -/
theorem Coherent.insns_eq (h : Coherent tbs) (htb : tb ∈ tbs) (hu : u ∈ tbs) (hsame : tb.vaddr = u.vaddr) :
    tb.insns.map Insn.vaddr = u.insns.map Insn.vaddr := by
  have hsub := h.subset htb hu hsame
  have hsup := h.subset hu htb hsame.symm
  have hperm : (tb.insns.map Insn.vaddr).Perm (u.insns.map Insn.vaddr) :=
    (List.perm_ext_iff_of_nodup ((ascending_vaddr tb).imp fun hlt => Nat.ne_of_lt hlt)
      ((ascending_vaddr u).imp fun hlt => Nat.ne_of_lt hlt)).mpr fun _ => ⟨fun ha => hsub ha, fun ha => hsup ha⟩
  exact hperm.eq_of_pairwise' (ascending_vaddr tb) (ascending_vaddr u)

/-- The instructions that contain a byte are those at one address. -/
theorem Coherent.contains_iff (h : Coherent tbs) (htb : tb ∈ tbs) (hu : u ∈ tbs) {i j : Insn}
    (hi : i ∈ tb.insns) (hj : j ∈ u.insns) {address : ℕ} (hcont : i.Contains address) :
    j.Contains address ↔ j.vaddr = i.vaddr := by
  refine ⟨fun hjc => h.oneInsn u hu tb htb j hj i hi address hjc hcont, fun hsame => ?_⟩
  have hend := h.sameEnd u hu tb htb j hj i hi hsame
  obtain ⟨-, hhi⟩ := tb.contains_range hi hcont
  obtain ⟨z, hz, hzc⟩ := exists_insn_contains
    ((u.vaddr_le hj).trans (hsame ▸ hcont.1) : u.vaddr ≤ address) (hend ▸ hhi)
  have hzj : z.vaddr = j.vaddr := (h.oneInsn u hu tb htb z hz i hi address hzc hcont).trans hsame.symm
  have hnodup : (u.insns.map Insn.vaddr).Nodup := (ascending_vaddr u).imp fun hlt => Nat.ne_of_lt hlt
  exact List.inj_on_of_nodup_map hnodup hz hj hzj ▸ hzc

/-- The instruction that covers a byte contains it. -/
theorem contains_of_covers {numOfExec ins : ℕ} {address : Int} (hprintable : ∀ i ∈ tb.insns, Printable i.disas)
    (hcovers : (addTbInfo tb numOfExec).row.Covers ins address) :
    ∃ i ∈ tb.insns, i.vaddr = ins ∧ i.Contains address.toNat := by
  obtain ⟨hmem, hstart, hinside, hnext⟩ := hcovers
  rw [insns_row hprintable] at hmem hnext
  obtain ⟨i, hi, rfl⟩ := List.mem_map.mp hmem
  have hrow : address < tb.vaddr + tb.bytesize := hinside
  have hlo : tb.vaddr ≤ address.toNat := (tb.vaddr_le hi).trans (by omega)
  obtain ⟨j, hj, hcont⟩ := exists_insn_contains hlo (by omega)
  obtain ⟨hlo, hhi⟩ := hcont
  rcases lt_trichotomy i.vaddr j.vaddr with hlt | heq | hgt
  · have := hnext j.vaddr (List.mem_map_of_mem hj) hlt
    omega
  · exact ⟨j, hj, heq.symm, hlo, hhi⟩
  · have := end_le_of_lt hj hi hgt
    omega

/-! ### The tables -/

/-- The row of the block that was translated first at an address. -/
def row (executed : List Tb) (tb : Tb) : TbInfo := (tbInformation (TbInfos.ofTb executed tb)).row

/-- The message of a block in the tree is the one that is read back in AsmText.lean. -/
theorem row_eq (executed : List Tb) (tb : Tb) :
    row executed tb = (addTbInfo tb (TbInfos.ofTb executed tb).numOfExec).row := rfl

/-- The rows of the blocks that were translated. -/
def rows (m : TbMachine) : List TbInfo :=
  ((Keyed.firsts Tb.vaddr (m.translated.map Plugin.TbTranslation.tb)).map (row m.executed)).reverse

def trace (m : TbMachine) : List TbExec := m.executed.mapIdx fun pos e => ⟨e.vaddr, pos⟩

theorem pairwise_trace (m : TbMachine) : (trace m).Pairwise fun a b => a.pos ≤ b.pos := by
  refine List.pairwise_iff_getElem.mpr fun i j hi hj hij => ?_
  simp only [trace, List.getElem_mapIdx]
  exact hij.le

variable {m : TbMachine}

theorem mem_rows {t : TbInfo} (ht : t ∈ rows m) :
    ∃ tb ∈ m.translated.map Plugin.TbTranslation.tb, row m.executed tb = t := by
  obtain ⟨tb, htb, rfl⟩ := List.mem_map.mp (List.mem_reverse.mp ht)
  exact ⟨tb, Keyed.mem_of_mem_firsts htb, rfl⟩

theorem goldenTables_eq (h : m.Collected false) : goldenTables m = some (trace m, rows m) := by
  have hsort : (trace m).insertionSort (fun a b => a.pos ≤ b.pos) = trace m :=
    List.Pairwise.insertionSort_eq (pairwise_trace m)
  have hmessages : (m.executed.mapIdx fun pos e => (⟨e.vaddr, pos⟩ : ExecOrder.Message)).map tbExecOrder =
      trace m := by
    refine List.ext_getElem? fun k => ?_
    rw [trace, List.getElem?_map, List.getElem?_mapIdx, List.getElem?_mapIdx, Option.map_map]
    rfl
  have hrows : readoutTbinfo (((Keyed.firsts Tb.vaddr (m.translated.map Plugin.TbTranslation.tb)).map
      (TbInfos.ofTb m.executed)).reverse.map tbInformation) = rows m := by
    rw [readoutTbinfo, List.map_map, rows, List.map_reverse, List.map_map]
    rfl
  rw [goldenTables, h.dumpTbInformation, Option.bind_eq_bind, Option.bind_some, h.dumpTbExecOrder,
    Option.bind_eq_bind, Option.bind_some, ExecOrder.kept, if_neg Bool.false_ne_true, Nat.sub_self,
    List.drop_zero, hmessages, hrows, readoutTbexec, hsort]
  rfl

/-! ### The trace -/

section

variable (h : m.Collected false) (hcoherent : Coherent (m.translated.map Plugin.TbTranslation.tb))

include hcoherent

theorem insns_of_row (htb : tb ∈ m.translated.map Plugin.TbTranslation.tb) :
    (row m.executed tb).insns = tb.insns.map Insn.vaddr := by
  rw [row_eq]
  exact insns_row (hcoherent.printable tb htb) _

include h

/-- What the trigger search relies on. -/
def collectedTrace : GoldenTrace where
  tbexec := trace m
  tbinfo := rows m
  wellFormed t ht := by
    obtain ⟨tb, htb, rfl⟩ := mem_rows ht
    exact wellFormed_row (hcoherent.printable tb htb) _
  idsNodup := by
    have hids : (rows m).map TbInfo.id =
        ((Keyed.firsts Tb.vaddr (m.translated.map Plugin.TbTranslation.tb)).map Tb.vaddr).reverse := by
      rw [rows, List.map_reverse, List.map_map]
      rfl
    rw [hids]
    exact List.nodup_reverse.mpr (Keyed.nodup_firsts _ _)
  executed e he := by
    obtain ⟨k, hk, rfl⟩ := List.mem_mapIdx.mp he
    obtain ⟨first, hfirst, hsame⟩ := Keyed.exists_mem_firsts (h.executed_vaddr _ (List.getElem_mem hk))
    exact ⟨row m.executed first, List.mem_reverse.mpr (List.mem_map_of_mem hfirst), hsame⟩
  oneInsn t ht u hu i j a hti huj := by
    obtain ⟨tb, htb, rfl⟩ := mem_rows ht
    obtain ⟨ub, hub, rfl⟩ := mem_rows hu
    obtain ⟨x, hx, rfl, hxa⟩ := contains_of_covers (hcoherent.printable tb htb) hti
    obtain ⟨y, hy, rfl, hya⟩ := contains_of_covers (hcoherent.printable ub hub) huj
    exact hcoherent.oneInsn tb htb ub hub x hx y hy a.toNat hxa hya
  sameEnd t ht u hu i hit hiu := by
    obtain ⟨tb, htb, rfl⟩ := mem_rows ht
    obtain ⟨ub, hub, rfl⟩ := mem_rows hu
    rw [insns_of_row hcoherent htb] at hit
    rw [insns_of_row hcoherent hub] at hiu
    obtain ⟨x, hx, rfl⟩ := List.mem_map.mp hit
    obtain ⟨y, hy, hyx⟩ := List.mem_map.mp hiu
    exact hcoherent.sameEnd tb htb ub hub x hx y hy hyx.symm

/-- The flat trace is what was executed. -/
theorem flat_collectedTrace :
    (collectedTrace h hcoherent).flat = m.executed.flatMap fun tb => tb.insns.map Insn.vaddr := by
  have hblocks : (collectedTrace h hcoherent).blocks = m.executed.map fun tb => tb.insns.map Insn.vaddr := by
    refine List.ext_getElem? fun k => ?_
    rw [GoldenTrace.blocks, List.getElem?_map, List.getElem?_map]
    have hk : (collectedTrace h hcoherent).tbexec[k]? = m.executed[k]?.map fun e => ⟨e.vaddr, k⟩ :=
      List.getElem?_mapIdx
    rw [hk, Option.map_map]
    cases he : m.executed[k]? with
    | none => rfl
    | some e =>
      have hseen := h.executed e (List.mem_of_getElem? he)
      obtain ⟨first, hfirst, hbase⟩ := Keyed.exists_mem_firsts (f := Tb.vaddr) (List.mem_map_of_mem hseen)
      have hrow : row m.executed first ∈ (collectedTrace h hcoherent).tbinfo :=
        List.mem_reverse.mpr (List.mem_map_of_mem hfirst)
      have hmem := Keyed.mem_of_mem_firsts hfirst
      have hblock := GoldenTrace.block_eq hrow (e := ⟨e.vaddr, k⟩) hbase.symm
      rw [insns_of_row hcoherent hmem, hcoherent.insns_eq hmem hseen hbase] at hblock
      exact congrArg some hblock
  rw [GoldenTrace.flat, hblocks, List.flatMap_def]

/-- A byte of an instruction is covered by it in some row. -/
theorem exists_covers (htb : tb ∈ m.translated.map Plugin.TbTranslation.tb) {i : Insn} (hi : i ∈ tb.insns)
    {address : ℕ} (hcont : i.Contains address) :
    ∃ t ∈ (collectedTrace h hcoherent).tbinfo, t.Covers i.vaddr address := by
  obtain ⟨first, hfirst, hbase⟩ := Keyed.exists_mem_firsts (f := Tb.vaddr) (List.mem_map_of_mem htb)
  have hmem := Keyed.mem_of_mem_firsts hfirst
  have hinsns := hcoherent.insns_eq hmem htb hbase
  have hend := hcoherent.sameEnd first hmem tb htb _ (List.head_mem first.nonempty) _
    (List.head_mem tb.nonempty) hbase
  have hrow := insns_of_row hcoherent hmem
  refine ⟨row m.executed first, List.mem_reverse.mpr (List.mem_map_of_mem hfirst), ?_, ?_, ?_, ?_⟩
  · rw [hrow, hinsns]
    exact List.mem_map_of_mem hi
  · exact Int.ofNat_le.mpr hcont.1
  · have hhi : address < first.vaddr + first.bytesize := hend ▸ (tb.contains_range hi hcont).2
    exact_mod_cast hhi
  · intro b hb hlt
    rw [hrow, hinsns] at hb
    obtain ⟨j, hj, rfl⟩ := List.mem_map.mp hb
    exact_mod_cast hcont.2.trans_le (end_le_of_lt hi hj hlt)

/-- The executions of the rows, by instructions, are those of the run. -/
theorem sum_rows : ((rows m).map fun t => t.numExec * t.insCount).sum =
    (m.executed.map fun tb => tb.insns.length).sum := by
  have hweight : ∀ e ∈ m.executed, ∃ first ∈ Keyed.firsts Tb.vaddr (m.translated.map Plugin.TbTranslation.tb),
      first.vaddr = e.vaddr ∧ first.insns.length = e.insns.length := by
    intro e he
    have hseen := h.executed e he
    obtain ⟨first, hfirst, hbase⟩ := Keyed.exists_mem_firsts (f := Tb.vaddr) (List.mem_map_of_mem hseen)
    have hinsns := congrArg List.length
      (hcoherent.insns_eq (Keyed.mem_of_mem_firsts hfirst) hseen hbase)
    rw [List.length_map, List.length_map] at hinsns
    exact ⟨first, hfirst, hbase, hinsns⟩
  rw [rows, List.map_reverse, List.sum_reverse, List.map_map]
  exact Keyed.sum_countP_mul (Keyed.nodup_firsts _ _) hweight

end

/-- The tables of every golden run are a `GoldenTrace`, and instruction by instruction its trace is what was
    executed. -/
theorem goldenTables_of_run {events : List TbEvent} (hnarrow : ∀ ev ∈ events, ev.Narrow)
    (hrun : Run.run TbMachine.step (TbMachine.init false) events = some m)
    (hcoherent : Coherent (m.translated.map Plugin.TbTranslation.tb)) :
    ∃ g : GoldenTrace, goldenTables m = some (g.tbexec, g.tbinfo) ∧
      g.flat = m.executed.flatMap fun tb => tb.insns.map Insn.vaddr := by
  have h : m.Collected false := TbMachine.collected_of_run hnarrow hrun
  exact ⟨collectedTrace h hcoherent, goldenTables_eq h, flat_collectedTrace h hcoherent⟩

/-- Blocks of one aligned instruction. -/
theorem coherent_oneInsnTb {addresses : List ℕ} (haligned : ∀ a ∈ addresses, 4 ∣ a) :
    Coherent (addresses.map Plugin.oneInsnTb) := by
  have hprintable : Printable "nop".toList := ⟨by decide, by decide⟩
  constructor
  · intro tb htb i hi
    obtain ⟨a, -, rfl⟩ := List.mem_map.mp htb
    obtain rfl := List.mem_singleton.mp hi
    exact hprintable
  · intro tb htb u hu i hi j hj address hia hja
    obtain ⟨a, ha, rfl⟩ := List.mem_map.mp htb
    obtain ⟨b, hb, rfl⟩ := List.mem_map.mp hu
    obtain rfl := List.mem_singleton.mp hi
    obtain rfl := List.mem_singleton.mp hj
    obtain ⟨ha₁, ha₂⟩ := hia
    obtain ⟨hb₁, hb₂⟩ := hja
    have := haligned a ha
    have := haligned b hb
    dsimp only at ha₁ ha₂ hb₁ hb₂ ⊢
    omega
  · intro tb htb u hu i hi j hj hsame
    obtain ⟨a, -, rfl⟩ := List.mem_map.mp htb
    obtain ⟨b, -, rfl⟩ := List.mem_map.mp hu
    obtain rfl := List.mem_singleton.mp hi
    obtain rfl := List.mem_singleton.mp hj
    obtain rfl : a = b := hsame
    rfl

theorem coherent_selfLoop : Coherent ([64, 68].map Plugin.oneInsnTb) := coherent_oneInsnTb (by decide)

theorem goldenTables_of_run_selfLoop : ∃ m, Run.run TbMachine.step (TbMachine.init false)
    TbMachine.selfLoop = some m ∧ ∃ g : GoldenTrace, goldenTables m = some (g.tbexec, g.tbinfo) ∧
      g.flat = [64, 64, 64, 68] := by
  exact ⟨_, rfl, goldenTables_of_run TbMachine.narrow_selfLoop rfl coherent_selfLoop⟩

/-! ### The limit for the experiments -/

/-- The end of `run_experiment`. -/
def raiseMaxInstructionCount (hasEnd : Bool) (maxInstructionCount : ℕ) (tbinfo : List TbInfo) : ℕ :=
  if hasEnd then tbinfo.foldl (fun count tb => count + tb.numExec * tb.insCount) maxInstructionCount
  else maxInstructionCount

theorem raiseMaxInstructionCount_eq (maxInstructionCount : ℕ) (tbinfo : List TbInfo) :
    raiseMaxInstructionCount true maxInstructionCount tbinfo =
      maxInstructionCount + (tbinfo.map fun t => t.numExec * t.insCount).sum := by
  rw [raiseMaxInstructionCount, if_pos rfl]
  induction tbinfo generalizing maxInstructionCount with
  | nil => rfl
  | cons t tbinfo ih => rw [List.foldl_cons, ih, List.map_cons, List.sum_cons, add_assoc]

/-- The instructions of the executed TBs. -/
def sizes (m : TbMachine) : List ℕ := m.executed.map fun tb => tb.insns.length

theorem sum_take_sizes {j size : ℕ} (hj : (sizes m)[j]? = some size) :
    ((sizes m).take j).sum < (sizes m).sum := by
  have hmem := List.mem_of_getElem? hj
  obtain ⟨tb, -, rfl⟩ := List.mem_map.mp hmem
  have hpos : 0 < tb.insns.length := List.length_pos_of_ne_nil tb.nonempty
  have hle : ((sizes m).take (j + 1)).sum ≤ (sizes m).sum :=
    (List.take_sublist (j + 1) (sizes m)).sum_le_sum fun _ _ => Nat.zero_le _
  rw [List.take_add_one, hj, Option.toList_some, List.sum_append, List.sum_singleton] at hle
  omega

end Archie.Campaign
