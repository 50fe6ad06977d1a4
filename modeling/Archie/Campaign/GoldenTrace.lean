import Archie.Lib.Blocks
import Archie.Lib.Keyed
import Archie.Campaign.TbInfo

/-! The golden run as a trace of instructions.

    `GoldenTrace` packs the two tables with what QEMU guarantees of them: a TB is a run of
    contiguous instructions, an address belongs to one instruction, TBs that share an instruction
    end together. `flat` is the trace the trigger search is about: one entry per executed
    instruction. -/

namespace Archie.Campaign
open Python

/-- The instruction addresses of a TB as its assembler text lists them. -/
def TbInfo.insns (t : TbInfo) : List ℕ :=
  match asmAddresses t.assembler with
  | .ok as => as
  | .error _ => []

/-- `address` is a byte of the instruction at `ins`. -/
structure TbInfo.Covers (t : TbInfo) (ins : ℕ) (address : Int) : Prop where
  mem : ins ∈ t.insns
  start : (ins : Int) ≤ address
  inside : address < t.id + t.size
  next : ∀ b ∈ t.insns, ins < b → address < b

/-- A TB of the table: contiguous instructions from `id` to `id + size`, all of them counted. -/
structure TbInfo.WellFormed (t : TbInfo) : Prop where
  parses : asmAddresses t.assembler = .ok t.insns
  ascending : t.insns.Pairwise (· < ·)
  head : t.insns.head? = some t.id
  inside : ∀ a ∈ t.insns, a < t.id + t.size
  insCount : t.insCount = t.insns.length

/-- The tables of a golden run, with what QEMU guarantees of them. -/
structure GoldenTrace where
  tbexec : List TbExec
  tbinfo : List TbInfo
  wellFormed : ∀ t ∈ tbinfo, t.WellFormed
  idsNodup : (tbinfo.map TbInfo.id).Nodup
  executed : ∀ e ∈ tbexec, ∃ t ∈ tbinfo, t.id = e.tb
  oneInsn : ∀ t ∈ tbinfo, ∀ u ∈ tbinfo, ∀ i j a, t.Covers i a → u.Covers j a → i = j
  sameEnd : ∀ t ∈ tbinfo, ∀ u ∈ tbinfo, ∀ i ∈ t.insns, i ∈ u.insns → t.id + t.size = u.id + u.size

namespace GoldenTrace

variable (g : GoldenTrace)

/-- The instructions that one execution of a TB runs through. -/
def block (e : TbExec) : List ℕ :=
  match g.tbinfo.find? fun t => t.id = e.tb with
  | some t => t.insns
  | none => []

def blocks : List (List ℕ) := g.tbexec.map g.block

/-- The trace flattened to instructions. -/
def flat : List ℕ := g.blocks.flatten

/-- `q` is the flat position of the `n`-th execution of the instruction that contains `address`. -/
structure NthExecution (address : Int) (n q : ℕ) : Prop where
  at_ : ∃ ins, g.flat[q]? = some ins ∧ (∃ t ∈ g.tbinfo, t.Covers ins address) ∧
    (g.flat.take (q + 1)).count ins = n

end GoldenTrace

namespace TbInfo

variable {t u : TbInfo}

theorem WellFormed.id_mem (h : t.WellFormed) : t.id ∈ t.insns := List.mem_of_mem_head? h.head

theorem WellFormed.id_le (h : t.WellFormed) {a : ℕ} (ha : a ∈ t.insns) : t.id ≤ a := by
  have hasc := h.ascending
  have hhead := h.head
  cases hins : t.insns with
  | nil => rw [hins] at ha; simp at ha
  | cons b bs =>
    rw [hins] at hasc hhead ha
    obtain rfl : b = t.id := by simpa using hhead
    rcases List.mem_cons.mp ha with rfl | ha
    · exact le_rfl
    · exact le_of_lt ((List.pairwise_cons.mp hasc).1 a ha)

theorem WellFormed.insns_ne_nil (h : t.WellFormed) : t.insns ≠ [] := by
  intro hnil; simpa [hnil] using h.id_mem

theorem WellFormed.nodup (h : t.WellFormed) : t.insns.Nodup :=
  h.ascending.imp fun hlt => Nat.ne_of_lt hlt

/-- The alignment loop finds the instruction that contains an address, whatever list of ascending
    starts it has left. -/
theorem allignGo_spec (address : Int) (stop : ℕ) (hstop : address < stop) :
    ∀ (a : ℕ) (as : List ℕ), (a :: as).Pairwise (· < ·) → (∀ b ∈ a :: as, b < stop) →
      (a : Int) ≤ address → ∃ ins ∈ a :: as, allignGo address (a :: as ++ [stop]) = some ins ∧
        (ins : Int) ≤ address ∧ ∀ b ∈ a :: as, ins < b → address < b
  | a, [], _, _, ha => ⟨a, by simp, by simp [allignGo, ha, hstop], ha, by simp⟩
  | a, b :: bs, hasc, hlt, ha => by
    by_cases hb : address < b
    · refine ⟨a, by simp, by simp [allignGo, ha, hb], ha, ?_⟩
      intro c hc hac
      rcases List.mem_cons.mp hc with rfl | hc
      · omega
      · rcases List.mem_cons.mp hc with rfl | hc
        · exact hb
        · have := (List.pairwise_cons.mp (List.pairwise_cons.mp hasc).2).1 c hc
          omega
    · obtain ⟨ins, hmem, hgo, hle, hnext⟩ := allignGo_spec address stop hstop b bs
        (List.pairwise_cons.mp hasc).2 (fun c hc => hlt c (List.mem_cons_of_mem _ hc)) (by omega)
      refine ⟨ins, List.mem_cons_of_mem _ hmem, ?_, hle, ?_⟩
      · simpa [allignGo, ha, hb] using hgo
      · intro c hc hic
        rcases List.mem_cons.mp hc with rfl | hc
        · have := (List.pairwise_cons.mp hasc).1 ins hmem
          omega
        · exact hnext c hc hic

/-- Every byte of a TB belongs to one of its instructions, and alignment returns it. -/
theorem WellFormed.allign (h : t.WellFormed) {address : Int} (hlo : (t.id : Int) ≤ address)
    (hhi : address < t.id + t.size) :
    ∃ ins, allignFaultToInstruction address t = .ok (some ins) ∧ t.Covers ins address := by
  cases hins : t.insns with
  | nil => exact absurd hins h.insns_ne_nil
  | cons a as =>
    have hhead : a = t.id := by simpa [hins] using h.head
    obtain ⟨ins, hmem, hgo, hle, hnext⟩ := allignGo_spec address (t.id + t.size) (by exact_mod_cast hhi)
      a as (hins ▸ h.ascending) (hins ▸ h.inside) (hhead ▸ hlo)
    refine ⟨ins, ?_, ⟨hins ▸ hmem, hle, hhi, hins ▸ hnext⟩⟩
    simp only [allignFaultToInstruction, h.parses, hins]
    exact congrArg Except.ok hgo

/-- An instruction covers its own first byte. -/
theorem WellFormed.covers_self (h : t.WellFormed) {a : ℕ} (ha : a ∈ t.insns) : t.Covers a a :=
  ⟨ha, le_rfl, by exact_mod_cast h.inside a ha, fun _ _ hab => by exact_mod_cast hab⟩

/-- A TB as a filter: its addresses, last one first. -/
def filt (t : TbInfo) : List ℕ := t.insns.reverse

theorem WellFormed.tbFilter_eq (h : t.WellFormed) : tbFilter t = .ok t.filt := by
  have hsorted : t.insns.insertionSort (· ≤ ·) = t.insns :=
    List.Pairwise.insertionSort_eq (h.ascending.imp fun h => le_of_lt h)
  simp only [tbFilter, h.parses]
  exact congrArg (fun l => Except.ok (List.reverse l)) hsorted

/-- The filters in ascending length. -/
def sortedFilters (tbinfo : List TbInfo) : List (List ℕ) :=
  (tbinfo.map filt).insertionSort fun a b => a.length ≤ b.length

theorem buildFilters_eq {tbinfo : List TbInfo} (h : ∀ t ∈ tbinfo, t.WellFormed) :
    buildFilters tbinfo = .ok (sortedFilters tbinfo).reverse := by
  rw [buildFilters, mapM_ok fun t ht => (h t ht).tbFilter_eq]
  rfl

end TbInfo

namespace GoldenTrace

variable {g : GoldenTrace} {t u : TbInfo}

theorem findTbInfoRow_id (ht : t ∈ g.tbinfo) : findTbInfoRow t.id g.tbinfo = .ok t := by
  rw [findTbInfoRow, Keyed.find?_key g.idsNodup ht]

theorem block_eq (ht : t ∈ g.tbinfo) {e : TbExec} (he : e.tb = t.id) : g.block e = t.insns := by
  rw [block, he, Keyed.find?_key g.idsNodup ht]

/-- The TB behind a trace entry. -/
theorem exists_row {e : TbExec} (he : e ∈ g.tbexec) :
    ∃ t ∈ g.tbinfo, e.tb = t.id ∧ g.block e = t.insns := by
  obtain ⟨t, ht, hid⟩ := g.executed e he
  exact ⟨t, ht, hid.symm, block_eq ht hid.symm⟩

theorem getElem?_blocks {k : ℕ} {e : TbExec} (hk : g.tbexec[k]? = some e) :
    g.blocks[k]? = some (g.block e) := by simp [blocks, hk]

theorem blocks_nodup : ∀ b ∈ g.blocks, b.Nodup := by
  intro b hb
  obtain ⟨e, he, rfl⟩ := List.mem_map.mp hb
  obtain ⟨t, ht, -, heq⟩ := exists_row he
  exact heq ▸ (g.wellFormed t ht).nodup

/-- An instruction of one TB belongs to another iff its address lies in there. -/
theorem mem_insns_iff (ht : t ∈ g.tbinfo) (hu : u ∈ g.tbinfo) {j : ℕ} (hj : j ∈ t.insns) :
    j ∈ u.insns ↔ u.id ≤ j ∧ j < u.id + u.size := by
  constructor
  · intro hju
    exact ⟨(g.wellFormed u hu).id_le hju, (g.wellFormed u hu).inside j hju⟩
  · rintro ⟨hlo, hhi⟩
    obtain ⟨ins, -, hcov⟩ := (g.wellFormed u hu).allign (Int.ofNat_le.mpr hlo)
      (show (j : Int) < u.id + u.size from by exact_mod_cast hhi)
    have hself := (g.wellFormed t ht).covers_self hj
    obtain rfl := g.oneInsn u hu t ht _ _ _ hcov hself
    exact hcov.mem

/-- Where a TB contains the trigger `j` of another one, it is that TB, contains its start or starts
    inside it. Only a one-byte TB escapes the comparisons of the search. -/
theorem mem_insns_cases (ht : t ∈ g.tbinfo) (hu : u ∈ g.tbinfo) (hsize : 2 ≤ u.size) {j : ℕ}
    (hj : j ∈ t.insns) : j ∈ u.insns ↔ u = t ∨ (u.id < t.id ∧ t.id < u.id + u.size) ∨
      (t.id < u.id ∧ u.id + 1 < t.id + t.size ∧ t.id + t.size ≤ u.id + u.size ∧ u.id ≤ j) := by
  have hwt := g.wellFormed t ht
  have hwu := g.wellFormed u hu
  constructor
  · intro hju
    have hend := g.sameEnd t ht u hu j hj hju
    have hlo := hwu.id_le hju
    have hin := hwt.inside _ hwt.id_mem
    rcases Nat.lt_trichotomy u.id t.id with hlt | heq | hgt
    · exact .inr (.inl ⟨hlt, by omega⟩)
    · exact .inl (Keyed.eq_of_key g.idsNodup hu ht heq)
    · exact .inr (.inr ⟨hgt, by omega, by omega, hlo⟩)
  · rintro (rfl | ⟨hlt, hin⟩ | ⟨hgt, hin, hend, hle⟩)
    · exact hj
    · -- the first instruction of `t` is one of `u`, so both end together
      have hstart := (mem_insns_iff ht hu hwt.id_mem).mpr ⟨le_of_lt hlt, hin⟩
      have hend := g.sameEnd t ht u hu _ hwt.id_mem hstart
      have := hwt.id_le hj
      have := hwt.inside j hj
      exact (mem_insns_iff ht hu hj).mpr ⟨by omega, by omega⟩
    · have := hwt.inside j hj
      exact (mem_insns_iff ht hu hj).mpr ⟨hle, by omega⟩

end GoldenTrace

end Archie.Campaign
