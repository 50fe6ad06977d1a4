import Archie.Lib.Hexadecimal
import Archie.Lib.Split
import Archie.Plugin.Qemu
import Archie.Campaign.GoldenTrace
import Archie.Campaign.Wildcard

/-! The assembler text of a TB, from the plugin to the three places that parse it.

        decode_assembler            [ %8lx ]: disas !![ %8lx ]: disas !!
        readout_tbinfo              [ %8lx ]: disas \n[ %8lx ]: disas \n
        split("[ ")              "" |%8lx ]: disas \n|%8lx ]: disas \n
        split("]")[0]                %8lx␣

    A disassembly may contain brackets, only a `"[ "` in it or a `'['` at its end would be taken for
    the start of an instruction. The rows have exact columns, as in Fault.lean. -/

namespace Archie.Campaign
open Python
open Plugin (Tb Insn)
open Plugin.State (decodeAssembler hex8)

/-- The protobuf message of a TB. -/
structure TbInformation where
  baseAddress : ℕ
  size : ℕ
  instructionCount : ℕ
  numOfExec : ℕ
  assembler : Text

/-- `add_tb_info`, and how often the TB was executed since. -/
def addTbInfo (tb : Tb) (numOfExec : ℕ) : TbInformation where
  baseAddress := tb.vaddr
  size := tb.bytesize
  instructionCount := tb.insns.length
  numOfExec := numOfExec
  assembler := decodeAssembler tb

def TbInformation.row (t : TbInformation) : TbInfo where
  id := t.baseAddress
  size := t.size
  insCount := t.instructionCount
  numExec := t.numOfExec
  assembler := replace t.assembler "!!".toList "\n".toList

def readoutTbinfo (tbInformations : List TbInformation) : List TbInfo :=
  tbInformations.map TbInformation.row

/-- Text that holds no start of an instruction, also not with the blank behind it. -/
structure Printable (disas : Text) : Prop where
  start : ¬ "[ ".toList <:+: disas
  last : disas.getLast? ≠ some '['

/-! ### The text -/

/-- What stands between two starts of instructions. -/
def asmLine (i : Insn) : Text :=
  hex8 i.vaddr ++ " ]: ".toList ++ replace i.disas "!!".toList "\n".toList ++ " \n".toList

theorem not_mem_hex8 {c : Char} (hc : c ≠ ' ') (h : ∀ d < 16, Nat.digitChar d ≠ c) (n : ℕ) : c ∉ hex8 n := by
  rw [hex8, List.mem_append, not_or]
  exact ⟨fun hmem => hc (List.eq_of_mem_replicate hmem), Hexadecimal.not_mem_toDigits h n⟩

/-- Only the disassembly and the end of the line change. -/
theorem replace_insn (i : Insn) (rest : Text) :
    replace ("[ ".toList ++ hex8 i.vaddr ++ " ]: ".toList ++ i.disas ++ " !!".toList ++ rest)
        "!!".toList "\n".toList = "[ ".toList ++ asmLine i ++ replace rest "!!".toList "\n".toList := by
  have hblank : ' ' ∉ "!!".toList := by decide
  have hne : "!!".toList ≠ [] := by decide
  have hhex : ¬ "!!".toList <:+: hex8 i.vaddr := fun hin =>
    not_mem_hex8 (by decide) (by decide) i.vaddr (hin.subset (show '!' ∈ "!!".toList by decide))
  have hopen : replace "[".toList "!!".toList "\n".toList = "[".toList := rfl
  have hclose : replace "]:".toList "!!".toList "\n".toList = "]:".toList := rfl
  -- each blank of the format separates what is replaced on its own
  have hcut : "[ ".toList ++ hex8 i.vaddr ++ " ]: ".toList ++ i.disas ++ " !!".toList ++ rest
      = "[".toList ++ ' ' :: (hex8 i.vaddr ++ ' ' :: ("]:".toList ++ ' ' :: (i.disas ++ ' ' ::
        ("!!".toList ++ rest)))) := by simp
  rw [hcut, replace_append_cons hne hblank, replace_append_cons hne hblank,
    replace_append_cons hne hblank, replace_append_cons hne hblank, replace_append_old hne,
    replace_absent _ hhex, hopen, hclose]
  simp [asmLine]

theorem replace_decodeAssembler (tb : Tb) :
    replace (decodeAssembler tb) "!!".toList "\n".toList
      = (tb.insns.map asmLine).flatMap ("[ ".toList ++ ·) := by
  rw [decodeAssembler]
  induction tb.insns with
  | nil => rfl
  | cons i is ih => rw [List.flatMap_cons, replace_insn, ih, List.map_cons, List.flatMap_cons]

/-! ### Its pieces -/

/-- A line holds no start of an instruction, also not with the one of the next line behind it. -/
theorem not_start_infix_asmLine {i : Insn} (h : Printable i.disas) :
    ¬ "[ ".toList <:+: asmLine i ++ "[ ".toList.dropLast := by
  have hcut : asmLine i ++ "[ ".toList.dropLast = (hex8 i.vaddr ++ " ]: ".toList) ++
      (replace (i.disas ++ " ".toList) "!!".toList "\n".toList ++ "\n[".toList) := by
    have hrep : replace (i.disas ++ ' ' :: []) "!!".toList "\n".toList
        = replace i.disas "!!".toList "\n".toList ++ " ".toList :=
      replace_append_cons (by decide) (by decide) _ _ _
    rw [show i.disas ++ " ".toList = i.disas ++ ' ' :: [] from rfl, hrep]
    simp [asmLine]
  have haddress : ¬ "[ ".toList <:+: hex8 i.vaddr ++ " ]: ".toList := by
    intro hin
    have hmem : '[' ∈ hex8 i.vaddr ++ " ]: ".toList := hin.subset (by decide)
    rw [List.mem_append] at hmem
    exact hmem.elim (not_mem_hex8 (by decide) (by decide) i.vaddr) (by decide)
  have hdisas : ¬ "[ ".toList <:+: replace (i.disas ++ " ".toList) "!!".toList "\n".toList :=
    not_pair_infix_replace (by decide) (by decide) _
      (not_pair_infix_append h.start (by decide) fun hlast => absurd hlast h.last)
  rw [hcut]
  refine not_pair_infix_append (a := '[') (b := ' ') haddress ?_ fun hlast => ?_
  · exact not_pair_infix_append hdisas (by decide) fun _ => by decide
  · simp at hlast

theorem intHex_address (i : Insn) :
    (do intHex (← getItem (split (asmLine i) "]".toList) 0)) = .ok i.vaddr := by
  have hmem : ']' ∉ hex8 i.vaddr ++ " ".toList := by
    rw [List.mem_append, not_or]
    exact ⟨not_mem_hex8 (by decide) (by decide) i.vaddr, by decide⟩
  have hin : ¬ "]".toList <:+: (hex8 i.vaddr ++ " ".toList) ++ "]".toList.dropLast := fun hin =>
    hmem (by simpa using hin.subset (show ']' ∈ "]".toList by decide))
  have hcut : asmLine i = (hex8 i.vaddr ++ " ".toList) ++ ("]".toList ++ (": ".toList
      ++ replace i.disas "!!".toList "\n".toList ++ " \n".toList)) := by simp [asmLine]
  have hblanks : hex8 i.vaddr ++ " ".toList = List.replicate (8 - (Nat.toDigits 16 i.vaddr).length) ' '
      ++ (Nat.toDigits 16 i.vaddr ++ List.replicate 1 ' ') := by
    rw [hex8, List.append_assoc]
    rfl
  rw [hcut, split_append (by decide) hin, hblanks]
  exact Hexadecimal.intHex_blanks i.vaddr _ 1

/-- The addresses of the text are those of the instructions. -/
theorem asmAddresses_replace {tb : Tb} (h : ∀ i ∈ tb.insns, Printable i.disas) :
    asmAddresses (replace (decodeAssembler tb) "!!".toList "\n".toList)
      = .ok (tb.insns.map Insn.vaddr) := by
  have hsplit : split ((tb.insns.map asmLine).flatMap ("[ ".toList ++ ·)) "[ ".toList
      = [] :: tb.insns.map asmLine := by
    refine split_flatMap (x := []) (by decide) fun p hp => ?_
    rcases List.mem_cons.mp hp with rfl | hp
    · decide
    · obtain ⟨i, hi, rfl⟩ := List.mem_map.mp hp
      exact not_start_infix_asmLine (h i hi)
  rw [asmAddresses, replace_decodeAssembler, hsplit, List.tail_cons, List.mapM_map]
  exact mapM_ok fun i _ => intHex_address i

/-! ### Addresses and sizes -/

theorem ascending_vaddr (tb : Tb) : (tb.insns.map Insn.vaddr).Pairwise (· < ·) := by
  refine List.pairwise_map.mpr (tb.pairwise_end.imp_of_mem fun {i j} hi _ hij => ?_)
  have := tb.sized i hi
  omega

/-- An instruction ends before one behind it starts. -/
theorem end_le_of_lt {tb : Tb} {i j : Insn} (hi : i ∈ tb.insns) (hj : j ∈ tb.insns)
    (hij : i.vaddr < j.vaddr) : i.vaddr + i.size ≤ j.vaddr := by
  have hpw := List.pairwise_iff_getElem.mp tb.pairwise_end
  obtain ⟨a, ha, rfl⟩ := List.getElem_of_mem hi
  obtain ⟨b, hb, rfl⟩ := List.getElem_of_mem hj
  rcases Nat.lt_trichotomy a b with hab | rfl | hba
  · exact hpw a b ha hb hab
  · omega
  · have := hpw b a hb ha hba
    omega

/-- The differences are the sizes of all instructions but the last one. -/
theorem zipWith_vaddr : ∀ {is : List Insn}, (is.IsChain fun i j => j.vaddr = i.vaddr + i.size) →
    (is.map Insn.vaddr).zipWith (fun a b : ℕ => (b : Int) - a) (is.map Insn.vaddr).tail
      = is.dropLast.map fun i => (i.size : Int)
  | [], _ => rfl
  | [_], _ => rfl
  | i :: j :: is, h => by
    obtain ⟨hij, hjs⟩ := List.isChain_cons_cons.mp h
    have ih := zipWith_vaddr hjs
    simp only [List.map_cons, List.tail_cons, List.zipWith_cons_cons, List.dropLast_cons_cons] at ih ⊢
    rw [ih, hij]
    congr 1
    omega

/-- They add up to the distance of the last instruction from the first. -/
theorem sum_size_dropLast : ∀ {is : List Insn} (hne : is ≠ []),
    (is.IsChain fun i j => j.vaddr = i.vaddr + i.size) →
      (is.dropLast.map fun i => (i.size : Int)).sum = (is.getLast hne).vaddr - (is.head hne).vaddr
  | [_], _, _ => by simp
  | i :: j :: is, _, h => by
    obtain ⟨hij, hjs⟩ := List.isChain_cons_cons.mp h
    have ih := sum_size_dropLast (List.cons_ne_nil j is) hjs
    rw [List.dropLast_cons_cons, List.map_cons, List.sum_cons, ih, List.getLast_cons_cons, List.head_cons,
      List.head_cons, hij]
    omega

theorem tbInfoSize_eq (asm : List ℕ) (totalSize : ℕ) : tbInfoSize asm totalSize =
    asm.zipWith (fun a b : ℕ => (b : Int) - a) asm.tail
      ++ [(totalSize : Int) - (asm.zipWith (fun a b : ℕ => (b : Int) - a) asm.tail).sum] := by
  have hcast : ∀ l : List ℕ, (do let a ← l; pure (a : Int)) = l.map Nat.cast := fun l => bind_pure_comp ..
  have hdiff : ∀ l m : List ℕ, (l.map Nat.cast).zipWith (fun a b : Int => b - a) (m.map Nat.cast)
      = l.zipWith (fun a b : ℕ => (b : Int) - a) m := fun l m => List.zipWith_map ..
  simp only [tbInfoSize, hcast, hdiff]

theorem tbInfoSize_vaddr (tb : Tb) :
    tbInfoSize (tb.insns.map Insn.vaddr) tb.bytesize = tb.insns.map fun i => (i.size : Int) := by
  have hlast : (tb.bytesize : Int) - (tb.insns.dropLast.map fun i => (i.size : Int)).sum
      = (tb.insns.getLast tb.nonempty).size := by
    have hle := tb.vaddr_le (List.getLast_mem tb.nonempty)
    have hvaddr : tb.vaddr = (tb.insns.head tb.nonempty).vaddr := rfl
    rw [sum_size_dropLast tb.nonempty tb.contiguous, ← hvaddr, Tb.bytesize]
    omega
  rw [tbInfoSize_eq, zipWith_vaddr tb.contiguous, hlast]
  conv_rhs => rw [← List.dropLast_append_getLast tb.nonempty]
  rw [List.map_append, List.map_singleton]

/-- Every byte of contiguous instructions belongs to one of them. -/
theorem exists_contains : ∀ {is : List Insn} (hne : is ≠ []),
    (is.IsChain fun i j => j.vaddr = i.vaddr + i.size) → ∀ {address : ℕ},
      (is.head hne).vaddr ≤ address → address < (is.getLast hne).vaddr + (is.getLast hne).size →
        ∃ i ∈ is, i.Contains address
  | [i], _, _, _, hlo, hhi => ⟨i, List.mem_singleton_self i, hlo, hhi⟩
  | i :: j :: is, _, h, address, hlo, hhi => by
    obtain ⟨hij, hjs⟩ := List.isChain_cons_cons.mp h
    by_cases hin : address < i.vaddr + i.size
    · exact ⟨i, List.mem_cons_self, hlo, hin⟩
    · obtain ⟨k, hk, hcont⟩ := exists_contains (List.cons_ne_nil j is) hjs
        (show j.vaddr ≤ address by omega) (by rwa [List.getLast_cons_cons] at hhi)
      exact ⟨k, List.mem_cons_of_mem i hk, hcont⟩

/-! ### The row -/

section

variable {tb : Tb} (h : ∀ i ∈ tb.insns, Printable i.disas) (numOfExec : ℕ)

include h

theorem insns_row : (addTbInfo tb numOfExec).row.insns = tb.insns.map Insn.vaddr := by
  rw [TbInfo.insns, TbInformation.row, addTbInfo, asmAddresses_replace h]

theorem wellFormed_row : (addTbInfo tb numOfExec).row.WellFormed where
  parses := by rw [insns_row h, TbInformation.row, addTbInfo, asmAddresses_replace h]
  ascending := insns_row h numOfExec ▸ ascending_vaddr tb
  head := by
    rw [insns_row h, List.head?_map, List.head?_eq_some_head tb.nonempty]
    rfl
  inside := by
    rw [insns_row h]
    rintro a ha
    obtain ⟨i, hi, rfl⟩ := List.mem_map.mp ha
    have hend := tb.end_le hi
    have := tb.sized i hi
    exact Nat.lt_of_lt_of_le (by omega) hend
  insCount := by rw [insns_row h, List.length_map]; rfl

/-- Alignment finds the instruction that contains a byte. -/
theorem allign_row {i : Insn} (hi : i ∈ tb.insns) {address : ℕ} (hcont : i.Contains address) :
    allignFaultToInstruction address (addTbInfo tb numOfExec).row = .ok (some i.vaddr) := by
  obtain ⟨hlo, hhi⟩ := tb.contains_range hi hcont
  obtain ⟨ins, hok, hcov⟩ := (wellFormed_row h numOfExec).allign (Int.ofNat_le.mpr hlo) (by exact_mod_cast hhi)
  have hmem := hcov.mem
  rw [insns_row h] at hmem
  obtain ⟨j, hj, rfl⟩ := List.mem_map.mp hmem
  have hle : j.vaddr ≤ address := by exact_mod_cast hcov.start
  have hnext : j.vaddr < i.vaddr → address < i.vaddr := fun hji => by
    exact_mod_cast hcov.next i.vaddr (insns_row h numOfExec ▸ List.mem_map_of_mem hi) hji
  -- a start behind `i` is behind its last byte
  have hlast : i.vaddr < j.vaddr → i.vaddr + i.size ≤ j.vaddr := fun hij =>
    end_le_of_lt hi hj hij
  rw [hok, show j.vaddr = i.vaddr by have := hcont.1; have := hcont.2; omega]

end

/-- What the three parsers read from the row of a TB. -/
structure Parsed (tb : Tb) (row : TbInfo) : Prop where
  filter : tbFilter row = .ok (tb.insns.map Insn.vaddr).reverse
  descending : (tb.insns.map Insn.vaddr).reverse.Pairwise (· > ·)
  addresses : asmAddresses row.assembler = .ok (tb.insns.map Insn.vaddr)
  sizes : tbInfoSize (tb.insns.map Insn.vaddr) row.size = tb.insns.map fun i => (i.size : Int)
  inside : ∀ i ∈ tb.insns, ∀ address : ℕ, i.Contains address →
    row.id ≤ address ∧ address < row.id + row.size
  allign : ∀ address : ℕ, row.id ≤ address → address < row.id + row.size →
    ∃ i ∈ tb.insns, i.Contains address ∧ allignFaultToInstruction address row = .ok (some i.vaddr)

theorem parsed_row {tb : Tb} (h : ∀ i ∈ tb.insns, Printable i.disas) (numOfExec : ℕ) :
    Parsed tb (addTbInfo tb numOfExec).row where
  filter := by rw [(wellFormed_row h numOfExec).tbFilter_eq, TbInfo.filt, insns_row h]
  descending := List.pairwise_reverse.mpr (ascending_vaddr tb)
  addresses := asmAddresses_replace h
  sizes := tbInfoSize_vaddr tb
  inside := fun _ hi _ hcont => tb.contains_range hi hcont
  allign := by
    rintro address hlo hhi
    have hend : address < (tb.insns.getLast tb.nonempty).vaddr + (tb.insns.getLast tb.nonempty).size := by
      have hle := tb.vaddr_le (List.getLast_mem tb.nonempty)
      have hsum : address < tb.vaddr + tb.bytesize := hhi
      rw [Tb.bytesize] at hsum
      omega
    obtain ⟨i, hi, hcont⟩ := exists_contains tb.nonempty tb.contiguous hlo hend
    exact ⟨i, hi, hcont, allign_row h numOfExec hi hcont⟩

/-- A load with brackets in its operands, and a nop. -/
def bracketTb : Tb where
  insns := [⟨0x8000, 4, "ldr r0, [r1]".toList⟩, ⟨0x8004, 2, "nop".toList⟩]
  nonempty := List.cons_ne_nil _ _
  sized := by decide
  contiguous := by decide

end Archie.Campaign
