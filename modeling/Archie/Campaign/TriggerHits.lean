import Archie.Campaign.TriggerSearch

/-! The hit count of a trigger and the answer of the whole search on a golden trace.

    The count adds up the executions of three groups of TBs. Unless a TB is a single byte long, each
    TB with the trigger is in exactly one of them. -/

namespace Archie.Campaign
open Python Blocks

namespace GoldenTrace

variable {g : GoldenTrace} {t u : TbInfo} {k i ins : ℕ}

/-! ### Hits -/

/-- Executions of the TBs with a property. -/
theorem sum_executed {p : TbInfo → Bool} {es : List TbExec} :
    ((g.tbinfo.filter p).map fun u => (es.map TbExec.tb).count u.id).sum
      = es.countP fun e => g.tbinfo.any fun u => decide (u.id = e.tb) && p u := by
  rw [Keyed.sum_count g.idsNodup, List.countP_map]
  rfl

theorem tbEndAt_eq (ht : t ∈ g.tbinfo) :
    tbEndAt (tbStartEnd g.tbinfo) t.id = .ok ((t.id : Int) + t.size - 1) := by
  have hcomp : ((fun r : TbStartEnd => decide (r.id = t.id)) ∘ fun t : TbInfo =>
      (⟨t.id, t.id, t.id + t.size - 1⟩ : TbStartEnd)) = fun r : TbInfo => decide (r.id = t.id) := rfl
  rw [tbEndAt, tbStartEnd, List.find?_map, hcomp, Keyed.find?_key g.idsNodup ht]
  rfl

/-- The rows of `tb_start_end` with a property, as rows of `tbinfo`. -/
theorem sum_tbStartEnd (p : TbStartEnd → Bool) (ids : List ℕ) :
    (((tbStartEnd g.tbinfo).filter p).map fun r => ids.count r.id).sum
      = ((g.tbinfo.filter fun u => p ⟨u.id, u.id, u.id + u.size - 1⟩).map fun u =>
          ids.count u.id).sum := by
  rw [tbStartEnd, List.filter_map, List.map_map]
  rfl

/-- The hit count is the number of executions of the trigger up to its place. -/
theorem triggerHits_spec (hsize : ∀ u ∈ g.tbinfo, 2 ≤ u.size) (hp : g.Place k i ins t) :
    triggerHits g.tbexec (tbStartEnd g.tbinfo) k ins
      = .ok ((g.flat.take (offset g.blocks k + i + 1)).count ins) := by
  have hown : ((g.tbexec.take (k + 1)).map TbExec.tb).count t.id
      = (g.tbexec.take (k + 1)).countP fun e => decide (e.tb = t.id) := by
    rw [List.count, List.countP_map]
    refine List.countP_congr fun e _ => ?_
    simp
  have hsum : triggerHits g.tbexec (tbStartEnd g.tbinfo) k ins = .ok
      ((g.tbexec.take (k + 1)).countP (fun e => decide (e.tb = t.id))
        + (g.tbexec.take (k + 1)).countP (fun e => g.tbinfo.any fun u => decide (u.id = e.tb) &&
            decide ((t.id : Int) > u.id ∧ (t.id : Int) ≤ (u.id : Int) + u.size - 1))
        + (g.tbexec.take (k + 1)).countP (fun e => g.tbinfo.any fun u => decide (u.id = e.tb) &&
            (decide ((ins : Int) ≥ u.id) && decide ((t.id : Int) < u.id ∧
              (t.id : Int) + t.size - 1 > u.id ∧
              (t.id : Int) + t.size - 1 ≤ (u.id : Int) + u.size - 1)))) := by
    simp only [triggerHits, hp.tbAt_eq, tbEndAt_eq hp.row, bind, Except.bind, List.filter_filter,
      sum_tbStartEnd, sum_executed, hown]
    rfl
  rw [hsum, count_place hp]
  refine congrArg Except.ok (Keyed.countP_add₃ fun e he => ?_)
  obtain ⟨u, hu, hid, hblock⟩ := exists_row (List.mem_of_mem_take he)
  -- on the row of the TB executed the three conditions exclude each other
  simp only [hid, hblock, Keyed.any_key g.idsNodup hu]
  have hcases := mem_insns_cases hp.row hu (hsize u hu) hp.mem
  have hsame : u.id = t.id ↔ u = t :=
    ⟨Keyed.eq_of_key g.idsNodup hu hp.row, fun h => h ▸ rfl⟩
  by_cases hmem : ins ∈ u.insns
  · rcases hcases.mp hmem with rfl | ⟨hlt, hin⟩ | ⟨hgt, hin, hend, hle⟩
    · simp [hmem]
    · have : ¬ u.id = t.id := by omega
      have h₁ : (t.id : Int) > u.id ∧ (t.id : Int) ≤ (u.id : Int) + u.size - 1 := by omega
      have h₂ : ¬ ((t.id : Int) < u.id ∧ (t.id : Int) + t.size - 1 > u.id ∧
          (t.id : Int) + t.size - 1 ≤ (u.id : Int) + u.size - 1) := by omega
      simp only [hmem, this, decide_eq_true h₁, decide_eq_false h₂, Bool.and_false]
      rfl
    · have : ¬ u.id = t.id := by omega
      have h₁ : ¬ ((t.id : Int) > u.id ∧ (t.id : Int) ≤ (u.id : Int) + u.size - 1) := by omega
      have h₂ : (t.id : Int) < u.id ∧ (t.id : Int) + t.size - 1 > u.id ∧
          (t.id : Int) + t.size - 1 ≤ (u.id : Int) + u.size - 1 := by omega
      have h₃ : (ins : Int) ≥ u.id := by omega
      simp only [hmem, this, decide_eq_false h₁, decide_eq_true h₂, decide_eq_true h₃]
      rfl
  · have hnot := mt hcases.mpr hmem
    have h₀ : ¬ u.id = t.id := fun h => hnot (.inl (hsame.mp h))
    have h₁ : ¬ ((t.id : Int) > u.id ∧ (t.id : Int) ≤ (u.id : Int) + u.size - 1) :=
      fun h => hnot (.inr (.inl ⟨by omega, by omega⟩))
    have h₂ : ¬ ((ins : Int) ≥ u.id ∧ ((t.id : Int) < u.id ∧
        (t.id : Int) + t.size - 1 > u.id ∧
        (t.id : Int) + t.size - 1 ≤ (u.id : Int) + u.size - 1)) :=
      fun h => hnot (.inr (.inr ⟨by omega, by omega, by omega, by omega⟩))
    rw [← Bool.decide_and, decide_eq_false h₀, decide_eq_false h₁, decide_eq_false h₂,
      decide_eq_false hmem]
    rfl

/-! ### The answer -/

/-- `find_fault` either finds too few executions or a place of the faulted instruction. -/
theorem findFault_cases (address : Int) {n : ℕ} (hne : g.tbexec ≠ []) (hn : 1 ≤ n) :
    findFault address g.tbexec g.tbinfo n = .ok (-1, some 0) ∨
    ∃ k i ins t, g.Place k i ins t ∧ findFault address g.tbexec g.tbinfo n = .ok ((k : Int), some ins) := by
  by_cases hfew : n > (positions (g.hasAddress address) g.tbexec).length
  · exact .inl (findFault_none hne hfew)
  · have hk := List.getElem?_eq_getElem (l := positions (g.hasAddress address) g.tbexec)
      (i := n - 1) (by omega)
    obtain ⟨i, ins, t, hp, -, hfind⟩ := findFault_some hn hk
    exact .inr ⟨_, i, ins, t, hp, hfind⟩

/-- The lifespan count does not fail where the fault is found. -/
theorem calculateLifespanFromStart_total {filters : List (List ℕ)} {address : Int} {n : ℕ}
    (hf : filters.Perm (g.tbinfo.map TbInfo.insns)) (hp : g.Place k i ins t)
    (hfind : findFault address g.tbexec g.tbinfo n = .ok ((k : Int), some ins)) :
    ∃ l, calculateLifespanFromStart filters address g.tbexec g.tbinfo n = .ok l := by
  obtain ⟨e, he, -⟩ := hp.exec
  have hk : k < g.tbexec.length := (List.getElem?_eq_some_iff.mp he).1
  simp only [calculateLifespanFromStart, hfind, hp.tbAt_eq, matchingFilter_eq hf hp.row, bind,
    Except.bind, Int.toNat_natCast]
  refine foldlM_total (fun l m hm => ?_) _
  have hlt : m < g.tbexec.length := lt_trans (List.mem_range.mp hm) hk
  have hget : g.tbexec[m]? = some g.tbexec[m] := List.getElem?_eq_getElem hlt
  obtain ⟨u, hu, hid, -⟩ := exists_row (List.mem_of_getElem? hget)
  have hat : tbAt g.tbexec (m : Int) = .ok u.id := by
    have hm0 : ¬ ((m : Int) < 0) := by omega
    rw [tbAt, if_neg hm0, Int.toNat_natCast, hget]
    exact congrArg Except.ok hid
  refine ⟨l + u.insCount, ?_⟩
  simp only [hat, findTbInfoRow_id hu]
  rfl

/-- The search on a golden trace never fails. -/
theorem triggerAnswer_total {filters : List (List ℕ)}
    (hf : filters.Perm (g.tbinfo.map TbInfo.insns)) (hsize : ∀ u ∈ g.tbinfo, 2 ≤ u.size)
    (hne : g.tbexec ≠ []) (address : Int) (trigger : Trigger) (lifespan : Int)
    (haddr : trigger.address < 0) (hhit : trigger.hitcounter ≠ 0) :
    ∃ ans, triggerAnswer filters g.tbexec g.tbinfo address trigger lifespan = .ok ans := by
  rw [triggerAnswer]
  split
  · exact ⟨_, rfl⟩
  · rcases findFault_cases address hne (Nat.one_le_iff_ne_zero.mpr hhit) with
      hfind | ⟨k, i, ins, t, hp, hfind⟩
    · refine ⟨(-1, trigger.hitcounter, lifespan), ?_⟩
      simp only [searchForFaultLocation, hfind]
      rfl
    · have hk : ¬ ((k : Int) < 0) := by omega
      obtain ⟨s, hs, hland⟩ := searchLoop_spec hf hp (x := (-trigger.address).toNat) (by omega)
      simp only [searchForFaultLocation, hfind, bind, Except.bind, if_neg hk, hs]
      rcases hland with ⟨k', i', ins', t', hp', -, hidx, hins, hdone⟩ | ⟨-, -, hleft⟩
      · simp only [hdone, hins, hidx, ne_eq, not_true_eq_false, if_false, Int.toNat_natCast,
          triggerHits_spec hsize hp']
        exact ⟨_, rfl⟩
      · simp only [ne_eq, hleft, not_false_eq_true, if_true]
        obtain ⟨l, hl⟩ := calculateLifespanFromStart_total hf hp hfind
        split
        · exact ⟨_, by rw [hl]; rfl⟩
        · exact ⟨_, rfl⟩

/-- The lookup finds the place of the `n`-th execution. -/
theorem NthExecution.findFault {address : Int} {n q : ℕ} (hq : g.NthExecution address n q) :
    ∃ k i ins t, g.Place k i ins t ∧ q = offset g.blocks k + i ∧
      Campaign.findFault address g.tbexec g.tbinfo n = .ok ((k : Int), some ins) := by
  obtain ⟨k, i, ins, t, hp, rfl, hn, hpos, hcov⟩ := hq.place
  obtain ⟨i', ins', t', hp', hcov', hfind⟩ := findFault_some hn hpos
  -- both places are in block `k` and hold the instruction of the address
  obtain rfl : t = t' := by
    obtain ⟨e, he, hid⟩ := hp.exec
    obtain ⟨e', he', hid'⟩ := hp'.exec
    obtain rfl : e = e' := Option.some.inj (he.symm.trans he')
    exact Keyed.eq_of_key g.idsNodup hp.row hp'.row (hid.symm.trans hid')
  obtain rfl : ins = ins' := g.oneInsn _ hp.row _ hp'.row _ _ _ hcov hcov'
  exact ⟨k, i, ins, t, hp, rfl, hfind⟩

/-- A trigger `x` instructions before the `n`-th execution of the faulted instruction. -/
theorem triggerAnswer_spec {filters : List (List ℕ)}
    (hf : filters.Perm (g.tbinfo.map TbInfo.insns)) (hsize : ∀ u ∈ g.tbinfo, 2 ≤ u.size)
    {address lifespan : Int} {n q x : ℕ} (hq : g.NthExecution address n q) (hx : 1 ≤ x) (hxq : x ≤ q)
    (hlife : lifespan = 0 ∨ (x : Int) ≤ lifespan) :
    ∃ j, g.flat[q - x]? = some j ∧
      triggerAnswer filters g.tbexec g.tbinfo address ⟨-x, n⟩ lifespan
        = .ok ((j : Int), (g.flat.take (q - x + 1)).count j, lifespan) := by
  obtain ⟨k, i, ins, t, hp, rfl, hfind⟩ := hq.findFault
  have hk : ¬ ((k : Int) < 0) := by omega
  have hlong : ¬ (lifespan ≠ 0 ∧ (-(x : Int)) + lifespan < 0) := by omega
  obtain ⟨s, hs, hland⟩ := searchLoop_spec hf hp hx
  rcases hland with ⟨k', i', ins', t', hp', hpos', hidx, hins, hdone⟩ | ⟨hneg, -, -⟩
  · have hqx : offset g.blocks k + i - x = offset g.blocks k' + i' := by omega
    refine ⟨ins', hqx ▸ hp'.flat, ?_⟩
    simp only [triggerAnswer, if_neg hlong, searchForFaultLocation, hfind, bind, Except.bind,
      if_neg hk, neg_neg, Int.toNat_natCast, hs, hdone, hins, hidx, ne_eq, not_true_eq_false,
      if_false, triggerHits_spec hsize hp', hqx]
    rfl
  · omega

end GoldenTrace

end Archie.Campaign
