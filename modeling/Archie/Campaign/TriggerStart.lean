import Archie.Campaign.TriggerCorrect

/-! A trigger before the start of the golden run.

    The walk back leaves the trace, and the fault is injected at the start. Of its lifespan `L`, counted
    from `x` instructions before position `q`, the `x - q - 1` instructions before the start are lost:

        -x ……… start ──────── q              lifespan  L - (x - (q + 1))                     -/

namespace Archie.Campaign
open Python Blocks

namespace GoldenTrace

variable {g : GoldenTrace} {t : TbInfo} {filters : List (List ℕ)} {k i ins : ℕ}

theorem countUpTo_getElem : ∀ {l : List ℕ} {i ins : ℕ}, l.Nodup → l[i]? = some ins →
    countUpTo (some ins) l = i + 1
  | [], i, ins, _, h => by simp at h
  | a :: l, 0, ins, _, h => by
    obtain rfl : a = ins := by simpa using h
    simp [countUpTo]
  | a :: l, i + 1, ins, hnd, h => by
    obtain ⟨ha, hl⟩ := List.nodup_cons.mp hnd
    rw [List.getElem?_cons_succ] at h
    have hne : a ≠ ins := by
      rintro rfl
      exact ha (List.mem_of_getElem? h)
    rw [countUpTo, if_neg (by simpa using hne), countUpTo_getElem hl h]
    push_cast
    ring

/-- The instruction counts of the first TBs add up to a flat position. -/
theorem foldlM_insCount (hk : k ≤ g.tbexec.length) (lifespan : Int) :
    (List.range k).foldlM (fun (lifespan : Int) (itter : ℕ) => do
      let row ← findTbInfoRow (← tbAt g.tbexec itter) g.tbinfo
      return lifespan + row.insCount) lifespan = .ok (lifespan + offset g.blocks k) := by
  induction k with
  | zero => simp [pure, Except.pure]
  | succ k ih =>
    have hget : g.tbexec[k]? = some g.tbexec[k] := List.getElem?_eq_getElem hk
    obtain ⟨u, hu, hid, hblock⟩ := exists_row (List.mem_of_getElem? hget)
    have hat : tbAt g.tbexec (k : Int) = .ok u.id := by
      have hk0 : ¬ ((k : Int) < 0) := by omega
      rw [tbAt, if_neg hk0, Int.toNat_natCast, hget]
      exact congrArg Except.ok hid
    have hb : g.blocks[k]? = some u.insns := by rw [getElem?_blocks hget, hblock]
    rw [List.range_succ, List.foldlM_append, ih (by omega)]
    simp only [bind, Except.bind, List.foldlM_cons, List.foldlM_nil, hat, findTbInfoRow_id hu, pure,
      Except.pure, offset_succ hb, (g.wellFormed u hu).insCount]
    push_cast
    rw [add_assoc]

/-- Up to and including position `q` the golden run executes `q + 1` instructions. -/
theorem calculateLifespanFromStart_spec {address : Int} {n : ℕ}
    (hf : filters.Perm (g.tbinfo.map TbInfo.insns)) (hp : g.Place k i ins t)
    (hfind : findFault address g.tbexec g.tbinfo n = .ok ((k : Int), some ins)) :
    calculateLifespanFromStart filters address g.tbexec g.tbinfo n
      = .ok ((offset g.blocks k + i : ℕ) + 1) := by
  obtain ⟨e, he, -⟩ := hp.exec
  have hk : k < g.tbexec.length := (List.getElem?_eq_some_iff.mp he).1
  have hcount := countUpTo_getElem (g.wellFormed t hp.row).nodup hp.insn
  simp only [calculateLifespanFromStart, hfind, hp.tbAt_eq, matchingFilter_eq hf hp.row, bind,
    Except.bind, Int.toNat_natCast, hcount]
  refine (foldlM_insCount (le_of_lt hk) _).trans (congrArg Except.ok ?_)
  push_cast
  ring

end GoldenTrace

/-- A trigger before the start resolves to the fault address with hitcounter 0. A permanent fault stays
    permanent, a temporary one keeps the part of its lifespan that lies in the run. -/
theorem searchForFaultLocation_start {g : GoldenTrace} {a L : Int} {x n q : ℕ}
    (hq : g.NthExecution a n q) (hqx : q < x) (hL : L = 0 ∨ (x : Int) ≤ L) :
    ∃ fs, buildFilters g.tbinfo = .ok fs ∧
      searchForFaultLocation (fs.map List.reverse) (-x) a n L g.tbexec g.tbinfo (tbStartEnd g.tbinfo)
        = .ok (a, 0, if L = 0 then 0 else (q + 1 : Int) + L - x) ∧
      (L ≠ 0 → 1 ≤ (q + 1 : Int) + L - x ∧ (q + 1 : Int) + L - x ≤ L) := by
  obtain ⟨fs, hfs, hf⟩ := g.buildFilters_ok
  refine ⟨fs, hfs, ?_, by omega⟩
  obtain ⟨k, i, ins, t, hp, rfl, hfind⟩ := hq.findFault
  have hk : ¬ ((k : Int) < 0) := by omega
  obtain ⟨s, hs, hland⟩ := GoldenTrace.searchLoop_spec hf hp (x := x) (by omega)
  rcases hland with ⟨k', i', ins', t', -, hpos', -, -, -⟩ | ⟨-, -, hleft⟩
  · omega
  · simp only [searchForFaultLocation, hfind, bind, Except.bind, if_neg hk, neg_neg, Int.toNat_natCast, hs,
      ne_eq, hleft, not_false_eq_true, if_true, GoldenTrace.calculateLifespanFromStart_spec hf hp hfind]
    rcases hL with rfl | hL
    · rw [if_neg (lt_irrefl _), if_pos rfl]
      rfl
    · rw [if_pos (by omega), if_neg (by omega)]
      refine congrArg Except.ok (Prod.ext rfl (Prod.ext rfl ?_))
      simp only
      ring

/-- Five instructions before the fourth one of the run: the run starts two later. -/
theorem searchForFaultLocation_start_subTb : ∃ fs, buildFilters (subTb 2) = .ok fs ∧
    searchForFaultLocation (fs.map List.reverse) (-(5 : ℕ)) 0x200 1 7
        (subTbTrace 2 (by decide) le_rfl).tbexec (subTb 2) (tbStartEnd (subTb 2))
      = .ok (0x200, 0, if (7 : Int) = 0 then 0 else ((3 : ℕ) + 1 : Int) + 7 - (5 : ℕ)) ∧
    ((7 : Int) ≠ 0 → 1 ≤ ((3 : ℕ) + 1 : Int) + 7 - (5 : ℕ) ∧ ((3 : ℕ) + 1 : Int) + 7 - (5 : ℕ) ≤ 7) :=
  searchForFaultLocation_start (subTb_nthExecution 2 (by decide) le_rfl) (by decide) (Or.inr (by decide))

end Archie.Campaign
