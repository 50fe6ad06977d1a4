import Archie.Campaign.GoldenRunFilter
import Archie.Campaign.TriggerCorrect

/-! A lifespan too short to take effect.

    The fault gets trigger address -1, which is to reject its experiments. A fault that several
    experiments share is visited again, and -1 is a relative trigger too:

        visit   trigger   lifespan 2
          1       -5      -5 + 2 < 0       trigger -1
          2       -1      -1 + 2 ≥ 0       one instruction before the fault             -/

namespace Archie.Campaign
open Python Blocks

/-- How many executed TBs contain an address. -/
def executions (address : Int) (tbexec : List TbExec) (tbinfo : List TbInfo) : ℕ :=
  tbexec.countP fun e => decide (e.tb ∈ (tbinfo.filter fun t =>
    (t.id : Int) ≤ address ∧ (t.id : Int) + t.size > address).map TbInfo.id)

section Search

variable {filters : List (List ℕ)} {tbexec : List TbExec} {tbinfo : List TbInfo}

/-- What is executed has no negative address. -/
theorem nonneg_of_executions {address : Int} (h : 1 ≤ executions address tbexec tbinfo) : 0 ≤ address := by
  obtain ⟨e, -, hmem⟩ := List.countP_pos_iff.mp h
  obtain ⟨t, ht, -⟩ := List.mem_map.mp (of_decide_eq_true hmem)
  have hle := (of_decide_eq_true (List.mem_filter.mp ht).2).1
  omega

theorem findFault_ok {address idx : Int} {ins : Option ℕ} {n : ℕ}
    (h : findFault address tbexec tbinfo n = .ok (idx, ins)) :
    executions address tbexec tbinfo < n ∧ idx = -1 ∨ n ≤ executions address tbexec tbinfo ∧ 0 ≤ idx := by
  have hlen : ((List.range tbexec.length).filter fun p => (tbexec[p]?).any fun e =>
      decide (e.tb ∈ (tbinfo.filter fun t =>
        (t.id : Int) ≤ address ∧ (t.id : Int) + t.size > address).map TbInfo.id)).length
      = executions address tbexec tbinfo := length_positions _ tbexec
  unfold findFault at h
  split at h
  · cases h
  · simp only [gt_iff_lt, hlen] at h
    split at h
    · next hfew =>
      obtain ⟨rfl, -⟩ := Prod.mk.inj (Except.ok.inj h)
      exact Or.inl ⟨hfew, rfl⟩
    · next henough =>
      obtain ⟨i, -, h⟩ := bind_eq_ok.mp h
      obtain ⟨tb, -, h⟩ := bind_eq_ok.mp h
      obtain ⟨row, -, h⟩ := bind_eq_ok.mp h
      obtain ⟨ins', -, h⟩ := bind_eq_ok.mp h
      obtain ⟨rfl, -⟩ := Prod.mk.inj (Except.ok.inj h)
      exact Or.inr ⟨not_lt.mp henough, Int.natCast_nonneg i⟩

/-- The search rejects a fault that is executed too rarely and no other. -/
theorem searchForFaultLocation_ok {position address lifespan : Int} {n : ℕ} {tse : List TbStartEnd}
    {answer : Int × ℕ × Int} (hn : 1 ≤ n) (h : searchForFaultLocation filters position address n lifespan
      tbexec tbinfo tse = .ok answer) :
    executions address tbexec tbinfo < n ∧ answer = (-1, n, lifespan) ∨
      n ≤ executions address tbexec tbinfo ∧ 0 ≤ answer.1 := by
  obtain ⟨⟨idx, ins⟩, hfind, h⟩ := bind_eq_ok.mp h
  dsimp only at h
  rcases findFault_ok hfind with ⟨hfew, rfl⟩ | ⟨henough, hidx⟩
  · rw [if_pos (by decide : (-1 : Int) < 0)] at h
    exact Or.inl ⟨hfew, (Except.ok.inj h).symm⟩
  · refine Or.inr ⟨henough, ?_⟩
    have haddr := nonneg_of_executions (hn.trans henough)
    rw [if_neg (not_lt.mpr hidx)] at h
    obtain ⟨s, -, h⟩ := bind_eq_ok.mp h
    split at h
    · split at h
      · obtain ⟨fromStart, -, h⟩ := bind_eq_ok.mp h
        obtain rfl := Except.ok.inj h
        exact haddr
      · obtain rfl := Except.ok.inj h
        exact haddr
    · split at h
      · cases h
      · next ins _ =>
        obtain ⟨hits, -, h⟩ := bind_eq_ok.mp h
        obtain rfl := Except.ok.inj h
        exact Int.natCast_nonneg ins

end Search

/-! ### Visits -/

section Visits

variable {filters : List (List ℕ)} {tbexec : List TbExec} {tbinfo : List TbInfo} {f f' : ConfigFault}
  {a : Int}

/-- A fault that is to be rejected after its first visit. -/
structure Rejected (f : ConfigFault) (a : Int) : Prop where
  address : f.address = .int a
  trigger : f.trigger.address = -1
  hitcounter : 1 ≤ f.trigger.hitcounter
  lifespan : f.lifespan ≠ 0

/-- The first visit finds the lifespan too short. -/
theorem resolve_short (haddr : f.address = .int a) (hhit : 1 ≤ f.trigger.hitcounter) (hlife : f.lifespan ≠ 0)
    (hneg : f.trigger.address < 0) (hshort : f.trigger.address + f.lifespan < 0) :
    resolve filters tbexec tbinfo f = .ok (f.setAnswer (-1, f.trigger.hitcounter, f.lifespan)) := by
  have hgo : ¬(f.trigger.address ≥ 0 ∨ f.trigger.hitcounter = 0) := by omega
  rw [resolve, if_neg hgo, haddr]
  simp only [intAddress, bind, Except.bind, triggerAnswer, if_pos (And.intro hlife hshort)]
  rfl

/-- A further visit keeps the fault rejected iff its lifespan is negative or it is executed too
    rarely. -/
theorem Rejected.resolve (h : Rejected f a) (hres : resolve filters tbexec tbinfo f = .ok f') :
    f.lifespan < 0 ∧ f' = f ∨
    0 < f.lifespan ∧ executions a tbexec tbinfo < f.trigger.hitcounter ∧ f' = f ∨
    0 < f.lifespan ∧ f.trigger.hitcounter ≤ executions a tbexec tbinfo ∧ 0 ≤ f'.trigger.address := by
  have hsame : f.setAnswer (-1, f.trigger.hitcounter, f.lifespan) = f := by
    rw [← h.trigger]
    rfl
  rcases lt_or_gt_of_ne h.lifespan with hlife | hlife
  · have hneg : f.trigger.address < 0 := by rw [h.trigger]; decide
    rw [resolve_short h.address h.hitcounter h.lifespan hneg (by omega), hsame] at hres
    exact Or.inl ⟨hlife, (Except.ok.inj hres).symm⟩
  · right
    have hgo : ¬(f.trigger.address ≥ 0 ∨ f.trigger.hitcounter = 0) := by
      have := h.trigger
      have := h.hitcounter
      omega
    have hlong : ¬(f.lifespan ≠ 0 ∧ f.trigger.address + f.lifespan < 0) := by
      have := h.trigger
      omega
    rw [Campaign.resolve, if_neg hgo, h.address] at hres
    obtain ⟨address, haddr, hres⟩ := bind_eq_ok.mp hres
    obtain rfl := Except.ok.inj haddr
    obtain ⟨answer, hans, hres⟩ := bind_eq_ok.mp hres
    rw [triggerAnswer, if_neg hlong] at hans
    obtain rfl := Except.ok.inj hres
    rcases searchForFaultLocation_ok h.hitcounter hans with ⟨hfew, rfl⟩ | ⟨henough, hnonneg⟩
    · exact Or.inl ⟨hlife, hfew, hsame⟩
    · exact Or.inr ⟨hlife, henough, hnonneg⟩

theorem resolveTimes_fixed (h : resolve filters tbexec tbinfo f = .ok f) :
    ∀ n : ℕ, resolveTimes filters tbexec tbinfo n f = .ok f
  | 0 => rfl
  | n + 1 => bind_eq_ok.mpr ⟨f, h, resolveTimes_fixed h n⟩

theorem Rejected.resolveTimes_iff (h : Rejected f a) {n : ℕ}
    (hres : resolveTimes filters tbexec tbinfo n f = .ok f') : f'.trigger.address = -1 ↔
      n = 0 ∨ f.lifespan < 0 ∨ executions a tbexec tbinfo < f.trigger.hitcounter := by
  rcases n with _ | n
  · obtain rfl := Except.ok.inj hres
    exact iff_of_true h.trigger (Or.inl rfl)
  · obtain ⟨f₁, hone, hrest⟩ := bind_eq_ok.mp hres
    rcases h.resolve hone with ⟨hlife, rfl⟩ | ⟨-, hfew, rfl⟩ | ⟨hlife, henough, hnonneg⟩
    · obtain rfl := Except.ok.inj ((resolveTimes_fixed hone n).symm.trans hrest)
      exact iff_of_true h.trigger (Or.inr (Or.inl hlife))
    · obtain rfl := Except.ok.inj ((resolveTimes_fixed hone n).symm.trans hrest)
      exact iff_of_true h.trigger (Or.inr (Or.inr hfew))
    · -- an absolute trigger is left alone
      have hskip : Campaign.resolve filters tbexec tbinfo f₁ = .ok f₁ := if_pos (Or.inl hnonneg)
      obtain rfl := Except.ok.inj ((resolveTimes_fixed hskip n).symm.trans hrest)
      refine iff_of_false (by omega) ?_
      omega

/-- All visits of a fault whose lifespan is too short. -/
theorem resolveTimes_short_iff (haddr : f.address = .int a) (hhit : 1 ≤ f.trigger.hitcounter)
    (hlife : f.lifespan ≠ 0) (hneg : f.trigger.address < 0) (hshort : f.trigger.address + f.lifespan < 0)
    {n : ℕ} (hres : resolveTimes filters tbexec tbinfo (n + 1) f = .ok f') :
    f'.trigger.address = -1 ↔
      n = 0 ∨ f.lifespan < 0 ∨ executions a tbexec tbinfo < f.trigger.hitcounter := by
  obtain ⟨f₁, hone, hrest⟩ := bind_eq_ok.mp hres
  rw [resolve_short haddr hhit hlife hneg hshort] at hone
  obtain rfl := Except.ok.inj hone
  have hrej : Rejected (f.setAnswer (-1, f.trigger.hitcounter, f.lifespan)) a := ⟨haddr, rfl, hhit, hlife⟩
  exact hrej.resolveTimes_iff hrest

end Visits

/-! ### The fault list -/

/-- A fault whose lifespan is too short is rejected iff one experiment uses it, or its lifespan is
    negative, or it is executed less often than its hitcounter. -/
theorem calculateTriggerAddresses_rejects_iff {heap heap' : Heap ConfigFault} {faultList : List FaultEntry}
    {tbexec : List TbExec} {tbinfo : List TbInfo}
    (hok : calculateTriggerAddresses heap faultList tbexec tbinfo = .ok heap') {r : ℕ}
    (hr : r ∈ faultList.flatMap FaultEntry.faultlist) {a : Int} (haddr : (heap.get r).address = .int a)
    (hhit : 1 ≤ (heap.get r).trigger.hitcounter) (hlife : (heap.get r).lifespan ≠ 0)
    (hneg : (heap.get r).trigger.address < 0)
    (hshort : (heap.get r).trigger.address + (heap.get r).lifespan < 0) :
    (heap'.get r).trigger.address = -1 ↔ (faultList.flatMap FaultEntry.faultlist).count r = 1 ∨
      (heap.get r).lifespan < 0 ∨ executions a tbexec tbinfo < (heap.get r).trigger.hitcounter := by
  obtain ⟨fs, -, hres⟩ := calculateTriggerAddresses_get hok
  obtain ⟨n, hn⟩ := Nat.exists_eq_add_of_le' (List.count_pos_iff.mpr hr)
  have hres := hres r
  rw [hn] at hres
  rw [resolveTimes_short_iff haddr hhit hlife hneg hshort hres, hn, Nat.succ_inj]

/-- On a golden trace the pass reaches its end. -/
theorem calculateTriggerAddresses_total {g : GoldenTrace} {heap : Heap ConfigFault}
    {faultList : List FaultEntry} (hsize : ∀ u ∈ g.tbinfo, 2 ≤ u.size) (hne : g.tbexec ≠ [])
    (hint : ∀ s ∈ faultList.flatMap FaultEntry.faultlist, Resolvable (heap.get s)) :
    ∃ heap', calculateTriggerAddresses heap faultList g.tbexec g.tbinfo = .ok heap' := by
  obtain ⟨fs, hfs, hf⟩ := g.buildFilters_ok
  obtain ⟨e, he⟩ := List.exists_mem_of_ne_nil _ hne
  obtain ⟨t, ht, -⟩ := g.executed e he
  obtain ⟨heap', hfold, -⟩ := foldlM_resolveAt hf hsize hne _ heap hint
  exact ⟨heap', (calculateTriggerAddresses_eq (List.ne_nil_of_mem ht) hfs).trans hfold⟩

/-- Fault 0 is to be triggered five instructions before `0x200` and to last two; the others have
    absolute triggers. -/
def shortHeap : Heap ConfigFault where
  get r := if r = 0 then ⟨⟨-5, 1⟩, .int 0x200, [], 1, 0, 2, .int 1, 1, false⟩
    else ⟨⟨0x100, 1⟩, .int 0x100, [], 1, 0, 0, .int 1, 1, false⟩
  next := 3

theorem shortHeap_total (faultList : List FaultEntry) : ∃ heap' : Heap ConfigFault,
    calculateTriggerAddresses shortHeap faultList (subTbTrace 2 (by decide) le_rfl).tbexec (subTb 2)
      = .ok heap' := by
  refine calculateTriggerAddresses_total (g := subTbTrace 2 (by decide) le_rfl) ?_ (List.cons_ne_nil _ _) ?_
  · intro u hu
    rcases subTb_insns hu with ⟨-, h, -⟩ | ⟨-, h, -⟩ | ⟨-, h, -⟩ <;> omega
  · intro s _
    by_cases hs : s = 0
    · exact Or.inr (Or.inr ⟨0x200, by simp [shortHeap, hs]⟩)
    · exact Or.inr (Or.inr ⟨0x100, by simp [shortHeap, hs]⟩)

theorem calculateTriggerAddresses_rejects_iff_once : ∃ heap' : Heap ConfigFault,
    calculateTriggerAddresses shortHeap [⟨0, [0, 1], false⟩] (subTbTrace 2 (by decide) le_rfl).tbexec
      (subTb 2) = .ok heap' ∧
    ((heap'.get 0).trigger.address = -1 ↔ ([⟨0, [0, 1], false⟩].flatMap FaultEntry.faultlist).count 0 = 1 ∨
      (shortHeap.get 0).lifespan < 0 ∨
      executions 0x200 (subTbTrace 2 (by decide) le_rfl).tbexec (subTb 2)
        < (shortHeap.get 0).trigger.hitcounter) := by
  obtain ⟨heap', hok⟩ := shortHeap_total [⟨0, [0, 1], false⟩]
  exact ⟨heap', hok, calculateTriggerAddresses_rejects_iff hok (by decide) rfl
    (by decide) (by decide) (by decide) (by decide)⟩

/-- Two combinations share fault 0, its second visit takes -1 for one instruction before `0x200`. -/
theorem shortHeap_not_rejected : ∃ heap' : Heap ConfigFault,
    calculateTriggerAddresses shortHeap [⟨0, [0, 1], false⟩, ⟨1, [0, 2], false⟩]
      (subTbTrace 2 (by decide) le_rfl).tbexec (subTb 2) = .ok heap' ∧
    (heap'.get 0).trigger.address ≠ -1 := by
  obtain ⟨heap', hok⟩ := shortHeap_total [⟨0, [0, 1], false⟩, ⟨1, [0, 2], false⟩]
  obtain ⟨fs, -, hres⟩ := calculateTriggerAddresses_get hok
  refine ⟨heap', hok, ?_⟩
  rw [Ne, resolveTimes_short_iff (f := shortHeap.get 0) (a := 0x200) (n := 1) rfl (by decide) (by decide)
    (by decide) (by decide) (hres 0)]
  decide

end Archie.Campaign
