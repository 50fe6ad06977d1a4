import Archie.Campaign.TriggerHits

/-! Resolving relative triggers is correct on golden traces.

    The cache is transparent: a visit of a fault does what `resolve` does to it alone, whatever was
    visited before. On a golden trace `resolve` lands `x` instructions before the occurrence and
    counts the executions of the instruction found there. -/

namespace Archie.Campaign
open Python Blocks

/-! ### The cache -/

/-- What one visit does to a fault, without the cache. -/
def resolve (filters : List (List ℕ)) (tbexec : List TbExec) (tbinfo : List TbInfo)
    (f : ConfigFault) : Result ConfigFault :=
  if f.trigger.address ≥ 0 ∨ f.trigger.hitcounter = 0 then .ok f
  else do
    let address ← intAddress f.address
    let answer ← triggerAnswer filters tbexec tbinfo address f.trigger f.lifespan
    return f.setAnswer answer

/-- Every cached answer is the one the search gives. -/
def CacheOk (filters : List (List ℕ)) (tbexec : List TbExec) (tbinfo : List TbInfo)
    (cache : List (Int × CacheEntry)) : Prop :=
  ∀ address d, cache.lookup address = some d → triggerAnswer filters tbexec tbinfo address
    ⟨d.triggeraddress, d.triggerhitcounter⟩ d.faultlifespan = .ok d.answer

section Cache

variable {filters : List (List ℕ)} {tbexec : List TbExec} {tbinfo : List TbInfo}
  {heap : Heap ConfigFault} {cache : List (Int × CacheEntry)}

theorem CacheOk.cons (h : CacheOk filters tbexec tbinfo cache) {address : Int} {d : CacheEntry}
    (hd : triggerAnswer filters tbexec tbinfo address ⟨d.triggeraddress, d.triggerhitcounter⟩
      d.faultlifespan = .ok d.answer) :
    CacheOk filters tbexec tbinfo ((address, d) :: cache) := by
  intro a d' hlook
  rw [List.lookup_cons] at hlook
  by_cases ha : a = address
  · subst ha
    simp only [beq_self_eq_true, Option.some.injEq] at hlook
    exact hlook ▸ hd
  · have hne : (a == address) = false := by simpa using ha
    rw [hne] at hlook
    exact h a d' hlook

/-- A visit resolves the fault and keeps the cache right. -/
theorem calculateTriggerAddress_eq (h : CacheOk filters tbexec tbinfo cache) (r : ℕ) :
    (∃ f cache', resolve filters tbexec tbinfo (heap.get r) = .ok f ∧
      calculateTriggerAddress filters tbexec tbinfo (heap, cache) r = .ok (heap.set r f, cache') ∧
      CacheOk filters tbexec tbinfo cache') ∨
    ∃ e, resolve filters tbexec tbinfo (heap.get r) = .error e ∧
      calculateTriggerAddress filters tbexec tbinfo (heap, cache) r = .error e := by
  by_cases hskip : (heap.get r).trigger.address ≥ 0 ∨ (heap.get r).trigger.hitcounter = 0
  · refine .inl ⟨heap.get r, cache, by rw [resolve, if_pos hskip], ?_, h⟩
    have hsame : heap.set r (heap.get r) = heap := by simp [Heap.set]
    rw [calculateTriggerAddress, hsame]
    exact if_pos hskip
  · cases haddr : intAddress (heap.get r).address with
    | error e =>
      refine .inr ⟨e, ?_, ?_⟩
      · rw [resolve, if_neg hskip, haddr]; rfl
      · simp only [calculateTriggerAddress, if_neg hskip, haddr]; rfl
    | ok address =>
      cases hhit : (cache.lookup address).filter fun d => d.faultlifespan = (heap.get r).lifespan ∧
          d.triggerhitcounter = (heap.get r).trigger.hitcounter ∧
          d.triggeraddress = (heap.get r).trigger.address with
      | some d =>
        -- the cached answer is that of the same trigger and lifespan
        obtain ⟨hlook, hkey⟩ := Option.filter_eq_some_iff.mp hhit
        obtain ⟨hl, hn, ha⟩ := of_decide_eq_true hkey
        have hans := h address d hlook
        rw [hl, hn, ha] at hans
        refine .inl ⟨(heap.get r).setAnswer d.answer, cache, ?_, ?_, h⟩
        · rw [resolve, if_neg hskip, haddr]
          simp only [bind, Except.bind, hans]; rfl
        · simp only [calculateTriggerAddress, if_neg hskip, haddr, bind, Except.bind, hhit]; rfl
      | none =>
        cases hans : triggerAnswer filters tbexec tbinfo address (heap.get r).trigger
            (heap.get r).lifespan with
        | error e =>
          refine .inr ⟨e, ?_, ?_⟩
          · rw [resolve, if_neg hskip, haddr]; simp only [bind, Except.bind, hans]
          · simp only [calculateTriggerAddress, if_neg hskip, haddr, bind, Except.bind, hhit, hans]
        | ok answer =>
          refine .inl ⟨(heap.get r).setAnswer answer, (address, ⟨(heap.get r).trigger.hitcounter,
            (heap.get r).trigger.address, (heap.get r).lifespan, answer⟩) :: cache, ?_, ?_,
            h.cons hans⟩
          · rw [resolve, if_neg hskip, haddr]; simp only [bind, Except.bind, hans]; rfl
          · simp only [calculateTriggerAddress, if_neg hskip, haddr, bind, Except.bind, hhit, hans]
            rfl

/-- One visit without the cache. -/
def resolveAt (filters : List (List ℕ)) (tbexec : List TbExec) (tbinfo : List TbInfo)
    (heap : Heap ConfigFault) (r : ℕ) : Result (Heap ConfigFault) :=
  (resolve filters tbexec tbinfo (heap.get r)).map (heap.set r)

theorem foldlM_calculateTriggerAddress : ∀ (refs : List ℕ) (heap : Heap ConfigFault)
    (cache : List (Int × CacheEntry)), CacheOk filters tbexec tbinfo cache →
    (refs.foldlM (calculateTriggerAddress filters tbexec tbinfo) (heap, cache)).map Prod.fst
      = refs.foldlM (resolveAt filters tbexec tbinfo) heap
  | [], _, _, _ => rfl
  | r :: refs, heap, cache, h => by
    rw [List.foldlM_cons, List.foldlM_cons, resolveAt]
    rcases calculateTriggerAddress_eq h r with
      ⟨f, cache', hres, hcalc, hok⟩ | ⟨e, hres, hcalc⟩
    · rw [hres, hcalc]
      exact foldlM_calculateTriggerAddress refs (heap.set r f) cache' hok
    · rw [hres, hcalc]; rfl

/-- The whole pass is the cacheless one. -/
theorem calculateTriggerAddresses_eq {fs : List (List ℕ)} {faultList : List FaultEntry}
    (hne : tbinfo ≠ []) (hfs : buildFilters tbinfo = .ok fs) :
    calculateTriggerAddresses heap faultList tbexec tbinfo
      = (faultList.flatMap FaultEntry.faultlist).foldlM
          (resolveAt (fs.map List.reverse) tbexec tbinfo) heap := by
  have hempty : tbinfo.isEmpty = false := by simpa using hne
  have hnil : CacheOk (fs.map List.reverse) tbexec tbinfo [] := by
    intro a d h; simp at h
  rw [← foldlM_calculateTriggerAddress _ heap [] hnil]
  simp only [calculateTriggerAddresses, hempty, hfs, Bool.false_eq_true, if_false, bind, Except.bind]
  cases (faultList.flatMap FaultEntry.faultlist).foldlM
    (calculateTriggerAddress (fs.map List.reverse) tbexec tbinfo) (heap, []) <;> rfl

end Cache

/-! ### On a golden trace -/

section Golden

variable {g : GoldenTrace} {filters : List (List ℕ)} {heap : Heap ConfigFault}

/-- A fault the pass can handle: its trigger is not relative or its address is an integer. -/
def Resolvable (f : ConfigFault) : Prop :=
  f.trigger.address ≥ 0 ∨ f.trigger.hitcounter = 0 ∨ ∃ a, f.address = .int a

/-- Resolving a fault gives a fault that can be handled again. -/
theorem resolve_total (hf : filters.Perm (g.tbinfo.map TbInfo.insns))
    (hsize : ∀ u ∈ g.tbinfo, 2 ≤ u.size) (hne : g.tbexec ≠ []) {f : ConfigFault}
    (h : Resolvable f) :
    ∃ f', resolve filters g.tbexec g.tbinfo f = .ok f' ∧ Resolvable f' := by
  by_cases hskip : f.trigger.address ≥ 0 ∨ f.trigger.hitcounter = 0
  · exact ⟨f, by rw [resolve, if_pos hskip], h⟩
  · obtain ⟨a, ha⟩ : ∃ a, f.address = .int a := by
      rcases h with h | h | h
      · exact absurd (.inl h) hskip
      · exact absurd (.inr h) hskip
      · exact h
    obtain ⟨ans, hans⟩ := GoldenTrace.triggerAnswer_total hf hsize hne a f.trigger
      f.lifespan (by omega) (by omega)
    refine ⟨f.setAnswer ans, ?_, .inr (.inr ⟨a, ha⟩)⟩
    rw [resolve, if_neg hskip, ha]
    simp only [intAddress, bind, Except.bind, hans]
    rfl

/-- The pass reaches its end, and a fault whose resolved form is final has it afterwards iff it is
    in one of the lists, however often the pass comes by. -/
theorem foldlM_resolveAt (hf : filters.Perm (g.tbinfo.map TbInfo.insns))
    (hsize : ∀ u ∈ g.tbinfo, 2 ≤ u.size) (hne : g.tbexec ≠ []) :
    ∀ (refs : List ℕ) (heap : Heap ConfigFault), (∀ s ∈ refs, Resolvable (heap.get s)) →
    ∃ heap', refs.foldlM (resolveAt filters g.tbexec g.tbinfo) heap = .ok heap' ∧
      ∀ r f, resolve filters g.tbexec g.tbinfo (heap.get r) = .ok f →
        resolve filters g.tbexec g.tbinfo f = .ok f →
        heap'.get r = if r ∈ refs then f else heap.get r
  | [], heap, _ => ⟨heap, rfl, fun r f _ _ => by simp⟩
  | s :: refs, heap, hint => by
    obtain ⟨f₀, hres, hok⟩ := resolve_total hf hsize hne (hint s List.mem_cons_self)
    have hrest : ∀ s' ∈ refs, Resolvable ((heap.set s f₀).get s') := by
      intro s' hs'
      rw [Heap.get_set]
      split
      · exact hok
      · exact hint s' (List.mem_cons_of_mem _ hs')
    obtain ⟨heap', hfold, hget⟩ := foldlM_resolveAt hf hsize hne refs (heap.set s f₀) hrest
    refine ⟨heap', by rw [List.foldlM_cons, resolveAt, hres]; exact hfold, ?_⟩
    intro r f hr hfinal
    by_cases hrs : r = s
    · subst hrs
      obtain rfl : f₀ = f := Except.ok.inj (hres.symm.trans hr)
      rw [hget r f₀ (by rwa [Heap.get_set_self]) hfinal, Heap.get_set_self]
      simp
    · rw [hget r f (by rwa [Heap.get_set_ne _ hrs]) hfinal, Heap.get_set_ne _ hrs]
      simp [hrs]

/-- A fault that is to be triggered `x` instructions before the `n`-th execution of its address gets
    the instruction there as trigger, the executions of it so far as hitcounter, and keeps the rest,
    whatever else is in the list. -/
theorem calculateTriggerAddresses_correct (hsize : ∀ u ∈ g.tbinfo, 2 ≤ u.size)
    {faultList : List FaultEntry}
    (hint : ∀ s ∈ faultList.flatMap FaultEntry.faultlist, Resolvable (heap.get s))
    {r : ℕ} (hr : r ∈ faultList.flatMap FaultEntry.faultlist) {a : Int} {x n q : ℕ}
    (haddr : (heap.get r).address = .int a) (htrigger : (heap.get r).trigger = ⟨-x, n⟩)
    (hx : 1 ≤ x) (hlife : (heap.get r).lifespan = 0 ∨ (x : Int) ≤ (heap.get r).lifespan)
    (hq : g.NthExecution a n q) (hxq : x ≤ q) :
    ∃ heap' j, calculateTriggerAddresses heap faultList g.tbexec g.tbinfo = .ok heap' ∧
      g.flat[q - x]? = some j ∧ heap'.get r =
        { heap.get r with trigger := ⟨j, (g.flat.take (q - x + 1)).count j⟩ } := by
  obtain ⟨fs, hfs, hf⟩ := g.buildFilters_ok
  obtain ⟨k, i, ins, t, hp, -, hn, -, -⟩ := hq.place
  obtain ⟨e, he, -⟩ := hp.exec
  have hne : g.tbexec ≠ [] := List.ne_nil_of_mem (List.mem_of_getElem? he)
  have hinfo : g.tbinfo ≠ [] := List.ne_nil_of_mem hp.row
  obtain ⟨j, hj, hans⟩ := g.triggerAnswer_spec hf hsize hq hx hxq hlife
  have hskip : ¬ ((heap.get r).trigger.address ≥ 0 ∨ (heap.get r).trigger.hitcounter = 0) := by
    rw [htrigger]; simp only; omega
  have hres : resolve (fs.map List.reverse) g.tbexec g.tbinfo (heap.get r) = .ok
      { heap.get r with trigger := ⟨j, (g.flat.take (q - x + 1)).count j⟩ } := by
    rw [resolve, if_neg hskip, haddr, htrigger]
    simp only [intAddress, bind, Except.bind, hans]
    rfl
  -- the trigger is absolute now, a further visit leaves it alone
  have hfinal : resolve (fs.map List.reverse) g.tbexec g.tbinfo
      { heap.get r with trigger := ⟨j, (g.flat.take (q - x + 1)).count j⟩ } = .ok
      { heap.get r with trigger := ⟨j, (g.flat.take (q - x + 1)).count j⟩ } :=
    if_pos (.inl (Int.natCast_nonneg j))
  obtain ⟨heap', hfold, hget⟩ := foldlM_resolveAt hf hsize hne _ heap hint
  refine ⟨heap', j, ?_, hj, ?_⟩
  · rw [calculateTriggerAddresses_eq hinfo hfs, hfold]
  · rw [hget r _ hres hfinal, if_pos hr]

end Golden

/-! ### A TB inside another one

    `0x100` runs into the TB at `0x102`, whose one instruction has `width` bytes. Both are executed
    before the faulted `0x200`, so its predecessor `0x102` is hit twice. -/

def subTb (width : ℕ) : List TbInfo :=
  [⟨0x102, width, 1, 1, "[ 102 ]: bx lr \n".toList⟩,
   ⟨0x100, 2 + width, 2, 1, "[ 100 ]: nop \n[ 102 ]: bx lr \n".toList⟩,
   ⟨0x200, 2, 1, 1, "[ 200 ]: nop \n".toList⟩]

theorem subTb_insns {width : ℕ} {t : TbInfo} (ht : t ∈ subTb width) :
    (t.id = 0x102 ∧ t.size = width ∧ t.insns = [0x102] ∧ t.insCount = 1 ∧
      asmAddresses t.assembler = .ok [0x102]) ∨
    (t.id = 0x100 ∧ t.size = 2 + width ∧ t.insns = [0x100, 0x102] ∧ t.insCount = 2 ∧
      asmAddresses t.assembler = .ok [0x100, 0x102]) ∨
    (t.id = 0x200 ∧ t.size = 2 ∧ t.insns = [0x200] ∧ t.insCount = 1 ∧
      asmAddresses t.assembler = .ok [0x200]) := by
  simp only [subTb, List.mem_cons, List.not_mem_nil, or_false] at ht
  rcases ht with rfl | rfl | rfl
  · exact .inl ⟨rfl, rfl, rfl, rfl, rfl⟩
  · exact .inr (.inl ⟨rfl, rfl, rfl, rfl, rfl⟩)
  · exact .inr (.inr ⟨rfl, rfl, rfl, rfl, rfl⟩)

def subTbTrace (width : ℕ) (hpos : 0 < width) (hwidth : width ≤ 2) : GoldenTrace where
  tbexec := [⟨0x102, 0⟩, ⟨0x100, 1⟩, ⟨0x200, 2⟩]
  tbinfo := subTb width
  wellFormed t ht := by
    rcases subTb_insns ht with ⟨hid, hsize, hins, hcount, hparse⟩ | ⟨hid, hsize, hins, hcount, hparse⟩ |
      ⟨hid, hsize, hins, hcount, hparse⟩ <;>
    exact ⟨hins ▸ hparse, by simp [hins], by simp [hins, hid], by simp [hins, hid, hsize]; try omega,
      by simp [hins, hcount]⟩
  idsNodup := by simp [subTb]
  executed e he := by
    simp only [List.mem_cons, List.not_mem_nil, or_false] at he
    rcases he with rfl | rfl | rfl <;> simp [subTb]
  oneInsn t ht u hu i j a hi hj := by
    rcases subTb_insns ht with ⟨hid, hsize, hins, -⟩ | ⟨hid, hsize, hins, -⟩ | ⟨hid, hsize, hins, -⟩ <;>
    rcases subTb_insns hu with ⟨hid', hsize', hins', -⟩ | ⟨hid', hsize', hins', -⟩ |
      ⟨hid', hsize', hins', -⟩ <;>
    · obtain ⟨hmem, hstart, hin, hnext⟩ := hi
      obtain ⟨hmem', hstart', hin', hnext'⟩ := hj
      simp [hins, hins', hid, hid', hsize, hsize'] at hmem hmem' hin hin' hnext hnext'
      omega
  sameEnd t ht u hu i hi hi' := by
    rcases subTb_insns ht with ⟨hid, hsize, hins, -⟩ | ⟨hid, hsize, hins, -⟩ | ⟨hid, hsize, hins, -⟩ <;>
    rcases subTb_insns hu with ⟨hid', hsize', hins', -⟩ | ⟨hid', hsize', hins', -⟩ |
      ⟨hid', hsize', hins', -⟩ <;>
    · simp [hins] at hi
      simp [hins'] at hi'
      omega

/-- A fault on `0x200`, triggered one instruction before its first execution. -/
def subTbFault : ConfigFault :=
  ⟨⟨-1, 1⟩, .int 0x200, [], 1, 0, 0, .int 1, 1, false⟩

def subTbHeap : Heap ConfigFault := ⟨fun _ => subTbFault, 1⟩

theorem subTb_nthExecution (width : ℕ) (hpos : 0 < width) (hwidth : width ≤ 2) :
    (subTbTrace width hpos hwidth).NthExecution 0x200 1 3 := by
  refine ⟨0x200, rfl, ⟨⟨0x200, 2, 1, 1, "[ 200 ]: nop \n".toList⟩, by simp [subTbTrace, subTb], ?_⟩, rfl⟩
  exact ⟨by decide, le_rfl, by decide, by decide⟩

theorem calculateTriggerAddresses_subTb : ∃ (heap' : Heap ConfigFault) (j : ℕ),
    calculateTriggerAddresses subTbHeap [⟨0, [0], false⟩] (subTbTrace 2 (by decide) le_rfl).tbexec
      (subTbTrace 2 (by decide) le_rfl).tbinfo = .ok heap' ∧
    (subTbTrace 2 (by decide) le_rfl).flat[3 - 1]? = some j ∧ heap'.get 0 =
      { subTbFault with trigger :=
        ⟨j, ((subTbTrace 2 (by decide) le_rfl).flat.take (3 - 1 + 1)).count j⟩ } :=
  calculateTriggerAddresses_correct (g := subTbTrace 2 (by decide) le_rfl)
    (by
      intro u hu
      rcases subTb_insns hu with ⟨-, h, -⟩ | ⟨-, h, -⟩ | ⟨-, h, -⟩ <;> omega)
    (fun s _ => .inr (.inr ⟨0x200, rfl⟩)) (r := 0) (by decide) (a := 0x200) (x := 1) (n := 1) (q := 3)
    rfl rfl le_rfl (.inl rfl) (subTb_nthExecution 2 (by decide) le_rfl) (by decide)

/-- With a one-byte instruction at `0x102` its TB is missed and the second hit is not counted. -/
theorem calculateTriggerAddresses_misses_oneByte :
    (subTbTrace 1 (by decide) (by decide)).NthExecution 0x200 1 3 ∧
    ¬ ∃ (heap' : Heap ConfigFault) (j : ℕ),
      calculateTriggerAddresses subTbHeap [⟨0, [0], false⟩]
        (subTbTrace 1 (by decide) (by decide)).tbexec
        (subTbTrace 1 (by decide) (by decide)).tbinfo = .ok heap' ∧
      (subTbTrace 1 (by decide) (by decide)).flat[3 - 1]? = some j ∧ heap'.get 0 =
        { subTbFault with trigger :=
          ⟨j, ((subTbTrace 1 (by decide) (by decide)).flat.take (3 - 1 + 1)).count j⟩ } := by
  refine ⟨subTb_nthExecution 1 (by decide) (by decide), ?_⟩
  rintro ⟨heap', j, hcalc, hj, hget⟩
  have hone : (calculateTriggerAddresses subTbHeap [⟨0, [0], false⟩]
      (subTbTrace 1 (by decide) (by decide)).tbexec
      (subTbTrace 1 (by decide) (by decide)).tbinfo).map (fun h => (h.get 0).trigger.hitcounter)
        = .ok 1 := by decide +kernel
  obtain rfl : 0x102 = j := Option.some.inj hj
  rw [hcalc] at hone
  have htwo : (heap'.get 0).trigger.hitcounter = 2 := by rw [hget]; rfl
  exact absurd (htwo.symm.trans (Except.ok.inj hone)) (by decide)

end Archie.Campaign
