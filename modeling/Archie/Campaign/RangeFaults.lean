import Archie.Lib.RangeScan
import Archie.Campaign.WildcardHits

/-! The instructions of a wildcard range, `generate_wildcard_faults` of goldenrun.py and
    `build_ranges` of controller.py.

    The end of the range is looked for before its start, and an excluded instruction is left before
    the end could stop the walk:

        start and end in one instruction     the end is never met
        end excluded, a kept one behind it   that one is faulted, too                              -/

namespace Archie.Campaign
open Python Blocks RangeScan

/-! ### The configuration -/

/-- An entry of a wildcard `fault_address`; the numbers of a text `"address/hitcounter"` are read
    already. -/
inductive RangeEntry where
  | star
  | int (address : Int)
  | text (address : Int) (hitcounter : Option ℕ)

/-- One entry, for the end point once an asterisk has been seen. -/
def buildPoint (range : WildcardRange × Bool) : RangeEntry → WildcardRange × Bool
  | .star => (range.1, true)
  | .int address => (setPoint address 1, range.2)
  | .text address hitcounter => (setPoint address (hitcounter.getD 1), range.2)
where
  setPoint (address : Int) (hitcounter : ℕ) : WildcardRange :=
    if range.2 then { range.1 with end_ := ⟨address, hitcounter⟩ }
    else { range.1 with start := ⟨address, hitcounter⟩ }

/-- `none` where the assertion on the length fails. -/
def buildWildcardRange (faultRange : List RangeEntry) : Option WildcardRange :=
  if 1 ≤ faultRange.length ∧ faultRange.length < 4 then
    let w := (faultRange.foldl buildPoint (⟨⟨0, 0⟩, ⟨0, 0⟩, false⟩, false)).1
    let onlyStar := match faultRange with
      | [.star] => true
      | _ => false
    some { w with local_ := !onlyStar && decide (w.start.hitcounter = 0 ∧ w.end_.hitcounter = 0) }
  else none

theorem buildWildcardRange_points (a b : Int) {n m : ℕ} (hn : 1 ≤ n) :
    buildWildcardRange [.text a (some n), .star, .text b (some m)] = some ⟨⟨a, n⟩, ⟨b, m⟩, false⟩ := by
  have hlocal : ¬(n = 0 ∧ m = 0) := fun h => by omega
  simp [buildWildcardRange, buildPoint, buildPoint.setPoint, hlocal]

/-! ### The walk as a scan -/

def Excluded (fault : ConfigFault) (instr : ℕ) : Bool :=
  fault.addressExclude.any fun region => decide ((instr : Int) ∈ region)

/-- A mask for an instruction width: a number, or an entry of the dictionary. -/
def HasMask (fault : ConfigFault) (size : Int) : Prop :=
  match fault.mask with
  | .int _ => True
  | .dict masks => (masks.lookup (strInt size)).isSome

/-- The range on instructions with their widths. -/
def scannedRange (fault : ConfigFault) (w : WildcardRange) : Range (ℕ × Int) where
  start z := decide ((z.1 : Int) = w.start.address)
  stop z := decide ((z.1 : Int) = w.end_.address)
  keep z := !Excluded fault z.1
  stopAt := w.end_.hitcounter

def WildcardWalk.counters (s : WildcardWalk) : Counters :=
  ⟨s.rangeStartCounter, s.rangeEndCounter, s.rangeEndReached⟩

/-- The walk with other counters and some more faults. -/
def WildcardWalk.advance (s : WildcardWalk) (c : Counters) (fs : List ConfigFault) : WildcardWalk :=
  { s with
    rangeStartCounter := c.waiting
    rangeEndCounter := c.stops
    rangeEndReached := c.reached
    faults := s.faults ++ fs }

variable {fault : ConfigFault} {w : WildcardRange} {tb : TbAnalysis} {s : WildcardWalk}

theorem counters_advance (c : Counters) (fs : List ConfigFault) : (s.advance c fs).counters = c := rfl

theorem advance_advance (c d : Counters) (fs fs' : List ConfigFault) :
    (s.advance c fs).advance d fs' = s.advance d (fs ++ fs') := by
  simp [WildcardWalk.advance]

theorem advance_counters : s.advance s.counters [] = s := by
  simp [WildcardWalk.advance, WildcardWalk.counters]

theorem countEnd_eq (fault : ConfigFault) (hend : w.end_.hitcounter ≠ 0) (instr : ℕ) (size : Int) :
    s.countEnd w instr = { s with
      rangeEndCounter := ((scannedRange fault w).visit s.counters (instr, size)).stops
      rangeEndReached := ((scannedRange fault w).visit s.counters (instr, size)).reached } := by
  unfold WildcardWalk.countEnd
  by_cases hstop : (instr : Int) = w.end_.address
  · rw [if_pos ⟨hend, hstop⟩]
    simp only [Range.visit, scannedRange, WildcardWalk.counters, hstop, decide_true, if_true, Bool.true_and]
    rfl
  · rw [if_neg fun h => hstop h.2]
    simp [Range.visit, scannedRange, WildcardWalk.counters, hstop]

/-- The two counters of an instruction are those of the scan. -/
theorem countStart_countEnd (fault : ConfigFault) (hend : w.end_.hitcounter ≠ 0) (instr : ℕ)
    (size : Int) :
    (s.countEnd w instr).countStart w instr
      = (s.advance ((scannedRange fault w).visit s.counters (instr, size)) [],
        decide (((scannedRange fault w).visit s.counters (instr, size)).waiting = 0)) := by
  rw [countEnd_eq fault hend instr size]
  simp only [WildcardWalk.countStart, WildcardWalk.advance, Range.visit, scannedRange,
    WildcardWalk.counters, decide_eq_true_eq, List.append_nil]
  by_cases hzero : s.rangeStartCounter = 0
  · simp [hzero]
  · by_cases hstart : (instr : Int) = w.start.address
    · simp [hzero, hstart]
    · simp [hzero, hstart]

theorem wildcardInstr_eq (hend : w.end_.hitcounter ≠ 0) (hlocal : w.local_ = false) (instr : ℕ)
    (size : Int) : wildcardInstr fault w tb s instr size =
      let c := (scannedRange fault w).visit s.counters (instr, size)
      if c.waiting = 0 ∧ (scannedRange fault w).keep (instr, size) = true then
        instrFault fault tb instr size >>= fun f => .ok (s.advance c [f], c.reached)
      else .ok (s.advance c [], false) := by
  simp only [wildcardInstr, countStart_countEnd fault hend instr size,
    WildcardWalk.switchLocal, hlocal, Bool.false_eq_true, if_false]
  generalize (scannedRange fault w).visit s.counters (instr, size) = c
  by_cases hwait : c.waiting = 0
  · cases hex : Excluded fault instr with
    | true =>
      have hany : (fault.addressExclude.any fun region => decide ((instr : Int) ∈ region)) = true := hex
      simp [hwait, scannedRange, hex, hany, pure, Except.pure]
    | false =>
      have hany : (fault.addressExclude.any fun region => decide ((instr : Int) ∈ region)) = false := hex
      simp [hwait, scannedRange, hex, hany, pure, Except.pure, WildcardWalk.advance]
  · simp [hwait, pure, Except.pure]

/-- The instructions of a TB: a scan, and a copy of the fault for each instruction it selects. -/
theorem wildcardInstrs_eq (hend : w.end_.hitcounter ≠ 0) (hlocal : w.local_ = false)
    (zs : List (ℕ × Int)) : wildcardInstrs fault w tb s zs =
      ((scannedRange fault w).scanBlock s.counters zs).2.mapM (fun z => instrFault fault tb z.1 z.2)
        >>= fun fs => .ok (s.advance ((scannedRange fault w).scanBlock s.counters zs).1 fs) := by
  induction zs generalizing s with
  | nil =>
    simp only [wildcardInstrs, Range.scanBlock, List.mapM_nil, pure, Except.pure, bind, Except.bind,
      advance_counters]
  | cons z zs ih =>
    obtain ⟨instr, size⟩ := z
    rw [wildcardInstrs, wildcardInstr_eq hend hlocal, Range.scanBlock]
    simp only []
    generalize (scannedRange fault w).visit s.counters (instr, size) = c
    split
    · cases hf : instrFault fault tb instr size with
      | error e =>
        split <;> simp [hf, List.mapM_cons, bind, Except.bind]
      | ok f =>
        split
        · next hreached =>
          simp [hf, hreached, List.mapM_cons, bind, Except.bind, pure, Except.pure]
        · next hreached =>
          have hrest := ih (s := s.advance c [f])
          rw [counters_advance] at hrest
          simp only [hf, hreached, List.mapM_cons, bind, Except.bind, pure, Except.pure] at hrest ⊢
          rw [if_neg Bool.false_ne_true, hrest]
          cases List.mapM (fun z => instrFault fault tb z.1 z.2)
              ((scannedRange fault w).scanBlock c zs).2 with
          | error e => rfl
          | ok fs => exact congrArg Except.ok (advance_advance ..)
    · have hrest := ih (s := s.advance c [])
      rw [counters_advance] at hrest
      simp only [advance_advance, List.nil_append] at hrest
      simpa [bind, Except.bind] using hrest

/-! ### The copies -/

theorem instrFault_cases (fault : ConfigFault) (tb : TbAnalysis) (instr : ℕ) (size : Int) :
    (HasMask fault size ∧ ∃ f, instrFault fault tb instr size = .ok f ∧ f.address = .int instr) ∨
      (¬ HasMask fault size ∧ instrFault fault tb instr size = .error .keyError) := by
  unfold HasMask instrFault
  cases hmask : fault.mask with
  | int m => exact .inl ⟨trivial, _, rfl, rfl⟩
  | dict masks =>
    cases hlook : masks.lookup (strInt size) with
    | some m =>
      simp only [hlook]
      exact .inl ⟨rfl, _, rfl, rfl⟩
    | none =>
      simp only [hlook]
      exact .inr ⟨Bool.false_ne_true, trivial⟩

/-- The addresses that faults on some instructions have. -/
def faultAddresses (zs : List (ℕ × Int)) : List FaultAddress := zs.map fun z => .int z.1

/-- Copies fail at a width without a mask, and nowhere else. -/
theorem mapM_instrFault (fault : ConfigFault) (tb : TbAnalysis) (zs : List (ℕ × Int)) :
    ((∀ z ∈ zs, HasMask fault z.2) → ∃ fs, zs.mapM (fun z => instrFault fault tb z.1 z.2) = .ok fs ∧
      fs.map (fun f => f.address) = faultAddresses zs) ∧
    ((¬ ∀ z ∈ zs, HasMask fault z.2) →
      zs.mapM (fun z => instrFault fault tb z.1 z.2) = .error .keyError) := by
  induction zs with
  | nil => exact ⟨fun _ => ⟨[], rfl, rfl⟩, fun h => absurd (fun z hz => absurd hz List.not_mem_nil) h⟩
  | cons z zs ih =>
    rw [List.mapM_cons, List.forall_mem_cons]
    rcases instrFault_cases fault tb z.1 z.2 with ⟨hmask, f, hf, haddr⟩ | ⟨hmask, hf⟩
    · rw [hf]
      refine ⟨fun h => ?_, fun h => ?_⟩
      · obtain ⟨fs, hfs, haddrs⟩ := ih.1 h.2
        refine ⟨f :: fs, by rw [hfs]; rfl, ?_⟩
        rw [List.map_cons, haddr, haddrs]
        rfl
      · rw [ih.2 fun hzs => h ⟨hmask, hzs⟩]
        rfl
    · rw [hf]
      exact ⟨fun h => absurd h.1 hmask, fun _ => rfl⟩

/-! ### The trace -/

namespace GoldenTrace

variable {g : GoldenTrace}

/-- The instructions that one execution of a TB runs through, with their widths. -/
def sizedBlock (g : GoldenTrace) (e : TbExec) : List (ℕ × Int) :=
  match g.tbinfo.find? fun t => t.id = e.tb with
  | some t => t.insns.zip (tbInfoSize t.insns t.size)
  | none => []

def sizedBlocks (g : GoldenTrace) : List (List (ℕ × Int)) := g.tbexec.map g.sizedBlock

/-- The trace flattened to instructions with their widths. -/
def sized (g : GoldenTrace) : List (ℕ × Int) := g.sizedBlocks.flatten

theorem sizedBlock_eq {t : TbInfo} (ht : t ∈ g.tbinfo) {e : TbExec} (he : e.tb = t.id) :
    g.sizedBlock e = t.insns.zip (tbInfoSize t.insns t.size) := by
  rw [sizedBlock, he, Keyed.find?_key g.idsNodup ht]

theorem map_fst_sizedBlock {e : TbExec} (he : e ∈ g.tbexec) :
    (g.sizedBlock e).map Prod.fst = g.block e := by
  obtain ⟨t, ht, hid, hblock⟩ := exists_row he
  rw [hblock, sizedBlock_eq ht hid, map_fst_zip_tbInfoSize ht]

theorem map_fst_sized : g.sized.map Prod.fst = g.flat := by
  rw [sized, sizedBlocks, flat, blocks, List.map_flatten, List.map_map]
  exact congrArg List.flatten (List.map_congr_left fun e he => map_fst_sizedBlock he)

/-- The walk over the rest of the trace: a scan, and a copy for each instruction it selects. -/
theorem wildcardTbs_scan (g : GoldenTrace) (fault : ConfigFault) (w : WildcardRange)
    (hend : w.end_.hitcounter ≠ 0) (hlocal : w.local_ = false) (hs : s.rangeEndReached = false)
    {es₀ es : List TbExec}
    (hes : g.tbexec = es₀ ++ es) :
    ((∀ z ∈ ((scannedRange fault w).scan s.counters (es.map g.sizedBlock)).2, HasMask fault z.2) →
      ∃ fs, wildcardTbs fault w g.tbinfo (g.hitRows es₀) s es
          = .ok (s.advance ((scannedRange fault w).scan s.counters (es.map g.sizedBlock)).1 fs) ∧
        fs.map (fun f => f.address)
          = faultAddresses ((scannedRange fault w).scan s.counters (es.map g.sizedBlock)).2) ∧
    ((¬ ∀ z ∈ ((scannedRange fault w).scan s.counters (es.map g.sizedBlock)).2, HasMask fault z.2) →
      wildcardTbs fault w g.tbinfo (g.hitRows es₀) s es = .error .keyError) := by
  induction es generalizing s es₀ with
  | nil =>
    refine ⟨fun _ => ⟨[], ?_, rfl⟩, fun h => absurd (fun z hz => absurd hz List.not_mem_nil) h⟩
    rw [List.map_nil, Range.scan, advance_counters]
    rfl
  | cons e es ih =>
    have hk : g.tbexec[es₀.length]? = some e := by rw [hes]; simp
    have htake : g.tbexec.take es₀.length = es₀ := by rw [hes]; simp
    obtain ⟨t, ht, hid, -⟩ := exists_row (List.mem_of_getElem? hk)
    obtain ⟨tb, hwalk, -⟩ := wildcardTb_hits fault w s ht hk hid
    rw [htake, wildcardInstrs_eq hend hlocal, ← sizedBlock_eq ht hid] at hwalk
    rw [wildcardTbs_cons, hwalk, countTb_hitRows, List.map_cons, Range.scan]
    generalize (scannedRange fault w).scanBlock s.counters (g.sizedBlock e) = d
    obtain ⟨hok, hfail⟩ := mapM_instrFault fault tb d.2
    by_cases hmasks : ∀ z ∈ d.2, HasMask fault z.2
    · obtain ⟨fs₁, hfs₁, haddr₁⟩ := hok hmasks
      rw [hfs₁]
      simp only [bind, Except.bind]
      cases hreached : d.1.reached with
      | true =>
        have hstop : (s.advance d.1 fs₁).rangeEndReached = true := hreached
        rw [if_pos hstop]
        simp only [if_true]
        exact ⟨fun _ => ⟨fs₁, rfl, haddr₁⟩, fun h => absurd hmasks h⟩
      | false =>
        have hgo : (s.advance d.1 fs₁).rangeEndReached = false := hreached
        have hes' : g.tbexec = (es₀ ++ [e]) ++ es := by rw [hes, List.append_assoc]; rfl
        obtain ⟨hok', hfail'⟩ := ih hgo hes'
        rw [counters_advance] at hok' hfail'
        simp only [hgo, Bool.false_eq_true, if_false, List.forall_mem_append]
        refine ⟨fun h => ?_, fun h => hfail' fun h' => h ⟨hmasks, h'⟩⟩
        obtain ⟨fs, hfs, haddr⟩ := hok' h.2
        refine ⟨fs₁ ++ fs, by rw [hfs, advance_advance], ?_⟩
        rw [List.map_append, haddr₁, haddr, faultAddresses, faultAddresses, faultAddresses, List.map_append]
    · rw [hfail hmasks]
      have hmore : ¬ ∀ z ∈ (if d.1.reached = true then d
          else (((scannedRange fault w).scan d.1 (es.map g.sizedBlock)).1,
            d.2 ++ ((scannedRange fault w).scan d.1 (es.map g.sizedBlock)).2)).2, HasMask fault z.2 := by
        intro h
        refine hmasks fun z hz => h z ?_
        split
        · exact hz
        · exact List.mem_append_left _ hz
      exact ⟨fun h => absurd h hmore, fun _ => rfl⟩

/-- The expansion of a wildcard fault: the copies of its scan, if that met both ends. -/
theorem generateWildcardFaults_scan (hne : g.tbexec ≠ []) (hw : fault.address = .range w)
    (hend : w.end_.hitcounter ≠ 0) (hlocal : w.local_ = false) {d : Counters × List (ℕ × Int)}
    (hd : (scannedRange fault w).scan ⟨w.start.hitcounter, 0, false⟩ g.sizedBlocks = d) :
    ((∀ z ∈ d.2, HasMask fault z.2) → ∃ fs, fs.map (fun f => f.address) = faultAddresses d.2 ∧
      generateWildcardFaults fault g.tbexec g.tbinfo
        = if d.1.waiting = 0 ∧ d.1.reached = true then .ok fs else .error .systemExit) ∧
    ((¬ ∀ z ∈ d.2, HasMask fault z.2) →
      generateWildcardFaults fault g.tbexec g.tbinfo = .error .keyError) := by
  have hrows : g.tbinfo ≠ [] := by
    obtain ⟨e, he⟩ := List.exists_mem_of_ne_nil _ hne
    obtain ⟨t, ht, -⟩ := g.executed e he
    exact List.ne_nil_of_mem ht
  have hempty : ¬(g.tbinfo.isEmpty = true ∨ g.tbexec.isEmpty = true) := by simp [hne, hrows]
  obtain ⟨hok, hfail⟩ := wildcardTbs_scan g fault w
    (s := ⟨w.start.hitcounter, 0, false, false, []⟩) hend hlocal rfl (List.nil_append g.tbexec).symm
  have hcounters : WildcardWalk.counters ⟨w.start.hitcounter, 0, false, false, []⟩
      = ⟨w.start.hitcounter, 0, false⟩ := rfl
  rw [hcounters, ← sizedBlocks, hd, ← tbHitcounters_eq] at hok hfail
  simp only [generateWildcardFaults, hw, if_neg hempty]
  refine ⟨fun h => ?_, fun h => ?_⟩
  · obtain ⟨fs, hfs, haddr⟩ := hok h
    refine ⟨fs, haddr, ?_⟩
    rw [hfs]
    simp only [pure, Except.pure, bind, Except.bind, WildcardWalk.advance, List.nil_append]
    by_cases hwait : d.1.waiting = 0
    · by_cases hreached : d.1.reached = true
      · simp [hwait, hreached]
      · simp [hwait, hreached, hend]
    · simp [hwait]
  · rw [hfail h]
    rfl

/-- `p` is the position in the flattened trace of the `n`-th execution of the instruction at an
    address. -/
def ExecutedAt (g : GoldenTrace) (t : Trigger) (p : ℕ) : Prop :=
  IsNth (fun ins : ℕ => decide ((ins : Int) = t.address)) t.hitcounter g.flat p

/-- One fault for each instruction executed from the start of the range to its end that is not
    excluded, in this order; an exit if there is no such range. -/
structure RangeFaulted (g : GoldenTrace) (fault : ConfigFault) (w : WildcardRange) : Prop where
  met : ∀ p q, g.ExecutedAt w.start p → g.ExecutedAt w.end_ q → p ≤ q →
    ∃ fs, generateWildcardFaults fault g.tbexec g.tbinfo = .ok fs ∧ fs.map (fun f => f.address)
      = (((g.flat.take (q + 1)).drop p).filter fun a => !Excluded fault a).map fun a => .int a
  unmet : (¬ ∃ p q, g.ExecutedAt w.start p ∧ g.ExecutedAt w.end_ q ∧ p ≤ q) →
    generateWildcardFaults fault g.tbexec g.tbinfo = .error .systemExit

/-- The instructions of a list that are not excluded have a mask. -/
def Masked (fault : ConfigFault) (zs : List (ℕ × Int)) : Prop :=
  ∀ z ∈ zs, Excluded fault z.1 = false → HasMask fault z.2

/-- An end point at `q` that is excluded has only excluded instructions behind it in its TB. -/
def EndsTb (g : GoldenTrace) (fault : ConfigFault) (q : ℕ) : Prop :=
  ∀ k b m x, g.blocks[k]? = some b → b[m]? = some x → q = offset g.blocks k + m →
    Excluded fault x = true → ∀ y ∈ b.drop (m + 1), Excluded fault y = true

/-- The trace is not empty; the start and the end are different executions, the end is not excluded
    or ends what is kept of its TB; the instructions from the start on have masks. -/
structure RangeCovered (g : GoldenTrace) (fault : ConfigFault) (w : WildcardRange) : Prop where
  executed : g.tbexec ≠ []
  apart : ∀ p, g.ExecutedAt w.start p → ¬ g.ExecutedAt w.end_ p
  met : ∀ p q, g.ExecutedAt w.start p → g.ExecutedAt w.end_ q → p < q →
    g.EndsTb fault q ∧ Masked fault ((g.sized.take (q + 1)).drop p)
  unmet : ∀ p, g.ExecutedAt w.start p → (∀ q, g.ExecutedAt w.end_ q → q < p) →
    Masked fault (g.sized.drop p)

variable {p q : ℕ}

theorem executedAt_start (fault : ConfigFault) : g.ExecutedAt w.start p ↔
    IsNth (scannedRange fault w).start w.start.hitcounter g.sized p := by
  rw [ExecutedAt, ← map_fst_sized, IsNth.map_iff]
  rfl

theorem executedAt_end (fault : ConfigFault) : g.ExecutedAt w.end_ p ↔
    IsNth (scannedRange fault w).stop (scannedRange fault w).stopAt g.sized p := by
  rw [ExecutedAt, ← map_fst_sized, IsNth.map_iff]
  rfl

theorem masked_iff {zs : List (ℕ × Int)} : Masked fault zs ↔
    ∀ z ∈ zs.filter (scannedRange fault w).keep, HasMask fault z.2 := by
  simp [Masked, scannedRange]

theorem faultAddresses_filter {zs : List (ℕ × Int)} :
    faultAddresses (zs.filter (scannedRange fault w).keep)
      = ((zs.map Prod.fst).filter fun a => !Excluded fault a).map fun a => .int a := by
  rw [List.filter_map, List.map_map]
  rfl

theorem blocks_eq_map : g.blocks = g.sizedBlocks.map (List.map Prod.fst) := by
  rw [blocks, sizedBlocks, List.map_map]
  exact (List.map_congr_left fun e he => map_fst_sizedBlock he).symm

/-- Nothing behind the end point is faulted iff the end is kept or the last one kept of its TB. -/
theorem endsTb_iff {k m : ℕ} {b : List (ℕ × Int)} {x : ℕ × Int} (hk : g.sizedBlocks[k]? = some b)
    (hx : b[m]? = some x) (hq : q = offset g.sizedBlocks k + m) : g.EndsTb fault q ↔
      (if (scannedRange fault w).keep x then []
        else ((b.drop (m + 1)).find? (scannedRange fault w).keep).toList) = [] := by
  have hm : m < b.length := (List.getElem?_eq_some_iff.mp hx).1
  have hkeep : ∀ z : ℕ × Int, (scannedRange fault w).keep z = !Excluded fault z.1 := fun _ => rfl
  have hblock : g.blocks[k]? = some (b.map Prod.fst) := by
    rw [blocks_eq_map, List.getElem?_map, hk]
    rfl
  have hends : g.EndsTb fault q ↔
      (Excluded fault x.1 = true → ∀ y ∈ (b.map Prod.fst).drop (m + 1), Excluded fault y = true) := by
    constructor
    · intro h
      refine h k _ m x.1 hblock ?_ ?_
      · rw [List.getElem?_map, hx]
        rfl
      · rw [blocks_eq_map, offset_map, hq]
    · intro h k' b' m' x' hk' hx' hq'
      have hm' : m' < b'.length := (List.getElem?_eq_some_iff.mp hx').1
      rw [hq, ← offset_map Prod.fst g.sizedBlocks k, ← blocks_eq_map] at hq'
      obtain ⟨rfl, rfl⟩ := offset_inj hblock (by simpa using hm) hk' hm' hq'
      obtain rfl := Option.some.inj (hblock.symm.trans hk')
      rw [List.getElem?_map, hx] at hx'
      obtain rfl := Option.some.inj hx'
      exact h
  rw [hends, hkeep]
  cases hex : Excluded fault x.1 with
  | false => simp
  | true => simp [hkeep, ← List.map_drop]

/-- A range that starts before its end: it is expanded as documented iff nothing behind the end is
    faulted and no mask is missing. -/
theorem generate_met_iff (hne : g.tbexec ≠ []) (hw : fault.address = .range w)
    (hstart : 1 ≤ w.start.hitcounter) (hend : w.end_.hitcounter ≠ 0) (hlocal : w.local_ = false)
    (hp : g.ExecutedAt w.start p) (hq : g.ExecutedAt w.end_ q) (hpq : p < q) :
    (∃ fs, generateWildcardFaults fault g.tbexec g.tbinfo = .ok fs ∧ fs.map (fun f => f.address)
      = (((g.flat.take (q + 1)).drop p).filter fun a => !Excluded fault a).map fun a => .int a) ↔
    g.EndsTb fault q ∧ Masked fault ((g.sized.take (q + 1)).drop p) := by
  have hlt : q < g.sizedBlocks.flatten.length := ((executedAt_end fault).mp hq).lt_length
  obtain ⟨k, b, m, hk, hm, hj⟩ := Blocks.exists_offset hlt
  obtain ⟨hreached, hwait, hout⟩ := Range.scan_of_lt (r := scannedRange fault w) hstart
    ((executedAt_start fault).mp hp) ((executedAt_end fault).mp hq) hpq hk (List.getElem?_eq_getElem hm) hj
  rw [← sized] at hout
  have hexpected : (((g.flat.take (q + 1)).drop p).filter fun a => !Excluded fault a).map
      (fun a : ℕ => FaultAddress.int a)
        = faultAddresses (((g.sized.take (q + 1)).drop p).filter (scannedRange fault w).keep) := by
    rw [faultAddresses_filter, List.map_drop, List.map_take, map_fst_sized]
  rw [hexpected, endsTb_iff (w := w) hk (List.getElem?_eq_getElem hm) hj, masked_iff (w := w)]
  obtain ⟨hok, hfail⟩ := generateWildcardFaults_scan hne hw hend hlocal rfl
  simp only [hwait, hreached, and_self, if_true] at hok
  rw [hout] at hok hfail
  generalize ((g.sized.take (q + 1)).drop p).filter (scannedRange fault w).keep = inside at hok hfail ⊢
  generalize (if (scannedRange fault w).keep b[m] = true then []
    else ((b.drop (m + 1)).find? (scannedRange fault w).keep).toList) = behind at hok hfail ⊢
  rw [List.forall_mem_append] at hok hfail
  constructor
  · rintro ⟨fs, hfs, haddr⟩
    have hmasks : (∀ z ∈ inside, HasMask fault z.2) ∧ ∀ z ∈ behind, HasMask fault z.2 := by
      by_contra hmissing
      rw [hfail hmissing] at hfs
      cases hfs
    obtain ⟨fs', haddr', hfs'⟩ := hok hmasks
    obtain rfl := Except.ok.inj (hfs.symm.trans hfs')
    have hlength := congrArg List.length (haddr.symm.trans haddr')
    simp only [faultAddresses, List.length_map, List.length_append] at hlength
    exact ⟨List.length_eq_zero_iff.mp (by omega), hmasks.1⟩
  · rintro ⟨rfl, hmasks⟩
    obtain ⟨fs, haddr, hfs⟩ := hok ⟨hmasks, fun z hz => absurd hz List.not_mem_nil⟩
    rw [List.append_nil] at haddr
    exact ⟨fs, hfs, haddr⟩

/-- A range without an end after its start is reported iff no mask is missing from its start on. -/
theorem generate_unmet (hne : g.tbexec ≠ []) (hw : fault.address = .range w)
    (hstart : 1 ≤ w.start.hitcounter) (hend : w.end_.hitcounter ≠ 0) (hlocal : w.local_ = false)
    (hnot : ∀ p q, g.ExecutedAt w.start p → g.ExecutedAt w.end_ q → ¬ p < q) :
    (∀ fs, generateWildcardFaults fault g.tbexec g.tbinfo ≠ .ok fs) ∧
    (generateWildcardFaults fault g.tbexec g.tbinfo = .error .systemExit ↔
      ∀ p, g.ExecutedAt w.start p → Masked fault (g.sized.drop p)) := by
  have hapart : ∀ i j, IsNth (scannedRange fault w).start w.start.hitcounter g.sized i →
      IsNth (scannedRange fault w).stop (scannedRange fault w).stopAt g.sized j → ¬ i < j :=
    fun i j hi hj => hnot i j ((executedAt_start fault).mpr hi) ((executedAt_end fault).mpr hj)
  obtain ⟨hreached, hout⟩ := Range.scan_of_not_lt hstart hapart
  have hmasks : (∀ z ∈ ((scannedRange fault w).scan ⟨w.start.hitcounter, 0, false⟩ g.sizedBlocks).2,
      HasMask fault z.2) ↔ ∀ p, g.ExecutedAt w.start p → Masked fault (g.sized.drop p) := by
    rw [hout, ← sized]
    by_cases hex : ∃ p, g.ExecutedAt w.start p
    · obtain ⟨p, hp⟩ := hex
      rw [Range.fromNth_eq_drop ((executedAt_start fault).mp hp), ← masked_iff]
      exact ⟨fun h p' hp' => hp.unique hp' ▸ h, fun h => h p hp⟩
    · have hfew : g.sized.countP (scannedRange fault w).start < w.start.hitcounter := by
        by_contra hmany
        obtain ⟨p, hp⟩ := IsNth.exists_of_le_countP hstart (not_lt.mp hmany)
        exact hex ⟨p, (executedAt_start fault).mpr hp⟩
      rw [Range.fromNth_eq_nil hfew]
      exact iff_of_true (fun z hz => absurd hz List.not_mem_nil) fun p hp => absurd ⟨p, hp⟩ hex
  obtain ⟨hok, hfail⟩ := generateWildcardFaults_scan hne hw hend hlocal rfl
  simp only [hreached, Bool.false_eq_true, and_false, if_false] at hok
  rw [hmasks] at hok hfail
  by_cases hm : ∀ p, g.ExecutedAt w.start p → Masked fault (g.sized.drop p)
  · obtain ⟨fs, -, hexit⟩ := hok hm
    rw [hexit]
    exact ⟨fun fs h => (by cases h), iff_of_true rfl hm⟩
  · rw [hfail hm]
    exact ⟨fun fs h => (by cases h), iff_of_false (fun h => by cases h) hm⟩

end GoldenTrace

/-- A range with a start and an end: one fault for each instruction in it that is not excluded, or an
    exit, iff the walk meets the end when it gets there. -/
theorem generateWildcardFaults_range_iff {g : GoldenTrace} {fault : ConfigFault} {w : WildcardRange}
    {a b : Int} {n m : ℕ} (hn : 1 ≤ n) (hm : 1 ≤ m)
    (hbuild : buildWildcardRange [.text a (some n), .star, .text b (some m)] = some w)
    (hw : fault.address = .range w) : g.RangeFaulted fault w ↔ g.RangeCovered fault w := by
  rw [buildWildcardRange_points a b hn] at hbuild
  obtain rfl := Option.some.inj hbuild
  have hend : m ≠ 0 := Nat.ne_of_gt hm
  -- without a start before the end the walk never meets the end
  have hnever : ∀ {p : ℕ}, g.tbexec ≠ [] → g.ExecutedAt ⟨a, n⟩ p → (∀ q, g.ExecutedAt ⟨b, m⟩ q → q ≤ p) →
      (∀ fs, generateWildcardFaults fault g.tbexec g.tbinfo ≠ .ok fs) ∧
      (generateWildcardFaults fault g.tbexec g.tbinfo = .error .systemExit ↔
        GoldenTrace.Masked fault (g.sized.drop p)) := by
    intro p hne hp hbefore
    obtain ⟨hno, hexit⟩ := GoldenTrace.generate_unmet hne hw hn hend rfl fun p' q hp' hq =>
      hp.unique hp' ▸ not_lt.mpr (hbefore q hq)
    refine ⟨hno, hexit.trans ⟨fun h => h p hp, fun h p' hp' => hp.unique hp' ▸ h⟩⟩
  constructor
  · intro h
    have hne : g.tbexec ≠ [] := by
      intro hnil
      have hnone : ¬ ∃ p q, g.ExecutedAt ⟨a, n⟩ p ∧ g.ExecutedAt ⟨b, m⟩ q ∧ p ≤ q := by
        rintro ⟨p, -, hp, -⟩
        have hlt := hp.lt_length
        simp [GoldenTrace.flat, GoldenTrace.blocks, hnil] at hlt
      have hkey : generateWildcardFaults fault g.tbexec g.tbinfo = .error .keyError := by
        rw [generateWildcardFaults, hnil, if_pos (.inr rfl)]
        rfl
      cases hkey.symm.trans (h.unmet hnone)
    refine ⟨hne, fun p hp hq => ?_, fun p q hp hq hpq => ?_, fun p hp hbefore => ?_⟩
    · obtain ⟨fs, hfs, -⟩ := h.met p p hp hq le_rfl
      exact (hnever hne hp fun q hq' => (hq.unique hq').ge).1 fs hfs
    · exact (GoldenTrace.generate_met_iff hne hw hn hend rfl hp hq hpq).mp (h.met p q hp hq hpq.le)
    · refine (hnever hne hp fun q hq => (hbefore q hq).le).2.mp (h.unmet ?_)
      rintro ⟨p', q, hp', hq, hle⟩
      obtain rfl := hp.unique hp'
      exact absurd (hbefore q hq) (not_lt.mpr hle)
  · intro h
    refine ⟨fun p q hp hq hle => ?_, fun hnone => ?_⟩
    · have hpq : p < q := lt_of_le_of_ne hle fun heq => h.apart p hp (heq ▸ hq)
      exact (GoldenTrace.generate_met_iff h.executed hw hn hend rfl hp hq hpq).mpr (h.met p q hp hq hpq)
    · refine (GoldenTrace.generate_unmet h.executed hw hn hend rfl fun p q hp hq hpq =>
        hnone ⟨p, q, hp, hq, hpq.le⟩).2.mpr fun p hp => h.unmet p hp fun q hq => ?_
      exact not_le.mp fun hle => hnone ⟨p, q, hp, hq, hle⟩

/-! ### The trace with the sub-TB

    It runs `0x102`, `0x100`, `0x102`, `0x200`; each instruction is two bytes wide. -/

/-- A range from the first `0x100` to the first execution of `b`, without `0x102`. -/
def subTbRange (b : Int) : WildcardRange := ⟨⟨0x100, 1⟩, ⟨b, 1⟩, false⟩

def subTbRangeFault (b : Int) : ConfigFault :=
  ⟨⟨0, 1⟩, .range (subTbRange b), [[0x102]], 1, 0, 0, .int 1, 1, true⟩

theorem generateWildcardFaults_range_subTb :
    (subTbTrace 2 (by decide) le_rfl).RangeFaulted (subTbRangeFault 0x200) (subTbRange 0x200) := by
  refine (generateWildcardFaults_range_iff (g := subTbTrace 2 (by decide) le_rfl) (a := 0x100) (b := 0x200)
    (n := 1) (m := 1) le_rfl le_rfl rfl rfl).mpr ⟨List.cons_ne_nil _ _, ?_, ?_, ?_⟩
  · exact fun p hp hp' => absurd (hp.unique (j := 1) ⟨rfl, rfl⟩) (hp'.unique (j := 3) ⟨rfl, rfl⟩ ▸ by decide)
  · intro p q _ hq _
    obtain rfl := hq.unique (j := 3) ⟨rfl, rfl⟩
    refine ⟨fun k b m x hk hx hoffset hex => ?_, fun z _ _ => trivial⟩
    have hlast : (subTbTrace 2 (by decide) le_rfl).flat[3]? = some x := by
      rw [hoffset, GoldenTrace.flat, getElem?_offset hk (List.getElem?_eq_some_iff.mp hx).1]
      exact hx
    obtain rfl : 0x200 = x := Option.some.inj hlast
    exact absurd hex (by decide)
  · exact fun p _ _ z _ _ => trivial

/-- A range of one instruction: its end is looked for before its start is met. -/
theorem generateWildcardFaults_misses_single : ¬
    (subTbTrace 2 (by decide) le_rfl).RangeFaulted (subTbRangeFault 0x100) (subTbRange 0x100) := by
  intro h
  obtain ⟨fs, hfs, -⟩ := h.met 1 1 ⟨rfl, rfl⟩ ⟨rfl, rfl⟩ le_rfl
  have hexit : generateWildcardFaults (subTbRangeFault 0x100) (subTbTrace 2 (by decide) le_rfl).tbexec
      (subTbTrace 2 (by decide) le_rfl).tbinfo = .error .systemExit := by decide +kernel
  cases hexit.symm.trans hfs

end Archie.Campaign
