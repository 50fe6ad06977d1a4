import Archie.Campaign.TriggerCorrect
import Archie.Campaign.Wildcard

/-! The hitcounters of expanded wildcard faults on a golden trace.

    The walk keeps one counter per TB, `find_fault` selects rows of the trace by address. Both count
    the executions of an instruction, so a fault is resolved where the walk generated it:

        tbexec   … | T₁ : a b c | T₂ : b c | …      fault on `b` here: hitcounter 2, position of T₂
                                    ▲                                                          -/

namespace Archie.Campaign
open Python Blocks

/-! ### The walk -/

section Walk

variable {fault : ConfigFault} {w : WildcardRange} {tbinfo : List TbInfo} {tb : TbAnalysis}
  {rows : List TbHits} {s s' : WildcardWalk}

theorem WildcardWalk.faults_countEnd (instr : ℕ) : (s.countEnd w instr).faults = s.faults := by
  unfold countEnd
  split <;> rfl

theorem WildcardWalk.faults_countStart (instr : ℕ) : (s.countStart w instr).1.faults = s.faults := by
  unfold countStart
  split
  · rfl
  · split <;> rfl

theorem WildcardWalk.faults_switchLocal (instr : ℕ) : (s.switchLocal w instr).1.faults = s.faults := by
  unfold switchLocal
  split
  · simp only
    split <;> rfl
  · rfl

/-- An instruction generates at most one fault. -/
theorem wildcardInstr_faults {instr : ℕ} {size : Int} {leave : Bool}
    (h : wildcardInstr fault w tb s instr size = .ok (s', leave)) :
    s'.faults = s.faults ∨ ∃ f, instrFault fault tb instr size = .ok f ∧ s'.faults = s.faults ++ [f] := by
  have hstart : ((s.countEnd w instr).countStart w instr).1.faults = s.faults :=
    (WildcardWalk.faults_countStart instr).trans (WildcardWalk.faults_countEnd instr)
  have hlocal := (WildcardWalk.faults_switchLocal (w := w)
    (s := ((s.countEnd w instr).countStart w instr).1) instr).trans hstart
  simp only [wildcardInstr, bind, pure, Except.pure] at h
  split at h
  · obtain ⟨rfl, -⟩ := Prod.mk.inj (Except.ok.inj h)
    exact .inl hstart
  · split at h
    · obtain ⟨rfl, -⟩ := Prod.mk.inj (Except.ok.inj h)
      exact .inl hlocal
    · split at h
      · obtain ⟨rfl, -⟩ := Prod.mk.inj (Except.ok.inj h)
        exact .inl hlocal
      · obtain ⟨f, hf, h⟩ := bind_eq_ok.mp h
        obtain ⟨rfl, -⟩ := Prod.mk.inj (Except.ok.inj h)
        exact .inr ⟨f, hf, by rw [← hlocal]⟩

/-- The copy is for the instruction, with the hits of its TB and of the sub-TBs that reach it. -/
theorem instrFault_ok {instr : ℕ} {size : Int} {f : ConfigFault}
    (h : instrFault fault tb instr size = .ok f) : f.address = .int instr ∧
      f.trigger.hitcounter = 1 + tb.tbHitcounter
        + ((tb.instrHitcounters.filter fun h => (instr : Int) ≥ h.1).map Prod.snd).sum := by
  simp only [instrFault, pure, Except.pure] at h
  split at h
  · obtain rfl := Except.ok.inj h
    exact ⟨rfl, rfl⟩
  · split at h
    · obtain rfl := Except.ok.inj h
      exact ⟨rfl, rfl⟩
    · cases h

/-- The instructions of a TB generate at most one fault each, in their order. -/
theorem wildcardInstrs_faults {zs : List (ℕ × Int)} (h : wildcardInstrs fault w tb s zs = .ok s') :
    ∃ emitted, s'.faults = s.faults ++ emitted ∧
      (emitted.map fun f => f.address).Sublist (zs.map fun z => FaultAddress.int z.1) ∧
      ∀ f ∈ emitted, ∃ z ∈ zs, instrFault fault tb z.1 z.2 = .ok f := by
  induction zs generalizing s with
  | nil =>
    obtain rfl := Except.ok.inj h
    exact ⟨[], (List.append_nil _).symm, .slnil, fun f hf => absurd hf List.not_mem_nil⟩
  | cons z zs ih =>
    obtain ⟨instr, size⟩ := z
    simp only [wildcardInstrs, bind, pure, Except.pure] at h
    obtain ⟨⟨s₁, leave⟩, h₁, hrest⟩ := bind_eq_ok.mp h
    -- what comes after this instruction
    have hafter : ∃ emitted, s'.faults = s₁.faults ++ emitted ∧
        (emitted.map fun f => f.address).Sublist (zs.map fun z => FaultAddress.int z.1) ∧
        ∀ f ∈ emitted, ∃ z ∈ zs, instrFault fault tb z.1 z.2 = .ok f := by
      simp only at hrest
      split at hrest
      · obtain rfl := Except.ok.inj hrest
        exact ⟨[], (List.append_nil _).symm, List.nil_sublist _, fun f hf => absurd hf List.not_mem_nil⟩
      · exact ih hrest
    obtain ⟨emitted, hfaults, hsub, hfrom⟩ := hafter
    rcases wildcardInstr_faults h₁ with heq | ⟨f, hf, heq⟩
    · refine ⟨emitted, by rw [hfaults, heq], hsub.cons _, fun f hf => ?_⟩
      obtain ⟨z, hz, hzf⟩ := hfrom f hf
      exact ⟨z, List.mem_cons_of_mem _ hz, hzf⟩
    · refine ⟨f :: emitted, by rw [hfaults, heq, List.append_assoc]; rfl, ?_, fun f' hf' => ?_⟩
      · rw [List.map_cons, List.map_cons, (instrFault_ok hf).1]
        exact hsub.cons_cons _
      · rcases List.mem_cons.mp hf' with rfl | hf'
        · exact ⟨(instr, size), List.mem_cons_self, hf⟩
        · obtain ⟨z, hz, hzf⟩ := hfrom f' hf'
          exact ⟨z, List.mem_cons_of_mem _ hz, hzf⟩

end Walk

/-- One entry of the trace. -/
def wildcardTb (fault : ConfigFault) (w : WildcardRange) (tbinfo : List TbInfo) (rows : List TbHits)
    (s : WildcardWalk) (e : TbExec) : Result WildcardWalk := do
  let before := (← tbHitsAt rows e.tb).hitcounter
  let row ← tbIndexed e.tb tbinfo
  let asm ← asmAddresses row.assembler
  let tb ← analyzeTb (countTb rows e.tb) e.tb before
  wildcardInstrs fault w tb s (asm.zip (tbInfoSize asm row.size))

theorem wildcardTbs_cons (fault : ConfigFault) (w : WildcardRange) (tbinfo : List TbInfo)
    (rows : List TbHits) (s : WildcardWalk) (e : TbExec) (rest : List TbExec) :
    wildcardTbs fault w tbinfo rows s (e :: rest) = wildcardTb fault w tbinfo rows s e >>= fun s' =>
      if s'.rangeEndReached then pure s' else wildcardTbs fault w tbinfo (countTb rows e.tb) s' rest := by
  simp only [wildcardTbs, wildcardTb, bind_assoc]

namespace GoldenTrace

variable {g : GoldenTrace} {fault : ConfigFault} {w : WildcardRange} {s s' : WildcardWalk} {t : TbInfo}
  {k i ins : ℕ} {e : TbExec} {f : ConfigFault}

/-- The counters after some entries of the trace. -/
def hitRows (g : GoldenTrace) (es : List TbExec) : List TbHits :=
  g.tbinfo.map fun t => ⟨t.id, (es.map TbExec.tb).count t.id, t.id, t.id + t.size - 1⟩

theorem tbHitcounters_eq : tbHitcounters g.tbinfo = g.hitRows [] := rfl

theorem countTb_hitRows (es : List TbExec) (e : TbExec) :
    countTb (g.hitRows es) e.tb = g.hitRows (es ++ [e]) := by
  rw [countTb, hitRows, List.map_map, hitRows]
  refine List.map_congr_left fun t _ => ?_
  by_cases h : t.id = e.tb
  · simp [h, List.count_append]
  · simp [h, List.count_append, Ne.symm h]

/-- The last entry of a walk. -/
theorem wildcardTbs_concat (es₀ es : List TbExec) (hs : s.rangeEndReached = false) :
    wildcardTbs fault w g.tbinfo (g.hitRows es₀) s (es ++ [e])
      = wildcardTbs fault w g.tbinfo (g.hitRows es₀) s es >>= fun s' =>
        if s'.rangeEndReached then pure s' else wildcardTb fault w g.tbinfo (g.hitRows (es₀ ++ es)) s' e := by
  induction es generalizing es₀ s with
  | nil =>
    have hlast : ∀ s' : WildcardWalk, (if s'.rangeEndReached then (pure s' : Result WildcardWalk)
        else wildcardTbs fault w g.tbinfo (countTb (g.hitRows es₀) e.tb) s' []) = pure s' := by
      intro s'
      split <;> rfl
    have hnil : wildcardTbs fault w g.tbinfo (g.hitRows es₀) s [] = pure s := rfl
    rw [List.nil_append, wildcardTbs_cons, List.append_nil, hnil, pure_bind, hs]
    simp only [hlast, bind_pure]
    rfl
  | cons e' es ih =>
    rw [List.cons_append, wildcardTbs_cons, wildcardTbs_cons, bind_assoc]
    refine congrArg _ (funext fun s' => ?_)
    rcases hreached : s'.rangeEndReached with _ | _
    · have happend : es₀ ++ [e'] ++ es = es₀ ++ e' :: es := by
        rw [List.append_assoc, List.singleton_append]
      simp only [Bool.false_eq_true, if_false, countTb_hitRows, ih (es₀ ++ [e']) hreached, happend]
    · simp only [if_true, pure_bind, hreached]

theorem take_tbexec (hk : g.tbexec[k]? = some e) : g.tbexec.take (k + 1) = g.tbexec.take k ++ [e] := by
  rw [List.take_add_one, hk]
  rfl

/-- The walk over the first `k` entries of the trace. -/
def walk (g : GoldenTrace) (fault : ConfigFault) (w : WildcardRange) (k : ℕ) : Result WildcardWalk :=
  wildcardTbs fault w g.tbinfo (tbHitcounters g.tbinfo) ⟨w.start.hitcounter, 0, false, false, []⟩
    (g.tbexec.take k)

/-- Past the end of the trace nothing is left to walk. -/
theorem walk_past (hk : g.tbexec[k]? = none) : g.walk fault w (k + 1) = g.walk fault w k := by
  have hlen := List.getElem?_eq_none_iff.mp hk
  rw [walk, walk, List.take_of_length_le hlen, List.take_of_length_le (le_trans hlen (Nat.le_succ k))]

theorem walk_succ (hk : g.tbexec[k]? = some e) :
    g.walk fault w (k + 1) = g.walk fault w k >>= fun s => if s.rangeEndReached then pure s
      else wildcardTb fault w g.tbinfo (g.hitRows (g.tbexec.take k)) s e := by
  rw [walk, take_tbexec hk, tbHitcounters_eq, wildcardTbs_concat [] _ rfl]
  rfl

theorem walk_pred (hs : g.walk fault w (k + 1) = .ok s) : ∃ s', g.walk fault w k = .ok s' := by
  rcases hk : g.tbexec[k]? with _ | e
  · exact ⟨s, (walk_past hk).symm.trans hs⟩
  · rw [walk_succ hk] at hs
    obtain ⟨s', hs', -⟩ := bind_eq_ok.mp hs
    exact ⟨s', hs'⟩

/-! ### Hits -/

/-- The analysis of a TB adds up to the hits of the trigger search, for each of its instructions. -/
theorem wildcardTb_hits (fault : ConfigFault) (w : WildcardRange) (s : WildcardWalk)
    (ht : t ∈ g.tbinfo) (hk : g.tbexec[k]? = some e) (hid : e.tb = t.id) :
    ∃ tb, wildcardTb fault w g.tbinfo (g.hitRows (g.tbexec.take k)) s e
        = wildcardInstrs fault w tb s (t.insns.zip (tbInfoSize t.insns t.size)) ∧
      ∀ ins : ℕ, triggerHits g.tbexec (tbStartEnd g.tbinfo) k ins = .ok (1 + tb.tbHitcounter
        + ((tb.instrHitcounters.filter fun h => (ins : Int) ≥ h.1).map Prod.snd).sum) := by
  have hrow : ∀ es, tbHitsAt (g.hitRows es) t.id
      = .ok ⟨t.id, (es.map TbExec.tb).count t.id, t.id, t.id + t.size - 1⟩ := by
    intro es
    have hcomp : ((fun r : TbHits => decide (r.id = t.id)) ∘ fun u : TbInfo =>
        (⟨u.id, (es.map TbExec.tb).count u.id, u.id, u.id + u.size - 1⟩ : TbHits))
        = fun u : TbInfo => decide (u.id = t.id) := rfl
    rw [tbHitsAt, hitRows, List.find?_map, hcomp, Keyed.find?_key g.idsNodup ht]
    rfl
  have hindexed : tbIndexed t.id g.tbinfo = .ok t := by
    rw [tbIndexed, Keyed.find?_key g.idsNodup ht]
  have hat : tbAt g.tbexec k = .ok t.id := by
    have hk0 : ¬ ((k : Int) < 0) := by omega
    rw [tbAt, if_neg hk0, Int.toNat_natCast, hk]
    exact congrArg Except.ok hid
  have hparse : asmAddresses t.assembler = .ok t.insns := (g.wellFormed t ht).parses
  have hown : ((g.tbexec.take (k + 1)).map TbExec.tb).count t.id
      = ((g.tbexec.take k).map TbExec.tb).count t.id + 1 := by
    rw [take_tbexec hk, List.map_append, List.count_append, ← hid]
    simp
  -- both sums run over the rows of the same TBs
  have hsum : ∀ p : TbStartEnd → Bool,
      (((g.hitRows (g.tbexec.take (k + 1))).filter fun r => p ⟨r.id, r.tbStart, r.tbEnd⟩).map
        TbHits.hitcounter).sum
      = (((tbStartEnd g.tbinfo).filter p).map fun r =>
        ((g.tbexec.take (k + 1)).map TbExec.tb).count r.id).sum := by
    intro p
    rw [hitRows, tbStartEnd, List.filter_map, List.filter_map, List.map_map, List.map_map]
    rfl
  let last : Int := t.id + t.size - 1
  let containing := (g.hitRows (g.tbexec.take (k + 1))).filter fun r =>
    (t.id : Int) > r.tbStart ∧ (t.id : Int) ≤ r.tbEnd
  let contained := (g.hitRows (g.tbexec.take (k + 1))).filter fun r =>
    (t.id : Int) < r.tbStart ∧ last > r.tbStart ∧ last ≤ r.tbEnd
  refine ⟨⟨((g.tbexec.take k).map TbExec.tb).count t.id + (containing.map TbHits.hitcounter).sum,
    contained.map fun r => (r.tbStart, r.hitcounter)⟩, ?_, fun ins => ?_⟩
  · simp only [wildcardTb, hid, hrow, hindexed, hparse, bind, Except.bind, analyzeTb]
    rw [← hid, countTb_hitRows, ← take_tbexec hk, hid, hrow]
    rfl
  · have hreach : (((contained.map fun r => (r.tbStart, r.hitcounter)).filter fun h =>
        decide ((ins : Int) ≥ h.1)).map Prod.snd).sum
        = ((((tbStartEnd g.tbinfo).filter fun r =>
          (t.id : Int) < r.tbStart ∧ last > r.tbStart ∧ last ≤ r.tbEnd).filter fun r =>
            (ins : Int) ≥ r.tbStart).map fun r =>
          ((g.tbexec.take (k + 1)).map TbExec.tb).count r.id).sum := by
      rw [List.filter_filter, ← hsum, List.filter_map, List.map_map, List.filter_filter]
      rfl
    have hcontaining := hsum fun r => (t.id : Int) > r.tbStart ∧ (t.id : Int) ≤ r.tbEnd
    simp only [triggerHits, hat, tbEndAt_eq ht, bind, Except.bind, hown, hreach, containing, hcontaining]
    refine congrArg Except.ok ?_
    simp only [last]
    omega

/-- `find_fault` resolves an executed instruction, counted up to a place, to that place. -/
theorem Place.findFault (hp : g.Place k i ins t) : findFault ins g.tbexec g.tbinfo
    ((g.flat.take (offset g.blocks k + i + 1)).count ins) = .ok (k, some ins) := by
  obtain ⟨e, he, hid⟩ := hp.exec
  have hcov := (g.wellFormed t hp.row).covers_self hp.mem
  have hexec : e ∈ g.tbexec := List.mem_of_getElem? he
  have hhas : g.hasAddress (ins : Int) e = true :=
    (mem_block_iff hp.row hcov hexec).mp (block_eq hp.row hid ▸ hp.mem)
  have hcount : (g.flat.take (offset g.blocks k + i + 1)).count ins
      = (g.tbexec.take k).countP (g.hasAddress (ins : Int)) + 1 := by
    have hall : (g.tbexec.take (k + 1)).countP (fun e => decide (ins ∈ g.block e))
        = (g.tbexec.take (k + 1)).countP (g.hasAddress (ins : Int)) := by
      refine List.countP_congr fun e' he' => ?_
      rw [decide_eq_true_iff]
      exact mem_block_iff hp.row hcov (List.mem_of_mem_take he')
    rw [count_place hp, hall, take_tbexec he, List.countP_append]
    simp [hhas]
  rw [hcount]
  have hpos := positions_getElem? he hhas
  obtain ⟨i', ins', t', hp', hcov', hfind⟩ := findFault_some (Nat.succ_pos _) hpos
  obtain rfl := g.oneInsn _ hp.row _ hp'.row _ _ _ hcov hcov'
  exact hfind

/-! ### Emitted faults -/

/-- The walk generates the fault in entry `k` of the trace. -/
def Emits (g : GoldenTrace) (fault : ConfigFault) (w : WildcardRange) (k : ℕ) (f : ConfigFault) : Prop :=
  ∃ s s' emitted, g.walk fault w k = .ok s ∧ g.walk fault w (k + 1) = .ok s' ∧
    s'.faults = s.faults ++ emitted ∧ f ∈ emitted

/-- Each instruction has a size. -/
theorem map_fst_zip_tbInfoSize (ht : t ∈ g.tbinfo) :
    (t.insns.zip (tbInfoSize t.insns t.size)).map Prod.fst = t.insns := by
  refine List.map_fst_zip ?_
  have hpos : 0 < t.insns.length := List.length_pos_iff.mpr (g.wellFormed t ht).insns_ne_nil
  simp only [tbInfoSize, bind_pure_comp, List.map_eq_map, List.length_append, List.length_zipWith,
    List.length_map, List.length_tail, List.length_singleton]
  omega

/-- What the walk adds in one entry: faults on different instructions of its TB. -/
theorem walk_succ_faults (hsize : ∀ u ∈ g.tbinfo, 2 ≤ u.size) (hs : g.walk fault w k = .ok s)
    (hs' : g.walk fault w (k + 1) = .ok s') :
    ∃ emitted, s'.faults = s.faults ++ emitted ∧ emitted.Nodup ∧ ∀ f ∈ emitted,
      ∃ a i t, f.address = .int (a : ℕ) ∧ g.Place k i a t ∧
        f.trigger.hitcounter = (g.flat.take (offset g.blocks k + i + 1)).count a := by
  have hnone : s' = s → ∃ emitted, s'.faults = s.faults ++ emitted ∧ emitted.Nodup ∧
      ∀ f ∈ emitted, ∃ a i t, f.address = .int (a : ℕ) ∧ g.Place k i a t ∧
        f.trigger.hitcounter = (g.flat.take (offset g.blocks k + i + 1)).count a := by
    rintro rfl
    exact ⟨[], (List.append_nil _).symm, List.nodup_nil, fun f hf => absurd hf List.not_mem_nil⟩
  rcases hk : g.tbexec[k]? with _ | e
  · -- the trace has ended
    exact hnone (Except.ok.inj (hs'.symm.trans ((walk_past hk).trans hs)))
  · rw [walk_succ hk, hs] at hs'
    simp only [bind, Except.bind] at hs'
    rcases hreached : s.rangeEndReached with _ | _
    · rw [hreached, if_neg Bool.false_ne_true] at hs'
      obtain ⟨t, ht, hid, -⟩ := exists_row (List.mem_of_getElem? hk)
      obtain ⟨tb, hwalk, hhits⟩ := wildcardTb_hits fault w s ht hk hid
      obtain ⟨emitted, hfaults, hsub, hfrom⟩ := wildcardInstrs_faults (hwalk.symm.trans hs')
      refine ⟨emitted, hfaults, ?_, fun f hf => ?_⟩
      · have haddresses : (t.insns.zip (tbInfoSize t.insns t.size)).map (fun z => FaultAddress.int z.1)
            = t.insns.map fun a => FaultAddress.int (a : ℕ) := by
          rw [← map_fst_zip_tbInfoSize ht, List.map_map, map_fst_zip_tbInfoSize ht]
          rfl
        have hinj : Function.Injective fun a : ℕ => FaultAddress.int a := by
          intro a b hab
          exact Int.ofNat.inj (FaultAddress.int.inj hab)
        have hnodup := (g.wellFormed t ht).nodup.map hinj
        exact List.Nodup.of_map _ ((haddresses ▸ hsub).nodup hnodup)
      · obtain ⟨z, hz, hzf⟩ := hfrom f hf
        obtain ⟨haddr, hhitcounter⟩ := instrFault_ok hzf
        have hmem : z.1 ∈ t.insns := map_fst_zip_tbInfoSize ht ▸ List.mem_map_of_mem hz
        obtain ⟨i, hi⟩ := List.mem_iff_getElem?.mp hmem
        have hp : g.Place k i z.1 t := ⟨ht, ⟨e, hk, hid⟩, hi⟩
        refine ⟨z.1, i, t, haddr, hp, hhitcounter.trans ?_⟩
        exact Except.ok.inj ((hhits z.1).symm.trans (triggerHits_spec hsize hp))
    · rw [hreached, if_pos rfl] at hs'
      exact hnone (Except.ok.inj hs').symm

/-- A fault of the walk counts the executions of its instruction up to the one it stands for, and
    `find_fault` goes back there. -/
theorem Emits.resolved (hsize : ∀ u ∈ g.tbinfo, 2 ≤ u.size) (h : g.Emits fault w k f) :
    ∃ a i t, f.address = .int (a : ℕ) ∧ g.Place k i a t ∧
      f.trigger.hitcounter = (g.flat.take (offset g.blocks k + i + 1)).count a ∧
      findFault a g.tbexec g.tbinfo f.trigger.hitcounter = .ok (k, some a) := by
  obtain ⟨s, s', emitted, hs, hs', hfaults, hf⟩ := h
  obtain ⟨emitted', hfaults', -, hat⟩ := walk_succ_faults hsize hs hs'
  obtain rfl : emitted = emitted' := List.append_cancel_left (hfaults.symm.trans hfaults')
  obtain ⟨a, i, t, haddr, hp, hcount⟩ := hat f hf
  exact ⟨a, i, t, haddr, hp, hcount, hcount ▸ hp.findFault⟩

/-- The faults of the first `k` entries are distinct, each one is from one of them. -/
theorem walk_faults (hsize : ∀ u ∈ g.tbinfo, 2 ≤ u.size) (hs : g.walk fault w k = .ok s) :
    s.faults.Nodup ∧ ∀ f ∈ s.faults, ∃ j < k, g.Emits fault w j f := by
  induction k generalizing s with
  | zero =>
    obtain rfl := Except.ok.inj hs
    exact ⟨List.nodup_nil, fun f hf => absurd hf List.not_mem_nil⟩
  | succ k ih =>
    obtain ⟨s₀, hs₀⟩ := walk_pred hs
    obtain ⟨hnodup, hfrom⟩ := ih hs₀
    obtain ⟨emitted, hfaults, hemitted, -⟩ := walk_succ_faults hsize hs₀ hs
    have hemits : ∀ f ∈ emitted, g.Emits fault w k f := fun f hf => ⟨s₀, s, emitted, hs₀, hs, hfaults, hf⟩
    rw [hfaults]
    refine ⟨List.nodup_append'.mpr ⟨hnodup, hemitted, fun f hf₀ hf => ?_⟩, fun f hf => ?_⟩
    · -- the same address and hitcounter lead back to one entry only
      obtain ⟨j, hj, hat⟩ := hfrom f hf₀
      obtain ⟨a, i, t, haddr, -, -, hfind⟩ := hat.resolved hsize
      obtain ⟨a', i', t', haddr', -, -, hfind'⟩ := (hemits f hf).resolved hsize
      have ha : (a : Int) = a' := FaultAddress.int.inj (haddr.symm.trans haddr')
      rw [ha] at hfind
      have hjk := congrArg Prod.fst (Except.ok.inj (hfind.symm.trans hfind'))
      simp only at hjk
      omega
    · rcases List.mem_append.mp hf with hf | hf
      · obtain ⟨j, hj, hat⟩ := hfrom f hf
        exact ⟨j, Nat.lt_succ_of_lt hj, hat⟩
      · exact ⟨k, Nat.lt_succ_self k, hemits f hf⟩

/-- What the expansion of a wildcard fault returns is what its walk generates. -/
theorem generateWildcardFaults_eq {fs : List ConfigFault} (hw : fault.address = .range w)
    (h : generateWildcardFaults fault g.tbexec g.tbinfo = .ok fs) :
    ∃ s, g.walk fault w g.tbexec.length = .ok s ∧ fs = s.faults := by
  rw [walk, List.take_length]
  simp only [generateWildcardFaults, hw, pure, Except.pure, bind] at h
  split at h
  · cases h
  · obtain ⟨s, hs, h⟩ := bind_eq_ok.mp h
    refine ⟨s, hs, ?_⟩
    split at h
    · cases h
    · split at h
      · cases h
      · exact (Except.ok.inj h).symm

/-- Each fault of the expansion stands for the execution of an instruction `a` in an entry `k` of the
    trace: its hitcounter is the number of executions of `a` up to that one and `find_fault` returns
    there. No two of them are the same. -/
theorem generateWildcardFaults_resolved (hsize : ∀ u ∈ g.tbinfo, 2 ≤ u.size)
    (hw : fault.address = .range w) :
    (∀ k f, g.Emits fault w k f → ∃ a i t, f.address = .int (a : ℕ) ∧ g.Place k i a t ∧
      f.trigger.hitcounter = (g.flat.take (offset g.blocks k + i + 1)).count a ∧
      findFault a g.tbexec g.tbinfo f.trigger.hitcounter = .ok (k, some a)) ∧
    ∀ fs, generateWildcardFaults fault g.tbexec g.tbinfo = .ok fs →
      fs.Nodup ∧ ∀ f ∈ fs, ∃ k < g.tbexec.length, g.Emits fault w k f := by
  refine ⟨fun k f h => h.resolved hsize, fun fs h => ?_⟩
  obtain ⟨s, hs, rfl⟩ := generateWildcardFaults_eq hw h
  exact walk_faults hsize hs

end GoldenTrace

/-! ### A range over the sub-TB -/

/-- A range without start and end conditions. -/
def everywhere : WildcardRange := ⟨⟨0, 0⟩, ⟨0, 0⟩, false⟩

def subTbWildcard : ConfigFault :=
  ⟨⟨0, 1⟩, .range everywhere, [], 1, 0, 0, .int 1, 1, true⟩

/-- The copy for one instruction. -/
def subTbCopy (a : Int) (hitcounter : ℕ) : ConfigFault :=
  { subTbWildcard with wildcard := false, address := .int a, trigger := ⟨0, hitcounter⟩ }

theorem generateWildcardFaults_subTb : (∀ k f,
      (subTbTrace 2 (by decide) le_rfl).Emits subTbWildcard everywhere k f →
      ∃ a i t, f.address = .int (a : ℕ) ∧ (subTbTrace 2 (by decide) le_rfl).Place k i a t ∧
      f.trigger.hitcounter = ((subTbTrace 2 (by decide) le_rfl).flat.take
        (offset (subTbTrace 2 (by decide) le_rfl).blocks k + i + 1)).count a ∧
      findFault a (subTbTrace 2 (by decide) le_rfl).tbexec (subTbTrace 2 (by decide) le_rfl).tbinfo
        f.trigger.hitcounter = .ok (k, some a)) ∧
    ∀ fs, generateWildcardFaults subTbWildcard (subTbTrace 2 (by decide) le_rfl).tbexec
      (subTbTrace 2 (by decide) le_rfl).tbinfo = .ok fs → fs.Nodup ∧ ∀ f ∈ fs, ∃ k < 3,
        (subTbTrace 2 (by decide) le_rfl).Emits subTbWildcard everywhere k f :=
  GoldenTrace.generateWildcardFaults_resolved (g := subTbTrace 2 (by decide) le_rfl)
    (by
      intro u hu
      rcases subTb_insns hu with ⟨-, h, -⟩ | ⟨-, h, -⟩ | ⟨-, h, -⟩ <;> omega)
    rfl

/-- With a one-byte instruction at `0x102` the second fault on it is numbered like the first, and
    `find_fault` takes it for that. -/
theorem generateWildcardFaults_repeats_oneByte : ∃ (k : ℕ) (f : ConfigFault),
    (subTbTrace 1 (by decide) (by decide)).Emits subTbWildcard everywhere k f ∧
    ¬ ∃ a i t, f.address = .int (a : ℕ) ∧ (subTbTrace 1 (by decide) (by decide)).Place k i a t ∧
      f.trigger.hitcounter = ((subTbTrace 1 (by decide) (by decide)).flat.take
        (offset (subTbTrace 1 (by decide) (by decide)).blocks k + i + 1)).count a ∧
      findFault a (subTbTrace 1 (by decide) (by decide)).tbexec
        (subTbTrace 1 (by decide) (by decide)).tbinfo f.trigger.hitcounter = .ok (k, some a) := by
  refine ⟨1, subTbCopy 0x102 1, ⟨_, _, [subTbCopy 0x100 1, subTbCopy 0x102 1], rfl, rfl, rfl, by decide⟩, ?_⟩
  rintro ⟨a, i, t, haddr, -, -, hfind⟩
  obtain rfl : (0x102 : ℕ) = a := Int.ofNat.inj (FaultAddress.int.inj haddr)
  have hfirst : findFault (0x102 : ℕ) (subTbTrace 1 (by decide) (by decide)).tbexec
      (subTbTrace 1 (by decide) (by decide)).tbinfo 1 = .ok (0, some 0x102) := by decide +kernel
  have hk := congrArg Prod.fst (Except.ok.inj (hfirst.symm.trans hfind))
  exact absurd hk (by decide)

end Archie.Campaign
