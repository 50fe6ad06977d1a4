import Archie.Campaign.CalculateTrigger
import Archie.Campaign.GoldenTrace

/-! What the steps of the trigger search compute on a golden trace: the filters are the TBs, the
    occurrence lookup is a flat position, the walk goes back in the flat trace. -/

namespace Archie.Campaign
open Python Blocks

namespace GoldenTrace

variable {g : GoldenTrace} {t : TbInfo} {filters : List (List ℕ)}

/-! ### Filters -/

/-- The filters, turned around, are the instruction lists of the TBs in some order. -/
theorem buildFilters_ok (g : GoldenTrace) : ∃ fs, buildFilters g.tbinfo = .ok fs ∧
    (fs.map List.reverse).Perm (g.tbinfo.map TbInfo.insns) := by
  refine ⟨_, TbInfo.buildFilters_eq g.wellFormed, ?_⟩
  have hperm := (List.reverse_perm _).trans
    (List.perm_insertionSort (fun a b : List ℕ => a.length ≤ b.length) (g.tbinfo.map TbInfo.filt))
  simpa [Function.comp_def, TbInfo.filt, TbInfo.sortedFilters] using hperm.map List.reverse

/-- Among the filters one is the TB `t`, all others have other heads. -/
theorem filters_split (hf : filters.Perm (g.tbinfo.map TbInfo.insns)) (ht : t ∈ g.tbinfo) :
    ∃ A B, filters = A ++ t.insns :: B ∧
      ∀ filt ∈ A ++ B, ∃ id, getItem filt 0 = .ok id ∧ id ≠ t.id := by
  obtain ⟨A, B, hAB⟩ := List.append_of_mem (hf.mem_iff.mpr (List.mem_map_of_mem ht))
  obtain ⟨C, D, hCD⟩ := List.append_of_mem ht
  refine ⟨A, B, hAB, fun filt hfilt => ?_⟩
  have hperm : (A ++ B).Perm ((C ++ D).map TbInfo.insns) := by
    rw [hAB, hCD, List.map_append, List.map_cons] at hf
    have := (List.perm_middle.symm.trans hf).trans List.perm_middle
    rw [List.map_append]; exact (List.perm_cons _).mp this
  obtain ⟨u, hu, rfl⟩ := List.mem_map.mp (hperm.mem_iff.mp hfilt)
  have hu' : u ∈ g.tbinfo := by
    rw [hCD]; simp only [List.mem_append, List.mem_cons] at hu ⊢; tauto
  refine ⟨u.id, getItem_zero (g.wellFormed u hu').head, fun he => ?_⟩
  have hnd := g.idsNodup
  rw [hCD, (List.perm_middle.map TbInfo.id).nodup_iff, List.map_cons, List.nodup_cons] at hnd
  exact hnd.1 (he ▸ List.mem_map_of_mem hu)

theorem matchingFilter_eq (hf : filters.Perm (g.tbinfo.map TbInfo.insns)) (ht : t ∈ g.tbinfo) :
    matchingFilter t.id filters = .ok (some t.insns) := by
  obtain ⟨A, B, rfl, hother⟩ := filters_split hf ht
  clear hf
  induction A with
  | nil =>
    rw [List.nil_append, matchingFilter, getItem_zero (g.wellFormed t ht).head]
    simp [bind, Except.bind, pure, Except.pure]
  | cons filt A ih =>
    obtain ⟨id, hid, hne⟩ := hother filt (by simp)
    rw [List.cons_append, matchingFilter, hid]
    simp only [bind, Except.bind, pure, Except.pure, if_neg hne]
    exact ih fun f hmem => hother f (by simp only [List.cons_append, List.mem_cons]; exact .inr hmem)

/-- The round over the filters acts on the TB of the fault alone. -/
theorem foldlM_searchSame (hf : filters.Perm (g.tbinfo.map TbInfo.insns)) (ht : t ∈ g.tbinfo)
    (s : Search) : filters.foldlM (searchSame t.id) s = searchSame t.id s t.insns := by
  obtain ⟨A, B, rfl, hother⟩ := filters_split hf ht
  have hskip : ∀ s', ∀ filt ∈ A ++ B, searchSame t.id s' filt = .ok s' := by
    intro s' filt hmem
    obtain ⟨id, hid, hne⟩ := hother filt hmem
    simp only [searchSame, hid, bind, Except.bind, pure, Except.pure, if_pos hne]
  rw [List.foldlM_append, foldlM_fixed fun f hmem => hskip s f (List.mem_append_left _ hmem)]
  change (t.insns :: B).foldlM (searchSame t.id) s = _
  rw [List.foldlM_cons]
  cases hs : searchSame t.id s t.insns with
  | error e => rfl
  | ok s' => exact foldlM_fixed fun f hmem => hskip s' f (List.mem_append_right _ hmem)

/-! ### Occurrences -/

/-- The rows of the TBs that contain an address. -/
def hasAddress (g : GoldenTrace) (address : Int) (e : TbExec) : Bool :=
  decide (e.tb ∈ (g.tbinfo.filter fun t =>
    (t.id : Int) ≤ address ∧ (t.id : Int) + t.size > address).map TbInfo.id)

theorem hasAddress_iff (ht : t ∈ g.tbinfo) {e : TbExec} (he : e.tb = t.id) {address : Int} :
    g.hasAddress address e = true ↔ (t.id : Int) ≤ address ∧ address < t.id + t.size := by
  simp only [hasAddress, decide_eq_true_eq, List.mem_map, List.mem_filter]
  constructor
  · rintro ⟨u, ⟨hu, h⟩, hid⟩
    obtain rfl := Keyed.eq_of_key g.idsNodup hu ht (hid.trans he)
    exact h
  · intro h; exact ⟨t, ⟨ht, h⟩, he.symm⟩

/-- A place of the trace: block `k`, instruction `i` of it. -/
structure Place (g : GoldenTrace) (k i ins : ℕ) (t : TbInfo) : Prop where
  row : t ∈ g.tbinfo
  exec : ∃ e, g.tbexec[k]? = some e ∧ e.tb = t.id
  insn : t.insns[i]? = some ins

namespace Place

variable {k i ins : ℕ}

theorem block (h : g.Place k i ins t) : g.blocks[k]? = some t.insns := by
  obtain ⟨e, he, hid⟩ := h.exec
  rw [getElem?_blocks he, block_eq h.row hid]

theorem lt (h : g.Place k i ins t) : i < t.insns.length := (List.getElem?_eq_some_iff.mp h.insn).1

theorem mem (h : g.Place k i ins t) : ins ∈ t.insns := List.mem_of_getElem? h.insn

theorem tbAt_eq (h : g.Place k i ins t) : tbAt g.tbexec k = .ok t.id := by
  obtain ⟨e, he, hid⟩ := h.exec
  have hk : ¬ ((k : Int) < 0) := by omega
  simp [tbAt, hk, he, hid]

/-- The place holds the instruction at its flat position. -/
theorem flat (h : g.Place k i ins t) : g.flat[offset g.blocks k + i]? = some ins := by
  rw [GoldenTrace.flat, getElem?_offset h.block h.lt, h.insn]

end Place

/-- Every flat position is a place. -/
theorem exists_place {q ins : ℕ} (h : g.flat[q]? = some ins) :
    ∃ k i t, g.Place k i ins t ∧ q = offset g.blocks k + i := by
  obtain ⟨hlt, -⟩ := List.getElem?_eq_some_iff.mp h
  obtain ⟨k, b, i, hk, hi, rfl⟩ := exists_offset hlt
  obtain ⟨e, he, rfl⟩ : ∃ e, g.tbexec[k]? = some e ∧ g.block e = b := by
    simpa [blocks, List.getElem?_map, Option.map_eq_some_iff] using hk
  obtain ⟨t, ht, hid, hblock⟩ := exists_row (List.mem_of_getElem? he)
  refine ⟨k, i, t, ⟨ht, ⟨e, he, hid⟩, ?_⟩, rfl⟩
  rw [GoldenTrace.flat, getElem?_offset hk hi, hblock] at h
  exact h

/-- An instruction is executed once by every TB that contains it. -/
theorem count_place {k i ins : ℕ} (h : g.Place k i ins t) :
    (g.flat.take (offset g.blocks k + i + 1)).count ins
      = (g.tbexec.take (k + 1)).countP fun e => decide (ins ∈ g.block e) := by
  rw [GoldenTrace.flat, count_take blocks_nodup h.block h.insn, blocks, ← List.map_take,
    List.countP_map]
  rfl

/-- The TBs that contain an address are those that contain its instruction. -/
theorem mem_block_iff {ins : ℕ} {address : Int} (ht : t ∈ g.tbinfo) (hcov : t.Covers ins address)
    {e : TbExec} (he : e ∈ g.tbexec) : ins ∈ g.block e ↔ g.hasAddress address e = true := by
  obtain ⟨u, hu, hid, hblock⟩ := exists_row he
  rw [hblock, hasAddress_iff hu hid]
  constructor
  · intro hmem
    have hend := g.sameEnd t ht u hu ins hcov.mem hmem
    have hlo := (g.wellFormed u hu).id_le hmem
    have := hcov.start
    have := hcov.inside
    omega
  · rintro ⟨hlo, hhi⟩
    obtain ⟨ins', -, hcov'⟩ := (g.wellFormed u hu).allign hlo hhi
    obtain rfl := g.oneInsn u hu t ht _ _ _ hcov' hcov
    exact hcov'.mem

theorem positions_hasAddress (g : GoldenTrace) (address : Int) :
    ((List.range g.tbexec.length).filter fun p => (g.tbexec[p]?).any fun e =>
      decide (e.tb ∈ (g.tbinfo.filter fun t =>
        (t.id : Int) ≤ address ∧ (t.id : Int) + t.size > address).map TbInfo.id))
      = positions (g.hasAddress address) g.tbexec := rfl

/-- Too few executions of the instruction. -/
theorem findFault_none {address : Int} {n : ℕ} (hne : g.tbexec ≠ [])
    (h : n > (positions (g.hasAddress address) g.tbexec).length) :
    findFault address g.tbexec g.tbinfo n = .ok (-1, some 0) := by
  have hempty : g.tbexec.isEmpty = false := by simpa using hne
  simp only [findFault, hempty, positions_hasAddress, Bool.false_eq_true, if_false]
  exact if_pos h

/-- The `n`-th TB execution that contains the address, and the aligned address. -/
theorem findFault_some {address : Int} {n k : ℕ} (hn : 1 ≤ n)
    (h : (positions (g.hasAddress address) g.tbexec)[n - 1]? = some k) :
    ∃ i ins t, g.Place k i ins t ∧ t.Covers ins address ∧
      findFault address g.tbexec g.tbinfo n = .ok (k, some ins) := by
  obtain ⟨hlt, hk⟩ := List.getElem?_eq_some_iff.mp h
  have hmem : k ∈ positions (g.hasAddress address) g.tbexec := hk ▸ List.getElem_mem hlt
  obtain ⟨e, he, hp⟩ : ∃ e, g.tbexec[k]? = some e ∧ g.hasAddress address e = true := by
    have hany := (List.mem_filter.mp hmem).2
    cases he : g.tbexec[k]? with
    | none => simp [he] at hany
    | some e => exact ⟨e, rfl, by simpa [he] using hany⟩
  have hexec : e ∈ g.tbexec := List.mem_of_getElem? he
  obtain ⟨t, ht, hid, -⟩ := exists_row hexec
  obtain ⟨hlo, hhi⟩ := (hasAddress_iff ht hid).mp hp
  obtain ⟨ins, hallign, hcov⟩ := (g.wellFormed t ht).allign hlo hhi
  obtain ⟨i, hi⟩ := List.getElem?_of_mem hcov.mem
  have hplace : g.Place k i ins t := ⟨ht, ⟨e, he, hid⟩, hi⟩
  refine ⟨i, ins, t, hplace, hcov, ?_⟩
  have hempty : g.tbexec.isEmpty = false := by
    simpa using List.ne_nil_of_mem hexec
  have hge : ¬ n > (positions (g.hasAddress address) g.tbexec).length := by omega
  have hget : getItem (positions (g.hasAddress address) g.tbexec) ((n : Int) - 1) = .ok k := by
    have : ((n : Int) - 1) = ((n - 1 : ℕ) : Int) := by omega
    rw [this, getItem_natCast h]
  simp only [findFault, hempty, positions_hasAddress, if_neg hge, hget, bind, Except.bind,
    hplace.tbAt_eq, findTbInfoRow_id ht, hallign]
  rfl

/-- The flat position of an occurrence is where the lookup finds it. -/
theorem NthExecution.place {address : Int} {n q : ℕ} (h : g.NthExecution address n q) :
    ∃ k i ins t, g.Place k i ins t ∧ q = offset g.blocks k + i ∧ 1 ≤ n ∧
      (positions (g.hasAddress address) g.tbexec)[n - 1]? = some k ∧ t.Covers ins address := by
  obtain ⟨ins, hflat, ⟨u, hu, hcov⟩, hcount⟩ := h.at_
  obtain ⟨k, i, t, hplace, rfl⟩ := exists_place hflat
  obtain ⟨e, he, hid⟩ := hplace.exec
  have hexec : e ∈ g.tbexec := List.mem_of_getElem? he
  have hblock : g.block e = t.insns := block_eq hplace.row hid
  have hhas : g.hasAddress address e = true :=
    (mem_block_iff hu hcov hexec).mp (hblock ▸ hplace.mem)
  -- the executions up to `k` are those of the TBs with the address, the last one is `k` itself
  have hcountP : (g.tbexec.take (k + 1)).countP (g.hasAddress address) = n := by
    rw [← hcount, count_place hplace]
    refine List.countP_congr fun e' he' => ?_
    rw [decide_eq_true_eq]
    exact (mem_block_iff hu hcov (List.mem_of_mem_take he')).symm
  rw [List.take_add_one, he, Option.toList_some, List.countP_append, List.countP_singleton,
    if_pos hhas] at hcountP
  have hpos := positions_getElem? he hhas
  rw [show (g.tbexec.take k).countP (g.hasAddress address) = n - 1 by omega] at hpos
  obtain ⟨ins', -, hcov'⟩ := (g.wellFormed t hplace.row).allign
    ((hasAddress_iff hplace.row hid).mp hhas).1 ((hasAddress_iff hplace.row hid).mp hhas).2
  obtain rfl := g.oneInsn t hplace.row u hu _ _ _ hcov' hcov
  exact ⟨k, i, ins', t, hplace, rfl, by omega, hpos, hcov'⟩

/-! ### The walk back -/

theorem searchLoop_stop {tbexec : List TbExec} {tbinfo : List TbInfo} {fuel : ℕ} {s : Search}
    (h : s.triggerPosition = 0 ∨ s.idx < 0) : searchLoop filters tbexec tbinfo fuel s = .ok s := by
  unfold searchLoop; exact if_pos h

theorem searchLoop_go {tbexec : List TbExec} {tbinfo : List TbInfo} {fuel : ℕ} {s : Search}
    (h : ¬ (s.triggerPosition = 0 ∨ s.idx < 0)) : searchLoop filters tbexec tbinfo (fuel + 1) s
      = searchStep filters tbexec tbinfo s >>= searchLoop filters tbexec tbinfo fuel := by
  rw [searchLoop, if_neg h]

/-- What the loop leaves: the place `p` of the trace, or the walk left the trace. -/
inductive Landed (g : GoldenTrace) (p : Int) (s : Search) : Prop
  | found (k i ins : ℕ) (t : TbInfo) (place : g.Place k i ins t)
      (pos : p = (offset g.blocks k + i : ℕ)) (idx : s.idx = k) (ins_eq : s.ins = some ins)
      (done : s.triggerPosition = 0)
  | before (neg : p < 0) (idx : s.idx < 0) (left : s.triggerPosition ≠ 0)

/-- With `k` blocks left and `x` instructions to go back from their end. -/
theorem searchLoop_back (hf : filters.Perm (g.tbinfo.map TbInfo.insns)) :
    ∀ (k fuel : ℕ) (s : Search), k ≤ g.tbexec.length → k ≤ fuel → s.notSame = true →
      s.idx = (k : Int) - 1 → 1 ≤ s.triggerPosition →
      ∃ s', searchLoop filters g.tbexec g.tbinfo fuel s = .ok s' ∧
        g.Landed ((offset g.blocks k : Int) - s.triggerPosition) s' := by
  intro k
  induction k with
  | zero =>
    intro fuel s _ _ _ hidx hx
    refine ⟨s, ?_, .before (by simp; omega) (by omega) (by omega)⟩
    exact searchLoop_stop (.inr (by omega))
  | succ k ih =>
    intro fuel s hk hfuel hns hidx hx
    obtain ⟨fuel, rfl⟩ : ∃ m, fuel = m + 1 := ⟨fuel - 1, by omega⟩
    have hidx' : s.idx = (k : Int) := by omega
    have hgo : ¬ (s.triggerPosition = 0 ∨ s.idx < 0) := by omega
    have hget : g.tbexec[k]? = some g.tbexec[k] := List.getElem?_eq_getElem (by omega)
    obtain ⟨t, ht, hid, hblock⟩ := exists_row (List.mem_of_getElem? hget)
    have hwf := g.wellFormed t ht
    have hb : g.blocks[k]? = some t.insns := by rw [getElem?_blocks hget, hblock]
    have hat : tbAt g.tbexec s.idx = .ok t.id := by
      have hk0 : ¬ ((k : Int) < 0) := by omega
      simp [hidx', tbAt, hk0, hid, show k < g.tbexec.length by omega]
    rw [searchLoop_go hgo]
    by_cases hlong : s.triggerPosition > t.insCount
    · -- the TB is too short: one TB further back
      have hstep : searchStep filters g.tbexec g.tbinfo s = .ok
          { s with idx := s.idx - 1, triggerPosition := s.triggerPosition - t.insCount } := by
        simp only [searchStep, hat, findTbInfoRow_id ht, hns, if_pos hlong, bind, Except.bind]
        rfl
      rw [hstep]
      obtain ⟨s', hs', hland⟩ := ih fuel
        { s with idx := s.idx - 1, triggerPosition := s.triggerPosition - t.insCount }
        (by omega) (by omega) hns (by simp only; omega) (by simp only; omega)
      refine ⟨s', hs', ?_⟩
      have heq : ((offset g.blocks (k + 1) : ℕ) : Int) - s.triggerPosition
          = (offset g.blocks k : Int) - (s.triggerPosition - t.insCount : ℕ) := by
        have := hwf.insCount
        rw [offset_succ hb]; omega
      rwa [heq]
    · -- the trigger is in this TB, counted from its end
      have hlen := hwf.insCount
      have hi : t.insns.length - s.triggerPosition < t.insns.length := by omega
      have hins := List.getElem?_eq_getElem hi
      have hcast : ((t.insns.length : Int) - s.triggerPosition)
          = ((t.insns.length - s.triggerPosition : ℕ) : Int) := by omega
      have hstep : searchStep filters g.tbexec g.tbinfo s = .ok
          { s with ins := some t.insns[t.insns.length - s.triggerPosition],
                   triggerPosition := 0 } := by
        simp only [searchStep, hat, findTbInfoRow_id ht, hns, if_neg hlong, bind, Except.bind,
          matchingFilter_eq hf ht, hcast, getItem_natCast hins]
        rfl
      rw [hstep]
      refine ⟨{ s with ins := some t.insns[t.insns.length - s.triggerPosition],
                       triggerPosition := 0 }, searchLoop_stop (.inl rfl),
        .found k _ _ t ⟨ht, ⟨_, hget, hid⟩, hins⟩ ?_ hidx' rfl rfl⟩
      rw [offset_succ hb]; omega

theorem findIdx?_insn {i ins : ℕ} (hwf : t.WellFormed) (h : t.insns[i]? = some ins) :
    (t.insns.findIdx? fun a => decide (some a = some ins)) = some i := by
  obtain ⟨hlt, heq⟩ := List.getElem?_eq_some_iff.mp h
  rw [List.findIdx?_eq_some_iff_getElem]
  refine ⟨hlt, by simp [heq], fun j hj => ?_⟩
  have hjl : j < t.insns.length := by omega
  have hne : t.insns[j] ≠ ins := by
    rw [← heq]
    exact fun he => absurd ((List.Nodup.getElem_inj_iff hwf.nodup).mp he) (by omega)
  simpa using hne

/-- The loop, started at a place, lands `x` instructions before it. -/
theorem searchLoop_spec (hf : filters.Perm (g.tbinfo.map TbInfo.insns)) {k i ins x : ℕ}
    (hp : g.Place k i ins t) (hx : 1 ≤ x) :
    ∃ s', searchLoop filters g.tbexec g.tbinfo (g.tbexec.length + 2)
        { idx := k, ins := some ins, triggerPosition := x, notSame := false } = .ok s' ∧
      g.Landed (((offset g.blocks k + i : ℕ) : Int) - x) s' := by
  obtain ⟨e, he, hid⟩ := hp.exec
  have hklt : k < g.tbexec.length := (List.getElem?_eq_some_iff.mp he).1
  have hwf := g.wellFormed t hp.row
  have hhead : getItem t.insns 0 = .ok t.id := getItem_zero hwf.head
  have hgo : ¬ (x = 0 ∨ (k : Int) < 0) := by omega
  have hround : searchStep filters g.tbexec g.tbinfo
      { idx := k, ins := some ins, triggerPosition := x, notSame := false }
        = searchSame t.id { idx := k, ins := some ins, triggerPosition := x, notSame := false }
            t.insns := by
    simp only [searchStep, hp.tbAt_eq, findTbInfoRow_id hp.row, bind, Except.bind]
    exact foldlM_searchSame hf hp.row _
  rw [searchLoop_go hgo, hround]
  simp only [searchSame, hhead, bind, Except.bind, ne_eq, not_true_eq_false, if_false,
    findIdx?_insn hwf hp.insn]
  by_cases hix : i ≥ x
  · -- the trigger is in the TB of the fault
    have hi : i - x < t.insns.length := by have := hp.lt; omega
    have hins := List.getElem?_eq_getElem hi
    rw [if_pos hix]
    refine ⟨{ idx := k, ins := some t.insns[i - x], triggerPosition := 0, notSame := false },
      by rw [hins]; exact searchLoop_stop (.inl rfl),
      .found k (i - x) _ t ⟨hp.row, hp.exec, hins⟩ (by omega) rfl rfl rfl⟩
  · rw [if_neg hix]
    obtain ⟨s', hs', hland⟩ := searchLoop_back hf k (g.tbexec.length + 1)
      { idx := (k : Int) - 1, ins := some ins, triggerPosition := x - i, notSame := true }
      (by omega) (by omega) rfl rfl (by simp only; omega)
    refine ⟨s', hs', ?_⟩
    have heq : ((offset g.blocks k + i : ℕ) : Int) - x
        = (offset g.blocks k : Int) - (x - i : ℕ) := by omega
    rwa [heq]

end GoldenTrace

end Archie.Campaign
