import Archie.Plugin.TriggerVector

/-! The trigger vector when the first TB is translated.

    `inject_fault` clears the slot of the fault and, if the fault is temporary, puts its live number
    into `trignum`. The caller then clears slot `trignum` once more:

        slot          0        1        2        3
        fault         waits    waits    I        I          two temporary instruction faults
        cleared by    I live 0 I live 1 I        I
-/

namespace Archie.Plugin
open State

/-- The first TB injects the fault. -/
def Fault.FirstTb (f : Fault) : Prop := f.trigger.hitcounter = 0 ∧ f.type = INSTRUCTION

instance (f : Fault) : Decidable f.FirstTb := inferInstanceAs (Decidable (_ ∧ _))

/-- How many of the faults become live there. -/
def liveFirstTb (faults : List Fault) : ℕ :=
  faults.countP fun f => decide (f.FirstTb ∧ f.lifetime ≠ 0)

/-- Only slots of injected faults change. -/
def KeepsWaiting (s : State) : Prop :=
  ∀ i < s.faults.length, Call.injectFault i ∉ s.handleFirstTbFaultInsertion.calls →
    s.handleFirstTbFaultInsertion.plugin.faultTriggerAddresses[i]? = s.plugin.faultTriggerAddresses[i]?

/-! ### One fault -/

section Step

variable {s s' : State} {f : Fault} {k : ℕ}

/-- The slots cleared before the fault in position `k`: those of the injected faults and of their live
    numbers. -/
def Cleared (s : State) (k i : ℕ) : Prop :=
  (i < k ∧ ∃ f, s.faults[i]? = some f ∧ f.FirstTb) ∨ i < liveFirstTb (s.faults.take k)

/-- The state before the fault in position `k`. -/
structure FirstTbInv (s : State) (k : ℕ) (s' : State) : Prop where
  faults : ∀ i, k ≤ i → s'.faults[i]? = s.faults[i]?
  live : s'.plugin.liveFaultsNumber = liveFirstTb (s.faults.take k)
  number : s'.plugin.faultNumber = s.faults.length
  calls : ∀ i, Call.injectFault i ∈ s'.calls ↔ i < k ∧ ∃ f, s.faults[i]? = some f ∧ f.FirstTb
  cleared : ∀ i, Cleared s k i →
    s'.plugin.faultTriggerAddresses[i]? = (s.plugin.faultTriggerAddresses[i]?).map fun _ => 0
  kept : ∀ i, ¬Cleared s k i →
    s'.plugin.faultTriggerAddresses[i]? = s.plugin.faultTriggerAddresses[i]?

theorem liveFirstTb_take_le (faults : List Fault) (k : ℕ) : liveFirstTb (faults.take k) ≤ k :=
  List.countP_le_length.trans (List.length_take_le _ _)

theorem liveFirstTb_take_succ {faults : List Fault} (hf : faults[k]? = some f) :
    liveFirstTb (faults.take (k + 1))
      = liveFirstTb (faults.take k) + if f.FirstTb ∧ f.lifetime ≠ 0 then 1 else 0 := by
  rw [liveFirstTb, List.take_add_one, hf, Option.toList_some, List.countP_append, List.countP_singleton]
  simp only [decide_eq_true_eq]
  rfl

theorem getElem?_set_zero (l : List ℕ) (n i : ℕ) :
    (l.set n 0)[i]? = if i = n then l[i]?.map fun _ => 0 else l[i]? := by
  rw [List.getElem?_set]
  split
  · next h =>
    subst h
    rw [if_pos rfl]
    split
    · next hlt => rw [List.getElem?_eq_getElem hlt, Option.map_some]
    · next hge => rw [List.getElem?_eq_none (not_lt.mp hge), Option.map_none]
  · next h => rw [if_neg (Ne.symm h)]

/-- A fault that is not injected changes no slot. -/
theorem FirstTbInv.skip (h : FirstTbInv s k s') (hf : s.faults[k]? = some f) (hnot : ¬f.FirstTb) :
    FirstTbInv s (k + 1) (s'.firstTbFault k) := by
  have hf' : s'.faults[k]? = some f := (h.faults k le_rfl).trans hf
  have hlive := liveFirstTb_take_succ hf
  rw [if_neg fun hand => hnot hand.1] at hlive
  have hinjected : ∀ i, (i < k + 1 ∧ ∃ f, s.faults[i]? = some f ∧ f.FirstTb) ↔
      i < k ∧ ∃ f, s.faults[i]? = some f ∧ f.FirstTb := by
    intro i
    refine ⟨fun ⟨hi, g, hg, hfirst⟩ => ⟨?_, g, hg, hfirst⟩, fun ⟨hi, hg⟩ => ⟨by omega, hg⟩⟩
    refine lt_of_le_of_ne (by omega) ?_
    rintro rfl
    obtain rfl := Option.some.inj (hf.symm.trans hg)
    exact hnot hfirst
  have hsame : s'.firstTbFault k = s' ∨ s'.firstTbFault k = s'.addSinglestepReq := by
    simp only [State.firstTbFault, hf', if_neg (show ¬(_ ∧ _) from hnot)]
    split
    · exact Or.inr rfl
    · exact Or.inl rfl
  have hkeep : (s'.firstTbFault k).faults = s'.faults ∧ (s'.firstTbFault k).plugin = s'.plugin ∧
      (s'.firstTbFault k).calls = s'.calls := by
    rcases hsame with heq | heq
    · rw [heq]
      exact ⟨rfl, rfl, rfl⟩
    · rw [heq]
      exact ⟨rfl, rfl, rfl⟩
  obtain ⟨hfaults, hplugin, hcalls⟩ := hkeep
  have hcleared : ∀ i, Cleared s (k + 1) i ↔ Cleared s k i := by
    intro i
    rw [Cleared, Cleared, hinjected, hlive, Nat.add_zero]
  refine ⟨fun i hi => ?_, ?_, ?_, fun i => ?_, fun i hi => ?_, fun i hi => ?_⟩
  · rw [hfaults]
    exact h.faults i (by omega)
  · rw [hplugin, hlive]
    exact h.live
  · rw [hplugin]
    exact h.number
  · rw [hcalls, hinjected]
    exact h.calls i
  · rw [hplugin]
    exact h.cleared i ((hcleared i).mp hi)
  · rw [hplugin]
    exact h.kept i (mt (hcleared i).mpr hi)

/-- The slots that are cleared with one fault more. -/
theorem cleared_succ (hf : s.faults[k]? = some f) (hfirst : f.FirstTb) (i : ℕ) : Cleared s (k + 1) i ↔
    Cleared s k i ∨ i = k ∨ f.lifetime ≠ 0 ∧ i = liveFirstTb (s.faults.take k) := by
  have hlive := liveFirstTb_take_succ hf
  simp only [hfirst, true_and] at hlive
  rw [Cleared, Cleared, hlive]
  constructor
  · rintro (⟨hi, hg⟩ | hi)
    · rcases Nat.lt_succ_iff_lt_or_eq.mp hi with hi | hi
      · exact Or.inl (Or.inl ⟨hi, hg⟩)
      · exact Or.inr (Or.inl hi)
    · split at hi
      · next hlife =>
        rcases Nat.lt_succ_iff_lt_or_eq.mp hi with hi | hi
        · exact Or.inl (Or.inr hi)
        · exact Or.inr (Or.inr ⟨hlife, hi⟩)
      · exact Or.inl (Or.inr hi)
  · rintro ((⟨hi, hg⟩ | hi) | rfl | ⟨hlife, hi⟩)
    · exact Or.inl ⟨by omega, hg⟩
    · exact Or.inr (by omega)
    · exact Or.inl ⟨by omega, f, hf, hfirst⟩
    · exact Or.inr (by rw [if_pos hlife]; omega)

/-- What the first TB does with a fault that it injects: its own slot is cleared, for a temporary one
    also that of its live number. -/
structure InjectsFirstTb (k : ℕ) (f : Fault) (s s' : State) : Prop where
  faults : ∀ i, i ≠ k → s'.faults[i]? = s.faults[i]?
  live : s'.plugin.liveFaultsNumber = s.plugin.liveFaultsNumber + if f.lifetime ≠ 0 then 1 else 0
  number : s'.plugin.faultNumber = s.plugin.faultNumber
  calls : s'.calls = s.calls ++ [Call.injectFault k]
  slots : ∀ i, s'.plugin.faultTriggerAddresses[i]? =
    if i = k ∨ f.lifetime ≠ 0 ∧ i = s.plugin.liveFaultsNumber then
      (s.plugin.faultTriggerAddresses[i]?).map fun _ => 0
    else s.plugin.faultTriggerAddresses[i]?

/-- Two slots cleared one after the other, the same one or two of them. -/
theorem getElem?_set_zero_twice (l : List ℕ) (k n i : ℕ) (live : Prop) [Decidable live] :
    ((l.set k 0).set (if live then n else k) 0)[i]? =
      if i = k ∨ live ∧ i = n then l[i]?.map fun _ => 0 else l[i]? := by
  rw [getElem?_set_zero, getElem?_set_zero]
  by_cases hlive : live
  · rw [if_pos hlive]
    by_cases hik : i = k
    · simp only [hik, true_or, if_true, Option.map_map]
      split <;> rfl
    · simp [hik, hlive]
  · simp only [hlive, if_false, false_and, or_false]
    split
    · rw [Option.map_map]
      rfl
    · rfl

theorem injectsFirstTb_firstTbFault (hf : s.faults[k]? = some f) (htrignum : f.trigger.trignum = k)
    (hfirst : f.FirstTb) (hroom : s.plugin.liveFaultsNumber ≠ s.plugin.faultNumber) :
    InjectsFirstTb k f s (s.firstTbFault k) := by
  have hf' : s.addSinglestepReq.faults[k]? = some f := hf
  have hroom' : s.addSinglestepReq.plugin.liveFaultsNumber ≠ s.addSinglestepReq.plugin.faultNumber := hroom
  obtain ⟨hlt, -⟩ := List.getElem?_eq_some_iff.mp hf'
  obtain ⟨hp, hc, f', -, hfs⟩ := injectFault_spec hf'
  have hf₂ : (s.addSinglestepReq.injectFault k).faults[k]?
      = some (f'.setTriggerNum (injectedTrignum s.addSinglestepReq.plugin f)) := by
    rw [hfs, List.getElem?_set_self hlt]
  have hstep : s.firstTbFault k = (s.addSinglestepReq.injectFault k).invalidateFaultTriggerAddress
      (injectedTrignum s.addSinglestepReq.plugin f) := by
    have hone : ¬f.trigger.hitcounter = 1 := by rw [hfirst.1]; decide
    simp only [State.firstTbFault, hf, if_pos (show _ ∧ _ from hfirst), hf₂, if_neg hone]
    rfl
  rw [hstep]
  refine ⟨fun i hi => ?_, ?_, ?_, hc, fun i => ?_⟩
  · show (s.addSinglestepReq.injectFault k).faults[i]? = _
    rw [hfs, List.getElem?_set_ne (Ne.symm hi)]
    rfl
  · show (s.addSinglestepReq.injectFault k).plugin.liveFaultsNumber = _
    rw [hp, injectedPlugin]
    by_cases hlife : f.lifetime = 0
    · rw [if_pos (Or.inl hlife), if_neg (not_not.mpr hlife)]
      rfl
    · rw [if_neg (not_or.mpr ⟨hlife, hroom'⟩), if_pos hlife]
      rfl
  · show (s.addSinglestepReq.injectFault k).plugin.faultNumber = _
    rw [hp, injectedPlugin]
    split <;> rfl
  · have hslots : (s.addSinglestepReq.injectFault k).plugin.faultTriggerAddresses
        = s.plugin.faultTriggerAddresses.set k 0 := by
      rw [hp, injectedPlugin, htrignum]
      split <;> rfl
    have htrig : injectedTrignum s.addSinglestepReq.plugin f =
        if f.lifetime ≠ 0 then s.plugin.liveFaultsNumber else k := by
      rw [injectedTrignum, if_neg hroom', htrignum, ite_not]
      rfl
    show ((s.addSinglestepReq.injectFault k).plugin.faultTriggerAddresses.set _ 0)[i]? = _
    rw [hslots, htrig]
    exact getElem?_set_zero_twice _ k _ i _

/-- An injected fault clears its own slot, a temporary one also that of its live number. -/
theorem FirstTbInv.inject (h : FirstTbInv s k s') (hf : s.faults[k]? = some f)
    (htrignum : f.trigger.trignum = k) (hfirst : f.FirstTb) :
    FirstTbInv s (k + 1) (s'.firstTbFault k) := by
  obtain ⟨hlt, -⟩ := List.getElem?_eq_some_iff.mp hf
  have hle := liveFirstTb_take_le s.faults k
  have hroom : s'.plugin.liveFaultsNumber ≠ s'.plugin.faultNumber := by
    rw [h.live, h.number]
    omega
  have hinjects := injectsFirstTb_firstTbFault ((h.faults k le_rfl).trans hf) htrignum hfirst hroom
  have hlive := liveFirstTb_take_succ hf
  simp only [hfirst, true_and] at hlive
  refine ⟨fun i hi => ?_, ?_, hinjects.number.trans h.number, fun i => ?_, fun i hi => ?_, fun i hi => ?_⟩
  · exact (hinjects.faults i (by omega)).trans (h.faults i (by omega))
  · rw [hinjects.live, h.live, hlive]
  · rw [hinjects.calls, List.mem_append, List.mem_singleton, Call.injectFault.injEq, h.calls i]
    constructor
    · rintro (⟨hi, hg⟩ | rfl)
      · exact ⟨by omega, hg⟩
      · exact ⟨by omega, f, hf, hfirst⟩
    · rintro ⟨hi, hg⟩
      rcases Nat.lt_succ_iff_lt_or_eq.mp hi with hi | hi
      · exact Or.inl ⟨hi, hg⟩
      · exact Or.inr hi
  · rw [hinjects.slots, h.live]
    by_cases hold : Cleared s k i
    · rw [h.cleared i hold, Option.map_map]
      split <;> rfl
    · rw [h.kept i hold, if_pos (((cleared_succ hf hfirst i).mp hi).resolve_left hold)]
  · obtain ⟨hold, hnew⟩ := not_or.mp (mt (cleared_succ hf hfirst i).mpr hi)
    rw [hinjects.slots, h.live, if_neg hnew, h.kept i hold]

end Step

/-! ### The whole list -/

/-- Faults as registration leaves them: numbered by position, with their address in the vector. -/
structure Numbered (s : State) : Prop where
  live : s.plugin.liveFaultsNumber = 0
  number : s.plugin.faultNumber = s.faults.length
  calls : s.calls = []
  trignum : ∀ (i : ℕ) (f : Fault), s.faults[i]? = some f → f.trigger.trignum = i
  slot : ∀ (i : ℕ) (f : Fault), s.faults[i]? = some f →
    s.plugin.faultTriggerAddresses[i]? = some f.trigger.address

/-- Every prefix of the list clears the slots of its own faults and live numbers. -/
theorem firstTbFaults_inv {s : State} (h : Numbered s) :
    ∀ n ≤ s.faults.length, FirstTbInv s n ((List.range n).foldl firstTbFault s) := by
  intro n
  induction n with
  | zero =>
    intro _
    exact ⟨fun _ _ => rfl, h.live, h.number, fun i => by simp [h.calls],
      fun i hi => by simp [Cleared, liveFirstTb] at hi, fun _ _ => rfl⟩
  | succ n ih =>
    intro hn
    rw [List.range_succ, List.foldl_append]
    have hinv := ih (by omega)
    have hf : s.faults[n]? = some s.faults[n] := List.getElem?_eq_getElem hn
    by_cases hfirst : (s.faults[n]).FirstTb
    · exact hinv.inject hf (h.trignum n _ hf) hfirst
    · exact hinv.skip hf hfirst

/-- Exactly the slots below the number of live faults are lost, whoever waits there. -/
theorem Numbered.keepsWaiting {s : State} (h : Numbered s) : KeepsWaiting s ↔
    ∀ l < liveFirstTb s.faults, ∀ f, s.faults[l]? = some f → f.FirstTb ∨ f.trigger.address = 0 := by
  have hinv := firstTbFaults_inv h s.faults.length le_rfl
  have hcleared : ∀ (i : ℕ) (f : Fault), s.faults[i]? = some f → ¬f.FirstTb →
      (Cleared s s.faults.length i ↔ i < liveFirstTb s.faults) := by
    intro i f hf hnot
    rw [Cleared, List.take_length]
    refine or_iff_right ?_
    rintro ⟨-, g, hg, hfirst⟩
    exact hnot (Option.some.inj (hg.symm.trans hf) ▸ hfirst)
  constructor
  · intro hkeep l hl f hf
    by_contra hlost
    obtain ⟨hnot, haddr⟩ := not_or.mp hlost
    obtain ⟨hlt, -⟩ := List.getElem?_eq_some_iff.mp hf
    have hcalls : Call.injectFault l ∉ s.handleFirstTbFaultInsertion.calls := by
      intro hcall
      obtain ⟨-, g, hg, hfirst⟩ := (hinv.calls l).mp hcall
      exact hnot (Option.some.inj (hg.symm.trans hf) ▸ hfirst)
    have hzero := (hinv.cleared l ((hcleared l f hf hnot).mpr hl)).symm.trans (hkeep l hlt hcalls)
    rw [h.slot l f hf, Option.map_some] at hzero
    exact haddr (Option.some.inj hzero).symm
  · intro hcond i hi hcalls
    have hf : s.faults[i]? = some s.faults[i] := List.getElem?_eq_getElem hi
    have hnot : ¬(s.faults[i]).FirstTb := fun hfirst => hcalls ((hinv.calls i).mpr ⟨hi, _, hf, hfirst⟩)
    by_cases hl : i < liveFirstTb s.faults
    · have haddr := (hcond i hl _ hf).resolve_left hnot
      refine (hinv.cleared i ((hcleared i _ hf hnot).mpr hl)).trans ?_
      rw [h.slot i _ hf, Option.map_some, haddr]
    · exact hinv.kept i fun hc => hl ((hcleared i _ hf hnot).mp hc)

theorem Numbered.register {s s' : State} (hfresh : s.Fresh)
    (hreg : s.registerFaultTriggerAddresses = some s') :
    Numbered s' ∧ s'.faults = s.faults.mapIdx fun j f => f.setTriggerNum j := by
  unfold State.registerFaultTriggerAddresses at hreg
  split at hreg
  · cases hreg
  · obtain rfl := Option.some.inj hreg
    refine ⟨⟨hfresh.liveFaultsNumber, by simp, hfresh.calls, fun i f hf => ?_, fun i f hf => ?_⟩, rfl⟩
    · rw [List.getElem?_mapIdx, Option.map_eq_some_iff] at hf
      obtain ⟨f₀, -, rfl⟩ := hf
      rfl
    · rw [List.getElem?_mapIdx, Option.map_eq_some_iff] at hf
      obtain ⟨f₀, h₀, rfl⟩ := hf
      simp [h₀, Fault.setTriggerNum]

theorem liveFirstTb_mapIdx (faults : List Fault) :
    liveFirstTb (faults.mapIdx fun j f => f.setTriggerNum j) = liveFirstTb faults := by
  have hmap : faults.mapIdx (fun j f => f.setTriggerNum j)
      = faults.zipIdx.map fun p => p.1.setTriggerNum p.2 := List.mapIdx_eq_zipIdx_map
  have hfst : faults.zipIdx.map Prod.fst = faults := List.zipIdx_map_fst 0 faults
  rw [hmap, liveFirstTb, List.countP_map]
  conv_rhs => rw [liveFirstTb, ← hfst, List.countP_map]
  rfl

/-- The faults that wait keep their slots iff none of them stands among the first `n` positions of the
    list, `n` the number of temporary faults that the first TB injects. -/
theorem keepsWaiting_iff {s s' : State} (hfresh : s.Fresh)
    (hreg : s.registerFaultTriggerAddresses = some s') : KeepsWaiting s' ↔
      ∀ l < liveFirstTb s.faults, ∀ f, s.faults[l]? = some f → f.FirstTb ∨ f.trigger.address = 0 := by
  obtain ⟨hnum, hfaults⟩ := Numbered.register hfresh hreg
  have hget : ∀ l : ℕ, s'.faults[l]? = (s.faults[l]?).map fun f => f.setTriggerNum l := by
    intro l
    rw [hfaults, List.getElem?_mapIdx]
  rw [hnum.keepsWaiting, hfaults, liveFirstTb_mapIdx]
  refine forall_congr' fun l => imp_congr_right fun _ => ?_
  rw [← hfaults, hget l]
  constructor
  · intro h f hf
    exact h (f.setTriggerNum l) (by rw [hf, Option.map_some])
  · intro h f hf
    obtain ⟨f₀, h₀, rfl⟩ := Option.map_eq_some_iff.mp hf
    exact h f₀ h₀

/-! ### A fault that waits in front of a temporary instruction fault -/

def instructionFault : Fault :=
  ⟨0x20, INSTRUCTION, TOGGLE, 1, 1, fun _ => 0xff, fun _ => 0, ⟨0x20, 0, 0⟩⟩

theorem keepsWaiting_iff_permanent : ∃ s',
    (freshState [registerFault 0 0x10 1, { instructionFault with lifetime := 0 }]
      ).registerFaultTriggerAddresses = some s' ∧
    (KeepsWaiting s' ↔
      ∀ l < liveFirstTb [registerFault 0 0x10 1, { instructionFault with lifetime := 0 }], ∀ f,
        [registerFault 0 0x10 1, { instructionFault with lifetime := 0 }][l]? = some f →
          f.FirstTb ∨ f.trigger.address = 0) :=
  ⟨_, rfl, keepsWaiting_iff (s := freshState [registerFault 0 0x10 1,
    { instructionFault with lifetime := 0 }]) ⟨rfl, rfl⟩ rfl⟩

/-- The temporary fault gets live number 0, and slot 0 of the register fault is cleared. -/
theorem instructionFault_not_keepsWaiting : ∃ s',
    (freshState [registerFault 0 0x10 1, instructionFault]).registerFaultTriggerAddresses = some s' ∧
      ¬KeepsWaiting s' := by
  refine ⟨_, rfl, fun h => ?_⟩
  exact absurd (h 0 (by decide) (by decide)) (by decide)

end Archie.Plugin
