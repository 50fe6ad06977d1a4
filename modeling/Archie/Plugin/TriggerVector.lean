import Archie.Lib.Run
import Archie.Plugin.Callbacks

/-! The trigger vector over runs of callbacks.

    `trignum` is the slot of a fault in the trigger vector until the fault is injected, for a
    temporary fault it is then the slot in `live_faults`. The lookup by trigger address and number
    stays right as long as no new live number is the slot of a fault further back in the list that
    waits at the same trigger address. -/

namespace Archie.Plugin
open Run State

namespace State

variable {s s' : State} {current : ℕ} {f : Fault}

/-! ### What a callback does -/

/-- A trigger callback counts down; at the end of the count it injects. -/
theorem triggerInsnCb_spec (hf : s.faults[current]? = some f) :
    (f.trigger.hitcounter = 0 ∧ s.triggerInsnCb current = s) ∨
    (1 < f.trigger.hitcounter ∧ (s.triggerInsnCb current).plugin = s.plugin ∧
      (s.triggerInsnCb current).calls = s.calls ∧ (s.triggerInsnCb current).faults
        = s.faults.set current (f.setHitcounter (f.trigger.hitcounter - 1))) ∨
    (f.trigger.hitcounter = 1 ∧
      (s.triggerInsnCb current).plugin = injectedPlugin s.plugin current f ∧
      (s.triggerInsnCb current).calls = s.calls ++ [Call.injectFault current] ∧
      ∃ f', (f.setHitcounter 0).Agrees f' ∧ (s.triggerInsnCb current).faults
        = s.faults.set current (f'.setTriggerNum (injectedTrignum s.plugin f))) := by
  obtain ⟨hlt, hget⟩ := List.getElem?_eq_some_iff.mp hf
  have hset : ∀ h : ℕ, s.faults.modify current (fun f => f.setHitcounter h)
      = s.faults.set current (f.setHitcounter h) := by
    intro h; rw [List.modify_eq_set_getElem?]; simp [hf]
  unfold triggerInsnCb
  simp only [hf]
  rcases Nat.lt_trichotomy f.trigger.hitcounter 1 with h0 | h1 | h2
  · have hz : f.trigger.hitcounter = 0 := by omega
    exact .inl ⟨hz, by simp [hz]⟩
  · right; right
    refine ⟨h1, ?_⟩
    have hmod : (s.modifyFault current fun f => f.setHitcounter 0).faults[current]?
        = some (f.setHitcounter 0) := by
      simp [modifyFault, hset, hlt]
    obtain ⟨hp, hc, f', hag, hfs⟩ := injectFault_spec hmod
    simp only [h1, ne_eq, one_ne_zero, not_false_eq_true, if_true, Nat.sub_self, zero_ne_one, if_false]
    refine ⟨hp, hc, f', hag, hfs.trans ?_⟩
    rw [modifyFault, hset, List.set_set]
    rfl
  · right; left
    have hne : f.trigger.hitcounter ≠ 0 := by omega
    have hne' : ¬ f.trigger.hitcounter - 1 = 0 := by omega
    refine ⟨h2, ?_⟩
    simp only [ne_eq, hne, not_false_eq_true, if_true, if_neg hne']
    split
    · have hsame := same_addSinglestepReq
        (s := s.modifyFault current fun f' => f'.setHitcounter (f.trigger.hitcounter - 1))
      exact ⟨hsame.plugin, hsame.calls, hsame.faults.trans (hset _)⟩
    · exact ⟨rfl, rfl, hset _⟩

/-- A live callback counts the lifetime down; at its end it reverses and frees the live slot. -/
theorem tbExecCb_cases (hf : s.faults[current]? = some f) :
    (s.tbExecCb current).faults = s.faults.set current { f with lifetime := f.lifetime - 1 } ∧
    (f.lifetime ≠ 1 ∧ (s.tbExecCb current).plugin = s.plugin ∧
        (s.tbExecCb current).calls = s.calls ∨
      f.lifetime = 1 ∧ (s.tbExecCb current).plugin
          = { s.plugin with liveFaults := s.plugin.liveFaults.set f.trigger.trignum none } ∧
        (s.tbExecCb current).calls = s.calls ++ [Call.reverseFault current]) := by
  obtain ⟨hlt, hget⟩ := List.getElem?_eq_some_iff.mp hf
  have hset : s.faults.modify current (fun f => { f with lifetime := f.lifetime - 1 })
      = s.faults.set current { f with lifetime := f.lifetime - 1 } := by
    rw [List.modify_eq_set_getElem?]; simp [hf]
  unfold tbExecCb
  simp only [hf]
  rcases Nat.lt_trichotomy f.lifetime 1 with h0 | h1 | h2
  · have hz : f.lifetime = 0 := by omega
    have hsame : ({ f with lifetime := f.lifetime - 1 } : Fault) = f := by
      rw [hz, Nat.zero_sub, ← hz]
    rw [if_neg (not_not.mpr hz), hsame, ← hget, List.set_getElem_self]
    exact ⟨rfl, .inl ⟨by rw [hget]; omega, rfl, rfl⟩⟩
  · have hmod : (s.modifyFault current fun f => { f with lifetime := f.lifetime - 1 }).faults[current]?
        = some { f with lifetime := f.lifetime - 1 } := by
      simp [modifyFault, hset, hlt]
    obtain ⟨hp, hfs, hc⟩ := reverseFault_spec hmod
    rw [if_pos (show f.lifetime ≠ 0 by omega), if_pos (show f.lifetime - 1 = 0 by omega)]
    refine ⟨hfs.trans hset, .inr ⟨h1, ?_, hc⟩⟩
    simp only [hp]
    rfl
  · rw [if_pos (show f.lifetime ≠ 0 by omega), if_neg (show ¬ f.lifetime - 1 = 0 by omega)]
    exact ⟨hset, .inl ⟨by omega, rfl, rfl⟩⟩

theorem tbExecCb_spec (hf : s.faults[current]? = some f) :
    (∃ live, (s.tbExecCb current).plugin = { s.plugin with liveFaults := live }) ∧
    ((s.tbExecCb current).calls = s.calls ∨
      (s.tbExecCb current).calls = s.calls ++ [Call.reverseFault current]) ∧
    (s.tbExecCb current).faults = s.faults.set current { f with lifetime := f.lifetime - 1 } := by
  obtain ⟨hfs, ⟨-, hp, hc⟩ | ⟨-, hp, hc⟩⟩ := tbExecCb_cases hf
  · exact ⟨⟨_, hp⟩, .inl hc, hfs⟩
  · exact ⟨⟨_, hp⟩, .inr hc, hfs⟩

end State

/-! ### The property and its invariant -/

def Callback.current : Callback → ℕ
  | .triggerInsnCb current => current
  | .tbExecCb current => current

/-- A callback runs, its fault is one of the list. -/
def callbackStep (s : State) (cb : Callback) : Option State :=
  if cb.current < s.faults.length then some (s.runCallback cb) else none

/-- Every fault that has not been injected is found through its slot, so a TB with its trigger gets
    its callback. -/
def Armed (s : State) : Prop :=
  ∀ (i : ℕ) (f : Fault), s.faults[i]? = some f → Call.injectFault i ∉ s.calls →
    s.plugin.faultTriggerAddresses[i]? = some f.trigger.address ∧
    getFaultStructByTrigger s.faults f.trigger.address i = some i ∧
    ∀ (tb : Tb) (k : ℕ) (insn : Insn), tb.insns[k]? = some insn → insn.Meets f.trigger.address →
      (k, .triggerInsnCb i) ∈ s.evaluateTrigger tb i

/-- The callback injects a temporary fault whose live number is the slot of a fault further back that
    still waits for the same trigger address. -/
def Ambiguous (s : State) (cb : Callback) : Prop :=
  ∃ (g : ℕ) (fg fk : Fault), cb = .triggerInsnCb g ∧ s.faults[g]? = some fg ∧ fg.trigger.hitcounter = 1 ∧
    fg.lifetime ≠ 0 ∧ g < s.plugin.liveFaultsNumber ∧
    s.faults[s.plugin.liveFaultsNumber]? = some fk ∧ fk.trigger.hitcounter ≠ 0 ∧
    fk.trigger.address = fg.trigger.address

/-- The invariant behind `Armed`, which it adds the bookkeeping of injected faults to. -/
structure VectorInv (s : State) : Prop where
  number : s.plugin.faultNumber = s.faults.length
  length : s.plugin.faultTriggerAddresses.length = s.faults.length
  injected : ∀ (i : ℕ) (f : Fault), s.faults[i]? = some f →
    (Call.injectFault i ∈ s.calls ↔ f.trigger.hitcounter = 0)
  slot : ∀ (i : ℕ) (f : Fault), s.faults[i]? = some f → f.trigger.hitcounter ≠ 0 →
    f.trigger.trignum = i ∧ s.plugin.faultTriggerAddresses[i]? = some f.trigger.address
  unambiguous : ∀ (i j : ℕ) (f g : Fault), s.faults[i]? = some f → s.faults[j]? = some g → j < i →
    f.trigger.hitcounter ≠ 0 → g.trigger.address = f.trigger.address → g.trigger.trignum ≠ i
  live : s.plugin.liveFaultsNumber ≤ s.faults.countP fun f => f.trigger.hitcounter = 0

/-- The lookup finds fault `i` iff no fault before it has its trigger address and number. -/
theorem getFaultStructByTrigger_self {faults : List Fault} {i : ℕ} {f : Fault}
    (hf : faults[i]? = some f) (hnum : f.trigger.trignum = i) :
    getFaultStructByTrigger faults f.trigger.address i = some i ↔
      ∀ (j : ℕ) (g : Fault), faults[j]? = some g → j < i → g.trigger.address = f.trigger.address →
        g.trigger.trignum ≠ i := by
  obtain ⟨hlt, rfl⟩ := List.getElem?_eq_some_iff.mp hf
  rw [getFaultStructByTrigger, List.findIdx?_eq_some_iff_getElem]
  constructor
  · rintro ⟨_, _, hbefore⟩ j g hg hj haddr hnum'
    obtain ⟨hjlt, rfl⟩ := List.getElem?_eq_some_iff.mp hg
    have := hbefore j hj
    simp [haddr, hnum'] at this
  · intro h
    refine ⟨hlt, by simp [hnum], fun j hj => ?_⟩
    have hjlt : j < faults.length := hj.trans hlt
    have := h j faults[j] (List.getElem?_eq_getElem hjlt) hj
    simp only [Bool.and_eq_true, decide_eq_true_eq, not_and]
    by_cases haddr : faults[j].trigger.address = faults[i].trigger.address
    · simp [haddr, this haddr]
    · simp [haddr]

theorem mem_evaluateTrigger {s : State} {i : ℕ} {f : Fault} (hf : s.faults[i]? = some f)
    (hslot : s.plugin.faultTriggerAddresses[i]? = some f.trigger.address)
    (hfind : getFaultStructByTrigger s.faults f.trigger.address i = some i) {tb : Tb} {k : ℕ}
    {insn : Insn} (hk : tb.insns[k]? = some insn) (hin : insn.Meets f.trigger.address) :
    (k, .triggerInsnCb i) ∈ s.evaluateTrigger tb i := by
  obtain ⟨hlt, -⟩ := List.getElem?_eq_some_iff.mp hk
  simp only [State.evaluateTrigger, hslot, hfind, hf]
  exact List.mem_filterMap.mpr ⟨k, List.mem_range.mpr hlt, by simp [hk, hin]⟩

theorem VectorInv.armed {s : State} (h : VectorInv s) : Armed s := by
  intro i f hf hnot
  have hne : f.trigger.hitcounter ≠ 0 := mt (h.injected i f hf).mpr hnot
  obtain ⟨hnum, hslot⟩ := h.slot i f hf hne
  have hfind := (getFaultStructByTrigger_self hf hnum).mpr
    fun j g hg hj haddr => h.unambiguous i j f g hf hg hj hne haddr
  exact ⟨hslot, hfind, fun tb k insn hk hin => mem_evaluateTrigger hf hslot hfind hk hin⟩

/-! ### One step -/

section Step

variable {s s' : State} {p : ℕ} {f f' g : Fault}

/-- A step that replaces fault `p` without touching its trigger's address, number and injection. -/
theorem VectorInv.keep (h : VectorInv s) (hf : s.faults[p]? = some f)
    (haddr : g.trigger.address = f.trigger.address) (hnum : g.trigger.trignum = f.trigger.trignum)
    (hhit : g.trigger.hitcounter = 0 ↔ f.trigger.hitcounter = 0)
    (hfs : s'.faults = s.faults.set p g)
    (hslots : s'.plugin.faultTriggerAddresses = s.plugin.faultTriggerAddresses)
    (hnumber : s'.plugin.faultNumber = s.plugin.faultNumber)
    (hlive : s'.plugin.liveFaultsNumber = s.plugin.liveFaultsNumber)
    (hcalls : ∀ i, Call.injectFault i ∈ s'.calls ↔ Call.injectFault i ∈ s.calls) : VectorInv s' := by
  obtain ⟨hlt, hget⟩ := List.getElem?_eq_some_iff.mp hf
  -- every fault of the new list stands for one of the old list with the same trigger
  have hold : ∀ {i : ℕ} {x : Fault}, s'.faults[i]? = some x → ∃ y, s.faults[i]? = some y ∧
      x.trigger.address = y.trigger.address ∧ x.trigger.trignum = y.trigger.trignum ∧
      (x.trigger.hitcounter = 0 ↔ y.trigger.hitcounter = 0) := by
    intro i x hx
    rw [hfs, List.getElem?_set] at hx
    split at hx
    · next hi =>
      subst hi
      obtain rfl : g = x := by simpa [hlt] using hx
      exact ⟨f, hf, haddr, hnum, hhit⟩
    · exact ⟨x, hx, rfl, rfl, Iff.rfl⟩
  refine ⟨by rw [hnumber, hfs, List.length_set, h.number],
    by rw [hslots, hfs, List.length_set, h.length], ?_, ?_, ?_, ?_⟩
  · intro i x hx
    obtain ⟨y, hy, -, -, hz⟩ := hold hx
    rw [hcalls, hz]
    exact h.injected i y hy
  · intro i x hx hne
    obtain ⟨y, hy, ha, hn, hz⟩ := hold hx
    obtain ⟨h₁, h₂⟩ := h.slot i y hy (mt hz.mpr hne)
    exact ⟨hn.trans h₁, by rw [hslots, h₂, ha]⟩
  · intro i j x z hx hz hj hne hxz
    obtain ⟨y, hy, ha, -, hzero⟩ := hold hx
    obtain ⟨w, hw, ha', hn', -⟩ := hold hz
    rw [hn']
    exact h.unambiguous i j y w hy hw hj (mt hzero.mpr hne) (by rw [← ha, ← ha', hxz])
  · rw [hlive, hfs, List.countP_set hlt, hget]
    have := h.live
    have hpos : f.trigger.hitcounter = 0 → 0 < s.faults.countP fun f => f.trigger.hitcounter = 0 :=
      fun h0 => List.countP_pos_iff.mpr ⟨f, List.mem_of_getElem? hf, by simpa using h0⟩
    by_cases h0 : f.trigger.hitcounter = 0
    · have := hpos h0
      simp only [h0, hhit.mpr h0, decide_true, if_true]
      omega
    · simp only [h0, mt hhit.mp h0, decide_false, Bool.false_eq_true, if_false]
      omega

theorem VectorInv.live_lt (h : VectorInv s) (hf : s.faults[p]? = some f)
    (hne : f.trigger.hitcounter ≠ 0) : s.plugin.liveFaultsNumber < s.plugin.faultNumber := by
  have hle := h.live
  have hlen := List.countP_le_length (p := fun f : Fault => decide (f.trigger.hitcounter = 0))
    (l := s.faults)
  have hlt : s.faults.countP (fun f => decide (f.trigger.hitcounter = 0)) ≠ s.faults.length := by
    intro heq
    have := List.countP_eq_length.mp heq f (List.mem_of_getElem? hf)
    exact hne (by simpa using this)
  rw [h.number]
  omega

/-- An unambiguous injection keeps the invariant. -/
theorem VectorInv.inject (h : VectorInv s) (hf : s.faults[p]? = some f)
    (hone : f.trigger.hitcounter = 1) (hnot : ¬ Ambiguous s (.triggerInsnCb p))
    (hplugin : s'.plugin = injectedPlugin s.plugin p f)
    (hcalls : s'.calls = s.calls ++ [Call.injectFault p]) (hag : (f.setHitcounter 0).Agrees f')
    (hfs : s'.faults = s.faults.set p (f'.setTriggerNum (injectedTrignum s.plugin f))) :
    VectorInv s' := by
  obtain ⟨hlt, hget⟩ := List.getElem?_eq_some_iff.mp hf
  have hne : f.trigger.hitcounter ≠ 0 := by omega
  have hlive := h.live_lt hf hne
  obtain ⟨hnum, -⟩ := h.slot p f hf hne
  have hslots : s'.plugin.faultTriggerAddresses = s.plugin.faultTriggerAddresses.set p 0 := by
    rw [hplugin, injectedPlugin, hnum]; split <;> rfl
  have hnumber : s'.plugin.faultNumber = s.plugin.faultNumber := by
    rw [hplugin, injectedPlugin]; split <;> rfl
  have hliveNumber : s'.plugin.liveFaultsNumber ≤ s.plugin.liveFaultsNumber + 1 := by
    rw [hplugin, injectedPlugin]
    split
    · exact Nat.le_succ _
    · exact le_rfl
  have hzero : f'.trigger.hitcounter = 0 := by rw [hag.trigger]; rfl
  -- the injected fault has its hitcounter used up and its address kept, the others are the old ones
  refine ⟨by rw [hnumber, hfs, List.length_set, h.number],
    by rw [hslots, hfs, List.length_set, List.length_set, h.length], ?_, ?_, ?_, ?_⟩
  · intro i x hx
    rw [hcalls, List.mem_append, List.mem_singleton]
    rcases getElem?_replaced_cases hfs hf hx with ⟨rfl, rfl⟩ | ⟨hi, hx⟩
    · simp [Fault.setTriggerNum, hzero]
    · simpa [hi] using h.injected i x hx
  · intro i x hx hxne
    rcases getElem?_replaced_cases hfs hf hx with ⟨-, rfl⟩ | ⟨hi, hx⟩
    · exact absurd hzero hxne
    · obtain ⟨h₁, h₂⟩ := h.slot i x hx hxne
      exact ⟨h₁, by rw [hslots, List.getElem?_set_ne (Ne.symm hi), h₂]⟩
  · intro i j x z hx hz hj hxne hxz
    rcases getElem?_replaced_cases hfs hf hx with ⟨-, rfl⟩ | ⟨hi, hx⟩
    · exact absurd hzero hxne
    rcases getElem?_replaced_cases hfs hf hz with ⟨rfl, rfl⟩ | ⟨hjp, hz⟩
    · have haddr : f.trigger.address = x.trigger.address := by
        rw [← hxz]; simp only [Fault.setTriggerNum, hag.trigger]; rfl
      simp only [Fault.setTriggerNum, injectedTrignum]
      split
      · omega
      · next hl =>
        rw [if_neg (Nat.ne_of_lt hlive)]
        intro hi'
        exact hnot ⟨j, f, x, rfl, hf, hone, hl, by omega, by rw [hi']; exact hx, hxne, haddr.symm⟩
    · exact h.unambiguous i j x z hx hz hj hxne hxz
  · rw [hfs, List.countP_set hlt, hget]
    have := h.live
    simp only [hne, decide_false, Bool.false_eq_true, if_false, Fault.setTriggerNum, hzero,
      decide_true, if_true]
    omega

/-- Every callback that is not ambiguous keeps the invariant. -/
theorem VectorInv.step (h : VectorInv s) {cb : Callback} (hnot : ¬ Ambiguous s cb)
    (hstep : callbackStep s cb = some s') : VectorInv s' := by
  unfold callbackStep at hstep
  split at hstep
  · next hlt =>
    obtain rfl := Option.some.inj hstep
    obtain ⟨f, hf⟩ : ∃ f, s.faults[cb.current]? = some f := ⟨_, List.getElem?_eq_getElem hlt⟩
    cases cb with
    | triggerInsnCb p =>
      simp only [Callback.current] at hf
      rcases triggerInsnCb_spec hf with ⟨-, hsame⟩ | ⟨hgt, hp, hc, hfs⟩ | ⟨hone, hp, hc, f', hag, hfs⟩
      · rw [runCallback, hsame]
        exact h
      · have hhit : (f.setHitcounter (f.trigger.hitcounter - 1)).trigger.hitcounter = 0 ↔
            f.trigger.hitcounter = 0 := by
          simp only [Fault.setHitcounter]; omega
        exact h.keep (g := f.setHitcounter (f.trigger.hitcounter - 1)) hf rfl rfl hhit hfs
          (congrArg Faultplugin.faultTriggerAddresses hp)
          (congrArg Faultplugin.faultNumber hp) (congrArg Faultplugin.liveFaultsNumber hp)
          fun i => by rw [runCallback, hc]
      · exact h.inject hf hone hnot hp hc hag hfs
    | tbExecCb p =>
      simp only [Callback.current] at hf
      obtain ⟨⟨live, hp⟩, hcalls, hfs⟩ := tbExecCb_spec hf
      have hp' : (s.runCallback (.tbExecCb p)).plugin = { s.plugin with liveFaults := live } := hp
      refine h.keep (g := { f with lifetime := f.lifetime - 1 }) hf rfl rfl Iff.rfl hfs
        (by rw [hp']) (by rw [hp']) (by rw [hp']) fun i => ?_
      rcases hcalls with hc | hc
      · rw [runCallback, hc]
      · rw [runCallback, hc]
        simp
  · cases hstep

/-- An ambiguous callback leaves a fault that its slot no longer finds. -/
theorem VectorInv.ambiguous (h : VectorInv s) {cb : Callback} (hamb : Ambiguous s cb) :
    ∃ s', callbackStep s cb = some s' ∧ ¬ Armed s' := by
  obtain ⟨g, fg, fk, rfl, hg, hone, hl, hlt, hk, hkne, haddr⟩ := hamb
  obtain ⟨hglt, -⟩ := List.getElem?_eq_some_iff.mp hg
  refine ⟨s.runCallback (.triggerInsnCb g), by rw [callbackStep, if_pos]; exact hglt, fun harmed => ?_⟩
  have hgne : fg.trigger.hitcounter ≠ 0 := by omega
  have hlive := h.live_lt hg hgne
  rcases triggerInsnCb_spec hg with ⟨h0, -⟩ | ⟨h1, -⟩ | ⟨-, -, hc, f', hag, hfs⟩
  · omega
  · omega
  · have hne : s.plugin.liveFaultsNumber ≠ g := by omega
    have hk' : (s.triggerInsnCb g).faults[s.plugin.liveFaultsNumber]? = some fk := by
      rw [hfs, List.getElem?_set_ne (Ne.symm hne)]; exact hk
    have hnot : Call.injectFault s.plugin.liveFaultsNumber ∉ (s.triggerInsnCb g).calls := by
      rw [hc, List.mem_append, List.mem_singleton, Call.injectFault.injEq]
      rintro (hmem | heq)
      · exact hkne ((h.injected _ fk hk).mp hmem)
      · exact hne heq
    obtain ⟨-, hfind, -⟩ := harmed _ fk hk' hnot
    have hg' : (s.triggerInsnCb g).faults[g]?
        = some (f'.setTriggerNum (injectedTrignum s.plugin fg)) := by
      rw [hfs]; simp [hglt]
    have hnum := (h.slot _ fk hk hkne).1
    refine (getFaultStructByTrigger_self hk' hnum).mp hfind g _ hg' hlt ?_ ?_
    · simp only [Fault.setTriggerNum, hag.trigger]
      exact haddr.symm
    · simp only [Fault.setTriggerNum, injectedTrignum, if_neg hl, if_neg (Nat.ne_of_lt hlive)]

end Step

/-! ### Runs -/

/-- Registering a list of faults with positive hitcounters establishes the invariant. -/
theorem VectorInv.register {s s' : State} (hfresh : s.Fresh)
    (hpos : ∀ f ∈ s.faults, 0 < f.trigger.hitcounter)
    (hreg : s.registerFaultTriggerAddresses = some s') : VectorInv s' := by
  unfold State.registerFaultTriggerAddresses at hreg
  split at hreg
  · cases hreg
  · obtain rfl := Option.some.inj hreg
    have hfaults : ∀ {i : ℕ} {f : Fault}, (s.faults.mapIdx fun j f => f.setTriggerNum j)[i]? = some f →
        ∃ f₀, s.faults[i]? = some f₀ ∧ f = f₀.setTriggerNum i := by
      intro i f hf
      rw [List.getElem?_mapIdx, Option.map_eq_some_iff] at hf
      obtain ⟨f₀, h₀, rfl⟩ := hf
      exact ⟨f₀, h₀, rfl⟩
    refine ⟨by simp, by simp, ?_, ?_, ?_, by simp [hfresh.liveFaultsNumber]⟩
    · intro i f hf
      obtain ⟨f₀, h₀, rfl⟩ := hfaults hf
      have := hpos f₀ (List.mem_of_getElem? h₀)
      simp only [hfresh.calls, List.not_mem_nil, Fault.setTriggerNum, false_iff]
      omega
    · intro i f hf _
      obtain ⟨f₀, h₀, rfl⟩ := hfaults hf
      exact ⟨rfl, by simp [h₀, Fault.setTriggerNum]⟩
    · intro i j f g hf hg hj _ _
      obtain ⟨g₀, -, rfl⟩ := hfaults hg
      simp only [Fault.setTriggerNum]
      omega

/-- Every fault that waits is found in every state of a run of callbacks iff none of them is
    ambiguous. -/
theorem always_armed_iff {s s' : State} (hfresh : s.Fresh)
    (hpos : ∀ f ∈ s.faults, 0 < f.trigger.hitcounter)
    (hreg : s.registerFaultTriggerAddresses = some s') (cbs : List Callback) :
    Always callbackStep Armed s' cbs ↔ EveryStep callbackStep (fun s cb => ¬ Ambiguous s cb) s' cbs :=
  always_iff_everyStep (fun _ h => h.armed) (fun _ _ _ h hnot hstep => h.step hnot hstep)
    (fun _ _ h hamb => h.ambiguous (not_not.mp hamb)) (VectorInv.register hfresh hpos hreg)

/-! ### Three faults

    The last fault is injected first and gets live number 0. The first one then gets live number 1,
    which is the slot of the fault between them, and both have the same trigger address. -/

/-- A plugin that has read a fault list. -/
def freshState (faults : List Fault) : State where
  target := ⟨.arm, fun b i => ((b.setWidth 32) <<< (8 * i)).signExtend 64, fun _ _ _ => rfl⟩
  cpu := ⟨fun _ => 0, fun _ => 0⟩
  faults := faults
  plugin := ⟨[], [], 0, 0, 0, ⟨0, 0, 0⟩⟩
  reqSinglestep := 0
  singleStep := false
  memdump := none
  usedMemdump := 0
  registerdumps := []
  tbFaulted := ⟨[], [], 0, 0, 0⟩
  flush := false
  calls := []
  zeroReleases := 0

def registerFault (lifetime triggerAddress hitcounter : ℕ) : Fault :=
  ⟨1, REGISTER, SET1, lifetime, 1, fun _ => 0, fun _ => 0, ⟨triggerAddress, hitcounter, 0⟩⟩

/-- A TB of one instruction. -/
def oneInsnTb (vaddr : ℕ) : Tb := ⟨[⟨vaddr, 4, "nop".toList⟩], by simp, by simp, by simp⟩

def threeFaults : State :=
  freshState [registerFault 1 0x10 1, registerFault 0 0x10 5, registerFault 1 0x20 1]

/-- Injecting the first fault alone is harmless. -/
theorem always_armed_iff_threeFaults : ∃ s', threeFaults.registerFaultTriggerAddresses = some s' ∧
    (Always callbackStep Armed s' [.triggerInsnCb 0] ↔
      EveryStep callbackStep (fun s cb => ¬ Ambiguous s cb) s' [.triggerInsnCb 0]) :=
  ⟨_, rfl, always_armed_iff (s := threeFaults) ⟨rfl, rfl⟩ (by decide) rfl [.triggerInsnCb 0]⟩

/-- After the third and the first fault the lookup for the second finds the first. -/
theorem threeFaults_not_armed : ∃ s', threeFaults.registerFaultTriggerAddresses = some s' ∧
    ¬ Always callbackStep Armed s' [.triggerInsnCb 2, .triggerInsnCb 0] := by
  refine ⟨_, rfl, fun h => ?_⟩
  have harmed := ((h.2 _ rfl).2 _ rfl).head
  have hfind := (harmed 1 _ rfl (by decide)).2.1
  exact absurd hfind (by decide)

end Archie.Plugin
