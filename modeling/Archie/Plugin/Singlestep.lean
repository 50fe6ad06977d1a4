import Archie.Plugin.Lifecycle

/-! singlestep.c: who holds a request for single-stepping.

    The counter is raised and lowered in four files. Between two events it is the sum of what is
    pending, one request each:

        hitcounter 1 ──inject_fault──▶ live ──reverse_fault──▶ done
                            └──tb_faulted_register──▶ faulted TB ──check_tb_faulted──▶ captured   -/

namespace Archie.Plugin
open Run

namespace State

variable (s : State)

/-- The faults one hit before their injection. -/
def waiting : Finset ℕ :=
  (Finset.range s.faults.length).filter fun i =>
    Call.injectFault i ∉ s.calls ∧ (s.faults[i]?).any fun f => decide (f.trigger.hitcounter = 1)

/-- The injected faults that are still to be reversed. -/
def liveTemporary : Finset ℕ :=
  (Finset.range s.faults.length).filter fun i =>
    Call.injectFault i ∈ s.calls ∧ (s.faults[i]?).any fun f => decide (0 < f.lifetime)

/-- The faulted TBs whose assembler is still to be captured. -/
def uncaptured : ℕ := s.tbFaulted.currentTriggers - s.tbFaulted.doneTriggers

/-- What the counter and the mode of QEMU should be. -/
structure SinglestepBalanced : Prop where
  requests : s.reqSinglestep = s.waiting.card + s.liveTemporary.card + s.uncaptured
  captured : s.tbFaulted.doneTriggers ≤ s.tbFaulted.currentTriggers
  mode : s.singleStep = true ↔ 0 < s.waiting.card + s.liveTemporary.card + s.uncaptured

/-- The modules as they are when a list of faults is announced. -/
structure Idle : Prop where
  firstTb : s.plugin.firstTb = 0
  reqSinglestep : s.reqSinglestep = 0
  singleStep : s.singleStep = false
  tbFaulted : s.tbFaulted = tbFaultedInit s.faults.length
  zeroReleases : s.zeroReleases = 0

/-- The request that fault `i` holds. -/
def request (i : ℕ) : ℕ :=
  match s.faults[i]? with
  | none => 0
  | some f =>
    if Call.injectFault i ∈ s.calls then if 0 < f.lifetime then 1 else 0
    else if f.trigger.hitcounter = 1 then 1 else 0

/-- The requests of the first `n` faults. -/
def requests (n : ℕ) : ℕ := ∑ i ∈ Finset.range n, s.request i

end State

/-- The TB does not contain the mark for captured triggers. -/
def Tb.AvoidsMark (tb : Tb) : Prop := ¬ (tb.vaddr ≤ 0xdeadbeaf ∧ 0xdeadbeaf ≤ tb.vaddr + tb.bytesize)

/-- A translation is of a TB without the mark. -/
def SessionEvent.AvoidsMark : SessionEvent → Prop
  | .translate tb => tb.AvoidsMark
  | _ => True

namespace State

/-! ### Requests -/

section Requests

variable {s s' : State} {p n : ℕ} {f g : Fault}

theorem requests_length :
    s.requests s.faults.length = s.waiting.card + s.liveTemporary.card := by
  unfold requests waiting liveTemporary
  rw [Finset.card_filter, Finset.card_filter, ← Finset.sum_add_distrib]
  refine Finset.sum_congr rfl fun i hi => ?_
  have hlt : i < s.faults.length := Finset.mem_range.mp hi
  unfold request
  rw [List.getElem?_eq_getElem hlt]
  by_cases hin : Call.injectFault i ∈ s.calls
  · simp [hin]
  · simp [hin]

theorem request_injected (hf : s.faults[p]? = some f) (hin : Call.injectFault p ∈ s.calls) :
    s.request p = if 0 < f.lifetime then 1 else 0 := by
  simp only [request, hf, if_pos hin]

theorem request_waiting (hf : s.faults[p]? = some f) (hnot : Call.injectFault p ∉ s.calls) :
    s.request p = if f.trigger.hitcounter = 1 then 1 else 0 := by
  simp only [request, hf, if_neg hnot]

/-- Only fault `p` and its injection may have changed. -/
structure Touches (p : ℕ) (s s' : State) : Prop where
  length : s'.faults.length = s.faults.length
  faults : ∀ i, i ≠ p → s'.faults[i]? = s.faults[i]?
  calls : ∀ i, i ≠ p → (Call.injectFault i ∈ s'.calls ↔ Call.injectFault i ∈ s.calls)

theorem Touches.of_set (hf : s'.faults = s.faults.set p g)
    (hc : s'.calls = s.calls ∨ s'.calls = s.calls ++ [Call.injectFault p] ∨
      s'.calls = s.calls ++ [Call.reverseFault p]) : Touches p s s' := by
  refine ⟨by rw [hf, List.length_set], fun i hi => ?_, fun i hi => ?_⟩
  · rw [hf, List.getElem?_set_ne (Ne.symm hi)]
  · rcases hc with hc | hc | hc <;> simp [hc, hi]

/-- Only one fault changes its request. -/
theorem Touches.requests (htouch : Touches p s s') (hp : p < n) :
    s'.requests n + s.request p = s.requests n + s'.request p := by
  have hother : ∀ i, i ≠ p → s'.request i = s.request i := by
    intro i hi
    unfold request
    simp only [htouch.faults i hi, htouch.calls i hi]
  have hmem : p ∈ Finset.range n := Finset.mem_range.mpr hp
  have herase : ∑ i ∈ (Finset.range n).erase p, s'.request i
      = ∑ i ∈ (Finset.range n).erase p, s.request i :=
    Finset.sum_congr rfl fun i hi => hother i (Finset.ne_of_mem_erase hi)
  have h₁ := Finset.add_sum_erase (Finset.range n) s.request hmem
  have h₂ := Finset.add_sum_erase (Finset.range n) s'.request hmem
  unfold State.requests
  omega

/-- The requests of the faults before it stay. -/
theorem Touches.requests_le (htouch : Touches p s s') (hn : n ≤ p) :
    s'.requests n = s.requests n := by
  refine Finset.sum_congr rfl fun i hi => ?_
  have hip : i ≠ p := by
    have := Finset.mem_range.mp hi
    omega
  simp only [request, htouch.faults i hip, htouch.calls i hip]

theorem requests_congr (hf : s'.faults = s.faults) (hc : s'.calls = s.calls) :
    s'.requests n = s.requests n :=
  Finset.sum_congr rfl fun i _ => by simp only [request, hf, hc]

end Requests

/-! ### The counter -/

/-- The counter is `k` and one for each faulted TB that is not captured, whose trigger is still in the
    list of active ones. -/
structure Balanced (k : ℕ) (s : State) : Prop where
  counter : s.reqSinglestep = k + s.uncaptured
  mode : s.singleStep = decide (s.reqSinglestep ≠ 0)
  zeroReleases : s.zeroReleases = 0
  length : s.tbFaulted.activeTriggers.length = s.tbFaulted.maxTriggers
  current : s.tbFaulted.currentTriggers ≤ s.tbFaulted.maxTriggers
  marks : s.tbFaulted.doneTriggers
    ≤ (s.tbFaulted.activeTriggers.take s.tbFaulted.currentTriggers).count 0xdeadbeaf
  known : ∀ a ∈ s.tbFaulted.activeTriggers.take s.tbFaulted.currentTriggers, a ≠ 0xdeadbeaf →
    ∃ item ∈ s.tbFaulted.list, item.1 = a

/-- The counter, the mode and the faulted TBs are as before. -/
structure SameRequests (s s' : State) : Prop where
  reqSinglestep : s'.reqSinglestep = s.reqSinglestep
  singleStep : s'.singleStep = s.singleStep
  zeroReleases : s'.zeroReleases = s.zeroReleases
  tbFaulted : s'.tbFaulted = s.tbFaulted

theorem SameRequests.refl (s : State) : SameRequests s s := ⟨rfl, rfl, rfl, rfl⟩

theorem SameRequests.trans {s s' s'' : State} (h : SameRequests s s') (h' : SameRequests s' s'') :
    SameRequests s s'' :=
  ⟨h'.reqSinglestep.trans h.reqSinglestep, h'.singleStep.trans h.singleStep,
    h'.zeroReleases.trans h.zeroReleases, h'.tbFaulted.trans h.tbFaulted⟩

theorem sameRequests_insertMemorydumpConfig (s : State) (baseaddress len : ℕ) :
    SameRequests s (s.insertMemorydumpConfig baseaddress len) := by
  unfold insertMemorydumpConfig
  split
  · exact .refl s
  · exact ⟨rfl, rfl, rfl, rfl⟩

theorem sameRequests_readSpecificMemoryregion (s : State) (baseaddress : ℕ) :
    SameRequests s (s.readSpecificMemoryregion baseaddress) := by
  refine List.foldlRecOn (motive := fun s' => SameRequests s s') _ _ (.refl s) fun s' h i _ => ?_
  split
  · split
    · exact h.trans ⟨rfl, rfl, rfl, rfl⟩
    · exact h
  · exact h

theorem sameRequests_injectWith (s : State) (inject : Cpu → Fault → Cpu × Fault) (current : ℕ) :
    SameRequests s (s.injectWith inject current) := by
  unfold injectWith
  split
  · exact .refl s
  · exact ⟨rfl, rfl, rfl, rfl⟩

theorem insertFaultedAssembly_currentTriggers (s : State) (tb : Tb) (address : ℕ) :
    (s.insertFaultedAssembly tb address).tbFaulted.currentTriggers
      = s.tbFaulted.currentTriggers := by
  unfold insertFaultedAssembly
  split <;> rfl

namespace Balanced

variable {s s' : State} {k p : ℕ} {f : Fault}

theorem same (h : Balanced k s) (hsame : SameRequests s s') : Balanced k s' := by
  obtain ⟨hreq, hmode, hzero, htb⟩ := hsame
  have huncaptured : s'.uncaptured = s.uncaptured := by rw [uncaptured, uncaptured, htb]
  constructor
  · rw [hreq, huncaptured, h.counter]
  · rw [hmode, hreq, h.mode]
  · rw [hzero, h.zeroReleases]
  · rw [htb]; exact h.length
  · rw [htb]; exact h.current
  · rw [htb]; exact h.marks
  · rw [htb]; exact h.known

theorem done_le (h : Balanced k s) : s.tbFaulted.doneTriggers ≤ s.tbFaulted.currentTriggers := by
  have hcount := List.count_le_length (a := 0xdeadbeaf)
    (l := s.tbFaulted.activeTriggers.take s.tbFaulted.currentTriggers)
  have hmarks := h.marks
  rw [List.length_take] at hcount
  omega

theorem addSinglestepReq (h : Balanced k s) : Balanced (k + 1) s.addSinglestepReq := by
  have hcounter : s.reqSinglestep + 1 = k + 1 + s.uncaptured := by rw [h.counter]; omega
  exact ⟨hcounter, rfl, h.zeroReleases, h.length, h.current, h.marks, h.known⟩

/-- A request that is withdrawn was there. -/
theorem remSinglestepReq (h : Balanced (k + 1) s) : Balanced k s.remSinglestepReq := by
  have hne : s.reqSinglestep ≠ 0 := by rw [h.counter]; omega
  rw [State.remSinglestepReq, if_pos hne]
  have hcounter : s.reqSinglestep - 1 = k + s.uncaptured := by rw [h.counter]; omega
  exact ⟨hcounter, rfl, h.zeroReleases, h.length, h.current, h.marks, h.known⟩

/-! ### Faulted TBs -/

theorem tbFaultedRegister (h : Balanced k s) (faultAddress : ℕ) :
    Balanced k (s.tbFaultedRegister faultAddress) := by
  unfold State.tbFaultedRegister
  simp only
  split
  · exact h
  · next hne =>
    have hlt : s.tbFaulted.currentTriggers < s.tbFaulted.activeTriggers.length := by
      have := h.current
      rw [h.length]
      omega
    have htake : (s.tbFaulted.activeTriggers.set s.tbFaulted.currentTriggers faultAddress).take
        (s.tbFaulted.currentTriggers + 1)
        = s.tbFaulted.activeTriggers.take s.tbFaulted.currentTriggers ++ [faultAddress] := by
      rw [List.take_succ_eq_append_getElem (by simpa using hlt), List.getElem_set_self,
        List.take_set_of_le le_rfl]
    have hdone := h.done_le
    have hcounter : s.reqSinglestep + 1
        = k + (s.tbFaulted.currentTriggers + 1 - s.tbFaulted.doneTriggers) := by
      rw [h.counter, uncaptured]; omega
    refine ⟨hcounter, rfl, h.zeroReleases, ?_, ?_, ?_, ?_⟩
    · exact List.length_set.trans h.length
    · exact Nat.lt_of_le_of_ne h.current (Ne.symm hne)
    · show s.tbFaulted.doneTriggers ≤ List.count _ (List.take _ (List.set _ _ _))
      rw [htake, List.count_append]
      exact h.marks.trans (Nat.le_add_right _ _)
    · intro a ha hmark
      have ha : a ∈ s.tbFaulted.activeTriggers.take s.tbFaulted.currentTriggers ++ [faultAddress] :=
        htake ▸ ha
      rcases List.mem_append.mp ha with ha | ha
      · obtain ⟨item, hitem, heq⟩ := h.known a ha hmark
        exact ⟨item, List.mem_cons_of_mem _ hitem, heq⟩
      · exact ⟨(faultAddress, none), List.mem_cons_self, (List.mem_singleton.mp ha).symm⟩

/-- The capture of one trigger, which is then marked. -/
theorem insertFaultedAssembly (h : Balanced k s) {tb : Tb} {i address : ℕ}
    (hi : s.tbFaulted.activeTriggers[i]? = some address) (hcurrent : i < s.tbFaulted.currentTriggers)
    (hmark : address ≠ 0xdeadbeaf) :
    ∀ t, t = (s.insertFaultedAssembly tb address).tbFaulted → Balanced k
      { s.insertFaultedAssembly tb address with
        tbFaulted := { t with
          activeTriggers := t.activeTriggers.set i 0xdeadbeaf, doneTriggers := t.doneTriggers + 1 } } := by
  rintro t rfl
  obtain ⟨hlt, rfl⟩ := List.getElem?_eq_some_iff.mp hi
  have hmem : s.tbFaulted.activeTriggers[i] ∈
      s.tbFaulted.activeTriggers.take s.tbFaulted.currentTriggers :=
    List.mem_take_iff_getElem.mpr ⟨i, by omega, rfl⟩
  obtain ⟨item, hitem, heq⟩ := h.known _ hmem hmark
  obtain ⟨j, hj⟩ : ∃ j, (s.tbFaulted.list.findIdx? fun item =>
      item.1 = s.tbFaulted.activeTriggers[i]) = some j := by
    refine Option.isSome_iff_exists.mp ?_
    rw [List.findIdx?_isSome, List.any_eq_true]
    exact ⟨item, hitem, by simpa using heq⟩
  -- one more of the active triggers is marked
  have hcount : ((s.tbFaulted.activeTriggers.set i 0xdeadbeaf).take
      s.tbFaulted.currentTriggers).count 0xdeadbeaf
      = (s.tbFaulted.activeTriggers.take s.tbFaulted.currentTriggers).count 0xdeadbeaf + 1 := by
    have hlt' : i < (s.tbFaulted.activeTriggers.take s.tbFaulted.currentTriggers).length := by
      rw [List.length_take]; omega
    rw [List.take_set, List.count_set hlt', List.getElem_take]
    simp [hmark]
  have hmarks := h.marks
  have hlength := List.count_le_length (a := 0xdeadbeaf)
    (l := (s.tbFaulted.activeTriggers.set i 0xdeadbeaf).take s.tbFaulted.currentTriggers)
  rw [hcount, List.length_take] at hlength
  have hne : s.reqSinglestep ≠ 0 := by rw [h.counter, uncaptured]; omega
  have hcounter : s.reqSinglestep - 1
      = k + (s.tbFaulted.currentTriggers - (s.tbFaulted.doneTriggers + 1)) := by
    rw [h.counter, uncaptured]; omega
  simp only [State.insertFaultedAssembly, hj, State.remSinglestepReq, if_pos hne]
  refine ⟨hcounter, rfl, h.zeroReleases, ?_, h.current, ?_, ?_⟩
  · exact List.length_set.trans h.length
  · exact hcount ▸ Nat.succ_le_succ hmarks
  · intro a ha hne'
    have ha : a ∈ (s.tbFaulted.activeTriggers.set i 0xdeadbeaf).take s.tbFaulted.currentTriggers := ha
    rw [List.take_set] at ha
    rcases List.mem_or_eq_of_mem_set ha with ha | rfl
    · obtain ⟨old, hold, heq'⟩ := h.known a ha hne'
      obtain ⟨l, hl, rfl⟩ := List.getElem_of_mem hold
      refine ⟨_, List.getElem_mem (by rw [List.length_modify]; exact hl : l < _), ?_⟩
      rw [List.getElem_modify]
      split
      · exact heq'
      · exact heq'
    · exact absurd rfl hne'

/-- A TB without the mark captures triggers and marks them. -/
theorem checkTbFaulted (h : Balanced k s) {tb : Tb} (htb : tb.AvoidsMark) :
    Balanced k (s.checkTbFaulted tb) := by
  unfold State.checkTbFaulted
  split
  · exact h
  · refine (List.foldlRecOn (motive := fun s' => Balanced k s' ∧
      s'.tbFaulted.currentTriggers = s.tbFaulted.currentTriggers) _ _ ⟨h, rfl⟩ ?_).1
    rintro s' ⟨h', hcurrent⟩ i hi
    have hlt : i < s'.tbFaulted.currentTriggers := by
      rw [hcurrent]; exact List.mem_range.mp hi
    split
    · next address haddress =>
      split
      · next hin =>
        have hmark : address ≠ 0xdeadbeaf := by
          rintro rfl
          exact htb ⟨hin.1, hin.2.trans (Nat.mod_le _ _)⟩
        refine ⟨h'.insertFaultedAssembly haddress hlt hmark _ rfl, ?_⟩
        exact (insertFaultedAssembly_currentTriggers s' tb address).trans hcurrent
      · exact ⟨h', hcurrent⟩
    · exact ⟨h', hcurrent⟩

/-! ### Injections and reversals -/

theorem injectByType (h : Balanced k s) (current : ℕ) (f : Fault) :
    Balanced k (s.injectByType current f) := by
  have hdump := (h.same (sameRequests_insertMemorydumpConfig s f.address 16)).same
    (sameRequests_readSpecificMemoryregion _ f.address)
  rcases State.injectByType_cases s current f with ⟨s₁, hs₁, heq⟩ | heq | heq
  · have h₁ : Balanced k s₁ := by
      rcases hs₁ with rfl | rfl
      · exact hdump
      · exact hdump.tbFaultedRegister f.address
    have hinject := h₁.same (sameRequests_injectWith s₁ injectMemoryFault current)
    have hflush : Balanced k (s₁.injectWith injectMemoryFault current).flushTb :=
      hinject.same ⟨rfl, rfl, rfl, rfl⟩
    rw [heq]
    exact hflush.same (sameRequests_readSpecificMemoryregion _ _)
  · rw [heq]
    exact h.same (sameRequests_injectWith s _ current)
  · rw [heq]
    exact h

/-- An injection hands the request of the fault over to its reversal, if there will be one. -/
theorem injectFault (h : Balanced (k + 1) s) (hf : s.faults[p]? = some f)
    (hfree : s.plugin.liveFaultsNumber ≠ s.plugin.faultNumber) :
    Balanced (k + if 0 < f.lifetime then 1 else 0) (s.injectFault p) := by
  have hcalls : Balanced (k + 1) { s with calls := s.calls ++ [Call.injectFault p] } :=
    h.same ⟨rfl, rfl, rfl, rfl⟩
  have htype := hcalls.injectByType p f
  obtain ⟨hplugin, -, -⟩ := injectByType_injects
    (s := { s with calls := s.calls ++ [Call.injectFault p] }) hf
  generalize hs₁ : State.injectByType { s with calls := s.calls ++ [Call.injectFault p] } p f = s₁
    at htype hplugin
  have hinvalidate : Balanced (k + 1) (s₁.invalidateFaultTriggerAddress f.trigger.trignum) :=
    htype.same ⟨rfl, rfl, rfl, rfl⟩
  have hrem := hinvalidate.remSinglestepReq
  have hfree' : (s₁.invalidateFaultTriggerAddress f.trigger.trignum).remSinglestepReq.plugin.liveFaultsNumber
      ≠ (s₁.invalidateFaultTriggerAddress f.trigger.trignum).remSinglestepReq.plugin.faultNumber := by
    rw [same_remSinglestepReq.plugin]
    simp only [invalidateFaultTriggerAddress, hplugin]
    exact hfree
  simp only [State.injectFault, hf, hs₁]
  rcases Nat.eq_zero_or_pos f.lifetime with h0 | hpos
  · rw [if_neg (not_not.mpr h0), if_neg (by omega)]
    exact hrem.same ⟨rfl, rfl, rfl, rfl⟩
  · rw [if_pos (Nat.ne_of_gt hpos), if_pos hpos]
    simp only [registerLiveFaultsCallback, if_neg hfree']
    exact hrem.addSinglestepReq.same ⟨rfl, rfl, rfl, rfl⟩

theorem reverseFault (h : Balanced (k + 1) s) (hf : s.faults[p]? = some f) :
    Balanced k (s.reverseFault p) := by
  have hcalls : Balanced (k + 1) { s with calls := s.calls ++ [Call.reverseFault p] } :=
    h.same ⟨rfl, rfl, rfl, rfl⟩
  have htype : Balanced (k + 1)
      (State.reverseByType { s with calls := s.calls ++ [Call.reverseFault p] } f) := by
    generalize { s with calls := s.calls ++ [Call.reverseFault p] } = s₁ at hcalls
    have hflush : Balanced (k + 1) { s₁ with
        cpu := s₁.cpu.processReverseFault f.address f.mask f.restoremask }.flushTb :=
      hcalls.same ⟨rfl, rfl, rfl, rfl⟩
    have hmem := hflush.same (sameRequests_readSpecificMemoryregion _ f.address)
    have hguest : Balanced (k + 1) (if f.type = INSTRUCTION ∨ f.type = DATA then ({ s₁ with
        cpu := s₁.cpu.processReverseFault f.address f.mask f.restoremask }.flushTb
        ).readSpecificMemoryregion f.address else s₁) := by
      split
      · exact hmem
      · exact hcalls
    unfold State.reverseByType
    simp only
    split
    · exact hguest.same ⟨rfl, rfl, rfl, rfl⟩
    · exact hguest
  simp only [State.reverseFault, hf]
  exact htype.remSinglestepReq.same ⟨rfl, rfl, rfl, rfl⟩

/-! ### Callbacks -/

/-- A step that moves the counter along with the request of its fault. -/
theorem requests {n : ℕ} (h : Balanced (s.requests n) s) (hp : p < n) (htouch : Touches p s s')
    (hstep : ∀ k, Balanced (k + s.request p) s → Balanced (k + s'.request p) s') :
    Balanced (s'.requests n) s' := by
  have hle : s.request p ≤ s.requests n :=
    Finset.single_le_sum (fun _ _ => Nat.zero_le _) (Finset.mem_range.mpr hp)
  have hsum := htouch.requests hp
  have hkeep := hstep (s.requests n - s.request p) (by rwa [Nat.sub_add_cancel hle])
  have heq : s'.requests n = s.requests n - s.request p + s'.request p := by omega
  rw [heq]
  exact hkeep

theorem triggerInsnCb {faults : List Fault} {ticks : ℕ → ℕ} (hlife : s.LifeInv faults ticks)
    (h : Balanced (k + s.request p) s) (hf : s.faults[p]? = some f) :
    Balanced (k + (s.triggerInsnCb p).request p) (s.triggerInsnCb p) := by
  obtain ⟨hlt, -⟩ := List.getElem?_eq_some_iff.mp hf
  have hmodify : ∀ n : ℕ, Balanced (k + s.request p) (s.modifyFault p fun f => f.setHitcounter n) :=
    fun n => h.same ⟨rfl, rfl, rfl, rfl⟩
  rcases triggerInsnCb_spec hf with ⟨-, hs⟩ | ⟨hgt, -, hc, hfs⟩ | ⟨hone, -, hc, f', hag, hfs⟩
  · rw [hs]
    exact h
  · have hnot : Call.injectFault p ∉ s.calls := by
      intro hin
      have := hlife.spent p f hf hin
      omega
    have hafter : (s.triggerInsnCb p).request p = if f.trigger.hitcounter = 2 then 1 else 0 := by
      rw [request_waiting (f := f.setHitcounter (f.trigger.hitcounter - 1))
        (by rw [hfs, List.getElem?_set_self hlt]) (by rw [hc]; exact hnot)]
      exact if_congr (by simp only [Fault.setHitcounter]; omega) rfl rfl
    rw [request_waiting hf hnot, if_neg (by omega)] at hmodify
    rw [hafter]
    simp only [State.triggerInsnCb, hf, if_pos (show f.trigger.hitcounter ≠ 0 by omega),
      if_neg (show ¬ f.trigger.hitcounter - 1 = 0 by omega)]
    rcases Nat.lt_or_ge 2 f.trigger.hitcounter with h2 | h2
    · rw [if_neg (by omega), if_neg (by omega)]
      exact hmodify _
    · rw [if_pos (by omega), if_pos (by omega)]
      exact (hmodify _).addSinglestepReq
  · have hnot : Call.injectFault p ∉ s.calls := by
      intro hin
      have := hlife.spent p f hf hin
      omega
    have hafter : (s.triggerInsnCb p).request p = if 0 < f.lifetime then 1 else 0 := by
      rw [request_injected (f := f'.setTriggerNum (injectedTrignum s.plugin f))
        (by rw [hfs, List.getElem?_set_self hlt]) (by rw [hc]; simp)]
      exact if_congr (by simp only [Fault.setTriggerNum, hag.lifetime, Fault.setHitcounter]) rfl rfl
    rw [request_waiting hf hnot, if_pos hone] at hmodify
    have hfree := Nat.ne_of_lt (hlife.liveNumber_lt hf hnot)
    have hf' : (s.modifyFault p fun f => f.setHitcounter 0).faults[p]? = some (f.setHitcounter 0) := by
      simp [modifyFault, hf]
    rw [hafter]
    simp only [State.triggerInsnCb, hf, hone, ne_eq, one_ne_zero, not_false_eq_true, if_true,
      Nat.sub_self, zero_ne_one, if_false]
    exact (hmodify 0).injectFault (f := f.setHitcounter 0) hf' hfree

theorem tbExecCb (h : Balanced (k + s.request p) s) (hf : s.faults[p]? = some f)
    (hin : Call.injectFault p ∈ s.calls) :
    Balanced (k + (s.tbExecCb p).request p) (s.tbExecCb p) := by
  obtain ⟨hlt, -⟩ := List.getElem?_eq_some_iff.mp hf
  obtain ⟨hfs, hkind⟩ := tbExecCb_cases hf
  have hin' : Call.injectFault p ∈ (s.tbExecCb p).calls := by
    rcases hkind with ⟨-, -, hc⟩ | ⟨-, -, hc⟩
    · rw [hc]; exact hin
    · rw [hc]; exact List.mem_append_left _ hin
  have hafter : (s.tbExecCb p).request p = if 1 < f.lifetime then 1 else 0 := by
    rw [request_injected (f := { f with lifetime := f.lifetime - 1 })
      (by rw [hfs, List.getElem?_set_self hlt]) hin']
    exact if_congr (by simp only; omega) rfl rfl
  have hmodify : Balanced (k + s.request p)
      (s.modifyFault p fun f => { f with lifetime := f.lifetime - 1 }) := h.same ⟨rfl, rfl, rfl, rfl⟩
  rw [request_injected hf hin] at h hmodify
  rw [hafter]
  simp only [State.tbExecCb, hf]
  rcases Nat.lt_trichotomy f.lifetime 1 with h0 | h1 | h2
  · rw [if_neg (by omega)] at h
    rw [if_neg (by omega), if_neg (by omega)]
    exact h
  · have hf' : (s.modifyFault p fun f => { f with lifetime := f.lifetime - 1 }).faults[p]?
        = some { f with lifetime := f.lifetime - 1 } := by
      simp [modifyFault, hf]
    rw [if_pos (by omega)] at hmodify
    rw [if_neg (by omega), if_pos (by omega), if_pos (by omega)]
    exact (hmodify.reverseFault hf').same ⟨rfl, rfl, rfl, rfl⟩
  · rw [if_pos (by omega)] at hmodify
    rw [if_pos (by omega), if_pos (by omega), if_neg (by omega)]
    exact hmodify

/-! ### The first TB -/

theorem firstTbFault {faults : List Fault} {ticks : ℕ → ℕ} (hlife : s.LifeInv faults ticks)
    (h : Balanced k s) (hf : s.faults[p]? = some f) (hnot : Call.injectFault p ∉ s.calls) :
    Balanced (k + (s.firstTbFault p).request p) (s.firstTbFault p) ∧
      Touches p s (s.firstTbFault p) := by
  obtain ⟨hlt, hget⟩ := List.getElem?_eq_some_iff.mp hf
  by_cases hzero : f.trigger.hitcounter = 0 ∧ f.type = INSTRUCTION
  · have hf₁ : s.addSinglestepReq.faults[p]? = some f := hf
    have hfree := Nat.ne_of_lt (hlife.liveNumber_lt hf hnot)
    have hinject := h.addSinglestepReq.injectFault hf₁ hfree
    obtain ⟨-, hc, f', hag, hfs⟩ := injectFault_spec hf₁
    have hf₂ : (s.addSinglestepReq.injectFault p).faults[p]?
        = some (f'.setTriggerNum (injectedTrignum s.addSinglestepReq.plugin f)) := by
      rw [hfs, List.getElem?_set_self (show p < s.addSinglestepReq.faults.length from hlt)]
    have hs : s.firstTbFault p = (s.addSinglestepReq.injectFault p).invalidateFaultTriggerAddress
        (injectedTrignum s.addSinglestepReq.plugin f) := by
      simp only [State.firstTbFault, hf, if_pos hzero, hf₂, if_neg (show ¬ f.trigger.hitcounter = 1 by omega)]
      rfl
    have hself : (s.firstTbFault p).faults[p]?
        = some (f'.setTriggerNum (injectedTrignum s.addSinglestepReq.plugin f)) := by
      rw [hs]
      exact hf₂
    have hcalls : (s.firstTbFault p).calls = s.calls ++ [Call.injectFault p] := by
      rw [hs]
      exact hc
    have hrequest : (s.firstTbFault p).request p = if 0 < f.lifetime then 1 else 0 := by
      rw [request_injected hself (by rw [hcalls]; simp)]
      exact if_congr (by simp only [Fault.setTriggerNum, hag.lifetime]) rfl rfl
    refine ⟨?_, .of_set (g := f'.setTriggerNum (injectedTrignum s.addSinglestepReq.plugin f)) ?_ ?_⟩
    · rw [hrequest, hs]
      exact hinject.same ⟨rfl, rfl, rfl, rfl⟩
    · rw [hs]
      exact hfs
    · exact .inr (.inl hcalls)
  · have hs : s.firstTbFault p = if f.trigger.hitcounter = 1 then s.addSinglestepReq else s := by
      simp only [State.firstTbFault, hf, if_neg hzero]
    have hsame : (s.firstTbFault p).faults = s.faults ∧ (s.firstTbFault p).calls = s.calls := by
      rw [hs]
      split <;> exact ⟨rfl, rfl⟩
    refine ⟨?_, .of_set (g := f) ?_ (.inl hsame.2)⟩
    · rw [request_waiting (hsame.1 ▸ hf) (hsame.2 ▸ hnot), hs]
      split
      · exact h.addSinglestepReq
      · exact h
    · rw [hsame.1, ← hget, List.set_getElem_self]

theorem handleFirstTbFaultInsertion {faults : List Fault} {ticks : ℕ → ℕ}
    (hlife : s.LifeInv faults ticks) (hnone : ∀ i, Call.injectFault i ∉ s.calls)
    (h : Balanced 0 s) : Balanced (s.handleFirstTbFaultInsertion.requests faults.length)
      s.handleFirstTbFaultInsertion := by
  have hloop : ∀ n ≤ s.faults.length,
      Balanced (((List.range n).foldl State.firstTbFault s).requests n)
        ((List.range n).foldl State.firstTbFault s) := by
    intro n
    induction n with
    | zero => exact fun _ => h
    | succ n ih =>
      intro hn
      have hbalanced := ih (by omega)
      obtain ⟨hlife₁, hwait⟩ := hlife.firstTbFaults hnone n (by omega)
      rw [List.range_succ, List.foldl_append]
      generalize (List.range n).foldl State.firstTbFault s = s₁ at hbalanced hlife₁ hwait
      have hlt : n < s₁.faults.length := by
        rw [hlife₁.length, ← hlife.length]; omega
      obtain ⟨hnext, htouch⟩ := hbalanced.firstTbFault hlife₁ (List.getElem?_eq_getElem hlt)
        (hwait n le_rfl)
      rw [← htouch.requests_le le_rfl] at hnext
      have hsum : (s₁.firstTbFault n).requests (n + 1)
          = (s₁.firstTbFault n).requests n + (s₁.firstTbFault n).request n :=
        Finset.sum_range_succ _ n
      rw [List.foldl_cons, List.foldl_nil, hsum]
      exact hnext
  rw [← hlife.length]
  exact hloop _ le_rfl

end Balanced

end State

/-! ### Runs -/

/-- The invariant: before the first TB nothing is requested. -/
structure Session.RequestInv (faults : List Fault) (m : Session) : Prop where
  life : m.LifeInv faults
  before : m.state.plugin.firstTb = 0 → State.Balanced 0 m.state
  after : m.state.plugin.firstTb ≠ 0 → State.Balanced (m.state.requests faults.length) m.state

namespace Session.RequestInv
open State

variable {faults : List Fault} {m m' : Session}

theorem boot {s s' : State} (hfresh : s.Fresh) (hidle : s.Idle)
    (hreg : s.registerFaultTriggerAddresses = some s') : (Session.boot s').RequestInv s.faults := by
  have hlife := Session.LifeInv.boot hfresh hreg
  unfold registerFaultTriggerAddresses at hreg
  split at hreg
  · cases hreg
  · obtain rfl := Option.some.inj hreg
    have htb : s.tbFaulted = tbFaultedInit s.faults.length := hidle.tbFaulted
    refine ⟨hlife, fun _ => ?_, fun hne => absurd hidle.firstTb hne⟩
    constructor
    · simp [Session.boot, uncaptured, hidle.reqSinglestep, htb, tbFaultedInit]
    · simp [Session.boot, hidle.reqSinglestep, hidle.singleStep]
    · exact hidle.zeroReleases
    · simp [Session.boot, htb, tbFaultedInit]
    · simp [Session.boot, htb, tbFaultedInit]
    · simp [Session.boot, htb, tbFaultedInit]
    · simp [Session.boot, htb, tbFaultedInit]

theorem translate (h : m.RequestInv faults) {tb : Tb} (htb : tb.AvoidsMark)
    (hstep : m.step (.translate tb) = some m') : m'.RequestInv faults := by
  have hlife' := h.life.step hstep
  have hm : m'.state = (m.state.vcpuTranslateblockTranslationEvent tb).1 :=
    congrArg Session.state (Option.some.inj hstep).symm
  -- capturing comes last and touches neither the faults nor the calls
  have hcapture : ∀ {s : State}, m'.state = s.checkTbFaulted tb → s.plugin.firstTb ≠ 0 →
      Balanced (s.requests faults.length) s → m'.RequestInv faults := by
    intro s hs hfirst hbalanced
    have hsame := same_checkTbFaulted (s := s) tb
    refine ⟨hlife', fun h0 => ?_, fun _ => ?_⟩
    · rw [hs, hsame.plugin] at h0
      exact absurd h0 hfirst
    · rw [hs, requests_congr hsame.faults hsame.calls]
      exact hbalanced.checkTbFaulted htb
  rcases m.state.translation_cases tb with ⟨-, hs, -⟩ | ⟨hfirst, hs, -⟩ | ⟨hne, hs, -⟩
  · rw [hs] at hm
    exact ⟨hlife', hm ▸ h.before, hm ▸ h.after⟩
  · have hnone : ∀ i, Call.injectFault i ∉ m.state.calls := by
      intro i; rw [(h.life.before hfirst).1]; exact List.not_mem_nil
    have hstart : State.LifeInv faults m.ticks
        { m.state with plugin := { m.state.plugin with firstTb := 1 } } :=
      h.life.state.congr rfl rfl rfl rfl rfl
    have hzero : Balanced 0 { m.state with plugin := { m.state.plugin with firstTb := 1 } } :=
      (h.before hfirst).same ⟨rfl, rfl, rfl, rfl⟩
    refine hcapture (hm.trans hs) ?_ (hzero.handleFirstTbFaultInsertion hstart hnone)
    rw [LifeInv.handleFirstTbFaultInsertion_firstTb]
    exact one_ne_zero
  · rw [(h.life.state.handleTbTranslateEvent tb).1] at hs
    exact hcapture (hm.trans hs) hne (h.after hne)

theorem callback (h : m.RequestInv faults) {cb : Callback}
    (hstep : m.step (.callback cb) = some m') : m'.RequestInv faults := by
  have hlife' := h.life.step hstep
  simp only [Session.step] at hstep
  split at hstep
  · next hreg =>
    obtain rfl := Option.some.inj hstep
    have hafter : m.state.plugin.firstTb ≠ 0 := by
      intro h0
      rw [(h.life.before h0).2] at hreg
      exact absurd hreg List.not_mem_nil
    have hbalanced := h.after hafter
    cases cb with
    | triggerInsnCb p =>
      rcases hf : m.state.faults[p]? with _ | f
      · have hs : m.state.runCallback (.triggerInsnCb p) = m.state := by
          rw [runCallback, State.triggerInsnCb, hf]
        exact ⟨hlife', by rw [hs]; exact h.before, by rw [hs]; exact h.after⟩
      · obtain ⟨hlt, -⟩ := List.getElem?_eq_some_iff.mp hf
        rw [h.life.state.length] at hlt
        have htouch : Touches p m.state (m.state.triggerInsnCb p) := by
          rcases triggerInsnCb_spec hf with ⟨-, hs⟩ | ⟨-, -, hc, hfs⟩ | ⟨-, -, hc, f', -, hfs⟩
          · rw [hs]
            exact ⟨rfl, fun _ _ => rfl, fun _ _ => Iff.rfl⟩
          · exact .of_set hfs (.inl hc)
          · exact .of_set hfs (.inr (.inl hc))
        have hplugin : (m.state.triggerInsnCb p).plugin.firstTb = m.state.plugin.firstTb := by
          rcases triggerInsnCb_spec hf with ⟨-, hs⟩ | ⟨-, hp, -⟩ | ⟨-, hp, -⟩
          · rw [hs]
          · rw [hp]
          · rw [hp, injectedPlugin]
            split <;> rfl
        refine ⟨hlife', fun h0 => absurd (hplugin.symm.trans h0) hafter, fun _ => ?_⟩
        exact hbalanced.requests hlt htouch fun k hk => hk.triggerInsnCb h.life.state hf
    | tbExecCb p =>
      have hin := h.life.registered p hreg
      have hlt := h.life.state.bound p hin
      obtain ⟨f, hf⟩ : ∃ f, m.state.faults[p]? = some f :=
        ⟨_, List.getElem?_eq_getElem (h.life.state.length ▸ hlt)⟩
      obtain ⟨hfs, hkind⟩ := tbExecCb_cases hf
      have htouch : Touches p m.state (m.state.tbExecCb p) := by
        rcases hkind with ⟨-, -, hc⟩ | ⟨-, -, hc⟩
        · exact .of_set hfs (.inl hc)
        · exact .of_set hfs (.inr (.inr hc))
      have hplugin : (m.state.tbExecCb p).plugin.firstTb = m.state.plugin.firstTb := by
        rcases hkind with ⟨-, hp, -⟩ | ⟨-, hp, -⟩ <;> rw [hp]
      refine ⟨hlife', fun h0 => absurd (hplugin.symm.trans h0) hafter, fun _ => ?_⟩
      exact hbalanced.requests hlt htouch fun k hk => hk.tbExecCb hf hin
  · cases hstep

theorem step (h : m.RequestInv faults) {e : SessionEvent} (he : e.AvoidsMark)
    (hstep : m.step e = some m') : m'.RequestInv faults := by
  cases e with
  | start =>
    have hlife' := h.life.step hstep
    have hm : m'.state = m.state.tbExecStartCb := congrArg Session.state (Option.some.inj hstep).symm
    obtain ⟨startPoint, flush, hs⟩ := m.state.tbExecStartCb_spec
    rw [hs] at hm
    refine ⟨hlife', fun h0 => ?_, fun hne => ?_⟩
    · rw [hm] at h0 ⊢
      exact (h.before h0).same ⟨rfl, rfl, rfl, rfl⟩
    · rw [hm] at hne ⊢
      exact (h.after hne).same ⟨rfl, rfl, rfl, rfl⟩
  | translate tb => exact h.translate he hstep
  | callback cb => exact h.callback hstep

theorem singlestepBalanced (h : m.RequestInv faults) :
    m.state.zeroReleases = 0 ∧ (m.state.plugin.firstTb ≠ 0 → m.state.SinglestepBalanced) := by
  refine ⟨?_, fun hne => ?_⟩
  · by_cases h0 : m.state.plugin.firstTb = 0
    · exact (h.before h0).zeroReleases
    · exact (h.after h0).zeroReleases
  · have hbalanced := h.after hne
    have hcounter := hbalanced.counter
    rw [← h.life.state.length, requests_length] at hcounter
    refine ⟨hcounter, hbalanced.done_le, ?_⟩
    rw [hbalanced.mode, decide_eq_true_iff, hcounter]
    omega

end Session.RequestInv

/-- In every state after the first TB the counter is the sum of what is pending and QEMU steps singly
    iff that is positive; no request is withdrawn that was not there. -/
theorem always_singlestepBalanced {s s' : State} (hfresh : s.Fresh) (hidle : s.Idle)
    (hreg : s.registerFaultTriggerAddresses = some s') (es : List SessionEvent)
    (hes : ∀ e ∈ es, e.AvoidsMark) :
    Always Session.step (fun m => m.state.zeroReleases = 0 ∧
      (m.state.plugin.firstTb ≠ 0 → m.state.SinglestepBalanced)) (Session.boot s') es :=
  always_of_everyStep (fun _ h => h.singlestepBalanced) (fun _ _ _ h he hstep => h.step he hstep)
    (Session.RequestInv.boot hfresh hidle hreg) (everyStep_of_forall hes)

/-- A fault on an instruction that is injected at once and reversed. -/
def temporaryInsnFault : State :=
  { freshState [⟨0x20, INSTRUCTION, TOGGLE, 1, 1, fun _ => 0xff, fun _ => 0, ⟨0x20, 0, 0⟩⟩] with
    tbFaulted := tbFaultedInit 1 }

theorem always_singlestepBalanced_temporaryInsnFault :
    ∃ s', temporaryInsnFault.registerFaultTriggerAddresses = some s' ∧
    Always Session.step (fun m => m.state.zeroReleases = 0 ∧
      (m.state.plugin.firstTb ≠ 0 → m.state.SinglestepBalanced)) (Session.boot s')
      [.translate (oneInsnTb 0x30), .translate (oneInsnTb 0x20), .callback (.tbExecCb 0)] := by
  refine ⟨_, rfl, always_singlestepBalanced (s := temporaryInsnFault) ⟨rfl, rfl⟩
    ⟨rfl, rfl, rfl, rfl, rfl⟩ rfl _ ?_⟩
  intro e he
  simp only [List.mem_cons, List.not_mem_nil, or_false] at he
  rcases he with rfl | rfl | rfl
  · show ¬ _
    decide
  · show ¬ _
    decide
  · trivial

end Archie.Plugin
