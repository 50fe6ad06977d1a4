import Archie.Plugin.Qemu
import Archie.Plugin.TriggerVector

/-! One fault, any run: when the injection happens.

    While the fault waits, every cached TB but the one translated first has exactly one trigger
    callback on every trigger instruction, if the end of the TB does not wrap. So hitcounter and
    executions add up to `n`, unless a trigger is executed inside that first TB or at the end of the
    address space. -/

namespace Archie.Plugin
open Run State

/-! ### The countdown -/

/-- The one fault waits at `address` for `h` more hits, `c` injections have been done. -/
structure Countdown (address h c : ℕ) (s : State) : Prop where
  fault : ∃ f, s.faults = [f] ∧ f.trigger.address = address ∧ f.trigger.hitcounter = h ∧
    (h ≠ 0 → f.trigger.trignum = 0)
  slot : h ≠ 0 → s.plugin.faultTriggerAddresses = [address]
  calls : s.calls.count (.injectFault 0) = c

section Countdown

variable {address h c : ℕ} {s s' : State}

theorem Countdown.same (hs : Countdown address h c s) (hsame : Same s s') : Countdown address h c s' :=
  ⟨hsame.faults ▸ hs.fault, hsame.plugin ▸ hs.slot, hsame.calls ▸ hs.calls⟩

/-- A live callback does not touch the countdown. -/
theorem Countdown.tbExecCb (hs : Countdown address h c s) : Countdown address h c (s.tbExecCb 0) := by
  obtain ⟨⟨f, hf, haddr, hhit, hnum⟩, hslot, hcalls⟩ := hs
  obtain ⟨⟨live, hp⟩, hc, hfs⟩ := tbExecCb_spec (show s.faults[0]? = some f by rw [hf]; rfl)
  refine ⟨⟨{ f with lifetime := f.lifetime - 1 }, by rw [hfs, hf]; rfl, haddr, hhit, hnum⟩,
    fun h0 => by rw [hp]; exact hslot h0, ?_⟩
  rcases hc with hc | hc
  · rw [hc, hcalls]
  · rw [hc, List.count_append, hcalls]
    rfl

/-- A trigger callback after the injection does nothing. -/
theorem Countdown.triggerInsnCb_done (hs : Countdown address 0 c s) :
    Countdown address 0 c (s.triggerInsnCb 0) := by
  obtain ⟨f, hf, -, hhit, -⟩ := hs.fault
  rcases triggerInsnCb_spec (show s.faults[0]? = some f by rw [hf]; rfl) with
    ⟨-, hsame⟩ | ⟨hgt, -⟩ | ⟨hone, -⟩
  · rw [hsame]; exact hs
  · omega
  · omega

/-- A trigger callback before the injection is one hit, the last one injects. -/
theorem Countdown.triggerInsnCb (hs : Countdown address h c s) (hne : h ≠ 0) :
    Countdown address (h - 1) (if h = 1 then c + 1 else c) (s.triggerInsnCb 0) := by
  obtain ⟨⟨f, hf, haddr, hhit, hnum⟩, hslot, hcalls⟩ := hs
  rcases triggerInsnCb_spec (show s.faults[0]? = some f by rw [hf]; rfl) with
    ⟨hzero, -⟩ | ⟨hgt, hp, hc, hfs⟩ | ⟨hone, hp, hc, f', hag, hfs⟩
  · omega
  · have h1 : ¬ h = 1 := by omega
    rw [if_neg h1]
    refine ⟨⟨f.setHitcounter (f.trigger.hitcounter - 1), by rw [hfs, hf]; rfl, haddr, ?_,
      fun _ => hnum hne⟩, fun _ => by rw [hp]; exact hslot hne, by rw [hc, hcalls]⟩
    rw [← hhit]; rfl
  · have h1 : h = 1 := by omega
    subst h1
    refine ⟨⟨_, by rw [hfs, hf]; rfl, ?_, ?_, fun h0 => absurd rfl h0⟩, fun h0 => absurd rfl h0, ?_⟩
    · simp only [Fault.setTriggerNum, hag.trigger]; exact haddr
    · simp only [Fault.setTriggerNum, hag.trigger]; rfl
    · rw [hc, List.count_append, hcalls]; rfl

/-- Callbacks without a trigger callback, or after the injection. -/
theorem Countdown.idle : ∀ {cbs : List Callback} {s : State}, Countdown address h c s →
    (∀ cb ∈ cbs, cb.current = 0) → (h = 0 ∨ cbs.count (.triggerInsnCb 0) = 0) →
    Countdown address h c (cbs.foldl runCallback s)
  | [], _, hs, _, _ => hs
  | cb :: cbs, s, hs, hcur, hidle => by
    have hcur' : cb.current = 0 := hcur cb List.mem_cons_self
    rw [List.foldl_cons]
    refine Countdown.idle ?_ (fun x hx => hcur x (List.mem_cons_of_mem _ hx))
      (hidle.imp_right fun hz => ?_)
    · cases cb with
      | triggerInsnCb p =>
        obtain rfl : p = 0 := hcur'
        rcases hidle with rfl | hz
        · exact hs.triggerInsnCb_done
        · simp at hz
      | tbExecCb p =>
        obtain rfl : p = 0 := hcur'
        exact hs.tbExecCb
    · rw [List.count_cons] at hz
      omega

/-- Callbacks with one trigger callback are one hit. -/
theorem Countdown.hit : ∀ {cbs : List Callback} {s : State}, Countdown address h c s → h ≠ 0 →
    (∀ cb ∈ cbs, cb.current = 0) → cbs.count (.triggerInsnCb 0) = 1 →
    Countdown address (h - 1) (if h = 1 then c + 1 else c) (cbs.foldl runCallback s)
  | [], _, _, _, _, hone => by simp at hone
  | cb :: cbs, s, hs, hne, hcur, hone => by
    have hcur' : cb.current = 0 := hcur cb List.mem_cons_self
    have hrest : ∀ x ∈ cbs, x.current = 0 := fun x hx => hcur x (List.mem_cons_of_mem _ hx)
    cases cb with
    | triggerInsnCb p =>
      obtain rfl : p = 0 := hcur'
      rw [List.count_cons_self] at hone
      exact (hs.triggerInsnCb hne).idle hrest (.inr (by omega))
    | tbExecCb p =>
      obtain rfl : p = 0 := hcur'
      rw [List.count_cons_of_ne (by simp)] at hone
      exact hs.tbExecCb.hit hne hrest hone

end Countdown

/-- What neither callbacks nor, after the first, translations change. -/
structure SameSettings (s s' : State) : Prop where
  faultNumber : s'.plugin.faultNumber = s.plugin.faultNumber
  firstTb : s'.plugin.firstTb = s.plugin.firstTb
  startPoint : s'.plugin.startPoint = s.plugin.startPoint

theorem SameSettings.trans {s s' s'' : State} (h : SameSettings s s') (h' : SameSettings s' s'') :
    SameSettings s s'' :=
  ⟨h'.faultNumber.trans h.faultNumber, h'.firstTb.trans h.firstTb, h'.startPoint.trans h.startPoint⟩

theorem SameSettings.of_plugin {s s' : State} (h : s'.plugin = s.plugin) : SameSettings s s' :=
  ⟨by rw [h], by rw [h], by rw [h]⟩

theorem sameSettings_runCallback (s : State) (cb : Callback) : SameSettings s (s.runCallback cb) := by
  cases hget : s.faults[cb.current]? with
  | none =>
    have hnone : s.runCallback cb = s := by
      cases cb <;> simp only [Callback.current] at hget <;>
        simp [runCallback, State.triggerInsnCb, State.tbExecCb, hget]
    exact .of_plugin (by rw [hnone])
  | some f =>
    cases cb with
    | triggerInsnCb p =>
      simp only [Callback.current] at hget
      rcases triggerInsnCb_spec hget with ⟨-, hsame⟩ | ⟨-, hp, -⟩ | ⟨-, hp, -⟩
      · exact .of_plugin (by rw [runCallback, hsame])
      · exact .of_plugin hp
      · have hinj : ∀ p' : Faultplugin, p' = injectedPlugin s.plugin p f →
            p'.faultNumber = s.plugin.faultNumber ∧ p'.firstTb = s.plugin.firstTb ∧
            p'.startPoint = s.plugin.startPoint := by
          rintro p' rfl
          rw [injectedPlugin]
          split <;> exact ⟨rfl, rfl, rfl⟩
        obtain ⟨h₁, h₂, h₃⟩ := hinj _ hp
        exact ⟨h₁, h₂, h₃⟩
    | tbExecCb p =>
      simp only [Callback.current] at hget
      obtain ⟨⟨live, hp⟩, -⟩ := tbExecCb_spec hget
      have hp' : (s.runCallback (.tbExecCb p)).plugin = { s.plugin with liveFaults := live } := hp
      exact ⟨by rw [hp'], by rw [hp'], by rw [hp']⟩

theorem sameSettings_foldl : ∀ (cbs : List Callback) (s : State),
    SameSettings s (cbs.foldl runCallback s)
  | [], _ => ⟨rfl, rfl, rfl⟩
  | cb :: cbs, s => (sameSettings_runCallback s cb).trans (sameSettings_foldl cbs (s.runCallback cb))

/-! ### Translations -/

/-- The callbacks of a cached TB belong to the one fault, and while it waits there is one trigger
    callback on each instruction that the translation finds. -/
structure Serves (address : ℕ) (waiting : Prop) (e : CachedTb) : Prop where
  current : ∀ cb ∈ e.callbacks, cb.2.current = 0
  first : e.first = true → e.callbacks = []
  trigger : waiting → e.first = false → ∀ (i : ℕ) (insn : Insn), e.tb.insns[i]? = some insn →
    (e.callbacksAt i).count (.triggerInsnCb 0) =
      if e.tb.Meets address ∧ insn.Meets address then 1 else 0

/-- A trigger callback for each trigger instruction of a TB that does not wrap. -/
theorem Serves.hit {address i : ℕ} {waiting : Prop} {e : CachedTb} {insn : Insn}
    (he : Serves address waiting e) (hw : waiting) (hfirst : e.first = false) (hfits : ¬ e.tb.Wraps)
    (hi : e.tb.insns[i]? = some insn) (hin : insn.Contains address) :
    (e.callbacksAt i).count (.triggerInsnCb 0) = 1 := by
  have hmeets := (Tb.meets_iff_contains (List.mem_of_getElem? hi) hfits).mpr hin
  rw [he.trigger hw hfirst i insn hi, if_pos hmeets]

/-- No other instruction has one. -/
theorem Serves.no_hit {address i : ℕ} {waiting : Prop} {e : CachedTb} {insn : Insn}
    (he : Serves address waiting e) (hw : waiting) (hi : e.tb.insns[i]? = some insn)
    (hout : ¬ insn.Contains address) : (e.callbacksAt i).count (.triggerInsnCb 0) = 0 := by
  cases hf : e.first with
  | true => simp [CachedTb.callbacksAt, he.first hf]
  | false => rw [he.trigger hw hf i insn hi, if_neg fun hmeets => hout hmeets.2.contains]

section Translate

variable {address h c : ℕ} {s s' : State} {tb : Tb}

/-- One live slot in a translation: no trigger callbacks, the countdown goes on. -/
theorem Countdown.evalLive (hs : Countdown address h c s) (n : ℕ) :
    Countdown address h c (s.evalLiveFaultCallback tb n).1 ∧
    SameSettings s (s.evalLiveFaultCallback tb n).1 ∧
    ∀ cb ∈ (s.evalLiveFaultCallback tb n).2, cb.2 = .tbExecCb 0 := by
  obtain ⟨f, hf, -⟩ := hs.fault
  have hdone : Countdown address h c s ∧ SameSettings s s ∧
      ∀ cb ∈ ([] : List (ℕ × Callback)), cb.2 = .tbExecCb 0 := ⟨hs, .of_plugin rfl, by simp⟩
  unfold evalLiveFaultCallback
  split
  · next current _ =>
    split
    · next f' hget =>
      split
      · have hrem := same_remSinglestepReq (s := { s with plugin :=
          { s.plugin with liveFaults := s.plugin.liveFaults.set n none } })
        have hcleared : Countdown address h c { s with plugin :=
            { s.plugin with liveFaults := s.plugin.liveFaults.set n none } } :=
          ⟨hs.fault, hs.slot, hs.calls⟩
        exact ⟨hcleared.same hrem, ⟨by rw [hrem.plugin], by rw [hrem.plugin], by rw [hrem.plugin]⟩,
          by simp⟩
      · refine ⟨hs, .of_plugin rfl, fun cb hcb => ?_⟩
        have hzero : current = 0 := by
          have := (List.getElem?_eq_some_iff.mp hget).1
          simpa [hf] using this
        obtain ⟨i, -, rfl⟩ := List.mem_map.mp hcb
        rw [hzero]
    · exact hdone
  · exact hdone

theorem Countdown.foldl_evalLive : ∀ (ns : List ℕ) {s : State} (cbs : List (ℕ × Callback)),
    Countdown address h c s →
    let r := ns.foldl (fun (st : State × List (ℕ × Callback)) i =>
      let (s, live) := st.1.evalLiveFaultCallback tb i
      (s, st.2 ++ live)) (s, cbs)
    Countdown address h c r.1 ∧ SameSettings s r.1 ∧
      ∃ live, r.2 = cbs ++ live ∧ ∀ cb ∈ live, cb.2 = .tbExecCb 0
  | [], s, cbs, hs => ⟨hs, .of_plugin rfl, [], by simp, by simp⟩
  | n :: ns, s, cbs, hs => by
    obtain ⟨hs₁, hset₁, hlive₁⟩ := hs.evalLive n
    obtain ⟨hs₂, hset₂, live, hcbs, hlive₂⟩ := Countdown.foldl_evalLive ns
      (cbs ++ (s.evalLiveFaultCallback tb n).2) hs₁
    refine ⟨hs₂, hset₁.trans hset₂, (s.evalLiveFaultCallback tb n).2 ++ live, ?_, ?_⟩
    · rw [← List.append_assoc]; exact hcbs
    · intro cb hcb
      rcases List.mem_append.mp hcb with hcb | hcb
      · exact hlive₁ cb hcb
      · exact hlive₂ cb hcb

/-- The trigger callbacks of a slot, as instruction indices. -/
theorem evaluateTrigger_eq {number current : ℕ} {f : Fault} {a : ℕ}
    (hslot : s.plugin.faultTriggerAddresses[number]? = some a)
    (hfind : getFaultStructByTrigger s.faults a number = some current)
    (hf : s.faults[current]? = some f) :
    s.evaluateTrigger tb number = ((List.range tb.insns.length).filter fun i =>
      (tb.insns[i]?).any fun insn => decide (insn.Meets f.trigger.address)).map fun i =>
        (i, .triggerInsnCb current) := by
  simp only [evaluateTrigger, hslot, hfind, hf]
  induction List.range tb.insns.length with
  | nil => rfl
  | cons i is ih =>
    rw [List.filterMap_cons, List.filter_cons]
    cases hi : tb.insns[i]? with
    | none => simpa [hi] using ih
    | some insn => by_cases hin : insn.Meets f.trigger.address <;> simp [hin, ih]

/-- Callbacks of one kind on pairwise different instructions: at most one at each. -/
theorem count_callbacksAt (tb : Tb) (first : Bool) {is : List ℕ} (hnd : is.Nodup) (cb : Callback)
    (i : ℕ) :
    (CachedTb.callbacksAt ⟨tb, is.map fun i => (i, cb), first⟩ i).count cb
      = if i ∈ is then 1 else 0 := by
  have hmap : CachedTb.callbacksAt ⟨tb, is.map fun i => (i, cb), first⟩ i
      = (is.filter fun j => j = i).map fun _ => cb := by
    simp [CachedTb.callbacksAt, List.filter_map, Function.comp_def]
  rw [hmap, List.map_const', List.count_replicate_self, ← List.countP_eq_length_filter]
  exact hnd.count

/-- The instructions of a TB that a translation finds for an address. -/
def triggerInsns (tb : Tb) (address : ℕ) : List ℕ :=
  if tb.Meets address then (List.range tb.insns.length).filter fun i =>
    (tb.insns[i]?).any fun insn => decide (insn.Meets address)
  else []

theorem mem_triggerInsns {i : ℕ} {insn : Insn} (hi : tb.insns[i]? = some insn) :
    i ∈ triggerInsns tb address ↔ tb.Meets address ∧ insn.Meets address := by
  have hlt := (List.getElem?_eq_some_iff.mp hi).1
  rw [triggerInsns]
  split
  · next hmeets =>
    simp only [List.mem_filter, List.mem_range, hi, Option.any_some, decide_eq_true_eq, hlt, true_and,
      hmeets]
  · next hout => exact iff_of_false List.not_mem_nil fun h => hout h.1

theorem nodup_triggerInsns (tb : Tb) (address : ℕ) : (triggerInsns tb address).Nodup := by
  rw [triggerInsns]
  split
  · exact List.nodup_range.filter _
  · exact List.nodup_nil

/-- The trigger callbacks of a translation are those of the one fault, one on each trigger. -/
theorem Countdown.triggerCallbacks (hs : Countdown address h c s) (hnumber : s.plugin.faultNumber = 1) :
    (∀ cb ∈ s.triggerCallbacks tb, cb.2 = .triggerInsnCb 0) ∧
    (h ≠ 0 → s.triggerCallbacks tb = (triggerInsns tb address).map fun i => (i, .triggerInsnCb 0)) := by
  obtain ⟨f, hf, haddr, -, hnum⟩ := hs.fault
  have hone : s.triggerCallbacks tb = (s.plugin.faultTriggerAddresses[0]?).elim [] fun address =>
      if tb.Meets address then s.evaluateTrigger tb 0 else [] := by
    rw [State.triggerCallbacks, hnumber]
    cases hslot : s.plugin.faultTriggerAddresses[0]? <;> simp [hslot]
  constructor
  · intro cb hcb
    rw [hone] at hcb
    cases hslot : s.plugin.faultTriggerAddresses[0]? with
    | none => simp [hslot] at hcb
    | some a =>
      simp only [hslot, Option.elim_some] at hcb
      split at hcb
      · unfold evaluateTrigger at hcb
        split at hcb
        · simp at hcb
        · split at hcb
          · simp at hcb
          · next current _ =>
            split at hcb
            · simp at hcb
            · next f' hget =>
              have hzero : current = 0 := by
                have := (List.getElem?_eq_some_iff.mp hget).1
                simpa [hf] using this
              obtain ⟨i, -, hi⟩ := List.mem_filterMap.mp hcb
              split at hi
              · split at hi
                · rw [← Option.some.inj hi, hzero]
                · cases hi
              · cases hi
      · simp at hcb
  · intro hne
    have hslot : s.plugin.faultTriggerAddresses[0]? = some address := by rw [hs.slot hne]; rfl
    rw [hone, hslot, Option.elim_some, triggerInsns]
    split
    · have hfind : getFaultStructByTrigger s.faults address 0 = some 0 := by
        rw [getFaultStructByTrigger, hf]; simp [haddr, hnum hne]
      rw [evaluateTrigger_eq hslot hfind (by rw [hf]; rfl), haddr]
    · rfl

/-- A translation that is not the first one serves the fault. -/
theorem Countdown.handleTbTranslateEvent (hs : Countdown address h c s)
    (hnumber : s.plugin.faultNumber = 1) {waiting : Prop} (hw : waiting → h ≠ 0) :
    Countdown address h c (s.handleTbTranslateEvent tb).1 ∧
    SameSettings s (s.handleTbTranslateEvent tb).1 ∧
    Serves address waiting ⟨tb, (s.handleTbTranslateEvent tb).2, false⟩ := by
  obtain ⟨hs', hset, live, hcbs, hlive⟩ := Countdown.foldl_evalLive
    (List.range s.plugin.liveFaultsNumber) (s.triggerCallbacks tb) hs
  have hrun : (s.handleTbTranslateEvent tb).2 = s.triggerCallbacks tb ++ live := hcbs
  obtain ⟨hmem, htriggers⟩ := hs.triggerCallbacks hnumber
  refine ⟨hs', hset, ?_, by simp, ?_⟩
  · intro cb hcb
    rw [hrun] at hcb
    rcases List.mem_append.mp hcb with hcb | hcb
    · rw [hmem cb hcb]; rfl
    · rw [hlive cb hcb]; rfl
  · intro hwait _ i insn hi
    have hnone : ((live.filter fun cb => cb.1 = i).map Prod.snd).count (.triggerInsnCb 0) = 0 := by
      refine List.count_eq_zero.mpr fun hin => ?_
      obtain ⟨cb, hcb, heq⟩ := List.mem_map.mp hin
      rw [hlive cb (List.mem_of_mem_filter hcb)] at heq
      cases heq
    have hone := count_callbacksAt tb false (nodup_triggerInsns tb address) (.triggerInsnCb 0) i
    simp only [CachedTb.callbacksAt] at hone ⊢
    rw [hrun, htriggers (hw hwait), List.filter_append, List.map_append, List.count_append, hnone, hone]
    simp [mem_triggerInsns hi]

/-- The first translation changes nothing of the countdown and registers nothing. -/
theorem Countdown.handleFirstTbFaultInsertion (hs : Countdown address h c s) (hne : h ≠ 0) :
    Countdown address h c s.handleFirstTbFaultInsertion ∧
    SameSettings s s.handleFirstTbFaultInsertion := by
  obtain ⟨f, hf, -, hhit, -⟩ := hs.fault
  have hrange : s.handleFirstTbFaultInsertion = s.firstTbFault 0 := by
    rw [State.handleFirstTbFaultInsertion, hf]; rfl
  have hno : ¬ (f.trigger.hitcounter = 0 ∧ f.type = INSTRUCTION) := fun hz => hne (hhit ▸ hz.1)
  have hsame : Same s (s.firstTbFault 0) := by
    simp only [firstTbFault, hf, List.getElem?_cons_zero, if_neg hno]
    split
    · exact same_addSinglestepReq
    · exact .refl
  rw [hrange]
  exact ⟨hs.same hsame, .of_plugin hsame.plugin⟩

end Translate

/-! ### Runs -/

/-- The invariant of a run: hits and executions add up, the cached TBs serve the fault. -/
structure OnTime (address n : ℕ) (m : Machine) : Prop where
  number : m.state.plugin.faultNumber = 1
  started : m.state.plugin.startPoint.trignum ≠ 3
  countdown : ∃ h c, Countdown address h c m.state ∧
    (h = 0 → c = 1 ∧ n ≤ m.executions address) ∧ (h ≠ 0 → c = 0 ∧ m.executions address + h = n)
  fresh : m.state.plugin.firstTb = 0 → m.cache = [] ∧ m.current = none ∧ m.executed = []
  cached : ∀ e ∈ m.cache, Serves address (m.executions address < n) e
  entered : ∀ e i, m.current = some (e, i) → Serves address (m.executions address < n) e

section Machine

variable {address n : ℕ} {m m' : Machine}

theorem OnTime.injectedOnTime (hm : OnTime address n m) : m.InjectedOnTime address n := by
  obtain ⟨h, c, hs, hzero, hpos⟩ := hm.countdown
  rw [Machine.InjectedOnTime, hs.calls]
  by_cases h0 : h = 0
  · obtain ⟨hc, hle⟩ := hzero h0
    rw [if_pos hle, hc]
  · obtain ⟨hc, hsum⟩ := hpos h0
    have hlt : ¬ n ≤ m.executions address := by omega
    rw [if_neg hlt, hc]

theorem Serves.mono {w w' : Prop} {e : CachedTb} (he : Serves address w e) (hw : w' → w) :
    Serves address w' e :=
  ⟨he.current, he.first, fun h => he.trigger (hw h)⟩

theorem OnTime.translate (hn : 0 < n) (hm : OnTime address n m) (tb : Tb) :
    OnTime address n (m.translate tb) := by
  obtain ⟨hnumber, hstarted, ⟨h, c, hs, hzero, hpos⟩, hfresh, hcached, hentered⟩ := hm
  have hexec : (m.translate tb).executions address = m.executions address := rfl
  have hw : m.executions address < n → h ≠ 0 := by
    intro hlt h0; have := (hzero h0).2; omega
  -- the part of the translation that depends on whether it is the first one
  obtain ⟨s', cbs, hevent, hs', hnumber', hfirst', hstart', hserves⟩ : ∃ s' cbs,
      m.state.vcpuTranslateblockTranslationEvent tb = (s'.checkTbFaulted tb, ⟨cbs, false⟩) ∧
      Countdown address h c s' ∧ s'.plugin.faultNumber = 1 ∧ s'.plugin.firstTb ≠ 0 ∧
      s'.plugin.startPoint.trignum ≠ 3 ∧ Serves address (m.executions address < n)
        ⟨tb, cbs, decide (m.state.plugin.firstTb = 0)⟩ := by
    by_cases hft : m.state.plugin.firstTb = 0
    · have h0 : h ≠ 0 := by
        intro h0
        have hle := (hzero h0).2
        rw [Machine.executions, (hfresh hft).2.2] at hle
        simp at hle; omega
      have hset : Countdown address h c
          { m.state with plugin := { m.state.plugin with firstTb := 1 } } :=
        ⟨hs.fault, hs.slot, hs.calls⟩
      obtain ⟨hs', hsame⟩ := hset.handleFirstTbFaultInsertion h0
      refine ⟨_, [], ?_, hs', hsame.faultNumber.trans hnumber, ?_, ?_, ?_⟩
      · simp only [vcpuTranslateblockTranslationEvent, ne_eq, hstarted, not_false_eq_true, if_true,
          hft, not_true_eq_false, if_false]
      · rw [hsame.firstTb]; simp
      · rw [hsame.startPoint]; exact hstarted
      · exact ⟨by simp, fun _ => rfl, fun _ hfalse => by simp [hft] at hfalse⟩
    · obtain ⟨hs', hsame, hserves⟩ := hs.handleTbTranslateEvent hnumber hw
      refine ⟨_, _, ?_, hs', hsame.faultNumber.trans hnumber, by rw [hsame.firstTb]; exact hft,
        by rw [hsame.startPoint]; exact hstarted, by rw [decide_eq_false hft]; exact hserves⟩
      simp only [vcpuTranslateblockTranslationEvent, ne_eq, hstarted, not_false_eq_true, if_true, hft]
  have hcheck := same_checkTbFaulted (s := s') tb
  have hstate : (m.translate tb).state = s'.checkTbFaulted tb := by
    rw [Machine.translate, hevent]
  have hcache : (m.translate tb).cache
      = m.cache ++ [⟨tb, cbs, decide (m.state.plugin.firstTb = 0)⟩] := by
    rw [Machine.translate, hevent]
  refine ⟨by rw [hstate, hcheck.plugin, hnumber'], by rw [hstate, hcheck.plugin]; exact hstart',
    ⟨h, c, by rw [hstate]; exact hs'.same hcheck, hzero, hpos⟩, ?_, ?_, ?_⟩
  · rw [hstate, hcheck.plugin]
    exact fun hz => absurd hz hfirst'
  · intro e he
    rw [hcache] at he
    rcases List.mem_append.mp he with he | he
    · exact hcached e he
    · rw [List.mem_singleton.mp he]; exact hserves
  · intro e i he
    cases he

theorem OnTime.insn (hm : OnTime address n m) {e : CachedTb} {i : ℕ} {insn : Insn}
    (hcur : m.current = some (e, i)) (hi : e.tb.insns[i]? = some insn)
    (hnot : ¬ m.MissedTrigger address n .insn) : OnTime address n (m.insn e i insn) := by
  obtain ⟨hnumber, hstarted, ⟨h, c, hs, hzero, hpos⟩, hfresh, hcached, hentered⟩ := hm
  have hserves := hentered e i hcur
  have hset := sameSettings_foldl (e.callbacksAt i) m.state
  have hexec : (m.insn e i insn).executions address
      = m.executions address + if insn.Contains address then 1 else 0 := by
    simp [Machine.executions, Machine.insn, List.countP_cons]
  have hmono : (m.insn e i insn).executions address < n → m.executions address < n := by
    rw [hexec]; split <;> omega
  have hcurrent : ∀ cb ∈ e.callbacksAt i, cb.current = 0 := by
    intro cb hcb
    obtain ⟨cb', hcb', rfl⟩ := List.mem_map.mp hcb
    exact hserves.current cb' (List.mem_of_mem_filter hcb')
  refine ⟨hset.faultNumber.trans hnumber, by rw [Machine.insn, hset.startPoint]; exact hstarted, ?_, ?_,
    fun e' he' => (hcached e' he').mono hmono, ?_⟩
  · by_cases h0 : h = 0
    · subst h0
      obtain ⟨hc, hle⟩ := hzero rfl
      refine ⟨0, c, hs.idle hcurrent (.inl rfl), fun _ => ⟨hc, ?_⟩, fun h0 => absurd rfl h0⟩
      rw [hexec]; omega
    · obtain ⟨hc, hsum⟩ := hpos h0
      have hwait : m.executions address < n := by omega
      by_cases hin : insn.Contains address
      · -- a trigger while the fault waits: neither inside the first TB nor in one that wraps
        obtain ⟨hfirst, hfits⟩ := not_or.mp fun hmissed =>
          hnot ⟨e, i, insn, rfl, hcur, hmissed, hi, hin, hwait⟩
        have hone := hserves.hit hwait (Bool.eq_false_of_not_eq_true hfirst) hfits hi hin
        refine ⟨h - 1, _, hs.hit h0 hcurrent hone, fun h1 => ?_, fun h1 => ?_⟩
        · rw [hexec, if_pos hin, if_pos (by omega)]; omega
        · rw [hexec, if_pos hin, if_neg (by omega)]; omega
      · have hnone := hserves.no_hit hwait hi hin
        refine ⟨h, c, hs.idle hcurrent (.inr hnone), fun h1 => absurd h1 h0, fun _ => ⟨hc, ?_⟩⟩
        rw [hexec, if_neg hin]; omega
  · intro hft
    have := (hfresh (hset.firstTb.symm.trans hft)).2.1
    rw [this] at hcur
    cases hcur
  · intro e' i' he'
    obtain ⟨rfl, -⟩ := Prod.mk.inj (Option.some.inj he')
    exact hserves.mono hmono

/-- Whatever QEMU does next, the invariant stays, unless the plugin misses a trigger. -/
theorem OnTime.step (hn : 0 < n) (hm : OnTime address n m) {e : Event}
    (hnot : ¬ m.MissedTrigger address n e) (hstep : m.step e = some m') : OnTime address n m' := by
  cases e with
  | translate tb =>
    obtain rfl := Option.some.inj hstep
    exact hm.translate hn tb
  | enter k =>
    obtain ⟨c, hc, rfl⟩ := Option.map_eq_some_iff.mp hstep
    have hmem := List.mem_of_getElem? hc
    refine ⟨hm.number, hm.started, hm.countdown, fun hft => ?_, hm.cached, fun e i he => ?_⟩
    · rw [(hm.fresh hft).1] at hmem
      simp at hmem
    · obtain ⟨rfl, -⟩ := Prod.mk.inj (Option.some.inj he)
      exact hm.cached _ hmem
  | insn =>
    simp only [Machine.step] at hstep
    split at hstep
    · next c i hcur =>
      obtain ⟨insn, hi, rfl⟩ := Option.map_eq_some_iff.mp hstep
      exact hm.insn hcur hi hnot
    · cases hstep
  | flush =>
    obtain rfl := Option.some.inj hstep
    exact ⟨hm.number, hm.started, hm.countdown, fun hft => ⟨rfl, (hm.fresh hft).2⟩, by simp,
      hm.entered⟩

theorem OnTime.boot {s s' : State} {f : Fault} (hfresh : s.Fresh) (hfaults : s.faults = [f])
    (hn : 0 < f.trigger.hitcounter)
    (hstart : s.plugin.startPoint.trignum ≠ 3)
    (hreg : s.registerFaultTriggerAddresses = some s') :
    OnTime f.trigger.address f.trigger.hitcounter (.boot s') := by
  rw [registerFaultTriggerAddresses, if_neg (by simp [hfaults])] at hreg
  obtain rfl := Option.some.inj hreg
  refine ⟨by simp [Machine.boot, hfaults], hstart, ⟨f.trigger.hitcounter, 0, ?_, by omega,
    fun _ => ⟨rfl, by simp [Machine.executions, Machine.boot]⟩⟩, fun _ => ⟨rfl, rfl, rfl⟩,
    by simp [Machine.boot], by simp [Machine.boot]⟩
  refine ⟨⟨f.setTriggerNum 0, by simp [Machine.boot, hfaults], rfl, rfl, fun _ => rfl⟩,
    fun _ => by simp [Machine.boot, hfaults], ?_⟩
  simp [Machine.boot, hfresh.calls]

/-- In every run in which no trigger is executed inside the TB translated first or in one whose end
    wraps, `inject_fault` is called exactly at the `n`-th execution of the trigger instruction. -/
theorem always_injectedOnTime {s s' : State} {f : Fault} (hfresh : s.Fresh) (hfaults : s.faults = [f])
    (hn : 0 < f.trigger.hitcounter)
    (hstart : s.plugin.startPoint.trignum ≠ 3)
    (hreg : s.registerFaultTriggerAddresses = some s') (es : List Event)
    (hrun : EveryStep Machine.step
      (fun m e => ¬ m.MissedTrigger f.trigger.address f.trigger.hitcounter e) (.boot s') es) :
    Always Machine.step (fun m => m.InjectedOnTime f.trigger.address f.trigger.hitcounter)
      (.boot s') es :=
  always_of_everyStep (fun _ hm => hm.injectedOnTime)
    (fun _ _ _ hm hnot hstep => hm.step hn hnot hstep)
    (OnTime.boot hfresh hfaults hn hstart hreg) hrun

end Machine

/-! ### The TB translated first -/

def secondHit : State := freshState [registerFault 0 0x10 2]

/-- Another TB comes first, the trigger is then hit twice. -/
theorem always_injectedOnTime_secondHit : ∃ s', secondHit.registerFaultTriggerAddresses = some s' ∧
    Always Machine.step (fun m => m.InjectedOnTime 0x10 2) (.boot s')
      [.translate (oneInsnTb 0x20), .translate (oneInsnTb 0x10), .enter 1, .insn, .enter 1, .insn] := by
  refine ⟨_, rfl, always_injectedOnTime (s := secondHit) (f := registerFault 0 0x10 2) ⟨rfl, rfl⟩ rfl
    (by decide) (by decide) rfl _ ?_⟩
  refine ⟨Machine.not_missedTrigger_of_ne (by simp), ?_⟩
  rintro _ ⟨⟩
  refine ⟨Machine.not_missedTrigger_of_ne (by simp), ?_⟩
  rintro _ ⟨⟩
  refine ⟨Machine.not_missedTrigger_of_ne (by simp), ?_⟩
  rintro _ ⟨⟩
  refine ⟨Machine.not_missedTrigger rfl rfl (by decide), ?_⟩
  rintro _ ⟨⟩
  refine ⟨Machine.not_missedTrigger_of_ne (by simp), ?_⟩
  rintro _ ⟨⟩
  exact ⟨Machine.not_missedTrigger rfl rfl (by decide), fun _ _ => trivial⟩

/-- Both hits are inside the TB translated first: no injection, though no flush was asked for. -/
theorem secondHit_not_injectedOnTime : ∃ s', secondHit.registerFaultTriggerAddresses = some s' ∧
    ¬ Always Machine.step (fun m => m.InjectedOnTime 0x10 2) (.boot s')
      [.translate (oneInsnTb 0x10), .enter 0, .insn, .enter 0, .insn] ∧
    Always Machine.step (fun m => m.state.flush = false) (.boot s')
      [.translate (oneInsnTb 0x10), .enter 0, .insn, .enter 0, .insn] := by
  refine ⟨_, rfl, fun h => ?_, ?_⟩
  · have hlast := (((((h.2 _ rfl).2 _ rfl).2 _ rfl).2 _ rfl).2 _ rfl).head
    unfold Machine.InjectedOnTime at hlast
    exact absurd hlast (by decide)
  · refine ⟨rfl, ?_⟩
    rintro _ ⟨⟩
    refine ⟨rfl, ?_⟩
    rintro _ ⟨⟩
    refine ⟨rfl, ?_⟩
    rintro _ ⟨⟩
    refine ⟨rfl, ?_⟩
    rintro _ ⟨⟩
    refine ⟨rfl, ?_⟩
    rintro _ ⟨⟩
    rfl

end Archie.Plugin
