import Archie.Worker.MainLoop

/-! What a re-entry costs.

    Each call of `emu_start` gets all of `max_instruction_count`, and the end hook of an instruction
    runs before a fault hook can stop there. So a re-entry after the first instruction starts a new
    budget, and a re-entry at an end point counts it twice:

        max 2        insn 100 │ insn 104  stop ══ reenter ══▶ insn 104 │ insn 108     3 executed
        end 104/5                    5 ▶ 4                         4 ▶ 3              1 execution   -/

namespace Archie.Worker

namespace State

variable (s : State)

/-- One of the next hits of a trigger asks for a re-entry: its fault changes the TB being executed. -/
def AsksReentry (hits address : ℕ) : Prop :=
  ∃ f, s.faults.lookup address = some f ∧ f.type = .instruction ∧ s.lastTbid ≤ f.address ∧
    f.address < (s.lastTbid + s.lastTbSize) % 2 ^ 64 ∧
    1 ≤ f.trigger.hitcounter ∧ f.trigger.hitcounter ≤ hits

end State

namespace MainLoop

/-- No more instructions than configured, and each end point counter is down by the executions of its
    address. -/
structure CountsOnce (init r : MainLoop) : Prop where
  count : r.executed.length ≤ r.maxInstructionCount
  endpoints : ∀ a c, init.emulation.state.endpoints.lookup a = some c →
    ∃ n, r.emulation.state.endpoints.lookup a = some n ∧ c = n + r.executed.count a

/-- Emulation re-enters in front of the first instruction only; an instruction that counts an end
    point down has one end hook and no fault hook that asks for a re-entry. -/
def Uninterrupted (r : MainLoop) : LoopEvent → Prop
  | .unicorn (.insn address) => r.emulation.state.stopped = false → r.left ≠ 0 →
      ∀ n, r.emulation.state.endpoints.lookup address = some n → 1 < n →
        r.emulation.state.endHooks.count address = 1 ∧
          ¬ r.emulation.state.AsksReentry (r.emulation.state.faultHooks.count address) address
  | .unicorn _ => True
  | .reenter => r.emulation.state.reenterAddress ≠ none → r.executed = []

end MainLoop

namespace State

variable {env : Env} {s s' : State} {address : ℕ}

/-! ### The fault hooks of an instruction -/

theorem AsksReentry.mono {hits hits' : ℕ} (h : s.AsksReentry hits address) (hle : hits ≤ hits') :
    s.AsksReentry hits' address := by
  obtain ⟨f, hlook, htype, hlow, hhigh, hone, hhits⟩ := h
  exact ⟨f, hlook, htype, hlow, hhigh, hone, hhits.trans hle⟩

/-- A fault outside the TB being executed asks for nothing. -/
theorem injectFault_control {f : Fault} {data : ℕ} (hf : ¬ (f.type = .instruction ∧
    f.address ≥ s.lastTbid ∧ f.address < (s.lastTbid + s.lastTbSize) % 2 ^ 64))
    (h : s.injectFault env f address = some (s', data)) : s'.control = s.control := by
  by_cases hr : f.type = .register
  · simp only [injectFault, hr, faultRegister] at h
    split at h
    · obtain ⟨rfl, -⟩ := Prod.mk.inj (Option.some.inj h)
      rfl
    · cases h
  · obtain ⟨rfl, -, -⟩ := injectFault_memory hr h
    have htb : (s.dumpMemory f.address (calculateFaultSize env f)).lastTbid = s.lastTbid ∧
        (s.dumpMemory f.address (calculateFaultSize env f)).lastTbSize = s.lastTbSize := by
      unfold dumpMemory
      split
      · exact ⟨rfl, rfl⟩
      · exact ⟨rfl, rfl⟩
    have hdump : (s.dumpMemory f.address (calculateFaultSize env f)).control = s.control :=
      dumpMemory_control ..
    rw [dumpMemory_control, requestReenter, if_neg]
    · exact hdump
    · rw [htb.1, htb.2]
      exact hf

/-- A hit that does not ask leaves one hit less. -/
theorem faultHookCb_not_asks {hits : ℕ} (hrun : s.stopped = false)
    (hno : ¬ s.AsksReentry (hits + 1) address) (h : s.faultHookCb env address = some s') :
    s'.stopped = false ∧ ¬ s'.AsksReentry hits address := by
  obtain ⟨f, hlook⟩ := faultHookCb_known h
  rcases faultHookCb_cases hlook h with ⟨-, rfl⟩ | ⟨hmore, rfl⟩ | ⟨hone, s₁, data, hinject, rfl⟩
  · exact ⟨hrun, fun hasks => hno (hasks.mono (Nat.le_succ hits))⟩
  · refine ⟨hrun, ?_⟩
    rintro ⟨g, hg, htype, hlow, hhigh, -, hhits⟩
    obtain rfl : f.setHitcounter (f.trigger.hitcounter - 1) = g := by
      rw [lookup_insertKey, if_pos rfl] at hg
      exact Option.some.inj hg
    simp only [Fault.setHitcounter] at hhits
    exact hno ⟨f, hlook, htype, hlow, hhigh, by omega, by omega⟩
  · have hout : ¬ (f.type = .instruction ∧ f.address ≥ s.lastTbid ∧
        f.address < (s.lastTbid + s.lastTbSize) % 2 ^ 64) := by
      rintro ⟨htype, hlow, hhigh⟩
      exact hno ⟨f, hlook, htype, hlow, hhigh, hone.ge, hone.trans_le (Nat.le_add_left 1 hits)⟩
    have hcontrol := injectFault_control (s := { s with
      faults := insertKey s.faults address (f.setHitcounter 0) }) (f := f.setHitcounter 0) hout hinject
    have hstopped : s₁.stopped = s.stopped := congrArg Control.stopped hcontrol
    have hfaults : s₁.faults = insertKey s.faults address (f.setHitcounter 0) :=
      congrArg Book.faults (injectFault_frame hinject).1
    generalize hlogged : ({ s₁ with
      injected := s₁.injected ++ [⟨f.setHitcounter 0, s₁.instructionCount⟩] } : State) = t
    have hsame : t.stopped = s₁.stopped ∧ t.faults = s₁.faults := by
      rw [← hlogged]
      exact ⟨rfl, rfl⟩
    have hkeeps := addLiveFault_control (s := t) (f.setHitcounter 0) data
    refine ⟨(congrArg Control.stopped hkeeps).trans (hsame.1.trans (hstopped.trans hrun)), ?_⟩
    -- the fault is spent now
    rintro ⟨g, hg, -, -, -, hhit, -⟩
    have hspent : (t.addLiveFault (f.setHitcounter 0) data).faults.lookup address
        = some (f.setHitcounter 0) := by
      rw [addLiveFault_faults, hsame.2, hfaults, lookup_insertKey, if_pos rfl]
    obtain rfl := Option.some.inj (hspent.symm.trans hg)
    exact absurd hhit (Nat.not_succ_le_zero 0)

/-- The hooks of one address, as many as given. -/
theorem foldlM_faultHookCb_not_asks : ∀ (l : List ℕ) {s s' : State}, s.stopped = false →
    ¬ s.AsksReentry l.length address →
    l.foldlM (fun s _ => if s.stopped then some s else s.faultHookCb env address) s = some s' →
    s'.stopped = false
  | [], s, s', hrun, _, h => by
    obtain rfl := Option.some.inj h
    exact hrun
  | _ :: l, s, s', hrun, hno, h => by
    rw [List.foldlM_cons, hrun, if_neg Bool.false_ne_true, Option.bind_eq_bind,
      Option.bind_eq_some_iff] at h
    obtain ⟨s₁, h₁, h⟩ := h
    obtain ⟨hrun₁, hno₁⟩ := faultHookCb_not_asks hrun hno h₁
    exact foldlM_faultHookCb_not_asks l hrun₁ hno₁ h

theorem runFaultHooks_not_asks (hrun : s.stopped = false)
    (hno : ¬ s.AsksReentry (s.faultHooks.count address) address)
    (h : s.runFaultHooks env address = some s') : s'.stopped = false := by
  refine foldlM_faultHookCb_not_asks _ hrun ?_ h
  rw [List.filter_eq, List.length_replicate]
  exact hno

/-- Fault hooks and single steps leave the end points alone. -/
theorem hooks_endpoints {s₁ : State} (h₁ : s.runFaultHooks env address = some s₁)
    (h : s₁.runSingleStep env address = some s') :
    s'.endpoints = s.endpoints ∧ s'.endHooks = s.endHooks ∧ s'.stopped = s₁.stopped := by
  have hfaults : s₁.endpoints = s.endpoints ∧ s₁.endHooks = s.endHooks := by
    refine foldlM_hook_inv (I := fun t => t.endpoints = s.endpoints ∧ t.endHooks = s.endHooks) ?_ _
      ⟨rfl, rfl⟩ h₁
    rintro t t' ⟨hends, hhooks⟩ - ht
    rcases (faultHookCb_step ht).2 with hc | ⟨hc, -⟩
    · exact ⟨(congrArg Control.endpoints hc).trans hends, (congrArg Control.endHooks hc).trans hhooks⟩
    · exact ⟨(congrArg Control.endpoints hc).trans hends, (congrArg Control.endHooks hc).trans hhooks⟩
  unfold runSingleStep at h
  split at h
  · have hc := (singleStepHookCb_step h).2
    exact ⟨(congrArg Control.endpoints hc).trans hfaults.1,
      (congrArg Control.endHooks hc).trans hfaults.2, congrArg Control.stopped hc⟩
  · obtain rfl := Option.some.inj h
    exact ⟨hfaults.1, hfaults.2, rfl⟩

/-! ### The end hooks of an instruction -/

/-- The end hook counts down, or stops where one is left. -/
theorem endHookCb_counts {firstEndpoint : ℕ} {memorydump : List (ℕ × ℕ)} (hrun : s.stopped = false)
    (h : s.endHookCb env address firstEndpoint memorydump = some s') :
    ∃ n, s.endpoints.lookup address = some n ∧
      (1 < n ∧ s' = { s with endpoints := insertKey s.endpoints address (n - 1) } ∨
        n ≤ 1 ∧ s'.control = { s.control with stopped := true }) := by
  have hcontrol := (endHookCb_step h).2
  simp only [endHookCb, Option.bind_eq_bind, Option.bind_eq_some_iff, Option.pure_def] at h
  obtain ⟨n, hlook, h⟩ := h
  refine ⟨n, hlook, ?_⟩
  split at h
  · next hmore => exact .inl ⟨hmore, (Option.some.inj h).symm⟩
  · next hlast =>
    obtain ⟨s₁, -, h⟩ := Option.bind_eq_some_iff.mp h
    obtain rfl := Option.some.inj h
    refine .inr ⟨Nat.not_lt.mp hlast, hcontrol.resolve_left ?_⟩
    rintro ⟨k, hc⟩
    exact Bool.noConfusion ((congrArg Control.stopped hc).trans hrun)

/-- Emulation that has stopped runs no further hooks. -/
theorem foldlM_hook_stopped {hook : State → Option State} (hstop : s.stopped = true) {l : List ℕ}
    (h : l.foldlM (fun s _ => if s.stopped then some s else hook s) s = some s') : s' = s := by
  refine foldlM_hook_inv (I := fun t => t = s) (fun t t' ht hrun _ => ?_) l rfl h
  rw [ht, hstop] at hrun
  cases hrun

end State

namespace Emulation

variable {env : Env} {m m' : Emulation} {s s' : State} {address : ℕ}

/-- An instruction without end hook, the last one of an end point, or one that counts it down. -/
theorem runEndHooks_cases (hrun : s.stopped = false) (h : m.runEndHooks env s address = some s') :
    (address ∉ s.endHooks ∧ s' = s) ∨
    address ∈ s.endHooks ∧ ∃ n, s.endpoints.lookup address = some n ∧
      (n ≤ 1 ∧ s'.control = { s.control with stopped := true } ∨ 1 < n ∧ (s.endHooks.count address = 1 →
        s' = { s with endpoints := insertKey s.endpoints address (n - 1) })) := by
  unfold runEndHooks State.runHooks at h
  by_cases hmem : address ∈ s.endHooks
  · right
    obtain ⟨k, hk⟩ := Nat.exists_eq_succ_of_ne_zero (List.count_pos_iff.mpr hmem).ne'
    rw [List.filter_eq, hk, List.replicate_succ, List.foldlM_cons, hrun, if_neg Bool.false_ne_true,
      Option.bind_eq_bind, Option.bind_eq_some_iff] at h
    obtain ⟨s₁, h₁, h⟩ := h
    obtain ⟨n, hlook, hcases⟩ := State.endHookCb_counts hrun h₁
    refine ⟨hmem, n, hlook, ?_⟩
    rcases hcases with ⟨hmore, rfl⟩ | ⟨hlast, hcontrol⟩
    · refine .inr ⟨hmore, fun hone => ?_⟩
      obtain rfl : k = 0 := Nat.succ.inj (hk.symm.trans hone)
      exact (Option.some.inj h).symm
    · rw [State.foldlM_hook_stopped (congrArg Control.stopped hcontrol) h]
      exact .inl ⟨hlast, hcontrol⟩
  · rw [List.filter_eq, List.count_eq_zero_of_not_mem hmem] at h
    exact .inl ⟨hmem, (Option.some.inj h).symm⟩

/-- What an instruction does to the end points. -/
theorem enter_endpoints {past : Bool} (hrun : s.stopped = false)
    (hone : ∀ n, s.endpoints.lookup address = some n → 1 < n → s.endHooks.count address = 1 ∧
      ¬ s.AsksReentry (s.faultHooks.count address) address)
    (h : m.enter env s address = some (s', past)) : s'.endHooks = s.endHooks ∧
      (address ∉ s.endHooks ∧ s'.endpoints = s.endpoints ∨
      s'.stopped = true ∧ s'.endpoints = s.endpoints ∨
      s'.stopped = false ∧ ∃ n, s.endpoints.lookup address = some n ∧ 1 < n ∧
        s'.endpoints = insertKey s.endpoints address (n - 1)) := by
  obtain ⟨s₁, h₁, hrest⟩ := enter_cases h
  rcases runEndHooks_cases hrun h₁ with ⟨hno, rfl⟩ | ⟨-, n, hlook, ⟨-, hcontrol⟩ | ⟨hmore, hcount⟩⟩
  · rcases hrest with ⟨hstop, -⟩ | ⟨-, -, s₂, h₂, h₃⟩
    · exact absurd (hrun.symm.trans hstop) Bool.false_ne_true
    · obtain ⟨hends, hhooks, -⟩ := State.hooks_endpoints h₂ h₃
      exact ⟨hhooks, .inl ⟨hno, hends⟩⟩
  · have hstopped : s₁.stopped = true := congrArg Control.stopped hcontrol
    rcases hrest with ⟨-, rfl, -⟩ | ⟨hrun₁, -⟩
    · exact ⟨congrArg Control.endHooks hcontrol,
        .inr (.inl ⟨hstopped, congrArg Control.endpoints hcontrol⟩)⟩
    · exact absurd (hrun₁.symm.trans hstopped) Bool.false_ne_true
  · obtain ⟨hhook, hno⟩ := hone n hlook hmore
    obtain rfl := hcount hhook
    rcases hrest with ⟨hstop, -⟩ | ⟨-, -, s₂, h₂, h₃⟩
    · exact absurd (hrun.symm.trans hstop) Bool.false_ne_true
    · obtain ⟨hends, hhooks, hstopped⟩ := State.hooks_endpoints h₂ h₃
      have hrun₂ : s₂.stopped = false := State.runFaultHooks_not_asks (s := { s with
        endpoints := insertKey s.endpoints address (n - 1) }) hrun hno h₂
      exact ⟨hhooks, .inr (.inr ⟨hstopped.trans hrun₂, n, hlook, hmore, hends⟩)⟩

end Emulation

/-! ### Runs -/

namespace MainLoop

variable {env : Env} {init r r' : MainLoop}

/-- What a run without costly re-entries keeps. -/
structure OneRun (init r : MainLoop) : Prop where
  hooked : ∀ a c, init.emulation.state.endpoints.lookup a = some c → a ∈ r.emulation.state.endHooks
  budget : r.executed.length + r.left ≤ r.maxInstructionCount
  endpoints : ∀ a c, init.emulation.state.endpoints.lookup a = some c →
    ∃ n, r.emulation.state.endpoints.lookup a = some n ∧ c = n + r.executed.count a

theorem OneRun.countsOnce (h : OneRun init r) : CountsOnce init r :=
  ⟨(Nat.le_add_right ..).trans h.budget, h.endpoints⟩

/-- What changes neither the end points nor what was executed keeps this. -/
theorem OneRun.congr (h : OneRun init r) {m : Emulation}
    (hends : m.state.endpoints = r.emulation.state.endpoints)
    (hhooks : m.state.endHooks = r.emulation.state.endHooks) :
    OneRun init { r with emulation := m } where
  hooked := hhooks ▸ h.hooked
  budget := h.budget
  endpoints := hends ▸ h.endpoints

theorem OneRun.insn {address : ℕ} {m : Emulation} (h : OneRun init r) (hleft : r.left ≠ 0)
    (hone : r.Uninterrupted (.unicorn (.insn address)))
    (hm : r.emulation.step env (.insn address) = some m) : OneRun init (r.execute address m) := by
  simp only [Emulation.step] at hm
  split at hm
  · next hstopped =>
    obtain rfl := Option.some.inj hm
    rw [execute, if_pos hstopped]
    exact h
  · next hrun =>
    have hrun : r.emulation.state.stopped = false := by simpa using hrun
    obtain ⟨⟨s', past⟩, henter, hm⟩ := Option.map_eq_some_iff.mp hm
    obtain rfl : s' = m.state := by rw [← hm]
    obtain ⟨hhooks, hends⟩ := Emulation.enter_endpoints hrun (hone hrun hleft) henter
    have hbudget := h.budget
    rw [execute]
    split
    · next hstopped =>
      rcases hends with ⟨-, hends⟩ | ⟨-, hends⟩ | ⟨hrun', -⟩
      · exact h.congr hends hhooks
      · exact h.congr hends hhooks
      · exact absurd (hrun'.symm.trans hstopped) Bool.false_ne_true
    · next hgoes =>
      refine ⟨hhooks ▸ h.hooked, ?_, fun a c hc => ?_⟩
      · simp only [List.length_append, List.length_singleton]
        omega
      · obtain ⟨n, hn, hcount⟩ := h.endpoints a c hc
        simp only [List.count_append, List.count_singleton]
        rcases hends with ⟨hno, hends⟩ | ⟨hstopped, -⟩ | ⟨-, k, hk, hmore, hends⟩
        · have hne : address ≠ a := fun heq => hno (heq ▸ h.hooked a c hc)
          refine ⟨n, hends ▸ hn, ?_⟩
          rw [if_neg (by simpa using hne)]
          exact hcount
        · exact absurd hstopped hgoes
        · rw [hends, lookup_insertKey]
          by_cases ha : a = address
          · obtain rfl : k = n := Option.some.inj (hk.symm.trans (ha ▸ hn))
            refine ⟨k - 1, if_pos ha, ?_⟩
            rw [if_pos (by simpa using ha.symm)]
            omega
          · refine ⟨n, (if_neg ha).trans hn, ?_⟩
            rw [if_neg (by simpa using Ne.symm ha)]
            exact hcount

theorem OneRun.step {e : LoopEvent} (h : OneRun init r) (he : r.Uninterrupted e)
    (hstep : r.step env e = some r') : OneRun init r' := by
  cases e with
  | reenter =>
    obtain rfl := Option.some.inj hstep
    cases hpending : r.emulation.state.reenterAddress with
    | none => exact h
    | some address =>
      have hnone : r.executed = [] := he (hpending ▸ Option.some_ne_none address)
      refine ⟨h.hooked, ?_, h.endpoints⟩
      rw [Option.elim_some, MainLoop.reenter, hnone, List.length_nil, Nat.zero_add]
  | unicorn e =>
    cases e with
    | guest cpu =>
      obtain ⟨m, hm, rfl⟩ := Option.map_eq_some_iff.mp hstep
      simp only [Emulation.step] at hm
      split at hm <;> obtain rfl := Option.some.inj hm
      · exact h
      · exact h.congr rfl rfl
    | block address size =>
      obtain ⟨m, hm, rfl⟩ := Option.map_eq_some_iff.mp hstep
      simp only [Emulation.step] at hm
      split at hm <;> obtain rfl := Option.some.inj hm
      · exact h
      · have hcontrol := State.blockHookCb_control (s := r.emulation.state) address size
        exact h.congr (congrArg Control.endpoints hcontrol) (congrArg Control.endHooks hcontrol)
    | insn address =>
      simp only [MainLoop.step, MainLoop.unicorn] at hstep
      split at hstep
      · obtain rfl := Option.some.inj hstep
        exact h
      · next hleft =>
        obtain ⟨m, hm, rfl⟩ := Option.map_eq_some_iff.mp hstep
        exact h.insn hleft he hm

theorem lookup_foldl_insertKey_mem (a c : ℕ) : ∀ (ends map : List (ℕ × ℕ)),
    (ends.foldl (fun m e => insertKey m e.1 e.2) map).lookup a = some c →
      a ∈ ends.map Prod.fst ∨ map.lookup a = some c
  | [], _, h => .inr h
  | e :: es, map, h => by
    rcases lookup_foldl_insertKey_mem a c es (insertKey map e.1 e.2) h with hmem | hlook
    · exact .inl (List.mem_cons_of_mem _ hmem)
    · rw [lookup_insertKey] at hlook
      by_cases ha : a = e.1
      · exact .inl (ha ▸ List.mem_cons_self)
      · rw [if_neg ha] at hlook
        exact .inr hlook

theorem oneRun_start {cpu : Cpu} {ends memorydump : List (ℕ × ℕ)} {faults : List Fault} {count : ℕ}
    (h : start cpu ends memorydump faults count = some r) : OneRun r r := by
  obtain ⟨m, hm, rfl⟩ := Option.map_eq_some_iff.mp h
  cases faults with
  | nil => cases hm
  | cons f fs =>
    obtain rfl := Option.some.inj hm
    refine ⟨fun a c hc => ?_, Nat.zero_add _ ▸ le_rfl, fun a c hc => ⟨c, hc, rfl⟩⟩
    simp only [State.initializeHooks_eq] at hc ⊢
    exact (lookup_foldl_insertKey_mem a c ends [] hc).resolve_right nofun

/-- A run that re-enters only in front of its first instruction, and not at end points, executes no
    more than the configured instructions and counts each end point once for each execution. -/
theorem always_countsOnce (env : Env) (cpu : Cpu) (ends memorydump : List (ℕ × ℕ))
    (faults : List Fault) (count : ℕ)
    (h : start cpu ends memorydump faults count = some init) (es : List LoopEvent)
    (hes : Run.EveryStep (MainLoop.step env) Uninterrupted init es) :
    Run.Always (MainLoop.step env) (CountsOnce init) init es :=
  Run.always_of_everyStep (I := OneRun init) (fun _ h => h.countsOnce)
    (fun _ _ _ h he hstep => h.step he hstep) (oneRun_start h) hes

/-- The first instruction is re-entered at, the end point comes after it. -/
theorem always_countsOnce_first : ∃ r, start zeroCpu [(0x108, 3)] [] [codeFault] 2 = some r ∧
    Run.Always (MainLoop.step Env.plain) (CountsOnce r) r
      [.unicorn (.block 0x104 12), .unicorn (.insn 0x104), .reenter, .unicorn (.block 0x104 12),
        .unicorn (.insn 0x104), .unicorn (.insn 0x108)] := by
  refine ⟨_, rfl, always_countsOnce Env.plain zeroCpu [(0x108, 3)] [] [codeFault] 2 rfl _ ?_⟩
  refine ⟨trivial, fun _ h => ?_⟩
  obtain rfl := Option.some.inj h
  refine ⟨fun _ _ n hn => (nomatch hn), fun _ h => ?_⟩
  obtain rfl := Option.some.inj h
  refine ⟨fun _ => rfl, fun _ h => ?_⟩
  obtain rfl := Option.some.inj h
  refine ⟨trivial, fun _ h => ?_⟩
  obtain rfl := Option.some.inj h
  refine ⟨fun _ _ n hn => (nomatch hn), fun _ h => ?_⟩
  obtain rfl := Option.some.inj h
  refine ⟨fun _ _ _ _ _ => ⟨rfl, ?_⟩, fun _ _ => trivial⟩
  rintro ⟨f, hlook, -⟩
  cases hlook

/-- Re-entering at the end point, after one of two instructions: three are executed, and the end
    point is down by two after one execution. -/
theorem reentry_not_countsOnce : ∃ r r', start zeroCpu [(0x104, 5)] [] [codeFault] 2 = some r ∧
    Run.run (MainLoop.step Env.plain) r
      [.unicorn (.block 0x100 16), .unicorn (.insn 0x100), .unicorn (.insn 0x104), .reenter,
        .unicorn (.block 0x104 12), .unicorn (.insn 0x104), .unicorn (.insn 0x108)] = some r' ∧
    r'.maxInstructionCount < r'.executed.length ∧ r'.executed.count 0x104 = 1 ∧
    r'.emulation.state.endpoints.lookup 0x104 = some 3 ∧ ¬ CountsOnce r r' := by
  refine ⟨_, _, rfl, rfl, by decide, by decide, by decide, fun h => ?_⟩
  exact absurd h.count (by decide)

end MainLoop

end Archie.Worker
