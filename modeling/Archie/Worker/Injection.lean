import Archie.Lib.Keyed
import Archie.Worker.Emulation
import Archie.Worker.Expiry

/-! Which faults of an experiment the worker injects.

    The map holds one fault for each trigger address, and every fault has a hook of its own that
    counts down the one in the map. Of two faults with one address the first is lost and the other
    counted down twice as fast. With different addresses each fault is injected once, when its
    trigger is executed for the `hitcounter`-th time. -/

namespace Archie.Worker

/-! ### Runs of hooks -/

namespace State

variable {env : Env} {s s' : State} {hook : State → Option State} {I : State → Prop}

/-- What every hook keeps, all of them keep. -/
theorem foldlM_hook_inv (hI : ∀ s s', I s → s.stopped = false → hook s = some s' → I s') :
    ∀ (l : List ℕ) {s s' : State}, I s →
      l.foldlM (fun s _ => if s.stopped then some s else hook s) s = some s' → I s'
  | [], s, s', h, hr => by
    obtain rfl := Option.some.inj hr
    exact h
  | _ :: l, s, s', h, hr => by
    rw [List.foldlM_cons, Option.bind_eq_bind, Option.bind_eq_some_iff] at hr
    obtain ⟨s₁, h₁, hr⟩ := hr
    refine foldlM_hook_inv hI l ?_ hr
    split at h₁
    · obtain rfl := Option.some.inj h₁
      exact h
    · next hrun => exact hI s s₁ h (by simpa using hrun) h₁

theorem foldlM_hook_total (hI : ∀ s, I s → s.stopped = false → ∃ s', hook s = some s' ∧ I s') :
    ∀ (l : List ℕ) {s : State}, I s →
      ∃ s', l.foldlM (fun s _ => if s.stopped then some s else hook s) s = some s' ∧ I s'
  | [], s, h => ⟨s, rfl, h⟩
  | _ :: l, s, h => by
    obtain ⟨s₁, h₁, hs₁⟩ : ∃ s₁, (if s.stopped then some s else hook s) = some s₁ ∧ I s₁ := by
      split
      · exact ⟨s, rfl, h⟩
      · next hrun => exact hI s h (by simpa using hrun)
    obtain ⟨s', h', hs'⟩ := foldlM_hook_total hI l hs₁
    exact ⟨s', by rw [List.foldlM_cons, h₁]; exact h', hs'⟩

/-- The hook of an injectable fault does not fail. -/
theorem faultHookCb_isSome {address k : ℕ} {f : Fault}
    (hlook : s.faults.lookup address = some (f.setHitcounter k)) (hinj : f.Injectable) :
    (s.faultHookCb env address).isSome := by
  simp only [faultHookCb, hlook, Option.bind_eq_bind, Option.bind_some]
  split
  · rfl
  · split
    · rfl
    · have hinject : ∀ (s : State) (g : Fault), g.Injectable → ∃ r, s.injectFault env g address
          = some r := fun s g hg =>
        Option.isSome_iff_exists.mp ((injectFault_isSome_iff address).mpr hg)
      generalize hg : (f.setHitcounter k).setHitcounter _ = g
      have hg' : g.Injectable := hg ▸ hinj
      obtain ⟨r, hr⟩ := hinject { s with faults := insertKey s.faults address g } g hg'
      rw [hr]
      rfl

theorem filter_address {addresses : List ℕ} (hnd : addresses.Nodup) (a : ℕ) :
    addresses.filter (· = a) = if a ∈ addresses then [a] else [] := by
  have hcount : addresses.filter (· = a) = List.replicate (addresses.count a) a :=
    List.filter_beq a
  rw [hcount, List.Nodup.count hnd]
  split <;> rfl

end State

/-! ### Any list of faults -/

/-- The state of a worker between hooks: a re-entry is pending at a spent trigger only. -/
structure State.Sound (s : State) : Prop where
  once : s.book.Once
  idle : s.stopped = false → s.reenterAddress = none
  spent : ∀ b, s.reenterAddress = some b →
    ∃ f, s.faults.lookup b = some f ∧ f.trigger.hitcounter = 0

namespace State.Sound

variable {env : Env} {s s' : State}

theorem congr (h : s.Sound) (hbook : s'.book = s.book) (hcontrol : s'.control = s.control) :
    s'.Sound := by
  simp only [book, Book.mk.injEq] at hbook
  simp only [control, Control.mk.injEq] at hcontrol
  obtain ⟨hfaults, hlive, hcount, hinjected, hundone⟩ := hbook
  obtain ⟨-, -, -, hreenter, hstopped⟩ := hcontrol
  refine ⟨?_, ?_, ?_⟩
  · rw [book, hfaults, hlive, hcount, hinjected, hundone]
    exact h.once
  · rw [hreenter, hstopped]
    exact h.idle
  · rw [hreenter, hfaults]
    exact h.spent

theorem of_none (honce : s'.book.Once) (hnone : s'.reenterAddress = none) : s'.Sound :=
  ⟨honce, fun _ => hnone, fun b hb => by rw [hnone] at hb; cases hb⟩

theorem endHookCb {address firstEndpoint : ℕ} {memorydump : List (ℕ × ℕ)} (h : s.Sound)
    (hrun : s.stopped = false) (hs : s.endHookCb env address firstEndpoint memorydump = some s') :
    s'.Sound := by
  obtain ⟨hstep, hcontrol⟩ := endHookCb_step hs
  have hnone : s'.control.reenterAddress = none := by
    rcases hcontrol with ⟨n, hc⟩ | hc <;> rw [hc] <;> exact h.idle hrun
  exact of_none (h.once.step hstep) hnone

theorem faultHookCb {address : ℕ} (h : s.Sound) (hrun : s.stopped = false)
    (hs : s.faultHookCb env address = some s') : s'.Sound := by
  obtain ⟨hstep, hcontrol⟩ := faultHookCb_step hs
  have honce := h.once.step hstep
  rcases hcontrol with hc | ⟨hc, f, hlook, hzero⟩
  · exact of_none honce ((congrArg Control.reenterAddress hc).trans (h.idle hrun))
  · have hreenter : s'.reenterAddress = some address := congrArg Control.reenterAddress hc
    have hstopped : s'.stopped = true := congrArg Control.stopped hc
    refine ⟨honce, fun hrun' => ?_, fun b hb => ?_⟩
    · rw [hstopped] at hrun'
      cases hrun'
    · rw [hreenter] at hb
      obtain rfl := Option.some.inj hb
      exact ⟨f, hlook, hzero⟩

theorem singleStepHookCb {address : ℕ} (h : s.Sound) (hrun : s.stopped = false)
    (hs : s.singleStepHookCb env address = some s') : s'.Sound := by
  obtain ⟨hstep, hcontrol⟩ := singleStepHookCb_step hs
  exact of_none (h.once.step hstep) ((congrArg Control.reenterAddress hcontrol).trans (h.idle hrun))

theorem runSingleStep {address : ℕ} (h : s.Sound) (hs : s.runSingleStep env address = some s') :
    s'.Sound := by
  unfold State.runSingleStep at hs
  split at hs
  · next hon => exact h.singleStepHookCb hon.1 hs
  · obtain rfl := Option.some.inj hs
    exact h

theorem runFaultHooks {address : ℕ} (h : s.Sound) (hs : s.runFaultHooks env address = some s') :
    s'.Sound :=
  foldlM_hook_inv (fun _ _ h hrun => h.faultHookCb hrun) _ h hs

end State.Sound

namespace Emulation

variable {env : Env} {m m' : Emulation} {s s' : State}

theorem enter_cases {address : ℕ} {past : Bool} (h : m.enter env s address = some (s', past)) :
    ∃ s₁, m.runEndHooks env s address = some s₁ ∧ (s₁.stopped = true ∧ s' = s₁ ∧ past = false ∨
      s₁.stopped = false ∧ past = true ∧ ∃ s₂, s₁.runFaultHooks env address = some s₂ ∧
        s₂.runSingleStep env address = some s') := by
  simp only [enter, Option.bind_eq_bind, Option.bind_eq_some_iff, Option.pure_def] at h
  obtain ⟨s₁, h₁, h⟩ := h
  refine ⟨s₁, h₁, ?_⟩
  split at h
  · next hstop =>
    obtain ⟨rfl, rfl⟩ := Prod.mk.inj (Option.some.inj h)
    exact .inl ⟨hstop, rfl, rfl⟩
  · next hrun =>
    simp only [Option.bind_eq_some_iff] at h
    obtain ⟨s₂, h₂, s₃, h₃, h⟩ := h
    obtain ⟨rfl, rfl⟩ := Prod.mk.inj (Option.some.inj h)
    exact .inr ⟨by simpa using hrun, rfl, s₂, h₂, h₃⟩

end Emulation

/-- A property of the state that no hook breaks while emulation runs. -/
structure HookInvariant (env : Env) (I : State → Prop) : Prop where
  guest : ∀ s cpu, I s → I { s with cpu := cpu }
  block : ∀ s address size, I s → I (s.blockHookCb address size)
  endHook : ∀ s s' address firstEndpoint memorydump, I s → s.stopped = false →
    s.endHookCb env address firstEndpoint memorydump = some s' → I s'
  faultHook : ∀ s s' address, I s → s.stopped = false → s.faultHookCb env address = some s' → I s'
  singleStep : ∀ s s' address, I s → s.stopped = false → s.singleStepHookCb env address = some s' → I s'

namespace HookInvariant

variable {env : Env} {I : State → Prop} {m m' : Emulation} {s s' : State}

theorem enter {address : ℕ} {past : Bool} (h : HookInvariant env I) (hs : I s)
    (henter : m.enter env s address = some (s', past)) : I s' := by
  obtain ⟨s₁, h₁, hrest⟩ := Emulation.enter_cases henter
  have hs₁ : I s₁ := State.foldlM_hook_inv (fun _ _ ht hrun => h.endHook _ _ _ _ _ ht hrun) _ hs h₁
  rcases hrest with ⟨-, rfl, -⟩ | ⟨-, -, s₂, h₂, h₃⟩
  · exact hs₁
  · have hs₂ : I s₂ := State.foldlM_hook_inv (fun _ _ ht hrun => h.faultHook _ _ _ ht hrun) _ hs₁ h₂
    unfold State.runSingleStep at h₃
    split at h₃
    · next hon => exact h.singleStep _ _ _ hs₂ hon.1 h₃
    · exact Option.some.inj h₃ ▸ hs₂

/-- A step keeps it, a re-entry if it holds of the state to go on with. -/
theorem step {e : Activity} (h : HookInvariant env I) (hs : I m.state)
    (hreenter : ∀ size, e = .reenter size → I { m.state with reenterAddress := none, stopped := false })
    (hstep : m.step env e = some m') : I m'.state := by
  cases e with
  | guest cpu =>
    simp only [Emulation.step] at hstep
    split at hstep <;> obtain rfl := Option.some.inj hstep
    · exact hs
    · exact h.guest _ cpu hs
  | block address size =>
    simp only [Emulation.step] at hstep
    split at hstep <;> obtain rfl := Option.some.inj hstep
    · exact hs
    · exact h.block _ address size hs
  | insn address =>
    simp only [Emulation.step] at hstep
    split at hstep
    · exact Option.some.inj hstep ▸ hs
    · obtain ⟨⟨s', past⟩, henter, rfl⟩ := Option.map_eq_some_iff.mp hstep
      exact h.enter hs henter
  | reenter size =>
    simp only [Emulation.step] at hstep
    split at hstep
    · exact Option.some.inj hstep ▸ hs
    · next address _ =>
      obtain ⟨⟨s', past⟩, henter, rfl⟩ := Option.map_eq_some_iff.mp hstep
      exact h.enter (h.block _ address size (hreenter size rfl)) henter

end HookInvariant

theorem State.hookInvariant_sound {env : Env} : HookInvariant env State.Sound where
  guest _ _ h := h.congr rfl rfl
  block _ _ _ h := h.congr (blockHookCb_book ..) (blockHookCb_control ..)
  endHook _ _ _ _ _ h := h.endHookCb
  faultHook _ _ _ h := h.faultHookCb
  singleStep _ _ _ h := h.singleStepHookCb

namespace Emulation

variable {env : Env} {m m' : Emulation} {s s' : State}

theorem step_sound {e : Activity} (hs : m.state.Sound) (h : m.step env e = some m') :
    m'.state.Sound :=
  State.hookInvariant_sound.step hs (fun _ _ => .of_none hs.once rfl) h

theorem start_sound {cpu : Cpu} {ends memorydump : List (ℕ × ℕ)} {faults : List Fault}
    (h : start cpu ends memorydump faults = some m) : m.state.Sound := by
  cases faults with
  | nil => cases h
  | cons f fs =>
    obtain rfl := Option.some.inj h
    refine .of_none (State.once_initializeHooks cpu ends (f :: fs)) ?_
    rw [State.initializeHooks_eq]
    rfl

/-- In every run of every worker a re-entry is pending at a spent trigger only. -/
theorem always_sound {cpu : Cpu} {ends memorydump : List (ℕ × ℕ)} {faults : List Fault}
    (h : start cpu ends memorydump faults = some m) (es : List Activity) :
    Run.Always (step env) (fun m => m.state.Sound) m es :=
  Run.always_of_inv (fun _ hs => hs) (fun _ _ _ => step_sound) es (start_sound h)

/-! ### A worker without end points can execute an instruction as often as one likes -/

/-- Emulation stops for a re-entry only. -/
structure Endless (s : State) : Prop where
  sound : s.Sound
  noEnd : s.endHooks = []
  pending : s.stopped = true → s.reenterAddress ≠ none

namespace Endless

theorem faultHookCb {address : ℕ} (h : Endless s) (hrun : s.stopped = false)
    (hs : s.faultHookCb env address = some s') : Endless s' := by
  refine ⟨h.sound.faultHookCb hrun hs, ?_, ?_⟩
  · rcases (State.faultHookCb_step hs).2 with hc | ⟨hc, -⟩
    · exact (congrArg Control.endHooks hc).trans h.noEnd
    · exact (congrArg Control.endHooks hc).trans h.noEnd
  · rcases (State.faultHookCb_step hs).2 with hc | ⟨hc, -⟩
    · intro hstop
      rw [show s'.stopped = s.stopped from congrArg Control.stopped hc, hrun] at hstop
      cases hstop
    · intro _ hnone
      rw [show s'.reenterAddress = some address from congrArg Control.reenterAddress hc] at hnone
      cases hnone

theorem runSingleStep {address : ℕ} (h : Endless s)
    (hs : s.runSingleStep env address = some s') : Endless s' ∧ s'.control = s.control := by
  have hcontrol : s'.control = s.control := by
    unfold State.runSingleStep at hs
    split at hs
    · exact (State.singleStepHookCb_step hs).2
    · obtain rfl := Option.some.inj hs
      rfl
  refine ⟨⟨h.sound.runSingleStep hs, (congrArg Control.endHooks hcontrol).trans h.noEnd,
    fun hstop => ?_⟩, hcontrol⟩
  rw [show s'.reenterAddress = s.reenterAddress from congrArg Control.reenterAddress hcontrol]
  exact h.pending ((congrArg Control.stopped hcontrol).symm.trans hstop)

/-- Without end hooks an instruction always begins. -/
theorem enter {address : ℕ} {past : Bool} (h : Endless s) (hrun : s.stopped = false)
    (henter : m.enter env s address = some (s', past)) : Endless s' ∧ past = true ∧
      ∃ s₂, s.runFaultHooks env address = some s₂ ∧ s'.control = s₂.control := by
  obtain ⟨s₁, h₁, hrest⟩ := enter_cases henter
  rw [runEndHooks, State.runHooks, h.noEnd] at h₁
  obtain rfl := Option.some.inj h₁
  rcases hrest with ⟨hstop, -⟩ | ⟨-, rfl, s₂, h₂, h₃⟩
  · rw [hrun] at hstop
    cases hstop
  · have hs₂ : Endless s₂ :=
      State.foldlM_hook_inv (I := Endless) (fun _ _ h hrun => h.faultHookCb hrun) _ h h₂
    exact ⟨(hs₂.runSingleStep h₃).1, rfl, s₂, h₂, (hs₂.runSingleStep h₃).2⟩

end Endless

/-- Hooks of a spent trigger do nothing. -/
theorem runFaultHooks_spent {address : ℕ} {f : Fault} (hlook : s.faults.lookup address = some f)
    (hzero : f.trigger.hitcounter = 0) (h : s.runFaultHooks env address = some s') : s' = s := by
  refine State.foldlM_hook_inv (I := fun s' => s' = s) (fun s₁ s₂ h₁ _ h₂ => ?_) _ rfl h
  rw [h₁] at h₂
  simp only [State.faultHookCb, hlook, Option.bind_eq_bind, Option.bind_some, if_pos hzero] at h₂
  exact (Option.some.inj h₂).symm

/-- After a re-entry the instruction is completed. -/
theorem reenter_continues (hm : Endless m.state) {address : ℕ}
    (hpending : m.state.reenterAddress = some address) (h : m.step env (.reenter 0) = some m') :
    Endless m'.state ∧ m'.state.stopped = false ∧ m'.begun = m.begun := by
  obtain ⟨f, hlook, hzero⟩ := hm.sound.spent address hpending
  simp only [step, hpending] at h
  obtain ⟨⟨s', past⟩, henter, rfl⟩ := Option.map_eq_some_iff.mp h
  generalize hcleared : ({ m.state with reenterAddress := none, stopped := false } : State) = s
    at henter
  have hbook : (s.blockHookCb address 0).book = m.state.book := by
    rw [State.blockHookCb_book, ← hcleared]
    rfl
  have hcontrol : (s.blockHookCb address 0).control
      = { m.state.control with reenterAddress := none, stopped := false } := by
    rw [State.blockHookCb_control, ← hcleared]
    rfl
  have hstopped : (s.blockHookCb address 0).stopped = false := congrArg Control.stopped hcontrol
  have hendless : Endless (s.blockHookCb address 0) := by
    refine ⟨.of_none (hbook ▸ hm.sound.once) (congrArg Control.reenterAddress hcontrol),
      (congrArg Control.endHooks hcontrol).trans hm.noEnd, fun hstop => ?_⟩
    rw [hstopped] at hstop
    cases hstop
  obtain ⟨hs', -, s₂, h₂, hc⟩ := hendless.enter hstopped henter
  have hlook' : (s.blockHookCb address 0).faults.lookup address = some f := by
    rw [show (s.blockHookCb address 0).faults = m.state.faults from congrArg Book.faults hbook]
    exact hlook
  rw [runFaultHooks_spent hlook' hzero h₂] at hc
  exact ⟨hs', (congrArg Control.stopped hc).trans hstopped, rfl⟩

theorem execute_once (hm : Endless m.state) (hrun : m.state.stopped = false) {address : ℕ}
    (h : Run.run (step env) m [.insn address, .reenter 0] = some m') :
    Endless m'.state ∧ m'.state.stopped = false ∧ m'.begun = m.begun ++ [address] := by
  simp only [Run.run, Option.bind_eq_some_iff, Option.some.injEq] at h
  obtain ⟨m₁, h₁, m₂, h₂, rfl⟩ := h
  simp only [step, hrun, Bool.false_eq_true, if_false] at h₁
  obtain ⟨⟨s', past⟩, henter, rfl⟩ := Option.map_eq_some_iff.mp h₁
  obtain ⟨hs', rfl, -⟩ := hm.enter hrun henter
  cases hpending : s'.reenterAddress with
  | none =>
    simp only [step, hpending] at h₂
    obtain rfl := Option.some.inj h₂
    refine ⟨hs', ?_, rfl⟩
    by_contra hstop
    exact hs'.pending (by simpa using hstop) hpending
  | some b => exact reenter_continues (m := ⟨s', _, _, _⟩) hs' hpending h₂

theorem exists_executions (hm : Endless m.state) (hrun : m.state.stopped = false)
    (hsome : ∀ es, (Run.run (step env) m es).isSome) (address : ℕ) : ∀ n, ∃ es m',
      Run.run (step env) m es = some m' ∧ Endless m'.state ∧ m'.state.stopped = false ∧
      n ≤ m'.executions address
  | 0 => ⟨[], m, rfl, hm, hrun, Nat.zero_le _⟩
  | n + 1 => by
    obtain ⟨es, m₁, h₁, hm₁, hrun₁, hn⟩ := exists_executions hm hrun hsome address n
    obtain ⟨m₂, h₂⟩ := Option.isSome_iff_exists.mp (hsome (es ++ [.insn address, .reenter 0]))
    have hlast := h₂
    rw [Run.run_append, h₁, Option.bind_some] at hlast
    obtain ⟨hm₂, hrun₂, hbegun⟩ := execute_once hm₁ hrun₁ hlast
    refine ⟨_, m₂, h₂, hm₂, hrun₂, ?_⟩
    rw [executions, hbegun, List.count_append, List.count_singleton_self]
    exact Nat.succ_le_succ hn

end Emulation

/-! ### Different trigger addresses -/

/-- The books after the trigger addresses were executed as often as `n` says. -/
structure Book.Tracks (faults : List Fault) (n : ℕ → ℕ) (b : Book) : Prop where
  lookup : ∀ f ∈ faults, b.faults.lookup f.trigger.address
    = some (f.setHitcounter (f.trigger.hitcounter - n f.trigger.address))
  injected : (b.injected.map Injection.fault).Perm
    ((faults.filter fun f => f.trigger.hitcounter ≤ n f.trigger.address).map
      fun f => f.setHitcounter 0)
  live : ∀ e ∈ b.liveFaults, ∃ f ∈ faults, f.trigger.address = e.1.1 ∧
    (f.type = .register → e.1.2 < 2 ^ 64)

namespace Book.Tracks

variable {faults : List Fault} {n : ℕ → ℕ} {b b' : Book}

theorem step_none (h : b.Tracks faults n) (hstep : b.Step none b') : b'.Tracks faults n := by
  cases hstep with
  | stay => exact h
  | tick => exact ⟨h.lookup, h.injected, h.live⟩
  | undo => exact ⟨h.lookup, h.injected, fun e he => h.live e (List.mem_filter.mp he).1⟩

/-- Counts matter for trigger addresses only, and up to the hitcounter. -/
theorem congr (h : b.Tracks faults n) {n' : ℕ → ℕ} (hn : ∀ f ∈ faults,
      min f.trigger.hitcounter (n' f.trigger.address)
        = min f.trigger.hitcounter (n f.trigger.address)) : b.Tracks faults n' := by
  refine ⟨fun f hf => ?_, ?_, h.live⟩
  · have hleft : f.trigger.hitcounter - n' f.trigger.address
        = f.trigger.hitcounter - n f.trigger.address := by
      have := hn f hf
      omega
    rw [hleft]
    exact h.lookup f hf
  · have hdue : ∀ f ∈ faults, decide (f.trigger.hitcounter ≤ n' f.trigger.address)
        = decide (f.trigger.hitcounter ≤ n f.trigger.address) := fun f hf => by
      have := hn f hf
      exact decide_eq_decide.mpr (by omega)
    rw [List.filter_congr hdue]
    exact h.injected

/-- The faults that are due change by those of one address. -/
theorem filter_due (hnd : (faults.map fun f => f.trigger.address).Nodup) {f : Fault}
    (hf : f ∈ faults) (hn : n f.trigger.address + 1 = f.trigger.hitcounter) :
    (faults.filter fun g => decide (g.trigger.hitcounter
        ≤ Function.update n f.trigger.address (n f.trigger.address + 1) g.trigger.address)).Perm
      (faults.filter (fun g => decide (g.trigger.hitcounter ≤ n g.trigger.address)) ++ [f]) := by
  refine Keyed.filter_perm_append hnd.of_map hf ?_ ?_ fun g hg hne => ?_
  · exact decide_eq_false (by omega)
  · exact decide_eq_true (by rw [Function.update_self]; omega)
  · have haddr : g.trigger.address ≠ f.trigger.address := fun he =>
      hne (Keyed.eq_of_key hnd hg hf he)
    rw [Function.update_of_ne haddr]

/-- Unless `f` is hit for the last time, the same faults are due after an execution of its trigger
    address. -/
theorem due_update (hnd : (faults.map fun f => f.trigger.address).Nodup) {f : Fault} (hf : f ∈ faults)
    (hne : f.trigger.hitcounter ≠ n f.trigger.address + 1) (g : Fault) (hg : g ∈ faults) :
    decide (g.trigger.hitcounter
        ≤ Function.update n f.trigger.address (n f.trigger.address + 1) g.trigger.address)
      = decide (g.trigger.hitcounter ≤ n g.trigger.address) := by
  by_cases haddr : g.trigger.address = f.trigger.address
  · obtain rfl := Keyed.eq_of_key hnd hg hf haddr
    rw [Function.update_self]
    exact decide_eq_decide.mpr (by omega)
  · rw [Function.update_of_ne haddr]

/-- Books that differ at the trigger address of `f` alone follow its next execution. -/
theorem lookup_update (h : b.Tracks faults n) (hnd : (faults.map fun f => f.trigger.address).Nodup)
    {f : Fault} (hf : f ∈ faults) {m : List (ℕ × Fault)}
    (hm : ∀ a, m.lookup a = if a = f.trigger.address then
        some (f.setHitcounter (f.trigger.hitcounter - (n f.trigger.address + 1)))
      else b.faults.lookup a) (g : Fault) (hg : g ∈ faults) :
    m.lookup g.trigger.address = some (g.setHitcounter (g.trigger.hitcounter
      - Function.update n f.trigger.address (n f.trigger.address + 1) g.trigger.address)) := by
  rw [hm]
  by_cases haddr : g.trigger.address = f.trigger.address
  · obtain rfl := Keyed.eq_of_key hnd hg hf haddr
    rw [if_pos rfl, Function.update_self]
  · rw [if_neg haddr, Function.update_of_ne haddr]
    exact h.lookup g hg

/-- One execution of the trigger address of `f`. -/
theorem step_some (h : b.Tracks faults n) (hnd : (faults.map fun f => f.trigger.address).Nodup)
    {f : Fault} (hf : f ∈ faults) (hstep : b.Step (some f.trigger.address) b') :
    b'.Tracks faults (Function.update n f.trigger.address (n f.trigger.address + 1)) := by
  have hlook := h.lookup f hf
  generalize haddr : f.trigger.address = a at hstep
  cases hstep with
  | spent _ g hg hzero =>
    rw [← haddr, hlook] at hg
    obtain rfl := Option.some.inj hg
    have hzero : f.trigger.hitcounter - n f.trigger.address = 0 := hzero
    refine ⟨?_, ?_, h.live⟩
    · rw [← haddr]
      refine h.lookup_update hnd hf fun a => ?_
      split
      · next ha => rw [ha, hlook]; congr 2; omega
      · rfl
    · rw [← haddr, List.filter_congr (due_update hnd hf (by omega))]
      exact h.injected
  | countDown _ g hg hhit =>
    rw [← haddr, hlook] at hg
    obtain rfl := Option.some.inj hg
    have hhit : 1 < f.trigger.hitcounter - n f.trigger.address := hhit
    refine ⟨?_, ?_, h.live⟩
    · rw [← haddr]
      refine h.lookup_update hnd hf fun a => ?_
      rw [Book.countDown, lookup_insertKey]
      rfl
    · rw [← haddr, List.filter_congr (due_update hnd hf (by omega))]
      exact h.injected
  | inject _ g data hg hhit hinj hdata =>
    rw [← haddr, hlook] at hg
    obtain rfl := Option.some.inj hg
    have hhit : f.trigger.hitcounter - n f.trigger.address = 1 := hhit
    rw [← haddr]
    refine ⟨?_, ?_, fun e he => ?_⟩
    · refine h.lookup_update hnd hf fun a => ?_
      have hleft : f.trigger.hitcounter - (n f.trigger.address + 1) = 0 := by omega
      rw [Book.inject, lookup_insertKey, hleft]
      rfl
    · simp only [Book.inject, List.map_append, List.map_cons, List.map_nil]
      refine (h.injected.append_right _).trans ?_
      have hdue := (filter_due (n := n) hnd hf (by omega)).map fun g => g.setHitcounter 0
      rw [List.map_append] at hdue
      exact hdue.symm
    · rcases Book.mem_liveFaults_inject he with he | ⟨-, rfl⟩
      · exact h.live e he
      · exact ⟨f, hf, rfl, hdata⟩

end Book.Tracks

/-- A worker whose faults have different trigger addresses, `n` being the executions so far. -/
structure State.Tracks (faults : List Fault) (n : ℕ → ℕ) (s : State) : Prop where
  books : s.book.Tracks faults n
  faultHooks : s.faultHooks = faults.map fun f => f.trigger.address
  endHooks : ∀ a ∈ s.endHooks, (s.endpoints.lookup a).isSome
  sound : s.Sound

namespace State.Tracks

variable {env : Env} {faults : List Fault} {n : ℕ → ℕ} {s s' : State}

/-- The end hooks stay known where the end points stay. -/
theorem endHooks_of (h : s.Tracks faults n) (hhooks : s'.endHooks = s.endHooks)
    (hpoints : s'.endpoints = s.endpoints) : ∀ a ∈ s'.endHooks, (s'.endpoints.lookup a).isSome := by
  rw [hhooks, hpoints]
  exact h.endHooks

theorem congr (h : s.Tracks faults n) (hbook : s'.book = s.book) (hcontrol : s'.control = s.control) :
    s'.Tracks faults n :=
  ⟨hbook ▸ h.books, (congrArg Control.faultHooks hcontrol).trans h.faultHooks,
    h.endHooks_of (congrArg Control.endHooks hcontrol) (congrArg Control.endpoints hcontrol),
    h.sound.congr hbook hcontrol⟩

theorem live_known (h : s.Tracks faults n) {e : LiveFault × ℕ} (he : e ∈ s.liveFaults) :
    ∃ f, s.faults.lookup e.1.1 = some f ∧ (f.type = .register → e.1.2 < 2 ^ 64) := by
  obtain ⟨f, hf, haddr, hdata⟩ := h.books.live e he
  have hlook := h.books.lookup f hf
  rw [haddr] at hlook
  exact ⟨_, hlook, hdata⟩

theorem singleStepHookCb_isSome (h : s.Tracks faults n) (env : Env) (address : ℕ) :
    (s.singleStepHookCb env address).isSome :=
  State.singleStepHookCb_isSome (fun _ he => h.live_known he) address

theorem runSingleStep (h : s.Tracks faults n) (env : Env) (address : ℕ) :
    ∃ s', s.runSingleStep env address = some s' ∧ s'.Tracks faults n := by
  unfold State.runSingleStep
  split
  · next hon =>
    obtain ⟨s', hs'⟩ := Option.isSome_iff_exists.mp (h.singleStepHookCb_isSome env address)
    obtain ⟨hstep, hcontrol⟩ := singleStepHookCb_step hs'
    exact ⟨s', hs', h.books.step_none hstep,
      (congrArg Control.faultHooks hcontrol).trans h.faultHooks,
      h.endHooks_of (congrArg Control.endHooks hcontrol) (congrArg Control.endpoints hcontrol),
      .of_none (h.sound.once.step hstep)
        ((congrArg Control.reenterAddress hcontrol).trans (h.sound.idle hon.1))⟩
  · exact ⟨s, rfl, h⟩

theorem endHookCb_isSome (h : s.Tracks faults n) (env : Env) {address : ℕ} (hmem : address ∈ s.endHooks)
    (firstEndpoint : ℕ) (memorydump : List (ℕ × ℕ)) :
    (s.endHookCb env address firstEndpoint memorydump).isSome :=
  State.endHookCb_isSome (fun _ he => h.live_known he) (h.endHooks address hmem) firstEndpoint memorydump

theorem endHookCb (h : s.Tracks faults n) (env : Env) (hrun : s.stopped = false) {address : ℕ}
    (hmem : address ∈ s.endHooks) (firstEndpoint : ℕ) (memorydump : List (ℕ × ℕ)) :
    ∃ s', s.endHookCb env address firstEndpoint memorydump = some s' ∧ s'.Tracks faults n ∧
      s'.endHooks = s.endHooks := by
  obtain ⟨s', hs'⟩ := Option.isSome_iff_exists.mp
    (h.endHookCb_isSome env hmem firstEndpoint memorydump)
  obtain ⟨hstep, hcontrol⟩ := endHookCb_step hs'
  have hhooks : s'.endHooks = s.endHooks := by
    rcases hcontrol with ⟨m, hc⟩ | hc <;> exact congrArg Control.endHooks hc
  refine ⟨s', hs', ⟨h.books.step_none hstep, ?_, fun a ha => ?_, h.sound.endHookCb hrun hs'⟩,
    hhooks⟩
  · refine Eq.trans ?_ h.faultHooks
    rcases hcontrol with ⟨m, hc⟩ | hc <;> exact congrArg Control.faultHooks hc
  · rcases hcontrol with ⟨m, hc⟩ | hc
    · have hpoints : s'.endpoints = insertKey s.endpoints address m := congrArg Control.endpoints hc
      rw [hpoints, lookup_insertKey]
      split
      · rfl
      · exact h.endHooks a (hhooks ▸ ha)
    · have hpoints : s'.endpoints = s.endpoints := congrArg Control.endpoints hc
      exact h.endHooks_of hhooks hpoints a ha

/-- The fault hook of an executed trigger. -/
theorem faultHookCb (h : s.Tracks faults n) (env : Env) (hrun : s.stopped = false)
    (hnd : (faults.map fun f => f.trigger.address).Nodup) {f : Fault} (hf : f ∈ faults)
    (hinj : f.Injectable) : ∃ s', s.faultHookCb env f.trigger.address = some s' ∧
      s'.Tracks faults (Function.update n f.trigger.address (n f.trigger.address + 1)) := by
  have hsome : (s.faultHookCb env f.trigger.address).isSome :=
    faultHookCb_isSome (h.books.lookup f hf) hinj
  obtain ⟨s', hs'⟩ := Option.isSome_iff_exists.mp hsome
  obtain ⟨hstep, hcontrol⟩ := faultHookCb_step hs'
  refine ⟨s', hs', h.books.step_some hnd hf hstep, ?_, ?_, h.sound.faultHookCb hrun hs'⟩
  · refine Eq.trans ?_ h.faultHooks
    rcases hcontrol with hc | ⟨hc, -⟩ <;> exact congrArg Control.faultHooks hc
  · have hends : s'.endHooks = s.endHooks ∧ s'.endpoints = s.endpoints := by
      rcases hcontrol with hc | ⟨hc, -⟩ <;>
        exact ⟨congrArg Control.endHooks hc, congrArg Control.endpoints hc⟩
    exact h.endHooks_of hends.1 hends.2

/-- The fault hooks of one instruction: at most one, since no two faults share an address. -/
theorem runFaultHooks (h : s.Tracks faults n) (env : Env) (hrun : s.stopped = false)
    (hnd : (faults.map fun f => f.trigger.address).Nodup)
    (hinj : ∀ f ∈ faults, f.Injectable) (address : ℕ) : ∃ s', s.runFaultHooks env address = some s' ∧
      s'.Tracks faults (Function.update n address (n address + 1)) := by
  rw [State.runFaultHooks, runHooks, h.faultHooks, filter_address hnd]
  split
  · next hmem =>
    obtain ⟨f, hf, rfl⟩ := List.mem_map.mp hmem
    obtain ⟨s', hs', htracks⟩ := h.faultHookCb env hrun hnd hf (hinj f hf)
    refine ⟨s', ?_, htracks⟩
    simp only [List.foldlM_cons, List.foldlM_nil, hrun, Bool.false_eq_true, if_false, hs',
      Option.bind_eq_bind, Option.bind_some, Option.pure_def]
  · next hmem =>
    refine ⟨s, rfl, h.books.congr fun f hf => ?_, h.faultHooks, h.endHooks, h.sound⟩
    have hne : f.trigger.address ≠ address := by
      rintro rfl
      exact hmem (List.mem_map_of_mem hf)
    rw [Function.update_of_ne hne]

end State.Tracks

namespace Emulation

variable {env : Env} {m : Emulation} {s : State} {faults : List Fault} {n : ℕ → ℕ}

theorem runEndHooks_tracks (env : Env) (h : s.Tracks faults n) (address : ℕ) :
    ∃ s', m.runEndHooks env s address = some s' ∧ s'.Tracks faults n := by
  unfold runEndHooks State.runHooks
  by_cases hmem : address ∈ s.endHooks
  · obtain ⟨s', hs', htracks, -⟩ := State.foldlM_hook_total
      (I := fun s' => s'.Tracks faults n ∧ s'.endHooks = s.endHooks)
      (fun s₁ h₁ hrun => by
        obtain ⟨s₂, h₂, htracks, hhooks⟩ := h₁.1.endHookCb env hrun
          (by rw [h₁.2]; exact hmem) m.firstEndpoint m.memorydump
        exact ⟨s₂, h₂, htracks, hhooks.trans h₁.2⟩)
      (s.endHooks.filter (· = address)) ⟨h, rfl⟩
    exact ⟨s', hs', htracks⟩
  · have hnone : s.endHooks.filter (· = address) = [] :=
      List.filter_eq_nil_iff.mpr fun a ha he => hmem (of_decide_eq_true he ▸ ha)
    rw [hnone]
    exact ⟨s, rfl, h⟩

/-- The hooks of one instruction. -/
theorem enter_tracks (env : Env) (hnd : (faults.map fun f => f.trigger.address).Nodup)
    (hinj : ∀ f ∈ faults, f.Injectable) (h : s.Tracks faults n) (address : ℕ) :
    ∃ s' past, m.enter env s address = some (s', past) ∧
      s'.Tracks faults (if past then Function.update n address (n address + 1) else n) := by
  obtain ⟨s₁, h₁, ht₁⟩ := runEndHooks_tracks (m := m) env h address
  cases hrun : s₁.stopped with
  | true =>
    refine ⟨s₁, false, ?_, ht₁⟩
    simp only [enter, h₁, Option.bind_eq_bind, Option.bind_some, hrun, if_true, Option.pure_def]
  | false =>
    obtain ⟨s₂, h₂, ht₂⟩ := ht₁.runFaultHooks env hrun hnd hinj address
    obtain ⟨s₃, h₃, ht₃⟩ := ht₂.runSingleStep env address
    refine ⟨s₃, true, ?_, ht₃⟩
    simp only [enter, h₁, Option.bind_eq_bind, Option.bind_some, hrun, Bool.false_eq_true, if_false,
      h₂, h₃, Option.pure_def]

theorem step_tracks (hnd : (faults.map fun f => f.trigger.address).Nodup)
    (hinj : ∀ f ∈ faults, f.Injectable) (h : m.state.Tracks faults m.executions) (e : Activity) :
    ∃ m', m.step env e = some m' ∧ m'.state.Tracks faults m'.executions := by
  cases e with
  | guest cpu =>
    simp only [step]
    split
    · exact ⟨m, rfl, h⟩
    · exact ⟨_, rfl, h.congr rfl rfl⟩
  | block address size =>
    simp only [step]
    split
    · exact ⟨m, rfl, h⟩
    · exact ⟨_, rfl, h.congr (State.blockHookCb_book ..) (State.blockHookCb_control ..)⟩
  | insn address =>
    simp only [step]
    split
    · exact ⟨m, rfl, h⟩
    · obtain ⟨s', past, henter, htracks⟩ := enter_tracks (m := m) env hnd hinj h address
      refine ⟨_, by rw [henter]; rfl, ?_⟩
      cases past with
      | false => exact htracks
      | true =>
        have hcount : executions ⟨s', m.firstEndpoint, m.memorydump, m.begun ++ [address]⟩
            = Function.update m.executions address (m.executions address + 1) := by
          funext a
          by_cases ha : a = address
          · simp [ha, executions]
          · simp [ha, executions, Ne.symm ha]
        rw [← hcount] at htracks
        exact htracks
  | reenter size =>
    simp only [step]
    split
    · exact ⟨m, rfl, h⟩
    · next address hpending =>
      -- the trigger is spent, so its hooks do not count
      obtain ⟨g, hlook, hzero⟩ := h.sound.spent address hpending
      have hspent : ∀ f ∈ faults, f.trigger.address = address →
          f.trigger.hitcounter ≤ m.executions f.trigger.address := by
        rintro f hf rfl
        have hleft := h.books.lookup f hf
        rw [show m.state.book.faults = m.state.faults from rfl, hlook] at hleft
        rw [Option.some.inj hleft] at hzero
        exact Nat.sub_eq_zero_iff_le.mp hzero
      have hcleared : State.Tracks faults m.executions
          { m.state with reenterAddress := none, stopped := false } :=
        ⟨h.books, h.faultHooks, h.endHooks, .of_none h.sound.once rfl⟩
      obtain ⟨s', past, henter, htracks⟩ := enter_tracks (m := m) env hnd hinj
        (hcleared.congr (State.blockHookCb_book address size) (State.blockHookCb_control address size))
        address
      refine ⟨_, by rw [henter]; rfl, htracks.books.congr fun f hf => ?_, htracks.faultHooks,
        htracks.endHooks, htracks.sound⟩
      cases past with
      | false => rfl
      | true =>
        by_cases ha : f.trigger.address = address
        · have := hspent f hf ha
          rw [if_pos rfl, ha, Function.update_self, ← ha]
          exact (min_eq_left this).trans (min_eq_left (by omega)).symm
        · rw [if_pos rfl, Function.update_of_ne ha]
          rfl

/-! ### The result -/

/-- The faults injected so far are those whose trigger was executed `hitcounter` times, each
    once. -/
def InjectedOnTime (faults : List Fault) (m : Emulation) : Prop :=
  (m.state.injected.map Injection.fault).Perm
    ((faults.filter fun f => f.trigger.hitcounter ≤ m.executions f.trigger.address).map
      fun f => f.setHitcounter 0)

/-- No run of the faults fails, and in every state of every run they were injected on time. -/
def InjectsEach (env : Env) (faults : List Fault) : Prop :=
  ∀ cpu ends memorydump m, start cpu ends memorydump faults = some m → ∀ es,
    (Run.run (step env) m es).isSome ∧ Run.Always (step env) (InjectedOnTime faults) m es

/-- A run without end points in which an address is executed `n` times. -/
theorem InjectsEach.exists_run (h : InjectsEach env faults) (hne : faults ≠ []) (address n : ℕ) :
    ∃ m : Emulation, m.state.Sound ∧ InjectedOnTime faults m ∧ n ≤ m.executions address := by
  obtain ⟨f, fs, rfl⟩ := List.exists_cons_of_ne_nil hne
  have hstart : start zeroCpu [] [] (f :: fs) = some _ := rfl
  have hall := h _ _ _ _ hstart
  have hcontrol : (State.initializeHooks zeroCpu [] (f :: fs)).control
      = ⟨[], [], (f :: fs).map fun f => f.trigger.address, none, false⟩ := by
    rw [State.initializeHooks_eq]
    rfl
  have hstopped := congrArg Control.stopped hcontrol
  obtain ⟨es, m', hrun, hm', -, hn⟩ := exists_executions
    ⟨start_sound hstart, congrArg Control.endHooks hcontrol, fun hstop => by
      rw [show (State.initializeHooks zeroCpu [] (f :: fs)).stopped = false from
        hstopped] at hstop
      cases hstop⟩ hstopped (fun es => (hall es).1) address n
  exact ⟨m', hm'.sound, (hall es).2.last hrun, hn⟩

/-- The fault is injected in some run, so it is injectable. -/
theorem injectable_of_injectsEach (h : InjectsEach env faults) {f : Fault} (hf : f ∈ faults) :
    f.Injectable := by
  obtain ⟨m, hsound, hperm, hn⟩ := h.exists_run (List.ne_nil_of_mem hf) f.trigger.address
    f.trigger.hitcounter
  have hmem : f.setHitcounter 0 ∈ m.state.injected.map Injection.fault :=
    hperm.mem_iff.mpr (List.mem_map_of_mem (List.mem_filter.mpr ⟨hf, decide_eq_true hn⟩))
  obtain ⟨i, hi, hfault⟩ := List.mem_map.mp hmem
  have hinj := hsound.once.injectable i hi
  rw [hfault] at hinj
  exact hinj

/-- In some run all faults with an address are injected, so there is one at most. -/
theorem nodup_of_injectsEach (h : InjectsEach env faults) :
    (faults.map fun f => f.trigger.address).Nodup := by
  by_cases hne : faults = []
  · simp [hne]
  refine List.nodup_iff_count_le_one.mpr fun a => ?_
  obtain ⟨m, hsound, hperm, hn⟩ := h.exists_run hne a (faults.map fun f => f.trigger.hitcounter).sum
  have hdue : ∀ f ∈ faults, f.trigger.address = a →
      f.trigger.hitcounter ≤ m.executions f.trigger.address := by
    rintro f hf rfl
    have hle : f.trigger.hitcounter ≤ (faults.map fun f => f.trigger.hitcounter).sum :=
      List.single_le_sum (fun _ _ => Nat.zero_le _) _ (List.mem_map_of_mem hf)
    omega
  have hnodup := hsound.once.nodup
  have haddr := (hperm.map fun f : Fault => f.trigger.address)
  rw [List.map_map, List.map_map] at haddr
  have hcount := List.nodup_iff_count_le_one.mp (haddr.nodup_iff.mp hnodup) a
  refine le_trans (le_of_eq ?_) hcount
  rw [List.count_eq_countP, List.countP_map, List.count_eq_countP, List.countP_map,
    List.countP_filter]
  refine List.countP_congr fun f hf => ?_
  simp only [Function.comp_apply, beq_iff_eq, Bool.and_eq_true, decide_eq_true_eq]
  exact ⟨fun he => ⟨he, hdue f hf he⟩, fun he => he.1⟩

theorem start_tracks (hnd : (faults.map fun f => f.trigger.address).Nodup)
    (hhits : ∀ f ∈ faults, 1 ≤ f.trigger.hitcounter) {cpu : Cpu} {ends memorydump : List (ℕ × ℕ)}
    (h : start cpu ends memorydump faults = some m) : m.state.Tracks faults m.executions := by
  have hsound := start_sound h
  cases faults with
  | nil => cases h
  | cons f fs =>
    obtain rfl := Option.some.inj h
    refine ⟨⟨fun g hg => ?_, ?_, ?_⟩, ?_, fun a ha => ?_, hsound⟩
    · have hfind := State.lookup_initializeHooks cpu ends (f :: fs) g.trigger.address
      rw [Keyed.find?_key (by rw [List.map_reverse]; exact List.nodup_reverse.mpr hnd)
        (List.mem_reverse.mpr hg)] at hfind
      exact hfind
    · have hnone : (f :: fs).filter (fun g => decide (g.trigger.hitcounter ≤ 0)) = [] :=
        List.filter_eq_nil_iff.mpr fun g hg hle => by
          have := hhits g hg
          have := of_decide_eq_true hle
          omega
      have hinjected : (State.initializeHooks cpu ends (f :: fs)).injected = [] := by
        rw [State.initializeHooks_eq]; rfl
      exact .of_eq ((congrArg (List.map Injection.fault) hinjected).trans
        (congrArg (List.map fun g : Fault => g.setHitcounter 0) hnone).symm)
    · rw [State.initializeHooks_eq]
      nofun
    · rw [State.initializeHooks_eq]
    · rw [State.initializeHooks_eq] at ha ⊢
      exact State.isSome_lookup_endpoints ends ha

/-- The worker injects every fault of an experiment once and on time, in every run, iff their
    trigger addresses are different and every fault is injectable. -/
theorem injectsEach_iff (hhits : ∀ f ∈ faults, 1 ≤ f.trigger.hitcounter) :
    InjectsEach env faults ↔
      (faults.map fun f => f.trigger.address).Nodup ∧ ∀ f ∈ faults, f.Injectable := by
  constructor
  · intro h
    exact ⟨nodup_of_injectsEach h, fun f hf => injectable_of_injectsEach h hf⟩
  · rintro ⟨hnd, hinj⟩ cpu ends memorydump m hstart es
    exact Run.run_isSome (I := fun m => m.state.Tracks faults m.executions)
      (fun m h => h.books.injected) (fun m e h => step_tracks hnd hinj h e) es
      (start_tracks hnd hhits hstart)

theorem injectsEach_iff_twoFaults :
    InjectsEach Env.plain [temporaryFault 0x104 2, temporaryFault 0x108 0] ↔
      ([temporaryFault 0x104 2, temporaryFault 0x108 0].map fun f => f.trigger.address).Nodup ∧
        ∀ f ∈ [temporaryFault 0x104 2, temporaryFault 0x108 0], f.Injectable :=
  injectsEach_iff (by decide)

/-- The first fault is lost. -/
theorem sharedTrigger_not_injectsEach :
    ¬ InjectsEach Env.plain [temporaryFault 0x104 2, temporaryFault 0x104 9] := by
  intro h
  have hperm := (h zeroCpu [] [] _ rfl [.insn 0x104]).2.last rfl
  have hlength : [(temporaryFault 0x104 9).setHitcounter 0].length
      = ([temporaryFault 0x104 2, temporaryFault 0x104 9].map fun f => f.setHitcounter 0).length :=
    hperm.length_eq
  exact absurd hlength (by decide)

end Emulation

end Archie.Worker
