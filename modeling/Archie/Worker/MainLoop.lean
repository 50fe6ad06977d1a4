import Archie.Worker.LookAhead

/-! The main loop of `run_unicorn`: one call of `emu_start`, and another one for each re-entry that a
    fault hook has asked for.

    Every call gets all of `max_instruction_count`. What Unicorn does in a call is left open: it may
    call the hooks of any block and of any instruction, as long as the count is not used up and no
    hook has asked it to stop.

        emu_start(start) ──▶ reenter_address? ── None ──▶ done
                                 ▲      │
                                 └──────┘ emu_start(address)                                   -/

namespace Archie.Worker

/-- What Unicorn does in a call of `emu_start`. -/
inductive UnicornEvent where
  | guest (cpu : Cpu)
  | block (address size : ℕ)
  | insn (address : ℕ)

inductive LoopEvent where
  | unicorn (e : UnicornEvent)
  | reenter

structure MainLoop where
  emulation : Emulation
  maxInstructionCount : ℕ
  /-- what is left of the count of the current call -/
  left : ℕ
  /-- the instructions executed and the addresses re-entered at, in order -/
  executed : List ℕ
  reentered : List ℕ

namespace MainLoop

variable (env : Env) (r : MainLoop)

/-- `run_unicorn` up to its first call. -/
def start (cpu : Cpu) (ends memorydump : List (ℕ × ℕ)) (faults : List Fault)
    (maxInstructionCount : ℕ) : Option MainLoop :=
  (Emulation.start cpu ends memorydump faults).map fun m =>
    ⟨m, maxInstructionCount, maxInstructionCount, [], []⟩

/-- An instruction is executed unless one of its hooks has asked to stop. -/
def execute (address : ℕ) (m : Emulation) : MainLoop :=
  if m.state.stopped then { r with emulation := m }
  else { r with emulation := m, left := r.left - 1, executed := r.executed ++ [address] }

def unicorn : UnicornEvent → Option MainLoop
  | .guest cpu => (r.emulation.step env (.guest cpu)).map fun m => { r with emulation := m }
  | .block address size =>
    (r.emulation.step env (.block address size)).map fun m => { r with emulation := m }
  | .insn address =>
    if r.left = 0 then some r
    else (r.emulation.step env (.insn address)).map (r.execute address)

/-- The next call of `emu_start`, at the address a hook has asked for. -/
def reenter (address : ℕ) : MainLoop :=
  { r with
    emulation := { r.emulation with
      state := { r.emulation.state with reenterAddress := none, stopped := false } }
    left := r.maxInstructionCount
    reentered := r.reentered ++ [address] }

def step : LoopEvent → Option MainLoop
  | .unicorn e => r.unicorn env e
  | .reenter => some (r.emulation.state.reenterAddress.elim r r.reenter)

/-- How the main loop ends: with the logs, with a panic in a hook, or not within the given number of
    calls. -/
inductive Outcome where
  | finished (r : MainLoop)
  | panicked
  | unfinished

/-- What comes after a call that has returned. -/
def afterCall (next : MainLoop → Outcome) (r : MainLoop) : Outcome :=
  r.emulation.state.reenterAddress.elim (.finished r) fun address => next (r.reenter address)

/-- The loop, `calls n` being what Unicorn does in the call after `n` re-entries. -/
def loop (calls : ℕ → List UnicornEvent) : ℕ → MainLoop → Outcome
  | 0, _ => .unfinished
  | fuel + 1, r => (Run.run (step env) r ((calls r.reentered.length).map .unicorn)).elim .panicked
      (afterCall (loop calls fuel))

/-- `run_unicorn` with at most `fuel` calls of `emu_start`. -/
def runUnicorn (cpu : Cpu) (ends memorydump : List (ℕ × ℕ)) (faults : List Fault)
    (maxInstructionCount : ℕ) (calls : ℕ → List UnicornEvent) (fuel : ℕ) : Outcome :=
  (start cpu ends memorydump faults maxInstructionCount).elim .panicked (loop env calls fuel)

end MainLoop

/-! ### A request for re-entry -/

namespace State

variable {env : Env} {s s' : State} {address : ℕ}

/-- The hook of a spent fault returns early. -/
theorem faultHookCb_spent {f : Fault} (hlook : s.faults.lookup address = some f)
    (hzero : f.trigger.hitcounter = 0) : s.faultHookCb env address = some s := by
  simp only [faultHookCb, hlook, Option.bind_eq_bind, Option.bind_some, if_pos hzero, Option.pure_def]

/-- A re-entry is asked for only by the hit that takes a hitcounter from 1 to 0. -/
theorem faultHookCb_request (h : s.faultHookCb env address = some s')
    (hrequest : s'.reenterAddress ≠ s.reenterAddress) : s'.reenterAddress = some address ∧
      (∃ f, s.faults.lookup address = some f ∧ f.trigger.hitcounter = 1) ∧
      ∃ f, s'.faults.lookup address = some f ∧ f.trigger.hitcounter = 0 := by
  obtain ⟨-, hcontrol⟩ := faultHookCb_step h
  rcases hcontrol with hsame | ⟨hcontrol, hspent⟩
  · exact absurd (congrArg Control.reenterAddress hsame) hrequest
  · refine ⟨congrArg Control.reenterAddress hcontrol, ?_, hspent⟩
    obtain ⟨f, hlook⟩ := faultHookCb_known h
    rcases faultHookCb_cases hlook h with ⟨-, rfl⟩ | ⟨-, rfl⟩ | ⟨hone, -⟩
    · exact absurd rfl hrequest
    · exact absurd rfl hrequest
    · exact ⟨f, hlook, hone⟩

/-- Spent faults stay spent. -/
theorem faultHookCb_keeps_spent (h : s.faultHookCb env address = some s') {a : ℕ}
    (hspent : ∃ f, s.faults.lookup a = some f ∧ f.trigger.hitcounter = 0) :
    ∃ f, s'.faults.lookup a = some f ∧ f.trigger.hitcounter = 0 := by
  obtain ⟨f, hlook, hzero⟩ := hspent
  rcases eq_or_ne a address with rfl | hne
  · rw [faultHookCb_spent hlook hzero] at h
    obtain rfl := Option.some.inj h
    exact ⟨f, hlook, hzero⟩
  · exact ⟨f, ((faultHookCb_step h).1.fault_frame.2.1 a hne).trans hlook, hzero⟩

/-! ### Spent triggers -/

/-- Emulation has re-entered at different triggers, which are spent, and none of them asks again. -/
structure Reenters (triggers reentered : List ℕ) (s : State) : Prop where
  sound : s.Sound
  known : ∀ a f, s.faults.lookup a = some f → a ∈ triggers
  spent : ∀ a ∈ reentered, ∃ f, s.faults.lookup a = some f ∧ f.trigger.hitcounter = 0
  fresh : ∀ a, s.reenterAddress = some a → a ∉ reentered
  nodup : reentered.Nodup

namespace Reenters

variable {triggers reentered : List ℕ}

/-- Hooks that change neither the faults nor the request keep this. -/
theorem congr (h : s.Reenters triggers reentered) (hs : s'.Sound) (hfaults : s'.faults = s.faults)
    (hreenter : s'.reenterAddress = s.reenterAddress) : s'.Reenters triggers reentered where
  sound := hs
  known := hfaults ▸ h.known
  spent := hfaults ▸ h.spent
  fresh := hreenter ▸ h.fresh
  nodup := h.nodup

theorem endHookCb {firstEndpoint : ℕ} {memorydump : List (ℕ × ℕ)} (h : s.Reenters triggers reentered)
    (hrun : s.stopped = false) (hs : s.endHookCb env address firstEndpoint memorydump = some s') :
    s'.Reenters triggers reentered := by
  obtain ⟨hstep, hcontrol⟩ := endHookCb_step hs
  refine h.congr (h.sound.endHookCb hrun hs) hstep.frame.1 ?_
  rcases hcontrol with ⟨n, hc⟩ | hc
  · exact congrArg Control.reenterAddress hc
  · exact congrArg Control.reenterAddress hc

theorem faultHookCb (h : s.Reenters triggers reentered) (hrun : s.stopped = false)
    (hs : s.faultHookCb env address = some s') : s'.Reenters triggers reentered := by
  obtain ⟨hlookup, -⟩ := (faultHookCb_step hs).1.fault_frame.2
  refine ⟨h.sound.faultHookCb hrun hs, fun a f hf => ?_, fun a ha => ?_, fun a ha => ?_, h.nodup⟩
  · rcases eq_or_ne a address with rfl | hne
    · obtain ⟨g, hg⟩ := faultHookCb_known hs
      exact h.known a g hg
    · exact h.known a f ((hlookup a hne).symm.trans hf)
  · exact faultHookCb_keeps_spent hs (h.spent a ha)
  · by_cases hrequest : s'.reenterAddress = s.reenterAddress
    · exact h.fresh a (hrequest ▸ ha)
    · -- the trigger had a hit left, those re-entered at have none
      obtain ⟨hat, ⟨f, hlook, hone⟩, -⟩ := faultHookCb_request hs hrequest
      obtain rfl : address = a := Option.some.inj (hat.symm.trans ha)
      intro hmem
      obtain ⟨g, hg, hzero⟩ := h.spent address hmem
      rw [hlook] at hg
      rw [← Option.some.inj hg, hone] at hzero
      cases hzero

theorem singleStepHookCb (h : s.Reenters triggers reentered) (hrun : s.stopped = false)
    (hs : s.singleStepHookCb env address = some s') : s'.Reenters triggers reentered := by
  obtain ⟨hstep, hcontrol⟩ := singleStepHookCb_step hs
  exact h.congr (h.sound.singleStepHookCb hrun hs) hstep.frame.1
    (congrArg Control.reenterAddress hcontrol)

theorem blockHookCb (h : s.Reenters triggers reentered) (address size : ℕ) :
    (s.blockHookCb address size).Reenters triggers reentered := by
  have hbook := blockHookCb_book (s := s) address size
  have hcontrol := blockHookCb_control (s := s) address size
  exact h.congr (h.sound.congr hbook hcontrol) (congrArg Book.faults hbook)
    (congrArg Control.reenterAddress hcontrol)

theorem hookInvariant : HookInvariant env (State.Reenters triggers reentered) where
  guest _ _ h := h.congr (h.sound.congr rfl rfl) rfl rfl
  block _ address size h := h.blockHookCb address size
  endHook _ _ _ _ _ h := h.endHookCb
  faultHook _ _ _ h := h.faultHookCb
  singleStep _ _ _ h := h.singleStepHookCb

/-- The main loop re-enters at the pending trigger. -/
theorem reenter {a : ℕ} (h : s.Reenters triggers reentered) (hpending : s.reenterAddress = some a) :
    State.Reenters triggers (reentered ++ [a]) { s with reenterAddress := none, stopped := false } where
  sound := .of_none h.sound.once rfl
  known := h.known
  spent a' ha' := by
    rcases List.mem_append.mp ha' with ha' | ha'
    · exact h.spent a' ha'
    · rw [List.mem_singleton.mp ha']
      exact h.sound.spent a hpending
  fresh := nofun
  nodup := List.nodup_append.mpr ⟨h.nodup, List.nodup_singleton a, fun x hx y hy hxy =>
    h.fresh a hpending (List.mem_singleton.mp hy ▸ hxy ▸ hx)⟩

/-- Every re-entry was at a trigger. -/
theorem subset (h : s.Reenters triggers reentered) : reentered ⊆ triggers := by
  intro a ha
  obtain ⟨f, hlook, -⟩ := h.spent a ha
  exact h.known a f hlook

theorem length_le (h : s.Reenters triggers reentered) : reentered.length ≤ triggers.dedup.length :=
  (List.Nodup.subperm h.nodup fun _ ha => List.mem_dedup.mpr (h.subset ha)).length_le

end Reenters

end State

/-! ### The runs of the main loop -/

namespace MainLoop

variable {env : Env} {I : State → Prop} {r r' : MainLoop} {triggers : List ℕ}

theorem unicorn_reentered {e : UnicornEvent} (hstep : r.unicorn env e = some r') :
    r'.reentered = r.reentered := by
  cases e with
  | guest cpu =>
    obtain ⟨m, -, rfl⟩ := Option.map_eq_some_iff.mp hstep
    rfl
  | block address size =>
    obtain ⟨m, -, rfl⟩ := Option.map_eq_some_iff.mp hstep
    rfl
  | insn address =>
    simp only [MainLoop.unicorn] at hstep
    split at hstep
    · exact Option.some.inj hstep ▸ rfl
    · obtain ⟨m, -, rfl⟩ := Option.map_eq_some_iff.mp hstep
      rw [execute]
      split <;> rfl

/-- What no hook breaks holds after whatever Unicorn does. -/
theorem unicorn_inv {e : UnicornEvent} (h : HookInvariant env I) (hr : I r.emulation.state)
    (hstep : r.unicorn env e = some r') : I r'.emulation.state := by
  cases e with
  | guest cpu =>
    obtain ⟨m, hm, rfl⟩ := Option.map_eq_some_iff.mp hstep
    exact h.step hr (fun _ he => by cases he) hm
  | block address size =>
    obtain ⟨m, hm, rfl⟩ := Option.map_eq_some_iff.mp hstep
    exact h.step hr (fun _ he => by cases he) hm
  | insn address =>
    simp only [MainLoop.unicorn] at hstep
    split at hstep
    · exact Option.some.inj hstep ▸ hr
    · obtain ⟨m, hm, rfl⟩ := Option.map_eq_some_iff.mp hstep
      have hstate : I m.state := h.step hr (fun _ he => by cases he) hm
      rw [execute]
      split <;> exact hstate

/-- A call keeps what no hook breaks, and the re-entries so far. -/
theorem call_inv {es : List UnicornEvent} (h : HookInvariant env I) (hr : I r.emulation.state)
    (hrun : Run.run (MainLoop.step env) r (es.map .unicorn) = some r') :
    I r'.emulation.state ∧ r'.reentered = r.reentered := by
  refine Run.inv_run (I := fun r' => I r'.emulation.state ∧ r'.reentered = r.reentered)
    (C := fun _ e => ∃ u, e = LoopEvent.unicorn u) ?_ ⟨hr, rfl⟩ ?_ hrun
  · rintro s _ s' ⟨hs, hsame⟩ ⟨u, rfl⟩ hstep
    exact ⟨unicorn_inv h hs hstep, (unicorn_reentered hstep).trans hsame⟩
  · refine Run.everyStep_of_forall fun e he => ?_
    obtain ⟨u, -, rfl⟩ := List.mem_map.mp he
    exact ⟨u, rfl⟩

/-- What the re-entries of a run guarantee. -/
def Reenters (triggers : List ℕ) (r : MainLoop) : Prop :=
  r.emulation.state.Reenters triggers r.reentered

theorem Reenters.reenter {address : ℕ} (h : r.Reenters triggers)
    (hpending : r.emulation.state.reenterAddress = some address) :
    (r.reenter address).Reenters triggers := State.Reenters.reenter h hpending

theorem Reenters.step {e : LoopEvent} (h : r.Reenters triggers) (hstep : r.step env e = some r') :
    r'.Reenters triggers := by
  cases e with
  | unicorn e =>
    rw [Reenters, unicorn_reentered hstep]
    exact unicorn_inv State.Reenters.hookInvariant h hstep
  | reenter =>
    obtain rfl := Option.some.inj hstep
    cases hpending : r.emulation.state.reenterAddress with
    | none => exact h
    | some address => exact h.reenter hpending

theorem Reenters.call {es : List UnicornEvent} (h : r.Reenters triggers)
    (hrun : Run.run (MainLoop.step env) r (es.map .unicorn) = some r') :
    r'.Reenters triggers ∧ r'.reentered = r.reentered := by
  obtain ⟨hstate, hsame⟩ := call_inv State.Reenters.hookInvariant h hrun
  rw [Reenters, hsame]
  exact ⟨hstate, rfl⟩

/-- With a call for each trigger that is left, and one more, the loop ends. -/
theorem Reenters.loop {calls : ℕ → List UnicornEvent} {fuel : ℕ} (h : r.Reenters triggers)
    (hfuel : triggers.dedup.length < r.reentered.length + fuel) :
    loop env calls fuel r ≠ .unfinished := by
  induction fuel generalizing r with
  | zero =>
    have hle := State.Reenters.length_le h
    omega
  | succ fuel ih =>
    rw [MainLoop.loop]
    cases hrun : Run.run (MainLoop.step env) r ((calls r.reentered.length).map .unicorn) with
    | none => exact nofun
    | some r₁ =>
      obtain ⟨h₁, hsame⟩ := h.call hrun
      rw [Option.elim_some, afterCall]
      cases hpending : r₁.emulation.state.reenterAddress with
      | none => exact nofun
      | some address =>
        refine ih (h₁.reenter hpending) ?_
        rw [MainLoop.reenter, hsame, List.length_append, List.length_singleton]
        omega

theorem reenters_start {cpu : Cpu} {ends memorydump : List (ℕ × ℕ)} {faults : List Fault} {count : ℕ}
    (h : start cpu ends memorydump faults count = some r) :
    r.Reenters (faults.map fun f => f.trigger.address) := by
  obtain ⟨m, hm, rfl⟩ := Option.map_eq_some_iff.mp h
  have hsound := Emulation.start_sound hm
  cases faults with
  | nil => cases hm
  | cons f fs =>
    obtain rfl := Option.some.inj hm
    refine ⟨hsound, fun a g hlook => ?_, nofun, fun _ _ => List.not_mem_nil, List.nodup_nil⟩
    rw [State.lookup_initializeHooks] at hlook
    have haddress := List.find?_some hlook
    exact List.mem_map.mpr ⟨g, List.mem_reverse.mp (List.mem_of_find?_eq_some hlook),
      of_decide_eq_true haddress⟩

/-- The main loop ends after at most one re-entry for each trigger address: a hook asks for one only
    when it takes a hitcounter from 1 to 0, and leaves a spent fault alone. -/
theorem runUnicorn_terminates (env : Env) (cpu : Cpu) (ends memorydump : List (ℕ × ℕ))
    (faults : List Fault) (count : ℕ) :
    (∀ calls fuel, (faults.map fun f => f.trigger.address).dedup.length < fuel →
      runUnicorn env cpu ends memorydump faults count calls fuel ≠ .unfinished) ∧
    (∀ r, start cpu ends memorydump faults count = some r → ∀ es, Run.Always (step env)
      (fun r => r.reentered.Nodup ∧ r.reentered ⊆ faults.map fun f => f.trigger.address) r es) ∧
    (∀ (s s' : State) (address : ℕ), s.faultHookCb env address = some s' →
      s'.reenterAddress ≠ s.reenterAddress → s'.reenterAddress = some address ∧
        (∃ f, s.faults.lookup address = some f ∧ f.trigger.hitcounter = 1) ∧
        ∃ f, s'.faults.lookup address = some f ∧ f.trigger.hitcounter = 0) ∧
    ∀ (s : State) (address : ℕ) (f : Fault), s.faults.lookup address = some f →
      f.trigger.hitcounter = 0 → s.faultHookCb env address = some s := by
  refine ⟨fun calls fuel hfuel => ?_, fun r hstart es => ?_, fun s s' address => ?_,
    fun s address f => State.faultHookCb_spent⟩
  · rw [runUnicorn]
    cases hstart : start cpu ends memorydump faults count with
    | none => exact nofun
    | some r =>
      have hnone : r.reentered = [] := by
        obtain ⟨m, -, rfl⟩ := Option.map_eq_some_iff.mp hstart
        rfl
      refine (reenters_start hstart).loop ?_
      rw [hnone, List.length_nil, Nat.zero_add]
      exact hfuel
  · exact Run.always_of_inv (I := fun r => r.Reenters (faults.map fun f => f.trigger.address))
      (fun _ h => ⟨h.nodup, h.subset⟩) (fun _ _ _ h => h.step) es (reenters_start hstart)
  · exact State.faultHookCb_request

/-- A fault in the code behind its trigger. -/
def codeFault : Fault := ⟨⟨0x104, 1⟩, 0x108, .instruction, .set1, 1, 0, 4⟩

/-- The worker at the trigger of this fault, in its TB. -/
def codeFaultState : State :=
  (State.initializeHooks zeroCpu [] [codeFault]).blockHookCb 0x100 16

theorem runUnicorn_terminates_codeFault :
    runUnicorn Env.plain zeroCpu [] [] [codeFault] 9
      (fun _ => [.block 0x100 16, .insn 0x104, .insn 0x108]) 2 ≠ .unfinished ∧
    (∃ r, start zeroCpu [] [] [codeFault] 9 = some r ∧ Run.Always (step Env.plain)
      (fun r => r.reentered.Nodup ∧ r.reentered ⊆ [0x104]) r
        [.unicorn (.block 0x100 16), .unicorn (.insn 0x104), .reenter, .unicorn (.insn 0x104)]) ∧
    (∃ s', codeFaultState.faultHookCb Env.plain 0x104 = some s' ∧ s'.reenterAddress = some 0x104 ∧
      s'.faultHookCb Env.plain 0x104 = some s') := by
  obtain ⟨hends, hruns, hrequest, hspent⟩ :=
    runUnicorn_terminates Env.plain zeroCpu [] [] [codeFault] 9
  refine ⟨hends _ 2 (by decide), ⟨_, rfl, hruns _ rfl _⟩, ?_⟩
  obtain ⟨hat, -, f, hlook, hzero⟩ := hrequest codeFaultState _ 0x104 rfl (by decide)
  exact ⟨_, rfl, hat, hspent _ 0x104 f hlook hzero⟩

end MainLoop

end Archie.Worker
