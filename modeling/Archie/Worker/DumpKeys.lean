import Archie.Worker.FaultDumps
import Archie.Worker.MainLoop

/-! The memory dumps of a run of the Unicorn worker sit in a map, so no two of them have one address.

    What no hook breaks holds of every run:

        hooks of an instruction ──▶ a call of emu_start ──▶ the main loop -/

namespace Archie.Worker

/-! ### What holds at the end of a run -/

namespace HookInvariant

open MainLoop

variable {env : Env} {I : State → Prop} {r r' : MainLoop}

theorem loop {calls : ℕ → List UnicornEvent} {fuel : ℕ} (h : HookInvariant env I)
    (hreenter : ∀ s, I s → I { s with reenterAddress := none, stopped := false })
    (hr : I r.emulation.state) (hloop : MainLoop.loop env calls fuel r = .finished r') :
    I r'.emulation.state := by
  induction fuel generalizing r with
  | zero => cases hloop
  | succ fuel ih =>
    rw [MainLoop.loop] at hloop
    cases hrun : Run.run (MainLoop.step env) r ((calls r.reentered.length).map .unicorn) with
    | none =>
      rw [hrun] at hloop
      cases hloop
    | some r₁ =>
      have hr₁ := (MainLoop.call_inv h hr hrun).1
      rw [hrun, Option.elim_some, afterCall] at hloop
      cases hpending : r₁.emulation.state.reenterAddress with
      | none =>
        rw [hpending] at hloop
        cases hloop
        exact hr₁
      | some address =>
        rw [hpending, Option.elim_some] at hloop
        exact ih (r := r₁.reenter address) (hreenter _ hr₁) hloop

/-- What holds when the hooks are installed and no hook breaks, holds at the end. -/
theorem runUnicorn {cpu : Cpu} {ends memorydump : List (ℕ × ℕ)} {faults : List Fault} {count fuel : ℕ}
    {calls : ℕ → List UnicornEvent} (h : HookInvariant env I)
    (hreenter : ∀ s, I s → I { s with reenterAddress := none, stopped := false })
    (hstart : I (State.initializeHooks cpu ends faults))
    (hrun : MainLoop.runUnicorn env cpu ends memorydump faults count calls fuel = .finished r) :
    I r.emulation.state := by
  rw [MainLoop.runUnicorn] at hrun
  cases faults with
  | nil => cases hrun
  | cons f fs => exact h.loop hreenter hstart hrun

end HookInvariant

/-! ### The keys of the dumps -/

namespace State

variable {env : Env} {s s' : State} {address : ℕ}

/-- No two dumps have one address. -/
def DistinctDumps (s : State) : Prop := (s.memdumps.map Prod.fst).Nodup

theorem nodup_insertKey {α : Type} {map : List (ℕ × α)} (h : (map.map Prod.fst).Nodup) (k : ℕ) (v : α) :
    ((insertKey map k v).map Prod.fst).Nodup := by
  rw [insertKey, List.map_cons, List.nodup_cons]
  constructor
  · intro hk
    obtain ⟨e, he, hek⟩ := List.mem_map.mp hk
    exact absurd hek (of_decide_eq_true (List.mem_filter.mp he).2)
  · exact h.sublist (List.filter_sublist.map _)

theorem DistinctDumps.congr (h : s.DistinctDumps) (hm : s'.memdumps = s.memdumps) : s'.DistinctDumps := by
  rw [DistinctDumps, hm]
  exact h

theorem DistinctDumps.dumpMemory (h : s.DistinctDumps) (address size : ℕ) :
    (s.dumpMemory address size).DistinctDumps := by
  unfold State.dumpMemory
  split <;> exact nodup_insertKey h _ _

theorem DistinctDumps.foldl_dumpMemory (h : s.DistinctDumps) (memorydump : List (ℕ × ℕ)) :
    (memorydump.foldl (fun s d => s.dumpMemory d.1 d.2) s).DistinctDumps := by
  induction memorydump generalizing s with
  | nil => exact h
  | cons d ds ih => exact ih (h.dumpMemory d.1 d.2)

theorem DistinctDumps.singleStepHookCb (h : s.DistinctDumps)
    (hs : s.singleStepHookCb env address = some s') : s'.DistinctDumps := by
  simp only [State.singleStepHookCb, Option.bind_eq_bind, Option.bind_eq_some_iff, Option.pure_def] at hs
  obtain ⟨⟨s₁, undone⟩, hundo, hs⟩ := hs
  obtain rfl := Option.some.inj hs
  have hs₁ : s₁.DistinctDumps := by
    rcases undoFaults_cases hundo with ⟨-, rfl, -⟩ | ⟨e, -, -, -, f, cpu, -, -, rfl⟩
    · exact h
    · exact h.congr rfl
  have hdump : (s₁.dumpUndone env address undone).DistinctDumps := by
    unfold dumpUndone
    split
    · split
      · exact (hs₁.dumpMemory _ _).congr rfl
      · exact hs₁.congr rfl
    · exact hs₁
  exact hdump.congr rfl

theorem DistinctDumps.endHookCb {firstEndpoint : ℕ} {memorydump : List (ℕ × ℕ)} (h : s.DistinctDumps)
    (hs : s.endHookCb env address firstEndpoint memorydump = some s') : s'.DistinctDumps := by
  simp only [State.endHookCb, Option.bind_eq_bind, Option.bind_eq_some_iff, Option.pure_def] at hs
  obtain ⟨counter, -, hs⟩ := hs
  split at hs
  · exact Option.some.inj hs ▸ h.congr rfl
  · obtain ⟨s₁, h₁, hs⟩ := Option.bind_eq_some_iff.mp hs
    obtain rfl := Option.some.inj hs
    have hs₁ : s₁.DistinctDumps := by
      unfold lastSingleStep at h₁
      split at h₁
      · refine DistinctDumps.singleStepHookCb ?_ h₁
        exact h.congr rfl
      · exact Option.some.inj h₁ ▸ h.congr rfl
    exact (hs₁.foldl_dumpMemory memorydump).congr rfl

theorem DistinctDumps.injectFault {f : Fault} {data : ℕ} (h : s.DistinctDumps)
    (hs : s.injectFault env f address = some (s', data)) : s'.DistinctDumps := by
  by_cases hm : f.type = .register
  · simp only [State.injectFault, hm, faultRegister] at hs
    split at hs
    · obtain ⟨rfl, -⟩ := Prod.mk.inj (Option.some.inj hs)
      exact h.congr rfl
    · cases hs
  · obtain ⟨rfl, -, -⟩ := injectFault_memory hm hs
    refine DistinctDumps.dumpMemory ?_ _ _
    refine DistinctDumps.congr ?_ requestReenter_memdumps
    exact (h.dumpMemory f.address (calculateFaultSize env f)).congr rfl

theorem DistinctDumps.faultHookCb (h : s.DistinctDumps) (hs : s.faultHookCb env address = some s') :
    s'.DistinctDumps := by
  obtain ⟨f, hlook⟩ := faultHookCb_known hs
  rcases faultHookCb_cases hlook hs with ⟨-, rfl⟩ | ⟨-, rfl⟩ | ⟨-, s₁, data, hinject, rfl⟩
  · exact h
  · exact h.congr rfl
  · have hs₁ : s₁.DistinctDumps := by
      refine DistinctDumps.injectFault ?_ hinject
      exact h.congr rfl
    exact hs₁.congr (addLiveFault_memdumps data)

theorem blockHookCb_memdumps (address size : ℕ) : (s.blockHookCb address size).memdumps = s.memdumps := by
  unfold blockHookCb
  simp only []
  repeat' split
  all_goals rfl

theorem hookInvariant_distinctDumps : HookInvariant env DistinctDumps where
  guest _ _ h := h.congr rfl
  block _ address size h := h.congr (blockHookCb_memdumps address size)
  endHook _ _ _ _ _ h _ := h.endHookCb
  faultHook _ _ _ h _ := h.faultHookCb
  singleStep _ _ _ h _ := h.singleStepHookCb

end State

/-- The dumps in the logs have different addresses, whatever Unicorn does. -/
theorem MainLoop.runUnicorn_distinctDumps {env : Env} {cpu : Cpu} {ends memorydump : List (ℕ × ℕ)}
    {faults : List Fault} {count fuel : ℕ} {calls : ℕ → List UnicornEvent} {r : MainLoop}
    (hrun : MainLoop.runUnicorn env cpu ends memorydump faults count calls fuel = .finished r) :
    r.emulation.state.DistinctDumps := by
  refine State.hookInvariant_distinctDumps.runUnicorn (fun _ h => h.congr rfl) ?_ hrun
  have hnone : (State.initializeHooks cpu ends faults).memdumps = [] := by
    rw [State.initializeHooks_eq]
    rfl
  simp [State.DistinctDumps, hnone]

end Archie.Worker
