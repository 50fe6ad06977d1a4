import Archie.Worker.Injection
import Archie.Worker.Undo

/-! When the single step hook is installed.

    A fault is live only after its trigger, and its trigger counts down once in a block. So the block
    hook need not look further than the block and the faults with one hit left:

        block entry   hits 1, trigger in the block   ──▶  hook on
        trigger       hits 0, fault live                  hook on
        ⋮
        block entry   no fault live                  ──▶  hook off, look ahead again

    At the end of the address space it looks less far: the end of the last block is 0.             -/

namespace Archie.Worker

/-- A hook that is no fault hook changes no fault and makes none live. -/
theorem Book.Step.frame {b b' : Book} (h : b.Step none b') :
    b'.faults = b.faults ∧ b'.liveFaults ⊆ b.liveFaults := by
  cases h with
  | stay => exact ⟨rfl, List.Subset.refl _⟩
  | tick => exact ⟨rfl, List.Subset.refl _⟩
  | undo => exact ⟨rfl, List.filter_subset_self _⟩

/-- A fault hook changes one fault, and only the last hit of a temporary fault makes it live. -/
theorem Book.Step.fault_frame {b b' : Book} {a : ℕ} (h : b.Step (some a) b') :
    b'.instructionCount = b.instructionCount ∧ (∀ a' ≠ a, b'.faults.lookup a' = b.faults.lookup a') ∧
      (b'.liveFaults = b.liveFaults ∨ ∃ f, b.faults.lookup a = some f ∧ f.trigger.hitcounter = 1 ∧
        f.lifespan ≠ 0) := by
  cases h with
  | spent => exact ⟨rfl, fun _ _ => rfl, .inl rfl⟩
  | countDown =>
    exact ⟨rfl, fun a' hne => (lookup_insertKey ..).trans (if_neg hne), .inl rfl⟩
  | inject _ f data hlook hone =>
    refine ⟨rfl, fun a' hne => (lookup_insertKey ..).trans (if_neg hne), ?_⟩
    by_cases hlife : f.lifespan = 0
    · exact .inl (if_neg (not_not.mpr hlife))
    · exact .inr ⟨f, hlook, hone, hlife⟩

namespace State

variable {env : Env} {s s' : State} {f : Fault} {address size : ℕ}

/-! ### The hooks leave the hook alone -/

@[simp] theorem dumpMemory_singleStepHook :
    (s.dumpMemory address size).singleStepHook = s.singleStepHook := by
  unfold dumpMemory; split <;> rfl

@[simp] theorem requestReenter_singleStepHook :
    (s.requestReenter f address).singleStepHook = s.singleStepHook := by
  unfold requestReenter; split <;> rfl

@[simp] theorem addLiveFault_singleStepHook (prefaultData : ℕ) :
    (s.addLiveFault f prefaultData).singleStepHook = s.singleStepHook := by
  unfold addLiveFault; split <;> rfl

theorem dumpUndone_singleStepHook (undone : Option Fault) :
    (s.dumpUndone env address undone).singleStepHook = s.singleStepHook := by
  unfold dumpUndone
  split
  · split <;> simp [dumpRegisters]
  · rfl

theorem foldl_dumpMemory_singleStepHook (memorydump : List (ℕ × ℕ)) :
    (memorydump.foldl (fun s d => s.dumpMemory d.1 d.2) s).singleStepHook = s.singleStepHook := by
  induction memorydump generalizing s with
  | nil => rfl
  | cons d ds ih => rw [List.foldl_cons, ih, dumpMemory_singleStepHook]

theorem injectFault_singleStepHook {data : ℕ} (h : s.injectFault env f address = some (s', data)) :
    s'.singleStepHook = s.singleStepHook := by
  by_cases hr : f.type = .register
  · simp only [injectFault, hr, faultRegister] at h
    split at h
    · obtain ⟨rfl, -⟩ := Prod.mk.inj (Option.some.inj h)
      rfl
    · cases h
  · obtain ⟨rfl, -, -⟩ := injectFault_memory hr h
    simp

theorem faultHookCb_singleStepHook (hlook : s.faults.lookup address = some f)
    (h : s.faultHookCb env address = some s') : s'.singleStepHook = s.singleStepHook := by
  rcases faultHookCb_cases hlook h with ⟨-, rfl⟩ | ⟨-, rfl⟩ | ⟨-, s₁, data, hinject, rfl⟩
  · rfl
  · rfl
  · have hhook := injectFault_singleStepHook hinject
    exact (addLiveFault_singleStepHook data).trans hhook

/-! ### The hooks that inject nothing -/

/-- The faults stay as they are, no fault gets live. -/
structure Kept (s s' : State) : Prop where
  book : s.book.Step none s'.book
  hook : s'.singleStepHook = s.singleStepHook
  faultHooks : s'.faultHooks = s.faultHooks

theorem singleStepHookCb_kept (h : s.singleStepHookCb env address = some s') :
    Kept s s' ∧ s'.instructionCount = s.instructionCount + 1 := by
  obtain ⟨hbook, hcontrol⟩ := singleStepHookCb_step h
  simp only [singleStepHookCb, Option.bind_eq_bind, Option.bind_eq_some_iff, Option.pure_def] at h
  obtain ⟨⟨s₁, undone⟩, hundo, h⟩ := h
  obtain rfl := Option.some.inj h
  have hframe : s₁.singleStepHook = s.singleStepHook ∧ s₁.instructionCount = s.instructionCount := by
    rcases undoFaults_cases hundo with ⟨-, rfl, -⟩ | ⟨e, -, -, -, f, cpu, -, -, rfl⟩
    · exact ⟨rfl, rfl⟩
    · exact ⟨rfl, rfl⟩
  have hcount : (s₁.dumpUndone env address undone).instructionCount = s₁.instructionCount :=
    congrArg Book.instructionCount (dumpUndone_book address undone)
  refine ⟨⟨hbook, ?_, congrArg Control.faultHooks hcontrol⟩, ?_⟩
  · exact (dumpUndone_singleStepHook undone).trans hframe.1
  · exact congrArg (· + 1) (hcount.trans hframe.2)

/-- The end hook of an instruction counts down, or stops and single-steps it. -/
theorem endHookCb_kept {firstEndpoint : ℕ} {memorydump : List (ℕ × ℕ)}
    (h : s.endHookCb env address firstEndpoint memorydump = some s') : Kept s s' ∧
      (s'.stopped = s.stopped ∧ s'.instructionCount = s.instructionCount ∨ s'.stopped = true ∧
        (s.singleStepHook = true → s'.instructionCount = s.instructionCount + 1)) := by
  obtain ⟨hbook, -⟩ := endHookCb_step h
  simp only [endHookCb, Option.bind_eq_bind, Option.bind_eq_some_iff, Option.pure_def] at h
  obtain ⟨counter, -, h⟩ := h
  split at h
  · obtain rfl := Option.some.inj h
    exact ⟨⟨hbook, rfl, rfl⟩, .inl ⟨rfl, rfl⟩⟩
  · obtain ⟨s₁, h₁, h⟩ := Option.bind_eq_some_iff.mp h
    obtain rfl := Option.some.inj h
    obtain ⟨hdumps, hcontrol⟩ := foldl_dumpMemory (s := s₁) memorydump
    have hcount := congrArg Book.instructionCount hdumps
    have hhooks := congrArg Control.faultHooks hcontrol
    have hhook := foldl_dumpMemory_singleStepHook (s := s₁) memorydump
    unfold lastSingleStep at h₁
    split at h₁
    · obtain ⟨hkept, htick⟩ := singleStepHookCb_kept h₁
      exact ⟨⟨hbook, hhook.trans hkept.hook, hhooks.trans hkept.faultHooks⟩,
        .inr ⟨rfl, fun _ => hcount.trans htick⟩⟩
    · next hoff =>
      obtain rfl := Option.some.inj h₁
      exact ⟨⟨hbook, hhook, hhooks⟩, .inr ⟨rfl, fun hon => absurd hon hoff⟩⟩

/-! ### The invariant of a block -/

/-- The single step hook is installed for a temporary fault with one hit left, if its trigger lies in
    the block and was not executed since its entry. -/
def Armed (s : State) (address size : ℕ) (ran : List ℕ) : Prop :=
  ∀ a f, s.faults.lookup a = some f → f.lifespan ≠ 0 → f.trigger.hitcounter = 1 →
    address ≤ a → a < address + size → a ∉ ran → s.singleStepHook = true

/-- The look-ahead at a block entry misses a fault: the end of the block wraps, and in the block is the
    trigger of a temporary fault with one hit left, while no fault is live. -/
def Overlooks (s : State) (address size : ℕ) : Prop :=
  2 ^ 64 ≤ address + size ∧ s.liveFaults = [] ∧ ∃ a f, s.faults.lookup a = some f ∧ f.lifespan ≠ 0 ∧
    f.trigger.hitcounter = 1 ∧ address ≤ a ∧ a < address + size

/-- The single step hook is installed while a fault is live. -/
def Covered (s : State) : Prop := s.liveFaults ≠ [] → s.singleStepHook = true

theorem Kept.covered (hkept : Kept s s') (h : s.Covered) : s'.Covered := by
  intro hlive
  rw [hkept.hook]
  refine h fun hnil => hlive ?_
  have hsub : s'.liveFaults ⊆ s.liveFaults := hkept.book.frame.2
  exact List.subset_nil.mp (hnil ▸ hsub)

theorem Kept.armed {start : ℕ} {ran : List ℕ} (hkept : Kept s s') (h : s.Armed start size ran) :
    s'.Armed start size ran := by
  intro a f hlook
  rw [hkept.hook]
  rw [show s'.faults = s.faults from hkept.book.frame.1] at hlook
  exact h a f hlook

/-- While a fault is live, the hook stays where it is. -/
theorem blockHookCb_on (h : s.Covered) (hlive : s.liveFaults ≠ []) :
    (s.blockHookCb address size).singleStepHook = true := by
  simp [blockHookCb, hlive, h hlive]

theorem blockHookCb_covered (h : s.Covered) : (s.blockHookCb address size).Covered := by
  have hlive : (s.blockHookCb address size).liveFaults = s.liveFaults :=
    congrArg Book.liveFaults (blockHookCb_book address size)
  intro hne
  rw [hlive] at hne
  exact blockHookCb_on h hne

theorem blockHookCb_ahead {a : ℕ} (honce : s.book.Once) (hlook : s.faults.lookup a = some f)
    (hlife : f.lifespan ≠ 0) (hone : f.trigger.hitcounter = 1) (hlow : address ≤ a)
    (hhigh : a < address + size) (hfits : address + size < 2 ^ 64) :
    (s.blockHookCb address size).singleStepHook = true := by
  have hkey : f.trigger.address = a := honce.keyed a f hlook
  obtain ⟨l₁, l₂, hsplit, -⟩ := List.lookup_eq_some_iff.mp hlook
  have hahead : (s.faults.any fun e => decide (e.2.lifespan ≠ 0 ∧ e.2.trigger.hitcounter = 1 ∧
      e.2.trigger.address ≥ address ∧ e.2.trigger.address ≤ (address + size) % 2 ^ 64)) = true := by
    refine List.any_eq_true.mpr ⟨(a, f), by rw [hsplit]; simp, decide_eq_true ?_⟩
    rw [Nat.mod_eq_of_lt hfits]
    have htrigger : f.trigger.address ≤ address + size := hkey ▸ hhigh.le
    exact ⟨hlife, hone, hkey ▸ hlow, htrigger⟩
  unfold blockHookCb
  extract_lets s₁ s₂
  have hsame : s₂.faults = s.faults := by simp only [s₂, s₁]; split <;> rfl
  split
  · next hon => exact hon
  · rw [if_pos (hsame ▸ hahead)]

theorem blockHookCb_armed (honce : s.book.Once) (hcovered : s.Covered)
    (hsees : ¬ s.Overlooks address size) : (s.blockHookCb address size).Armed address size [] := by
  have hfaults : (s.blockHookCb address size).faults = s.faults :=
    congrArg Book.faults (blockHookCb_book address size)
  intro a f hlook hlife hone hlow hhigh _
  rw [hfaults] at hlook
  by_cases hlive : s.liveFaults = []
  · have hfits : address + size < 2 ^ 64 := by
      by_contra hwraps
      exact hsees ⟨Nat.not_lt.mp hwraps, hlive, a, f, hlook, hlife, hone, hlow, hhigh⟩
    exact blockHookCb_ahead honce hlook hlife hone hlow hhigh hfits
  · exact blockHookCb_on hcovered hlive

theorem faultHookCb_armed {ran : List ℕ} {start : ℕ} (h : s.Covered)
    (harmed : s.Armed start size ran) (hlow : start ≤ address) (hhigh : address < start + size)
    (hran : address ∉ ran) (hs : s.faultHookCb env address = some s') :
    s'.Covered ∧ s'.Armed start size (address :: ran) := by
  obtain ⟨f, hlook⟩ := faultHookCb_known hs
  have hhook : s'.singleStepHook = s.singleStepHook := faultHookCb_singleStepHook hlook hs
  obtain ⟨-, hother, hlive'⟩ := (faultHookCb_step hs).1.fault_frame
  constructor
  · intro hlive
    rw [hhook]
    rcases hlive' with hsame | ⟨g, hg, hone, hlife⟩
    · exact h fun hnil => hlive (Eq.trans hsame hnil)
    · exact harmed address g hg hlife hone hlow hhigh hran
  · intro a g hlook' hlife hone hlow' hhigh' hran'
    rw [List.mem_cons, not_or] at hran'
    rw [hhook]
    exact harmed a g ((hother a hran'.1).symm.trans hlook') hlife hone hlow' hhigh' hran'.2

/-- What holds between the hooks while a block runs. -/
structure Guarded (s : State) (start size : ℕ) (ran : List ℕ) : Prop where
  once : s.book.Once
  covered : s.Covered
  armed : s.Armed start size ran
  nodup : s.faultHooks.Nodup

namespace Guarded

variable {start : ℕ} {ran : List ℕ}

theorem kept (h : s.Guarded start size ran) (hkept : Kept s s') : s'.Guarded start size ran where
  once := h.once.step hkept.book
  covered := hkept.covered h.covered
  armed := hkept.armed h.armed
  nodup := hkept.faultHooks ▸ h.nodup

theorem mono (h : s.Guarded start size ran) : s.Guarded start size (address :: ran) :=
  ⟨h.once, h.covered, fun a f hlook hlife hone hlow hhigh hran =>
    h.armed a f hlook hlife hone hlow hhigh fun hmem => hran (List.mem_cons_of_mem _ hmem), h.nodup⟩

/-- A block entry looks ahead anew. -/
theorem enterBlock (honce : s.book.Once) (hcovered : s.Covered) (hnodup : s.faultHooks.Nodup)
    (hsees : ¬ s.Overlooks address size) : (s.blockHookCb address size).Guarded address size [] := by
  have hhooks : (s.blockHookCb address size).faultHooks = s.faultHooks :=
    congrArg Control.faultHooks (blockHookCb_control address size)
  refine ⟨?_, blockHookCb_covered hcovered, blockHookCb_armed honce hcovered hsees,
    hhooks.symm ▸ hnodup⟩
  rw [blockHookCb_book]
  exact honce

theorem faultHookCb (h : s.Guarded start size ran) (hlow : start ≤ address)
    (hhigh : address < start + size) (hran : address ∉ ran)
    (hs : s.faultHookCb env address = some s') : s'.Guarded start size (address :: ran) := by
  obtain ⟨hbook, hcontrol⟩ := faultHookCb_step hs
  obtain ⟨hcovered, harmed⟩ := faultHookCb_armed h.covered h.armed hlow hhigh hran hs
  refine ⟨h.once.step hbook, hcovered, harmed, ?_⟩
  have hhooks : s'.faultHooks = s.faultHooks := by
    rcases hcontrol with hc | ⟨hc, -⟩
    · exact congrArg Control.faultHooks hc
    · exact congrArg Control.faultHooks hc
  exact hhooks ▸ h.nodup

/-- Faults with triggers of their own have one hook for each trigger. -/
theorem runFaultHooks (h : s.Guarded start size ran) (hlow : start ≤ address)
    (hhigh : address < start + size) (hran : address ∉ ran)
    (hs : s.runFaultHooks env address = some s') : s'.Guarded start size (address :: ran) := by
  rw [State.runFaultHooks, runHooks, filter_address h.nodup] at hs
  split at hs
  · rw [List.foldlM_cons, Option.bind_eq_bind, Option.bind_eq_some_iff] at hs
    obtain ⟨s₁, h₁, hs⟩ := hs
    obtain rfl := Option.some.inj hs
    split at h₁
    · obtain rfl := Option.some.inj h₁
      exact h.mono
    · exact h.faultHookCb hlow hhigh hran h₁
  · obtain rfl := Option.some.inj hs
    exact h.mono

theorem runSingleStep (h : s.Guarded start size ran) (hs : s.runSingleStep env address = some s') :
    s'.Guarded start size ran := by
  unfold State.runSingleStep at hs
  split at hs
  · exact h.kept (singleStepHookCb_kept hs).1
  · obtain rfl := Option.some.inj hs
    exact h

theorem enter {m : Emulation} {past : Bool} (h : s.Guarded start size ran) (hlow : start ≤ address)
    (hhigh : address < start + size) (hran : address ∉ ran)
    (henter : m.enter env s address = some (s', past)) : s'.Guarded start size (address :: ran) := by
  obtain ⟨s₁, h₁, hrest⟩ := Emulation.enter_cases henter
  have hends : s₁.Guarded start size ran :=
    foldlM_hook_inv (I := fun t => t.Guarded start size ran)
      (fun _ _ h _ hs => h.kept (endHookCb_kept hs).1) _ h h₁
  rcases hrest with ⟨-, rfl, -⟩ | ⟨-, -, s₂, h₂, h₃⟩
  · exact hends.mono
  · exact (hends.runFaultHooks hlow hhigh hran h₂).runSingleStep h₃

end Guarded

end State

/-! ### Instructions -/

namespace Emulation

variable {env : Env} {m m' : Emulation} {s s' : State} {address : ℕ}

/-- With the single step hook installed an instruction is single-stepped once, unless a fault hook
    stops before it. -/
theorem enter_stepped {past : Bool} (hon : s.singleStepHook = true) (hrun : s.stopped = false)
    (h : m.enter env s address = some (s', past)) :
    s'.instructionCount = s.instructionCount + 1 ∨ s'.reenterAddress = some address := by
  obtain ⟨s₁, h₁, hrest⟩ := enter_cases h
  have hends : s₁.singleStepHook = true ∧ (s₁.stopped = false ∧ s₁.instructionCount = s.instructionCount ∨
      s₁.stopped = true ∧ s₁.instructionCount = s.instructionCount + 1) := by
    refine State.foldlM_hook_inv (I := fun t => t.singleStepHook = true ∧
      (t.stopped = false ∧ t.instructionCount = s.instructionCount ∨
        t.stopped = true ∧ t.instructionCount = s.instructionCount + 1)) ?_ _ ⟨hon, .inl ⟨hrun, rfl⟩⟩ h₁
    rintro t t' ⟨hon, hcount⟩ hrun ht
    have hsame : t.instructionCount = s.instructionCount := by simpa [hrun] using hcount
    obtain ⟨hkept, hcases⟩ := State.endHookCb_kept ht
    refine ⟨hkept.hook.trans hon, ?_⟩
    rcases hcases with ⟨hstopped, hcount'⟩ | ⟨hstopped, hcount'⟩
    · exact .inl ⟨hstopped.trans hrun, hcount'.trans hsame⟩
    · exact .inr ⟨hstopped, by rw [hcount' hon, hsame]⟩
  obtain ⟨hon₁, hcount₁⟩ := hends
  rcases hrest with ⟨hstopped, rfl, -⟩ | ⟨hrun₁, -, s₂, h₂, h₃⟩
  · simp only [hstopped, Bool.true_eq_false, false_and, true_and, false_or] at hcount₁
    exact .inl hcount₁
  · simp only [hrun₁, Bool.false_eq_true, true_and, false_and, or_false] at hcount₁
    have hfaults : s₂.singleStepHook = true ∧ s₂.instructionCount = s.instructionCount ∧
        (s₂.stopped = false ∨ s₂.reenterAddress = some address) := by
      refine State.foldlM_hook_inv (I := fun t => t.singleStepHook = true ∧
        t.instructionCount = s.instructionCount ∧
          (t.stopped = false ∨ t.reenterAddress = some address)) ?_ _ ⟨hon₁, hcount₁, .inl hrun₁⟩ h₂
      rintro t t' ⟨hon, hcount, -⟩ hrun ht
      obtain ⟨f, hlook⟩ := State.faultHookCb_known ht
      obtain ⟨hbook, hcontrol⟩ := State.faultHookCb_step ht
      refine ⟨(State.faultHookCb_singleStepHook hlook ht).trans hon, ?_, ?_⟩
      · exact Eq.trans hbook.fault_frame.1 hcount
      · rcases hcontrol with hc | ⟨hc, -⟩
        · exact .inl ((congrArg Control.stopped hc).trans hrun)
        · exact .inr (congrArg Control.reenterAddress hc)
    obtain ⟨hon₂, hcount₂, hpending⟩ := hfaults
    unfold State.runSingleStep at h₃
    split at h₃
    · exact .inl (by rw [(State.singleStepHookCb_kept h₃).2, hcount₂])
    · next hskip =>
      obtain rfl := Option.some.inj h₃
      exact .inr (hpending.resolve_left fun hrun₂ => hskip ⟨hrun₂, hon₂⟩)

end Emulation

/-! ### Runs -/

/-- A run with the block entered last and its instructions executed since. -/
structure BlockRun where
  emulation : Emulation
  address : ℕ
  size : ℕ
  ran : List ℕ

namespace BlockRun

variable (env : Env)

/-- No block is entered yet. -/
def start (m : Emulation) : BlockRun := ⟨m, 0, 0, []⟩

def step (b : BlockRun) (a : Activity) : Option BlockRun :=
  (b.emulation.step env a).map fun m =>
    match a with
    | .guest _ => { b with emulation := m }
    | .block address size =>
      if b.emulation.state.stopped then b else ⟨m, address, size, []⟩
    | .insn address =>
      if b.emulation.state.stopped then b else { b with emulation := m, ran := address :: b.ran }
    | .reenter size =>
      match b.emulation.state.reenterAddress with
      | none => b
      | some address => ⟨m, address, size, [address]⟩

/-- An instruction runs in the block entered last, once for each entry. -/
def InBlock (b : BlockRun) : Activity → Prop
  | .insn address => b.emulation.state.stopped = false →
    b.address ≤ address ∧ address < b.address + b.size ∧ address ∉ b.ran
  | .reenter size => 0 < size
  | _ => True

/-- The step enters a block and the look-ahead misses a fault. -/
def Overlooks (b : BlockRun) : Activity → Prop
  | .block address size =>
    b.emulation.state.stopped = false ∧ b.emulation.state.Overlooks address size
  | .reenter size => ∃ address, b.emulation.state.reenterAddress = some address ∧
    b.emulation.state.Overlooks address size
  | _ => False

/-- While a fault is live the single step hook is installed, and the next instruction is
    single-stepped once, after a re-entry if it asks for one. -/
def LiveChecked (b : BlockRun) : Prop :=
  b.emulation.state.liveFaults ≠ [] → b.emulation.state.singleStepHook = true ∧
    ∀ address m, b.emulation.state.stopped = false → b.emulation.step env (.insn address) = some m →
      m.state.instructionCount = b.emulation.state.instructionCount + 1 ∨
        m.state.reenterAddress = some address

def Inv (b : BlockRun) : Prop := b.emulation.state.Guarded b.address b.size b.ran

variable {env : Env} {b b' : BlockRun}

theorem Inv.liveChecked (h : b.Inv) : b.LiveChecked env := by
  intro hlive
  have hon := h.covered hlive
  refine ⟨hon, fun address m hrun hstep => ?_⟩
  simp only [Emulation.step, hrun, Bool.false_eq_true, if_false] at hstep
  obtain ⟨⟨s', past⟩, henter, rfl⟩ := Option.map_eq_some_iff.mp hstep
  exact Emulation.enter_stepped hon hrun henter

theorem Inv.step {a : Activity} (h : b.Inv) (ha : b.InBlock a) (hsees : ¬ b.Overlooks a)
    (hstep : b.step env a = some b') : b'.Inv := by
  obtain ⟨m, hm, hb'⟩ := Option.map_eq_some_iff.mp hstep
  cases a with
  | guest cpu =>
    obtain rfl := hb'
    simp only [Emulation.step] at hm
    split at hm <;> obtain rfl := Option.some.inj hm
    · exact h
    · exact ⟨h.once, h.covered, h.armed, h.nodup⟩
  | block address size =>
    simp only [Emulation.step] at hm
    split at hm
    · next hstop =>
      simp only [hstop, if_true] at hb'
      exact hb' ▸ h
    · next hrun =>
      obtain rfl := Option.some.inj hm
      simp only [hrun] at hb'
      exact hb' ▸ State.Guarded.enterBlock h.once h.covered h.nodup
        fun hover => hsees ⟨Bool.eq_false_of_not_eq_true hrun, hover⟩
  | insn address =>
    simp only [Emulation.step] at hm
    split at hm
    · next hstop =>
      simp only [hstop, if_true] at hb'
      exact hb' ▸ h
    · next hrun =>
      obtain ⟨⟨s', past⟩, henter, rfl⟩ := Option.map_eq_some_iff.mp hm
      simp only [hrun] at hb'
      obtain ⟨hlow, hhigh, hran⟩ := ha (by simpa using hrun)
      exact hb' ▸ State.Guarded.enter h hlow hhigh hran henter
  | reenter size =>
    simp only [Emulation.step] at hm
    cases haddr : b.emulation.state.reenterAddress with
    | none =>
      simp only [haddr] at hb'
      exact hb' ▸ h
    | some address =>
      simp only [haddr] at hm hb'
      obtain ⟨⟨s', past⟩, henter, rfl⟩ := Option.map_eq_some_iff.mp hm
      have hentry := State.Guarded.enterBlock (s := { b.emulation.state with
        reenterAddress := none, stopped := false }) h.once h.covered h.nodup
          fun hover => hsees ⟨address, haddr, hover⟩
      exact hb' ▸ hentry.enter le_rfl (Nat.lt_add_of_pos_right ha) List.not_mem_nil henter

theorem inv_start {m : Emulation} {cpu : Cpu} {ends memorydump : List (ℕ × ℕ)} {faults : List Fault}
    (hnd : (faults.map fun f => f.trigger.address).Nodup)
    (h : Emulation.start cpu ends memorydump faults = some m) : (start m).Inv := by
  cases faults with
  | nil => cases h
  | cons f fs =>
    obtain rfl := Option.some.inj h
    refine ⟨State.once_initializeHooks cpu ends (f :: fs), ?_, ?_, ?_⟩
    · intro hlive
      rw [start, State.initializeHooks_eq] at hlive
      exact absurd rfl hlive
    · intro a g _ _ _ hlow hhigh
      exact absurd hhigh (by simp [start])
    · rw [start, State.initializeHooks_eq]
      exact hnd

end BlockRun

/-- Faults with triggers of their own: in a run that enters a block before its instructions and
    executes each of them at most once, the single step hook is installed while a fault is live, if the
    look-ahead misses none. -/
theorem always_liveChecked (env : Env) {m : Emulation} {cpu : Cpu} {ends memorydump : List (ℕ × ℕ)}
    {faults : List Fault} (hnd : (faults.map fun f => f.trigger.address).Nodup)
    (hstart : Emulation.start cpu ends memorydump faults = some m) {as : List Activity}
    (hblocks : Run.EveryStep (BlockRun.step env) BlockRun.InBlock (BlockRun.start m) as)
    (hsees : Run.EveryStep (BlockRun.step env) (fun b a => ¬ b.Overlooks a) (BlockRun.start m) as) :
    Run.Always (BlockRun.step env) (BlockRun.LiveChecked env) (BlockRun.start m) as :=
  Run.always_of_everyStep (I := BlockRun.Inv) (fun _ h => h.liveChecked)
    (fun _ _ _ h ha hstep => h.step ha.1 ha.2 hstep) (BlockRun.inv_start hnd hstart)
    (hblocks.and hsees)

/-- A block that ends in the address space is looked at as a whole. -/
theorem BlockRun.not_overlooks {b : BlockRun} {address size : ℕ} (hfits : address + size < 2 ^ 64) :
    ¬ b.Overlooks (.block address size) := fun h => Nat.not_le.mpr hfits h.2.1

/-- A fault with two hits, whose block is entered twice. -/
theorem always_liveChecked_loop : Run.Always (BlockRun.step Env.plain)
    (BlockRun.LiveChecked Env.plain) (BlockRun.start ⟨State.initializeHooks zeroCpu []
      [(temporaryFault 0x104 1).setHitcounter 2], 0x104, [], []⟩)
    [.block 0x100 8, .insn 0x100, .insn 0x104, .block 0x100 8, .insn 0x100, .insn 0x104] := by
  have hstart : Emulation.start zeroCpu [] [] [(temporaryFault 0x104 1).setHitcounter 2] = some _ := rfl
  refine always_liveChecked Env.plain (by decide) hstart ?_ ?_
  · refine ⟨trivial, fun _ h => ?_⟩
    obtain rfl := Option.some.inj h
    refine ⟨fun _ => by decide, fun _ h => ?_⟩
    obtain rfl := Option.some.inj h
    refine ⟨fun _ => by decide, fun _ h => ?_⟩
    obtain rfl := Option.some.inj h
    refine ⟨trivial, fun _ h => ?_⟩
    obtain rfl := Option.some.inj h
    refine ⟨fun _ => by decide, fun _ h => ?_⟩
    obtain rfl := Option.some.inj h
    exact ⟨fun _ => by decide, fun _ _ => trivial⟩
  · have hblock (b : BlockRun) : ¬ b.Overlooks (.block 0x100 8) := BlockRun.not_overlooks (by decide)
    refine ⟨hblock _, fun _ _ => ?_⟩
    refine ⟨id, fun _ _ => ?_⟩
    refine ⟨id, fun _ _ => ?_⟩
    refine ⟨hblock _, fun _ _ => ?_⟩
    refine ⟨id, fun _ _ => ?_⟩
    exact ⟨id, fun _ _ => trivial⟩

/-- The last block of the address space: the trigger in it makes a fault live that nothing checks. -/
theorem lastBlock_not_liveChecked : ∃ m, Emulation.start zeroCpu [] []
      [temporaryFault 0xfffffffffffffffc 1] = some m ∧
    Run.EveryStep (BlockRun.step Env.plain) BlockRun.InBlock (BlockRun.start m)
      [.block 0xfffffffffffffffc 4, .insn 0xfffffffffffffffc] ∧
    ¬ Run.Always (BlockRun.step Env.plain) (BlockRun.LiveChecked Env.plain) (BlockRun.start m)
      [.block 0xfffffffffffffffc 4, .insn 0xfffffffffffffffc] := by
  refine ⟨_, rfl, ⟨trivial, fun _ h => ?_⟩, fun h => ?_⟩
  · obtain rfl := Option.some.inj h
    exact ⟨fun _ => by decide, fun _ _ => trivial⟩
  · have hlast := ((h.2 _ rfl).2 _ rfl).head
    obtain ⟨hon, -⟩ := hlast (by decide)
    exact absurd hon (by decide)

end Archie.Worker
