import Archie.Worker.ApplyModel

/-! What the worker knows, apart from the guest and the logs: the books about its faults, and what
    controls which hooks run.

    A hook leaves these books alone, counts a trigger down, injects, counts an instruction, or undoes
    a fault and counts an instruction. -/

namespace Archie.Worker

structure Book where
  faults : List (ℕ × Fault)
  liveFaults : List (LiveFault × ℕ)
  instructionCount : ℕ
  injected : List Injection
  undone : List (ℕ × ℕ)

namespace Book

variable (b : Book)

def countDown (address : ℕ) (f : Fault) : Book :=
  { b with faults := insertKey b.faults address (f.setHitcounter (f.trigger.hitcounter - 1)) }

/-- A temporary fault is live from its injection on. -/
def inject (address : ℕ) (f : Fault) (prefaultData : ℕ) : Book :=
  { b with
    faults := insertKey b.faults address f
    injected := b.injected ++ [⟨f, b.instructionCount⟩]
    liveFaults :=
      if f.lifespan ≠ 0 then
        pushLive b.liveFaults (f.trigger.address, prefaultData)
          (State.livePriority f.lifespan b.instructionCount)
      else b.liveFaults }

def undo (item : LiveFault) : Book :=
  { b with
    liveFaults := popLive b.liveFaults item
    undone := b.undone ++ [(item.1, b.instructionCount)] }

def tick : Book := { b with instructionCount := b.instructionCount + 1 }

/-- The time of a live fault has come. -/
def Due (e : LiveFault × ℕ) : Prop := (2 ^ 64 - 1) - e.2 ≤ b.instructionCount

/-- What a hook may do to the books; the label is the address whose fault hook runs. -/
inductive Step (b : Book) : Option ℕ → Book → Prop where
  | stay : Step b none b
  | spent (address : ℕ) (f : Fault) (hlook : b.faults.lookup address = some f)
      (hhit : f.trigger.hitcounter = 0) : Step b (some address) b
  | countDown (address : ℕ) (f : Fault) (hlook : b.faults.lookup address = some f)
      (hhit : 1 < f.trigger.hitcounter) : Step b (some address) (b.countDown address f)
  | inject (address : ℕ) (f : Fault) (prefaultData : ℕ) (hlook : b.faults.lookup address = some f)
      (hhit : f.trigger.hitcounter = 1) (hinj : f.Injectable)
      (hdata : f.type = .register → prefaultData < 2 ^ 64) :
      Step b (some address) (b.inject address (f.setHitcounter 0) prefaultData)
  | tick (hnone : ∀ e ∈ b.liveFaults, ¬ b.Due e) : Step b none b.tick
  | undo (e : LiveFault × ℕ) (hmem : e ∈ b.liveFaults) (hdue : b.Due e)
      (hmax : ∀ e' ∈ b.liveFaults, e'.2 ≤ e.2) : Step b none (b.undo e.1).tick

variable {b} {a data : ℕ} {f : Fault}

theorem mem_injected_inject {i : Injection} (hi : i ∈ (b.inject a f data).injected) :
    i ∈ b.injected ∨ i = ⟨f, b.instructionCount⟩ := by
  simpa [inject] using hi

/-- A live fault is the new one or an old one. -/
theorem mem_liveFaults_inject {e : LiveFault × ℕ} (he : e ∈ (b.inject a f data).liveFaults) :
    e ∈ b.liveFaults ∨ f.lifespan ≠ 0 ∧
      e = ((f.trigger.address, data), State.livePriority f.lifespan b.instructionCount) := by
  simp only [inject] at he
  split at he
  · next hl =>
    rcases List.mem_cons.mp he with rfl | he
    · exact .inr ⟨hl, rfl⟩
    · exact .inl (List.mem_filter.mp he).1
  · exact .inl he

/-- The queue keeps one entry for an item, so an old entry stays if it is for another address. -/
theorem old_mem_liveFaults_inject {e : LiveFault × ℕ} (he : e ∈ b.liveFaults)
    (haddr : e.1.1 ≠ f.trigger.address) : e ∈ (b.inject a f data).liveFaults := by
  simp only [inject]
  split
  · refine List.mem_cons_of_mem _ (List.mem_filter.mpr ⟨he, ?_⟩)
    have hitem : e.1 ≠ (f.trigger.address, data) := fun heq => haddr (congrArg Prod.fst heq)
    exact decide_eq_true hitem
  · exact he

theorem new_mem_liveFaults_inject (hl : f.lifespan ≠ 0) :
    ((f.trigger.address, data), State.livePriority f.lifespan b.instructionCount)
      ∈ (b.inject a f data).liveFaults := by
  simp only [inject, if_pos hl]
  exact List.mem_cons_self

/-! ### One injection for each address -/

/-- At most one injection for each address, of an injectable fault that is spent then. -/
structure Once (b : Book) : Prop where
  keyed : ∀ (a : ℕ) (f : Fault), b.faults.lookup a = some f → f.trigger.address = a
  spent : ∀ i ∈ b.injected, ∃ f, b.faults.lookup i.fault.trigger.address = some f ∧
    f.trigger.hitcounter = 0
  nodup : (b.injected.map fun i => i.fault.trigger.address).Nodup
  injectable : ∀ i ∈ b.injected, i.fault.Injectable

namespace Once

variable {b b' : Book}

theorem keyed_insert (h : b.Once) {a : ℕ} {f : Fault} (n : ℕ) (hlook : b.faults.lookup a = some f)
    (a' : ℕ) (f' : Fault)
    (hlook' : (insertKey b.faults a (f.setHitcounter n)).lookup a' = some f') :
    f'.trigger.address = a' := by
  rw [lookup_insertKey] at hlook'
  split at hlook'
  · next ha =>
    obtain rfl := Option.some.inj hlook'
    exact ha ▸ h.keyed a f hlook
  · exact h.keyed a' f' hlook'

theorem address_ne (h : b.Once) {a : ℕ} {f : Fault} (hlook : b.faults.lookup a = some f)
    (hhit : 0 < f.trigger.hitcounter) {i : Injection} (hi : i ∈ b.injected) :
    i.fault.trigger.address ≠ a := by
  rintro rfl
  obtain ⟨g, hg, hzero⟩ := h.spent i hi
  rw [hlook] at hg
  rw [← Option.some.inj hg] at hzero
  omega

theorem spent_insert (h : b.Once) {a : ℕ} {f f' : Fault} (hlook : b.faults.lookup a = some f)
    (hhit : 0 < f.trigger.hitcounter) {i : Injection} (hi : i ∈ b.injected) :
    ∃ g, (insertKey b.faults a f').lookup i.fault.trigger.address = some g ∧
      g.trigger.hitcounter = 0 := by
  rw [lookup_insertKey, if_neg (h.address_ne hlook hhit hi)]
  exact h.spent i hi

theorem step {label : Option ℕ} (h : b.Once) (hstep : b.Step label b') : b'.Once := by
  cases hstep with
  | stay => exact h
  | spent => exact h
  | tick => exact ⟨h.keyed, h.spent, h.nodup, h.injectable⟩
  | undo => exact ⟨h.keyed, h.spent, h.nodup, h.injectable⟩
  | countDown a f hlook hhit =>
    exact ⟨h.keyed_insert _ hlook, fun i hi => h.spent_insert hlook (by omega) hi, h.nodup,
      h.injectable⟩
  | inject a f data hlook hhit hinj hdata =>
    have hkey : f.trigger.address = a := h.keyed a f hlook
    refine ⟨h.keyed_insert 0 hlook, fun i hi => ?_, ?_, fun i hi => ?_⟩
    · rcases mem_injected_inject hi with hi | rfl
      · exact h.spent_insert hlook (by omega) hi
      · refine ⟨f.setHitcounter 0, ?_, rfl⟩
        exact (lookup_insertKey ..).trans (if_pos hkey)
    · simp only [inject, List.map_append, List.map_cons, List.map_nil]
      refine List.nodup_append.mpr ⟨h.nodup, List.nodup_singleton _, fun x hx y hy => ?_⟩
      obtain ⟨i, hi, rfl⟩ := List.mem_map.mp hx
      rw [List.mem_singleton.mp hy]
      exact fun heq => h.address_ne hlook (by omega) hi (heq.trans hkey)
    · rcases mem_injected_inject hi with hi | rfl
      · exact h.injectable i hi
      · exact hinj

end Once

end Book

def State.book (s : State) : Book :=
  ⟨s.faults, s.liveFaults, s.instructionCount, s.injected, s.undone⟩

structure Control where
  endpoints : List (ℕ × ℕ)
  endHooks : List ℕ
  faultHooks : List ℕ
  reenterAddress : Option ℕ
  stopped : Bool

def State.control (s : State) : Control :=
  ⟨s.endpoints, s.endHooks, s.faultHooks, s.reenterAddress, s.stopped⟩

/-- What Unicorn calls, and the guest running in between. -/
inductive Event where
  | guest (cpu : Cpu)
  | block (address size : ℕ)
  | fault (address : ℕ)
  | singleStep (address : ℕ)
  | endpoint (address firstEndpoint : ℕ) (memorydump : List (ℕ × ℕ))

/-- The address whose fault hook runs. -/
def Event.faultAddress : Event → Option ℕ
  | .fault address => some address
  | _ => none

def State.callback (env : Env) (s : State) : Event → Option State
  | .guest cpu => some { s with cpu }
  | .block address size => some (s.blockHookCb address size)
  | .fault address => s.faultHookCb env address
  | .singleStep address => s.singleStepHookCb env address
  | .endpoint address firstEndpoint memorydump =>
    s.endHookCb env address firstEndpoint memorydump

namespace State

variable {env : Env} {s s' : State}

/-! ### What changes the guest and the logs only -/

@[simp] theorem dumpMemory_book (address size : ℕ) : (s.dumpMemory address size).book = s.book := by
  unfold dumpMemory; split <;> rfl

@[simp] theorem dumpMemory_control (address size : ℕ) :
    (s.dumpMemory address size).control = s.control := by
  unfold dumpMemory; split <;> rfl

@[simp] theorem dumpRegisters_book : s.dumpRegisters.book = s.book := rfl

@[simp] theorem dumpRegisters_control : s.dumpRegisters.control = s.control := rfl

@[simp] theorem dumpUndone_book (address : ℕ) (undone : Option Fault) :
    (s.dumpUndone env address undone).book = s.book := by
  unfold dumpUndone
  split
  · split <;> simp
  · rfl

@[simp] theorem dumpUndone_control (address : ℕ) (undone : Option Fault) :
    (s.dumpUndone env address undone).control = s.control := by
  unfold dumpUndone
  split
  · split <;> simp
  · rfl

theorem foldl_dumpMemory (memorydump : List (ℕ × ℕ)) :
    (memorydump.foldl (fun s d => s.dumpMemory d.1 d.2) s).book = s.book ∧
    (memorydump.foldl (fun s d => s.dumpMemory d.1 d.2) s).control = s.control := by
  induction memorydump generalizing s with
  | nil => exact ⟨rfl, rfl⟩
  | cons d ds ih =>
    rw [List.foldl_cons]
    exact ⟨ih.1.trans (dumpMemory_book ..), ih.2.trans (dumpMemory_control ..)⟩

@[simp] theorem blockHookCb_book (address size : ℕ) : (s.blockHookCb address size).book = s.book := by
  unfold blockHookCb
  simp only []
  repeat' split
  all_goals rfl

@[simp] theorem blockHookCb_control (address size : ℕ) :
    (s.blockHookCb address size).control = s.control := by
  unfold blockHookCb
  simp only []
  repeat' split
  all_goals rfl

@[simp] theorem requestReenter_book (f : Fault) (address : ℕ) :
    (s.requestReenter f address).book = s.book := by
  unfold requestReenter; split <;> rfl

theorem requestReenter_control (f : Fault) (address : ℕ) :
    (s.requestReenter f address).control = s.control ∨ (s.requestReenter f address).control
      = { s.control with reenterAddress := some address, stopped := true } := by
  unfold requestReenter
  split
  · exact .inr rfl
  · exact .inl rfl

@[simp] theorem addLiveFault_control (f : Fault) (prefaultData : ℕ) :
    (s.addLiveFault f prefaultData).control = s.control := by
  unfold addLiveFault; split <;> rfl

@[simp] theorem addLiveFault_faults (f : Fault) (prefaultData : ℕ) :
    (s.addLiveFault f prefaultData).faults = s.faults := by
  unfold addLiveFault; split <;> rfl

/-! ### The start -/

/-- Of the faults with one trigger address the map keeps the last. -/
theorem lookup_foldl_insertKey (faults : List Fault) (map : List (ℕ × Fault)) (a : ℕ) :
    (faults.foldl (fun m f => insertKey m f.trigger.address f) map).lookup a
      = (faults.reverse.find? fun f => f.trigger.address = a).or (map.lookup a) := by
  induction faults generalizing map with
  | nil => rfl
  | cons f fs ih =>
    rw [List.foldl_cons, ih, lookup_insertKey, List.reverse_cons, List.find?_append, Option.or_assoc]
    congr 1
    by_cases ha : a = f.trigger.address
    · simp [ha]
    · have hne : ¬ f.trigger.address = a := fun h => ha h.symm
      simp [ha, hne]

theorem initializeFaultHook_eq (faults : List Fault) : s.initializeFaultHook faults
    = { s with
        faults := faults.foldl (fun m f => insertKey m f.trigger.address f) s.faults
        faultHooks := s.faultHooks ++ faults.map fun f => f.trigger.address } := by
  induction faults generalizing s with
  | nil => simp [initializeFaultHook]
  | cons f fs ih =>
    rw [initializeFaultHook, List.foldl_cons, ← initializeFaultHook, ih]
    simp

theorem initializeEndHook_eq (ends : List (ℕ × ℕ)) : s.initializeEndHook ends
    = { s with
        endpoints := ends.foldl (fun m e => insertKey m e.1 e.2) s.endpoints
        endHooks := s.endHooks ++ ends.map Prod.fst } := by
  induction ends generalizing s with
  | nil => simp [initializeEndHook]
  | cons e es ih =>
    rw [initializeEndHook, List.foldl_cons, ← initializeEndHook, ih]
    simp

theorem initializeHooks_eq (cpu : Cpu) (ends : List (ℕ × ℕ)) (faults : List Fault) :
    initializeHooks cpu ends faults = { State.new cpu with
      endpoints := ends.foldl (fun m e => insertKey m e.1 e.2) []
      endHooks := ends.map Prod.fst
      faults := faults.foldl (fun m f => insertKey m f.trigger.address f) []
      faultHooks := faults.map fun f => f.trigger.address } := by
  rw [initializeHooks, initializeFaultHook_eq, initializeEndHook_eq]
  rfl

theorem lookup_initializeHooks (cpu : Cpu) (ends : List (ℕ × ℕ)) (faults : List Fault) (a : ℕ) :
    (initializeHooks cpu ends faults).faults.lookup a
      = faults.reverse.find? fun f => f.trigger.address = a := by
  rw [initializeHooks_eq]
  exact (lookup_foldl_insertKey faults [] a).trans Option.or_none

theorem isSome_lookup_endpoints (ends : List (ℕ × ℕ)) {a : ℕ} (ha : a ∈ ends.map Prod.fst) :
    ((ends.foldl (fun m e => insertKey m e.1 e.2) []).lookup a).isSome := by
  have hgrow : ∀ (es : List (ℕ × ℕ)) (m : List (ℕ × ℕ)), (m.lookup a).isSome ∨ a ∈ es.map Prod.fst →
      ((es.foldl (fun m e => insertKey m e.1 e.2) m).lookup a).isSome := by
    intro es
    induction es with
    | nil => exact fun m h => h.resolve_right (by simp)
    | cons e es ih =>
      intro m h
      refine ih _ ?_
      rw [lookup_insertKey]
      by_cases he : a = e.1
      · exact .inl (by simp [he])
      · rw [if_neg he]
        exact h.imp_right fun h => (List.mem_cons.mp h).resolve_left he
  exact hgrow ends [] (.inr ha)

theorem once_initializeHooks (cpu : Cpu) (ends : List (ℕ × ℕ)) (faults : List Fault) :
    (initializeHooks cpu ends faults).book.Once := by
  have hkeyed : ∀ a f, (initializeHooks cpu ends faults).faults.lookup a = some f →
      f.trigger.address = a := by
    intro a f hlook
    rw [lookup_initializeHooks] at hlook
    have haddr := List.find?_some hlook
    exact of_decide_eq_true haddr
  rw [initializeHooks_eq] at hkeyed ⊢
  exact ⟨hkeyed, nofun, List.nodup_nil, nofun⟩

/-! ### The hooks -/

/-- An injection changes the guest and the logs, and may ask for a re-entry. -/
theorem injectFault_frame {f : Fault} {address data : ℕ}
    (h : s.injectFault env f address = some (s', data)) :
    s'.book = s.book ∧ (f.type = .register → data < 2 ^ 64) ∧ (s'.control = s.control ∨
      s'.control = { s.control with reenterAddress := some address, stopped := true }) := by
  have hmemory : f.type ≠ .register → ((s.faultMemory env f).bind fun p =>
      some ((p.1.requestReenter f address).dumpMemory f.address (calculateFaultSize env f), p.2))
        = some (s', data) → s'.book = s.book ∧ (f.type = .register → data < 2 ^ 64) ∧
      (s'.control = s.control ∨
        s'.control = { s.control with reenterAddress := some address, stopped := true }) := by
    intro hne h
    simp only [faultMemory, Option.bind_eq_some_iff] at h
    obtain ⟨⟨s₁, data₁⟩, h₁, h⟩ := h
    split at h₁
    · obtain ⟨rfl, rfl⟩ := Prod.mk.inj (Option.some.inj h₁)
      obtain ⟨rfl, rfl⟩ := Prod.mk.inj (Option.some.inj h)
      refine ⟨?_, fun hr => absurd hr hne, ?_⟩
      · rw [dumpMemory_book, requestReenter_book]
        exact dumpMemory_book ..
      · have hdump : (s.dumpMemory f.address (calculateFaultSize env f)).control = s.control :=
          dumpMemory_control ..
        rw [dumpMemory_control, ← hdump]
        exact requestReenter_control f address
    · cases h₁
  unfold injectFault at h
  cases ht : f.type with
  | register =>
    simp only [ht, faultRegister] at h
    split at h
    · obtain ⟨rfl, rfl⟩ := Prod.mk.inj (Option.some.inj h)
      exact ⟨rfl, fun _ => (s.cpu.regs f.address).isLt, .inl rfl⟩
    · cases h
  | data =>
    rw [ht] at h
    exact ht ▸ hmemory (by simp [ht]) h
  | instruction =>
    rw [ht] at h
    exact ht ▸ hmemory (by simp [ht]) h

/-- A fault hook runs for faults in the map. -/
theorem faultHookCb_known {address : ℕ} (h : s.faultHookCb env address = some s') :
    ∃ f, s.faults.lookup address = some f := by
  simp only [faultHookCb, Option.bind_eq_bind, Option.bind_eq_some_iff] at h
  obtain ⟨f, hlook, -⟩ := h
  exact ⟨f, hlook⟩

/-- The fault hook leaves a spent fault alone, counts down, or injects. -/
theorem faultHookCb_cases {address : ℕ} {f : Fault} (hlook : s.faults.lookup address = some f)
    (h : s.faultHookCb env address = some s') :
    (f.trigger.hitcounter = 0 ∧ s' = s) ∨
    (1 < f.trigger.hitcounter ∧ s' = { s with
      faults := insertKey s.faults address (f.setHitcounter (f.trigger.hitcounter - 1)) }) ∨
    (f.trigger.hitcounter = 1 ∧ ∃ s₁ data,
      injectFault env { s with faults := insertKey s.faults address (f.setHitcounter 0) }
        (f.setHitcounter 0) address = some (s₁, data) ∧
      s' = (({ s₁ with injected := s₁.injected ++ [⟨f.setHitcounter 0, s₁.instructionCount⟩] }
        : State).addLiveFault (f.setHitcounter 0) data).dumpRegisters) := by
  simp only [faultHookCb, hlook, Option.bind_eq_bind, Option.bind_some] at h
  split at h
  · next hzero =>
    obtain rfl := Option.some.inj h
    exact .inl ⟨hzero, rfl⟩
  · next hzero =>
    split at h
    · next hhit =>
      obtain rfl := Option.some.inj h
      simp only [Fault.setHitcounter] at hhit
      exact .inr (.inl ⟨by omega, rfl⟩)
    · next hhit =>
      have hone : f.trigger.hitcounter = 1 := by
        simp only [Fault.setHitcounter] at hhit; omega
      rw [hone, Nat.sub_self, Option.bind_eq_some_iff] at h
      obtain ⟨⟨s₁, data⟩, hinj, h⟩ := h
      obtain rfl := Option.some.inj h
      exact .inr (.inr ⟨hone, s₁, data, hinj, rfl⟩)

/-- The fault hook counts down and injects at zero; only then it may ask for a re-entry. -/
theorem faultHookCb_step {address : ℕ} (h : s.faultHookCb env address = some s') :
    s.book.Step (some address) s'.book ∧ (s'.control = s.control ∨
      s'.control = { s.control with reenterAddress := some address, stopped := true } ∧
      ∃ f, s'.faults.lookup address = some f ∧ f.trigger.hitcounter = 0) := by
  obtain ⟨f, hlook⟩ := faultHookCb_known h
  rcases faultHookCb_cases hlook h with ⟨hzero, rfl⟩ | ⟨hhit, rfl⟩ | ⟨hone, s₁, data, hinj, rfl⟩
  · exact ⟨.spent address f hlook hzero, .inl rfl⟩
  · exact ⟨.countDown address f hlook hhit, .inl rfl⟩
  · have hinj' : f.Injectable := (injectFault_isSome_iff address).mp (Option.isSome_of_eq_some hinj)
    obtain ⟨hbook, hdata, hcontrol⟩ := injectFault_frame hinj
    simp only [book, Book.mk.injEq] at hbook
    obtain ⟨hfaults, hlive, hcount, hinjected, hundone⟩ := hbook
    refine ⟨?_, hcontrol.imp (fun hc => ?_) fun hc => ⟨?_, f.setHitcounter 0, ?_, rfl⟩⟩
    · refine cast ?_ (Book.Step.inject (b := s.book) address f data hlook hone hinj' hdata)
      rw [dumpRegisters_book]
      congr 1
      simp only [Book.inject, book, addLiveFault]
      split <;> simp [hfaults, hlive, hcount, hinjected, hundone]
    · exact (addLiveFault_control ..).trans hc
    · exact (addLiveFault_control ..).trans hc
    · have hnew : s₁.faults.lookup address = some (f.setHitcounter 0) := by
        rw [hfaults, lookup_insertKey, if_pos rfl]
      exact (congrArg _ (addLiveFault_faults ..)).trans hnew

/-- The fault of the highest priority is undone when its time has come. -/
theorem undoFaults_cases {undone : Option Fault} (h : s.undoFaults env = some (s', undone)) :
    (undone = none ∧ s' = s ∧ ∀ e ∈ s.liveFaults, ¬ s.book.Due e) ∨
    ∃ e ∈ s.liveFaults, s.book.Due e ∧ (∀ e' ∈ s.liveFaults, e'.2 ≤ e.2) ∧
      ∃ f cpu, undone = some f ∧ s.faults.lookup e.1.1 = some f ∧ s' = { s with
        cpu := cpu
        liveFaults := popLive s.liveFaults e.1
        undone := s.undone ++ [(e.1.1, s.instructionCount)] } := by
  unfold undoFaults at h
  cases hpeek : env.peek s.liveFaults with
  | none =>
    simp only [hpeek] at h
    obtain ⟨rfl, rfl⟩ := Prod.mk.inj (Option.some.inj h)
    refine .inl ⟨rfl, rfl, fun e he => ?_⟩
    have hne : s.liveFaults ≠ [] := List.ne_nil_of_mem he
    rw [Option.isSome_iff_exists.mp (env.peek_isSome _ hne) |>.choose_spec] at hpeek
    cases hpeek
  | some top =>
    obtain ⟨⟨address, prefaultData⟩, priority⟩ := top
    obtain ⟨hmem, hmax⟩ := env.peek_max _ _ hpeek
    simp only [hpeek] at h
    split at h
    · next hlate =>
      obtain ⟨rfl, rfl⟩ := Prod.mk.inj (Option.some.inj h)
      refine .inl ⟨rfl, rfl, fun e he hdue => ?_⟩
      have : e.2 ≤ priority := hmax e he
      have : (2 ^ 64 - 1) - e.2 ≤ s.instructionCount := hdue
      omega
    · next hdue =>
      refine .inr ⟨_, hmem, not_lt.mp hdue, hmax, ?_⟩
      split at h
      · cases h
      · next f hlook =>
        split at h
        · split at h
          · obtain ⟨rfl, rfl⟩ := Prod.mk.inj (Option.some.inj h)
            exact ⟨f, _, rfl, hlook, rfl⟩
          · cases h
        all_goals
          obtain ⟨rfl, rfl⟩ := Prod.mk.inj (Option.some.inj h)
          exact ⟨f, _, rfl, hlook, rfl⟩

theorem undoFaults_step {undone : Option Fault} (h : s.undoFaults env = some (s', undone)) :
    s'.control = s.control ∧ ((s'.book = s.book ∧ ∀ e ∈ s.book.liveFaults, ¬ s.book.Due e) ∨
    ∃ e ∈ s.book.liveFaults, s.book.Due e ∧ (∀ e' ∈ s.book.liveFaults, e'.2 ≤ e.2) ∧
      s'.book = s.book.undo e.1) := by
  rcases undoFaults_cases h with ⟨-, rfl, hnone⟩ | ⟨e, hmem, hdue, hmax, f, cpu, -, -, rfl⟩
  · exact ⟨rfl, .inl ⟨rfl, hnone⟩⟩
  · exact ⟨rfl, .inr ⟨e, hmem, hdue, hmax, rfl⟩⟩

/-- It does not fail as long as the books know the fault and registers hold 64 bits. -/
theorem undoFaults_isSome (h : ∀ e ∈ s.liveFaults, ∃ f, s.faults.lookup e.1.1 = some f ∧
    (f.type = .register → e.1.2 < 2 ^ 64)) : (s.undoFaults env).isSome := by
  unfold undoFaults
  cases hpeek : env.peek s.liveFaults with
  | none => rfl
  | some top =>
    obtain ⟨f, hlook, hdata⟩ := h _ (env.peek_max _ _ hpeek).1
    simp only [hlook]
    split
    · rfl
    · split
      · next hr => rw [if_pos (hdata hr)]; rfl
      · rfl
      · rfl

theorem singleStepHookCb_isSome (h : ∀ e ∈ s.liveFaults, ∃ f, s.faults.lookup e.1.1 = some f ∧
    (f.type = .register → e.1.2 < 2 ^ 64)) (address : ℕ) :
    (s.singleStepHookCb env address).isSome := by
  obtain ⟨⟨s₁, undone⟩, hundo⟩ := Option.isSome_iff_exists.mp (undoFaults_isSome h)
  rw [singleStepHookCb, hundo]
  rfl

theorem endHookCb_isSome (h : ∀ e ∈ s.liveFaults, ∃ f, s.faults.lookup e.1.1 = some f ∧
    (f.type = .register → e.1.2 < 2 ^ 64)) {address : ℕ} (hend : (s.endpoints.lookup address).isSome)
    (firstEndpoint : ℕ) (memorydump : List (ℕ × ℕ)) :
    (s.endHookCb env address firstEndpoint memorydump).isSome := by
  obtain ⟨counter, hcounter⟩ := Option.isSome_iff_exists.mp hend
  simp only [endHookCb, hcounter, Option.bind_eq_bind, Option.bind_some]
  split
  · rfl
  · unfold lastSingleStep
    split
    · have hstep : ∀ log, (singleStepHookCb env { s with endpoint := log } address).isSome :=
        fun log => singleStepHookCb_isSome (s := { s with endpoint := log }) h address
      obtain ⟨s₁, h₁⟩ := Option.isSome_iff_exists.mp (hstep _)
      rw [h₁]
      rfl
    · rfl

theorem book_tick : ({ s with instructionCount := s.instructionCount + 1 } : State).book
    = s.book.tick := rfl

theorem book_stop : ({ s with stopped := true } : State).book = s.book := rfl

/-- The single step hook undoes at most one fault. -/
theorem singleStepHookCb_step {address : ℕ} (h : s.singleStepHookCb env address = some s') :
    s.book.Step none s'.book ∧ s'.control = s.control := by
  simp only [singleStepHookCb, Option.bind_eq_bind, Option.bind_eq_some_iff, Option.pure_def] at h
  obtain ⟨⟨s₁, undone⟩, hundo, h⟩ := h
  obtain rfl := Option.some.inj h
  obtain ⟨hcontrol, hbook⟩ := undoFaults_step hundo
  refine ⟨?_, (dumpUndone_control address undone).trans hcontrol⟩
  rcases hbook with ⟨hsame, hnone⟩ | ⟨e, hmem, hdue, hmax, hsame⟩
  · refine cast ?_ (Book.Step.tick (b := s.book) hnone)
    rw [book_tick, dumpUndone_book, hsame]
  · refine cast ?_ (Book.Step.undo (b := s.book) e hmem hdue hmax)
    rw [book_tick, dumpUndone_book, hsame]

theorem lastSingleStep_step {address : ℕ} (h : s.lastSingleStep env address = some s') :
    s.book.Step none s'.book ∧ s'.control = s.control := by
  unfold lastSingleStep at h
  split at h
  · exact singleStepHookCb_step h
  · obtain rfl := Option.some.inj h
    exact ⟨.stay, rfl⟩

/-- The end hook counts its end point down or stops. -/
theorem endHookCb_step {address firstEndpoint : ℕ} {memorydump : List (ℕ × ℕ)}
    (h : s.endHookCb env address firstEndpoint memorydump = some s') :
    s.book.Step none s'.book ∧
      ((∃ n, s'.control = { s.control with endpoints := insertKey s.endpoints address n }) ∨
      s'.control = { s.control with stopped := true }) := by
  simp only [endHookCb, Option.bind_eq_bind, Option.bind_eq_some_iff, Option.pure_def] at h
  obtain ⟨counter, -, h⟩ := h
  split at h
  · obtain rfl := Option.some.inj h
    exact ⟨.stay, .inl ⟨_, rfl⟩⟩
  · obtain ⟨s₁, h₁, h⟩ := Option.bind_eq_some_iff.mp h
    obtain rfl := Option.some.inj h
    obtain ⟨hstep, hcontrol⟩ := lastSingleStep_step h₁
    obtain ⟨hbook, hdump⟩ := foldl_dumpMemory (s := s₁) memorydump
    refine ⟨?_, .inr ?_⟩
    · rw [book_stop, hbook]
      exact hstep
    · have hstop : ∀ s : State, ({ s with stopped := true } : State).control
          = { s.control with stopped := true } := fun _ => rfl
      rw [hstop, hdump, hcontrol]
      rfl

/-- Every callback is a step of the books. -/
theorem callback_step {e : Event} (h : s.callback env e = some s') :
    s.book.Step e.faultAddress s'.book := by
  cases e with
  | guest cpu => obtain rfl := Option.some.inj h; exact .stay
  | block address size => obtain rfl := Option.some.inj h; rw [blockHookCb_book]; exact .stay
  | fault address => exact (faultHookCb_step h).1
  | singleStep address => exact (singleStepHookCb_step h).1
  | endpoint address firstEndpoint memorydump => exact (endHookCb_step h).1

end State

end Archie.Worker
