import Archie.Lib.Run
import Archie.Worker.Book

/-! When the worker undoes temporary faults.

    A fault injected at instruction count `c` with lifespan `L` gets the priority
    `u64::MAX - L + c`, so it is due at `L - c` instead of `c + L`; and each single step undoes one
    fault only. Both are right as long as faults are injected at count zero, with different
    lifespans. -/

namespace Archie.Worker

namespace Book

/-- The undos of the fault with a trigger address. -/
def undosOf (b : Book) (address : ℕ) : List (ℕ × ℕ) := b.undone.filter fun u => u.1 = address

/-- The books of a worker whose temporary faults were all injected at count zero. -/
structure Scheduled (b : Book) : Prop where
  once : b.Once
  lifespan_lt : ∀ (a : ℕ) (f : Fault), b.faults.lookup a = some f → f.lifespan < 2 ^ 32
  known : ∀ i ∈ b.injected, b.faults.lookup i.fault.trigger.address = some i.fault
  first : ∀ i ∈ b.injected, i.fault.lifespan ≠ 0 → i.count = 0
  distinct : ∀ i ∈ b.injected, ∀ j ∈ b.injected, i.fault.lifespan ≠ 0 →
    i.fault.lifespan = j.fault.lifespan → i = j
  live : ∀ e ∈ b.liveFaults, ∃ i ∈ b.injected, i.fault.lifespan ≠ 0 ∧
    e.1.1 = i.fault.trigger.address ∧ e.2 = (2 ^ 64 - 1) - i.fault.lifespan ∧
    b.instructionCount ≤ i.fault.lifespan ∧ (i.fault.type = .register → e.1.2 < 2 ^ 64)
  single : ∀ e ∈ b.liveFaults, ∀ e' ∈ b.liveFaults, e.1.1 = e'.1.1 → e = e'
  waiting : ∀ i ∈ b.injected, i.fault.lifespan ≠ 0 → b.instructionCount ≤ i.fault.lifespan →
    ∃ e ∈ b.liveFaults, e.1.1 = i.fault.trigger.address
  undone : ∀ i ∈ b.injected, i.fault.lifespan ≠ 0 → b.undosOf i.fault.trigger.address
    = if i.fault.lifespan < b.instructionCount then [(i.fault.trigger.address, i.fault.lifespan)]
      else []
  undoKnown : ∀ u ∈ b.undone, ∃ i ∈ b.injected, i.fault.trigger.address = u.1

namespace Scheduled

variable {b b' : Book}

theorem injected_lt (h : b.Scheduled) {i : Injection} (hi : i ∈ b.injected) :
    i.fault.lifespan < 2 ^ 32 := h.lifespan_lt _ _ (h.known i hi)

/-- A trigger address belongs to one fault. -/
theorem fault_eq (h : b.Scheduled) {i j : Injection} (hi : i ∈ b.injected) (hj : j ∈ b.injected)
    (ha : i.fault.trigger.address = j.fault.trigger.address) : i.fault = j.fault := by
  have hi := h.known i hi
  rw [ha, h.known j hj] at hi
  exact (Option.some.inj hi).symm

/-- A live fault is due once the count has reached its lifespan. -/
theorem due_iff (h : b.Scheduled) {e : LiveFault × ℕ} {i : Injection} (hi : i ∈ b.injected)
    (hprio : e.2 = (2 ^ 64 - 1) - i.fault.lifespan) :
    b.Due e ↔ i.fault.lifespan ≤ b.instructionCount := by
  have := h.injected_lt hi
  unfold Due
  omega

/-! ### One step -/

theorem lifespan_lt_insert (h : b.Scheduled) {a : ℕ} {f : Fault} (n : ℕ)
    (hlook : b.faults.lookup a = some f) (a' : ℕ) (f' : Fault)
    (hlook' : (insertKey b.faults a (f.setHitcounter n)).lookup a' = some f') :
    f'.lifespan < 2 ^ 32 := by
  rw [lookup_insertKey] at hlook'
  split at hlook'
  · obtain rfl := Option.some.inj hlook'
    exact h.lifespan_lt a f hlook
  · exact h.lifespan_lt a' f' hlook'

theorem known_insert (h : b.Scheduled) {a : ℕ} {f f' : Fault} (hlook : b.faults.lookup a = some f)
    (hhit : 0 < f.trigger.hitcounter) {i : Injection} (hi : i ∈ b.injected) :
    (insertKey b.faults a f').lookup i.fault.trigger.address = some i.fault := by
  rw [lookup_insertKey, if_neg (h.once.address_ne hlook hhit hi)]
  exact h.known i hi

theorem countDown (h : b.Scheduled) {a : ℕ} {f : Fault} (hlook : b.faults.lookup a = some f)
    (hhit : 1 < f.trigger.hitcounter) : (b.countDown a f).Scheduled where
  once := h.once.step (.countDown a f hlook hhit)
  lifespan_lt := h.lifespan_lt_insert _ hlook
  known i hi := h.known_insert hlook (by omega) hi
  first := h.first
  distinct := h.distinct
  live := h.live
  single := h.single
  waiting := h.waiting
  undone := h.undone
  undoKnown := h.undoKnown

theorem inject (h : b.Scheduled) {a data : ℕ} {f : Fault} (hlook : b.faults.lookup a = some f)
    (hhit : f.trigger.hitcounter = 1) (hinj : f.Injectable) (hdata : f.type = .register → data < 2 ^ 64)
    (hfirst : f.lifespan ≠ 0 → b.instructionCount = 0 ∧
      ∀ i ∈ b.injected, i.fault.lifespan ≠ f.lifespan) :
    (b.inject a (f.setHitcounter 0) data).Scheduled := by
  have hkey := h.once.keyed a f hlook
  have hspan := h.lifespan_lt a f hlook
  have hne : ∀ i ∈ b.injected, i.fault.trigger.address ≠ a := fun i hi =>
    h.once.address_ne hlook (by omega) hi
  have hold : ∀ i ∈ b.injected, i ∈ (b.inject a (f.setHitcounter 0) data).injected := fun i hi =>
    List.mem_append_left _ hi
  have hnew : (⟨f.setHitcounter 0, b.instructionCount⟩ : Injection)
      ∈ (b.inject a (f.setHitcounter 0) data).injected :=
    List.mem_append_right _ (List.mem_singleton_self _)
  have hprio : f.lifespan ≠ 0 → State.livePriority f.lifespan b.instructionCount
      = (2 ^ 64 - 1) - f.lifespan := fun hl => by
    rw [(hfirst hl).1, State.livePriority]; omega
  have hliveOld : ∀ e ∈ b.liveFaults, e.1.1 ≠ f.trigger.address := fun e he ha => by
    obtain ⟨i, hi, -, haddr, -⟩ := h.live e he
    exact hne i hi (haddr.symm.trans (ha.trans hkey))
  refine ⟨h.once.step (.inject a f data hlook hhit hinj hdata), h.lifespan_lt_insert 0 hlook,
    fun i hi => ?_, fun i hi hl => ?_, fun i hi j hj hl hij => ?_, fun e he => ?_,
    fun e he e' he' haddr => ?_, fun i hi hl hle => ?_, fun i hi hl => ?_, fun u hu => ?_⟩
  · -- known
    rcases mem_injected_inject hi with hi | rfl
    · exact h.known_insert hlook (by omega) hi
    · have hself : (f.setHitcounter 0).trigger.address = a := hkey
      simp only [Book.inject, lookup_insertKey, if_pos hself]
  · -- first
    rcases mem_injected_inject hi with hi | rfl
    · exact h.first i hi hl
    · exact (hfirst hl).1
  · -- distinct
    rcases mem_injected_inject hi with hi | rfl <;> rcases mem_injected_inject hj with hj | rfl
    · exact h.distinct i hi j hj hl hij
    · exact absurd hij ((hfirst (by rw [hij] at hl; exact hl)).2 i hi)
    · exact absurd hij.symm ((hfirst hl).2 j hj)
    · rfl
  · -- live
    rcases mem_liveFaults_inject he with he | ⟨hl, rfl⟩
    · obtain ⟨i, hi, hrest⟩ := h.live e he
      exact ⟨i, hold i hi, hrest⟩
    · have hzero : b.instructionCount = 0 := (hfirst hl).1
      have hle : b.instructionCount ≤ f.lifespan := by omega
      exact ⟨_, hnew, hl, rfl, hprio hl, hle, hdata⟩
  · -- single
    rcases mem_liveFaults_inject he with he | ⟨-, rfl⟩ <;>
      rcases mem_liveFaults_inject he' with he' | ⟨-, rfl⟩
    · exact h.single e he e' he' haddr
    · exact absurd haddr (hliveOld e he)
    · exact absurd haddr.symm (hliveOld e' he')
    · rfl
  · -- waiting
    rcases mem_injected_inject hi with hi | rfl
    · obtain ⟨e, he, haddr⟩ := h.waiting i hi hl hle
      exact ⟨e, old_mem_liveFaults_inject he (hliveOld e he), haddr⟩
    · exact ⟨_, new_mem_liveFaults_inject hl, rfl⟩
  · -- undone
    rcases mem_injected_inject hi with hi | rfl
    · exact h.undone i hi hl
    · have hzero : b.instructionCount = 0 := (hfirst hl).1
      have hnone : ¬ f.lifespan < b.instructionCount := by omega
      refine Eq.trans ?_ (if_neg hnone).symm
      refine List.filter_eq_nil_iff.mpr fun u hu huaddr => ?_
      obtain ⟨i, hi, haddr⟩ := h.undoKnown u hu
      exact hne i hi (haddr.trans ((of_decide_eq_true huaddr).trans hkey))
  · -- undoKnown
    obtain ⟨i, hi, haddr⟩ := h.undoKnown u hu
    exact ⟨i, hold i hi, haddr⟩

/-- An instruction passes, nothing is due. -/
theorem tick (h : b.Scheduled) (hnone : ∀ e ∈ b.liveFaults, ¬ b.Due e) : b.tick.Scheduled where
  once := h.once.step (.tick hnone)
  lifespan_lt := h.lifespan_lt
  known := h.known
  first := h.first
  distinct := h.distinct
  live e he := by
    obtain ⟨i, hi, hl, haddr, hprio, -, hdata⟩ := h.live e he
    have hlate := hnone e he
    rw [h.due_iff hi hprio] at hlate
    exact ⟨i, hi, hl, haddr, hprio, Nat.lt_of_not_le hlate, hdata⟩
  single := h.single
  waiting i hi hl hle := h.waiting i hi hl (Nat.le_of_succ_le hle)
  undone i hi hl := by
    have hne : i.fault.lifespan ≠ b.instructionCount := by
      intro heq
      obtain ⟨e, he, haddr⟩ := h.waiting i hi hl heq.ge
      obtain ⟨j, hj, -, haddr', hprio, -⟩ := h.live e he
      have hsame : j.fault = i.fault := h.fault_eq hj hi (haddr'.symm.trans haddr)
      exact hnone e he ((h.due_iff hj hprio).mpr (hsame ▸ heq.le))
    refine (h.undone i hi hl).trans (if_congr ?_ rfl rfl)
    simp only [Book.tick]
    omega
  undoKnown := h.undoKnown

/-- A fault that is due is undone at exactly its count. -/
theorem undo (h : b.Scheduled) {e : LiveFault × ℕ} (he : e ∈ b.liveFaults) (hdue : b.Due e)
    (hmax : ∀ e' ∈ b.liveFaults, e'.2 ≤ e.2) : (b.undo e.1).tick.Scheduled := by
  obtain ⟨j, hj, hjl, hjaddr, hjprio, hjle, -⟩ := h.live e he
  have hjcount : j.fault.lifespan = b.instructionCount := by
    have := (h.due_iff hj hjprio).mp hdue
    omega
  -- no other fault has this lifespan
  have hcount : ∀ i ∈ b.injected, i.fault.lifespan ≠ 0 →
      (i.fault.trigger.address = e.1.1 ↔ i.fault.lifespan = b.instructionCount) := by
    intro i hi hl
    constructor
    · intro haddr
      rw [h.fault_eq hi hj (haddr.trans hjaddr), hjcount]
    · intro hspan
      rw [h.distinct i hi j hj hl (hspan.trans hjcount.symm), hjaddr]
  refine ⟨h.once.step (.undo e he hdue hmax), h.lifespan_lt, h.known, h.first, h.distinct,
    fun e' he' => ?_, fun e₁ h₁ e₂ h₂ => ?_,
    fun i hi hl hle => ?_, fun i hi hl => ?_, fun u hu => ?_⟩
  · -- live
    obtain ⟨hmem, hne⟩ := List.mem_filter.mp he'
    obtain ⟨i, hi, hl, haddr, hprio, hle, hdata⟩ := h.live e' hmem
    refine ⟨i, hi, hl, haddr, hprio, Nat.lt_of_le_of_ne hle fun heq => ?_, hdata⟩
    have hsame : e' = e := h.single e' hmem e he (haddr.trans ((hcount i hi hl).mpr heq.symm))
    exact of_decide_eq_true hne (by rw [hsame])
  · -- single
    exact h.single e₁ (List.mem_filter.mp h₁).1 e₂ (List.mem_filter.mp h₂).1
  · -- waiting
    have hle' : b.instructionCount + 1 ≤ i.fault.lifespan := hle
    obtain ⟨e', hmem, haddr⟩ := h.waiting i hi hl (by omega)
    refine ⟨e', List.mem_filter.mpr ⟨hmem, decide_eq_true fun heq => ?_⟩, haddr⟩
    have := (hcount i hi hl).mp (by rw [← haddr, heq])
    omega
  · -- undone
    have hadd : (b.undo e.1).tick.undosOf i.fault.trigger.address
        = b.undosOf i.fault.trigger.address ++ if e.1.1 = i.fault.trigger.address
          then [(e.1.1, b.instructionCount)] else [] := by
      simp only [undosOf, Book.tick, Book.undo, List.filter_append, List.filter_singleton,
        Bool.cond_decide]
    rw [hadd, h.undone i hi hl]
    have hnext : (b.undo e.1).tick.instructionCount = b.instructionCount + 1 := rfl
    by_cases haddr : e.1.1 = i.fault.trigger.address
    · have hspan := (hcount i hi hl).mp haddr.symm
      rw [if_pos haddr, if_neg (by omega), if_pos (by omega), haddr, hspan, List.nil_append]
    · have hspan : i.fault.lifespan ≠ b.instructionCount := fun heq =>
        haddr ((hcount i hi hl).mpr heq).symm
      rw [if_neg haddr, List.append_nil]
      exact if_congr (by rw [hnext]; omega) rfl rfl
  · -- undoKnown
    rcases List.mem_append.mp hu with hu | hu
    · exact h.undoKnown u hu
    · exact ⟨j, hj, by rw [List.mem_singleton.mp hu, hjaddr]⟩

/-- Temporary faults are to be injected at count zero, with lifespans of their own. -/
def InjectsFirst (b : Book) (label : Option ℕ) : Prop :=
  ∀ a f, label = some a → b.faults.lookup a = some f → f.trigger.hitcounter = 1 → f.lifespan ≠ 0 →
    b.instructionCount = 0 ∧ ∀ i ∈ b.injected, i.fault.lifespan ≠ f.lifespan

theorem step {label : Option ℕ} (h : b.Scheduled) (hfirst : InjectsFirst b label)
    (hstep : b.Step label b') : b'.Scheduled := by
  cases hstep with
  | stay => exact h
  | spent => exact h
  | countDown a f hlook hhit => exact h.countDown hlook hhit
  | inject a f data hlook hhit hinj hdata =>
    exact h.inject hlook hhit hinj hdata (hfirst a f rfl hlook hhit)
  | tick hnone => exact h.tick hnone
  | undo e hmem hdue hmax => exact h.undo hmem hdue hmax

end Scheduled

end Book

/-! ### Whole runs -/

/-- Every temporary fault was undone by the single step at its time, if that has come, and by no
    other; its priority fits into 64 bits; the next single step does not fail. -/
structure ExpiresOnTime (env : Env) (s : State) : Prop where
  undone : ∀ i ∈ s.injected, i.fault.lifespan ≠ 0 → s.book.undosOf i.fault.trigger.address
    = if i.count + i.fault.lifespan < s.instructionCount then
        [(i.fault.trigger.address, i.count + i.fault.lifespan)]
      else []
  priority : ∀ i ∈ s.injected, i.fault.lifespan ≠ 0 →
    (2 ^ 64 - 1) - i.fault.lifespan + i.count < 2 ^ 64
  runs : ∀ address, (s.singleStepHookCb env address).isSome

/-- A fault hook that injects a temporary fault does so at count zero, and no fault injected before
    has the same lifespan. -/
def InjectsFirst (s : State) (e : Event) : Prop :=
  ∀ a f, e.faultAddress = some a → s.faults.lookup a = some f → f.trigger.hitcounter = 1 →
    f.lifespan ≠ 0 → s.instructionCount = 0 ∧ ∀ i ∈ s.injected, i.fault.lifespan ≠ f.lifespan

variable {env : Env} {s : State}

theorem Book.Scheduled.expiresOnTime (h : s.book.Scheduled) : ExpiresOnTime env s := by
  refine ⟨fun i hi hl => ?_, fun i hi hl => ?_, fun address => ?_⟩
  · rw [h.first i hi hl, Nat.zero_add]
    exact h.undone i hi hl
  · have := h.injected_lt hi
    rw [h.first i hi hl]
    omega
  · refine State.singleStepHookCb_isSome (fun e he => ?_) address
    obtain ⟨i, hi, -, haddr, -, -, hdata⟩ := h.live e he
    exact ⟨i.fault, haddr ▸ h.known i hi, hdata⟩

theorem scheduled_start (cpu : Cpu) (ends : List (ℕ × ℕ)) {faults : List Fault}
    (hspan : ∀ f ∈ faults, f.lifespan < 2 ^ 32) :
    (State.initializeHooks cpu ends faults).book.Scheduled := by
  have hlifespan : ∀ a f, (State.initializeHooks cpu ends faults).faults.lookup a = some f →
      f.lifespan < 2 ^ 32 := by
    intro a f hlook
    rw [State.lookup_initializeHooks] at hlook
    exact hspan f (List.mem_reverse.mp (List.mem_of_find?_eq_some hlook))
  have honce := State.once_initializeHooks cpu ends faults
  rw [State.initializeHooks_eq] at hlifespan honce ⊢
  exact ⟨honce, hlifespan, nofun, nofun, nofun, nofun, nofun, nofun, nofun, nofun⟩

/-- In a run that injects its temporary faults at count zero, with lifespans of their own, each is
    undone exactly when its lifespan is over. -/
theorem always_expiresOnTime (cpu : Cpu) (ends : List (ℕ × ℕ)) {faults : List Fault}
    (hspan : ∀ f ∈ faults, f.lifespan < 2 ^ 32) (es : List Event)
    (hfirst : Run.EveryStep (State.callback env) InjectsFirst
      (State.initializeHooks cpu ends faults) es) :
    Run.Always (State.callback env) (ExpiresOnTime env)
      (State.initializeHooks cpu ends faults) es :=
  Run.always_of_everyStep (I := fun s => s.book.Scheduled)
    (fun _ h => h.expiresOnTime)
    (fun _ _ _ h hC hstep => h.step (fun a f => hC a f) (State.callback_step hstep))
    (scheduled_start cpu ends hspan) hfirst

/-- A register fault for `lifespan` instructions. -/
def temporaryFault (trigger lifespan : ℕ) : Fault :=
  ⟨⟨trigger, 1⟩, 3, .register, .set1, 1, lifespan, 0⟩

def zeroCpu : Cpu := ⟨fun _ => 0, fun _ => 0⟩

/-- Two faults are injected at count zero, the one with the shorter lifespan second. -/
theorem always_expiresOnTime_twoFaults : Run.Always (State.callback Env.plain) (ExpiresOnTime Env.plain)
    (State.initializeHooks zeroCpu [] [temporaryFault 0x104 2, temporaryFault 0x108 1])
    [.fault 0x104, .fault 0x108, .singleStep 0x108, .singleStep 0x10c, .singleStep 0x110] := by
  refine always_expiresOnTime zeroCpu [] (by decide) _ ?_
  refine ⟨fun a f _ _ _ _ => ⟨rfl, nofun⟩, fun _ h => ?_⟩
  obtain rfl := Option.some.inj h
  refine ⟨fun a f ha hlook _ _ => ?_, fun _ _ => ?_⟩
  · obtain rfl := Option.some.inj ha
    obtain rfl : temporaryFault 0x108 1 = f := Option.some.inj hlook
    exact ⟨rfl, by decide⟩
  · exact ⟨nofun, fun _ _ => ⟨nofun, fun _ _ => ⟨nofun, fun _ _ => trivial⟩⟩⟩

/-- The second fault is injected at count 1 for three instructions, so it should be undone at
    count 4; it is undone at count 2. -/
theorem laterFault_not_expiresOnTime : ¬ Run.Always (State.callback Env.plain) (ExpiresOnTime Env.plain)
    (State.initializeHooks zeroCpu [] [temporaryFault 0x104 9, temporaryFault 0x108 3])
    [.fault 0x104, .singleStep 0x104, .fault 0x108, .singleStep 0x108, .singleStep 0x10c] := by
  intro h
  have hlast := (((((h.2 _ rfl).2 _ rfl).2 _ rfl).2 _ rfl).2 _ rfl).head
  have hundone := hlast.undone ⟨(temporaryFault 0x108 3).setHitcounter 0, 1⟩ (by decide) (by decide)
  exact absurd hundone (by decide)

end Archie.Worker
