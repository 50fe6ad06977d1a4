import Archie.Lib.Run
import Archie.Worker.Undo

/-! The memory dumps of one temporary fault in memory.

    The injection dumps the bytes of the fault twice, under the address of the fault. The undo dumps
    once more, under the address of the instruction at which it happens:

        waiting ──inject──▶ live ──undo──▶ done
                [before, after]    [before, after, undone], if that instruction is the fault's -/

namespace Archie.Worker
namespace State

variable {env : Env} {s s' : State} {f : Fault} {address : ℕ}

/-! ### What a hook adds to the dumps -/

/-- The dumps of an address after one more; the length is that of the first. -/
def addDump (m : Option MemDump) (size : ℕ) (dump : List Byte) : MemDump :=
  ⟨(m.map MemDump.len).getD size, (m.map MemDump.dumps).getD [] ++ [dump]⟩

theorem lookup_dumpMemory (address size a : ℕ) : (s.dumpMemory address size).memdumps.lookup a =
    if a = address then some (addDump (s.memdumps.lookup address) size (s.cpu.read address size))
    else s.memdumps.lookup a := by
  unfold dumpMemory
  split
  · next m hm => simp [lookup_insertKey, addDump, hm]
  · next hm => simp [lookup_insertKey, addDump, hm]

theorem lookup_foldl_dumpMemory {memorydump : List (ℕ × ℕ)} {a : ℕ}
    (ha : a ∉ memorydump.map Prod.fst) :
    (memorydump.foldl (fun s d => s.dumpMemory d.1 d.2) s).memdumps.lookup a = s.memdumps.lookup a := by
  induction memorydump generalizing s with
  | nil => rfl
  | cons d ds ih =>
    rw [List.map_cons, List.mem_cons, not_or] at ha
    rw [List.foldl_cons, ih ha.2, lookup_dumpMemory, if_neg ha.1]

theorem foldl_dumpMemory_cpu (memorydump : List (ℕ × ℕ)) :
    (memorydump.foldl (fun s d => s.dumpMemory d.1 d.2) s).cpu = s.cpu := by
  induction memorydump generalizing s with
  | nil => rfl
  | cons d ds ih => rw [List.foldl_cons, ih, dumpMemory_cpu]

/-- What an undo of a fault in memory adds, at the address of the instruction. -/
structure Undone (env : Env) (s s' : State) (address : ℕ) (e : LiveFault × ℕ) (f : Fault) : Prop where
  mem : e ∈ s.liveFaults
  due : s.book.Due e
  lookup : s.faults.lookup e.1.1 = some f
  book : s'.book = (s.book.undo e.1).tick
  memdumps : f.type ≠ .register → ∀ a, s'.memdumps.lookup a =
    if a = address then some (addDump (s.memdumps.lookup address) (calculateFaultSize env f)
      (s'.cpu.read address (calculateFaultSize env f)))
    else s.memdumps.lookup a

theorem singleStepHookCb_cases (h : s.singleStepHookCb env address = some s') :
    (s' = { s with instructionCount := s.instructionCount + 1 } ∧
      ∀ e ∈ s.liveFaults, ¬ s.book.Due e) ∨ ∃ e f, Undone env s s' address e f := by
  simp only [singleStepHookCb, Option.bind_eq_bind, Option.bind_eq_some_iff, Option.pure_def] at h
  obtain ⟨⟨s₁, undone⟩, hundo, h⟩ := h
  obtain rfl := Option.some.inj h
  rcases undoFaults_cases hundo with 
    ⟨rfl, rfl, hnone⟩ | ⟨e, hmem, hdue, -, f, cpu, rfl, hlook, rfl⟩
  · exact .inl ⟨rfl, hnone⟩
  · refine .inr ⟨e, f, hmem, hdue, hlook, ?_, fun hm a => ?_⟩
    · rw [book_tick, dumpUndone_book]
      rfl
    · simp only [dumpUndone, if_pos hm, dumpRegisters]
      rw [lookup_dumpMemory, dumpMemory_cpu]

end State

/-- What the user wants dumped at an end point. -/
def Event.memorydump : Event → List (ℕ × ℕ)
  | .endpoint _ _ memorydump => memorydump
  | _ => []

/-- The instruction for which an event runs the single step hook. -/
def Event.stepsAt (s : State) : Event → Option ℕ
  | .singleStep address => some address
  | .endpoint address _ _ =>
    if s.singleStepHook = true ∧ (s.endpoints.lookup address).any (· ≤ 1) = true then some address
    else none
  | _ => none

namespace State

variable {env : Env} {s s' : State} {f : Fault} {address : ℕ}

/-- No fault is injected or undone, and nothing is dumped but what the user wants. -/
structure Quiet (memorydump : List (ℕ × ℕ)) (e : Event) (s s' : State) : Prop where
  book : s'.book = s.book ∨ s'.book = s.book.tick
  pending : (e.stepsAt s).isSome → ∀ l ∈ s.liveFaults, ¬ s.book.Due l
  memdumps : ∀ a ∉ memorydump.map Prod.fst, s'.memdumps.lookup a = s.memdumps.lookup a

/-- An end hook dumps what the user wants after the undo, if there is one. -/
theorem endHookCb_cases {firstEndpoint : ℕ} {memorydump : List (ℕ × ℕ)}
    (h : s.endHookCb env address firstEndpoint memorydump = some s') :
    Quiet memorydump (.endpoint address firstEndpoint memorydump) s s' ∨
      address ∈ (Event.endpoint address firstEndpoint memorydump).stepsAt s ∧
        ∃ s₁ e f, Undone env s s₁ address e f ∧ s'.book = s₁.book ∧ s'.cpu = s₁.cpu ∧
        ∀ a ∉ memorydump.map Prod.fst, s'.memdumps.lookup a = s₁.memdumps.lookup a := by
  simp only [endHookCb, Option.bind_eq_bind, Option.bind_eq_some_iff, Option.pure_def] at h
  obtain ⟨counter, hcounter, h⟩ := h
  split at h
  · next hmore =>
    obtain rfl := Option.some.inj h
    refine .inl ⟨.inl rfl, fun hsteps => ?_, fun _ _ => rfl⟩
    simp [Event.stepsAt, hcounter, not_le.mpr hmore] at hsteps
  · next hlast =>
    obtain ⟨s₁, h₁, h⟩ := Option.bind_eq_some_iff.mp h
    obtain rfl := Option.some.inj h
    have hbook : ({ memorydump.foldl (fun s d => s.dumpMemory d.1 d.2) s₁ with stopped := true }
        : State).book = s₁.book := (foldl_dumpMemory memorydump).1
    unfold lastSingleStep at h₁
    split at h₁
    · next hhook =>
      rcases singleStepHookCb_cases h₁ with ⟨rfl, hnone⟩ | ⟨e, f, hundone⟩
      · exact .inl ⟨.inr hbook, fun _ => hnone, fun a ha => lookup_foldl_dumpMemory ha⟩
      · have hsteps : address ∈ (Event.endpoint address firstEndpoint memorydump).stepsAt s := by
          have hhook' : s.singleStepHook = true := hhook
          simp [Event.stepsAt, hhook', hcounter, not_lt.mp hlast]
        refine .inr ⟨hsteps, s₁, e, f, ?_, hbook, foldl_dumpMemory_cpu memorydump,
          fun a ha => lookup_foldl_dumpMemory ha⟩
        exact ⟨hundone.mem, hundone.due, hundone.lookup, hundone.book, hundone.memdumps⟩
    · next hhook =>
      obtain rfl := Option.some.inj h₁
      refine .inl ⟨.inl hbook, fun hsteps => ?_, fun a ha => lookup_foldl_dumpMemory ha⟩
      have hhook' : ¬s.singleStepHook = true := hhook
      simp [Event.stepsAt, hhook'] at hsteps

/-- A callback that is no fault hook is quiet or undoes a fault. -/
theorem callback_cases {memorydump : List (ℕ × ℕ)} {e : Event} (hd : e.memorydump ⊆ memorydump)
    (hfault : e.faultAddress = none) (h : s.callback env e = some s') :
    Quiet memorydump e s s' ∨ ∃ address ∈ e.stepsAt s, ∃ s₁ e f, Undone env s s₁ address e f ∧
      s'.book = s₁.book ∧ s'.cpu = s₁.cpu ∧
      ∀ a ∉ memorydump.map Prod.fst, s'.memdumps.lookup a = s₁.memdumps.lookup a := by
  cases e with
  | guest cpu =>
    obtain rfl := Option.some.inj h
    exact .inl ⟨.inl rfl, fun hsteps => absurd hsteps Bool.false_ne_true, fun _ _ => rfl⟩
  | block address size =>
    obtain rfl := Option.some.inj h
    refine .inl ⟨.inl (blockHookCb_book ..), fun hsteps => absurd hsteps Bool.false_ne_true,
      fun a _ => ?_⟩
    unfold blockHookCb
    simp only []
    repeat' split
    all_goals rfl
  | fault address => cases hfault
  | singleStep address =>
    rcases singleStepHookCb_cases h with ⟨rfl, hnone⟩ | ⟨e, f, hundone⟩
    · exact .inl ⟨.inr rfl, fun _ => hnone, fun _ _ => rfl⟩
    · exact .inr ⟨address, rfl, s', e, f, hundone, rfl, rfl, fun _ _ => rfl⟩
  | endpoint address firstEndpoint dump =>
    have hout : ∀ a ∉ memorydump.map Prod.fst, a ∉ dump.map Prod.fst :=
      fun a ha hmem => ha (List.map_subset _ hd hmem)
    rcases endHookCb_cases h with hquiet | ⟨hsteps, s₁, e, f, hundone, hbook, hcpu, hdumps⟩
    · exact .inl ⟨hquiet.book, hquiet.pending, fun a ha => hquiet.memdumps a (hout a ha)⟩
    · exact .inr ⟨address, hsteps, s₁, e, f, hundone, hbook, hcpu, fun a ha => hdumps a (hout a ha)⟩

@[simp] theorem requestReenter_memdumps : (s.requestReenter f address).memdumps = s.memdumps := by
  unfold requestReenter; split <;> rfl

@[simp] theorem addLiveFault_memdumps (prefaultData : ℕ) :
    (s.addLiveFault f prefaultData).memdumps = s.memdumps := by
  unfold addLiveFault; split <;> rfl

/-- An injection in memory dumps the bytes before and after. -/
theorem injectFault_memdumps {data : ℕ} (hm : f.type ≠ .register)
    (h : s.injectFault env f address = some (s', data)) (a : ℕ) : s'.memdumps.lookup a =
      if a = f.address then
        some (addDump (some (addDump (s.memdumps.lookup f.address) (calculateFaultSize env f)
          (s.cpu.read f.address (calculateFaultSize env f)))) (calculateFaultSize env f)
          (s'.cpu.read f.address (calculateFaultSize env f)))
      else s.memdumps.lookup a := by
  obtain ⟨rfl, -, -⟩ := injectFault_memory hm h
  rw [lookup_dumpMemory, dumpMemory_cpu, requestReenter_memdumps]
  simp only [lookup_dumpMemory, if_true]
  split <;> rfl

/-- A due fault in memory is injected and dumped twice. -/
theorem faultHookCb_memory (hm : f.type ≠ .register) (hlook : s.faults.lookup address = some f)
    (hdue : f.trigger.hitcounter = 1) (h : s.faultHookCb env address = some s') :
    (∃ data, s'.book = s.book.inject address (f.setHitcounter 0) data) ∧
    ∀ a, s'.memdumps.lookup a =
      if a = f.address then
        some (addDump (some (addDump (s.memdumps.lookup f.address) (calculateFaultSize env f)
          (s.cpu.read f.address (calculateFaultSize env f)))) (calculateFaultSize env f)
          (s'.cpu.read f.address (calculateFaultSize env f)))
      else s.memdumps.lookup a := by
  constructor
  · generalize hb : s'.book = b'
    have hstep := hb ▸ (faultHookCb_step h).1
    cases hstep with
    | spent _ g hg hzero => rw [Option.some.inj (hlook.symm.trans hg)] at hdue; omega
    | countDown _ g hg hmore => rw [Option.some.inj (hlook.symm.trans hg)] at hdue; omega
    | inject _ g data hg => exact ⟨data, by rw [Option.some.inj (hlook.symm.trans hg)]⟩
  · rcases faultHookCb_cases hlook h with ⟨hzero, -⟩ | ⟨hmore, -⟩ | ⟨-, s₁, data, hinject, rfl⟩
    · omega
    · omega
    · intro a
      have hm' : (f.setHitcounter 0).type ≠ .register := hm
      simp only [dumpRegisters, addLiveFault_memdumps, addLiveFault_cpu]
      exact injectFault_memdumps hm' hinject a

end State

/-! ### Runs -/

/-- A run and the bytes that the fault's dumps should show: before and after its injection, and after
    its undo. -/
structure Watched where
  state : State
  seen : List (List Byte)

namespace Watched

variable (env : Env) (f : Fault)

/-- The bytes that the fault changes. -/
def faultBytes (s : State) : List Byte := s.cpu.read f.address (calculateFaultSize env f)

def advance (w : Watched) (s : State) : Watched where
  state := s
  seen := w.seen ++
    (if w.state.injected.length < s.injected.length then [faultBytes env f w.state, faultBytes env f s]
      else []) ++
    if w.state.undone.length < s.undone.length then [faultBytes env f s] else []

def step (w : Watched) (e : Event) : Option Watched :=
  (w.state.callback env e).map (w.advance env f)

/-- A worker with one fault. -/
def start (cpu : Cpu) (ends : List (ℕ × ℕ)) : Watched := ⟨State.initializeHooks cpu ends [f], []⟩

variable (memorydump : List (ℕ × ℕ))

/-- The dumps of a state, but for what the user wants. -/
def OnlyDump (s : State) (dump : Option MemDump) : Prop :=
  ∀ a ∉ memorydump.map Prod.fst, s.memdumps.lookup a = if a = f.address then dump else none

/-- After the undo the address of the fault has three dumps, no other address has one. -/
def ThreeDumps (w : Watched) : Prop :=
  w.state.undone ≠ [] → ∃ before after restored, w.seen = [before, after, restored] ∧
    (∀ dump ∈ w.seen, dump.length = calculateFaultSize env f) ∧
    OnlyDump f memorydump w.state (some ⟨calculateFaultSize env f, [before, after, restored]⟩)

/-- A single step that undoes the fault is one of the instruction at the fault's address. -/
def UndoneInPlace (w : Watched) (e : Event) : Prop :=
  (∃ l ∈ w.state.liveFaults, w.state.book.Due l) → ∀ a ∈ e.stepsAt w.state, a = f.address

/-- The map holds the fault and nothing else. -/
def Holds (s : State) (n : ℕ) : Prop :=
  ∀ a, s.faults.lookup a = if a = f.trigger.address then some (f.setHitcounter n) else none

inductive Phase : Watched → Prop where
  | waiting (s : State) (n : ℕ) (hfaults : Holds f s n) (hlive : s.liveFaults = [])
      (hundone : s.undone = []) (hdumps : OnlyDump f memorydump s none) : Phase ⟨s, []⟩
  | live (s : State) (e : LiveFault × ℕ) (before after : List Byte) (hfaults : Holds f s 0)
      (hlive : s.liveFaults = [e]) (haddr : e.1.1 = f.trigger.address) (hundone : s.undone = [])
      (hlen : ∀ dump ∈ [before, after], dump.length = calculateFaultSize env f)
      (hdumps : OnlyDump f memorydump s (some ⟨calculateFaultSize env f, [before, after]⟩)) :
      Phase ⟨s, [before, after]⟩
  | done (s : State) (before after restored : List Byte) (hfaults : Holds f s 0)
      (hlive : s.liveFaults = []) (hundone : s.undone ≠ [])
      (hlen : ∀ dump ∈ [before, after, restored], dump.length = calculateFaultSize env f)
      (hdumps : OnlyDump f memorydump s
        (some ⟨calculateFaultSize env f, [before, after, restored]⟩)) :
      Phase ⟨s, [before, after, restored]⟩

variable {env : Env} {f : Fault} {memorydump : List (ℕ × ℕ)} {w w' : Watched} {s s' : State}
  {seen : List (List Byte)}

theorem Phase.threeDumps (h : Phase env f memorydump w) : ThreeDumps env f memorydump w := by
  cases h with
  | waiting s n hfaults hlive hundone hdumps => exact fun hne => absurd hundone hne
  | live s e before after hfaults hlive haddr hundone hlen hdumps => exact fun hne => absurd hundone hne
  | done s before after restored hfaults hlive hundone hlen hdumps =>
    exact fun _ => ⟨before, after, restored, rfl, hlen, hdumps⟩

theorem Phase.start (cpu : Cpu) (ends : List (ℕ × ℕ)) :
    Phase env f memorydump (start f cpu ends) := by
  have hfaults : Holds f (State.initializeHooks cpu ends [f]) f.trigger.hitcounter := by
    intro a
    rw [State.lookup_initializeHooks]
    split
    · next ha => simp [ha, Fault.setHitcounter]
    · next ha => simp [Ne.symm ha]
  refine .waiting _ f.trigger.hitcounter hfaults ?_ ?_ ?_
  all_goals rw [State.initializeHooks_eq]
  · rfl
  · rfl
  · intro a _
    split <;> rfl

/-- The phase depends on the books and on the dumps that the user does not want. -/
theorem Phase.congr (h : Phase env f memorydump ⟨s, seen⟩) (hfaults : s'.faults = s.faults)
    (hlive : s'.liveFaults = s.liveFaults) (hundone : s'.undone = s.undone)
    (hdumps : ∀ a ∉ memorydump.map Prod.fst, s'.memdumps.lookup a = s.memdumps.lookup a) :
    Phase env f memorydump ⟨s', seen⟩ := by
  have holds : ∀ n, Holds f s n → Holds f s' n := fun n h a => (congrArg _ hfaults).trans (h a)
  have dumps : ∀ d, OnlyDump f memorydump s d → OnlyDump f memorydump s' d :=
    fun d h a ha => (hdumps a ha).trans (h a ha)
  cases h with
  | waiting s n hf hl hu hd => exact .waiting s' n (holds n hf) (hlive.trans hl) (hundone.trans hu) (dumps _ hd)
  | live s e before after hf hl ha hu hlen hd =>
    exact .live s' e before after (holds 0 hf) (hlive.trans hl) ha (hundone.trans hu) hlen (dumps _ hd)
  | done s before after restored hf hl hu hlen hd =>
    exact .done s' before after restored (holds 0 hf) (hlive.trans hl) (hundone ▸ hu) hlen (dumps _ hd)

theorem advance_quiet (hinjected : s.injected = w.state.injected) (hundone : s.undone = w.state.undone) :
    w.advance env f s = ⟨s, w.seen⟩ := by
  simp [advance, hinjected, hundone]

theorem Phase.fault (hm : f.type ≠ .register) (hlife : f.lifespan ≠ 0)
    (hfree : f.address ∉ memorydump.map Prod.fst) {address : ℕ} (h : Phase env f memorydump w)
    (hs : w.state.faultHookCb env address = some s') :
    Phase env f memorydump (w.advance env f s') := by
  have hknown : ∃ n, Holds f w.state n ∧ (n ≠ 0 → w.state.liveFaults = [] ∧ w.state.undone = [] ∧
      w.seen = [] ∧ OnlyDump f memorydump w.state none) := by
    cases h with
    | waiting s n hf hl hu hd => exact ⟨n, hf, fun _ => ⟨hl, hu, rfl, hd⟩⟩
    | live s e before after hf hl ha hu hlen hd => exact ⟨0, hf, fun h => absurd rfl h⟩
    | done s before after restored hf hl hu hlen hd => exact ⟨0, hf, fun h => absurd rfl h⟩
  obtain ⟨n, hf, hwaiting⟩ := hknown
  have haddr : address = f.trigger.address := by
    by_contra hne
    have hnone : w.state.faults.lookup address = none := (hf address).trans (if_neg hne)
    simp [State.faultHookCb, hnone] at hs
  have hlook : w.state.faults.lookup address = some (f.setHitcounter n) :=
    (hf address).trans (if_pos haddr)
  have hkept : ∀ m a, (insertKey w.state.faults address ((f.setHitcounter n).setHitcounter m)).lookup a
      = if a = f.trigger.address then some (f.setHitcounter m) else none := by
    intro m a
    rw [lookup_insertKey, haddr, hf a]
    split <;> rfl
  have hm' : (f.setHitcounter n).type ≠ .register := hm
  rcases State.faultHookCb_cases hlook hs with ⟨-, hs'⟩ | ⟨hmore, hs'⟩ | ⟨hone, -⟩
  · rw [hs', advance_quiet rfl rfl]
    exact h
  · obtain ⟨hlive, hundone, hseen, hdumps⟩ := hwaiting (Nat.ne_of_gt (Nat.zero_lt_of_lt hmore))
    rw [advance_quiet (by rw [hs']) (by rw [hs']), hseen, hs']
    exact .waiting _ (n - 1) (hkept (n - 1)) hlive hundone hdumps
  · obtain rfl : n = 1 := hone
    obtain ⟨hlive, hundone, hseen, hdumps⟩ := hwaiting one_ne_zero
    obtain ⟨⟨data, hbook⟩, hmem⟩ := State.faultHookCb_memory hm' hlook rfl hs
    simp only [State.book, Book.inject, Book.mk.injEq] at hbook
    obtain ⟨hfaults', hlive', -, hinjected', hundone'⟩ := hbook
    have hadvance : w.advance env f s' = ⟨s', [faultBytes env f w.state, faultBytes env f s']⟩ := by
      simp [advance, hinjected', hundone', hseen]
    have hlifespan : ((f.setHitcounter 1).setHitcounter 0).lifespan ≠ 0 := hlife
    rw [if_pos hlifespan, hlive] at hlive'
    rw [hadvance]
    refine .live s' _ _ _ (fun a => ?_) hlive' rfl (hundone'.trans hundone) ?_ (fun a ha => ?_)
    · rw [hfaults']
      exact hkept 0 a
    · simp [faultBytes]
    · have hown : w.state.memdumps.lookup f.address = none := (hdumps _ hfree).trans (if_pos rfl)
      have haddress : (f.setHitcounter 1).address = f.address := rfl
      rw [hmem a, hdumps a ha, haddress, hown, ite_self]
      rfl

/-- An undo at the fault's address adds the third dump. -/
theorem Phase.undo {address : ℕ} {e : LiveFault × ℕ} {g : Fault} (hm : f.type ≠ .register)
    (hfree : f.address ∉ memorydump.map Prod.fst) (h : Phase env f memorydump w)
    (hundo : State.Undone env w.state s address e g) (hbook : s'.book = s.book) (hcpu : s'.cpu = s.cpu)
    (hdumps : ∀ a ∉ memorydump.map Prod.fst, s'.memdumps.lookup a = s.memdumps.lookup a) :
    (address = f.address → Phase env f memorydump (w.advance env f s')) ∧
      (address ≠ f.address → ¬ ThreeDumps env f memorydump (w.advance env f s')) := by
  have hmem := hundo.mem
  have hbook' := hbook.trans hundo.book
  simp only [State.book, Book.undo, Book.tick, Book.mk.injEq] at hbook'
  obtain ⟨hfaults', hlive', -, hinjected', hundone'⟩ := hbook'
  cases h with
  | waiting s₀ n hf hl hu hd => exact absurd (hl ▸ hmem) List.not_mem_nil
  | done s₀ before after restored hf hl hu hlen hd => exact absurd (hl ▸ hmem) List.not_mem_nil
  | live s₀ e₀ before after hf hl ha hu hlen hd =>
    have hlook := hundo.lookup
    obtain rfl : e = e₀ := List.mem_singleton.mp (hl ▸ hmem)
    obtain rfl : g = f.setHitcounter 0 := by
      rw [hf, if_pos ha] at hlook
      exact (Option.some.inj hlook).symm
    have hadvance : Watched.advance env f ⟨s₀, [before, after]⟩ s'
        = ⟨s', [before, after, faultBytes env f s']⟩ := by
      simp [advance, hinjected', hundone']
    have hlookup : ∀ a ∉ memorydump.map Prod.fst, s'.memdumps.lookup a = if a = address then
        some (State.addDump (s₀.memdumps.lookup address) (calculateFaultSize env f)
          (s'.cpu.read address (calculateFaultSize env f))) else s₀.memdumps.lookup a := by
      intro a hout
      rw [hdumps a hout, hcpu]
      exact hundo.memdumps hm a
    have hown : s₀.memdumps.lookup f.address = some ⟨calculateFaultSize env f, [before, after]⟩ :=
      (hd _ hfree).trans (if_pos rfl)
    have hnew : ∃ u, s'.undone = [u] := ⟨_, by rw [hundone', hu]; rfl⟩
    obtain ⟨u, hu'⟩ := hnew
    rw [hadvance]
    constructor
    · rintro rfl
      refine .done s' before after _ (fun a => (congrArg _ hfaults').trans (hf a)) ?_ ?_ ?_ ?_
      · rw [hlive', hl]
        simp [popLive]
      · simp [hu']
      · have hthird : (faultBytes env f s').length = calculateFaultSize env f := by simp [faultBytes]
        simp only [List.forall_mem_cons] at hlen ⊢
        exact ⟨hlen.1, hlen.2.1, hthird, hlen.2.2⟩
      · intro a hout
        rw [hlookup a hout, hown]
        split
        · rfl
        · next hne => rw [hd a hout, if_neg hne]
    · intro hne hthree
      obtain ⟨x, y, z, -, -, honly⟩ := hthree (by simp [hu'])
      have hlast := honly f.address hfree
      rw [hlookup _ hfree, if_neg (Ne.symm hne), hown, if_pos rfl] at hlast
      simp at hlast

/-- A live fault whose time has come is undone by an event that single-steps. -/
theorem callback_isSome {e : Event} (hm : f.type ≠ .register) (h : Phase env f memorydump w)
    {address : ℕ} (hsteps : address ∈ e.stepsAt w.state) : ∃ s', w.state.callback env e = some s' := by
  have hlive : ∀ l ∈ w.state.liveFaults, ∃ g, w.state.faults.lookup l.1.1 = some g ∧
      (g.type = .register → l.1.2 < 2 ^ 64) := by
    intro l hl
    cases h with
    | waiting s n hf hlive hu hd => exact absurd (hlive ▸ hl) List.not_mem_nil
    | done s before after restored hf hlive hu hlen hd => exact absurd (hlive ▸ hl) List.not_mem_nil
    | live s e₀ before after hf hlive ha hu hlen hd =>
      obtain rfl : l = e₀ := List.mem_singleton.mp (hlive ▸ hl)
      exact ⟨f.setHitcounter 0, (hf _).trans (if_pos ha), fun hr => absurd hr hm⟩
  cases e with
  | guest cpu => cases hsteps
  | block address size => cases hsteps
  | fault address => cases hsteps
  | singleStep address => exact Option.isSome_iff_exists.mp (State.singleStepHookCb_isSome hlive address)
  | endpoint address firstEndpoint dump =>
    have hend : (w.state.endpoints.lookup address).isSome := by
      cases hcounter : w.state.endpoints.lookup address with
      | none => simp [Event.stepsAt, hcounter] at hsteps
      | some counter => rfl
    exact Option.isSome_iff_exists.mp (State.endHookCb_isSome hlive hend firstEndpoint dump)

theorem Phase.step {e : Event} (hm : f.type ≠ .register) (hlife : f.lifespan ≠ 0)
    (hfree : f.address ∉ memorydump.map Prod.fst) (h : Phase env f memorydump w)
    (hd : e.memorydump ⊆ memorydump) (hC : UndoneInPlace f w e) (hstep : w.step env f e = some w') :
    Phase env f memorydump w' := by
  obtain ⟨s', hs', rfl⟩ := Option.map_eq_some_iff.mp hstep
  cases hfault : e.faultAddress with
  | some address =>
    cases e with
    | fault address' => exact h.fault hm hlife hfree hs'
    | _ => cases hfault
  | none =>
    rcases State.callback_cases hd hfault hs' with hquiet | ⟨a, hsteps, s, l, g, hundo, hbook, hcpu, hdumps⟩
    · have hsame : s'.injected = w.state.injected ∧ s'.undone = w.state.undone ∧
          s'.faults = w.state.faults ∧ s'.liveFaults = w.state.liveFaults := by
        rcases hquiet.book with hbook | hbook
        all_goals
          simp only [State.book, Book.tick, Book.mk.injEq] at hbook
          exact ⟨hbook.2.2.2.1, hbook.2.2.2.2, hbook.1, hbook.2.1⟩
      rw [advance_quiet hsame.1 hsame.2.1]
      exact Phase.congr h hsame.2.2.1 hsame.2.2.2 hsame.2.1 hquiet.memdumps
    · exact (h.undo hm hfree hundo hbook hcpu hdumps).1 (hC ⟨l, hundo.mem, hundo.due⟩ a hsteps)

/-- An undo elsewhere leaves the address of the fault with two dumps. -/
theorem Phase.elsewhere {e : Event} (hm : f.type ≠ .register)
    (hfree : f.address ∉ memorydump.map Prod.fst) (h : Phase env f memorydump w)
    (hd : e.memorydump ⊆ memorydump) (hC : ¬ UndoneInPlace f w e) :
    ∃ w', w.step env f e = some w' ∧ ¬ ThreeDumps env f memorydump w' := by
  simp only [UndoneInPlace, not_forall] at hC
  obtain ⟨⟨l, hl, hdue⟩, a, hsteps, hne⟩ := hC
  obtain ⟨s', hs'⟩ := callback_isSome hm h hsteps
  refine ⟨w.advance env f s', by rw [Watched.step, hs']; rfl, ?_⟩
  have hfault : e.faultAddress = none := by
    cases e with
    | fault address => cases hsteps
    | _ => rfl
  rcases State.callback_cases hd hfault hs' with hquiet | ⟨b, hsteps', s, l, g, hundo, hbook, hcpu, hdumps⟩
  · exact absurd hdue (hquiet.pending (Option.isSome_of_mem hsteps) l hl)
  · obtain rfl : a = b := Option.mem_unique hsteps hsteps'
    exact (h.undo hm hfree hundo hbook hcpu hdumps).2 hne

end Watched

open Watched in
/-- One temporary fault in memory, and no user dump at its address: the three documented dumps are
    there after its undo iff the undo happens at the instruction at that address. -/
theorem threeDumps_iff (env : Env) (cpu : Cpu) (ends : List (ℕ × ℕ)) {f : Fault}
    (hm : f.type ≠ .register) (hlife : f.lifespan ≠ 0) {memorydump : List (ℕ × ℕ)}
    (hfree : f.address ∉ memorydump.map Prod.fst) {es : List Event}
    (hes : ∀ e ∈ es, e.memorydump ⊆ memorydump) :
    Run.Always (Watched.step env f) (ThreeDumps env f memorydump) (start f cpu ends) es ↔
      Run.EveryStep (Watched.step env f) (UndoneInPlace f) (start f cpu ends) es :=
  Run.always_iff_everyStep_of_forall (I := Phase env f memorydump) (fun _ h => h.threeDumps)
    (fun _ _ _ h hd hC hstep => h.step hm hlife hfree hd hC hstep)
    (fun _ _ h hd hC => h.elsewhere hm hfree hd hC) hes (.start cpu ends)

/-- A fault in the instruction after its trigger, for one instruction. -/
def nextInstruction : Fault := ⟨⟨0x100, 1⟩, 0x104, .instruction, .set1, 2, 1, 0⟩

/-- The worker re-enters the block and undoes the fault at the faulted instruction. -/
theorem threeDumps_iff_nextInstruction :
    Run.Always (Watched.step Env.plain nextInstruction) (Watched.ThreeDumps Env.plain nextInstruction [])
      (Watched.start nextInstruction oneByteCpu [])
      [.block 0x100 8, .fault 0x100, .block 0x100 8, .fault 0x100, .singleStep 0x100, .singleStep 0x104] := by
  refine (threeDumps_iff Env.plain oneByteCpu [] (by decide) (by decide) (by decide) (by decide)).mpr ?_
  have hnone : ∀ (w : Watched) (e : Event), e.stepsAt w.state = none →
      Watched.UndoneInPlace nextInstruction w e := fun w e h _ a ha => by rw [h] at ha; cases ha
  refine ⟨hnone _ _ rfl, fun w₁ h₁ => ⟨hnone _ _ rfl, fun w₂ h₂ => ⟨hnone _ _ rfl, fun w₃ h₃ =>
    ⟨hnone _ _ rfl, fun w₄ h₄ => ⟨?_, fun _ _ => ⟨?_, fun _ _ => trivial⟩⟩⟩⟩⟩⟩
  · -- one more instruction to go
    obtain rfl := Option.some.inj h₁
    obtain rfl := Option.some.inj h₂
    obtain rfl := Option.some.inj h₃
    obtain rfl := Option.some.inj h₄
    rintro ⟨l, hl, hdue⟩
    have hl' : l = ((0x100, 0), 2 ^ 64 - 2) := List.mem_singleton.mp hl
    rw [hl'] at hdue
    have hlate : ¬(2 ^ 64 - 1) - (2 ^ 64 - 2) ≤ 0 := by norm_num
    exact absurd hdue hlate
  · rintro - a ha
    exact (Option.some.inj ha).symm

/-- The byte at `0x20` is restored after two instructions, the third dump is one of `0x108`. -/
theorem temporarySet1_dumps_elsewhere :
    ¬ Run.Always (Watched.step Env.plain (temporarySet1 2))
      (Watched.ThreeDumps Env.plain (temporarySet1 2) []) (Watched.start (temporarySet1 2) oneByteCpu [])
      [.block 0x104 8, .fault 0x104, .singleStep 0x104, .singleStep 0x108] := by
  intro h
  have hlast := ((((h.2 _ rfl).2 _ rfl).2 _ rfl).2 _ rfl).head
  obtain ⟨before, after, restored, -, -, honly⟩ := hlast (by decide)
  have htwo : _ = some 3 :=
    congrArg (Option.map fun m => m.dumps.length) (honly 0x20 List.not_mem_nil)
  exact absurd htwo (by decide)

end Archie.Worker
