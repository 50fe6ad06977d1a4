import Archie.Cpu
import Archie.Lib.LittleEndian
import Mathlib.Data.List.MinMax

/-! The data of the Unicorn worker, structs.rs.

    Faults sit in a map keyed by their trigger address, live ones in a priority queue keyed by
    trigger address and the data before the fault. A panic ends the worker; where the code can, its
    model returns `none`. -/

namespace Archie.Worker

inductive FaultModel where
  | set0 | set1 | toggle | overwrite
  deriving DecidableEq

inductive FaultType where
  | data | instruction | register
  deriving DecidableEq

structure Trigger where
  address : ℕ
  hitcounter : ℕ
  deriving DecidableEq

structure Fault where
  trigger : Trigger
  address : ℕ
  type : FaultType
  model : FaultModel
  mask : ℕ
  lifespan : ℕ
  numBytes : ℕ
  deriving DecidableEq

def Fault.setHitcounter (f : Fault) (hitcounter : ℕ) : Fault :=
  { f with trigger := { f.trigger with hitcounter } }

structure MemDump where
  len : ℕ
  dumps : List (List Byte)

/-- Trigger address and prefault data of a live fault. -/
abbrev LiveFault := ℕ × ℕ

/-- What the worker leans on: the size that floating-point logarithms give for a mask, at least the
    bytes the mask needs, and which of several elements of the highest priority a queue shows. -/
structure Env where
  maskSize : ℕ → ℕ
  byteLen_le : ∀ m, LittleEndian.byteLen m ≤ maskSize m
  maskSize_pos : ∀ m, 1 ≤ maskSize m
  peek : List (LiveFault × ℕ) → Option (LiveFault × ℕ)
  peek_isSome : ∀ q, q ≠ [] → (peek q).isSome
  peek_max : ∀ q x, peek q = some x → x ∈ q ∧ ∀ y ∈ q, y.2 ≤ x.2

/-- The least size that is enough, and the first of the highest elements. -/
def Env.plain : Env where
  maskSize m := max 1 (LittleEndian.byteLen m)
  byteLen_le _ := le_max_right ..
  maskSize_pos _ := le_max_left ..
  peek := List.argmax Prod.snd
  peek_isSome _ hq := Option.isSome_iff_ne_none.mpr fun h => hq (List.argmax_eq_none.mp h)
  peek_max _ _ h := ⟨List.argmax_mem h, fun _ hy => List.le_of_mem_argmax hy h⟩

/-- An injection: the fault and the instruction count at that time. -/
structure Injection where
  fault : Fault
  count : ℕ
  deriving DecidableEq

structure State where
  cpu : Cpu
  lastTbid : ℕ
  lastTbSize : ℕ
  reenterAddress : Option ℕ
  tbcounter : ℕ
  endpoints : List (ℕ × ℕ)
  /-- the addresses with an end hook, one entry for each hook -/
  endHooks : List ℕ
  faults : List (ℕ × Fault)
  /-- the addresses with a fault hook, one entry for each hook -/
  faultHooks : List ℕ
  liveFaults : List (LiveFault × ℕ)
  instructionCount : ℕ
  /-- is the single step hook installed? -/
  singleStepHook : Bool
  /-- was emulation stopped? -/
  stopped : Bool
  endpoint : Bool × ℕ × ℕ
  registerlist : List (ℕ × (ℕ → BitVec 64))
  memdumps : List (ℕ × MemDump)
  /-- the injections so far, and the trigger address and count of every undo; kept for the
      statements only -/
  injected : List Injection
  undone : List (ℕ × ℕ)

/-- The worker before its hooks are installed. -/
def State.new (cpu : Cpu) : State :=
  { cpu, lastTbid := 0, lastTbSize := 0, reenterAddress := none, tbcounter := 0, endpoints := [],
    endHooks := [], faults := [], faultHooks := [], liveFaults := [], instructionCount := 0,
    singleStepHook := false, stopped := false, endpoint := (false, 0, 0), registerlist := [],
    memdumps := [], injected := [], undone := [] }

/-- `HashMap::insert` -/
def insertKey {α : Type} (map : List (ℕ × α)) (k : ℕ) (v : α) : List (ℕ × α) :=
  (k, v) :: map.filter fun e => e.1 ≠ k

/-- `PriorityQueue::push`: an item that is in the queue already only gets the new priority. -/
def pushLive (queue : List (LiveFault × ℕ)) (item : LiveFault) (priority : ℕ) :
    List (LiveFault × ℕ) :=
  (item, priority) :: queue.filter fun e => e.1 ≠ item

/-- `PriorityQueue::pop` of the element that `peek` shows. -/
def popLive (queue : List (LiveFault × ℕ)) (item : LiveFault) : List (LiveFault × ℕ) :=
  queue.filter fun e => e.1 ≠ item

theorem lookup_filter_ne {α : Type} {k k' : ℕ} (h : k' ≠ k) : ∀ map : List (ℕ × α),
    (map.filter fun e => decide (e.1 ≠ k)).lookup k' = map.lookup k'
  | [] => rfl
  | e :: map => by
    by_cases he : e.1 = k
    · have hk : (k' == e.1) = false := by simpa [he] using h
      rw [List.filter_cons_of_neg (by simpa using he), List.lookup_cons, hk]
      exact lookup_filter_ne h map
    · rw [List.filter_cons_of_pos (by simpa using he), List.lookup_cons, List.lookup_cons,
        lookup_filter_ne h map]

theorem lookup_insertKey {α : Type} (map : List (ℕ × α)) (k k' : ℕ) (v : α) :
    (insertKey map k v).lookup k' = if k' = k then some v else map.lookup k' := by
  rw [insertKey, List.lookup_cons]
  by_cases h : k' = k
  · simp [h]
  · have hne : (k' == k) = false := by simpa using h
    rw [hne, if_neg h]
    exact lookup_filter_ne h map

end Archie.Worker
