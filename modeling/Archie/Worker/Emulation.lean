import Archie.Lib.Run
import Archie.Worker.Book

/-! The worker inside Unicorn, lib.rs.

    Before an instruction Unicorn runs its end hooks, its fault hooks and the single step hook, in
    this order, until one asks it to stop. The main loop re-enters emulation where an instruction
    fault has changed the TB being executed.

        insn ──▶ end hooks ──▶ fault hooks ──▶ single step ──▶ executed
                   │    ▲           │
                   ▼    └──reenter──┘
                  end                                                                          -/

namespace Archie.Worker

structure Emulation where
  state : State
  firstEndpoint : ℕ
  memorydump : List (ℕ × ℕ)
  /-- the instructions that got past their end hooks, first one first -/
  begun : List ℕ

/-- What Unicorn and the main loop do; what cannot happen in a state is ignored there. -/
inductive Activity where
  | guest (cpu : Cpu)
  | block (address size : ℕ)
  | insn (address : ℕ)
  | reenter (size : ℕ)

namespace State

variable (env : Env) (s : State)

/-- Unicorn runs the hooks of an instruction until one stops emulation. -/
def runHooks (hook : State → Option State) (addresses : List ℕ) (address : ℕ) : Option State :=
  (addresses.filter (· = address)).foldlM (fun s _ => if s.stopped then some s else hook s) s

def runFaultHooks (address : ℕ) : Option State :=
  s.runHooks (fun s => s.faultHookCb env address) s.faultHooks address

def runSingleStep (address : ℕ) : Option State :=
  if s.stopped = false ∧ s.singleStepHook = true then s.singleStepHookCb env address else some s

end State

namespace Emulation

variable (env : Env) (m : Emulation)

/-- `initialize_hooks` takes the first fault, so there must be one. -/
def start (cpu : Cpu) (ends memorydump : List (ℕ × ℕ)) : List Fault → Option Emulation
  | [] => none
  | f :: fs => some ⟨State.initializeHooks cpu ends (f :: fs), f.trigger.address, memorydump, []⟩

def runEndHooks (s : State) (address : ℕ) : Option State :=
  s.runHooks (fun s => s.endHookCb env address m.firstEndpoint m.memorydump) s.endHooks address

/-- The hooks of an instruction, and whether it got past its end hooks. -/
def enter (s : State) (address : ℕ) : Option (State × Bool) := do
  let s ← m.runEndHooks env s address
  if s.stopped then return (s, false)
  let s ← s.runFaultHooks env address
  let s ← s.runSingleStep env address
  return (s, true)

def step : Activity → Option Emulation
  | .guest cpu =>
    if m.state.stopped then some m else some { m with state := { m.state with cpu } }
  | .block address size =>
    if m.state.stopped then some m else some { m with state := m.state.blockHookCb address size }
  | .insn address =>
    if m.state.stopped then some m
    else (m.enter env m.state address).map fun (s, past) =>
      { m with state := s, begun := if past then m.begun ++ [address] else m.begun }
  | .reenter size =>
    match m.state.reenterAddress with
    | none => some m
    | some address =>
      let s := { m.state with reenterAddress := none, stopped := false }
      (m.enter env (s.blockHookCb address size) address).map fun (s, _) => { m with state := s }

/-- How often an instruction was executed. -/
def executions (address : ℕ) : ℕ := m.begun.count address

end Emulation

end Archie.Worker
