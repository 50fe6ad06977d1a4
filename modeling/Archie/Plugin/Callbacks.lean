import Archie.Plugin.FaultInjection

/-! faultplugin.c: from a fault list to injections.

    Slot `i` of the trigger vector belongs to fault `i`. A TB that contains the address in a slot gets
    a callback on that instruction, the callback counts down and injects:

        translation   handle_tb_translate_event ──▶ evaluate_trigger ──▶ trigger_insn_cb on insn
        execution     trigger_insn_cb ──▶ inject_fault ──▶ live_faults ──▶ tb_exec_cb on every insn

    The first TB after the start point takes another way, `handle_first_tb_fault_insertion`. -/

namespace Archie.Plugin

inductive Callback where
  | triggerInsnCb (current : ℕ)
  | tbExecCb (current : ℕ)
  deriving DecidableEq

/-- The callbacks that a translation registers: on instructions, by their index and in order, and on
    the start point. -/
structure Registered where
  insn : List (ℕ × Callback)
  start : Bool

/-- The state a plugin has before a fault list is registered. -/
structure State.Fresh (s : State) : Prop where
  liveFaultsNumber : s.plugin.liveFaultsNumber = 0
  calls : s.calls = []

namespace State

variable (s : State)

/-- Fills the trigger vector; fails on an empty list. -/
def registerFaultTriggerAddresses : Option State :=
  if s.faults = [] then none
  else some { s with
    faults := s.faults.mapIdx fun j f => f.setTriggerNum j
    plugin := { s.plugin with
      faultNumber := s.faults.length
      faultTriggerAddresses := s.faults.map fun f => f.trigger.address
      liveFaults := List.replicate s.faults.length none } }

/-! ### Execution -/

def triggerInsnCb (current : ℕ) : State :=
  match s.faults[current]? with
  | none => s
  | some f =>
    if f.trigger.hitcounter ≠ 0 then
      let hitcounter := f.trigger.hitcounter - 1
      let s := s.modifyFault current fun f => f.setHitcounter hitcounter
      let s := if hitcounter = 0 then s.injectFault current else s
      if hitcounter = 1 then s.addSinglestepReq else s
    else s

def tbExecCb (current : ℕ) : State :=
  match s.faults[current]? with
  | none => s
  | some f =>
    if f.lifetime ≠ 0 then
      let s := s.modifyFault current fun f => { f with lifetime := f.lifetime - 1 }
      if f.lifetime - 1 = 0 then
        let s := s.reverseFault current
        { s with plugin := { s.plugin with
            liveFaults := s.plugin.liveFaults.set f.trigger.trignum none } }
      else s
    else s

def runCallback : Callback → State
  | .triggerInsnCb current => s.triggerInsnCb current
  | .tbExecCb current => s.tbExecCb current

/-- The start point is reached when its counter is down to one. -/
def tbExecStartCb : State :=
  let start := s.plugin.startPoint
  let hitcounter := (start.hitcounter + (2 ^ 64 - 1)) % 2 ^ 64
  if start.hitcounter = 1 then
    { s with plugin := { s.plugin with startPoint := { start with trignum := 0, hitcounter } } }.flushTb
  else { s with plugin := { s.plugin with startPoint := { start with hitcounter } } }

/-! ### Translation -/

/-- The callbacks of the fault in a slot of the trigger vector. -/
def evaluateTrigger (tb : Tb) (number : ℕ) : List (ℕ × Callback) :=
  match s.plugin.faultTriggerAddresses[number]? with
  | none => []
  | some address => match getFaultStructByTrigger s.faults address number with
    | none => []
    | some current => match s.faults[current]? with
      | none => []
      | some f => (List.range tb.insns.length).filterMap fun i => match tb.insns[i]? with
        | some insn => if insn.Meets f.trigger.address then some (i, .triggerInsnCb current) else none
        | none => none

/-- The callbacks of a live fault; one whose lifetime is over is dropped. -/
def evalLiveFaultCallback (tb : Tb) (number : ℕ) : State × List (ℕ × Callback) :=
  match s.plugin.liveFaults[number]? with
  | some (some current) => match s.faults[current]? with
    | some f =>
      if f.lifetime = 0 then
        ({ s with plugin := { s.plugin with liveFaults := s.plugin.liveFaults.set number none }
          }.remSinglestepReq, [])
      else (s, (List.range tb.insns.length).map fun i => (i, .tbExecCb current))
    | none => (s, [])
  | _ => (s, [])

/-- The callbacks of all slots whose address is in the TB. -/
def triggerCallbacks (tb : Tb) : List (ℕ × Callback) :=
  (List.range s.plugin.faultNumber).flatMap fun i =>
    match s.plugin.faultTriggerAddresses[i]? with
    | some address => if tb.Meets address then s.evaluateTrigger tb i else []
    | none => []

def handleTbTranslateEvent (tb : Tb) : State × List (ℕ × Callback) :=
  (List.range s.plugin.liveFaultsNumber).foldl (fun st i =>
    let (s, live) := st.1.evalLiveFaultCallback tb i
    (s, st.2 ++ live)) (s, s.triggerCallbacks tb)

/-- One fault of the list, when the first TB is translated. -/
def firstTbFault (current : ℕ) : State :=
  match s.faults[current]? with
  | none => s
  | some f =>
    let s := if f.trigger.hitcounter = 0 ∧ f.type = INSTRUCTION then
        let s := s.addSinglestepReq.injectFault current
        match s.faults[current]? with
        | some f => s.invalidateFaultTriggerAddress f.trigger.trignum
        | none => s
      else s
    if f.trigger.hitcounter = 1 then s.addSinglestepReq else s

def handleFirstTbFaultInsertion : State :=
  (List.range s.faults.length).foldl firstTbFault s

/-- The TB translation callback of the plugin. -/
def vcpuTranslateblockTranslationEvent (tb : Tb) : State × Registered :=
  if s.plugin.startPoint.trignum ≠ 3 then
    let (s, insn) := if s.plugin.firstTb ≠ 0 then s.handleTbTranslateEvent tb
      else ({ s with plugin := { s.plugin with firstTb := 1 } }.handleFirstTbFaultInsertion, [])
    (s.checkTbFaulted tb, { insn, start := false })
  else
    (s, { insn := [], start := decide (tb.Meets s.plugin.startPoint.address) })

end State

end Archie.Plugin
