import Archie.Lib.Run
import Archie.Campaign.Fault

/-! The scheduling loop of `controller`: at most `num_workers` worker processes at a time, one for
    each experiment of the fault list.

    Every round starts at most one worker, then visits the entries of `p_list` and pops those whose
    process has ended. The list is popped while it is enumerated, so the entry behind a popped one is
    skipped in this round:

        p_list   a b c d      i = 0   a has ended, pop(0)
                 b c d        i = 1   c is visited, b waits for the next round

    Processes end at any time. Whether a worker may start (the memory and the output queue), whether
    one has run into the timeout and what the search for its QEMU finds is left open. -/

namespace Archie.Campaign
open Python

/-- An entry of `p_list`; processes are numbered as they are started. -/
structure Running where
  process : ℕ
  faults : FaultEntry
  deriving DecidableEq

/-- Where the controller is in a round. -/
inductive Place where
  | top
  | visit (i : ℕ)
  /-- waiting for the worker of an entry after its timeout -/
  | join (i : ℕ)
  /-- about to test whether the process of an entry is still alive -/
  | reap (i : ℕ)
  | left
  | raised (e : PyError)
  deriving DecidableEq

structure Scheduler where
  place : Place
  itter : ℕ
  pList : List Running
  /-- the experiments started, the processes that have ended and those removed from the list; kept
      for the statements, the code asks the system -/
  started : List FaultEntry
  ended : List ℕ
  removed : List ℕ

inductive SchedulerEvent where
  | exit (process : ℕ)
  | round (mayStart : Bool)
  /-- `children`: those of the QEMU thread, if the search finds it -/
  | visit (expired : Bool) (children : Option ℕ)
  | joined
  | reap
  deriving DecidableEq

/-- A QEMU thread that is found has the one child that the code asserts. -/
def SchedulerEvent.OneChild : SchedulerEvent → Prop
  | .visit _ children => ∀ n ∈ children, n = 1
  | _ => True

namespace Scheduler

variable (faultlist : List FaultEntry) (numWorkers : ℕ) (s : Scheduler)

def init : Scheduler := ⟨.top, 0, [], [], [], []⟩

/-- Starts the next experiment; the debug output reads the first one of its faults. -/
def startWorker (faults : FaultEntry) : Scheduler :=
  { s with
    place := if faults.faultlist = [] then .raised .indexError else .visit 0
    itter := s.itter + 1
    pList := s.pList ++ [⟨s.itter, faults⟩]
    started := s.started ++ [faults] }

/-- The part of a round in front of the loop over `p_list`. -/
def round (mayStart : Bool) : Scheduler :=
  if s.pList.length = 0 ∧ s.itter = faultlist.length then { s with place := .left }
  else if mayStart = true ∧ s.pList.length < numWorkers then
    faultlist[s.itter]?.elim { s with place := .visit 0 } s.startWorker
  else { s with place := .visit 0 }

/-- The timeout of an entry: its QEMU is terminated if it is found. -/
def halt (i : ℕ) (children : Option ℕ) : Scheduler :=
  if ∀ n ∈ children, n = 1 then { s with place := .join i }
  else { s with place := .raised .assertionError }

/-- The body of the loop over `p_list`, the entry being given. -/
def visit (i : ℕ) (expired : Bool) (children : Option ℕ) (w : Running) : Scheduler :=
  if w.process ∉ s.ended ∧ expired = true then s.halt i children else { s with place := .reap i }

def reap (i : ℕ) (w : Running) : Scheduler :=
  if w.process ∈ s.ended then
    { s with
      place := .visit (i + 1)
      pList := s.pList.eraseIdx i
      removed := s.removed ++ [w.process] }
  else { s with place := .visit (i + 1) }

/-- One step, if it is possible where the controller is. -/
def step : SchedulerEvent → Option Scheduler
  | .exit process => if process < s.itter then some { s with ended := process :: s.ended } else none
  | .round mayStart => match s.place with
    | .top => some (s.round faultlist numWorkers mayStart)
    | _ => none
  | .visit expired children => match s.place with
    | .visit i => some (s.pList[i]?.elim { s with place := .top } (s.visit i expired children))
    | _ => none
  | .joined => match s.place with
    | .join i => if ∀ w ∈ s.pList[i]?, w.process ∈ s.ended then some { s with place := .reap i } else none
    | _ => none
  | .reap => match s.place with
    | .reap i => s.pList[i]?.map (s.reap i)
    | _ => none

/-- Each experiment is started once and in order, each of these processes is in the list or has been
    removed after its end, and at the end all are. -/
structure Scheduled : Prop where
  started : s.started = faultlist.take s.itter
  itter_le : s.itter ≤ faultlist.length
  bounded : s.pList.length ≤ numWorkers
  experiments : ∀ w ∈ s.pList, faultlist[w.process]? = some w.faults
  once : (s.removed ++ s.pList.map Running.process).Perm (List.range s.itter)
  removed : ∀ p ∈ s.removed, p ∈ s.ended
  left : s.place = .left → s.started = faultlist ∧ ∀ p < faultlist.length, p ∈ s.ended
  raised : ∀ e, s.place = .raised e → e = .assertionError

section Steps

variable {faultlist numWorkers s} {s' : Scheduler}

/-- What a step can do. -/
theorem step_cases {ev : SchedulerEvent} (hstep : s.step faultlist numWorkers ev = some s') :
    (∃ p, s' = { s with ended := p :: s.ended }) ∨
    (s.pList.length = 0 ∧ s.itter = faultlist.length ∧ s' = { s with place := .left }) ∨
    (∃ faults, faultlist[s.itter]? = some faults ∧ s.pList.length < numWorkers ∧
      s' = s.startWorker faults) ∨
    (∃ i w, s.pList[i]? = some w ∧ s' = s.reap i w) ∨
    ∃ place, s' = { s with place } ∧ place ≠ .left ∧
      ∀ e, place = .raised e → e = .assertionError ∧ ¬ ev.OneChild := by
  cases ev with
  | exit process =>
    simp only [step] at hstep
    split at hstep
    · exact .inl ⟨process, (Option.some.inj hstep).symm⟩
    · cases hstep
  | round mayStart =>
    simp only [step] at hstep
    split at hstep
    · obtain rfl := Option.some.inj hstep
      rw [round]
      split
      · next hdone => exact .inr (.inl ⟨hdone.1, hdone.2, rfl⟩)
      · split
        · next hstart =>
          cases hnext : faultlist[s.itter]? with
          | none => exact .inr (.inr (.inr (.inr ⟨.visit 0, rfl, nofun, nofun⟩)))
          | some faults => exact .inr (.inr (.inl ⟨faults, rfl, hstart.2, rfl⟩))
        · exact .inr (.inr (.inr (.inr ⟨.visit 0, rfl, nofun, nofun⟩)))
    · cases hstep
  | visit expired children =>
    simp only [step] at hstep
    split at hstep
    · next i hplace =>
      obtain rfl := Option.some.inj hstep
      refine .inr (.inr (.inr (.inr ?_)))
      cases s.pList[i]? with
      | none => exact ⟨.top, rfl, nofun, nofun⟩
      | some w =>
        rw [Option.elim_some, visit]
        split
        · rw [halt]
          split
          · exact ⟨.join i, rfl, nofun, nofun⟩
          · next hmany =>
            exact ⟨.raised .assertionError, rfl, nofun, fun e he => ⟨(Place.raised.inj he).symm, hmany⟩⟩
        · exact ⟨.reap i, rfl, nofun, nofun⟩
    · cases hstep
  | joined =>
    simp only [step] at hstep
    split at hstep
    · next i hplace =>
      split at hstep
      · obtain rfl := Option.some.inj hstep
        exact .inr (.inr (.inr (.inr ⟨.reap i, rfl, nofun, nofun⟩)))
      · cases hstep
    · cases hstep
  | reap =>
    simp only [step] at hstep
    split at hstep
    · next i hplace =>
      obtain ⟨w, hw, rfl⟩ := Option.map_eq_some_iff.mp hstep
      exact .inr (.inr (.inr (.inl ⟨i, w, hw, rfl⟩)))
    · cases hstep

/-- A move to a place inside the round. -/
theorem Scheduled.move (h : s.Scheduled faultlist numWorkers) {place : Place} (hleft : place ≠ .left)
    (hraised : ∀ e, place = .raised e → e = .assertionError) :
    Scheduled faultlist numWorkers { s with place } where
  started := h.started
  itter_le := h.itter_le
  bounded := h.bounded
  experiments := h.experiments
  once := h.once
  removed := h.removed
  left hplace := absurd hplace hleft
  raised := hraised

/-- A process ends. -/
theorem Scheduled.exit (h : s.Scheduled faultlist numWorkers) (process : ℕ) :
    Scheduled faultlist numWorkers { s with ended := process :: s.ended } where
  started := h.started
  itter_le := h.itter_le
  bounded := h.bounded
  experiments := h.experiments
  once := h.once
  removed p hp := List.mem_cons_of_mem process (h.removed p hp)
  left hplace := ⟨(h.left hplace).1, fun p hp => List.mem_cons_of_mem process ((h.left hplace).2 p hp)⟩
  raised := h.raised

theorem Scheduled.startWorker (h : s.Scheduled faultlist numWorkers) {faults : FaultEntry}
    (hnext : faultlist[s.itter]? = some faults) (hfaults : faults.faultlist ≠ [])
    (hfree : s.pList.length < numWorkers) : (s.startWorker faults).Scheduled faultlist numWorkers where
  started := by
    rw [Scheduler.startWorker, h.started, List.take_add_one, hnext]
    rfl
  itter_le := (List.getElem?_eq_some_iff.mp hnext).1
  bounded := by
    rw [Scheduler.startWorker, List.length_append, List.length_singleton]
    exact hfree
  experiments w hw := by
    rcases List.mem_append.mp hw with hw | hw
    · exact h.experiments w hw
    · rw [List.mem_singleton.mp hw]
      exact hnext
  once := by
    rw [Scheduler.startWorker, List.map_append, List.range_succ, ← List.append_assoc]
    exact h.once.append_right [s.itter]
  removed := h.removed
  left hplace := by
    rw [Scheduler.startWorker, if_neg hfaults] at hplace
    cases hplace
  raised e hplace := by
    rw [Scheduler.startWorker, if_neg hfaults] at hplace
    cases hplace

/-- The round ends the loop only with an empty list. -/
theorem Scheduled.leave (h : s.Scheduled faultlist numWorkers) (hempty : s.pList.length = 0)
    (hall : s.itter = faultlist.length) : Scheduled faultlist numWorkers { s with place := .left } where
  started := h.started
  itter_le := h.itter_le
  bounded := h.bounded
  experiments := h.experiments
  once := h.once
  removed := h.removed
  left _ := by
    have hperm := h.once
    rw [List.eq_nil_of_length_eq_zero hempty, List.map_nil, List.append_nil, hall] at hperm
    refine ⟨?_, fun p hp => h.removed p (hperm.mem_iff.mpr (List.mem_range.mpr hp))⟩
    exact h.started.trans (List.take_of_length_le hall.ge)
  raised := nofun

/-- A popped entry is one whose process has ended. -/
theorem Scheduled.reap (h : s.Scheduled faultlist numWorkers) {i : ℕ} {w : Running}
    (hw : s.pList[i]? = some w) : (s.reap i w).Scheduled faultlist numWorkers := by
  rw [Scheduler.reap]
  split
  · next hended =>
    obtain ⟨hi, rfl⟩ := List.getElem?_eq_some_iff.mp hw
    have hperm : (s.pList[i] :: s.pList.eraseIdx i).Perm s.pList := List.getElem_cons_eraseIdx_perm hi
    refine ⟨h.started, h.itter_le, ?_, ?_, ?_, fun p hp => ?_, nofun, nofun⟩
    · exact (List.length_eraseIdx_le s.pList i).trans h.bounded
    · exact fun v hv => h.experiments v (List.mem_of_mem_eraseIdx hv)
    · have hmap := hperm.map Running.process
      rw [List.map_cons] at hmap
      rw [List.append_assoc, List.singleton_append]
      exact (hmap.append_left s.removed).trans h.once
    · rcases List.mem_append.mp hp with hp | hp
      · exact h.removed p hp
      · rw [List.mem_singleton.mp hp]
        exact hended
  · exact h.move nofun nofun

theorem Scheduled.step {ev : SchedulerEvent} (hfaults : ∀ e ∈ faultlist, e.faultlist ≠ [])
    (h : s.Scheduled faultlist numWorkers) (hstep : s.step faultlist numWorkers ev = some s') :
    s'.Scheduled faultlist numWorkers := by
  rcases step_cases hstep with ⟨p, rfl⟩ | ⟨hempty, hall, rfl⟩ | ⟨faults, hnext, hfree, rfl⟩ |
    ⟨i, w, hw, rfl⟩ | ⟨place, rfl, hleft, hraised⟩
  · exact h.exit p
  · exact h.leave hempty hall
  · exact h.startWorker hnext (hfaults faults (List.mem_of_getElem? hnext)) hfree
  · exact h.reap hw
  · exact h.move hleft fun e he => (hraised e he).1

/-- Where the searches find one child the loop raises nothing. -/
theorem not_raised_step {ev : SchedulerEvent} (hfaults : ∀ e ∈ faultlist, e.faultlist ≠ [])
    (h : ∀ e, s.place ≠ .raised e) (hev : ev.OneChild)
    (hstep : s.step faultlist numWorkers ev = some s') : ∀ e, s'.place ≠ .raised e := by
  rcases step_cases hstep with ⟨p, rfl⟩ | ⟨-, -, rfl⟩ | ⟨faults, hnext, -, rfl⟩ | ⟨i, w, -, rfl⟩ |
    ⟨place, rfl, -, hraised⟩
  · exact h
  · exact nofun
  · rw [startWorker, if_neg (hfaults faults (List.mem_of_getElem? hnext))]
    exact nofun
  · rw [Scheduler.reap]
    split
    · exact nofun
    · exact nofun
  · exact fun e he => (hraised e he).2 hev

end Steps

theorem scheduled_init : init.Scheduled faultlist numWorkers :=
  ⟨rfl, Nat.zero_le _, Nat.zero_le _, nofun, List.Perm.refl _, nofun, nofun, nofun⟩

def threeExperiments : List FaultEntry := [⟨0, [0], false⟩, ⟨1, [1], false⟩, ⟨2, [2], false⟩]

/-- Three experiments on two workers: the first two end together, so the second is popped a round
    later; the third runs into the timeout. -/
def threeRounds : List SchedulerEvent :=
  [.round true, .visit false none, .reap, .visit false none, .round true, .exit 0, .exit 1,
    .visit false none, .reap, .visit false none, .round true, .visit false none, .reap,
    .visit false none, .round true, .visit true (some 1), .exit 2, .joined, .reap, .visit false none,
    .round true]

end Scheduler

end Archie.Campaign
