import Archie.Campaign.Collector
import Archie.Campaign.Scheduler

/-! `controller`: the scheduling loop, the workers, the output queue, the logger and the stop signal as
    one system.

        controller  ──start──▸  worker  ──put──▸  queue_output  ──get──▸  logger  ──▸  file

    A worker puts its result at any time while it lives, and at most once; it may also end without. The
    controller joins the logger before it returns; with the stop signal the logger closes the file at
    once, and the workers are killed. The signal arrives between two messages of the logger. -/

namespace Archie.Campaign
open Python

/-- What the controller starts with: the experiments, the messages already in the queue and the logger
    with the file it opens. -/
structure Jobs where
  experiments : List Scheduled
  numWorkers : ℕ
  messages : List Message
  logger : Collector

namespace Jobs

variable (c : Jobs)

/-- The entries of the fault list; the faults are objects of their own. -/
def faultlist : List FaultEntry :=
  c.experiments.map fun e => ⟨e.index, List.range e.faultlist.length, false⟩

/-- What the workers put into the queue, in the order in which they are started. -/
def results : List Message := c.experiments.map fun e => ⟨e.index, .run e.output⟩

end Jobs

inductive LoggerPlace where
  | loop
  | closed
  | raised (m : Message) (e : PyError)

structure Controller where
  scheduler : Scheduler
  queue : List Message
  logger : Collector
  loggerPlace : LoggerPlace
  stopSignal : Bool
  returned : Bool
  /-- the workers that have put their result and the messages that the logger has dealt with, both in
      this order; kept for the statements -/
  delivered : List ℕ
  collected : List Message

inductive ControllerEvent where
  | schedule (ev : SchedulerEvent)
  | put (process : ℕ)
  | log
  | stop
  | return_

namespace Scheduler

variable {faultlist : List FaultEntry} {numWorkers : ℕ} {s s' : Scheduler} {ev : SchedulerEvent}

/-- Experiments are only added, and a process that has ended stays so. -/
theorem step_mono (hstep : s.step faultlist numWorkers ev = some s') :
    s.itter ≤ s'.itter ∧ ∀ p ∈ s.ended, p ∈ s'.ended := by
  rcases step_cases hstep with ⟨p, rfl⟩ | ⟨-, -, rfl⟩ | ⟨faults, -, -, rfl⟩ | ⟨i, w, -, rfl⟩ |
    ⟨place, rfl, -, -⟩
  · exact ⟨le_rfl, fun q hq => List.mem_cons_of_mem p hq⟩
  · exact ⟨le_rfl, fun q hq => hq⟩
  · exact ⟨Nat.le_succ _, fun q hq => hq⟩
  · rw [Scheduler.reap]
    split
    · exact ⟨le_rfl, fun q hq => hq⟩
    · exact ⟨le_rfl, fun q hq => hq⟩
  · exact ⟨le_rfl, fun q hq => hq⟩

/-- Only a round starts a worker. -/
theorem step_itter (hev : ∀ mayStart, ev ≠ .round mayStart)
    (hstep : s.step faultlist numWorkers ev = some s') : s'.itter = s.itter := by
  cases ev with
  | round mayStart => exact absurd rfl (hev mayStart)
  | exit process =>
    simp only [step] at hstep
    split at hstep
    · rw [← Option.some.inj hstep]
    · cases hstep
  | visit expired children =>
    simp only [step] at hstep
    split at hstep
    · next i hplace =>
      rw [← Option.some.inj hstep]
      cases s.pList[i]? with
      | none => rfl
      | some w => simp only [Option.elim_some, visit, halt]; split_ifs <;> rfl
    · cases hstep
  | joined =>
    simp only [step] at hstep
    split at hstep
    · split at hstep
      · rw [← Option.some.inj hstep]
      · cases hstep
    · cases hstep
  | reap =>
    simp only [step] at hstep
    split at hstep
    · obtain ⟨w, -, rfl⟩ := Option.map_eq_some_iff.mp hstep
      rw [Scheduler.reap]
      split <;> rfl
    · cases hstep

/-- Outside the loop processes end, nothing else happens. -/
theorem step_outside (hout : s.place = .left ∨ ∃ e, s.place = .raised e)
    (hstep : s.step faultlist numWorkers ev = some s') :
    s'.place = s.place ∧ ∀ mayStart, ev ≠ .round mayStart := by
  cases ev with
  | exit process =>
    simp only [step] at hstep
    split at hstep
    · rw [← Option.some.inj hstep]
      exact ⟨rfl, by simp⟩
    · cases hstep
  | _ =>
    rcases hout with hleft | ⟨e, hraised⟩
    · simp only [step, hleft] at hstep
      cases hstep
    · simp only [step, hraised] at hstep
      cases hstep

end Scheduler

/-- The index of an experiment; the other messages have negative ones. -/
def Message.isResult (m : Message) : Bool := decide (0 ≤ m.index)

namespace Collector

variable {lib : Hdf5} {s s' : Collector} {m : Message}

/-- A result is not dropped. -/
theorem handle_result (hm : m.isResult = true) (h : s.handle lib m = .ok s') :
    ∃ g, s'.file = s.file ++ [(g, m)] ∧ Asks m g := by
  obtain ⟨o, ho, h⟩ := bind_eq_ok.mp h
  rcases expGroup_step ho with ⟨-, -, hdown⟩ | ⟨g, s₁, rfl, -, hfile, -, hasks⟩
  · have hasks : Asks m (.experiment []) := .inl ⟨[], rfl, of_decide_eq_true hm⟩
    exact absurd (hdown _ hasks) Bool.true_eq_false.mp
  · obtain ⟨⟨⟩, -, h⟩ := bind_eq_ok.mp h
    obtain rfl := Except.ok.inj h
    exact ⟨g, congrArg (· ++ [(g, m)]) hfile, hasks⟩

/-- What the collector writes, message by message. -/
theorem collect_results : ∀ {ms : List Message} {s : Collector}, hdf5collector lib s ms = .ok (s', []) →
    (∃ new, s'.file = s.file ++ new ∧ (∀ entry ∈ new, Asks entry.2 entry.1) ∧
      (new.map Prod.snd).filter Message.isResult = ms.filter Message.isResult) ∧
    (s.groups.Nodup → s'.groups.Nodup)
  | [], s, h => by
    obtain ⟨rfl, -⟩ := Prod.mk.inj (Except.ok.inj h)
    exact ⟨⟨[], (List.append_nil _).symm, fun entry hentry => absurd hentry List.not_mem_nil, rfl⟩, id⟩
  | m :: ms, s, h => by
    rw [hdf5collector] at h
    split at h
    · obtain ⟨s₁, hs₁, h⟩ := bind_eq_ok.mp h
      obtain ⟨⟨new, hnew, hasks, hresults⟩, hgroups⟩ := collect_results h
      rcases (handle_step hs₁).2 with hfile | ⟨g, hfile, hfree, hg, -⟩
      · have hdropped : m.isResult = false := by
          refine Bool.eq_false_iff.mpr fun hm => ?_
          obtain ⟨g, hwritten, -⟩ := handle_result hm hs₁
          simp [hfile] at hwritten
        refine ⟨⟨new, hfile ▸ hnew, hasks, ?_⟩, fun hnodup => hgroups ?_⟩
        · rw [hresults, List.filter_cons_of_neg (by simp [hdropped])]
        · rwa [groups, hfile]
      · refine ⟨⟨(g, m) :: new, ?_, List.forall_mem_cons.mpr ⟨hg, hasks⟩, ?_⟩, fun hnodup => hgroups ?_⟩
        · rw [hnew, hfile, List.append_assoc]
          rfl
        · rw [List.map_cons, List.filter_cons, List.filter_cons, hresults]
        · rw [groups, hfile, List.map_append]
          refine List.nodup_append.mpr ⟨hnodup, List.nodup_singleton _, fun a ha b hb hab => hfree ?_⟩
          rw [List.map_singleton, List.mem_singleton] at hb
          obtain rfl : a = g := hab.trans hb
          exact ha
    · cases (Prod.mk.inj (Except.ok.inj h)).2

end Collector

namespace Controller

variable (lib : Hdf5) (c : Jobs) (s : Controller)

def init : Controller := ⟨Scheduler.init, c.messages, c.logger, .loop, false, false, [], []⟩

/-- The stop signal is read in front of a round. -/
def schedule (ev : SchedulerEvent) : Option Controller :=
  match ev, s.stopSignal with
  | .round _, true => none
  | _, _ => (s.scheduler.step c.faultlist c.numWorkers ev).map fun scheduler => { s with scheduler }

/-- `queue_output.put(output)` -/
def put (p : ℕ) : Option Controller :=
  if p < s.scheduler.itter ∧ p ∉ s.scheduler.ended ∧ p ∉ s.delivered then
    c.results[p]?.map fun m => { s with queue := s.queue ++ [m], delivered := s.delivered ++ [p] }
  else none

/-- A round of the collector, up to the next message. -/
def log : Controller :=
  if s.logger.running = false ∨ s.stopSignal = true then { s with loggerPlace := .closed }
  else match s.queue with
    | [] => s
    | m :: queue => match s.logger.handle lib m with
      | .ok logger => { s with queue, logger, collected := s.collected ++ [m] }
      | .error e => { s with queue, loggerPlace := .raised m e }

/-- The logger is joined; after a stop signal the workers in the list are killed. -/
def return_ : Option Controller :=
  if s.scheduler.place = .left then some { s with returned := true }
  else if s.scheduler.place = .top ∧ s.stopSignal = true then
    let ended := s.scheduler.pList.map Running.process ++ s.scheduler.ended
    some { s with scheduler := { s.scheduler with ended }, returned := true }
  else none

def step : ControllerEvent → Option Controller
  | .schedule ev => s.schedule c ev
  | .put p => s.put c p
  | .log => match s.loggerPlace with
    | .loop => some (s.log lib)
    | _ => none
  | .stop => some { s with stopSignal := true }
  | .return_ => match s.loggerPlace with
    | .loop => none
    | _ => s.return_

/-- The message that the logger has raised at. -/
def lost : List Message :=
  match s.loggerPlace with
  | .raised m _ => [m]
  | _ => []

/-- Each message is in one place, in the order in which it was put, and each worker has put one at
    most; the logger has dealt with the first ones as its loop does. -/
structure Consistent : Prop where
  scheduled : s.scheduler.Scheduled c.faultlist c.numWorkers
  once : s.delivered.Nodup
  started : ∀ p ∈ s.delivered, p < s.scheduler.itter
  messages : s.collected ++ s.lost ++ s.queue = c.messages ++ s.delivered.filterMap (c.results[·]?)
  collected : hdf5collector lib c.logger s.collected = .ok (s.logger, [])
  closed : s.loggerPlace = .closed → s.logger.running = false ∨ s.stopSignal = true
  returned : s.returned = true → s.loggerPlace ≠ .loop ∧ (s.scheduler.place = .left ∨ s.stopSignal = true) ∧
    ∀ p < s.scheduler.itter, p ∈ s.scheduler.ended

/-- The file grows by the messages that the logger has dealt with: each result gets a group of its own,
    in the order of the queue, and of the other messages none is written into a taken group. -/
structure Recorded : Prop where
  file : ∃ new, s.logger.file = c.logger.file ++ new ∧ (∀ entry ∈ new, Collector.Asks entry.2 entry.1) ∧
    (new.map Prod.snd).filter Message.isResult = s.collected.filter Message.isResult
  groups : c.logger.groups.Nodup → s.logger.groups.Nodup

section Steps

variable {lib : Hdf5} {c : Jobs} {s s' : Controller}

theorem hdf5collector_concat {m : Message} {logger logger' : Collector} :
    ∀ {ms : List Message} {start : Collector}, hdf5collector lib start ms = .ok (logger, []) →
      logger.running = true → logger.handle lib m = .ok logger' →
      hdf5collector lib start (ms ++ [m]) = .ok (logger', [])
  | [], start, hms, hrunning, hm => by
    obtain ⟨rfl, -⟩ := Prod.mk.inj (Except.ok.inj hms)
    rw [List.nil_append, hdf5collector, if_pos hrunning]
    exact bind_eq_ok.mpr ⟨logger', hm, rfl⟩
  | m' :: ms, start, hms, hrunning, hm => by
    rw [hdf5collector] at hms
    rw [List.cons_append, hdf5collector]
    split at hms
    · next hstart =>
      obtain ⟨next, hnext, hms⟩ := bind_eq_ok.mp hms
      rw [if_pos hstart]
      exact bind_eq_ok.mpr ⟨next, hnext, hdf5collector_concat hms hrunning hm⟩
    · cases (Prod.mk.inj (Except.ok.inj hms)).2

/-- A step of the scheduling loop. -/
theorem schedule_eq_some {ev : SchedulerEvent} : s.schedule c ev = some s' ↔
    (s.stopSignal = true → ∀ mayStart, ev ≠ .round mayStart) ∧
      ∃ scheduler, s.scheduler.step c.faultlist c.numWorkers ev = some scheduler ∧
        s' = { s with scheduler } := by
  unfold schedule
  split
  · next mayStart hstop => exact iff_of_false nofun fun h => h.1 hstop mayStart rfl
  · next hstop =>
    rw [Option.map_eq_some_iff]
    constructor
    · rintro ⟨scheduler, hstep, rfl⟩
      refine ⟨fun hsignal mayStart hev => ?_, scheduler, hstep, rfl⟩
      exact hstop mayStart hev hsignal
    · rintro ⟨-, scheduler, hstep, rfl⟩
      exact ⟨scheduler, hstep, rfl⟩

theorem put_eq_some {p : ℕ} : s.put c p = some s' ↔
    p < s.scheduler.itter ∧ p ∉ s.scheduler.ended ∧ p ∉ s.delivered ∧ ∃ m, c.results[p]? = some m ∧
      s' = { s with queue := s.queue ++ [m], delivered := s.delivered ++ [p] } := by
  rw [put]
  split
  · next hp =>
    rw [Option.map_eq_some_iff, and_iff_right hp.1, and_iff_right hp.2.1, and_iff_right hp.2.2]
    exact exists_congr fun m => and_congr_right fun _ => eq_comm
  · next hp => exact iff_of_false nofun fun h => hp ⟨h.1, h.2.1, h.2.2.1⟩

theorem log_eq_some : s.step lib c .log = some s' ↔ s.loggerPlace = .loop ∧ s' = s.log lib := by
  simp only [step]
  split
  · next hloop => simp [hloop, eq_comm]
  · next hloop => exact iff_of_false nofun fun h => hloop h.1

/-- The controller returns behind its loop or with the stop signal, and only behind the logger. -/
theorem return_cases (h : s.step lib c .return_ = some s') : s.loggerPlace ≠ .loop ∧
    ((s.scheduler.place = .left ∧ s' = { s with returned := true }) ∨
      (s.scheduler.place = .top ∧ s.stopSignal = true ∧
        s' = { s with
          scheduler := { s.scheduler with
            ended := s.scheduler.pList.map Running.process ++ s.scheduler.ended }
          returned := true })) := by
  simp only [step] at h
  split at h
  · cases h
  · next hloop =>
    rw [return_] at h
    split at h
    · next hleft => exact ⟨hloop, .inl ⟨hleft, (Option.some.inj h).symm⟩⟩
    · split at h
      · next hstop => exact ⟨hloop, .inr ⟨hstop.1, hstop.2, (Option.some.inj h).symm⟩⟩
      · cases h

/-- What a round of the collector can do. -/
theorem log_cases (s : Controller) :
    ((s.logger.running = false ∨ s.stopSignal = true) ∧ s.log lib = { s with loggerPlace := .closed }) ∨
    (s.logger.running = true ∧ s.stopSignal = false ∧
      ((s.queue = [] ∧ s.log lib = s) ∨
        (∃ m queue logger, s.queue = m :: queue ∧ s.logger.handle lib m = .ok logger ∧
          s.log lib = { s with queue, logger, collected := s.collected ++ [m] }) ∨
        ∃ m queue e, s.queue = m :: queue ∧ s.logger.handle lib m = .error e ∧
          s.log lib = { s with queue, loggerPlace := .raised m e })) := by
  rw [Controller.log]
  split
  · next hend => exact .inl ⟨hend, rfl⟩
  · next hend =>
    rw [not_or, Bool.not_eq_false, Bool.not_eq_true] at hend
    refine .inr ⟨hend.1, hend.2, ?_⟩
    split
    · next hqueue => exact .inl ⟨hqueue, rfl⟩
    · next m queue hqueue =>
      split
      · next logger hm => exact .inr (.inl ⟨m, queue, logger, hqueue, hm, rfl⟩)
      · next e hm => exact .inr (.inr ⟨m, queue, e, hqueue, hm, rfl⟩)

theorem consistent_init : (init c).Consistent lib c where
  scheduled := Scheduler.scheduled_init c.faultlist c.numWorkers
  once := List.nodup_nil
  started := nofun
  messages := (List.append_nil _).symm
  collected := rfl
  closed := nofun
  returned := nofun

theorem Consistent.schedule {ev : SchedulerEvent} (hfaults : ∀ e ∈ c.experiments, e.faultlist ≠ [])
    (h : s.Consistent lib c) (hstep : s.schedule c ev = some s') : s'.Consistent lib c := by
  obtain ⟨hround, scheduler, hscheduler, rfl⟩ := schedule_eq_some.mp hstep
  obtain ⟨hitter, hended⟩ := Scheduler.step_mono hscheduler
  have hentries : ∀ e ∈ c.faultlist, e.faultlist ≠ [] := by
    refine List.forall_mem_map.mpr fun e he => ?_
    simpa using hfaults e he
  refine ⟨h.scheduled.step hentries hscheduler, h.once, fun p hp => (h.started p hp).trans_le hitter,
    h.messages, h.collected, h.closed, fun hreturned => ?_⟩
  obtain ⟨hloop, hplace, hall⟩ := h.returned hreturned
  rcases hplace with hleft | hstop
  · obtain ⟨hplace, hev⟩ := Scheduler.step_outside (.inl hleft) hscheduler
    have hsame := Scheduler.step_itter hev hscheduler
    exact ⟨hloop, .inl (hplace.trans hleft), fun p hp => hended p (hall p (hsame ▸ hp))⟩
  · have hsame := Scheduler.step_itter (hround hstop) hscheduler
    exact ⟨hloop, .inr hstop, fun p hp => hended p (hall p (hsame ▸ hp))⟩

theorem Consistent.put {p : ℕ} (h : s.Consistent lib c) (hstep : s.put c p = some s') :
    s'.Consistent lib c := by
  obtain ⟨hstarted, -, hnew, m, hm, rfl⟩ := put_eq_some.mp hstep
  refine ⟨h.scheduled, ?_, fun q hq => ?_, ?_, h.collected, h.closed, h.returned⟩
  · refine List.nodup_append.mpr ⟨h.once, List.nodup_singleton p, fun a ha b hb hab => ?_⟩
    rw [List.mem_singleton.mp hb] at hab
    exact hnew (hab ▸ ha)
  · rcases List.mem_append.mp hq with hq | hq
    · exact h.started q hq
    · rwa [List.mem_singleton.mp hq]
  · rw [List.filterMap_append, ← List.append_assoc c.messages, ← h.messages]
    simp [lost, hm]

/-- The collector takes the first message of the queue, or nothing but its place changes. -/
theorem Consistent.log (h : s.Consistent lib c) (hloop : s.loggerPlace = .loop) :
    (s.log lib).Consistent lib c := by
  have hlost : s.lost = [] := by rw [lost, hloop]
  have hreturned : s.returned ≠ true := fun hreturned => (h.returned hreturned).1 hloop
  have hmessages := h.messages
  rw [hlost, List.append_nil] at hmessages
  rcases log_cases s with ⟨hend, hlog⟩ | ⟨hrunning, -, ⟨-, hlog⟩ | ⟨m, queue, logger, hqueue, hm, hlog⟩ |
    ⟨m, queue, e, hqueue, -, hlog⟩⟩
  · rw [hlog]
    refine ⟨h.scheduled, h.once, h.started, ?_, h.collected, fun _ => hend, fun hr => absurd hr hreturned⟩
    simpa [lost] using hmessages
  · rw [hlog]
    exact h
  · rw [hqueue] at hmessages
    rw [hlog]
    refine ⟨h.scheduled, h.once, h.started, ?_, hdf5collector_concat h.collected hrunning hm, ?_,
      fun hr => absurd hr hreturned⟩
    · simpa [lost, hloop] using hmessages
    · exact fun hclosed => absurd (hloop.symm.trans hclosed) nofun
  · rw [hqueue] at hmessages
    rw [hlog]
    refine ⟨h.scheduled, h.once, h.started, ?_, h.collected, nofun, fun hr => absurd hr hreturned⟩
    simpa [lost] using hmessages

theorem Consistent.stop (h : s.Consistent lib c) :
    Consistent lib c { s with stopSignal := true } where
  scheduled := h.scheduled
  once := h.once
  started := h.started
  messages := h.messages
  collected := h.collected
  closed _ := .inr rfl
  returned hreturned := ⟨(h.returned hreturned).1, .inr rfl, (h.returned hreturned).2.2⟩

theorem Consistent.killed (h : s.Consistent lib c) : ∀ p < s.scheduler.itter,
    p ∈ s.scheduler.pList.map Running.process ++ s.scheduler.ended := by
  intro p hp
  have hmem := h.scheduled.once.mem_iff.mpr (List.mem_range.mpr hp)
  rcases List.mem_append.mp hmem with hremoved | hlist
  · exact List.mem_append_right _ (h.scheduled.removed p hremoved)
  · exact List.mem_append_left _ hlist

/-- No worker outlives the controller: all have ended, or they are killed. -/
theorem Consistent.return_ (h : s.Consistent lib c) (hstep : s.step lib c .return_ = some s') :
    s'.Consistent lib c := by
  obtain ⟨hloop, ⟨hleft, rfl⟩ | ⟨htop, hstop, rfl⟩⟩ := return_cases hstep
  · have hitter : s.scheduler.itter ≤ c.faultlist.length := h.scheduled.itter_le
    exact ⟨h.scheduled, h.once, h.started, h.messages, h.collected, h.closed, fun _ =>
      ⟨hloop, .inl hleft, fun p hp => (h.scheduled.left hleft).2 p (hp.trans_le hitter)⟩⟩
  · refine ⟨⟨h.scheduled.started, h.scheduled.itter_le, h.scheduled.bounded, h.scheduled.experiments,
      h.scheduled.once, fun p hp => List.mem_append_right _ (h.scheduled.removed p hp), ?_,
      h.scheduled.raised⟩, h.once, h.started, h.messages, h.collected, h.closed,
      fun _ => ⟨hloop, .inr hstop, h.killed⟩⟩
    exact fun hleft => absurd (htop.symm.trans hleft) nofun

theorem Consistent.step {e : ControllerEvent} (hfaults : ∀ e ∈ c.experiments, e.faultlist ≠ [])
    (h : s.Consistent lib c) (hstep : s.step lib c e = some s') : s'.Consistent lib c := by
  cases e with
  | schedule ev => exact h.schedule hfaults hstep
  | put p => exact h.put hstep
  | log =>
    obtain ⟨hloop, rfl⟩ := log_eq_some.mp hstep
    exact h.log hloop
  | stop =>
    obtain rfl := Option.some.inj hstep
    exact h.stop
  | return_ => exact h.return_ hstep

theorem consistent_run (hfaults : ∀ e ∈ c.experiments, e.faultlist ≠ []) {events : List ControllerEvent}
    (hrun : Run.run (Controller.step lib c) (init c) events = some s) : s.Consistent lib c :=
  (Run.always_of_inv (fun _ h => h) (fun _ _ _ h hstep => h.step hfaults hstep) events
    consistent_init).last hrun

theorem Consistent.recorded (h : s.Consistent lib c) : s.Recorded c where
  file := (Collector.collect_results h.collected).1
  groups := (Collector.collect_results h.collected).2

end Steps

/-- In any interleaving of the controller, the workers, the logger and the stop signal no result is
    lost or written twice, and no worker outlives the controller. -/
theorem always_recorded (hfaults : ∀ e ∈ c.experiments, e.faultlist ≠ []) (events : List ControllerEvent) :
    Run.Always (step lib c) (fun s => s.Consistent lib c ∧ s.Recorded c) (init c) events :=
  Run.always_of_inv (fun _ h => ⟨h, h.recorded⟩) (fun _ _ _ h hstep => h.step hfaults hstep) events
    consistent_init

/-- One experiment after a golden run that has been logged before. -/
def oneExperiment : Jobs where
  experiments := [⟨4, [⟨⟨0x80, 1⟩, .int 0x100, [], 1, 0, 1, .int 0xff, 1, false⟩], emptyRun⟩]
  numWorkers := 1
  messages := []
  logger := Collector.start [] 1 false false

/-- The logger waits for the result, the worker ends, then the logger writes and ends. -/
def oneRound : List ControllerEvent :=
  [.schedule (.round true), .log, .put 0, .schedule (.visit false none), .schedule (.exit 0),
    .schedule .reap, .schedule (.visit false none), .log, .schedule (.round true), .log, .return_]

theorem always_recorded_one :
    Run.Always (step Hdf5.plain oneExperiment)
      (fun s => s.Consistent Hdf5.plain oneExperiment ∧ s.Recorded oneExperiment) (init oneExperiment)
      oneRound ∧
    ∃ s, Run.run (step Hdf5.plain oneExperiment) (init oneExperiment) oneRound = some s ∧
      s.returned = true ∧ s.logger.groups = [.experiment "experiment4".toList] :=
  ⟨always_recorded Hdf5.plain oneExperiment (by simp [oneExperiment]) oneRound, _, rfl, rfl, rfl⟩

end Controller

end Archie.Campaign
