import Archie.Campaign.Controller

/-! When the controller returns.

    Without a stop signal it returns behind the logger, which waits for one message of each worker. A
    worker that ends without its result therefore keeps the controller in `p_logger.join()`; nothing
    else does, as every other state has a step that brings the end nearer. -/

namespace Archie.Campaign
open Python

namespace Collector

variable {lib : Hdf5} {s s' : Collector} {left : List Message}

/-- The messages that the collector has dealt with are written, and it waits for the others. -/
theorem Pending.rest : ∀ {ms : List Message} {s : Collector}, Pending lib s (ms ++ left) →
    hdf5collector lib s ms = .ok (s', []) →
      Pending lib s' left ∧ s'.file.map Prod.snd = s.file.map Prod.snd ++ ms
  | [], s, h, hrun => by
    obtain ⟨rfl, -⟩ := Prod.mk.inj (Except.ok.inj hrun)
    exact ⟨h, (List.append_nil _).symm⟩
  | m :: ms, s, h, hrun => by
    obtain ⟨s₁, g, hs₁, hfile, hpending⟩ := h.handle
    rw [hdf5collector, if_pos h.running] at hrun
    obtain ⟨s₂, hs₂, hrun⟩ := bind_eq_ok.mp hrun
    obtain rfl : s₁ = s₂ := Except.ok.inj (hs₁.symm.trans hs₂)
    obtain ⟨hleft, hwritten⟩ := hpending.rest hrun
    refine ⟨hleft, ?_⟩
    rw [hwritten, hfile, List.map_append, List.append_assoc]
    rfl

end Collector

namespace Jobs

variable (c : Jobs)

/-- The logger waits for these messages and can write them. -/
def Awaited (lib : Hdf5) : Prop := Collector.Pending lib c.logger (c.messages ++ c.results)

/-- The results that are not in the queue yet. -/
def remaining (delivered : List ℕ) : List Message :=
  ((List.range c.results.length).filter fun p => decide (p ∉ delivered)).filterMap (c.results[·]?)

variable {c} {delivered : List ℕ}

theorem filterMap_range {α : Type} (l : List α) : (List.range l.length).filterMap (l[·]?) = l := by
  induction l with
  | nil => rfl
  | cons a l ih => simpa [List.range_succ_eq_map, List.filterMap_map, Function.comp_def] using ih

theorem remaining_perm (honce : delivered.Nodup) (hlt : ∀ p ∈ delivered, p < c.results.length) :
    (delivered.filterMap (c.results[·]?) ++ c.remaining delivered).Perm c.results := by
  have hfilter : ((List.range c.results.length).filter fun p => decide (p ∈ delivered)).Perm delivered := by
    refine (List.perm_ext_iff_of_nodup (List.nodup_range.filter _) honce).mpr fun p => ?_
    simp only [List.mem_filter, List.mem_range, decide_eq_true_eq]
    exact and_iff_right_of_imp (hlt p)
  have hsplit := List.filter_append_perm (fun p => decide (p ∈ delivered)) (List.range c.results.length)
  have hnot : (List.range c.results.length).filter (fun p => !decide (p ∈ delivered)) =
      (List.range c.results.length).filter fun p => decide (p ∉ delivered) :=
    List.filter_congr fun p _ => decide_not.symm
  rw [hnot] at hsplit
  have hperm := ((hfilter.symm.append_right _).trans hsplit).filterMap (c.results[·]?)
  rw [List.filterMap_append, filterMap_range] at hperm
  exact hperm

theorem remaining_eq_nil_iff :
    c.remaining delivered = [] ↔ ∀ p < c.results.length, p ∈ delivered := by
  constructor
  · intro h p hp
    by_contra hnot
    have hmem : c.results[p] ∈ c.remaining delivered := by
      refine List.mem_filterMap.mpr ⟨p, List.mem_filter.mpr ⟨List.mem_range.mpr hp, ?_⟩, ?_⟩
      · exact decide_eq_true hnot
      · exact List.getElem?_eq_getElem hp
    rw [h] at hmem
    exact absurd hmem List.not_mem_nil
  · intro h
    rw [remaining, List.filter_eq_nil_iff.mpr fun p hp => ?_]
    · rfl
    · simpa using h p (List.mem_range.mp hp)

end Jobs

namespace Scheduler

variable {faultlist : List FaultEntry} {numWorkers : ℕ} {s s' : Scheduler} {ev : SchedulerEvent}

/-- The entry that the loop is at is there, and only workers that were started have ended. -/
structure Placed (s : Scheduler) : Prop where
  entry : ∀ i, s.place = .join i ∨ s.place = .reap i → i < s.pList.length
  ended : ∀ p ∈ s.ended, p < s.itter

theorem placed_init : init.Placed := ⟨nofun, nofun⟩

theorem Placed.startWorker (h : s.Placed) (faults : FaultEntry) : (s.startWorker faults).Placed := by
  refine ⟨fun i hi => ?_, fun p hp => (h.ended p hp).trans (Nat.lt_succ_self _)⟩
  rw [Scheduler.startWorker] at hi
  split at hi
  · exact absurd hi (by simp)
  · exact absurd hi (by simp)

theorem Placed.visit (h : s.Placed) {i : ℕ} {w : Running} (hw : s.pList[i]? = some w) (expired : Bool)
    (children : Option ℕ) : (s.visit i expired children w).Placed := by
  obtain ⟨hi, -⟩ := List.getElem?_eq_some_iff.mp hw
  have hplaced : ∀ j, i = j → j < s.pList.length := fun j hij => hij ▸ hi
  rw [Scheduler.visit, halt]
  split_ifs
  · exact ⟨by simpa using hplaced, h.ended⟩
  · exact ⟨by simp, h.ended⟩
  · exact ⟨by simpa using hplaced, h.ended⟩

theorem Placed.step (h : s.Placed) (hstep : s.step faultlist numWorkers ev = some s') : s'.Placed := by
  cases ev with
  | exit process =>
    simp only [Scheduler.step] at hstep
    split at hstep
    · next hp =>
      obtain rfl := Option.some.inj hstep
      exact ⟨h.entry, List.forall_mem_cons.mpr ⟨hp, h.ended⟩⟩
    · cases hstep
  | round mayStart =>
    simp only [Scheduler.step] at hstep
    split at hstep
    · obtain rfl := Option.some.inj hstep
      rw [round]
      split
      · exact ⟨by simp, h.ended⟩
      · split
        · cases faultlist[s.itter]? with
          | none => exact ⟨by simp, h.ended⟩
          | some faults => exact h.startWorker faults
        · exact ⟨by simp, h.ended⟩
    · cases hstep
  | visit expired children =>
    simp only [Scheduler.step] at hstep
    split at hstep
    · next i hplace =>
      obtain rfl := Option.some.inj hstep
      cases hw : s.pList[i]? with
      | none => exact ⟨by simp, h.ended⟩
      | some w => exact h.visit hw expired children
    · cases hstep
  | joined =>
    simp only [Scheduler.step] at hstep
    split at hstep
    · next i hplace =>
      split at hstep
      · obtain rfl := Option.some.inj hstep
        exact ⟨by simpa using h.entry i (.inl hplace), h.ended⟩
      · cases hstep
    · cases hstep
  | reap =>
    simp only [Scheduler.step] at hstep
    split at hstep
    · obtain ⟨w, -, rfl⟩ := Option.map_eq_some_iff.mp hstep
      rw [Scheduler.reap]
      split
      · exact ⟨by simp, h.ended⟩
      · exact ⟨by simp, h.ended⟩
    · cases hstep

end Scheduler

namespace Controller

variable {lib : Hdf5} {c : Jobs} {s s' : Controller}

/-- A state of a campaign whose messages can all be written. -/
structure Intact (lib : Hdf5) (c : Jobs) (s : Controller) : Prop where
  consistent : s.Consistent lib c
  placed : s.scheduler.Placed
  unraised : ∀ m e, s.loggerPlace ≠ .raised m e

theorem length_faultlist : c.faultlist.length = c.results.length := by
  rw [Jobs.faultlist, Jobs.results, List.length_map, List.length_map]

theorem Consistent.delivered_lt (h : s.Consistent lib c) : ∀ p ∈ s.delivered, p < c.results.length :=
  fun p hp => (h.started p hp).trans_le (h.scheduled.itter_le.trans length_faultlist.le)

theorem Intact.lost_eq_nil (h : s.Intact lib c) : s.lost = [] := by
  rw [lost]
  split
  · next m e hraised => exact absurd hraised (h.unraised m e)
  · rfl

/-- What is in the queue and what is still to come is what the logger waits for. -/
theorem Intact.pending (h : s.Intact lib c) (hawaited : c.Awaited lib) :
    Collector.Pending lib s.logger (s.queue ++ c.remaining s.delivered) ∧
      s.logger.file.map Prod.snd = c.logger.file.map Prod.snd ++ s.collected := by
  have hmessages := h.consistent.messages
  rw [h.lost_eq_nil, List.append_nil] at hmessages
  have hperm := (Jobs.remaining_perm h.consistent.once h.consistent.delivered_lt).append_left c.messages
  rw [← List.append_assoc, ← hmessages, List.append_assoc] at hperm
  exact (hawaited.perm hperm).rest h.consistent.collected

theorem intact_init : (init c).Intact lib c :=
  ⟨consistent_init, Scheduler.placed_init, by simp [init]⟩

/-- The logger leaves the other parties alone. -/
theorem log_keeps (s : Controller) : (s.log lib).scheduler = s.scheduler ∧
    (s.log lib).delivered = s.delivered ∧ (s.log lib).stopSignal = s.stopSignal := by
  rcases log_cases s with ⟨-, hlog⟩ | ⟨-, -, ⟨-, hlog⟩ | ⟨m, queue, logger, -, -, hlog⟩ |
    ⟨m, queue, e, -, -, hlog⟩⟩
  all_goals
    rw [hlog]
    exact ⟨rfl, rfl, rfl⟩

theorem Consistent.listed_lt (h : s.Consistent lib c) {p : ℕ}
    (hp : p ∈ s.scheduler.pList.map Running.process) : p < s.scheduler.itter :=
  List.mem_range.mp (h.scheduled.once.mem_iff.mp (List.mem_append_right _ hp))

/-- The logger raises nothing: the message it takes is one that it waits for. -/
theorem Intact.log_unraised (h : s.Intact lib c) (hawaited : c.Awaited lib) :
    ∀ m e, (s.log lib).loggerPlace ≠ .raised m e := by
  intro m e
  rcases log_cases s with ⟨-, hlog⟩ | ⟨-, -, ⟨-, hlog⟩ | ⟨m', queue, logger, -, -, hlog⟩ |
    ⟨m', queue, e', hqueue, herror, -⟩⟩
  · rw [hlog]
    exact nofun
  · rw [hlog]
    exact h.unraised m e
  · rw [hlog]
    exact h.unraised m e
  · have hpending := (h.pending hawaited).1
    rw [hqueue] at hpending
    obtain ⟨logger, g, hlogger, -⟩ := hpending.handle
    cases hlogger.symm.trans herror

theorem Intact.step {e : ControllerEvent} (hfaults : ∀ e ∈ c.experiments, e.faultlist ≠ [])
    (hawaited : c.Awaited lib) (h : s.Intact lib c) (hstep : s.step lib c e = some s') :
    s'.Intact lib c := by
  have hconsistent := h.consistent.step hfaults hstep
  cases e with
  | schedule ev =>
    obtain ⟨-, scheduler, hscheduler, rfl⟩ := schedule_eq_some.mp hstep
    exact ⟨hconsistent, h.placed.step hscheduler, h.unraised⟩
  | put p =>
    obtain ⟨-, -, -, m, -, rfl⟩ := put_eq_some.mp hstep
    exact ⟨hconsistent, h.placed, h.unraised⟩
  | log =>
    obtain ⟨-, rfl⟩ := log_eq_some.mp hstep
    refine ⟨hconsistent, ?_, h.log_unraised hawaited⟩
    rw [(log_keeps s).1]
    exact h.placed
  | stop =>
    obtain rfl := Option.some.inj hstep
    exact ⟨hconsistent, h.placed, h.unraised⟩
  | return_ =>
    obtain ⟨-, ⟨-, rfl⟩ | ⟨-, -, rfl⟩⟩ := return_cases hstep
    · exact ⟨hconsistent, h.placed, h.unraised⟩
    · refine ⟨hconsistent, ⟨h.placed.entry, fun p hp => ?_⟩, h.unraised⟩
      rcases List.mem_append.mp hp with hp | hp
      · exact h.consistent.listed_lt hp
      · exact h.placed.ended p hp

/-- What the logger has taken is in the file, and at a return without a stop signal that is everything. -/
structure Complete (c : Jobs) (s : Controller) : Prop where
  unraised : ∀ m e, s.loggerPlace ≠ .raised m e
  file : s.logger.file.map Prod.snd = c.logger.file.map Prod.snd ++ s.collected
  returned : s.returned = true → s.stopSignal = false → s.collected.Perm (c.messages ++ c.results)

/-- The logger ends by itself when nothing is left. -/
theorem Intact.eq_nil (h : s.Intact lib c) (hawaited : c.Awaited lib) (hidle : s.logger.running = false) :
    s.queue = [] ∧ c.remaining s.delivered = [] := by
  have hpending := (h.pending hawaited).1
  rw [← List.append_eq_nil_iff]
  cases hleft : s.queue ++ c.remaining s.delivered with
  | nil => rfl
  | cons m ms =>
    rw [hleft] at hpending
    exact absurd (hpending.running.symm.trans hidle) Bool.true_eq_false.mp

/-- A controller that has returned without a stop signal has left its loop, and the logger has ended by
    itself. -/
theorem Intact.returned (h : s.Intact lib c) (hreturned : s.returned = true) (hstop : s.stopSignal = false) :
    s.scheduler.place = .left ∧ s.logger.running = false := by
  obtain ⟨hloop, hleft, -⟩ := h.consistent.returned hreturned
  have hsignal : s.stopSignal ≠ true := by simp [hstop]
  refine ⟨hleft.resolve_right hsignal, ?_⟩
  have hclosed : s.loggerPlace = .closed := by
    cases hplace : s.loggerPlace with
    | loop => exact absurd hplace hloop
    | closed => rfl
    | raised m e => exact absurd hplace (h.unraised m e)
  exact (h.consistent.closed hclosed).resolve_right hsignal

theorem Intact.complete (h : s.Intact lib c) (hawaited : c.Awaited lib) : s.Complete c where
  unraised := h.unraised
  file := (h.pending hawaited).2
  returned hreturned hstop := by
    obtain ⟨hqueue, hremaining⟩ := h.eq_nil hawaited (h.returned hreturned hstop).2
    have hmessages := h.consistent.messages
    rw [h.lost_eq_nil, hqueue, List.append_nil, List.append_nil] at hmessages
    have hperm := Jobs.remaining_perm h.consistent.once h.consistent.delivered_lt
    rw [hremaining, List.append_nil] at hperm
    rw [hmessages]
    exact hperm.append_left c.messages

/-- The search for a QEMU thread has raised, or a worker has ended without its result. -/
def Stuck (s : Controller) : Prop :=
  (∃ e, s.scheduler.place = .raised e) ∨ ∃ p ∈ s.scheduler.ended, p ∉ s.delivered

/-- This stays so. -/
theorem Stuck.step (h : s.Stuck) (hstop : s.stopSignal = false) {e : ControllerEvent} (he : e ≠ .stop)
    (hstep : s.step lib c e = some s') : s'.Stuck ∧ s'.stopSignal = false := by
  cases e with
  | schedule ev =>
    obtain ⟨-, scheduler, hscheduler, rfl⟩ := schedule_eq_some.mp hstep
    refine ⟨?_, hstop⟩
    rcases h with ⟨e, hraised⟩ | ⟨p, hp, hsilent⟩
    · exact .inl ⟨e, (Scheduler.step_outside (.inr ⟨e, hraised⟩) hscheduler).1.trans hraised⟩
    · exact .inr ⟨p, (Scheduler.step_mono hscheduler).2 p hp, hsilent⟩
  | put q =>
    obtain ⟨-, halive, -, m, -, rfl⟩ := put_eq_some.mp hstep
    refine ⟨h.imp id ?_, hstop⟩
    rintro ⟨p, hp, hsilent⟩
    refine ⟨p, hp, fun hmem => ?_⟩
    rcases List.mem_append.mp hmem with hmem | hmem
    · exact hsilent hmem
    · exact halive (List.mem_singleton.mp hmem ▸ hp)
  | log =>
    obtain ⟨-, rfl⟩ := log_eq_some.mp hstep
    obtain ⟨hscheduler, hdelivered, hsignal⟩ : (s.log lib).scheduler = s.scheduler ∧ _ := log_keeps s
    rw [Stuck, hscheduler, hdelivered, hsignal]
    exact ⟨h, hstop⟩
  | stop => exact absurd rfl he
  | return_ =>
    obtain ⟨-, ⟨-, rfl⟩ | ⟨-, hsignal, -⟩⟩ := return_cases hstep
    · exact ⟨h, hstop⟩
    · exact absurd (hstop.symm.trans hsignal) nofun

/-- And the controller does not return then. -/
theorem Intact.not_returned (h : s.Intact lib c) (hawaited : c.Awaited lib) (hstuck : s.Stuck)
    (hstop : s.stopSignal = false) : s.returned ≠ true := by
  intro hreturned
  obtain ⟨hleft, hidle⟩ := h.returned hreturned hstop
  rcases hstuck with ⟨e, hraised⟩ | ⟨p, hp, hsilent⟩
  · exact absurd (hleft.symm.trans hraised) nofun
  · have hlt := (h.placed.ended p hp).trans_le h.consistent.scheduled.itter_le
    exact hsilent (Jobs.remaining_eq_nil_iff.mp (h.eq_nil hawaited hidle).2 p (length_faultlist ▸ hlt))

/-! ### A step nearer to the return -/

/-- The processes below `n` that are not in a list. -/
def missing (n : ℕ) (l : List ℕ) : ℕ := (Finset.range n \ l.toFinset).card

theorem missing_succ (n : ℕ) (l : List ℕ) : missing (n + 1) l ≤ missing n l + 1 := by
  refine (Finset.card_le_card (t := insert n (Finset.range n \ l.toFinset)) ?_).trans
    (Finset.card_insert_le _ _)
  intro p hp
  simp only [Finset.mem_sdiff, Finset.mem_range, Finset.mem_insert] at hp ⊢
  rcases Nat.lt_succ_iff_lt_or_eq.mp hp.1 with hlt | heq
  · exact .inr ⟨hlt, hp.2⟩
  · exact .inl heq

theorem missing_lt {n p : ℕ} {l l' : List ℕ} (hp : p < n) (hnew : p ∉ l) (hmem : p ∈ l')
    (hsub : ∀ q ∈ l, q ∈ l') : missing n l' < missing n l := by
  refine Finset.card_lt_card ⟨fun q hq => ?_, fun hle => ?_⟩
  · simp only [Finset.mem_sdiff, List.mem_toFinset] at hq ⊢
    exact ⟨hq.1, fun hq' => hq.2 (hsub q hq')⟩
  · have hmem' : p ∈ Finset.range n \ l'.toFinset := hle (by simp [hp, hnew])
    simp [hmem] at hmem'

end Controller

/-- How far the round is from the end of the list, the length of the list counting most. -/
def Scheduler.weight (s : Scheduler) : ℕ :=
  match s.place with
  | .top => 4 * s.pList.length + 1
  | .visit i => if i < s.pList.length then 4 * s.pList.length else 4 * s.pList.length + 2
  | .join _ => 4 * s.pList.length
  | .reap _ => 4 * s.pList.length - 1
  | .left => 0
  | .raised _ => 0

namespace Controller

variable {lib : Hdf5} {c : Jobs} {s s' : Controller}

/-- What is left to do: experiments to start, workers to end, results to put, entries to visit, messages
    to write, and the ends of the logger and of the controller. -/
def rank (c : Jobs) (s : Controller) : ℕ :=
  8 * (c.results.length - s.scheduler.itter) + missing s.scheduler.itter s.scheduler.ended +
    2 * missing s.scheduler.itter s.delivered + s.scheduler.weight + s.queue.length +
    (match s.loggerPlace with | .loop => 1 | _ => 0) + (if s.returned = true then 0 else 1)

/-- Nothing keeps the controller from its return. -/
structure Able (lib : Hdf5) (c : Jobs) (s : Controller) : Prop where
  intact : s.Intact lib c
  unstopped : s.stopSignal = false
  unraised : ∀ e, s.scheduler.place ≠ .raised e
  ended : ∀ p ∈ s.scheduler.ended, p ∈ s.delivered

/-- A step, other than the stop signal, that brings the return nearer. -/
def Nearer (lib : Hdf5) (c : Jobs) (s : Controller) : Prop :=
  ∃ e s', e ≠ .stop ∧ s.step lib c e = some s' ∧ s'.Able lib c ∧ rank c s' < rank c s

section Progress

variable (hfaults : ∀ e ∈ c.experiments, e.faultlist ≠ []) (hawaited : c.Awaited lib)
include hfaults hawaited

/-- A worker that has not ended puts its result, or ends behind it. -/
theorem Able.worker (h : s.Able lib c) {p : ℕ} (hp : p < s.scheduler.itter) (halive : p ∉ s.scheduler.ended) :
    s.Nearer lib c := by
  by_cases hput : p ∈ s.delivered
  · have hstep : s.step lib c (.schedule (.exit p)) =
        some { s with scheduler := { s.scheduler with ended := p :: s.scheduler.ended } } := by
      simp [step, schedule, Scheduler.step, hp]
    refine ⟨.schedule (.exit p), _, by simp, hstep, ⟨h.intact.step hfaults hawaited hstep, h.unstopped,
      h.unraised, List.forall_mem_cons.mpr ⟨hput, h.ended⟩⟩, ?_⟩
    have hlt := missing_lt hp halive List.mem_cons_self fun q hq => List.mem_cons_of_mem p hq
    simp only [rank, Scheduler.weight]
    omega
  · have hresult : p < c.results.length :=
      hp.trans_le (h.intact.consistent.scheduled.itter_le.trans length_faultlist.le)
    have hstep := put_eq_some.mpr ⟨hp, halive, hput, _, List.getElem?_eq_getElem hresult, rfl⟩
    refine ⟨.put p, _, by simp, hstep, ⟨h.intact.step hfaults hawaited (e := .put p) hstep, h.unstopped,
      h.unraised, fun q hq => List.mem_append_left _ (h.ended q hq)⟩, ?_⟩
    have hlt := missing_lt hp hput (List.mem_append_right s.delivered (List.mem_singleton_self p))
      fun q hq => List.mem_append_left _ hq
    simp only [rank, Scheduler.weight, List.length_append, List.length_singleton]
    omega

/-- A step of the scheduling loop that ends no worker. -/
theorem Able.schedule (h : s.Able lib c) {ev : SchedulerEvent} {scheduler : Scheduler}
    (hstep : s.scheduler.step c.faultlist c.numWorkers ev = some scheduler) (hev : ev.OneChild)
    (hended : scheduler.ended = s.scheduler.ended)
    (hrank : rank c { s with scheduler } < rank c s) :
    s.Nearer lib c := by
  have hentries : ∀ e ∈ c.faultlist, e.faultlist ≠ [] := by
    refine List.forall_mem_map.mpr fun e he => ?_
    simpa using hfaults e he
  have hstep' : s.step lib c (.schedule ev) = some { s with scheduler } :=
    schedule_eq_some.mpr ⟨fun hstop => absurd (h.unstopped.symm.trans hstop) nofun, scheduler, hstep, rfl⟩
  refine ⟨.schedule ev, _, by simp, hstep', ⟨h.intact.step hfaults hawaited hstep', h.unstopped, ?_, ?_⟩, hrank⟩
  · exact Scheduler.not_raised_step hentries h.unraised hev hstep
  · rw [hended]
    exact h.ended

/-- In front of a round without living workers the loop is left, the next experiment is started, or the
    list is visited. -/
theorem Able.round (h : s.Able lib c) (hworkers : 0 < c.numWorkers) (htop : s.scheduler.place = .top) :
    s.Nearer lib c := by
  by_cases hempty : s.scheduler.pList.length = 0
  · by_cases hdone : s.scheduler.itter = c.faultlist.length
    · have hstep : s.scheduler.step c.faultlist c.numWorkers (.round false) =
          some { s.scheduler with place := .left } := by
        simp [Scheduler.step, htop, Scheduler.round, hempty, hdone]
      refine h.schedule hfaults hawaited hstep trivial rfl ?_
      simp only [rank, Scheduler.weight, htop]
      omega
    · have hlt := lt_of_le_of_ne h.intact.consistent.scheduled.itter_le hdone
      have hnext := List.getElem?_eq_getElem hlt
      have hstep : s.scheduler.step c.faultlist c.numWorkers (.round true) =
          some (s.scheduler.startWorker c.faultlist[s.scheduler.itter]) := by
        simp [Scheduler.step, htop, Scheduler.round, hempty, hdone, hworkers, hnext]
      refine h.schedule hfaults hawaited hstep trivial rfl ?_
      have hnonempty : c.faultlist[s.scheduler.itter].faultlist ≠ [] := by
        have hmem := List.getElem_mem hlt
        obtain ⟨e, he, heq⟩ := List.mem_map.mp hmem
        rw [← heq]
        simpa using hfaults e he
      have hended := missing_succ s.scheduler.itter s.scheduler.ended
      have hdelivered := missing_succ s.scheduler.itter s.delivered
      rw [length_faultlist] at hlt
      simp only [rank, Scheduler.weight, htop, Scheduler.startWorker, if_neg hnonempty,
        List.length_append, List.length_singleton, hempty, zero_add, zero_lt_one, if_true]
      omega
  · have hstep : s.scheduler.step c.faultlist c.numWorkers (.round false) =
        some { s.scheduler with place := .visit 0 } := by
      simp [Scheduler.step, htop, Scheduler.round, hempty]
    refine h.schedule hfaults hawaited hstep trivial rfl ?_
    simp only [rank, Scheduler.weight, htop, if_pos (Nat.pos_of_ne_zero hempty)]
    omega

/-- Inside a round the entries are popped. -/
theorem Able.listed (h : s.Able lib c) (hall : ∀ p < s.scheduler.itter, p ∈ s.scheduler.ended)
    (htop : s.scheduler.place ≠ .top) (hleft : s.scheduler.place ≠ .left) : s.Nearer lib c := by
  have hlisted : ∀ w ∈ s.scheduler.pList, w.process ∈ s.scheduler.ended := fun w hw =>
    hall _ (h.intact.consistent.listed_lt (List.mem_map_of_mem hw))
  have hchild : (SchedulerEvent.visit false none).OneChild := by simp [SchedulerEvent.OneChild]
  cases hplace : s.scheduler.place with
  | top => exact absurd hplace htop
  | left => exact absurd hplace hleft
  | raised e => exact absurd hplace (h.unraised e)
  | visit i =>
    by_cases hi : i < s.scheduler.pList.length
    · have hstep : s.scheduler.step c.faultlist c.numWorkers (.visit false none) =
          some { s.scheduler with place := .reap i } := by
        simp [Scheduler.step, hplace, Scheduler.visit, List.getElem?_eq_getElem hi]
      refine h.schedule hfaults hawaited hstep hchild rfl ?_
      simp only [rank, Scheduler.weight, hplace, if_pos hi]
      omega
    · have hstep : s.scheduler.step c.faultlist c.numWorkers (.visit false none) =
          some { s.scheduler with place := .top } := by
        simp [Scheduler.step, hplace, List.getElem?_eq_none (not_lt.mp hi)]
      refine h.schedule hfaults hawaited hstep hchild rfl ?_
      simp only [rank, Scheduler.weight, hplace, if_neg hi]
      omega
  | join i =>
    have hi := h.intact.placed.entry i (.inl hplace)
    have hstep : s.scheduler.step c.faultlist c.numWorkers .joined =
        some { s.scheduler with place := .reap i } := by
      simp [Scheduler.step, hplace, List.getElem?_eq_getElem hi, hlisted _ (List.getElem_mem hi)]
    refine h.schedule hfaults hawaited hstep trivial rfl ?_
    simp only [rank, Scheduler.weight, hplace]
    omega
  | reap i =>
    have hi := h.intact.placed.entry i (.inr hplace)
    have hstep : s.scheduler.step c.faultlist c.numWorkers .reap =
        some { s.scheduler with
          place := .visit (i + 1)
          pList := s.scheduler.pList.eraseIdx i
          removed := s.scheduler.removed ++ [s.scheduler.pList[i].process] } := by
      simp [Scheduler.step, hplace, Scheduler.reap, List.getElem?_eq_getElem hi,
        hlisted _ (List.getElem_mem hi)]
    refine h.schedule hfaults hawaited hstep trivial rfl ?_
    simp only [rank, Scheduler.weight, hplace, List.length_eraseIdx_of_lt hi]
    split_ifs <;> omega

/-- Behind the loop the logger takes the messages that are left, and then ends. -/
theorem Able.logged (h : s.Able lib c) (hleft : s.scheduler.place = .left) (hreturned : s.returned = false) :
    s.Nearer lib c := by
  by_cases hloop : s.loggerPlace = .loop
  · have hstep : s.step lib c .log = some (s.log lib) := log_eq_some.mpr ⟨hloop, rfl⟩
    have hintact := h.intact.step hfaults hawaited hstep
    have hnone : c.remaining s.delivered = [] := by
      refine Jobs.remaining_eq_nil_iff.mpr fun p hp => h.ended p ?_
      exact (h.intact.consistent.scheduled.left hleft).2 p (length_faultlist ▸ hp)
    refine ⟨.log, _, by simp, hstep, ?_⟩
    rcases log_cases s with ⟨-, hlog⟩ | ⟨hrunning, -, ⟨hqueue, -⟩ | ⟨m, queue, logger, hqueue, -, hlog⟩ |
      ⟨m, queue, e, -, -, hlog⟩⟩
    · rw [hlog] at hintact ⊢
      refine ⟨⟨hintact, h.unstopped, h.unraised, h.ended⟩, ?_⟩
      simp only [rank, hloop]
      omega
    · have hpending := (h.intact.pending hawaited).1
      rw [hqueue, hnone] at hpending
      exact absurd (hrunning.symm.trans hpending.idle) Bool.true_eq_false.mp
    · rw [hlog] at hintact ⊢
      refine ⟨⟨hintact, h.unstopped, h.unraised, h.ended⟩, ?_⟩
      simp only [rank, hqueue, List.length_cons]
      omega
    · rw [hlog] at hintact
      exact absurd rfl (hintact.unraised m e)
  · have hstep : s.step lib c .return_ = some { s with returned := true } := by
      simp only [step]
      rw [return_, if_pos hleft]
    refine ⟨.return_, _, by simp, hstep, ⟨h.intact.step hfaults hawaited hstep, h.unstopped, h.unraised,
      h.ended⟩, ?_⟩
    simp [rank, Scheduler.weight, hreturned]

theorem Able.nearer (hworkers : 0 < c.numWorkers) (h : s.Able lib c) (hreturned : s.returned ≠ true) :
    s.Nearer lib c := by
  by_cases hall : ∀ p < s.scheduler.itter, p ∈ s.scheduler.ended
  · by_cases htop : s.scheduler.place = .top
    · exact h.round hfaults hawaited hworkers htop
    · by_cases hleft : s.scheduler.place = .left
      · exact h.logged hfaults hawaited hleft (Bool.eq_false_iff.mpr hreturned)
      · exact h.listed hfaults hawaited hall htop hleft
  · push Not at hall
    obtain ⟨p, hp, halive⟩ := hall
    exact h.worker hfaults hawaited hp halive

/-- A controller that comes to its return without a stop signal was not stuck. -/
theorem Intact.not_stuck (h : s.Intact lib c) (hstop : s.stopSignal = false) {more : List ControllerEvent}
    (hmore : ∀ e ∈ more, e ≠ .stop) (hrun : Run.run (Controller.step lib c) s more = some s')
    (hreturned : s'.returned = true) : ¬ s.Stuck := by
  intro hstuck
  obtain ⟨hintact, hsignal, hstuck'⟩ := Run.inv_run
    (I := fun s : Controller => s.Intact lib c ∧ s.stopSignal = false ∧ s.Stuck)
    (C := fun _ e => e ≠ .stop)
    (fun s e s' hs he hstep => ⟨hs.1.step hfaults hawaited hstep,
      (hs.2.2.step hs.2.1 he hstep).2, (hs.2.2.step hs.2.1 he hstep).1⟩)
    ⟨h, hstop, hstuck⟩ (Run.everyStep_of_forall hmore) hrun
  exact hintact.not_returned hawaited hstuck' hsignal hreturned

/-- And any other one comes to it. -/
theorem Intact.returns (hworkers : 0 < c.numWorkers) (h : s.Intact lib c) (hstop : s.stopSignal = false)
    (hfree : ¬ s.Stuck) : ∃ more s', (∀ e ∈ more, e ≠ .stop) ∧
      Run.run (Controller.step lib c) s more = some s' ∧ s'.returned = true ∧ s'.Able lib c := by
  have hable : s.Able lib c := by
    rw [Stuck, not_or] at hfree
    refine ⟨h, hstop, fun e he => hfree.1 ⟨e, he⟩, fun p hp => ?_⟩
    by_contra hsilent
    exact hfree.2 ⟨p, hp, hsilent⟩
  have hnearer : ∀ s : Controller, s.Able lib c → ¬ s.returned = true → ∃ e s', e ≠ .stop ∧
      Controller.step lib c s e = some s' ∧ s'.Able lib c ∧ rank c s' < rank c s :=
    fun s hs hnot => hs.nearer hfaults hawaited hworkers hnot
  obtain ⟨more, s', hmore, hrun, hable', hreturned⟩ := Run.exists_run_of_rank (rank c) hnearer s hable
  exact ⟨more, s', hmore, hrun, hreturned, hable'⟩

end Progress

end Controller

/-! ### A campaign with a golden run -/

namespace Session

open Controller

variable (lib : Hdf5) (c : Session) (numWorkers : ℕ)

/-- The controller behind the golden run. -/
def jobs : Jobs := ⟨c.scheduled, numWorkers, c.goldenrunMessages ++ [c.backup], c.logger⟩

theorem jobs_messages : (c.jobs numWorkers).messages ++ (c.jobs numWorkers).results = c.messages := by
  rw [messages, jobs, Jobs.results, List.append_assoc]
  rfl

variable {lib c}

theorem Loggable.awaited (h : c.Loggable lib) : (c.jobs numWorkers).Awaited lib := by
  rw [Jobs.Awaited, jobs_messages]
  exact h.pending

/-- A start and an end point, one experiment. -/
def oneFault : Session where
  configQemu := ⟨[], [], [], [], [], [], [], [], 100, some (0x80, 1), some [(0x100, 1)]⟩
  pregoldenrun := emptyRun
  goldenrun := emptyRun
  goldenrunOnly := false
  faultlist := [⟨0, [⟨⟨0x80, 1⟩, .int 0x100, [], 1, 0, 1, .int 0xff, 1, false⟩], emptyRun⟩]
  file := []

theorem oneFault_loggable : oneFault.Loggable Hdf5.plain :=
  Terminates.loggable (List.Perm.refl oneFault.messages) ⟨_, rfl, rfl, rfl⟩

/-- In any interleaving the logger raises nothing and writes what it takes, and a controller that
    returns without a stop signal leaves the pre-golden run, the golden run, the backup and each result
    in the file, once each. -/
theorem always_complete (hloggable : c.Loggable lib) (hfaults : ∀ e ∈ c.scheduled, e.faultlist ≠ [])
    (events : List ControllerEvent) :
    Run.Always (step lib (c.jobs numWorkers))
      (fun s => (∀ m e, s.loggerPlace ≠ .raised m e) ∧
        s.logger.file.map Prod.snd = c.file.map Prod.snd ++ s.collected ∧
        (s.returned = true → s.stopSignal = false → s.collected.Perm c.messages))
      (init (c.jobs numWorkers)) events := by
  have hawaited := hloggable.awaited numWorkers
  refine Run.always_of_inv (I := Intact lib (c.jobs numWorkers)) (fun s h => ?_)
    (fun s e s' h hstep => h.step hfaults hawaited hstep) events intact_init
  have hcomplete := h.complete hawaited
  rw [← jobs_messages c numWorkers]
  exact ⟨hcomplete.unraised, hcomplete.file, hcomplete.returned⟩

/-- The logger is behind the worker at first, and takes the result last. -/
def oneFaultRun : List ControllerEvent :=
  [.log, .schedule (.round true), .log, .put 0, .schedule (.visit false none), .schedule (.exit 0),
    .schedule .reap, .log, .schedule (.visit false none), .log, .schedule (.round true), .log, .return_]

theorem always_complete_oneFault :
    Run.Always (step Hdf5.plain (oneFault.jobs 1))
      (fun s => (∀ m e, s.loggerPlace ≠ .raised m e) ∧
        s.logger.file.map Prod.snd = oneFault.file.map Prod.snd ++ s.collected ∧
        (s.returned = true → s.stopSignal = false → s.collected.Perm oneFault.messages))
      (init (oneFault.jobs 1)) oneFaultRun ∧
    ∃ s, Run.run (step Hdf5.plain (oneFault.jobs 1)) (init (oneFault.jobs 1)) oneFaultRun = some s ∧
      s.returned = true ∧ s.stopSignal = false ∧ s.collected.map Message.index = [-2, -1, -3, 0] :=
  ⟨always_complete 1 oneFault_loggable (by simp [oneFault, scheduled]) oneFaultRun, _, rfl, rfl, rfl, rfl⟩

/-- In a state that a campaign reaches before a stop signal, the controller can still return without one
    iff each worker that has ended has put its result and the search for a QEMU has not raised. -/
theorem returns_iff (hloggable : c.Loggable lib) (hfaults : ∀ e ∈ c.scheduled, e.faultlist ≠ [])
    (hworkers : 0 < numWorkers) {events : List ControllerEvent} {s : Controller}
    (hrun : Run.run (step lib (c.jobs numWorkers)) (init (c.jobs numWorkers)) events = some s)
    (hstop : s.stopSignal = false) :
    (∃ more s', (∀ e ∈ more, e ≠ .stop) ∧ Run.run (step lib (c.jobs numWorkers)) s more = some s' ∧
      s'.returned = true ∧ (s'.logger.file.map Prod.snd).Perm (c.file.map Prod.snd ++ c.messages)) ↔
    (∀ e, s.scheduler.place ≠ .raised e) ∧ ∀ p ∈ s.scheduler.ended, p ∈ s.delivered := by
  have hawaited := hloggable.awaited numWorkers
  have hintact : s.Intact lib (c.jobs numWorkers) := (Run.always_of_inv (fun _ h => h)
    (fun s e s' h hstep => h.step hfaults hawaited hstep) events intact_init).last hrun
  have hfree : ¬ s.Stuck ↔
      (∀ e, s.scheduler.place ≠ .raised e) ∧ ∀ p ∈ s.scheduler.ended, p ∈ s.delivered := by
    simp [Stuck, not_or]
  rw [← hfree]
  constructor
  · rintro ⟨more, s', hmore, hrun', hreturned, -⟩
    exact hintact.not_stuck hfaults hawaited hstop hmore hrun' hreturned
  · intro hstuck
    obtain ⟨more, s', hmore, hrun', hreturned, hable⟩ :=
      hintact.returns hfaults hawaited hworkers hstop hstuck
    have hcomplete := hable.intact.complete hawaited
    refine ⟨more, s', hmore, hrun', hreturned, ?_⟩
    rw [hcomplete.file, ← jobs_messages c numWorkers]
    exact (hcomplete.returned hreturned hable.unstopped).append_left _

/-- A worker that ends without its result keeps the controller from its return. -/
theorem returns_iff_oneFault : ∃ s,
    Run.run (step Hdf5.plain (oneFault.jobs 1)) (init (oneFault.jobs 1))
      [.schedule (.round true), .schedule (.exit 0)] = some s ∧
    ¬ ∃ more s', (∀ e ∈ more, e ≠ .stop) ∧ Run.run (step Hdf5.plain (oneFault.jobs 1)) s more = some s' ∧
      s'.returned = true ∧
      (s'.logger.file.map Prod.snd).Perm (oneFault.file.map Prod.snd ++ oneFault.messages) := by
  refine ⟨_, rfl, fun h => ?_⟩
  have hrun : Run.run (step Hdf5.plain (oneFault.jobs 1)) (init (oneFault.jobs 1))
      [.schedule (.round true), .schedule (.exit 0)] = some _ := rfl
  have hiff := returns_iff 1 oneFault_loggable (by simp [oneFault, scheduled]) Nat.one_pos hrun rfl
  exact absurd ((hiff.mp h).2 0 List.mem_cons_self) List.not_mem_nil

end Session

end Archie.Campaign
