import Archie.Campaign.ControllerReturn

/-! A campaign in several sessions: the controller with `--missing-only`, started again and again.

    Each session reads the texts of the experiments in the file, schedules those of the backup whose text
    is missing, and may end at any time: by a stop signal, by an exception of the logger, or killed.

        file  ──▸  missing  ──▸  workers  ──▸  file  ──▸  missing  ──▸  …                               -/

namespace Archie.Campaign
open Python

def Group.isExperiment : Group → Bool
  | .experiment _ => true
  | _ => false

/-- The fault table that the logger writes for a run. -/
def faultTable (lib : Hdf5) : Exp → Result (List FaultRow)
  | .run d => do
    let faultlist ← d.faultlist.mapM Hdf5.intFault
    processFaults lib.columns faultlist
  | .backup _ _ => .error .keyError

/-- `exp.faults` of the groups below `fault` -/
def faultTables (lib : Hdf5) (file : List (Group × Message)) : Result (List (List FaultRow)) :=
  (file.filter fun entry => entry.1.isExperiment).mapM fun entry => faultTable lib entry.2.exp

/-- The texts of the experiments in the file. -/
def simulatedFaults (lib : Hdf5) (file : List (Group × Message)) : Result (List Text) := do
  let tables ← faultTables lib file
  return readSimulatedFaults tables

/-- A fault of the backup; its address and mask are integers. -/
def IntFault.config (f : IntFault) : ConfigFault := { f with address := .int f.address, mask := .int f.mask }

/-- A session: what the workers find out, apart from the faults, which they hand on. -/
structure MissingRun where
  numWorkers : ℕ
  output : Experiment → RunData
  events : List ControllerEvent

namespace MissingRun

variable (r : MissingRun)

def scheduled (e : Experiment) : Scheduled :=
  let faultlist := e.faultlist.map IntFault.config
  ⟨e.index, faultlist, { r.output e with faultlist }⟩

/-- The controller of the session; neither a golden run nor a configuration is logged. -/
def jobs (missing : List Experiment) (file : List (Group × Message)) : Jobs where
  experiments := missing.map r.scheduled
  numWorkers := r.numWorkers
  messages := []
  logger := Collector.start file missing.length false false

/-- The state in which the session ends, if its events are possible. -/
def last (lib : Hdf5) (experiments : List Experiment) (file : List (Group × Message)) : Option Controller :=
  match simulatedFaults lib file with
  | .error _ => none
  | .ok simulated =>
    let c := r.jobs (getNotSimulatedFaults experiments simulated) file
    Run.run (Controller.step lib c) (Controller.init c) r.events

end MissingRun

/-- The file after one more session. -/
def resume (lib : Hdf5) (experiments : List Experiment) (file : List (Group × Message)) (r : MissingRun) :
    Option (List (Group × Message)) :=
  (r.last lib experiments file).map fun s => s.logger.file

/-! ### The experiments of a backup -/

/-- What `readFault` makes of a row that the library has stored. -/
theorem readFault_fits {c : Columns} {f : IntFault} {row : FaultRow} (hrow : processFault c f = .ok row) :
    FitsTable (readFault row) ∧ (readFault row).mask < 2 ^ 64 := by
  simp only [processFault, bind, bind_eq_ok] at hrow
  obtain ⟨ta, hta, th, hth, fa, hfa, ft, hft, fm, hfm, fl, hfl, mu, -, ml, hml, nb, hnb, hrow⟩ := hrow
  obtain rfl := Except.ok.inj hrow
  have hlt : ∀ {v : Int} {n : ℕ}, c.store 64 v = .ok n → 0 ≤ (n : Int) ∧ (n : Int).toNat < 2 ^ 64 :=
    fun h => ⟨Int.natCast_nonneg _, by simpa using c.store_lt _ _ _ h⟩
  exact ⟨⟨hlt hta, c.store_lt _ _ _ hth, hlt hfa, c.store_lt _ _ _ hft, c.store_lt _ _ _ hfm, hlt hfl,
    c.store_lt _ _ _ hnb⟩, c.store_lt _ _ _ hml⟩

/-- An experiment that can be scheduled and stored again. -/
structure Experiment.Stored (e : Experiment) : Prop where
  index : 0 ≤ e.index
  nonempty : e.faultlist ≠ []
  fits : ∀ f ∈ e.faultlist, FitsTable f ∧ f.mask < 2 ^ 64

theorem writeExperiments_rows {c : Columns} {stopSignal : ℕ → Bool} {count : ℕ} :
    ∀ {exps : List Experiment} {i : ℕ} {groups : List (Text × List FaultRow)},
      writeExperiments c stopSignal count i exps = .ok groups →
        ∀ g ∈ groups, ∃ e ∈ exps, processFaults c e.faultlist = .ok g.2
  | [], i, groups, h, g, hg => by
    obtain rfl := Except.ok.inj h
    exact absurd hg List.not_mem_nil
  | e :: exps, i, groups, h, g, hg => by
    rw [writeExperiments] at h
    split at h
    · obtain rfl := Except.ok.inj h
      exact absurd hg List.not_mem_nil
    · obtain ⟨faults, hfaults, h⟩ := bind_eq_ok.mp h
      obtain ⟨rest, hrest, h⟩ := bind_eq_ok.mp h
      obtain rfl := Except.ok.inj h
      rcases List.mem_cons.mp hg with rfl | hg
      · exact ⟨e, List.mem_cons_self, hfaults⟩
      · obtain ⟨e', he', hrows⟩ := writeExperiments_rows hrest g hg
        exact ⟨e', List.mem_cons_of_mem _ he', hrows⟩

/-- What `read_backup` returns of a backup that `process_backup` has written. -/
theorem stored_of_readBackup {c : Columns} {stopSignal : ℕ → Bool} {exps experiments : List Experiment}
    {backup : Backup} (hfaults : ∀ e ∈ exps, e.faultlist ≠ [])
    (hbackup : processBackup c stopSignal exps = .ok backup) (hread : readBackup backup = .ok experiments) :
    ∀ e ∈ experiments, e.Stored := by
  obtain ⟨faultCount, -, hbackup⟩ := bind_eq_ok.mp hbackup
  obtain ⟨groups, hgroups, hbackup⟩ := bind_eq_ok.mp hbackup
  obtain rfl := Except.ok.inj hbackup
  rw [readBackup] at hread
  split at hread
  · cases hread
  · obtain rfl := Except.ok.inj hread
    rw [iterNodes_writeExperiments hgroups]
    intro e he
    obtain ⟨i, hi, rfl⟩ := List.mem_mapIdx.mp he
    obtain ⟨e', he', hrows⟩ := writeExperiments_rows hgroups _ (List.getElem_mem hi)
    have hall := mapM_eq_ok.mp hrows
    refine ⟨Int.natCast_nonneg i, fun hnil => ?_, fun f hf => ?_⟩
    · have hlength := hall.length_eq
      rw [List.map_eq_nil_iff.mp hnil, List.length_nil] at hlength
      exact hfaults e' he' (List.eq_nil_of_length_eq_zero hlength)
    · obtain ⟨row, hrow, rfl⟩ := List.mem_map.mp hf
      obtain ⟨j, hj, rfl⟩ := List.getElem_of_mem hrow
      exact readFault_fits (hall.get (hall.length_eq ▸ hj) hj)

/-! ### The texts of one session -/

variable {lib : Hdf5} {file : List (Group × Message)} {experiments : List Experiment}
  {simulated : List Text}

/-- The text of one message in the file. -/
def Spells (lib : Hdf5) (m : Message) (text : Text) : Prop :=
  ∃ table, faultTable lib m.exp = .ok table ∧ configString (table.map readFault) = text

theorem simulatedFaults_eq_ok : simulatedFaults lib file = .ok simulated ↔
    List.Forall₂ (Spells lib) ((file.filter fun entry => entry.1.isExperiment).map Prod.snd) simulated := by
  have htables : ∀ entries : List (Group × Message), ∀ texts : List Text,
      (∃ tables, List.Forall₂ (fun entry table => faultTable lib entry.2.exp = .ok table) entries tables ∧
        readSimulatedFaults tables = texts) ↔ List.Forall₂ (Spells lib) (entries.map Prod.snd) texts := by
    intro entries
    induction entries with
    | nil => simp [readSimulatedFaults, eq_comm]
    | cons entry entries ih =>
      intro texts
      rw [List.map_cons, List.forall₂_cons_left_iff]
      constructor
      · rintro ⟨tables, hall, rfl⟩
        obtain ⟨table, rest, htable, hrest, rfl⟩ := List.forall₂_cons_left_iff.mp hall
        exact ⟨_, _, ⟨table, htable, rfl⟩, (ih _).mp ⟨rest, hrest, rfl⟩, rfl⟩
      · rintro ⟨text, texts, ⟨table, htable, rfl⟩, hall, rfl⟩
        obtain ⟨rest, hrest, rfl⟩ := (ih texts).mpr hall
        exact ⟨table :: rest, .cons htable hrest, rfl⟩
  rw [← htables]
  constructor
  · intro h
    obtain ⟨tables, hall, h⟩ := bind_eq_ok.mp h
    exact ⟨tables, mapM_eq_ok.mp hall, Except.ok.inj h⟩
  · rintro ⟨tables, hall, rfl⟩
    exact bind_eq_ok.mpr ⟨tables, mapM_eq_ok.mpr hall, rfl⟩

/-- The result of an experiment has the text of the experiment. -/
theorem Experiment.Stored.spells {e : Experiment} (h : e.Stored) (d : RunData) (index : Int) :
    Spells lib ⟨index, .run { d with faultlist := e.faultlist.map IntFault.config }⟩
      (configString e.faultlist) := by
  have hints : (e.faultlist.map IntFault.config).mapM Hdf5.intFault = .ok e.faultlist := by
    refine mapM_eq_ok.mpr (List.forall₂_map_left_iff.mpr (List.forall₂_same.mpr fun f _ => ?_))
    cases f
    rfl
  obtain ⟨table, htable⟩ := mapM_total_iff.mpr fun f hf =>
    (processFault_ok (c := lib.columns) (h.fits f hf).1).imp fun _ hrow => hrow.1
  refine ⟨table, bind_eq_ok.mpr ⟨_, hints, htable⟩, ?_⟩
  rw [readFault_processFaults (fun f hf => (h.fits f hf).1) htable, configString_inj,
    List.forall₂_map_left_iff]
  refine List.forall₂_same.mpr fun f hf => ⟨?_, rfl⟩
  rw [IntFault.numerals, IntFault.numerals, IntFault.truncated, and_eq_self_iff.mpr (h.fits f hf).2]

/-- What the logger has dealt with is a part of the results, and it is all of them when the logger has
    closed the file by itself. -/
theorem Controller.Consistent.collected_results {c : Jobs} {s : Controller} (h : s.Consistent lib c)
    (hmessages : c.messages = []) :
    s.collected.Subperm c.results ∧
      (s.logger.running = false → c.logger.numExp = c.results.length →
        (∀ m ∈ c.results, m.isResult = true) → s.collected.Perm c.results) := by
  have hperm := Jobs.remaining_perm h.once h.delivered_lt
  have hsub : s.collected.Subperm c.results := by
    have hmem := h.messages
    rw [hmessages, List.nil_append] at hmem
    have hcollected : s.collected.Sublist (s.delivered.filterMap (c.results[·]?)) := by
      rw [← hmem, List.append_assoc]
      exact List.sublist_append_left _ _
    exact hcollected.subperm.trans ((List.sublist_append_left _ _).subperm.trans hperm.subperm)
  refine ⟨hsub, fun hidle hnum hresults => hsub.perm_of_length_le ?_⟩
  have hcount := (Collector.collect_counted h.collected).numExp
  have hall : (s.collected.countP fun m => decide (0 ≤ m.index)) = s.collected.length :=
    List.countP_eq_length.mpr fun m hm => hresults m (hsub.subset hm)
  have hzero := (Collector.running_eq_false_iff.mp hidle).1
  omega

/-- Where all messages are results, each one gets a group. -/
theorem collect_file_results {start logger : Collector} {ms : List Message}
    (hresults : ∀ m ∈ ms, m.isResult = true) (h : hdf5collector lib start ms = .ok (logger, [])) :
    ∃ new, logger.file = start.file ++ new ∧ new.map Prod.snd = ms ∧
      ∀ entry ∈ new, entry.1.isExperiment = true := by
  obtain ⟨⟨new, hnew, hasks, hfilter⟩, -⟩ := Collector.collect_results h
  obtain ⟨new', hnew', hsub⟩ := Collector.collect_file h
  obtain rfl : new = new' := List.append_cancel_left (hnew.symm.trans hnew')
  have hall : ∀ m ∈ new.map Prod.snd, m.isResult = true := fun m hm => hresults m (hsub.subset hm)
  rw [List.filter_eq_self.mpr hall, List.filter_eq_self.mpr hresults] at hfilter
  refine ⟨new, hnew, hfilter, fun entry hentry => ?_⟩
  have hnonneg := of_decide_eq_true (hall entry.2 (List.mem_map_of_mem hentry))
  obtain ⟨name, hname⟩ := (hasks entry hentry).of_nonneg hnonneg
  rw [hname, Group.isExperiment]

/-- The text of a message, if it has one. -/
def spelling (lib : Hdf5) (m : Message) : Text :=
  match faultTable lib m.exp with
  | .ok table => configString (table.map readFault)
  | .error _ => []

theorem Spells.spelling_eq {m : Message} {text : Text} (h : Spells lib m text) : spelling lib m = text := by
  obtain ⟨table, htable, rfl⟩ := h
  rw [spelling, htable]

/-- A session adds texts of its experiments, and all of them if the logger has closed the file by
    itself. -/
theorem MissingRun.run_texts {r : MissingRun} {missing : List Experiment} {s : Controller}
    (hmissing : ∀ e ∈ missing, e.Stored) (hsimulated : simulatedFaults lib file = .ok simulated)
    (hrun : Run.run (Controller.step lib (r.jobs missing file)) (Controller.init (r.jobs missing file))
      r.events = some s) :
    ∃ texts, simulatedFaults lib s.logger.file = .ok (simulated ++ texts) ∧
      texts.Subperm (missing.map fun e => configString e.faultlist) ∧
      (s.loggerPlace = .closed → s.stopSignal = false →
        texts.Perm (missing.map fun e => configString e.faultlist)) := by
  have hspells : ∀ e ∈ missing, Spells lib ⟨e.index, .run (r.scheduled e).output⟩ (configString e.faultlist) :=
    fun e he => (hmissing e he).spells _ _
  have hresults : (r.jobs missing file).results =
      missing.map fun e => ⟨e.index, .run (r.scheduled e).output⟩ := List.map_map
  have hspelling : (r.jobs missing file).results.map (spelling lib) =
      missing.map fun e => configString e.faultlist := by
    rw [hresults, List.map_map]
    exact List.map_congr_left fun e he => (hspells e he).spelling_eq
  have hfaults : ∀ e ∈ (r.jobs missing file).experiments, e.faultlist ≠ [] :=
    List.forall_mem_map.mpr fun e he => by simpa [scheduled] using (hmissing e he).nonempty
  have hisResult : ∀ m ∈ (r.jobs missing file).results, m.isResult = true := by
    rw [hresults]
    exact List.forall_mem_map.mpr fun e he => decide_eq_true (hmissing e he).index
  have h := Controller.consistent_run hfaults hrun
  obtain ⟨hsub, hperm⟩ := h.collected_results rfl
  obtain ⟨new, hfile, hnew, hexperiment⟩ := collect_file_results (fun m hm => hisResult m (hsub.subset hm))
    h.collected
  refine ⟨s.collected.map (spelling lib), ?_, ?_, fun hclosed hstop => ?_⟩
  · rw [simulatedFaults_eq_ok, hfile, List.filter_append, List.map_append, List.filter_eq_self.mpr hexperiment,
      hnew]
    refine List.rel_append (simulatedFaults_eq_ok.mp hsimulated) ?_
    refine List.forall₂_map_right_iff.mpr (List.forall₂_same.mpr fun m hm => ?_)
    have hmem := hsub.subset hm
    rw [hresults] at hmem
    obtain ⟨e, he, rfl⟩ := List.mem_map.mp hmem
    rw [(hspells e he).spelling_eq]
    exact hspells e he
  · rw [← hspelling]
    obtain ⟨sub, hsubperm, hsublist⟩ := hsub
    exact ⟨_, hsubperm.map (spelling lib), hsublist.map (spelling lib)⟩
  · rw [← hspelling]
    have hidle := (h.closed hclosed).resolve_right (by simp [hstop])
    refine (hperm hidle ?_ hisResult).map (spelling lib)
    rw [hresults, List.length_map]
    rfl

theorem mem_getNotSimulatedFaults {e : Experiment} : e ∈ getNotSimulatedFaults experiments simulated ↔
    e ∈ experiments ∧ configString e.faultlist ∉ simulated := by
  rw [getNotSimulatedFaults_eq, List.mem_filter, decide_eq_true_eq]

theorem MissingRun.last_texts {r : MissingRun} {s : Controller} (hstored : ∀ e ∈ experiments, e.Stored)
    (hsimulated : simulatedFaults lib file = .ok simulated) (hlast : r.last lib experiments file = some s) :
    ∃ texts, simulatedFaults lib s.logger.file = .ok (simulated ++ texts) ∧
      texts.Subperm ((getNotSimulatedFaults experiments simulated).map fun e => configString e.faultlist) ∧
      (s.loggerPlace = .closed → s.stopSignal = false →
        texts.Perm ((getNotSimulatedFaults experiments simulated).map fun e => configString e.faultlist)) := by
  rw [last, hsimulated] at hlast
  exact run_texts (fun e he => hstored e (mem_getNotSimulatedFaults.mp he).1) hsimulated hlast

/-! ### Any number of sessions -/

/-- A text is in the file as often as it was at first, or as often as in the backup at most. -/
def Counted (start : List Text) (experiments : List Experiment) (simulated : List Text) : Prop :=
  ∀ text, simulated.count text ≤
    max (start.count text) ((experiments.map fun e => configString e.faultlist).count text)

/-- The texts that a session adds were not in the file. -/
theorem Counted.append {start texts : List Text} (h : Counted start experiments simulated)
    (htexts : texts.Subperm
      ((getNotSimulatedFaults experiments simulated).map fun e => configString e.faultlist)) :
    Counted start experiments (simulated ++ texts) := by
  intro text
  rw [List.count_append]
  by_cases hmem : text ∈ simulated
  · have hnew : texts.count text = 0 := by
      refine List.count_eq_zero.mpr fun hnew => ?_
      obtain ⟨e, he, rfl⟩ := List.mem_map.mp (htexts.subset hnew)
      exact (mem_getNotSimulatedFaults.mp he).2 hmem
    rw [hnew]
    exact h text
  · rw [List.count_eq_zero.mpr hmem, Nat.zero_add]
    refine le_max_of_le_right ((htexts.count_le text).trans ?_)
    rw [getNotSimulatedFaults_eq]
    exact (List.filter_sublist.map _).count_le text

/-- Behind a session whose logger has closed the file by itself nothing is missing. -/
theorem getNotSimulatedFaults_perm {texts : List Text}
    (htexts : texts.Perm
      ((getNotSimulatedFaults experiments simulated).map fun e => configString e.faultlist)) :
    getNotSimulatedFaults experiments (simulated ++ texts) = [] := by
  refine List.eq_nil_iff_forall_not_mem.mpr fun e he => ?_
  obtain ⟨hmem, hnot⟩ := mem_getNotSimulatedFaults.mp he
  rw [List.mem_append, not_or] at hnot
  have hmissing : e ∈ getNotSimulatedFaults experiments simulated :=
    mem_getNotSimulatedFaults.mpr ⟨hmem, hnot.1⟩
  exact hnot.2 (htexts.mem_iff.mpr (List.mem_map_of_mem hmissing))

/-- Two experiments; the first session is stopped behind the first result, the third one finds nothing
    to do. -/
def twoSimulated : List Experiment := [⟨0, [dataFault 0 1]⟩, ⟨1, [dataFault 3 2]⟩]

def threeSessions : List MissingRun :=
  [⟨2, fun _ => emptyRun, [.schedule (.round true), .put 0, .log, .schedule (.visit false none), .stop, .log]⟩,
    ⟨2, fun _ => emptyRun, Controller.oneRound⟩,
    ⟨2, fun _ => emptyRun, [.schedule (.round true), .log, .return_]⟩]

end Archie.Campaign
