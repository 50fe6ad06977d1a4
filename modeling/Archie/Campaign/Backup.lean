import Archie.Campaign.SimulatedFaults

/-! The backup of the expanded fault list: `process_backup` of hdf5logger.py writes one group for each
    experiment, `read_backup` of controller.py reads them for a resumed campaign.

    The groups are named `experiment00`, `experiment01`, … with as many digits as the number of
    experiments has. The library iterates over them in the order of their names. -/

namespace Archie.Campaign
open Python Decimal

/-- The group `Backup` of the file: the fault count of its configuration, and the children of
    `expanded_faults` with their tables. -/
structure Backup where
  faultCount : ℕ
  expandedFaults : List (Text × List FaultRow)
  deriving DecidableEq, Repr

/-- `exp_name.format(exp_number)` for `count` experiments. -/
def expName (count expNumber : ℕ) : Text :=
  "experiment".toList ++ formatPadded (Nat.toDigits 10 count).length expNumber

/-- The loop over the experiments; `stopSignal i` tells whether the signal is set before the `i`-th. -/
def writeExperiments (c : Columns) (stopSignal : ℕ → Bool) (count : ℕ) :
    ℕ → List Experiment → Result (List (Text × List FaultRow))
  | _, [] => .ok []
  | expNumber, exp :: exps => do
    if stopSignal expNumber then return []
    let faults ← processFaults c exp.faultlist
    let groups ← writeExperiments c stopSignal count (expNumber + 1) exps
    return (expName count expNumber, faults) :: groups

def processBackup (c : Columns) (stopSignal : ℕ → Bool) (expandedFaultlist : List Experiment) :
    Result Backup := do
  let count := expandedFaultlist.length
  let faultCount ← c.store 64 count
  let groups ← writeExperiments c stopSignal count 0 expandedFaultlist
  return ⟨faultCount, groups⟩

/-- Children in the order of their names. -/
def iterNodes (groups : List (Text × List FaultRow)) : List (Text × List FaultRow) :=
  groups.insertionSort fun a b => a.1 ≤ b.1

def readBackup (backup : Backup) : Result (List Experiment) :=
  if backup.expandedFaults.length ≠ backup.faultCount then .error .noSuchNode
  else .ok ((iterNodes backup.expandedFaults).mapIdx fun expN exp => ⟨expN, exp.2.map readFault⟩)

/-! ### Names -/

theorem expName_lt {count i j : ℕ} (hij : i < j) (hj : j < count) :
    expName count i < expName count j :=
  List.append_left_lt (formatPadded_lt hij (hj.trans (lt_pow_length count)))

variable {c : Columns} {stopSignal : ℕ → Bool} {count : ℕ}

/-- The groups a run of the loop has written. -/
theorem writeExperiments_names : ∀ {exps : List Experiment} {i : ℕ} {groups : List (Text × List FaultRow)},
    writeExperiments c stopSignal count i exps = .ok groups →
      ∃ n ≤ exps.length, groups.map Prod.fst = (List.range' i n).map (expName count)
  | [], i, groups, h => by
    obtain rfl := Except.ok.inj h
    exact ⟨0, le_rfl, rfl⟩
  | exp :: exps, i, groups, h => by
    rw [writeExperiments] at h
    split at h
    · obtain rfl := Except.ok.inj h
      exact ⟨0, Nat.zero_le _, rfl⟩
    · obtain ⟨faults, -, h⟩ := bind_eq_ok.mp h
      obtain ⟨rest, hrest, h⟩ := bind_eq_ok.mp h
      obtain rfl := Except.ok.inj h
      obtain ⟨n, hn, hnames⟩ := writeExperiments_names hrest
      exact ⟨n + 1, Nat.succ_le_succ hn, by rw [List.map_cons, hnames]; rfl⟩

/-- Groups come back in the order in which they were written. -/
theorem iterNodes_writeExperiments {exps : List Experiment} {groups : List (Text × List FaultRow)}
    (h : writeExperiments c stopSignal exps.length 0 exps = .ok groups) :
    iterNodes groups = groups := by
  obtain ⟨n, hn, hnames⟩ := writeExperiments_names h
  refine List.Pairwise.insertionSort_eq ?_
  have hpw : (groups.map Prod.fst).Pairwise fun a b => a < b := by
    rw [hnames, List.pairwise_map]
    refine List.Pairwise.imp_of_mem (fun {i j} _ hj hij => ?_) List.pairwise_lt_range'
    have hrange := List.mem_range'_1.mp hj
    exact expName_lt hij (by omega)
  exact (List.pairwise_map.mp hpw).imp le_of_lt

/-! ### The round trip -/

theorem processFaults_restores_iff : ∀ (faultlist : List IntFault),
    (∃ rows, processFaults c faultlist = .ok rows ∧
      rows.map readFault = faultlist.map IntFault.identity) ↔
    ∀ f ∈ faultlist, FitsTable f ∧ f.mask < 2 ^ 64
  | [] => by simp [processFaults, pure, Except.pure]
  | f :: fs => by
    have ih := processFaults_restores_iff fs
    simp only [processFaults, mapM_eq_ok] at ih ⊢
    rw [List.forall_mem_cons, ← ih, ← readFault_processFault_iff (c := c)]
    constructor
    · rintro ⟨rows, hrows, hread⟩
      obtain ⟨row, rest, hrow, hrest, rfl⟩ := List.forall₂_cons_left_iff.mp hrows
      obtain ⟨hhead, htail⟩ := List.cons.inj hread
      exact ⟨⟨row, hrow, hhead⟩, rest, hrest, htail⟩
    · rintro ⟨⟨row, hrow, hhead⟩, rest, hrest, htail⟩
      exact ⟨row :: rest, .cons hrow hrest, by rw [List.map_cons, hhead, htail]; rfl⟩

theorem writeExperiments_restores_iff (c : Columns) (stopSignal : ℕ → Bool) (count : ℕ) :
    ∀ (exps : List Experiment) (i : ℕ),
    (∃ groups, writeExperiments c stopSignal count i exps = .ok groups ∧
      groups.map (fun g => g.2.map readFault)
        = exps.map fun e => e.faultlist.map IntFault.identity) ↔
    (∀ k < exps.length, stopSignal (i + k) = false) ∧
      ∀ e ∈ exps, ∀ f ∈ e.faultlist, FitsTable f ∧ f.mask < 2 ^ 64
  | [], i => by simp [writeExperiments]
  | e :: es, i => by
    have ih := writeExperiments_restores_iff c stopSignal count es (i + 1)
    rw [List.forall_mem_cons, ← processFaults_restores_iff (c := c)]
    have hstop : (∀ k < (e :: es).length, stopSignal (i + k) = false) ↔
        stopSignal i = false ∧ ∀ k < es.length, stopSignal (i + 1 + k) = false := by
      rw [List.length_cons]
      constructor
      · exact fun h => ⟨h 0 (Nat.succ_pos _), fun k hk => by
          rw [Nat.add_assoc, Nat.add_comm 1 k]; exact h (k + 1) (Nat.succ_lt_succ hk)⟩
      · rintro ⟨h0, h⟩ k hk
        cases k with
        | zero => exact h0
        | succ k => rw [← Nat.add_assoc, Nat.add_right_comm]; exact h k (Nat.lt_of_succ_lt_succ hk)
    rw [hstop, writeExperiments]
    constructor
    · rintro ⟨groups, hgroups, hread⟩
      split at hgroups
      · obtain rfl := Except.ok.inj hgroups
        cases hread
      · next hrun =>
        obtain ⟨faults, hfaults, hgroups⟩ := bind_eq_ok.mp hgroups
        obtain ⟨rest, hrest, hgroups⟩ := bind_eq_ok.mp hgroups
        obtain rfl := Except.ok.inj hgroups
        obtain ⟨hhead, htail⟩ := List.cons.inj hread
        obtain ⟨hstops, hfits⟩ := ih.mp ⟨rest, hrest, htail⟩
        exact ⟨⟨by simpa using hrun, hstops⟩, ⟨faults, hfaults, hhead⟩, hfits⟩
    · rintro ⟨⟨hrun, hstops⟩, ⟨faults, hfaults, hhead⟩, hfits⟩
      obtain ⟨rest, hrest, htail⟩ := ih.mpr ⟨hstops, hfits⟩
      refine ⟨(expName count i, faults) :: rest, ?_, by rw [List.map_cons, hhead, htail]; rfl⟩
      rw [hrun]
      exact bind_eq_ok.mpr ⟨faults, hfaults, bind_eq_ok.mpr ⟨rest, hrest, rfl⟩⟩

/-- The backup can be written, and reading it gives the written experiments, in order. -/
def Restores (c : Columns) (stopSignal : ℕ → Bool) (exps : List Experiment) : Prop :=
  ∃ backup restored, processBackup c stopSignal exps = .ok backup ∧ readBackup backup = .ok restored ∧
    restored.map Experiment.faultlist = exps.map fun e => e.faultlist.map IntFault.identity

theorem faultlist_readBackup {groups : List (Text × List FaultRow)} :
    (groups.mapIdx fun expN exp => (⟨expN, exp.2.map readFault⟩ : Experiment)).map
      Experiment.faultlist = groups.map fun g => g.2.map readFault := by
  refine List.ext_getElem? fun i => ?_
  simp only [List.getElem?_map, List.getElem?_mapIdx, Option.map_map]
  rfl

/-- A campaign is restored iff its backup was not stopped, its numbers fit into the columns and no
    mask has a bit in its upper half. -/
theorem restores_iff (exps : List Experiment) : Restores c stopSignal exps ↔
    (∀ i < exps.length, stopSignal i = false) ∧ exps.length < 2 ^ 64 ∧
      ∀ e ∈ exps, ∀ f ∈ e.faultlist, FitsTable f ∧ f.mask < 2 ^ 64 := by
  have hloop := writeExperiments_restores_iff c stopSignal exps.length exps 0
  simp only [Nat.zero_add] at hloop
  constructor
  · rintro ⟨backup, restored, hbackup, hrestored, heq⟩
    obtain ⟨faultCount, hcount, hbackup⟩ := bind_eq_ok.mp hbackup
    obtain ⟨groups, hgroups, hbackup⟩ := bind_eq_ok.mp hbackup
    obtain rfl := Except.ok.inj hbackup
    rw [readBackup] at hrestored
    split at hrestored
    · cases hrestored
    · next hsame =>
      obtain rfl := Except.ok.inj hrestored
      rw [faultlist_readBackup, iterNodes_writeExperiments hgroups] at heq
      obtain ⟨hstops, hfits⟩ := hloop.mp ⟨groups, hgroups, heq⟩
      have hlength : groups.length = exps.length := by simpa using congrArg List.length heq
      have hlt := c.store_lt _ _ _ hcount
      have hsame : groups.length = faultCount := not_not.mp hsame
      exact ⟨hstops, by omega, hfits⟩
  · rintro ⟨hstops, hlt, hfits⟩
    obtain ⟨groups, hgroups, heq⟩ := hloop.mpr ⟨hstops, hfits⟩
    have hlength : groups.length = exps.length := by simpa using congrArg List.length heq
    refine ⟨⟨exps.length, groups⟩, _, ?_, if_neg (not_not.mpr hlength), ?_⟩
    · exact bind_eq_ok.mpr ⟨_, c.store_natCast _ _ hlt, bind_eq_ok.mpr ⟨groups, hgroups, rfl⟩⟩
    · rw [faultlist_readBackup, iterNodes_writeExperiments hgroups]
      exact heq

theorem restores_iff_twoExperiments :
    Restores Columns.strict (fun _ => false) [⟨0, [dataFault 0 1]⟩, ⟨1, [dataFault 3 2]⟩] ↔
      (∀ i < 2, (fun _ => false : ℕ → Bool) i = false) ∧ 2 < 2 ^ 64 ∧
        ∀ e ∈ [(⟨0, [dataFault 0 1]⟩ : Experiment), ⟨1, [dataFault 3 2]⟩], ∀ f ∈ e.faultlist,
          FitsTable f ∧ f.mask < 2 ^ 64 :=
  restores_iff [⟨0, [dataFault 0 1]⟩, ⟨1, [dataFault 3 2]⟩]

/-- A mask with a bit in its upper half comes back without it. -/
theorem wideMask_not_restored :
    ¬ Restores Columns.strict (fun _ => false) [⟨0, [dataFault 0 (1 <<< 64)]⟩] := by
  rintro ⟨backup, restored, hbackup, hrestored, heq⟩
  have hread : ∃ backup restored,
      processBackup Columns.strict (fun _ => false) [⟨0, [dataFault 0 (1 <<< 64)]⟩] = .ok backup ∧
      readBackup backup = .ok restored ∧
      restored.map Experiment.faultlist ≠ [[IntFault.identity (dataFault 0 (1 <<< 64))]] :=
    ⟨_, _, rfl, rfl, by decide⟩
  obtain ⟨backup', restored', hbackup', hrestored', hne⟩ := hread
  obtain rfl := Except.ok.inj (hbackup.symm.trans hbackup')
  obtain rfl := Except.ok.inj (hrestored.symm.trans hrestored')
  exact hne heq

end Archie.Campaign
