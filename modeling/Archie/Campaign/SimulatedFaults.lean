import Archie.Campaign.FaultTable
import Archie.Lib.Decimal

/-! Which experiments are still to be simulated, controller.py.

    Experiments are compared by the text of their faults, all numbers in a row and the wildcard flag
    behind them:

        trigger 16 hit 1 address 256 … wildcard False   ──▶   "161256…False"

    The flags separate the faults, nothing separates the numbers. -/

namespace Archie.Campaign
open Python Decimal

/-- An experiment of a fault list whose faults are resolved. -/
structure Experiment where
  index : Int
  faultlist : List IntFault
  deriving DecidableEq, Repr

/-- The numbers of `Fault.__str__`. -/
def IntFault.numerals (f : IntFault) : Text :=
  strInt f.trigger.address ++ strInt f.trigger.hitcounter ++ strInt f.address ++ strInt f.type ++
    strInt f.model ++ strInt f.lifespan ++ strInt f.mask ++ strInt f.numBytes

/-- `Fault.__str__` -/
def IntFault.str (f : IntFault) : Text := IntFault.numerals f ++ strBool f.wildcard

def configString (faultlist : List IntFault) : Text :=
  faultlist.foldl (fun configString fault => configString ++ IntFault.str fault) []

/-- The texts of the experiments in the file, one table of faults each. -/
def readSimulatedFaults (file : List (List FaultRow)) : List Text :=
  file.map fun exp => configString (exp.map readFault)

def getNotSimulatedFaults (faultlist : List Experiment) (simulatedFaults : List Text) :
    List Experiment :=
  faultlist.foldl (fun missing faultconfig =>
    if configString faultconfig.faultlist ∉ simulatedFaults then missing ++ [faultconfig]
    else missing) []

/-! ### Texts of experiments -/

/-- Two faults whose numbers, written one after the other, are the same text. -/
def SameNumerals (f g : IntFault) : Prop :=
  IntFault.numerals f = IntFault.numerals g ∧ f.wildcard = g.wildcard

theorem isNumeral_numerals (f : IntFault) : ∀ c ∈ IntFault.numerals f, IsNumeral c := by
  intro c hc
  simp only [IntFault.numerals, List.mem_append] at hc
  rcases hc with ((((((hc | hc) | hc) | hc) | hc) | hc) | hc) | hc
  all_goals exact isNumeral_strInt hc

theorem configString_eq (faultlist : List IntFault) :
    configString faultlist = (faultlist.map IntFault.str).flatten := by
  have hgo : ∀ (fs : List IntFault) (s : Text), fs.foldl (fun s f => s ++ IntFault.str f) s
      = s ++ (fs.map IntFault.str).flatten := by
    intro fs
    induction fs with
    | nil => simp
    | cons f fs ih => intro s; simp [ih]
  exact hgo faultlist []

theorem numerals_ne_nil (f : IntFault) : IntFault.str f ≠ [] := by
  unfold IntFault.str
  cases f.wildcard <;> simp [strBool]

/-- The text of an experiment tells its faults apart, but not the numbers of a fault. -/
theorem configString_inj : ∀ (fs gs : List IntFault),
    configString fs = configString gs ↔ List.Forall₂ SameNumerals fs gs
  | [], [] => by simp
  | [], g :: gs => by simp [configString_eq, numerals_ne_nil]
  | f :: fs, [] => by simp [configString_eq, numerals_ne_nil]
  | f :: fs, g :: gs => by
    have ih := configString_inj fs gs
    rw [configString_eq, configString_eq] at ih ⊢
    rw [List.forall₂_cons, ← ih]
    simp only [List.map_cons, List.flatten_cons, IntFault.str, List.append_assoc]
    constructor
    · intro h
      obtain ⟨hnum, hflag, hrest⟩ := append_strBool_inj (isNumeral_numerals f)
        (isNumeral_numerals g) h
      exact ⟨⟨hnum, hflag⟩, hrest⟩
    · rintro ⟨⟨hnum, hflag⟩, hrest⟩
      rw [hnum, hflag, hrest]

/-! ### The missing experiments -/

/-- One of the stored experiments has the same faults, field by field. -/
def IsSimulated (simulated : List (List IntFault)) (e : Experiment) : Prop :=
  ∃ s ∈ simulated, e.faultlist.map IntFault.identity = s.map IntFault.identity

instance (simulated : List (List IntFault)) (e : Experiment) :
    Decidable (IsSimulated simulated e) := List.decidableBEx ..

variable {c : Columns} {simulated : List (List IntFault)} {file : List (List FaultRow)}

theorem getNotSimulatedFaults_eq (faultlist : List Experiment) (simulatedFaults : List Text) :
    getNotSimulatedFaults faultlist simulatedFaults
      = faultlist.filter fun e => decide (configString e.faultlist ∉ simulatedFaults) := by
  have hgo : ∀ (es missing : List Experiment), es.foldl (fun missing e =>
      if configString e.faultlist ∉ simulatedFaults then missing ++ [e] else missing) missing
      = missing ++ es.filter fun e => decide (configString e.faultlist ∉ simulatedFaults) := by
    intro es
    induction es with
    | nil => simp
    | cons e es ih =>
      intro missing
      rw [List.foldl_cons, ih, List.filter_cons]
      split <;> simp_all
  exact hgo faultlist []

/-- What the file gives back of the experiments that were stored. -/
theorem readFault_processFaults {s : List IntFault} {rows : List FaultRow}
    (hfits : ∀ f ∈ s, FitsTable f) (hrows : processFaults c s = .ok rows) :
    rows.map readFault = s.map IntFault.truncated := by
  have hall := mapM_eq_ok.mp hrows
  clear hrows
  induction hall with
  | nil => rfl
  | @cons f row s rows hrow _ ih =>
    obtain ⟨row', hrow', hread⟩ := processFault_ok (c := c) (hfits f List.mem_cons_self)
    obtain rfl := Except.ok.inj (hrow.symm.trans hrow')
    rw [List.map_cons, List.map_cons, hread, ih fun g hg => hfits g (List.mem_cons_of_mem _ hg)]

/-- The texts in the file, of experiments that fit into it. -/
theorem mem_readSimulatedFaults (hfits : ∀ s ∈ simulated, ∀ f ∈ s, FitsTable f)
    (hfile : simulated.mapM (processFaults c) = .ok file) (e : Experiment) :
    configString e.faultlist ∈ readSimulatedFaults file ↔
      ∃ s ∈ simulated, List.Forall₂ SameNumerals e.faultlist (s.map IntFault.truncated) := by
  have hfile : file.map (fun exp => exp.map readFault)
      = simulated.map fun s => s.map IntFault.truncated := by
    have hall := mapM_eq_ok.mp hfile
    clear hfile
    induction hall with
    | nil => rfl
    | @cons s rows simulated file hrows _ ih =>
      rw [List.map_cons, List.map_cons, readFault_processFaults (hfits s List.mem_cons_self) hrows,
        ih fun s hs => hfits s (List.mem_cons_of_mem _ hs)]
  have hread : readSimulatedFaults file
      = (simulated.map fun s => s.map IntFault.truncated).map configString := by
    rw [← hfile, readSimulatedFaults, List.map_map]
    rfl
  rw [hread, List.map_map, List.mem_map]
  refine exists_congr fun s => and_congr_right fun _ => ?_
  rw [Function.comp_apply, eq_comm]
  exact configString_inj _ _

/-- The missing experiments are found iff, for every experiment of the list, it is stored exactly if
    a stored experiment, with the lower halves of its masks, has the same wildcard flags and the same
    numbers up to where one ends and the next begins. -/
theorem getNotSimulatedFaults_eq_iff (hfits : ∀ s ∈ simulated, ∀ f ∈ s, FitsTable f)
    (hfile : simulated.mapM (processFaults c) = .ok file) (faultlist : List Experiment) :
    getNotSimulatedFaults faultlist (readSimulatedFaults file)
        = faultlist.filter (fun e => decide (¬ IsSimulated simulated e)) ↔
      ∀ e ∈ faultlist, (IsSimulated simulated e ↔
        ∃ s ∈ simulated, List.Forall₂ SameNumerals e.faultlist (s.map IntFault.truncated)) := by
  rw [getNotSimulatedFaults_eq]
  have hkey : ∀ e : Experiment, (decide (configString e.faultlist ∉ readSimulatedFaults file)
      = decide (¬ IsSimulated simulated e)) ↔ (IsSimulated simulated e ↔
        ∃ s ∈ simulated, List.Forall₂ SameNumerals e.faultlist (s.map IntFault.truncated)) := by
    intro e
    rw [decide_eq_decide, not_iff_not, mem_readSimulatedFaults hfits hfile]
    exact iff_comm
  constructor
  · intro h e he
    have hmem : e ∈ faultlist.filter (fun e =>
          decide (configString e.faultlist ∉ readSimulatedFaults file)) ↔
        e ∈ faultlist.filter fun e => decide (¬ IsSimulated simulated e) := by
      rw [h]
    simp only [List.mem_filter, he, true_and] at hmem
    exact (hkey e).mp (Bool.eq_iff_iff.mpr hmem)
  · intro h
    exact List.filter_congr fun e he => (hkey e).mpr (h e he)

/-- A data fault of the examples. -/
def dataFault (lifespan : Int) (mask : ℕ) : IntFault :=
  ⟨⟨0x100, 1⟩, 0x20, [], 0, 1, lifespan, mask, 0, false⟩

theorem dataFault_fits {lifespan : Int} {mask : ℕ} (h : 0 ≤ lifespan ∧ lifespan.toNat < 2 ^ 64) :
    FitsTable (dataFault lifespan mask) :=
  ⟨by simp [dataFault], by simp [dataFault], by simp [dataFault], by simp [dataFault],
    by simp [dataFault], h, by simp [dataFault]⟩

theorem getNotSimulatedFaults_eq_iff_oneFault : ∃ file,
    [[dataFault 1 1]].mapM (processFaults Columns.strict) = .ok file ∧
    (getNotSimulatedFaults [⟨0, [dataFault 2 1]⟩] (readSimulatedFaults file)
        = [⟨0, [dataFault 2 1]⟩].filter (fun e => decide (¬ IsSimulated [[dataFault 1 1]] e)) ↔
      ∀ e ∈ [(⟨0, [dataFault 2 1]⟩ : Experiment)], (IsSimulated [[dataFault 1 1]] e ↔
        ∃ s ∈ [[dataFault 1 1]],
          List.Forall₂ SameNumerals e.faultlist (s.map IntFault.truncated))) := by
  refine ⟨_, rfl, getNotSimulatedFaults_eq_iff (c := Columns.strict) ?_ rfl _⟩
  intro s hs f hf
  obtain rfl := List.mem_singleton.mp hs
  obtain rfl := List.mem_singleton.mp hf
  exact dataFault_fits (by decide)

/-- Lifespan 1 and mask 11 spell the same digits as lifespan 11 and mask 1, so an experiment that was
    never simulated is dropped. -/
theorem getNotSimulatedFaults_drops : ∃ file,
    [[dataFault 1 11]].mapM (processFaults Columns.strict) = .ok file ∧
    getNotSimulatedFaults [⟨0, [dataFault 11 1]⟩] (readSimulatedFaults file)
      ≠ [⟨0, [dataFault 11 1]⟩].filter (fun e => decide (¬ IsSimulated [[dataFault 1 11]] e)) :=
  ⟨_, rfl, by decide⟩

end Archie.Campaign
