import Archie.Campaign.GoldenRunFilter

/-! `checktriggers_in_tb` of goldenrun.py decides each trigger address once.

    A fault whose trigger the plugin does not use passes without an entry in either list. The lists
    are consulted first, so a fault with the same trigger that has been rejected before it rejects
    it, too:

        faults with trigger t, not executed     verdict
        hitcounter 0, hitcounter 1              pass, reject
        hitcounter 1, hitcounter 0              reject, reject                                   -/

namespace Archie.Campaign
open Python

variable {heap : Heap ConfigFault} {tbinfo : List TbInfo} {visited fs : List ConfigFault}
  {f : ConfigFault} {st : TriggerCheck}

/-! ### The memo lists -/

/-- The trigger lies in an executed TB. -/
def InTb (tbinfo : List TbInfo) (f : ConfigFault) : Prop :=
  findInsnAddressesInTb f.trigger.address tbinfo = true

instance (tbinfo : List TbInfo) (f : ConfigFault) : Decidable (InTb tbinfo f) :=
  inferInstanceAs (Decidable (_ = true))

/-- The exemption of the check: hitcounter 0 and the model `overwrite`. -/
def LetsPass (f : ConfigFault) : Prop := f.trigger.hitcounter = 0 ∧ f.model = 3

/-- The plugin injects an instruction fault with hitcounter 0 at once, whatever its trigger. -/
def UnusedTrigger (f : ConfigFault) : Prop := f.trigger.hitcounter = 0 ∧ f.type = 1

instance : DecidablePred UnusedTrigger := fun _ => inferInstanceAs (Decidable (_ ∧ _))

/-- A fault with this trigger has not been let pass. -/
def NotPassed (visited : List ConfigFault) (address : Int) : Prop :=
  ∃ g ∈ visited, g.trigger.address = address ∧ ¬LetsPass g

/-- What the lists say after some faults. -/
structure TriggerCheck.Memo (tbinfo : List TbInfo) (visited : List ConfigFault) (st : TriggerCheck) :
    Prop where
  valid : ∀ a ∈ st.validTriggers, findInsnAddressesInTb a tbinfo = true
  invalid : ∀ a, a ∈ st.invalidTriggers ↔
    findInsnAddressesInTb a tbinfo = false ∧ NotPassed visited a

theorem TriggerCheck.Memo.initial (delete : Bool) : TriggerCheck.Memo tbinfo [] ⟨[], [], delete⟩ where
  valid _ ha := absurd ha List.not_mem_nil
  invalid a := by simp [NotPassed]

theorem notPassed_concat {address : Int} : NotPassed (visited ++ [f]) address ↔
    NotPassed visited address ∨ f.trigger.address = address ∧ ¬LetsPass f := by
  simp [NotPassed, or_and_right, exists_or]

/-- A visit keeps the lists, and marks the experiment if the trigger is not executed and some fault
    with it so far has not been let pass. -/
theorem checkTrigger_memo (h : st.Memo tbinfo visited) (f : ConfigFault) :
    (checkTrigger tbinfo st f).Memo tbinfo (visited ++ [f]) ∧
      ((checkTrigger tbinfo st f).delete = true ↔
        st.delete = true ∨ ¬InTb tbinfo f ∧ NotPassed (visited ++ [f]) f.trigger.address) := by
  obtain ⟨hvalid, hinvalid⟩ := h
  -- the lists stay as they are where the fault brings nothing new
  have hkeep : InTb tbinfo f ∨ f.trigger.address ∈ st.invalidTriggers ∨ LetsPass f → ∀ a,
      a ∈ st.invalidTriggers ↔ findInsnAddressesInTb a tbinfo = false ∧ NotPassed (visited ++ [f]) a := by
    intro hold a
    rw [notPassed_concat, hinvalid a]
    refine and_congr_right fun hno => ⟨.inl, ?_⟩
    rintro (hnot | ⟨rfl, hpass⟩)
    · exact hnot
    · rcases hold with hin | hmem | hlet
      · exact absurd hin (by simp [InTb, hno])
      · exact ((hinvalid _).mp hmem).2
      · exact absurd hlet hpass
  rw [checkTrigger]
  split_ifs with hmem hold hfind hpass
  · have hin : InTb tbinfo f := hvalid _ hmem
    exact ⟨⟨hvalid, hkeep (.inl hin)⟩, by simp [hin]⟩
  · obtain ⟨hno, hnot⟩ := (hinvalid _).mp hold
    refine ⟨⟨hvalid, hkeep (.inr (.inl hold))⟩, iff_of_true rfl (.inr ⟨?_, notPassed_concat.mpr (.inl hnot)⟩)⟩
    simp [InTb, hno]
  · have hin : InTb tbinfo f := hfind
    refine ⟨⟨fun a ha => ?_, hkeep (.inl hin)⟩, by simp [hin]⟩
    rcases List.mem_append.mp ha with ha | ha
    · exact hvalid a ha
    · rwa [List.mem_singleton.mp ha]
  · have hnot : ¬NotPassed (visited ++ [f]) f.trigger.address := by
      intro hnot
      rcases notPassed_concat.mp hnot with hnot | ⟨-, hno⟩
      · exact hold ((hinvalid _).mpr ⟨Bool.eq_false_iff.mpr hfind, hnot⟩)
      · exact hno hpass
    exact ⟨⟨hvalid, hkeep (.inr (.inr hpass))⟩, by simp [hnot]⟩
  · have hnew : NotPassed (visited ++ [f]) f.trigger.address := notPassed_concat.mpr (.inr ⟨rfl, hpass⟩)
    refine ⟨⟨hvalid, fun a => ?_⟩, iff_of_true rfl (.inr ⟨hfind, hnew⟩)⟩
    rw [List.mem_append, List.mem_singleton, hinvalid a, notPassed_concat, and_or_left]
    refine or_congr_right ⟨?_, fun h => h.2.1.symm⟩
    rintro rfl
    exact ⟨Bool.eq_false_iff.mpr hfind, rfl, hpass⟩

/-! ### One experiment -/

/-- A fault that marks the experiment, after those visited before. -/
def MarkedBy (tbinfo : List TbInfo) : List ConfigFault → List ConfigFault → Prop
  | _, [] => False
  | visited, f :: fs =>
    ¬InTb tbinfo f ∧ NotPassed (visited ++ [f]) f.trigger.address ∨ MarkedBy tbinfo (visited ++ [f]) fs

theorem foldl_checkTrigger_memo (h : st.Memo tbinfo visited) (fs : List ConfigFault) :
    (fs.foldl (checkTrigger tbinfo) st).Memo tbinfo (visited ++ fs) ∧
      ((fs.foldl (checkTrigger tbinfo) st).delete = true ↔
        st.delete = true ∨ MarkedBy tbinfo visited fs) := by
  induction fs generalizing st visited with
  | nil => simpa [MarkedBy] using h
  | cons f fs ih =>
    obtain ⟨hmemo, hdelete⟩ := checkTrigger_memo h f
    obtain ⟨hmemo', hdelete'⟩ := ih hmemo
    rw [List.append_assoc] at hmemo'
    exact ⟨hmemo', by rw [List.foldl_cons, hdelete', hdelete, MarkedBy, or_assoc]⟩

theorem markedBy_iff : MarkedBy tbinfo visited fs ↔ ∃ l f r, fs = l ++ f :: r ∧ ¬InTb tbinfo f ∧
    NotPassed (visited ++ l ++ [f]) f.trigger.address := by
  induction fs generalizing visited with
  | nil => simp [MarkedBy]
  | cons f fs ih =>
    rw [MarkedBy, ih]
    constructor
    · rintro (h | ⟨l, g, r, rfl, h⟩)
      · exact ⟨[], f, fs, rfl, by simpa using h⟩
      · exact ⟨f :: l, g, r, rfl, by simpa using h⟩
    · rintro ⟨l, g, r, heq, h⟩
      rcases List.cons_eq_append_iff.mp heq with ⟨rfl, hcons⟩ | ⟨l', rfl, rfl⟩
      · obtain ⟨rfl, rfl⟩ := List.cons.inj hcons
        exact .inl (by simpa using h)
      · exact .inr ⟨l', g, r, rfl, by simpa using h⟩

/-- Faults on whose experiment the check agrees with the plugin. -/
structure SameVerdict (tbinfo : List TbInfo) (visited fs : List ConfigFault) : Prop where
  /-- the triggers outside the executed TBs are unused: the faults so far with those triggers all pass -/
  passes : (∀ f ∈ fs, InTb tbinfo f ∨ UnusedTrigger f) → ∀ l f r, fs = l ++ f :: r → ¬InTb tbinfo f →
    ∀ g ∈ visited ++ l ++ [f], g.trigger.address = f.trigger.address → LetsPass g
  /-- one of them is used: some fault so far with a trigger outside does not pass -/
  rejects : (∃ f ∈ fs, ¬InTb tbinfo f ∧ ¬UnusedTrigger f) → ∃ l f r, fs = l ++ f :: r ∧ ¬InTb tbinfo f ∧
    ∃ g ∈ visited ++ l ++ [f], g.trigger.address = f.trigger.address ∧ ¬LetsPass g

theorem sameVerdict_iff : SameVerdict tbinfo visited fs ↔
    (¬MarkedBy tbinfo visited fs ↔ ∀ f ∈ fs, InTb tbinfo f ∨ UnusedTrigger f) := by
  have hpasses : ¬MarkedBy tbinfo visited fs ↔ ∀ l f r, fs = l ++ f :: r → ¬InTb tbinfo f →
      ∀ g ∈ visited ++ l ++ [f], g.trigger.address = f.trigger.address → LetsPass g := by
    simp only [markedBy_iff, NotPassed, not_exists, not_and, not_not]
  have hused : (∃ f ∈ fs, ¬InTb tbinfo f ∧ ¬UnusedTrigger f) ↔
      ¬∀ f ∈ fs, InTb tbinfo f ∨ UnusedTrigger f := by
    simp only [not_forall, not_or, exists_prop]
  constructor
  · rintro ⟨hp, hr⟩
    refine ⟨fun hno => ?_, fun hall => hpasses.mpr (hp hall)⟩
    by_contra hall
    exact hno (markedBy_iff.mpr (hr (hused.mpr hall)))
  · intro h
    refine ⟨fun hall => hpasses.mp (h.mpr hall), fun hex => markedBy_iff.mp ?_⟩
    by_contra hno
    exact hused.mp hex (h.mp hno)

/-! ### The list -/

/-- The experiment is to be kept, by its own faults. -/
def Accepted (heap : Heap ConfigFault) (tbinfo : List TbInfo) (e : FaultEntry) : Prop :=
  e.delete = false ∧ ∀ r ∈ e.faultlist, InTb tbinfo (heap.get r) ∨ UnusedTrigger (heap.get r)

instance : DecidablePred (Accepted heap tbinfo) := fun _ => inferInstanceAs (Decidable (_ ∧ _))

/-- The marks and the new list keep these experiments and no others. -/
structure CheckedTriggers.Keeps (heap : Heap ConfigFault) (tbinfo : List TbInfo)
    (faultconfig : List FaultEntry) (checked : CheckedTriggers) : Prop where
  marks : List.Forall₂ (fun e e' => e'.delete = false ↔ Accepted heap tbinfo e) faultconfig checked.marked
  accepted : checked.accepted.map FaultEntry.faultlist
    = (faultconfig.filter fun e => decide (Accepted heap tbinfo e)).map FaultEntry.faultlist

/-- The faults of some experiments in the order of the visits. -/
def visitedFaults (heap : Heap ConfigFault) (es : List FaultEntry) : List ConfigFault :=
  (es.flatMap FaultEntry.faultlist).map heap.get

/-- Every experiment not marked before gets the same verdict as alone. -/
def SameVerdicts (heap : Heap ConfigFault) (tbinfo : List TbInfo) (faultconfig : List FaultEntry) : Prop :=
  ∀ l e r, faultconfig = l ++ e :: r → e.delete = false →
    SameVerdict tbinfo (visitedFaults heap l) (e.faultlist.map heap.get)

theorem markTriggers_memo : ∀ (es : List FaultEntry) {st : TriggerCheck} {visited : List ConfigFault},
    st.Memo tbinfo visited →
      (List.Forall₂ (fun e e' => e'.delete = false ↔ Accepted heap tbinfo e) es
          (markTriggers heap tbinfo st es).2 ↔
        ∀ l e r, es = l ++ e :: r → e.delete = false →
          SameVerdict tbinfo (visited ++ visitedFaults heap l) (e.faultlist.map heap.get))
  | [], _, _, _ => iff_of_true .nil fun l e r h => by simp at h
  | e :: es, st, visited, h => by
    have hstart : TriggerCheck.Memo tbinfo visited { st with delete := e.delete } := ⟨h.valid, h.invalid⟩
    obtain ⟨hmemo, hdelete⟩ := foldl_checkTrigger_memo hstart (e.faultlist.map heap.get)
    have ih := markTriggers_memo es hmemo
    -- the verdict on the first experiment
    have hhead : (((e.faultlist.map heap.get).foldl (checkTrigger tbinfo)
          { st with delete := e.delete }).delete = false ↔ Accepted heap tbinfo e) ↔
        (e.delete = false → SameVerdict tbinfo visited (e.faultlist.map heap.get)) := by
      rw [sameVerdict_iff, List.forall_mem_map, Accepted, ← Bool.not_eq_true, hdelete, not_or,
        Bool.not_eq_true, ← and_congr_right_iff]
    rw [markTriggers]
    dsimp only
    rw [List.forall₂_cons, hhead, ih]
    constructor
    · rintro ⟨hfirst, hrest⟩ l e' r heq
      rcases List.cons_eq_append_iff.mp heq with ⟨rfl, hcons⟩ | ⟨l', rfl, rfl⟩
      · obtain ⟨rfl, rfl⟩ := List.cons.inj hcons
        simpa [visitedFaults] using hfirst
      · simpa [visitedFaults, List.append_assoc] using hrest l' e' r rfl
    · intro hall
      refine ⟨by simpa [visitedFaults] using hall [] e es rfl, fun l e' r heq => ?_⟩
      simpa [visitedFaults, List.append_assoc] using hall (e :: l) e' r (by rw [heq]; rfl)

/-- The new list follows from the marks. -/
theorem accepted_of_marks {es es' : List FaultEntry}
    (hlists : es'.map FaultEntry.faultlist = es.map FaultEntry.faultlist)
    (h : List.Forall₂ (fun e e' => e'.delete = false ↔ Accepted heap tbinfo e) es es') :
    ((es'.filter fun e => !e.delete).mapIdx fun i e => { e with index := (i : Int) }).map FaultEntry.faultlist
      = (es.filter fun e => decide (Accepted heap tbinfo e)).map FaultEntry.faultlist := by
  have hindex : ∀ es : List FaultEntry,
      (es.mapIdx fun i e => { e with index := (i : Int) }).map FaultEntry.faultlist
        = es.map FaultEntry.faultlist := by
    intro es
    refine List.ext_getElem? fun i => ?_
    rw [List.getElem?_map, List.getElem?_map, List.getElem?_mapIdx, Option.map_map]
    rfl
  rw [hindex]
  clear hindex
  induction h with
  | nil => rfl
  | @cons e e' es es' hhead htail ih =>
    obtain ⟨hlist, hlists⟩ := List.cons.inj hlists
    by_cases hacc : Accepted heap tbinfo e
    · rw [List.filter_cons_of_pos (by simp [hhead.mpr hacc]), List.filter_cons_of_pos (by simpa using hacc),
        List.map_cons, List.map_cons, hlist, ih hlists]
    · have hdel : e'.delete = true := by
        rw [← Bool.not_eq_false]
        exact fun hno => hacc (hhead.mp hno)
      rw [List.filter_cons_of_neg (by simp [hdel]), List.filter_cons_of_neg (by simpa using hacc), ih hlists]

/-- The check keeps an experiment by its own faults iff neither the memo nor the exemption matters. -/
theorem checktriggersInTb_keeps_iff {faultconfig : List FaultEntry} (hne : faultconfig ≠ []) :
    (∃ checked, checktriggersInTb heap faultconfig tbinfo = .ok checked ∧
      checked.Keeps heap tbinfo faultconfig) ↔ SameVerdicts heap tbinfo faultconfig := by
  have hlists := map_faultlist_markTriggers heap tbinfo ⟨[], [], false⟩ faultconfig
  have hmarks : List.Forall₂ (fun e e' => e'.delete = false ↔ Accepted heap tbinfo e) faultconfig
      (markTriggers heap tbinfo ⟨[], [], false⟩ faultconfig).2 ↔ SameVerdicts heap tbinfo faultconfig :=
    markTriggers_memo _ (TriggerCheck.Memo.initial false)
  have hempty : ¬faultconfig.isEmpty = true := mt List.isEmpty_iff.mp hne
  rw [← hmarks, checktriggersInTb]
  dsimp only
  rw [if_neg hempty]
  constructor
  · rintro ⟨checked, hchecked, hkeeps⟩
    obtain rfl := Except.ok.inj hchecked
    exact hkeeps.marks
  · exact fun h => ⟨_, rfl, h, accepted_of_marks hlists h⟩

/-- An overwritten instruction with a trigger that is not executed. -/
def overwriteFault (hitcounter : ℕ) : ConfigFault :=
  ⟨⟨0x500, hitcounter⟩, .int 0x100, [], 1, 3, 0, .int 1, 0, false⟩

/-- Hitcounter 1 and hitcounter 0. -/
def overwriteHeap : Heap ConfigFault := ⟨fun r => overwriteFault (1 - r), 2⟩

theorem singleton_split {α : Type} {x y : α} {l r : List α} (h : [x] = l ++ y :: r) :
    l = [] ∧ y = x := by
  obtain ⟨rfl, hcons⟩ | ⟨l', -, hl'⟩ := List.cons_eq_append_iff.mp h
  · exact ⟨rfl, (List.cons.inj hcons).1⟩
  · exact absurd hl' (by simp)

theorem checktriggersInTb_keeps_unused : ∃ checked,
    checktriggersInTb overwriteHeap [⟨0, [1], false⟩] twoInsns = .ok checked ∧
      checked.Keeps overwriteHeap twoInsns [⟨0, [1], false⟩] := by
  refine (checktriggersInTb_keeps_iff (List.cons_ne_nil _ _)).mpr fun l e r heq _ => ?_
  obtain ⟨rfl, rfl⟩ := singleton_split heq
  refine ⟨fun _ l f r hf _ g hg _ => ?_, ?_⟩
  · obtain ⟨rfl, rfl⟩ := singleton_split hf
    obtain rfl := List.mem_singleton.mp hg
    exact ⟨rfl, rfl⟩
  · rintro ⟨f, hf, -, hno⟩
    obtain rfl := List.mem_singleton.mp hf
    exact absurd ⟨rfl, rfl⟩ hno

/-- The fault with hitcounter 0 is kept alone, but not behind the one with hitcounter 1. -/
theorem checktriggersInTb_memo_rejects : ¬∀ heap tbinfo faultconfig, faultconfig ≠ [] → ∃ checked,
    checktriggersInTb heap faultconfig tbinfo = .ok checked ∧ checked.Keeps heap tbinfo faultconfig := by
  intro h
  obtain ⟨checked, hchecked, -, hlist⟩ := h overwriteHeap twoInsns [⟨0, [0], false⟩, ⟨1, [1], false⟩]
    (List.cons_ne_nil _ _)
  obtain rfl := Except.ok.inj hchecked
  exact absurd hlist (by decide +kernel)

end Archie.Campaign
