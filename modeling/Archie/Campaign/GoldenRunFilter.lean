import Archie.Campaign.GoldenRun
import Archie.Campaign.WildcardHits

/-! When the list that `run_goldenrun` returns is the filtered one.

    Each pass is described by what it leaves of an experiment and of a fault: the expansion drops the
    wildcard faults, the width masks drop whole experiments and change masks only, the triggers are
    resolved once for each experiment that uses the fault. Nothing of it drops a marked experiment. -/

namespace Archie.Campaign
open Python

section

variable {heap heap' : Heap ConfigFault} {faultconfig faultconfig' : List FaultEntry}
  {tbexec : List TbExec} {tbinfo : List TbInfo} {filters : List (List ℕ)} {f f' v : ConfigFault}

/-! ### What the triggers see of a fault -/

/-- Equal but for mask and number of bytes. -/
structure Fault.SameTrigger (f f' : ConfigFault) : Prop where
  trigger : f.trigger = f'.trigger
  address : f.address = f'.address
  lifespan : f.lifespan = f'.lifespan
  model : f.model = f'.model

theorem Fault.SameTrigger.refl (f : ConfigFault) : f.SameTrigger f := ⟨rfl, rfl, rfl, rfl⟩

theorem Fault.SameTrigger.symm (h : f.SameTrigger f') : f'.SameTrigger f :=
  ⟨h.trigger.symm, h.address.symm, h.lifespan.symm, h.model.symm⟩

/-- The trigger lies in an executed TB or is not used. -/
def TriggerOk (tbinfo : List TbInfo) (f : ConfigFault) : Prop :=
  findInsnAddressesInTb f.trigger.address tbinfo = true ∨ f.trigger.hitcounter = 0 ∧ f.model = 3

theorem Fault.SameTrigger.triggerOk (h : f.SameTrigger f') : TriggerOk tbinfo f ↔ TriggerOk tbinfo f' := by
  rw [TriggerOk, TriggerOk, h.trigger, h.model]

theorem Fault.SameTrigger.resolve (h : f.SameTrigger f') (hf : resolve filters tbexec tbinfo f = .ok v) :
    ∃ v', resolve filters tbexec tbinfo f' = .ok v' ∧ v.SameTrigger v' := by
  rw [Campaign.resolve, h.trigger, h.address, h.lifespan] at hf
  rw [Campaign.resolve]
  split at hf
  · next hskip =>
    obtain rfl := Except.ok.inj hf
    exact ⟨f', if_pos hskip, h⟩
  · next hskip =>
    obtain ⟨address, haddr, hf⟩ := bind_eq_ok.mp hf
    obtain ⟨answer, hans, hf⟩ := bind_eq_ok.mp hf
    obtain rfl := Except.ok.inj hf
    refine ⟨f'.setAnswer answer, ?_, rfl, h.address, rfl, h.model⟩
    rw [if_neg hskip, haddr]
    simp only [bind, Except.bind, hans]
    rfl

/-- Resolving a fault once for each experiment that uses it. -/
def resolveTimes (filters : List (List ℕ)) (tbexec : List TbExec) (tbinfo : List TbInfo) :
    ℕ → ConfigFault → Result ConfigFault
  | 0, f => .ok f
  | n + 1, f => resolve filters tbexec tbinfo f >>= resolveTimes filters tbexec tbinfo n

theorem Fault.SameTrigger.resolveTimes {n : ℕ} (h : f.SameTrigger f')
    (hf : resolveTimes filters tbexec tbinfo n f = .ok v) :
    ∃ v', resolveTimes filters tbexec tbinfo n f' = .ok v' ∧ v.SameTrigger v' := by
  induction n generalizing f f' with
  | zero =>
    obtain rfl := Except.ok.inj hf
    exact ⟨f', rfl, h⟩
  | succ n ih =>
    obtain ⟨f₁, hres, hf⟩ := bind_eq_ok.mp hf
    obtain ⟨f₁', hres', h₁⟩ := h.resolve hres
    obtain ⟨v', hv', hsame⟩ := ih h₁ hf
    exact ⟨v', bind_eq_ok.mpr ⟨f₁', hres', hv'⟩, hsame⟩

/-- The pass over the triggers resolves each fault as often as it occurs. -/
theorem foldlM_resolveAt_get {refs : List ℕ}
    (h : refs.foldlM (resolveAt filters tbexec tbinfo) heap = .ok heap') (r : ℕ) : resolveTimes filters tbexec tbinfo (refs.count r) (heap.get r) = .ok (heap'.get r) := by
  induction refs generalizing heap with
  | nil =>
    obtain rfl := Except.ok.inj h
    rfl
  | cons s refs ih =>
    rw [List.foldlM_cons] at h
    obtain ⟨heap₁, hres, h⟩ := bind_eq_ok.mp h
    rw [resolveAt] at hres
    rcases hs : Campaign.resolve filters tbexec tbinfo (heap.get s) with e | f₁
    · rw [hs] at hres
      cases hres
    · rw [hs] at hres
      obtain rfl := Except.ok.inj hres
      have hrest := ih h
      rcases eq_or_ne r s with rfl | hne
      · rw [Heap.get_set_self] at hrest
        rw [List.count_cons_self]
        exact bind_eq_ok.mpr ⟨f₁, hs, hrest⟩
      · rw [Heap.get_set_ne _ hne] at hrest
        rwa [List.count_cons_of_ne hne.symm]

/-! ### Wildcards -/

/-- The faults that are no wildcards. -/
def plainFaults (heap : Heap ConfigFault) (e : FaultEntry) : List ℕ :=
  e.faultlist.filter fun r => !(heap.get r).wildcard

/-- What the expansion leaves of an experiment: it is marked if nothing is left. -/
structure Stripped (heap : Heap ConfigFault) (e e' : FaultEntry) : Prop where
  faultlist : e'.faultlist = plainFaults heap e
  live : (e'.delete = false ∧ e'.faultlist ≠ []) ↔ e.delete = false ∧ plainFaults heap e ≠ []

/-- The faults that the expansion generates. -/
def Generated (heap : Heap ConfigFault) (faultconfig : List FaultEntry) (tbexec : List TbExec)
    (tbinfo : List TbInfo) (f : ConfigFault) : Prop :=
  ∃ e ∈ faultconfig, ∃ r ∈ e.faultlist, (heap.get r).wildcard = true ∧
    ∃ fs, generateWildcardFaults (heap.get r) tbexec tbinfo = .ok fs ∧ f ∈ fs

theorem processWildcardEntry_ok {e : FaultEntry} {out : List ConfigFault × FaultEntry}
    (h : processWildcardEntry heap tbexec tbinfo e = .ok out) : Stripped heap e out.2 ∧
      ∀ f, f ∈ out.1 ↔ ∃ r ∈ e.faultlist, (heap.get r).wildcard = true ∧
        ∃ fs, generateWildcardFaults (heap.get r) tbexec tbinfo = .ok fs ∧ f ∈ fs := by
  obtain ⟨generated, hgen, h⟩ := bind_eq_ok.mp h
  obtain ⟨faultlist, hrem, h⟩ := bind_eq_ok.mp h
  obtain rfl := Except.ok.inj h
  have hleft : faultlist = plainFaults heap e := by
    rw [(foldlM_remove hrem).1, diff_eq_filter fun x hx =>
      (List.count_filter (List.mem_filter.mp hx).2).ge]
    refine List.filter_congr fun x hx => ?_
    simp [hx]
  refine ⟨⟨hleft, ?_⟩, fun f => ?_⟩
  · simp only [hleft, Bool.or_eq_false_iff, List.isEmpty_eq_false_iff]
    exact ⟨fun h => ⟨h.1.1, h.2⟩, fun h => ⟨h, h.2⟩⟩
  · simp only [List.mem_flatten, mem_mapM hgen, List.mem_filter]
    constructor
    · rintro ⟨fs, ⟨r, ⟨hr, hw⟩, hfs⟩, hf⟩
      exact ⟨r, hr, hw, fs, hfs, hf⟩
    · rintro ⟨r, hr, hw, fs, hfs, hf⟩
      exact ⟨fs, ⟨r, ⟨hr, hw⟩, hfs⟩, hf⟩

/-- The experiments that are added hold one new fault each. -/
theorem addWildcardFaults_spec (heap : Heap ConfigFault) (index : Int) (fs : List ConfigFault) :
    (addWildcardFaults heap index fs).2.map (fun e => (e.faultlist, e.delete))
        = (List.range' heap.next fs.length).map (fun r => ([r], false)) ∧
      (∀ r < heap.next, (addWildcardFaults heap index fs).1.get r = heap.get r) ∧
      ∀ k f, fs[k]? = some f → (addWildcardFaults heap index fs).1.get (heap.next + k) = f := by
  induction fs generalizing heap index with
  | nil => exact ⟨rfl, fun _ _ => rfl, fun k f h => by simp at h⟩
  | cons f fs ih =>
    obtain ⟨hentries, hold, hnew⟩ := ih (heap.alloc f).2 (index + 1)
    rw [Heap.alloc_next] at hentries hold hnew
    refine ⟨?_, fun r hr => ?_, fun k f' hf' => ?_⟩
    · rw [List.length_cons, List.range'_succ, List.map_cons, ← hentries]
      rfl
    · refine (hold r (by omega)).trans ?_
      rw [Heap.get_alloc, if_neg (by omega)]
    · rcases k with _ | k
      · obtain rfl := Option.some.inj hf'
        refine (hold heap.next (by omega)).trans ?_
        rw [Heap.get_alloc, if_pos rfl]
      · have := hnew k f' hf'
        rwa [Nat.add_assoc, Nat.add_comm 1] at this

/-- The list after the expansion: what is left of the experiments, then the generated ones. -/
structure Expanded (heap : Heap ConfigFault) (faultconfig : List FaultEntry) (tbexec : List TbExec)
    (tbinfo : List TbInfo) (heap' : Heap ConfigFault) (left new : List FaultEntry)
    (fs : List ConfigFault) : Prop where
  left : List.Forall₂ (Stripped heap) faultconfig left
  new : new.map (fun e => (e.faultlist, e.delete))
    = (List.range' heap.next fs.length).map fun r => ([r], false)
  generated : ∀ f, f ∈ fs ↔ Generated heap faultconfig tbexec tbinfo f
  get_old : ∀ r < heap.next, heap'.get r = heap.get r
  get_new : ∀ k f, fs[k]? = some f → heap'.get (heap.next + k) = f

theorem processWildcardFaults_ok
    (h : processWildcardFaults heap faultconfig tbexec tbinfo = .ok (heap', faultconfig')) :
    ∃ left new fs, faultconfig' = left ++ new ∧
      Expanded heap faultconfig tbexec tbinfo heap' left new fs := by
  obtain ⟨last, -, h⟩ := bind_eq_ok.mp h
  split at h
  · next hall =>
    obtain ⟨rfl, rfl⟩ := Prod.mk.inj (Except.ok.inj h)
    have hplain : ∀ e ∈ faultconfig, ∀ r ∈ e.faultlist, (heap.get r).wildcard = false := by
      intro e he r hr
      simpa using List.all_eq_true.mp hall r (List.mem_flatMap.mpr ⟨e, he, hr⟩)
    refine ⟨faultconfig, [], [], (List.append_nil _).symm, ?_, rfl, fun f => ?_, fun _ _ => rfl,
      fun k f hf => by simp at hf⟩
    · refine List.forall₂_same.mpr fun e he => ?_
      have hsame : plainFaults heap e = e.faultlist :=
        List.filter_eq_self.mpr fun r hr => by simp [hplain e he r hr]
      exact ⟨hsame.symm, by rw [hsame]⟩
    · refine ⟨fun hf => absurd hf List.not_mem_nil, ?_⟩
      rintro ⟨e, he, r, hr, hw, -⟩
      rw [hplain e he r hr] at hw
      cases hw
  · obtain ⟨processed, hproc, h⟩ := bind_eq_ok.mp h
    obtain ⟨rfl, rfl⟩ := Prod.mk.inj (Except.ok.inj h)
    obtain ⟨hnew, hold, hget⟩ := addWildcardFaults_spec heap (last.index + 1)
      (processed.flatMap Prod.fst)
    have hentries := mapM_eq_ok.mp hproc
    refine ⟨processed.map Prod.snd, _, _, rfl, ?_, hnew, fun f => ?_, hold, hget⟩
    · exact List.forall₂_map_right_iff.mpr (hentries.imp fun e out hout => (processWildcardEntry_ok hout).1)
    · simp only [List.mem_flatMap, mem_mapM hproc, Generated]
      constructor
      · rintro ⟨out, ⟨e, he, hout⟩, hf⟩
        exact ⟨e, he, ((processWildcardEntry_ok hout).2 f).mp hf⟩
      · rintro ⟨e, he, hr⟩
        obtain ⟨out, hout⟩ : ∃ out, processWildcardEntry heap tbexec tbinfo e = .ok out := by
          obtain ⟨i, hi, rfl⟩ := List.mem_iff_getElem.mp he
          have hlt : i < processed.length := hentries.length_eq ▸ hi
          exact ⟨processed[i], List.forall₂_iff_get.mp hentries |>.2 i hi hlt⟩
        exact ⟨out, ⟨e, he, hout⟩, ((processWildcardEntry_ok hout).2 f).mpr hr⟩

/-! ### Width masks -/

/-- The fault has masks by width, but none for the width that the golden run executed. -/
def maskUnmatched (tbexec : List TbExec) (tbinfo : List TbInfo) (f : ConfigFault) : Bool :=
  match f.mask, executedWidth f.address tbinfo tbexec with
  | .dict masks, .ok (some width) => (masks.lookup (strInt width)).isNone
  | _, _ => false

theorem maskUnmatched_int {m : ℕ} (hm : f.mask = .int m) : maskUnmatched tbexec tbinfo f = false := by
  rw [maskUnmatched, hm]

theorem maskUnmatched_absent (hwidth : executedWidth f.address tbinfo tbexec = .ok none) :
    maskUnmatched tbexec tbinfo f = false := by
  rw [maskUnmatched, hwidth]
  cases f.mask <;> rfl

theorem maskUnmatched_dict {masks : List (Text × ℕ)} {width : Int} (hm : f.mask = .dict masks)
    (hwidth : executedWidth f.address tbinfo tbexec = .ok (some width)) :
    maskUnmatched tbexec tbinfo f = (masks.lookup (strInt width)).isNone := by
  rw [maskUnmatched, hm, hwidth]

/-- Some faults have got the mask for their width. -/
structure Masked (tbexec : List TbExec) (tbinfo : List TbInfo) (heap heap' : Heap ConfigFault) : Prop where
  same : ∀ r, (heap'.get r).SameTrigger (heap.get r)
  unmatched : ∀ r, maskUnmatched tbexec tbinfo (heap'.get r) = maskUnmatched tbexec tbinfo (heap.get r)

theorem Masked.refl : Masked tbexec tbinfo heap heap := ⟨fun _ => .refl _, fun _ => rfl⟩

theorem Masked.trans {heap'' : Heap ConfigFault} (h : Masked tbexec tbinfo heap heap')
    (h' : Masked tbexec tbinfo heap' heap'') : Masked tbexec tbinfo heap heap'' where
  same r :=
    have ⟨ht, ha, hl, hm⟩ := h'.same r
    have ⟨ht', ha', hl', hm'⟩ := h.same r
    ⟨ht.trans ht', ha.trans ha', hl.trans hl', hm.trans hm'⟩
  unmatched r := (h'.unmatched r).trans (h.unmatched r)

theorem processSingleFault_ok {r : ℕ} {unmatched : Bool}
    (h : processSingleFault tbexec tbinfo heap r = .ok (heap', unmatched)) :
    Masked tbexec tbinfo heap heap' ∧ unmatched = maskUnmatched tbexec tbinfo (heap.get r) := by
  rw [processSingleFault] at h
  split at h
  · next m hm =>
    obtain ⟨rfl, rfl⟩ := Prod.mk.inj (Except.ok.inj h)
    exact ⟨.refl, (maskUnmatched_int hm).symm⟩
  · next masks hm =>
    simp only [bind, pure, Except.pure] at h
    split at h
    · cases h
    · obtain ⟨width, hwidth, h⟩ := bind_eq_ok.mp h
      rcases width with _ | width
      · obtain ⟨rfl, rfl⟩ := Prod.mk.inj (Except.ok.inj h)
        exact ⟨.refl, (maskUnmatched_absent hwidth).symm⟩
      · have hdict := maskUnmatched_dict hm hwidth
        dsimp only at h
        rcases hlookup : masks.lookup (strInt width) with _ | m
        · rw [hlookup] at h hdict
          obtain ⟨rfl, rfl⟩ := Prod.mk.inj (Except.ok.inj h)
          exact ⟨.refl, hdict.symm⟩
        · rw [hlookup] at h hdict
          obtain ⟨rfl, rfl⟩ := Prod.mk.inj (Except.ok.inj h)
          refine ⟨⟨fun s => ?_, fun s => ?_⟩, hdict.symm⟩
          · rw [Heap.get_set]
            split
            · next hs =>
              rw [hs]
              exact ⟨rfl, rfl, rfl, rfl⟩
            · exact .refl _
          · rw [Heap.get_set]
            split
            · next hs =>
              rw [hs, hdict]
              exact maskUnmatched_int rfl
            · rfl

/-- The faults of an experiment that have no mask for their width. -/
def unmatchedFaults (heap : Heap ConfigFault) (tbexec : List TbExec) (tbinfo : List TbInfo)
    (e : FaultEntry) : List ℕ :=
  e.faultlist.filter fun r => maskUnmatched tbexec tbinfo (heap.get r)

theorem visitSingleFaults_ok {e : FaultEntry} {refs : List ℕ} {removeList removeList' : List FaultEntry}
    {heap₀ : Heap ConfigFault} (hm : Masked tbexec tbinfo heap₀ heap)
    (h : refs.foldlM (visitSingleFault tbexec tbinfo e) (heap, removeList) = .ok (heap', removeList')) :
    Masked tbexec tbinfo heap₀ heap' ∧ removeList' = removeList ++
      (unmatchedFaults heap₀ tbexec tbinfo { e with faultlist := refs }).map fun _ => e := by
  induction refs generalizing heap removeList with
  | nil =>
    obtain ⟨rfl, rfl⟩ := Prod.mk.inj (Except.ok.inj h)
    exact ⟨hm, (List.append_nil _).symm⟩
  | cons r refs ih =>
    rw [List.foldlM_cons] at h
    obtain ⟨⟨heap₁, removeList₁⟩, hvisit, h⟩ := bind_eq_ok.mp h
    obtain ⟨⟨heap₂, unmatched⟩, hsingle, hvisit⟩ := bind_eq_ok.mp hvisit
    obtain ⟨rfl, rfl⟩ := Prod.mk.inj (Except.ok.inj hvisit)
    obtain ⟨hstep, rfl⟩ := processSingleFault_ok hsingle
    obtain ⟨hm', rfl⟩ := ih (hm.trans hstep) h
    refine ⟨hm', ?_⟩
    simp only [unmatchedFaults, List.filter_cons, hm.unmatched r]
    split
    · rw [List.append_assoc, List.map_cons, List.singleton_append]
    · rfl

/-- The loop over the list: the entries to remove, once for each fault without a mask. -/
theorem visitEntries_ok {heap₀ : Heap ConfigFault} {es : List FaultEntry}
    {removeList removeList' : List FaultEntry}
    (hm : Masked tbexec tbinfo heap₀ heap)
    (h : es.foldlM (fun st e => e.faultlist.foldlM (visitSingleFault tbexec tbinfo e) st) (heap, removeList)
      = .ok (heap', removeList')) :
    Masked tbexec tbinfo heap₀ heap' ∧ removeList' = removeList ++
      es.flatMap fun e => (unmatchedFaults heap₀ tbexec tbinfo e).map fun _ => e := by
  induction es generalizing heap removeList with
  | nil =>
    obtain ⟨rfl, rfl⟩ := Prod.mk.inj (Except.ok.inj h)
    exact ⟨hm, (List.append_nil _).symm⟩
  | cons e es ih =>
    rw [List.foldlM_cons] at h
    obtain ⟨⟨heap₁, removeList₁⟩, hvisit, h⟩ := bind_eq_ok.mp h
    obtain ⟨hm₁, rfl⟩ := visitSingleFaults_ok hm hvisit
    obtain ⟨hm₂, rfl⟩ := ih hm₁ h
    exact ⟨hm₂, by rw [List.flatMap_cons, List.append_assoc]⟩

theorem processSingleFaults_ok
    (h : processSingleFaults heap faultconfig tbexec tbinfo = .ok (heap', faultconfig')) :
    Masked tbexec tbinfo heap heap' ∧
      faultconfig' = faultconfig.filter fun e => (unmatchedFaults heap tbexec tbinfo e).isEmpty := by
  obtain ⟨⟨heap₁, removeList⟩, hfold, h⟩ := bind_eq_ok.mp h
  obtain ⟨left, hrem, h⟩ := bind_eq_ok.mp h
  obtain ⟨rfl, rfl⟩ := Prod.mk.inj (Except.ok.inj h)
  obtain ⟨hm, rfl⟩ := visitEntries_ok .refl hfold
  have hcount : ∀ es : List FaultEntry, ∀ x, unmatchedFaults heap tbexec tbinfo x ≠ [] →
      es.count x ≤ (es.flatMap fun e => (unmatchedFaults heap tbexec tbinfo e).map fun _ => e).count x := by
    intro es x hx
    induction es with
    | nil => exact le_rfl
    | cons e es ih =>
      rw [List.flatMap_cons, List.count_append]
      rcases eq_or_ne e x with rfl | hne
      · have hpos := List.length_pos_of_ne_nil hx
        have hall : ((unmatchedFaults heap tbexec tbinfo e).map fun _ => e).count e
            = (unmatchedFaults heap tbexec tbinfo e).length := by
          rw [List.map_const', List.count_replicate_self]
        rw [List.count_cons_self, hall]
        omega
      · rw [List.count_cons_of_ne hne]
        exact ih.trans (Nat.le_add_left _ _)
  have hmem : ∀ x, x ∈ (faultconfig.flatMap fun e => (unmatchedFaults heap tbexec tbinfo e).map fun _ => e) ↔
      x ∈ faultconfig ∧ unmatchedFaults heap tbexec tbinfo x ≠ [] := by
    intro x
    simp only [List.mem_flatMap, List.mem_map, ← List.length_pos_iff, List.length_pos_iff_exists_mem]
    constructor
    · rintro ⟨e, he, r, hr, rfl⟩
      exact ⟨he, r, hr⟩
    · rintro ⟨he, r, hr⟩
      exact ⟨x, he, r, hr, rfl⟩
  refine ⟨hm, ?_⟩
  rw [(foldlM_remove hrem).1, List.nil_append, diff_eq_filter fun x hx => hcount _ x ((hmem x).mp hx).2]
  refine List.filter_congr fun x hx => ?_
  rw [Bool.eq_iff_iff, decide_eq_true_iff, hmem, not_and, not_ne_iff, List.isEmpty_iff]
  exact ⟨fun h => h hx, fun h _ => h⟩

/-! ### Checking the triggers -/

/-- Nothing is rejected so far. -/
structure TriggerCheck.Clean (tbinfo : List TbInfo) (st : TriggerCheck) : Prop where
  valid : ∀ a ∈ st.validTriggers, findInsnAddressesInTb a tbinfo = true
  invalid : st.invalidTriggers = []
  delete : st.delete = false

/-- A trigger that is not accepted marks the experiment. -/
theorem checkTrigger_clean {st : TriggerCheck} (hc : st.Clean tbinfo) (f : ConfigFault) :
    (TriggerOk tbinfo f → (checkTrigger tbinfo st f).Clean tbinfo) ∧
      (¬TriggerOk tbinfo f → (checkTrigger tbinfo st f).delete = true) := by
  obtain ⟨hvalid, hinvalid, hdelete⟩ := hc
  rw [checkTrigger, hinvalid]
  split_ifs with hmem hnil hfind hunused
  · exact ⟨fun _ => ⟨hvalid, hinvalid, hdelete⟩, fun hno => absurd (.inl (hvalid _ hmem)) hno⟩
  · exact absurd hnil List.not_mem_nil
  · refine ⟨fun _ => ⟨fun a ha => ?_, rfl, hdelete⟩, fun hno => absurd (.inl hfind) hno⟩
    rcases List.mem_append.mp ha with ha | ha
    · exact hvalid a ha
    · rw [List.mem_singleton.mp ha]
      exact hfind
  · exact ⟨fun _ => ⟨hvalid, hinvalid, hdelete⟩, fun hno => absurd (.inr hunused) hno⟩
  · exact ⟨fun hok => absurd hok (not_or.mpr ⟨hfind, hunused⟩), fun _ => rfl⟩

/-- A marked experiment stays marked. -/
theorem foldl_checkTrigger_delete (fs : List ConfigFault) {st : TriggerCheck} (h : st.delete = true) :
    (fs.foldl (checkTrigger tbinfo) st).delete = true := by
  induction fs generalizing st with
  | nil => exact h
  | cons f fs ih =>
    refine ih ?_
    rw [checkTrigger]
    split_ifs <;> first | rfl | exact h

theorem foldl_checkTrigger (fs : List ConfigFault) {st : TriggerCheck} (hc : st.Clean tbinfo) :
    ((∀ f ∈ fs, TriggerOk tbinfo f) → (fs.foldl (checkTrigger tbinfo) st).Clean tbinfo) ∧
      ((∃ f ∈ fs, ¬TriggerOk tbinfo f) → (fs.foldl (checkTrigger tbinfo) st).delete = true) := by
  induction fs generalizing st with
  | nil => exact ⟨fun _ => hc, fun ⟨_, hf, _⟩ => absurd hf List.not_mem_nil⟩
  | cons f fs ih =>
    rw [List.foldl_cons, List.forall_mem_cons, List.exists_mem_cons_iff]
    by_cases hf : TriggerOk tbinfo f
    · obtain ⟨hall, hex⟩ := ih ((checkTrigger_clean hc f).1 hf)
      exact ⟨fun h => hall h.2, fun h => hex (h.resolve_left fun hno => hno hf)⟩
    · exact ⟨fun h => absurd h.1 hf,
        fun _ => foldl_checkTrigger_delete fs ((checkTrigger_clean hc f).2 hf)⟩

theorem map_faultlist_markTriggers (heap : Heap ConfigFault) (tbinfo : List TbInfo) (st : TriggerCheck)
    (es : List FaultEntry) :
    (markTriggers heap tbinfo st es).2.map FaultEntry.faultlist = es.map FaultEntry.faultlist := by
  induction es generalizing st with
  | nil => rfl
  | cons e es ih => exact congrArg (e.faultlist :: ·) (ih _)

/-- No experiment is marked iff none was and all triggers are accepted; then none is rejected. -/
theorem markTriggers_clean (heap : Heap ConfigFault) (es : List FaultEntry) (st : TriggerCheck)
    (hc : { st with delete := false : TriggerCheck }.Clean tbinfo) :
    ((∀ e ∈ (markTriggers heap tbinfo st es).2, e.delete = false) ↔
      ∀ e ∈ es, e.delete = false ∧ ∀ r ∈ e.faultlist, TriggerOk tbinfo (heap.get r)) ∧
    ((∀ e ∈ es, e.delete = false ∧ ∀ r ∈ e.faultlist, TriggerOk tbinfo (heap.get r)) →
      (markTriggers heap tbinfo st es).1.invalidTriggers = []) := by
  induction es generalizing st with
  | nil =>
    refine ⟨iff_of_true ?_ ?_, fun _ => hc.invalid⟩
    · exact fun _ he => absurd he List.not_mem_nil
    · exact fun _ he => absurd he List.not_mem_nil
  | cons e es ih =>
    rw [markTriggers]
    dsimp only
    simp only [List.forall_mem_cons]
    rcases hdel : e.delete with _ | _
    · obtain ⟨hall, hex⟩ := foldl_checkTrigger (e.faultlist.map heap.get) hc
      by_cases hok : ∀ r ∈ e.faultlist, TriggerOk tbinfo (heap.get r)
      · have hclean := hall (List.forall_mem_map.mpr hok)
        obtain ⟨hiff, hinvalid⟩ := ih ((e.faultlist.map heap.get).foldl (checkTrigger tbinfo)
          { st with delete := false }) ⟨hclean.valid, hclean.invalid, rfl⟩
        exact ⟨and_congr (iff_of_true hclean.delete ⟨rfl, hok⟩) hiff, fun h => hinvalid h.2⟩
      · have hbad : ∃ f ∈ e.faultlist.map heap.get, ¬TriggerOk tbinfo f := by
          push Not at hok
          obtain ⟨r, hr, hno⟩ := hok
          exact ⟨_, List.mem_map_of_mem hr, hno⟩
        refine ⟨iff_of_false (fun h => ?_) fun h => hok h.1.2, fun h => absurd h.1.2 hok⟩
        rw [hex hbad] at h
        exact Bool.noConfusion h.1
    · refine ⟨iff_of_false (fun h => ?_) fun h => Bool.noConfusion h.1.1, fun h => Bool.noConfusion h.1.1⟩
      rw [foldl_checkTrigger_delete _ rfl] at h
      exact Bool.noConfusion h.1

/-- The list with the marks is the filtered one iff there was nothing to filter. -/
theorem filtered_iff {checked : CheckedTriggers} (h : checktriggersInTb heap faultconfig tbinfo = .ok checked) :
    GoldenrunFaults.Filtered ⟨heap, checked.marked, checked.accepted, checked.invalidTriggers⟩ ↔
      ∀ e ∈ faultconfig, (e.delete = false ∧ e.faultlist ≠ []) ∧
        ∀ r ∈ e.faultlist, TriggerOk tbinfo (heap.get r) := by
  rw [checktriggersInTb] at h
  dsimp only at h
  split at h
  · cases h
  · obtain rfl := Except.ok.inj h
    have hlists := map_faultlist_markTriggers heap tbinfo ⟨[], [], false⟩ faultconfig
    obtain ⟨hiff, hinvalid⟩ := markTriggers_clean heap faultconfig ⟨[], [], false⟩
      (⟨fun _ ha => absurd ha List.not_mem_nil, rfl, rfl⟩ : TriggerCheck.Clean tbinfo _)
    have hnonempty : (∀ e ∈ (markTriggers heap tbinfo ⟨[], [], false⟩ faultconfig).2, e.faultlist ≠ []) ↔
        ∀ e ∈ faultconfig, e.faultlist ≠ [] := by
      have hmap : ∀ es : List FaultEntry,
          (∀ e ∈ es, e.faultlist ≠ []) ↔ ∀ l ∈ es.map FaultEntry.faultlist, l ≠ [] := by simp
      rw [hmap, hlists, ← hmap]
    constructor
    · rintro ⟨-, hdel, hne, -⟩ e he
      obtain ⟨hd, htrig⟩ := hiff.mp hdel e he
      exact ⟨⟨hd, hnonempty.mp hne e he⟩, htrig⟩
    · intro hall
      have hok : ∀ e ∈ faultconfig, e.delete = false ∧ ∀ r ∈ e.faultlist, TriggerOk tbinfo (heap.get r) :=
        fun e he => ⟨(hall e he).1.1, (hall e he).2⟩
      have hdel := hiff.mpr hok
      refine ⟨?_, hdel, hnonempty.mpr fun e he => (hall e he).1.2, fun e he r hr => ?_⟩
      · have hself : ((markTriggers heap tbinfo ⟨[], [], false⟩ faultconfig).2.filter fun e => !e.delete)
            = (markTriggers heap tbinfo ⟨[], [], false⟩ faultconfig).2 :=
          List.filter_eq_self.mpr fun e he => by rw [hdel e he]; rfl
        rw [hself]
        refine List.ext_getElem? fun i => ?_
        rw [List.getElem?_map, List.getElem?_map, List.getElem?_mapIdx, Option.map_map]
        rfl
      · rw [hinvalid hok]
        exact List.not_mem_nil

/-! ### The whole run -/

/-- A generated fault has one mask. -/
theorem wildcardTbs_mask {w : WildcardRange} {rows : List TbHits} {s s' : WildcardWalk} {es : List TbExec}
    (hs : ∀ v ∈ s.faults, ∃ m, v.mask = .int m) (h : wildcardTbs f w tbinfo rows s es = .ok s') :
    ∀ v ∈ s'.faults, ∃ m, v.mask = .int m := by
  induction es generalizing rows s with
  | nil =>
    obtain rfl := Except.ok.inj h
    exact hs
  | cons e es ih =>
    rw [wildcardTbs_cons] at h
    obtain ⟨s₁, hone, h⟩ := bind_eq_ok.mp h
    have hs₁ : ∀ v ∈ s₁.faults, ∃ m, v.mask = .int m := by
      obtain ⟨hits, -, hone⟩ := bind_eq_ok.mp hone
      obtain ⟨row, -, hone⟩ := bind_eq_ok.mp hone
      obtain ⟨asm, -, hone⟩ := bind_eq_ok.mp hone
      obtain ⟨tb, -, hone⟩ := bind_eq_ok.mp hone
      obtain ⟨emitted, hfaults, -, hfrom⟩ := wildcardInstrs_faults hone
      intro v hv
      rcases List.mem_append.mp (hfaults ▸ hv) with hv | hv
      · exact hs v hv
      · obtain ⟨z, -, hz⟩ := hfrom v hv
        simp only [instrFault, pure, Except.pure] at hz
        split at hz
        · next m hm =>
          obtain rfl := Except.ok.inj hz
          exact ⟨m, hm⟩
        · split at hz
          · obtain rfl := Except.ok.inj hz
            exact ⟨_, rfl⟩
          · cases hz
    split at h
    · obtain rfl := Except.ok.inj h
      exact hs₁
    · exact ih hs₁ h

theorem Generated.mask (h : Generated heap faultconfig tbexec tbinfo f) : ∃ m, f.mask = .int m := by
  obtain ⟨e, -, r, -, -, fs, hfs, hf⟩ := h
  simp only [generateWildcardFaults, bind, pure, Except.pure] at hfs
  split at hfs
  · cases hfs
  · split at hfs
    · cases hfs
    · obtain ⟨s, hs, hfs⟩ := bind_eq_ok.mp hfs
      have hmask := wildcardTbs_mask (fun _ hv => absurd hv List.not_mem_nil) hs
      split at hfs
      · cases hfs
      · split at hfs
        · cases hfs
        · obtain rfl := Except.ok.inj hfs
          exact hmask f hf

/-- The experiments that the width masks leave. -/
def keptExperiments (heap : Heap ConfigFault) (faultconfig : List FaultEntry) (tbexec : List TbExec)
    (tbinfo : List TbInfo) : List FaultEntry :=
  faultconfig.filter fun e => (plainFaults heap e).all fun r => !maskUnmatched tbexec tbinfo (heap.get r)

/-- How often the pass over the triggers comes to a fault. -/
def visits (heap : Heap ConfigFault) (faultconfig : List FaultEntry) (tbexec : List TbExec)
    (tbinfo : List TbInfo) (r : ℕ) : ℕ :=
  ((keptExperiments heap faultconfig tbexec tbinfo).flatMap (plainFaults heap)).count r

/-- The trigger is accepted when it has been resolved so often. -/
def AcceptedAfter (tbexec : List TbExec) (tbinfo : List TbInfo) (n : ℕ) (f : ConfigFault) : Prop :=
  ∀ fs f', buildFilters tbinfo = .ok fs →
    resolveTimes (fs.map List.reverse) tbexec tbinfo n f = .ok f' → TriggerOk tbinfo f'

/-- No experiment consists of wildcards only or is marked from the start, and all triggers are
    accepted. -/
structure NothingToFilter (heap : Heap ConfigFault) (faultconfig : List FaultEntry) (tbexec : List TbExec)
    (tbinfo : List TbInfo) : Prop where
  live : ∀ e ∈ keptExperiments heap faultconfig tbexec tbinfo,
    e.delete = false ∧ plainFaults heap e ≠ []
  plain : ∀ e ∈ keptExperiments heap faultconfig tbexec tbinfo, ∀ r ∈ plainFaults heap e,
    AcceptedAfter tbexec tbinfo (visits heap faultconfig tbexec tbinfo r) (heap.get r)
  generated : ∀ f, Generated heap faultconfig tbexec tbinfo f → AcceptedAfter tbexec tbinfo 1 f

/-- The references of the list are those of living faults. -/
def Allocated (heap : Heap ConfigFault) (faultconfig : List FaultEntry) : Prop :=
  ∀ e ∈ faultconfig, ∀ r ∈ e.faultlist, r < heap.next

theorem acceptedAfter_iff {fs : List (List ℕ)} (hfs : buildFilters tbinfo = .ok fs) {n : ℕ}
    (hres : resolveTimes (fs.map List.reverse) tbexec tbinfo n f = .ok v) (hsame : f.SameTrigger f') :
    TriggerOk tbinfo v ↔ AcceptedAfter tbexec tbinfo n f' := by
  obtain ⟨v', hv', hvv'⟩ := hsame.resolveTimes hres
  rw [hvv'.triggerOk]
  constructor
  · intro hok fs' f'' hfs' hf''
    obtain rfl := Except.ok.inj (hfs.symm.trans hfs')
    obtain rfl := Except.ok.inj (hv'.symm.trans hf'')
    exact hok
  · exact fun h => h fs v' hfs hv'

theorem calculateTriggerAddresses_get
    (h : calculateTriggerAddresses heap faultconfig tbexec tbinfo = .ok heap') :
    ∃ fs, buildFilters tbinfo = .ok fs ∧ ∀ r, resolveTimes (fs.map List.reverse) tbexec tbinfo
      ((faultconfig.flatMap FaultEntry.faultlist).count r) (heap.get r) = .ok (heap'.get r) := by
  have hne : tbinfo ≠ [] := by
    rintro rfl
    cases h
  obtain ⟨fs, hfs⟩ : ∃ fs, buildFilters tbinfo = .ok fs := by
    rw [calculateTriggerAddresses, if_neg (by simpa using hne)] at h
    obtain ⟨fs, hfs, -⟩ := bind_eq_ok.mp h
    exact ⟨fs, hfs⟩
  rw [calculateTriggerAddresses_eq hne hfs] at h
  exact ⟨fs, hfs, foldlM_resolveAt_get h⟩

namespace Expanded

variable {left new : List FaultEntry} {fs : List ConfigFault}

theorem mem_new (h : Expanded heap faultconfig tbexec tbinfo heap' left new fs) {e : FaultEntry}
    (he : e ∈ new) : ∃ k f, fs[k]? = some f ∧ e.faultlist = [heap.next + k] ∧ e.delete = false := by
  have hmem : (e.faultlist, e.delete) ∈ new.map fun e => (e.faultlist, e.delete) := List.mem_map_of_mem he
  rw [h.new] at hmem
  obtain ⟨r, hr, heq⟩ := List.mem_map.mp hmem
  obtain ⟨hlist, hdel⟩ := Prod.mk.inj heq
  obtain ⟨k, hk, rfl⟩ := List.mem_range'.mp hr
  exact ⟨k, fs[k], List.getElem?_eq_getElem hk, by rw [← hlist, Nat.one_mul], hdel.symm⟩

theorem exists_new (h : Expanded heap faultconfig tbexec tbinfo heap' left new fs) {k : ℕ}
    (hk : k < fs.length) : ∃ e ∈ new, e.faultlist = [heap.next + k] := by
  have hmem : ([heap.next + k], false) ∈ new.map fun e => (e.faultlist, e.delete) := by
    rw [h.new]
    exact List.mem_map.mpr ⟨_, List.mem_range'.mpr ⟨k, hk, by rw [Nat.one_mul]⟩, rfl⟩
  obtain ⟨e, he, heq⟩ := List.mem_map.mp hmem
  exact ⟨e, he, (Prod.mk.inj heq).1⟩

theorem refs_new (h : Expanded heap faultconfig tbexec tbinfo heap' left new fs) :
    new.flatMap FaultEntry.faultlist = List.range' heap.next fs.length := by
  have hmap := congrArg (List.flatMap Prod.fst) h.new
  rw [List.flatMap_map, List.flatMap_map] at hmap
  exact hmap.trans (List.flatMap_singleton' _)

/-- The width masks keep the new experiments, and of the others what they keep of the list. -/
theorem filter_unmatched (h : Expanded heap faultconfig tbexec tbinfo heap' left new fs)
    (halloc : Allocated heap faultconfig) :
    List.Forall₂ (Stripped heap) (keptExperiments heap faultconfig tbexec tbinfo)
      (left.filter fun e => (unmatchedFaults heap' tbexec tbinfo e).isEmpty) ∧
    (new.filter fun e => (unmatchedFaults heap' tbexec tbinfo e).isEmpty) = new := by
  constructor
  · have hleft := h.left
    have hold := h.get_old
    clear h
    rw [keptExperiments]
    induction hleft with
    | nil => exact .nil
    | @cons e e' es es' hee' hes ih =>
      have hkeep : (unmatchedFaults heap' tbexec tbinfo e').isEmpty
          = (plainFaults heap e).all fun r => !maskUnmatched tbexec tbinfo (heap.get r) := by
        rw [Bool.eq_iff_iff, List.isEmpty_iff, unmatchedFaults, hee'.faultlist, List.filter_eq_nil_iff,
          List.all_eq_true]
        refine forall₂_congr fun r hr => ?_
        rw [hold r (halloc e List.mem_cons_self r (List.mem_filter.mp hr).1)]
        simp
      have hrest := ih fun e he => halloc e (List.mem_cons_of_mem _ he)
      rw [List.filter_cons, List.filter_cons, hkeep]
      split
      · exact .cons hee' hrest
      · exact hrest
  · refine List.filter_eq_self.mpr fun e he => ?_
    obtain ⟨k, f, hk, hlist, -⟩ := h.mem_new he
    obtain ⟨m, hm⟩ := ((h.generated f).mp (List.mem_of_getElem? hk)).mask
    have hint : maskUnmatched tbexec tbinfo (heap'.get (heap.next + k)) = false := by
      rw [h.get_new k f hk]
      exact maskUnmatched_int hm
    rw [List.isEmpty_iff, unmatchedFaults, hlist, List.filter_cons_of_neg (by simp [hint]), List.filter_nil]

end Expanded

theorem flatMap_stripped {es es' : List FaultEntry} (h : List.Forall₂ (Stripped heap) es es') :
    es'.flatMap FaultEntry.faultlist = es.flatMap (plainFaults heap) := by
  induction h with
  | nil => rfl
  | cons hee' _ ih => rw [List.flatMap_cons, List.flatMap_cons, hee'.faultlist, ih]

theorem forall_stripped {es es' : List FaultEntry} {P P' : FaultEntry → Prop}
    (h : List.Forall₂ (Stripped heap) es es') (hP : ∀ e e', Stripped heap e e' → (P' e' ↔ P e)) :
    (∀ e ∈ es', P' e) ↔ ∀ e ∈ es, P e := by
  induction h with
  | nil => exact iff_of_true (fun _ he => absurd he List.not_mem_nil) fun _ he => absurd he List.not_mem_nil
  | cons hee' _ ih => rw [List.forall_mem_cons, List.forall_mem_cons, hP _ _ hee', ih]

/-! The reference of a new fault occurs once among the new ones and not among the old. -/

theorem count_range'_of_lt {next len r : ℕ} (hr : r < next) : (List.range' next len).count r = 0 :=
  List.count_eq_zero.mpr fun hmem => by
    obtain ⟨k, -, rfl⟩ := List.mem_range'.mp hmem
    omega

theorem count_range'_add {next len k : ℕ} (hk : k < len) :
    (List.range' next len).count (next + k) = 1 :=
  List.count_eq_one_of_mem (List.nodup_range' ..) (List.mem_range'.mpr ⟨k, hk, by rw [Nat.one_mul]⟩)

theorem count_keptExperiments_new (halloc : Allocated heap faultconfig) (k : ℕ) :
    ((keptExperiments heap faultconfig tbexec tbinfo).flatMap (plainFaults heap)).count
      (heap.next + k) = 0 := by
  refine List.count_eq_zero.mpr fun hmem => ?_
  obtain ⟨e, he, hr⟩ := List.mem_flatMap.mp hmem
  have := halloc e (List.mem_filter.mp he).1 _ (List.mem_filter.mp hr).1
  omega

/-- The returned list is the filtered one iff nothing is filtered. -/
theorem runGoldenrun_filtered_iff {g : GoldenrunFaults} (halloc : Allocated heap faultconfig)
    (h : runGoldenrun heap faultconfig tbexec tbinfo = .ok g) :
    g.Filtered ↔ NothingToFilter heap faultconfig tbexec tbinfo := by
  obtain ⟨⟨heap₁, fc₁⟩, hwild, h⟩ := bind_eq_ok.mp h
  obtain ⟨⟨heap₂, fc₂⟩, hmask, h⟩ := bind_eq_ok.mp h
  obtain ⟨heap₃, htrig, h⟩ := bind_eq_ok.mp h
  obtain ⟨checked, hcheck, h⟩ := bind_eq_ok.mp h
  obtain rfl := Except.ok.inj h
  rw [filtered_iff hcheck]
  obtain ⟨left, new, fs, rfl, hexp⟩ := processWildcardFaults_ok hwild
  obtain ⟨hmasked, rfl⟩ := processSingleFaults_ok hmask
  obtain ⟨filters, hfilters, hres⟩ := calculateTriggerAddresses_get htrig
  obtain ⟨hkept, hnew⟩ := hexp.filter_unmatched halloc
  rw [List.filter_append, hnew] at hres ⊢
  rw [List.flatMap_append, hexp.refs_new, flatMap_stripped hkept] at hres
  -- the old faults, visited once for each experiment that is left
  have hold : ∀ e ∈ keptExperiments heap faultconfig tbexec tbinfo, ∀ r ∈ plainFaults heap e,
      TriggerOk tbinfo (heap₃.get r) ↔
        AcceptedAfter tbexec tbinfo (visits heap faultconfig tbexec tbinfo r) (heap.get r) := by
    intro e he r hr
    have hlt : r < heap.next := halloc e (List.mem_filter.mp he).1 r (List.mem_filter.mp hr).1
    have hr' := hres r
    rw [List.count_append, count_range'_of_lt hlt, Nat.add_zero] at hr'
    refine acceptedAfter_iff hfilters hr' ?_
    have hsame := hmasked.same r
    rwa [hexp.get_old r hlt] at hsame
  -- the new faults, visited once
  have hfresh : ∀ k f, fs[k]? = some f →
      (TriggerOk tbinfo (heap₃.get (heap.next + k)) ↔ AcceptedAfter tbexec tbinfo 1 f) := by
    intro k f hk
    have hlt := (List.getElem?_eq_some_iff.mp hk).1
    have hr' := hres (heap.next + k)
    rw [List.count_append, count_keptExperiments_new halloc, count_range'_add hlt, Nat.zero_add] at hr'
    refine acceptedAfter_iff hfilters hr' ?_
    have hsame := hmasked.same (heap.next + k)
    rwa [hexp.get_new k f hk] at hsame
  rw [List.forall_mem_append]
  have hleft : (∀ e ∈ left.filter fun e => (unmatchedFaults heap₁ tbexec tbinfo e).isEmpty,
      (e.delete = false ∧ e.faultlist ≠ []) ∧ ∀ r ∈ e.faultlist, TriggerOk tbinfo (heap₃.get r)) ↔
      ∀ e ∈ keptExperiments heap faultconfig tbexec tbinfo, (e.delete = false ∧ plainFaults heap e ≠ []) ∧
        ∀ r ∈ plainFaults heap e, TriggerOk tbinfo (heap₃.get r) := by
    refine forall_stripped hkept fun e e' hee' => ?_
    rw [hee'.live, hee'.faultlist]
  have hnew' : (∀ e ∈ new, (e.delete = false ∧ e.faultlist ≠ []) ∧
      ∀ r ∈ e.faultlist, TriggerOk tbinfo (heap₃.get r)) ↔
      ∀ f, Generated heap faultconfig tbexec tbinfo f → AcceptedAfter tbexec tbinfo 1 f := by
    constructor
    · intro hall f hf
      obtain ⟨k, hk⟩ := List.mem_iff_getElem?.mp ((hexp.generated f).mpr hf)
      obtain ⟨e, he, hlist⟩ := hexp.exists_new (List.getElem?_eq_some_iff.mp hk).1
      exact (hfresh k f hk).mp ((hall e he).2 _ (hlist ▸ List.mem_singleton_self _))
    · intro hall e he
      obtain ⟨k, f, hk, hlist, hdel⟩ := hexp.mem_new he
      rw [hlist, List.forall_mem_singleton]
      exact ⟨⟨hdel, List.cons_ne_nil _ _⟩,
        (hfresh k f hk).mpr (hall f ((hexp.generated f).mp (List.mem_of_getElem? hk)))⟩
  rw [hleft, hnew']
  constructor
  · rintro ⟨hall, hgen⟩
    exact ⟨fun e he => (hall e he).1, fun e he r hr => (hold e he r hr).mp ((hall e he).2 r hr), hgen⟩
  · rintro ⟨hlive, hplain, hgen⟩
    exact ⟨fun e he => ⟨hlive e he, fun r hr => (hold e he r hr).mpr (hplain e he r hr)⟩, hgen⟩

end

/-! ### One plain fault -/

def twoInsns : List TbInfo := [⟨0x100, 4, 2, 1, "[ 100 ]: mov r0, r1 \n[ 102 ]: bx lr \n".toList⟩]

/-- A fault on the first instruction. -/
def plainFault (trigger : Int) : ConfigFault := ⟨⟨trigger, 1⟩, .int 0x100, [], 1, 2, 0, .int 1, 0, false⟩

def plainHeap (trigger : Int) : Heap ConfigFault := ⟨fun _ => plainFault trigger, 1⟩

theorem plainHeap_allocated (trigger : Int) : Allocated (plainHeap trigger) [⟨0, [0], false⟩] := by
  intro e he r hr
  rw [List.mem_singleton.mp he] at hr
  rw [List.mem_singleton.mp hr]
  exact Nat.one_pos

theorem runGoldenrun_executed : ∃ g,
    runGoldenrun (plainHeap 0x102) [⟨0, [0], false⟩] [⟨0x100, 0⟩] twoInsns = .ok g ∧
      (g.Filtered ↔ NothingToFilter (plainHeap 0x102) [⟨0, [0], false⟩] [⟨0x100, 0⟩] twoInsns) :=
  ⟨_, rfl, runGoldenrun_filtered_iff (plainHeap_allocated _) rfl⟩

/-- The trigger `0x500` is not executed: the experiment is marked and stays in the list. -/
theorem runGoldenrun_keeps_rejected : ¬∀ heap faultconfig tbexec tbinfo g, Allocated heap faultconfig →
    runGoldenrun heap faultconfig tbexec tbinfo = .ok g → g.Filtered := by
  intro h
  have hdel := (h (plainHeap 0x500) [⟨0, [0], false⟩] [⟨0x100, 0⟩] twoInsns _ (plainHeap_allocated _)
    rfl).notDeleted
  exact Bool.noConfusion (hdel _ List.mem_cons_self)

end Archie.Campaign
