import Archie.Campaign.GoldenRunFilter
import Archie.Campaign.TriggerCorrect

/-! `process_single_faults` of goldenrun.py: a mask by width becomes the mask for the instruction that
    the golden run executed.

        fault address      width has an entry     fault            experiment
        executed           yes                    mask, width      stays
        executed           no                     unchanged        removed, once for each such fault
        not executed       -                      unchanged        stays

    Removing an experiment that is gone already raises. -/

namespace Archie.Campaign
open Python

/-! ### Widths -/

/-- The instruction at `ins` is `w` bytes wide. -/
structure TbInfo.Width (t : TbInfo) (ins w : ℕ) : Prop where
  mem : ins ∈ t.insns
  pos : 0 < w
  next : ins + w ∈ t.insns ∨ ins + w = t.id + t.size
  least : ∀ b ∈ t.insns, ins < b → ins + w ≤ b

/-- The widths of the instructions at the given addresses, the last one ends at `stop`. -/
def widths (stop : Int) : List Int → List Int
  | [] => []
  | [a] => [stop - a]
  | a :: b :: as => (b - a) :: widths stop (b :: as)

theorem widths_eq : ∀ (a : Int) (as : List Int) (total : Int),
    (a :: as).zipWith (fun a b => b - a) as ++
      [total - ((a :: as).zipWith (fun a b => b - a) as).sum] = widths (a + total) (a :: as)
  | a, [], total => by simp [widths]
  | a, b :: as, total => by
    have ih := widths_eq b as (total - (b - a))
    have hstop : b + (total - (b - a)) = a + total := by ring
    rw [hstop] at ih
    rw [widths, ← ih, List.zipWith_cons_cons, List.sum_cons, List.cons_append, sub_sub]

theorem getElem?_widths (stop : Int) : ∀ (l : List Int) (i : ℕ) {a : Int}, l[i]? = some a →
    (widths stop l)[i]? = some (l[i + 1]?.getD stop - a)
  | [], _, _, h => by simp at h
  | [a], 0, _, h => by
    obtain rfl := Option.some.inj h
    simp [widths]
  | [_], i + 1, _, h => by simp at h
  | a :: b :: as, 0, _, h => by
    obtain rfl := Option.some.inj h
    simp [widths]
  | a :: b :: as, i + 1, _, h => by
    rw [widths, List.getElem?_cons_succ, getElem?_widths stop (b :: as) i (by simpa using h)]
    rfl

/-- Instruction `i` of a TB has the width that the differences give it. -/
theorem TbInfo.WellFormed.width {t : TbInfo} (h : t.WellFormed) {i ins : ℕ} (hi : t.insns[i]? = some ins) :
    ∃ w : ℕ, (tbInfoSize t.insns t.size)[i]? = some (w : Int) ∧ t.Width ins w := by
  have hsize : tbInfoSize t.insns t.size = widths ((t.id + t.size : ℕ) : Int) (t.insns.map Int.ofNat) := by
    cases hins : t.insns with
    | nil => exact absurd hins h.insns_ne_nil
    | cons a as =>
      obtain rfl : a = t.id := by simpa [hins] using h.head
      have heq := widths_eq (t.id : Int) (as.map Int.ofNat) t.size
      rw [List.map_cons, Nat.cast_add]
      refine Eq.trans ?_ heq
      simp only [tbInfoSize, bind_pure_comp, List.map_eq_map, List.map_cons, List.tail_cons]
      rfl
  have hmap : (t.insns.map Int.ofNat)[i]? = some (ins : Int) := by rw [List.getElem?_map, hi]; rfl
  obtain ⟨hlt, hget⟩ := List.getElem?_eq_some_iff.mp hi
  have hasc := List.pairwise_iff_getElem.mp h.ascending
  rw [hsize, getElem?_widths _ _ _ hmap, List.getElem?_map]
  rcases hnext : t.insns[i + 1]? with _ | b
  · -- the last instruction
    have hmem := List.mem_of_getElem? hi
    have hin := h.inside ins hmem
    have hlen : t.insns.length ≤ i + 1 := List.getElem?_eq_none_iff.mp hnext
    refine ⟨t.id + t.size - ins, ?_, hmem, by omega, .inr (by omega), fun b hb hlt' => ?_⟩
    · rw [Option.map_none, Option.getD_none, Nat.cast_sub (le_of_lt hin)]
    · obtain ⟨j, hj, rfl⟩ := List.mem_iff_getElem.mp hb
      rcases Nat.lt_or_ge j i with hji | hij
      · have := hasc j i hj hlt hji
        omega
      · obtain rfl : i = j := by omega
        omega
  · obtain ⟨hlt₁, rfl⟩ := List.getElem?_eq_some_iff.mp hnext
    have hstep := hasc i (i + 1) hlt hlt₁ (Nat.lt_succ_self i)
    refine ⟨t.insns[i + 1] - ins, ?_, List.mem_of_getElem? hi, by omega, .inl ?_, fun b hb hlt' => ?_⟩
    · rw [Option.map_some, Option.getD_some, Nat.cast_sub (by omega)]
      rfl
    · rw [Nat.add_sub_cancel' (by omega)]
      exact List.getElem_mem hlt₁
    · obtain ⟨j, hj, rfl⟩ := List.mem_iff_getElem.mp hb
      rcases Nat.lt_or_ge i j with hij | hji
      · have hij : i + 1 ≤ j := hij
        rcases eq_or_lt_of_le hij with rfl | hij
        · omega
        · have := hasc (i + 1) j hlt₁ hj hij
          omega
      · rcases eq_or_lt_of_le hji with rfl | hji
        · omega
        · have := hasc j i hj hlt hji
          omega

namespace GoldenTrace

variable {g : GoldenTrace} {t u : TbInfo}

/-- An instruction has one width, in whatever TB it is executed. -/
theorem width_unique (ht : t ∈ g.tbinfo) (hu : u ∈ g.tbinfo) {ins w w' : ℕ} (h : t.Width ins w)
    (h' : u.Width ins w') : w = w' := by
  have hle : ∀ {t u : TbInfo} {w w' : ℕ}, t ∈ g.tbinfo → u ∈ g.tbinfo → t.Width ins w → u.Width ins w' →
      w' ≤ w := by
    intro t u w w' ht hu h h'
    have hend := g.sameEnd t ht u hu ins h.mem h'.mem
    have hstart := (g.wellFormed u hu).id_le h'.mem
    have hpos := h.pos
    rcases h.next with hmem | hstop
    · have hin := (g.wellFormed t ht).inside _ hmem
      have hmem' : ins + w ∈ u.insns := (mem_insns_iff ht hu hmem).mpr ⟨by omega, by omega⟩
      have := h'.least _ hmem' (by omega)
      omega
    · rcases h'.next with hmem' | hstop'
      · have := (g.wellFormed u hu).inside _ hmem'
        omega
      · omega
  exact le_antisymm (hle hu ht h' h) (hle ht hu h h')

/-- The golden run executed the instruction at the address, and it is `w` bytes wide. -/
def ExecutesWidth (g : GoldenTrace) (address : FaultAddress) (w : ℕ) : Prop :=
  ∃ ins : ℕ, address = .int ins ∧ ∃ e ∈ g.tbexec, ∃ t ∈ g.tbinfo, t.id = e.tb ∧ t.Width ins w

theorem executesWidth_unique {address : FaultAddress} {w w' : ℕ} (h : g.ExecutesWidth address w)
    (h' : g.ExecutesWidth address w') : w = w' := by
  obtain ⟨ins, rfl, e, -, t, ht, -, hw⟩ := h
  obtain ⟨ins', heq, e', -, u, hu, -, hw'⟩ := h'
  obtain rfl : ins = ins' := Int.ofNat.inj (FaultAddress.int.inj heq)
  exact width_unique ht hu hw hw'

/-- The search over the trace finds the width, or nothing if the instruction is not executed. -/
theorem executedWidth_cases (g : GoldenTrace) (address : FaultAddress) :
    (∃ w : ℕ, executedWidth address g.tbinfo g.tbexec = .ok (some (w : Int)) ∧ g.ExecutesWidth address w) ∨
      executedWidth address g.tbinfo g.tbexec = .ok none ∧ ∀ w, ¬g.ExecutesWidth address w := by
  suffices hall : ∀ es : List TbExec, (∀ e ∈ es, e ∈ g.tbexec) →
      (∃ w : ℕ, executedWidth address g.tbinfo es = .ok (some (w : Int)) ∧
        ∃ ins : ℕ, address = .int ins ∧ ∃ e ∈ es, ∃ t ∈ g.tbinfo, t.id = e.tb ∧ t.Width ins w) ∨
      executedWidth address g.tbinfo es = .ok none ∧
        ∀ w, ¬∃ ins : ℕ, address = .int ins ∧ ∃ e ∈ es, ∃ t ∈ g.tbinfo, t.id = e.tb ∧ t.Width ins w from
    hall g.tbexec fun _ he => he
  intro es
  induction es with
  | nil => exact fun _ => .inr ⟨rfl, fun w ⟨_, _, _, he, _⟩ => absurd he List.not_mem_nil⟩
  | cons e es ih =>
    intro hmem
    obtain ⟨he, hes⟩ := List.forall_mem_cons.mp hmem
    obtain ⟨t, ht, hid, -⟩ := exists_row he
    have hrow : tbIndexed e.tb g.tbinfo = .ok t := by
      rw [tbIndexed, hid, Keyed.find?_key g.idsNodup ht]
    rw [executedWidth]
    simp only [List.map_eq_map, bind_pure_comp, List.findIdx?_map]
    simp only [hrow, (g.wellFormed t ht).parses, bind, Except.bind]
    rcases hidx : t.insns.findIdx? ((fun a => decide (FaultAddress.int a = address)) ∘ Nat.cast) with _ | i
    · -- the instruction is not in this TB
      have hno : ∀ ins w : ℕ, address = .int ins → ¬t.Width ins w := by
        rintro ins w rfl hw
        have := List.findIdx?_eq_none_iff.mp hidx ins hw.mem
        simp at this
      rcases ih hes with ⟨w, hw, ins, haddr, e', he', hex⟩ | ⟨hnone, hrest⟩
      · exact .inl ⟨w, hw, ins, haddr, e', List.mem_cons_of_mem _ he', hex⟩
      · refine .inr ⟨hnone, fun w => ?_⟩
        rintro ⟨ins, haddr, e', he', u, hu, hid', hw⟩
        rcases List.mem_cons.mp he' with rfl | he'
        · obtain rfl := Keyed.eq_of_key g.idsNodup hu ht (hid'.trans hid)
          exact hno ins w haddr hw
        · exact hrest w ⟨ins, haddr, e', he', u, hu, hid', hw⟩
    · obtain ⟨hlt, hat, -⟩ := List.findIdx?_eq_some_iff_getElem.mp hidx
      have haddr : FaultAddress.int t.insns[i] = address := of_decide_eq_true hat
      obtain ⟨w, hget, hw⟩ := (g.wellFormed t ht).width (List.getElem?_eq_getElem hlt)
      refine .inl ⟨w, ?_, t.insns[i], haddr.symm, e, List.mem_cons_self, t, ht, hid.symm, hw⟩
      exact congrArg (some <$> ·) (getItem_natCast hget)

end GoldenTrace

/-! ### The pass -/

section Pass

variable {g : GoldenTrace} {heap heap' : Heap ConfigFault} {faultconfig kept : List FaultEntry}
  {f f' : ConfigFault}

/-- The fault with the mask for the width that the golden run executed. -/
def applyMask (tbexec : List TbExec) (tbinfo : List TbInfo) (f : ConfigFault) : ConfigFault :=
  match f.mask, executedWidth f.address tbinfo tbexec with
  | .dict masks, .ok (some width) => match masks.lookup (strInt width) with
    | some m => { f with mask := FaultMask.int m, numBytes := width.toNat }
    | none => f
  | _, _ => f

/-- The heap after visits to some faults. -/
def maskAll (tbexec : List TbExec) (tbinfo : List TbInfo) (heap : Heap ConfigFault) (refs : List ℕ) :
    Heap ConfigFault :=
  refs.foldl (fun heap r => heap.set r (applyMask tbexec tbinfo (heap.get r))) heap

/-- A second visit finds nothing to do. -/
theorem applyMask_applyMask (tbexec : List TbExec) (tbinfo : List TbInfo) (f : ConfigFault) :
    applyMask tbexec tbinfo (applyMask tbexec tbinfo f) = applyMask tbexec tbinfo f := by
  have hint : ∀ {f : ConfigFault} {m : ℕ}, f.mask = .int m → applyMask tbexec tbinfo f = f := by
    intro f m hm
    rw [applyMask, hm]
  rcases hm : f.mask with m | masks
  · rw [hint hm, hint hm]
  · rcases hwidth : executedWidth f.address tbinfo tbexec with _ | _ | width
    · simp only [applyMask, hm, hwidth]
    · simp only [applyMask, hm, hwidth]
    · rcases hlookup : masks.lookup (strInt width) with _ | m
      · simp only [applyMask, hm, hwidth, hlookup]
      · have heq : applyMask tbexec tbinfo f = { f with mask := .int m, numBytes := width.toNat } := by
          simp only [applyMask, hm, hwidth, hlookup]
        rw [heq]
        exact hint rfl

theorem get_maskAll (tbexec : List TbExec) (tbinfo : List TbInfo) (heap : Heap ConfigFault) (refs : List ℕ)
    (r : ℕ) : (maskAll tbexec tbinfo heap refs).get r
      = if r ∈ refs then applyMask tbexec tbinfo (heap.get r) else heap.get r := by
  induction refs generalizing heap with
  | nil => rfl
  | cons s refs ih =>
    rw [maskAll, List.foldl_cons, ← maskAll, ih, Heap.get_set]
    by_cases hs : r = s
    · simp [hs, applyMask_applyMask]
    · simp [hs]

/-- A visit raises only if there is a width to look up and no trace. -/
theorem processSingleFault_eq {r : ℕ} (h : g.tbexec = [] → ∃ m, (heap.get r).mask = .int m) :
    ∃ unmatched, processSingleFault g.tbexec g.tbinfo heap r
      = .ok (maskAll g.tbexec g.tbinfo heap [r], unmatched) := by
  have hself : heap.set r (heap.get r) = heap := by rw [Heap.set, Function.update_eq_self]
  rw [processSingleFault]
  rcases hm : (heap.get r).mask with m | masks
  · refine ⟨false, ?_⟩
    have happly : applyMask g.tbexec g.tbinfo (heap.get r) = heap.get r := by rw [applyMask, hm]
    rw [maskAll, List.foldl_cons, List.foldl_nil, happly, hself]
  · have hexec : g.tbexec ≠ [] := by
      intro hnil
      obtain ⟨m, hint⟩ := h hnil
      rw [hm] at hint
      cases hint
    have hinfo : g.tbinfo ≠ [] := by
      obtain ⟨e, he⟩ := List.exists_mem_of_ne_nil _ hexec
      obtain ⟨t, ht, -⟩ := g.executed e he
      exact List.ne_nil_of_mem ht
    have hfull : ¬(g.tbinfo.isEmpty = true ∨ g.tbexec.isEmpty = true) := by
      simp [hexec, hinfo]
    simp only [if_neg hfull, maskAll, List.foldl_cons, List.foldl_nil]
    rcases g.executedWidth_cases (heap.get r).address with ⟨w, hw, -⟩ | ⟨hw, -⟩
    · rcases hlookup : masks.lookup (strInt (w : Int)) with _ | m
      · refine ⟨true, ?_⟩
        simp only [applyMask, hm, hw, hlookup, hself, bind, Except.bind]
        rfl
      · refine ⟨false, ?_⟩
        simp only [applyMask, hm, hw, hlookup, bind, Except.bind]
        rfl
    · refine ⟨false, ?_⟩
      simp only [applyMask, hm, hw, hself, bind, Except.bind]
      rfl

/-- All masks are numbers. -/
def IntMasks (heap : Heap ConfigFault) (refs : List ℕ) : Prop :=
  ∀ r ∈ refs, ∃ m, (heap.get r).mask = .int m

theorem IntMasks.maskAll {refs : List ℕ} (h : IntMasks heap refs) (tbexec : List TbExec)
    (tbinfo : List TbInfo)
    (visited : List ℕ) : IntMasks (maskAll tbexec tbinfo heap visited) refs := by
  intro r hr
  obtain ⟨m, hm⟩ := h r hr
  rw [get_maskAll]
  split
  · exact ⟨m, by rw [applyMask, hm]; exact hm⟩
  · exact ⟨m, hm⟩

theorem maskAll_append (tbexec : List TbExec) (tbinfo : List TbInfo) (heap : Heap ConfigFault)
    (xs ys : List ℕ) :
    maskAll tbexec tbinfo heap (xs ++ ys) = maskAll tbexec tbinfo (maskAll tbexec tbinfo heap xs) ys :=
  List.foldl_append

theorem visitSingleFaults_eq (refs : List ℕ) (h : g.tbexec = [] → IntMasks heap refs) (e : FaultEntry)
    (removeList : List FaultEntry) : ∃ removeList',
    refs.foldlM (visitSingleFault g.tbexec g.tbinfo e) (heap, removeList)
      = .ok (maskAll g.tbexec g.tbinfo heap refs, removeList') := by
  induction refs generalizing heap removeList with
  | nil => exact ⟨removeList, rfl⟩
  | cons r refs ih =>
    obtain ⟨unmatched, hsingle⟩ := processSingleFault_eq fun hnil => h hnil r List.mem_cons_self
    have hrest : g.tbexec = [] → IntMasks (maskAll g.tbexec g.tbinfo heap [r]) refs := fun hnil =>
      IntMasks.maskAll (fun s hs => h hnil s (List.mem_cons_of_mem _ hs)) _ _ _
    obtain ⟨removeList', hih⟩ := ih hrest (if unmatched then removeList ++ [e] else removeList)
    refine ⟨removeList', ?_⟩
    rw [List.foldlM_cons, visitSingleFault, hsingle]
    exact hih

/-- The loop over the list. -/
theorem visitEntries_eq (h : g.tbexec = [] → IntMasks heap (faultconfig.flatMap FaultEntry.faultlist))
    (removeList : List FaultEntry) : ∃ removeList',
    faultconfig.foldlM (fun st e => e.faultlist.foldlM (visitSingleFault g.tbexec g.tbinfo e) st)
        (heap, removeList)
      = .ok (maskAll g.tbexec g.tbinfo heap (faultconfig.flatMap FaultEntry.faultlist), removeList') := by
  induction faultconfig generalizing heap removeList with
  | nil => exact ⟨removeList, rfl⟩
  | cons e es ih =>
    obtain ⟨removeList₁, hfirst⟩ := visitSingleFaults_eq e.faultlist
      (fun hnil r hr => h hnil r (List.mem_append_left _ hr)) e removeList
    have hrest : g.tbexec = [] →
        IntMasks (maskAll g.tbexec g.tbinfo heap e.faultlist) (es.flatMap FaultEntry.faultlist) := fun hnil =>
      IntMasks.maskAll (fun r hr => h hnil r (List.mem_append_right _ hr)) _ _ _
    obtain ⟨removeList', hih⟩ := ih hrest removeList₁
    refine ⟨removeList', ?_⟩
    rw [List.foldlM_cons, hfirst, List.flatMap_cons, maskAll_append]
    exact hih

theorem length_filter_le_one_iff {α : Type} {p : α → Bool} {l : List α} :
    (l.filter p).length ≤ 1 ↔ l.Pairwise fun x y => ¬(p x = true ∧ p y = true) := by
  induction l with
  | nil => simp
  | cons x l ih =>
    rw [List.pairwise_cons, ← ih]
    by_cases hx : p x = true
    · rw [List.filter_cons_of_pos hx, List.length_cons, Nat.succ_le_succ_iff, Nat.le_zero,
        List.length_eq_zero_iff, List.filter_eq_nil_iff]
      refine ⟨fun h => ⟨fun y hy hxy => h y hy hxy.2, ?_⟩, fun h y hy hpy => h.1 y hy ⟨hx, hpy⟩⟩
      rw [List.filter_eq_nil_iff.mpr h]
      exact Nat.zero_le 1
    · rw [List.filter_cons_of_neg hx]
      exact (and_iff_right fun y _ hxy => hx hxy.1).symm

/-- An experiment can be removed once: no experiment has two faults without a mask. -/
theorem removals_subperm_iff (tbexec : List TbExec) (tbinfo : List TbInfo) :
    (faultconfig.flatMap fun e => (unmatchedFaults heap tbexec tbinfo e).map fun _ => e).Subperm faultconfig ↔
      ∀ e ∈ faultconfig, (unmatchedFaults heap tbexec tbinfo e).length ≤ 1 := by
  have hcount : ∀ (es : List FaultEntry) (x : FaultEntry),
      (es.flatMap fun e => (unmatchedFaults heap tbexec tbinfo e).map fun _ => e).count x
        = es.count x * (unmatchedFaults heap tbexec tbinfo x).length := by
    intro es x
    induction es with
    | nil => simp
    | cons e es ih =>
      rw [List.flatMap_cons, List.count_append, ih, List.map_const']
      rcases eq_or_ne e x with rfl | hne
      · rw [List.count_replicate_self, List.count_cons_self]
        ring
      · rw [List.count_replicate, if_neg (by simpa using hne), List.count_cons_of_ne hne, Nat.zero_add]
  rw [List.subperm_ext_iff]
  simp only [hcount]
  constructor
  · intro h e he
    by_contra hmany
    have hmem : e ∈ faultconfig.flatMap fun e => (unmatchedFaults heap tbexec tbinfo e).map fun _ => e := by
      obtain ⟨r, hr⟩ := List.exists_mem_of_length_pos (l := unmatchedFaults heap tbexec tbinfo e) (by omega)
      exact List.mem_flatMap.mpr ⟨e, he, List.mem_map.mpr ⟨r, hr, rfl⟩⟩
    have hpos := List.count_pos_iff.mpr he
    have := h e hmem
    nlinarith
  · intro h x hx
    obtain ⟨e, he, hx⟩ := List.mem_flatMap.mp hx
    obtain ⟨r, -, rfl⟩ := List.mem_map.mp hx
    simpa using Nat.mul_le_mul_left (faultconfig.count e) (h e he)

/-! ### When the masks are right -/

/-- The instruction is executed, but there is no mask for its width. -/
def Unmatched (g : GoldenTrace) (f : ConfigFault) : Prop :=
  ∃ masks w, f.mask = .dict masks ∧ g.ExecutesWidth f.address w ∧ masks.lookup (strInt (w : ℕ)) = none

/-- There are masks by width for an instruction that is not executed. -/
def Unexecuted (g : GoldenTrace) (f : ConfigFault) : Prop :=
  (∃ masks, f.mask = .dict masks) ∧ ∀ w, ¬g.ExecutesWidth f.address w

/-- The fault as it is to be after the pass. -/
def Resolved (g : GoldenTrace) (f f' : ConfigFault) : Prop :=
  (∃ m, f.mask = .int m ∧ f' = f) ∨ ∃ masks w m, f.mask = .dict masks ∧ g.ExecutesWidth f.address w ∧
    masks.lookup (strInt (w : ℕ)) = some m ∧ f' = { f with mask := FaultMask.int m, numBytes := w }

open Classical in
/-- The experiments that stay are those whose faults have masks, and these are resolved. -/
structure MasksResolved (g : GoldenTrace) (heap : Heap ConfigFault) (faultconfig : List FaultEntry)
    (heap' : Heap ConfigFault) (left : List FaultEntry) : Prop where
  kept : left = faultconfig.filter fun e =>
    decide (∀ r ∈ e.faultlist, ¬Unmatched g (heap.get r) ∧ ¬Unexecuted g (heap.get r))
  resolved : ∀ e ∈ left, ∀ r ∈ e.faultlist, Resolved g (heap.get r) (heap'.get r)

theorem maskUnmatched_iff : maskUnmatched g.tbexec g.tbinfo f = true ↔ Unmatched g f := by
  rcases hm : f.mask with m | masks
  · simp [maskUnmatched_int hm, Unmatched, hm]
  · rcases g.executedWidth_cases f.address with ⟨w, hw, hexec⟩ | ⟨hw, hno⟩
    · rw [maskUnmatched_dict hm hw, Option.isNone_iff_eq_none]
      constructor
      · exact fun hlookup => ⟨masks, w, hm, hexec, hlookup⟩
      · rintro ⟨masks', w', hm', hexec', hlookup⟩
        obtain rfl := FaultMask.dict.inj (hm.symm.trans hm')
        obtain rfl := GoldenTrace.executesWidth_unique hexec hexec'
        exact hlookup
    · rw [maskUnmatched_absent hw]
      exact iff_of_false Bool.false_ne_true fun ⟨_, w, _, hexec, _⟩ => hno w hexec

/-- A fault with a mask gets it. -/
theorem resolved_applyMask (hmatched : ¬Unmatched g f) (hexecuted : ¬Unexecuted g f) :
    Resolved g f (applyMask g.tbexec g.tbinfo f) := by
  rcases hm : f.mask with m | masks
  · exact .inl ⟨m, hm, by rw [applyMask, hm]⟩
  · rcases g.executedWidth_cases f.address with ⟨w, hw, hexec⟩ | ⟨-, hno⟩
    · rcases hlookup : masks.lookup (strInt (w : ℕ)) with _ | m
      · exact absurd ⟨masks, w, hm, hexec, hlookup⟩ hmatched
      · refine .inr ⟨masks, w, m, hm, hexec, hlookup, ?_⟩
        simp only [applyMask, hm, hw, hlookup, Int.toNat_natCast]
    · exact absurd ⟨⟨masks, hm⟩, hno⟩ hexecuted

theorem unmatchedFaults_isEmpty_iff (e : FaultEntry) :
    (unmatchedFaults heap g.tbexec g.tbinfo e).isEmpty = true ↔
      ∀ r ∈ e.faultlist, ¬Unmatched g (heap.get r) := by
  rw [unmatchedFaults, List.isEmpty_iff, List.filter_eq_nil_iff]
  simp only [maskUnmatched_iff]

theorem length_unmatchedFaults_iff (e : FaultEntry) :
    (unmatchedFaults heap g.tbexec g.tbinfo e).length ≤ 1 ↔
      e.faultlist.Pairwise fun r s => ¬(Unmatched g (heap.get r) ∧ Unmatched g (heap.get s)) := by
  rw [unmatchedFaults, length_filter_le_one_iff]
  simp only [maskUnmatched_iff]

/-- A pass that ends has removed each experiment at most once. -/
theorem length_unmatchedFaults_of_ok {heap' : Heap ConfigFault} {left : List FaultEntry}
    (hrun : processSingleFaults heap faultconfig g.tbexec g.tbinfo = .ok (heap', left)) :
    ∀ e ∈ faultconfig, (unmatchedFaults heap g.tbexec g.tbinfo e).length ≤ 1 := by
  obtain ⟨⟨heap₁, removeList⟩, hfold, hrem⟩ := bind_eq_ok.mp hrun
  obtain ⟨rest, hrem, -⟩ := bind_eq_ok.mp hrem
  obtain ⟨-, rfl⟩ := visitEntries_ok .refl hfold
  exact (removals_subperm_iff g.tbexec g.tbinfo).mp ((foldlM_remove hrem).2)

/-- A pass that removes each experiment at most once ends. -/
theorem exists_processSingleFaults
    (hints : g.tbexec = [] → IntMasks heap (faultconfig.flatMap FaultEntry.faultlist))
    (hone : ∀ e ∈ faultconfig, (unmatchedFaults heap g.tbexec g.tbinfo e).length ≤ 1) :
    ∃ left, processSingleFaults heap faultconfig g.tbexec g.tbinfo
      = .ok (maskAll g.tbexec g.tbinfo heap (faultconfig.flatMap FaultEntry.faultlist), left) := by
  obtain ⟨removeList, hfold⟩ := visitEntries_eq hints []
  obtain ⟨-, hlist⟩ := visitEntries_ok .refl hfold
  obtain ⟨left, hrem⟩ := foldlM_remove_ok_iff.mpr ((removals_subperm_iff g.tbexec g.tbinfo).mpr hone)
  refine ⟨left, ?_⟩
  rw [processSingleFaults, hfold, hlist, List.nil_append]
  simp only [bind, Except.bind, hrem]
  rfl

/-- Without executed TBs every instruction is unexecuted, and no fault brings a mask that is missing. -/
theorem intMasks_of_noTb (hnil : g.tbexec = []) (h : ∀ e ∈ faultconfig,
    (∃ r ∈ e.faultlist, Unexecuted g (heap.get r)) → ∃ r ∈ e.faultlist, Unmatched g (heap.get r)) :
    IntMasks heap (faultconfig.flatMap FaultEntry.faultlist) := by
  intro r hr
  obtain ⟨e, he, hr⟩ := List.mem_flatMap.mp hr
  have hnone : ∀ {address w}, ¬g.ExecutesWidth address w := by
    rintro address w ⟨_, _, e, he, _⟩
    rw [hnil] at he
    exact absurd he List.not_mem_nil
  rcases hm : (heap.get r).mask with m | masks
  · exact ⟨m, rfl⟩
  · obtain ⟨s, -, -, w, -, hexec, -⟩ := h e he ⟨r, hr, ⟨masks, hm⟩, fun _ => hnone⟩
    exact absurd hexec hnone

open Classical in
/-- The pass resolves the masks iff no experiment has two faults without a mask for their width, and
    one with a fault on an instruction that is not executed has such a fault, too. -/
theorem processSingleFaults_resolves_iff (g : GoldenTrace) (heap : Heap ConfigFault)
    (faultconfig : List FaultEntry) :
    (∃ heap' kept, processSingleFaults heap faultconfig g.tbexec g.tbinfo = .ok (heap', kept) ∧
      MasksResolved g heap faultconfig heap' kept) ↔
    ∀ e ∈ faultconfig,
      (e.faultlist.Pairwise fun r s => ¬(Unmatched g (heap.get r) ∧ Unmatched g (heap.get s))) ∧
      ((∃ r ∈ e.faultlist, Unexecuted g (heap.get r)) → ∃ r ∈ e.faultlist, Unmatched g (heap.get r)) := by
  constructor
  · rintro ⟨heap', left, hrun, hkept, -⟩
    obtain ⟨-, hleft⟩ := processSingleFaults_ok hrun
    intro e he
    refine ⟨(length_unmatchedFaults_iff e).mp (length_unmatchedFaults_of_ok hrun e he), ?_⟩
    rintro ⟨r, hr, hunexec⟩
    -- the experiment stays, unless a fault without a mask removes it
    by_contra hno
    push Not at hno
    have hmem : e ∈ left := hleft ▸ List.mem_filter.mpr ⟨he, (unmatchedFaults_isEmpty_iff e).mpr hno⟩
    rw [hkept, List.mem_filter] at hmem
    exact (of_decide_eq_true hmem.2 r hr).2 hunexec
  · intro h
    obtain ⟨left, hrun⟩ := exists_processSingleFaults
      (fun hnil => intMasks_of_noTb hnil fun e he => (h e he).2)
      fun e he => (length_unmatchedFaults_iff e).mpr (h e he).1
    obtain ⟨-, hleft⟩ := processSingleFaults_ok hrun
    have hkept : ∀ e ∈ faultconfig, (unmatchedFaults heap g.tbexec g.tbinfo e).isEmpty = true ↔
        ∀ r ∈ e.faultlist, ¬Unmatched g (heap.get r) ∧ ¬Unexecuted g (heap.get r) := by
      intro e he
      rw [unmatchedFaults_isEmpty_iff]
      refine ⟨fun hall r hr => ⟨hall r hr, fun hunexec => ?_⟩, fun hall r hr => (hall r hr).1⟩
      obtain ⟨s, hs, hunmatched⟩ := (h e he).2 ⟨r, hr, hunexec⟩
      exact hall s hs hunmatched
    refine ⟨_, left, hrun, ?_, fun e he r hr => ?_⟩
    · rw [hleft]
      exact List.filter_congr fun e he => Bool.eq_iff_iff.mpr ((hkept e he).trans decide_eq_true_iff.symm)
    · rw [hleft, List.mem_filter] at he
      obtain ⟨hmatched, hexecuted⟩ := (hkept e he.1).mp he.2 r hr
      rw [get_maskAll, if_pos (List.mem_flatMap.mpr ⟨e, he.1, hr⟩)]
      exact resolved_applyMask hmatched hexecuted

end Pass

/-- Masks by width for an instruction at `0x300`. -/
def dictHeap : Heap ConfigFault :=
  ⟨fun _ => ⟨⟨0x100, 1⟩, .int 0x300, [], 1, 3, 0, .dict [("4".toList, 1)], 0, false⟩, 1⟩

/-- No TB has the instruction: the experiment stays, with the dictionary as mask. -/
theorem processSingleFaults_leaves_dict : ¬∀ g heap faultconfig, ∃ heap' kept,
    processSingleFaults heap faultconfig (GoldenTrace.tbexec g) g.tbinfo = .ok (heap', kept) ∧
      MasksResolved g heap faultconfig heap' kept := by
  intro h
  obtain ⟨heap', kept, hrun, hmasks⟩ := h (subTbTrace 2 (by decide) le_rfl) dictHeap [⟨0, [0], false⟩]
  have hstays : processSingleFaults dictHeap [⟨0, [0], false⟩] (subTbTrace 2 (by decide) le_rfl).tbexec
      (subTbTrace 2 (by decide) le_rfl).tbinfo = .ok (dictHeap, [⟨0, [0], false⟩]) := rfl
  obtain ⟨rfl, rfl⟩ := Prod.mk.inj (Except.ok.inj (hrun.symm.trans hstays))
  rcases hmasks.resolved _ List.mem_cons_self 0 List.mem_cons_self with
    ⟨m, hm, -⟩ | ⟨-, w, -, -, ⟨ins, haddr, -, -, t, ht, -, hw⟩, -⟩
  · cases hm
  · obtain rfl : 0x300 = ins := Int.ofNat.inj (FaultAddress.int.inj haddr)
    have hmem := hw.mem
    rcases subTb_insns ht with ⟨-, -, hins, -⟩ | ⟨-, -, hins, -⟩ | ⟨-, -, hins, -⟩ <;>
    · rw [hins] at hmem
      exact absurd hmem (by decide)

end Archie.Campaign
