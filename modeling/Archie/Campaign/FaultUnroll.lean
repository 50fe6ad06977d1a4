import Archie.Campaign.FaultConfig

/-! The experiments of a fault configuration are the combinations of its ranges, in the order of the
    loops.

    One call appends what its dictionary creates, once for each combination of the calls above it.
    The address -1 is replaced in the variable of the outermost loop, and stays replaced. -/

namespace Archie.Campaign
open Python NestedLoops

/-! ### Ranges -/

/-- What one dictionary is read as. -/
structure DictRanges where
  kind : FaultKind
  addresses : List ParamValue
  lifespans : List ParamValue
  masks : List ParamValue
  triggerAddresses : List ParamValue
  triggerCounters : List ParamValue
  numBytes : List ParamValue
  deriving DecidableEq, Repr

def FaultDict.ranges (faultdev : FaultDict) : Result DictRanges := do
  let kind ← faultdev.kind
  let addresses ← buildRanges kind.wildcard faultdev.address
  let lifespans ← buildRanges false faultdev.faultLifespan
  let masks ← buildRanges false faultdev.faultMask
  let triggerAddresses ← buildRanges false faultdev.triggerAddress
  let triggerCounters ← buildRanges false faultdev.triggerCounter
  let numBytes ← buildRanges false (faultdev.numBytes.getD (.list [.int 0]))
  return ⟨kind, addresses, lifespans, masks, triggerAddresses, triggerCounters, numBytes⟩

/-- No check of the code rejects the dictionary. -/
structure FaultDict.Reads (faultdev : FaultDict) (r : DictRanges) : Prop where
  ranges : faultdev.ranges = .ok r
  takesMasks : ∀ m ∈ r.masks, ∀ n ∈ r.numBytes, r.kind.takesMask m n = true

namespace DictRanges

/-- The combinations of the five inner loops. -/
def inner (r : DictRanges) : List LoopValues :=
  r.lifespans.flatMap fun lifespan => r.masks.flatMap fun mask =>
    r.triggerAddresses.flatMap fun taddress => r.triggerCounters.flatMap fun tcounter =>
      r.numBytes.flatMap fun numBytes => [⟨lifespan, mask, taddress, tcounter, numBytes⟩]

/-- The elements of the cartesian product of the six ranges, each with its values in a fault. -/
def product (r : DictRanges) : List BuiltFault :=
  r.addresses.flatMap fun address => r.lifespans.flatMap fun lifespan => r.masks.flatMap fun mask =>
    r.triggerAddresses.flatMap fun triggerAddress =>
      r.triggerCounters.flatMap fun triggerHitcounter => r.numBytes.flatMap fun numBytes =>
        [{ address
           addressExclude := r.kind.addressExclude
           type := r.kind.type
           model := r.kind.model
           lifespan
           mask
           triggerAddress
           triggerHitcounter
           numBytes
           wildcard := r.kind.wildcard }]

/-- The addresses that are not excluded. -/
def kept (r : DictRanges) : List ParamValue := r.addresses.filter fun a => !r.kind.excludes a

/-- The faults of the inner loops, with the address as the loop has left it. -/
def carry (kind : FaultKind) : ParamValue → List LoopValues → List BuiltFault
  | _, [] => []
  | address, v :: vs =>
    kind.fault (replaceAddress address v.triggerAddress) v
      :: carry kind (replaceAddress address v.triggerAddress) vs

/-- The faults that one call creates. -/
def created (r : DictRanges) : List BuiltFault := r.kept.flatMap fun a => carry r.kind a r.inner

theorem mem_inner {r : DictRanges} {v : LoopValues} :
    v ∈ r.inner ↔ v.lifespan ∈ r.lifespans ∧ v.mask ∈ r.masks ∧ v.triggerAddress ∈ r.triggerAddresses ∧
      v.triggerCounter ∈ r.triggerCounters ∧ v.numBytes ∈ r.numBytes := by
  simp only [inner, List.mem_flatMap, List.mem_singleton]
  constructor
  · rintro ⟨lifespan, hl, mask, hm, taddress, ht, tcounter, hc, numBytes, hn, rfl⟩
    exact ⟨hl, hm, ht, hc, hn⟩
  · rintro ⟨hl, hm, ht, hc, hn⟩
    exact ⟨v.lifespan, hl, v.mask, hm, v.triggerAddress, ht, v.triggerCounter, hc, v.numBytes, hn, rfl⟩

theorem carry_eq_map (kind : FaultKind) {address : ParamValue} (ha : address ≠ .int (-1)) :
    ∀ vs, carry kind address vs = vs.map (kind.fault address)
  | [] => rfl
  | v :: vs => by
    have hkeep : replaceAddress address v.triggerAddress = address := if_neg ha
    rw [carry, hkeep, carry_eq_map kind ha vs, List.map_cons]

/-- The faults of the inner loops have the values of the loops. -/
theorem map_fault_inner (r : DictRanges) (address : ParamValue) : r.inner.map (r.kind.fault address) =
    r.lifespans.flatMap fun lifespan => r.masks.flatMap fun mask =>
      r.triggerAddresses.flatMap fun triggerAddress =>
        r.triggerCounters.flatMap fun triggerHitcounter => r.numBytes.flatMap fun numBytes =>
          [⟨address, r.kind.addressExclude, r.kind.type, r.kind.model, lifespan, mask, triggerAddress,
            triggerHitcounter, numBytes, r.kind.wildcard⟩] := by
  simp only [inner, List.map_flatMap, List.map_singleton, FaultKind.fault]

theorem created_eq_product {r : DictRanges} (hexclude : r.kind.addressExclude = [])
    (hminus : .int (-1) ∉ r.addresses) : r.created = r.product := by
  have hkept : r.kept = r.addresses := by simp [kept, FaultKind.excludes, hexclude]
  rw [created, hkept, product]
  refine List.flatMap_congr fun a ha => ?_
  rw [carry_eq_map r.kind (fun h => hminus (h ▸ ha)), map_fault_inner]

end DictRanges

theorem FaultDict.Reads.eqs {faultdev : FaultDict} {r : DictRanges} (h : faultdev.Reads r) :
    faultdev.kind = .ok r.kind ∧ buildRanges r.kind.wildcard faultdev.address = .ok r.addresses ∧
      buildRanges false faultdev.faultLifespan = .ok r.lifespans ∧
      buildRanges false faultdev.faultMask = .ok r.masks ∧
      buildRanges false faultdev.triggerAddress = .ok r.triggerAddresses ∧
      buildRanges false faultdev.triggerCounter = .ok r.triggerCounters ∧
      buildRanges false (faultdev.numBytes.getD (.list [.int 0])) = .ok r.numBytes := by
  have hranges := h.ranges
  rw [FaultDict.ranges] at hranges
  obtain ⟨kind, hkind, hranges⟩ := bind_eq_ok.mp hranges
  obtain ⟨addresses, haddresses, hranges⟩ := bind_eq_ok.mp hranges
  obtain ⟨lifespans, hlifespans, hranges⟩ := bind_eq_ok.mp hranges
  obtain ⟨masks, hmasks, hranges⟩ := bind_eq_ok.mp hranges
  obtain ⟨taddresses, htaddresses, hranges⟩ := bind_eq_ok.mp hranges
  obtain ⟨tcounters, htcounters, hranges⟩ := bind_eq_ok.mp hranges
  obtain ⟨numBytes, hnumBytes, hranges⟩ := bind_eq_ok.mp hranges
  obtain rfl := Except.ok.inj hranges
  exact ⟨hkind, haddresses, hlifespans, hmasks, htaddresses, htcounters, hnumBytes⟩

/-! ### The list to return -/

theorem appendAll_nil (lists : Heap Experiments) (r : ℕ) : appendAll lists r [] = lists := by
  rw [appendAll, List.append_nil, Heap.set, Function.update_eq_self]

theorem appendAll_appendAll (lists : Heap Experiments) (r : ℕ) (xs ys : Experiments) :
    appendAll (appendAll lists r xs) r ys = appendAll lists r (xs ++ ys) := by
  simp [appendAll, Heap.set]

/-- A call for each experiment so far appends to the list it is given, and returns it. -/
def Emits (emit : Emit) (ret : ℕ) (out : List BuiltFault → Experiments) : Prop :=
  ∀ intFaults lists, emit intFaults ret lists = .ok (ret, appendAll lists ret (out intFaults))

/-! ### The loops -/

section Loops

variable {emit : Emit} {ret : ℕ} {out : List BuiltFault → Experiments} {combinedFaults : List BuiltFault}
  {lists : Heap Experiments}

/-- A loop around loops is one loop over their combinations. -/
theorem forEach_eq {range : Result (List ParamValue)} {values : List ParamValue} {β : Type}
    {f : ParamValue → List β} {visit : β → LoopState → Result LoopState}
    {body : ParamValue → LoopState → Result LoopState} (hrange : range = .ok values)
    (hbody : ∀ x ∈ values, ∀ st, body x st = (f x).foldlM (fun st v => visit v st) st) (st : LoopState) :
    forEach range body st = (values.flatMap f).foldlM (fun st v => visit v st) st := by
  rw [foldlM_flatMap, forEach, hrange]
  exact foldlM_congr (fun st x hx => hbody x hx st) st

theorem visitAddress_eq {faultdev : FaultDict} {r : DictRanges} (h : faultdev.Reads r) (st : LoopState) :
    visitAddress faultdev r.kind combinedFaults emit st
      = r.inner.foldlM (fun st v => visitCombination r.kind combinedFaults emit v st) st := by
  obtain ⟨-, -, hlifespans, hmasks, htaddresses, htcounters, hnumBytes⟩ := h.eqs
  refine forEach_eq hlifespans (fun lifespan _ => ?_) st
  refine forEach_eq hmasks fun mask _ => ?_
  refine forEach_eq htaddresses fun taddress _ => ?_
  refine forEach_eq htcounters fun tcounter _ => ?_
  refine forEach_eq hnumBytes fun numBytes _ st => ?_
  exact (bind_pure _).symm

theorem takesMask_of_mem {faultdev : FaultDict} {r : DictRanges} (h : faultdev.Reads r) {v : LoopValues}
    (hv : v ∈ r.inner) : r.kind.takesMask v.mask v.numBytes = true := by
  obtain ⟨-, hmask, -, -, hnumBytes⟩ := DictRanges.mem_inner.mp hv
  exact h.takesMasks _ hmask _ hnumBytes

theorem visitCombination_ok (hemit : Emits emit ret out) {kind : FaultKind} {v : LoopValues}
    (hmask : kind.takesMask v.mask v.numBytes = true) (faddress : ParamValue) (lists : Heap Experiments) :
    visitCombination kind combinedFaults emit v ⟨faddress, ret, lists⟩ =
      .ok ⟨replaceAddress faddress v.triggerAddress, ret, appendAll lists ret
        (out (combinedFaults ++ [kind.fault (replaceAddress faddress v.triggerAddress) v]))⟩ := by
  simp only [visitCombination, if_pos hmask, hemit _ lists]
  rfl

/-- The inner loops append what each of their faults yields. -/
theorem foldlM_visitCombination (hemit : Emits emit ret out) {kind : FaultKind} {vs : List LoopValues}
    (hmask : ∀ v ∈ vs, kind.takesMask v.mask v.numBytes = true) (combinedFaults : List BuiltFault)
    (faddress : ParamValue) (lists : Heap Experiments) :
    ∃ faddress', vs.foldlM (fun st v => visitCombination kind combinedFaults emit v st)
        ⟨faddress, ret, lists⟩ =
      .ok ⟨faddress', ret, appendAll lists ret
        ((DictRanges.carry kind faddress vs).flatMap fun f => out (combinedFaults ++ [f]))⟩ := by
  induction vs generalizing faddress lists with
  | nil => exact ⟨faddress, by rw [DictRanges.carry, List.flatMap_nil, appendAll_nil]; rfl⟩
  | cons v vs ih =>
    obtain ⟨hv, hvs⟩ := List.forall_mem_cons.mp hmask
    obtain ⟨faddress', hrest⟩ := ih hvs (replaceAddress faddress v.triggerAddress) (appendAll lists ret
      (out (combinedFaults ++ [kind.fault (replaceAddress faddress v.triggerAddress) v])))
    refine ⟨faddress', ?_⟩
    rw [appendAll_appendAll] at hrest
    rw [List.foldlM_cons, visitCombination_ok hemit hv, DictRanges.carry, List.flatMap_cons]
    exact hrest

theorem unrollDict_eq {faultdev : FaultDict} {r : DictRanges} (h : faultdev.Reads r)
    (hemit : Emits emit ret out) (combinedFaults : List BuiltFault) (lists : Heap Experiments) :
    unrollDict faultdev combinedFaults emit ret lists =
      .ok (ret, appendAll lists ret (r.created.flatMap fun f => out (combinedFaults ++ [f]))) := by
  obtain ⟨hkind, haddresses, -⟩ := h.eqs
  rw [unrollDict, hkind]
  simp only [bind, Except.bind, haddresses]
  have hloop : ∀ (addresses : List ParamValue) (lists : Heap Experiments),
      addresses.foldlM (fun s faddress => if r.kind.excludes faddress then .ok s else do
          let st ← visitAddress faultdev r.kind combinedFaults emit ⟨faddress, s.1, s.2⟩
          return (st.retIntFaults, st.lists)) (ret, lists) =
        (.ok (ret, appendAll lists ret (((addresses.filter fun a => !r.kind.excludes a).flatMap fun a =>
          DictRanges.carry r.kind a r.inner).flatMap fun f => out (combinedFaults ++ [f]))) :
            Result (ℕ × Heap Experiments)) := by
    intro addresses
    induction addresses with
    | nil => intro lists; rw [List.filter_nil, List.flatMap_nil, List.flatMap_nil, appendAll_nil]; rfl
    | cons a addresses ih =>
      intro lists
      rw [List.foldlM_cons]
      cases hex : r.kind.excludes a with
      | true =>
        rw [List.filter_cons_of_neg (by simp [hex])]
        exact ih lists
      | false =>
        obtain ⟨faddress', hvisit⟩ := foldlM_visitCombination hemit
          (fun v hv => takesMask_of_mem h hv) combinedFaults a lists
        rw [List.filter_cons_of_pos (by simp [hex]), List.flatMap_cons, List.flatMap_append,
          ← appendAll_appendAll, ← ih]
        simp only [Bool.false_eq_true, if_false, visitAddress_eq h, hvisit]
        rfl
  exact hloop r.addresses lists

end Loops

/-! ### The calls -/

/-- The experiments of the dictionaries, in the order in which they are popped. -/
def experiments (rs : List DictRanges) (combinedFaults : List BuiltFault) : Experiments :=
  (combinations (rs.map DictRanges.created)).map (combinedFaults ++ ·)

theorem experiments_cons (r : DictRanges) (rs : List DictRanges) (combinedFaults : List BuiltFault) :
    experiments (r :: rs) combinedFaults
      = r.created.flatMap fun f => experiments rs (combinedFaults ++ [f]) := by
  simp [experiments, combinations, List.map_flatMap, Function.comp_def]

/-- Each call adds the experiments of its dictionaries. -/
theorem unroll_eq (retFaults : ℕ) : ∀ {confList : List FaultDict} {rs : List DictRanges},
    confList ≠ [] → List.Forall₂ FaultDict.Reads confList rs → ∀ combinedFaults lists,
      unroll retFaults confList combinedFaults lists
        = .ok (retFaults, appendAll lists retFaults (experiments rs combinedFaults))
  | [], _, hne, _, _, _ => absurd rfl hne
  | [faultdev], _, _, hreads, combinedFaults, lists => by
    obtain ⟨r, _, h, hnil, rfl⟩ := List.forall₂_cons_left_iff.mp hreads
    cases hnil
    have hlast : Emits (fun intFaults ret lists => .ok (ret, appendAll lists ret [intFaults])) retFaults
        fun intFaults => [intFaults] := fun _ _ => rfl
    rw [unroll, experiments_cons, unrollDict_eq h hlast combinedFaults lists]
    simp [experiments, combinations]
  | faultdev :: next :: confList, _, _, hreads, combinedFaults, lists => by
    obtain ⟨r, rs, h, hs, rfl⟩ := List.forall₂_cons_left_iff.mp hreads
    rw [unroll, experiments_cons]
    exact unrollDict_eq h
      (fun intFaults lists => unroll_eq retFaults (List.cons_ne_nil _ _) hs intFaults lists)
      combinedFaults lists

/-- Without excluded regions and the address -1 the experiments are the combinations of the ranges,
    appended to the given list in the order of the loops. -/
theorem buildFaultList_product {confList : List FaultDict} {rs : List DictRanges} (hne : confList ≠ [])
    (hreads : List.Forall₂ FaultDict.Reads confList rs)
    (hplain : ∀ r ∈ rs, r.kind.addressExclude = [] ∧ .int (-1) ∉ r.addresses)
    (combinedFaults : List BuiltFault) (retFaults : ℕ) (lists : Heap Experiments) :
    buildFaultList confList combinedFaults retFaults lists =
      .ok (retFaults, appendAll lists retFaults
        ((combinations (rs.reverse.map DictRanges.product)).map (combinedFaults ++ ·))) := by
  have hcreated : rs.reverse.map DictRanges.created = rs.reverse.map DictRanges.product := by
    refine List.map_congr_left fun r hr => ?_
    obtain ⟨hexclude, hminus⟩ := hplain r (List.mem_reverse.mp hr)
    exact DictRanges.created_eq_product hexclude hminus
  rw [buildFaultList, unroll_eq retFaults (mt List.reverse_eq_nil_iff.mp hne)
    (List.rel_reverse hreads) combinedFaults lists, experiments, hcreated]

/-- A toggled data bit at two addresses. -/
def toggleFault (address trigger : FaultRange) : FaultDict :=
  ⟨false, address, [], "data".toList, "toggle".toList, .int 0, .int 1, trigger, .int 1, none⟩

def toggleRanges (addresses triggers : List ParamValue) : DictRanges :=
  ⟨⟨0, 2, [], false⟩, addresses, [.int 0], [.int 1], triggers, [.int 1], [.int 0]⟩

theorem toggleFault_reads {address trigger : FaultRange} {addresses triggers : List ParamValue}
    (hstar : (toggleFault address trigger).address.hasStar = false)
    (haddress : buildRanges false (toggleFault address trigger).address = .ok addresses)
    (htrigger : buildRanges false trigger = .ok triggers) :
    (toggleFault address trigger).Reads (toggleRanges addresses triggers) := by
  have hkind : (toggleFault address trigger).kind = .ok ⟨0, 2, [], false⟩ := by
    rw [FaultDict.kind, hstar]
    rfl
  have htaken : ∀ n, FaultKind.takesMask ⟨0, 2, [], false⟩ (.int 1) n = true := fun _ => rfl
  refine ⟨?_, fun m hm n _ => List.mem_singleton.mp hm ▸ htaken n⟩
  simp only [FaultDict.ranges, hkind, haddress, bind, Except.bind]
  rw [show buildRanges false (toggleFault address trigger).triggerAddress = .ok triggers from htrigger]
  rfl

/-- An instruction set to ones, with two hitcounters. -/
def setFault : FaultDict :=
  ⟨false, .int 32, [], "instruction".toList, "set1".toList, .int 5, .int 3, .int 8,
    .list [.int 1, .int 3], some (.int 2)⟩

def setRanges : DictRanges :=
  ⟨⟨1, 1, [], false⟩, [.int 32], [.int 5], [.int 3], [.int 8], [.int 1, .int 2], [.int 2]⟩

theorem setFault_reads : setFault.Reads setRanges := ⟨rfl, by decide⟩

def twoFaults : List FaultDict := [toggleFault (.list [.int 16, .int 18]) (.int 4), setFault]

theorem twoFaults_reads :
    List.Forall₂ FaultDict.Reads twoFaults [toggleRanges [.int 16, .int 17] [.int 4], setRanges] :=
  .cons (toggleFault_reads rfl rfl rfl) (.cons setFault_reads .nil)

theorem buildFaultList_two :
    let set (hitcounter : Int) : BuiltFault :=
      { address := .int 32, addressExclude := [], type := 1, model := 1, lifespan := .int 5, mask := .int 3,
        triggerAddress := .int 8, triggerHitcounter := .int hitcounter, numBytes := .int 2, wildcard := false }
    let toggle (address : Int) : BuiltFault :=
      { address := .int address, addressExclude := [], type := 0, model := 2, lifespan := .int 0,
        mask := .int 1, triggerAddress := .int 4, triggerHitcounter := .int 1, numBytes := .int 0,
        wildcard := false }
    ∃ lists, buildFaultList twoFaults [] 0 ⟨fun _ => [], 1⟩ = .ok (0, lists) ∧ lists.get 0 =
      [[set 1, toggle 16], [set 1, toggle 17], [set 2, toggle 16], [set 2, toggle 17]] :=
  ⟨_, buildFaultList_product (List.cons_ne_nil _ _) twoFaults_reads (by decide) [] 0 ⟨fun _ => [], 1⟩, rfl⟩

/-! ### The address -1 -/

namespace DictRanges

/-- No loop is skipped. -/
structure NonEmpty (r : DictRanges) : Prop where
  kept : r.kept ≠ []
  lifespans : r.lifespans ≠ []
  masks : r.masks ≠ []
  triggerAddresses : r.triggerAddresses ≠ []
  triggerCounters : r.triggerCounters ≠ []
  numBytes : r.numBytes ≠ []

/-- The address that replaces -1 first is right for all triggers: there is only one, or the loop
    over them runs once and has nothing but -1 before it. -/
def OneTrigger (r : DictRanges) : Prop :=
  (∀ t ∈ r.triggerAddresses, ∀ t' ∈ r.triggerAddresses, t = t') ∨
    r.lifespans.length = 1 ∧ r.masks.length = 1 ∧
      r.triggerAddresses.Pairwise fun t t' => t = .int (-1) ∨ t = t'

theorem created_ne_nil {r : DictRanges} : r.created ≠ [] ↔ r.NonEmpty := by
  have hcarry : ∀ a vs, carry r.kind a vs = [] ↔ vs = [] := by
    intro a vs
    cases vs with
    | nil => simp [carry]
    | cons v vs => simp [carry]
  have hinner : r.inner ≠ [] ↔ r.lifespans ≠ [] ∧ r.masks ≠ [] ∧ r.triggerAddresses ≠ [] ∧
      r.triggerCounters ≠ [] ∧ r.numBytes ≠ [] := by
    constructor
    · intro hne
      obtain ⟨v, hv⟩ := List.exists_mem_of_ne_nil _ hne
      obtain ⟨hl, hm, ht, hc, hn⟩ := mem_inner.mp hv
      exact ⟨List.ne_nil_of_mem hl, List.ne_nil_of_mem hm, List.ne_nil_of_mem ht, List.ne_nil_of_mem hc,
        List.ne_nil_of_mem hn⟩
    · rintro ⟨hl, hm, ht, hc, hn⟩
      obtain ⟨l, hl⟩ := List.exists_mem_of_ne_nil _ hl
      obtain ⟨m, hm⟩ := List.exists_mem_of_ne_nil _ hm
      obtain ⟨t, ht⟩ := List.exists_mem_of_ne_nil _ ht
      obtain ⟨c, hc⟩ := List.exists_mem_of_ne_nil _ hc
      obtain ⟨n, hn⟩ := List.exists_mem_of_ne_nil _ hn
      exact List.ne_nil_of_mem (mem_inner (v := ⟨l, m, t, c, n⟩).mpr ⟨hl, hm, ht, hc, hn⟩)
  have hsplit : r.created ≠ [] ↔ r.kept ≠ [] ∧ r.inner ≠ [] := by
    rw [created, ne_eq, List.flatMap_eq_nil_iff]
    simp only [hcarry, ne_eq, List.eq_nil_iff_forall_not_mem (l := r.kept), not_forall]
    constructor
    · rintro ⟨a, ha, hne⟩
      exact ⟨⟨a, not_not_intro ha⟩, hne⟩
    · rintro ⟨⟨a, ha⟩, hne⟩
      exact ⟨a, not_not.mp ha, hne⟩
  rw [hsplit, hinner]
  exact ⟨fun ⟨hk, hl, hm, ht, hc, hn⟩ => ⟨hk, hl, hm, ht, hc, hn⟩,
    fun ⟨hk, hl, hm, ht, hc, hn⟩ => ⟨hk, hl, hm, ht, hc, hn⟩⟩

/-- The replaced address stays: later faults agree with their triggers iff those are the same. -/
theorem carry_own_iff (kind : FaultKind) : ∀ vs : List LoopValues,
    (∀ f ∈ carry kind (.int (-1)) vs, f.address = f.triggerAddress) ↔
      (vs.map LoopValues.triggerAddress).Pairwise fun t t' => t = .int (-1) ∨ t = t'
  | [] => by simp [carry]
  | v :: vs => by
    have hreplace : replaceAddress (.int (-1)) v.triggerAddress = v.triggerAddress := if_pos rfl
    have hhead :
        (kind.fault v.triggerAddress v).address = (kind.fault v.triggerAddress v).triggerAddress := rfl
    rw [carry, hreplace, List.forall_mem_cons, and_iff_right hhead, List.map_cons, List.pairwise_cons]
    by_cases hminus : v.triggerAddress = .int (-1)
    · rw [hminus, carry_own_iff kind vs]
      exact (and_iff_right fun _ _ => .inl rfl).symm
    · rw [carry_eq_map kind hminus]
      simp only [List.forall_mem_map, hminus, false_or, FaultKind.fault]
      refine ⟨fun h => ⟨h, ?_⟩, fun h => h.1⟩
      refine List.pairwise_map.mpr (List.pairwise_of_forall_mem_list fun w hw w' hw' => ?_)
      exact .inr ((h w hw).symm.trans (h w' hw'))

/-- The triggers that the inner loops run through. -/
theorem pairwise_triggers_iff {r : DictRanges} (h : r.NonEmpty) :
    ((r.inner.map LoopValues.triggerAddress).Pairwise fun t t' => t = .int (-1) ∨ t = t') ↔
      r.OneTrigger := by
  -- the two loops inside repeat each trigger
  let block := fun t : ParamValue => r.triggerCounters.flatMap fun _ => r.numBytes.flatMap fun _ => [t]
  have hmem : ∀ {x t}, x ∈ block t ↔ x = t := by
    intro x t
    simp only [block, List.mem_flatMap, List.mem_singleton]
    constructor
    · rintro ⟨-, -, -, -, rfl⟩
      rfl
    · rintro rfl
      obtain ⟨c, hc⟩ := List.exists_mem_of_ne_nil _ h.triggerCounters
      obtain ⟨n, hn⟩ := List.exists_mem_of_ne_nil _ h.numBytes
      exact ⟨c, hc, n, hn, rfl⟩
  have hblock : ∀ t, (block t).Pairwise fun t t' => t = .int (-1) ∨ t = t' := fun t =>
    List.pairwise_of_forall_mem_list fun x hx y hy => .inr ((hmem.mp hx).trans (hmem.mp hy).symm)
  -- the two loops outside run through all triggers again
  have htriggers : r.inner.map LoopValues.triggerAddress =
      (r.lifespans.flatMap fun _ => r.masks).flatMap fun _ => r.triggerAddresses.flatMap block := by
    simp [inner, block, List.map_flatMap, List.flatMap_assoc]
  obtain ⟨l, hl⟩ := List.exists_mem_of_ne_nil _ h.lifespans
  obtain ⟨m, hm⟩ := List.exists_mem_of_ne_nil _ h.masks
  have hpasses : r.lifespans.flatMap (fun _ => r.masks) ≠ [] :=
    List.ne_nil_of_mem (List.mem_flatMap.mpr ⟨l, hl, hm⟩)
  have hlength : (r.lifespans.flatMap fun _ => r.masks).length = r.lifespans.length * r.masks.length := by
    simp [List.length_flatMap]
  have hlpos := List.length_pos_of_mem hl
  have hmpos := List.length_pos_of_mem hm
  rw [htriggers, pairwise_flatMap_const hpasses, List.pairwise_flatMap, hlength]
  simp only [hblock, implies_true, true_and, List.mem_flatMap, hmem, exists_eq_right', forall_eq, OneTrigger]
  constructor
  · rintro ⟨hpair, hall⟩
    by_cases hone : 1 < r.lifespans.length * r.masks.length
    · refine .inl fun t ht t' ht' => ?_
      -- of two different triggers one is not -1
      rcases hall hone t ht t' ht' with rfl | heq
      · rcases hall hone t' ht' _ ht with rfl | heq
        · rfl
        · exact heq.symm
      · exact heq
    · have hle : r.lifespans.length * r.masks.length = 1 :=
        le_antisymm (not_lt.mp hone) (Nat.mul_pos hlpos hmpos)
      obtain ⟨hl1, hm1⟩ := mul_eq_one.mp hle
      exact .inr ⟨hl1, hm1, hpair⟩
  · rintro (hall | ⟨hl1, hm1, hpair⟩)
    · exact ⟨List.pairwise_of_forall_mem_list fun t ht t' ht' => .inr (hall t ht t' ht'),
        fun _ t ht t' ht' => .inr (hall t ht t' ht')⟩
    · exact ⟨hpair, fun hlt => absurd hlt (by simp [hl1, hm1])⟩

/-- The faults of the address -1. -/
theorem created_minusOne {r : DictRanges} (hminus : r.addresses = [.int (-1)]) (h : r.kept ≠ []) :
    r.created = carry r.kind (.int (-1)) r.inner := by
  have hkept : r.kept = [.int (-1)] := by
    rw [kept, hminus] at h ⊢
    cases hex : r.kind.excludes (.int (-1)) with
    | true => exact absurd (List.filter_cons_of_neg (by simp [hex])) h
    | false => exact List.filter_cons_of_pos (by simp [hex])
  rw [created, hkept, List.flatMap_singleton]

theorem map_triggerAddress_carry (kind : FaultKind) (vs : List LoopValues) (address : ParamValue) :
    (carry kind address vs).map BuiltFault.triggerAddress = vs.map LoopValues.triggerAddress := by
  induction vs generalizing address with
  | nil => rfl
  | cons v vs ih => rw [carry, List.map_cons, List.map_cons, ih]; rfl

/-- The addresses of the faults are their triggers, and all of them occur. -/
def CopiesTriggers (r : DictRanges) (fs : BuiltFault → Prop) : Prop :=
  (∀ f, fs f → f.address = f.triggerAddress) ∧
    ∀ a, (∃ f, fs f ∧ f.address = a) ↔ a ∈ r.triggerAddresses

theorem copiesTriggers_iff {r : DictRanges} (hminus : r.addresses = [.int (-1)]) (h : r.NonEmpty) :
    r.CopiesTriggers (· ∈ r.created) ↔ r.OneTrigger := by
  rw [← pairwise_triggers_iff h, ← carry_own_iff r.kind, ← created_minusOne hminus h.kept]
  refine ⟨fun hcopies => hcopies.1, fun hown => ⟨hown, fun a => ?_⟩⟩
  have hall := created_ne_nil.mpr h
  obtain ⟨v₀, hv₀⟩ := List.exists_mem_of_ne_nil r.inner fun hnil => hall (by
    rw [created_minusOne hminus h.kept, hnil, carry])
  obtain ⟨hl, hm, -, hc, hn⟩ := mem_inner.mp hv₀
  calc (∃ f ∈ r.created, f.address = a)
      ↔ a ∈ r.created.map BuiltFault.triggerAddress := by
        rw [List.mem_map]
        exact exists_congr fun f => and_congr_right fun hf => by rw [hown f hf]
    _ ↔ a ∈ r.inner.map LoopValues.triggerAddress := by
        rw [created_minusOne hminus h.kept, map_triggerAddress_carry]
    _ ↔ a ∈ r.triggerAddresses := by
        rw [List.mem_map]
        constructor
        · rintro ⟨v, hv, rfl⟩
          exact (mem_inner.mp hv).2.2.1
        · intro ha
          exact ⟨{ v₀ with triggerAddress := a }, mem_inner.mpr ⟨hl, hm, ha, hc, hn⟩, rfl⟩

end DictRanges

theorem appendAll_inj {lists : Heap Experiments} {r : ℕ} {xs ys : Experiments}
    (h : appendAll lists r xs = appendAll lists r ys) : xs = ys := by
  have hget := congrArg (fun lists => lists.get r) h
  simp only [appendAll, Heap.get_set_self] at hget
  exact List.append_cancel_left hget

/-- The faults of one dictionary in the experiments. -/
theorem mem_experiments_iff (combinedFaults : List BuiltFault) {before after : List DictRanges}
    {r : DictRanges} {f : BuiltFault} :
    (∃ exp ∈ experiments (before ++ r :: after) combinedFaults,
        exp[combinedFaults.length + before.length]? = some f) ↔
      (∀ r' ∈ before ++ r :: after, r'.NonEmpty) ∧ f ∈ r.created := by
  have hne : (∀ r' ∈ before ++ r :: after, r'.NonEmpty) ↔
      [] ∉ before.map DictRanges.created ++ r.created :: after.map DictRanges.created := by
    rw [← List.map_cons, ← List.map_append, List.mem_map]
    simp only [← DictRanges.created_ne_nil, not_exists, not_and, ne_eq]
  have hplace : ∀ xs : List BuiltFault, (combinedFaults ++ xs)[combinedFaults.length + before.length]?
      = xs[(before.map DictRanges.created).length]? := by
    intro xs
    rw [List.getElem?_append_right (Nat.le_add_right _ _), Nat.add_sub_cancel_left, List.length_map]
  rw [hne, experiments, List.map_append, List.map_cons]
  constructor
  · rintro ⟨exp, hexp, hf⟩
    obtain ⟨xs, hxs, rfl⟩ := List.mem_map.mp hexp
    rw [hplace] at hf
    exact ⟨fun hnil => List.not_mem_nil ((combinations_eq_nil.mpr hnil) ▸ hxs),
      getElem?_of_mem_combinations hxs hf⟩
  · rintro ⟨hnil, hf⟩
    obtain ⟨xs, hxs, hget⟩ := exists_combination hnil hf
    exact ⟨combinedFaults ++ xs, List.mem_map_of_mem hxs, by rw [hplace, hget]⟩

/-- The faults of a dictionary with address -1 get their own triggers as addresses, and all of them,
    iff the first trigger is right for all. -/
theorem buildFaultList_minusOne_iff {before after : List FaultDict} {conf : FaultDict}
    {rsBefore rsAfter : List DictRanges} {r : DictRanges}
    (hbefore : List.Forall₂ FaultDict.Reads before rsBefore) (hconf : conf.Reads r)
    (hafter : List.Forall₂ FaultDict.Reads after rsAfter) (hminus : r.addresses = [.int (-1)])
    (combinedFaults : List BuiltFault) (retFaults : ℕ) (lists : Heap Experiments) :
    (∃ exps, buildFaultList (before ++ conf :: after) combinedFaults retFaults lists
        = .ok (retFaults, appendAll lists retFaults exps) ∧
      r.CopiesTriggers fun f => ∃ exp ∈ exps, exp[combinedFaults.length + after.length]? = some f) ↔
    r.triggerAddresses = [] ∨ r.OneTrigger ∧ ∀ r' ∈ rsBefore ++ r :: rsAfter, r'.NonEmpty := by
  have hbuild : buildFaultList (before ++ conf :: after) combinedFaults retFaults lists = .ok (retFaults,
      appendAll lists retFaults (experiments (rsAfter.reverse ++ r :: rsBefore.reverse) combinedFaults)) := by
    have hrel := List.rel_reverse (List.rel_append hbefore (List.Forall₂.cons hconf hafter))
    rw [buildFaultList, unroll_eq retFaults (by simp) hrel]
    simp
  have hnonempty : (∀ r' ∈ rsBefore ++ r :: rsAfter, r'.NonEmpty) ↔
      ∀ r' ∈ rsAfter.reverse ++ r :: rsBefore.reverse, r'.NonEmpty := by
    simp only [List.mem_append, List.mem_cons, List.mem_reverse]
    exact forall_congr' fun r' => imp_congr_left (by tauto)
  have hcopies : (∃ exps, buildFaultList (before ++ conf :: after) combinedFaults retFaults lists
        = .ok (retFaults, appendAll lists retFaults exps) ∧
      r.CopiesTriggers fun f => ∃ exp ∈ exps, exp[combinedFaults.length + after.length]? = some f) ↔
      r.CopiesTriggers fun f => (∀ r' ∈ rsBefore ++ r :: rsAfter, r'.NonEmpty) ∧ f ∈ r.created := by
    have hlength : after.length = rsAfter.reverse.length := by rw [hafter.length_eq, List.length_reverse]
    simp only [hnonempty, ← mem_experiments_iff combinedFaults, ← hlength]
    constructor
    · rintro ⟨exps, hexps, hcopies⟩
      obtain rfl := appendAll_inj (Prod.mk.inj (Except.ok.inj (hexps.symm.trans hbuild))).2
      exact hcopies
    · exact fun hcopies => ⟨_, hbuild, hcopies⟩
  rw [hcopies]
  by_cases hall : ∀ r' ∈ rsBefore ++ r :: rsAfter, r'.NonEmpty
  · have hr : r.NonEmpty := hall r (by simp)
    simp only [and_iff_right hall, and_iff_left hall, hr.triggerAddresses, false_or]
    exact DictRanges.copiesTriggers_iff hminus hr
  · -- a loop is skipped, and no fault is left
    simp only [DictRanges.CopiesTriggers, hall, false_and, exists_false, false_iff, and_false, or_false,
      false_implies, implies_true, true_and]
    exact List.eq_nil_iff_forall_not_mem.symm

/-- One trigger address is copied. -/
theorem buildFaultList_minusOne_single : ∃ exps,
    buildFaultList ([] ++ toggleFault (.int (-1)) (.int 4) :: []) [] 0 ⟨fun _ => [], 1⟩
        = .ok (0, appendAll ⟨fun _ => [], 1⟩ 0 exps) ∧
      (toggleRanges [.int (-1)] [.int 4]).CopiesTriggers fun f =>
        ∃ exp ∈ exps, exp[([] : List BuiltFault).length + ([] : List FaultDict).length]? = some f :=
  (buildFaultList_minusOne_iff .nil (toggleFault_reads rfl rfl rfl) .nil rfl [] 0 ⟨fun _ => [], 1⟩).mpr
    (.inr ⟨.inl (by decide), fun r hr => by
      obtain rfl := List.mem_singleton.mp hr
      exact ⟨by decide, by decide, by decide, by decide, by decide, by decide⟩⟩)

/-- The triggers 4 and 5: the fault of the second one gets the address 4, too. -/
theorem buildFaultList_keeps_trigger : ¬∀ before after conf rsBefore rsAfter r,
    List.Forall₂ FaultDict.Reads before rsBefore → conf.Reads r →
    List.Forall₂ FaultDict.Reads after rsAfter → r.addresses = [.int (-1)] →
    ∀ combinedFaults retFaults lists, ∃ exps,
      buildFaultList (before ++ conf :: after) combinedFaults retFaults lists
          = .ok (retFaults, appendAll lists retFaults exps) ∧
        r.CopiesTriggers fun f =>
          ∃ exp ∈ exps, exp[combinedFaults.length + after.length]? = some f := by
  intro h
  obtain ⟨exps, hexps, hown, -⟩ := h [] [] (toggleFault (.int (-1)) (.list [.int 4, .int 6])) [] []
    (toggleRanges [.int (-1)] [.int 4, .int 5]) .nil (toggleFault_reads rfl rfl rfl) .nil rfl [] 0
    ⟨fun _ => [], 1⟩
  let fault := fun t => (⟨.int 4, [], 0, 2, .int 0, .int 1, .int t, .int 1, .int 0, false⟩ : BuiltFault)
  have hrun : buildFaultList [toggleFault (.int (-1)) (.list [.int 4, .int 6])] [] 0 ⟨fun _ => [], 1⟩
      = .ok (0, appendAll ⟨fun _ => [], 1⟩ 0 [[fault 4], [fault 5]]) := by
    have hreads : (toggleFault (.int (-1)) (.list [.int 4, .int 6])).Reads
        (toggleRanges [.int (-1)] [.int 4, .int 5]) := toggleFault_reads rfl rfl rfl
    exact unroll_eq 0 (List.cons_ne_nil _ _) (.cons hreads .nil) [] ⟨fun _ => [], 1⟩
  obtain rfl := appendAll_inj (Prod.mk.inj (Except.ok.inj (hexps.symm.trans hrun))).2
  have := hown (fault 5) ⟨[fault 5], by simp, rfl⟩
  exact absurd this (by decide)

end Archie.Campaign
