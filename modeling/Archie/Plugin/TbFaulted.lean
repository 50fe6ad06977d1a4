import Archie.Plugin.Singlestep
import Archie.Plugin.TriggerVector

/-! The assembler of faulted TBs, tb_faulted_collection.c.

    An array holds the addresses that wait for their TB, a list the entries, newest first. A TB is
    compared with the array, and its assembler goes into the first entry of the list that has the
    address:

        array   a  b  a              list   (a) ─▶ (b) ─▶ (a)
                ╰──┴──╯ TB has a              ╰── written twice, the last one never             -/

namespace Archie.Plugin

/-! ### What an entry is to hold -/

/-- The address is a byte of the TB. -/
def Tb.Covers (tb : Tb) (address : ℕ) : Prop := tb.vaddr ≤ address ∧ address < tb.vaddr + tb.bytesize

instance (tb : Tb) (address : ℕ) : Decidable (tb.Covers address) := inferInstanceAs (Decidable (_ ∧ _))

/-- What happens to the collection. -/
inductive TbFaultedEvent where
  | register (address : ℕ)
  | check (tb : Tb)

abbrev TbEntry := ℕ × Option (List Char)

/-- The assembler of the first TB with the address. -/
def firstCapture (address : ℕ) : List TbFaultedEvent → Option (List Char)
  | [] => none
  | .register _ :: es => firstCapture address es
  | .check tb :: es => if tb.Covers address then some (State.decodeAssembler tb) else firstCapture address es

/-- One entry for each registered address, newest first: it holds the first later TB. -/
def expectedEntries : List TbFaultedEvent → List TbEntry
  | [] => []
  | .register address :: es => expectedEntries es ++ [(address, firstCapture address es)]
  | .check _ :: es => expectedEntries es

/-- An entry after one more TB. -/
def captureEntry (tb : Tb) (item : TbEntry) : TbEntry :=
  (item.1, item.2.orElse fun _ => if tb.Covers item.1 then some (State.decodeAssembler tb) else none)

theorem firstCapture_concat_register (address a : ℕ) (es : List TbFaultedEvent) :
    firstCapture address (es ++ [.register a]) = firstCapture address es := by
  induction es with
  | nil => rfl
  | cons e es ih => cases e <;> simp [firstCapture, ih]

theorem firstCapture_concat_check (address : ℕ) (tb : Tb) (es : List TbFaultedEvent) :
    firstCapture address (es ++ [.check tb]) = (captureEntry tb (address, firstCapture address es)).2 := by
  induction es with
  | nil => rfl
  | cons e es ih =>
    cases e with
    | register a => simpa [firstCapture] using ih
    | check tb' =>
      simp only [List.cons_append, firstCapture, ih]
      split
      · rfl
      · rfl

theorem expectedEntries_concat_register (a : ℕ) (es : List TbFaultedEvent) :
    expectedEntries (es ++ [.register a]) = (a, none) :: expectedEntries es := by
  induction es with
  | nil => rfl
  | cons e es ih =>
    cases e with
    | register b => simp [expectedEntries, ih, firstCapture_concat_register]
    | check tb => simpa [expectedEntries] using ih

theorem expectedEntries_concat_check (tb : Tb) (es : List TbFaultedEvent) :
    expectedEntries (es ++ [.check tb]) = (expectedEntries es).map (captureEntry tb) := by
  induction es with
  | nil => rfl
  | cons e es ih =>
    cases e with
    | register b => simp [expectedEntries, ih, firstCapture_concat_check, captureEntry]
    | check tb' => simpa [expectedEntries] using ih

/-! ### Writing into the list -/

/-- The first entry with the address gets the assembler. -/
def insertAssembly (assembler : List Char) : List TbEntry → ℕ → List TbEntry
  | [], _ => []
  | item :: list, address =>
    if item.1 = address then (item.1, some assembler) :: list
    else item :: insertAssembly assembler list address

theorem insertFaultedAssembly_tbFaulted (s : State) (tb : Tb) (address : ℕ) :
    (s.insertFaultedAssembly tb address).tbFaulted = { s.tbFaulted with
      list := insertAssembly (State.decodeAssembler tb) s.tbFaulted.list address } := by
  have hmodify : ∀ list : List TbEntry, insertAssembly (State.decodeAssembler tb) list address =
      (list.findIdx? fun item => item.1 = address).elim list fun i =>
        list.modify i fun item => (item.1, some (State.decodeAssembler tb)) := by
    intro list
    induction list with
    | nil => rfl
    | cons item list ih =>
      rw [insertAssembly, List.findIdx?_cons]
      by_cases h : item.1 = address
      · simp [h]
      · rw [if_neg h, ih]
        simp only [h, decide_false, Bool.false_eq_true, if_false]
        cases hfind : list.findIdx? fun item => item.1 = address <;> simp
  rw [hmodify, State.insertFaultedAssembly]
  cases hfind : s.tbFaulted.list.findIdx? fun item => item.1 = address with
  | none => rfl
  | some i => rfl

/-- Some addresses one after the other: an entry is written if its address is among them and no newer
    entry has it. -/
theorem foldl_insertAssembly_cons (assembler : List Char) (addresses : List ℕ) (item : TbEntry)
    (list : List TbEntry) : addresses.foldl (insertAssembly assembler) (item :: list) =
      (item.1, if item.1 ∈ addresses then some assembler else item.2) ::
        (addresses.filter fun a => decide (a ≠ item.1)).foldl (insertAssembly assembler) list := by
  induction addresses generalizing item list with
  | nil => simp
  | cons a as ih =>
    rw [List.foldl_cons, insertAssembly]
    by_cases h : item.1 = a
    · rw [if_pos h, ih]
      simp [h]
    · rw [if_neg h, ih]
      have hne : a ≠ item.1 := fun he => h he.symm
      simp [h, hne]

/-! ### One TB -/

/-- The comparison of `check_tb_faulted`. -/
def Tb.Checked (tb : Tb) (address : ℕ) : Prop :=
  address ≥ tb.vaddr ∧ address ≤ (tb.vaddr + tb.bytesize) % 2 ^ 64

instance (tb : Tb) (address : ℕ) : Decidable (tb.Checked address) := inferInstanceAs (Decidable (_ ∧ _))

/-- The addresses of the entries without assembler. -/
def pendingAddresses (list : List TbEntry) : List ℕ :=
  (list.filter fun item => item.2.isNone).map Prod.fst

/-- The comparison decides for each waiting address whether the TB has it, and the TB has no address
    that two entries wait for. -/
structure Tb.CapturesOnce (tb : Tb) (pending : List ℕ) : Prop where
  compared : ∀ a ∈ pending, tb.Checked a ↔ tb.Covers a
  distinct : (pending.filter fun a => decide (tb.Covers a)).Nodup

/-- Where two entries have one address, the newer one waits as long as the older one. -/
def NewestWaits (list : List TbEntry) : Prop :=
  list.Pairwise fun newer older => newer.1 = older.1 → older.2 = none → newer.2 = none

theorem pendingAddresses_none (address : ℕ) (list : List TbEntry) :
    pendingAddresses ((address, none) :: list) = address :: pendingAddresses list := rfl

theorem pendingAddresses_some (address : ℕ) (assembler : List Char) (list : List TbEntry) :
    pendingAddresses ((address, some assembler) :: list) = pendingAddresses list := rfl

theorem mem_pendingAddresses {list : List TbEntry} {address : ℕ} :
    address ∈ pendingAddresses list ↔ (address, none) ∈ list := by
  simp only [pendingAddresses, List.mem_map, List.mem_filter, Option.isNone_iff_eq_none]
  constructor
  · rintro ⟨⟨a, o⟩, ⟨hmem, rfl⟩, rfl⟩
    exact hmem
  · exact fun h => ⟨_, ⟨h, rfl⟩, rfl⟩

/-- The first of the waiting addresses may be handled on its own: later it counts as seen. -/
theorem seen_cons_iff {checked covers : ℕ → Prop} [DecidablePred covers] {b : ℕ} {pending seen : List ℕ} :
    ((checked b ∧ b ∉ seen ↔ covers b) ∧ (∀ a ∈ pending, (checked a ∧ a ∉ b :: seen ↔ covers a)) ∧
        (pending.filter fun a => decide (covers a)).Nodup) ↔
      (∀ a ∈ b :: pending, (checked a ∧ a ∉ seen ↔ covers a)) ∧
        ((b :: pending).filter fun a => decide (covers a)).Nodup := by
  rw [List.forall_mem_cons, List.filter_cons]
  have hother : ∀ a, a ≠ b → (a ∉ b :: seen ↔ a ∉ seen) := fun a hab => by simp [hab]
  constructor
  · rintro ⟨hc, htail, hnodup⟩
    have hcov : b ∈ pending → ¬covers b := fun hmem hcov => ((htail b hmem).mpr hcov).2 List.mem_cons_self
    refine ⟨⟨hc, fun a ha => ?_⟩, ?_⟩
    · rcases eq_or_ne a b with rfl | hab
      · exact hc
      · rw [← hother a hab]
        exact htail a ha
    · split
      · next hb =>
        refine List.nodup_cons.mpr ⟨fun hin => ?_, hnodup⟩
        exact hcov (List.mem_filter.mp hin).1 (of_decide_eq_true hb)
      · exact hnodup
  · rintro ⟨⟨hc, hall⟩, hnodup⟩
    by_cases hcov : covers b
    · rw [if_pos (decide_eq_true hcov)] at hnodup
      obtain ⟨hnot, hnodup⟩ := List.nodup_cons.mp hnodup
      refine ⟨hc, fun a ha => ?_, hnodup⟩
      have hab : a ≠ b := by
        rintro rfl
        exact hnot (List.mem_filter.mpr ⟨ha, decide_eq_true hcov⟩)
      rw [hother a hab]
      exact hall a ha
    · rw [if_neg (by simpa using hcov)] at hnodup
      refine ⟨hc, fun a ha => ?_, hnodup⟩
      rcases eq_or_ne a b with rfl | hab
      · exact iff_of_false (fun h => h.2 List.mem_cons_self) hcov
      · rw [hother a hab]
        exact hall a ha

/-- Writing to the waiting addresses that compare does what each entry is to get iff the comparison
    is right and no entry hides another one. -/
theorem foldl_insertAssembly_eq_iff {tb : Tb} {list : List TbEntry} (hnew : NewestWaits list)
    {addresses seen : List ℕ}
    (hmem : ∀ a, a ∈ addresses ↔ a ∈ pendingAddresses list ∧ tb.Checked a ∧ a ∉ seen) :
    addresses.foldl (insertAssembly (State.decodeAssembler tb)) list = list.map (captureEntry tb) ↔
      (∀ a ∈ pendingAddresses list, (tb.Checked a ∧ a ∉ seen ↔ tb.Covers a)) ∧
        ((pendingAddresses list).filter fun a => decide (tb.Covers a)).Nodup := by
  induction list generalizing addresses seen with
  | nil =>
    have hnil : addresses = [] := List.eq_nil_iff_forall_not_mem.mpr fun a ha =>
      absurd ((hmem a).mp ha).1 List.not_mem_nil
    simp [hnil, pendingAddresses]
  | cons item list ih =>
    obtain ⟨b, o⟩ := item
    obtain ⟨hfirst, hrest⟩ := List.pairwise_cons.mp hnew
    rw [foldl_insertAssembly_cons, List.map_cons, List.cons.injEq]
    cases o with
    | some assembler =>
      -- the entry has its assembler, and no older entry waits for the address
      rw [pendingAddresses_some] at hmem ⊢
      have hnot : b ∉ addresses := by
        intro hb
        have hwaits := mem_pendingAddresses.mp ((hmem b).mp hb).1
        exact absurd (hfirst _ hwaits rfl rfl) (by simp)
      have hmem' : ∀ a, a ∈ addresses.filter (fun a => decide (a ≠ b)) ↔
          a ∈ pendingAddresses list ∧ tb.Checked a ∧ a ∉ seen := by
        intro a
        rw [List.mem_filter, decide_eq_true_iff, ← hmem a]
        exact and_iff_left_of_imp fun ha hab => hnot (hab ▸ ha)
      rw [ih hrest hmem', if_neg hnot]
      exact and_iff_right rfl
    | none =>
      rw [pendingAddresses_none] at hmem ⊢
      have hb : b ∈ addresses ↔ tb.Checked b ∧ b ∉ seen := by
        rw [hmem b]
        exact and_iff_right List.mem_cons_self
      have hmem' : ∀ a, a ∈ addresses.filter (fun a => decide (a ≠ b)) ↔
          a ∈ pendingAddresses list ∧ tb.Checked a ∧ a ∉ b :: seen := by
        intro a
        rw [List.mem_filter, decide_eq_true_iff, hmem a, List.mem_cons, List.mem_cons, not_or]
        constructor
        · rintro ⟨⟨ha, hc, hs⟩, hne⟩
          exact ⟨ha.resolve_left hne, hc, hne, hs⟩
        · rintro ⟨ha, hc, hne, hs⟩
          exact ⟨⟨.inr ha, hc, hs⟩, hne⟩
      have hhead : ((b, if b ∈ addresses then some (State.decodeAssembler tb) else none) : TbEntry)
          = captureEntry tb (b, none) ↔ (tb.Checked b ∧ b ∉ seen ↔ tb.Covers b) := by
        rw [← hb, captureEntry]
        by_cases hin : b ∈ addresses <;> by_cases hcov : tb.Covers b <;> simp [hin, hcov]
      rw [ih hrest hmem', hhead]
      exact seen_cons_iff

/-- The loop body of `check_tb_faulted`. -/
def checkSlot (tb : Tb) (s : State) (i : ℕ) : State :=
  match s.tbFaulted.activeTriggers[i]? with
  | some address =>
    if tb.Checked address then
      let s := s.insertFaultedAssembly tb address
      { s with tbFaulted := { s.tbFaulted with
          activeTriggers := s.tbFaulted.activeTriggers.set i 0xdeadbeaf
          doneTriggers := s.tbFaulted.doneTriggers + 1 } }
    else s
  | none => s

theorem checkTbFaulted_eq (s : State) (tb : Tb) : s.checkTbFaulted tb =
    if s.tbFaulted.doneTriggers = s.tbFaulted.currentTriggers then s
    else (List.range s.tbFaulted.currentTriggers).foldl (checkSlot tb) s := rfl

/-- A slot that compares is marked. -/
def markSlot (tb : Tb) (address : ℕ) : ℕ := if tb.Checked address then 0xdeadbeaf else address

/-- The loop: what compares is written into the list, marked and counted. -/
theorem foldl_checkSlot (s : State) (tb : Tb) : ∀ k ≤ s.tbFaulted.activeTriggers.length,
    ((List.range k).foldl (checkSlot tb) s).tbFaulted = { s.tbFaulted with
      list := ((s.tbFaulted.activeTriggers.take k).filter fun a => decide (tb.Checked a)).foldl
        (insertAssembly (State.decodeAssembler tb)) s.tbFaulted.list
      activeTriggers := (s.tbFaulted.activeTriggers.take k).map (markSlot tb)
        ++ s.tbFaulted.activeTriggers.drop k
      doneTriggers := s.tbFaulted.doneTriggers
        + (s.tbFaulted.activeTriggers.take k).countP fun a => decide (tb.Checked a) }
  | 0, _ => by simp
  | k + 1, hk => by
    have ih := foldl_checkSlot s tb k (by omega)
    have hlt : k < s.tbFaulted.activeTriggers.length := hk
    rw [List.range_succ, List.foldl_append, List.foldl_cons, List.foldl_nil]
    generalize (List.range k).foldl (checkSlot tb) s = s' at ih ⊢
    have hdrop := List.drop_eq_getElem_cons hlt
    have hlen : ((s.tbFaulted.activeTriggers.take k).map (markSlot tb)).length = k := by
      rw [List.length_map, List.length_take]
      omega
    have hslot : s'.tbFaulted.activeTriggers[k]? = some s.tbFaulted.activeTriggers[k] := by
      rw [ih, hdrop, List.getElem?_append_right (by omega), hlen]
      simp
    have htake : s.tbFaulted.activeTriggers.take (k + 1)
        = s.tbFaulted.activeTriggers.take k ++ [s.tbFaulted.activeTriggers[k]] :=
      List.take_succ_eq_append_getElem hlt
    rw [checkSlot, hslot, htake, List.filter_append, List.foldl_append, List.map_append, List.countP_append]
    by_cases hchecked : tb.Checked s.tbFaulted.activeTriggers[k]
    · have hset : ((s.tbFaulted.activeTriggers.take k).map (markSlot tb)
          ++ s.tbFaulted.activeTriggers.drop k).set k 0xdeadbeaf
            = (s.tbFaulted.activeTriggers.take k).map (markSlot tb) ++ [0xdeadbeaf]
              ++ s.tbFaulted.activeTriggers.drop (k + 1) := by
        rw [List.set_append_right _ _ (by omega), hlen, Nat.sub_self, hdrop, List.set_cons_zero,
          List.append_assoc, List.singleton_append]
      simp only [if_pos hchecked, insertFaultedAssembly_tbFaulted, ih, hset]
      simp [hchecked, markSlot, Nat.add_assoc]
    · simp only [if_neg hchecked, ih]
      simp [hchecked, markSlot, ← hdrop]

/-! ### Array and list in step -/

/-- What the array holds for an entry. -/
def slotOf (item : TbEntry) : ℕ := item.2.elim item.1 fun _ => 0xdeadbeaf

/-- The collection of `n` slots holds these entries. -/
structure Tracks (n : ℕ) (s : State) (list : List TbEntry) : Prop where
  entries : s.tbFaulted.list = list
  slots : s.tbFaulted.activeTriggers.take list.length = list.reverse.map slotOf
  length : s.tbFaulted.activeTriggers.length = n
  maxTriggers : s.tbFaulted.maxTriggers = n
  current : s.tbFaulted.currentTriggers = list.length
  done : s.tbFaulted.doneTriggers = list.countP fun item => item.2.isSome
  newest : NewestWaits list

variable {n : ℕ} {s : State} {list : List TbEntry} {tb : Tb}

theorem Tracks.init (h : s.tbFaulted = tbFaultedInit n) : Tracks n s [] where
  entries := by rw [h]; rfl
  slots := by rw [h]; rfl
  length := by rw [h]; exact List.length_replicate
  maxTriggers := by rw [h]; rfl
  current := by rw [h]; rfl
  done := by rw [h]; rfl
  newest := .nil

theorem Tracks.register (h : Tracks n s list) (hlt : list.length < n) (address : ℕ) :
    Tracks n (s.tbFaultedRegister address) ((address, none) :: list) := by
  have hne : ¬s.tbFaulted.maxTriggers = s.tbFaulted.currentTriggers := by
    rw [h.maxTriggers, h.current]
    omega
  have hreg : (s.tbFaultedRegister address).tbFaulted = { s.tbFaulted with
      list := (address, none) :: s.tbFaulted.list
      activeTriggers := s.tbFaulted.activeTriggers.set s.tbFaulted.currentTriggers address
      currentTriggers := s.tbFaulted.currentTriggers + 1 } := by
    rw [State.tbFaultedRegister]
    simp only [if_neg hne]
  constructor
  · rw [hreg, h.entries]
  · have hset : list.length < (s.tbFaulted.activeTriggers.set list.length address).length := by
      rw [List.length_set, h.length]
      exact hlt
    rw [hreg, h.current, List.length_cons, List.take_succ_eq_append_getElem hset,
      List.take_set_of_le le_rfl, h.slots, List.getElem_set_self, List.reverse_cons, List.map_append]
    rfl
  · rw [hreg, List.length_set, h.length]
  · rw [hreg, h.maxTriggers]
  · rw [hreg, h.current, List.length_cons]
  · rw [hreg, h.done]
    rfl
  · rw [NewestWaits, List.pairwise_cons]
    exact ⟨fun _ _ _ _ => rfl, h.newest⟩

/-- The marked slots never compare. -/
theorem not_checked_mark (htb : tb.AvoidsMark) : ¬tb.Checked 0xdeadbeaf := fun h =>
  htb ⟨h.1, h.2.trans (Nat.mod_le _ _)⟩

theorem mem_slots_checked (htb : tb.AvoidsMark) {a : ℕ} :
    a ∈ (list.reverse.map slotOf).filter (fun a => decide (tb.Checked a)) ↔
      a ∈ pendingAddresses list ∧ tb.Checked a ∧ a ∉ ([] : List ℕ) := by
  rw [List.mem_filter, decide_eq_true_iff, List.mem_map, mem_pendingAddresses]
  simp only [List.mem_reverse, List.not_mem_nil, not_false_eq_true, and_true]
  refine and_congr_left fun hchecked => ⟨?_, fun h => ⟨_, h, rfl⟩⟩
  rintro ⟨⟨b, o⟩, hmem, rfl⟩
  cases o with
  | none => exact hmem
  | some assembler => exact absurd hchecked (not_checked_mark htb)

/-- All entries have their assembler once the counters agree. -/
theorem Tracks.all_done (tb : Tb) (h : Tracks n s list)
    (hdone : s.tbFaulted.doneTriggers = s.tbFaulted.currentTriggers) :
    pendingAddresses list = [] ∧ list.map (captureEntry tb) = list := by
  rw [h.done, h.current, List.countP_eq_length] at hdone
  constructor
  · refine List.eq_nil_iff_forall_not_mem.mpr fun a ha => ?_
    exact absurd (hdone _ (mem_pendingAddresses.mp ha)) (by simp)
  · refine (List.map_congr_left fun item hitem => ?_).trans (List.map_id list)
    obtain ⟨assembler, hsome⟩ := Option.isSome_iff_exists.mp (hdone item hitem)
    rw [captureEntry, hsome]
    exact Prod.ext rfl hsome.symm

theorem Tracks.foldl_list (tb : Tb) (h : Tracks n s list) (hlen : list.length ≤ n)
    (hdone : s.tbFaulted.doneTriggers ≠ s.tbFaulted.currentTriggers) :
    (s.checkTbFaulted tb).tbFaulted = { s.tbFaulted with
      list := ((list.reverse.map slotOf).filter fun a => decide (tb.Checked a)).foldl
        (insertAssembly (State.decodeAssembler tb)) list
      activeTriggers := (list.reverse.map slotOf).map (markSlot tb)
        ++ s.tbFaulted.activeTriggers.drop list.length
      doneTriggers := s.tbFaulted.doneTriggers
        + (list.reverse.map slotOf).countP fun a => decide (tb.Checked a) } := by
  rw [checkTbFaulted_eq, if_neg hdone, h.current, foldl_checkSlot s tb list.length (h.length ▸ hlen),
    h.slots, h.entries]

/-- The entries get what they are to get iff the TB captures each waiting address once. -/
theorem Tracks.check_iff (h : Tracks n s list) (hlen : list.length ≤ n) (htb : tb.AvoidsMark) :
    (s.checkTbFaulted tb).tbFaulted.list = list.map (captureEntry tb) ↔
      tb.CapturesOnce (pendingAddresses list) := by
  by_cases hdone : s.tbFaulted.doneTriggers = s.tbFaulted.currentTriggers
  · obtain ⟨hpending, hmap⟩ := h.all_done tb hdone
    rw [checkTbFaulted_eq, if_pos hdone, hmap, hpending]
    exact iff_of_true h.entries ⟨fun a ha => absurd ha List.not_mem_nil, List.nodup_nil⟩
  · rw [h.foldl_list tb hlen hdone]
    refine (foldl_insertAssembly_eq_iff h.newest fun a => mem_slots_checked htb).trans ?_
    simp only [List.not_mem_nil, not_false_eq_true, and_true]
    exact ⟨fun h => ⟨h.1, h.2⟩, fun h => ⟨h.1, h.2⟩⟩

/-- Then the array is in step again. -/
theorem Tracks.check (h : Tracks n s list) (hlen : list.length ≤ n) (htb : tb.AvoidsMark)
    (hcap : tb.CapturesOnce (pendingAddresses list)) :
    Tracks n (s.checkTbFaulted tb) (list.map (captureEntry tb)) := by
  have hlist := (h.check_iff hlen htb).mpr hcap
  by_cases hdone : s.tbFaulted.doneTriggers = s.tbFaulted.currentTriggers
  · rw [checkTbFaulted_eq, if_pos hdone, (h.all_done tb hdone).2]
    exact h
  · have hstate := h.foldl_list tb hlen hdone
    have hwaiting : ∀ {a}, (a, none) ∈ list → (tb.Checked a ↔ tb.Covers a) := fun hmem =>
      hcap.compared _ (mem_pendingAddresses.mpr hmem)
    have hslot : ∀ item ∈ list, markSlot tb (slotOf item) = slotOf (captureEntry tb item) := by
      rintro ⟨a, o⟩ hitem
      cases o with
      | none =>
        by_cases hcov : tb.Covers a
        · simp [markSlot, slotOf, captureEntry, (hwaiting hitem).mpr hcov, hcov]
        · simp [markSlot, slotOf, captureEntry, mt (hwaiting hitem).mp hcov, hcov]
      | some assembler => simp [markSlot, slotOf, captureEntry, not_checked_mark htb]
    have hcount : ∀ l : List TbEntry, (∀ item ∈ l, item ∈ list) →
        (l.countP fun item => item.2.isSome) + l.countP ((fun a => decide (tb.Checked a)) ∘ slotOf)
          = l.countP ((fun item => item.2.isSome) ∘ captureEntry tb) := by
      intro l
      induction l with
      | nil => exact fun _ => rfl
      | cons item l ih =>
        intro hl
        obtain ⟨hitem, hrest⟩ := List.forall_mem_cons.mp hl
        obtain ⟨a, o⟩ := item
        rw [List.countP_cons, List.countP_cons, List.countP_cons, ← ih hrest]
        cases o with
        | none =>
          by_cases hcov : tb.Covers a
          · simp [slotOf, captureEntry, (hwaiting hitem).mpr hcov, hcov, Nat.add_assoc]
          · simp [slotOf, captureEntry, mt (hwaiting hitem).mp hcov, hcov]
        | some assembler =>
          simp [slotOf, captureEntry, not_checked_mark htb]
          omega
    constructor
    · exact hlist
    · have htake :
          ((list.reverse.map slotOf).map (markSlot tb)).length = (list.map (captureEntry tb)).length := by
        simp
      rw [hstate, ← htake, List.take_left, ← List.map_reverse, List.map_map, List.map_map]
      exact List.map_congr_left fun item hitem => hslot item (List.mem_reverse.mp hitem)
    · rw [hstate]
      simp only [List.length_append, List.length_map, List.length_reverse, List.length_drop, h.length]
      omega
    · rw [hstate, h.maxTriggers]
    · rw [hstate, h.current, List.length_map]
    · have hall := hcount list fun _ hitem => hitem
      rw [hstate, h.done]
      simpa only [List.countP_map, List.countP_reverse] using hall
    · refine List.pairwise_map.mpr (h.newest.imp fun {newer older} hwaits hsame hnone => ?_)
      have hsame : newer.1 = older.1 := hsame
      cases hold : older.2 with
      | some assembler => simp [captureEntry, hold] at hnone
      | none =>
        have hnew := hwaits hsame hold
        simpa [captureEntry, hold, hnew, hsame] using hnone

/-! ### Runs -/

def tbFaultedStep (s : State) : TbFaultedEvent → State
  | .register address => s.tbFaultedRegister address
  | .check tb => s.checkTbFaulted tb

def tbFaultedRun (s : State) (es : List TbFaultedEvent) : State := es.foldl tbFaultedStep s

def registeredAddresses (es : List TbFaultedEvent) : List ℕ :=
  es.filterMap fun
    | .register address => some address
    | .check _ => none

/-- No more registrations than slots, and no TB with the mark. -/
structure InBounds (n : ℕ) (es : List TbFaultedEvent) : Prop where
  registered : (registeredAddresses es).length ≤ n
  avoids : ∀ tb, .check tb ∈ es → tb.AvoidsMark

/-- Every TB captures the addresses that wait for it. -/
def AllCaptured (es : List TbFaultedEvent) : Prop :=
  ∀ pre tb, pre ++ [.check tb] <+: es → tb.CapturesOnce (pendingAddresses (expectedEntries pre))

theorem length_expectedEntries (es : List TbFaultedEvent) :
    (expectedEntries es).length = (registeredAddresses es).length := by
  induction es with
  | nil => rfl
  | cons e es ih => cases e <;> simpa [expectedEntries, registeredAddresses] using ih

theorem InBounds.left {es es' : List TbFaultedEvent} (h : InBounds n (es ++ es')) : InBounds n es where
  registered := by
    have hlen := h.registered
    rw [registeredAddresses, List.filterMap_append, List.length_append] at hlen
    exact (Nat.le_add_right _ _).trans hlen
  avoids tb htb := h.avoids tb (List.mem_append_left _ htb)

theorem AllCaptured.left {es es' : List TbFaultedEvent} (h : AllCaptured (es ++ es')) : AllCaptured es :=
  fun pre tb hpre => h pre tb (hpre.trans (List.prefix_append _ _))

/-- Array and list stay in step while every TB captures. -/
theorem tbFaultedRun_tracks (hinit : s.tbFaulted = tbFaultedInit n) {es : List TbFaultedEvent}
    (hbounds : InBounds n es) (hcaptured : AllCaptured es) :
    Tracks n (tbFaultedRun s es) (expectedEntries es) := by
  induction es using List.reverseRecOn with
  | nil => exact .init hinit
  | append_singleton es e ih =>
    have h := ih hbounds.left hcaptured.left
    have hlen := hbounds.registered
    rw [tbFaultedRun, List.foldl_concat, ← tbFaultedRun]
    cases e with
    | register a =>
      rw [← length_expectedEntries, expectedEntries_concat_register, List.length_cons] at hlen
      rw [expectedEntries_concat_register]
      exact h.register hlen a
    | check tb =>
      rw [← length_expectedEntries, expectedEntries_concat_check, List.length_map] at hlen
      rw [expectedEntries_concat_check]
      exact h.check hlen (hbounds.avoids tb (by simp)) (hcaptured es tb (List.prefix_refl _))

/-- After every event the entries hold the first TB with their address iff every TB captures each
    address that waits for it once. -/
theorem tbFaultedRun_captures_iff (hinit : s.tbFaulted = tbFaultedInit n) {es : List TbFaultedEvent}
    (hbounds : InBounds n es) :
    (∀ pre, pre <+: es → (tbFaultedRun s pre).tbFaulted.list = expectedEntries pre) ↔ AllCaptured es := by
  constructor
  · intro hall
    induction es using List.reverseRecOn with
    | nil => exact fun pre tb hpre => absurd (List.prefix_nil.mp hpre) (by simp)
    | append_singleton es e ih =>
      have hcaptured := ih hbounds.left fun pre hpre => hall pre (hpre.trans (List.prefix_append _ _))
      intro pre tb hpre
      rcases List.prefix_concat_iff.mp hpre with heq | hpre
      · -- the last event is the TB
        obtain ⟨rfl, he⟩ := List.append_inj' heq rfl
        obtain rfl := (List.cons.inj he).1
        have h := tbFaultedRun_tracks hinit hbounds.left hcaptured
        have hlen := hbounds.left.registered
        rw [← length_expectedEntries] at hlen
        refine (h.check_iff hlen (hbounds.avoids tb (by simp))).mp ?_
        have hlast := hall _ (List.prefix_refl _)
        rwa [tbFaultedRun, List.foldl_concat, ← tbFaultedRun, expectedEntries_concat_check] at hlast
      · exact hcaptured pre tb hpre
  · rintro hcaptured pre ⟨rest, rfl⟩
    exact (tbFaultedRun_tracks hinit hbounds.left hcaptured.left).entries

/-- One slot for a faulted address. -/
def oneSlot : State := { freshState [] with tbFaulted := tbFaultedInit 1 }

/-- The address is registered, then a TB of four bytes at `0x10` is translated. -/
def registerAndCheck (address : ℕ) : List TbFaultedEvent := [.register address, .check (oneInsnTb 0x10)]

theorem registerAndCheck_inBounds (address : ℕ) : InBounds 1 (registerAndCheck address) where
  registered := le_rfl
  avoids tb htb := by
    have htb : tb = oneInsnTb 0x10 := by simpa [registerAndCheck] using htb
    rw [htb]
    unfold Tb.AvoidsMark
    decide

theorem tbFaultedRun_captures_iff_inside :
    (∀ pre, pre <+: registerAndCheck 0x12 → (tbFaultedRun oneSlot pre).tbFaulted.list = expectedEntries pre) ↔
      AllCaptured (registerAndCheck 0x12) :=
  tbFaultedRun_captures_iff (n := 1) rfl (registerAndCheck_inBounds 0x12)

/-- The first address behind the TB gets its assembler. -/
theorem tbFaultedRun_captures_behind : ¬∀ n s es, s.tbFaulted = tbFaultedInit n → InBounds n es →
    ∀ pre, pre <+: es → (tbFaultedRun s pre).tbFaulted.list = expectedEntries pre := by
  intro h
  have hlist := h 1 oneSlot (registerAndCheck 0x14) rfl (registerAndCheck_inBounds 0x14) _
    (List.prefix_refl _)
  exact absurd hlist (by decide)

end Archie.Plugin
