import Archie.Plugin.Avl
import Archie.Plugin.FullMemDump

/-! The memory access log: one entry for each instruction and data address, with the number of its
    accesses.

    `mem_comparison_func` returns 64-bit differences as an `int`. Two addresses that differ by a
    multiple of `2 ^ 32` are equal to it, two that differ by `2 ^ 31` are each below the other:

        0x20000000 - 0x120000000  ──int──▶  0             one entry for both
        0x60000000 - 0xE0000000   ──int──▶  -2 ^ 31
        0xE0000000 - 0x60000000   ──int──▶  -2 ^ 31       -/

namespace Archie.Plugin

open Comparison (StrictTotal InHalfCircle cutDifference cutDifference_eq cutDifference_self
  strictTotal_cutDifference_iff)

/-! ### The comparison -/

theorem memComparisonFunc_of_ne {a b : MemKey} (h : a.insAddress ≠ b.insAddress) :
    memComparisonFunc a b = cutDifference 32 a.insAddress b.insAddress := if_neg fun hc => h hc.1

theorem memComparisonFunc_of_eq {a b : MemKey} (h : a.insAddress = b.insAddress) :
    memComparisonFunc a b = cutDifference 32 a.memmoryAddress b.memmoryAddress := by
  rw [memComparisonFunc]
  split
  · rfl
  · next hc =>
    have hmem : a.memmoryAddress = b.memmoryAddress := not_not.mp fun hne => hc ⟨h, hne⟩
    rw [h, hmem, cutDifference_self]
    exact cutDifference_self 32 b.insAddress

/-- The addresses of the instructions, and the data addresses of each instruction. -/
def KeysInHalfCircles (S : Set MemKey) : Prop :=
  InHalfCircle 32 (MemKey.insAddress '' S) ∧
    ∀ ins, InHalfCircle 32 (MemKey.memmoryAddress '' {k ∈ S | k.insAddress = ins})

/-- The distances of both addresses from the starts of their half circles. -/
def MemKey.distances (start : BitVec 32) (dataStart : BitVec 64 → BitVec 32) (k : MemKey) : ℕ ×ₗ ℕ :=
  toLex ((k.insAddress.setWidth 32 - start).toNat,
    (k.memmoryAddress.setWidth 32 - dataStart k.insAddress).toNat)

/-- Keys in half circles are ordered by these distances. -/
theorem KeysInHalfCircles.exists_agrees {S : Set MemKey} (h : KeysInHalfCircles S) :
    ∃ ord : MemKey → ℕ ×ₗ ℕ, AvlTree.Agrees memComparisonFunc ord S ∧ Set.InjOn ord S := by
  obtain ⟨⟨hinsDistinct, start, hins⟩, hdata⟩ := h
  choose dataStart hdataHalf using fun ins => (hdata ins).half
  have hinsCmp : ∀ a ∈ S, ∀ b ∈ S, a.insAddress ≠ b.insAddress → memComparisonFunc a b =
      (a.insAddress.setWidth 32 - start).toNat - (b.insAddress.setWidth 32 - start).toNat :=
    fun a ha b hb hne => (memComparisonFunc_of_ne hne).trans
      (cutDifference_eq (by decide) (hins _ ⟨a, ha, rfl⟩) (hins _ ⟨b, hb, rfl⟩))
  have hdataCmp : ∀ a ∈ S, ∀ b ∈ S, a.insAddress = b.insAddress → memComparisonFunc a b =
      (a.memmoryAddress.setWidth 32 - dataStart b.insAddress).toNat
        - (b.memmoryAddress.setWidth 32 - dataStart b.insAddress).toNat :=
    fun a ha b hb he => (memComparisonFunc_of_eq he).trans (cutDifference_eq (by decide)
      (hdataHalf _ _ ⟨a, ⟨ha, he⟩, rfl⟩) (hdataHalf _ _ ⟨b, ⟨hb, rfl⟩, rfl⟩))
  have hinsInj : ∀ a ∈ S, ∀ b ∈ S, (a.insAddress.setWidth 32 - start).toNat
      = (b.insAddress.setWidth 32 - start).toNat → a.insAddress = b.insAddress := by
    intro a ha b hb he
    rw [BitVec.toNat_inj, sub_left_inj] at he
    exact hinsDistinct ⟨a, ha, rfl⟩ ⟨b, hb, rfl⟩ he
  refine ⟨MemKey.distances start dataStart, ⟨fun a ha b hb => ?_, fun a ha b hb => ?_⟩, ?_⟩
  · rw [MemKey.distances, MemKey.distances, Prod.Lex.toLex_lt_toLex]
    rcases eq_or_ne a.insAddress b.insAddress with he | hne
    · rw [hdataCmp a ha b hb he, he]
      dsimp only
      omega
    · have := mt (hinsInj a ha b hb) hne
      rw [hinsCmp a ha b hb hne]
      dsimp only
      omega
  · rw [MemKey.distances, MemKey.distances, toLex_inj, Prod.mk.injEq]
    rcases eq_or_ne a.insAddress b.insAddress with he | hne
    · rw [hdataCmp a ha b hb he, he]
      omega
    · have := mt (hinsInj a ha b hb) hne
      rw [hinsCmp a ha b hb hne]
      omega
  · intro a ha b hb he
    obtain ⟨hinsEq, hdataEq⟩ := Prod.mk.inj (toLex_inj.mp he)
    have hi := hinsInj a ha b hb hinsEq
    rw [hi, BitVec.toNat_inj, sub_left_inj] at hdataEq
    have hm := (hdata b.insAddress).distinct ⟨a, ⟨ha, hi⟩, rfl⟩ ⟨b, ⟨hb, rfl⟩, rfl⟩ hdataEq
    cases a
    cases b
    exact congrArg₂ MemKey.mk hi hm

/-- The comparison is a strict total order on finitely many keys iff they lie in half circles. -/
theorem strictTotal_memComparisonFunc_iff {S : Set MemKey} (hfin : S.Finite) :
    StrictTotal memComparisonFunc S ↔ KeysInHalfCircles S := by
  constructor
  · intro h
    refine ⟨?_, fun ins => ?_⟩
    · rw [← strictTotal_cutDifference_iff (by decide) (hfin.image _)]
      exact h.of_part (cutDifference_self 32) fun a _ b _ hne => memComparisonFunc_of_ne hne
    · rw [← strictTotal_cutDifference_iff (by decide) ((hfin.subset (Set.sep_subset _ _)).image _)]
      exact (h.mono (Set.sep_subset _ _)).of_part (cutDifference_self 32) fun a ha b hb _ =>
        memComparisonFunc_of_eq (ha.2.trans hb.2.symm)
  · intro h
    obtain ⟨ord, hagrees, hinj⟩ := h.exists_agrees
    exact hagrees.strictTotal hinj

/-! ### The log -/

/-- One entry for each pair that was accessed, with the number of its accesses. -/
structure Tallies (memInfoList : List MemInfo) (run : List MemAccess) : Prop where
  distinct : (memInfoList.map MemInfo.key).Nodup
  complete : ∀ k, k ∈ memInfoList.map MemInfo.key ↔ k ∈ run.map MemAccess.key
  counters : ∀ m ∈ memInfoList, m.counter = (run.map MemAccess.key).count m.key

/-- The list is right, and the tree has the place of each entry in it. -/
structure MemLog.Tallied (ord : MemKey → ℕ ×ₗ ℕ) (log : MemLog) (run : List MemAccess) : Prop
    extends Tallies log.memInfoList run where
  ordered : log.memAvlRoot.Ordered ord
  places : ∀ p, p ∈ log.memAvlRoot.toList ↔ (log.memInfoList.map MemInfo.key)[p.2]? = some p.1

variable {ord : MemKey → ℕ ×ₗ ℕ} {S : Set MemKey} {log : MemLog} {run : List MemAccess} {a : MemAccess}

theorem MemLog.Tallied.keys (h : log.Tallied ord run) (hS : ∀ b ∈ run, b.key ∈ S) :
    ∀ p ∈ log.memAvlRoot.toList, p.1 ∈ S := by
  intro p hp
  have hkey := List.mem_of_getElem? ((h.places p).mp hp)
  obtain ⟨b, hb, hbp⟩ := List.mem_map.mp ((h.complete p.1).mp hkey)
  rw [← hbp]
  exact hS b hb

theorem MemLog.Tallied.not_mem_of_find (h : log.Tallied ord run)
    (hc : AvlTree.Agrees memComparisonFunc ord S) (hS : ∀ b ∈ run, b.key ∈ S) (ha : a.key ∈ S)
    (hfind : log.find a = none) : a.key ∉ log.memInfoList.map MemInfo.key := by
  intro hmem
  obtain ⟨i, hi⟩ := List.mem_iff_getElem?.mp hmem
  have hno := (AvlTree.find_eq_none_iff hc ha (h.keys hS) h.ordered).mp hfind
  exact hno (a.key, i) ((h.places _).mpr hi) rfl

/-- The first access of a pair. -/
theorem MemLog.Tallied.newEntry (h : log.Tallied ord run)
    (hc : AvlTree.Agrees memComparisonFunc ord S) (hS : ∀ b ∈ run, b.key ∈ S) (ha : a.key ∈ S)
    (hfind : log.find a = none) : (memaccessDataCb log a).Tallied ord (run ++ [a]) := by
  have hnew := h.not_mem_of_find hc hS ha hfind
  have hzero : (run.map MemAccess.key).count a.key = 0 :=
    List.count_eq_zero_of_not_mem (mt (h.complete a.key).mpr hnew)
  rw [memaccessDataCb, hfind]
  refine ⟨⟨?_, fun k => ?_, fun m hm => ?_⟩, h.ordered.insert hc ha (h.keys hS) hfind, fun p => ?_⟩
  · rw [List.map_append, List.map_singleton]
    exact List.nodup_append.mpr ⟨h.distinct, List.nodup_singleton _, by simpa using hnew⟩
  · rw [List.map_append, List.map_append, List.mem_append, List.mem_append, h.complete k]
    rfl
  · rw [List.map_append, List.count_append]
    rcases List.mem_append.mp hm with hm | hm
    · have hne : a.key ≠ m.key := fun he => hnew (he ▸ List.mem_map_of_mem hm)
      simp [h.counters m hm, hne]
    · rw [List.mem_singleton.mp hm, hzero]
      simp
  · rw [AvlTree.mem_toList_insert hfind, h.places, List.map_append, List.map_singleton,
      List.getElem?_append, List.length_map, Prod.ext_iff]
    rcases lt_trichotomy p.2 log.memInfoList.length with hlt | heq | hgt
    · rw [if_pos hlt]
      exact or_iff_right fun hp => hlt.ne hp.2
    · rw [heq, if_neg (lt_irrefl _), Nat.sub_self, List.getElem?_eq_none (List.length_map _).le]
      simp [eq_comm]
    · rw [if_neg hgt.not_gt, List.getElem?_eq_none (by rw [List.length_map]; exact hgt.le),
        List.getElem?_eq_none (by rw [List.length_singleton]; omega)]
      simp [hgt.ne']

/-- A pair that has been accessed before. -/
theorem MemLog.Tallied.count (h : log.Tallied ord run)
    (hc : AvlTree.Agrees memComparisonFunc ord S) (hinj : Set.InjOn ord S) (hS : ∀ b ∈ run, b.key ∈ S)
    (ha : a.key ∈ S) {i : ℕ} (hfind : log.find a = some i) :
    (memaccessDataCb log a).Tallied ord (run ++ [a]) := by
  obtain ⟨p, hp, rfl, hzero⟩ := AvlTree.exists_mem_of_find hfind
  have hkey : a.key = p.1 := hinj ha (h.keys hS p hp) ((hc.zero_iff _ ha _ (h.keys hS p hp)).mp hzero)
  have hplace := (h.places p).mp hp
  have hkeys : (memaccessDataCb log a).memInfoList.map MemInfo.key = log.memInfoList.map MemInfo.key := by
    rw [memaccessDataCb, hfind]
    exact map_count (fun _ _ => rfl) _ _
  refine ⟨⟨?_, fun k => ?_, fun m hm => ?_⟩, ?_, fun q => ?_⟩
  · rw [hkeys]
    exact h.distinct
  · rw [hkeys, List.map_append, List.mem_append, h.complete k, List.map_singleton]
    refine (or_iff_left_of_imp fun hk => ?_).symm
    rw [List.mem_singleton.mp hk, hkey]
    exact (h.complete p.1).mp (List.mem_of_getElem? hplace)
  · rw [memaccessDataCb, hfind] at hm
    obtain ⟨j, hj⟩ := List.mem_iff_getElem?.mp hm
    rw [List.getElem?_modify] at hj
    obtain ⟨e, he, rfl⟩ := Option.map_eq_some_iff.mp hj
    have hcount := h.counters e (List.mem_of_getElem? he)
    have hej : (log.memInfoList.map MemInfo.key)[j]? = some e.key := by rw [List.getElem?_map, he]; rfl
    rw [List.map_append, List.count_append]
    by_cases hij : p.2 = j
    · -- the entry that is counted is the one of the pair
      have heq : e.key = a.key := by
        rw [hkey]
        exact Option.some.inj (hej.symm.trans (hij ▸ hplace))
      simp [hij, hcount, heq]
    · have hne : a.key ≠ e.key := by
        intro heq
        have hlt := (List.getElem?_eq_some_iff.mp hplace).1
        exact hij ((List.getElem?_inj hlt h.distinct).mp (by rw [hplace, hej, ← heq, hkey]))
      simp [hij, hcount, hne]
  · rw [memaccessDataCb, hfind]
    exact h.ordered
  · rw [hkeys, ← h.places, memaccessDataCb, hfind]

theorem tallied_memLog (hc : AvlTree.Agrees memComparisonFunc ord S) (hinj : Set.InjOn ord S)
    (hS : ∀ b ∈ run, b.key ∈ S) : (memLog true run).Tallied ord run := by
  induction run using List.reverseRecOn with
  | nil => exact ⟨⟨List.nodup_nil, fun _ => Iff.rfl, fun m hm => absurd hm List.not_mem_nil⟩,
      List.Pairwise.nil, by simp [memLog, AvlTree.toList]⟩
  | append_singleton run a ih =>
    have hrun : ∀ b ∈ run, b.key ∈ S := fun b hb => hS b (List.mem_append_left _ hb)
    have ha := hS a (List.mem_append_right _ List.mem_cons_self)
    rw [memLog_append]
    rcases hfind : (memLog true run).find a with _ | i
    · exact (ih hrun).newEntry hc hrun ha hfind
    · exact (ih hrun).count hc hinj hrun ha hfind

/-- The pairs that were accessed. -/
def accessedKeys (run : List MemAccess) : Set MemKey := {k | k ∈ run.map MemAccess.key}

/-- The log is right, by an order of the accessed pairs, iff their addresses lie in half circles. -/
theorem memLog_tallies_iff (run : List MemAccess) :
    (Tallies (memLog true run).memInfoList run ∧ StrictTotal memComparisonFunc (accessedKeys run)) ↔
      KeysInHalfCircles (accessedKeys run) := by
  have hfin : (accessedKeys run).Finite := List.finite_toSet _
  rw [strictTotal_memComparisonFunc_iff hfin, and_iff_right_iff_imp]
  intro h
  obtain ⟨ord, hagrees, hinj⟩ := h.exists_agrees
  exact (tallied_memLog hagrees hinj fun b hb => List.mem_map_of_mem hb).toTallies

/-- One instruction writes to two addresses that differ in the upper half. -/
def upperHalfRun : List MemAccess :=
  [⟨0x08000004#64, 0x20000000#64, 2, true⟩, ⟨0x08000004#64, 0x120000000#64, 2, true⟩]

theorem not_tallies_upperHalf : ¬∀ run, Tallies (memLog true run).memInfoList run ∧
    StrictTotal memComparisonFunc (accessedKeys run) := by
  intro h
  have hmem := ((h upperHalfRun).1.complete ⟨0x08000004#64, 0x120000000#64⟩).mpr (by decide)
  exact absurd hmem (by decide)

/-! ### The tree of lib/avl.c -/

/-- `memaccess_data_cb` with the `avl_insert` that goes down in a loop and rotates in place. -/
def memaccessDataCbAvl (log : MemLog) (a : MemAccess) : Option MemLog :=
  match log.find a with
  | none => do
    let (memAvlRoot, _) ← Avl.avlInsert memComparisonFunc a.key log.memInfoList.length log.memAvlRoot
    return ⟨log.memInfoList ++ [⟨a.key, a.sizeShift, a.isStore, 1⟩], memAvlRoot⟩
  | some i =>
    some { log with memInfoList := log.memInfoList.modify i fun m => { m with counter := m.counter + 1 } }

/-- The tree is an AVL tree with no more entries than the list, whatever the comparison does. -/
structure MemLog.Sized (log : MemLog) : Prop where
  balanced : log.memAvlRoot.Balanced
  entries : log.memAvlRoot.toList.length ≤ log.memInfoList.length

theorem MemLog.Sized.memaccessDataCb (h : log.Sized) (a : MemAccess) :
    (memaccessDataCb log a).Sized ∧
      log.memInfoList.length ≤ (Archie.Plugin.memaccessDataCb log a).memInfoList.length := by
  rcases hfind : log.find a with _ | i
  · rw [Archie.Plugin.memaccessDataCb, hfind]
    have hone := AvlTree.length_toList_insert_le memComparisonFunc a.key log.memInfoList.length
      log.memAvlRoot
    refine ⟨⟨h.balanced.insert, ?_⟩, ?_⟩
    · rw [List.length_append, List.length_singleton]
      exact hone.trans (Nat.add_le_add_right h.entries 1)
    · rw [List.length_append]
      exact Nat.le_add_right _ _
  · rw [Archie.Plugin.memaccessDataCb, hfind]
    refine ⟨⟨h.balanced, ?_⟩, (List.length_modify ..).ge⟩
    rw [List.length_modify]
    exact h.entries

/-- `2 ^ 64` entries fit into a tree of the height that `da` is made for. -/
theorem MemLog.Sized.height_lt (h : log.Sized) (hlen : log.memInfoList.length ≤ 2 ^ 64) :
    log.memAvlRoot.height < Avl.maxHeight := by
  have hentries := h.entries
  refine h.balanced.height_lt ?_
  have hfib : Nat.fib (Avl.maxHeight + 2) = 19740274219868223167 := by
    rw [Avl.maxHeight]
    norm_num
  omega

theorem MemLog.Sized.memaccessDataCbAvl (h : log.Sized) (hlen : log.memInfoList.length ≤ 2 ^ 64)
    (a : MemAccess) : memaccessDataCbAvl log a = some (Archie.Plugin.memaccessDataCb log a) := by
  rcases hfind : log.find a with _ | i
  · have hinsert := Avl.avlInsert_eq memComparisonFunc a.key log.memInfoList.length h.balanced
      (h.height_lt hlen).le hfind
    rw [Archie.Plugin.memaccessDataCbAvl, Archie.Plugin.memaccessDataCb, hfind, hinsert]
    rfl
  · rw [Archie.Plugin.memaccessDataCbAvl, Archie.Plugin.memaccessDataCb, hfind]

theorem sized_memLog (run : List MemAccess) : (memLog true run).Sized := by
  induction run using List.reverseRecOn with
  | nil => exact ⟨trivial, le_rfl⟩
  | append_singleton run a ih =>
    rw [memLog_append]
    exact (ih.memaccessDataCb a).1

/-- Over a run with at most `2 ^ 64` entries the library never fails, and the tree that it rotates in
    place is the one of the log; it stays an AVL tree even where the comparison is no order. -/
theorem foldlM_memaccessDataCbAvl (run : List MemAccess)
    (hlen : (memLog true run).memInfoList.length ≤ 2 ^ 64) :
    run.foldlM memaccessDataCbAvl ⟨[], .nil⟩ = some (memLog true run) ∧
    (memLog true run).memAvlRoot.Balanced ∧ (memLog true run).memAvlRoot.height < Avl.maxHeight := by
  refine ⟨?_, (sized_memLog run).balanced, (sized_memLog run).height_lt hlen⟩
  induction run using List.reverseRecOn with
  | nil => rfl
  | append_singleton run a ih =>
    have hsized := sized_memLog run
    rw [memLog_append] at hlen ⊢
    have hshort := (hsized.memaccessDataCb a).2.trans hlen
    rw [List.foldlM_append, ih hshort]
    simp [hsized.memaccessDataCbAvl hshort]

/-- The second address is equal to the first one: one entry. -/
theorem foldlM_memaccessDataCbAvl_upperHalf :
    (upperHalfRun.foldlM memaccessDataCbAvl ⟨[], .nil⟩).map (fun log => log.memInfoList.length) = some 1 ∧
      (memLog true upperHalfRun).memAvlRoot.Balanced := by
  have hone : (memLog true upperHalfRun).memInfoList.length = 1 := by decide
  obtain ⟨hrun, hbalanced, -⟩ := foldlM_memaccessDataCbAvl upperHalfRun (by rw [hone]; norm_num)
  exact ⟨by rw [hrun, Option.map_some, hone], hbalanced⟩

end Archie.Plugin
