import Archie.Lib.AvlTree
import Archie.Plugin.Collections

/-! The memory that the run to the start point dumps: the pages of the stores in the access log.

    The log keeps one entry for each instruction and address, made at the first access:

        access   ──avl_find──▶ found: counter + 1
                               not found: new entry with the direction of this access
        end      page of the address of each entry that is a store ──▶ region of 0x1000 bytes  -/

namespace Archie.Plugin

/-- A load or store as the callback is told of it. -/
structure MemAccess where
  insAddress : BitVec 64
  memmoryAddress : BitVec 64
  sizeShift : ℕ
  isStore : Bool
  deriving DecidableEq

/-- What the tree compares. -/
structure MemKey where
  insAddress : BitVec 64
  memmoryAddress : BitVec 64
  deriving DecidableEq

structure MemInfo where
  key : MemKey
  size : ℕ
  direction : Bool
  counter : ℕ

def MemAccess.key (a : MemAccess) : MemKey := ⟨a.insAddress, a.memmoryAddress⟩

/-- The differences are cut to an `int`. -/
def memComparisonFunc (a b : MemKey) : Int :=
  if a.insAddress = b.insAddress ∧ a.memmoryAddress ≠ b.memmoryAddress then
    ((a.memmoryAddress - b.memmoryAddress).setWidth 32).toInt
  else ((a.insAddress - b.insAddress).setWidth 32).toInt

/-- The list, oldest first, and the tree of the places in it. -/
structure MemLog where
  memInfoList : List MemInfo
  memAvlRoot : AvlTree MemKey ℕ

def MemLog.find (log : MemLog) (a : MemAccess) : Option ℕ :=
  log.memAvlRoot.find memComparisonFunc a.key

def memaccessDataCb (log : MemLog) (a : MemAccess) : MemLog :=
  match log.find a with
  | none =>
    { memInfoList := log.memInfoList ++ [⟨a.key, a.sizeShift, a.isStore, 1⟩]
      memAvlRoot := log.memAvlRoot.insert memComparisonFunc a.key log.memInfoList.length }
  | some i =>
    { log with memInfoList := log.memInfoList.modify i fun m => { m with counter := m.counter + 1 } }

/-- `handle_tb_translate_data` registers the callback only if `mem_info` is enabled. -/
def memLog (memInfo : Bool) (run : List MemAccess) : MemLog :=
  if memInfo then run.foldl memaccessDataCb ⟨[], .nil⟩ else ⟨[], .nil⟩

/-- The page of an address. -/
def pageAddress (a : BitVec 64) : BitVec 64 := a &&& 0xfffffffffffff000#64

/-- The hash table of `plugin_end_information_dump`. -/
def accessedPages (memInfoList : List MemInfo) : List (BitVec 64) :=
  ((memInfoList.filter fun item => item.direction).map fun item =>
    pageAddress item.key.memmoryAddress).dedup

/-- Every page becomes a region. -/
def State.memmapDumpRegisterPages (s : State) (pages : List (BitVec 64)) : State :=
  pages.foldl (fun s page => s.insertMemorydumpConfig page.toNat 0x1000) s

/-- Every byte of every store lies in one of the regions. -/
def DumpsStores (memInfo : Bool) (run : List MemAccess) : Prop :=
  ∀ a ∈ run, a.isStore = true → ∀ k < 2 ^ a.sizeShift,
    ∃ page ∈ accessedPages (memLog memInfo run).memInfoList,
      page.toNat ≤ (a.memmoryAddress + BitVec.ofNat 64 k).toNat ∧
      (a.memmoryAddress + BitVec.ofNat 64 k).toNat < page.toNat + 0x1000

/-- The access is a store that the tree has no entry for. -/
def Recorded (run : List MemAccess) (i : ℕ) (b : MemAccess) : Prop :=
  run[i]? = some b ∧ b.isStore = true ∧ (memLog true (run.take i)).find b = none

/-! ### Pages -/

theorem toNat_pageAddress (a : BitVec 64) : (pageAddress a).toNat = a.toNat / 4096 * 4096 := by
  have hmask : ∀ i < 64, (0xfffffffffffff000#64).getLsbD i = decide (12 ≤ i) := by decide
  have hshift : pageAddress a = (a >>> 12) <<< 12 := by
    refine BitVec.eq_of_getLsbD_eq fun i hi => ?_
    rw [pageAddress, BitVec.getLsbD_and, hmask i hi, BitVec.getLsbD_shiftLeft, BitVec.getLsbD_ushiftRight]
    by_cases h : 12 ≤ i
    · simp [hi, h]
    · simp [h, Nat.not_le.mp h]
  have := a.isLt
  rw [hshift, BitVec.toNat_shiftLeft, BitVec.toNat_ushiftRight, Nat.shiftRight_eq_div_pow,
    Nat.shiftLeft_eq]
  omega

/-- The region of a page holds the addresses of that page. -/
theorem mem_region_iff (a b : BitVec 64) : ((pageAddress a).toNat ≤ b.toNat ∧
    b.toNat < (pageAddress a).toNat + 0x1000) ↔ pageAddress b = pageAddress a := by
  rw [← BitVec.toNat_inj, toNat_pageAddress, toNat_pageAddress]
  omega

/-! ### Registering the regions -/

/-- The slots in use hold one region for each call, as it asked for it. -/
structure HasRegions (s : State) (regions : List (ℕ × ℕ)) : Prop where
  used : s.usedMemdump = regions.length
  room : ∃ memdump, s.memdump = some memdump ∧
    (memdump.take regions.length).map (fun m => (m.address, m.len)) = regions

theorem HasRegions.insertMemorydumpConfig {s : State} {regions : List (ℕ × ℕ)}
    (h : HasRegions s regions) (baseaddress len : ℕ) :
    HasRegions (s.insertMemorydumpConfig baseaddress len) (regions ++ [(baseaddress, len)]) := by
  obtain ⟨hused, memdump, hmemdump, hregions⟩ := h
  have hle : regions.length ≤ memdump.length := by
    have := congrArg List.length hregions
    rw [List.length_map, List.length_take] at this
    omega
  -- the slot that is filled, new or not
  obtain ⟨slots, hslots, hlt, htake⟩ : ∃ slots : List Memorydump,
      slots = (if memdump.length = s.usedMemdump then memdump ++ [⟨0, 0, 0, 0, []⟩] else memdump) ∧
      regions.length < slots.length ∧ slots.take regions.length = memdump.take regions.length := by
    refine ⟨_, rfl, ?_⟩
    split
    · exact ⟨by simp; omega, List.take_append_of_le_length hle⟩
    · exact ⟨by omega, rfl⟩
  rw [State.insertMemorydumpConfig, hmemdump]
  dsimp only
  rw [← hslots, hused]
  refine ⟨by simp, _, rfl, ?_⟩
  have hmodify : ∀ f : Memorydump → Memorydump,
      (slots.modify regions.length f).take regions.length = slots.take regions.length := by
    intro f
    rw [List.take_modify]
    exact List.modify_eq_self (List.length_take_le _ _)
  rw [List.length_append, List.length_singleton, List.take_add_one, List.map_append, hmodify, htake,
    hregions, List.getElem?_modify, List.getElem?_eq_getElem hlt]
  simp

/-- Every page is registered, after what was registered before. -/
theorem HasRegions.memmapDumpRegisterPages {s : State} {regions : List (ℕ × ℕ)}
    (h : HasRegions s regions) (pages : List (BitVec 64)) :
    HasRegions (s.memmapDumpRegisterPages pages)
      (regions ++ pages.map fun page => (page.toNat, 0x1000)) := by
  induction pages generalizing s regions with
  | nil =>
    rw [List.map_nil, List.append_nil]
    exact h
  | cons page pages ih =>
    have := ih (h.insertMemorydumpConfig page.toNat 0x1000)
    rwa [List.append_assoc] at this

/-! ### The log -/

theorem mem_accessedPages {l : List MemInfo} {page : BitVec 64} : page ∈ accessedPages l ↔
    ∃ item ∈ l, item.direction = true ∧ pageAddress item.key.memmoryAddress = page := by
  simp [accessedPages, and_assoc]

/-- Counting changes the counter only. -/
theorem map_count {α : Type*} {f : MemInfo → α} (hf : ∀ m n, f { m with counter := n } = f m)
    (l : List MemInfo) (i : ℕ) :
    (l.modify i fun m => { m with counter := m.counter + 1 }).map f = l.map f := by
  refine List.ext_getElem? fun j => ?_
  rw [List.getElem?_map, List.getElem?_map, List.getElem?_modify]
  rcases l[j]? with _ | m
  · rfl
  · rcases eq_or_ne i j with h | h <;> simp [h, hf]

theorem accessedPages_count (l : List MemInfo) (i : ℕ) :
    accessedPages (l.modify i fun m => { m with counter := m.counter + 1 }) = accessedPages l := by
  have hmap := map_count (f := fun m => (m.direction, m.key)) (fun _ _ => rfl) l i
  have hpages : ∀ l : List MemInfo, accessedPages l = (((l.map fun m => (m.direction, m.key)).filter
      fun item => item.1).map fun item => pageAddress item.2.memmoryAddress).dedup := by
    intro l
    rw [List.filter_map, List.map_map]
    rfl
  rw [hpages, hpages l, hmap]

/-- One access adds its page if it is a store without an entry. -/
theorem mem_accessedPages_memaccessDataCb (log : MemLog) (a : MemAccess) (page : BitVec 64) :
    page ∈ accessedPages (memaccessDataCb log a).memInfoList ↔
      page ∈ accessedPages log.memInfoList ∨
        a.isStore = true ∧ log.find a = none ∧ pageAddress a.memmoryAddress = page := by
  rcases hfind : log.find a with _ | i
  · rw [memaccessDataCb, hfind, mem_accessedPages, mem_accessedPages]
    simp [or_and_right, exists_or, MemAccess.key]
  · rw [memaccessDataCb, hfind]
    simp [accessedPages_count]

theorem memLog_append (run : List MemAccess) (a : MemAccess) :
    memLog true (run ++ [a]) = memaccessDataCb (memLog true run) a := by
  rw [memLog, memLog, if_pos rfl, if_pos rfl, List.foldl_append]
  rfl

theorem recorded_append (run : List MemAccess) (a : MemAccess) (i : ℕ) (b : MemAccess) :
    Recorded (run ++ [a]) i b ↔ Recorded run i b ∨
      i = run.length ∧ a = b ∧ a.isStore = true ∧ (memLog true run).find a = none := by
  rcases lt_trichotomy i run.length with hlt | rfl | hgt
  · rw [Recorded, List.getElem?_append_left hlt, List.take_append_of_le_length hlt.le]
    exact ⟨Or.inl, fun h => h.resolve_right fun hr => hlt.ne hr.1⟩
  · rw [Recorded, Recorded, List.getElem?_concat_length, List.take_left,
      List.getElem?_eq_none le_rfl, Option.some_inj]
    constructor
    · rintro ⟨rfl, h⟩
      exact Or.inr ⟨rfl, rfl, h⟩
    · rintro (⟨h, _⟩ | ⟨_, rfl, h⟩)
      · cases h
      · exact ⟨rfl, h⟩
  · rw [Recorded, Recorded, List.getElem?_eq_none (by simpa using hgt), List.getElem?_eq_none hgt.le]
    simp [hgt.ne']

/-- The pages of a run are those of its recorded stores. -/
theorem mem_accessedPages_memLog (run : List MemAccess) (page : BitVec 64) :
    page ∈ accessedPages (memLog true run).memInfoList ↔
      ∃ i b, Recorded run i b ∧ pageAddress b.memmoryAddress = page := by
  induction run using List.reverseRecOn with
  | nil => simp [memLog, accessedPages, Recorded]
  | append_singleton run a ih =>
    rw [memLog_append, mem_accessedPages_memaccessDataCb, ih]
    simp only [recorded_append]
    constructor
    · rintro (⟨i, b, hb, hp⟩ | ⟨hstore, hnone, hp⟩)
      · exact ⟨i, b, Or.inl hb, hp⟩
      · exact ⟨run.length, a, Or.inr ⟨rfl, rfl, hstore, hnone⟩, hp⟩
    · rintro ⟨i, b, hb | ⟨_, rfl, hstore, hnone⟩, hp⟩
      · exact Or.inl ⟨i, b, hb, hp⟩
      · exact Or.inr ⟨hstore, hnone, hp⟩

/-- A byte is in a region iff its page is among those of the log. -/
theorem dumpsStores_iff_pages {memInfo : Bool} {run : List MemAccess} : DumpsStores memInfo run ↔
    ∀ a ∈ run, a.isStore = true → ∀ k < 2 ^ a.sizeShift,
      pageAddress (a.memmoryAddress + BitVec.ofNat 64 k) ∈
        accessedPages (memLog memInfo run).memInfoList := by
  refine forall₄_congr fun a _ _ k => forall_congr' fun _ => ?_
  constructor
  · rintro ⟨page, hpage, hin⟩
    obtain ⟨item, hitem, hstore, rfl⟩ := mem_accessedPages.mp hpage
    exact mem_accessedPages.mpr ⟨item, hitem, hstore, ((mem_region_iff _ _).mp hin).symm⟩
  · intro h
    exact ⟨_, h, (mem_region_iff _ _).mpr rfl⟩

/-- All bytes are dumped iff the log is kept and each byte is in the page of the address of a store
    that was recorded. -/
theorem dumpsStores_iff (memInfo : Bool) (run : List MemAccess) : DumpsStores memInfo run ↔
    ∀ a ∈ run, a.isStore = true → memInfo = true ∧ ∀ k < 2 ^ a.sizeShift, ∃ i b, Recorded run i b ∧
      pageAddress b.memmoryAddress = pageAddress (a.memmoryAddress + BitVec.ofNat 64 k) := by
  rw [dumpsStores_iff_pages]
  refine forall₃_congr fun a _ _ => ?_
  cases memInfo with
  | true => simp only [mem_accessedPages_memLog, true_and]
  | false =>
    have hempty : ∀ page, page ∉ accessedPages (memLog false run).memInfoList := by
      simp [memLog, accessedPages]
    simp only [hempty, Bool.false_eq_true, false_and, iff_false, not_forall]
    exact ⟨0, Nat.two_pow_pos _, not_false⟩

/-- `mem_info` is disabled by default: then no store is dumped. -/
theorem not_dumpsStores_disabled : ¬∀ memInfo run, DumpsStores memInfo run := by
  intro h
  obtain ⟨page, hpage, _⟩ :=
    h false [⟨0x08000004#64, 0x20000000#64, 2, true⟩] _ List.mem_cons_self rfl 0 (by decide)
  exact List.not_mem_nil hpage

/-! ### Addresses that an `int` tells apart -/

/-- The addresses of the instructions, and those of the accesses, differ by less than `2 ^ 31`. -/
def Narrow (run : List MemAccess) : Prop :=
  ∀ a ∈ run, ∀ b ∈ run,
    |(a.insAddress.toNat : ℤ) - b.insAddress.toNat| < 2 ^ 31 ∧
    |(a.memmoryAddress.toNat : ℤ) - b.memmoryAddress.toNat| < 2 ^ 31

def MemKey.ord (k : MemKey) : ℕ ×ₗ ℕ := toLex (k.insAddress.toNat, k.memmoryAddress.toNat)

theorem MemKey.ord_inj {a b : MemKey} : a.ord = b.ord ↔ a = b := by
  rcases a with ⟨ia, ma⟩
  rcases b with ⟨ib, mb⟩
  simp [MemKey.ord, BitVec.toNat_inj]

/-- The cut difference is the difference. -/
theorem toInt_cut {x y : BitVec 64} (h : |(x.toNat : ℤ) - y.toNat| < 2 ^ 31) :
    ((x - y).setWidth 32).toInt = (x.toNat : ℤ) - y.toNat := by
  have hx := x.isLt
  have hy := y.isLt
  obtain ⟨hlo, hhi⟩ := abs_lt.mp h
  rw [BitVec.toInt_eq_toNat_cond, BitVec.toNat_setWidth, BitVec.toNat_sub]
  split <;> omega

theorem agrees_memComparisonFunc {run : List MemAccess} (hn : Narrow run) :
    AvlTree.Agrees memComparisonFunc MemKey.ord {k | ∃ a ∈ run, a.key = k} := by
  have hcmp : ∀ a ∈ run, ∀ b ∈ run, memComparisonFunc a.key b.key
      = if a.insAddress = b.insAddress ∧ a.memmoryAddress ≠ b.memmoryAddress then
          (a.memmoryAddress.toNat : ℤ) - b.memmoryAddress.toNat
        else (a.insAddress.toNat : ℤ) - b.insAddress.toNat := by
    intro a ha b hb
    obtain ⟨hins, hmem⟩ := hn a ha b hb
    rw [memComparisonFunc, MemAccess.key, MemAccess.key, toInt_cut hins, toInt_cut hmem]
  constructor
  · rintro _ ⟨a, ha, rfl⟩ _ ⟨b, hb, rfl⟩
    rw [hcmp a ha b hb, MemKey.ord, MemKey.ord, Prod.Lex.toLex_lt_toLex]
    simp only [MemAccess.key, ← BitVec.toNat_inj, ne_eq]
    split <;> omega
  · rintro _ ⟨a, ha, rfl⟩ _ ⟨b, hb, rfl⟩
    rw [hcmp a ha b hb, MemKey.ord, MemKey.ord]
    simp only [MemAccess.key, ← BitVec.toNat_inj, ne_eq, toLex_inj, Prod.mk.injEq]
    split <;> omega

/-- The tree holds the keys of the accesses, in order. -/
structure MemLog.Holds (log : MemLog) (run : List MemAccess) : Prop where
  ordered : log.memAvlRoot.Ordered MemKey.ord
  keys : ∀ k, (∃ p ∈ log.memAvlRoot.toList, p.1 = k) ↔ ∃ a ∈ run, a.key = k

theorem MemLog.Holds.find_eq_none_iff {log : MemLog} {run : List MemAccess} {a : MemAccess}
    (h : log.Holds run) (hn : Narrow (run ++ [a])) :
    log.find a = none ↔ ∀ b ∈ run, b.key ≠ a.key := by
  have hkeys : ∀ p ∈ log.memAvlRoot.toList, p.1 ∈ {k | ∃ b ∈ run ++ [a], b.key = k} := by
    intro p hp
    obtain ⟨b, hb, he⟩ := (h.keys p.1).mp ⟨p, hp, rfl⟩
    exact ⟨b, List.mem_append_left _ hb, he⟩
  have ha : a.key ∈ {k | ∃ b ∈ run ++ [a], b.key = k} := ⟨a, by simp, rfl⟩
  rw [MemLog.find, AvlTree.find_eq_none_iff (agrees_memComparisonFunc hn) ha hkeys h.ordered]
  simp only [ne_eq, MemKey.ord_inj]
  constructor
  · intro hno b hb he
    obtain ⟨p, hp, hpb⟩ := (h.keys b.key).mpr ⟨b, hb, rfl⟩
    exact hno p hp (hpb.trans he)
  · intro hno p hp he
    obtain ⟨b, hb, hbp⟩ := (h.keys p.1).mp ⟨p, hp, rfl⟩
    exact hno b hb (hbp.trans he)

theorem MemLog.Holds.memaccessDataCb {log : MemLog} {run : List MemAccess} {a : MemAccess}
    (h : log.Holds run) (hn : Narrow (run ++ [a])) : (memaccessDataCb log a).Holds (run ++ [a]) := by
  rcases hfind : log.find a with _ | i
  · have hkeys : ∀ p ∈ log.memAvlRoot.toList, p.1 ∈ {k | ∃ b ∈ run ++ [a], b.key = k} := by
      intro p hp
      obtain ⟨b, hb, he⟩ := (h.keys p.1).mp ⟨p, hp, rfl⟩
      exact ⟨b, List.mem_append_left _ hb, he⟩
    have ha : a.key ∈ {k | ∃ b ∈ run ++ [a], b.key = k} := ⟨a, by simp, rfl⟩
    rw [Plugin.memaccessDataCb, hfind]
    refine ⟨h.ordered.insert (agrees_memComparisonFunc hn) ha hkeys hfind, fun k => ?_⟩
    simp only [AvlTree.mem_toList_insert hfind, or_and_right, exists_or, exists_eq_left, h.keys,
      List.mem_append, List.mem_singleton]
    exact or_comm
  · have hold : ∃ b ∈ run, b.key = a.key := by
      by_contra hno
      rw [(h.find_eq_none_iff hn).mpr fun b hb he => hno ⟨b, hb, he⟩] at hfind
      cases hfind
    rw [Plugin.memaccessDataCb, hfind]
    refine ⟨h.ordered, fun k => (h.keys k).trans ?_⟩
    simp only [List.mem_append, List.mem_singleton, or_and_right, exists_or, exists_eq_left]
    refine ⟨Or.inl, fun hk => hk.elim id ?_⟩
    rintro rfl
    exact hold

theorem Narrow.take {run : List MemAccess} (hn : Narrow run) (i : ℕ) : Narrow (run.take i) :=
  fun a ha b hb => hn a (List.mem_of_mem_take ha) b (List.mem_of_mem_take hb)

theorem holds_memLog {run : List MemAccess} (hn : Narrow run) : (memLog true run).Holds run := by
  induction run using List.reverseRecOn with
  | nil => exact ⟨List.Pairwise.nil, by simp [memLog, AvlTree.toList]⟩
  | append_singleton run a ih =>
    rw [memLog_append]
    exact (ih fun b hb c hc => hn b (List.mem_append_left _ hb) c (List.mem_append_left _ hc)
      ).memaccessDataCb hn

/-- Recorded are the stores that are the first access of their instruction to their address. -/
theorem recorded_iff_first {run : List MemAccess} (hn : Narrow run) {i : ℕ} {b : MemAccess} :
    Recorded run i b ↔ run[i]? = some b ∧ b.isStore = true ∧ ∀ c ∈ run.take i, c.key ≠ b.key := by
  refine and_congr_right fun hb => and_congr_right fun _ => ?_
  have htake : run.take (i + 1) = run.take i ++ [b] := by
    rw [List.take_add_one, hb]
    rfl
  exact (holds_memLog (hn.take i)).find_eq_none_iff (htake ▸ hn.take (i + 1))

/-- Nothing is missed if the log is kept, the stores cross no page, and no instruction loads from an
    address before it stores to it. -/
theorem dumpsStores_of_aligned {run : List MemAccess} (hn : Narrow run)
    (hpage : ∀ a ∈ run, a.isStore = true → ∀ k < 2 ^ a.sizeShift,
      pageAddress (a.memmoryAddress + BitVec.ofNat 64 k) = pageAddress a.memmoryAddress)
    (hdir : ∀ a ∈ run, a.isStore = true → ∀ b ∈ run, b.key = a.key → b.isStore = true) :
    DumpsStores true run := by
  refine dumpsStores_iff_pages.mpr fun a ha hstore k hk => ?_
  rw [hpage a ha hstore k hk, mem_accessedPages_memLog]
  -- the first access of the instruction to the address
  obtain ⟨i, b, hb, hkey, hfirst⟩ : ∃ i b, run[i]? = some b ∧ b.key = a.key ∧
      ∀ c ∈ run.take i, c.key ≠ a.key := by
    have hlt : run.findIdx (fun c => decide (c.key = a.key)) < run.length :=
      List.findIdx_lt_length_of_exists ⟨a, ha, decide_eq_true rfl⟩
    refine ⟨_, _, List.getElem?_eq_getElem hlt, of_decide_eq_true (List.findIdx_getElem (w := hlt)), ?_⟩
    intro c hc
    obtain ⟨j, hj, rfl⟩ := List.mem_iff_getElem.mp hc
    rw [List.getElem_take]
    rw [List.length_take, lt_min_iff] at hj
    exact of_decide_eq_false (List.not_of_lt_findIdx hj.1)
  have hmem := List.mem_of_getElem? hb
  refine ⟨i, b, (recorded_iff_first hn).mpr ⟨hb, hdir a ha hstore b hmem hkey, ?_⟩, ?_⟩
  · rw [hkey]
    exact hfirst
  · rw [(MemKey.mk.inj hkey).2]

end Archie.Plugin
