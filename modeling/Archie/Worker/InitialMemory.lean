import Archie.Cpu

/-! The memory that a worker starts with: `controller` puts the ELF segments behind the dumps of the
    run to the start point, `run_unicorn` writes the list in its order.

        memdumplist:   dump, dump, …, segment, segment, …   ──mem_write, one after the other──▶ memory -/

namespace Archie.Worker

/-- What `mem_map` may return. -/
inductive UcError where
  | map | nomem | other
  deriving DecidableEq

/-- The emulator: what is mapped can be read, a write succeeds where all of it is mapped and changes
    nothing else. -/
structure Unicorn (μ : Type*) where
  /-- `none` where nothing is mapped -/
  read : μ → ℕ → Option Byte
  memMap : μ → ℕ → ℕ → Except UcError μ
  memWrite : μ → ℕ → List Byte → Option μ
  memWrite_isSome : ∀ m address bytes, (memWrite m address bytes).isSome ↔
    ∀ k < bytes.length, (read m (address + k)).isSome
  read_memWrite : ∀ m address bytes m', memWrite m address bytes = some m' → ∀ a, read m' a
    = if address ≤ a ∧ a < address + bytes.length then bytes[a - address]? else read m a

structure Memdump where
  address : ℕ
  dumps : List (List Byte)

structure Segment where
  pType : String
  pVaddr : ℕ
  data : List Byte

/-- The entries that `controller` appends for an ELF. -/
def elfMemdumps (segments : List Segment) : List Memdump :=
  (segments.filter fun s => s.pType = "PT_LOAD").map fun s => ⟨s.pVaddr, [s.data]⟩

section Run

variable {μ : Type*} (u : Unicorn μ)

/-- Maps whole pages; what is mapped already or too big is skipped, all else panics. -/
def mapMemory (m : μ) (memmaplist : List (ℕ × ℕ)) : Option μ :=
  memmaplist.foldlM (fun m (address, size) =>
    match u.memMap m (address - address % 0x1000) (max size 0x1000) with
    | .ok m' => some m'
    | .error .map => some m
    | .error .nomem => some m
    | .error .other => none) m

/-- Writes the first dump of an entry, or nothing if it cannot be written. -/
def writeMemdump (m : μ) (d : Memdump) : Option μ :=
  d.dumps.head?.map fun dump => (u.memWrite m d.address dump).getD m

def runUnicorn (m : μ) (memmaplist : List (ℕ × ℕ)) (memdumplist : List Memdump) : Option μ :=
  (mapMemory u m memmaplist).bind fun m => memdumplist.foldlM (writeMemdump u) m

/-- The byte of an entry at an address. -/
def Memdump.byteAt (d : Memdump) (a : ℕ) : Option Byte :=
  d.dumps.head?.bind fun dump => if d.address ≤ a then dump[a - d.address]? else none

/-- Memory starts with the bytes that were dumped, whatever the ELF holds. -/
def StartsWithDumps (m : μ) (memmaplist : List (ℕ × ℕ)) (dumps : List Memdump)
    (segments : List Segment) : Prop :=
  ∃ m', runUnicorn u m memmaplist (dumps ++ elfMemdumps segments) = some m' ∧
    ∀ d ∈ dumps, ∀ a b, d.byteAt a = some b → u.read m' a = some b

/-- The entry can be written. -/
def Memdump.writable (m : μ) (d : Memdump) : Bool :=
  d.dumps.head?.any fun dump => (u.memWrite m d.address dump).isSome

/-- The byte of the last writable entry that covers an address. -/
def lastByte (m : μ) : List Memdump → ℕ → Option Byte
  | [], _ => none
  | d :: ds, a => (lastByte m ds a).or (if d.writable u m then d.byteAt a else none)

end Run

/-! ### Writing the list -/

section Writes

variable {μ : Type*} {u : Unicorn μ} {m m' : μ} {d : Memdump} {ds : List Memdump}

theorem Memdump.byteAt_head {dump : List Byte} (h : d.dumps.head? = some dump) (a : ℕ) :
    d.byteAt a = if d.address ≤ a ∧ a < d.address + dump.length then dump[a - d.address]? else none := by
  rw [byteAt, h, Option.bind_some]
  by_cases hle : d.address ≤ a
  · rw [if_pos hle]
    split
    · rfl
    · exact List.getElem?_eq_none (by omega)
  · rw [if_neg hle, if_neg fun hin => hle hin.1]

/-- An entry can be written iff each of its addresses is mapped. -/
theorem Memdump.writable_iff {dump : List Byte} (h : d.dumps.head? = some dump) :
    d.writable u m = true ↔ ∀ k < dump.length, (u.read m (d.address + k)).isSome := by
  rw [writable, h, Option.any_some, u.memWrite_isSome]

theorem read_writeMemdump (h : writeMemdump u m d = some m') (a : ℕ) :
    u.read m' a = (if d.writable u m then d.byteAt a else none).or (u.read m a) := by
  obtain ⟨dump, hdump, hm'⟩ := Option.map_eq_some_iff.mp h
  rcases hwrite : u.memWrite m d.address dump with _ | m₁
  · have hno : d.writable u m = false := by rw [Memdump.writable, hdump, Option.any_some, hwrite]; rfl
    rw [hwrite, Option.getD_none] at hm'
    rw [← hm', hno]
    rfl
  · have hyes : d.writable u m = true := by rw [Memdump.writable, hdump, Option.any_some, hwrite]; rfl
    rw [hwrite, Option.getD_some] at hm'
    rw [← hm', hyes, if_pos rfl, u.read_memWrite m d.address dump m₁ hwrite, Memdump.byteAt_head hdump]
    split
    · next hin =>
      have hlt : a - d.address < dump.length := by omega
      rw [List.getElem?_eq_getElem hlt, Option.some_or]
    · rw [Option.none_or]

/-- Writing keeps what is mapped. -/
theorem isSome_writeMemdump (h : writeMemdump u m d = some m') (a : ℕ) :
    (u.read m' a).isSome = (u.read m a).isSome := by
  rw [read_writeMemdump h]
  obtain ⟨dump, hdump, -⟩ := Option.map_eq_some_iff.mp h
  rcases hwritable : d.writable u m with _ | _
  · rfl
  · rw [if_pos rfl, Memdump.byteAt_head hdump]
    split
    · next hin =>
      have hlt : a - d.address < dump.length := by omega
      have hmapped := (Memdump.writable_iff hdump).mp hwritable (a - d.address) hlt
      rw [Nat.add_sub_cancel' hin.1] at hmapped
      rw [List.getElem?_eq_getElem hlt, hmapped]
      rfl
    · rfl

theorem Memdump.writable_congr (h : ∀ a, (u.read m' a).isSome = (u.read m a).isSome) :
    d.writable u m' = d.writable u m := by
  rcases hdump : d.dumps.head? with _ | dump
  · simp only [writable, hdump, Option.any_none]
  · rw [Bool.eq_iff_iff, writable_iff hdump, writable_iff hdump]
    simp only [h]

theorem lastByte_congr (h : ∀ a, (u.read m' a).isSome = (u.read m a).isSome) (a : ℕ) :
    lastByte u m' ds a = lastByte u m ds a := by
  induction ds with
  | nil => rfl
  | cons d ds ih => simp only [lastByte, ih, Memdump.writable_congr h]

theorem lastByte_append (ds es : List Memdump) (a : ℕ) :
    lastByte u m (ds ++ es) a = (lastByte u m es a).or (lastByte u m ds a) := by
  induction ds with
  | nil => simp only [List.nil_append, lastByte, Option.or_none]
  | cons d ds ih => simp only [List.cons_append, lastByte, ih, Option.or_assoc]

/-- After the list has been written an address holds the byte of the last entry that covers it. -/
theorem read_foldlM (h : ds.foldlM (writeMemdump u) m = some m') (a : ℕ) :
    (u.read m' a).isSome = (u.read m a).isSome ∧ u.read m' a = (lastByte u m ds a).or (u.read m a) := by
  induction ds generalizing m with
  | nil =>
    obtain rfl := Option.some.inj h
    exact ⟨rfl, rfl⟩
  | cons d ds ih =>
    rw [List.foldlM_cons] at h
    obtain ⟨m₁, h₁, hrest⟩ := Option.bind_eq_some_iff.mp h
    obtain ⟨hmapped, hread⟩ := ih hrest
    refine ⟨hmapped.trans (isSome_writeMemdump h₁ a), ?_⟩
    rw [hread, lastByte_congr (isSome_writeMemdump h₁), read_writeMemdump h₁, lastByte, Option.or_assoc]

/-- The list can be written iff each entry has a dump. -/
theorem foldlM_isSome : (ds.foldlM (writeMemdump u) m).isSome ↔ ∀ d ∈ ds, d.dumps ≠ [] := by
  induction ds generalizing m with
  | nil => simp
  | cons d ds ih =>
    rw [List.foldlM_cons, List.forall_mem_cons]
    rcases hdump : d.dumps with _ | ⟨dump, rest⟩
    · simp [writeMemdump, hdump]
    · have hwrite : writeMemdump u m d = some ((u.memWrite m d.address dump).getD m) := by
        rw [writeMemdump, hdump]; rfl
      rw [hwrite]
      exact ih.trans (by simp)

/-- A covered address of a writable entry has a last byte, which is that of some entry. -/
theorem exists_lastByte {a : ℕ} {b : Byte} (hd : d ∈ ds) (hwritable : d.writable u m = true)
    (hb : d.byteAt a = some b) : ∃ c, lastByte u m ds a = some c := by
  induction ds with
  | nil => exact absurd hd List.not_mem_nil
  | cons e ds ih =>
    rcases hrest : lastByte u m ds a with _ | c
    · rcases List.mem_cons.mp hd with rfl | hd
      · exact ⟨b, by rw [lastByte, hrest, Option.none_or, if_pos hwritable, hb]⟩
      · obtain ⟨c, hc⟩ := ih hd
        exact absurd (hrest.symm.trans hc) nofun
    · exact ⟨c, by rw [lastByte, hrest, Option.some_or]⟩

theorem mem_of_lastByte {a : ℕ} {c : Byte} (h : lastByte u m ds a = some c) :
    ∃ d ∈ ds, d.byteAt a = some c := by
  induction ds with
  | nil => exact absurd h nofun
  | cons e ds ih =>
    rw [lastByte] at h
    rcases Option.or_eq_some_iff.mp h with h | ⟨-, h⟩
    · obtain ⟨d, hd, hb⟩ := ih h
      exact ⟨d, List.mem_cons_of_mem e hd, hb⟩
    · split at h
      · exact ⟨e, List.mem_cons_self, h⟩
      · cases h

end Writes

/-! ### Dumps and segments -/

/-- Memory starts with the dumped bytes iff it can be mapped, every dump is mapped entirely, dumps that
    overlap agree, and where segments cover a dumped address the last of them has the dumped byte. -/
theorem startsWithDumps_iff {μ : Type*} (u : Unicorn μ) (m : μ) (memmaplist : List (ℕ × ℕ))
    (dumps : List Memdump) (segments : List Segment) :
    StartsWithDumps u m memmaplist dumps segments ↔
      ∃ m₀, mapMemory u m memmaplist = some m₀ ∧ (∀ d ∈ dumps, d.writable u m₀ = true) ∧
        (∀ d ∈ dumps, ∀ e ∈ dumps, ∀ a b c, d.byteAt a = some b → e.byteAt a = some c → b = c) ∧
        ∀ d ∈ dumps, ∀ a b c, d.byteAt a = some b →
          lastByte u m₀ (elfMemdumps segments) a = some c → c = b := by
  constructor
  · rintro ⟨m', hrun, hstart⟩
    obtain ⟨m₀, hmap, hwrites⟩ := Option.bind_eq_some_iff.mp hrun
    have hread := read_foldlM hwrites
    have hdumped : ∀ d ∈ dumps, d.dumps ≠ [] := fun d hd =>
      foldlM_isSome.mp (by rw [hwrites]; rfl) d (List.mem_append_left _ hd)
    refine ⟨m₀, hmap, fun d hd => ?_, fun d hd e he a b c hb hc => ?_, fun d hd a b c hb hc => ?_⟩
    · obtain ⟨dump, hdump⟩ : ∃ dump, d.dumps.head? = some dump :=
        ⟨_, List.head?_eq_some_head (hdumped d hd)⟩
      refine (Memdump.writable_iff hdump).mpr fun k hk => ?_
      have hbyte : d.byteAt (d.address + k) = some dump[k] := by
        rw [Memdump.byteAt_head hdump, if_pos (by omega), Nat.add_sub_cancel_left,
          List.getElem?_eq_getElem hk]
      rw [← (hread _).1, hstart d hd _ _ hbyte]
      rfl
    · exact Option.some.inj ((hstart d hd a b hb).symm.trans (hstart e he a c hc))
    · have hlast := (hread a).2
      rw [lastByte_append, hc, Option.some_or, Option.some_or, hstart d hd a b hb] at hlast
      exact (Option.some.inj hlast).symm
  · rintro ⟨m₀, hmap, hwritable, hagree, helf⟩
    have hdumped : ∀ d ∈ dumps ++ elfMemdumps segments, d.dumps ≠ [] := by
      intro d hd
      rcases List.mem_append.mp hd with hd | hd
      · intro hnil
        have := hwritable d hd
        rw [Memdump.writable, hnil] at this
        cases this
      · obtain ⟨s, -, rfl⟩ := List.mem_map.mp hd
        exact List.cons_ne_nil _ _
    obtain ⟨m', hwrites⟩ := Option.isSome_iff_exists.mp (foldlM_isSome (m := m₀).mpr hdumped)
    refine ⟨m', by rw [runUnicorn, hmap]; exact hwrites, fun d hd a b hb => ?_⟩
    rw [(read_foldlM hwrites a).2, lastByte_append]
    rcases hseg : lastByte u m₀ (elfMemdumps segments) a with _ | c
    · obtain ⟨c, hc⟩ := exists_lastByte hd (hwritable d hd) hb
      obtain ⟨e, he, hec⟩ := mem_of_lastByte hc
      rw [hc, Option.none_or, Option.some_or, hagree d hd e he a b c hb hec]
    · rw [Option.some_or, Option.some_or, helf d hd a b c hb hseg]

/-- Memory as a map from addresses to bytes, new pages are zero. -/
def pagedMemory : Unicorn (ℕ → Option Byte) where
  read m := m
  memMap m address size :=
    if ∃ k < size, (m (address + k)).isSome then .error .map
    else .ok fun a => if address ≤ a ∧ a < address + size then some 0 else m a
  memWrite m address bytes :=
    if ∀ k < bytes.length, (m (address + k)).isSome then
      some fun a => if address ≤ a ∧ a < address + bytes.length then bytes[a - address]? else m a
    else none
  memWrite_isSome m address bytes := by
    split
    · next h => exact ⟨fun _ => h, fun _ => rfl⟩
    · next h => exact ⟨nofun, fun h' => absurd h' h⟩
  read_memWrite m address bytes m' h a := by
    split at h
    · rw [← Option.some.inj h]
    · cases h

/-- A variable that was 0x2a at the start point has the value of the ELF again. -/
theorem dataSegment_not_startsWithDumps : ¬ StartsWithDumps pagedMemory (fun _ => none)
    [(0x20000000, 0x1000)] [⟨0x20000000, [[0x2a]]⟩] [⟨"PT_LOAD", 0x20000000, [0x01]⟩] := by
  have hmap : mapMemory pagedMemory (fun _ => none) [(0x20000000, 0x1000)]
      = some fun a => if 0x20000000 ≤ a ∧ a < 0x20000000 + 0x1000 then some 0 else none := by
    simp [mapMemory, pagedMemory]
  rintro ⟨m', hrun, hstart⟩
  obtain ⟨m₀, hm₀, hwrites⟩ := Option.bind_eq_some_iff.mp hrun
  obtain rfl := Option.some.inj (hmap.symm.trans hm₀)
  have hread := (read_foldlM hwrites 0x20000000).2
  have hdumped := hstart _ List.mem_cons_self 0x20000000 0x2a (by decide)
  exact absurd (hdumped.symm.trans hread) (by decide)

end Archie.Worker
