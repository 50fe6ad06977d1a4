import Archie.Campaign.Fault

/-! The fault tables of the HDF5 file.

    `process_faults` of hdf5logger.py writes them, `read_backup` and `read_simulated_faults` of
    controller.py read them. The mask is spread over two columns, the readers take the lower one. -/

namespace Archie.Campaign
open Python

/-- A row of `fault_table`. -/
structure FaultRow where
  triggerAddress : ℕ
  triggerHitcounter : ℕ
  faultAddress : ℕ
  faultType : ℕ
  faultModel : ℕ
  faultLifespan : ℕ
  faultMaskUpper : ℕ
  faultMask : ℕ
  faultNumBytes : ℕ
  faultWildcard : Bool
  deriving DecidableEq, Repr

/-- Unsigned columns: they keep a number that fits and hold no other numbers. What happens to a
    number that does not fit depends on the library's version. -/
structure Columns where
  store : ℕ → Int → Result ℕ
  store_natCast : ∀ bits n : ℕ, n < 2 ^ bits → store bits n = .ok n
  store_lt : ∀ (bits : ℕ) (v : Int) (n : ℕ), store bits v = .ok n → n < 2 ^ bits

/-- Columns that raise an exception. -/
def Columns.strict : Columns where
  store bits v := if 0 ≤ v ∧ v.toNat < 2 ^ bits then .ok v.toNat else .error .overflowError
  store_natCast bits n h := if_pos ⟨Int.natCast_nonneg n, h⟩
  store_lt bits v n h := by
    split at h
    · next hv =>
      obtain rfl := Except.ok.inj h
      exact hv.2
    · cases h

variable (c : Columns)

def processFault (fault : IntFault) : Result FaultRow := do
  let triggerAddress ← c.store 64 fault.trigger.address
  let triggerHitcounter ← c.store 64 fault.trigger.hitcounter
  let faultAddress ← c.store 64 fault.address
  let faultType ← c.store 8 fault.type
  let faultModel ← c.store 8 fault.model
  let faultLifespan ← c.store 64 fault.lifespan
  let faultMaskUpper ← c.store 64 (((fault.mask >>> 64) &&& (2 ^ 64 - 1) : ℕ))
  let faultMask ← c.store 64 ((fault.mask &&& (2 ^ 64 - 1) : ℕ))
  let faultNumBytes ← c.store 8 fault.numBytes
  return ⟨triggerAddress, triggerHitcounter, faultAddress, faultType, faultModel, faultLifespan,
    faultMaskUpper, faultMask, faultNumBytes, fault.wildcard⟩

def processFaults (faultlist : List IntFault) : Result (List FaultRow) :=
  faultlist.mapM (processFault c)

/-- The fault that the readers make of a row. -/
def readFault (row : FaultRow) : IntFault :=
  { trigger := ⟨row.triggerAddress, row.triggerHitcounter⟩
    address := row.faultAddress
    addressExclude := []
    type := row.faultType
    model := row.faultModel
    lifespan := row.faultLifespan
    mask := row.faultMask
    numBytes := row.faultNumBytes
    wildcard := row.faultWildcard }

/-! ### What comes back -/

/-- A fault as far as the table knows it: without its excluded regions. -/
def IntFault.identity (f : IntFault) : IntFault := { f with addressExclude := [] }

/-- A fault with the lower half of its mask. -/
def IntFault.truncated (f : IntFault) : IntFault :=
  { f with addressExclude := [], mask := f.mask &&& (2 ^ 64 - 1) }

/-- The numbers of a fault fit into their columns. -/
structure FitsTable (f : IntFault) : Prop where
  triggerAddress : 0 ≤ f.trigger.address ∧ f.trigger.address.toNat < 2 ^ 64
  triggerHitcounter : f.trigger.hitcounter < 2 ^ 64
  faultAddress : 0 ≤ f.address ∧ f.address.toNat < 2 ^ 64
  faultType : f.type < 2 ^ 8
  faultModel : f.model < 2 ^ 8
  faultLifespan : 0 ≤ f.lifespan ∧ f.lifespan.toNat < 2 ^ 64
  faultNumBytes : f.numBytes < 2 ^ 8

variable {c}

theorem Columns.store_of_nonneg {bits : ℕ} {v : Int} (h : 0 ≤ v ∧ v.toNat < 2 ^ bits) :
    c.store bits v = .ok v.toNat := by
  have hcast : ((v.toNat : ℕ) : Int) = v := Int.toNat_of_nonneg h.1
  have hstore := c.store_natCast bits v.toNat h.2
  rwa [hcast] at hstore

/-- A fault that fits comes back with the lower half of its mask. -/
theorem processFault_ok {f : IntFault} (h : FitsTable f) :
    ∃ row, processFault c f = .ok row ∧ readFault row = IntFault.truncated f := by
  refine ⟨⟨f.trigger.address.toNat, f.trigger.hitcounter, f.address.toNat, f.type, f.model,
    f.lifespan.toNat, (f.mask >>> 64) &&& (2 ^ 64 - 1), f.mask &&& (2 ^ 64 - 1), f.numBytes,
    f.wildcard⟩, ?_, ?_⟩
  · simp only [processFault, Columns.store_of_nonneg h.triggerAddress,
      c.store_natCast _ _ h.triggerHitcounter, Columns.store_of_nonneg h.faultAddress,
      c.store_natCast _ _ h.faultType, c.store_natCast _ _ h.faultModel,
      Columns.store_of_nonneg h.faultLifespan,
      c.store_natCast _ _ (Nat.and_lt_two_pow _ (Nat.sub_one_lt (by norm_num : (2 : ℕ) ^ 64 ≠ 0))),
      c.store_natCast _ _ h.faultNumBytes, bind, Except.bind]
    rfl
  · simp only [readFault, IntFault.truncated, Int.toNat_of_nonneg h.triggerAddress.1,
      Int.toNat_of_nonneg h.faultAddress.1, Int.toNat_of_nonneg h.faultLifespan.1]

/-- What a column holds fits it. -/
theorem Columns.nonneg_of_store {bits : ℕ} {v : Int} {n : ℕ} (h : c.store bits v = .ok n)
    (hn : (n : Int) = v) : 0 ≤ v ∧ v.toNat < 2 ^ bits := by
  subst hn
  exact ⟨Int.natCast_nonneg n, by simpa using c.store_lt bits _ n h⟩

theorem and_eq_self_iff {n bits : ℕ} : n &&& (2 ^ bits - 1) = n ↔ n < 2 ^ bits := by
  rw [Nat.and_two_pow_sub_one_eq_mod]
  exact Nat.mod_eq_iff_lt (by positivity)

/-- What the reader finds as it was fits. -/
theorem fitsTable_of_readFault {f : IntFault} {row : FaultRow} {mask : ℕ} (hrow : processFault c f = .ok row)
    (hread : readFault row = { f with addressExclude := [], mask := mask }) : FitsTable f := by
  simp only [processFault, bind, bind_eq_ok] at hrow
  obtain ⟨ta, hta, th, hth, fa, hfa, ft, hft, fm, hfm, fl, hfl, mu, -, ml, -, nb, hnb, hrow⟩ := hrow
  obtain rfl := Except.ok.inj hrow
  simp only [readFault, Fault.mk.injEq, true_and] at hread
  obtain ⟨htrigger, haddr, htype, hmodel, hlife, -, hbytes, -⟩ := hread
  refine ⟨Columns.nonneg_of_store hta (congrArg Trigger.address htrigger), ?_,
    Columns.nonneg_of_store hfa haddr, ?_, ?_, Columns.nonneg_of_store hfl hlife, ?_⟩
  · rw [← congrArg Trigger.hitcounter htrigger]
    exact c.store_lt _ _ _ hth
  · rw [← htype]
    exact c.store_lt _ _ _ hft
  · rw [← hmodel]
    exact c.store_lt _ _ _ hfm
  · rw [← hbytes]
    exact c.store_lt _ _ _ hnb

/-- The halves of the mask are below `2 ^ 64`, so their columns keep them. -/
theorem processFault_mask {f : IntFault} {row : FaultRow} (hrow : processFault c f = .ok row) :
    row.faultMaskUpper = (f.mask >>> 64) &&& (2 ^ 64 - 1) ∧ row.faultMask = f.mask &&& (2 ^ 64 - 1) := by
  have hhalf : ∀ n : ℕ, n &&& (2 ^ 64 - 1) < 2 ^ 64 := fun n =>
    Nat.and_lt_two_pow _ (Nat.sub_one_lt (by norm_num : (2 : ℕ) ^ 64 ≠ 0))
  simp only [processFault, bind, bind_eq_ok] at hrow
  obtain ⟨ta, -, th, -, fa, -, ft, -, fm, -, fl, -, mu, hmu, ml, hml, nb, -, hrow⟩ := hrow
  obtain rfl := Except.ok.inj hrow
  rw [c.store_natCast _ _ (hhalf _)] at hmu hml
  exact ⟨(Except.ok.inj hmu).symm, (Except.ok.inj hml).symm⟩

/-- A fault comes back whole iff it fits and has nothing in the upper half of its mask. -/
theorem readFault_processFault_iff {f : IntFault} :
    (∃ row, processFault c f = .ok row ∧ readFault row = IntFault.identity f) ↔
      FitsTable f ∧ f.mask < 2 ^ 64 := by
  constructor
  · rintro ⟨row, hrow, hread⟩
    have hmask : row.faultMask = f.mask := congrArg Fault.mask hread
    refine ⟨fitsTable_of_readFault hrow hread, and_eq_self_iff.mp ?_⟩
    rw [← (processFault_mask hrow).2, hmask]
  · rintro ⟨hfits, hmask⟩
    obtain ⟨row, hrow, hread⟩ := processFault_ok (c := c) hfits
    refine ⟨row, hrow, hread.trans ?_⟩
    rw [IntFault.truncated, and_eq_self_iff.mpr hmask, IntFault.identity]

/-- A row shows the fault with both halves of its mask. -/
structure FaultRow.Shows (row : FaultRow) (f : IntFault) : Prop where
  fault : readFault row = IntFault.truncated f
  mask : row.faultMaskUpper * 2 ^ 64 + row.faultMask = f.mask

/-- The table shows a fault iff it fits and its mask has two halves. -/
theorem processFault_shows_iff {f : IntFault} :
    (∃ row, processFault c f = .ok row ∧ row.Shows f) ↔ FitsTable f ∧ f.mask < 2 ^ 128 := by
  have hhalves : ((f.mask >>> 64) &&& (2 ^ 64 - 1)) * 2 ^ 64 + (f.mask &&& (2 ^ 64 - 1)) = f.mask ↔
      f.mask < 2 ^ 128 := by
    rw [Nat.and_two_pow_sub_one_eq_mod, Nat.and_two_pow_sub_one_eq_mod, Nat.shiftRight_eq_div_pow]
    omega
  constructor
  · rintro ⟨row, hrow, hshows⟩
    obtain ⟨hupper, hlower⟩ := processFault_mask hrow
    have hmask := hshows.mask
    rw [hupper, hlower] at hmask
    exact ⟨fitsTable_of_readFault hrow hshows.fault, hhalves.mp hmask⟩
  · rintro ⟨hfits, hmask⟩
    obtain ⟨row, hrow, hread⟩ := processFault_ok (c := c) hfits
    obtain ⟨hupper, hlower⟩ := processFault_mask hrow
    refine ⟨row, hrow, hread, ?_⟩
    rw [hupper, hlower]
    exact hhalves.mpr hmask

end Archie.Campaign
