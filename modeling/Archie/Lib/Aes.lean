import Archie.Lib.BinaryPolynomial

/-! The last rounds of the cipher AES, for any S-box.

    A state is four columns of four bytes, byte `4 * c + r` is row `r` of column `c`. A fault in the
    diagonal in front of round 8 is in column 0 behind it, and so in one byte of each column in front of the
    MixColumns of round 9.

        round 8              round 9              in front of MixColumns
        x . . .              x . . .              x . . .
        . x . .   ─round─▶   x . . .   ─S, rows─▶ . . . x
        . . x .              x . . .              . . x .
        . . . x              x . . .              . x . .                                        -/

namespace Aes
open BinaryPolynomial

abbrev State := Fin 16 → BitVec 8

scoped instance neZero_four : NeZero 4 := ⟨by norm_num⟩

scoped instance neZero_sixteen : NeZero 16 := ⟨by norm_num⟩

/-- Multiplication modulo `x⁸ + x⁴ + x³ + x + 1`. -/
abbrev gmul (a b : BitVec 8) : BitVec 8 := mul 0x1b a b

/-- The place `n` rows below in the same column, around the column. -/
def below (n i : Fin 16) : Fin 16 := i / 4 * 4 + (i + n) % 4

def shiftRows (s : State) : State := fun i => s (i + 4 * (i % 4))

def invShiftRows (s : State) : State := fun i => s (i - 4 * (i % 4))

/-- A circulant matrix times each column. -/
def circulant (c₀ c₁ c₂ c₃ : BitVec 8) (s : State) : State := fun i =>
  gmul c₀ (s i) ^^^ gmul c₁ (s (below 1 i)) ^^^ gmul c₂ (s (below 2 i)) ^^^ gmul c₃ (s (below 3 i))

def mixColumns : State → State := circulant 2 3 1 1

def invMixColumns : State → State := circulant 14 11 13 9

def addRoundKey (s k : State) : State := fun i => s i ^^^ k i

def OnDiagonal (i : Fin 16) : Prop := i % 4 = i / 4

instance : DecidablePred OnDiagonal := fun i => inferInstanceAs (Decidable (i % 4 = i / 4))

def InFirstColumn (i : Fin 16) : Prop := i / 4 = 0

instance : DecidablePred InFirstColumn := fun i => inferInstanceAs (Decidable (i / 4 = 0))

/-- Where ShiftRows takes the first column. -/
def Spread (i : Fin 16) : Prop := InFirstColumn (i + 4 * (i % 4))

instance : DecidablePred Spread := fun _ => inferInstanceAs (Decidable (InFirstColumn _))

/-- Two states that may differ in some places only. -/
def AgreeOff (A : Fin 16 → Prop) (s t : State) : Prop := ∀ i, ¬ A i → s i = t i

variable (S : BitVec 8 ≃ BitVec 8)

def subBytes (s : State) : State := fun i => S (s i)

def round (s k : State) : State := addRoundKey (mixColumns (shiftRows (subBytes S s))) k

def invRound (s k : State) : State := subBytes S.symm (invShiftRows (invMixColumns (addRoundKey s k)))

/-- The last round mixes no columns. -/
def lastRound (s k : State) : State := addRoundKey (shiftRows (subBytes S s)) k

/-- The rounds 8 to 10. -/
def lastRounds (k₈ k₉ k₁₀ s : State) : State := lastRound S (round S (round S s k₈) k₉) k₁₀

/-- The state in front of the last round. -/
def invLastRound (s k : State) : State := subBytes S.symm (invShiftRows (addRoundKey s k))

/-- What is encrypted to the two ciphertexts differs in the diagonal only. -/
def Explains (k₈ k₉ k₁₀ x c : State) : Prop :=
  ∃ s t, AgreeOff OnDiagonal s t ∧ lastRounds S k₈ k₉ k₁₀ s = x ∧ lastRounds S k₈ k₉ k₁₀ t = c

/-! ### The layers -/

@[simp] theorem invShiftRows_shiftRows (s : State) : invShiftRows (shiftRows s) = s := by
  funext i
  fin_cases i <;> rfl

@[simp] theorem shiftRows_invShiftRows (s : State) : shiftRows (invShiftRows s) = s := by
  funext i
  fin_cases i <;> rfl

@[simp] theorem addRoundKey_addRoundKey (s k : State) : addRoundKey (addRoundKey s k) k = s := by
  funext i
  simp [addRoundKey]

theorem circulant_xor (c₀ c₁ c₂ c₃ : BitVec 8) (s t : State) (i : Fin 16) :
    circulant c₀ c₁ c₂ c₃ s i ^^^ circulant c₀ c₁ c₂ c₃ t i =
      circulant c₀ c₁ c₂ c₃ (fun i => s i ^^^ t i) i := by
  simp only [circulant, mul_additive _ _ _ _]
  ac_rfl

theorem below_below (m n i : Fin 16) : below m (below n i) = below (m + n) i := by
  revert m n i
  decide +kernel

theorem below_mod (n i : Fin 16) : below n i = below (n % 4) i := by
  revert n i
  decide +kernel

theorem below_zero (i : Fin 16) : below 0 i = i := by
  revert i
  decide

/-- Circulant matrices multiply like their first rows. -/
theorem circulant_circulant (c₀ c₁ c₂ c₃ d₀ d₁ d₂ d₃ : BitVec 8) (s : State) :
    circulant c₀ c₁ c₂ c₃ (circulant d₀ d₁ d₂ d₃ s) =
      circulant (gmul c₀ d₀ ^^^ gmul c₁ d₃ ^^^ gmul c₂ d₂ ^^^ gmul c₃ d₁)
        (gmul c₀ d₁ ^^^ gmul c₁ d₀ ^^^ gmul c₂ d₃ ^^^ gmul c₃ d₂)
        (gmul c₀ d₂ ^^^ gmul c₁ d₁ ^^^ gmul c₂ d₀ ^^^ gmul c₃ d₃)
        (gmul c₀ d₃ ^^^ gmul c₁ d₂ ^^^ gmul c₂ d₁ ^^^ gmul c₃ d₀) s := by
  have hleft : ∀ a b c : BitVec 8, gmul (a ^^^ b) c = gmul a c ^^^ gmul b c := fun a b c =>
    mulTerms_additive 0x1b c 8 a b
  have hright : ∀ a b c : BitVec 8, gmul a (b ^^^ c) = gmul a b ^^^ gmul a c := mul_additive 0x1b
  have hassoc : ∀ a b c : BitVec 8, gmul a (gmul b c) = gmul (gmul a b) c := fun a b c =>
    (BinaryPolynomial.mul_assoc 0x1b a b c).symm
  have hwrap : ∀ i, below 4 i = i ∧ below 5 i = below 1 i ∧ below 6 i = below 2 i := fun i =>
    ⟨(below_mod 4 i).trans (below_zero i), below_mod 5 i, below_mod 6 i⟩
  funext i
  obtain ⟨h4, h5, h6⟩ := hwrap i
  simp only [circulant, hleft, hright, hassoc, below_below, Fin.reduceAdd, h4, h5, h6]
  ac_rfl

theorem circulant_one (s : State) : circulant 1 0 0 0 s = s := by
  funext i
  simp only [circulant, gmul, BinaryPolynomial.one_mul, BinaryPolynomial.zero_mul]
  simp

@[simp] theorem mixColumns_invMixColumns (s : State) : mixColumns (invMixColumns s) = s := by
  have h₀ : gmul 2 14 ^^^ gmul 3 9 ^^^ gmul 1 13 ^^^ gmul 1 11 = 1 := by decide
  have h₁ : gmul 2 11 ^^^ gmul 3 14 ^^^ gmul 1 9 ^^^ gmul 1 13 = 0 := by decide
  have h₂ : gmul 2 13 ^^^ gmul 3 11 ^^^ gmul 1 14 ^^^ gmul 1 9 = 0 := by decide
  have h₃ : gmul 2 9 ^^^ gmul 3 13 ^^^ gmul 1 11 ^^^ gmul 1 14 = 0 := by decide
  rw [mixColumns, invMixColumns, circulant_circulant, h₀, h₁, h₂, h₃, circulant_one]

@[simp] theorem subBytes_symm (s : State) : subBytes S (subBytes S.symm s) = s := by
  funext i
  simp [subBytes]

@[simp] theorem symm_subBytes (s : State) : subBytes S.symm (subBytes S s) = s := by
  funext i
  simp [subBytes]

@[simp] theorem round_invRound (s k : State) : round S (invRound S s k) k = s := by
  simp [invRound, round]

@[simp] theorem invLastRound_lastRound (s k : State) : invLastRound S (lastRound S s k) k = s := by
  simp [invLastRound, lastRound]

@[simp] theorem lastRound_invLastRound (s k : State) : lastRound S (invLastRound S s k) k = s := by
  simp [invLastRound, lastRound]

/-! ### Differences -/

section Differences

variable {S} {A : Fin 16 → Prop} {s t : State}

theorem AgreeOff.subBytes (h : AgreeOff A s t) : AgreeOff A (subBytes S s) (subBytes S t) :=
  fun i hi => congrArg S (h i hi)

theorem AgreeOff.addRoundKey (h : AgreeOff A s t) (k : State) :
    AgreeOff A (addRoundKey s k) (addRoundKey t k) := fun i hi => congrArg (· ^^^ k i) (h i hi)

theorem AgreeOff.shiftRows (h : AgreeOff A s t) :
    AgreeOff (fun i => A (i + 4 * (i % 4))) (shiftRows s) (shiftRows t) := fun _ hi => h _ hi

theorem shift_unshift (i : Fin 16) : i - 4 * (i % 4) + 4 * ((i - 4 * (i % 4)) % 4) = i := by
  revert i
  decide

theorem AgreeOff.invShiftRows (h : AgreeOff (fun i => A (i + 4 * (i % 4))) s t) :
    AgreeOff A (invShiftRows s) (invShiftRows t) := fun i hi => by
  refine h _ fun hshift => hi ?_
  simpa only [shift_unshift i] using hshift

theorem addRoundKey_xor (s t k : State) (i : Fin 16) :
    addRoundKey s k i ^^^ addRoundKey t k i = s i ^^^ t i := by
  have hcancel : k i ^^^ (t i ^^^ k i) = t i := by
    rw [BitVec.xor_comm (t i), ← BitVec.xor_assoc, BitVec.xor_self, BitVec.zero_xor]
  rw [addRoundKey, addRoundKey, BitVec.xor_assoc, hcancel]

theorem inFirstColumn_below (n i : Fin 16) : InFirstColumn (below n i) ↔ InFirstColumn i := by
  revert n i
  decide +kernel

theorem onDiagonal_shift : (fun i => OnDiagonal (i + 4 * (i % 4))) = InFirstColumn := by
  funext i
  revert i
  decide

theorem AgreeOff.circulant (h : AgreeOff InFirstColumn s t) (c₀ c₁ c₂ c₃ : BitVec 8) :
    AgreeOff InFirstColumn (circulant c₀ c₁ c₂ c₃ s) (circulant c₀ c₁ c₂ c₃ t) := fun i hi => by
  have hbelow : ∀ n, s (below n i) = t (below n i) := fun n => h _ (mt (inFirstColumn_below n i).mp hi)
  simp only [Aes.circulant, h i hi, hbelow]

theorem AgreeOff.round (h : AgreeOff OnDiagonal s t) (k : State) :
    AgreeOff InFirstColumn (round S s k) (round S t k) := by
  have hcolumn : AgreeOff InFirstColumn (Aes.shiftRows (Aes.subBytes S s)) (Aes.shiftRows (Aes.subBytes S t)) :=
    onDiagonal_shift ▸ h.subBytes.shiftRows
  exact (hcolumn.circulant 2 3 1 1).addRoundKey k

theorem AgreeOff.invRound (h : AgreeOff InFirstColumn s t) (k : State) :
    AgreeOff OnDiagonal (invRound S s k) (invRound S t k) := by
  have hmixed := (h.addRoundKey k).circulant 14 11 13 9
  rw [← onDiagonal_shift] at hmixed
  exact hmixed.invShiftRows.subBytes

/-- A pair of ciphertexts is explained if the states in front of the last round differ by what MixColumns
    makes of one byte a column. -/
theorem explains_iff (k₈ k₉ k₁₀ x c : State) :
    Explains S k₈ k₉ k₁₀ x c ↔ ∃ δ : State, AgreeOff Spread δ 0 ∧
      ∀ i, invLastRound S x k₁₀ i ^^^ invLastRound S c k₁₀ i = mixColumns δ i := by
  constructor
  · rintro ⟨s, t, hdiagonal, rfl, rfl⟩
    have hspread : AgreeOff Spread (shiftRows (subBytes S (round S s k₈)))
        (shiftRows (subBytes S (round S t k₈))) := (hdiagonal.round k₈).subBytes.shiftRows
    refine ⟨fun i => shiftRows (subBytes S (round S s k₈)) i ^^^ shiftRows (subBytes S (round S t k₈)) i,
      fun i hi => ?_, fun i => ?_⟩
    · simp [hspread i hi]
    · rw [lastRounds, lastRounds, invLastRound_lastRound, invLastRound_lastRound, mixColumns, ← circulant_xor]
      exact addRoundKey_xor ..
  · rintro ⟨δ, hδ, hdiff⟩
    -- back from the state in front of the last round, the fault added in front of MixColumns
    obtain ⟨z, hz⟩ : ∃ z, mixColumns z = addRoundKey (invLastRound S x k₁₀) k₉ :=
      ⟨_, mixColumns_invMixColumns _⟩
    have hfaulted : mixColumns (fun i => z i ^^^ δ i) = addRoundKey (invLastRound S c k₁₀) k₉ := by
      funext i
      have hsum : mixColumns z i ^^^ mixColumns δ i = mixColumns (fun i => z i ^^^ δ i) i :=
        circulant_xor 2 3 1 1 z δ i
      have hcancel (a b c : BitVec 8) : a ^^^ b ^^^ (a ^^^ c) = a ^^^ a ^^^ (c ^^^ b) := by ac_rfl
      rw [← hsum, hz, ← hdiff, addRoundKey, hcancel, BitVec.xor_self, BitVec.zero_xor]
      rfl
    have hspread : AgreeOff Spread z fun i => z i ^^^ δ i := fun i hi => by
      simp [hδ i hi]
    have hcolumn : AgreeOff InFirstColumn (subBytes S.symm (invShiftRows z)) _ := hspread.invShiftRows.subBytes
    refine ⟨invRound S _ k₈, invRound S _ k₈, hcolumn.invRound k₈, ?_, ?_⟩
    · rw [lastRounds, round_invRound]
      simp [round, hz]
    · rw [lastRounds, round_invRound]
      simp [round, hfaulted]

/-- What MixColumns makes of one byte a column. -/
theorem mixColumns_spread {δ : State} (h : AgreeOff Spread δ 0) :
    mixColumns δ = ![gmul 2 (δ 0), δ 0, δ 0, gmul 3 (δ 0), δ 7, δ 7, gmul 3 (δ 7), gmul 2 (δ 7),
      δ 10, gmul 3 (δ 10), gmul 2 (δ 10), δ 10, gmul 3 (δ 13), gmul 2 (δ 13), δ 13, δ 13] := by
  have hzero : ∀ i, ¬ Spread i → δ i = 0#8 := h
  have hmul : ∀ a, gmul a 0#8 = 0#8 := BinaryPolynomial.mul_zero 27
  have hone : ∀ b, gmul 1#8 b = b := BinaryPolynomial.one_mul 27
  funext i
  fin_cases i <;>
  simp [mixColumns, circulant, below, hzero, Spread, InFirstColumn, hmul, hone]

end Differences

end Aes
