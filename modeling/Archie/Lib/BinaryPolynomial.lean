import Mathlib

/-! Polynomials over the two-element field, modulo one of degree `w`.

    A bit vector holds the `w` coefficients, its sum is `^^^`. Times `x` is a shift; the coefficient that
    falls out comes back as `p`, the modulus without its leading term. An operation that is additive and
    commutes with times `x` is a multiplication; so products commute and associate, and a table of powers
    with one of logarithms multiplies.

        a · b  =  b₀ a  +  b₁ x a  +  b₂ x² a  +  …                                              -/

namespace BinaryPolynomial

variable {w : ℕ}

def Additive (f : BitVec w → BitVec w) : Prop := ∀ a b, f (a ^^^ b) = f a ^^^ f b

theorem Additive.zero {f : BitVec w → BitVec w} (h : Additive f) : f 0 = 0 := by
  have hzero := h 0 0
  rw [BitVec.xor_self, BitVec.xor_self] at hzero
  exact hzero

theorem Additive.iterate {f : BitVec w → BitVec w} (h : Additive f) : ∀ k, Additive f^[k]
  | 0 => fun _ _ => rfl
  | k + 1 => fun a b => by rw [Function.iterate_succ_apply, h, h.iterate k]; rfl

theorem Additive.ite {f : BitVec w → BitVec w} (h : Additive f) (c : Prop) [Decidable c] (a : BitVec w) :
    f (if c then a else 0) = if c then f a else 0 := by
  split
  · rfl
  · exact h.zero

variable (p : BitVec w)

def timesX (a : BitVec w) : BitVec w := a <<< 1 ^^^ if a.msb then p else 0

/-- The product with the first `k` terms of `b`. -/
def mulTerms (a b : BitVec w) : ℕ → BitVec w
  | 0 => 0
  | k + 1 => mulTerms a b k ^^^ if b.getLsbD k then (timesX p)^[k] a else 0

def mul (a b : BitVec w) : BitVec w := mulTerms p a b w

theorem timesX_additive : Additive (timesX p) := by
  intro a b
  rw [timesX, timesX, timesX, BitVec.shiftLeft_xor_distrib, BitVec.msb_xor]
  cases a.msb with
  | false => cases b.msb <;> simp [BitVec.xor_assoc]
  | true =>
    cases b.msb with
    | false => simp [BitVec.xor_assoc, BitVec.xor_comm (b <<< 1)]
    | true =>
      have hcancel : p ^^^ (b <<< 1 ^^^ p) = b <<< 1 := by
        rw [BitVec.xor_comm (b <<< 1), ← BitVec.xor_assoc, BitVec.xor_self, BitVec.zero_xor]
      simp [BitVec.xor_assoc, hcancel]

theorem mulTerms_map {f : BitVec w → BitVec w} (h : Additive f) (hx : ∀ a, f (timesX p a) = timesX p (f a))
    (a b : BitVec w) : ∀ k, mulTerms p (f a) b k = f (mulTerms p a b k)
  | 0 => h.zero.symm
  | k + 1 => by
    have hpower : (timesX p)^[k] (f a) = f ((timesX p)^[k] a) :=
      (Function.Semiconj.iterate_right hx k a).symm
    rw [mulTerms, mulTerms, mulTerms_map h hx a b k, h, h.ite, hpower]

theorem mulTerms_additive (b : BitVec w) : ∀ k, Additive fun a => mulTerms p a b k
  | 0 => fun _ _ => (BitVec.xor_self).symm
  | k + 1 => fun a a' => by
    have hterms : mulTerms p (a ^^^ a') b k = mulTerms p a b k ^^^ mulTerms p a' b k :=
      mulTerms_additive b k a a'
    have hpower := (timesX_additive p).iterate k a a'
    simp only [mulTerms]
    rw [hterms, hpower]
    split
    · ac_rfl
    · simp

/-- The powers of `x` below the degree. -/
theorem iterate_timesX_one : ∀ {k : ℕ}, k < w → (timesX p)^[k] 1 = BitVec.twoPow w k
  | 0, hk => by
    rw [Function.iterate_zero, id, BitVec.twoPow_zero]
    rfl
  | k + 1, hk => by
    have hmsb : (BitVec.twoPow w k).msb = false := by
      rw [BitVec.msb_twoPow]
      simp
      omega
    rw [Function.iterate_succ_apply', iterate_timesX_one (by omega), timesX, hmsb, if_neg Bool.false_ne_true]
    simp [BitVec.twoPow_eq, BitVec.shiftLeft_add]

theorem getLsbD_mulTerms_one (b : BitVec w) {i : ℕ} : ∀ {k : ℕ}, k ≤ w →
    (mulTerms p 1 b k).getLsbD i = (decide (i < k) && b.getLsbD i)
  | 0, _ => by simp [mulTerms]
  | k + 1, hk => by
    rw [mulTerms, BitVec.getLsbD_xor, getLsbD_mulTerms_one b (by omega), iterate_timesX_one p (by omega)]
    by_cases hik : i = k
    · subst hik
      have hlt : i < w := by omega
      cases b.getLsbD i <;> simp [hlt]
    · have hterm : (if b.getLsbD k then BitVec.twoPow w k else 0).getLsbD i = false := by
        split
        · simp [BitVec.getLsbD_twoPow, Ne.symm hik]
        · simp
      have hlt : decide (i < k) = decide (i < k + 1) := decide_eq_decide.mpr (by omega)
      rw [hterm, Bool.xor_false, hlt]

protected theorem one_mul (b : BitVec w) : mul p 1 b = b := by
  apply BitVec.eq_of_getLsbD_eq
  intro i hi
  rw [mul, getLsbD_mulTerms_one p b le_rfl, decide_eq_true hi, Bool.true_and]

section Laws

variable {p} {f : BitVec w → BitVec w}

/-- An additive operation that commutes with times `x` is a multiplication. -/
theorem eq_mul (h : Additive f) (hx : ∀ a, f (timesX p a) = timesX p (f a)) (a : BitVec w) :
    f a = mul p (f 1) a := by
  have hmap : mul p (f 1) a = f (mul p 1 a) := mulTerms_map p h hx 1 a w
  rw [hmap, BinaryPolynomial.one_mul]

end Laws

theorem timesX_mul (a b : BitVec w) : mul p (timesX p a) b = timesX p (mul p a b) :=
  mulTerms_map p (timesX_additive p) (fun _ => rfl) a b w

protected theorem mul_comm (a b : BitVec w) : mul p a b = mul p b a := by
  have h := eq_mul (p := p) (f := fun a => mul p a b) (mulTerms_additive p b w) (fun a => timesX_mul p a b) a
  rw [BinaryPolynomial.one_mul] at h
  exact h

theorem mul_timesX (a b : BitVec w) : mul p a (timesX p b) = timesX p (mul p a b) := by
  rw [BinaryPolynomial.mul_comm, timesX_mul, BinaryPolynomial.mul_comm]

theorem mul_additive (a : BitVec w) : Additive (mul p a) := fun b b' => by
  rw [BinaryPolynomial.mul_comm, BinaryPolynomial.mul_comm p a b, BinaryPolynomial.mul_comm p a b']
  exact mulTerms_additive p a w b b'

protected theorem mul_assoc (a b c : BitVec w) : mul p (mul p a b) c = mul p a (mul p b c) := by
  have hadditive : Additive fun c => mul p a (mul p b c) := fun c c' => by
    simp only [mul_additive p b c c', mul_additive p a (mul p b c)]
  have hx : ∀ c, mul p a (mul p b (timesX p c)) = timesX p (mul p a (mul p b c)) := fun c => by
    rw [mul_timesX, mul_timesX]
  have h := eq_mul hadditive hx c
  rw [BinaryPolynomial.mul_comm p b 1, BinaryPolynomial.one_mul] at h
  exact h.symm

protected theorem mul_zero (a : BitVec w) : mul p a 0 = 0 := (mul_additive p a).zero

protected theorem zero_mul (b : BitVec w) : mul p 0 b = 0 := (mulTerms_additive p b w).zero

/-! ### Tables -/

section Tables

variable {p} {g : BitVec w → BitVec w} (hg : Additive g) (hx : ∀ a, g (timesX p a) = timesX p (g a))
include hg hx

theorem mul_powers (i j : ℕ) : mul p (g^[i] 1) (g^[j] 1) = g^[i + j] 1 := by
  have hcommute : ∀ a, g^[i] (timesX p a) = timesX p (g^[i] a) := Function.Commute.iterate_left hx i
  have h := eq_mul (hg.iterate i) hcommute (g^[j] 1)
  rw [← h, Function.iterate_add_apply]

/-- Logarithms add up, those above the period `n` less one period. -/
theorem mul_eq_of_logs {e : ℕ → BitVec w} {log : BitVec w → ℕ} {n : ℕ} (he : ∀ i ≤ n, e i = g^[i] 1)
    (hperiod : e n = 1) (hlog : ∀ a, a ≠ 0 → log a ≤ n ∧ e (log a) = a) {a b : BitVec w} (ha : a ≠ 0)
    (hb : b ≠ 0) :
    mul p a b = if n < log a + log b then e (log a + log b - n) else e (log a + log b) := by
  obtain ⟨hle, heq⟩ := hlog a ha
  obtain ⟨hle', heq'⟩ := hlog b hb
  have hproduct : mul p a b = g^[log a + log b] 1 := by
    rw [← mul_powers hg hx, ← he _ hle, ← he _ hle', heq, heq']
  rw [hproduct]
  split
  · next hlt =>
    have hsplit : log a + log b - n + n = log a + log b := by omega
    rw [he _ (by omega), ← hsplit, Function.iterate_add_apply, ← he n le_rfl, hperiod, hsplit]
  · next hlt => exact (he _ (by omega)).symm

end Tables

end BinaryPolynomial
