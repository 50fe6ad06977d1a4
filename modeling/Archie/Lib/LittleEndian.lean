import Mathlib

/-! Little-endian bytes of natural numbers, bit by bit.

    Byte `i` of a number holds its bits `8 * i` to `8 * i + 7`, for the number read from a list of
    bytes as for the bytes written for a number. -/

namespace LittleEndian

/-- The number that a list of bytes spells, lowest byte first. -/
def fromBytes : List (BitVec 8) → ℕ
  | [] => 0
  | b :: bs => b.toNat + 2 ^ 8 * fromBytes bs

/-- The lowest `w` bytes of a number. -/
def bytes : ℕ → ℕ → List (BitVec 8)
  | 0, _ => []
  | w + 1, n => BitVec.ofNat 8 n :: bytes w (n / 2 ^ 8)

/-- How many bytes a number needs, none for zero. -/
def byteLen (n : ℕ) : ℕ := (n.size + 7) / 8

/-- The bytes of a number without leading zeros, one byte for zero. -/
def toBytes (n : ℕ) : List (BitVec 8) := bytes (max 1 (byteLen n)) n

theorem lt_byteLen (n : ℕ) : n < 2 ^ (8 * byteLen n) :=
  Nat.size_le.mp (by unfold byteLen; omega)

theorem byteLen_le {n w : ℕ} (h : n < 2 ^ (8 * w)) : byteLen n ≤ w := by
  have := Nat.size_le.mpr h
  unfold byteLen; omega

@[simp] theorem length_bytes : ∀ w n : ℕ, (bytes w n).length = w
  | 0, _ => rfl
  | w + 1, n => by rw [bytes, List.length_cons, length_bytes w (n / 2 ^ 8)]

@[simp] theorem length_toBytes (n : ℕ) : (toBytes n).length = max 1 (byteLen n) := length_bytes _ _

theorem fromBytes_lt : ∀ bs : List (BitVec 8), fromBytes bs < 2 ^ (8 * bs.length)
  | [] => by simp [fromBytes]
  | b :: bs => by
    have ih := fromBytes_lt bs
    have hb := b.isLt
    rw [fromBytes, List.length_cons, show 8 * (bs.length + 1) = 8 + 8 * bs.length by ring, pow_add]
    omega

theorem testBit_fromBytes : ∀ (bs : List (BitVec 8)) (i b : ℕ), b < 8 →
    (fromBytes bs).testBit (8 * i + b) = (bs[i]?.getD 0).getLsbD b
  | [], i, b, _ => by simp [fromBytes]
  | x :: bs, 0, b, hb => by
    rw [fromBytes, Nat.add_comm, Nat.testBit_two_pow_mul_add _ x.isLt]
    simp [hb, BitVec.getLsbD]
  | x :: bs, i + 1, b, hb => by
    have hge : ¬ 8 * (i + 1) + b < 8 := by omega
    have hsub : 8 * (i + 1) + b - 8 = 8 * i + b := by omega
    rw [fromBytes, Nat.add_comm, Nat.testBit_two_pow_mul_add _ x.isLt, if_neg hge, hsub,
      testBit_fromBytes bs i b hb]
    simp

theorem getElem?_bytes : ∀ {w i : ℕ} (n : ℕ), i < w → (bytes w n)[i]? = some (BitVec.ofNat 8 (n >>> (8 * i)))
  | w + 1, 0, n, _ => by simp [bytes]
  | w + 1, i + 1, n, h => by
    have hshift : (n / 2 ^ 8) >>> (8 * i) = n >>> (8 * (i + 1)) := by
      rw [← Nat.shiftRight_eq_div_pow, ← Nat.shiftRight_add]
      congr 1; ring
    rw [bytes, List.getElem?_cons_succ, getElem?_bytes (n / 2 ^ 8) (by omega), hshift]

/-- Padding a number that fits is writing it wider. -/
theorem bytes_append_zeros : ∀ {w : ℕ} (k : ℕ) {n : ℕ}, n < 2 ^ (8 * w) →
    bytes w n ++ List.replicate k 0 = bytes (w + k) n
  | 0, k, n, h => by
    obtain rfl : n = 0 := by simpa using h
    rw [bytes, List.nil_append, Nat.zero_add]
    induction k with
    | zero => rfl
    | succ k ih => rw [bytes, List.replicate_succ, ih]; rfl
  | w + 1, k, n, h => by
    have hdiv : n / 2 ^ 8 < 2 ^ (8 * w) := by
      rw [Nat.div_lt_iff_lt_mul (by positivity), ← pow_add]
      exact lt_of_lt_of_eq h (by ring)
    rw [show w + 1 + k = (w + k) + 1 by omega, bytes, bytes, List.cons_append,
      bytes_append_zeros k hdiv]

theorem length_toBytes_le {n w : ℕ} (hw : 1 ≤ w) (h : n < 2 ^ (8 * w)) : (toBytes n).length ≤ w := by
  rw [length_toBytes]
  exact max_le hw (byteLen_le h)

/-- The bytes of a number that fits, padded to a width. -/
theorem toBytes_append_zeros {n w : ℕ} (hw : 1 ≤ w) (h : n < 2 ^ (8 * w)) :
    toBytes n ++ List.replicate (w - (toBytes n).length) 0 = bytes w n := by
  have hlen := length_toBytes_le hw h
  have hfit : n < 2 ^ (8 * max 1 (byteLen n)) := lt_of_lt_of_le (lt_byteLen n)
    (Nat.pow_le_pow_right (by norm_num) (Nat.mul_le_mul_left 8 (le_max_right 1 (byteLen n))))
  rw [length_toBytes] at hlen ⊢
  rw [toBytes, bytes_append_zeros _ hfit, Nat.add_sub_cancel' hlen]

end LittleEndian
