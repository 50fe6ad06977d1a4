import Mathlib

/-! A bit vector as a row of bytes.

    Byte `i` holds the bits `8 * i` to `8 * i + 7`. Logical operations work on each byte alone, and so
    does an addition of two numbers that share no bit. -/

namespace ByteLanes

variable {w n : ℕ}

def lane (x : BitVec w) (i : ℕ) : BitVec 8 := (x >>> (8 * i)).setWidth 8

theorem getLsbD_lane (x : BitVec w) (i : ℕ) {b : ℕ} (hb : b < 8) :
    (lane x i).getLsbD b = x.getLsbD (8 * i + b) := by
  rw [lane, BitVec.getLsbD_setWidth, BitVec.getLsbD_ushiftRight, decide_eq_true hb, Bool.true_and]

theorem ext_lane {x y : BitVec w} (hw : w ≤ 8 * n) (h : ∀ i < n, lane x i = lane y i) : x = y := by
  apply BitVec.eq_of_getLsbD_eq
  intro k hk
  have hb : k % 8 < 8 := Nat.mod_lt _ (by omega)
  have hlane := congrArg (BitVec.getLsbD · (k % 8)) (h (k / 8) (by omega))
  simp only [getLsbD_lane _ _ hb] at hlane
  rwa [Nat.div_add_mod] at hlane

theorem lane_ext {x : BitVec w} {i : ℕ} {b : BitVec 8}
    (h : ∀ k < 8, x.getLsbD (8 * i + k) = b.getLsbD k) : lane x i = b := by
  apply BitVec.eq_of_getLsbD_eq
  intro k hk
  rw [getLsbD_lane _ _ hk, h k hk]

/-! ### Operations -/

section Operations

variable (x y : BitVec w) (i : ℕ)

@[simp] theorem lane_and : lane (x &&& y) i = lane x i &&& lane y i := by
  refine lane_ext fun k hk => ?_
  rw [BitVec.getLsbD_and, BitVec.getLsbD_and, getLsbD_lane _ _ hk, getLsbD_lane _ _ hk]

@[simp] theorem lane_or : lane (x ||| y) i = lane x i ||| lane y i := by
  refine lane_ext fun k hk => ?_
  rw [BitVec.getLsbD_or, BitVec.getLsbD_or, getLsbD_lane _ _ hk, getLsbD_lane _ _ hk]

@[simp] theorem lane_xor : lane (x ^^^ y) i = lane x i ^^^ lane y i := by
  refine lane_ext fun k hk => ?_
  rw [BitVec.getLsbD_xor, BitVec.getLsbD_xor, getLsbD_lane _ _ hk, getLsbD_lane _ _ hk]

theorem lane_not {i : ℕ} (h : 8 * i + 8 ≤ w) : lane (~~~x) i = ~~~lane x i := by
  refine lane_ext fun k hk => ?_
  have hlt : 8 * i + k < w := by omega
  rw [BitVec.getLsbD_not, BitVec.getLsbD_not, getLsbD_lane _ _ hk, decide_eq_true hlt,
    decide_eq_true hk]

@[simp] theorem lane_zero : lane (0 : BitVec w) i = 0 := by
  refine lane_ext fun k hk => ?_
  simp

theorem lane_allOnes {i : ℕ} (h : 8 * i + 8 ≤ w) : lane (BitVec.allOnes w) i = BitVec.allOnes 8 := by
  refine lane_ext fun k hk => ?_
  have hlt : 8 * i + k < w := by omega
  rw [BitVec.getLsbD_allOnes, BitVec.getLsbD_allOnes, decide_eq_true hlt, decide_eq_true hk]

/-- A byte shifted to its place. -/
theorem lane_shiftLeft (b : BitVec 8) (j : ℕ) {i : ℕ} (h : 8 * i + 8 ≤ w) :
    lane (b.setWidth w <<< (8 * j)) i = if i = j then b else 0 := by
  refine lane_ext fun k hk => ?_
  have hlt : 8 * i + k < w := by omega
  rw [BitVec.getLsbD_shiftLeft, BitVec.getLsbD_setWidth, decide_eq_true hlt, Bool.true_and]
  split
  · next hij =>
    subst hij
    have hnot : ¬8 * i + k < 8 * i := by omega
    rw [decide_eq_false hnot, Nat.add_sub_cancel_left, decide_eq_true (by omega : k < w)]
    simp
  · next hij =>
    rcases Nat.lt_or_gt_of_ne hij with hlt | hgt
    · have hlow : 8 * i + k < 8 * j := by omega
      simp [hlow]
    · have hhigh : 8 ≤ 8 * i + k - 8 * j := by omega
      simp [BitVec.getLsbD_of_ge b _ hhigh]

/-- Sign extension repeats the top bit of the last byte. -/
theorem lane_signExtend {m v : ℕ} (x : BitVec w) (hw : w = 8 * (m + 1)) {i : ℕ} (h : 8 * i + 8 ≤ v) :
    lane (x.signExtend v) i =
      if i ≤ m then lane x i else if (lane x m).msb then BitVec.allOnes 8 else 0 := by
  have htop : (lane x m).msb = x.msb := by
    rw [BitVec.msb_eq_getLsbD_last, BitVec.msb_eq_getLsbD_last, getLsbD_lane _ _ (by omega)]
    congr 1
    omega
  refine lane_ext fun k hk => ?_
  have hlt : 8 * i + k < v := by omega
  rw [BitVec.getLsbD_signExtend, decide_eq_true hlt, Bool.true_and]
  by_cases hi : i ≤ m
  · have hin : 8 * i + k < w := by omega
    rw [if_pos hi, if_pos hin, getLsbD_lane _ _ hk]
  · have hout : ¬8 * i + k < w := by omega
    rw [if_neg hi, if_neg hout, htop]
    cases x.msb
    · simp
    · rw [if_pos rfl, BitVec.getLsbD_allOnes, decide_eq_true hk]

/-- Without a common bit there is no carry. -/
theorem lane_add (hw : w ≤ 8 * n) (h : ∀ i < n, lane x i &&& lane y i = 0) :
    lane (x + y) i = lane x i ||| lane y i := by
  have hand : x &&& y = 0 := by
    refine ext_lane hw fun i hi => ?_
    rw [lane_and, h i hi, lane_zero]
  rw [BitVec.add_eq_or_of_and_eq_zero x y hand, lane_or]

end Operations

/-- A number from its bytes. -/
def ofLanes (w : ℕ) (b : ℕ → BitVec 8) : BitVec w :=
  BitVec.ofFnLE fun k : Fin w => (b (k / 8)).getLsbD (k % 8)

theorem lane_ofLanes (b : ℕ → BitVec 8) {i : ℕ} (h : 8 * i + 8 ≤ w) : lane (ofLanes w b) i = b i := by
  refine lane_ext fun k hk => ?_
  have hlt : 8 * i + k < w := by omega
  rw [ofLanes, BitVec.getLsbD_ofFnLE, dif_pos hlt]
  simp only [show (8 * i + k) / 8 = i by omega, show (8 * i + k) % 8 = k by omega]

/-- A loop whose rounds work on one byte each. -/
theorem lane_foldl (step : BitVec w → Fin n → BitVec w) (op : Fin n → BitVec 8 → BitVec 8)
    (hself : ∀ x j, lane (step x j) j = op j (lane x j))
    (hother : ∀ x (i j : Fin n), i ≠ j → lane (step x j) i = lane x i) :
    ∀ {l : List (Fin n)}, l.Nodup → ∀ (x : BitVec w) (i : Fin n),
      lane (l.foldl step x) i = if i ∈ l then op i (lane x i) else lane x i
  | [], _, x, i => by simp
  | j :: l, hnodup, x, i => by
    obtain ⟨hj, hl⟩ := List.nodup_cons.mp hnodup
    rw [List.foldl_cons, lane_foldl step op hself hother hl]
    by_cases hij : i = j
    · subst hij
      rw [if_neg hj, if_pos List.mem_cons_self, hself]
    · simp only [hother x i j hij, List.mem_cons, hij, false_or]

end ByteLanes
