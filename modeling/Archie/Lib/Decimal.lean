import Archie.Lib.Python

/-! Numbers as decimal text: padded numbers sort like the numbers, and text that ends a word with a
    letter can be cut at that letter. -/

namespace Decimal
open Python

/-! ### Padded numbers -/

/-- The last `w` digits of a number. -/
def digits : ℕ → ℕ → Text
  | 0, _ => []
  | w + 1, n => digits w (n / 10) ++ [Nat.digitChar (n % 10)]

@[simp] theorem length_digits : ∀ w n, (digits w n).length = w
  | 0, _ => rfl
  | w + 1, n => by rw [digits, List.length_append, length_digits w]; rfl

theorem digits_zero : ∀ w, digits w 0 = List.replicate w '0'
  | 0 => rfl
  | w + 1 => by rw [digits, Nat.zero_div, digits_zero w, List.replicate_succ']; rfl

/-- A number of at most `w` digits, padded. -/
theorem formatPadded_eq : ∀ {w n : ℕ}, n < 10 ^ (w + 1) → formatPadded (w + 1) n = digits (w + 1) n
  | 0, n, h => by
    have hn : n < 10 := by simpa using h
    simp [formatPadded, digits, Nat.toDigits_of_lt_base hn, Nat.mod_eq_of_lt hn]
  | w + 1, n, h => by
    by_cases hn : n < 10
    · rw [digits, Nat.div_eq_of_lt hn, digits_zero, Nat.mod_eq_of_lt hn]
      simp [formatPadded, Nat.toDigits_of_lt_base hn]
    · have hdiv : n / 10 < 10 ^ (w + 1) := by
        rw [Nat.div_lt_iff_lt_mul (by norm_num), ← pow_succ]
        exact h
      rw [digits, ← formatPadded_eq hdiv, formatPadded, formatPadded,
        Nat.toDigits_eq_if (by norm_num), if_neg hn]
      simp [← List.append_assoc]

theorem append_lt_append {x y : Text} (s t : Text) (hlen : x.length = y.length) (h : x < y) :
    x ++ s < y ++ t := by
  induction x generalizing y with
  | nil =>
    cases y with
    | nil => cases h
    | cons => simp at hlen
  | cons a x ih =>
    cases y with
    | nil => simp at hlen
    | cons b y =>
      rw [List.cons_lt_cons_iff] at h
      rw [List.cons_append, List.cons_append, List.cons_lt_cons_iff]
      exact h.imp_right fun ⟨hab, hxy⟩ => ⟨hab, ih (by simpa using hlen) hxy⟩

theorem digitChar_lt {c d : ℕ} (hcd : c < d) (hd : d < 10) : Nat.digitChar c < Nat.digitChar d := by
  have hall : ∀ d < 10, ∀ c < d, Nat.digitChar c < Nat.digitChar d := by decide
  exact hall d hd c hcd

/-- Padded numbers sort like numbers. -/
theorem digits_lt : ∀ {w i j : ℕ}, i < j → j < 10 ^ w → digits w i < digits w j
  | 0, i, j, hij, hj => by simp at hj; omega
  | w + 1, i, j, hij, hj => by
    have hdiv : j / 10 < 10 ^ w := by
      rw [Nat.div_lt_iff_lt_mul (by norm_num), ← pow_succ]
      exact hj
    rcases Nat.lt_or_ge (i / 10) (j / 10) with h | h
    · exact append_lt_append _ _ (by simp) (digits_lt h hdiv)
    · have heq : i / 10 = j / 10 := by omega
      rw [digits, digits, heq]
      refine List.append_left_lt ?_
      rw [List.cons_lt_cons_iff]
      exact .inl (digitChar_lt (by omega) (Nat.mod_lt _ (by norm_num)))

theorem formatPadded_lt {w i j : ℕ} (hij : i < j) (hj : j < 10 ^ w) :
    formatPadded w i < formatPadded w j := by
  cases w with
  | zero => simp at hj; omega
  | succ w =>
    rw [formatPadded_eq (hij.trans hj), formatPadded_eq hj]
    exact digits_lt hij hj

theorem formatPadded_inj {w m n : ℕ} (h : formatPadded w m = formatPadded w n) : m = n := by
  have hvalue : ∀ n, Nat.ofDigitChars 10 (formatPadded w n) 0 = n := by
    intro n
    rw [formatPadded, Nat.ofDigitChars_append, Nat.ofDigitChars_replicate_zero, Nat.mul_zero,
      Nat.ofDigitChars_ten_toDigits]
  rw [← hvalue m, h, hvalue]

/-- A number is below the power of ten that its digits make room for. -/
theorem lt_pow_length (n : ℕ) : n < 10 ^ (Nat.toDigits 10 n).length :=
  (Nat.length_toDigits_le_iff (by norm_num) (List.length_pos_of_ne_nil Nat.toDigits_ne_nil)).mp le_rfl

/-! ### Words -/

/-- The characters of a number. -/
def IsNumeral (c : Char) : Prop := c.isDigit = true ∨ c = '-'

theorem isNumeral_strInt {i : Int} {c : Char} (h : c ∈ strInt i) : IsNumeral c := by
  cases i with
  | ofNat n => exact .inl (Nat.isDigit_of_mem_toDigits (by norm_num) (by norm_num) h)
  | negSucc n =>
    rcases List.mem_cons.mp h with rfl | h
    · exact .inr rfl
    · exact .inl (Nat.isDigit_of_mem_toDigits (by norm_num) (by norm_num) h)

theorem strInt_natCast_inj {m n : ℕ} (h : strInt m = strInt n) : m = n := by
  have hdigits : Nat.toDigits 10 m = Nat.toDigits 10 n := h
  rw [← Nat.ofDigitChars_ten_toDigits (n := m), hdigits, Nat.ofDigitChars_ten_toDigits]

/-- Text splits in one way only at its first character that satisfies no `p`. -/
theorem append_cons_inj {p : Char → Prop} : ∀ {x y r s : Text} {a b : Char}, (∀ c ∈ x, p c) →
    (∀ c ∈ y, p c) → ¬ p a → ¬ p b → x ++ a :: r = y ++ b :: s → x = y ∧ a = b ∧ r = s
  | [], [], _, _, _, _, _, _, _, _, h => by
    obtain ⟨rfl, rfl⟩ := List.cons.inj h
    exact ⟨rfl, rfl, rfl⟩
  | [], d :: _, _, _, _, _, _, hy, ha, _, h => by
    obtain ⟨rfl, -⟩ := List.cons.inj h
    exact absurd (hy _ List.mem_cons_self) ha
  | c :: _, [], _, _, _, _, hx, _, _, hb, h => by
    obtain ⟨rfl, -⟩ := List.cons.inj h
    exact absurd (hx _ List.mem_cons_self) hb
  | c :: x, d :: y, _, _, _, _, hx, hy, ha, hb, h => by
    obtain ⟨rfl, htail⟩ := List.cons.inj h
    obtain ⟨rfl, rest⟩ := append_cons_inj (fun c hc => hx c (List.mem_cons_of_mem _ hc))
      (fun c hc => hy c (List.mem_cons_of_mem _ hc)) ha hb htail
    exact ⟨rfl, rest⟩

/-- Numerals followed by a truth value and more text. -/
theorem append_strBool_inj {x y r s : Text} {a b : Bool} (hx : ∀ c ∈ x, IsNumeral c)
    (hy : ∀ c ∈ y, IsNumeral c) (h : x ++ (strBool a ++ r) = y ++ (strBool b ++ s)) :
    x = y ∧ a = b ∧ r = s := by
  have hT : ¬ IsNumeral 'T' := by unfold IsNumeral; decide
  have hF : ¬ IsNumeral 'F' := by unfold IsNumeral; decide
  cases a <;> cases b
  · obtain ⟨hxy, -, hrs⟩ := append_cons_inj hx hy hF hF h
    exact ⟨hxy, rfl, List.append_cancel_left hrs⟩
  · obtain ⟨-, hFT, -⟩ := append_cons_inj hx hy hF hT h
    exact absurd hFT (by decide)
  · obtain ⟨-, hTF, -⟩ := append_cons_inj hx hy hT hF h
    exact absurd hTF (by decide)
  · obtain ⟨hxy, -, hrs⟩ := append_cons_inj hx hy hT hT h
    exact ⟨hxy, rfl, List.append_cancel_left hrs⟩

end Decimal
