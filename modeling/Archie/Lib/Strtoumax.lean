import Mathlib

/-! Numbers as text in C: `strtoumax` with base 0, and decimal numbers read back.

        "  -0x1f"   ──▶  blanks, sign, 0x: hexadecimal, 0: octal, else decimal, digits
        "4096\n"    ──▶  4096                                                          -/

namespace Strtoumax

/-- `isspace` -/
def isSpace (c : UInt8) : Bool := c = 32 || (9 ≤ c && c ≤ 13)

/-- What a digit counts; other characters count more than any digit. -/
def digitValue (c : UInt8) : ℕ :=
  if 48 ≤ c ∧ c ≤ 57 then c.toNat - 48
  else if 97 ≤ c ∧ c ≤ 122 then c.toNat - 87
  else if 65 ≤ c ∧ c ≤ 90 then c.toNat - 55
  else 36

/-- The digits up to the first character that is none. -/
def digits (base acc : ℕ) : List UInt8 → ℕ
  | [] => acc
  | c :: s => if digitValue c < base then digits base (base * acc + digitValue c) s else acc

/-- `0x` and a digit of it. -/
def isHexPrefix (s : List UInt8) : Bool :=
  s.head? = some 48 && (s[1]? = some 120 || s[1]? = some 88) && s[2]?.any fun c => digitValue c < 16

def magnitude (s : List UInt8) : ℕ :=
  if isHexPrefix s then digits 16 0 (s.drop 2)
  else if s.head? = some 48 then digits 8 0 s
  else digits 10 0 s

def UINTMAX_MAX : ℕ := 2 ^ 64 - 1

/-- A value that is too large becomes the largest; a minus sign negates in 64 bits. -/
def strtoumax (s : List UInt8) : ℕ :=
  let s := s.dropWhile isSpace
  let value := magnitude (if s.head? = some 45 ∨ s.head? = some 43 then s.tail else s)
  if UINTMAX_MAX < value then UINTMAX_MAX
  else if s.head? = some 45 then (2 ^ 64 - value) % 2 ^ 64
  else value

/-! ### Decimal numbers -/

/-- ASCII text as bytes. -/
def encode (text : List Char) : List UInt8 := text.map fun c => UInt8.ofNat c.toNat

def decimal (n : ℕ) : List UInt8 := encode (Nat.toDigits 10 n)

theorem digitValue_digit {c : Char} (h : c.isDigit = true) :
    digitValue (UInt8.ofNat c.toNat) = c.toNat - '0'.toNat ∧ c.toNat - '0'.toNat < 10 := by
  have hall : ∀ m < 58, 48 ≤ m → digitValue (UInt8.ofNat m) = m - '0'.toNat ∧ m - '0'.toNat < 10 := by
    decide
  obtain ⟨hlo, hhi⟩ := Char.isDigit_iff_toNat.mp h
  exact hall c.toNat (Nat.lt_succ_of_le hhi) hlo

/-- Decimal digits add up as they do in `Nat.ofDigitChars`. -/
theorem digits_encode (rest : List UInt8) :
    ∀ {text : List Char} {acc : ℕ}, (∀ c ∈ text, c.isDigit = true) →
      digits 10 acc (encode text ++ rest) = digits 10 (Nat.ofDigitChars 10 text acc) rest
  | [], _, _ => rfl
  | c :: text, acc, h => by
    obtain ⟨hc, htext⟩ := List.forall_mem_cons.mp h
    obtain ⟨hvalue, hlt⟩ := digitValue_digit hc
    rw [Nat.ofDigitChars_cons, ← digits_encode rest htext]
    rw [encode, List.map_cons, List.cons_append, digits, hvalue, if_pos hlt]
    rfl

theorem le_of_mem_decimal {n : ℕ} {b : UInt8} (h : b ∈ decimal n) : 48 ≤ b := by
  obtain ⟨c, hc, rfl⟩ := List.mem_map.mp h
  have hall : ∀ m < 58, 48 ≤ m → (48 : UInt8) ≤ UInt8.ofNat m := by decide
  have hdigit := Nat.isDigit_of_mem_toDigits (by norm_num) (by norm_num) hc
  obtain ⟨hlo, hhi⟩ := Char.isDigit_iff_toNat.mp hdigit
  exact hall c.toNat (Nat.lt_succ_of_le hhi) hlo

/-- A positive number starts with another digit than 0. -/
theorem toDigits_head {n : ℕ} (hpos : 0 < n) :
    ∃ d text, Nat.toDigits 10 n = d :: text ∧ d ≠ '0' := by
  induction n using Nat.strong_induction_on with
  | _ n ih =>
    rw [Nat.toDigits_eq_if (by norm_num)]
    split
    · next hlt =>
      have hall : ∀ n < 10, 0 < n → Nat.digitChar n ≠ '0' := by decide
      exact ⟨_, [], rfl, hall n hlt hpos⟩
    · obtain ⟨d, text, heq, hne⟩ := ih (n / 10) (by omega) (by omega)
      exact ⟨d, text ++ [Nat.digitChar (n % 10)], by rw [heq, List.cons_append], hne⟩

theorem strtoumax_decimal {n : ℕ} (hpos : 0 < n) (hlt : n < 2 ^ 64) :
    strtoumax (decimal n ++ [10]) = n := by
  obtain ⟨d, text, heq, hne⟩ := toDigits_head hpos
  have hdigit : ∀ c ∈ Nat.toDigits 10 n, c.isDigit = true := fun c hc =>
    Nat.isDigit_of_mem_toDigits (by norm_num) (by norm_num) hc
  have hvalue : digits 10 0 (decimal n ++ [10]) = n := by
    rw [decimal, digits_encode [10] hdigit, Nat.ofDigitChars_ten_toDigits]
    rfl
  -- the first character is neither a blank nor a sign nor 0
  obtain ⟨hspace, hminus, hplus, hzero⟩ : isSpace (UInt8.ofNat d.toNat) = false ∧
      UInt8.ofNat d.toNat ≠ 45 ∧ UInt8.ofNat d.toNat ≠ 43 ∧ UInt8.ofNat d.toNat ≠ 48 := by
    have hall : ∀ m < 58, 49 ≤ m → isSpace (UInt8.ofNat m) = false ∧
        UInt8.ofNat m ≠ 45 ∧ UInt8.ofNat m ≠ 43 ∧ UInt8.ofNat m ≠ 48 := by decide
    obtain ⟨hlo, hhi⟩ := Char.isDigit_iff_toNat.mp (hdigit d (heq ▸ List.mem_cons_self))
    have hd : d.toNat ≠ '0'.toNat := fun h => hne (Char.toNat_inj.mp h)
    exact hall d.toNat (Nat.lt_succ_of_le hhi) (Nat.lt_of_le_of_ne hlo hd.symm)
  have hcons : decimal n ++ [10] = UInt8.ofNat d.toNat :: (encode text ++ [10]) := by
    rw [decimal, heq]
    rfl
  have hmagnitude : magnitude (decimal n ++ [10]) = n := by
    have hhex : isHexPrefix (decimal n ++ [10]) = false := by simp [isHexPrefix, hcons, hzero]
    rw [magnitude, hhex, if_neg Bool.false_ne_true, if_neg, hvalue]
    simp [hcons, hzero]
  have hdrop : (decimal n ++ [10]).dropWhile isSpace = decimal n ++ [10] := by
    rw [hcons, List.dropWhile_cons, if_neg (by rw [hspace]; exact Bool.false_ne_true)]
  have hhead : (decimal n ++ [10]).head? = some (UInt8.ofNat d.toNat) := by rw [hcons, List.head?_cons]
  simp only [strtoumax, hdrop, hhead, Option.some_inj, hminus, hplus, or_self, if_false, hmagnitude]
  rw [if_neg (by rw [UINTMAX_MAX]; omega)]

end Strtoumax
