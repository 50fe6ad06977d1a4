import Archie.Lib.Python

/-! Numbers as hexadecimal text: what is printed, padded with blanks or with zeros, is read back. -/

namespace Hexadecimal
open Python

theorem hexDigit_digitChar {d : ℕ} (h : d < 16) : hexDigit (Nat.digitChar d) = some d := by
  have hall : ∀ d < 16, hexDigit (Nat.digitChar d) = some d := by decide
  exact hall d h

theorem hexGo_append (y : Text) : ∀ (x : Text) (n : ℕ),
    hexGo n (x ++ y) = (hexGo n x).bind fun m => hexGo m y
  | [], _ => rfl
  | c :: x, n => by
    rw [List.cons_append, hexGo, hexGo]
    cases hexDigit c with
    | none => rfl
    | some d => exact hexGo_append y x (16 * n + d)

/-- The digits of a number spell it. -/
theorem hexGo_toDigits (n : ℕ) : hexGo 0 (Nat.toDigits 16 n) = some n := by
  induction n using Nat.strong_induction_on with
  | _ n ih =>
    rw [Nat.toDigits_eq_if (by norm_num)]
    split
    · next hn =>
      rw [hexGo, hexDigit_digitChar hn, Option.bind_some, Nat.mul_zero, Nat.zero_add, hexGo]
    · next hn =>
      rw [hexGo_append, ih (n / 16) (by omega), Option.bind_some, hexGo,
        hexDigit_digitChar (Nat.mod_lt n (by norm_num)), Option.bind_some, hexGo]
      exact congrArg some (by omega)

theorem hexGo_zeros (x : Text) : ∀ k : ℕ, hexGo 0 (List.replicate k '0' ++ x) = hexGo 0 x
  | 0 => rfl
  | k + 1 => by
    rw [List.replicate_succ, List.cons_append, hexGo]
    exact hexGo_zeros x k

/-- What a hexadecimal digit can be. -/
theorem exists_digit {n : ℕ} {c : Char} (h : c ∈ Nat.toDigits 16 n) : ∃ d < 16, c = Nat.digitChar d := by
  induction n using Nat.strong_induction_on with
  | _ n ih =>
    rw [Nat.toDigits_eq_if (by norm_num)] at h
    split at h
    · next hn => exact ⟨n, hn, List.mem_singleton.mp h⟩
    · next hn =>
      rcases List.mem_append.mp h with h | h
      · exact ih (n / 16) (by omega) h
      · exact ⟨n % 16, Nat.mod_lt n (by norm_num), List.mem_singleton.mp h⟩

/-- A character that is no digit does not occur. -/
theorem not_mem_toDigits {c : Char} (h : ∀ d < 16, Nat.digitChar d ≠ c) (n : ℕ) : c ∉ Nat.toDigits 16 n := by
  intro hc
  obtain ⟨d, hd, rfl⟩ := exists_digit hc
  exact h d hd rfl

theorem isWhitespace_of_mem {n : ℕ} {c : Char} (h : c ∈ Nat.toDigits 16 n) : c.isWhitespace = false := by
  have hall : ∀ d < 16, (Nat.digitChar d).isWhitespace = false := by decide
  obtain ⟨d, hd, rfl⟩ := exists_digit h
  exact hall d hd

/-! ### Padding -/

theorem dropWhile_blanks {x : Text} (hx : ∀ c ∈ x, c.isWhitespace = false) (hne : x ≠ []) (y : Text) :
    ∀ k : ℕ, (List.replicate k ' ' ++ (x ++ y)).dropWhile Char.isWhitespace = x ++ y
  | 0 => by
    obtain ⟨c, cs, rfl⟩ := List.exists_cons_of_ne_nil hne
    rw [List.replicate_zero, List.nil_append, List.cons_append, List.dropWhile_cons,
      hx c List.mem_cons_self]
    rfl
  | k + 1 => by
    rw [List.replicate_succ, List.cons_append, List.dropWhile_cons]
    exact dropWhile_blanks hx hne y k

/-- Blanks around a word are stripped. -/
theorem strip_blanks {x : Text} (hx : ∀ c ∈ x, c.isWhitespace = false) (hne : x ≠ []) (k l : ℕ) :
    strip (List.replicate k ' ' ++ (x ++ List.replicate l ' ')) = x := by
  have hrev : ∀ c ∈ x.reverse, c.isWhitespace = false := fun c hc => hx c (List.mem_reverse.mp hc)
  have hback := dropWhile_blanks hrev (mt List.reverse_eq_nil_iff.mp hne) [] l
  rw [List.append_nil] at hback
  rw [strip, dropWhile_blanks hx hne, List.reverse_append, List.reverse_replicate, hback,
    List.reverse_reverse]

/-- A number printed with blanks around it is read back. -/
theorem intHex_blanks (n k l : ℕ) :
    intHex (List.replicate k ' ' ++ (Nat.toDigits 16 n ++ List.replicate l ' ')) = .ok n := by
  have hgo := hexGo_toDigits n
  rw [intHex, strip_blanks (fun c hc => isWhitespace_of_mem hc) Nat.toDigits_ne_nil]
  cases hdigits : Nat.toDigits 16 n with
  | nil => exact absurd hdigits Nat.toDigits_ne_nil
  | cons c cs =>
    rw [hdigits] at hgo
    simp only [hgo]

/-- `"{:0wx}".format(n)` of a non-negative integer. -/
def formatHex (w n : ℕ) : Text :=
  List.replicate (w - (Nat.toDigits 16 n).length) '0' ++ Nat.toDigits 16 n

theorem formatHex_inj {w m n : ℕ} (h : formatHex w m = formatHex w n) : m = n := by
  have hvalue : ∀ n, hexGo 0 (formatHex w n) = some n := fun n => by
    rw [formatHex, hexGo_zeros, hexGo_toDigits]
  exact Option.some.inj ((hvalue m).symm.trans (h ▸ hvalue n))

end Hexadecimal
