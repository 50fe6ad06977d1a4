import Mathlib

/-! A pipe that is read with `read`, which may return fewer bytes than it is asked for.

    How a pipe splits its bytes is up to the writer and the system: the splits are any numbers, one for
    each read. Behind the last byte a read returns nothing. -/

/-- The bytes to come, and how many of them each of the next reads returns at most. -/
structure Pipe where
  bytes : List UInt8
  splits : ℕ → ℕ

namespace Pipe

def SSIZE_MAX : ℕ := 2 ^ 63 - 1

variable (p : Pipe) (count : ℕ)

/-- The length of what a read returns, at least 1 if there is a byte and one is wanted. -/
def received : ℕ := min (min count p.bytes.length) (max 1 (p.splits 0))

/-- `none` is the result -1: a count above `SSIZE_MAX` is refused. -/
def read : Option (List UInt8) × Pipe :=
  if SSIZE_MAX < count then (none, p)
  else (some (p.bytes.take (p.received count)),
    ⟨p.bytes.drop (p.received count), fun k => p.splits (k + 1)⟩)

variable {p count}

theorem received_le_count : p.received count ≤ count := (min_le_left _ _).trans (min_le_left _ _)

theorem received_le_length : p.received count ≤ p.bytes.length :=
  (min_le_left _ _).trans (min_le_right _ _)

theorem received_pos (hcount : 0 < count) (hbytes : 0 < p.bytes.length) : 0 < p.received count :=
  lt_min (lt_min hcount hbytes) (lt_max_of_lt_left one_pos)

theorem length_take_received : (p.bytes.take (p.received count)).length = p.received count :=
  List.length_take_of_le received_le_length

theorem read_eq (h : count ≤ SSIZE_MAX) : p.read count = (some (p.bytes.take (p.received count)),
    ⟨p.bytes.drop (p.received count), fun k => p.splits (k + 1)⟩) := if_neg h.not_gt

/-- A read of one byte. -/
theorem read_one {c : UInt8} {bytes : List UInt8} {splits : ℕ → ℕ} :
    (⟨c :: bytes, splits⟩ : Pipe).read 1 = (some [c], ⟨bytes, fun k => splits (k + 1)⟩) := by
  have hone : (⟨c :: bytes, splits⟩ : Pipe).received 1 = 1 :=
    le_antisymm received_le_count (received_pos one_pos (Nat.succ_pos _))
  rw [read_eq (by decide), hone]
  rfl

theorem read_end {splits : ℕ → ℕ} (h : count ≤ SSIZE_MAX) :
    (⟨[], splits⟩ : Pipe).read count = (some [], ⟨[], fun k => splits (k + 1)⟩) := by
  rw [read_eq h, List.take_nil, List.drop_nil]

end Pipe
