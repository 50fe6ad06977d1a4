import Mathlib

/-! A ring buffer that overwrites its oldest element, over an arbitrary type. Element number `k` of all
    that were written goes to slot `k % capacity`; a slot is `none` until it is written.

        capacity 3, written a b c d e        slots  d e c        index 2, the oldest one          -/

namespace RingBuffer

variable {α : Type*}

/-- The slots, and the slot that is written next. -/
structure Buffer (α : Type*) where
  slots : List (Option α)
  index : ℕ

/-- The slot behind a slot. -/
def next (capacity i : ℕ) : ℕ := if i + 1 = capacity then 0 else i + 1

def empty (capacity : ℕ) : Buffer α := ⟨List.replicate capacity none, 0⟩

def push (capacity : ℕ) (r : Buffer α) (x : α) : Buffer α :=
  ⟨r.slots.set r.index (some x), next capacity r.index⟩

/-- `n` slots from slot `i` on, `none` if one of them has not been written. -/
def readFrom (capacity : ℕ) (slots : List (Option α)) : ℕ → ℕ → Option (List α)
  | _, 0 => some []
  | i, n + 1 => do
    let x ← slots[i]?.join
    let xs ← readFrom capacity slots (next capacity i) n
    return x :: xs

/-- The ring after all these elements. -/
structure Holds (capacity : ℕ) (r : Buffer α) (xs : List α) : Prop where
  length : r.slots.length = capacity
  index : r.index = xs.length % capacity
  slot : ∀ k, k < xs.length → xs.length ≤ k + capacity → r.slots[k % capacity]? = some xs[k]?

variable {capacity : ℕ}

theorem next_mod (hpos : 0 < capacity) (n : ℕ) : next capacity (n % capacity) = (n + 1) % capacity := by
  have hlt := Nat.mod_lt n hpos
  rw [next, ← Nat.mod_add_mod]
  split
  · next h => rw [h, Nat.mod_self]
  · rw [Nat.mod_eq_of_lt (by omega : n % capacity + 1 < capacity)]

theorem Holds.empty (capacity : ℕ) : Holds capacity (empty capacity) ([] : List α) where
  length := List.length_replicate
  index := (Nat.zero_mod _).symm
  slot k hk := absurd hk (Nat.not_lt_zero k)

theorem Holds.push (hpos : 0 < capacity) {r : Buffer α} {xs : List α} (h : Holds capacity r xs) (x : α) :
    Holds capacity (push capacity r x) (xs ++ [x]) where
  length := List.length_set.trans h.length
  index := by rw [RingBuffer.push, h.index, next_mod hpos, List.length_append]; rfl
  slot k hk hrecent := by
    rw [List.length_append, List.length_singleton] at hk hrecent
    rw [RingBuffer.push, h.index]
    rcases Nat.lt_or_ge k xs.length with hlt | hge
    · -- an older element is in another slot
      have hne : xs.length % capacity ≠ k % capacity := by
        intro heq
        have hdvd : capacity ∣ xs.length - k := (Nat.modEq_iff_dvd' hlt.le).mp heq.symm
        have := Nat.le_of_dvd (by omega) hdvd
        omega
      rw [List.getElem?_set_ne hne, List.getElem?_append_left hlt]
      exact h.slot k hlt (by omega)
    · obtain rfl : k = xs.length := by omega
      have hslot : xs.length % capacity < r.slots.length := by
        rw [h.length]
        exact Nat.mod_lt _ hpos
      rw [List.getElem?_set_self hslot, List.getElem?_concat_length]

/-- Elements that are still there are read in the order of their writing. -/
theorem Holds.readFrom (hpos : 0 < capacity) {r : Buffer α} {xs : List α} (h : Holds capacity r xs) :
    ∀ {n k : ℕ}, k + n = xs.length → n ≤ capacity →
      RingBuffer.readFrom capacity r.slots (k % capacity) n = some (xs.drop k)
  | 0, k, hk, _ => by rw [RingBuffer.readFrom, List.drop_eq_nil_of_le (by omega)]
  | n + 1, k, hk, hn => by
    have hlt : k < xs.length := by omega
    rw [RingBuffer.readFrom, h.slot k hlt (by omega), next_mod hpos,
      h.readFrom hpos (n := n) (k := k + 1) (by omega) (by omega), List.drop_eq_getElem_cons hlt,
      List.getElem?_eq_getElem hlt]
    rfl

/-- The start of the ring: slot 0 until it is full, then the slot that is written next. -/
theorem Holds.readAll (hpos : 0 < capacity) {r : Buffer α} {xs : List α} (h : Holds capacity r xs) :
    RingBuffer.readFrom capacity r.slots (if capacity ≤ xs.length then r.index else 0)
      (min capacity xs.length) = some (xs.drop (xs.length - min xs.length capacity)) := by
  split
  · next hfull =>
    rw [min_eq_left hfull, min_eq_right hfull, h.index]
    have hmod : xs.length % capacity = (xs.length - capacity) % capacity := Nat.mod_eq_sub_mod hfull
    rw [hmod]
    exact h.readFrom hpos (by omega) le_rfl
  · next hshort =>
    rw [min_eq_right (by omega), min_eq_left (by omega), Nat.sub_self]
    have hread := h.readFrom hpos (n := xs.length) (k := 0) (by omega) (by omega)
    rwa [Nat.zero_mod] at hread

end RingBuffer
