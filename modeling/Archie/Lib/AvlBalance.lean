import Archie.Lib.AvlTree
import Mathlib.Data.Nat.Fib.Basic

/-! The balance of AVL trees.

    Inserting keeps it for any comparison function, ordered or not: it looks at the side on which the new
    node is linked, not at why. A balanced tree of height `h` has the entries of a smallest one at least,
    so its height grows with the logarithm of their number:

        height    0   1   2   3   4    5    6   …   h
        entries   0   1   2   4   7   12   20   …   fib (h + 2) - 1                                    -/

namespace AvlTree

variable {κ β : Type*}

def height : AvlTree κ β → ℕ
  | nil => 0
  | node _ l _ _ r => max l.height r.height + 1

/-- The balance factor of the root. -/
def balance : AvlTree κ β → Int
  | nil => 0
  | node b _ _ _ _ => b

/-- Each balance factor is the difference of the heights, and one at most. -/
def Balanced : AvlTree κ β → Prop
  | nil => True
  | node b l _ _ r => l.Balanced ∧ r.Balanced ∧ b = r.height - l.height ∧ -1 ≤ b ∧ b ≤ 1

/-! ### Rotations -/

section Rotate

variable {l r : AvlTree κ β} {x : κ} {w : β} {b : Int}

/-- A subtree that is too high by two and leans to a side. -/
theorem rotateRight_balanced (hl : l.Balanced) (hr : r.Balanced) (hheight : l.height = r.height + 2)
    (hlean : l.balance ≠ 0) :
    (rotateRight l x w r).Balanced ∧ (rotateRight l x w r).height = r.height + 2 := by
  cases l with
  | nil => exact absurd rfl hlean
  | node bl a y v c =>
    obtain ⟨ha, hc, hbl, hlow, hhigh⟩ := hl
    simp only [balance] at hlean
    simp only [height] at hheight
    rw [rotateRight.eq_def]
    dsimp only
    split
    · simp only [Balanced, height]
      exact ⟨⟨ha, ⟨hc, hr, by omega⟩, by omega⟩, by omega⟩
    · -- the inner subtree is the higher one, so it has a root
      cases c with
      | nil =>
        simp only [height] at hbl
        omega
      | node inner c₁ z u c₂ =>
        obtain ⟨hc₁, hc₂, hinner, hlow', hhigh'⟩ := hc
        simp only [height] at hbl hheight
        simp only [Balanced, height]
        refine ⟨⟨⟨ha, hc₁, ?_⟩, ⟨hc₂, hr, ?_⟩, by omega⟩, by omega⟩
        · split <;> omega
        · split <;> omega

theorem rotateLeft_balanced (hl : l.Balanced) (hr : r.Balanced) (hheight : r.height = l.height + 2)
    (hlean : r.balance ≠ 0) :
    (rotateLeft l x w r).Balanced ∧ (rotateLeft l x w r).height = l.height + 2 := by
  cases r with
  | nil => exact absurd rfl hlean
  | node br c y v a =>
    obtain ⟨hc, ha, hbr, hlow, hhigh⟩ := hr
    simp only [balance] at hlean
    simp only [height] at hheight
    rw [rotateLeft.eq_def]
    dsimp only
    split
    · simp only [Balanced, height]
      exact ⟨⟨⟨hl, hc, by omega⟩, ha, by omega⟩, by omega⟩
    · cases c with
      | nil =>
        simp only [height] at hbr
        omega
      | node inner c₁ z u c₂ =>
        obtain ⟨hc₁, hc₂, hinner, hlow', hhigh'⟩ := hc
        simp only [height] at hbr hheight
        simp only [Balanced, height]
        refine ⟨⟨⟨hl, hc₁, ?_⟩, ⟨hc₂, ha, ?_⟩, by omega⟩, by omega⟩
        · split <;> omega
        · split <;> omega

end Rotate

/-! ### Inserting -/

section Insert

variable {cmp : κ → κ → Int} {k : κ} {v : β} {t l r : AvlTree κ β} {x : κ} {w : β} {b : Int}

/-- What inserting makes of a balanced tree: a tree that has grown leans to a side, unless it was empty. -/
structure Grows (t : AvlTree κ β) (p : AvlTree κ β × Bool) : Prop where
  balanced : p.1.Balanced
  height : p.1.height = t.height + p.2.toNat
  leans : p.2 = true → t ≠ nil → p.1.balance ≠ 0

theorem Grows.refl (h : t.Balanced) : Grows t (t, false) := ⟨h, rfl, nofun⟩

theorem grows_grownLeft {l' : AvlTree κ β} (h : (node b l x w r).Balanced) (hl : Grows l (l', true)) :
    Grows (node b l x w r) (grownLeft b l' x w r) := by
  obtain ⟨-, hr, hb, hlow, hhigh⟩ := h
  obtain ⟨hl', hheight, hleans⟩ : l'.Balanced ∧ l'.height = l.height + 1 ∧ (l ≠ nil → l'.balance ≠ 0) :=
    ⟨hl.balanced, hl.height, hl.leans rfl⟩
  rw [grownLeft]
  split
  · next htwo =>
    have hnonempty : l ≠ nil := fun hnil => by
      rw [hnil, height] at hb
      omega
    obtain ⟨hbalanced, hrotated⟩ := rotateRight_balanced (x := x) (w := w) hl' hr (by omega)
      (hleans hnonempty)
    refine ⟨hbalanced, ?_, by simp⟩
    simp only [height, Bool.toNat_false, hrotated]
    omega
  · refine ⟨⟨hl', hr, by omega, by omega, by omega⟩, ?_, fun hgrown _ => ?_⟩
    · simp only [height]
      by_cases hzero : b = 0
      · simp only [hzero, decide_true, Bool.toNat_true]
        omega
      · simp only [hzero, decide_false, Bool.toNat_false]
        omega
    · have hzero : b = 0 := of_decide_eq_true hgrown
      simp only [balance]
      omega

theorem grows_grownRight {r' : AvlTree κ β} (h : (node b l x w r).Balanced) (hr : Grows r (r', true)) :
    Grows (node b l x w r) (grownRight b l x w r') := by
  obtain ⟨hl, -, hb, hlow, hhigh⟩ := h
  obtain ⟨hr', hheight, hleans⟩ : r'.Balanced ∧ r'.height = r.height + 1 ∧ (r ≠ nil → r'.balance ≠ 0) :=
    ⟨hr.balanced, hr.height, hr.leans rfl⟩
  rw [grownRight]
  split
  · next htwo =>
    have hnonempty : r ≠ nil := fun hnil => by
      rw [hnil, height] at hb
      omega
    obtain ⟨hbalanced, hrotated⟩ := rotateLeft_balanced (x := x) (w := w) hl hr' (by omega)
      (hleans hnonempty)
    refine ⟨hbalanced, ?_, by simp⟩
    simp only [height, Bool.toNat_false, hrotated]
    omega
  · refine ⟨⟨hl, hr', by omega, by omega, by omega⟩, ?_, fun hgrown _ => ?_⟩
    · simp only [height]
      by_cases hzero : b = 0
      · simp only [hzero, decide_true, Bool.toNat_true]
        omega
      · simp only [hzero, decide_false, Bool.toNat_false]
        omega
    · have hzero : b = 0 := of_decide_eq_true hgrown
      simp only [balance]
      omega

theorem grows_probe (cmp : κ → κ → Int) (k : κ) (v : β) : ∀ {t : AvlTree κ β}, t.Balanced →
    Grows t (t.probe cmp k v)
  | nil, _ => ⟨⟨trivial, trivial, rfl, by decide, by decide⟩, rfl, fun _ h => absurd rfl h⟩
  | node b l x w r, h => by
    have hl := grows_probe cmp k v h.1
    have hr := grows_probe cmp k v h.2.1
    rw [probe]
    split
    · exact .refl h
    · split
      · dsimp only
        split
        · next hgrown =>
          rw [← Prod.eta (r.probe cmp k v), hgrown] at hr
          exact grows_grownRight h hr
        · next hgrown =>
          rw [Bool.not_eq_true] at hgrown
          have hsame := hr.height
          rw [hgrown, Bool.toNat_false, Nat.add_zero] at hsame
          refine ⟨⟨h.1, hr.balanced, hsame ▸ h.2.2⟩, ?_, by simp⟩
          simp only [height, hsame, Bool.toNat_false, Nat.add_zero]
      · dsimp only
        split
        · next hgrown =>
          rw [← Prod.eta (l.probe cmp k v), hgrown] at hl
          exact grows_grownLeft h hl
        · next hgrown =>
          rw [Bool.not_eq_true] at hgrown
          have hsame := hl.height
          rw [hgrown, Bool.toNat_false, Nat.add_zero] at hsame
          refine ⟨⟨hl.balanced, h.2.1, hsame ▸ h.2.2⟩, ?_, by simp⟩
          simp only [height, hsame, Bool.toNat_false, Nat.add_zero]

theorem Balanced.insert (h : t.Balanced) : (t.insert cmp k v).Balanced := (grows_probe cmp k v h).balanced

/-- One entry more at most. -/
theorem length_toList_insert_le (cmp : κ → κ → Int) (k : κ) (v : β) : ∀ t : AvlTree κ β,
    (t.insert cmp k v).toList.length ≤ t.toList.length + 1
  | nil => le_rfl
  | node b l x w r => by
    have hl := length_toList_insert_le cmp k v l
    have hr := length_toList_insert_le cmp k v r
    rw [toList_insert_node]
    split_ifs
    · exact Nat.le_succ _
    · simp only [toList, List.length_append, List.length_cons]
      omega
    · simp only [toList, List.length_append, List.length_cons]
      omega

end Insert

/-! ### The height -/

/-- A balanced tree has as many entries as a smallest one of its height at least. -/
theorem Balanced.fib_le : ∀ {t : AvlTree κ β}, t.Balanced →
    Nat.fib (t.height + 2) ≤ t.toList.length + 1
  | nil, _ => le_rfl
  | node b l x w r, h => by
    obtain ⟨hl, hr, hb, hlow, hhigh⟩ := h
    have hfibl := hl.fib_le
    have hfibr := hr.fib_le
    have hstep : ∀ n, Nat.fib (n + 3) = Nat.fib (n + 1) + Nat.fib (n + 2) := fun n => Nat.fib_add_two
    have hheight : (node b l x w r).height + 2 = max l.height r.height + 3 := rfl
    rw [hheight, hstep, toList, List.length_append, List.length_cons]
    -- the lower subtree is lower by one at most
    rcases le_total l.height r.height with hle | hle
    · have hmono : Nat.fib (r.height + 1) ≤ Nat.fib (l.height + 2) := Nat.fib_mono (by omega)
      rw [max_eq_right hle]
      omega
    · have hmono : Nat.fib (l.height + 1) ≤ Nat.fib (r.height + 2) := Nat.fib_mono (by omega)
      rw [max_eq_left hle]
      omega

/-- So a bound on the entries bounds the height. -/
theorem Balanced.height_lt {t : AvlTree κ β} (h : t.Balanced) {n : ℕ}
    (hlength : t.toList.length + 1 < Nat.fib (n + 2)) : t.height < n := by
  by_contra hle
  have hmono : Nat.fib (n + 2) ≤ Nat.fib (t.height + 2) := Nat.fib_mono (by omega)
  have hfib := h.fib_le
  omega

end AvlTree
