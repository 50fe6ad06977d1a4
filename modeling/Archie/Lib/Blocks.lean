import Mathlib

/-! Traces made of blocks: positions in the flattened trace against positions in the blocks.

        blocks    b₀        b₁       b₂
        flat    x x x x   y y y    z z …        offset 1 = 4,  flat[offset 1 + 2] = b₁[2]        -/

namespace Blocks

variable {α : Type*}

/-- The flat position at which block `k` starts. -/
def offset (blocks : List (List α)) (k : ℕ) : ℕ := (blocks.take k).flatten.length

/-- The indices of the elements that satisfy `p`, ascending. -/
def positions (p : α → Bool) (l : List α) : List ℕ :=
  (List.range l.length).filter fun i => (l[i]?).any p

@[simp] theorem offset_zero (blocks : List (List α)) : offset blocks 0 = 0 := by simp [offset]

theorem take_succ {blocks : List (List α)} {k : ℕ} {b : List α} (hk : blocks[k]? = some b) :
    blocks.take (k + 1) = blocks.take k ++ [b] := by
  rw [List.take_add_one, hk]; rfl

theorem offset_succ {blocks : List (List α)} {k : ℕ} {b : List α} (hk : blocks[k]? = some b) :
    offset blocks (k + 1) = offset blocks k + b.length := by
  simp [offset, take_succ hk]

/-- A block with what comes before and after it. -/
theorem flatten_split {blocks : List (List α)} {k : ℕ} {b : List α} (hk : blocks[k]? = some b) :
    blocks.flatten = (blocks.take k).flatten ++ (b ++ (blocks.drop (k + 1)).flatten) := by
  obtain ⟨hlt, rfl⟩ := List.getElem?_eq_some_iff.mp hk
  conv_lhs => rw [← List.take_append_drop k blocks, List.flatten_append,
    List.drop_eq_getElem_cons hlt, List.flatten_cons]

theorem getElem?_offset {blocks : List (List α)} {k i : ℕ} {b : List α} (hk : blocks[k]? = some b)
    (hi : i < b.length) : blocks.flatten[offset blocks k + i]? = b[i]? := by
  rw [flatten_split hk, List.getElem?_append_right (by simp [offset]), offset,
    Nat.add_sub_cancel_left, List.getElem?_append_left hi]

theorem exists_offset : ∀ {blocks : List (List α)} {q : ℕ}, q < blocks.flatten.length →
    ∃ k b i, blocks[k]? = some b ∧ i < b.length ∧ q = offset blocks k + i
  | [], q, h => by simp at h
  | b :: bs, q, h => by
    by_cases hq : q < b.length
    · exact ⟨0, b, q, rfl, hq, by simp⟩
    · have h' : q - b.length < bs.flatten.length := by
        rw [List.flatten_cons, List.length_append] at h; omega
      obtain ⟨k, c, i, hk, hi, he⟩ := exists_offset h'
      refine ⟨k + 1, c, i, by simpa using hk, hi, ?_⟩
      simp only [offset, List.take_succ_cons, List.flatten_cons, List.length_append] at he ⊢
      omega

theorem offset_mono (blocks : List (List α)) {k k' : ℕ} (h : k ≤ k') :
    offset blocks k ≤ offset blocks k' := by
  obtain ⟨rest, hrest⟩ := List.take_prefix_take_left (l := blocks) h
  rw [offset, offset, ← hrest, List.flatten_append, List.length_append]
  exact Nat.le_add_right _ _

/-- A flat position lies in one block. -/
theorem offset_inj {blocks : List (List α)} {k k' i i' : ℕ} {b b' : List α}
    (hk : blocks[k]? = some b) (hi : i < b.length) (hk' : blocks[k']? = some b') (hi' : i' < b'.length)
    (h : offset blocks k + i = offset blocks k' + i') : k = k' ∧ i = i' := by
  have hlater : ∀ {k k' i i' : ℕ} {b : List α}, blocks[k]? = some b → i < b.length →
      offset blocks k + i = offset blocks k' + i' → ¬ k < k' := by
    intro k k' i i' b hk hi h hlt
    have hmono := offset_mono blocks (Nat.succ_le_of_lt hlt)
    rw [offset_succ hk] at hmono
    omega
  obtain rfl : k = k' :=
    le_antisymm (not_lt.mp (hlater hk' hi' h.symm)) (not_lt.mp (hlater hk hi h))
  exact ⟨rfl, Nat.add_left_cancel h⟩

theorem offset_map {β : Type*} (f : α → β) (blocks : List (List α)) (k : ℕ) :
    offset (blocks.map (List.map f)) k = offset blocks k := by
  rw [offset, offset, ← List.map_take, ← List.map_flatten, List.length_map]

/-- Up to an occurrence of `a` in block `k`, `a` occurs once per block that contains it. -/
theorem count_take [DecidableEq α] {blocks : List (List α)} {k i : ℕ} {b : List α} {a : α}
    (hnd : ∀ b ∈ blocks, b.Nodup) (hk : blocks[k]? = some b) (ha : b[i]? = some a) :
    (blocks.flatten.take (offset blocks k + i + 1)).count a
      = (blocks.take (k + 1)).countP fun b => decide (a ∈ b) := by
  have hbefore : ∀ {bs : List (List α)}, (∀ b ∈ bs, b.Nodup) →
      bs.flatten.count a = bs.countP fun b => decide (a ∈ b) := by
    intro bs
    induction bs with
    | nil => simp
    | cons c cs ih =>
      intro h
      rw [List.flatten_cons, List.count_append, ih fun b hb => h b (List.mem_cons_of_mem _ hb),
        List.countP_cons, (h c List.mem_cons_self).count]
      by_cases hc : a ∈ c <;> simp [hc, Nat.add_comm]
  have hi : i < b.length := (List.getElem?_eq_some_iff.mp ha).1
  have hb : b.Nodup := hnd b (List.mem_of_getElem? hk)
  have hin : a ∈ b := List.mem_of_getElem? ha
  have htake : (b.take (i + 1)).count a = 1 := by
    have hmem : a ∈ b.take (i + 1) := by
      rw [List.take_add_one, ha]; simp
    exact List.count_eq_one_of_mem (hb.sublist (List.take_sublist ..)) hmem
  rw [flatten_split hk, offset, Nat.add_assoc, List.take_length_add_append,
    List.take_append_of_le_length (by omega), List.count_append, htake,
    hbefore fun c hc => hnd c (List.mem_of_mem_take hc), take_succ hk, List.countP_append]
  simp [hin]

theorem mem_positions {p : α → Bool} {l : List α} {k : ℕ} :
    k ∈ positions p l ↔ ∃ x, l[k]? = some x ∧ p x = true := by
  rw [positions, List.mem_filter, List.mem_range, Option.any_eq_true]
  exact ⟨fun h => h.2, fun h => ⟨(List.getElem?_eq_some_iff.mp h.choose_spec.1).1, h⟩⟩

/-- The element at `k` has as many predecessors among the positions as elements before it
    satisfy `p`. -/
theorem positions_getElem? {p : α → Bool} {l : List α} {k : ℕ} {x : α} (hk : l[k]? = some x)
    (hp : p x = true) : (positions p l)[(l.take k).countP p]? = some k := by
  obtain ⟨hlt, rfl⟩ := List.getElem?_eq_some_iff.mp hk
  have hrange : List.range l.length = List.range k ++ k :: List.range' (k + 1) (l.length - k - 1) := by
    have hlen : l.length = k + (1 + (l.length - k - 1)) := by omega
    rw [List.range_eq_range', List.range_eq_range', hlen, ← List.range'_append_1,
      ← List.range'_append_1]
    simp
  have hcount : ∀ m ≤ l.length,
      ((List.range m).filter fun i => (l[i]?).any p).length = (l.take m).countP p := by
    intro m
    induction m with
    | zero => simp
    | succ m ih =>
      intro hm
      rw [List.range_succ, List.filter_append, List.length_append, ih (by omega),
        List.take_add_one, List.countP_append]
      have : l[m]? = some l[m] := List.getElem?_eq_getElem (by omega)
      cases hpm : p l[m] <;> simp [this, hpm]
  have hk' : (l[k]?).any p = true := by simpa [hlt] using hp
  rw [positions, hrange, List.filter_append, ← hcount k (by omega),
    List.getElem?_append_right (le_refl _), Nat.sub_self,
    List.filter_cons_of_pos (by simpa using hk')]
  rfl

theorem length_positions (p : α → Bool) (l : List α) : (positions p l).length = l.countP p := by
  induction l using List.reverseRecOn with
  | nil => rfl
  | append_singleton l x ih =>
    have hsame : (List.range l.length).filter (fun i => ((l ++ [x])[i]?).any p) = positions p l := by
      refine List.filter_congr fun i hi => ?_
      rw [List.getElem?_append_left (List.mem_range.mp hi)]
    rw [positions, List.length_append, List.length_singleton, List.range_succ, List.filter_append,
      hsame, List.length_append, ih, List.countP_append]
    cases hx : p x <;> simp [hx]

end Blocks
