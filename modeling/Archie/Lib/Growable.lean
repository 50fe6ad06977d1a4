import Mathlib

/-! Vectors with allocated and used slots: the next unused slot is filled, a new one is made when all
    are in use. What counts are the slots in use. -/

namespace Growable

variable {α : Type*}

/-- The slots with room for one more. -/
def grow (fresh : α) (used : ℕ) (slots : List α) : List α :=
  if slots.length = used then slots ++ [fresh] else slots

theorem length_grow (fresh : α) (used : ℕ) (slots : List α) :
    (grow fresh used slots).length = if slots.length = used then slots.length + 1 else slots.length := by
  rw [grow]
  split
  · rw [List.length_append, List.length_singleton]
  · rfl

theorem modify_append_cons (f : α → α) {a : List α} {i : ℕ} (h : a.length = i) (x : α) (b : List α) :
    (a ++ x :: b).modify i f = a ++ f x :: b := by
  subst h
  rw [List.modify_eq_take_cons_drop (by simp)]
  simp

/-- Filling the next slot appends to those in use; it was fresh or allocated before. -/
theorem exists_modify_grow {used : ℕ} {slots : List α} (fresh : α) (f : α → α) (h : used ≤ slots.length) :
    ∃ x, (x = fresh ∨ x ∈ slots.drop used) ∧
      ((grow fresh used slots).modify used f).take (used + 1) = slots.take used ++ [f x] ∧
      ∀ y ∈ ((grow fresh used slots).modify used f).drop (used + 1), y ∈ slots.drop used := by
  by_cases hlen : slots.length = used
  · refine ⟨fresh, .inl rfl, ?_, ?_⟩
    · rw [grow, if_pos hlen, modify_append_cons f hlen, ← hlen, List.take_length]
      exact List.take_of_length_le (by simp)
    · rw [grow, if_pos hlen, modify_append_cons f hlen, List.drop_of_length_le (by simp [hlen])]
      exact fun y hy => absurd hy List.not_mem_nil
  · have hlt : used < slots.length := by omega
    have hslots : slots = slots.take used ++ slots[used] :: slots.drop (used + 1) := by
      rw [← List.drop_eq_getElem_cons hlt, List.take_append_drop]
    have htake : (slots.take used).length = used := List.length_take_of_le h
    have hmodify : (grow fresh used slots).modify used f
        = slots.take used ++ f slots[used] :: slots.drop (used + 1) := by
      rw [grow, if_neg hlen]
      conv_lhs => rw [hslots]
      exact modify_append_cons f htake _ _
    refine ⟨slots[used], .inr ?_, ?_, ?_⟩
    · rw [List.drop_eq_getElem_cons hlt]
      exact List.mem_cons_self
    · rw [hmodify, List.take_append, htake, List.take_of_length_le (by omega)]
      simp
    · rw [hmodify, List.drop_append, htake, List.drop_of_length_le (by omega)]
      intro y hy
      rw [List.drop_eq_getElem_cons hlt]
      exact List.mem_cons_of_mem _ (by simpa using hy)

/-- A change to both sides of a slot keeps what relates the two vectors. -/
theorem forall₂_modify {β : Type*} {R : α → β → Prop} {f : α → α} {g : β → β}
    (h : ∀ x y, R x y → R (f x) (g y)) : ∀ {l : List α} {m : List β}, List.Forall₂ R l m →
      ∀ i, List.Forall₂ R (l.modify i f) (m.modify i g)
  | _, _, .nil, i => by
    rw [List.modify_nil, List.modify_nil]
    exact .nil
  | _, _, .cons hxy hlm, 0 => .cons (h _ _ hxy) hlm
  | _, _, .cons hxy hlm, i + 1 => .cons hxy (forall₂_modify h hlm i)

/-- One slot after the other. -/
theorem foldl_modify_range (f : α → α) (l : List α) : ∀ n ≤ l.length,
    (List.range n).foldl (fun l i => l.modify i f) l = (l.take n).map f ++ l.drop n
  | 0, _ => rfl
  | n + 1, h => by
    have hlen : ((l.take n).map f).length = n := by
      rw [List.length_map, List.length_take]
      omega
    rw [List.range_succ, List.foldl_append, foldl_modify_range f l n (by omega), List.foldl_cons,
      List.foldl_nil, List.drop_eq_getElem_cons (by omega), modify_append_cons f hlen,
      List.take_add_one, List.getElem?_eq_getElem (by omega), List.map_append, List.append_assoc]
    rfl

/-- Reading the slots in use one after the other. -/
theorem filterMap_range {β : Type*} (f : α → β) (l : List α) : ∀ n,
    (List.range n).filterMap (fun i => (l[i]?).map f) = (l.take n).map f
  | 0 => rfl
  | n + 1 => by
    rw [List.range_succ, List.filterMap_append, filterMap_range f l n, List.take_add_one, List.map_append]
    cases h : l[n]? with
    | none => simp [h]
    | some x => simp [h]

end Growable
