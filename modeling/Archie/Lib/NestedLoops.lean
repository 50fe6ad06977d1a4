import Mathlib

/-! What nested loops run through: every combination of one element from each list, the first list
    slowest.

        [a, b], [x, y, z]   ─▶   ax ay az bx by bz                                           -/

namespace NestedLoops

variable {α : Type*}

def combinations : List (List α) → List (List α)
  | [] => [[]]
  | l :: ls => l.flatMap fun a => (combinations ls).map (a :: ·)

theorem mem_combinations {ls : List (List α)} {xs : List α} :
    xs ∈ combinations ls ↔ List.Forall₂ (· ∈ ·) xs ls := by
  induction ls generalizing xs with
  | nil => simp [combinations]
  | cons l ls ih =>
    rw [combinations, List.mem_flatMap, List.forall₂_cons_right_iff]
    constructor
    · rintro ⟨a, ha, hxs⟩
      obtain ⟨ys, hys, rfl⟩ := List.mem_map.mp hxs
      exact ⟨a, ys, ha, ih.mp hys, rfl⟩
    · rintro ⟨a, ys, ha, hys, rfl⟩
      exact ⟨a, ha, List.mem_map_of_mem (ih.mpr hys)⟩

theorem length_combinations (ls : List (List α)) :
    (combinations ls).length = (ls.map List.length).prod := by
  induction ls with
  | nil => rfl
  | cons l ls ih => simp [combinations, List.length_flatMap, ih]

/-- One empty list leaves nothing to combine. -/
theorem combinations_eq_nil {ls : List (List α)} : combinations ls = [] ↔ [] ∈ ls := by
  rw [← List.length_eq_zero_iff, length_combinations, List.prod_eq_zero_iff, List.mem_map]
  simp

/-- The elements that the combinations have at the place of one of the lists. -/
theorem exists_combination {before after : List (List α)} {l : List α} (h : [] ∉ before ++ l :: after)
    {a : α} (ha : a ∈ l) :
    ∃ xs ∈ combinations (before ++ l :: after), xs[before.length]? = some a := by
  obtain ⟨hbefore, hafter⟩ : [] ∉ before ∧ [] ∉ after := by
    simp only [List.mem_append, List.mem_cons, not_or] at h
    exact ⟨h.1, h.2.2⟩
  obtain ⟨xs, hxs⟩ := List.exists_mem_of_ne_nil _ (mt combinations_eq_nil.mp hbefore)
  obtain ⟨ys, hys⟩ := List.exists_mem_of_ne_nil _ (mt combinations_eq_nil.mp hafter)
  have hlen := (mem_combinations.mp hxs).length_eq
  refine ⟨xs ++ a :: ys, mem_combinations.mpr ?_, by simp [← hlen]⟩
  exact List.rel_append (mem_combinations.mp hxs) (.cons ha (mem_combinations.mp hys))

theorem getElem?_of_mem_combinations {before after : List (List α)} {l : List α} {xs : List α} {a : α}
    (h : xs ∈ combinations (before ++ l :: after)) (ha : xs[before.length]? = some a) : a ∈ l := by
  have hmem := List.forall₂_iff_get.mp (mem_combinations.mp h)
  obtain ⟨hlt, rfl⟩ := List.getElem?_eq_some_iff.mp ha
  have := hmem.2 before.length hlt (by simp)
  simpa using this

/-- A list that is run through again and again. -/
theorem pairwise_flatMap_const {β : Type*} {R : α → α → Prop} {xs : List β} {l : List α} (hxs : xs ≠ []) :
    (xs.flatMap fun _ => l).Pairwise R ↔
      l.Pairwise R ∧ (1 < xs.length → ∀ a ∈ l, ∀ b ∈ l, R a b) := by
  rw [List.pairwise_flatMap]
  match xs with
  | [] => exact absurd rfl hxs
  | [x] => simp
  | x :: y :: zs =>
    simp only [List.mem_cons, List.length_cons, List.pairwise_cons]
    constructor
    · rintro ⟨hl, hacross, -⟩
      exact ⟨hl x (.inl rfl), fun _ => hacross y (.inl rfl)⟩
    · rintro ⟨hl, hacross⟩
      have hall := hacross (by omega)
      exact ⟨fun _ _ => hl, fun _ _ => hall, fun _ _ => hall, List.pairwise_of_forall fun _ _ => hall⟩

end NestedLoops
