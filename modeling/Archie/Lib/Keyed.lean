import Mathlib

/-! Tables whose rows have pairwise distinct keys: looking a row up, counting by key. -/

namespace Keyed

variable {α κ : Type*} [DecidableEq κ] {f : α → κ} {l : List α}

/-- Looking up the key of a row finds that row. -/
theorem find?_key (hnd : (l.map f).Nodup) {x : α} (hx : x ∈ l) :
    (l.find? fun y => decide (f y = f x)) = some x := by
  induction l with
  | nil => simp at hx
  | cons y ys ih =>
    obtain ⟨hy, hys⟩ := List.nodup_cons.mp hnd
    rcases List.mem_cons.mp hx with rfl | hx
    · simp
    · have hne : f y ≠ f x := fun he => hy (he ▸ List.mem_map_of_mem hx)
      rw [List.find?_cons_of_neg (by simpa using hne)]
      exact ih hys hx

theorem eq_of_key (hnd : (l.map f).Nodup) {x y : α} (hx : x ∈ l) (hy : y ∈ l) (he : f x = f y) :
    x = y := by
  have h := find?_key hnd hx
  rw [he, find?_key hnd hy] at h
  exact (Option.some.inj h).symm

/-- Asking for a row by its key and a property asks that row for the property. -/
theorem any_key (hnd : (l.map f).Nodup) {x : α} (hx : x ∈ l) (p : α → Bool) :
    (l.any fun r => decide (f r = f x) && p r) = p x := by
  cases hp : p x with
  | true => exact List.any_eq_true.mpr ⟨x, hx, by simp [hp]⟩
  | false =>
    refine List.any_eq_false.mpr fun r hr h => ?_
    simp only [Bool.and_eq_true, decide_eq_true_eq] at h
    obtain rfl := eq_of_key hnd hr hx h.1
    exact Bool.false_ne_true (hp.symm.trans h.2)

/-- One more row satisfies the property: the filtered rows are the old ones and that row. -/
theorem filter_perm_append {x : α} {p q : α → Bool} (hnd : l.Nodup) (hx : x ∈ l) (hp : p x = false)
    (hq : q x = true) (hother : ∀ y ∈ l, y ≠ x → q y = p y) :
    (l.filter q).Perm (l.filter p ++ [x]) := by
  have hnotin : x ∉ l.filter p := by simp [hp]
  have hnodup : (l.filter p ++ [x]).Nodup :=
    List.nodup_append.mpr ⟨hnd.filter p, List.nodup_singleton x, fun a ha b hb => by
      rw [List.mem_singleton.mp hb]
      exact fun h => hnotin (h ▸ ha)⟩
  refine (List.perm_ext_iff_of_nodup (hnd.filter q) hnodup).mpr fun y => ?_
  simp only [List.mem_filter, List.mem_append, List.mem_singleton]
  by_cases hy : y = x
  · simp [hy, hx, hq]
  · simp only [hy, or_false]
    exact and_congr_right fun hmem => by rw [hother y hmem hy]

/-- A key is the key of at most one row of those that satisfy `p`. -/
theorem length_filter_key (hnd : (l.map f).Nodup) (p : α → Bool) (i : κ) :
    ((l.filter p).map fun r => if f r = i then 1 else 0).sum
      = if (l.any fun r => decide (f r = i) && p r) then 1 else 0 := by
  induction l with
  | nil => rfl
  | cons y ys ih =>
    obtain ⟨hy, hys⟩ := List.nodup_cons.mp hnd
    have hrest := ih hys
    by_cases hp : p y
    · rw [List.filter_cons_of_pos hp, List.map_cons, List.sum_cons, hrest, List.any_cons]
      by_cases hi : f y = i
      · have hnone : (ys.any fun r => decide (f r = i) && p r) = false := by
          rw [List.any_eq_false]
          intro r hr h
          have hri : f r = i := by simp only [Bool.and_eq_true, decide_eq_true_eq] at h; exact h.1
          exact hy (hi.trans hri.symm ▸ List.mem_map_of_mem hr)
        simp [hi, hp, hnone]
      · simp [hi]
    · rw [List.filter_cons_of_neg hp, hrest, List.any_cons]
      simp [hp]

/-- Adding up how often the keys of the rows with `p` occur counts the occurrences of such keys. -/
theorem sum_count (hnd : (l.map f).Nodup) (p : α → Bool) (ids : List κ) :
    ((l.filter p).map fun r => ids.count (f r)).sum
      = ids.countP fun i => l.any fun r => decide (f r = i) && p r := by
  induction ids with
  | nil => simp
  | cons i ids ih =>
    have hsplit : ((l.filter p).map fun r => (i :: ids).count (f r)).sum
        = ((l.filter p).map fun r => ids.count (f r)).sum
          + ((l.filter p).map fun r => if f r = i then 1 else 0).sum := by
      rw [← List.sum_map_add]
      refine congrArg List.sum (List.map_congr_left fun r _ => ?_)
      rw [List.count_cons]
      by_cases h : f r = i
      · simp [h]
      · simp [h, Ne.symm h]
    rw [hsplit, ih, length_filter_key hnd, List.countP_cons]

/-- A weight for each row that a list of keys hits: the hits of the rows, by weight, are the sum. -/
theorem sum_countP_mul {β : Type*} {k : β → κ} {w : α → ℕ} {v : β → ℕ} (hnd : (l.map f).Nodup) {es : List β}
    (hes : ∀ e ∈ es, ∃ x ∈ l, f x = k e ∧ w x = v e) :
    (l.map fun x => (es.countP fun e => decide (k e = f x)) * w x).sum = (es.map v).sum := by
  induction es with
  | nil => simp
  | cons e es ih =>
    obtain ⟨⟨x, hx, hkey, hweight⟩, hes⟩ := List.forall_mem_cons.mp hes
    have hsplit : ∀ y ∈ l, ((e :: es).countP fun e => decide (k e = f y)) * w y =
        (es.countP fun e => decide (k e = f y)) * w y + if f y = k e then w y else 0 := by
      intro y _
      rw [List.countP_cons]
      by_cases hy : f y = k e
      · simp [hy, Nat.add_mul]
      · simp [hy, Ne.symm hy]
    have hone : (l.map fun y => if f y = k e then w y else 0).sum = v e := by
      classical
      have hzero : ∀ y, y ≠ x → y ∈ l → (if f y = k e then w y else 0) = 0 := by
        intro y hne hy
        exact if_neg fun he => hne (eq_of_key hnd hy hx (he.trans hkey.symm))
      rw [List.sum_map_eq_nsmul_single x _ hzero, List.count_eq_one_of_mem (List.Nodup.of_map f hnd) hx,
        one_smul, if_pos hkey, hweight]
    rw [List.map_congr_left hsplit, List.sum_map_add, ih hes, hone, List.map_cons, List.sum_cons, add_comm]

/-- Three counts whose conditions exclude each other add up to the count of their union. -/
theorem countP_add₃ {p q r s : α → Bool}
    (h : ∀ x ∈ l, (p x).toNat + (q x).toNat + (r x).toNat = (s x).toNat) :
    l.countP p + l.countP q + l.countP r = l.countP s := by
  induction l with
  | nil => rfl
  | cons x xs ih =>
    have hx := h x List.mem_cons_self
    have hxs := ih fun y hy => h y (List.mem_cons_of_mem _ hy)
    simp only [List.countP_cons]
    cases hp : p x <;> cases hq : q x <;> cases hr : r x <;> cases hs : s x <;>
      simp_all <;> omega

/-! ### Writing by key -/

section Update

variable {β : Type*} {g : α → β} {k : κ}

/-- A key that no row has keeps its value. -/
theorem foldl_update_of_notMem (hk : k ∉ l.map f) (row : κ → β) :
    l.foldl (fun row y => Function.update row (f y) (g y)) row k = row k := by
  induction l generalizing row with
  | nil => rfl
  | cons y ys ih =>
    obtain ⟨hne, hys⟩ := List.ne_and_not_mem_of_not_mem_cons hk
    rw [List.foldl_cons, ih hys, Function.update_of_ne hne]

/-- The key of a row gets the value of that row. -/
theorem foldl_update_of_mem (hnd : (l.map f).Nodup) {x : α} (hx : x ∈ l) (row : κ → β) :
    l.foldl (fun row y => Function.update row (f y) (g y)) row (f x) = g x := by
  induction l generalizing row with
  | nil => simp at hx
  | cons y ys ih =>
    obtain ⟨hy, hys⟩ := List.nodup_cons.mp hnd
    rw [List.foldl_cons]
    rcases List.mem_cons.mp hx with rfl | hx
    · rw [foldl_update_of_notMem hy, Function.update_self]
    · exact ih hys hx _

end Update

/-! ### The first row of each key -/

section Firsts

/-- Drops the rows whose key has come before. -/
def firsts (f : α → κ) (l : List α) : List α :=
  l.foldl (fun rows x => if f x ∈ rows.map f then rows else rows ++ [x]) []

theorem firsts_concat (f : α → κ) (l : List α) (x : α) :
    firsts f (l ++ [x]) = if f x ∈ (firsts f l).map f then firsts f l else firsts f l ++ [x] := by
  rw [firsts, List.foldl_append]
  rfl

theorem mem_map_firsts {k : κ} : k ∈ (firsts f l).map f ↔ k ∈ l.map f := by
  induction l using List.reverseRecOn with
  | nil => rfl
  | append_singleton l x ih =>
    rw [firsts_concat, List.map_append, List.mem_append, ← ih, List.map_singleton, List.mem_singleton]
    split
    · next hmem => exact ⟨.inl, fun h => h.elim id fun hk => hk ▸ hmem⟩
    · rw [List.map_append, List.mem_append, List.map_singleton, List.mem_singleton]

theorem exists_mem_firsts {k : κ} (h : k ∈ l.map f) : ∃ x ∈ firsts f l, f x = k :=
  List.mem_map.mp (mem_map_firsts.mpr h)

theorem nodup_firsts (f : α → κ) (l : List α) : ((firsts f l).map f).Nodup := by
  induction l using List.reverseRecOn with
  | nil => exact List.nodup_nil
  | append_singleton l x ih =>
    rw [firsts_concat]
    split
    · exact ih
    · next hnew =>
      rw [List.map_append]
      refine List.nodup_append.mpr ⟨ih, List.nodup_singleton _, fun a ha b hb hab => hnew ?_⟩
      rw [List.map_singleton, List.mem_singleton] at hb
      exact hb ▸ hab ▸ ha

theorem mem_of_mem_firsts {x : α} (h : x ∈ firsts f l) : x ∈ l := by
  induction l using List.reverseRecOn with
  | nil => cases h
  | append_singleton l y ih =>
    rw [firsts_concat] at h
    split at h
    · exact List.mem_append_left _ (ih h)
    · rcases List.mem_append.mp h with h | h
      · exact List.mem_append_left _ (ih h)
      · exact List.mem_append_right _ h

end Firsts

end Keyed
