import Mathlib

/-! Occurrences of a pattern in a list, the elements they cover, and lists made of blocks that end with
    a mark; over an arbitrary type of elements.

        list       … x y z w …          the pattern [x, y, z] at s
                     s                   covers s and s + 1, all but its last position
        blocks     a a M | M | b M       a window without a mark before its end lies in one block    -/

namespace Windows

variable {α : Type*}

/-! ### Occurrences -/

/-- The pattern stands in the list at position `s`. -/
def At (pat l : List α) (s : ℕ) : Prop := pat <+: l.drop s

/-- Position `i` is one of an occurrence, and not its last one. -/
def Covers (pat l : List α) (i : ℕ) : Prop := ∃ s, At pat l s ∧ s ≤ i ∧ i + 1 < s + pat.length

namespace At

variable {pat l : List α} {s j : ℕ} {x : α}

theorem getElem? (h : At pat l s) (hj : j < pat.length) : l[s + j]? = pat[j]? := by
  obtain ⟨rest, hrest⟩ := h
  rw [← List.getElem?_drop, ← hrest, List.getElem?_append_left hj]

theorem of_getElem? (h : ∀ j < pat.length, l[s + j]? = pat[j]?) : At pat l s := by
  refine List.prefix_iff_eq_take.mpr (List.ext_getElem? fun j => ?_)
  by_cases hj : j < pat.length
  · rw [List.getElem?_take_of_lt hj, List.getElem?_drop, h j hj]
  · rw [List.getElem?_eq_none (not_lt.mp hj), List.getElem?_eq_none]
    exact (List.length_take_le ..).trans (not_lt.mp hj)

theorem singleton_iff : At [x] l s ↔ l[s]? = some x := by
  constructor
  · exact fun h => h.getElem? Nat.one_pos
  · intro h
    refine of_getElem? fun j hj => ?_
    obtain rfl := Nat.lt_one_iff.mp hj
    exact h

/-- One more element at the end of the pattern. -/
theorem concat_iff : At (pat ++ [x]) l s ↔ At pat l s ∧ l[s + pat.length]? = some x := by
  constructor
  · intro h
    refine ⟨(List.prefix_append pat [x]).trans h, ?_⟩
    rw [h.getElem? (by simp)]
    simp
  · rintro ⟨h, hx⟩
    refine of_getElem? fun j hj => ?_
    rw [List.length_append, List.length_singleton, Nat.lt_succ_iff_lt_or_eq] at hj
    rcases hj with hj | rfl
    · rw [h.getElem? hj, List.getElem?_append_left hj]
    · rw [hx]
      simp

end At

/-! ### Changing the elements at some positions -/

section

variable {f : α → α} {marks : List ℕ} {l : List α} {i : ℕ}

theorem getElem?_modifyAll_of_notMem (h : i ∉ marks) :
    (marks.foldl (fun l i => l.modify i f) l)[i]? = l[i]? := by
  induction marks generalizing l with
  | nil => rfl
  | cons m marks ih =>
    obtain ⟨hm, hmarks⟩ := List.ne_and_not_mem_of_not_mem_cons h
    rw [List.foldl_cons, ih hmarks, List.getElem?_modify_ne _ _ hm.symm]

theorem getElem?_modifyAll_of_mem (hf : ∀ x, f (f x) = f x) (h : i ∈ marks) :
    (marks.foldl (fun l i => l.modify i f) l)[i]? = (l[i]?).map f := by
  induction marks generalizing l with
  | nil => exact absurd h List.not_mem_nil
  | cons m marks ih =>
    rw [List.foldl_cons]
    by_cases hrest : i ∈ marks
    · rw [ih hrest, List.getElem?_modify]
      rcases eq_or_ne m i with rfl | hne
      · simp [Function.comp_def, hf]
      · simp [hne]
    · obtain rfl := (List.mem_cons.mp h).resolve_right hrest
      rw [getElem?_modifyAll_of_notMem hrest, List.getElem?_modify_eq]
      rfl

end

/-! ### Which of two elements comes first -/

section

variable {l : List α} {x y : α}

theorem pair_or_pair (hx : x ∈ l) (hy : y ∈ l) (hne : x ≠ y) : [x, y].Sublist l ∨ [y, x].Sublist l := by
  obtain ⟨a, b, rfl⟩ := List.append_of_mem hx
  rcases List.mem_append.mp hy with hya | hyb
  · exact .inr ((List.singleton_sublist.mpr hya).append (List.singleton_sublist.mpr List.mem_cons_self))
  · have hyb' : y ∈ b := (List.mem_cons.mp hyb).resolve_left hne.symm
    exact .inl (((List.singleton_sublist.mpr hyb').cons_cons x).trans (List.sublist_append_right a _))

theorem pair_split (h : [x, y].Sublist l) : ∃ a b, l = a ++ b ∧ x ∈ a ∧ y ∈ b := by
  obtain ⟨a, b, rfl, hx, hy⟩ := List.append_sublist_iff.mp (show ([x] ++ [y]).Sublist l from h)
  exact ⟨a, b, rfl, List.singleton_sublist.mp hx, List.singleton_sublist.mp hy⟩

theorem pair_iff_mem {a b : List α} (hnd : (a ++ y :: b).Nodup) : [x, y].Sublist (a ++ y :: b) ↔ x ∈ a := by
  constructor
  · intro h
    obtain ⟨c, d, hcd, hx, hy⟩ := pair_split h
    rcases List.append_eq_append_iff.mp hcd with ⟨m, rfl, hm⟩ | ⟨m, rfl, -⟩
    · cases m with
      | nil => rwa [List.append_nil] at hx
      | cons z m =>
        obtain rfl := (List.cons.inj hm).1
        rw [hcd] at hnd
        exact (List.disjoint_of_nodup_append hnd (by simp) hy).elim
    · exact List.mem_append_left _ hx
  · intro hx
    exact (List.singleton_sublist.mpr hx).append (List.singleton_sublist.mpr List.mem_cons_self)

theorem not_pair_of_pair (hnd : l.Nodup) (hxy : [x, y].Sublist l) : ¬ [y, x].Sublist l := by
  intro hyx
  obtain ⟨a, b, rfl, hy, hx⟩ := pair_split hyx
  obtain ⟨c, d, rfl⟩ := List.append_of_mem hy
  rw [List.append_assoc, List.cons_append] at hnd hxy
  have hxc : x ∈ c := (pair_iff_mem hnd).mp hxy
  exact List.disjoint_of_nodup_append hnd hxc (List.mem_cons_of_mem _ (List.mem_append_right _ hx))

/-- Sorting gives the permutation that ascends strictly. -/
theorem insertionSort_eq_of_perm {r : α → α → Prop} [DecidableRel r] [Std.Total r] [IsTrans α r]
    {l l' : List α} (hperm : l.Perm l') (h : l'.Pairwise fun a b => r a b ∧ ¬ r b a) :
    l.insertionSort r = l' := by
  have hperm' := (List.perm_insertionSort r l).trans hperm
  refine List.Perm.eq_of_pairwise (fun a b ha hb hab hba => ?_) (List.pairwise_insertionSort r l)
    (h.imp fun h => h.1) hperm'
  by_contra hne
  have hrel : ∀ {x y : α}, [x, y].Sublist l' → r x y ∧ ¬ r y x := fun hxy =>
    List.rel_of_pairwise_cons (List.Pairwise.sublist hxy h) (List.mem_singleton_self _)
  rcases pair_or_pair (hperm'.subset ha) hb hne with hxy | hyx
  · exact (hrel hxy).2 hba
  · exact (hrel hyx).2 hab

end

/-! ### Blocks that end with a mark -/

variable {mark : α → Prop} {blocks : List (List α)} {w : List α} {x : α}

/-- Without a mark before its end a window lies in one block. -/
theorem infix_of_marked (hblocks : ∀ b ∈ blocks, ∃ z ∈ b.getLast?, mark z)
    (hw : w ++ [x] <:+: blocks.flatten) (hnone : ∀ y ∈ w, ¬ mark y) : ∃ b ∈ blocks, w ++ [x] <:+: b := by
  obtain ⟨p, q, hpq⟩ := hw
  induction blocks generalizing p with
  | nil => simp at hpq
  | cons b bs ih =>
    have hlater : ∀ p', p' ++ (w ++ [x]) ++ q = bs.flatten → ∃ b' ∈ b :: bs, w ++ [x] <:+: b' := by
      intro p' hp'
      obtain ⟨c, hc, hin⟩ := ih (fun c hc => hblocks c (List.mem_cons_of_mem _ hc)) p' hp'
      exact ⟨c, List.mem_cons_of_mem _ hc, hin⟩
    rw [List.flatten_cons, List.append_assoc] at hpq
    rcases List.append_eq_append_iff.mp hpq with ⟨m, hb, hrest⟩ | ⟨m, hp, hrest⟩
    · -- the window starts in this block, `m` is what the block has from there on
      rcases List.eq_nil_or_concat m with rfl | ⟨m₁, y, rfl⟩
      · exact hlater [] hrest
      · have hmark : mark y := by
          obtain ⟨z, hz, hmark⟩ := hblocks b List.mem_cons_self
          rw [hb, List.concat_eq_append, ← List.append_assoc, List.getLast?_append] at hz
          obtain rfl : y = z := by simpa using hz
          exact hmark
        rcases List.append_eq_append_iff.mp hrest with ⟨m', hm', -⟩ | ⟨m', hm', -⟩
        · exact ⟨b, List.mem_cons_self, p, m', by rw [hb, hm', List.append_assoc]⟩
        · rcases List.eq_nil_or_concat m' with rfl | ⟨m₂, y', rfl⟩
          · rw [List.append_nil] at hm'
            exact ⟨b, List.mem_cons_self, p, [], by rw [hb, hm', List.append_nil]⟩
          · rw [List.concat_eq_append, List.concat_eq_append, ← List.append_assoc] at hm'
            have hy : y ∈ w := by
              rw [(List.append_inj' hm' rfl).1]
              simp
            exact absurd hmark (hnone y hy)
    · exact hlater m (by rw [hrest, List.append_assoc])

/-- Each element of the list is one of a block. -/
theorem exists_block {i : ℕ} (hi : blocks.flatten[i]? = some x) :
    ∃ b ∈ blocks, ∃ s j, At b blocks.flatten s ∧ b[j]? = some x ∧ i = s + j := by
  induction blocks generalizing i with
  | nil => simp at hi
  | cons b bs ih =>
    rw [List.flatten_cons] at hi ⊢
    by_cases hlt : i < b.length
    · rw [List.getElem?_append_left hlt] at hi
      exact ⟨b, List.mem_cons_self, 0, i, List.prefix_append .., hi, (Nat.zero_add i).symm⟩
    · rw [List.getElem?_append_right (not_lt.mp hlt)] at hi
      obtain ⟨c, hc, s, j, hat, hj, hij⟩ := ih hi
      refine ⟨c, List.mem_cons_of_mem _ hc, b.length + s, j, ?_, hj, by omega⟩
      rwa [At, List.drop_append, List.drop_of_length_le (Nat.le_add_right ..), Nat.add_sub_cancel_left]

end Windows
