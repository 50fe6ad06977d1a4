import Mathlib

/-! Comparison functions with an integer result: when they are an order, and when the difference of two
    numbers, cut to fewer bits, is one.

    On the circle of the `2 ^ w` cut values a difference is positive within the half ahead and negative
    within the half behind. Values that lie in one half are ordered; three that are spread over the
    circle are each ahead of the next. -/

namespace Comparison

variable {κ ι : Type*}

/-- On the set the function is 0 for equal elements only, and a strict total order. -/
structure StrictTotal (cmp : κ → κ → Int) (S : Set κ) : Prop where
  zero_iff : ∀ a ∈ S, ∀ b ∈ S, cmp a b = 0 ↔ a = b
  antisymm : ∀ a ∈ S, ∀ b ∈ S, cmp a b < 0 ↔ 0 < cmp b a
  trans : ∀ a ∈ S, ∀ b ∈ S, ∀ c ∈ S, cmp a b < 0 → cmp b c < 0 → cmp a c < 0

variable {cmp : κ → κ → Int} {S T : Set κ}

theorem StrictTotal.mono (h : StrictTotal cmp S) (hTS : T ⊆ S) : StrictTotal cmp T where
  zero_iff a ha b hb := h.zero_iff a (hTS ha) b (hTS hb)
  antisymm a ha b hb := h.antisymm a (hTS ha) b (hTS hb)
  trans a ha b hb c hc := h.trans a (hTS ha) b (hTS hb) c (hTS hc)

/-- A part of the elements that decides the comparison wherever it differs is ordered itself. -/
theorem StrictTotal.of_part {f : κ → ι} {c : ι → ι → Int} (h : StrictTotal cmp S)
    (hself : ∀ x, c x x = 0) (hpart : ∀ a ∈ S, ∀ b ∈ S, f a ≠ f b → cmp a b = c (f a) (f b)) :
    StrictTotal c (f '' S) where
  zero_iff := by
    rintro _ ⟨a, ha, rfl⟩ _ ⟨b, hb, rfl⟩
    refine ⟨fun hzero => ?_, fun he => by rw [he, hself]⟩
    by_contra hne
    rw [← hpart a ha b hb hne, h.zero_iff a ha b hb] at hzero
    exact hne (congrArg f hzero)
  antisymm := by
    rintro _ ⟨a, ha, rfl⟩ _ ⟨b, hb, rfl⟩
    rcases eq_or_ne (f a) (f b) with he | hne
    · rw [he, hself]
    · rw [← hpart a ha b hb hne, ← hpart b hb a ha hne.symm]
      exact h.antisymm a ha b hb
  trans := by
    rintro _ ⟨a, ha, rfl⟩ _ ⟨b, hb, rfl⟩ _ ⟨d, hd, rfl⟩ hab hbd
    have hne : ∀ {x y : ι}, c x y < 0 → x ≠ y := by
      rintro x _ hlt rfl
      rw [hself] at hlt
      exact lt_irrefl _ hlt
    have had : f a ≠ f d := by
      -- a step back would be down and up
      intro he
      rw [← he, ← hpart b hb a ha (hne hab).symm] at hbd
      rw [← hpart a ha b hb (hne hab), h.antisymm a ha b hb] at hab
      exact lt_asymm hab hbd
    rw [← hpart a ha b hb (hne hab)] at hab
    rw [← hpart b hb d hd (hne hbd)] at hbd
    rw [← hpart a ha d hd had]
    exact h.trans a ha b hb d hd hab hbd

/-- One of finitely many elements is not above any other. -/
theorem StrictTotal.exists_least (h : StrictTotal cmp S) :
    ∀ {l : List κ}, l ≠ [] → (∀ a ∈ l, a ∈ S) → ∃ a ∈ l, ∀ b ∈ l, 0 ≤ cmp b a
  | [], hne, _ => absurd rfl hne
  | [a], _, hS => by
    refine ⟨a, List.mem_cons_self, fun b hb => ?_⟩
    have ha := hS a List.mem_cons_self
    rw [List.mem_singleton.mp hb, (h.zero_iff a ha a ha).mpr rfl]
  | a :: b :: l, _, hS => by
    obtain ⟨ha, hl⟩ := List.forall_mem_cons.mp hS
    obtain ⟨m, hm, hleast⟩ := h.exists_least (List.cons_ne_nil b l) hl
    rcases le_or_gt 0 (cmp a m) with hma | ham
    · exact ⟨m, List.mem_cons_of_mem _ hm, List.forall_mem_cons.mpr ⟨hma, hleast⟩⟩
    · have haa := ((h.zero_iff a ha a ha).mpr rfl).ge
      refine ⟨a, List.mem_cons_self, List.forall_mem_cons.mpr ⟨haa, fun x hx => ?_⟩⟩
      have hax : cmp a x < 0 := by
        rcases (hleast x hx).eq_or_lt with hzero | hlt
        · rwa [(h.zero_iff x (hl x hx) m (hl m hm)).mp hzero.symm]
        · have hmx := (h.antisymm m (hl m hm) x (hl x hx)).mpr hlt
          exact h.trans a ha m (hl m hm) x (hl x hx) ham hmx
      exact ((h.antisymm a ha x (hl x hx)).mp hax).le

/-! ### Differences cut to fewer bits -/

variable {n w : ℕ}

/-- The difference of two words as an integer of `w` bits. -/
def cutDifference (w : ℕ) (x y : BitVec n) : Int := ((x - y).setWidth w).toInt

theorem cutDifference_self (w : ℕ) (x : BitVec n) : cutDifference w x x = 0 := by
  rw [cutDifference, BitVec.sub_self, BitVec.setWidth_zero, BitVec.toInt_zero]

/-- The cut values are different and lie in one half of their circle. -/
structure InHalfCircle (w : ℕ) (S : Set (BitVec n)) : Prop where
  distinct : Set.InjOn (BitVec.setWidth w) S
  half : ∃ start : BitVec w, ∀ x ∈ S, 2 * (x.setWidth w - start).toNat < 2 ^ w

theorem setWidth_sub (hw : w ≤ n) (x y : BitVec n) :
    (x - y).setWidth w = x.setWidth w - y.setWidth w := by
  rw [eq_sub_iff_add_eq, ← BitVec.setWidth_add _ _ hw, sub_add_cancel]

/-- In one half the cut difference is the difference of the distances from its start. -/
theorem cutDifference_eq (hw : w ≤ n) {x y : BitVec n} {start : BitVec w}
    (hx : 2 * (x.setWidth w - start).toNat < 2 ^ w) (hy : 2 * (y.setWidth w - start).toNat < 2 ^ w) :
    cutDifference w x y = (x.setWidth w - start).toNat - (y.setWidth w - start).toNat := by
  have hsub : (x - y).setWidth w = (x.setWidth w - start) - (y.setWidth w - start) := by
    rw [setWidth_sub hw, sub_sub_sub_cancel_right]
  have hbound : ((2 ^ w : ℕ) : ℤ) = 2 ^ w := by push_cast; rfl
  rw [cutDifference, hsub, BitVec.toInt_sub, BitVec.toInt_eq_toNat_of_lt hx,
    BitVec.toInt_eq_toNat_of_lt hy]
  exact Int.bmod_eq_of_le_mul_two (by omega) (by omega)

/-- The differences order the values of a half circle, and of no other finite set. -/
theorem strictTotal_cutDifference_iff (hw : w ≤ n) {S : Set (BitVec n)} (hfin : S.Finite) :
    StrictTotal (cutDifference w) S ↔ InHalfCircle w S := by
  constructor
  · intro h
    have hdistinct : Set.InjOn (BitVec.setWidth w) S := by
      intro x hx y hy he
      rw [← h.zero_iff x hx y hy, cutDifference, setWidth_sub hw, he, sub_self]
      exact BitVec.toInt_zero
    refine ⟨hdistinct, ?_⟩
    rcases S.eq_empty_or_nonempty with rfl | ⟨x₀, hx₀⟩
    · exact ⟨0, fun x hx => absurd hx (Set.notMem_empty x)⟩
    · -- the least element starts the half circle
      have hmem : ∀ x, x ∈ hfin.toFinset.toList ↔ x ∈ S := by
        intro x
        rw [Finset.mem_toList, hfin.mem_toFinset]
      have hne := List.ne_nil_of_mem ((hmem x₀).mpr hx₀)
      obtain ⟨m, _, hleast⟩ := h.exists_least hne fun x hx => (hmem x).mp hx
      refine ⟨m.setWidth w, fun x hx => ?_⟩
      have hpos := hleast x ((hmem x).mpr hx)
      have hlt := (x.setWidth w - m.setWidth w).isLt
      rw [cutDifference, setWidth_sub hw, BitVec.toInt_eq_toNat_cond] at hpos
      split at hpos
      · assumption
      · omega
  · rintro ⟨hdistinct, start, hhalf⟩
    have hcut : ∀ x ∈ S, ∀ y ∈ S,
        cutDifference w x y = (x.setWidth w - start).toNat - (y.setWidth w - start).toNat :=
      fun x hx y hy => cutDifference_eq hw (hhalf x hx) (hhalf y hy)
    refine ⟨fun x hx y hy => ?_, fun x hx y hy => ?_, fun x hx y hy z hz hxy hyz => ?_⟩
    · rw [hcut x hx y hy, sub_eq_zero, Nat.cast_inj, BitVec.toNat_inj, sub_left_inj]
      exact hdistinct.eq_iff hx hy
    · rw [hcut x hx y hy, hcut y hy x hx]
      omega
    · rw [hcut x hx y hy] at hxy
      rw [hcut y hy z hz] at hyz
      rw [hcut x hx z hz]
      omega

end Comparison
