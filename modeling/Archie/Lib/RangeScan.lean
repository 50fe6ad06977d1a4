import Archie.Lib.Blocks

/-! A scan of a trace made of blocks that selects a range of it, over an arbitrary type of elements.

    The range starts at the element that starts for the last time awaited and ends with a given stop;
    some of its elements are not kept. The scan leaves a block with the first kept element from the
    end on, and goes on to the next block only before the end:

        trace      a a s a | a s a x | e a | …        two starts s awaited, end e, x not kept
        selected             s a     | e                                                       -/

namespace RangeScan

variable {α : Type*}

structure Range (α : Type*) where
  start : α → Bool
  stop : α → Bool
  keep : α → Bool
  /-- the number of the stop that ends the range -/
  stopAt : ℕ

structure Counters where
  /-- the starts still awaited -/
  waiting : ℕ
  stops : ℕ
  reached : Bool

/-- What is left of a list from its `n`-th element that satisfies `p` on; all of it for 0. -/
def fromNth (p : α → Bool) : ℕ → List α → List α
  | _, [] => []
  | n, x :: xs =>
    let n' := if p x then n - 1 else n
    if n' = 0 then x :: fromNth p n' xs else fromNth p n' xs

/-- `i` is the position of the `n`-th element that satisfies `p`. -/
structure IsNth (p : α → Bool) (n : ℕ) (l : List α) (i : ℕ) : Prop where
  at_ : (l[i]?).any p = true
  count : (l.take i).countP p + 1 = n

namespace IsNth

variable {p : α → Bool} {n i j : ℕ} {l : List α}

theorem exists_getElem? (h : IsNth p n l i) : ∃ x, l[i]? = some x ∧ p x = true := by
  have hat := h.at_
  cases hx : l[i]? with
  | none => rw [hx] at hat; cases hat
  | some x => rw [hx] at hat; exact ⟨x, rfl, hat⟩

theorem lt_length (h : IsNth p n l i) : i < l.length := by
  obtain ⟨x, hx, -⟩ := h.exists_getElem?
  exact (List.getElem?_eq_some_iff.mp hx).1

theorem take_succ (h : IsNth p n l i) : (l.take (i + 1)).countP p = n := by
  obtain ⟨x, hx, hp⟩ := h.exists_getElem?
  rw [List.take_add_one, hx, List.countP_append, Option.toList_some, List.countP_singleton, if_pos hp]
  exact h.count

theorem le_countP_take (h : IsNth p n l i) (hij : i < j) : n ≤ (l.take j).countP p := by
  rw [← h.take_succ]
  exact ((List.take_prefix_take_left hij).sublist).countP_le

theorem lt_of_le_countP_take (h : IsNth p n l i) (hn : n ≤ (l.take j).countP p) : i < j := by
  by_contra hji
  have hle := ((List.take_prefix_take_left (l := l) (not_lt.mp hji)).sublist).countP_le (p := p)
  have := h.count
  omega

theorem unique (h : IsNth p n l i) (h' : IsNth p n l j) : i = j := by
  have hij : ∀ {i j : ℕ}, IsNth p n l i → IsNth p n l j → ¬ i < j := by
    intro i j h h' hlt
    have hle := h.le_countP_take hlt
    have := h'.count
    omega
  exact le_antisymm (not_lt.mp (hij h' h)) (not_lt.mp (hij h h'))

theorem exists_of_le_countP (hn : 1 ≤ n) (h : n ≤ l.countP p) : ∃ i, IsNth p n l i := by
  induction l using List.reverseRecOn with
  | nil => simp at h; omega
  | append_singleton l x ih =>
    by_cases hl : n ≤ l.countP p
    · obtain ⟨i, hi⟩ := ih hl
      have hlt := hi.lt_length
      refine ⟨i, ?_, ?_⟩
      · rw [List.getElem?_append_left hlt]
        exact hi.at_
      · rw [List.take_append_of_le_length hlt.le]
        exact hi.count
    · rw [List.countP_append, List.countP_singleton] at h
      refine ⟨l.length, ?_, ?_⟩
      · rw [List.getElem?_concat_length]
        by_contra hx
        simp only [Option.any_some] at hx
        rw [if_neg hx] at h
        omega
      · rw [List.take_left']
        · split at h <;> omega
        · rfl

theorem map_iff {β : Type*} {f : β → α} {l : List β} : IsNth p n (l.map f) i ↔ IsNth (p ∘ f) n l i := by
  have hat : ((l.map f)[i]?).any p = (l[i]?).any (p ∘ f) := by
    rw [List.getElem?_map, Option.any_map]
    rfl
  have hcount : ((l.map f).take i).countP p = (l.take i).countP (p ∘ f) := by
    rw [← List.map_take, List.countP_map]
  constructor
  · exact fun h => ⟨hat ▸ h.at_, hcount ▸ h.count⟩
  · exact fun h => ⟨hat ▸ h.at_, hcount ▸ h.count⟩

end IsNth

namespace Range

variable (r : Range α) (c : Counters)

def visit (x : α) : Counters where
  waiting := if r.start x then c.waiting - 1 else c.waiting
  stops := if r.stop x then c.stops + 1 else c.stops
  reached := c.reached || (r.stop x && decide (c.waiting = 0 ∧ c.stops + 1 = r.stopAt))

def scanBlock : Counters → List α → Counters × List α
  | c, [] => (c, [])
  | c, x :: xs =>
    let c' := r.visit c x
    if c'.waiting = 0 ∧ r.keep x = true then
      if c'.reached then (c', [x])
      else ((scanBlock c' xs).1, x :: (scanBlock c' xs).2)
    else scanBlock c' xs

def scan : Counters → List (List α) → Counters × List α
  | c, [] => (c, [])
  | c, b :: bs =>
    let d := r.scanBlock c b
    if d.1.reached then d else ((scan d.1 bs).1, d.2 ++ (scan d.1 bs).2)

/-- The counters after elements among which the end is not. -/
def advance (l : List α) : Counters :=
  ⟨c.waiting - l.countP r.start, c.stops + l.countP r.stop, c.reached⟩

/-- After `l`, the element `x` ends the range. -/
structure Reaches (l : List α) (x : α) : Prop where
  stop : r.stop x = true
  started : c.waiting ≤ l.countP r.start
  stopAt : c.stops + l.countP r.stop + 1 = r.stopAt

variable {r} {c : Counters} {l l' : List α} {x y : α}

/-! ### From the start on -/

theorem fromNth_zero {p : α → Bool} : fromNth p 0 l = l := by
  induction l with
  | nil => rfl
  | cons x xs ih => simp [fromNth, ih]

theorem fromNth_append {p : α → Bool} (n : ℕ) (l l' : List α) :
    fromNth p n (l ++ l') = fromNth p n l ++ fromNth p (n - l.countP p) l' := by
  induction l generalizing n with
  | nil => simp [fromNth]
  | cons x xs ih =>
    have hcount : (if p x then n - 1 else n) - xs.countP p = n - (x :: xs).countP p := by
      rw [List.countP_cons]
      split <;> omega
    simp only [List.cons_append, fromNth, ih, hcount]
    generalize (if p x = true then n - 1 else n) = m
    split
    · exact (List.cons_append ..).symm
    · rfl

theorem fromNth_eq_nil {p : α → Bool} {n : ℕ} (h : l.countP p < n) : fromNth p n l = [] := by
  induction l generalizing n with
  | nil => rfl
  | cons y ys ih =>
    rw [List.countP_cons] at h
    have h' : ys.countP p < if p y then n - 1 else n := by
      split
      · next hy => rw [if_pos hy] at h; omega
      · next hy => rw [if_neg hy] at h; omega
    simp only [fromNth, if_neg (Nat.ne_of_gt (Nat.zero_lt_of_lt h')), ih h']

/-- The `n`-th element that satisfies `p` stands at the front. -/
theorem fromNth_eq_drop {p : α → Bool} {n i : ℕ} (h : IsNth p n l i) : fromNth p n l = l.drop i := by
  obtain ⟨x, hx, hp⟩ := h.exists_getElem?
  obtain ⟨hlt, hget⟩ := List.getElem?_eq_some_iff.mp hx
  have hone : n - (l.take i).countP p = 1 := by
    have := h.count
    omega
  have hsplit := fromNth_append (p := p) n (l.take i) (l.drop i)
  rw [List.take_append_drop, fromNth_eq_nil (l := l.take i) (by have := h.count; omega),
    List.nil_append, hone] at hsplit
  rw [hsplit, List.drop_eq_getElem_cons hlt, hget]
  simp [fromNth, hp, fromNth_zero]

/-! ### One visit -/

theorem visit_reached (hc : c.reached = false) :
    (r.visit c x).reached = true ↔ r.Reaches c [] x := by
  simp only [visit, hc, Bool.false_or, Bool.and_eq_true, decide_eq_true_eq]
  constructor
  · rintro ⟨hstop, hwaiting, hstops⟩
    exact ⟨hstop, le_of_eq hwaiting, hstops⟩
  · rintro ⟨hstop, hwaiting, hstops⟩
    exact ⟨hstop, Nat.le_zero.mp hwaiting, hstops⟩

theorem reaches_visit : r.Reaches (r.visit c x) l y ↔ r.Reaches c (x :: l) y := by
  have hstarts : (r.visit c x).waiting ≤ l.countP r.start ↔ c.waiting ≤ (x :: l).countP r.start := by
    simp only [visit, List.countP_cons]
    split <;> omega
  have hstops : (r.visit c x).stops + l.countP r.stop = c.stops + (x :: l).countP r.stop := by
    simp only [visit, List.countP_cons]
    split <;> omega
  constructor
  · exact fun h => ⟨h.stop, hstarts.mp h.started, hstops ▸ h.stopAt⟩
  · exact fun h => ⟨h.stop, hstarts.mpr h.started, hstops ▸ h.stopAt⟩

theorem reaches_advance : r.Reaches (r.advance c l) l' y ↔ r.Reaches c (l ++ l') y := by
  have hstarts : (r.advance c l).waiting ≤ l'.countP r.start ↔
      c.waiting ≤ (l ++ l').countP r.start := by
    simp only [advance, List.countP_append]
    omega
  have hstops : (r.advance c l).stops + l'.countP r.stop = c.stops + (l ++ l').countP r.stop := by
    simp only [advance, List.countP_append]
    omega
  constructor
  · exact fun h => ⟨h.stop, hstarts.mp h.started, hstops ▸ h.stopAt⟩
  · exact fun h => ⟨h.stop, hstarts.mpr h.started, hstops ▸ h.stopAt⟩

theorem advance_visit (hx : (r.visit c x).reached = c.reached) :
    r.advance (r.visit c x) l = r.advance c (x :: l) := by
  simp only [advance, hx, Counters.mk.injEq, and_true]
  simp only [visit, List.countP_cons]
  constructor
  · split <;> omega
  · split <;> omega

theorem advance_append : r.advance (r.advance c l) l' = r.advance c (l ++ l') := by
  simp only [advance, List.countP_append, Counters.mk.injEq, and_true]
  constructor <;> omega

/-! ### One block -/

/-- A block without the end is selected from the start on. -/
theorem scanBlock_of_not_reaches (hc : c.reached = false)
    (h : ∀ l₁ x l₂, l = l₁ ++ x :: l₂ → ¬ r.Reaches c l₁ x) :
    r.scanBlock c l = (r.advance c l, (fromNth r.start c.waiting l).filter r.keep) := by
  induction l generalizing c with
  | nil => rfl
  | cons x xs ih =>
    have hx : (r.visit c x).reached = false :=
      Bool.eq_false_iff.mpr fun hx => h [] x xs rfl ((visit_reached hc).mp hx)
    have hxs : ∀ l₁ y l₂, xs = l₁ ++ y :: l₂ → ¬ r.Reaches (r.visit c x) l₁ y :=
      fun l₁ y l₂ hsplit hy => h (x :: l₁) y l₂ (by rw [hsplit]; rfl) (reaches_visit.mp hy)
    have hwaiting : (if r.start x = true then c.waiting - 1 else c.waiting) = (r.visit c x).waiting := rfl
    rw [scanBlock, ih hx hxs, advance_visit (hx.trans hc.symm), fromNth, hwaiting]
    simp only [hx, Bool.false_eq_true, if_false]
    by_cases hw : (r.visit c x).waiting = 0
    · by_cases hk : r.keep x = true
      · simp [hw, hk]
      · simp [hw, hk]
    · simp [hw]

/-- Past the end a block is left with its first kept element. -/
theorem scanBlock_of_reached (hc : c.reached = true) (hw : c.waiting = 0) :
    (r.scanBlock c l).1.reached = true ∧ (r.scanBlock c l).1.waiting = 0 ∧
      (r.scanBlock c l).2 = (l.find? r.keep).toList := by
  induction l generalizing c with
  | nil => exact ⟨hc, hw, rfl⟩
  | cons x xs ih =>
    have hx : (r.visit c x).reached = true := by simp [visit, hc]
    have hwx : (r.visit c x).waiting = 0 := by simp [visit, hw]
    rw [scanBlock]
    by_cases hk : r.keep x = true
    · simp [hx, hwx, hk]
    · simp [hk, ih hx hwx]

/-- The block of the end: what is kept up to there, one more element if the end is not kept. -/
theorem scanBlock_of_reaches {l₁ l₂ : List α} (hc : c.reached = false) (h : r.Reaches c l₁ x) :
    (r.scanBlock c (l₁ ++ x :: l₂)).1.reached = true ∧
    (r.scanBlock c (l₁ ++ x :: l₂)).1.waiting = 0 ∧
    (r.scanBlock c (l₁ ++ x :: l₂)).2 = (fromNth r.start c.waiting (l₁ ++ [x])).filter r.keep ++
      if r.keep x then [] else (l₂.find? r.keep).toList := by
  induction l₁ generalizing c with
  | nil =>
    have hx : (r.visit c x).reached = true := (visit_reached hc).mpr h
    have hw : c.waiting = 0 := Nat.le_zero.mp h.started
    have hwx : (r.visit c x).waiting = 0 := by simp [visit, hw]
    obtain ⟨hend, hwait, hout⟩ := scanBlock_of_reached (r := r) (l := l₂) hx hwx
    rw [List.nil_append, List.nil_append, scanBlock, hw, fromNth_zero]
    by_cases hk : r.keep x = true
    · simp [hx, hwx, hk]
    · simp [hk, hend, hwait, hout]
  | cons y ys ih =>
    have hy : (r.visit c y).reached = false := by
      refine Bool.eq_false_iff.mpr fun hy => ?_
      have hfirst := (visit_reached hc).mp hy
      have hlate := h.stopAt
      rw [List.countP_cons, if_pos hfirst.stop] at hlate
      have hearly := hfirst.stopAt
      simp only [List.countP_nil] at hearly
      omega
    obtain ⟨hend, hwait, hout⟩ := ih hy (reaches_visit.mpr h)
    have hwaiting : (if r.start y = true then c.waiting - 1 else c.waiting) = (r.visit c y).waiting := rfl
    rw [List.cons_append, List.cons_append, scanBlock, fromNth, hwaiting]
    simp only [hy, Bool.false_eq_true, if_false]
    by_cases hw : (r.visit c y).waiting = 0
    · by_cases hk : r.keep y = true
      · simp [hw, hk, hend, hwait, hout]
      · simp [hw, hk, hend, hwait, hout]
    · simp [hw, hend, hwait, hout]

/-! ### The trace -/

theorem scan_of_not_reaches {bs : List (List α)} (hc : c.reached = false)
    (h : ∀ l₁ x l₂, bs.flatten = l₁ ++ x :: l₂ → ¬ r.Reaches c l₁ x) :
    r.scan c bs = (r.advance c bs.flatten, (fromNth r.start c.waiting bs.flatten).filter r.keep) := by
  induction bs generalizing c with
  | nil => rfl
  | cons b bs ih =>
    rw [List.flatten_cons] at h
    have hb := scanBlock_of_not_reaches (l := b) hc fun l₁ x l₂ hsplit =>
      h l₁ x (l₂ ++ bs.flatten) (by rw [hsplit, List.append_assoc]; rfl)
    have hbs := ih (c := r.advance c b) hc fun l₁ x l₂ hsplit hx =>
      h (b ++ l₁) x l₂ (by rw [hsplit, List.append_assoc]) (reaches_advance.mp hx)
    have hreached : (r.advance c b).reached = false := hc
    rw [scan, hb, hbs]
    simp only [hreached, Bool.false_eq_true, if_false, List.flatten_cons, advance_append,
      fromNth_append, List.filter_append]
    rfl

/-- The scan of a trace whose range has an end. -/
theorem scan_of_reaches {bs : List (List α)} {l₁ : List α} (bs' : List (List α)) (l₂ : List α)
    (hc : c.reached = false) (h : r.Reaches c (bs.flatten ++ l₁) x) :
    (r.scan c (bs ++ (l₁ ++ x :: l₂) :: bs')).1.reached = true ∧
      (r.scan c (bs ++ (l₁ ++ x :: l₂) :: bs')).1.waiting = 0 ∧
      (r.scan c (bs ++ (l₁ ++ x :: l₂) :: bs')).2
        = (fromNth r.start c.waiting (bs.flatten ++ l₁ ++ [x])).filter r.keep ++
          if r.keep x then [] else (l₂.find? r.keep).toList := by
  induction bs generalizing c with
  | nil =>
    rw [List.flatten_nil, List.nil_append] at h ⊢
    obtain ⟨hend, hwait, hout⟩ := scanBlock_of_reaches hc h
    have hleave : r.scan c ((l₁ ++ x :: l₂) :: bs') = r.scanBlock c (l₁ ++ x :: l₂) := by
      rw [scan]
      exact if_pos hend
    rw [List.nil_append, hleave]
    exact ⟨hend, hwait, hout⟩
  | cons b bs ih =>
    rw [List.flatten_cons, List.append_assoc] at h
    have hb := scanBlock_of_not_reaches (l := b) hc fun m₁ y m₂ hsplit hy => by
      have hlate := h.stopAt
      rw [hsplit, List.append_assoc, List.countP_append, List.cons_append, List.countP_cons,
        if_pos hy.stop] at hlate
      have hearly := hy.stopAt
      omega
    have hreached : (r.advance c b).reached = false := hc
    obtain ⟨hend, hwait, hout⟩ := ih hreached (reaches_advance.mpr h)
    rw [List.cons_append, scan, hb]
    simp only [hreached, Bool.false_eq_true, if_false, hend, hwait, hout, List.flatten_cons,
      List.append_assoc, fromNth_append, List.filter_append, true_and]
    rfl

/-! ### The trace by positions -/

variable {n i j : ℕ} {bs : List (List α)}

/-- The range ends at the given stop, if that comes after the start. -/
theorem reaches_iff (hn : 1 ≤ n) (hx : l[j]? = some x) : r.Reaches ⟨n, 0, false⟩ (l.take j) x ↔
    IsNth r.stop r.stopAt l j ∧ ∃ i < j, IsNth r.start n l i := by
  constructor
  · intro h
    refine ⟨⟨by rw [hx]; exact h.stop, ?_⟩, ?_⟩
    · have hcount := h.stopAt
      simp only at hcount
      omega
    · obtain ⟨i, hi⟩ := IsNth.exists_of_le_countP hn (h.started.trans
        (List.take_sublist j l).countP_le)
      exact ⟨i, hi.lt_of_le_countP_take h.started, hi⟩
  · rintro ⟨hstop, i, hij, hstart⟩
    obtain ⟨y, hy, hp⟩ := hstop.exists_getElem?
    obtain rfl := Option.some.inj (hx.symm.trans hy)
    have hcount := hstop.count
    exact ⟨hp, hstart.le_countP_take hij, by simp only; omega⟩

/-- A range whose end comes after its start is selected; an end that is not kept adds the next kept
    element of its block. -/
theorem scan_of_lt {b : List α} {k m : ℕ} (hn : 1 ≤ n) (hstart : IsNth r.start n bs.flatten i)
    (hstop : IsNth r.stop r.stopAt bs.flatten j) (hij : i < j) (hk : bs[k]? = some b)
    (hx : b[m]? = some x) (hj : j = Blocks.offset bs k + m) :
    (r.scan ⟨n, 0, false⟩ bs).1.reached = true ∧ (r.scan ⟨n, 0, false⟩ bs).1.waiting = 0 ∧
      (r.scan ⟨n, 0, false⟩ bs).2 = ((bs.flatten.take (j + 1)).drop i).filter r.keep ++
        if r.keep x then [] else ((b.drop (m + 1)).find? r.keep).toList := by
  obtain ⟨hm, hget⟩ := List.getElem?_eq_some_iff.mp hx
  have hflat : bs.flatten[j]? = some x := by rw [hj, Blocks.getElem?_offset hk hm, hx]
  have hblock : b = b.take m ++ x :: b.drop (m + 1) := by
    rw [← hget, ← List.drop_eq_getElem_cons hm, List.take_append_drop]
  have hbs : bs = bs.take k ++ (b.take m ++ x :: b.drop (m + 1)) :: bs.drop (k + 1) := by
    obtain ⟨hlt, hkget⟩ := List.getElem?_eq_some_iff.mp hk
    rw [← hblock, ← hkget, ← List.drop_eq_getElem_cons hlt, List.take_append_drop]
  have hbefore : bs.flatten.take j = (bs.take k).flatten ++ b.take m := by
    rw [Blocks.flatten_split hk, hj, Blocks.offset, List.take_length_add_append,
      List.take_append_of_le_length hm.le]
  have hreaches : r.Reaches ⟨n, 0, false⟩ ((bs.take k).flatten ++ b.take m) x :=
    hbefore ▸ (reaches_iff hn hflat).mpr ⟨hstop, i, hij, hstart⟩
  have hupto : (bs.take k).flatten ++ b.take m ++ [x] = bs.flatten.take (j + 1) := by
    rw [← hbefore, List.take_add_one, hflat]
    rfl
  have hdrop : fromNth r.start n (bs.flatten.take (j + 1)) = (bs.flatten.take (j + 1)).drop i := by
    refine fromNth_eq_drop ⟨?_, ?_⟩
    · rw [List.getElem?_take_of_lt (by omega)]
      exact hstart.at_
    · rw [List.take_take, min_eq_left (by omega)]
      exact hstart.count
  have hscan := scan_of_reaches (bs.drop (k + 1)) (b.drop (m + 1)) rfl hreaches
  rw [← hbs, hupto, hdrop] at hscan
  exact hscan

/-- Without an end after its start a range is selected to the end of the trace, and not reached. -/
theorem scan_of_not_lt (hn : 1 ≤ n) (h : ∀ i j, IsNth r.start n bs.flatten i →
    IsNth r.stop r.stopAt bs.flatten j → ¬ i < j) :
    (r.scan ⟨n, 0, false⟩ bs).1.reached = false ∧
      (r.scan ⟨n, 0, false⟩ bs).2 = (fromNth r.start n bs.flatten).filter r.keep := by
  have hscan : r.scan ⟨n, 0, false⟩ bs = _ := scan_of_not_reaches rfl fun l₁ x l₂ hsplit hreaches => by
    have hx : bs.flatten[l₁.length]? = some x := by rw [hsplit]; simp
    have htake : bs.flatten.take l₁.length = l₁ := by rw [hsplit]; simp
    obtain ⟨hstop, i, hlt, hstart⟩ := (reaches_iff hn hx).mp (htake.symm ▸ hreaches)
    exact h i _ hstart hstop hlt
  rw [hscan]
  exact ⟨rfl, rfl⟩

end Range

end RangeScan
