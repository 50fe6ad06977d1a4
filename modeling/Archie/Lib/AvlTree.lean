import Archie.Lib.Comparison

/-! AVL trees over a comparison function that may be any function: searching, inserting, and what both
    do if the function agrees with a linear order.

    Inserting reports whether the subtree has grown; a balance factor is the height of the right
    subtree less that of the left one. -/

inductive AvlTree (κ β : Type*) where
  | nil
  | node (balance : Int) (left : AvlTree κ β) (key : κ) (value : β) (right : AvlTree κ β)

namespace AvlTree

variable {κ β : Type*}

section Operations

variable (cmp : κ → κ → Int)

def find (k : κ) : AvlTree κ β → Option β
  | nil => none
  | node _ l x w r => if cmp k x < 0 then find k l else if 0 < cmp k x then find k r else some w

/-- The left subtree is too high by two. -/
def rotateRight (l : AvlTree κ β) (y : κ) (w : β) (c : AvlTree κ β) : AvlTree κ β :=
  match l with
  | nil => node (-2) nil y w c
  | node balance a x v b =>
    if balance = -1 then node 0 a x v (node 0 b y w c)
    else match b with
      | nil => node (-2) (node balance a x v nil) y w c
      | node inner b₁ z u b₂ => node 0 (node (if inner = 1 then -1 else 0) a x v b₁) z u
          (node (if inner = -1 then 1 else 0) b₂ y w c)

/-- The right subtree is too high by two. -/
def rotateLeft (a : AvlTree κ β) (y : κ) (w : β) (r : AvlTree κ β) : AvlTree κ β :=
  match r with
  | nil => node 2 a y w nil
  | node balance b x v c =>
    if balance = 1 then node 0 (node 0 a y w b) x v c
    else match b with
      | nil => node 2 a y w (node balance nil x v c)
      | node inner b₁ z u b₂ => node 0 (node (if inner = 1 then -1 else 0) a y w b₁) z u
          (node (if inner = -1 then 1 else 0) b₂ x v c)

/-- One more level on the left. -/
def grownLeft (balance : Int) (l : AvlTree κ β) (x : κ) (w : β) (r : AvlTree κ β) : AvlTree κ β × Bool :=
  if balance - 1 = -2 then (rotateRight l x w r, false)
  else (node (balance - 1) l x w r, decide (balance = 0))

/-- One more level on the right. -/
def grownRight (balance : Int) (l : AvlTree κ β) (x : κ) (w : β) (r : AvlTree κ β) :
    AvlTree κ β × Bool :=
  if balance + 1 = 2 then (rotateLeft l x w r, false)
  else (node (balance + 1) l x w r, decide (balance = 0))

def probe (k : κ) (v : β) : AvlTree κ β → AvlTree κ β × Bool
  | nil => (node 0 nil k v nil, true)
  | node balance l x w r =>
    if cmp k x = 0 then (node balance l x w r, false)
    else if 0 < cmp k x then
      let (r, grown) := probe k v r
      if grown then grownRight balance l x w r else (node balance l x w r, false)
    else
      let (l, grown) := probe k v l
      if grown then grownLeft balance l x w r else (node balance l x w r, false)

def insert (k : κ) (v : β) (t : AvlTree κ β) : AvlTree κ β := (t.probe cmp k v).1

/-- The entries from left to right. -/
def toList : AvlTree κ β → List (κ × β)
  | nil => []
  | node _ l x w r => l.toList ++ (x, w) :: r.toList

end Operations

/-! ### Any comparison function -/

section Any

variable {cmp : κ → κ → Int} {k : κ} {v : β} {t : AvlTree κ β}

@[simp]
theorem toList_rotateRight (l : AvlTree κ β) (y : κ) (w : β) (c : AvlTree κ β) :
    (rotateRight l y w c).toList = l.toList ++ (y, w) :: c.toList := by
  rcases l with _ | ⟨balance, a, x, v, b⟩
  · rfl
  · rcases b with _ | ⟨inner, b₁, z, u, b₂⟩
    · rw [rotateRight]
      split <;> simp [toList]
    · rw [rotateRight]
      split <;> simp [toList]

@[simp]
theorem toList_rotateLeft (a : AvlTree κ β) (y : κ) (w : β) (r : AvlTree κ β) :
    (rotateLeft a y w r).toList = a.toList ++ (y, w) :: r.toList := by
  rcases r with _ | ⟨balance, b, x, v, c⟩
  · rfl
  · rcases b with _ | ⟨inner, b₁, z, u, b₂⟩
    · rw [rotateLeft]
      split <;> simp [toList]
    · rw [rotateLeft]
      split <;> simp [toList]

@[simp]
theorem toList_grownLeft (balance : Int) (l : AvlTree κ β) (x : κ) (w : β) (r : AvlTree κ β) :
    (grownLeft balance l x w r).1.toList = l.toList ++ (x, w) :: r.toList := by
  rw [grownLeft]
  split
  · exact toList_rotateRight l x w r
  · rfl

@[simp]
theorem toList_grownRight (balance : Int) (l : AvlTree κ β) (x : κ) (w : β) (r : AvlTree κ β) :
    (grownRight balance l x w r).1.toList = l.toList ++ (x, w) :: r.toList := by
  rw [grownRight]
  split
  · exact toList_rotateLeft l x w r
  · rfl

/-- What is found is the value of an entry that compares as equal. -/
theorem exists_mem_of_find (h : t.find cmp k = some v) : ∃ p ∈ t.toList, p.2 = v ∧ cmp k p.1 = 0 := by
  induction t with
  | nil => cases h
  | node balance l x w r ihl ihr =>
    rw [find] at h
    simp only [toList, List.mem_append, List.mem_cons]
    split_ifs at h with hlt hgt
    · obtain ⟨p, hp, heq⟩ := ihl h
      exact ⟨p, Or.inl hp, heq⟩
    · obtain ⟨p, hp, heq⟩ := ihr h
      exact ⟨p, Or.inr (Or.inr hp), heq⟩
    · exact ⟨(x, w), Or.inr (Or.inl rfl), Option.some.inj h, le_antisymm (not_lt.mp hgt) (not_lt.mp hlt)⟩

/-- Rotations do not change the entries: inserting works on the side of the comparison. -/
theorem toList_insert_node (balance : Int) (l : AvlTree κ β) (x : κ) (w : β) (r : AvlTree κ β) :
    ((node balance l x w r).insert cmp k v).toList =
      if cmp k x = 0 then (node balance l x w r).toList
      else if 0 < cmp k x then l.toList ++ (x, w) :: (r.insert cmp k v).toList
      else (l.insert cmp k v).toList ++ (x, w) :: r.toList := by
  rw [insert, probe]
  split_ifs with heq hgt
  · rfl
  · dsimp only
    split
    · exact toList_grownRight balance l x w _
    · rfl
  · dsimp only
    split
    · exact toList_grownLeft balance _ x w r
    · rfl

/-- Inserting what is not found adds one entry. -/
theorem mem_toList_insert (h : t.find cmp k = none) (p : κ × β) :
    p ∈ (t.insert cmp k v).toList ↔ p = (k, v) ∨ p ∈ t.toList := by
  induction t with
  | nil => simp [insert, probe, toList]
  | node balance l x w r ihl ihr =>
    rw [find] at h
    rw [toList_insert_node]
    split_ifs at h with hlt hgt
    · rw [if_neg (by omega), if_neg (by omega)]
      simp only [toList, List.mem_append, ihl h, or_assoc]
    · rw [if_neg (by omega), if_pos hgt]
      simp only [toList, List.mem_append, List.mem_cons, ihr h, or_left_comm]

end Any

/-! ### A comparison that agrees with an order -/

section Ordered

variable {γ : Type*} [LinearOrder γ]

/-- On the keys of a set the function compares as the order does. -/
structure Agrees (cmp : κ → κ → Int) (ord : κ → γ) (S : Set κ) : Prop where
  neg_iff : ∀ a ∈ S, ∀ b ∈ S, cmp a b < 0 ↔ ord a < ord b
  zero_iff : ∀ a ∈ S, ∀ b ∈ S, cmp a b = 0 ↔ ord a = ord b

theorem Agrees.pos_iff {cmp : κ → κ → Int} {ord : κ → γ} {S : Set κ} (hc : Agrees cmp ord S) {a b : κ}
    (ha : a ∈ S) (hb : b ∈ S) : 0 < cmp a b ↔ ord b < ord a := by
  have hneg := hc.neg_iff a ha b hb
  have hzero := hc.zero_iff a ha b hb
  constructor
  · intro h
    exact lt_of_le_of_ne (not_lt.mp fun hlt => by have := hneg.mpr hlt; omega)
      fun he => by have := hzero.mpr he.symm; omega
  · intro h
    have hnneg : ¬cmp a b < 0 := fun hlt => lt_asymm h (hneg.mp hlt)
    have hnzero : cmp a b ≠ 0 := fun he => h.ne' (hzero.mp he)
    omega

/-- If the order tells the keys apart, the function is a strict total order on them. -/
theorem Agrees.strictTotal {cmp : κ → κ → Int} {ord : κ → γ} {S : Set κ} (hc : Agrees cmp ord S)
    (hinj : Set.InjOn ord S) : Comparison.StrictTotal cmp S where
  zero_iff a ha b hb := (hc.zero_iff a ha b hb).trans (hinj.eq_iff ha hb)
  antisymm a ha b hb := (hc.neg_iff a ha b hb).trans (hc.pos_iff hb ha).symm
  trans a ha b hb c hd hab hbc :=
    (hc.neg_iff a ha c hd).mpr (((hc.neg_iff a ha b hb).mp hab).trans ((hc.neg_iff b hb c hd).mp hbc))

/-- The entries from left to right ascend. -/
def Ordered (ord : κ → γ) (t : AvlTree κ β) : Prop := t.toList.Pairwise fun p q => ord p.1 < ord q.1

theorem ordered_node {ord : κ → γ} {b : Int} {l : AvlTree κ β} {x : κ} {w : β} {r : AvlTree κ β} :
    Ordered ord (node b l x w r) ↔ Ordered ord l ∧ Ordered ord r ∧
      (∀ p ∈ l.toList, ord p.1 < ord x) ∧ ∀ p ∈ r.toList, ord x < ord p.1 := by
  simp only [Ordered, toList, List.pairwise_append, List.pairwise_cons, List.mem_cons,
    forall_eq_or_imp]
  constructor
  · rintro ⟨hl, ⟨hxr, hr⟩, hlr⟩
    exact ⟨hl, hr, fun p hp => (hlr p hp).1, hxr⟩
  · rintro ⟨hl, hr, hlx, hxr⟩
    exact ⟨hl, ⟨hxr, hr⟩, fun p hp => ⟨hlx p hp, fun q hq => (hlx p hp).trans (hxr q hq)⟩⟩

variable {cmp : κ → κ → Int} {ord : κ → γ} {S : Set κ} {k : κ} {v : β} {t : AvlTree κ β}

/-- The search fails only if the key is not in the tree. -/
theorem find_eq_none_iff (hc : Agrees cmp ord S) (hk : k ∈ S) (hS : ∀ p ∈ t.toList, p.1 ∈ S)
    (ho : t.Ordered ord) : t.find cmp k = none ↔ ∀ p ∈ t.toList, ord p.1 ≠ ord k := by
  induction t with
  | nil => simp [find, toList]
  | node balance l x w r ihl ihr =>
    obtain ⟨hol, hor, hlx, hxr⟩ := ordered_node.mp ho
    simp only [toList, List.forall_mem_append, List.forall_mem_cons] at hS ⊢
    obtain ⟨hSl, hSx, hSr⟩ := hS
    rw [find]
    split_ifs with hlt hgt
    · have hkx := (hc.neg_iff k hk x hSx).mp hlt
      rw [ihl hSl hol]
      exact ⟨fun h => ⟨h, hkx.ne', fun p hp => (hkx.trans (hxr p hp)).ne'⟩, fun h => h.1⟩
    · have hxk := (hc.pos_iff hk hSx).mp hgt
      rw [ihr hSr hor]
      exact ⟨fun h => ⟨fun p hp => ((hlx p hp).trans hxk).ne, hxk.ne, h⟩, fun h => h.2.2⟩
    · have hxk := (hc.zero_iff k hk x hSx).mp (by omega)
      simp [hxk]

theorem Ordered.insert (hc : Agrees cmp ord S) (hk : k ∈ S) (hS : ∀ p ∈ t.toList, p.1 ∈ S)
    (ho : t.Ordered ord) (h : t.find cmp k = none) : (t.insert cmp k v).Ordered ord := by
  induction t with
  | nil => simp [Ordered, AvlTree.insert, probe, toList]
  | node balance l x w r ihl ihr =>
    obtain ⟨hol, hor, hlx, hxr⟩ := ordered_node.mp ho
    simp only [toList, List.forall_mem_append, List.forall_mem_cons] at hS
    obtain ⟨hSl, hSx, hSr⟩ := hS
    rw [find] at h
    rw [Ordered, toList_insert_node]
    split_ifs at h with hlt hgt
    · rw [if_neg (by omega), if_neg (by omega)]
      refine ordered_node (b := 0).mpr ⟨ihl hSl hol h, hor, fun p hp => ?_, hxr⟩
      rcases (mem_toList_insert h p).mp hp with rfl | hp
      · exact (hc.neg_iff k hk x hSx).mp hlt
      · exact hlx p hp
    · rw [if_neg (by omega), if_pos hgt]
      refine ordered_node (b := 0).mpr ⟨hol, ihr hSr hor h, hlx, fun p hp => ?_⟩
      rcases (mem_toList_insert h p).mp hp with rfl | hp
      · exact (hc.pos_iff hk hSx).mp hgt
      · exact hxr p hp

end Ordered

end AvlTree
