import Mathlib

/-! The parts of Python that the controller's code leans on, as total functions.

    Text is a list of characters, an exception is an `Except` error, an object that two lists may
    share is a reference into a `Heap`: mutating it through one list is seen through the other. -/

namespace Python

/-- The exceptions of the modelled code; `loops` stands for a `while` that never ends. -/
inductive PyError where
  | indexError | keyError | nameError | valueError | typeError | overflowError | systemExit
  | noSuchNode | nodeError | loops
  | assertionError
  deriving DecidableEq, Repr

abbrev Text := List Char

abbrev Result (α : Type*) := Except PyError α

/-! ### Lists -/

/-- `l[i]`, a negative index counting from the end. -/
def getItem {α : Type*} (l : List α) (i : Int) : Result α :=
  let j := if i < 0 then i + l.length else i
  if j < 0 then .error .indexError
  else match l[j.toNat]? with
    | some x => .ok x
    | none => .error .indexError

/-- `l.remove(x)`: drops the first element equal to `x`. -/
def remove {α : Type*} [DecidableEq α] (l : List α) (x : α) : Result (List α) :=
  if x ∈ l then .ok (l.erase x) else .error .valueError

/-- The numbers of `range(start, stop, step)`; a step of 0 raises. -/
def range (start stop step : Int) : Result (List Int) :=
  if step = 0 then .error .valueError
  else
    let count := if 0 < step then (stop - start + step - 1) / step else (start - stop - step - 1) / -step
    .ok ((List.range count.toNat).map fun i => start + i * step)

/-- `x << i`. -/
def shiftLeft (x i : Int) : Result Int := if i < 0 then .error .valueError else .ok (x * 2 ^ i.toNat)

theorem getItem_natCast {α : Type*} {l : List α} {i : ℕ} {x : α} (h : l[i]? = some x) :
    getItem l (i : Int) = .ok x := by
  have hi : ¬ ((i : Int) < 0) := by omega
  simp [getItem, hi, h]

theorem getItem_zero {α : Type*} {l : List α} {x : α} (h : l.head? = some x) :
    getItem l 0 = .ok x := by
  cases l with
  | nil => simp at h
  | cons y ys => simpa [getItem] using h

/-- What a statement and those after it return together. -/
theorem bind_eq_ok {α β : Type*} {x : Result α} {f : α → Result β} {b : β} :
    x.bind f = .ok b ↔ ∃ a, x = .ok a ∧ f a = .ok b := by
  cases x with
  | error e => simp [Except.bind]
  | ok a => simp [Except.bind]

/-- A loop over a list returns the values of its elements. -/
theorem mapM_eq_ok {α β : Type*} {f : α → Result β} : ∀ {l : List α} {r : List β},
    l.mapM f = .ok r ↔ List.Forall₂ (fun x y => f x = .ok y) l r
  | [], r => by
    rw [List.mapM_nil, List.forall₂_nil_left_iff]
    exact ⟨fun h => (Except.ok.inj h).symm, fun h => h ▸ rfl⟩
  | x :: xs, r => by
    rw [List.mapM_cons, List.forall₂_cons_left_iff]
    refine bind_eq_ok.trans ⟨?_, ?_⟩
    · rintro ⟨y, hy, h⟩
      obtain ⟨ys, hys, h⟩ := bind_eq_ok.mp h
      exact ⟨y, ys, hy, mapM_eq_ok.mp hys, (Except.ok.inj h).symm⟩
    · rintro ⟨y, ys, hy, hys, rfl⟩
      exact ⟨y, hy, bind_eq_ok.mpr ⟨ys, mapM_eq_ok.mpr hys, rfl⟩⟩

/-- A loop that raises nowhere collects its values. -/
theorem mapM_ok {α β : Type*} {f : α → Result β} {v : α → β} :
    ∀ {l : List α}, (∀ x ∈ l, f x = .ok (v x)) → l.mapM f = .ok (l.map v)
  | [], _ => rfl
  | x :: xs, h => by
    rw [List.mapM_cons, h x List.mem_cons_self, mapM_ok fun y hy => h y (List.mem_cons_of_mem _ hy)]
    rfl

/-- The values of a loop are those of its elements. -/
theorem mem_mapM {α β : Type*} {f : α → Result β} {l : List α} {ys : List β} (h : l.mapM f = .ok ys) {y : β} :
    y ∈ ys ↔ ∃ x ∈ l, f x = .ok y := by
  induction mapM_eq_ok.mp h with
  | nil => simp
  | @cons x y' xs ys' hx hxs ih =>
    rw [List.mem_cons, ih (mapM_eq_ok.mpr hxs)]
    simp only [List.exists_mem_cons_iff, hx, Except.ok.injEq, eq_comm]

/-- A loop whose body leaves the state alone leaves it alone. -/
theorem foldlM_fixed {α σ : Type*} {f : σ → α → Result σ} {s : σ} :
    ∀ {l : List α}, (∀ x ∈ l, f s x = .ok s) → l.foldlM f s = .ok s
  | [], _ => rfl
  | x :: xs, h => by
    rw [List.foldlM_cons, h x List.mem_cons_self]
    exact foldlM_fixed fun y hy => h y (List.mem_cons_of_mem _ hy)

/-- A loop whose body never raises does not raise. -/
theorem foldlM_total {α σ : Type*} {f : σ → α → Result σ} :
    ∀ {l : List α}, (∀ s, ∀ x ∈ l, ∃ s', f s x = .ok s') → ∀ s, ∃ s', l.foldlM f s = .ok s'
  | [], _, s => ⟨s, rfl⟩
  | x :: xs, h, s => by
    obtain ⟨s₁, h₁⟩ := h s x List.mem_cons_self
    obtain ⟨s₂, h₂⟩ := foldlM_total (fun s y hy => h s y (List.mem_cons_of_mem _ hy)) s₁
    exact ⟨s₂, by rw [List.foldlM_cons, h₁]; exact h₂⟩

theorem foldlM_congr {α σ : Type*} {f g : σ → α → Result σ} {l : List α} (h : ∀ s, ∀ x ∈ l, f s x = g s x)
    (s : σ) : l.foldlM f s = l.foldlM g s := by
  induction l generalizing s with
  | nil => rfl
  | cons x xs ih =>
    rw [List.foldlM_cons, List.foldlM_cons, h s x List.mem_cons_self]
    exact congrArg (g s x >>= ·) (funext fun s' => ih (fun s y hy => h s y (List.mem_cons_of_mem _ hy)) s')

/-- A loop of loops is one loop over what the inner ones run through. -/
theorem foldlM_flatMap {α β σ : Type*} (f : σ → β → Result σ) (g : α → List β) (l : List α) (s : σ) :
    (l.flatMap g).foldlM f s = l.foldlM (fun s x => (g x).foldlM f s) s := by
  induction l generalizing s with
  | nil => rfl
  | cons x xs ih => simp only [List.flatMap_cons, List.foldlM_append, List.foldlM_cons, ih]

/-- Taking away each element as often as it occurs, or more often, leaves the other ones. -/
theorem diff_eq_filter {α : Type*} [DecidableEq α] : ∀ {l xs : List α}, (∀ x ∈ xs, l.count x ≤ xs.count x) →
    l.diff xs = l.filter fun x => decide (x ∉ xs)
  | [], _, _ => List.nil_diff _
  | a :: l, xs, h => by
    by_cases ha : a ∈ xs
    · have hcount : ∀ x ∈ xs, l.count x ≤ (xs.erase a).count x := by
        intro x hx
        have := h x hx
        rcases eq_or_ne a x with rfl | hne
        · rw [List.count_cons_self] at this
          rw [List.count_erase_self]
          omega
        · rw [List.count_cons_of_ne hne] at this
          rwa [List.count_erase_of_ne hne.symm]
      have hmem : ∀ x ∈ l, x ∉ xs.erase a ↔ x ∉ xs := by
        intro x hx
        refine ⟨fun hno hxs => ?_, fun hno hxs => hno (List.mem_of_mem_erase hxs)⟩
        have := hcount x hxs
        rw [List.count_eq_zero.mpr hno] at this
        exact List.count_pos_iff.mpr hx |>.ne' (Nat.le_zero.mp this)
      rw [List.cons_diff_of_mem ha, diff_eq_filter fun x hx => hcount x (List.mem_of_mem_erase hx),
        List.filter_cons_of_neg (by simpa using ha)]
      exact List.filter_congr fun x hx => decide_eq_decide.mpr (hmem x hx)
    · rw [List.cons_diff_of_not_mem ha, List.filter_cons_of_pos (by simpa using ha)]
      refine congrArg (a :: ·) (diff_eq_filter fun x hx => ?_)
      have := h x hx
      rwa [List.count_cons_of_ne fun he : a = x => ha (he ▸ hx)] at this

/-- A loop of removals that raises nowhere. -/
theorem foldlM_remove {α : Type*} [DecidableEq α] {xs l l' : List α} (h : xs.foldlM remove l = .ok l') :
    l' = l.diff xs ∧ xs.Subperm l := by
  induction xs generalizing l with
  | nil => exact ⟨(Except.ok.inj h).symm, List.nil_subperm⟩
  | cons x xs ih =>
    rw [List.foldlM_cons] at h
    obtain ⟨l₁, hl₁, h⟩ := bind_eq_ok.mp h
    rw [remove] at hl₁
    split at hl₁
    · next hx =>
      obtain rfl := Except.ok.inj hl₁
      obtain ⟨hdiff, hsub⟩ := ih h
      refine ⟨by rw [List.diff_cons, hdiff], ?_⟩
      exact ((List.subperm_cons x).mpr hsub).trans (List.perm_cons_erase hx).symm.subperm
    · cases hl₁

theorem foldlM_remove_ok_iff {α : Type*} [DecidableEq α] {xs l : List α} :
    (∃ l', xs.foldlM remove l = .ok l') ↔ xs.Subperm l := by
  refine ⟨fun ⟨_, h⟩ => (foldlM_remove h).2, fun h => ?_⟩
  induction xs generalizing l with
  | nil => exact ⟨l, rfl⟩
  | cons x xs ih =>
    have hx : x ∈ l := h.subset List.mem_cons_self
    have herase : xs.Subperm (l.erase x) := by simpa using h.erase x
    obtain ⟨l', hl'⟩ := ih herase
    exact ⟨l', by rw [List.foldlM_cons, remove, if_pos hx]; exact hl'⟩

/-! ### Text -/

/-- The pieces of `s.split(sep)` from here on; `skip` characters of a separator are still to be
    passed over and `acc` holds the current piece backwards. -/
def splitGo (sep : Text) : ℕ → Text → Text → List Text
  | _, acc, [] => [acc.reverse]
  | 0, acc, c :: cs =>
    if sep.isPrefixOf (c :: cs) then acc.reverse :: splitGo sep (sep.length - 1) [] cs
    else splitGo sep 0 (c :: acc) cs
  | skip + 1, acc, _ :: cs => splitGo sep skip acc cs

/-- `s.split(sep)`. -/
def split (s sep : Text) : List Text := splitGo sep 0 [] s

/-- `s.strip()`. -/
def strip (s : Text) : Text :=
  ((s.dropWhile Char.isWhitespace).reverse.dropWhile Char.isWhitespace).reverse

def hexDigit (c : Char) : Option ℕ :=
  if '0' ≤ c ∧ c ≤ '9' then some (c.toNat - '0'.toNat)
  else if 'a' ≤ c ∧ c ≤ 'f' then some (c.toNat - 'a'.toNat + 10)
  else if 'A' ≤ c ∧ c ≤ 'F' then some (c.toNat - 'A'.toNat + 10)
  else none

/-- The number that a run of hexadecimal digits spells after the digits read so far. -/
def hexGo : ℕ → Text → Option ℕ
  | n, [] => some n
  | n, c :: cs => (hexDigit c).bind fun d => hexGo (16 * n + d) cs

/-- `int(s, 16)` and `int("0x" + s.strip(), 0)` on text without prefix, sign or underscore. -/
def intHex (s : Text) : Result ℕ :=
  match strip s with
  | [] => .error .valueError
  | c :: cs => match hexGo 0 (c :: cs) with
    | some n => .ok n
    | none => .error .valueError

/-- `str(n)` of an integer. -/
def strInt : Int → Text
  | .ofNat n => Nat.toDigits 10 n
  | .negSucc n => '-' :: Nat.toDigits 10 (n + 1)

/-- `str(b)` of a truth value. -/
def strBool (b : Bool) : Text := if b then "True".toList else "False".toList

/-- `"{:0wd}".format(n)` of a non-negative integer. -/
def formatPadded (w n : ℕ) : Text :=
  List.replicate (w - (Nat.toDigits 10 n).length) '0' ++ Nat.toDigits 10 n

/-! ### Objects -/

/-- The objects alive in the interpreter; `next` is the first reference not handed out yet. -/
structure Heap (α : Type*) where
  get : ℕ → α
  next : ℕ

namespace Heap

variable {α : Type*} (h : Heap α)

/-- Mutating the object behind a reference. -/
def set (r : ℕ) (x : α) : Heap α := { h with get := Function.update h.get r x }

/-- A fresh object. -/
def alloc (x : α) : ℕ × Heap α :=
  (h.next, { get := Function.update h.get h.next x, next := h.next + 1 })

@[simp] theorem set_next (r : ℕ) (x : α) : (h.set r x).next = h.next := rfl

theorem get_set (r s : ℕ) (x : α) : (h.set r x).get s = if s = r then x else h.get s :=
  Function.update_apply ..

@[simp] theorem get_set_self (r : ℕ) (x : α) : (h.set r x).get r = x := by simp [get_set]

theorem get_set_ne {r s : ℕ} (hne : s ≠ r) (x : α) : (h.set r x).get s = h.get s := by
  simp [get_set, hne]

@[simp] theorem alloc_fst (x : α) : (h.alloc x).1 = h.next := rfl

@[simp] theorem alloc_next (x : α) : (h.alloc x).2.next = h.next + 1 := rfl

theorem get_alloc (x : α) (s : ℕ) :
    (h.alloc x).2.get s = if s = h.next then x else h.get s := Function.update_apply ..

end Heap

end Python
