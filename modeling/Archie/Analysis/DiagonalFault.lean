import Archie.Analysis.TenthRound

/-! The diagonal fault attack on AES, analysis/sahadiagonalfault.py, and the last cells of
    analysis/analysis.ipynb, which intersect the key sets of several faults.

    Each of four sets of key bytes is searched by four nested loops; what a key undoes of the last round of
    both ciphertexts must differ by a column of MixColumns.

        key bytes 0 13 10 7    12 9 6 3    8 5 2 15    4 1 14 11
        multiples 2 1  1  3     3 2 1 1    1 3 2  1    1 1  3  2                                 -/

namespace Archie.Analysis
open BinaryPolynomial Python
open Aes (State gmul lastRounds AgreeOff OnDiagonal Explains)
open scoped Aes

/-- The candidates for each byte of the key. -/
abbrev Keyset := Fin 16 → List Byte

def Keyset.append (keyset : Keyset) (i : Fin 16) (k : Byte) : Keyset :=
  Function.update keyset i (keyset i ++ [k])

/-- `range(0, 256)` -/
def byteRange : List Byte := (List.range 256).map (BitVec.ofNat 8)

/-- How two ciphertexts differ at a byte in front of the last round. -/
def difference (c x : State) (i : Fin 16) (k : Byte) : Byte :=
  lookup invSBox (k ^^^ x i) ^^^ lookup invSBox (k ^^^ c i)

/-- The loops for four bytes of the key; an inner loop runs where the condition in front of it holds. -/
def obtainSet (c x : State) (i₁ i₂ i₃ i₄ : Fin 16) (cond₂ : Byte → Byte → Result Bool)
    (cond₃ : Byte → Byte → Byte → Result Bool) (cond₄ : Byte → Byte → Byte → Byte → Result Bool)
    (keyset : Keyset) : Result Keyset :=
  byteRange.foldlM (fun keyset k₁ =>
    byteRange.foldlM (fun keyset k₂ => do
      let f₁ := difference c x i₁ k₁
      let f₂ := difference c x i₂ k₂
      if ← cond₂ f₁ f₂ then
        byteRange.foldlM (fun keyset k₃ => do
          let f₃ := difference c x i₃ k₃
          if ← cond₃ f₁ f₂ f₃ then
            byteRange.foldlM (fun keyset k₄ => do
              let f₄ := difference c x i₄ k₄
              if ← cond₄ f₁ f₂ f₃ f₄ then
                return (((keyset.append i₁ k₁).append i₂ k₂).append i₃ k₃).append i₄ k₄
              else return keyset) keyset
          else return keyset) keyset
      else return keyset) keyset) keyset

def differentialFaultAttack (c : State) (keyset : Keyset) (x : State) : Result Keyset := do
  let keyset ← obtainSet c x 0 13 10 7 (fun f₁ f₂ => do return f₁ == (← mult 2 f₂))
    (fun _ f₂ f₃ => return f₃ == f₂) (fun _ _ f₃ f₄ => do return (← mult 3 f₃) == f₄) keyset
  let keyset ← obtainSet c x 12 6 9 3 (fun f₁ f₂ => do return f₁ == (← mult 3 f₂))
    (fun _ f₂ f₃ => do return f₃ == (← mult 2 f₂)) (fun _ f₂ _ f₄ => return f₂ == f₄) keyset
  let keyset ← obtainSet c x 8 5 2 15 (fun f₁ f₂ => do return (← mult 3 f₁) == f₂)
    (fun f₁ _ f₃ => do return f₃ == (← mult 2 f₁)) (fun f₁ _ _ f₄ => return f₁ == f₄) keyset
  -- here the outermost loop gives `f2` and the next one `f1`
  obtainSet c x 1 4 14 11 (fun f₂ f₁ => return f₁ == f₂)
    (fun f₂ _ f₃ => do return f₃ == (← mult 3 f₂)) (fun f₂ _ _ f₄ => do return (← mult 2 f₂) == f₄) keyset

/-- `list(set(l))`, sorted. -/
def sortedSet (l : List Byte) : List Byte := l.dedup.insertionSort (· ≤ ·)

/-- The turn of one fault: has one had candidates yet, and those that are left. -/
def intersectGuess (i : Fin 16) (s : Bool × List Byte) (guess : Keyset) : Bool × List Byte :=
  if guess i ≠ [] then
    let tmp := sortedSet (guess i)
    let keys := if s.1 then s.2 else sortedSet (guess i)
    (true, sortedSet (keys.filter fun k => decide (k ∈ tmp)))
  else s

/-- The candidates for a byte of the key that no fault rules out; a fault without any is skipped. -/
def keysetCipher (guesses : List Keyset) (i : Fin 16) : List Byte :=
  (guesses.foldl (intersectGuess i) (false, [])).2

/-! ### The loops -/

/-- Four bytes of the key. -/
abbrev Quadruple := Byte × Byte × Byte × Byte

def Keyset.appendAll (keyset : Keyset) (i₁ i₂ i₃ i₄ : Fin 16) (q : Quadruple) : Keyset :=
  (((keyset.append i₁ q.1).append i₂ q.2.1).append i₃ q.2.2.1).append i₄ q.2.2.2

theorem mem_byteRange (b : Byte) : b ∈ byteRange := by
  refine List.mem_map.mpr ⟨b.toNat, List.mem_range.mpr b.isLt, ?_⟩
  simp

/-- A loop whose body does a loop's worth of steps. -/
theorem foldlM_eq_foldl {α β σ : Type} {f : σ → α → Result σ} {g : α → List β} {step : σ → β → σ}
    (h : ∀ s a, f s a = .ok ((g a).foldl step s)) : ∀ (l : List α) (s : σ),
    l.foldlM f s = .ok ((l.flatMap g).foldl step s)
  | [], _ => rfl
  | a :: l, s => by
    rw [List.foldlM_cons, h, List.flatMap_cons, List.foldl_append]
    exact foldlM_eq_foldl h l _

section Search

variable (c x : State) (i₁ i₂ i₃ i₄ : Fin 16) (eq₂ : Byte → Byte → Bool) (eq₃ : Byte → Byte → Byte → Bool)
  (eq₄ : Byte → Byte → Byte → Byte → Bool)

/-- The quadruples in the order of the loops. -/
def candidates : List Quadruple :=
  byteRange.flatMap fun k₁ => byteRange.flatMap fun k₂ =>
    let f₁ := difference c x i₁ k₁
    let f₂ := difference c x i₂ k₂
    if eq₂ f₁ f₂ then byteRange.flatMap fun k₃ =>
      let f₃ := difference c x i₃ k₃
      if eq₃ f₁ f₂ f₃ then byteRange.flatMap fun k₄ =>
        if eq₄ f₁ f₂ f₃ (difference c x i₄ k₄) then [(k₁, k₂, k₃, k₄)] else []
      else []
    else []

theorem mem_candidates {q : Quadruple} : q ∈ candidates c x i₁ i₂ i₃ i₄ eq₂ eq₃ eq₄ ↔
    eq₂ (difference c x i₁ q.1) (difference c x i₂ q.2.1) = true ∧
    eq₃ (difference c x i₁ q.1) (difference c x i₂ q.2.1) (difference c x i₃ q.2.2.1) = true ∧
    eq₄ (difference c x i₁ q.1) (difference c x i₂ q.2.1) (difference c x i₃ q.2.2.1)
      (difference c x i₄ q.2.2.2) = true := by
  obtain ⟨k₁, k₂, k₃, k₄⟩ := q
  simp only [candidates, List.mem_flatMap, mem_byteRange, true_and, List.mem_ite_nil_right,
    List.mem_singleton, Prod.mk.injEq]
  constructor
  · rintro ⟨_, _, h₂, _, h₃, _, h₄, rfl, rfl, rfl, rfl⟩
    exact ⟨h₂, h₃, h₄⟩
  · rintro ⟨h₂, h₃, h₄⟩
    exact ⟨_, _, h₂, _, h₃, _, h₄, rfl, rfl, rfl, rfl⟩

theorem obtainSet_eq (keyset : Keyset) :
    obtainSet c x i₁ i₂ i₃ i₄ (fun f₁ f₂ => .ok (eq₂ f₁ f₂)) (fun f₁ f₂ f₃ => .ok (eq₃ f₁ f₂ f₃))
      (fun f₁ f₂ f₃ f₄ => .ok (eq₄ f₁ f₂ f₃ f₄)) keyset =
    .ok ((candidates c x i₁ i₂ i₃ i₄ eq₂ eq₃ eq₄).foldl
      (fun keyset q => keyset.appendAll i₁ i₂ i₃ i₄ q) keyset) := by
  refine foldlM_eq_foldl (fun keyset k₁ => foldlM_eq_foldl (fun keyset k₂ => ?_) _ _) _ _
  dsimp only
  cases eq₂ (difference c x i₁ k₁) (difference c x i₂ k₂) with
  | false => rfl
  | true =>
    refine foldlM_eq_foldl (fun keyset k₃ => ?_) _ _
    cases eq₃ (difference c x i₁ k₁) (difference c x i₂ k₂) (difference c x i₃ k₃) with
    | false => rfl
    | true =>
      refine foldlM_eq_foldl (fun keyset k₄ => ?_) _ _
      cases eq₄ (difference c x i₁ k₁) (difference c x i₂ k₂) (difference c x i₃ k₃)
        (difference c x i₄ k₄) with
      | false => rfl
      | true => rfl

end Search

/-! ### The four sets -/

/-- The places of four bytes of the key. -/
abbrev Places := Fin 16 × Fin 16 × Fin 16 × Fin 16

abbrev Places.toList (p : Places) : List (Fin 16) := [p.1, p.2.1, p.2.2.1, p.2.2.2]

/-- In the order of the loops. -/
def places : Fin 4 → Places := ![(0, 13, 10, 7), (1, 4, 14, 11), (8, 5, 2, 15), (12, 6, 9, 3)]

def quadruple (p : Places) (key : State) : Quadruple := (key p.1, key p.2.1, key p.2.2.1, key p.2.2.2)

/-- What a quadruple adds to the candidates of a byte. -/
def entry (p : Places) (i : Fin 16) (q : Quadruple) : Option Byte :=
  if i = p.1 then some q.1
  else if i = p.2.1 then some q.2.1
  else if i = p.2.2.1 then some q.2.2.1
  else if i = p.2.2.2 then some q.2.2.2
  else none

section Places

variable {p : Places} {i : Fin 16} {q : Quadruple}

theorem entry_none (hi : i ∉ p.toList) (q : Quadruple) : entry p i q = none := by
  simp only [List.mem_cons, List.not_mem_nil, or_false, not_or] at hi
  obtain ⟨h₁, h₂, h₃, h₄⟩ := hi
  rw [entry, if_neg h₁, if_neg h₂, if_neg h₃, if_neg h₄]

theorem entry_quadruple (hi : i ∈ p.toList) (key : State) : entry p i (quadruple p key) = some (key i) := by
  simp only [entry, quadruple]
  split_ifs with h₁ h₂ h₃ h₄
  · rw [h₁]
  · rw [h₂]
  · rw [h₃]
  · rw [h₄]
  · simp [h₁, h₂, h₃, h₄] at hi

theorem appendAll_apply (hp : p.toList.Nodup) (keyset : Keyset) (q : Quadruple) (i : Fin 16) :
    keyset.appendAll p.1 p.2.1 p.2.2.1 p.2.2.2 q i = keyset i ++ (entry p i q).toList := by
  simp only [List.nodup_cons, List.mem_cons, not_or, List.not_mem_nil, not_false_eq_true] at hp
  obtain ⟨⟨h₁₂, h₁₃, h₁₄, -⟩, ⟨h₂₃, h₂₄, -⟩, ⟨h₃₄, -⟩, -⟩ := hp
  simp only [Keyset.appendAll, Keyset.append, entry, Function.update_apply]
  split_ifs <;> simp_all

theorem foldl_appendAll (hp : p.toList.Nodup) (i : Fin 16) : ∀ (qs : List Quadruple) (keyset : Keyset),
    qs.foldl (fun keyset q => keyset.appendAll p.1 p.2.1 p.2.2.1 p.2.2.2 q) keyset i =
      keyset i ++ qs.filterMap (entry p i)
  | [], keyset => (List.append_nil _).symm
  | q :: qs, keyset => by
    rw [List.foldl_cons, foldl_appendAll hp i qs, appendAll_apply hp, List.append_assoc]
    cases hentry : entry p i q with
    | none => rw [List.filterMap_cons_none hentry]; rfl
    | some k => rw [List.filterMap_cons_some hentry]; rfl

/-- The key with other bytes at four places. -/
theorem quadruple_entry (hp : p.toList.Nodup) (key : State) (q : Quadruple) :
    quadruple p (fun i => (entry p i q).getD (key i)) = q := by
  simp only [List.nodup_cons, List.mem_cons, not_or, List.not_mem_nil, not_false_eq_true] at hp
  obtain ⟨⟨h₁₂, h₁₃, h₁₄, -⟩, ⟨h₂₃, h₂₄, -⟩, ⟨h₃₄, -⟩, -⟩ := hp
  simp [quadruple, entry, Ne.symm h₁₂, Ne.symm h₁₃, Ne.symm h₁₄, Ne.symm h₂₃, Ne.symm h₂₄, Ne.symm h₃₄]

theorem filterMap_entry (hp : p.toList.Nodup) (hi : i ∈ p.toList) (qs : List Quadruple) :
    qs.filterMap (entry p i) = qs.map fun q => (entry p i q).getD 0 := by
  rw [← List.filterMap_eq_map]
  refine List.filterMap_congr fun q _ => ?_
  obtain ⟨k, hk⟩ : ∃ k, entry p i q = some k :=
    ⟨_, quadruple_entry hp 0 q ▸ entry_quadruple hi _⟩
  simp [hk]

end Places

theorem nodup_places : ∀ j, (places j).toList.Nodup := by
  decide

theorem exists_places (i : Fin 16) : ∃ j, i ∈ (places j).toList := by
  revert i
  decide

/-- Each byte is in one set. -/
theorem notMem_places {j j' : Fin 4} (hj : j' ≠ j) {i : Fin 16} (hi : i ∈ (places j).toList) :
    i ∉ (places j').toList := by
  revert i j j'
  decide

section Sets

variable (c x : State)

/-- The candidates for the bytes of column 0 in front of ShiftRows, and so on. -/
def column₀ : List Quadruple := candidates c x 0 13 10 7 (fun f₁ f₂ => f₁ == gmul 2 f₂)
  (fun _ f₂ f₃ => f₃ == f₂) (fun _ _ f₃ f₄ => gmul 3 f₃ == f₄)

def column₁ : List Quadruple := candidates c x 1 4 14 11 (fun f₂ f₁ => f₁ == f₂)
  (fun f₂ _ f₃ => f₃ == gmul 3 f₂) (fun f₂ _ _ f₄ => gmul 2 f₂ == f₄)

def column₂ : List Quadruple := candidates c x 8 5 2 15 (fun f₁ f₂ => gmul 3 f₁ == f₂)
  (fun f₁ _ f₃ => f₃ == gmul 2 f₁) (fun f₁ _ _ f₄ => f₁ == f₄)

def column₃ : List Quadruple := candidates c x 12 6 9 3 (fun f₁ f₂ => f₁ == gmul 3 f₂)
  (fun _ f₂ f₃ => f₃ == gmul 2 f₂) (fun _ f₂ _ f₄ => f₂ == f₄)

def column : Fin 4 → List Quadruple := ![column₀ c x, column₁ c x, column₂ c x, column₃ c x]

/-- The result of the attack, set by set. -/
def guess : Keyset := fun i => [0, 3, 2, 1].flatMap fun j => (column c x j).filterMap (entry (places j) i)

theorem differentialFaultAttack_eq : differentialFaultAttack c (fun _ => []) x = .ok (guess c x) := by
  simp only [differentialFaultAttack, mult_eq]
  refine bind_eq_ok.mpr ⟨_, obtainSet_eq c x 0 13 10 7 _ _ _ _, ?_⟩
  refine bind_eq_ok.mpr ⟨_, obtainSet_eq c x 12 6 9 3 _ _ _ _, ?_⟩
  refine bind_eq_ok.mpr ⟨_, obtainSet_eq c x 8 5 2 15 _ _ _ _, ?_⟩
  refine (obtainSet_eq c x 1 4 14 11 _ _ _ _).trans (congrArg Except.ok (funext fun i => ?_))
  rw [foldl_appendAll (p := (1, 4, 14, 11)) (nodup_places 1),
    foldl_appendAll (p := (8, 5, 2, 15)) (nodup_places 2),
    foldl_appendAll (p := (12, 6, 9, 3)) (nodup_places 3),
    foldl_appendAll (p := (0, 13, 10, 7)) (nodup_places 0), guess]
  simp only [List.flatMap_cons, List.flatMap_nil, List.append_nil, List.nil_append, ← List.append_assoc]
  rfl

/-- The candidates of a byte are those of its set. -/
theorem guess_eq {i : Fin 16} {j : Fin 4} (hi : i ∈ (places j).toList) :
    guess c x i = (column c x j).filterMap (entry (places j) i) := by
  have hother (j' : Fin 4) (hj : j' ≠ j) : (column c x j').filterMap (entry (places j') i) = [] :=
    List.filterMap_eq_nil_iff.mpr fun q _ => entry_none (notMem_places hj hi) q
  simp only [guess, List.flatMap_cons, List.flatMap_nil, List.append_nil]
  fin_cases j
  · simp [hother 3 (by decide), hother 2 (by decide), hother 1 (by decide)]
  · simp [hother 0 (by decide), hother 2 (by decide), hother 3 (by decide)]
  · simp [hother 0 (by decide), hother 1 (by decide), hother 3 (by decide)]
  · simp [hother 0 (by decide), hother 1 (by decide), hother 2 (by decide)]

/-- The four sets hold the keys that explain the pair of ciphertexts. -/
theorem explains_iff_mem (k₈ k₉ key : State) : Explains substitution k₈ k₉ key x c ↔
    ∀ j, quadruple (places j) key ∈ column c x j := by
  have hall : (∀ j, quadruple (places j) key ∈ column c x j) ↔
      (key 0, key 13, key 10, key 7) ∈ column₀ c x ∧ (key 12, key 6, key 9, key 3) ∈ column₃ c x ∧
      (key 8, key 5, key 2, key 15) ∈ column₂ c x ∧ (key 1, key 4, key 14, key 11) ∈ column₁ c x := by
    refine ⟨fun h => ⟨h 0, h 3, h 2, h 1⟩, ?_⟩
    rintro ⟨h₀, h₃, h₂, h₁⟩ j
    fin_cases j
    exacts [h₀, h₁, h₂, h₃]
  rw [hall]
  have hdifference (i : Fin 16) : Aes.invLastRound substitution x key i ^^^
      Aes.invLastRound substitution c key i =
      difference c x (i - 4 * (i % 4)) (key (i - 4 * (i % 4))) := by
    simp only [Aes.invLastRound, Aes.subBytes, Aes.invShiftRows, Aes.addRoundKey, difference]
    rw [BitVec.xor_comm (x _), BitVec.xor_comm (c _)]
    rfl
  simp only [Aes.explains_iff, hdifference, column₀, column₁, column₂, column₃, mem_candidates, beq_iff_eq]
  constructor
  · rintro ⟨δ, hδ, h⟩
    rw [Aes.mixColumns_spread hδ] at h
    have h₀ : difference c x 0 (key 0) = gmul 2 (δ 0) := h 0
    have h₁₃ : difference c x 13 (key 13) = δ 0 := h 1
    have h₁₀ : difference c x 10 (key 10) = δ 0 := h 2
    have h₇ : difference c x 7 (key 7) = gmul 3 (δ 0) := h 3
    have h₄ : difference c x 4 (key 4) = δ 7 := h 4
    have h₁ : difference c x 1 (key 1) = δ 7 := h 5
    have h₁₄ : difference c x 14 (key 14) = gmul 3 (δ 7) := h 6
    have h₁₁ : difference c x 11 (key 11) = gmul 2 (δ 7) := h 7
    have h₈ : difference c x 8 (key 8) = δ 10 := h 8
    have h₅ : difference c x 5 (key 5) = gmul 3 (δ 10) := h 9
    have h₂ : difference c x 2 (key 2) = gmul 2 (δ 10) := h 10
    have h₁₅ : difference c x 15 (key 15) = δ 10 := h 11
    have h₁₂ : difference c x 12 (key 12) = gmul 3 (δ 13) := h 12
    have h₉ : difference c x 9 (key 9) = gmul 2 (δ 13) := h 13
    have h₆ : difference c x 6 (key 6) = δ 13 := h 14
    have h₃ : difference c x 3 (key 3) = δ 13 := h 15
    rw [h₀, h₁, h₂, h₃, h₄, h₅, h₆, h₇, h₈, h₉, h₁₀, h₁₁, h₁₂, h₁₃, h₁₄, h₁₅]
    exact ⟨⟨rfl, rfl, rfl⟩, ⟨rfl, rfl, rfl⟩, ⟨rfl, rfl, rfl⟩, rfl, rfl, rfl⟩
  · rintro ⟨⟨h₀, h₁₀, h₇⟩, ⟨h₁₂, h₉, h₃⟩, ⟨h₅, h₂, h₁₅⟩, h₄, h₁₄, h₁₁⟩
    let δ : State := ![difference c x 13 (key 13), 0, 0, 0, 0, 0, 0, difference c x 1 (key 1), 0, 0,
      difference c x 8 (key 8), 0, 0, difference c x 6 (key 6), 0, 0]
    have hδ : AgreeOff Aes.Spread δ 0 := fun i hi => by
      fin_cases i <;> first | rfl | exact absurd (by decide) hi
    refine ⟨δ, hδ, fun i => ?_⟩
    rw [Aes.mixColumns_spread hδ]
    rw [h₁₀] at h₇
    fin_cases i
    exacts [h₀, rfl, h₁₀, h₇.symm, h₄, rfl, h₁₄, h₁₁.symm, rfl, h₅.symm, h₂, h₁₅.symm, h₁₂, h₉, rfl, h₃.symm]

variable {c x} {k₈ k₉ key : State} {i : Fin 16} {b : Byte}

/-- Other bytes in one of the sets change nothing in the others. -/
theorem explains_replace (h : Explains substitution k₈ k₉ key x c) {j : Fin 4} {q : Quadruple}
    (hq : q ∈ column c x j) :
    Explains substitution k₈ k₉ (fun i => (entry (places j) i q).getD (key i)) x c := by
  rw [explains_iff_mem] at h ⊢
  intro j'
  by_cases hj : j' = j
  · rw [hj, quadruple_entry (nodup_places j)]
    exact hq
  · have hsame : quadruple (places j') (fun i => (entry (places j) i q).getD (key i)) =
        quadruple (places j') key := by
      have hnone (i) (hi : i ∈ (places j').toList) : (entry (places j) i q).getD (key i) = key i := by
        rw [entry_none (notMem_places (Ne.symm hj) hi), Option.getD_none]
      simp [quadruple, hnone]
    rw [hsame]
    exact h j'

/-- Where one key explains the pair, the candidates of a byte are the bytes of such keys. -/
theorem mem_guess_iff (h : Explains substitution k₈ k₉ key x c) :
    b ∈ guess c x i ↔ ∃ key', key' i = b ∧ Explains substitution k₈ k₉ key' x c := by
  obtain ⟨j, hi⟩ := exists_places i
  rw [guess_eq c x hi, List.mem_filterMap]
  constructor
  · rintro ⟨q, hq, hentry⟩
    refine ⟨_, ?_, explains_replace h hq⟩
    simp only [hentry, Option.getD_some]
  · rintro ⟨key', rfl, hkey⟩
    exact ⟨_, (explains_iff_mem ..).mp hkey j, entry_quadruple hi key'⟩

/-- The key has its bytes at four places at one position of their candidates. -/
def Keyset.Holds (keyset : Keyset) (key : State) (p : Places) : Prop :=
  ∃ n : ℕ, ∀ i ∈ p.toList, (keyset i)[n]? = some (key i)

theorem holds_guess_iff {j : Fin 4} :
    (guess c x).Holds key (places j) ↔ quadruple (places j) key ∈ column c x j := by
  have hget {i} (hi : i ∈ (places j).toList) (n : ℕ) : (guess c x i)[n]? =
      (column c x j)[n]?.map fun q => (entry (places j) i q).getD 0 := by
    rw [guess_eq c x hi, filterMap_entry (nodup_places j) hi, List.getElem?_map]
  constructor
  · rintro ⟨n, h⟩
    have hfirst := h (places j).1 List.mem_cons_self
    rw [hget List.mem_cons_self, Option.map_eq_some_iff] at hfirst
    obtain ⟨q, hq, -⟩ := hfirst
    have hkey (i) (hi : i ∈ (places j).toList) : (entry (places j) i q).getD 0 = key i := by
      have hi' := h i hi
      rw [hget hi, hq] at hi'
      exact Option.some.inj hi'
    have hsame : quadruple (places j) key = q := by
      rw [← quadruple_entry (nodup_places j) 0 q]
      simp [quadruple, ← hkey]
    rw [hsame]
    exact List.mem_of_getElem? hq
  · intro hmem
    obtain ⟨n, hn⟩ := List.mem_iff_getElem?.mp hmem
    refine ⟨n, fun i hi => ?_⟩
    rw [hget hi, hn, Option.map_some, entry_quadruple hi, Option.getD_some]

end Sets

/-- The attack finds the keys that explain a pair of ciphertexts by a fault in the diagonal, whatever the
    keys of the rounds before, and no others. -/
theorem differentialFaultAttack_iff (k₈ k₉ c x : State) :
    ∃ keyset, differentialFaultAttack c (fun _ => []) x = .ok keyset ∧
      ∀ key, (∀ j, keyset.Holds key (places j)) ↔ Explains substitution k₈ k₉ key x c := by
  refine ⟨guess c x, differentialFaultAttack_eq c x, fun key => ?_⟩
  rw [explains_iff_mem]
  exact forall_congr' fun _ => holds_guess_iff

/-! ### Several faults -/

section Faults

variable {i : Fin 16} {b : Byte}

theorem mem_sortedSet {l : List Byte} : b ∈ sortedSet l ↔ b ∈ l := by
  simp [sortedSet]

theorem foldl_intersectGuess (keys : List Byte) : ∀ guesses : List Keyset,
    b ∈ (guesses.foldl (intersectGuess i) (true, keys)).2 ↔
      b ∈ keys ∧ ∀ g ∈ guesses, g i ≠ [] → b ∈ g i
  | [] => by simp
  | g :: guesses => by
    rw [List.foldl_cons, List.forall_mem_cons]
    by_cases hg : g i = []
    · rw [intersectGuess, if_neg (not_not.mpr hg), foldl_intersectGuess keys guesses]
      simp [hg]
    · rw [intersectGuess, if_pos hg, foldl_intersectGuess _ guesses]
      simp [mem_sortedSet, hg, and_assoc]

theorem mem_keysetCipher : ∀ {guesses : List Keyset}, b ∈ keysetCipher guesses i ↔
    (∃ g ∈ guesses, g i ≠ []) ∧ ∀ g ∈ guesses, g i ≠ [] → b ∈ g i
  | [] => by simp [keysetCipher]
  | g :: guesses => by
    rw [keysetCipher, List.foldl_cons, List.forall_mem_cons, List.exists_mem_cons_iff]
    by_cases hg : g i = []
    · rw [intersectGuess, if_neg (not_not.mpr hg)]
      have ih : b ∈ keysetCipher guesses i ↔ _ := mem_keysetCipher
      rw [keysetCipher] at ih
      simp [ih, hg]
    · rw [intersectGuess, if_pos hg, foldl_intersectGuess]
      simp [mem_sortedSet, hg]

/-- A state with other bytes in the diagonal. -/
def faulted (s t : State) : State := fun i => if OnDiagonal i then t i else s i

theorem explains_faulted (k₈ k₉ k₁₀ s t : State) :
    Explains substitution k₈ k₉ k₁₀ (lastRounds substitution k₈ k₉ k₁₀ s)
      (lastRounds substitution k₈ k₉ k₁₀ (faulted s t)) :=
  ⟨s, faulted s t, fun _ hi => (if_neg hi).symm, rfl, rfl⟩

end Faults

end Archie.Analysis
