import Archie.Lib.Python

/-! Cutting text at separators and replacing them.

    A separator may straddle the end of a piece: `"x["` followed by `"[ "` is cut in front of the
    right bracket only because `"x[["` holds no separator. So the pieces are those that hold none
    when all but the last character of a separator follows. -/

namespace Python

/-! ### `s.split(sep)` -/

/-- What is left of a separator is passed over. -/
theorem splitGo_skip (sep acc : Text) : ∀ (x y : Text),
    splitGo sep x.length acc (x ++ y) = splitGo sep 0 acc y
  | [], _ => rfl
  | _ :: x, y => splitGo_skip sep acc x y

/-- A separator that starts inside `x` lies in `x` and the start of the next separator. -/
theorem infix_of_prefix_append {sep x y : Text} (hx : x ≠ []) (h : sep <+: x ++ (sep ++ y)) :
    sep <+: x ++ sep.dropLast := by
  refine List.prefix_of_prefix_length_le h ?_ ?_
  · exact (List.prefix_append_right_inj x).mpr ((List.dropLast_prefix sep).trans (List.prefix_append sep y))
  · have := List.length_pos_of_ne_nil hx
    rw [List.length_append, List.length_dropLast]
    omega

theorem not_infix_of_cons {sep x : Text} {c : Char} (h : ¬ sep <:+: c :: x) : ¬ sep <:+: x :=
  fun hx => h (hx.trans (List.suffix_cons c x).isInfix)

/-- The piece in front of a separator is cut off. -/
theorem splitGo_append {sep : Text} (hsep : sep ≠ []) (y : Text) : ∀ (x acc : Text),
    ¬ sep <:+: x ++ sep.dropLast →
      splitGo sep 0 acc (x ++ (sep ++ y)) = (acc.reverse ++ x) :: splitGo sep 0 [] y
  | [], acc, _ => by
    obtain ⟨c, cs, rfl⟩ := List.exists_cons_of_ne_nil hsep
    have hpre : (c :: cs).isPrefixOf (c :: (cs ++ y)) = true :=
      List.isPrefixOf_iff_prefix.mpr (List.prefix_append (c :: cs) y)
    rw [List.nil_append, List.cons_append, splitGo, if_pos hpre, List.append_nil]
    exact congrArg (acc.reverse :: ·) (splitGo_skip (c :: cs) [] cs y)
  | c :: x, acc, h => by
    have hpre : ¬ sep.isPrefixOf (c :: (x ++ (sep ++ y))) = true := fun hpre =>
      h (infix_of_prefix_append (List.cons_ne_nil c x) (List.isPrefixOf_iff_prefix.mp hpre)).isInfix
    rw [List.cons_append, splitGo, if_neg hpre, splitGo_append hsep y x (c :: acc) (not_infix_of_cons h),
      List.reverse_cons, List.append_assoc, List.singleton_append]

theorem splitGo_of_not_infix {sep : Text} : ∀ (x acc : Text), ¬ sep <:+: x →
    splitGo sep 0 acc x = [acc.reverse ++ x]
  | [], acc, _ => by rw [splitGo, List.append_nil]
  | c :: x, acc, h => by
    have hpre : ¬ sep.isPrefixOf (c :: x) = true := fun hpre =>
      h (List.isPrefixOf_iff_prefix.mp hpre).isInfix
    rw [splitGo, if_neg hpre, splitGo_of_not_infix x (c :: acc) (not_infix_of_cons h),
      List.reverse_cons, List.append_assoc, List.singleton_append]

theorem split_append {sep x : Text} (hsep : sep ≠ []) (h : ¬ sep <:+: x ++ sep.dropLast) (y : Text) :
    split (x ++ (sep ++ y)) sep = x :: split y sep := splitGo_append hsep y x [] h

theorem split_of_not_infix {sep x : Text} (h : ¬ sep <:+: x) : split x sep = [x] :=
  splitGo_of_not_infix x [] h

/-- Pieces written one after the other, a separator in front of each, are found again. -/
theorem split_flatMap {sep : Text} (hsep : sep ≠ []) : ∀ {x : Text} {pieces : List Text},
    (∀ p ∈ x :: pieces, ¬ sep <:+: p ++ sep.dropLast) →
      split (x ++ pieces.flatMap (sep ++ ·)) sep = x :: pieces
  | x, [], h => by
    have hx : ¬ sep <:+: x := fun hin =>
      h x List.mem_cons_self (hin.trans (List.prefix_append x _).isInfix)
    rw [List.flatMap_nil, List.append_nil, split_of_not_infix hx]
  | x, p :: pieces, h => by
    rw [List.flatMap_cons, List.append_assoc, split_append hsep (h x List.mem_cons_self),
      split_flatMap hsep fun q hq => h q (List.mem_cons_of_mem _ hq)]

/-- A separator of two characters is a pair of neighbours. -/
theorem pair_infix_iff {a b : Char} : ∀ {s : Text},
    ¬ [a, b] <:+: s ↔ s.IsChain fun c d => ¬ (c = a ∧ d = b)
  | [] => by simp
  | [c] => by
    have hlen : ¬ [a, b] <:+: [c] := fun h => absurd h.length_le (by simp)
    simp [hlen]
  | c :: d :: s => by
    rw [List.isChain_cons_cons, ← pair_infix_iff (s := d :: s), List.infix_cons_iff,
      List.cons_prefix_cons, List.cons_prefix_cons]
    simp only [List.nil_prefix, and_true, not_or, eq_comm]

theorem not_pair_infix_append {a b : Char} {x y : Text} (hx : ¬ [a, b] <:+: x) (hy : ¬ [a, b] <:+: y)
    (h : x.getLast? = some a → y.head? ≠ some b) : ¬ [a, b] <:+: x ++ y := by
  rw [pair_infix_iff] at hx hy ⊢
  refine List.isChain_append.mpr ⟨hx, hy, ?_⟩
  rintro c hc d hd ⟨rfl, rfl⟩
  exact h hc hd

/-! ### `s.replace(old, new)` -/

/-- The rest of the text; `skip` characters of an `old` are still to be passed over. -/
def replaceGo (old new : Text) : ℕ → Text → Text
  | _, [] => []
  | 0, c :: cs =>
    if old.isPrefixOf (c :: cs) then new ++ replaceGo old new (old.length - 1) cs
    else c :: replaceGo old new 0 cs
  | skip + 1, _ :: cs => replaceGo old new skip cs

/-- `s.replace(old, new)` for an `old` that is not empty. -/
def replace (s old new : Text) : Text := replaceGo old new 0 s

theorem replaceGo_match {old s : Text} {c : Char} (new : Text) (h : old <+: c :: s) :
    replaceGo old new 0 (c :: s) = new ++ replaceGo old new (old.length - 1) s :=
  if_pos (List.isPrefixOf_iff_prefix.mpr h)

theorem replaceGo_copy {old s : Text} {c : Char} (new : Text) (h : ¬ old <+: c :: s) :
    replaceGo old new 0 (c :: s) = c :: replaceGo old new 0 s :=
  if_neg (mt List.isPrefixOf_iff_prefix.mp h)

/-- No occurrence reaches beyond a character that `old` does not have. -/
theorem prefix_append_cons_iff {old x y : Text} {c : Char} (hc : c ∉ old) :
    old <+: x ++ c :: y ↔ old <+: x := by
  refine ⟨fun h => ?_, fun h => h.trans (List.prefix_append x _)⟩
  by_cases hlen : old.length ≤ x.length
  · exact List.prefix_of_prefix_length_le h (List.prefix_append x _) hlen
  · have hx : x ++ [c] <+: x ++ c :: y := (List.prefix_append_right_inj x).mpr (List.prefix_append [c] y)
    have hlong : (x ++ [c]).length ≤ old.length := by
      rw [List.length_append, List.length_singleton]
      omega
    exact absurd ((List.prefix_of_prefix_length_le hx h hlong).subset (by simp)) hc

theorem replaceGo_append_cons {old : Text} {c : Char} (hold : old ≠ []) (hc : c ∉ old) (new y : Text) :
    ∀ (x : Text) {skip : ℕ}, skip ≤ x.length →
      replaceGo old new skip (x ++ c :: y) = replaceGo old new skip x ++ c :: replaceGo old new 0 y
  | [], 0, _ => by
    have hpre : ¬ old <+: c :: y := fun hpre =>
      hold (List.prefix_nil.mp ((prefix_append_cons_iff (x := []) hc).mp hpre))
    rw [List.nil_append, replaceGo_copy new hpre, replaceGo, List.nil_append]
  | [], _ + 1, h => absurd h (by simp)
  | d :: x, skip + 1, h => by
    rw [List.cons_append, replaceGo, replaceGo, replaceGo_append_cons hold hc new y x (by simpa using h)]
  | d :: x, 0, _ => by
    have hiff := prefix_append_cons_iff (x := d :: x) (y := y) hc
    by_cases hpre : old <+: d :: x
    · have hskip : old.length - 1 ≤ x.length := by
        have := hpre.length_le
        rw [List.length_cons] at this
        omega
      have happ : old <+: d :: (x ++ c :: y) := hiff.mpr hpre
      rw [List.cons_append, replaceGo_match new hpre, replaceGo_match new happ,
        replaceGo_append_cons hold hc new y x hskip, List.append_assoc]
    · have happ : ¬ old <+: d :: (x ++ c :: y) := mt hiff.mp hpre
      rw [List.cons_append, replaceGo_copy new hpre, replaceGo_copy new happ,
        replaceGo_append_cons hold hc new y x (Nat.zero_le _), List.cons_append]

/-- Text on both sides of such a character is replaced on its own. -/
theorem replace_append_cons {old : Text} {c : Char} (hold : old ≠ []) (hc : c ∉ old) (new x y : Text) :
    replace (x ++ c :: y) old new = replace x old new ++ c :: replace y old new :=
  replaceGo_append_cons hold hc new y x (Nat.zero_le _)

theorem replace_absent {old : Text} (new : Text) : ∀ {x : Text}, ¬ old <:+: x →
    replace x old new = x
  | [], _ => rfl
  | c :: x, h => by
    rw [replace, replaceGo_copy new fun hpre => h hpre.isInfix]
    exact congrArg (c :: ·) (replace_absent new (not_infix_of_cons h))

/-- An `old` in front is replaced first. -/
theorem replace_append_old {old : Text} (hold : old ≠ []) (new y : Text) :
    replace (old ++ y) old new = new ++ replace y old new := by
  obtain ⟨c, cs, rfl⟩ := List.exists_cons_of_ne_nil hold
  have hskip : ∀ x : Text, replaceGo (c :: cs) new x.length (x ++ y) = replaceGo (c :: cs) new 0 y := by
    intro x
    induction x with
    | nil => rfl
    | cons d x ih => exact ih
  rw [replace, List.cons_append, replaceGo_match (s := cs ++ y) new (List.prefix_append (c :: cs) y)]
  exact congrArg (new ++ ·) (hskip cs)

/-- Replacing by a character that may stand next to any other keeps a rule for neighbours. -/
theorem isChain_cons_replaceGo {R : Char → Char → Prop} {n : Char} (hl : ∀ c, R c n) (hr : ∀ c, R n c)
    (old : Text) : ∀ (s : Text) {skip : ℕ} {a : Char}, skip = 0 ∨ a = n → (a :: s).IsChain R →
      (a :: replaceGo old [n] skip s).IsChain R
  | [], _, a, _, _ => by
    rw [replaceGo]
    exact .singleton a
  | c :: s, 0, a, _, h => by
    rw [List.isChain_cons_cons] at h
    by_cases hpre : old <+: c :: s
    · -- whatever follows `n`, its neighbour is allowed
      have hn : (n :: s).IsChain R := List.isChain_cons.mpr ⟨fun d _ => hr d, h.2.tail⟩
      rw [replaceGo_match [n] hpre]
      exact .cons_cons (hl a) (isChain_cons_replaceGo hl hr old s (.inr rfl) hn)
    · rw [replaceGo_copy [n] hpre]
      exact .cons_cons h.1 (isChain_cons_replaceGo hl hr old s (.inl rfl) h.2)
  | c :: s, skip + 1, a, ha, h => by
    obtain rfl : a = n := ha.resolve_left (Nat.succ_ne_zero skip)
    have hn : (a :: s).IsChain R := List.isChain_cons.mpr ⟨fun d _ => hr d, h.tail.tail⟩
    rw [replaceGo]
    exact isChain_cons_replaceGo hl hr old s (.inr rfl) hn

theorem isChain_replace {R : Char → Char → Prop} {n : Char} (hl : ∀ c, R c n) (hr : ∀ c, R n c)
    (old : Text) {s : Text} (h : s.IsChain R) : (replace s old [n]).IsChain R := by
  have hn : (n :: s).IsChain R := List.isChain_cons.mpr ⟨fun d _ => hr d, h⟩
  exact (isChain_cons_replaceGo hl hr old s (.inl rfl) hn).tail

/-- A separator does not come about by replacing with a character that it does not have. -/
theorem not_pair_infix_replace {a b n : Char} (ha : n ≠ a) (hb : n ≠ b) (old : Text) {s : Text}
    (h : ¬ [a, b] <:+: s) : ¬ [a, b] <:+: replace s old [n] := by
  rw [pair_infix_iff] at h ⊢
  exact isChain_replace (fun c hc => hb hc.2) (fun c hc => ha hc.1) old h

end Python
