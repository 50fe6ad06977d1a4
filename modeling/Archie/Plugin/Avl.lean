import Archie.Lib.AvlBalance

/-! `avl_probe` of lib/avl.c.

    The loop goes down once. It notes the directions from `y` on, the last node on the way that leans to
    a side; only from there on the new node changes balance factors, and only `y` may have to be rotated.

        root ─▸ … ─▸ z ─▸ y ─▸ p ─▸ … ─▸ q ─▸ n
                          └──────  da  ──────┘

    A node is given by the directions that lead to it, `true` is the link to the right. Following a null
    pointer, a failing assertion and writing behind the end of `da` are failures of the model.            -/

namespace Archie.Plugin

variable {κ β : Type*}

namespace Avl

open AvlTree

/-- `AVL_MAX_HEIGHT`, the length of `da` -/
def maxHeight : ℕ := 92

inductive Descent (β : Type*) where
  | duplicate (found : β)
  /-- the way to `y`, and from there to the free link -/
  | free (y da : List Bool)

section Probe

variable (cmp : κ → κ → Int) (item : κ) (v : β)

/-- The loop that goes down. -/
def descend : AvlTree κ β → List Bool → List Bool → Option (Descent β)
  | nil, y, da => some (.free y da)
  | node b l x w r, y, da =>
    if cmp item x = 0 then some (.duplicate w)
    else
      let top := if b ≠ 0 then y ++ da else y
      let dirs := if b ≠ 0 then [] else da
      if dirs.length < maxHeight then
        if 0 < cmp item x then descend r top (dirs ++ [true]) else descend l top (dirs ++ [false])
      else none

/-- Changes the subtree at the end of a way. -/
def atLink (f : AvlTree κ β → Option (AvlTree κ β)) : List Bool → AvlTree κ β → Option (AvlTree κ β)
  | [], t => f t
  | _ :: _, nil => none
  | true :: way, node b l x w r => (atLink f way r).map fun r => node b l x w r
  | false :: way, node b l x w r => (atLink f way l).map fun l => node b l x w r

/-- The loop over `da`, up to the new node. -/
def updateBalance : List Bool → AvlTree κ β → Option (AvlTree κ β)
  | [], t => some t
  | _ :: _, nil => none
  | true :: da, node b l x w r => (updateBalance da r).map fun r => node (b + 1) l x w r
  | false :: da, node b l x w r => (updateBalance da l).map fun l => node (b - 1) l x w r

/-- The rotations at `y`. -/
def rebalance : AvlTree κ β → Option (AvlTree κ β)
  | nil => none
  | node b l y v r =>
    if b = -2 then
      match l with
      | nil => none
      | node bx a x u c =>
        if bx = -1 then some (node 0 a x u (node 0 c y v r))
        else if bx = 1 then
          match c with
          | nil => none
          | node bw c₁ w z c₂ =>
            some (if bw = -1 then node 0 (node 0 a x u c₁) w z (node 1 c₂ y v r)
              else if bw = 0 then node 0 (node 0 a x u c₁) w z (node 0 c₂ y v r)
              else node 0 (node (-1) a x u c₁) w z (node 0 c₂ y v r))
        else none
    else if b = 2 then
      match r with
      | nil => none
      | node bx c x u a =>
        if bx = 1 then some (node 0 (node 0 l y v c) x u a)
        else if bx = -1 then
          match c with
          | nil => none
          | node bw c₁ w z c₂ =>
            some (if bw = 1 then node 0 (node (-1) l y v c₁) w z (node 0 c₂ x u a)
              else if bw = 0 then node 0 (node 0 l y v c₁) w z (node 0 c₂ x u a)
              else node 0 (node 0 l y v c₁) w z (node 1 c₂ x u a))
        else none
    else some (node b l y v r)

/-- The new node is linked, where the loop has ended. -/
def link : List Bool → AvlTree κ β → Option (AvlTree κ β) := atLink fun _ => some (node 0 nil item v nil)

/-- `avl_probe`: the tree and the item that the returned pointer leads to. Memory is never exhausted. -/
def avlProbe (t : AvlTree κ β) : Option (AvlTree κ β × β) :=
  match descend cmp item t [] [] with
  | none => none
  | some (.duplicate found) => some (t, found)
  | some (.free y da) => do
    let linked ← link item v (y ++ da) t
    match t with
    | nil => return (linked, v)
    | node _ _ _ _ _ => do
      let balanced ← atLink (fun t => (updateBalance da t).bind rebalance) y linked
      return (balanced, v)

/-- `avl_insert`: the duplicate, if there is one. -/
def avlInsert [DecidableEq β] (t : AvlTree κ β) : Option (AvlTree κ β × Option β) :=
  (avlProbe cmp item v t).map fun p => (p.1, if p.2 = v then none else some p.2)

end Probe

/-! ### The rotations -/

section Rebalance

variable {l r l' r' : AvlTree κ β} {x : κ} {w : β} {b : Int}

/-- A node that leans by one at most is left alone. -/
theorem rebalance_of_balanced {t : AvlTree κ β} (h : t.Balanced) (hne : t ≠ nil) : rebalance t = some t := by
  cases t with
  | nil => exact absurd rfl hne
  | node b l x w r =>
    obtain ⟨-, -, -, hlow, hhigh⟩ := h
    rw [rebalance.eq_def]
    dsimp only
    rw [if_neg (by omega), if_neg (by omega)]

theorem rebalance_left (h : (node b l x w r).Balanced) (hl : Grows l (l', true)) :
    rebalance (node (b - 1) l' x w r) = some (grownLeft b l' x w r).1 := by
  obtain ⟨-, -, hb, hlow, hhigh⟩ := h
  obtain ⟨hl', hheight, hleans⟩ : l'.Balanced ∧ l'.height = l.height + 1 ∧ (l ≠ nil → l'.balance ≠ 0) :=
    ⟨hl.balanced, hl.height, hl.leans rfl⟩
  rw [grownLeft, rebalance.eq_def]
  dsimp only
  split
  · next htwo =>
    have hnonempty : l ≠ nil := fun hnil => by
      rw [hnil, height] at hb
      omega
    have hlean := hleans hnonempty
    cases l' with
    | nil => exact absurd rfl hlean
    | node bx a y u c =>
      obtain ⟨-, hc, hbx, hlow', hhigh'⟩ := hl'
      simp only [balance] at hlean
      rw [rotateRight.eq_def]
      dsimp only
      split
      · rfl
      · -- the inner subtree is the higher one
        rw [if_pos (by omega)]
        cases c with
        | nil =>
          simp only [height] at hbx
          omega
        | node bw c₁ z q c₂ =>
          obtain ⟨-, -, -, hlow'', hhigh''⟩ := hc
          dsimp only
          split_ifs <;> first | rfl | omega
  · rw [if_neg (by omega)]

theorem rebalance_right (h : (node b l x w r).Balanced) (hr : Grows r (r', true)) :
    rebalance (node (b + 1) l x w r') = some (grownRight b l x w r').1 := by
  obtain ⟨-, -, hb, hlow, hhigh⟩ := h
  obtain ⟨hr', hheight, hleans⟩ : r'.Balanced ∧ r'.height = r.height + 1 ∧ (r ≠ nil → r'.balance ≠ 0) :=
    ⟨hr.balanced, hr.height, hr.leans rfl⟩
  rw [grownRight, rebalance.eq_def]
  dsimp only
  rw [if_neg (by omega)]
  split
  · next htwo =>
    have hnonempty : r ≠ nil := fun hnil => by
      rw [hnil, height] at hb
      omega
    have hlean := hleans hnonempty
    cases r' with
    | nil => exact absurd rfl hlean
    | node bx c y u a =>
      obtain ⟨hc, -, hbx, hlow', hhigh'⟩ := hr'
      simp only [balance] at hlean
      rw [rotateLeft.eq_def]
      dsimp only
      split
      · rfl
      · rw [if_pos (by omega)]
        cases c with
        | nil =>
          simp only [height] at hbx
          omega
        | node bw c₁ z q c₂ =>
          obtain ⟨-, -, -, hlow'', hhigh''⟩ := hc
          dsimp only
          split_ifs <;> first | rfl | omega
  · rfl

end Rebalance

/-! ### One way down -/

section Descent

variable {cmp : κ → κ → Int} {item : κ} {v : β}

/-- How the loop leaves a subtree: a node is there already, or the subtree grows, so that its balance
    factors and those above change, or the lowest leaning node takes up the new level. -/
inductive Ends (cmp : κ → κ → Int) (item : κ) (v : β) (t : AvlTree κ β) (y da : List Bool) : Prop
  | duplicate (found : β) (hdescend : descend cmp item t y da = some (.duplicate found))
      (hprobe : t.probe cmp item v = (t, false)) (hfind : t.find cmp item = some found)
  | grown (way : List Bool) (t' : AvlTree κ β) (hdescend : descend cmp item t y da = some (.free y (da ++ way)))
      (hprobe : t.probe cmp item v = (t', true)) (hfind : t.find cmp item = none)
      (hlink : (link item v way t).bind (updateBalance way) = some t')
  | kept (top dirs : List Bool) (t' : AvlTree κ β)
      (hdescend : descend cmp item t y da = some (.free (y ++ da ++ top) dirs))
      (hprobe : t.probe cmp item v = (t', false)) (hfind : t.find cmp item = none) (hne : t ≠ nil)
      (hlink : (link item v (top ++ dirs) t).bind
        (atLink (fun t => (updateBalance dirs t).bind rebalance) top) = some t')

variable {l r : AvlTree κ β} {x : κ} {w : β} {b : Int} {y da : List Bool}

/-- The way to a node is the way to `y` and the directions from there. -/
theorem top_append_dirs (b : Int) (y da : List Bool) :
    (if b ≠ 0 then y ++ da else y) ++ (if b ≠ 0 then [] else da) = y ++ da := by
  split <;> simp

/-- A node over one of its subtrees, the other one being given: `wrap` with its balance factor, `bump` with
    the one that the loop over `da` makes of it, `lift` with its rotation. -/
structure Level (b : Int) (dir : Bool) (wrap bump : AvlTree κ β → AvlTree κ β)
    (lift : AvlTree κ β → AvlTree κ β × Bool) (c : AvlTree κ β) : Prop where
  nonempty : wrap c ≠ nil
  atLink : ∀ f way c, atLink f (dir :: way) (wrap c) = (Avl.atLink f way c).map wrap
  update : ∀ way c, updateBalance (dir :: way) (wrap c) = (updateBalance way c).map bump
  rebalance : ∀ c', Grows c (c', true) → rebalance (bump c') = some (lift c').1
  zero : b = 0 → ∀ c', lift c' = (bump c', true)
  nonzero : b ≠ 0 → ∀ c', (lift c').2 = false

theorem level_right (h : (node b l x w r).Balanced) :
    Level b true (fun r => node b l x w r) (fun r => node (b + 1) l x w r)
      (fun r => grownRight b l x w r) r where
  nonempty := nofun
  atLink _ _ _ := rfl
  update _ _ := rfl
  rebalance _ hr := rebalance_right h hr
  zero hb c' := by simp [grownRight, hb]
  nonzero hb c' := by
    rw [grownRight]
    split
    · rfl
    · exact decide_eq_false hb

theorem level_left (h : (node b l x w r).Balanced) :
    Level b false (fun l => node b l x w r) (fun l => node (b - 1) l x w r)
      (fun l => grownLeft b l x w r) l where
  nonempty := nofun
  atLink _ _ _ := rfl
  update _ _ := rfl
  rebalance _ hl := rebalance_left h hl
  zero hb c' := by simp [grownLeft, hb]
  nonzero hb c' := by
    rw [grownLeft]
    split
    · rfl
    · exact decide_eq_false hb

/-- One level up. -/
theorem Ends.up {dir : Bool} {wrap bump : AvlTree κ β → AvlTree κ β} {lift : AvlTree κ β → AvlTree κ β × Bool}
    {c : AvlTree κ β} (hlevel : Level b dir wrap bump lift c) (hgrows : Grows c (c.probe cmp item v))
    (hdown : descend cmp item (wrap c) y da =
      descend cmp item c (if b ≠ 0 then y ++ da else y) ((if b ≠ 0 then [] else da) ++ [dir]))
    (hprobe : (wrap c).probe cmp item v =
      if (c.probe cmp item v).2 = true then lift (c.probe cmp item v).1
      else (wrap (c.probe cmp item v).1, false))
    (hfind' : (wrap c).find cmp item = c.find cmp item)
    (hc : Ends cmp item v c (if b ≠ 0 then y ++ da else y) ((if b ≠ 0 then [] else da) ++ [dir])) :
    Ends cmp item v (wrap c) y da := by
  cases hc with
  | duplicate found hdescend hsub hfind =>
    rw [hsub] at hprobe
    exact .duplicate found (hdown.trans hdescend) hprobe (hfind'.trans hfind)
  | grown way c' hdescend hsub hfind hlink =>
    rw [hsub] at hprobe hgrows
    obtain ⟨linked, hlinked, hupdate⟩ := Option.bind_eq_some_iff.mp hlink
    have hlinked' : link item v (dir :: way) (wrap c) = some (wrap linked) := by
      rw [link, hlevel.atLink, ← link, hlinked, Option.map_some]
    have hupdate' : updateBalance (dir :: way) (wrap linked) = some (bump c') := by
      rw [hlevel.update, hupdate, Option.map_some]
    by_cases hb : b = 0
    · refine .grown (dir :: way) (bump c') ?_ (hprobe.trans (hlevel.zero hb c')) (hfind'.trans hfind) ?_
      · simpa [hb] using hdown.trans hdescend
      · rw [hlinked', Option.bind_some, hupdate']
    · refine .kept [] (dir :: way) (lift c').1 ?_ ?_ (hfind'.trans hfind) hlevel.nonempty ?_
      · simpa [hb] using hdown.trans hdescend
      · exact hprobe.trans (Prod.ext rfl (hlevel.nonzero hb c'))
      · rw [List.nil_append, hlinked', Option.bind_some, Avl.atLink, hupdate', Option.bind_some]
        exact hlevel.rebalance c' hgrows
  | kept top dirs c' hdescend hsub hfind hne hlink =>
    rw [hsub] at hprobe
    obtain ⟨linked, hlinked, hbalance⟩ := Option.bind_eq_some_iff.mp hlink
    refine .kept (dir :: top) dirs (wrap c') ?_ hprobe (hfind'.trans hfind) hlevel.nonempty ?_
    · rw [hdown, hdescend, ← List.append_assoc, top_append_dirs]
      simp
    · rw [List.cons_append, link, hlevel.atLink, ← link, hlinked, Option.map_some, Option.bind_some,
        hlevel.atLink, hbalance, Option.map_some]

theorem ends (cmp : κ → κ → Int) (item : κ) (v : β) : ∀ {t : AvlTree κ β} {y da : List Bool}, t.Balanced →
    da.length + t.height ≤ maxHeight → Ends cmp item v t y da
  | nil, y, da, _, _ => .grown [] _ (by rw [descend, List.append_nil]) rfl rfl rfl
  | node b l x w r, y, da, h, hlength => by
    simp only [height] at hlength
    have hdirs : (if b ≠ 0 then [] else da).length ≤ da.length := by
      split
      · exact Nat.zero_le _
      · exact le_rfl
    by_cases hsame : cmp item x = 0
    · refine .duplicate w (by rw [descend, if_pos hsame]) (by rw [probe, if_pos hsame]) ?_
      rw [find, if_neg (by omega), if_neg (by omega)]
    · by_cases hright : 0 < cmp item x
      · refine .up (level_right h) (grows_probe cmp item v h.2.1) ?_ ?_ ?_ (ends cmp item v h.2.1 ?_)
        · rw [descend, if_neg hsame]
          dsimp only
          rw [if_pos (by omega), if_pos hright]
        · rw [probe, if_neg hsame, if_pos hright]
        · rw [find, if_neg (by omega), if_pos hright]
        · rw [List.length_append, List.length_singleton]
          omega
      · refine Ends.up (c := l) (level_left h) (grows_probe cmp item v h.1) ?_ ?_ ?_ (ends cmp item v h.1 ?_)
        · rw [descend, if_neg hsame]
          dsimp only
          rw [if_pos (by omega), if_neg hright]
        · rw [probe, if_neg hsame, if_neg hright]
        · rw [find, if_pos (by omega)]
        · rw [List.length_append, List.length_singleton]
          omega

end Descent

/-- On a balanced tree that is not too high, `avl_probe` follows no null pointer, its assertion holds, it
    stays inside `da`, and it inserts. -/
theorem avlProbe_eq (cmp : κ → κ → Int) (item : κ) (v : β) {t : AvlTree κ β} (h : t.Balanced)
    (hheight : t.height ≤ maxHeight) :
    avlProbe cmp item v t = some (t.insert cmp item v, (t.find cmp item).getD v) := by
  have hends : Ends cmp item v t [] [] := ends cmp item v h (by simpa using hheight)
  rw [AvlTree.insert]
  cases hends with
  | duplicate found hdescend hprobe hfind =>
    rw [avlProbe, hdescend, hprobe, hfind]
    rfl
  | grown way t' hdescend hprobe hfind hlink =>
    obtain ⟨linked, hlinked, hupdate⟩ := Option.bind_eq_some_iff.mp hlink
    have hgrows := grows_probe cmp item v h
    rw [hprobe] at hgrows
    rw [avlProbe, hdescend, hprobe, hfind]
    dsimp only
    rw [List.nil_append, List.nil_append, hlinked]
    cases t with
    | nil =>
      cases way with
      | nil => exact congrArg (·.map fun t => (t, v)) hupdate
      | cons dir way => cases hlinked
    | node b l x w r =>
      have hne : t' ≠ nil := fun hnil => by
        have hheight' := hgrows.height
        rw [hnil] at hheight'
        cases hheight'
      have hbalanced : (updateBalance way linked).bind rebalance = some t' :=
        (congrArg (·.bind rebalance) hupdate).trans (rebalance_of_balanced hgrows.balanced hne)
      exact congrArg (·.bind fun t => some (t, v)) hbalanced
  | kept top dirs t' hdescend hprobe hfind hne hlink =>
    obtain ⟨linked, hlinked, hbalance⟩ := Option.bind_eq_some_iff.mp hlink
    rw [avlProbe, hdescend, hprobe, hfind]
    dsimp only
    rw [List.nil_append, List.nil_append, hlinked]
    cases t with
    | nil => exact absurd rfl hne
    | node b l x w r => exact congrArg (·.bind fun t => some (t, v)) hbalance

/-- So `avl_insert` returns nothing when it has inserted. -/
theorem avlInsert_eq [DecidableEq β] (cmp : κ → κ → Int) (item : κ) (v : β) {t : AvlTree κ β} (h : t.Balanced)
    (hheight : t.height ≤ maxHeight) (hfind : t.find cmp item = none) :
    avlInsert cmp item v t = some (t.insert cmp item v, none) := by
  rw [avlInsert, avlProbe_eq cmp item v h hheight, hfind]
  simp

end Avl

end Archie.Plugin
