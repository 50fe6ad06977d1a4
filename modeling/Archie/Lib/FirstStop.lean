import Mathlib

/-! Runs that stop at the first event that meets a condition, over arbitrary states and events.

    `stop` runs a step function that either goes on or stops with a reason. `FirstAt P` is the first
    event at which `P` holds of the events before it and of the event. An invariant indexed by the
    events so far turns the one into the other:

        I pre s,   P pre e  ⟹  step s e = stop (r pre e)
        I pre s, ¬ P pre e  ⟹  step s e = s',  I (pre ++ [e]) s'                              -/

namespace FirstStop

variable {σ ε ρ : Type*}

/-- The index of the event that stops the run, with the reason. -/
def stop (step : σ → ε → Except ρ σ) : σ → List ε → Option (ℕ × ρ)
  | _, [] => none
  | s, e :: es => match step s e with
    | .error reason => some (0, reason)
    | .ok s' => (stop step s' es).map fun p => (p.1 + 1, p.2)

/-- Event `i` is the first one at which `P` holds. -/
def FirstAt (P : List ε → ε → Prop) (es : List ε) (i : ℕ) (e : ε) : Prop :=
  es[i]? = some e ∧ P (es.take i) e ∧ ∀ j < i, ∀ e', es[j]? = some e' → ¬ P (es.take j) e'

variable {P Q : List ε → ε → Prop} {es : List ε} {e : ε}

theorem not_firstAt_nil {i : ℕ} : ¬ FirstAt P [] i e := fun h => nomatch h.1

theorem firstAt_cons_zero : FirstAt P (e :: es) 0 e ↔ P [] e := by
  constructor
  · exact fun h => h.2.1
  · exact fun h => ⟨rfl, h, fun j hj => absurd hj (Nat.not_lt_zero j)⟩

theorem firstAt_cons_succ {i : ℕ} {e' : ε} : FirstAt P (e :: es) (i + 1) e' ↔
    ¬ P [] e ∧ FirstAt (fun pre => P (e :: pre)) es i e' := by
  constructor
  · rintro ⟨hi, hP, hbefore⟩
    refine ⟨hbefore 0 (Nat.succ_pos i) e rfl, hi, hP, fun j hj x hx => ?_⟩
    exact hbefore (j + 1) (Nat.succ_lt_succ hj) x hx
  · rintro ⟨hno, hi, hP, hbefore⟩
    refine ⟨hi, hP, fun j hj x hx => ?_⟩
    cases j with
    | zero =>
      obtain rfl : e = x := Option.some.inj hx
      exact hno
    | succ j => exact hbefore j (Nat.lt_of_succ_lt_succ hj) x hx

/-- Where no event of a first part meets the condition, the first one is behind it. -/
theorem firstAt_append {pre : List ε} (hpre : ∀ j e, pre[j]? = some e → ¬ P (pre.take j) e) {i : ℕ} :
    FirstAt P (pre ++ es) i e ↔ ∃ k, i = pre.length + k ∧ FirstAt (fun before => P (pre ++ before)) es k e := by
  induction pre generalizing P i with
  | nil => simp
  | cons x pre ih =>
    have hx : ¬ P [] x := hpre 0 x rfl
    have ih := @ih (fun before => P (x :: before)) fun j e hj => hpre (j + 1) e hj
    cases i with
    | zero =>
      refine iff_of_false (fun h => ?_) ?_
      · obtain rfl : x = e := Option.some.inj h.1
        exact hx h.2.1
      · rintro ⟨k, hk, -⟩
        rw [List.length_cons] at hk
        omega
    | succ i =>
      rw [List.cons_append, firstAt_cons_succ, ih]
      simp only [hx, not_false_iff, true_and, List.length_cons, List.cons_append]
      refine exists_congr fun k => and_congr_left fun _ => ?_
      omega

/-- After some events the run stops at the next one that meets the condition. -/
theorem stop_after_iff {step : σ → ε → Except ρ σ} {I : List ε → σ → Prop} {r : List ε → ε → ρ}
    (hstop : ∀ pre s e, I pre s → P pre e → step s e = .error (r pre e))
    (hgo : ∀ pre s e, I pre s → ¬ P pre e → ∃ s', step s e = .ok s' ∧ I (pre ++ [e]) s')
    {pre : List ε} {s : σ} (hI : I pre s) {i : ℕ} {reason : ρ} :
    stop step s es = some (i, reason) ↔
      ∃ e, FirstAt (fun pre' => P (pre ++ pre')) es i e ∧ reason = r (pre ++ es.take i) e := by
  induction es generalizing pre s i with
  | nil => exact ⟨nofun, fun ⟨_, h, _⟩ => absurd h not_firstAt_nil⟩
  | cons e es ih =>
    by_cases hP : P pre e
    · rw [stop, hstop pre s e hI hP]
      have hnil : P (pre ++ []) e := by rw [List.append_nil]; exact hP
      constructor
      · intro h
        obtain ⟨rfl, rfl⟩ := Prod.mk.inj (Option.some.inj h)
        exact ⟨e, firstAt_cons_zero.mpr hnil, by rw [List.take_zero, List.append_nil]⟩
      · rintro ⟨x, hx, rfl⟩
        cases i with
        | zero =>
          obtain rfl : e = x := Option.some.inj hx.1
          rw [List.take_zero, List.append_nil]
        | succ i => exact absurd hnil (firstAt_cons_succ.mp hx).1
    · obtain ⟨s', hs', hI'⟩ := hgo pre s e hI hP
      have hnil : ¬ P (pre ++ []) e := by rw [List.append_nil]; exact hP
      have happend : ∀ l : List ε, pre ++ [e] ++ l = pre ++ e :: l := fun l => by
        rw [List.append_assoc, List.singleton_append]
      have ih := @ih (pre ++ [e]) s' hI'
      simp only [happend] at ih
      simp only [stop, hs', Option.map_eq_some_iff]
      constructor
      · rintro ⟨⟨j, reason'⟩, hj, heq⟩
        obtain ⟨rfl, rfl⟩ := Prod.mk.inj heq
        obtain ⟨x, hx, hr⟩ := ih.mp hj
        exact ⟨x, firstAt_cons_succ.mpr ⟨hnil, hx⟩, hr⟩
      · rintro ⟨x, hx, hr⟩
        cases i with
        | zero =>
          obtain rfl : e = x := Option.some.inj hx.1
          exact absurd hx.2.1 hnil
        | succ i => exact ⟨(i, reason), ih.mpr ⟨x, (firstAt_cons_succ.mp hx).2, hr⟩, rfl⟩

/-- The run stops at the first event that meets the condition, and nowhere else. -/
theorem stop_eq_some_iff {step : σ → ε → Except ρ σ} {I : List ε → σ → Prop} {r : List ε → ε → ρ}
    (hstop : ∀ pre s e, I pre s → P pre e → step s e = .error (r pre e))
    (hgo : ∀ pre s e, I pre s → ¬ P pre e → ∃ s', step s e = .ok s' ∧ I (pre ++ [e]) s')
    {s : σ} (hI : I [] s) {i : ℕ} {reason : ρ} :
    stop step s es = some (i, reason) ↔ ∃ e, FirstAt P es i e ∧ reason = r (es.take i) e :=
  stop_after_iff hstop hgo hI

/-- Two conditions have the same first event iff they agree up to the first event of one of them. -/
theorem firstAt_congr_iff : (∀ i e, FirstAt P es i e ↔ FirstAt Q es i e) ↔
    ∀ i e, es[i]? = some e → (∀ j < i, ∀ e', es[j]? = some e' → ¬ Q (es.take j) e') →
      (P (es.take i) e ↔ Q (es.take i) e) := by
  induction es generalizing P Q with
  | nil =>
    refine ⟨fun _ _ _ h => (nomatch h), fun _ _ _ => ?_⟩
    exact ⟨fun h => absurd h not_firstAt_nil, fun h => absurd h not_firstAt_nil⟩
  | cons e es ih =>
    have ih := @ih (fun pre => P (e :: pre)) (fun pre => Q (e :: pre))
    constructor
    · intro h
      have hhead := h 0 e
      rw [firstAt_cons_zero, firstAt_cons_zero] at hhead
      intro i x hi hbefore
      cases i with
      | zero =>
        obtain rfl : e = x := Option.some.inj hi
        exact hhead
      | succ i =>
        have hQ : ¬ Q [] e := hbefore 0 (Nat.succ_pos i) e rfl
        refine ih.mp (fun j x => ?_) i x hi fun j hj x hx => hbefore (j + 1) (Nat.succ_lt_succ hj) x hx
        have hj := h (j + 1) x
        rw [firstAt_cons_succ, firstAt_cons_succ] at hj
        exact ⟨fun hP => (hj.mp ⟨mt hhead.mp hQ, hP⟩).2, fun hQ' => (hj.mpr ⟨hQ, hQ'⟩).2⟩
    · intro h i x
      have hhead : P [] e ↔ Q [] e := h 0 e rfl fun j hj => absurd hj (Nat.not_lt_zero j)
      cases i with
      | zero =>
        constructor
        · intro hP
          obtain rfl : e = x := Option.some.inj hP.1
          exact firstAt_cons_zero.mpr (hhead.mp hP.2.1)
        · intro hQ
          obtain rfl : e = x := Option.some.inj hQ.1
          exact firstAt_cons_zero.mpr (hhead.mpr hQ.2.1)
      | succ i =>
        rw [firstAt_cons_succ, firstAt_cons_succ, hhead]
        refine and_congr_right fun hQ => ih.mpr (fun j x hx hbefore => ?_) i x
        refine h (j + 1) x hx fun k hk y hy => ?_
        cases k with
        | zero =>
          obtain rfl : e = y := Option.some.inj hy
          exact hQ
        | succ k => exact hbefore k (Nat.lt_of_succ_lt_succ hk) y hy

/-! ### Reports -/

variable {D D' : List ε → ε → Option ρ}

/-- Event `i` is the first one with a report, and that is `r`. -/
def Reports (D : List ε → ε → Option ρ) (es : List ε) (i : ℕ) (r : ρ) : Prop :=
  ∃ e, FirstAt (fun pre e => (D pre e).isSome) es i e ∧ D (es.take i) e = some r

/-- A run that stops where there is a report returns the first one. -/
theorem stop_eq_some_iff_reports {step : σ → ε → Except ρ σ} {I : List ε → σ → Prop}
    (hstop : ∀ pre s e r, I pre s → D pre e = some r → step s e = .error r)
    (hgo : ∀ pre s e, I pre s → D pre e = none → ∃ s', step s e = .ok s' ∧ I (pre ++ [e]) s')
    {s : σ} (hI : I [] s) {i : ℕ} {reason : ρ} :
    stop step s es = some (i, reason) ↔ Reports D es i reason := by
  refine (stop_eq_some_iff (P := fun pre e => (D pre e).isSome) (r := fun pre e => (D pre e).getD reason)
    ?_ ?_ hI).trans ?_
  · intro pre s e hI hsome
    obtain ⟨r, hr⟩ := Option.isSome_iff_exists.mp hsome
    rw [hr]
    exact hstop pre s e r hI hr
  · intro pre s e hI hnone
    exact hgo pre s e hI (Option.not_isSome_iff_eq_none.mp hnone)
  · refine exists_congr fun e => and_congr_right fun hfirst => ?_
    obtain ⟨r, hr⟩ := Option.isSome_iff_exists.mp hfirst.2.1
    rw [hr, Option.getD_some, Option.some.injEq, eq_comm]

/-- Two sources of reports have the same first report iff they agree up to the first one. -/
theorem reports_congr_iff : (∀ i r, Reports D es i r ↔ Reports D' es i r) ↔
    ∀ i e, es[i]? = some e → (∀ j < i, ∀ e', es[j]? = some e' → D' (es.take j) e' = none) →
      D (es.take i) e = D' (es.take i) e := by
  have hsome : (∀ i r, Reports D es i r ↔ Reports D' es i r) → ∀ i e,
      FirstAt (fun pre e => (D pre e).isSome) es i e ↔ FirstAt (fun pre e => (D' pre e).isSome) es i e := by
    intro h i e
    constructor
    · intro hfirst
      obtain ⟨r, hr⟩ := Option.isSome_iff_exists.mp hfirst.2.1
      obtain ⟨e', hfirst', -⟩ := (h i r).mp ⟨e, hfirst, hr⟩
      obtain rfl := Option.some.inj (hfirst.1.symm.trans hfirst'.1)
      exact hfirst'
    · intro hfirst
      obtain ⟨r, hr⟩ := Option.isSome_iff_exists.mp hfirst.2.1
      obtain ⟨e', hfirst', -⟩ := (h i r).mpr ⟨e, hfirst, hr⟩
      obtain rfl := Option.some.inj (hfirst.1.symm.trans hfirst'.1)
      exact hfirst'
  constructor
  · intro h i e hi hbefore
    have hno : ∀ j < i, ∀ e', es[j]? = some e' → ¬ (D' (es.take j) e').isSome := fun j hj e' he' =>
      Option.not_isSome_iff_eq_none.mpr (hbefore j hj e' he')
    have hiff := firstAt_congr_iff.mp (hsome h) i e hi hno
    rcases hD' : D' (es.take i) e with _ | r
    · rw [hD'] at hiff
      exact Option.not_isSome_iff_eq_none.mp fun hD => Bool.false_ne_true (hiff.mp hD)
    · -- the report is the first one of both
      obtain ⟨e', hfirst, hr⟩ := (h i r).mpr ⟨e, ⟨hi, Option.isSome_of_eq_some hD', hno⟩, hD'⟩
      obtain rfl := Option.some.inj (hi.symm.trans hfirst.1)
      exact hr
  · intro h i r
    have hfirst : ∀ i e, FirstAt (fun pre e => (D pre e).isSome) es i e ↔
        FirstAt (fun pre e => (D' pre e).isSome) es i e := by
      refine firstAt_congr_iff.mpr fun i e hi hbefore => ?_
      rw [h i e hi fun j hj e' he' => Option.not_isSome_iff_eq_none.mp (hbefore j hj e' he')]
    refine exists_congr fun e => ?_
    rw [hfirst i e]
    refine and_congr_right fun hat => ?_
    rw [h i e hat.1 fun j hj e' he' => Option.not_isSome_iff_eq_none.mp (hat.2.2 j hj e' he')]

end FirstStop
