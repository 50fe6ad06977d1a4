import Mathlib

/-! Runs of a step function that may fail, over an arbitrary state and event type.

    `run` threads the state through a list of events and stops at the first failing step.
    `Always P` says that `P` holds in every state a run passes through, `EveryStep C` that every
    step it takes meets `C`. The three rules relate the two through an inductive invariant:

        I s, C s e, step s e = s'  ⟹  I s'            (kept)
        I s                        ⟹  P s              (strong enough)
        I s, ¬ C s e               ⟹  ¬ P (step s e)   (needed)                              -/

namespace Run

variable {σ ε : Type*} (step : σ → ε → Option σ)

/-- The state after a list of events, `none` once a step has failed. -/
def run : σ → List ε → Option σ
  | s, [] => some s
  | s, e :: es => (step s e).bind fun s' => run s' es

/-- `P` holds in every state that a run of the events passes through. -/
def Always (P : σ → Prop) : σ → List ε → Prop
  | s, [] => P s
  | s, e :: es => P s ∧ ∀ s', step s e = some s' → Always P s' es

/-- Every step that a run of the events takes meets `C`. -/
def EveryStep (C : σ → ε → Prop) : σ → List ε → Prop
  | _, [] => True
  | s, e :: es => C s e ∧ ∀ s', step s e = some s' → EveryStep C s' es

variable {step} {I P : σ → Prop} {C : σ → ε → Prop}

theorem run_append (s : σ) (es fs : List ε) :
    run step s (es ++ fs) = (run step s es).bind fun s' => run step s' fs := by
  induction es generalizing s with
  | nil => simp [run]
  | cons e es ih =>
    simp only [List.cons_append, run]
    cases step s e with
    | none => rfl
    | some s' => simpa using ih s'

theorem Always.head {s : σ} : ∀ {es : List ε}, Always step P s es → P s
  | [], h => h
  | _ :: _, h => h.1

/-- It then holds in the last state. -/
theorem Always.last : ∀ {s : σ} {es : List ε} {s' : σ}, Always step P s es → run step s es = some s' →
    P s'
  | s, [], s', h, hr => by
    simp only [run, Option.some.injEq] at hr
    exact hr ▸ h
  | s, e :: es, s', h, hr => by
    simp only [run, Option.bind_eq_some_iff] at hr
    obtain ⟨s₁, h₁, hr⟩ := hr
    exact Always.last (h.2 s₁ h₁) hr

/-- Where every step succeeds and keeps the invariant, every run succeeds. -/
theorem run_isSome (hP : ∀ s, I s → P s) (hstep : ∀ s e, I s → ∃ s', step s e = some s' ∧ I s') :
    ∀ {s : σ} (es : List ε), I s → (run step s es).isSome ∧ Always step P s es
  | s, [], hI => ⟨rfl, hP s hI⟩
  | s, e :: es, hI => by
    obtain ⟨s₁, h₁, hI₁⟩ := hstep s e hI
    have hrest := run_isSome hP hstep es hI₁
    refine ⟨by simpa only [run, h₁, Option.bind_some] using hrest.1, hP s hI, fun s' h' => ?_⟩
    obtain rfl : s₁ = s' := Option.some.inj (h₁.symm.trans h')
    exact hrest.2

/-- An invariant that every allowed step keeps holds after the run. -/
theorem inv_run (hstep : ∀ s e s', I s → C s e → step s e = some s' → I s') :
    ∀ {s : σ} {es : List ε} {s' : σ}, I s → EveryStep step C s es → run step s es = some s' → I s'
  | s, [], s', hI, _, hr => by
    simp only [run, Option.some.injEq] at hr
    exact hr ▸ hI
  | s, e :: es, s', hI, hC, hr => by
    simp only [run, Option.bind_eq_some_iff] at hr
    obtain ⟨s₁, h₁, hr⟩ := hr
    exact inv_run hstep (hstep s e s₁ hI hC.1 h₁) (hC.2 s₁ h₁) hr

/-- What follows from the invariant holds in every state of the run. -/
theorem always_of_everyStep (hP : ∀ s, I s → P s)
    (hstep : ∀ s e s', I s → C s e → step s e = some s' → I s') :
    ∀ {s : σ} {es : List ε}, I s → EveryStep step C s es → Always step P s es
  | s, [], hI, _ => hP s hI
  | s, e :: es, hI, hC => by
    refine ⟨hP s hI, fun s' h' => ?_⟩
    exact always_of_everyStep hP hstep (hstep s e s' hI hC.1 h') (hC.2 s' h')

/-- An invariant that every step keeps needs no condition. -/
theorem always_of_inv (hP : ∀ s, I s → P s) (hstep : ∀ s e s', I s → step s e = some s' → I s') :
    ∀ {s : σ} (es : List ε), I s → Always step P s es
  | s, [], hI => hP s hI
  | s, e :: es, hI => by
    refine ⟨hP s hI, fun s' h' => ?_⟩
    exact always_of_inv hP hstep es (hstep s e s' hI h')

/-- A condition on the events alone. -/
theorem everyStep_of_forall {D : ε → Prop} :
    ∀ {s : σ} {es : List ε}, (∀ e ∈ es, D e) → EveryStep step (fun _ e => D e) s es
  | _, [], _ => trivial
  | _, e :: _, h => ⟨h e List.mem_cons_self, fun _ _ =>
      everyStep_of_forall fun e' he' => h e' (List.mem_cons_of_mem e he')⟩

/-- Two conditions on the same run. -/
theorem EveryStep.and {D : σ → ε → Prop} : ∀ {s : σ} {es : List ε}, EveryStep step C s es →
    EveryStep step D s es → EveryStep step (fun s e => C s e ∧ D s e) s es
  | _, [], _, _ => trivial
  | _, _ :: _, h, h' => ⟨⟨h.1, h'.1⟩, fun s' hs => (h.2 s' hs).and (h'.2 s' hs)⟩

/-- The exact condition of a run property, where all events meet `D`: it holds throughout iff every
    step meets `C`, as a step outside `C` breaks it at once. -/
theorem always_iff_everyStep_of_forall {D : ε → Prop} (hP : ∀ s, I s → P s)
    (hstep : ∀ s e s', I s → D e → C s e → step s e = some s' → I s')
    (hbad : ∀ s e, I s → D e → ¬ C s e → ∃ s', step s e = some s' ∧ ¬ P s') :
    ∀ {s : σ} {es : List ε}, (∀ e ∈ es, D e) → I s → (Always step P s es ↔ EveryStep step C s es)
  | s, [], _, hI => iff_of_true (hP s hI) trivial
  | s, e :: es, hD, hI => by
    obtain ⟨hDe, hDes⟩ := List.forall_mem_cons.mp hD
    constructor
    · intro hA
      have hC : C s e := by
        by_contra hn
        obtain ⟨s', h', hP'⟩ := hbad s e hI hDe hn
        exact hP' (hA.2 s' h').head
      refine ⟨hC, fun s' h' => ?_⟩
      exact (always_iff_everyStep_of_forall hP hstep hbad hDes (hstep s e s' hI hDe hC h')).mp
        (hA.2 s' h')
    · intro hE
      refine ⟨hP s hI, fun s' h' => ?_⟩
      exact (always_iff_everyStep_of_forall hP hstep hbad hDes (hstep s e s' hI hDe hE.1 h')).mpr
        (hE.2 s' h')

/-- The exact condition over runs of arbitrary events. -/
theorem always_iff_everyStep (hP : ∀ s, I s → P s)
    (hstep : ∀ s e s', I s → C s e → step s e = some s' → I s')
    (hbad : ∀ s e, I s → ¬ C s e → ∃ s', step s e = some s' ∧ ¬ P s')
    {s : σ} {es : List ε} (hI : I s) : Always step P s es ↔ EveryStep step C s es :=
  always_iff_everyStep_of_forall (D := fun _ => True) hP (fun s e s' hI _ => hstep s e s' hI)
    (fun s e hI _ => hbad s e hI) (fun _ _ => trivial) hI

/-- Where each state outside the goal has an allowed step with a smaller rank, a run leads to it. -/
theorem exists_run_of_rank {D : ε → Prop} {G : σ → Prop} (rank : σ → ℕ)
    (hstep : ∀ s, I s → ¬ G s → ∃ e s', D e ∧ step s e = some s' ∧ I s' ∧ rank s' < rank s)
    (s : σ) (hI : I s) : ∃ es s', (∀ e ∈ es, D e) ∧ run step s es = some s' ∧ I s' ∧ G s' := by
  induction hrank : rank s using Nat.strong_induction_on generalizing s with
  | _ n ih =>
    by_cases hG : G s
    · exact ⟨[], s, nofun, rfl, hI, hG⟩
    · obtain ⟨e, s₁, he, hs₁, hI₁, hlt⟩ := hstep s hI hG
      obtain ⟨es, s', hes, hrun, hI', hG'⟩ := ih (rank s₁) (hrank ▸ hlt) s₁ hI₁ rfl
      refine ⟨e :: es, s', List.forall_mem_cons.mpr ⟨he, hes⟩, ?_, hI', hG'⟩
      rw [run, hs₁, Option.bind_some, hrun]

end Run
