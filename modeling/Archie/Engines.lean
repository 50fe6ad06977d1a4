import Archie.Plugin.EndPoint
import Archie.Worker.EndPoint

/-! Both engines on the same run.

    QEMU counts an instruction for every end point inside it, but none in a TB whose end wraps; Unicorn
    counts a re-entered instruction twice and takes the first trigger for the first end point. Where
    that changes nothing, they stop at the configured instruction with the same report. -/

namespace Archie
open FirstStop

/-- Both engines start, stop at the first instruction at which some end point has been executed
    `counter` times, and report that end point. -/
def EnginesAgree (ends : List EndPoint) (faults : List Worker.Fault) (run : List Executed) : Prop :=
  ∃ qemu unicorn, Plugin.runQemu ends run = some qemu ∧
    Worker.emuStart ends faults run = some unicorn ∧
    EndsAsConfigured ends run qemu ∧ EndsAsConfigured ends run unicorn

/-- The numbers fit, and up to the end of the run the engines' ways of counting make no difference. -/
structure Comparable (ends : List EndPoint) (faults : List Worker.Fault) (run : List Executed) :
    Prop where
  fits : ∀ p ∈ ends, p.address < 2 ^ 64 ∧ p.counter < 2 ^ 32
  calls : ∀ i < run.length, (∀ j ≤ i, due executes ends (run.take j) = none) →
    due Plugin.callsBack ends (run.take (i + 1)) = due executes ends (run.take (i + 1)) ∧
    due Worker.enters ends (run.take (i + 1)) = due executes ends (run.take (i + 1))
  first : ∃ f, faults.head? = some f ∧ ∀ i < run.length, (∀ j ≤ i, due executes ends (run.take j) = none) →
    ∀ p, due executes ends (run.take (i + 1)) = some p →
      (p.address = f.trigger.address ↔ ends.head? = some p)

section Agree

variable {ends : List EndPoint} {run : List Executed} {p q : EndPoint}

theorem EndPoint.report_inj (hends : Configured ends) (hp : p ∈ ends) (hq : q ∈ ends)
    (h : p.report ends = q.report ends) : p = q :=
  List.inj_on_of_nodup_map hends.distinct hp hq (endReason_inj (Report.mk.inj h).1)

/-- The reports of an engine are the configured ones iff they are, instruction by instruction, up to
    the first one. -/
theorem endsAsConfigured_congr (hends : Configured ends) {calls : ℕ → Executed → ℕ}
    {report : EndPoint → Report} {outcome : Option (ℕ × Report)}
    (houtcome : ∀ i r, outcome = some (i, r) ↔
      Reports (fun pre e => (due calls ends (pre ++ [e])).map report) run i r) :
    EndsAsConfigured ends run outcome ↔ ∀ i < run.length,
      (∀ j ≤ i, due executes ends (run.take j) = none) →
      (due calls ends (run.take (i + 1))).map report
        = (due executes ends (run.take (i + 1))).map (EndPoint.report ends) := by
  have htake : ∀ {i : ℕ} {e : Executed}, run[i]? = some e → run.take i ++ [e] = run.take (i + 1) := by
    intro i e hi
    rw [List.take_add_one, hi]
    rfl
  rw [endsAsConfigured_iff hends]
  simp only [houtcome]
  rw [reports_congr_iff]
  constructor
  · intro h i hi hbefore
    have hget := List.getElem?_eq_getElem hi
    rw [← htake hget]
    refine h i _ hget fun j hj e' he' => ?_
    rw [htake he', hbefore (j + 1) hj]
    rfl
  · intro h i e hi hbefore
    rw [htake hi]
    refine h i (List.getElem?_eq_some_iff.mp hi).1 fun j hj => ?_
    refine due_take_eq_none hends (hj.trans (List.getElem?_eq_some_iff.mp hi).1.le) fun k hk e' he' => ?_
    exact Option.map_eq_none_iff.mp (hbefore k (lt_of_lt_of_le hk hj) e' he')

/-- Reports tell end points apart. -/
theorem map_report_iff (hends : Configured ends) {calls calls' : ℕ → Executed → ℕ} :
    (due calls ends run).map (EndPoint.report ends) = (due calls' ends run).map (EndPoint.report ends)
      ↔ due calls ends run = due calls' ends run := by
  refine ⟨fun h => ?_, fun h => by rw [h]⟩
  rcases hp : due calls ends run with _ | p <;> rcases hq : due calls' ends run with _ | q
  · rfl
  · rw [hp, hq] at h; cases h
  · rw [hp, hq] at h; cases h
  · rw [hp, hq] at h
    rw [EndPoint.report_inj hends (due_spec hp).1 (due_spec hq).1 (Option.some.inj h)]

theorem report_eq_iff {first : ℕ} : Worker.report first p = p.report ends ↔
    (p.address = first ↔ ends.head? = some p) := by
  rw [Worker.report, EndPoint.report, Report.mk.injEq]
  simp only [true_and]
  by_cases hfirst : p.address = first <;> by_cases hhead : ends.head? = some p <;> simp [hfirst, hhead]

theorem map_workerReport_iff (hends : Configured ends) {calls calls' : ℕ → Executed → ℕ} {first : ℕ} :
    (due calls ends run).map (Worker.report first) = (due calls' ends run).map (EndPoint.report ends)
      ↔ due calls ends run = due calls' ends run ∧ ∀ p, due calls' ends run = some p →
        (p.address = first ↔ ends.head? = some p) := by
  constructor
  · intro h
    rcases hp : due calls ends run with _ | p <;> rcases hq : due calls' ends run with _ | q
    · exact ⟨rfl, fun p hp => (nomatch hp)⟩
    · rw [hp, hq] at h; cases h
    · rw [hp, hq] at h; cases h
    · rw [hp, hq] at h
      have hreport : Worker.report first p = q.report ends := Option.some.inj h
      obtain rfl : p = q := List.inj_on_of_nodup_map hends.distinct (due_spec hp).1 (due_spec hq).1
        (endReason_inj (Report.mk.inj hreport).1)
      refine ⟨rfl, fun p' hp' => ?_⟩
      obtain rfl := Option.some.inj hp'
      exact report_eq_iff.mp hreport
  · rintro ⟨hsame, hfirst⟩
    rw [hsame]
    rcases hq : due calls' ends run with _ | q
    · rfl
    · exact congrArg some (report_eq_iff.mpr (hfirst q hq))

/-- One end point, reached at once. -/
def oneEnd : List EndPoint := [⟨0x100, 1⟩]

theorem oneEnd_configured : Configured oneEnd :=
  ⟨List.cons_ne_nil _ _, List.nodup_singleton _, fun p hp => by rw [List.mem_singleton.mp hp]⟩

def oneInsn : List Executed := [⟨0x100, 4, by decide, 0x100, 4, le_rfl, le_rfl, false⟩]

/-- A fault that is triggered somewhere. -/
def faultAt (trigger : ℕ) : Worker.Fault := ⟨⟨trigger, 1⟩, 0x2000, .data, .set0, 1, 0, 1⟩

theorem total_congr {calls calls' : ℕ → Executed → ℕ} {a : ℕ} (h : ∀ e ∈ run, calls a e = calls' a e) :
    total calls run a = total calls' run a :=
  congrArg List.sum (List.map_congr_left h)

/-- It makes none where no TB wraps and no instruction hides an end point or is re-entered at one. -/
theorem comparable_of_exact {faults : List Worker.Fault} {f : Worker.Fault} (hf : faults.head? = some f)
    (hfits : ∀ p ∈ ends, p.address < 2 ^ 64 ∧ p.counter < 2 ^ 32)
    (hwraps : ∀ e ∈ run, e.tbVaddr + e.tbSize < 2 ^ 64)
    (hhidden : ∀ e ∈ run, ∀ p ∈ ends, e.address ≤ p.address → p.address < e.address + e.size →
      e.address = p.address)
    (hreentered : ∀ e ∈ run, ∀ p ∈ ends, e.address = p.address → e.reentered = false)
    (hfirst : ∀ p ∈ ends, p.address = f.trigger.address ↔ ends.head? = some p) :
    Comparable ends faults run := by
  have hcalls' : ∀ e ∈ run, ∀ p ∈ ends, Plugin.callsBack p.address e = executes p.address e := by
    intro e he p hp
    rw [Plugin.callsBack, executes]
    have hmet : Plugin.EndMet p.address e ↔ _ := Plugin.endMet_iff (hwraps e he)
    by_cases hat : e.address = p.address
    · have := e.size_pos
      rw [if_pos hat, if_pos (hmet.mpr (by omega))]
    · have hout : ¬ Plugin.EndMet p.address e := fun h =>
        hat (hhidden e he p hp (hmet.mp h).1 (hmet.mp h).2)
      rw [if_neg hat, if_neg hout]
  have henters : ∀ e ∈ run, ∀ p ∈ ends, Worker.enters p.address e = executes p.address e := by
    intro e he p hp
    rw [Worker.enters, executes]
    by_cases hat : e.address = p.address
    · rw [if_pos hat, if_pos hat, hreentered e he p hp hat]
      rfl
    · rw [if_neg hat, if_neg hat]
  have hdue : ∀ {calls : ℕ → Executed → ℕ}, (∀ e ∈ run, ∀ p ∈ ends, calls p.address e
      = executes p.address e) → ∀ i, due calls ends (run.take i) = due executes ends (run.take i) := by
    intro calls hcalls i
    refine List.find?_congr fun p hp => ?_
    rw [total_congr fun e he => hcalls e (List.mem_of_mem_take he) p hp]
  refine ⟨hfits, fun i _ _ => ⟨hdue hcalls' (i + 1), hdue henters (i + 1)⟩, f, hf, ?_⟩
  exact fun i _ _ p hp => hfirst p (due_spec hp).1

end Agree

end Archie
