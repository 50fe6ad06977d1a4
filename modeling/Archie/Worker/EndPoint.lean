import Archie.EndPoint
import Archie.Worker.Emulation

/-! The end points in Unicorn: hooks.rs and what lib.rs makes of their report.

    An end point is a code hook on its address and a counter in a map. An instruction fault in the TB
    being executed stops emulation behind the end hook; the main loop re-enters at the same
    instruction, so its end hook runs again. -/

namespace Archie.Worker
open FirstStop

/-- The end points as `initialize_end_hook` extracts them, an error for what does not fit. -/
def extractEnd (ends : List EndPoint) : Option (List (ℕ × ℕ)) :=
  if ∀ p ∈ ends, p.address < 2 ^ 64 ∧ p.counter < 2 ^ 32 then
    some (ends.map fun p => (p.address, p.counter))
  else none

/-- The counters; `first_endpoint` is the trigger of the first fault, a panic if there is none. -/
def startEnd (ends : List EndPoint) : List Fault → Option (ℕ × List (ℕ × ℕ))
  | [] => none
  | f :: _ => (extractEnd ends).map fun ends =>
    (f.trigger.address, ends.foldl (fun endpoints e => insertKey endpoints e.1 e.2) [])

/-- `end_hook_cb` on the counters; an address without an end point has no hook. -/
def endHook (firstEndpoint : ℕ) (endpoints : List (ℕ × ℕ)) (address : ℕ) :
    Except Report (List (ℕ × ℕ)) :=
  match endpoints.lookup address with
  | none => .ok endpoints
  | some counter =>
    if counter > 1 then .ok (insertKey endpoints address (counter - 1))
    else .error ⟨endReason address 1, if address = firstEndpoint then 1 else 0⟩

def execInsn (firstEndpoint : ℕ) (endpoints : List (ℕ × ℕ)) (e : Executed) :
    Except Report (List (ℕ × ℕ)) := do
  let endpoints ← endHook firstEndpoint endpoints e.address
  if e.reentered then endHook firstEndpoint endpoints e.address else .ok endpoints

/-- Unicorn from the start point on: where it stops, with which report. -/
def emuStart (ends : List EndPoint) (faults : List Fault) (run : List Executed) :
    Option (Option (ℕ × Report)) :=
  (startEnd ends faults).map fun (firstEndpoint, endpoints) => stop (execInsn firstEndpoint) endpoints run

/-- The calls of an instruction for an end point in Unicorn. -/
def enters (address : ℕ) (e : Executed) : ℕ :=
  if e.address = address then (if e.reentered then 2 else 1) else 0

/-- The report of an end point, which takes the first fault's trigger for the first end point. -/
def report (firstEndpoint : ℕ) (p : EndPoint) : Report :=
  ⟨endReason p.address 1, if p.address = firstEndpoint then 1 else 0⟩

theorem enters_local : Local enters := fun _ _ hne => if_neg hne

section Insn

variable {ends : List EndPoint} {pre : List Executed} {e : Executed} {p : EndPoint} {first : ℕ}
  {endpoints endpoints' : List (ℕ × ℕ)}

/-- The map holds what is left of each counter. -/
structure Counts (ends : List EndPoint) (pre : List Executed) (endpoints : List (ℕ × ℕ)) : Prop where
  some : ∀ p ∈ ends, endpoints.lookup p.address = some (p.counter - total enters pre p.address)
  none : ∀ a, (∀ p ∈ ends, p.address ≠ a) → endpoints.lookup a = none

theorem endHook_stop {a n : ℕ} (hlookup : endpoints.lookup a = some n) (hn : n ≤ 1) :
    endHook first endpoints a = .error ⟨endReason a 1, if a = first then 1 else 0⟩ := by
  simp only [endHook, hlookup, if_neg (Nat.not_lt.mpr hn)]

theorem endHook_go (first : ℕ) {a n : ℕ} (hlookup : endpoints.lookup a = some n) (hn : 1 < n) :
    endHook first endpoints a = .ok (insertKey endpoints a (n - 1)) := by
  simp only [endHook, hlookup, if_pos hn]

/-- The end hooks of an instruction at an end point with `n` calls left. -/
theorem execInsn_of_lookup (first : ℕ) {n : ℕ} (hlookup : endpoints.lookup e.address = some n) :
    (n ≤ enters e.address e → execInsn first endpoints e
      = .error ⟨endReason e.address 1, if e.address = first then 1 else 0⟩) ∧
    (enters e.address e < n → ∃ endpoints', execInsn first endpoints e = .ok endpoints' ∧
      ∀ a, endpoints'.lookup a = if a = e.address then some (n - enters e.address e)
        else endpoints.lookup a) := by
  rw [enters, if_pos rfl]
  by_cases hn : n ≤ 1
  · refine ⟨fun _ => by rw [execInsn, endHook_stop hlookup hn]; rfl, fun hlt => ?_⟩
    split at hlt <;> omega
  · have hfirst := endHook_go first hlookup (Nat.not_le.mp hn)
    have hlookup' : (insertKey endpoints e.address (n - 1)).lookup e.address = some (n - 1) := by
      rw [lookup_insertKey, if_pos rfl]
    rcases hre : e.reentered with _ | _
    · refine ⟨fun hle => absurd hle hn, fun _ => ⟨insertKey endpoints e.address (n - 1), ?_, fun a => ?_⟩⟩
      · rw [execInsn, hfirst, hre]
        rfl
      · rw [lookup_insertKey]
        rfl
    · -- the second call, after the re-entry
      refine ⟨fun hle => ?_, fun hlt => ⟨insertKey (insertKey endpoints e.address (n - 1)) e.address
        (n - 1 - 1), ?_, fun a => ?_⟩⟩
      · rw [execInsn, hfirst, hre]
        exact endHook_stop hlookup' (Nat.sub_le_of_le_add hle)
      · rw [execInsn, hfirst, hre]
        exact endHook_go first hlookup' (Nat.lt_sub_of_add_lt hlt)
      · rw [lookup_insertKey]
        by_cases ha : a = e.address
        · rw [if_pos ha, if_pos ha]
          rfl
        · rw [if_neg ha, if_neg ha, lookup_insertKey, if_neg ha]

/-- Other instructions have no end hook. -/
theorem execInsn_of_not (hlookup : endpoints.lookup e.address = none) :
    execInsn first endpoints e = .ok endpoints := by
  have hhook : endHook first endpoints e.address = .ok endpoints := by simp only [endHook, hlookup]
  rw [execInsn, hhook]
  change (if e.reentered = true then endHook first endpoints e.address else .ok endpoints) = .ok endpoints
  rw [hhook, ite_self]

theorem execInsn_spec (hends : Configured ends) (hcounts : Counts ends pre endpoints)
    (hnone : due enters ends pre = none) :
    (due enters ends (pre ++ [e]) = none → ∃ endpoints', execInsn first endpoints e = .ok endpoints' ∧
      Counts ends (pre ++ [e]) endpoints') ∧
    ∀ p, due enters ends (pre ++ [e]) = some p → execInsn first endpoints e = .error (report first p) := by
  by_cases hat : ∃ q ∈ ends, q.address = e.address
  · obtain ⟨q, hq, hqe⟩ := hat
    have hlookup := hcounts.some q hq
    rw [hqe] at hlookup
    obtain ⟨hstop, hgo⟩ := execInsn_of_lookup first hlookup
    constructor
    · intro hnext
      have hlt := due_eq_none_iff.mp hnext q hq
      rw [total_append, hqe] at hlt
      obtain ⟨endpoints', hexec, hlookup'⟩ := hgo (by omega)
      refine ⟨endpoints', hexec, fun p hp => ?_, fun a ha => ?_⟩
      · rw [hlookup', total_append]
        by_cases hpe : p.address = e.address
        · obtain rfl : p = q := List.inj_on_of_nodup_map hends.distinct hp hq (hpe.trans hqe.symm)
          rw [if_pos hpe, hpe, Nat.sub_sub]
        · rw [if_neg hpe, hcounts.some p hp, enters_local _ _ (Ne.symm hpe), Nat.add_zero]
      · rw [hlookup', if_neg fun hae => ha q hq (hqe.trans hae.symm)]
        exact hcounts.none a ha
    · intro p hp
      obtain rfl := due_unique hends enters_local hnone hp hq hqe.symm
      obtain ⟨-, hreached⟩ := due_spec hp
      rw [total_append, hqe] at hreached
      rw [hstop (by omega), report, hqe]
  · have hne : ∀ p ∈ ends, p.address ≠ e.address := fun p hp hpe => hat ⟨p, hp, hpe⟩
    have hzero : ∀ p ∈ ends, total enters (pre ++ [e]) p.address = total enters pre p.address := by
      intro p hp
      rw [total_append, enters_local _ _ (Ne.symm (hne p hp)), Nat.add_zero]
    constructor
    · intro _
      refine ⟨endpoints, execInsn_of_not (hcounts.none _ hne), fun p hp => ?_, hcounts.none⟩
      rw [hzero p hp]
      exact hcounts.some p hp
    · intro p hp
      obtain ⟨hmem, hreached⟩ := due_spec hp
      rw [hzero p hmem] at hreached
      exact absurd (due_eq_none_iff.mp hnone p hmem) (Nat.not_lt.mpr hreached)

end Insn

/-! ### The run -/

/-- The map holds each counter after the end points are inserted. -/
theorem counts_insert {ends : List EndPoint} (hends : Configured ends) : Counts ends []
    ((ends.map fun p => (p.address, p.counter)).foldl (fun m e => insertKey m e.1 e.2) []) := by
  have hfold : ∀ (ends : List EndPoint) (m : List (ℕ × ℕ)), (ends.map EndPoint.address).Nodup →
      (∀ p ∈ ends, ((ends.map fun p => (p.address, p.counter)).foldl
        (fun m e => insertKey m e.1 e.2) m).lookup p.address = some p.counter) ∧
      ∀ a, (∀ p ∈ ends, p.address ≠ a) → ((ends.map fun p => (p.address, p.counter)).foldl
        (fun m e => insertKey m e.1 e.2) m).lookup a = m.lookup a := by
    intro ends
    induction ends with
    | nil => exact fun m _ => ⟨fun p hp => absurd hp List.not_mem_nil, fun a _ => rfl⟩
    | cons q ends ih =>
      intro m hnodup
      obtain ⟨hnew, hrest⟩ := List.nodup_cons.mp hnodup
      obtain ⟨hin, hout⟩ := ih (insertKey m q.address q.counter) hrest
      refine ⟨fun p hp => ?_, fun a ha => ?_⟩
      · rcases List.mem_cons.mp hp with rfl | hp
        · refine (hout p.address fun p' hp' heq => hnew (heq ▸ List.mem_map_of_mem hp')).trans ?_
          rw [lookup_insertKey, if_pos rfl]
        · exact hin p hp
      · refine (hout a fun p hp => ha p (List.mem_cons_of_mem _ hp)).trans ?_
        rw [lookup_insertKey, if_neg (Ne.symm (ha q List.mem_cons_self))]
  obtain ⟨hin, hout⟩ := hfold ends [] hends.distinct
  exact ⟨fun p hp => hin p hp, fun a ha => hout a ha⟩

theorem emuStart_isSome {ends : List EndPoint} {faults : List Fault} {run : List Executed} :
    (emuStart ends faults run).isSome ↔
      faults ≠ [] ∧ ∀ p ∈ ends, p.address < 2 ^ 64 ∧ p.counter < 2 ^ 32 := by
  rw [emuStart, Option.isSome_map]
  cases faults with
  | nil => exact iff_of_false Bool.false_ne_true fun h => h.1 rfl
  | cons f fs =>
    rw [startEnd, Option.isSome_map, extractEnd]
    split
    · next h => exact iff_of_true rfl ⟨List.cons_ne_nil f fs, h⟩
    · next h => exact iff_of_false Bool.false_ne_true fun h' => h h'.2

/-- Unicorn stops where its calls make an end point due. -/
theorem emuStart_spec {ends : List EndPoint} (hends : Configured ends)
    (hfits : ∀ p ∈ ends, p.address < 2 ^ 64 ∧ p.counter < 2 ^ 32) (f : Fault) (fs : List Fault)
    (run : List Executed) : ∃ outcome, emuStart ends (f :: fs) run = some outcome ∧
      ∀ i reason, outcome = some (i, reason) ↔ Reports
        (fun pre e => (due enters ends (pre ++ [e])).map (report f.trigger.address)) run i reason := by
  refine ⟨_, by rw [emuStart, startEnd, extractEnd, if_pos hfits]; rfl, fun i reason => ?_⟩
  refine stop_eq_some_iff_reports
    (I := fun pre endpoints => Counts ends pre endpoints ∧ due enters ends pre = none) ?_ ?_ ⟨?_, ?_⟩
  · rintro pre endpoints e reason ⟨hcounts, hnone⟩ hreport
    obtain ⟨p, hp, rfl⟩ := Option.map_eq_some_iff.mp hreport
    exact (execInsn_spec hends hcounts hnone).2 p hp
  · rintro pre endpoints e ⟨hcounts, hnone⟩ hreport
    have hnext := Option.map_eq_none_iff.mp hreport
    obtain ⟨endpoints', hexec, hcounts'⟩ := (execInsn_spec hends hcounts hnone).1 hnext
    exact ⟨endpoints', hexec, hcounts', hnext⟩
  · exact counts_insert hends
  · exact due_eq_none_iff.mpr fun p hp => hends.counted p hp

/-! ### The worker

    `end_hook_cb` of the worker is `endHook` on its counters, whatever else it does. -/

/-- What `to_object` makes of the logged end point. -/
def State.endReport (s : State) : Report :=
  ⟨if s.endpoint.2.2 = 1 then endReason s.endpoint.2.1 1 else "max tb".toList,
    if s.endpoint.1 then 1 else 0⟩

section Worker

variable {env : Env} {s s' : State} {address first : ℕ} {memorydump : List (ℕ × ℕ)}

theorem dumpMemory_endpoint (size : ℕ) : (s.dumpMemory address size).endpoint = s.endpoint := by
  unfold State.dumpMemory; split <;> rfl

theorem foldl_dumpMemory_endpoint : (memorydump.foldl (fun s d => s.dumpMemory d.1 d.2) s).endpoint
    = s.endpoint := by
  induction memorydump generalizing s with
  | nil => rfl
  | cons d ds ih => rw [List.foldl_cons, ih, dumpMemory_endpoint]

theorem undoFaults_endpoint {undone : Option Fault} (h : s.undoFaults env = some (s', undone)) :
    s'.endpoint = s.endpoint := by
  unfold State.undoFaults at h
  rcases hpeek : env.peek s.liveFaults with _ | ⟨⟨a, prefaultData⟩, priority⟩
  · simp only [hpeek] at h
    obtain ⟨rfl, -⟩ := Prod.mk.inj (Option.some.inj h)
    rfl
  · simp only [hpeek] at h
    rcases hlook : s.faults.lookup a with _ | f
    · simp only [hlook] at h
      split at h
      · obtain ⟨rfl, -⟩ := Prod.mk.inj (Option.some.inj h)
        rfl
      · cases h
    · simp only [hlook] at h
      split at h
      · obtain ⟨rfl, -⟩ := Prod.mk.inj (Option.some.inj h)
        rfl
      · split at h
        · split at h
          · obtain ⟨rfl, -⟩ := Prod.mk.inj (Option.some.inj h)
            rfl
          · cases h
        all_goals
          obtain ⟨rfl, -⟩ := Prod.mk.inj (Option.some.inj h)
          rfl

theorem lastSingleStep_endpoint (h : s.lastSingleStep env address = some s') :
    s'.endpoint = s.endpoint := by
  unfold State.lastSingleStep at h
  split at h
  · simp only [State.singleStepHookCb, Option.bind_eq_bind, Option.bind_eq_some_iff, Option.pure_def] at h
    obtain ⟨⟨s₁, undone⟩, hundo, h⟩ := h
    obtain rfl := Option.some.inj h
    rw [← undoFaults_endpoint hundo]
    unfold State.dumpUndone
    split
    · split
      · exact dumpMemory_endpoint _
      · rfl
    · rfl
  · obtain rfl := Option.some.inj h
    rfl

/-- The hook counts or stops as `endHook` does. -/
theorem endHookCb_endHook (h : s.endHookCb env address first memorydump = some s') :
    (∀ endpoints, endHook first s.endpoints address = .ok endpoints →
      s'.endpoints = endpoints ∧ s'.stopped = s.stopped) ∧
    ∀ r, endHook first s.endpoints address = .error r → s'.stopped = true ∧ s'.endReport = r := by
  simp only [State.endHookCb, Option.bind_eq_bind, Option.bind_eq_some_iff, Option.pure_def] at h
  obtain ⟨counter, hlookup, h⟩ := h
  split at h
  · next hgo =>
    obtain rfl := Option.some.inj h
    rw [endHook_go first hlookup hgo]
    exact ⟨fun endpoints heq => ⟨Except.ok.inj heq, rfl⟩, fun r heq => absurd heq (by simp)⟩
  · next hstop =>
    obtain ⟨s₁, h₁, h⟩ := Option.bind_eq_some_iff.mp h
    obtain rfl := Option.some.inj h
    rw [endHook_stop hlookup (Nat.not_lt.mp hstop)]
    refine ⟨fun endpoints heq => absurd heq (by simp), fun r heq => ⟨rfl, ?_⟩⟩
    obtain rfl := Except.error.inj heq
    have hendpoint : (memorydump.foldl (fun s d => s.dumpMemory d.1 d.2) s₁).endpoint
        = (decide (address = first), address, 1) :=
      foldl_dumpMemory_endpoint.trans (lastSingleStep_endpoint h₁)
    simp only [State.endReport, hendpoint, decide_eq_true_eq, if_true]

/-- The end hooks of the worker in front of an instruction. -/
theorem Emulation.runEndHooks_endHook {m : Emulation} (hrun : s.stopped = false)
    (hhooks : s.endHooks.Nodup) (hkeys : address ∉ s.endHooks → s.endpoints.lookup address = none)
    (h : m.runEndHooks env s address = some s') :
    (∀ endpoints, endHook m.firstEndpoint s.endpoints address = .ok endpoints →
      s'.endpoints = endpoints ∧ s'.stopped = false) ∧
    ∀ r, endHook m.firstEndpoint s.endpoints address = .error r →
      s'.stopped = true ∧ s'.endReport = r := by
  unfold runEndHooks State.runHooks at h
  by_cases hmem : address ∈ s.endHooks
  · have hone : (s.endHooks.filter fun a => decide (a = address)) = [address] := by
      rw [List.filter_eq, List.count_eq_one_of_mem hhooks hmem]
      rfl
    rw [hone, List.foldlM_cons, hrun, if_neg Bool.false_ne_true] at h
    obtain ⟨s₁, h₁, h⟩ := Option.bind_eq_some_iff.mp h
    obtain rfl := Option.some.inj h
    rw [← hrun]
    exact endHookCb_endHook h₁
  · have hno : (s.endHooks.filter fun a => decide (a = address)) = [] := by
      rw [List.filter_eq, List.count_eq_zero_of_not_mem hmem]
      rfl
    rw [hno] at h
    obtain rfl := Option.some.inj h
    have hok : endHook m.firstEndpoint s.endpoints address = .ok s.endpoints := by
      simp only [endHook, hkeys hmem]
    rw [hok]
    exact ⟨fun endpoints heq => ⟨Except.ok.inj heq, hrun⟩, fun r heq => absurd heq (by simp)⟩

end Worker

end Archie.Worker
