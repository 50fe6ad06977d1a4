import Archie.EndPoint
import Archie.Plugin.FaultList

/-! The end points in QEMU: from the control message to `tb_exec_end_cb`.

    Every end point is a node of a list. When a TB is translated, each instruction gets a callback for
    the nodes whose address lies in it, in the order of the list; the callback counts its node down.
    The ends of the TB and of the instruction are 64-bit sums. A TB is translated after the start point
    here and the plugin has exited before a mark changes. -/

namespace Archie.Plugin
open FirstStop

/-- The end points in the control message, a `ValueError` for what does not fit. -/
def configureQemuEnd (ends : List EndPoint) : Option (List EndPoint) :=
  if ∀ p ∈ ends, p.address < 2 ^ 64 ∧ p.counter < 2 ^ 64 then some ends else none

/-- The list; its head is there before the first end point is known. -/
def readoutControlQemuEnd : List EndPoint → List FaultTrigger
  | [] => [⟨0, 0, 0⟩]
  | p :: ends => ⟨p.address, p.counter, 0 ||| 3⟩ :: ends.map fun p => ⟨p.address, p.counter, 3⟩

/-- Is the address in the TB of the instruction, and in the instruction? -/
def EndMet (address : ℕ) (e : Executed) : Prop :=
  (e.tbVaddr ≤ address ∧ (e.tbVaddr + e.tbSize) % 2 ^ 64 > address) ∧
    address ≥ e.address ∧ address < (e.address + e.size) % 2 ^ 64

instance (address : ℕ) (e : Executed) : Decidable (EndMet address e) :=
  inferInstanceAs (Decidable (_ ∧ _))

/-- Does the instruction get a callback for this node? -/
def endCallback (cur : FaultTrigger) (e : Executed) : Bool := cur.trignum = 3 ∧ EndMet cur.address e

def tbExecEndCb (endPoint : List FaultTrigger) (current : ℕ) : Except Report (List FaultTrigger) :=
  match endPoint[current]? with
  | none => .ok endPoint
  | some cur =>
    if cur.hitcounter = 1 then
      let endPoint := endPoint.set current { cur with trignum := 4 }
      .error ⟨endReason cur.address cur.hitcounter,
        if endPoint.head?.map FaultTrigger.trignum = some 4 then 1 else 0⟩
    else .ok (endPoint.set current { cur with hitcounter := (cur.hitcounter + (2 ^ 64 - 1)) % 2 ^ 64 })

/-- The nodes that an instruction calls back, from node `k` on. -/
def endCallbacks (endPoint : List FaultTrigger) (e : Executed) (k : ℕ) : List ℕ :=
  ((endPoint.zipIdx k).filter fun n => endCallback n.1 e).map Prod.snd

def execInsn (endPoint : List FaultTrigger) (e : Executed) : Except Report (List FaultTrigger) :=
  (endCallbacks endPoint e 0).foldlM tbExecEndCb endPoint

/-- QEMU from the start point on: where it stops, with which report. -/
def runQemu (ends : List EndPoint) (run : List Executed) : Option (Option (ℕ × Report)) :=
  (configureQemuEnd ends).map fun ends => stop execInsn (readoutControlQemuEnd ends) run

/-- The calls of an instruction for an end point in QEMU. -/
def callsBack (address : ℕ) (e : Executed) : ℕ := if EndMet address e then 1 else 0

/-- In a TB whose end does not wrap these are the instructions that contain the end point. -/
theorem endMet_iff {address : ℕ} {e : Executed} (hfits : e.tbVaddr + e.tbSize < 2 ^ 64) :
    EndMet address e ↔ e.address ≤ address ∧ address < e.address + e.size := by
  have hend := e.end_le
  have hstart := e.tbVaddr_le
  rw [EndMet, Nat.mod_eq_of_lt hfits, Nat.mod_eq_of_lt (hend.trans_lt hfits)]
  omega

/-! ### One instruction -/

section Insn

variable {ends rest : List EndPoint} {pre : List Executed} {e : Executed} {p : EndPoint}

/-- The node of an end point after some instructions. -/
def node (pre : List Executed) (p : EndPoint) : FaultTrigger :=
  ⟨p.address, p.counter - total callsBack pre p.address, 3⟩

theorem endCallback_node : endCallback (node pre p) e = decide (callsBack p.address e = 1) := by
  simp only [endCallback, node, callsBack, true_and]
  split <;> simp_all

theorem endCallbacks_cons (nodes : List FaultTrigger) (k : ℕ) : endCallbacks (node pre p :: nodes) e k
    = (if callsBack p.address e = 1 then [k] else []) ++ endCallbacks nodes e (k + 1) := by
  rw [endCallbacks, List.zipIdx_cons, List.filter_cons, endCallback_node]
  by_cases h : callsBack p.address e = 1
  · rw [if_pos h, if_pos (decide_eq_true h)]
    rfl
  · rw [if_neg h, if_neg (mt of_decide_eq_true h)]
    rfl

/-- A call of the node behind `done`. -/
theorem tbExecEndCb_at {before nodes : List FaultTrigger} (hmarks : ∀ n ∈ before, n.trignum = 3)
    (n : FaultTrigger) : tbExecEndCb (before ++ n :: nodes) before.length = if n.hitcounter = 1
      then .error ⟨endReason n.address 1, if before = [] then 1 else 0⟩
      else .ok (before ++ { n with hitcounter := (n.hitcounter + (2 ^ 64 - 1)) % 2 ^ 64 } :: nodes) := by
  have hget : (before ++ n :: nodes)[before.length]? = some n := by
    rw [List.getElem?_append_right le_rfl, Nat.sub_self]
    rfl
  have hset : ∀ n', (before ++ n :: nodes).set before.length n' = before ++ n' :: nodes := by
    intro n'
    rw [List.set_append_right _ _ le_rfl, Nat.sub_self]
    rfl
  simp only [tbExecEndCb, hget, hset]
  split
  · next hone =>
    cases before with
    | nil => rw [hone]; rfl
    | cons m before =>
      have hmark : m.trignum ≠ 4 := by rw [hmarks m List.mem_cons_self]; decide
      simp [hone, hmark]
  · rfl

/-- Where the counter is not reached, a call counts down. -/
theorem node_append (hlt : total callsBack (pre ++ [e]) p.address < p.counter)
    (hcall : callsBack p.address e = 1) (hfits : p.counter < 2 ^ 64) :
    { node pre p with hitcounter := ((node pre p).hitcounter + (2 ^ 64 - 1)) % 2 ^ 64 }
      = node (pre ++ [e]) p := by
  rw [total_append, hcall] at hlt
  simp only [node, total_append, hcall, FaultTrigger.mk.injEq, true_and, and_true]
  omega

theorem node_append_of_not (hcall : callsBack p.address e ≠ 1) : node (pre ++ [e]) p = node pre p := by
  have hzero : callsBack p.address e = 0 := by
    rw [callsBack] at hcall ⊢
    split <;> simp_all
  simp only [node, total_append, hzero, Nat.add_zero]

/-- The callbacks of the end points that are left; `before` has the nodes in front of them. -/
theorem foldlM_endCallbacks {before : List FaultTrigger} (hmarks : ∀ n ∈ before, n.trignum = 3)
    (hnone : due callsBack rest pre = none) (hfits : ∀ p ∈ rest, p.counter < 2 ^ 64) :
    (due callsBack rest (pre ++ [e]) = none → (endCallbacks (rest.map (node pre)) e before.length).foldlM
      tbExecEndCb (before ++ rest.map (node pre)) = .ok (before ++ rest.map (node (pre ++ [e])))) ∧
    ∀ p, due callsBack rest (pre ++ [e]) = some p → (endCallbacks (rest.map (node pre)) e
      before.length).foldlM tbExecEndCb (before ++ rest.map (node pre))
        = .error ⟨endReason p.address 1, if before = [] ∧ rest.head? = some p then 1 else 0⟩ := by
  induction rest generalizing before with
  | nil => exact ⟨fun _ => rfl, fun p hp => (nomatch hp)⟩
  | cons q rest ih =>
    have hlt := due_eq_none_iff.mp hnone
    have hrest : due callsBack rest pre = none :=
      due_eq_none_iff.mpr fun p hp => hlt p (List.mem_cons_of_mem _ hp)
    have hfits' : ∀ p ∈ rest, p.counter < 2 ^ 64 := fun p hp => hfits p (List.mem_cons_of_mem _ hp)
    rw [List.map_cons, endCallbacks_cons]
    by_cases hreached : q.counter ≤ total callsBack (pre ++ [e]) q.address
    · -- `q` is due, its node calls back with a counter of one
      have hdue : due callsBack (q :: rest) (pre ++ [e]) = some q :=
        List.find?_cons_of_pos (decide_eq_true hreached)
      have hq := hlt q List.mem_cons_self
      rw [total_append] at hreached
      have hcall : callsBack q.address e = 1 := by
        rw [callsBack] at hreached ⊢
        split <;> simp_all
        omega
      have hone : (node pre q).hitcounter = 1 := by
        rw [hcall] at hreached
        simp only [node]
        omega
      refine ⟨fun h => (nomatch hdue.symm.trans h), fun p hp => ?_⟩
      obtain rfl := Option.some.inj (hdue.symm.trans hp)
      rw [if_pos hcall, List.singleton_append, List.foldlM_cons, tbExecEndCb_at hmarks, if_pos hone]
      simp only [List.head?_cons, and_true]
      rfl
    · -- its node goes on, counted down if it is called
      have hdue : due callsBack (q :: rest) (pre ++ [e]) = due callsBack rest (pre ++ [e]) :=
        List.find?_cons_of_neg (mt of_decide_eq_true hreached)
      have hstep : ((if callsBack q.address e = 1 then [before.length] else []) ++
          endCallbacks (rest.map (node pre)) e (before.length + 1)).foldlM tbExecEndCb
            (before ++ node pre q :: rest.map (node pre))
          = (endCallbacks (rest.map (node pre)) e (before ++ [node (pre ++ [e]) q]).length).foldlM
            tbExecEndCb ((before ++ [node (pre ++ [e]) q]) ++ rest.map (node pre)) := by
        rw [List.length_append, List.length_singleton, List.append_assoc, List.singleton_append]
        by_cases hcall : callsBack q.address e = 1
        · have hhit : (node pre q).hitcounter ≠ 1 := by
            rw [total_append, hcall] at hreached
            simp only [node]
            omega
          rw [if_pos hcall, List.singleton_append, List.foldlM_cons, tbExecEndCb_at hmarks, if_neg hhit,
            node_append (Nat.not_le.mp hreached) hcall (hfits q List.mem_cons_self)]
          rfl
        · rw [if_neg hcall, List.nil_append, node_append_of_not hcall]
      have hmarks' : ∀ n ∈ before ++ [node (pre ++ [e]) q], n.trignum = 3 := by
        intro n hn
        rcases List.mem_append.mp hn with hn | hn
        · exact hmarks n hn
        · rw [List.mem_singleton.mp hn, node]
      obtain ⟨hgo, hstop⟩ := ih hmarks' hrest hfits'
      rw [hstep, hdue, List.map_cons]
      refine ⟨fun h => ?_, fun p hp => ?_⟩
      · rw [hgo h, List.append_assoc, List.singleton_append]
      · rw [hstop p hp]
        have hne : ¬ (before ++ [node (pre ++ [e]) q] = [] ∧ rest.head? = some p) :=
          fun h => List.append_ne_nil_of_right_ne_nil _ (List.cons_ne_nil _ _) h.1
        have hhead : ¬ (before = [] ∧ (q :: rest).head? = some p) := by
          rintro ⟨-, hqp⟩
          obtain rfl := Option.some.inj hqp
          exact hreached (due_spec hp).2
        rw [if_neg hne, if_neg hhead]

/-- An instruction ends QEMU with the report of the first end point that is due. -/
theorem execInsn_spec (hnone : due callsBack ends pre = none) (hfits : ∀ p ∈ ends, p.counter < 2 ^ 64) :
    (due callsBack ends (pre ++ [e]) = none →
      execInsn (ends.map (node pre)) e = .ok (ends.map (node (pre ++ [e])))) ∧
    ∀ p, due callsBack ends (pre ++ [e]) = some p →
      execInsn (ends.map (node pre)) e = .error (p.report ends) := by
  have hmarks : ∀ n ∈ ([] : List FaultTrigger), n.trignum = 3 := fun n hn => absurd hn List.not_mem_nil
  obtain ⟨hgo, hstop⟩ := foldlM_endCallbacks (e := e) hmarks hnone hfits
  refine ⟨hgo, fun p hp => (hstop p hp).trans ?_⟩
  simp only [true_and]
  rfl

end Insn

/-! ### The run -/

theorem readoutControlQemuEnd_eq {ends : List EndPoint} (hne : ends ≠ []) :
    readoutControlQemuEnd ends = ends.map (node []) := by
  cases ends with
  | nil => exact absurd rfl hne
  | cons p ends => rfl

/-- QEMU stops where its calls make an end point due, and reports it. -/
theorem runQemu_spec {ends : List EndPoint} (hends : Configured ends)
    (hfits : ∀ p ∈ ends, p.address < 2 ^ 64 ∧ p.counter < 2 ^ 64) (run : List Executed) :
    ∃ outcome, runQemu ends run = some outcome ∧ ∀ i report, outcome = some (i, report) ↔
      Reports (fun pre e => (due callsBack ends (pre ++ [e])).map (EndPoint.report ends)) run i report := by
  refine ⟨_, by rw [runQemu, configureQemuEnd, if_pos hfits]; rfl, fun i report => ?_⟩
  have hcounter : ∀ p ∈ ends, p.counter < 2 ^ 64 := fun p hp => (hfits p hp).2
  refine stop_eq_some_iff_reports
    (I := fun pre s => s = ends.map (node pre) ∧ due callsBack ends pre = none) ?_ ?_ ⟨?_, ?_⟩
  · rintro pre _ e report ⟨rfl, hnone⟩ hreport
    obtain ⟨p, hp, rfl⟩ := Option.map_eq_some_iff.mp hreport
    exact (execInsn_spec hnone hcounter).2 p hp
  · rintro pre _ e ⟨rfl, hnone⟩ hreport
    have hnext := Option.map_eq_none_iff.mp hreport
    exact ⟨_, (execInsn_spec hnone hcounter).1 hnext, rfl, hnext⟩
  · exact readoutControlQemuEnd_eq hends.nonempty
  · exact due_eq_none_iff.mpr fun p hp => hends.counted p hp

end Archie.Plugin
