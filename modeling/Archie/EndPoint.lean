import Archie.Lib.FirstStop
import Archie.Lib.Decimal

/-! End points and what a run reports about them.

    An engine calls back on some executed instructions and counts the calls of each end point. The
    engines differ in the instructions they call back on:

        configured   0x100/2 :   100   102   100 ◀── end            executions
        QEMU                     every instruction that contains 0x100, in TBs whose end does not wrap
        Unicorn                  the instruction at 0x100, again when it is re-entered     -/

namespace Archie
open Python FirstStop

structure EndPoint where
  address : ℕ
  counter : ℕ
  deriving DecidableEq

/-- An executed instruction, with the place of the TB that QEMU executes it in; `reentered` if an
    instruction fault injected in front of it stops Unicorn there, which re-enters at this instruction. -/
structure Executed where
  address : ℕ
  size : ℕ
  size_pos : 0 < size
  tbVaddr : ℕ
  tbSize : ℕ
  tbVaddr_le : tbVaddr ≤ address
  end_le : address + size ≤ tbVaddr + tbSize
  reentered : Bool

structure Report where
  endReason : Text
  endpoint : ℕ
  deriving DecidableEq

def endReason (address hitcounter : ℕ) : Text :=
  "endpoint ".toList ++ (strInt address ++ '/' :: strInt hitcounter)

theorem endReason_inj {a b h : ℕ} (heq : endReason a h = endReason b h) : a = b :=
  Decimal.strInt_natCast_inj (List.append_cancel_right (List.append_cancel_left heq))

/-! ### Calls -/

/-- The executions of the instruction at an address. -/
def executes (address : ℕ) (e : Executed) : ℕ := if e.address = address then 1 else 0

/-- The calls for an address in a run. -/
def total (calls : ℕ → Executed → ℕ) (run : List Executed) (address : ℕ) : ℕ :=
  (run.map (calls address)).sum

/-- The first end point whose counter is reached. -/
def due (calls : ℕ → Executed → ℕ) (ends : List EndPoint) (run : List Executed) : Option EndPoint :=
  ends.find? fun p => p.counter ≤ total calls run p.address

/-- The text of the end point and whether it is the first one. -/
def EndPoint.report (ends : List EndPoint) (p : EndPoint) : Report :=
  ⟨Archie.endReason p.address 1, if ends.head? = some p then 1 else 0⟩

/-- The run ends at the first instruction at which some end point has been executed `counter` times,
    with the report of that end point. -/
def EndsAsConfigured (ends : List EndPoint) (run : List Executed) (outcome : Option (ℕ × Report)) :
    Prop :=
  ∀ i report, outcome = some (i, report) ↔ ∃ e p,
    FirstAt (fun pre e => ∃ q ∈ ends, q.counter ≤ total executes (pre ++ [e]) q.address) run i e ∧
    p ∈ ends ∧ p.counter ≤ total executes (run.take i ++ [e]) p.address ∧ report = p.report ends

/-- What a configuration lists. -/
structure Configured (ends : List EndPoint) : Prop where
  nonempty : ends ≠ []
  distinct : (ends.map EndPoint.address).Nodup
  counted : ∀ p ∈ ends, 1 ≤ p.counter

section Calls

variable {calls : ℕ → Executed → ℕ} {ends : List EndPoint} {run pre : List Executed} {e : Executed}
  {p : EndPoint}

theorem total_append (address : ℕ) :
    total calls (pre ++ [e]) address = total calls pre address + calls address e := by
  rw [total, List.map_append, List.sum_append]
  rfl

theorem due_eq_none_iff : due calls ends run = none ↔
    ∀ p ∈ ends, total calls run p.address < p.counter := by
  rw [due, List.find?_eq_none]
  refine forall₂_congr fun p _ => ?_
  rw [decide_eq_true_iff, Nat.not_le]

theorem due_isSome_iff : (due calls ends run).isSome ↔
    ∃ p ∈ ends, p.counter ≤ total calls run p.address := by
  rw [due, List.find?_isSome]
  refine exists_congr fun p => and_congr_right fun _ => ?_
  rw [decide_eq_true_iff]

theorem due_spec (h : due calls ends run = some p) :
    p ∈ ends ∧ p.counter ≤ total calls run p.address :=
  ⟨List.mem_of_find?_eq_some h, by simpa using List.find?_some h⟩

/-- Nothing is due in front of the first instruction at which something is. -/
theorem due_take_eq_none (hends : Configured ends) {i : ℕ} (hi : i ≤ run.length)
    (hbefore : ∀ j < i, ∀ e', run[j]? = some e' → due calls ends (run.take j ++ [e']) = none) :
    due calls ends (run.take i) = none := by
  cases i with
  | zero => exact due_eq_none_iff.mpr fun p hp => hends.counted p hp
  | succ i =>
    have hget : run[i]? = some run[i] := List.getElem?_eq_getElem hi
    rw [List.take_add_one, hget]
    exact hbefore i (Nat.lt_succ_self i) _ hget

/-- Calls for an address come from its instruction only. -/
def Local (calls : ℕ → Executed → ℕ) : Prop := ∀ address e, e.address ≠ address → calls address e = 0

theorem executes_local : Local executes := fun _ _ hne => if_neg hne

/-- Then only the end point at the executed instruction can become due. -/
theorem due_address (hlocal : Local calls) (hnone : due calls ends pre = none) {q : EndPoint}
    (hq : q ∈ ends) (hreached : q.counter ≤ total calls (pre ++ [e]) q.address) :
    e.address = q.address := by
  have hlt := due_eq_none_iff.mp hnone q hq
  by_contra hne
  rw [total_append, hlocal _ _ hne] at hreached
  omega

theorem due_unique (hends : Configured ends) (hlocal : Local calls) (hnone : due calls ends pre = none)
    (h : due calls ends (pre ++ [e]) = some p) {q : EndPoint} (hq : q ∈ ends)
    (haddress : e.address = q.address) : q = p := by
  obtain ⟨hp, hcounter⟩ := due_spec h
  exact List.inj_on_of_nodup_map hends.distinct hq hp
    (haddress.symm.trans (due_address hlocal hnone hp hcounter))

/-- The configured end of a run in terms of the end points that are due. -/
theorem endsAsConfigured_iff (hends : Configured ends) {outcome : Option (ℕ × Report)} :
    EndsAsConfigured ends run outcome ↔ ∀ i report, outcome = some (i, report) ↔ Reports
      (fun pre e => (due executes ends (pre ++ [e])).map (EndPoint.report ends)) run i report := by
  refine forall₂_congr fun i report => iff_congr Iff.rfl ?_
  simp only [Reports, Option.isSome_map, due_isSome_iff]
  refine exists_congr fun e => ?_
  rw [exists_and_left]
  refine and_congr_right fun hfirst => ?_
  obtain ⟨hi, hreached, hbefore⟩ := hfirst
  have hnone : due executes ends (run.take i) = none := by
    refine due_take_eq_none hends (List.getElem?_eq_some_iff.mp hi).1.le fun j hj e' he' => ?_
    exact Option.not_isSome_iff_eq_none.mp fun h => hbefore j hj e' he' (due_isSome_iff.mp h)
  obtain ⟨p, hp⟩ := Option.isSome_iff_exists.mp (due_isSome_iff.mpr hreached)
  rw [hp, Option.map_some, Option.some.injEq]
  constructor
  · rintro ⟨q, hq, hcounter, rfl⟩
    rw [due_unique hends executes_local hnone hp hq (due_address executes_local hnone hq hcounter)]
  · rintro rfl
    exact ⟨p, (due_spec hp).1, (due_spec hp).2, rfl⟩

end Calls

end Archie
