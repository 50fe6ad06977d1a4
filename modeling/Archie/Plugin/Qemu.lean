import Archie.Lib.Run
import Archie.Plugin.Callbacks

/-! The plugin inside QEMU, after the start point.

    QEMU translates a TB, asks the plugin for callbacks and caches the result; it executes cached TBs
    only. The events below are what it may do, in any order. A flush may come at any time, those that
    the plugin requests are among them.

        translate ──▶ cache ──enter──▶ current ──insn──▶ … ──insn──▶ …
                        └──flush──▶ ∅                                                          -/

namespace Archie.Plugin

/-- A translated TB with its callbacks; `first` marks the TB translated first after the start. -/
structure CachedTb where
  tb : Tb
  callbacks : List (ℕ × Callback)
  first : Bool

structure Machine where
  state : State
  cache : List CachedTb
  /-- the TB being executed and the index of its next instruction -/
  current : Option (CachedTb × ℕ)
  /-- the instructions executed so far, last one first -/
  executed : List Insn

inductive Event where
  | translate (tb : Tb)
  | enter (k : ℕ)
  | insn
  | flush

/-- A TB up to the end of the address space or beyond, whose end is not a `uint64_t`. -/
def Tb.Wraps (tb : Tb) : Prop := 2 ^ 64 ≤ tb.vaddr + tb.bytesize

instance (tb : Tb) : Decidable tb.Wraps := inferInstanceAs (Decidable (_ ≤ _))

/-- The callbacks of an instruction in the order of their registration. -/
def CachedTb.callbacksAt (c : CachedTb) (i : ℕ) : List Callback :=
  (c.callbacks.filter fun cb => cb.1 = i).map Prod.snd

namespace Machine

variable (m : Machine)

/-- An experiment at its start point: nothing is cached, nothing is executed. -/
def boot (s : State) : Machine := ⟨s, [], none, []⟩

def translate (tb : Tb) : Machine :=
  let (state, registered) := m.state.vcpuTranslateblockTranslationEvent tb
  { m with
    state
    cache := m.cache ++ [⟨tb, registered.insn, decide (m.state.plugin.firstTb = 0)⟩]
    current := none }

/-- The callbacks of an instruction run before it is executed. -/
def insn (c : CachedTb) (i : ℕ) (insn : Insn) : Machine :=
  { m with
    state := (c.callbacksAt i).foldl State.runCallback m.state
    current := some (c, i + 1)
    executed := insn :: m.executed }

def step : Event → Option Machine
  | .translate tb => some (m.translate tb)
  | .enter k => (m.cache[k]?).map fun c => { m with current := some (c, 0) }
  | .insn => match m.current with
    | some (c, i) => (c.tb.insns[i]?).map fun insn => m.insn c i insn
    | none => none
  | .flush => some { m with cache := [] }

/-- How often the instruction at an address was executed. -/
def executions (address : ℕ) : ℕ := m.executed.countP fun i => decide (i.Contains address)

/-- `inject_fault` was called for the first fault exactly at the `n`-th execution. -/
def InjectedOnTime (address n : ℕ) : Prop :=
  m.state.calls.count (.injectFault 0) = if n ≤ m.executions address then 1 else 0

/-- The next instruction is a trigger of the pending injection, inside the TB translated first or one
    whose end wraps. -/
def MissedTrigger (address n : ℕ) (e : Event) : Prop :=
  ∃ c i insn, e = .insn ∧ m.current = some (c, i) ∧ (c.first = true ∨ c.tb.Wraps) ∧
    c.tb.insns[i]? = some insn ∧ insn.Contains address ∧ m.executions address < n

variable {m} {address n : ℕ}

/-- Only an instruction is a trigger. -/
theorem not_missedTrigger_of_ne {e : Event} (hne : e ≠ .insn) : ¬ m.MissedTrigger address n e := by
  rintro ⟨c, i, insn, rfl, -⟩
  exact hne rfl

/-- No trigger is missed in any other TB. -/
theorem not_missedTrigger {c : CachedTb} {i : ℕ} {e : Event} (hcur : m.current = some (c, i))
    (hfirst : c.first = false) (hfits : ¬ c.tb.Wraps) : ¬ m.MissedTrigger address n e := by
  rintro ⟨c', i', insn, -, hcur', hmissed, -⟩
  obtain ⟨rfl, -⟩ := Prod.mk.inj (Option.some.inj (hcur.symm.trans hcur'))
  rcases hmissed with hmissed | hwraps
  · exact Bool.false_ne_true (hfirst.symm.trans hmissed)
  · exact hfits hwraps

end Machine

/-! ### Translation blocks -/

namespace Tb

variable {tb : Tb}

/-- `i` ends before `j` starts, neither is empty. -/
def Before (i j : Insn) : Prop := 0 < i.size ∧ 0 < j.size ∧ i.vaddr + i.size ≤ j.vaddr

theorem isChain_before : ∀ {is : List Insn}, (∀ i ∈ is, 0 < i.size) →
    (is.IsChain fun i j => j.vaddr = i.vaddr + i.size) → is.IsChain Before
  | [], _, _ => .nil
  | [i], _, _ => .singleton i
  | i :: j :: is, hsized, hcont => by
    rw [List.isChain_cons_cons] at hcont ⊢
    refine ⟨⟨hsized i (by simp), hsized j (by simp), by omega⟩, ?_⟩
    exact isChain_before (fun x hx => hsized x (List.mem_cons_of_mem _ hx)) hcont.2

theorem pairwise_end : tb.insns.Pairwise fun i j => i.vaddr + i.size ≤ j.vaddr := by
  have htrans : IsTrans Insn Before := ⟨fun i j k hij hjk => by
    unfold Before at *; omega⟩
  exact (List.isChain_iff_pairwise.mp (isChain_before tb.sized tb.contiguous)).imp fun h => h.2.2

theorem vaddr_le {i : Insn} (hi : i ∈ tb.insns) : tb.vaddr ≤ i.vaddr := by
  have hpw := tb.pairwise_end
  obtain ⟨x, xs, hx⟩ := List.exists_cons_of_ne_nil tb.nonempty
  have hv : tb.vaddr = x.vaddr := by simp only [vaddr, hx, List.head_cons]
  rw [hx] at hi hpw
  rw [hv]
  rcases List.mem_cons.mp hi with rfl | hi
  · exact le_rfl
  · have := (List.pairwise_cons.mp hpw).1 i hi
    omega

theorem end_le {i : Insn} (hi : i ∈ tb.insns) : i.vaddr + i.size ≤ tb.vaddr + tb.bytesize := by
  have hpw := tb.pairwise_end
  have hlast := List.dropLast_append_getLast tb.nonempty
  have hle := vaddr_le (List.getLast_mem tb.nonempty)
  have hend : tb.vaddr + tb.bytesize
      = (tb.insns.getLast tb.nonempty).vaddr + (tb.insns.getLast tb.nonempty).size := by
    simp only [bytesize]; omega
  rw [hend]
  rw [← hlast] at hi hpw
  rcases List.mem_append.mp hi with hi | hi
  · have := (List.pairwise_append.mp hpw).2.2 i hi _ (List.mem_singleton_self _)
    omega
  · simp only [List.mem_singleton] at hi
    rw [hi]

theorem contains_range {i : Insn} {address : ℕ} (hi : i ∈ tb.insns) (hin : i.Contains address) :
    tb.vaddr ≤ address ∧ tb.vaddr + tb.bytesize > address := by
  have := vaddr_le hi
  have := end_le hi
  obtain ⟨h₁, h₂⟩ := hin
  omega

/-- Where the end of the TB does not wrap, the tests find the instructions that contain the address. -/
theorem meets_iff_contains {i : Insn} {address : ℕ} (hi : i ∈ tb.insns) (hfits : ¬ tb.Wraps) :
    tb.Meets address ∧ i.Meets address ↔ i.Contains address := by
  have hend : tb.vaddr + tb.bytesize < 2 ^ 64 := Nat.not_le.mp hfits
  have hinsn : i.vaddr + i.size < 2 ^ 64 := (end_le hi).trans_lt hend
  rw [Meets, Insn.Meets, Insn.Contains, Nat.mod_eq_of_lt hend, Nat.mod_eq_of_lt hinsn]
  exact ⟨fun h => h.2, fun h => ⟨contains_range hi h, h⟩⟩

/-- A TB that wraps gets no callback at all: its end comes out below its start. -/
theorem not_meets_of_wraps {address : ℕ} (hvaddr : tb.vaddr < 2 ^ 64) (hsize : tb.bytesize < 2 ^ 64)
    (hwraps : tb.Wraps) : ¬ tb.Meets address := by
  rintro ⟨hstart, hend⟩
  have hwraps : 2 ^ 64 ≤ tb.vaddr + tb.bytesize := hwraps
  have hmod : (tb.vaddr + tb.bytesize) % 2 ^ 64 = tb.vaddr + tb.bytesize - 2 ^ 64 := by
    rw [Nat.mod_eq_sub_mod hwraps, Nat.mod_eq_of_lt (by omega)]
  omega

end Tb

/-- A wrapped end only loses bytes. -/
theorem Insn.Meets.contains {i : Insn} {address : ℕ} (h : i.Meets address) : i.Contains address :=
  ⟨h.1, h.2.trans_le (Nat.mod_le _ _)⟩

end Archie.Plugin
