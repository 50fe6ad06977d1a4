import Archie.Campaign.CollectedTrace
import Archie.Campaign.TriggerCorrect
import Archie.Plugin.SetupConfig
import Archie.Plugin.SingleFault

/-! A fault with a relative trigger, from the golden run to its injection.

    The configuration asks for an injection `x` instructions before the `n`-th execution of the faulted
    instruction. The golden run turns this into a trigger `j` with a hitcounter `c`, the plugin counts
    the executions of `j`:

        golden run    i₀ i₁ … j … i_q …  ──tables──▶ calculate_trigger_addresses ──▶ ⟨j, c⟩
                              └─ x ─┘                                                  │ config pipe
        experiment    i₀ i₁ … │ ◀── inject_fault ── trigger_insn_cb ◀── trigger vector ┘              -/

namespace Archie
open Python
open Campaign (Coherent FaultEntry GoldenTrace ConfigFault IntFault goldenTables calculateTriggerAddresses
  collectedTrace Resolvable)
open Plugin (Tb Insn TbEvent TbMachine Machine Event)

/-! ### The executed instructions -/

/-- The instructions of the executed TBs. -/
def insns (m : TbMachine) : List Insn := m.executed.flatMap Tb.insns

section

variable {m : TbMachine} (h : m.Collected false)
  (hcoherent : Coherent (m.translated.map Plugin.TbTranslation.tb))

theorem flat_eq : (collectedTrace h hcoherent).flat = (insns m).map Insn.vaddr := by
  rw [Campaign.flat_collectedTrace, insns, List.map_flatMap]

include h in
theorem mem_insns {i : Insn} (hi : i ∈ insns m) :
    ∃ tb ∈ m.translated.map Plugin.TbTranslation.tb, i ∈ tb.insns := by
  obtain ⟨tb, htb, hi⟩ := List.mem_flatMap.mp hi
  exact ⟨tb, h.executed tb htb, hi⟩

include h hcoherent in
/-- The executions of an instruction are the occurrences of its address. -/
theorem countP_contains {i : Insn} (hi : i ∈ insns m) {address : ℕ} (hcont : i.Contains address) (k : ℕ) :
    ((insns m).take k).countP (fun j => decide (j.Contains address)) =
      (((insns m).map Insn.vaddr).take k).count i.vaddr := by
  obtain ⟨tb, htb, hi⟩ := mem_insns h hi
  rw [← List.map_take, List.count, List.countP_map]
  refine List.countP_congr fun j hj => ?_
  obtain ⟨u, hu, hj⟩ := mem_insns h (List.mem_of_mem_take hj)
  simp [hcoherent.contains_iff htb hu hi hj hcont]

/-- The `n`-th execution in the trace of the tables. -/
theorem nthExecution {i : Insn} {address n q : ℕ} (hq : (insns m)[q]? = some i) (hcont : i.Contains address)
    (hn : ((insns m).take (q + 1)).countP (fun j => decide (j.Contains address)) = n) :
    (collectedTrace h hcoherent).NthExecution address n q := by
  have hmem := List.mem_of_getElem? hq
  rw [countP_contains h hcoherent hmem hcont] at hn
  refine ⟨i.vaddr, ?_, ?_, ?_⟩
  · rw [flat_eq, List.getElem?_map, hq]
    rfl
  · obtain ⟨tb, htb, hi⟩ := mem_insns h hmem
    exact Campaign.exists_covers h hcoherent htb hi hcont
  · rw [flat_eq, hn]

end

/-- An occurrence is counted as soon as it is behind. -/
theorem count_take_le_iff {l : List ℕ} {p x : ℕ} (hp : l[p]? = some x) (k : ℕ) :
    (l.take (p + 1)).count x ≤ (l.take k).count x ↔ p < k := by
  have hmono : ∀ {a b : ℕ}, a ≤ b → (l.take a).count x ≤ (l.take b).count x := fun hab =>
    (List.take_sublist_take_left hab).count_le x
  have hone : (l.take (p + 1)).count x = (l.take p).count x + 1 := by
    rw [List.take_add_one, hp, Option.toList_some, List.count_append, List.count_singleton_self]
  constructor
  · intro hle
    by_contra hkp
    have := hmono (Nat.not_lt.mp hkp)
    omega
  · exact fun hpk => hmono hpk

/-! ### The resolved trigger -/

section Resolve

variable {g : GoldenTrace} {heap : Heap ConfigFault}

/-- The pass over the fault list leaves the fault with the instruction `x` places in front, and its
    executions up to there. -/
theorem calculateTriggerAddresses_relative (hsize : ∀ u ∈ g.tbinfo, 2 ≤ u.size) {faultList : List FaultEntry}
    (hint : ∀ s ∈ faultList.flatMap FaultEntry.faultlist, Resolvable (heap.get s))
    {r : ℕ} (hr : r ∈ faultList.flatMap FaultEntry.faultlist) {a : Int} {x n q : ℕ}
    (haddr : (heap.get r).address = .int a) (htrigger : (heap.get r).trigger = ⟨-x, n⟩)
    (hx : 1 ≤ x) (hlife : (heap.get r).lifespan = 0 ∨ (x : Int) ≤ (heap.get r).lifespan)
    (hq : g.NthExecution a n q) (hxq : x ≤ q) :
    ∃ heap' j, calculateTriggerAddresses heap faultList g.tbexec g.tbinfo = .ok heap' ∧
      g.flat[q - x]? = some j ∧
      (heap'.get r).trigger = ⟨j, (g.flat.take (q - x + 1)).count j⟩ := by
  obtain ⟨fs, hfs, hf⟩ := g.buildFilters_ok
  obtain ⟨k, i, ins, t, hp, -, hn, -, -⟩ := hq.place
  obtain ⟨e, he, -⟩ := hp.exec
  obtain ⟨j, hj, hans⟩ := g.triggerAnswer_spec hf hsize hq hx hxq hlife
  have hskip : ¬ ((heap.get r).trigger.address ≥ 0 ∨ (heap.get r).trigger.hitcounter = 0) := by
    rw [htrigger]
    dsimp only
    omega
  have hres : Campaign.resolve (fs.map List.reverse) g.tbexec g.tbinfo (heap.get r) = .ok
      { heap.get r with trigger := ⟨j, (g.flat.take (q - x + 1)).count j⟩ } := by
    rw [Campaign.resolve, if_neg hskip, haddr, htrigger]
    simp only [Campaign.intAddress, bind, Except.bind, hans]
    rfl
  obtain ⟨heap', hfold, hget⟩ := Campaign.foldlM_resolveAt hf hsize
    (List.ne_nil_of_mem (List.mem_of_getElem? he)) _ heap hint
  refine ⟨heap', j, ?_, hj, ?_⟩
  · rw [Campaign.calculateTriggerAddresses_eq (List.ne_nil_of_mem hp.row) hfs, hfold]
  · rw [hget r _ hres (if_pos (.inl (Int.natCast_nonneg j))), if_pos hr]

end Resolve

/-! ### On the way to the plugin -/

/-- The message has the trigger of the fault. -/
theorem faultMessage_trigger {f : IntFault} {msg : Campaign.FaultMessage}
    (h : Campaign.faultMessage f = .ok msg) :
    msg.triggerAddress = f.trigger.address.toNat ∧ msg.triggerHitcounter = f.trigger.hitcounter := by
  have hset : ∀ {bits : ℕ} {v : Int} {w : ℕ}, Campaign.setField bits v = .ok w → w = v.toNat := by
    intro bits v w hw
    rw [Campaign.setField] at hw
    split at hw
    · exact (Except.ok.inj hw).symm
    · cases hw
  obtain ⟨address, -, h⟩ := bind_eq_ok.mp h
  obtain ⟨type, -, h⟩ := bind_eq_ok.mp h
  obtain ⟨model, -, h⟩ := bind_eq_ok.mp h
  obtain ⟨lifespan, -, h⟩ := bind_eq_ok.mp h
  obtain ⟨triggerAddress, haddress, h⟩ := bind_eq_ok.mp h
  obtain ⟨triggerHitcounter, hhit, h⟩ := bind_eq_ok.mp h
  obtain ⟨maskUpper, -, h⟩ := bind_eq_ok.mp h
  obtain ⟨maskLower, -, h⟩ := bind_eq_ok.mp h
  obtain ⟨numBytes, -, h⟩ := bind_eq_ok.mp h
  rw [← Except.ok.inj h]
  exact ⟨hset haddress, hset hhit⟩

/-- One fault that fits into the pipe arrives with its trigger. -/
theorem qemuSetupConfig_one {f : IntFault} {size : ℕ} {messages : List Campaign.FaultMessage}
    (hsend : Campaign.writeFaultListToPipe [f] = .ok (size, messages)) (pack : Plugin.FaultPack messages)
    (junk : ℕ → ℕ) : ∃ fault : Plugin.Fault, (Plugin.qemuSetupConfig size pack junk []).2 = [fault] ∧
      fault.trigger.address = f.trigger.address.toNat ∧ fault.trigger.hitcounter = f.trigger.hitcounter := by
  obtain ⟨faults, hfaults, hok⟩ := bind_eq_ok.mp hsend
  obtain ⟨rfl, rfl⟩ := Prod.mk.inj (Except.ok.inj hok)
  rw [List.mapM_cons, List.mapM_nil] at hfaults
  obtain ⟨msg, hmsg, hrest⟩ := bind_eq_ok.mp hfaults
  obtain rfl : [msg] = faults := Except.ok.inj hrest
  obtain ⟨haddress, hhit⟩ := faultMessage_trigger hmsg
  have hread : pack.memory (pack.faults 0 + 0 * Plugin.sizeofFault) = msg := by
    rw [Nat.zero_mul, Nat.add_zero]
    exact pack.unpacked 0 _ rfl
  refine ⟨⟨msg.address, msg.type, msg.model, msg.lifespan, msg.numBytes % 256, Plugin.faultMask msg,
    fun _ => 0, ⟨msg.triggerAddress, msg.triggerHitcounter, junk 0⟩⟩, ?_, haddress, hhit⟩
  rw [Plugin.qemuSetupConfig, if_neg (mt Campaign.packSize_eq_zero.mp (List.cons_ne_nil _ _))]
  simp only [List.length_singleton, List.range_one, List.foldl_cons, List.foldl_nil, hread]
  rfl

/-! ### The injection -/

/-- The executions of a trigger, while the experiment repeats the golden run. -/
theorem executions_eq {golden : TbMachine} (h : golden.Collected false)
    (hcoherent : Coherent (golden.translated.map Plugin.TbTranslation.tb)) {m : Machine}
    (hrepeats : m.executed.reverse <+: insns golden) {j p : ℕ}
    (hj : ((insns golden).map Insn.vaddr)[p]? = some j) :
    m.executions j = (((insns golden).map Insn.vaddr).take m.executed.length).count j := by
  obtain ⟨i, hi, rfl⟩ := Option.map_eq_some_iff.mp (List.getElem?_map ▸ hj)
  have hmem := List.mem_of_getElem? hi
  obtain ⟨tb, -, hin⟩ := mem_insns h hmem
  have hself : i.Contains i.vaddr := ⟨le_rfl, Nat.lt_add_of_pos_right (tb.sized i hin)⟩
  rw [← countP_contains h hcoherent hmem hself, Machine.executions, ← List.countP_reverse,
    List.prefix_iff_eq_take.mp hrepeats, List.length_reverse]

/-- A resolved trigger of a positive hitcounter, and how the plugin is told of it. -/
theorem intFault_trigger {fault : ConfigFault} {f : IntFault} (h : Campaign.Hdf5.intFault fault = .ok f) :
    f.trigger = fault.trigger := by
  unfold Campaign.Hdf5.intFault at h
  split at h
  · rw [← Except.ok.inj h]
  · cases h

def thirdBlock : List TbEvent :=
  [.translate (Plugin.oneInsnTb 60), .exec 0, .translate (Plugin.oneInsnTb 64), .exec 1, .exec 1,
    .translate (Plugin.oneInsnTb 68), .exec 2]

def thirdBlockFault : ConfigFault := ⟨⟨-1, 1⟩, .int 68, [], 1, 0, 0, .int 1, 1, false⟩

def thirdBlockHeap : Heap ConfigFault := ⟨fun _ => thirdBlockFault, 1⟩

/-- The trigger is the second execution of `64`. -/
def thirdBlockResolved : IntFault := ⟨⟨64, 2⟩, 68, [], 1, 0, 0, 1, 1, false⟩

/-- The experiment until the trigger is hit. -/
def thirdBlockRun : List Event :=
  [.translate (Plugin.oneInsnTb 60), .enter 0, .insn, .translate (Plugin.oneInsnTb 64), .enter 1, .insn,
    .enter 1, .insn]

/-- The resolved fault in the plugin. -/
def thirdBlockState : Plugin.State :=
  Plugin.freshState (Plugin.addMessage [] (Campaign.IntFault.message thirdBlockResolved) 0)

theorem everyStep_thirdBlockRun : ∃ s', thirdBlockState.registerFaultTriggerAddresses = some s' ∧
    (∃ m, Run.run Machine.step (Machine.boot s') thirdBlockRun = some m ∧ m.executed.length = 3 ∧
      m.state.calls.count (.injectFault 0) = 1) ∧
    Run.EveryStep Machine.step (fun m e => ¬ m.MissedTrigger 64 2 e) (Machine.boot s') thirdBlockRun := by
  refine ⟨_, rfl, ⟨_, rfl, rfl, rfl⟩, Machine.not_missedTrigger_of_ne (by simp), ?_⟩
  rintro _ ⟨⟩
  refine ⟨Machine.not_missedTrigger_of_ne (by simp), ?_⟩
  rintro _ ⟨⟩
  refine ⟨?_, ?_⟩
  · -- the TB translated first does not contain the trigger
    rintro ⟨c, i, insn, -, ⟨⟩, -, ⟨⟩, hcont, -⟩
    exact absurd hcont (by decide)
  rintro _ ⟨⟩
  refine ⟨Machine.not_missedTrigger_of_ne (by simp), ?_⟩
  rintro _ ⟨⟩
  refine ⟨Machine.not_missedTrigger_of_ne (by simp), ?_⟩
  rintro _ ⟨⟩
  refine ⟨Machine.not_missedTrigger rfl rfl (by decide), ?_⟩
  rintro _ ⟨⟩
  refine ⟨Machine.not_missedTrigger_of_ne (by simp), ?_⟩
  rintro _ ⟨⟩
  exact ⟨Machine.not_missedTrigger rfl rfl (by decide), fun _ _ => trivial⟩

end Archie
