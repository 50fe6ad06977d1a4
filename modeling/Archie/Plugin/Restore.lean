import Archie.Plugin.FaultInjection

/-! Temporary memory faults side by side.

    Each injection and each reversal rewrites its whole window, so faults close to each other rewrite
    each other's bytes. Bit by bit a fault touches its affected bits only:

        inject_memory_fault     affected bits ↦ faulted, restore mask ↦ their old values
        process_reverse_fault   affected bits ↦ restore mask                                  -/

namespace Archie

/-- One bit of guest memory. -/
def Cpu.bit (c : Cpu) (a b : ℕ) : Bool := (c.mem a).getLsbD b

namespace Plugin

/-- The bits of the mask, or the first `num_bytes` bytes of an overwrite. -/
def Fault.Affects (f : Fault) (a b : ℕ) : Prop :=
  ∃ k : Fin 16, a = f.address + k ∧
    if f.model = OVERWRITE then k.val < f.numBytes else (f.mask k).getLsbD b = true

/-- One of the four models; an overwrite has a mask for its bytes only. -/
structure Fault.Regular (f : Fault) : Prop where
  model : f.model = SET0 ∨ f.model = SET1 ∨ f.model = TOGGLE ∨ f.model = OVERWRITE
  numBytes : f.model = OVERWRITE → f.numBytes ≤ 16
  mask : f.model = OVERWRITE → ∀ k : Fin 16, f.numBytes ≤ k.val → f.mask k = 0

/-! ### Windows -/

section Window

variable (c : Cpu) (address n : ℕ) (value : Mask)

theorem writeWindow_getElem? (i : ℕ) :
    (((List.finRange 16).map value).take n)[i]?
      = if h : i < 16 then if i < n then some (value ⟨i, h⟩) else none else none := by
  rw [List.getElem?_take, List.getElem?_map]
  by_cases h : i < 16
  · rw [dif_pos h, List.getElem?_eq_getElem (by simpa using h)]
    simp
  · rw [dif_neg h, List.getElem?_eq_none (by simpa using h)]
    simp

theorem writeWindow_mem_inside (k : Fin 16) (hk : k.val < n) :
    (c.writeWindow address n value).mem (address + k) = value k := by
  rw [Cpu.writeWindow, Cpu.write_mem, if_pos (Nat.le_add_right _ _), Nat.add_sub_cancel_left,
    writeWindow_getElem?, dif_pos k.isLt, if_pos hk]
  rfl

theorem writeWindow_mem_outside {a : ℕ} (ha : ∀ k : Fin 16, k.val < n → a ≠ address + k) :
    (c.writeWindow address n value).mem a = c.mem a := by
  rw [Cpu.writeWindow, Cpu.write_mem]
  split
  · next hle =>
    rw [writeWindow_getElem?]
    split
    · next hlt =>
      rw [if_neg fun hn => ha ⟨a - address, hlt⟩ hn (by simp only; omega)]
      rfl
    · rfl
  · rfl

end Window

theorem getLsbD_and_not (x y : Byte) (b : ℕ) :
    (x &&& ~~~y).getLsbD b = (x.getLsbD b && !y.getLsbD b) := by
  rcases Nat.lt_or_ge b 8 with hb | hb
  · simp [hb]
  · simp [BitVec.getLsbD_of_ge x b hb]

/-! ### One fault -/

/-- A live fault holds the old values of its affected bits in its restore mask. -/
structure Fault.Holds (f : Fault) (old : ℕ → ℕ → Bool) (c : Cpu) : Prop where
  restore : ∀ (k : Fin 16) (b : ℕ), f.Affects (f.address + k) b →
    (f.restoremask k).getLsbD b = old (f.address + k) b
  clear : ∀ (k : Fin 16) (b : ℕ), ¬ f.Affects (f.address + k) b → (f.restoremask k).getLsbD b = false
  overwritten : f.model = OVERWRITE → ∀ (k : Fin 16) (b : ℕ), f.Affects (f.address + k) b →
    c.bit (f.address + k) b = (f.mask k).getLsbD b

namespace Fault

variable {f : Fault} {c c' : Cpu} {old : ℕ → ℕ → Bool}

theorem affects_window {k : Fin 16} {b : ℕ} : f.Affects (f.address + k) b ↔
    if f.model = OVERWRITE then k.val < f.numBytes else (f.mask k).getLsbD b = true := by
  constructor
  · rintro ⟨k', heq, h⟩
    obtain rfl : k = k' := Fin.ext (by omega)
    exact h
  · exact fun h => ⟨k, rfl, h⟩

/-- Outside the window nothing is affected. -/
theorem Affects.window {a b : ℕ} (h : f.Affects a b) : ∃ k : Fin 16, a = f.address + k :=
  let ⟨k, ha, _⟩ := h
  ⟨k, ha⟩

/-- A bit model keeps the bits outside its mask. -/
theorem injectMemoryFault_op (hf : f.Regular) (hmodel : f.model ≠ OVERWRITE) (c : Cpu) :
    ∃ op : Byte → Byte → Byte,
      (∀ x y b, y.getLsbD b = false → (op x y).getLsbD b = x.getLsbD b) ∧
      injectMemoryFault c f = ((c.processMemory op f.address f.mask).1,
        { f with restoremask := (c.processMemory op f.address f.mask).2 }) := by
  rcases hf.model with h | h | h | h
  · refine ⟨fun value mask => value &&& ~~~mask, fun x y b hy => ?_, ?_⟩
    · rw [getLsbD_and_not, hy, Bool.not_false, Bool.and_true]
    · simp only [injectMemoryFault, h]
      rfl
  · refine ⟨fun value mask => value ||| mask, fun x y b hy => ?_, ?_⟩
    · rw [BitVec.getLsbD_or, hy, Bool.or_false]
    · simp only [injectMemoryFault, h]
      rfl
  · refine ⟨fun value mask => value ^^^ mask, fun x y b hy => ?_, ?_⟩
    · rw [BitVec.getLsbD_xor, hy, Bool.xor_false]
    · simp only [injectMemoryFault, h]
      rfl
  · exact absurd h hmodel

theorem injectMemoryFault_overwrite (hf : f.Regular) (hmodel : f.model = OVERWRITE) (c : Cpu) :
    injectMemoryFault c f = (c.writeWindow f.address f.numBytes f.mask,
      { f with restoremask := fun i => if i < f.numBytes then c.mem (f.address + i) else 0 }) := by
  have hle : ¬ f.numBytes > 16 := Nat.not_lt.mpr (hf.numBytes hmodel)
  simp only [injectMemoryFault, hmodel, Cpu.processOverwriteMemory, if_neg hle]
  rfl

/-- An injection changes its affected bits only and holds their old values. -/
theorem Regular.inject (hf : f.Regular) (c : Cpu) :
    (∀ a b, ¬ f.Affects a b → (injectMemoryFault c f).1.bit a b = c.bit a b) ∧
    (injectMemoryFault c f).2.Holds c.bit (injectMemoryFault c f).1 := by
  by_cases hmodel : f.model = OVERWRITE
  · rw [injectMemoryFault_overwrite hf hmodel]
    refine ⟨fun a b hno => ?_, ⟨fun k b haff => ?_, fun k b hno => ?_, fun _ k b haff => ?_⟩⟩
    · refine congrArg (BitVec.getLsbD · b) (writeWindow_mem_outside c f.address f.numBytes f.mask ?_)
      rintro k hk rfl
      exact hno ⟨k, rfl, by rw [if_pos hmodel]; exact hk⟩
    · have hk : k.val < f.numBytes := by simpa only [hmodel, if_true] using affects_window.mp haff
      show BitVec.getLsbD (if k.val < f.numBytes then _ else _) b = _
      rw [if_pos hk]
      rfl
    · have hk : ¬ k.val < f.numBytes := fun hk =>
        hno (affects_window.mpr (by simpa only [hmodel, if_true] using hk))
      show BitVec.getLsbD (if k.val < f.numBytes then _ else _) b = _
      rw [if_neg hk]
      exact BitVec.getLsbD_zero
    · have hk : k.val < f.numBytes := by simpa only [hmodel, if_true] using affects_window.mp haff
      exact congrArg (BitVec.getLsbD · b) (writeWindow_mem_inside c f.address f.numBytes f.mask k hk)
  · obtain ⟨op, hop, heq⟩ := injectMemoryFault_op hf hmodel c
    rw [heq]
    refine ⟨fun a b hno => ?_, ⟨fun k b haff => ?_, fun k b hno => ?_, fun h => absurd h hmodel⟩⟩
    · by_cases hin : ∃ k : Fin 16, a = f.address + k
      · obtain ⟨k, rfl⟩ := hin
        have hmask : (f.mask k).getLsbD b = false := by
          simpa only [affects_window, hmodel, if_false, Bool.not_eq_true] using hno
        show ((Cpu.writeWindow _ _ _ _).mem (f.address + k)).getLsbD b = _
        rw [writeWindow_mem_inside _ _ _ _ k k.isLt]
        exact hop _ _ b hmask
      · refine congrArg (BitVec.getLsbD · b) (writeWindow_mem_outside c f.address 16 _ ?_)
        exact fun k _ ha => hin ⟨k, ha⟩
    · have hmask : (f.mask k).getLsbD b = true := by
        simpa only [hmodel, if_false] using affects_window.mp haff
      show BitVec.getLsbD (c.mem (f.address + k) &&& f.mask k) b = _
      rw [BitVec.getLsbD_and, hmask, Bool.and_true]
      rfl
    · have hmask : (f.mask k).getLsbD b = false := by
        have hno : ¬ f.Affects (f.address + k) b := hno
        simpa only [affects_window, hmodel, if_false, Bool.not_eq_true] using hno
      show BitVec.getLsbD (c.mem (f.address + k) &&& f.mask k) b = _
      rw [BitVec.getLsbD_and, hmask, Bool.and_false]

/-- A reversal puts the old values back and changes nothing else. -/
theorem Regular.reverse (hf : f.Regular) (hholds : f.Holds old c) :
    (∀ a b, ¬ f.Affects a b →
      (c.processReverseFault f.address f.mask f.restoremask).bit a b = c.bit a b) ∧
    ∀ a b, f.Affects a b →
      (c.processReverseFault f.address f.mask f.restoremask).bit a b = old a b := by
  have hinside : ∀ (k : Fin 16) (b : ℕ),
      (c.processReverseFault f.address f.mask f.restoremask).bit (f.address + k) b
        = (c.bit (f.address + k) b && !(f.mask k).getLsbD b || (f.restoremask k).getLsbD b) := by
    intro k b
    rw [Cpu.bit, Cpu.processReverseFault, writeWindow_mem_inside _ _ _ _ k k.isLt, BitVec.getLsbD_or,
      getLsbD_and_not]
    rfl
  refine ⟨fun a b hno => ?_, fun a b haff => ?_⟩
  · by_cases hin : ∃ k : Fin 16, a = f.address + k
    · obtain ⟨k, rfl⟩ := hin
      have hmask : (f.mask k).getLsbD b = false := by
        by_cases hmodel : f.model = OVERWRITE
        · have hk : f.numBytes ≤ k.val := by
            simpa only [affects_window, hmodel, if_true, Nat.not_lt] using hno
          rw [hf.mask hmodel k hk]
          exact BitVec.getLsbD_zero
        · simpa only [affects_window, hmodel, if_false, Bool.not_eq_true] using hno
      rw [hinside, hmask, hholds.clear k b hno, Bool.not_false, Bool.and_true, Bool.or_false]
    · refine congrArg (BitVec.getLsbD · b) (writeWindow_mem_outside c f.address 16 _ ?_)
      exact fun k _ ha => hin ⟨k, ha⟩
  · obtain ⟨k, rfl⟩ := haff.window
    rw [hinside, hholds.restore k b haff]
    by_cases hmodel : f.model = OVERWRITE
    · -- what is there is what was written
      rw [hholds.overwritten hmodel k b haff, Bool.and_not_self, Bool.false_or]
    · have hmask : (f.mask k).getLsbD b = true := by
        simpa only [hmodel, if_false] using affects_window.mp haff
      rw [hmask, Bool.not_true, Bool.and_false, Bool.false_or]

end Fault

/-! ### Runs -/

/-- The guest and the faults with their restore masks. -/
structure Memory where
  cpu : Cpu
  faults : List Fault

/-- A guest write stores the selected bits of a byte. -/
inductive MemoryEvent where
  | inject (current : ℕ)
  | reverse (current : ℕ)
  | guest (address : ℕ) (select value : Byte)
  deriving DecidableEq

def guestWrite (c : Cpu) (address : ℕ) (select value : Byte) : Cpu :=
  let byte := (c.mem address &&& ~~~select) ||| (value &&& select)
  { c with mem := Function.update c.mem address byte }

def memoryStep (m : Memory) : MemoryEvent → Memory
  | .inject current => match m.faults[current]? with
    | some f => ⟨(injectMemoryFault m.cpu f).1, m.faults.set current (injectMemoryFault m.cpu f).2⟩
    | none => m
  | .reverse current => match m.faults[current]? with
    | some f => { m with cpu := m.cpu.processReverseFault f.address f.mask f.restoremask }
    | none => m
  | .guest address select value => { m with cpu := guestWrite m.cpu address select value }

def memoryRun (c : Cpu) (faults : List Fault) (es : List MemoryEvent) : Memory :=
  es.foldl memoryStep ⟨c, faults⟩

/-- Injections and reversals of the plugin are such steps. -/
theorem memoryStep_injectWith (s : State) (current : ℕ) :
    Memory.mk (s.injectWith injectMemoryFault current).cpu (s.injectWith injectMemoryFault current).faults
      = memoryStep ⟨s.cpu, s.faults⟩ (.inject current) := by
  rcases hf : s.faults[current]? with _ | f <;> simp only [State.injectWith, memoryStep, hf]

theorem memoryStep_reverseByType {s : State} {current : ℕ} {f : Fault} (hf : s.faults[current]? = some f)
    (htype : f.type = INSTRUCTION ∨ f.type = DATA) :
    Memory.mk (s.reverseByType f).cpu (s.reverseByType f).faults
      = memoryStep ⟨s.cpu, s.faults⟩ (.reverse current) := by
  have hread := State.same_readSpecificMemoryregion (s := State.flushTb
    { s with cpu := s.cpu.processReverseFault f.address f.mask f.restoremask }) f.address
  have hregister : ¬ f.type = REGISTER := by rcases htype with h | h <;> rw [h] <;> decide
  simp only [State.reverseByType, if_pos htype, if_neg hregister, memoryStep, hf, hread.cpu, hread.faults]
  rfl

/-- The guest if no fault is ever injected. -/
def guestRun (c : Cpu) (es : List MemoryEvent) : Cpu :=
  es.foldl (fun c e => match e with
    | .guest address select value => guestWrite c address select value
    | _ => c) c

/-- No fault is injected or reversed twice, and none is reversed before it is injected. -/
structure Ordered (es : List MemoryEvent) : Prop where
  injects : ∀ i, es.count (.inject i) ≤ 1
  reverses : ∀ i, es.count (.reverse i) ≤ 1
  before : ∀ i pre post, es = pre ++ .reverse i :: post → .inject i ∈ pre

/-- A guest write leaves the affected bits alone. -/
def MemoryEvent.Avoids (faults : List Fault) : MemoryEvent → Prop
  | .guest address select _ =>
    ∀ f ∈ faults, ∀ b, f.Affects address b → select.getLsbD b = false
  | _ => True

/-- Regular faults that share no affected bit. -/
structure Separate (faults : List Fault) : Prop where
  regular : ∀ f ∈ faults, f.Regular
  disjoint : faults.Pairwise fun f g => ∀ a b, f.Affects a b → ¬ g.Affects a b

section Guest

variable {c c' : Cpu} {address : ℕ} {select value : Byte} {a b : ℕ}

theorem guestWrite_bit : (guestWrite c address select value).bit a b
    = if a = address then c.bit a b && !select.getLsbD b || (value &&& select).getLsbD b
      else c.bit a b := by
  by_cases ha : a = address
  · subst ha
    simp only [if_true, Cpu.bit, guestWrite, Function.update_self, BitVec.getLsbD_or, getLsbD_and_not]
  · simp only [if_neg ha, Cpu.bit, guestWrite, Function.update_of_ne ha]

theorem guestWrite_bit_of_avoids (h : a = address → select.getLsbD b = false) :
    (guestWrite c address select value).bit a b = c.bit a b := by
  rw [guestWrite_bit]
  split
  · next ha =>
    rw [BitVec.getLsbD_and, h ha, Bool.not_false, Bool.and_true, Bool.and_false, Bool.or_false]
  · rfl

end Guest

theorem Ordered.append {es fs : List MemoryEvent} (h : Ordered (es ++ fs)) : Ordered es := by
  have hsub := List.sublist_append_left es fs
  refine ⟨fun i => (hsub.count_le _).trans (h.injects i), fun i => (hsub.count_le _).trans (h.reverses i),
    fun i pre post heq => ?_⟩
  exact h.before i pre (post ++ fs) (by rw [heq, List.append_assoc, List.cons_append])

/-- A fault is neither live nor over when it is injected. -/
theorem Ordered.inject {es : List MemoryEvent} {i : ℕ} (h : Ordered (es ++ [.inject i])) :
    es.count (.inject i) = 0 ∧ es.count (.reverse i) = 0 := by
  have hinject := h.injects i
  rw [List.count_append, List.count_singleton_self] at hinject
  have hnone : es.count (.inject i) = 0 := by omega
  refine ⟨hnone, List.count_eq_zero.mpr fun hmem => ?_⟩
  obtain ⟨pre, post, rfl⟩ := List.append_of_mem hmem
  have hbefore := h.append.before i pre post rfl
  exact List.count_eq_zero.mp hnone (List.mem_append_left _ hbefore)

theorem Ordered.reverse {es : List MemoryEvent} {i : ℕ} (h : Ordered (es ++ [.reverse i])) :
    es.count (.inject i) = 1 ∧ es.count (.reverse i) = 0 := by
  have hreverse := h.reverses i
  rw [List.count_append, List.count_singleton_self] at hreverse
  have hmem := List.count_pos_iff.mpr (h.before i es [] rfl)
  have := h.append.injects i
  exact ⟨by omega, by omega⟩

/-- The invariant: an affected bit is the initial one unless its fault is live, then the fault holds
    it; a bit that no fault affects is that of the guest. -/
structure RestoreInv (c : Cpu) (faults : List Fault) (es : List MemoryEvent) (m : Memory) : Prop where
  agree : ∀ (i : ℕ) (f : Fault), m.faults[i]? = some f →
    ∃ (f₀ : Fault) (mask : Mask), faults[i]? = some f₀ ∧ f = { f₀ with restoremask := mask }
  known : ∀ (i : ℕ) (f₀ : Fault), faults[i]? = some f₀ → ∃ f, m.faults[i]? = some f
  quiet : ∀ (i : ℕ) (f₀ : Fault) (a b : ℕ), faults[i]? = some f₀ → f₀.Affects a b →
    es.count (.inject i) = es.count (.reverse i) → m.cpu.bit a b = c.bit a b
  live : ∀ (i : ℕ) (f : Fault), m.faults[i]? = some f → es.count (.reverse i) < es.count (.inject i) →
    f.Holds c.bit m.cpu
  other : ∀ a b, (∀ f ∈ faults, ¬ f.Affects a b) → m.cpu.bit a b = (guestRun c es).bit a b

section Step

variable {c : Cpu} {faults : List Fault} {es : List MemoryEvent} {m : Memory} {p i j : ℕ}
  {f g : Fault} {a b : ℕ}

theorem Separate.not_affects (h : Separate faults) (hf : faults[i]? = some f)
    (hg : faults[j]? = some g) (hne : i ≠ j) (haff : f.Affects a b) : ¬ g.Affects a b := by
  obtain ⟨hi, rfl⟩ := List.getElem?_eq_some_iff.mp hf
  obtain ⟨hj, rfl⟩ := List.getElem?_eq_some_iff.mp hg
  have hpw := List.pairwise_iff_getElem.mp h.disjoint
  rcases Nat.lt_or_gt_of_ne hne with hlt | hlt
  · exact hpw i j hi hj hlt a b haff
  · exact fun hg => hpw j i hj hi hlt a b hg haff

theorem Fault.Holds.mono {old : ℕ → ℕ → Bool} {c' : Cpu} (h : f.Holds old c)
    (hsame : ∀ a b, f.Affects a b → c'.bit a b = c.bit a b) : f.Holds old c' :=
  ⟨h.restore, h.clear, fun hm k b haff => (hsame _ _ haff).trans (h.overwritten hm k b haff)⟩

theorem Fault.Holds.congr {old old' : ℕ → ℕ → Bool} (h : f.Holds old c)
    (hsame : ∀ a b, f.Affects a b → old a b = old' a b) : f.Holds old' c :=
  ⟨fun k b haff => (h.restore k b haff).trans (hsame _ _ haff), h.clear, h.overwritten⟩

theorem RestoreInv.regular (h : RestoreInv c faults es m) (hsep : Separate faults) {i : ℕ} {f : Fault}
    (hf : m.faults[i]? = some f) : f.Regular := by
  obtain ⟨f₀, mask, hf₀, rfl⟩ := h.agree i f hf
  obtain ⟨h₁, h₂, h₃⟩ := hsep.regular f₀ (List.mem_of_getElem? hf₀)
  exact ⟨h₁, h₂, h₃⟩

/-- A fault that is not in the list is not touched. -/
theorem RestoreInv.missing {e : MemoryEvent} (h : RestoreInv c faults es m) {p : ℕ}
    (hp : m.faults[p]? = none) (he : e = .inject p ∨ e = .reverse p) :
    RestoreInv c faults (es ++ [e]) m := by
  have hcount : ∀ (i : ℕ) (x : Fault), faults[i]? = some x →
      (es ++ [e]).count (.inject i) = es.count (.inject i) ∧
      (es ++ [e]).count (.reverse i) = es.count (.reverse i) := by
    intro i x hx
    have hi : p ≠ i := by
      rintro rfl
      obtain ⟨f, hf⟩ := h.known p x hx
      exact absurd (hp.symm.trans hf) nofun
    rcases he with rfl | rfl <;> simp [hi]
  refine ⟨h.agree, h.known, fun i x a b hx haff heq => ?_, fun i x hx hlt => ?_, fun a b hnone => ?_⟩
  · rw [(hcount i x hx).1, (hcount i x hx).2] at heq
    exact h.quiet i x a b hx haff heq
  · obtain ⟨x₀, -, hx₀, -⟩ := h.agree i x hx
    rw [(hcount i x₀ hx₀).1, (hcount i x₀ hx₀).2] at hlt
    exact h.live i x hx hlt
  · rw [h.other a b hnone]
    rcases he with rfl | rfl <;> simp [guestRun]

/-- The guest writes where no fault is. -/
theorem RestoreInv.guest (h : RestoreInv c faults es m) {address : ℕ} {select value : Byte}
    (hguest : MemoryEvent.Avoids faults (.guest address select value)) :
    RestoreInv c faults (es ++ [.guest address select value])
      (memoryStep m (.guest address select value)) := by
  have hsame : ∀ f ∈ faults, ∀ a b, f.Affects a b →
      (guestWrite m.cpu address select value).bit a b = m.cpu.bit a b := by
    intro f hf a b haff
    refine guestWrite_bit_of_avoids ?_
    rintro rfl
    exact hguest f hf b haff
  refine ⟨h.agree, h.known, fun i x a b hx haff heq => ?_, fun i x hx hlt => ?_, fun a b hnone => ?_⟩
  · have heq : es.count (.inject i) = es.count (.reverse i) := by simpa using heq
    exact (hsame x (List.mem_of_getElem? hx) a b haff).trans (h.quiet i x a b hx haff heq)
  · have hlt : es.count (.reverse i) < es.count (.inject i) := by simpa using hlt
    obtain ⟨x₀, mask, hx₀, rfl⟩ := h.agree i x hx
    exact (h.live i _ hx hlt).mono fun a b haff => hsame x₀ (List.mem_of_getElem? hx₀) a b haff
  · have hrun : guestRun c (es ++ [.guest address select value])
        = guestWrite (guestRun c es) address select value := by simp [guestRun]
    show (guestWrite m.cpu address select value).bit a b = _
    rw [hrun, guestWrite_bit, guestWrite_bit, h.other a b hnone]

/-- A step of fault `p`: it changes the affected bits of `p` only, which are the initial ones again
    or held by the fault. -/
theorem RestoreInv.fault {m' : Memory} {e : MemoryEvent} (h : RestoreInv c faults es m)
    (hsep : Separate faults) (he : e = .inject p ∨ e = .reverse p) (hp : m.faults[p]? = some f)
    (hg : ∃ mask, g = { f with restoremask := mask }) (hfs : m'.faults = m.faults.set p g)
    (hother : ∀ a b, ¬ f.Affects a b → m'.cpu.bit a b = m.cpu.bit a b)
    (hquiet : (es ++ [e]).count (.inject p) = (es ++ [e]).count (.reverse p) →
      ∀ a b, f.Affects a b → m'.cpu.bit a b = c.bit a b)
    (hlive : (es ++ [e]).count (.reverse p) < (es ++ [e]).count (.inject p) → g.Holds c.bit m'.cpu) :
    RestoreInv c faults (es ++ [e]) m' := by
  obtain ⟨mask, rfl⟩ := hg
  obtain ⟨f₀, mask₀, hf₀, rfl⟩ := h.agree p f hp
  obtain ⟨hlt, -⟩ := List.getElem?_eq_some_iff.mp hp
  have hcount : ∀ i, i ≠ p → (es ++ [e]).count (.inject i) = es.count (.inject i) ∧
      (es ++ [e]).count (.reverse i) = es.count (.reverse i) := by
    intro i hi
    rcases he with rfl | rfl <;> simp [Ne.symm hi]
  have hself := getElem?_replaced_self hfs hp
  refine ⟨fun i x hx => ?_, fun i x hx => ?_, fun i x a b hx haff heq => ?_, fun i x hx hlt' => ?_,
    fun a b hnone => ?_⟩
  · rcases getElem?_replaced_cases hfs hp hx with ⟨rfl, rfl⟩ | ⟨-, hx⟩
    · exact ⟨f₀, mask, hf₀, rfl⟩
    · exact h.agree i x hx
  · by_cases hi : i = p
    · exact ⟨_, hi ▸ hself⟩
    · rw [getElem?_replaced_other hfs hi]
      exact h.known i x hx
  · by_cases hi : i = p
    · subst hi
      obtain rfl := Option.some.inj (hf₀.symm.trans hx)
      exact hquiet heq a b haff
    · rw [(hcount i hi).1, (hcount i hi).2] at heq
      rw [hother a b (hsep.not_affects (g := f₀) hx hf₀ hi haff)]
      exact h.quiet i x a b hx haff heq
  · rcases getElem?_replaced_cases hfs hp hx with ⟨rfl, rfl⟩ | ⟨hi, hx⟩
    · exact hlive hlt'
    · rw [(hcount i hi).1, (hcount i hi).2] at hlt'
      obtain ⟨x₀, mask', hx₀, rfl⟩ := h.agree i x hx
      refine (h.live i _ hx hlt').mono fun a b haff => ?_
      exact hother a b (hsep.not_affects (g := f₀) hx₀ hf₀ hi haff)
  · rw [hother a b (hnone f₀ (List.mem_of_getElem? hf₀)), h.other a b hnone]
    rcases he with rfl | rfl <;> simp [guestRun]

theorem RestoreInv.step {e : MemoryEvent} (h : RestoreInv c faults es m) (hsep : Separate faults)
    (hord : Ordered (es ++ [e])) (hguest : e.Avoids faults) :
    RestoreInv c faults (es ++ [e]) (memoryStep m e) := by
  cases e with
  | inject p =>
    rcases hp : m.faults[p]? with _ | f
    · have hm : memoryStep m (.inject p) = m := by simp only [memoryStep, hp]
      rw [hm]
      exact h.missing hp (.inl rfl)
    · obtain ⟨hnone, hnone'⟩ := hord.inject
      obtain ⟨hother, hholds⟩ := (h.regular hsep hp).inject m.cpu
      have hstep : memoryStep m (.inject p) = ⟨(injectMemoryFault m.cpu f).1,
          m.faults.set p (injectMemoryFault m.cpu f).2⟩ := by simp only [memoryStep, hp]
      obtain ⟨f₀, mask, hf₀, rfl⟩ := h.agree p f hp
      rw [hstep]
      refine h.fault hsep (.inl rfl) hp ⟨_, rfl⟩ rfl hother (fun heq => ?_) fun _ => ?_
      · rw [List.count_append, List.count_append, hnone, hnone'] at heq
        simp at heq
      · -- the values it holds are the initial ones
        exact hholds.congr fun a b haff => h.quiet p f₀ a b hf₀ haff (hnone.trans hnone'.symm)
  | reverse p =>
    rcases hp : m.faults[p]? with _ | f
    · have hm : memoryStep m (.reverse p) = m := by simp only [memoryStep, hp]
      rw [hm]
      exact h.missing hp (.inr rfl)
    · obtain ⟨hone, hnone⟩ := hord.reverse
      obtain ⟨hother, hback⟩ := (h.regular hsep hp).reverse (h.live p f hp (by omega))
      have hstep : memoryStep m (.reverse p) = { m with
          cpu := m.cpu.processReverseFault f.address f.mask f.restoremask } := by
        simp only [memoryStep, hp]
      obtain ⟨hlt, hget⟩ := List.getElem?_eq_some_iff.mp hp
      rw [hstep]
      refine h.fault (g := f) hsep (.inr rfl) hp ⟨_, rfl⟩ ?_ hother (fun _ => hback) fun hlt' => ?_
      · rw [← hget, List.set_getElem_self]
      · rw [List.count_append, List.count_append, hone, hnone] at hlt'
        simp at hlt'
  | guest address select value => exact h.guest hguest

end Step

/-- The invariant holds after every run that is in order. -/
theorem RestoreInv.run {c : Cpu} {faults : List Fault} (hsep : Separate faults) {es : List MemoryEvent}
    (hord : Ordered es) (hguest : ∀ e ∈ es, e.Avoids faults) :
    RestoreInv c faults es (memoryRun c faults es) := by
  induction es using List.reverseRecOn with
  | nil =>
    refine ⟨fun i f hf => ⟨f, f.restoremask, hf, rfl⟩, fun i f hf => ⟨f, hf⟩, fun _ _ _ _ _ _ _ => rfl,
      fun _ _ _ hlt => ?_, fun _ _ _ => rfl⟩
    simp at hlt
  | append_singleton es e ih =>
    have hprefix := ih hord.append fun x hx => hguest x (List.mem_append_left _ hx)
    rw [memoryRun, List.foldl_append]
    exact hprefix.step hsep hord (hguest e (by simp))

/-- Once every fault is injected and reversed, an affected bit is what it was before its injection
    and every other bit is what the guest made of it. -/
theorem memoryRun_restores {c : Cpu} {faults : List Fault} (hsep : Separate faults)
    {es : List MemoryEvent} (hord : Ordered es) (hguest : ∀ e ∈ es, e.Avoids faults)
    (hall : ∀ i < faults.length, .inject i ∈ es ∧ .reverse i ∈ es) :
    (∀ (i : ℕ) (f : Fault) (a b : ℕ) (pre post : List MemoryEvent),
      faults[i]? = some f → f.Affects a b → es = pre ++ .inject i :: post →
      (memoryRun c faults es).cpu.bit a b = (memoryRun c faults pre).cpu.bit a b) ∧
    ∀ a b, (∀ f ∈ faults, ¬ f.Affects a b) →
      (memoryRun c faults es).cpu.bit a b = (guestRun c es).bit a b := by
  have hfinal := RestoreInv.run (c := c) hsep hord hguest
  refine ⟨?_, hfinal.other⟩
  rintro i f a b pre post hf haff rfl
  obtain ⟨hlt, -⟩ := List.getElem?_eq_some_iff.mp hf
  have hprefix : Ordered (pre ++ [.inject i]) := by
    rw [List.append_cons] at hord
    exact hord.append
  obtain ⟨hnone, hnone'⟩ := hprefix.inject
  have hbefore := RestoreInv.run (c := c) hsep hprefix.append
    fun e he => hguest e (List.mem_append_left _ he)
  rw [hbefore.quiet i f a b hf haff (hnone.trans hnone'.symm)]
  refine hfinal.quiet i f a b hf haff ?_
  have hinject := List.count_pos_iff.mpr (hall i hlt).1
  have hreverse := List.count_pos_iff.mpr (hall i hlt).2
  have := hord.injects i
  have := hord.reverses i
  omega

/-! ### Two faults

    A toggle of the byte 0x10 and an overwrite of the byte before it, whose windows share 15 bytes. -/

def firstByte (value : Byte) : Mask := fun k => if k.val = 0 then value else 0

def neighbours : List Fault :=
  [⟨0x10, DATA, TOGGLE, 1, 1, firstByte 0xff, fun _ => 0, ⟨0x100, 1, 0⟩⟩,
    ⟨0xf, DATA, OVERWRITE, 1, 1, firstByte 0x55, fun _ => 0, ⟨0x100, 1, 0⟩⟩]

theorem neighbours_affects {f : Fault} {a b : ℕ} (hf : f ∈ neighbours) (haff : f.Affects a b) :
    a = f.address := by
  obtain ⟨k, ha, hk⟩ := haff
  have hzero : k.val = 0 := by
    simp only [neighbours, List.mem_cons, List.not_mem_nil, or_false] at hf
    rcases hf with rfl | rfl
    · by_contra hne
      simp [firstByte, hne] at hk
    · exact Nat.lt_one_iff.mp hk
  omega

def neighbourEvents : List MemoryEvent :=
  [.inject 0, .inject 1, .guest 0x11 0xff 0x7, .reverse 0, .reverse 1]

theorem memoryRun_restores_neighbours :
    (∀ (i : ℕ) (f : Fault) (a b : ℕ) (pre post : List MemoryEvent),
      neighbours[i]? = some f → f.Affects a b → neighbourEvents = pre ++ .inject i :: post →
      (memoryRun ⟨fun _ => 0x3c, fun _ => 0⟩ neighbours neighbourEvents).cpu.bit a b
        = (memoryRun ⟨fun _ => 0x3c, fun _ => 0⟩ neighbours pre).cpu.bit a b) ∧
    ∀ a b, (∀ f ∈ neighbours, ¬ f.Affects a b) →
      (memoryRun ⟨fun _ => 0x3c, fun _ => 0⟩ neighbours neighbourEvents).cpu.bit a b
        = (guestRun ⟨fun _ => 0x3c, fun _ => 0⟩ neighbourEvents).bit a b := by
  refine memoryRun_restores ⟨?_, ?_⟩ ⟨?_, ?_, ?_⟩ ?_ ?_
  · intro f hf
    simp only [neighbours, List.mem_cons, List.not_mem_nil, or_false] at hf
    rcases hf with rfl | rfl
    · refine ⟨by decide, fun h => absurd h (by decide), fun h => absurd h (by decide)⟩
    · refine ⟨by decide, by decide, fun _ k hk => if_neg (Nat.ne_of_gt hk)⟩
  · refine List.pairwise_pair.mpr fun a b hf hg => ?_
    have h₁ := neighbours_affects (by simp [neighbours]) hf
    have h₂ := neighbours_affects (by simp [neighbours]) hg
    exact absurd (h₁.symm.trans h₂) (by decide)
  · exact fun i => List.nodup_iff_count_le_one.mp (by decide) _
  · exact fun i => List.nodup_iff_count_le_one.mp (by decide) _
  · intro i pre post heq
    rcases pre with _ | ⟨_, _ | ⟨_, _ | ⟨_, _ | ⟨_, _ | ⟨_, pre⟩⟩⟩⟩⟩
    · cases heq
    · cases heq
    · cases heq
    · cases heq
      simp
    · cases heq
      simp
    · simp [neighbourEvents] at heq
  · intro e he
    simp only [neighbourEvents, List.mem_cons, List.not_mem_nil, or_false] at he
    rcases he with rfl | rfl | rfl | rfl | rfl
    · trivial
    · trivial
    · intro f hf b haff
      have haddr := neighbours_affects hf haff
      simp only [neighbours, List.mem_cons, List.not_mem_nil, or_false] at hf
      rcases hf with rfl | rfl <;> exact absurd haddr (by decide)
    · trivial
    · trivial
  · intro i hi
    have hi : i < 2 := hi
    rcases i with _ | _ | i
    · decide
    · decide
    · omega

end Plugin

end Archie
