import Archie.Plugin.TriggerVector

/-! The life of a fault in the plugin, for any number of faults.

    QEMU may run a callback whenever a translation has registered it, also long after the fault was
    injected or reversed. A fault is injected once, a temporary one is then live in a slot of its own
    until the last of its `lifetime` live callbacks reverses it:

        waiting ──inject_fault──▶ live, slot `trignum` ──tb_exec_cb, `lifetime` times──▶ reversed   -/

namespace Archie.Plugin
open Run State

/-- The plugin with the callbacks registered so far and those that ran. -/
structure Session where
  state : State
  registered : List Callback
  executed : List Callback

inductive SessionEvent where
  | start
  | translate (tb : Tb)
  | callback (cb : Callback)

/-- The event runs the live callback of fault `i`. -/
def SessionEvent.IsTick (i : ℕ) : SessionEvent → Prop
  | .callback cb => cb = .tbExecCb i
  | _ => False

instance (i : ℕ) : DecidablePred (SessionEvent.IsTick i)
  | .callback cb => inferInstanceAs (Decidable (cb = .tbExecCb i))
  | .start | .translate _ => inferInstanceAs (Decidable False)

namespace Session

/-- A plugin whose fault list is registered. -/
def boot (s : State) : Session := ⟨s, [], []⟩

def step (m : Session) : SessionEvent → Option Session
  | .start => some { m with state := m.state.tbExecStartCb }
  | .translate tb =>
    let (state, registered) := m.state.vcpuTranslateblockTranslationEvent tb
    some { m with state, registered := m.registered ++ registered.insn.map Prod.snd }
  | .callback cb =>
    if cb ∈ m.registered then
      some { m with state := m.state.runCallback cb, executed := m.executed ++ [cb] }
    else none

/-- How often the live callback of a fault ran. -/
def ticks (m : Session) (i : ℕ) : ℕ := m.executed.count (.tbExecCb i)

end Session

/-- The temporary faults of a list that are injected. -/
def State.injectedTemporary (faults : List Fault) (s : State) : Finset ℕ :=
  (Finset.range faults.length).filter fun i =>
    Call.injectFault i ∈ s.calls ∧ (faults[i]?).any fun f => decide (f.lifetime ≠ 0)

/-- What the plugin keeps for the faults it was given. -/
structure Lifecycle (faults : List Fault) (m : Session) : Prop where
  injectedOnce : ∀ i, m.state.calls.count (.injectFault i) ≤ 1
  /-- every injection of a temporary fault got a live number -/
  liveFaultsNumber : m.state.plugin.liveFaultsNumber = (m.state.injectedTemporary faults).card
  /-- `register_live_faults_callback` finds a free slot while a fault is left to inject -/
  slotFree : ∀ i < faults.length, Call.injectFault i ∉ m.state.calls →
    m.state.plugin.liveFaultsNumber < m.state.plugin.faultNumber
  liveFaults : ∀ k i, m.state.plugin.liveFaults[k]? = some (some i) →
    ∃ f, m.state.faults[i]? = some f ∧ Call.injectFault i ∈ m.state.calls ∧
      f.trigger.trignum = k ∧ 0 < f.lifetime
  reversed : ∀ i f, faults[i]? = some f → f.lifetime ≠ 0 →
    m.state.calls.count (.reverseFault i) = if f.lifetime ≤ m.ticks i then 1 else 0
  /-- no live fault is found to have no lifetime left -/
  stillLive : ∀ tb k, (m.state.evalLiveFaultCallback tb k).1 = m.state

/-- The last live callback of a fault clears its slot, nothing else clears one. -/
def ClearsOwnSlot (faults : List Fault) (m : Session) (e : SessionEvent) (m' : Session) : Prop :=
  ∀ (k i : ℕ) (f : Fault), m.state.plugin.liveFaults[k]? = some (some i) → faults[i]? = some f →
    if e.IsTick i ∧ m'.ticks i = f.lifetime then m'.state.plugin.liveFaults[k]? = some none
    else m'.state.plugin.liveFaults[k]? = some (some i)

/-! ### The invariant -/

/-- The invariant of the plugin, `ticks` being the live callbacks run so far. -/
structure State.LifeInv (faults : List Fault) (ticks : ℕ → ℕ) (s : State) : Prop where
  length : s.faults.length = faults.length
  faultNumber : s.plugin.faultNumber = faults.length
  liveLength : s.plugin.liveFaults.length = faults.length
  lifetime : ∀ i f, s.faults[i]? = some f →
    ∃ f₀, faults[i]? = some f₀ ∧ f.lifetime = f₀.lifetime - ticks i
  once : ∀ i, s.calls.count (.injectFault i) ≤ 1
  bound : ∀ i, Call.injectFault i ∈ s.calls → i < faults.length
  spent : ∀ i f, s.faults[i]? = some f → Call.injectFault i ∈ s.calls → f.trigger.hitcounter = 0
  untouched : ∀ i, Call.injectFault i ∉ s.calls → ticks i = 0
  liveNumber : s.plugin.liveFaultsNumber = (s.injectedTemporary faults).card
  slot : ∀ k i, s.plugin.liveFaults[k]? = some (some i) → k < s.plugin.liveFaultsNumber ∧
    ∃ f, s.faults[i]? = some f ∧ Call.injectFault i ∈ s.calls ∧ f.trigger.trignum = k ∧ 0 < f.lifetime
  live : ∀ i f, s.faults[i]? = some f → Call.injectFault i ∈ s.calls → 0 < f.lifetime →
    s.plugin.liveFaults[f.trigger.trignum]? = some (some i)
  reversed : ∀ i f, faults[i]? = some f → s.calls.count (.reverseFault i)
    = if f.lifetime ≠ 0 ∧ f.lifetime ≤ ticks i then 1 else 0

namespace State.LifeInv

variable {faults : List Fault} {ticks : ℕ → ℕ} {s s' : State} {p : ℕ} {f g : Fault}

/-- A step that keeps the calls and the live faults, and replaces at most one fault by one that has
    the same lifetime and number. -/
theorem keep (h : s.LifeInv faults ticks) (hf : s.faults[p]? = some f)
    (hlife : g.lifetime = f.lifetime) (hnum : g.trigger.trignum = f.trigger.trignum)
    (hspent : Call.injectFault p ∈ s.calls → g.trigger.hitcounter = 0)
    (hfs : s'.faults = s.faults.set p g) (hcalls : s'.calls = s.calls)
    (hnumber : s'.plugin.faultNumber = s.plugin.faultNumber)
    (hlive : s'.plugin.liveFaults = s.plugin.liveFaults)
    (hliveNumber : s'.plugin.liveFaultsNumber = s.plugin.liveFaultsNumber) :
    s'.LifeInv faults ticks := by
  -- a fault of the new list has the lifetime and the number of the old one
  have hold : ∀ {i : ℕ} {x : Fault}, s'.faults[i]? = some x → ∃ y, s.faults[i]? = some y ∧
      x.lifetime = y.lifetime ∧ x.trigger.trignum = y.trigger.trignum := by
    intro i x hx
    rcases getElem?_replaced_cases hfs hf hx with ⟨rfl, rfl⟩ | ⟨-, hx⟩
    · exact ⟨f, hf, hlife, hnum⟩
    · exact ⟨x, hx, rfl, rfl⟩
  refine ⟨by rw [hfs, List.length_set, h.length], hnumber.trans h.faultNumber,
    by rw [hlive, h.liveLength], ?_, by rw [hcalls]; exact h.once, by rw [hcalls]; exact h.bound, ?_,
    by rw [hcalls]; exact h.untouched, ?_, ?_, ?_, by rw [hcalls]; exact h.reversed⟩
  · intro i x hx
    obtain ⟨y, hy, hl, -⟩ := hold hx
    rw [hl]
    exact h.lifetime i y hy
  · intro i x hx hin
    rw [hcalls] at hin
    rcases getElem?_replaced_cases hfs hf hx with ⟨rfl, rfl⟩ | ⟨-, hx⟩
    · exact hspent hin
    · exact h.spent i x hx hin
  · rw [hliveNumber, h.liveNumber, injectedTemporary, injectedTemporary, hcalls]
  · intro k i hk
    rw [hlive] at hk
    obtain ⟨hlt', y, hy, hin, hn, hl⟩ := h.slot k i hk
    rw [hliveNumber, hcalls]
    refine ⟨hlt', ?_⟩
    by_cases hi : i = p
    · subst hi
      obtain rfl := Option.some.inj (hf.symm.trans hy)
      exact ⟨g, getElem?_replaced_self hfs hf, hin, hnum.trans hn, hlife ▸ hl⟩
    · exact ⟨y, (getElem?_replaced_other hfs hi).trans hy, hin, hn, hl⟩
  · intro i x hx hin hl
    obtain ⟨y, hy, hl', hn⟩ := hold hx
    rw [hlive, hn]
    exact h.live i y hy (hcalls ▸ hin) (hl' ▸ hl)

/-- A step that touches neither the faults, the live faults nor the calls. -/
theorem congr (h : s.LifeInv faults ticks) (hf : s'.faults = s.faults) (hc : s'.calls = s.calls)
    (hn : s'.plugin.faultNumber = s.plugin.faultNumber)
    (hl : s'.plugin.liveFaults = s.plugin.liveFaults)
    (hln : s'.plugin.liveFaultsNumber = s.plugin.liveFaultsNumber) : s'.LifeInv faults ticks := by
  constructor
  · rw [hf]; exact h.length
  · rw [hn]; exact h.faultNumber
  · rw [hl]; exact h.liveLength
  · rw [hf]; exact h.lifetime
  · rw [hc]; exact h.once
  · rw [hc]; exact h.bound
  · rw [hf, hc]; exact h.spent
  · rw [hc]; exact h.untouched
  · rw [hln, h.liveNumber, injectedTemporary, injectedTemporary, hc]
  · rw [hf, hl, hln, hc]; exact h.slot
  · rw [hf, hl, hc]; exact h.live
  · rw [hc]; exact h.reversed

theorem same (h : s.LifeInv faults ticks) (hsame : Same s s') : s'.LifeInv faults ticks :=
  h.congr hsame.faults hsame.calls (by rw [hsame.plugin]) (by rw [hsame.plugin]) (by rw [hsame.plugin])

/-- There is a free live number for a fault that is not injected yet. -/
theorem liveNumber_lt (h : s.LifeInv faults ticks) (hf : s.faults[p]? = some f)
    (hnot : Call.injectFault p ∉ s.calls) : s.plugin.liveFaultsNumber < s.plugin.faultNumber := by
  obtain ⟨hlt, -⟩ := List.getElem?_eq_some_iff.mp hf
  rw [h.length] at hlt
  have hmem : p ∈ Finset.range faults.length := Finset.mem_range.mpr hlt
  have hsub : s.injectedTemporary faults ⊆ (Finset.range faults.length).erase p := by
    intro i hi
    obtain ⟨hi, hin, -⟩ := Finset.mem_filter.mp hi
    refine Finset.mem_erase.mpr ⟨?_, hi⟩
    rintro rfl
    exact hnot hin
  have hcard := Finset.card_le_card hsub
  rw [Finset.card_erase_of_mem hmem, Finset.card_range] at hcard
  rw [h.liveNumber, h.faultNumber]
  omega

/-- An injection adds a temporary fault to the injected ones. -/
theorem injectedTemporary_inject {f₀ : Fault} (hf : faults[p]? = some f₀)
    (hcalls : s'.calls = s.calls ++ [Call.injectFault p]) : s'.injectedTemporary faults
      = if f₀.lifetime = 0 then s.injectedTemporary faults else insert p (s.injectedTemporary faults) := by
  obtain ⟨hlt, hget⟩ := List.getElem?_eq_some_iff.mp hf
  ext i
  have hin : Call.injectFault i ∈ s'.calls ↔ Call.injectFault i ∈ s.calls ∨ i = p := by
    rw [hcalls, List.mem_append, List.mem_singleton, Call.injectFault.injEq]
  by_cases hi : i = p
  · subst hi
    split
    · next h0 => simp [injectedTemporary, hf, h0]
    · next h0 => simp [injectedTemporary, hin, hlt, hget, h0]
  · split <;> simp [injectedTemporary, hin, hi]

/-- What an injection does to the live faults, by the kind of the fault. -/
theorem injectedPlugin_cases {plugin : Faultplugin} (hfree : plugin.liveFaultsNumber < plugin.faultNumber) :
    (injectedPlugin plugin p f).faultNumber = plugin.faultNumber ∧
      (f.lifetime = 0 ∧ (injectedPlugin plugin p f).liveFaults = plugin.liveFaults ∧
        (injectedPlugin plugin p f).liveFaultsNumber = plugin.liveFaultsNumber ∨
      f.lifetime ≠ 0 ∧ injectedTrignum plugin f = plugin.liveFaultsNumber ∧
        (injectedPlugin plugin p f).liveFaults
          = plugin.liveFaults.set plugin.liveFaultsNumber (some p) ∧
        (injectedPlugin plugin p f).liveFaultsNumber = plugin.liveFaultsNumber + 1) := by
  unfold injectedPlugin injectedTrignum
  by_cases h0 : f.lifetime = 0
  · simp [h0]
  · simp [h0, Nat.ne_of_lt hfree]

/-- The slots that are taken before an injection stay so. -/
theorem slot_inject (h : s.LifeInv faults ticks) (hnot : Call.injectFault p ∉ s.calls) {i k : ℕ}
    (hf : s.faults[p]? = some f) (hfs : s'.faults = s.faults.set p g)
    (hk : s.plugin.liveFaults[k]? = some (some i)) : k < s.plugin.liveFaultsNumber ∧
      ∃ x, s'.faults[i]? = some x ∧ Call.injectFault i ∈ s.calls ∧ x.trigger.trignum = k ∧
        0 < x.lifetime := by
  obtain ⟨hlt, x, hx, hi, hn, hl⟩ := h.slot k i hk
  have hip : i ≠ p := by rintro rfl; exact hnot hi
  exact ⟨hlt, x, (getElem?_replaced_other hfs hip).trans hx, hi, hn, hl⟩

/-- Injecting a fault that is not injected yet, whatever its hitcounter was. -/
theorem inject (h : s.LifeInv faults ticks) (hf : s.faults[p]? = some f)
    (hnot : Call.injectFault p ∉ s.calls) (hzero : g.trigger.hitcounter = 0)
    (hlife : g.lifetime = f.lifetime) (hnum : g.trigger.trignum = injectedTrignum s.plugin f)
    (hplugin : s'.plugin = injectedPlugin s.plugin p f)
    (hcalls : s'.calls = s.calls ++ [Call.injectFault p]) (hfs : s'.faults = s.faults.set p g) :
    s'.LifeInv faults ticks := by
  obtain ⟨hlt, -⟩ := List.getElem?_eq_some_iff.mp hf
  obtain ⟨f₀, hf₀, hl₀⟩ := h.lifetime p f hf
  rw [h.untouched p hnot, Nat.sub_zero] at hl₀
  have hfree := h.liveNumber_lt hf hnot
  have hlen : s.plugin.liveFaultsNumber < s.plugin.liveFaults.length := by
    rw [h.liveLength, ← h.faultNumber]
    exact hfree
  have hin : ∀ {i : ℕ}, Call.injectFault i ∈ s'.calls ↔ Call.injectFault i ∈ s.calls ∨ i = p := by
    intro i; rw [hcalls, List.mem_append, List.mem_singleton, Call.injectFault.injEq]
  obtain ⟨hnumber, hkind⟩ := injectedPlugin_cases (p := p) (f := f) hfree
  rw [← hplugin, ← hnum] at hkind
  rw [← hplugin] at hnumber
  have htemporary := injectedTemporary_inject hf₀ hcalls
  constructor
  · rw [hfs, List.length_set, h.length]
  · rw [hnumber, h.faultNumber]
  · rcases hkind with ⟨-, hlive, -⟩ | ⟨-, -, hlive, -⟩
    · rw [hlive, h.liveLength]
    · rw [hlive, List.length_set, h.liveLength]
  · intro i x hx
    rcases getElem?_replaced_cases hfs hf hx with ⟨rfl, rfl⟩ | ⟨-, hx⟩
    · exact ⟨f₀, hf₀, by rw [hlife, hl₀, h.untouched i hnot, Nat.sub_zero]⟩
    · exact h.lifetime i x hx
  · intro i
    rw [hcalls, List.count_append]
    by_cases hi : i = p
    · subst hi
      simp [List.count_eq_zero.mpr hnot]
    · simpa [List.count_singleton, Ne.symm hi] using h.once i
  · intro i hi
    rcases hin.mp hi with hi | rfl
    · exact h.bound i hi
    · exact h.length ▸ hlt
  · intro i x hx hi
    rcases getElem?_replaced_cases hfs hf hx with ⟨rfl, rfl⟩ | ⟨hip, hx⟩
    · exact hzero
    · exact h.spent i x hx ((hin.mp hi).resolve_right hip)
  · exact fun i hi => h.untouched i fun hold => hi (hin.mpr (.inl hold))
  · rw [htemporary]
    rcases hkind with ⟨h0, -, hn⟩ | ⟨h0, -, -, hn⟩
    · rw [if_pos (hl₀ ▸ h0), hn, h.liveNumber]
    · have hnotmem : p ∉ s.injectedTemporary faults :=
        fun hmem => hnot (Finset.mem_filter.mp hmem).2.1
      rw [if_neg (hl₀ ▸ h0), hn, h.liveNumber, Finset.card_insert_of_notMem hnotmem]
  · intro k i hk
    rcases hkind with ⟨-, hlive, hn⟩ | ⟨h0, htrig, hlive, hn⟩
    · rw [hlive] at hk
      obtain ⟨hlt', x, hx, hi, hrest⟩ := h.slot_inject hnot hf hfs hk
      exact ⟨hn ▸ hlt', x, hx, hin.mpr (.inl hi), hrest⟩
    · rw [hlive, List.getElem?_set] at hk
      rw [hn]
      split at hk
      · next hkn =>
        obtain rfl : p = i := by simpa [hlen] using hk
        refine ⟨by omega, g, getElem?_replaced_self hfs hf, hin.mpr (.inr rfl), ?_, by omega⟩
        rw [htrig, hkn]
      · obtain ⟨hlt', x, hx, hi, hrest⟩ := h.slot_inject hnot hf hfs hk
        exact ⟨by omega, x, hx, hin.mpr (.inl hi), hrest⟩
  · intro i x hx hi hl
    rcases getElem?_replaced_cases hfs hf hx with ⟨rfl, rfl⟩ | ⟨hip, hx⟩
    · rcases hkind with ⟨h0, -⟩ | ⟨-, htrig, hlive, -⟩
      · omega
      · rw [hlive, htrig, List.getElem?_set_self hlen]
    · have hold := h.live i x hx ((hin.mp hi).resolve_right hip) hl
      rcases hkind with ⟨-, hlive, -⟩ | ⟨-, -, hlive, -⟩
      · rw [hlive]; exact hold
      · have hlt' := (h.slot _ _ hold).1
        rw [hlive, List.getElem?_set_ne (by omega)]
        exact hold
  · intro i x hx
    rw [hcalls, List.count_append, h.reversed i x hx]
    simp

/-- A slot that is taken after a tick belongs to a fault that is still live. -/
theorem slot_tick (h : s.LifeInv faults ticks) (hf : s.faults[p]? = some f) {k i : ℕ}
    (hk : (s.tbExecCb p).plugin.liveFaults[k]? = some (some i)) :
    s.plugin.liveFaults[k]? = some (some i) ∧ (i = p → f.lifetime ≠ 1) := by
  rcases (tbExecCb_cases hf).2 with ⟨hne, hp, -⟩ | ⟨-, hp, -⟩
  · exact ⟨by rw [← hp]; exact hk, fun _ => hne⟩
  · rw [hp, List.getElem?_set] at hk
    split at hk
    · split at hk <;> cases hk
    · next hkn =>
      refine ⟨hk, ?_⟩
      rintro rfl
      obtain ⟨-, x, hx, -, hn, -⟩ := h.slot k i hk
      obtain rfl := Option.some.inj (hf.symm.trans hx)
      exact absurd hn hkn

/-- The other live faults keep their slots, the reversed fault has one of its own. -/
theorem live_tick (h : s.LifeInv faults ticks) (hf : s.faults[p]? = some f)
    (hin : Call.injectFault p ∈ s.calls) {i k : ℕ} (hip : i ≠ p)
    (hk : s.plugin.liveFaults[k]? = some (some i)) :
    (s.tbExecCb p).plugin.liveFaults[k]? = some (some i) := by
  rcases (tbExecCb_cases hf).2 with ⟨-, hp, -⟩ | ⟨h1, hp, -⟩
  · rw [hp]
    exact hk
  · rw [hp, List.getElem?_set_ne]
    · exact hk
    · intro heq
      have hown := h.live p f hf hin (by omega)
      rw [heq, hk] at hown
      exact hip (Option.some.inj (Option.some.inj hown))

/-- A trigger leaves the taken slots alone: an injection takes the first free one. -/
theorem live_trigger (h : s.LifeInv faults ticks) (p : ℕ) {i k : ℕ}
    (hk : s.plugin.liveFaults[k]? = some (some i)) :
    (s.triggerInsnCb p).plugin.liveFaults[k]? = some (some i) := by
  cases hp : s.faults[p]? with
  | none =>
    simp only [triggerInsnCb, hp]
    exact hk
  | some x =>
    rcases triggerInsnCb_spec hp with ⟨-, hs⟩ | ⟨-, hs, -⟩ | ⟨-, hs, -⟩
    · rw [hs]
      exact hk
    · rw [hs]
      exact hk
    · rw [hs, injectedPlugin]
      split
      · exact hk
      · have hlt := (h.slot k i hk).1
        exact (List.getElem?_set_ne (Nat.ne_of_gt hlt)).trans hk

/-- The tick that uses up the lifetime reverses the fault, no other one does. -/
theorem reversed_tick (h : s.LifeInv faults ticks) (hf : s.faults[p]? = some f) {i : ℕ} {x : Fault}
    (hx : faults[i]? = some x) : (s.tbExecCb p).calls.count (.reverseFault i) =
      if x.lifetime ≠ 0 ∧ x.lifetime ≤ Function.update ticks p (ticks p + 1) i then 1 else 0 := by
  obtain ⟨f₀, hf₀, hl₀⟩ := h.lifetime p f hf
  have hrev := h.reversed i x hx
  by_cases hip : i = p
  · subst hip
    obtain rfl := Option.some.inj (hf₀.symm.trans hx)
    rw [Function.update_self]
    rcases (tbExecCb_cases hf).2 with ⟨hne, -, hc⟩ | ⟨h1, -, hc⟩
    · rw [hc, hrev]
      exact if_congr (by omega) rfl rfl
    · rw [hc, List.count_append, hrev, if_neg (by omega), if_pos (by omega)]
      simp
  · rw [Function.update_of_ne hip, ← hrev]
    rcases (tbExecCb_cases hf).2 with ⟨-, -, hc⟩ | ⟨-, -, hc⟩
    · rw [hc]
    · rw [hc, List.count_append]
      simp [Ne.symm hip]

/-- A run of the live callback of an injected fault. -/
theorem tick (h : s.LifeInv faults ticks) (hf : s.faults[p]? = some f)
    (hin : Call.injectFault p ∈ s.calls) :
    (s.tbExecCb p).LifeInv faults (Function.update ticks p (ticks p + 1)) := by
  obtain ⟨f₀, hf₀, hl₀⟩ := h.lifetime p f hf
  obtain ⟨hfs, hkind⟩ := tbExecCb_cases hf
  have hcount : ∀ i, (s.tbExecCb p).calls.count (.injectFault i) = s.calls.count (.injectFault i) := by
    intro i
    rcases hkind with ⟨-, -, hc⟩ | ⟨-, -, hc⟩
    · rw [hc]
    · rw [hc, List.count_append]; simp
  have hmem : ∀ {i : ℕ}, Call.injectFault i ∈ (s.tbExecCb p).calls ↔ Call.injectFault i ∈ s.calls := by
    intro i; rw [← List.count_pos_iff, hcount, List.count_pos_iff]
  have hplugin : ∃ live, (s.tbExecCb p).plugin = { s.plugin with liveFaults := live } ∧
      live.length = s.plugin.liveFaults.length := by
    rcases hkind with ⟨-, hp, -⟩ | ⟨-, hp, -⟩
    · exact ⟨_, hp, rfl⟩
    · exact ⟨_, hp, List.length_set⟩
  obtain ⟨live, hplugin, hlength⟩ := hplugin
  constructor
  · rw [hfs, List.length_set, h.length]
  · rw [hplugin, h.faultNumber]
  · rw [hplugin, hlength, h.liveLength]
  · intro i x hx
    rcases getElem?_replaced_cases hfs hf hx with ⟨rfl, rfl⟩ | ⟨hi, hx⟩
    · refine ⟨f₀, hf₀, ?_⟩
      rw [Function.update_self, ← Nat.sub_sub, ← hl₀]
    · rw [Function.update_of_ne hi]
      exact h.lifetime i x hx
  · exact fun i => hcount i ▸ h.once i
  · exact fun i hi => h.bound i (hmem.mp hi)
  · intro i x hx hi
    rcases getElem?_replaced_cases hfs hf hx with ⟨rfl, rfl⟩ | ⟨-, hx⟩
    · exact h.spent i f hf hin
    · exact h.spent i x hx (hmem.mp hi)
  · intro i hi
    have hip : i ≠ p := by rintro rfl; exact hi (hmem.mpr hin)
    rw [Function.update_of_ne hip]
    exact h.untouched i fun hold => hi (hmem.mpr hold)
  · rw [hplugin, h.liveNumber]
    exact congrArg Finset.card (Finset.filter_congr fun i _ => by rw [hmem])
  · intro k i hk
    obtain ⟨hold, hne⟩ := h.slot_tick hf hk
    obtain ⟨hlt', x, hx, hi, hn, hl⟩ := h.slot k i hold
    rw [hplugin]
    refine ⟨hlt', ?_⟩
    by_cases hip : i = p
    · subst hip
      obtain rfl := Option.some.inj (hf.symm.trans hx)
      have hne := hne rfl
      exact ⟨_, getElem?_replaced_self hfs hf, hmem.mpr hi, hn, by show 0 < f.lifetime - 1; omega⟩
    · exact ⟨x, (getElem?_replaced_other hfs hip).trans hx, hmem.mpr hi, hn, hl⟩
  · intro i x hx hi hl
    rcases getElem?_replaced_cases hfs hf hx with ⟨rfl, rfl⟩ | ⟨hip, hx⟩
    · have hl : 0 < f.lifetime - 1 := hl
      rcases hkind with ⟨-, hp, -⟩ | ⟨h1, -⟩
      · rw [hp]
        exact h.live i f hf hin (by omega)
      · omega
    · exact h.live_tick hf hin hip (h.live i x hx (hmem.mp hi) hl)
  · exact fun i x hx => h.reversed_tick hf hx

/-! ### Callbacks and translations -/

theorem triggerInsnCb (h : s.LifeInv faults ticks) (hf : s.faults[p]? = some f) :
    (s.triggerInsnCb p).LifeInv faults ticks := by
  obtain ⟨hlt, rfl⟩ := List.getElem?_eq_some_iff.mp hf
  rcases triggerInsnCb_spec hf with ⟨-, hs⟩ | ⟨hgt, hp, hc, hfs⟩ | ⟨hone, hp, hc, f', hag, hfs⟩
  · rw [hs]
    exact h
  · refine h.keep (g := s.faults[p].setHitcounter (s.faults[p].trigger.hitcounter - 1)) hf rfl rfl
      (fun hin => ?_) hfs hc (by rw [hp]) (by rw [hp]) (by rw [hp])
    have := h.spent p _ hf hin
    omega
  · have hnot : Call.injectFault p ∉ s.calls := fun hin => by
      have := h.spent p _ hf hin
      omega
    have hzero : f'.trigger.hitcounter = 0 := by rw [hag.trigger]; rfl
    exact h.inject (g := f'.setTriggerNum (injectedTrignum s.plugin s.faults[p])) hf hnot hzero
      hag.lifetime rfl hp hc hfs

/-- A live fault has lifetime left, so its callback is registered and nothing else happens. -/
theorem evalLiveFaultCallback (h : s.LifeInv faults ticks) (tb : Tb) (k : ℕ) :
    (s.evalLiveFaultCallback tb k).1 = s ∧ ∀ cb ∈ (s.evalLiveFaultCallback tb k).2,
      ∃ i, cb.2 = .tbExecCb i ∧ Call.injectFault i ∈ s.calls := by
  unfold State.evalLiveFaultCallback
  split
  · next current hslot =>
    obtain ⟨-, f, hf, hin, -, hl⟩ := h.slot k current hslot
    simp only [hf, if_neg (Nat.ne_of_gt hl)]
    refine ⟨trivial, fun cb hcb => ?_⟩
    obtain ⟨i, -, rfl⟩ := List.mem_map.mp hcb
    exact ⟨current, rfl, hin⟩
  · exact ⟨rfl, fun cb hcb => absurd hcb List.not_mem_nil⟩

/-- A translation that is not the first one changes nothing; its live callbacks belong to injected
    faults. -/
theorem handleTbTranslateEvent (h : s.LifeInv faults ticks) (tb : Tb) :
    (s.handleTbTranslateEvent tb).1 = s ∧ ∀ cb ∈ (s.handleTbTranslateEvent tb).2, ∀ i,
      cb.2 = .tbExecCb i → Call.injectFault i ∈ s.calls := by
  have htrigger : ∀ cb ∈ s.triggerCallbacks tb, ∀ i, cb.2 ≠ .tbExecCb i := by
    intro cb hcb i
    obtain ⟨k, -, hcb⟩ := List.mem_flatMap.mp hcb
    split at hcb
    · split at hcb
      · unfold evaluateTrigger at hcb
        split at hcb
        · cases hcb
        · split at hcb
          · cases hcb
          · split at hcb
            · cases hcb
            · obtain ⟨j, -, hj⟩ := List.mem_filterMap.mp hcb
              split at hj
              · split at hj
                · rw [← Option.some.inj hj]
                  exact nofun
                · cases hj
              · cases hj
      · cases hcb
    · cases hcb
  have hloop : ∀ (ks : List ℕ) (cbs : List (ℕ × Callback)),
      (∀ cb ∈ cbs, ∀ i, cb.2 = .tbExecCb i → Call.injectFault i ∈ s.calls) →
      (ks.foldl (fun st i => ((st.1.evalLiveFaultCallback tb i).1,
        st.2 ++ (st.1.evalLiveFaultCallback tb i).2)) (s, cbs)).1 = s ∧
      ∀ cb ∈ (ks.foldl (fun st i => ((st.1.evalLiveFaultCallback tb i).1,
        st.2 ++ (st.1.evalLiveFaultCallback tb i).2)) (s, cbs)).2, ∀ i,
        cb.2 = .tbExecCb i → Call.injectFault i ∈ s.calls := by
    intro ks
    induction ks with
    | nil => exact fun cbs hcbs => ⟨rfl, hcbs⟩
    | cons k ks ih =>
      intro cbs hcbs
      obtain ⟨hstate, hlive⟩ := h.evalLiveFaultCallback tb k
      simp only [List.foldl_cons, hstate]
      refine ih _ fun cb hcb i hi => ?_
      rcases List.mem_append.mp hcb with hcb | hcb
      · exact hcbs cb hcb i hi
      · obtain ⟨j, hj, hin⟩ := hlive cb hcb
        obtain rfl : j = i := by rw [hj] at hi; cases hi; rfl
        exact hin
  exact hloop (List.range s.plugin.liveFaultsNumber) (s.triggerCallbacks tb)
    fun cb hcb i hi => absurd hi (htrigger cb hcb i)

/-- One fault of the first TB: it is injected if its hitcounter is zero, the ones after it wait. -/
theorem firstTbFault (h : s.LifeInv faults ticks) (hf : s.faults[p]? = some f)
    (hnot : Call.injectFault p ∉ s.calls) : (s.firstTbFault p).LifeInv faults ticks ∧
      ∀ i, p < i → Call.injectFault i ∈ (s.firstTbFault p).calls → Call.injectFault i ∈ s.calls := by
  have hadd : ∀ {s₁ : State}, s₁.LifeInv faults ticks →
      (if f.trigger.hitcounter = 1 then s₁.addSinglestepReq else s₁).LifeInv faults ticks ∧
      (if f.trigger.hitcounter = 1 then s₁.addSinglestepReq else s₁).calls = s₁.calls := by
    intro s₁ h₁
    split
    · exact ⟨h₁.same same_addSinglestepReq, rfl⟩
    · exact ⟨h₁, rfl⟩
  unfold State.firstTbFault
  simp only [hf]
  by_cases hzero : f.trigger.hitcounter = 0 ∧ f.type = INSTRUCTION
  · rw [if_pos hzero]
    have hf₁ : s.addSinglestepReq.faults[p]? = some f := hf
    obtain ⟨hp, hc, f', hag, hfs⟩ := injectFault_spec hf₁
    have hzero' : f'.trigger.hitcounter = 0 := by rw [hag.trigger]; exact hzero.1
    have h₁ := (h.same same_addSinglestepReq).inject
      (g := f'.setTriggerNum (injectedTrignum s.addSinglestepReq.plugin f)) hf₁ hnot hzero'
      hag.lifetime rfl hp hc hfs
    have hslot : ∀ {s₁ : State} (n : ℕ), s₁.LifeInv faults ticks →
        (s₁.invalidateFaultTriggerAddress n).LifeInv faults ticks :=
      fun _ h => h.congr rfl rfl rfl rfl rfl
    obtain ⟨hlt, -⟩ := List.getElem?_eq_some_iff.mp hf
    have hf₂ : (s.addSinglestepReq.injectFault p).faults[p]?
        = some (f'.setTriggerNum (injectedTrignum s.addSinglestepReq.plugin f)) := by
      rw [hfs, List.getElem?_set_self (show p < s.addSinglestepReq.faults.length from hlt)]
    simp only [hf₂]
    obtain ⟨h₂, hcalls⟩ := hadd (hslot (f'.setTriggerNum _).trigger.trignum h₁)
    refine ⟨h₂, fun i hi hin => ?_⟩
    rw [hcalls] at hin
    rcases List.mem_append.mp (hc ▸ hin : Call.injectFault i ∈ s.calls ++ _) with hin | hin
    · exact hin
    · have := Call.injectFault.inj (List.mem_singleton.mp hin)
      omega
  · rw [if_neg hzero]
    obtain ⟨h₁, hcalls⟩ := hadd h
    exact ⟨h₁, fun i _ hin => hcalls ▸ hin⟩

theorem injectFault_firstTb (p : ℕ) : (s.injectFault p).plugin.firstTb = s.plugin.firstTb := by
  cases hf : s.faults[p]? with
  | none => rw [State.injectFault, hf]
  | some f =>
    rw [(injectFault_spec hf).1, injectedPlugin]
    split <;> rfl

theorem handleFirstTbFaultInsertion_firstTb :
    s.handleFirstTbFaultInsertion.plugin.firstTb = s.plugin.firstTb := by
  have hone : ∀ (s : State) (p : ℕ), (s.firstTbFault p).plugin.firstTb = s.plugin.firstTb := by
    intro s p
    have hinject := injectFault_firstTb (s := s.addSinglestepReq) p
    have hadd : ∀ (s₁ : State) (c : Prop) [Decidable c],
        (if c then s₁.addSinglestepReq else s₁).plugin = s₁.plugin := by
      intro s₁ c _; split <;> rfl
    unfold State.firstTbFault
    split
    · rfl
    · simp only [hadd]
      split
      · split <;> exact hinject
      · rfl
  unfold State.handleFirstTbFaultInsertion
  generalize List.range s.faults.length = ps
  induction ps generalizing s with
  | nil => rfl
  | cons p ps ih => rw [List.foldl_cons, ih, hone]

/-- After the first `n` faults of the first TB the others still wait. -/
theorem firstTbFaults (h : s.LifeInv faults ticks) (hnone : ∀ i, Call.injectFault i ∉ s.calls) :
    ∀ n ≤ s.faults.length, ((List.range n).foldl State.firstTbFault s).LifeInv faults ticks ∧
      ∀ i, n ≤ i → Call.injectFault i ∉ ((List.range n).foldl State.firstTbFault s).calls := by
  intro n
  induction n with
  | zero => exact fun _ => ⟨h, fun i _ => hnone i⟩
  | succ n ih =>
    intro hn
    obtain ⟨h₁, hwait⟩ := ih (by omega)
    rw [List.range_succ, List.foldl_append]
    have hlt : n < ((List.range n).foldl State.firstTbFault s).faults.length := by
      rw [h₁.length, ← h.length]; omega
    obtain ⟨h₂, hnew⟩ := h₁.firstTbFault (List.getElem?_eq_getElem hlt) (hwait n le_rfl)
    exact ⟨h₂, fun i hi hin => hwait i (by omega) (hnew i (by omega) hin)⟩

/-- The first TB injects each fault at most once. -/
theorem handleFirstTbFaultInsertion (h : s.LifeInv faults ticks)
    (hnone : ∀ i, Call.injectFault i ∉ s.calls) :
    s.handleFirstTbFaultInsertion.LifeInv faults ticks :=
  (h.firstTbFaults hnone _ le_rfl).1

end State.LifeInv

/-- Reaching the start point touches nothing but the start point and the TB cache. -/
theorem State.tbExecStartCb_spec (s : State) :
    ∃ startPoint flush, s.tbExecStartCb = { s with plugin := { s.plugin with startPoint }, flush } := by
  -- whatever the counter wraps to
  have h : ∀ hitcounter : ℕ, ∃ startPoint flush, (if s.plugin.startPoint.hitcounter = 1 then
        { s with plugin := { s.plugin with
          startPoint := { s.plugin.startPoint with trignum := 0, hitcounter } } }.flushTb
      else { s with plugin := { s.plugin with
          startPoint := { s.plugin.startPoint with hitcounter } } })
      = { s with plugin := { s.plugin with startPoint }, flush } := by
    intro hitcounter
    split
    · exact ⟨_, _, rfl⟩
    · exact ⟨_, _, rfl⟩
  exact h ((s.plugin.startPoint.hitcounter + (2 ^ 64 - 1)) % 2 ^ 64)

/-- The three ways of a translation: before the start point, the first one and the later ones. -/
theorem State.translation_cases (s : State) (tb : Tb) :
    (s.plugin.startPoint.trignum = 3 ∧ (s.vcpuTranslateblockTranslationEvent tb).1 = s ∧
      (s.vcpuTranslateblockTranslationEvent tb).2.insn = []) ∨
    (s.plugin.firstTb = 0 ∧ (s.vcpuTranslateblockTranslationEvent tb).1
        = ({ s with plugin := { s.plugin with firstTb := 1 } }.handleFirstTbFaultInsertion).checkTbFaulted tb ∧
      (s.vcpuTranslateblockTranslationEvent tb).2.insn = []) ∨
    (s.plugin.firstTb ≠ 0 ∧ (s.vcpuTranslateblockTranslationEvent tb).1
        = (s.handleTbTranslateEvent tb).1.checkTbFaulted tb ∧
      (s.vcpuTranslateblockTranslationEvent tb).2.insn = (s.handleTbTranslateEvent tb).2) := by
  unfold vcpuTranslateblockTranslationEvent
  by_cases hstart : s.plugin.startPoint.trignum = 3
  · exact .inl ⟨hstart, by simp [hstart], by simp [hstart]⟩
  · by_cases hfirst : s.plugin.firstTb = 0
    · exact .inr (.inl ⟨hfirst, by simp [hstart, hfirst], by simp [hstart, hfirst]⟩)
    · exact .inr (.inr ⟨hfirst, by simp [hstart, hfirst], by simp [hstart, hfirst]⟩)

/-! ### Runs -/

/-- The invariant with the callbacks that may still run. -/
structure Session.LifeInv (faults : List Fault) (m : Session) : Prop where
  state : m.state.LifeInv faults m.ticks
  registered : ∀ i, .tbExecCb i ∈ m.registered → Call.injectFault i ∈ m.state.calls
  before : m.state.plugin.firstTb = 0 → m.state.calls = [] ∧ m.registered = []

namespace Session.LifeInv

variable {faults : List Fault} {m m' : Session}

theorem boot {s s' : State} (hfresh : s.Fresh) (hreg : s.registerFaultTriggerAddresses = some s') :
    (Session.boot s').LifeInv s.faults := by
  unfold State.registerFaultTriggerAddresses at hreg
  split at hreg
  · cases hreg
  · obtain rfl := Option.some.inj hreg
    have hcalls : s.calls = [] := hfresh.calls
    refine ⟨?_, fun i hi => absurd hi List.not_mem_nil, fun _ => ⟨hcalls, rfl⟩⟩
    constructor
    · simp [Session.boot]
    · simp [Session.boot]
    · simp [Session.boot]
    · intro i f hf
      simp only [Session.boot, List.getElem?_mapIdx, Option.map_eq_some_iff] at hf
      obtain ⟨f₀, h₀, rfl⟩ := hf
      exact ⟨f₀, h₀, rfl⟩
    · simp [Session.boot, hcalls]
    · simp [Session.boot, hcalls]
    · simp [Session.boot, hcalls]
    · exact fun _ _ => rfl
    · simp [Session.boot, hcalls, State.injectedTemporary, hfresh.liveFaultsNumber]
    · intro k i hk
      simp only [Session.boot, List.getElem?_replicate] at hk
      split at hk <;> cases hk
    · simp [Session.boot, hcalls]
    · intro i f _
      simp [Session.boot, hcalls, Session.ticks]

/-- The first translation after the start. -/
theorem translate_first (h : m.LifeInv faults) (hfirst : m.state.plugin.firstTb = 0) :
    ({ m.state with plugin := { m.state.plugin with firstTb := 1 } }.handleFirstTbFaultInsertion).LifeInv
      faults m.ticks := by
  have hnone : ∀ i, Call.injectFault i ∉ m.state.calls := by
    intro i; rw [(h.before hfirst).1]; exact List.not_mem_nil
  exact State.LifeInv.handleFirstTbFaultInsertion (h.state.congr rfl rfl rfl rfl rfl) hnone

/-- A translation, the first one or a later one. -/
theorem translate (h : m.LifeInv faults) (tb : Tb) (hstep : m.step (.translate tb) = some m') :
    m'.LifeInv faults := by
  have hm : m' = { m with
      state := (m.state.vcpuTranslateblockTranslationEvent tb).1
      registered := m.registered
        ++ (m.state.vcpuTranslateblockTranslationEvent tb).2.insn.map Prod.snd } :=
    (Option.some.inj hstep).symm
  rcases m.state.translation_cases tb with ⟨-, hs, hr⟩ | ⟨hfirst, hs, hr⟩ | ⟨hne, hs, hr⟩
  · rw [hs, hr, List.map_nil, List.append_nil] at hm
    exact hm ▸ h
  · rw [hs, hr, List.map_nil, List.append_nil] at hm
    have hsame := same_checkTbFaulted (s := State.handleFirstTbFaultInsertion
      { m.state with plugin := { m.state.plugin with firstTb := 1 } }) tb
    rw [hm]
    refine ⟨(h.translate_first hfirst).same hsame, fun i hi => ?_, fun h0 => ?_⟩
    · have hi : Callback.tbExecCb i ∈ m.registered := hi
      rw [(h.before hfirst).2] at hi
      exact absurd hi List.not_mem_nil
    · rw [hsame.plugin, State.LifeInv.handleFirstTbFaultInsertion_firstTb] at h0
      exact absurd h0 one_ne_zero
  · obtain ⟨hstate, hlive⟩ := h.state.handleTbTranslateEvent tb
    rw [hs, hr, hstate] at hm
    have hsame : Same m.state (m.state.checkTbFaulted tb) := same_checkTbFaulted tb
    rw [hm]
    refine ⟨h.state.same hsame, fun i hi => ?_, fun h0 => ?_⟩
    · rw [hsame.calls]
      rcases List.mem_append.mp hi with hi | hi
      · exact h.registered i hi
      · obtain ⟨cb, hcb, hi⟩ := List.mem_map.mp hi
        exact hlive cb hcb i hi
    · rw [hsame.plugin] at h0
      exact absurd h0 hne

/-- A callback that a translation has registered. -/
theorem callback (h : m.LifeInv faults) {cb : Callback} (hstep : m.step (.callback cb) = some m') :
    m'.LifeInv faults := by
  simp only [Session.step] at hstep
  split at hstep
  · next hreg =>
    obtain rfl := Option.some.inj hstep
    have hafter : m.state.plugin.firstTb ≠ 0 := by
      intro h0
      rw [(h.before h0).2] at hreg
      exact absurd hreg List.not_mem_nil
    cases cb with
    | triggerInsnCb p =>
      have hticks : Session.ticks { m with
          state := m.state.runCallback (.triggerInsnCb p),
          executed := m.executed ++ [.triggerInsnCb p] } = m.ticks := by
        funext i; simp [Session.ticks]
      cases hf : m.state.faults[p]? with
      | none =>
        have hs : m.state.runCallback (.triggerInsnCb p) = m.state := by
          rw [runCallback, State.triggerInsnCb, hf]
        rw [hs] at hticks ⊢
        exact ⟨by rw [hticks]; exact h.state, h.registered, h.before⟩
      | some f =>
        refine ⟨by rw [hticks]; exact h.state.triggerInsnCb hf, fun i hi => ?_, fun h0 => ?_⟩
        · have hin := h.registered i hi
          rcases triggerInsnCb_spec hf with ⟨-, hs⟩ | ⟨-, -, hc, -⟩ | ⟨-, -, hc, -⟩
          · rw [runCallback, hs]; exact hin
          · rw [runCallback, hc]; exact hin
          · rw [runCallback, hc]; exact List.mem_append_left _ hin
        · refine absurd ?_ hafter
          rcases triggerInsnCb_spec hf with ⟨-, hs⟩ | ⟨-, hp, -⟩ | ⟨-, hp, -⟩
          · rw [runCallback, hs] at h0; exact h0
          · rw [runCallback, hp] at h0; exact h0
          · rw [runCallback, hp, injectedPlugin] at h0
            split at h0 <;> exact h0
    | tbExecCb p =>
      have hin := h.registered p hreg
      have hlt : p < m.state.faults.length := h.state.length ▸ h.state.bound p hin
      have hf := List.getElem?_eq_getElem hlt
      have hticks : Session.ticks { m with
          state := m.state.runCallback (.tbExecCb p), executed := m.executed ++ [.tbExecCb p] }
          = Function.update m.ticks p (m.ticks p + 1) := by
        funext i
        by_cases hi : i = p
        · subst hi; simp [Session.ticks]
        · simp [Session.ticks, hi, Ne.symm hi]
      obtain ⟨-, hkind⟩ := tbExecCb_cases hf
      refine ⟨by rw [hticks]; exact h.state.tick hf hin, fun i hi => ?_, fun h0 => ?_⟩
      · rcases hkind with ⟨-, -, hc⟩ | ⟨-, -, hc⟩
        · rw [runCallback, hc]; exact h.registered i hi
        · rw [runCallback, hc]; exact List.mem_append_left _ (h.registered i hi)
      · refine absurd ?_ hafter
        rcases hkind with ⟨-, hp, -⟩ | ⟨-, hp, -⟩ <;> rw [runCallback, hp] at h0 <;> exact h0
  · cases hstep

theorem step (h : m.LifeInv faults) {e : SessionEvent} (hstep : m.step e = some m') :
    m'.LifeInv faults := by
  cases e with
  | start =>
    have hm : m' = { m with state := m.state.tbExecStartCb } := (Option.some.inj hstep).symm
    obtain ⟨startPoint, flush, hs⟩ := m.state.tbExecStartCb_spec
    rw [hm, hs]
    exact ⟨h.state.congr rfl rfl rfl rfl rfl, h.registered, h.before⟩
  | translate tb => exact h.translate tb hstep
  | callback cb => exact h.callback hstep

/-- A live slot survives a step unless the last tick of its fault clears it. -/
theorem clearsOwnSlot (h : m.LifeInv faults) {e : SessionEvent} (hstep : m.step e = some m') :
    ClearsOwnSlot faults m e m' := by
  intro k i f hk hf
  obtain ⟨-, g, hg, hin, hnum, hlife⟩ := h.state.slot k i hk
  -- a slot that a step leaves alone is still taken
  have hkeep : m'.state.plugin.liveFaults[k]? = m.state.plugin.liveFaults[k]? → ¬ e.IsTick i →
      if e.IsTick i ∧ m'.ticks i = f.lifetime then m'.state.plugin.liveFaults[k]? = some none
      else m'.state.plugin.liveFaults[k]? = some (some i) := by
    intro hsame hno
    rw [if_neg (fun ht => hno ht.1), hsame, hk]
  cases e with
  | start =>
    obtain ⟨startPoint, flush, hs⟩ := m.state.tbExecStartCb_spec
    have hm : m'.state = m.state.tbExecStartCb := congrArg Session.state (Option.some.inj hstep).symm
    exact hkeep (by rw [hm, hs]) id
  | translate tb =>
    have hm : m'.state = (m.state.vcpuTranslateblockTranslationEvent tb).1 :=
      congrArg Session.state (Option.some.inj hstep).symm
    refine hkeep ?_ id
    rcases m.state.translation_cases tb with ⟨-, hs, -⟩ | ⟨hfirst, -, -⟩ | ⟨-, hs, -⟩
    · rw [hm, hs]
    · rw [(h.before hfirst).1] at hin
      exact absurd hin List.not_mem_nil
    · rw [hm, hs, (h.state.handleTbTranslateEvent tb).1, (same_checkTbFaulted tb).plugin]
  | callback cb =>
    simp only [Session.step] at hstep
    split at hstep
    · next hreg =>
      obtain rfl := Option.some.inj hstep
      cases cb with
      | triggerInsnCb p =>
        exact hkeep ((h.state.live_trigger p hk).trans hk.symm) nofun
      | tbExecCb p =>
        have hinp := h.registered p hreg
        have hlt : p < m.state.faults.length := h.state.length ▸ h.state.bound p hinp
        obtain ⟨x, hx⟩ : ∃ x, m.state.faults[p]? = some x := ⟨_, List.getElem?_eq_getElem hlt⟩
        obtain ⟨-, hkind⟩ := tbExecCb_cases hx
        by_cases hip : p = i
        · subst hip
          obtain rfl := Option.some.inj (hg.symm.trans hx)
          obtain ⟨f₀, hf₀, hl₀⟩ := h.state.lifetime p g hg
          obtain rfl := Option.some.inj (hf.symm.trans hf₀)
          have hticks : Session.ticks { m with
              state := m.state.runCallback (.tbExecCb p), executed := m.executed ++ [.tbExecCb p] } p
              = m.ticks p + 1 := by simp [Session.ticks]
          rw [hticks]
          rcases hkind with ⟨hne, hs, -⟩ | ⟨hone, hs, -⟩
          · rw [if_neg (fun ht => by have := ht.2; omega), runCallback, hs, hk]
          · have hlen := (List.getElem?_eq_some_iff.mp hk).1
            rw [if_pos ⟨rfl, by omega⟩, runCallback, hs, hnum]
            exact List.getElem?_set_self hlen
        · have hother := h.state.live_tick hx hinp (Ne.symm hip) hk
          exact hkeep (hother.trans hk.symm) fun ht => hip (Callback.tbExecCb.inj ht)
    · cases hstep

theorem lifecycle (h : m.LifeInv faults) : Lifecycle faults m := by
  obtain ⟨hs, -, -⟩ := h
  refine ⟨hs.once, hs.liveNumber, fun i hi hnot => ?_, fun k i hk => (hs.slot k i hk).2,
    fun i f hf hne => ?_, fun tb k => (hs.evalLiveFaultCallback tb k).1⟩
  · have hlt : i < m.state.faults.length := by rw [hs.length]; exact hi
    exact hs.liveNumber_lt (List.getElem?_eq_getElem hlt) hnot
  · rw [hs.reversed i f hf]
    exact if_congr (and_iff_right hne) rfl rfl

end Session.LifeInv

/-- In every state that any events lead to, each fault is injected at most once, a live slot holds a
    fault that is injected and not over, and a temporary fault is reversed by the last tick of its
    lifetime, which clears its own slot and no other. -/
theorem always_lifecycle {s s' : State} (hfresh : s.Fresh)
    (hreg : s.registerFaultTriggerAddresses = some s') (es : List SessionEvent) :
    Always Session.step (fun m => Lifecycle s.faults m ∧
      ∀ e m', m.step e = some m' → ClearsOwnSlot s.faults m e m') (Session.boot s') es :=
  always_of_inv (fun _ h => ⟨h.lifecycle, fun _ _ hstep => h.clearsOwnSlot hstep⟩)
    (fun _ _ _ h hstep => h.step hstep) es (Session.LifeInv.boot hfresh hreg)

/-- The second translation registers the trigger callbacks, the third the live callback of the fault
    they inject. -/
theorem always_lifecycle_threeFaults : ∃ s', threeFaults.registerFaultTriggerAddresses = some s' ∧
    Always Session.step (fun m => Lifecycle threeFaults.faults m ∧
      ∀ e m', m.step e = some m' → ClearsOwnSlot threeFaults.faults m e m') (Session.boot s')
      [.translate (oneInsnTb 0x30), .translate (oneInsnTb 0x20), .callback (.triggerInsnCb 2),
        .translate (oneInsnTb 0x30), .callback (.tbExecCb 2)] :=
  ⟨_, rfl, always_lifecycle (s := threeFaults) ⟨rfl, rfl⟩ rfl _⟩

end Archie.Plugin
