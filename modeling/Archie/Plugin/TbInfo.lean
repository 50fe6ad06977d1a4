import Archie.Lib.Keyed
import Archie.Lib.Run
import Archie.Plugin.Avl
import Archie.Plugin.Collections
import Archie.Plugin.ExecOrder
import Archie.Plugin.TriggerVector

/-! What the plugin collects about translation blocks, tb_info_data_collection.c and the callbacks that
    `handle_tb_translate_data` registers.

    A TB is known by its base address. The first translation at an address makes a struct, the later ones
    find it; each translation gets a callback that counts in that struct.

        translate ──avl_find──▶ tb_info_t ◀──num_of_exec++──  tb_exec_data_event ──▶ tb_exec_order_list
                  └─ not found: a new one, tb_info_list, avl_insert                                     -/

namespace Archie.Plugin

structure TbInfoT where
  baseAddress : ℕ
  instructionCount : ℕ
  assembler : List Char
  numOfExec : ℕ
  size : ℕ

/-- `tb_comparison_func` -/
def tbComparisonFunc (a b : ℕ) : Int := if a < b then -1 else if a > b then 1 else 0

/-- The globals of the file; pointers are numbers of allocated structs. -/
structure TbInfos where
  structs : List TbInfoT
  tbInfoList : List ℕ
  tbAvlRoot : AvlTree ℕ ℕ

namespace TbInfos

variable (s : TbInfos)

/-- The fields of a new struct. -/
def newTbInfo (tb : Tb) : TbInfoT :=
  ⟨tb.vaddr, tb.insns.length, State.decodeAssembler tb, 0, tb.bytesize⟩

/-- The struct of a TB, or `NULL`; none at all where the tree fails. -/
def addTbInfo (tb : Tb) : Option (TbInfos × Option ℕ) :=
  match s.tbAvlRoot.find tbComparisonFunc tb.vaddr with
  | some tbInformation => some (s, some tbInformation)
  | none => do
    let tbInformation := s.structs.length
    let (tbAvlRoot, duplicate) ← Avl.avlInsert tbComparisonFunc tb.vaddr tbInformation s.tbAvlRoot
    let s : TbInfos := ⟨s.structs ++ [newTbInfo tb], tbInformation :: s.tbInfoList, tbAvlRoot⟩
    return match duplicate with
      | some _ => (s, none)
      | none =>
        if s.tbAvlRoot.find tbComparisonFunc tb.vaddr = some tbInformation then (s, some tbInformation)
        else (s, none)

/-- The structs as tb_exec_data_collection.c sees them. -/
def view (p : ℕ) : TbInformation :=
  s.structs[p]?.elim ⟨0, 0⟩ fun t => ⟨t.baseAddress, t.numOfExec⟩

/-- `tb_info->num_of_exec++` unless the pointer is `NULL`. -/
def countExec : Option ℕ → TbInfos
  | none => s
  | some p => { s with structs := s.structs.modify p fun t => { t with numOfExec := t.numOfExec + 1 } }

/-- The messages: the structs in the order of the list. -/
def pluginDumpTbInformation : Option (List TbInfoT) := s.tbInfoList.mapM fun p => s.structs[p]?

end TbInfos

/-- A translation, and the user data of its execution callback if it has one. -/
structure TbTranslation where
  tb : Tb
  vcurrent : Option (Option ℕ)

structure TbMachine where
  tbInfoEnabled : Bool
  tbExecOrderEnabled : Bool
  infos : TbInfos
  order : ExecOrder
  translated : List TbTranslation
  /-- the TBs executed so far, kept for the statements -/
  executed : List Tb
  /-- a null pointer was followed, an assertion failed or an array overrun -/
  undefined : Bool

/-- TBs are translated, and executed any number of times then. -/
inductive TbEvent where
  | translate (tb : Tb)
  | exec (k : ℕ)

/-- The addresses of TBs have 64 bits. -/
def TbEvent.Narrow : TbEvent → Prop
  | .translate tb => tb.vaddr < 2 ^ 64
  | .exec _ => True

namespace TbMachine

variable (m : TbMachine)

/-- Behind the start point, as `run_goldenrun` configures the plugin. -/
def init (ringBuffer : Bool) : TbMachine :=
  let infos : TbInfos := ⟨[], [], .nil⟩
  ⟨true, true, infos, tbExecOrderInit ringBuffer infos.view, [], [], false⟩

def register (tb : Tb) (tbInformation : Option ℕ) : TbMachine :=
  let vcurrent := if m.tbExecOrderEnabled then some tbInformation else none
  { m with translated := m.translated ++ [⟨tb, vcurrent⟩] }

/-- The structs are shared with the other file. -/
def setInfos (infos : TbInfos) : TbMachine := { m with infos, order := { m.order with tbInfos := infos.view } }

def handleTbTranslateData (tb : Tb) : TbMachine :=
  if m.tbInfoEnabled then
    match m.infos.addTbInfo tb with
    | none => { m with undefined := true }
    | some (infos, tbInformation) => (m.setInfos infos).register tb tbInformation
  else m.register tb none

/-- The callback of a translation runs. -/
def execute (t : TbTranslation) : TbMachine :=
  let m := { m with executed := m.executed ++ [t.tb] }
  match t.vcurrent with
  | none => m
  | some vcurrent => { m with infos := m.infos.countExec vcurrent, order := m.order.tbExecDataEvent vcurrent }

def step : TbEvent → Option TbMachine
  | .translate tb => some (m.handleTbTranslateData tb)
  | .exec k => m.translated[k]?.map m.execute

end TbMachine

/-! ### The tree -/

theorem agrees_tbComparisonFunc : AvlTree.Agrees tbComparisonFunc id (Set.univ : Set ℕ) where
  neg_iff a _ b _ := by
    rw [tbComparisonFunc]
    split_ifs <;> simp <;> omega
  zero_iff a _ b _ := by
    rw [tbComparisonFunc]
    split_ifs <;> simp <;> omega

namespace TbInfos

/-- The struct of a TB that was executed `n` times. -/
def ofTb (executed : List Tb) (tb : Tb) : TbInfoT :=
  { newTbInfo tb with numOfExec := executed.countP fun e => decide (e.vaddr = tb.vaddr) }

/-- What is collected of the TBs seen so far. -/
structure Holds (s : TbInfos) (seen executed : List Tb) : Prop where
  balanced : s.tbAvlRoot.Balanced
  ordered : s.tbAvlRoot.Ordered id
  entries : ∀ e, e ∈ s.tbAvlRoot.toList ↔ (s.structs.map TbInfoT.baseAddress)[e.2]? = some e.1
  list : s.tbInfoList = (List.range s.structs.length).reverse
  structs : s.structs = (Keyed.firsts Tb.vaddr seen).map (ofTb executed)

variable {s : TbInfos} {seen executed : List Tb} {tb : Tb} {p : ℕ}

theorem Holds.bases (h : s.Holds seen executed) :
    s.structs.map TbInfoT.baseAddress = (Keyed.firsts Tb.vaddr seen).map Tb.vaddr := by
  rw [h.structs, List.map_map]
  rfl

theorem Holds.find (h : s.Holds seen executed) (address : ℕ) :
    (s.tbAvlRoot.find tbComparisonFunc address = none ↔ address ∉ seen.map Tb.vaddr) ∧
    ∀ p, s.tbAvlRoot.find tbComparisonFunc address = some p →
      (s.structs.map TbInfoT.baseAddress)[p]? = some address := by
  have hnone := AvlTree.find_eq_none_iff agrees_tbComparisonFunc (Set.mem_univ address)
    (fun p _ => Set.mem_univ p.1) h.ordered
  refine ⟨?_, fun p hp => ?_⟩
  · rw [hnone, ← Keyed.mem_map_firsts, ← h.bases]
    constructor
    · intro hno hmem
      obtain ⟨p, hp⟩ := List.mem_iff_getElem?.mp hmem
      exact hno (address, p) ((h.entries _).mpr hp) rfl
    · rintro hno ⟨key, p⟩ hp rfl
      exact hno (List.mem_of_getElem? ((h.entries _).mp hp))
  · obtain ⟨⟨key, q⟩, hmem, rfl, hzero⟩ := AvlTree.exists_mem_of_find hp
    obtain rfl : address = key :=
      (agrees_tbComparisonFunc.zero_iff _ (Set.mem_univ _) _ (Set.mem_univ _)).mp hzero
    exact (h.entries _).mp hmem

/-- The struct of an address is found. -/
theorem Holds.find_eq_some (h : s.Holds seen executed) {address : ℕ}
    (hp : (s.structs.map TbInfoT.baseAddress)[p]? = some address) :
    s.tbAvlRoot.find tbComparisonFunc address = some p := by
  obtain ⟨hnone, hsome⟩ := h.find address
  have hnodup : (s.structs.map TbInfoT.baseAddress).Nodup := by
    rw [h.bases]
    exact Keyed.nodup_firsts _ _
  cases hfind : s.tbAvlRoot.find tbComparisonFunc address with
  | none =>
    have hmem := List.mem_of_getElem? hp
    rw [h.bases, Keyed.mem_map_firsts] at hmem
    exact absurd hmem (hnone.mp hfind)
  | some q =>
    obtain ⟨hq, hqa⟩ := List.getElem?_eq_some_iff.mp (hsome q hfind)
    obtain ⟨hp, hpa⟩ := List.getElem?_eq_some_iff.mp hp
    exact congrArg some ((List.Nodup.getElem_inj_iff hnodup).mp (hqa.trans hpa.symm))

/-- There are at most `2 ^ 64` base addresses, so the tree stays low. -/
theorem Holds.height_le (h : s.Holds seen executed) (hseen : ∀ tb ∈ seen, tb.vaddr < 2 ^ 64) :
    s.tbAvlRoot.height ≤ Avl.maxHeight := by
  have hnodup : (s.tbAvlRoot.toList.map Prod.fst).Nodup :=
    List.pairwise_map.mpr (h.ordered.imp fun hlt => ne_of_lt hlt)
  have hsub : (s.tbAvlRoot.toList.map Prod.fst).toFinset ⊆ Finset.range (2 ^ 64) := by
    intro key hkey
    obtain ⟨e, he, rfl⟩ := List.mem_map.mp (List.mem_toFinset.mp hkey)
    have hbase := List.mem_of_getElem? ((h.entries e).mp he)
    rw [h.bases, Keyed.mem_map_firsts] at hbase
    obtain ⟨tb, htb, heq⟩ := List.mem_map.mp hbase
    rw [← heq]
    exact Finset.mem_range.mpr (hseen tb htb)
  have hcard := Finset.card_le_card hsub
  rw [List.toFinset_card_of_nodup hnodup, List.length_map, Finset.card_range] at hcard
  refine (h.balanced.height_lt (n := Avl.maxHeight) ?_).le
  have hfib : Nat.fib (Avl.maxHeight + 2) = 19740274219868223167 := by
    rw [Avl.maxHeight]
    norm_num
  omega

theorem getElem?_map_concat {α β : Type*} {f : α → β} {l : List α} {q : ℕ} {b : β} (x : α)
    (h : (l.map f)[q]? = some b) : ((l ++ [x]).map f)[q]? = some b := by
  rw [List.map_append, List.getElem?_append_left (List.getElem?_eq_some_iff.mp h).1]
  exact h

/-- The pointers keep their addresses. -/
def Extends (s s' : TbInfos) : Prop :=
  ∀ q a : ℕ, (s.structs.map TbInfoT.baseAddress)[q]? = some a →
    (s'.structs.map TbInfoT.baseAddress)[q]? = some a

/-- A TB at a new address. -/
theorem Holds.newEntry (h : s.Holds seen executed) (hexecuted : ∀ e ∈ executed, e.vaddr ∈ seen.map Tb.vaddr)
    (hfind : s.tbAvlRoot.find tbComparisonFunc tb.vaddr = none) :
    Holds ⟨s.structs ++ [newTbInfo tb], s.structs.length :: s.tbInfoList,
      s.tbAvlRoot.insert tbComparisonFunc tb.vaddr s.structs.length⟩ (seen ++ [tb]) executed := by
  have hnew := (h.find tb.vaddr).1.mp hfind
  have hkeys : ∀ p ∈ s.tbAvlRoot.toList, p.1 ∈ (Set.univ : Set ℕ) := fun p _ => Set.mem_univ p.1
  refine ⟨h.balanced.insert, h.ordered.insert agrees_tbComparisonFunc (Set.mem_univ _) hkeys hfind, ?_, ?_, ?_⟩
  · rintro ⟨key, q⟩
    rw [AvlTree.mem_toList_insert hfind, h.entries, List.map_append, List.map_singleton]
    have hlength : (s.structs.map TbInfoT.baseAddress).length = s.structs.length := List.length_map _
    rcases lt_trichotomy q s.structs.length with hlt | rfl | hgt
    · rw [List.getElem?_append_left (hlength ▸ hlt)]
      simp [hlt.ne]
    · rw [List.getElem?_append_right hlength.le, hlength, Nat.sub_self,
        List.getElem?_eq_none (l := s.structs.map TbInfoT.baseAddress) hlength.le]
      simp [newTbInfo, eq_comm]
    · rw [List.getElem?_eq_none (hlength ▸ hgt.le), List.getElem?_eq_none]
      · simp [hgt.ne']
      · rw [List.length_append, hlength]
        exact hgt
  · rw [List.length_append, List.length_singleton, List.range_succ, List.reverse_append, h.list]
    rfl
  · have hcount : executed.countP (fun e => decide (e.vaddr = tb.vaddr)) = 0 := by
      refine List.countP_eq_zero.mpr fun e he hsame => hnew ?_
      exact of_decide_eq_true hsame ▸ hexecuted e he
    rw [Keyed.firsts_concat, if_neg (by rwa [Keyed.mem_map_firsts]), List.map_append, ← h.structs,
      List.map_singleton, ofTb, hcount]
    rfl

/-- `add_tb_info` never fails and never returns `NULL`. -/
theorem Holds.addTbInfo (h : s.Holds seen executed) (hseen : ∀ tb ∈ seen, tb.vaddr < 2 ^ 64)
    (hexecuted : ∀ e ∈ executed, e.vaddr ∈ seen.map Tb.vaddr) (tb : Tb) :
    ∃ s' p, s.addTbInfo tb = some (s', some p) ∧ s'.Holds (seen ++ [tb]) executed ∧
      (s'.structs.map TbInfoT.baseAddress)[p]? = some tb.vaddr ∧ s.Extends s' := by
  cases hfind : s.tbAvlRoot.find tbComparisonFunc tb.vaddr with
  | some p =>
    have hmem := (h.find tb.vaddr).2 p hfind
    refine ⟨s, p, by rw [TbInfos.addTbInfo, hfind], ⟨h.balanced, h.ordered, h.entries, h.list, ?_⟩, hmem,
      fun q a hq => hq⟩
    rw [Keyed.firsts_concat, if_pos]
    · exact h.structs
    · rw [← h.bases]
      exact List.mem_of_getElem? hmem
  | none =>
    have hnew := h.newEntry hexecuted hfind
    have hinsert := Avl.avlInsert_eq tbComparisonFunc tb.vaddr s.structs.length h.balanced
      (h.height_le hseen) hfind
    have hbase : ((s.structs ++ [newTbInfo tb]).map TbInfoT.baseAddress)[s.structs.length]? =
        some tb.vaddr := by
      simp [newTbInfo]
    -- the struct is found again
    have hagain : (s.tbAvlRoot.insert tbComparisonFunc tb.vaddr s.structs.length).find tbComparisonFunc
        tb.vaddr = some s.structs.length := hnew.find_eq_some hbase
    refine ⟨_, s.structs.length, ?_, hnew, hbase, fun q a => getElem?_map_concat _⟩
    rw [TbInfos.addTbInfo, hfind]
    simp only [hinsert, Option.bind_eq_bind, Option.bind_some, hagain, if_true]
    rfl

/-- The callback of a TB counts in its struct. -/
theorem Holds.countExec (h : s.Holds seen executed)
    (hp : (s.structs.map TbInfoT.baseAddress)[p]? = some tb.vaddr) :
    (s.countExec (some p)).Holds seen (executed ++ [tb]) ∧
      (s.countExec (some p)).structs.map TbInfoT.baseAddress = s.structs.map TbInfoT.baseAddress := by
  have hbases : (s.countExec (some p)).structs.map TbInfoT.baseAddress =
      s.structs.map TbInfoT.baseAddress := by
    refine List.ext_getElem? fun q => ?_
    rw [TbInfos.countExec, List.getElem?_map, List.getElem?_map, List.getElem?_modify]
    cases s.structs[q]? with
    | none => rfl
    | some t =>
      simp only [Option.map_some, Option.map_eq_map]
      split <;> rfl
  have hlength : (s.countExec (some p)).structs.length = s.structs.length := by
    rw [TbInfos.countExec, List.length_modify]
  refine ⟨⟨h.balanced, h.ordered, fun e => ?_, ?_, ?_⟩, hbases⟩
  · rw [hbases]
    exact h.entries e
  · rw [hlength]
    exact h.list
  · refine List.ext_getElem? fun q => ?_
    have hnodup : (s.structs.map TbInfoT.baseAddress).Nodup := by
      rw [h.bases]
      exact Keyed.nodup_firsts _ _
    rw [h.bases] at hp hnodup
    rw [TbInfos.countExec, List.getElem?_modify, h.structs, List.getElem?_map, List.getElem?_map]
    cases hq : (Keyed.firsts Tb.vaddr seen)[q]? with
    | none => rfl
    | some first =>
      have hfirst : ((Keyed.firsts Tb.vaddr seen).map Tb.vaddr)[q]? = some first.vaddr := by
        rw [List.getElem?_map, hq]
        rfl
      have hcount : ofTb (executed ++ [tb]) first = { ofTb executed first with
          numOfExec := (ofTb executed first).numOfExec + if tb.vaddr = first.vaddr then 1 else 0 } := by
        simp [ofTb, List.countP_append, List.countP_singleton]
      simp only [Option.map_some, Option.map_eq_map, hcount]
      by_cases hpq : p = q
      · subst hpq
        rw [hfirst] at hp
        rw [if_pos rfl, if_pos (Option.some.inj hp).symm]
      · have hne : tb.vaddr ≠ first.vaddr := fun hsame => by
          rw [hsame] at hp
          obtain ⟨hp, hpa⟩ := List.getElem?_eq_some_iff.mp hp
          obtain ⟨hq, hqa⟩ := List.getElem?_eq_some_iff.mp hfirst
          exact hpq ((List.Nodup.getElem_inj_iff hnodup).mp (hpa.trans hqa.symm))
        rw [if_neg hpq, if_neg hne]
        rfl

/-- Both files count in the same structs. -/
theorem view_countExec (hp : p < s.structs.length) :
    (s.countExec (some p)).view = countExecution s.view (some p) := by
  funext q
  rw [view, TbInfos.countExec, List.getElem?_modify, countExecution, Function.update_apply]
  by_cases hq : q = p
  · subst hq
    simp [view, List.getElem?_eq_getElem hp]
  · simp [view, hq, Ne.symm hq]

end TbInfos

namespace TbMachine

variable {ringBuffer : Bool} {m m' : TbMachine}

/-- What the machine has collected. -/
structure Collected (ringBuffer : Bool) (m : TbMachine) : Prop where
  enabled : m.tbInfoEnabled = true ∧ m.tbExecOrderEnabled = true
  defined : m.undefined = false
  infos : m.infos.Holds (m.translated.map TbTranslation.tb) m.executed
  pointers : ∀ t ∈ m.translated, ∃ p, t.vcurrent = some (some p) ∧
    (m.infos.structs.map TbInfoT.baseAddress)[p]? = some t.tb.vaddr
  narrow : ∀ tb ∈ m.translated.map TbTranslation.tb, tb.vaddr < 2 ^ 64
  executed : ∀ e ∈ m.executed, e ∈ m.translated.map TbTranslation.tb
  view : m.order.tbInfos = m.infos.view
  order : ∃ ptrs : List ℕ, ptrs.map (fun p => (m.infos.structs.map TbInfoT.baseAddress)[p]?) =
    m.executed.map (fun e => some e.vaddr) ∧
      ExecOrder.HasCollected ringBuffer m.infos.view (ptrs.map some) m.order

theorem Collected.executed_vaddr (h : m.Collected ringBuffer) :
    ∀ e ∈ m.executed, e.vaddr ∈ (m.translated.map TbTranslation.tb).map Tb.vaddr :=
  fun e he => List.mem_map_of_mem (h.executed e he)

theorem collected_init (ringBuffer : Bool) : (init ringBuffer).Collected ringBuffer where
  enabled := ⟨rfl, rfl⟩
  defined := rfl
  infos := ⟨trivial, .nil, fun e => by simp [init, AvlTree.toList], rfl, rfl⟩
  pointers := nofun
  narrow := nofun
  executed := nofun
  view := rfl
  order := ⟨[], rfl, ExecOrder.hasCollected_nil _ _⟩

/-- A translation; the addresses of TBs have 64 bits. -/
theorem Collected.translate (h : m.Collected ringBuffer) {tb : Tb} (htb : tb.vaddr < 2 ^ 64) :
    (m.handleTbTranslateData tb).Collected ringBuffer := by
  obtain ⟨infos, p, hadd, hinfos, hp, hextends⟩ := h.infos.addTbInfo h.narrow h.executed_vaddr tb
  have hmachine : m.handleTbTranslateData tb = { m with
      infos := infos
      order := { m.order with tbInfos := infos.view }
      translated := m.translated ++ [⟨tb, some (some p)⟩] } := by
    rw [handleTbTranslateData, if_pos h.enabled.1, hadd]
    simp only [register, setInfos, h.enabled.2, if_true]
  have hseen : (m.translated ++ [(⟨tb, some (some p)⟩ : TbTranslation)]).map TbTranslation.tb =
      m.translated.map TbTranslation.tb ++ [tb] := by
    rw [List.map_append]
    rfl
  obtain ⟨ptrs, hptrs, horder⟩ := h.order
  rw [hmachine]
  refine ⟨h.enabled, h.defined, hseen ▸ hinfos, fun t ht => ?_, ?_, fun e he => ?_, rfl, ptrs, ?_, ?_⟩
  · rcases List.mem_append.mp ht with ht | ht
    · obtain ⟨q, hq, hbase⟩ := h.pointers t ht
      exact ⟨q, hq, hextends q _ hbase⟩
    · rw [List.mem_singleton.mp ht]
      exact ⟨p, rfl, hp⟩
  · rw [hseen]
    exact List.forall_mem_append.mpr ⟨h.narrow, List.forall_mem_singleton.mpr htb⟩
  · rw [hseen]
    exact List.mem_append_left _ (h.executed e he)
  · refine List.ext_getElem? fun k => ?_
    have hk := congrArg (·[k]?) hptrs
    simp only [List.getElem?_map] at hk ⊢
    cases hq : ptrs[k]? with
    | none => simpa [hq] using hk
    | some q =>
      rw [hq] at hk
      cases he : m.executed[k]? with
      | none => simp [he] at hk
      | some e =>
        simp only [he, Option.map_some, Option.some.injEq] at hk ⊢
        have hbase := hextends q e.vaddr
        simp only [List.getElem?_map] at hbase
        exact hbase hk
  · exact horder.setInfos

theorem Collected.execute (h : m.Collected ringBuffer) {t : TbTranslation} (ht : t ∈ m.translated) :
    (m.execute t).Collected ringBuffer := by
  obtain ⟨p, hcurrent, hp⟩ := h.pointers t ht
  obtain ⟨hinfos, hbases⟩ := h.infos.countExec hp
  have hlt : p < m.infos.structs.length := by
    simpa using (List.getElem?_eq_some_iff.mp hp).1
  have hview := TbInfos.view_countExec hlt
  have hmachine : m.execute t = { m with
      executed := m.executed ++ [t.tb]
      infos := m.infos.countExec (some p)
      order := m.order.tbExecDataEvent (some p) } := by
    rw [TbMachine.execute, hcurrent]
  obtain ⟨ptrs, hptrs, horder⟩ := h.order
  have hevent := horder.event (some p)
  rw [hmachine]
  refine ⟨h.enabled, h.defined, hinfos, fun t' ht' => ?_, h.narrow, fun e he => ?_, ?_, ptrs ++ [p], ?_, ?_⟩
  · rw [hbases]
    exact h.pointers t' ht'
  · rcases List.mem_append.mp he with he | he
    · exact h.executed e he
    · rw [List.mem_singleton.mp he]
      exact List.mem_map_of_mem ht
  · rw [ExecOrder.tbInfos_tbExecDataEvent, h.view, hview]
  · rw [List.map_append, List.map_append, hbases, hptrs]
    exact congrArg (_ ++ [·]) hp
  · rw [List.map_append]
    refine hevent.rebase ⟨fun q => (hevent.sameBases.bases q).trans ?_⟩
    rw [hview, ExecOrder.baseAddress_countExecution]

theorem Collected.step (h : m.Collected ringBuffer) {ev : TbEvent} (hev : ev.Narrow)
    (hstep : m.step ev = some m') : m'.Collected ringBuffer := by
  cases ev with
  | translate tb =>
    rw [← Option.some.inj hstep]
    exact h.translate hev
  | exec k =>
    obtain ⟨t, ht, rfl⟩ := Option.map_eq_some_iff.mp hstep
    exact h.execute (List.mem_of_getElem? ht)

/-! ### The dumps -/

/-- From the last struct to the first one. -/
theorem mapM_range_reverse {α : Type*} (l r : List α) :
    (List.range l.length).reverse.mapM (fun p => (l ++ r)[p]?) = some l.reverse := by
  induction l using List.reverseRecOn generalizing r with
  | nil => rfl
  | append_singleton l x ih =>
    have hx : (l ++ (x :: r))[l.length]? = some x := by simp
    have hrest := ih (x :: r)
    rw [List.append_assoc, List.singleton_append, List.length_append, List.length_singleton, List.range_succ,
      List.reverse_append, List.reverse_singleton, List.singleton_append, List.mapM_cons, hx, hrest]
    simp

theorem Collected.dumpTbInformation (h : m.Collected ringBuffer) :
    m.infos.pluginDumpTbInformation = some
      ((Keyed.firsts Tb.vaddr (m.translated.map TbTranslation.tb)).map (TbInfos.ofTb m.executed)).reverse := by
  rw [TbInfos.pluginDumpTbInformation, h.infos.list, ← h.infos.structs]
  simpa only [List.append_nil] using mapM_range_reverse m.infos.structs []

theorem Collected.dumpTbExecOrder (h : m.Collected ringBuffer) :
    m.order.pluginDumpTbExecOrder = some ⟨ExecOrder.kept ringBuffer m.executed.length,
      (m.executed.mapIdx fun pos e => ⟨e.vaddr, pos⟩).drop
        (m.executed.length - ExecOrder.kept ringBuffer m.executed.length)⟩ := by
  obtain ⟨ptrs, hptrs, horder⟩ := h.order
  have hlength : ptrs.length = m.executed.length := by simpa using congrArg List.length hptrs
  have hmessages : ExecOrder.messages m.infos.view (ptrs.map some) =
      m.executed.mapIdx fun pos e => ⟨e.vaddr, pos⟩ := by
    refine List.ext_getElem? fun k => ?_
    have hk := congrArg (·[k]?) hptrs
    simp only [ExecOrder.messages, List.getElem?_mapIdx, List.getElem?_map] at hk ⊢
    cases hq : ptrs[k]? with
    | none =>
      have he : m.executed[k]? = none := by simpa [hq, eq_comm] using hk
      rw [he]
      rfl
    | some q =>
      rw [hq] at hk
      cases he : m.executed[k]? with
      | none => simp [he] at hk
      | some e =>
        simp only [he, Option.map_some, Option.some.injEq, Option.map_eq_some_iff] at hk
        obtain ⟨t, ht, hbase⟩ := hk
        simp only [Option.map_some, Option.elim_some, TbInfos.view, ht, hbase]
  rw [horder.dump, List.length_map, hlength, hmessages]

/-- Each execution is counted once. -/
theorem sum_numOfExec {seen executed : List Tb} (hexecuted : ∀ e ∈ executed, e.vaddr ∈ seen.map Tb.vaddr) :
    (((Keyed.firsts Tb.vaddr seen).map (TbInfos.ofTb executed)).map TbInfoT.numOfExec).sum =
      executed.length := by
  have hfirsts : ∀ e ∈ executed, ∃ x ∈ Keyed.firsts Tb.vaddr seen, x.vaddr = e.vaddr ∧ 1 = 1 := fun e he => by
    obtain ⟨first, hfirst, hsame⟩ := Keyed.exists_mem_firsts (hexecuted e he)
    exact ⟨first, hfirst, hsame, rfl⟩
  have hsum := Keyed.sum_countP_mul (k := Tb.vaddr) (w := fun _ => 1) (v := fun _ => 1)
    (Keyed.nodup_firsts Tb.vaddr seen) hfirsts
  simp only [mul_one, List.map_const', List.sum_replicate, smul_eq_mul] at hsum
  rw [List.map_map]
  exact hsum

theorem collected_of_run {events : List TbEvent} (hnarrow : ∀ ev ∈ events, ev.Narrow)
    (hrun : Run.run step (init ringBuffer) events = some m) : m.Collected ringBuffer :=
  Run.inv_run (fun _ _ _ hs hev => hs.step hev) (collected_init ringBuffer)
    (Run.everyStep_of_forall hnarrow) hrun

/-- In every run the dumps are what was executed: a row for each base address with the block that was
    translated there first and its number of executions, and the executions in their order, of the
    ring buffer the last hundred. No pointer is `NULL`, and the tree never fails. -/
theorem dumps_of_run {events : List TbEvent} (hnarrow : ∀ ev ∈ events, ev.Narrow)
    (hrun : Run.run step (init ringBuffer) events = some m) :
    m.undefined = false ∧
    m.infos.pluginDumpTbInformation = some
      ((Keyed.firsts Tb.vaddr (m.translated.map TbTranslation.tb)).map (TbInfos.ofTb m.executed)).reverse ∧
    m.order.pluginDumpTbExecOrder = some ⟨ExecOrder.kept ringBuffer m.executed.length,
      (m.executed.mapIdx fun pos e => ⟨e.vaddr, pos⟩).drop
        (m.executed.length - ExecOrder.kept ringBuffer m.executed.length)⟩ ∧
    (m.infos.structs.map TbInfoT.numOfExec).sum = m.executed.length := by
  have h := collected_of_run hnarrow hrun
  refine ⟨h.defined, h.dumpTbInformation, h.dumpTbExecOrder, ?_⟩
  rw [h.infos.structs]
  exact sum_numOfExec h.executed_vaddr

/-- A TB that calls itself, and the one behind it. -/
def selfLoop : List TbEvent :=
  [.translate (oneInsnTb 64), .exec 0, .exec 0, .translate (oneInsnTb 68), .exec 0, .exec 1]

theorem narrow_selfLoop : ∀ ev ∈ selfLoop, ev.Narrow := by
  simp [selfLoop, TbEvent.Narrow, oneInsnTb, Tb.vaddr]

theorem dumps_of_run_selfLoop : ∃ m, Run.run step (init false) selfLoop = some m ∧
    m.infos.pluginDumpTbInformation.map (List.map TbInfoT.numOfExec) = some [1, 3] ∧
    m.order.pluginDumpTbExecOrder.map (fun dump => dump.tbExecOrders.map ExecOrder.Message.tbBaseAddress) =
      some [64, 64, 64, 68] := by
  refine ⟨_, rfl, ?_⟩
  obtain ⟨-, hinfos, horder, -⟩ := dumps_of_run narrow_selfLoop rfl
  rw [hinfos, horder]
  exact ⟨rfl, rfl⟩

end TbMachine

end Archie.Plugin
