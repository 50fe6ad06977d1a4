import Archie.Lib.RingBuffer

/-! The order in which TBs are executed, tb_exec_data_collection.c.

    With the ring buffer the plugin keeps the last hundred executions, without it a doubly linked
    list of all of them: the dump walks back to the first element, then forward again.

        list      ◀─ e₀ ⇄ e₁ ⇄ … ⇄ eₙ     tb_exec_order_list points to the last one
        ring      slot k % 100 holds eₖ

    Memory is assumed to suffice, and the 64-bit counter not to run over: a list element for each
    execution would not fit into memory before. -/

namespace Archie.Plugin

/-! ### Collecting -/

/-- What the events and the dump use of a `tb_info_t`. -/
structure TbInformation where
  baseAddress : ℕ
  numOfExec : ℕ

/-- `tb_exec_rb_element` -/
structure RbElement where
  tbInfo : Option ℕ
  pos : ℕ

/-- `tb_exec_order_t`; pointers are numbers of allocated elements. -/
structure ExecNode where
  tbInfo : Option ℕ
  prev : Option ℕ
  next : Option ℕ

def TB_EXEC_RB_SIZE : ℕ := 100

/-- The globals of the file, and the structs behind the `tb_info` pointers. -/
structure ExecOrder where
  tbExecOrderRingBuffer : Bool
  tbInfos : ℕ → TbInformation
  nodes : List ExecNode
  tbExecOrderList : Option ℕ
  numExecOrder : ℕ
  /-- `tb_exec_rb_list` and its index -/
  rb : RingBuffer.Buffer RbElement

def tbExecOrderInit (ringBuffer : Bool) (tbInfos : ℕ → TbInformation) : ExecOrder where
  tbExecOrderRingBuffer := ringBuffer
  tbInfos := tbInfos
  nodes := []
  tbExecOrderList := none
  numExecOrder := 0
  rb := if ringBuffer then RingBuffer.empty TB_EXEC_RB_SIZE else ⟨[], 0⟩

/-- `tb_info->num_of_exec++` unless the pointer is `NULL`. -/
def countExecution (tbInfos : ℕ → TbInformation) : Option ℕ → ℕ → TbInformation
  | none => tbInfos
  | some p => Function.update tbInfos p { tbInfos p with numOfExec := (tbInfos p).numOfExec + 1 }

namespace ExecOrder

variable (s : ExecOrder)

/-- A new element at the end of the list. -/
def appendNode (tbInfo : Option ℕ) : ExecOrder :=
  let last := s.nodes.length
  let nodes := s.tbExecOrderList.elim s.nodes fun item =>
    s.nodes.modify item fun e => { e with next := some last }
  { s with
    nodes := nodes ++ [⟨tbInfo, s.tbExecOrderList, none⟩]
    tbExecOrderList := some last }

def tbExecDataEvent (vcurrent : Option ℕ) : ExecOrder :=
  let s := { s with tbInfos := countExecution s.tbInfos vcurrent }
  let s := if s.tbExecOrderRingBuffer then
      { s with rb := RingBuffer.push TB_EXEC_RB_SIZE s.rb ⟨vcurrent, s.numExecOrder⟩ }
    else s.appendNode vcurrent
  { s with numExecOrder := s.numExecOrder + 1 }

/-! ### Dumping -/

/-- The message of one execution. -/
structure Message where
  tbBaseAddress : ℕ
  pos : ℕ

def message (tbInfo : Option ℕ) (pos : ℕ) : Message :=
  match tbInfo with
  | none => ⟨0, pos⟩
  | some p => ⟨(s.tbInfos p).baseAddress, pos⟩

/-- `while(item->prev != NULL)`; the steps are counted for a warning only. -/
def walkBack (nodes : List ExecNode) : ℕ → ℕ → Option ℕ
  | 0, _ => none
  | fuel + 1, item => do
    let node ← nodes[item]?
    match node.prev with
    | none => some item
    | some prev => walkBack nodes fuel prev

/-- `while(item != NULL)` -/
def walkForward : ℕ → Option ℕ → ℕ → Option (List Message)
  | _, none, _ => some []
  | 0, some _, _ => none
  | fuel + 1, some item, i => do
    let node ← s.nodes[item]?
    let messages ← walkForward fuel node.next (i + 1)
    return s.message node.tbInfo i :: messages

/-- The fields `n_tb_exec_orders` and `tb_exec_orders` of the message. -/
structure Dump where
  nTbExecOrders : ℕ
  tbExecOrders : List Message

/-- `none` where a slot or a pointer is read that has never been written, or a walk does not end. -/
def pluginDumpTbExecOrder : Option Dump :=
  if s.tbExecOrderRingBuffer then
    if s.numExecOrder ≥ TB_EXEC_RB_SIZE then do
      let elements ← RingBuffer.readFrom TB_EXEC_RB_SIZE s.rb.slots s.rb.index
        (min TB_EXEC_RB_SIZE s.numExecOrder)
      return ⟨TB_EXEC_RB_SIZE, elements.map fun e => s.message e.tbInfo e.pos⟩
    else if s.numExecOrder = 0 then some ⟨0, []⟩
    else do
      let elements ← RingBuffer.readFrom TB_EXEC_RB_SIZE s.rb.slots 0
        (min TB_EXEC_RB_SIZE s.numExecOrder)
      return ⟨s.numExecOrder, elements.map fun e => s.message e.tbInfo e.pos⟩
  else if s.numExecOrder = 0 then some ⟨0, []⟩
  else do
    let item ← s.tbExecOrderList
    let first ← walkBack s.nodes s.nodes.length item
    let messages ← s.walkForward s.nodes.length (some first) 0
    return ⟨s.numExecOrder, messages⟩

/-! ### Runs -/

def collect (events : List (Option ℕ)) : ExecOrder := events.foldl tbExecDataEvent s

variable {s} {tbInfos : ℕ → TbInformation} {events : List (Option ℕ)}

/-- What is to be dumped: each execution with its number. -/
def messages (tbInfos : ℕ → TbInformation) (events : List (Option ℕ)) : List Message :=
  events.mapIdx fun pos e => ⟨e.elim 0 fun p => (tbInfos p).baseAddress, pos⟩

/-- Events count executions, the base addresses stay. -/
structure SameBases (tbInfos : ℕ → TbInformation) (s : ExecOrder) : Prop where
  bases : ∀ p, (s.tbInfos p).baseAddress = (tbInfos p).baseAddress

theorem SameBases.message (h : SameBases tbInfos s) (e : Option ℕ) (pos : ℕ) :
    s.message e pos = ⟨e.elim 0 fun p => (tbInfos p).baseAddress, pos⟩ := by
  cases e with
  | none => rfl
  | some p => rw [ExecOrder.message, h.bases]; rfl

theorem baseAddress_countExecution (tbInfos : ℕ → TbInformation) (e : Option ℕ) (p : ℕ) :
    (countExecution tbInfos e p).baseAddress = (tbInfos p).baseAddress := by
  cases e with
  | none => rfl
  | some q =>
    rw [countExecution, Function.update_apply]
    split
    · next h => rw [h]
    · rfl

/-! ### The ring buffer -/

/-- The ring holds the executions with their numbers. -/
structure RingCollected (tbInfos : ℕ → TbInformation) (events : List (Option ℕ)) (s : ExecOrder) : Prop
    extends SameBases tbInfos s where
  ring : s.tbExecOrderRingBuffer = true
  count : s.numExecOrder = events.length
  holds : RingBuffer.Holds TB_EXEC_RB_SIZE s.rb (events.mapIdx fun pos e => ⟨e, pos⟩)

theorem RingCollected.event (h : RingCollected tbInfos events s) (e : Option ℕ) :
    RingCollected tbInfos (events ++ [e]) (s.tbExecDataEvent e) := by
  have hpush := h.holds.push (by decide) ⟨e, events.length⟩
  have hevent : s.tbExecDataEvent e = { s with
      tbInfos := countExecution s.tbInfos e
      rb := RingBuffer.push TB_EXEC_RB_SIZE s.rb ⟨e, s.numExecOrder⟩
      numExecOrder := s.numExecOrder + 1 } := by
    simp only [tbExecDataEvent, h.ring, if_true]
  rw [hevent]
  refine ⟨⟨fun p => (baseAddress_countExecution _ _ _).trans (h.bases p)⟩, h.ring, ?_, ?_⟩
  · rw [h.count, List.length_append]
    rfl
  · rw [h.count, List.mapIdx_concat]
    exact hpush

theorem RingCollected.collect (tbInfos : ℕ → TbInformation) (events : List (Option ℕ)) :
    RingCollected tbInfos events ((tbExecOrderInit true tbInfos).collect events) := by
  induction events using List.reverseRecOn with
  | nil => exact ⟨⟨fun _ => rfl⟩, rfl, rfl, RingBuffer.Holds.empty _⟩
  | append_singleton events e ih =>
    rw [ExecOrder.collect, List.foldl_concat]
    exact ih.event e

theorem RingCollected.dump (h : RingCollected tbInfos events s) :
    s.pluginDumpTbExecOrder = some ⟨min events.length TB_EXEC_RB_SIZE,
      (messages tbInfos events).drop (events.length - min events.length TB_EXEC_RB_SIZE)⟩ := by
  have hread := h.holds.readAll (by decide)
  rw [List.length_mapIdx] at hread
  have hmap : (events.mapIdx fun pos e => (⟨e, pos⟩ : RbElement)).map (fun e => s.message e.tbInfo e.pos)
      = messages tbInfos events := by
    apply List.ext_getElem?
    intro k
    rw [messages, List.getElem?_map, List.getElem?_mapIdx, List.getElem?_mapIdx]
    cases events[k]? with
    | none => rfl
    | some e => exact congrArg some (h.message e k)
  rw [pluginDumpTbExecOrder, if_pos h.ring, h.count]
  split
  · next hfull =>
    rw [if_pos hfull] at hread
    rw [hread, min_eq_right hfull]
    simp only [Option.bind_eq_bind, Option.bind_some, List.map_drop, hmap]
    rfl
  · next hshort =>
    split
    · next hzero =>
      obtain rfl := List.eq_nil_of_length_eq_zero hzero
      rfl
    · rw [if_neg hshort] at hread
      rw [hread, min_eq_left (by omega)]
      simp only [Option.bind_eq_bind, Option.bind_some, List.map_drop, hmap]
      rfl

/-! ### The linked list -/

def previous : ℕ → Option ℕ
  | 0 => none
  | k + 1 => some k

/-- The element behind element `k` of a list of `n`. -/
def following (n k : ℕ) : Option ℕ := if k + 1 < n then some (k + 1) else none

/-- The elements of the list, linked in both directions. -/
def chain (events : List (Option ℕ)) : List ExecNode :=
  events.mapIdx fun k e => ⟨e, previous k, following events.length k⟩

theorem chain_getElem? (events : List (Option ℕ)) (k : ℕ) :
    (chain events)[k]? = events[k]?.map fun e => ⟨e, previous k, following events.length k⟩ :=
  List.getElem?_mapIdx

/-- The list holds the executions, the last one is where the pointer points to. -/
structure ListCollected (tbInfos : ℕ → TbInformation) (events : List (Option ℕ)) (s : ExecOrder) : Prop
    extends SameBases tbInfos s where
  noRing : s.tbExecOrderRingBuffer = false
  count : s.numExecOrder = events.length
  nodes : s.nodes = chain events
  last : s.tbExecOrderList = previous events.length

/-- The former last element is linked to the new one. -/
theorem chain_concat (events : List (Option ℕ)) (e : Option ℕ) :
    chain (events ++ [e]) = ((previous events.length).elim (chain events) fun item =>
      (chain events).modify item fun n => { n with next := some events.length })
        ++ [⟨e, previous events.length, none⟩] := by
  have hlast : following (events.length + 1) events.length = none := if_neg (lt_irrefl _)
  rw [chain, List.mapIdx_concat, List.length_append, List.length_singleton, hlast]
  congr 1
  apply List.ext_getElem?
  intro k
  cases hn : events.length with
  | zero =>
    obtain rfl := List.eq_nil_of_length_eq_zero hn
    rfl
  | succ m =>
    rw [previous, Option.elim_some, List.getElem?_modify, chain_getElem?, List.getElem?_mapIdx]
    cases hk : events[k]? with
    | none => rfl
    | some x =>
      have hlt := (List.getElem?_eq_some_iff.mp hk).1
      simp only [Option.map_some, Option.map_eq_map, following]
      split_ifs <;> simp <;> omega

theorem ListCollected.event (h : ListCollected tbInfos events s) (e : Option ℕ) :
    ListCollected tbInfos (events ++ [e]) (s.tbExecDataEvent e) := by
  have hevent : s.tbExecDataEvent e =
      let counted := { s with tbInfos := countExecution s.tbInfos e }
      { counted.appendNode e with numExecOrder := s.numExecOrder + 1 } := by
    simp only [tbExecDataEvent, h.noRing, appendNode, Bool.false_eq_true, if_false]
  have hlength : s.nodes.length = events.length := by rw [h.nodes, chain, List.length_mapIdx]
  rw [hevent]
  refine ⟨⟨fun p => (baseAddress_countExecution _ _ _).trans (h.bases p)⟩, h.noRing, ?_, ?_, ?_⟩
  · rw [List.length_append, List.length_singleton, ← h.count]
  · rw [chain_concat, ← h.last, ← h.nodes, ← hlength]
    rfl
  · rw [List.length_append, List.length_singleton, ← hlength]
    rfl

theorem ListCollected.collect (tbInfos : ℕ → TbInformation) (events : List (Option ℕ)) :
    ListCollected tbInfos events ((tbExecOrderInit false tbInfos).collect events) := by
  induction events using List.reverseRecOn with
  | nil => exact ⟨⟨fun _ => rfl⟩, rfl, rfl, rfl, rfl⟩
  | append_singleton events e ih =>
    rw [ExecOrder.collect, List.foldl_concat]
    exact ih.event e

/-- From element `k` it takes `k` steps to the first one. -/
theorem walkBack_chain (events : List (Option ℕ)) :
    ∀ {k fuel : ℕ}, k < events.length → k < fuel → walkBack (chain events) fuel k = some 0
  | k, 0, _, hfuel => absurd hfuel (Nat.not_lt_zero k)
  | 0, fuel + 1, hk, _ => by
    rw [walkBack, chain_getElem?, List.getElem?_eq_getElem hk]
    rfl
  | k + 1, fuel + 1, hk, hfuel => by
    rw [walkBack, chain_getElem?, List.getElem?_eq_getElem hk]
    exact walkBack_chain events (by omega) (by omega)

theorem ListCollected.walkForward (h : ListCollected tbInfos events s) :
    ∀ {fuel k : ℕ}, k < events.length → events.length ≤ k + fuel →
      s.walkForward fuel (some k) k = some ((messages tbInfos events).drop k)
  | 0, k, hk, hfuel => by omega
  | fuel + 1, k, hk, hfuel => by
    have hcons : (messages tbInfos events).drop k
        = s.message events[k] k :: (messages tbInfos events).drop (k + 1) := by
      rw [List.drop_eq_getElem_cons (by rwa [messages, List.length_mapIdx]), h.message]
      simp only [messages, List.getElem_mapIdx]
    rw [ExecOrder.walkForward, h.nodes, chain_getElem?, List.getElem?_eq_getElem hk, hcons]
    simp only [Option.map_some, Option.bind_eq_bind, Option.bind_some, following]
    split
    · next hnext =>
      rw [h.walkForward hnext (by omega)]
      rfl
    · next hend =>
      rw [List.drop_eq_nil_of_le (by rw [messages, List.length_mapIdx]; omega)]
      cases fuel <;> rfl

theorem ListCollected.dump (h : ListCollected tbInfos events s) :
    s.pluginDumpTbExecOrder = some ⟨events.length, messages tbInfos events⟩ := by
  rw [pluginDumpTbExecOrder, if_neg (by rw [h.noRing]; exact Bool.false_ne_true), h.count]
  split
  · next hzero =>
    obtain rfl := List.eq_nil_of_length_eq_zero hzero
    rfl
  · next hne =>
    obtain ⟨k, hk⟩ := Nat.exists_eq_succ_of_ne_zero hne
    have hlength : s.nodes.length = events.length := by rw [h.nodes, chain, List.length_mapIdx]
    have hback : walkBack s.nodes s.nodes.length k = some 0 := by
      rw [h.nodes]
      exact walkBack_chain events (by omega) (by rw [← h.nodes]; omega)
    have hforward : s.walkForward s.nodes.length (some 0) 0 = some (messages tbInfos events) :=
      h.walkForward (by omega) (by omega)
    have hlast : s.tbExecOrderList = some k := by rw [h.last, hk]; rfl
    rw [hlast, Option.bind_eq_bind, Option.bind_some, hback, Option.bind_eq_bind, Option.bind_some,
      hforward]
    rfl

/-- The ring buffer's dump is the end of the linked list's. -/
theorem pluginDumpTbExecOrder_ring (tbInfos : ℕ → TbInformation) (events : List (Option ℕ)) :
    ∃ ring list,
      ((tbExecOrderInit true tbInfos).collect events).pluginDumpTbExecOrder = some ring ∧
      ((tbExecOrderInit false tbInfos).collect events).pluginDumpTbExecOrder = some list ∧
      list.nTbExecOrders = events.length ∧ list.tbExecOrders.length = events.length ∧
      ring.nTbExecOrders = min events.length TB_EXEC_RB_SIZE ∧
      ring.tbExecOrders =
        list.tbExecOrders.drop (events.length - min events.length TB_EXEC_RB_SIZE) :=
  ⟨_, _, (RingCollected.collect tbInfos events).dump, (ListCollected.collect tbInfos events).dump,
    rfl, List.length_mapIdx, rfl, rfl⟩

/-! ### Either of them -/

variable {ringBuffer : Bool} {tbInfos' : ℕ → TbInformation}

/-- The executions are in the ring buffer or in the list. -/
def HasCollected (ringBuffer : Bool) (tbInfos : ℕ → TbInformation) (events : List (Option ℕ))
    (s : ExecOrder) : Prop :=
  if ringBuffer then RingCollected tbInfos events s else ListCollected tbInfos events s

theorem hasCollected_nil (ringBuffer : Bool) (tbInfos : ℕ → TbInformation) :
    HasCollected ringBuffer tbInfos [] (tbExecOrderInit ringBuffer tbInfos) := by
  cases ringBuffer with
  | true => exact RingCollected.collect tbInfos []
  | false => exact ListCollected.collect tbInfos []

theorem HasCollected.event (h : HasCollected ringBuffer tbInfos events s) (e : Option ℕ) :
    HasCollected ringBuffer tbInfos (events ++ [e]) (s.tbExecDataEvent e) := by
  cases ringBuffer with
  | true => exact RingCollected.event h e
  | false => exact ListCollected.event h e

theorem HasCollected.sameBases (h : HasCollected ringBuffer tbInfos events s) : SameBases tbInfos s := by
  cases ringBuffer with
  | true => exact RingCollected.toSameBases h
  | false => exact ListCollected.toSameBases h

/-- Other structs, with the base addresses of the state. -/
theorem HasCollected.rebase (h : HasCollected ringBuffer tbInfos events s) (h' : SameBases tbInfos' s) :
    HasCollected ringBuffer tbInfos' events s := by
  cases ringBuffer with
  | true => exact ⟨h', h.ring, h.count, h.holds⟩
  | false => exact ⟨h', h.noRing, h.count, h.nodes, h.last⟩

/-- The structs are replaced. -/
theorem HasCollected.setInfos (h : HasCollected ringBuffer tbInfos events s) :
    HasCollected ringBuffer tbInfos' events { s with tbInfos := tbInfos' } := by
  cases ringBuffer with
  | true => exact ⟨⟨fun _ => rfl⟩, h.ring, h.count, h.holds⟩
  | false => exact ⟨⟨fun _ => rfl⟩, h.noRing, h.count, h.nodes, h.last⟩

/-- The number of executions that are dumped. -/
def kept (ringBuffer : Bool) (n : ℕ) : ℕ := if ringBuffer then min n TB_EXEC_RB_SIZE else n

theorem HasCollected.dump (h : HasCollected ringBuffer tbInfos events s) :
    s.pluginDumpTbExecOrder = some ⟨kept ringBuffer events.length,
      (messages tbInfos events).drop (events.length - kept ringBuffer events.length)⟩ := by
  cases ringBuffer with
  | true => exact RingCollected.dump h
  | false =>
    rw [ListCollected.dump h, kept, if_neg Bool.false_ne_true, Nat.sub_self, List.drop_zero]

theorem tbInfos_tbExecDataEvent (s : ExecOrder) (e : Option ℕ) :
    (s.tbExecDataEvent e).tbInfos = countExecution s.tbInfos e := by
  rw [tbExecDataEvent]
  cases s.tbExecOrderRingBuffer <;> rfl

end ExecOrder

end Archie.Plugin
