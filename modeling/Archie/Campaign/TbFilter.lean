import Archie.Lib.Blocks
import Archie.Lib.Windows
import Archie.Campaign.TbInfo

/-! Taking the single-step entries out of the trace of an experiment, `filter_tb` of faultclass.py, and
    the difference to the golden run, `write_output_wrt_goldenrun`.

    The frame has the trace backwards, a filter lists a TB backwards:

        index    …  s     s+1   …  s+n-1  …
        tb          last  …        first
                    ╰ invalidated ╯  stays

    A match is one of TB ids: an entry of one instruction and one of a whole TB that starts with it
    look the same. -/

namespace Archie.Campaign
open Python Blocks Windows

/-- A row of the frame; `tb1` is the column `tb-1`. -/
structure FilterRow where
  tb : Int
  pos : ℕ
  tb1 : Int
  deriving DecidableEq, Repr

def FilterRow.invalidate (r : FilterRow) : FilterRow := { r with tb := -1, tb1 := -1 }

/-- The rows with the TB of the row below, that is of the execution before. -/
def shiftTb : List TbExec → List FilterRow
  | [] => []
  | e :: es => ⟨e.tb, e.pos, (es.head?.map fun e' => (e'.tb : Int)).getD 0⟩ :: shiftTb es

/-- `frame.index[frame["tb"] == f]` -/
def tbIndex (frame : List FilterRow) (f : ℕ) : List ℕ :=
  positions (fun r => decide (r.tb = (f : Int))) frame

/-- The indices where the matches of a filter end. -/
def matchIndex (frame : List FilterRow) : List ℕ → List ℕ
  | [] => []
  | f :: filt => filt.foldl (fun idx f => (idx.map (· + 1)).filter fun i => decide (i ∈ tbIndex frame f))
      (tbIndex frame f)

/-- The counts only go down, and only whether one is above 0 matters in the end. -/
def decreseTbInfoElement (tbId number : ℕ) (tbinfo : List TbInfo) : List TbInfo :=
  tbinfo.map fun t => if t.id = tbId then { t with numExec := t.numExec - number } else t

/-- The positions of the matches, the frame and the TB table. -/
structure FilterState where
  idx : List ℕ
  frame : List FilterRow
  tbinfo : List TbInfo

/-- One address of a filter on the way back through its matches. -/
def FilterState.stepBack (st : FilterState) (f : ℕ) : FilterState :=
  let idx := st.idx.map (· - 1)
  { idx := idx
    frame := idx.foldl (fun frame i => frame.modify i FilterRow.invalidate) st.frame
    tbinfo := decreseTbInfoElement f idx.length st.tbinfo }

def filterFunction (st : List FilterRow × List TbInfo) (filt : List ℕ) : List FilterRow × List TbInfo :=
  let st := filt.reverse.tail.foldl FilterState.stepBack ⟨matchIndex st.1 filt, st.1, st.2⟩
  (st.frame, st.tbinfo)

/-- The rows of `filter_tb` that are left and the TBs still executed. -/
def filterRows (tbexec : List TbExec) (tbinfo tbinfogolden : List TbInfo) :
    Result (List FilterRow × List TbInfo) := do
  let filters ← buildFilters tbinfogolden
  -- empty frames have no columns
  if tbexec.isEmpty ∨ tbinfo.isEmpty ∨ tbinfogolden.isEmpty then .error .keyError
  let frame := shiftTb (tbexec.insertionSort fun a b => b.pos ≤ a.pos)
  let (frame, tbinfo) := (filters.filter fun filt => 1 < filt.length).foldl filterFunction (frame, tbinfo)
  return (frame.filter fun r => r.tb1 ≠ -1, tbinfo.filter fun t => 0 < t.numExec)

/-- The rows get new positions; they are left in backward order. -/
def filterTb (tbexec : List TbExec) (tbinfo tbinfogolden : List TbInfo) :
    Result (List TbExec × List TbInfo) := do
  let (frame, tbinfo) ← filterRows tbexec tbinfo tbinfogolden
  let frame := frame.insertionSort fun a b => a.pos ≤ b.pos
  return ((frame.mapIdx fun pos r => TbExec.mk r.tb.toNat pos).reverse, tbinfo)

/-- The rows of an experiment that the golden run does not have: it is appended twice, so that its own
    rows are duplicates. -/
def writeOutputWrtGoldenrun {α : Type} [DecidableEq α] (data : List α) : Option (List α) → List α
  | none => data
  | some golden =>
    let rows := data ++ golden ++ golden
    rows.filter fun r => rows.count r = 1

/-! ### What one filter does -/

variable {frame : List FilterRow} {filt : List ℕ} {i : ℕ}

theorem mem_tbIndex {f : ℕ} : i ∈ tbIndex frame f ↔ (frame.map FilterRow.tb)[i]? = some (f : Int) := by
  rw [tbIndex, mem_positions, List.getElem?_map, Option.map_eq_some_iff]
  simp only [decide_eq_true_eq]

/-- The matches are the occurrences of the filter in the column `tb`. -/
theorem mem_matchIndex (hfilt : filt ≠ []) : i ∈ matchIndex frame filt ↔
    ∃ s, At (filt.map Nat.cast) (frame.map FilterRow.tb) s ∧ i + 1 = s + filt.length := by
  obtain ⟨f, fs, rfl⟩ := List.exists_cons_of_ne_nil hfilt
  clear hfilt
  induction fs using List.reverseRecOn generalizing i with
  | nil =>
    rw [matchIndex, List.foldl_nil, mem_tbIndex]
    constructor
    · exact fun h => ⟨i, At.singleton_iff.mpr h, rfl⟩
    · rintro ⟨s, hat, hi⟩
      obtain rfl := Nat.succ_injective hi
      exact At.singleton_iff.mp hat
  | append_singleton fs g ih =>
    have hmatch : matchIndex frame (f :: (fs ++ [g])) = ((matchIndex frame (f :: fs)).map (· + 1)).filter
        fun i => decide (i ∈ tbIndex frame g) := by
      rw [matchIndex, List.foldl_append]
      rfl
    rw [hmatch, List.mem_filter, decide_eq_true_eq, mem_tbIndex, List.mem_map, ← List.cons_append,
      List.map_append, List.length_append]
    constructor
    · rintro ⟨⟨i₀, hi₀, rfl⟩, hg⟩
      obtain ⟨s, hat, hs⟩ := ih.mp hi₀
      rw [hs] at hg
      exact ⟨s, At.concat_iff.mpr ⟨hat, by rwa [List.length_map]⟩, by rw [hs, List.length_singleton]; omega⟩
    · rintro ⟨s, hat, hs⟩
      obtain ⟨hat, hg⟩ := At.concat_iff.mp hat
      rw [List.length_map] at hg
      rw [List.length_singleton, ← Nat.add_assoc] at hs
      obtain rfl : i = s + (f :: fs).length := Nat.succ_injective hs
      exact ⟨⟨s + fs.length, ih.mpr ⟨s, hat, rfl⟩, rfl⟩, hg⟩

/-- The way back invalidates the rows in front of the ends of the matches. -/
theorem foldl_stepBack (filt : List ℕ) (st : FilterState) : ∃ marks : List ℕ,
    (filt.foldl FilterState.stepBack st).frame
      = marks.foldl (fun frame i => frame.modify i FilterRow.invalidate) st.frame ∧
    ∀ i, i ∈ marks ↔ ∃ m < filt.length, ∃ i₀ ∈ st.idx, i = i₀ - (m + 1) := by
  induction filt generalizing st with
  | nil => exact ⟨[], rfl, fun i => by simp⟩
  | cons f filt ih =>
    obtain ⟨marks, hframe, hmarks⟩ := ih (st.stepBack f)
    refine ⟨st.idx.map (· - 1) ++ marks, ?_, fun i => ?_⟩
    · rw [List.foldl_cons, hframe, List.foldl_append]
      rfl
    · rw [List.mem_append, hmarks, List.mem_map, FilterState.stepBack]
      constructor
      · rintro (⟨i₀, hi₀, rfl⟩ | ⟨m, hm, i₁, hi₁, rfl⟩)
        · exact ⟨0, Nat.zero_lt_succ _, i₀, hi₀, rfl⟩
        · obtain ⟨i₀, hi₀, rfl⟩ := List.mem_map.mp hi₁
          exact ⟨m + 1, Nat.succ_lt_succ hm, i₀, hi₀, by omega⟩
      · rintro ⟨m, hm, i₀, hi₀, rfl⟩
        cases m with
        | zero => exact .inl ⟨i₀, hi₀, rfl⟩
        | succ m =>
          exact .inr ⟨m, Nat.lt_of_succ_lt_succ hm, i₀ - 1, List.mem_map_of_mem hi₀, by omega⟩

theorem filterFunction_spec (hlen : 1 < filt.length) (st : List FilterRow × List TbInfo) :
    (Covers (filt.map Nat.cast) (st.1.map FilterRow.tb) i →
      (filterFunction st filt).1[i]? = (st.1[i]?).map FilterRow.invalidate) ∧
    (¬ Covers (filt.map Nat.cast) (st.1.map FilterRow.tb) i →
      (filterFunction st filt).1[i]? = st.1[i]?) := by
  have hfilt : filt ≠ [] := List.ne_nil_of_length_pos (Nat.zero_lt_of_lt hlen)
  obtain ⟨marks, hframe, hmarks⟩ := foldl_stepBack filt.reverse.tail ⟨matchIndex st.1 filt, st.1, st.2⟩
  have hmem : i ∈ marks ↔ Covers (filt.map Nat.cast) (st.1.map FilterRow.tb) i := by
    rw [hmarks, List.length_tail, List.length_reverse]
    constructor
    · rintro ⟨m, hm, i₀, hi₀, rfl⟩
      obtain ⟨s, hat, hs⟩ := (mem_matchIndex hfilt).mp hi₀
      exact ⟨s, hat, by omega, by rw [List.length_map]; omega⟩
    · rintro ⟨s, hat, hsi, his⟩
      rw [List.length_map] at his
      exact ⟨s + filt.length - 2 - i, by omega, s + filt.length - 1,
        (mem_matchIndex hfilt).mpr ⟨s, hat, by omega⟩, by omega⟩
  rw [← hmem]
  simp only [filterFunction, hframe]
  exact ⟨getElem?_modifyAll_of_mem fun _ => rfl, getElem?_modifyAll_of_notMem⟩

/-! ### What is left of the frame -/

/-- Some rows of the frame have been invalidated. -/
def Invalidated (frame frame' : List FilterRow) : Prop :=
  ∀ i : ℕ, frame'[i]? = frame[i]? ∨ frame'[i]? = (frame[i]?).map FilterRow.invalidate

namespace Invalidated

variable {frame' frame'' : List FilterRow}

theorem refl (frame : List FilterRow) : Invalidated frame frame := fun _ => .inl rfl

theorem trans (h : Invalidated frame frame') (h' : Invalidated frame' frame'') : Invalidated frame frame'' := by
  intro i
  rcases h' i with h' | h'
  · rw [h']
    exact h i
  · refine .inr ?_
    rcases h i with h | h
    · rw [h', h]
    · rw [h', h, Option.map_map]
      rfl

theorem foldl_filterFunction {filters : List (List ℕ)} (hlong : ∀ filt ∈ filters, 1 < filt.length)
    (st : List FilterRow × List TbInfo) : Invalidated st.1 (filters.foldl filterFunction st).1 := by
  induction filters generalizing st with
  | nil => exact refl _
  | cons filt filters ih =>
    obtain ⟨hfilt, hfilters⟩ := List.forall_mem_cons.mp hlong
    refine trans (fun i => ?_) (ih hfilters (filterFunction st filt))
    by_cases hcov : Covers (filt.map Nat.cast) (st.1.map FilterRow.tb) i
    · exact .inr ((filterFunction_spec hfilt st).1 hcov)
    · exact .inl ((filterFunction_spec hfilt st).2 hcov)

theorem stays (h : Invalidated frame frame') (hi : (frame.map FilterRow.tb)[i]? = some (-1)) :
    (frame'.map FilterRow.tb)[i]? = some (-1) := by
  rw [List.getElem?_map] at hi ⊢
  rcases h i with h | h
  · rwa [h]
  · obtain ⟨row, hrow, -⟩ := Option.map_eq_some_iff.mp hi
    rw [h, hrow]
    rfl

theorem exists_row (h : Invalidated frame frame') {row' : FilterRow} (hi : frame'[i]? = some row') :
    ∃ row, frame[i]? = some row ∧ (row' = row ∨ row' = row.invalidate) := by
  rcases h i with h | h
  · exact ⟨row', h ▸ hi, .inl rfl⟩
  · rw [hi, eq_comm, Option.map_eq_some_iff] at h
    obtain ⟨row, hrow, rfl⟩ := h
    exact ⟨row, hrow, .inr rfl⟩

theorem map_pos (h : Invalidated frame frame') : frame'.map FilterRow.pos = frame.map FilterRow.pos := by
  refine List.ext_getElem? fun i => ?_
  rw [List.getElem?_map, List.getElem?_map]
  rcases h i with h | h
  · rw [h]
  · rw [h, Option.map_map]
    rfl

/-- The rows that are left are those with a TB in the column. -/
theorem filter_eq (h : Invalidated frame frame') (hvalid : ∀ row ∈ frame, row.tb ≠ -1 ∧ row.tb1 ≠ -1) :
    (frame'.filter fun row => row.tb1 ≠ -1)
      = ((frame.zip (frame'.map FilterRow.tb)).filter fun p => p.2 ≠ -1).map Prod.fst := by
  induction frame generalizing frame' with
  | nil =>
    have hnil : frame' = [] := by
      rw [List.eq_nil_iff_length_eq_zero, ← List.length_map FilterRow.pos, h.map_pos]
      rfl
    rw [hnil]
    rfl
  | cons row frame ih =>
    cases frame' with
    | nil => rfl
    | cons row' frame' =>
      have htail : Invalidated frame frame' := fun i => by simpa using h (i + 1)
      obtain ⟨⟨htb, htb1⟩, hframe⟩ := List.forall_mem_cons.mp hvalid
      rw [List.map_cons, List.zip_cons_cons, List.filter_cons, List.filter_cons, ih htail hframe]
      have hhead : row' = row ∨ row' = row.invalidate := by simpa using h 0
      rcases hhead with rfl | rfl
      · simp [htb, htb1]
      · simp [FilterRow.invalidate]

end Invalidated

theorem map_shiftTb (es : List TbExec) :
    (shiftTb es).map (fun r => (r.tb, r.pos)) = es.map fun e => ((e.tb : Int), e.pos) := by
  induction es with
  | nil => rfl
  | cons e es ih => rw [shiftTb, List.map_cons, List.map_cons, ih]

theorem shiftTb_valid {es : List TbExec} {row : FilterRow} (h : row ∈ shiftTb es) :
    row.tb ≠ -1 ∧ row.tb1 ≠ -1 := by
  induction es with
  | nil => exact absurd h List.not_mem_nil
  | cons e es ih =>
    rcases List.mem_cons.mp h with rfl | h
    · cases es <;> simp
    · exact ih h

/-! ### The difference -/

theorem writeOutputWrtGoldenrun_eq_nil {α : Type} [DecidableEq α] {data golden : List α}
    (h : ∀ x ∈ data, x ∈ golden) : writeOutputWrtGoldenrun data (some golden) = [] := by
  refine List.filter_eq_nil_iff.mpr fun x hx => ?_
  have hmem : x ∈ golden := by
    rcases List.mem_append.mp hx with hx | hx
    · exact (List.mem_append.mp hx).elim (h x) id
    · exact hx
  have hpos := List.count_pos_iff.mpr hmem
  rw [decide_eq_true_eq, List.count_append, List.count_append]
  omega

end Archie.Campaign
