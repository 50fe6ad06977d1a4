import Archie.Campaign.TbFilter
import Archie.Campaign.TriggerCorrect

/-! Experiments that execute what the golden run executes, some of it in single-step mode: when the
    filter gives back the golden run's trace.

        golden run     X        Y         X              X = a b c,  Y = c
        experiment     a b c    c         a
                       stepped  whole     whole

    The filter of `X` looks for `a b c`. It folds the first three entries, and would fold an `a`, `b`,
    `c` of three executions as well. -/

namespace Archie.Campaign
open Python Windows

/-- An execution of a TB, recorded as one entry or, single-stepped, as one for each instruction. -/
structure Execution where
  tb : TbInfo
  stepped : Bool

/-- An entry of the trace; `stepOf` is the TB of a single-stepped execution that has started before. -/
structure Entry where
  tb : ℕ
  stepOf : Option TbInfo
  deriving DecidableEq

def Execution.entries (x : Execution) : List Entry :=
  ⟨x.tb.id, none⟩ :: if x.stepped then x.tb.insns.tail.map fun a => ⟨a, some x.tb⟩ else []

/-- What the golden run executes, as an experiment records it. -/
structure RecordedRun where
  /-- the table of the golden run -/
  tbinfo : List TbInfo
  wellFormed : ∀ t ∈ tbinfo, t.WellFormed
  idsNodup : (tbinfo.map TbInfo.id).Nodup
  execs : List Execution
  executed : ∀ x ∈ execs, x.tb ∈ tbinfo

namespace RecordedRun

def entries (r : RecordedRun) : List Entry := r.execs.flatMap Execution.entries

/-- The trace of the experiment. -/
def tbexec (r : RecordedRun) : List TbExec := r.entries.mapIdx fun pos e => ⟨e.tb, pos⟩

/-- The trace of the golden run. -/
def golden (r : RecordedRun) : List TbExec := r.execs.mapIdx fun pos x => ⟨x.tb.id, pos⟩

/-- The positions where executions start. -/
def starts (r : RecordedRun) : List ℕ :=
  (r.entries.zipIdx.filter fun e => e.1.stepOf.isNone).map Prod.snd

/-- The filter leaves exactly the starts of the executions; numbered anew they are the golden run's
    trace, and nothing differs. -/
structure Folded (r : RecordedRun) (tbexec : List TbExec) (tbinfo : List TbInfo) : Prop where
  kept : ∃ frame tbinfo', filterRows tbexec tbinfo r.tbinfo = .ok (frame, tbinfo') ∧
    frame.map FilterRow.pos = r.starts.reverse
  filtered : ∃ tbinfo', filterTb tbexec tbinfo r.tbinfo = .ok (r.golden.reverse, tbinfo')
  difference : ∀ data tbinfo', filterTb tbexec tbinfo r.tbinfo = .ok (data, tbinfo') →
    writeOutputWrtGoldenrun data (some r.golden) = []

end RecordedRun

/-- The filter of `u` is used before that of `t`: it is longer, or of the same length and from further
    down the table. -/
def TriedBefore (tbinfo : List TbInfo) (u t : TbInfo) : Prop :=
  t.insns.length < u.insns.length ∨ t.insns.length = u.insns.length ∧ [t, u].Sublist tbinfo

/-- Entries that spell a TB of the golden run across the start of an execution contain one that an
    earlier filter folds. -/
def RecordedRun.Separate (r : RecordedRun) : Prop :=
  ∀ t ∈ r.tbinfo, ∀ w, w <:+: r.entries → w.map Entry.tb = t.insns → (∃ e ∈ w.tail, e.stepOf = none) →
    ∃ e ∈ w, ∃ u, e.stepOf = some u ∧ TriedBefore r.tbinfo u t

/-- The filters used so far fold this entry. -/
def Entry.folded (done : List (List ℕ)) (e : Entry) : Bool :=
  e.stepOf.any fun u => decide (u.filt ∈ done)

def Entry.column (done : List (List ℕ)) (e : Entry) : Int := if e.folded done then -1 else e.tb

theorem Entry.column_eq_natCast {done : List (List ℕ)} {e : Entry} {f : ℕ} :
    e.column done = f ↔ e.folded done = false ∧ e.tb = f := by
  unfold Entry.column
  cases e.folded done with
  | false => simp
  | true =>
    simp only [if_true, Bool.true_eq_false, false_and, iff_false]
    omega

theorem Entry.column_concat {done : List (List ℕ)} {filt : List ℕ} {e : Entry} :
    e.column (done ++ [filt]) = if ∃ u, e.stepOf = some u ∧ u.filt = filt then -1 else e.column done := by
  unfold Entry.column Entry.folded
  cases e.stepOf with
  | none => simp
  | some u => by_cases h : u.filt = filt <;> simp [h]

namespace RecordedRun

variable {r : RecordedRun} {t u : TbInfo}

/-! ### The order of the filters -/

theorem filt_inj (ht : t ∈ r.tbinfo) (hu : u ∈ r.tbinfo) (h : t.filt = u.filt) : t = u := by
  refine Keyed.eq_of_key r.idsNodup ht hu ?_
  have hhead := (r.wellFormed u hu).head
  rw [← List.reverse_injective h, (r.wellFormed t ht).head] at hhead
  exact Option.some.inj hhead

theorem nodup_sortedFilters (r : RecordedRun) : (TbInfo.sortedFilters r.tbinfo).Nodup := by
  refine (List.perm_insertionSort _ _).nodup_iff.mpr (List.Nodup.map_on ?_ r.idsNodup.of_map)
  exact fun t ht u hu h => filt_inj ht hu h

theorem pairwise_sortedFilters (tbinfo : List TbInfo) :
    (TbInfo.sortedFilters tbinfo).Pairwise fun a b => a.length ≤ b.length := by
  have : Std.Total fun a b : List ℕ => a.length ≤ b.length := ⟨fun _ _ => Nat.le_total _ _⟩
  have : IsTrans (List ℕ) fun a b => a.length ≤ b.length := ⟨fun _ _ _ => Nat.le_trans⟩
  exact List.pairwise_insertionSort _ _

theorem length_le_of_pair {tbinfo : List TbInfo} {a b : List ℕ}
    (h : [a, b].Sublist (TbInfo.sortedFilters tbinfo)) : a.length ≤ b.length := by
  have hpair := List.Pairwise.sublist h (pairwise_sortedFilters tbinfo)
  exact List.rel_of_pairwise_cons hpair (List.mem_singleton_self b)

theorem mem_sortedFilters (ht : t ∈ r.tbinfo) : t.filt ∈ TbInfo.sortedFilters r.tbinfo :=
  (List.mem_insertionSort _).mpr (List.mem_map_of_mem ht)

theorem triedBefore_iff (ht : t ∈ r.tbinfo) (hu : u ∈ r.tbinfo) : TriedBefore r.tbinfo u t ↔
    [t.filt, u.filt].Sublist (TbInfo.sortedFilters r.tbinfo) := by
  have hlength : ∀ v : TbInfo, v.filt.length = v.insns.length := fun v => List.length_reverse
  have hle : ∀ {v v' : TbInfo}, [v.filt, v'.filt].Sublist (TbInfo.sortedFilters r.tbinfo) →
      v.insns.length ≤ v'.insns.length := by
    intro v v' h
    rw [← hlength, ← hlength]
    exact length_le_of_pair h
  have hstable : ∀ {v v' : TbInfo}, v.insns.length = v'.insns.length → [v, v'].Sublist r.tbinfo →
      [v.filt, v'.filt].Sublist (TbInfo.sortedFilters r.tbinfo) := by
    intro v v' heq h
    exact List.pair_sublist_insertionSort (by rw [hlength, hlength, heq]) (h.map TbInfo.filt)
  constructor
  · rintro (hlt | ⟨heq, hpair⟩)
    · have hne : t.filt ≠ u.filt := fun h => by
        rw [← hlength, ← hlength, h] at hlt
        exact lt_irrefl _ hlt
      refine (pair_or_pair (mem_sortedFilters ht) (mem_sortedFilters hu) hne).resolve_right fun h => ?_
      exact absurd (hle h) (not_le.mpr hlt)
    · exact hstable heq hpair
  · intro h
    rcases (hle h).lt_or_eq with hlt | heq
    · exact .inl hlt
    · have hne : t ≠ u := by
        rintro rfl
        exact not_pair_of_pair r.nodup_sortedFilters h h
      refine .inr ⟨heq, (pair_or_pair ht hu hne).resolve_right fun hpair => ?_⟩
      exact not_pair_of_pair r.nodup_sortedFilters h (hstable heq.symm hpair)

/-- The filters that are used, in their order. -/
def filters (r : RecordedRun) : List (List ℕ) :=
  (TbInfo.sortedFilters r.tbinfo).reverse.filter fun filt => 1 < filt.length

/-- The filters in front of the one of a TB are those of the TBs tried before. -/
theorem mem_done_iff {done rest : List (List ℕ)} (hsplit : r.filters = done ++ t.filt :: rest)
    (ht : t ∈ r.tbinfo) (hu : u ∈ r.tbinfo) : u.filt ∈ done ↔ TriedBefore r.tbinfo u t := by
  have hnd : r.filters.Nodup := (List.nodup_reverse.mpr r.nodup_sortedFilters).filter _
  have hlong : 1 < t.filt.length := by
    have hmem : t.filt ∈ r.filters := by rw [hsplit]; simp
    simpa [filters] using (List.mem_filter.mp hmem).2
  have hreverse : [t.filt, u.filt].reverse = [u.filt, t.filt] := rfl
  rw [hsplit] at hnd
  rw [triedBefore_iff ht hu, ← List.reverse_sublist, hreverse, ← pair_iff_mem hnd, ← hsplit]
  constructor
  · intro h
    exact h.trans List.filter_sublist
  · intro h
    have hle := length_le_of_pair (List.reverse_sublist.mp (hreverse ▸ h))
    have hfilter := h.filter fun filt => decide (1 < filt.length)
    have hlong' : 1 < u.filt.length := lt_of_lt_of_le hlong hle
    simpa [filters, hlong, hlong'] using hfilter

/-! ### The entries backwards -/

/-- The frame's order. -/
def backward (r : RecordedRun) : List Entry := r.entries.reverse

theorem backward_eq (r : RecordedRun) :
    r.backward = (r.execs.reverse.map fun x => x.entries.reverse).flatten := by
  rw [backward, entries, List.flatMap_def, List.reverse_flatten, List.map_map, List.map_reverse]
  rfl

theorem getLast?_entries (x : Execution) : x.entries.reverse.getLast? = some ⟨x.tb.id, none⟩ := by
  rw [List.getLast?_reverse, Execution.entries, List.head?_cons]

/-- A single-stepped execution spells its TB. -/
theorem map_tb_entries {x : Execution} (hx : x.tb.WellFormed) (hstep : x.stepped = true) :
    x.entries.reverse.map Entry.tb = x.tb.filt := by
  rw [Execution.entries, if_pos hstep, List.map_reverse, List.map_cons, List.map_map, TbInfo.filt]
  refine congrArg List.reverse ?_
  have hhead := hx.head
  obtain ⟨a, as, has⟩ := List.exists_cons_of_ne_nil hx.insns_ne_nil
  rw [has] at hhead ⊢
  obtain rfl := Option.some.inj hhead
  simp [Function.comp_def]

theorem stepOf_entries {x : Execution} {e : Entry} (he : e ∈ x.entries.reverse) (hstart : e.stepOf ≠ none) :
    e.stepOf = some x.tb ∧ x.stepped = true := by
  rw [List.mem_reverse, Execution.entries, List.mem_cons] at he
  rcases he with rfl | he
  · exact absurd rfl hstart
  · cases hstep : x.stepped with
    | false => simp [hstep] at he
    | true =>
      rw [hstep, if_pos rfl, List.mem_map] at he
      obtain ⟨a, -, rfl⟩ := he
      exact ⟨rfl, rfl⟩

/-- Entries without a start among them lie in one single-stepped execution. -/
theorem exists_stepped {w : List Entry} {x : Entry} (hw : w ++ [x] <:+: r.backward) (hne : w ≠ [])
    (hnone : ∀ e ∈ w, e.stepOf ≠ none) : ∃ u ∈ r.tbinfo, (∀ e ∈ w, e.stepOf = some u) ∧
      (w ++ [x]).map Entry.tb <:+: u.filt := by
  rw [backward_eq] at hw
  have hstarts : ∀ b ∈ r.execs.reverse.map fun x => x.entries.reverse, ∃ e ∈ b.getLast?, e.stepOf = none := by
    intro b hb
    obtain ⟨x, -, rfl⟩ := List.mem_map.mp hb
    exact ⟨_, getLast?_entries x, rfl⟩
  obtain ⟨b, hb, hin⟩ := infix_of_marked hstarts hw hnone
  obtain ⟨x, hx, rfl⟩ := List.mem_map.mp hb
  have hmem : x.tb ∈ r.tbinfo := r.executed x (List.mem_reverse.mp hx)
  have hstep : ∀ e ∈ w, e.stepOf = some x.tb ∧ x.stepped = true := fun e he =>
    stepOf_entries (hin.subset (List.mem_append_left _ he)) (hnone e he)
  obtain ⟨e, he⟩ := List.exists_mem_of_ne_nil w hne
  refine ⟨x.tb, hmem, fun e he => (hstep e he).1, ?_⟩
  rw [← map_tb_entries (r.wellFormed _ hmem) (hstep e he).2]
  exact hin.map Entry.tb

/-- A later entry of a single-stepped execution stands in an occurrence of its TB. -/
theorem exists_occurrence {i : ℕ} {e : Entry} (hi : r.backward[i]? = some e) (hu : e.stepOf = some u) :
    ∃ b s j, At b r.backward s ∧ i = s + j ∧ j + 1 < b.length ∧ b.map Entry.tb = u.filt ∧
      ∀ e ∈ b, e.stepOf = none ∨ e.stepOf = some u := by
  rw [backward_eq] at hi ⊢
  obtain ⟨b, hb, s, j, hat, hj, hij⟩ := exists_block hi
  obtain ⟨x, hx, rfl⟩ := List.mem_map.mp hb
  have hmem : x.tb ∈ r.tbinfo := r.executed x (List.mem_reverse.mp hx)
  obtain ⟨hsome, hstep⟩ := stepOf_entries (List.mem_of_getElem? hj) (by simp [hu])
  obtain rfl := Option.some.inj (hu.symm.trans hsome)
  refine ⟨_, s, j, hat, hij, ?_, map_tb_entries (r.wellFormed _ hmem) hstep, fun e' he' => ?_⟩
  · -- the last one is the start
    have hlt := (List.getElem?_eq_some_iff.mp hj).1
    refine lt_of_le_of_ne hlt fun hlast => ?_
    have hget := getLast?_entries x
    rw [List.getLast?_eq_getElem?, ← hlast, Nat.add_sub_cancel, hj] at hget
    rw [Option.some.inj hget] at hu
    cases hu
  · cases hnone : e'.stepOf with
    | none => exact .inl rfl
    | some v => exact .inr (hnone ▸ (stepOf_entries he' (by simp [hnone])).1)

/-! ### The column during the filtering -/

variable {done rest : List (List ℕ)} {filt : List ℕ}

theorem map_column_eq {w : List Entry} : w.map (Entry.column done) = filt.map Nat.cast ↔
    w.map Entry.tb = filt ∧ ∀ e ∈ w, e.folded done = false := by
  induction w generalizing filt with
  | nil => cases filt <;> simp
  | cons e w ih =>
    cases filt with
    | nil => simp
    | cons f filt =>
      rw [List.map_cons, List.map_cons, List.map_cons, List.cons_eq_cons, List.cons_eq_cons, ih,
        Entry.column_eq_natCast, List.forall_mem_cons]
      tauto

/-- An occurrence of a filter is a window of entries that are not folded. -/
theorem at_column_iff {s : ℕ} : At (filt.map Nat.cast) (r.backward.map (Entry.column done)) s ↔
    ∃ w, At w r.backward s ∧ w.map Entry.tb = filt ∧ ∀ e ∈ w, e.folded done = false := by
  constructor
  · intro h
    have hw : (r.backward.drop s).take filt.length <+: r.backward.drop s := List.take_prefix ..
    refine ⟨_, hw, map_column_eq.mp ?_⟩
    rw [List.map_take, List.map_drop, ← List.length_map (Nat.cast : ℕ → Int)]
    exact (List.prefix_iff_eq_take.mp h).symm
  · rintro ⟨w, hat, hw⟩
    rw [← map_column_eq.mpr hw, At, ← List.map_drop]
    exact List.IsPrefix.map _ hat

/-- No window that the filter matches now has a start among its entries but for its last one. -/
def NoStart (r : RecordedRun) (done : List (List ℕ)) (filt : List ℕ) : Prop :=
  ∀ w x, w ++ [x] <:+: r.backward → (w ++ [x]).map Entry.tb = filt →
    (∀ e ∈ w ++ [x], e.folded done = false) → ∀ e ∈ w, e.stepOf ≠ none

theorem filters_nodup (r : RecordedRun) : r.filters.Nodup :=
  (List.nodup_reverse.mpr r.nodup_sortedFilters).filter _

theorem mem_filters (ht : t ∈ r.tbinfo) : t.filt ∈ r.filters ↔ 1 < t.filt.length := by
  simp [filters, mem_sortedFilters ht]

/-- A filter is as long as those that are still to come. -/
theorem length_le_of_later (hsplit : r.filters = done ++ filt :: rest) {filt' : List ℕ}
    (h : filt' ∈ filt :: rest) : filt'.length ≤ filt.length := by
  have hpairwise : r.filters.Pairwise fun a b => b.length ≤ a.length :=
    (List.pairwise_reverse.mpr (pairwise_sortedFilters r.tbinfo)).filter _
  rw [hsplit] at hpairwise
  rcases List.mem_cons.mp h with rfl | h
  · exact le_rfl
  · exact List.rel_of_pairwise_cons (List.pairwise_append.mp hpairwise).2.1 h

theorem mem_of_split (hsplit : r.filters = done ++ filt :: rest) : filt ∈ r.filters := by
  rw [hsplit]
  exact List.mem_append_right _ List.mem_cons_self

theorem length_of_mem (h : filt ∈ r.filters) : 1 < filt.length := by
  simpa [filters] using (List.mem_filter.mp h).2

/-- What a filter covers then is folded by it. -/
theorem covers_iff {i : ℕ} {e : Entry} (hsplit : r.filters = done ++ filt :: rest)
    (hno : r.NoStart done filt) (hi : r.backward[i]? = some e) :
    Covers (filt.map Nat.cast) (r.backward.map (Entry.column done)) i ↔
      ∃ u, e.stepOf = some u ∧ u.filt = filt := by
  constructor
  · rintro ⟨s, hat, hsi, his⟩
    rw [List.length_map] at his
    obtain ⟨w, hw, hspell, hleft⟩ := at_column_iff.mp hat
    have hlength : w.length = filt.length := by rw [← hspell, List.length_map]
    rcases List.eq_nil_or_concat w with rfl | ⟨w', x, rfl⟩
    · simp at hlength
      omega
    · rw [List.concat_eq_append] at hw hspell hleft hlength
      have hin : w' ++ [x] <:+: r.backward := hw.isInfix.trans (List.drop_suffix ..).isInfix
      have hwi : i - s < w'.length := by
        rw [List.length_append, List.length_singleton] at hlength
        omega
      have he : e ∈ w' := by
        have hget := hw.getElem? (j := i - s) (by omega)
        rw [Nat.add_sub_cancel' hsi, hi, List.getElem?_append_left hwi] at hget
        exact List.mem_of_getElem? hget.symm
      obtain ⟨u, hu, hstep, hfilt⟩ := exists_stepped hin (List.ne_nil_of_mem he) (hno w' x hin hspell hleft)
      rw [hspell] at hfilt
      -- the execution is not folded yet, so its filter is not longer
      have hdone : u.filt ∉ done := by
        have := hleft e (List.mem_append_left _ he)
        simpa [Entry.folded, hstep e he] using this
      have hmem : u.filt ∈ r.filters := (mem_filters hu).mpr (by have := hfilt.length_le; omega)
      rw [hsplit] at hmem
      have hlater := (List.mem_append.mp hmem).resolve_left hdone
      exact ⟨u, hstep e he, (hfilt.eq_of_length_le (length_le_of_later hsplit hlater)).symm⟩
  · rintro ⟨u, hu, rfl⟩
    have hdone : u.filt ∉ done := fun h => by
      have hnd := r.filters_nodup
      rw [hsplit] at hnd
      exact List.disjoint_of_nodup_append hnd h List.mem_cons_self
    obtain ⟨b, s, j, hat, rfl, hj, hspell, hstep⟩ := exists_occurrence hi hu
    have hleft : ∀ e ∈ b, e.folded done = false := by
      intro e he
      rcases hstep e he with hnone | hsome
      · simp [Entry.folded, hnone]
      · simp [Entry.folded, hsome, hdone]
    refine ⟨s, at_column_iff.mpr ⟨b, hat, hspell, hleft⟩, Nat.le_add_right .., ?_⟩
    rw [List.length_map, ← hspell, List.length_map]
    omega

/-- A filter that folds no start folds exactly the executions of its TB. -/
theorem filterFunction_column {st : List FilterRow × List TbInfo}
    (hsplit : r.filters = done ++ filt :: rest) (hno : r.NoStart done filt)
    (hframe : st.1.map FilterRow.tb = r.backward.map (Entry.column done)) :
    (filterFunction st filt).1.map FilterRow.tb = r.backward.map (Entry.column (done ++ [filt])) := by
  have hlong := length_of_mem (mem_of_split hsplit)
  refine List.ext_getElem? fun i => ?_
  have hrow := congrArg (fun l => l[i]?) hframe
  simp only [List.getElem?_map] at hrow
  have hspec := filterFunction_spec (i := i) hlong st
  rw [hframe] at hspec
  rw [List.getElem?_map, List.getElem?_map]
  cases he : r.backward[i]? with
  | none =>
    rw [he, Option.map_none, Option.map_eq_none_iff] at hrow
    by_cases hcov : Covers (filt.map Nat.cast) (r.backward.map (Entry.column done)) i
    · rw [hspec.1 hcov, hrow]
      rfl
    · rw [hspec.2 hcov, hrow]
      rfl
  | some e =>
    rw [he, Option.map_some, Option.map_eq_some_iff] at hrow
    obtain ⟨row, hget, htb⟩ := hrow
    rw [covers_iff hsplit hno he] at hspec
    rw [Option.map_some, Entry.column_concat]
    by_cases hfold : ∃ u, e.stepOf = some u ∧ u.filt = filt
    · rw [hspec.1 hfold, hget, if_pos hfold]
      rfl
    · rw [hspec.2 hfold, hget, if_neg hfold, Option.map_some, htb]

theorem exists_filt (h : filt ∈ r.filters) : ∃ t ∈ r.tbinfo, t.filt = filt := by
  simp only [filters, List.mem_filter, List.mem_reverse, TbInfo.sortedFilters, List.mem_insertionSort,
    List.mem_map] at h
  exact h.1

theorem stepOf_mem {e : Entry} (he : e ∈ r.backward) (hu : e.stepOf = some u) : u ∈ r.tbinfo := by
  obtain ⟨x, hx, hex⟩ := List.mem_flatMap.mp (List.mem_reverse.mp he)
  obtain rfl := Option.some.inj (hu.symm.trans
    (stepOf_entries (List.mem_reverse.mpr hex) (by simp [hu])).1)
  exact r.executed x hx

/-- `Separate` for the entries backwards. -/
theorem separate_iff : r.Separate ↔ ∀ t ∈ r.tbinfo, ∀ w x, w ++ [x] <:+: r.backward →
    (w ++ [x]).map Entry.tb = t.filt → (∃ e ∈ w, e.stepOf = none) →
    ∃ e ∈ w ++ [x], ∃ u, e.stepOf = some u ∧ TriedBefore r.tbinfo u t := by
  constructor
  · intro h t ht w x hin hspell hstart
    have hin' : (w ++ [x]).reverse <:+: r.entries := by rwa [← List.reverse_infix, List.reverse_reverse]
    have hspell' : (w ++ [x]).reverse.map Entry.tb = t.insns := by
      rw [List.map_reverse, hspell, TbInfo.filt, List.reverse_reverse]
    obtain ⟨e, he, hstart⟩ := hstart
    obtain ⟨e', he', hu⟩ := h t ht _ hin' hspell' ⟨e, by simpa using he, hstart⟩
    exact ⟨e', List.mem_reverse.mp he', hu⟩
  · intro h t ht w hin hspell hstart
    cases w with
    | nil => obtain ⟨e, he, -⟩ := hstart; exact absurd he List.not_mem_nil
    | cons x w =>
      have hin' : w.reverse ++ [x] <:+: r.backward := by
        rw [← List.reverse_cons]
        exact List.reverse_infix.mpr hin
      have hspell' : (w.reverse ++ [x]).map Entry.tb = t.filt := by
        rw [← List.reverse_cons, List.map_reverse, hspell, TbInfo.filt]
      obtain ⟨e, he, hstart⟩ := hstart
      obtain ⟨e', he', hu⟩ := h t ht _ x hin' hspell' ⟨e, List.mem_reverse.mpr he, hstart⟩
      exact ⟨e', by simpa [or_comm] using he', hu⟩

/-- Whether the filters before fold an entry of the window decides whether a filter sees it. -/
theorem folded_iff (hsplit : r.filters = done ++ t.filt :: rest) (ht : t ∈ r.tbinfo) {e : Entry}
    (he : e ∈ r.backward) : e.folded done = true ↔ ∃ u, e.stepOf = some u ∧ TriedBefore r.tbinfo u t := by
  rw [Entry.folded, Option.any_eq_true]
  refine exists_congr fun u => and_congr_right fun hu => ?_
  rw [decide_eq_true_eq, mem_done_iff hsplit ht (stepOf_mem he hu)]

theorem noStart_iff (hsplit : r.filters = done ++ t.filt :: rest) (ht : t ∈ r.tbinfo) :
    r.NoStart done t.filt ↔ ∀ w x, w ++ [x] <:+: r.backward → (w ++ [x]).map Entry.tb = t.filt →
      (∃ e ∈ w, e.stepOf = none) → ∃ e ∈ w ++ [x], ∃ u, e.stepOf = some u ∧ TriedBefore r.tbinfo u t := by
  have hfolded : ∀ {w x}, w ++ [x] <:+: r.backward →
      ((∃ e ∈ w ++ [x], ∃ u, e.stepOf = some u ∧ TriedBefore r.tbinfo u t) ↔
        ¬ ∀ e ∈ w ++ [x], e.folded done = false) := by
    intro w x hin
    push Not
    refine exists_congr fun e => and_congr_right fun he => ?_
    rw [← folded_iff hsplit ht (hin.subset he), ne_eq, Bool.not_eq_false]
  constructor
  · rintro hno w x hin hspell ⟨e, he, hstart⟩
    exact (hfolded hin).mpr fun hleft => hno w x hin hspell hleft e he hstart
  · intro h w x hin hspell hleft e he hstart
    exact (hfolded hin).mp (h w x hin hspell ⟨e, he, hstart⟩) hleft

/-- Kept apart, the executions are folded by the filters one after the other. -/
theorem foldl_column (hsep : r.Separate) (st : List FilterRow × List TbInfo)
    (hsplit : r.filters = done ++ rest)
    (hframe : st.1.map FilterRow.tb = r.backward.map (Entry.column done)) :
    (rest.foldl filterFunction st).1.map FilterRow.tb = r.backward.map (Entry.column r.filters) := by
  induction rest generalizing done st with
  | nil =>
    rw [hsplit, List.append_nil]
    exact hframe
  | cons filt rest ih =>
    obtain ⟨t, ht, rfl⟩ := exists_filt (mem_of_split hsplit)
    have hno := (noStart_iff hsplit ht).mpr (separate_iff.mp hsep t ht)
    exact ih (filterFunction st t.filt) (hsplit.trans (List.append_assoc done [t.filt] rest).symm)
      (filterFunction_column hsplit hno hframe)

/-- If all starts are left in the end, no filter has matched one. -/
theorem separate_of_starts (st : List FilterRow × List TbInfo) (hsplit : r.filters = done ++ rest)
    (hframe : st.1.map FilterRow.tb = r.backward.map (Entry.column done))
    (hstarts : ∀ (i : ℕ) (e : Entry), r.backward[i]? = some e → e.stepOf = none →
      ((rest.foldl filterFunction st).1.map FilterRow.tb)[i]? ≠ some (-1))
    (ht : t ∈ r.tbinfo) (hrest : t.filt ∈ rest) : ∀ w x, w ++ [x] <:+: r.backward →
      (w ++ [x]).map Entry.tb = t.filt → (∃ e ∈ w, e.stepOf = none) →
      ∃ e ∈ w ++ [x], ∃ u, e.stepOf = some u ∧ TriedBefore r.tbinfo u t := by
  induction rest generalizing done st with
  | nil => exact absurd hrest List.not_mem_nil
  | cons filt rest ih =>
    have hno : r.NoStart done filt := by
      intro w x hin hspell hleft e he hstart
      obtain ⟨p, q, hpq⟩ := hin
      obtain ⟨w₁, w₂, rfl⟩ := List.append_of_mem he
      have hat : At ((w₁ ++ e :: w₂) ++ [x]) r.backward p.length := ⟨q, by rw [← hpq]; simp⟩
      have hi : r.backward[p.length + w₁.length]? = some e := by
        rw [hat.getElem? (by simp)]
        simp
      have hcov : Covers (filt.map Nat.cast) (st.1.map FilterRow.tb) (p.length + w₁.length) := by
        rw [hframe]
        refine ⟨p.length, at_column_iff.mpr ⟨_, hat, hspell, hleft⟩, Nat.le_add_right .., ?_⟩
        rw [List.length_map, ← hspell]
        simp
        omega
      -- its row is invalidated and stays so
      have hrow := (filterFunction_spec (length_of_mem (mem_of_split hsplit)) st).1 hcov
      obtain ⟨row, hget, -⟩ : ∃ row, st.1[p.length + w₁.length]? = some row ∧ row.tb = e.column done := by
        rw [← Option.map_eq_some_iff, ← List.getElem?_map, hframe, List.getElem?_map, hi]
        rfl
      have hlater : ∀ filt' ∈ rest, 1 < filt'.length := fun filt' hfilt' => length_of_mem (by
        rw [hsplit]
        exact List.mem_append_right _ (List.mem_cons_of_mem _ hfilt'))
      have hrest := Invalidated.foldl_filterFunction hlater (filterFunction st filt)
      refine hstarts _ e hi hstart (hrest.stays ?_)
      rw [List.getElem?_map, hrow, hget]
      rfl
    rcases List.mem_cons.mp hrest with rfl | hrest
    · exact (noStart_iff hsplit ht).mp hno
    · exact ih (filterFunction st filt) (hsplit.trans (List.append_assoc done [filt] rest).symm)
        (filterFunction_column hsplit hno hframe) hstarts hrest

/-! ### The result -/

/-- The frame before the filtering and after. -/
def frame (r : RecordedRun) : List FilterRow := shiftTb r.tbexec.reverse

def filtered (r : RecordedRun) (tbinfo : List TbInfo) : List FilterRow × List TbInfo :=
  r.filters.foldl filterFunction (r.frame, tbinfo)

theorem tbexec_eq (r : RecordedRun) : r.tbexec = r.entries.zipIdx.map fun e => ⟨e.1.tb, e.2⟩ :=
  List.mapIdx_eq_zipIdx_map

theorem map_frame (r : RecordedRun) : r.frame.map (fun row => (row.tb, row.pos))
    = (r.entries.zipIdx.map fun e => ((e.1.tb : Int), e.2)).reverse := by
  rw [frame, map_shiftTb, List.map_reverse, tbexec_eq, List.map_map]
  rfl

theorem map_tb_frame (r : RecordedRun) : r.frame.map FilterRow.tb = r.backward.map (Entry.column []) := by
  calc r.frame.map FilterRow.tb
    _ = (r.frame.map fun row => (row.tb, row.pos)).map Prod.fst := by rw [List.map_map]; rfl
    _ = ((r.entries.zipIdx.map Prod.fst).map fun e => (e.tb : Int)).reverse := by
      rw [map_frame, List.map_reverse, List.map_map, List.map_map]
      rfl
    _ = r.backward.map (Entry.column []) := by
      rw [List.zipIdx_map_fst, backward, List.map_reverse]
      refine congrArg List.reverse (List.map_congr_left fun e _ => ?_)
      simp [Entry.column, Entry.folded]

theorem invalidated_filtered (r : RecordedRun) (tbinfo : List TbInfo) :
    Invalidated r.frame (r.filtered tbinfo).1 :=
  Invalidated.foldl_filterFunction (fun _ h => length_of_mem h) (r.frame, tbinfo)

/-- The positions ascend. -/
theorem pairwise_tbexec (r : RecordedRun) : r.tbexec.Pairwise fun a b => a.pos < b.pos := by
  rw [tbexec, List.pairwise_iff_getElem]
  intro i j hi hj hij
  simpa using hij

theorem sort_tbexec {tbexec : List TbExec} (hrows : tbexec.Perm r.tbexec) :
    (tbexec.insertionSort fun a b => b.pos ≤ a.pos) = r.tbexec.reverse := by
  have : Std.Total fun a b : TbExec => b.pos ≤ a.pos := ⟨fun _ _ => Nat.le_total _ _⟩
  have : IsTrans TbExec fun a b => b.pos ≤ a.pos := ⟨fun _ _ _ h h' => Nat.le_trans h' h⟩
  refine insertionSort_eq_of_perm (hrows.trans (List.reverse_perm _).symm) ?_
  exact List.pairwise_reverse.mpr (r.pairwise_tbexec.imp fun h => ⟨Nat.le_of_lt h, not_le.mpr h⟩)

theorem tbexec_eq_nil : r.tbexec = [] ↔ r.execs = [] := by
  rw [tbexec, List.mapIdx_eq_nil_iff, entries, List.flatMap_eq_nil_iff]
  constructor
  · intro h
    refine List.eq_nil_iff_forall_not_mem.mpr fun x hx => ?_
    exact List.cons_ne_nil _ _ (h x hx)
  · intro h
    rw [h]
    exact fun x hx => absurd hx List.not_mem_nil

/-- The rows of the trace in whatever order. -/
theorem filterRows_eq {tbexec : List TbExec} (tbinfo : List TbInfo) (hrows : tbexec.Perm r.tbexec) :
    filterRows tbexec tbinfo r.tbinfo =
      if r.execs = [] ∨ tbinfo = [] then .error .keyError
      else .ok ((r.filtered tbinfo).1.filter fun row => row.tb1 ≠ -1,
        (r.filtered tbinfo).2.filter fun t => 0 < t.numExec) := by
  have hempty : (tbexec.isEmpty = true ∨ tbinfo.isEmpty = true ∨ r.tbinfo.isEmpty = true) ↔
      (r.execs = [] ∨ tbinfo = []) := by
    rw [List.isEmpty_iff, List.isEmpty_iff, List.isEmpty_iff, ← tbexec_eq_nil]
    have hnil : tbexec = [] ↔ r.tbexec = [] := ⟨fun h => by rwa [h, List.nil_perm] at hrows, fun h => by
      rwa [h, List.perm_nil] at hrows⟩
    have htable : r.tbinfo = [] → r.tbexec = [] := fun h => tbexec_eq_nil.mpr
      (List.eq_nil_iff_forall_not_mem.mpr fun x hx => by simpa [h] using r.executed x hx)
    rw [hnil]
    tauto
  rw [filterRows, TbInfo.buildFilters_eq r.wellFormed, sort_tbexec hrows]
  simp only [bind, Except.bind, hempty]
  split
  · rfl
  · rfl

/-- After all filters exactly the starts are unfolded. -/
theorem column_filters {e : Entry} (he : e ∈ r.backward) :
    e.column r.filters = -1 ↔ e.stepOf.isNone = false := by
  cases hu : e.stepOf with
  | none => simp [Entry.column, Entry.folded, hu]
  | some u =>
    obtain ⟨i, hi⟩ := List.mem_iff_getElem?.mp he
    obtain ⟨b, s, j, -, -, hj, hspell, -⟩ := exists_occurrence hi hu
    have hmem : u.filt ∈ r.filters := by
      rw [mem_filters (stepOf_mem he hu), ← hspell, List.length_map]
      omega
    simp [Entry.column, Entry.folded, hu, hmem]

/-- The rows of the starts, last one first. -/
theorem map_kept {tbinfo : List TbInfo}
    (hcol : (r.filtered tbinfo).1.map FilterRow.tb = r.backward.map (Entry.column r.filters)) :
    ((r.filtered tbinfo).1.filter fun row => row.tb1 ≠ -1).map (fun row => (row.tb, row.pos))
      = ((r.entries.zipIdx.filter fun e => e.1.stepOf.isNone).map fun e => ((e.1.tb : Int), e.2)).reverse := by
  have hkey : r.frame.map (fun row => (row.tb, row.pos))
      = r.entries.zipIdx.reverse.map fun e => ((e.1.tb : Int), e.2) := by
    rw [map_frame, List.map_reverse]
  have hcolumn : r.backward.map (Entry.column r.filters)
      = r.entries.zipIdx.reverse.map fun e => e.1.column r.filters := by
    rw [backward, List.map_reverse, List.map_reverse]
    conv_lhs => rw [← List.zipIdx_map_fst 0 r.entries, List.map_map]
    rfl
  calc ((r.filtered tbinfo).1.filter fun row => row.tb1 ≠ -1).map (fun row => (row.tb, row.pos))
    _ = (((r.frame.map fun row => (row.tb, row.pos)).zip (r.backward.map (Entry.column r.filters))).filter
          fun p => p.2 ≠ -1).map Prod.fst := by
      rw [(r.invalidated_filtered tbinfo).filter_eq fun row hrow => shiftTb_valid hrow, hcol, List.zip_map_left,
        List.filter_map, List.map_map, List.map_map]
      rfl
    _ = (r.entries.zipIdx.reverse.filter fun e => e.1.stepOf.isNone).map fun e => ((e.1.tb : Int), e.2) := by
      rw [hkey, hcolumn, List.zip_map', List.filter_map, List.map_map]
      refine congrArg (List.map _) (List.filter_congr fun e he => ?_)
      have hmem : e.1 ∈ r.backward := by
        rw [backward, List.mem_reverse, ← List.zipIdx_map_fst 0 r.entries]
        exact List.mem_map_of_mem (List.mem_reverse.mp he)
      simp [column_filters hmem]
    _ = _ := by rw [List.filter_reverse, List.map_reverse]

theorem map_tb_starts (r : RecordedRun) :
    ((r.entries.zipIdx.filter fun e => e.1.stepOf.isNone).map fun e => e.1.tb)
      = r.execs.map fun x => x.tb.id := by
  have hstarts : ∀ x : Execution, x.entries.filter (fun e => e.stepOf.isNone) = [⟨x.tb.id, none⟩] := by
    intro x
    rw [Execution.entries, List.filter_cons_of_pos rfl]
    refine congrArg (List.cons _) (List.filter_eq_nil_iff.mpr fun e he => ?_)
    split at he
    · obtain ⟨a, -, rfl⟩ := List.mem_map.mp he
      exact Bool.false_ne_true
    · exact absurd he List.not_mem_nil
  calc ((r.entries.zipIdx.filter fun e => e.1.stepOf.isNone).map fun e => e.1.tb)
    _ = ((r.entries.zipIdx.map Prod.fst).filter fun e => e.stepOf.isNone).map Entry.tb := by
      rw [List.filter_map, List.map_map]
      rfl
    _ = r.execs.map fun x => x.tb.id := by
      rw [List.zipIdx_map_fst, entries, List.filter_flatMap, List.map_flatMap]
      simp only [hstarts, List.map_singleton]
      exact List.map_eq_flatMap.symm

theorem pairwise_starts (r : RecordedRun) : r.starts.Pairwise (· < ·) := by
  have hsub : r.starts.Sublist (r.entries.zipIdx.map Prod.snd) := List.filter_sublist.map _
  rw [List.zipIdx_map_snd] at hsub
  exact List.Pairwise.sublist hsub List.pairwise_lt_range'

/-- Numbered anew the starts are the golden run. -/
theorem filterTb_eq {tbexec : List TbExec} {tbinfo : List TbInfo} (hrows : tbexec.Perm r.tbexec)
    (hne : r.execs ≠ []) (htable : tbinfo ≠ [])
    (hcol : (r.filtered tbinfo).1.map FilterRow.tb = r.backward.map (Entry.column r.filters)) :
    filterTb tbexec tbinfo r.tbinfo
      = .ok (r.golden.reverse, (r.filtered tbinfo).2.filter fun t => 0 < t.numExec) := by
  have hkept := r.map_kept hcol
  rw [filterTb, filterRows_eq tbinfo hrows, if_neg (not_or.mpr ⟨hne, htable⟩)]
  generalize (r.filtered tbinfo).1.filter (fun row => row.tb1 ≠ -1) = kept at hkept ⊢
  have hreverse := congrArg List.reverse hkept
  rw [List.reverse_reverse, ← List.map_reverse] at hreverse
  have hpos : kept.reverse.map FilterRow.pos = r.starts := by
    have hsnd := congrArg (List.map Prod.snd) hreverse
    rwa [List.map_map, List.map_map] at hsnd
  have hids : kept.reverse.map (fun row => row.tb.toNat) = r.execs.map fun x => x.tb.id := by
    have hfst := congrArg (List.map fun p : Int × ℕ => p.1.toNat) hreverse
    rw [List.map_map, List.map_map] at hfst
    exact hfst.trans r.map_tb_starts
  have : Std.Total fun a b : FilterRow => a.pos ≤ b.pos := ⟨fun _ _ => Nat.le_total _ _⟩
  have : IsTrans FilterRow fun a b => a.pos ≤ b.pos := ⟨fun _ _ _ => Nat.le_trans⟩
  have hsorted : (kept.insertionSort fun a b => a.pos ≤ b.pos) = kept.reverse := by
    refine insertionSort_eq_of_perm (List.reverse_perm _).symm ?_
    have hpairwise := r.pairwise_starts
    rw [← hpos, List.pairwise_map] at hpairwise
    exact hpairwise.imp fun h => ⟨Nat.le_of_lt h, not_le.mpr h⟩
  have hgolden : (kept.reverse.mapIdx fun pos row => TbExec.mk row.tb.toNat pos) = r.golden := by
    refine List.ext_getElem? fun i => ?_
    have hi := congrArg (fun l => l[i]?) hids
    simp only [List.getElem?_map] at hi
    calc (kept.reverse.mapIdx fun pos row => TbExec.mk row.tb.toNat pos)[i]?
      _ = (kept.reverse[i]?.map fun row => row.tb.toNat).map fun tb => ⟨tb, i⟩ := by
        rw [List.getElem?_mapIdx, Option.map_map]
        rfl
      _ = r.golden[i]? := by
        rw [hi, golden, List.getElem?_mapIdx, Option.map_map]
        rfl
  simp only [bind, Except.bind, pure, Except.pure, hsorted, hgolden]

theorem start_mem {i : ℕ} {e : Entry} {row : FilterRow} (he : r.backward[i]? = some e)
    (hstart : e.stepOf = none) (hrow : r.frame[i]? = some row) : row.pos ∈ r.starts := by
  have hkey := congrArg (fun l => l[i]?) r.map_frame
  rw [← List.map_reverse] at hkey
  simp only [List.getElem?_map, hrow, Option.map_some] at hkey
  obtain ⟨e', he', hpair⟩ := Option.map_eq_some_iff.mp hkey.symm
  obtain rfl : e'.1 = e := by
    rw [backward, ← List.zipIdx_map_fst 0 r.entries, ← List.map_reverse, List.getElem?_map, he'] at he
    exact Option.some.inj he
  refine List.mem_map.mpr ⟨e', List.mem_filter.mpr ⟨?_, by rw [hstart]; rfl⟩, (Prod.mk.inj hpair).2⟩
  exact List.mem_reverse.mp (List.mem_of_getElem? he')

theorem nodup_pos (r : RecordedRun) : (r.frame.map FilterRow.pos).Nodup := by
  have hsnd := congrArg (List.map Prod.snd) r.map_frame
  rw [List.map_map, List.map_reverse, List.map_map] at hsnd
  have hrange : r.frame.map FilterRow.pos = (List.range' 0 r.entries.length).reverse :=
    hsnd.trans (congrArg List.reverse (List.zipIdx_map_snd 0 r.entries))
  rw [hrange, List.nodup_reverse]
  exact List.nodup_range' ..

/-- If the starts are left, their rows are still valid. -/
theorem kept_start {tbinfo : List TbInfo} {i : ℕ} {e : Entry}
    (hpos : ((r.filtered tbinfo).1.filter fun row => row.tb1 ≠ -1).map FilterRow.pos = r.starts.reverse)
    (he : r.backward[i]? = some e) (hstart : e.stepOf = none) :
    ((r.filtered tbinfo).1.map FilterRow.tb)[i]? ≠ some (-1) := by
  intro hinv
  rw [List.getElem?_map] at hinv
  obtain ⟨row', hrow', htb⟩ := Option.map_eq_some_iff.mp hinv
  obtain ⟨row, hrow, hrows⟩ := (r.invalidated_filtered tbinfo).exists_row hrow'
  have hsame : row'.pos = row.pos := by rcases hrows with rfl | rfl <;> rfl
  have hgone : row'.tb1 = -1 := by
    rcases hrows with rfl | rfl
    · exact absurd htb (shiftTb_valid (List.mem_of_getElem? hrow)).1
    · rfl
  have hmem := start_mem he hstart hrow
  rw [← List.mem_reverse, ← hpos, List.mem_map] at hmem
  obtain ⟨row'', hkept, hpos''⟩ := hmem
  obtain ⟨hin, hvalid⟩ := List.mem_filter.mp hkept
  have hnd := r.nodup_pos
  rw [← (r.invalidated_filtered tbinfo).map_pos] at hnd
  obtain rfl := Keyed.eq_of_key hnd hin (List.mem_of_getElem? hrow') (hpos''.trans hsame.symm)
  simp [hgone] at hvalid

end RecordedRun

/-- The filter folds exactly the single-step entries iff executions are kept apart; then nothing differs
    from the golden run. -/
theorem filterTb_folds_iff {r : RecordedRun} {tbexec : List TbExec} {tbinfo : List TbInfo}
    (hrows : tbexec.Perm r.tbexec) :
    r.Folded tbexec tbinfo ↔ r.execs ≠ [] ∧ tbinfo ≠ [] ∧ r.Separate := by
  have hrun := RecordedRun.filterRows_eq tbinfo hrows
  constructor
  · intro h
    obtain ⟨frame, tbinfo', hkept, hpos⟩ := h.kept
    rw [hrun] at hkept
    split at hkept
    · cases hkept
    · next hne =>
      obtain ⟨hexecs, htable⟩ := not_or.mp hne
      refine ⟨hexecs, htable, RecordedRun.separate_iff.mpr fun t ht w x hin hspell hstart => ?_⟩
      obtain ⟨rfl, -⟩ := Prod.mk.inj (Except.ok.inj hkept)
      have hmem : t.filt ∈ r.filters := by
        obtain ⟨e, he, -⟩ := hstart
        have hpos := List.length_pos_of_mem he
        rw [RecordedRun.mem_filters ht, ← hspell, List.length_map, List.length_append, List.length_singleton]
        omega
      exact RecordedRun.separate_of_starts (r.frame, tbinfo) (List.nil_append _).symm r.map_tb_frame
        (fun i e => RecordedRun.kept_start hpos) ht hmem w x hin hspell hstart
  · rintro ⟨hexecs, htable, hsep⟩
    have hcol := RecordedRun.foldl_column hsep (r.frame, tbinfo) (List.nil_append r.filters).symm r.map_tb_frame
    have hfilter := RecordedRun.filterTb_eq hrows hexecs htable hcol
    rw [if_neg (not_or.mpr ⟨hexecs, htable⟩)] at hrun
    refine ⟨⟨_, _, hrun, ?_⟩, ⟨_, hfilter⟩, fun data tbinfo' hdata => ?_⟩
    · have hpos := congrArg (List.map Prod.snd) (RecordedRun.map_kept hcol)
      rw [List.map_map, List.map_reverse, List.map_map] at hpos
      exact hpos
    · rw [hfilter] at hdata
      obtain ⟨rfl, -⟩ := Prod.mk.inj (Except.ok.inj hdata)
      exact writeOutputWrtGoldenrun_eq_nil fun x hx => List.mem_reverse.mp hx

/-! ### The trace with the sub-TB -/

def headTb : TbInfo := ⟨0x100, 4, 2, 1, "[ 100 ]: nop \n[ 102 ]: bx lr \n".toList⟩

def tailTb : TbInfo := ⟨0x102, 2, 1, 1, "[ 102 ]: bx lr \n".toList⟩

def lastTb : TbInfo := ⟨0x200, 2, 1, 1, "[ 200 ]: nop \n".toList⟩

theorem subTb_eq : subTb 2 = [tailTb, headTb, lastTb] := rfl

def subTbRun (execs : List Execution) (h : ∀ x ∈ execs, x.tb ∈ subTb 2) : RecordedRun :=
  ⟨subTb 2, (subTbTrace 2 Nat.two_pos le_rfl).wellFormed, (subTbTrace 2 Nat.two_pos le_rfl).idsNodup, execs, h⟩

theorem steppedExecs_mem : ∀ x ∈ [Execution.mk headTb true, ⟨lastTb, false⟩], x.tb ∈ subTb 2 := by
  simp [subTb_eq]

theorem wholeExecs_mem :
    ∀ x ∈ [Execution.mk headTb false, ⟨tailTb, false⟩, ⟨lastTb, false⟩], x.tb ∈ subTb 2 := by
  simp [subTb_eq]

theorem filterTb_folds_stepped :
    (subTbRun _ steppedExecs_mem).Folded [⟨0x100, 0⟩, ⟨0x102, 1⟩, ⟨0x200, 2⟩] (subTb 2) := by
  refine (filterTb_folds_iff (.refl _)).mpr ⟨List.cons_ne_nil _ _, List.cons_ne_nil _ _, ?_⟩
  rintro t ht w hw hspell ⟨e, he, hstart⟩
  -- `0x102` is the only instruction inside a TB, and no execution starts there
  have hinside : ∀ t ∈ subTb 2, ∀ a ∈ t.insns.tail, a = 0x102 := by decide +kernel
  have hstarts : ∀ e ∈ (subTbRun _ steppedExecs_mem).entries, e.stepOf = none → e.tb ≠ 0x102 := by
    decide +kernel
  refine absurd (hinside t ht e.tb ?_) (hstarts e (hw.subset (List.mem_of_mem_tail he)) hstart)
  rw [← hspell, ← List.map_tail]
  exact List.mem_map_of_mem he

/-- A TB that is left for its own second instruction: the experiment is the golden run, and differs. -/
theorem filterTb_merges_whole : ¬ (subTbRun _ wholeExecs_mem).Folded
    (subTbRun _ wholeExecs_mem).golden (subTb 2) := by
  intro h
  obtain ⟨tbinfo', hfilter⟩ := h.filtered
  let difference : List TbExec × List TbInfo → List TbExec := fun out =>
    writeOutputWrtGoldenrun out.1 (some (subTbRun _ wholeExecs_mem).golden)
  have hnone : difference ((subTbRun _ wholeExecs_mem).golden.reverse, tbinfo') = [] :=
    h.difference _ _ hfilter
  have hsome : (filterTb (subTbRun _ wholeExecs_mem).golden (subTb 2) (subTb 2)).map difference
      = .ok [⟨0x200, 1⟩] := by decide +kernel
  have hboth := (congrArg (Except.map difference) hfilter).symm.trans hsome
  rw [Except.map, hnone] at hboth
  cases hboth

end Archie.Campaign
