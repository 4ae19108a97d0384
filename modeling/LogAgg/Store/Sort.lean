import LogAgg.Sorting.Arrangement
import LogAgg.Store.Basic

/-!
# Sorting the store

The three sorts of `store.c`.  They hand a comparator to the C library's `qsort`, of
which a caller may assume that it permutes the array (`Qsort`) and that neighbours end up
in order (`Qsort.Orders`), and nothing else.

The comparator of the causal sort patches the causal order with timestamps, so it need
not be transitive.  `storeSortCausal_iff` says for which stores the sort respects
causality whatever the `qsort`: those without three entries in comparator order of which
the last happens before the first.
-/

namespace LogAgg

open Sorting

/-- `qsort` on arrays of log entries. -/
structure Qsort where
  sort : (LogEntry → LogEntry → ℤ) → List LogEntry → List LogEntry
  /-- The array is permuted. -/
  perm : ∀ compare entries, (sort compare entries).Perm entries

/-- Neighbours end up in order. -/
def Qsort.Orders (qsort : Qsort) (compare : LogEntry → LogEntry → ℤ) : Prop :=
  ∀ entries, (qsort.sort compare entries).IsChain fun a b => compare a b ≤ 0

/-! ## Comparators -/

/-- `compare_causal`. -/
def compareCausal (a b : LogEntry) : ℤ := logEntryCompare a b

/-- `compare_time`. -/
def compareTime (a b : LogEntry) : ℤ := logEntryCompareByTime a b

/-- `compare_node`: the node id, then the timestamp. -/
def compareNode (a b : LogEntry) : ℤ :=
  let cmp := strcmp a.nodeId.bytes b.nodeId.bytes
  if cmp ≠ 0 then cmp
  else if a.timestamp ≠ b.timestamp then
    if a.timestamp < b.timestamp then -1 else 1
  else 0

/-- `sort_mode_t`. -/
inductive SortMode where
  | causal
  | time
  | node
  deriving DecidableEq

/-- The comparator of a sort mode. -/
def SortMode.compare : SortMode → LogEntry → LogEntry → ℤ
  | .causal => compareCausal
  | .time => compareTime
  | .node => compareNode

theorem compareNode_swap (a b : LogEntry) : compareNode b a = -compareNode a b := by
  have hswap := strcmp_swap a.nodeId.bytes b.nodeId.bytes
  have htime := compareTimestamps_swap a.timestamp b.timestamp 0
  rw [neg_zero] at htime
  simp only [compareNode, hswap, ne_eq, neg_eq_zero]
  by_cases hcmp : strcmp a.nodeId.bytes b.nodeId.bytes = 0
  · rw [if_neg (not_not.mpr hcmp), if_neg (not_not.mpr hcmp)]
    exact htime
  · rw [if_pos hcmp, if_pos hcmp]

/-- Swapping the arguments of a comparator swaps the sign. -/
theorem SortMode.compare_swap (mode : SortMode) (a b : LogEntry) :
    mode.compare b a = -mode.compare a b := by
  cases mode with
  | causal => exact logEntryCompare_swap a b
  | time => exact logEntryCompareByTime_swap a b
  | node => exact compareNode_swap a b

/-- Two entries are in order one way or the other. -/
theorem SortMode.compare_total (mode : SortMode) (a b : LogEntry) :
    mode.compare a b ≤ 0 ∨ mode.compare b a ≤ 0 := by
  have hswap := mode.compare_swap a b
  omega

/-! ## The sorts -/

/-- What the three sorts share: one entry is left alone. -/
def sortEntries (compare : LogEntry → LogEntry → ℤ) (qsort : Qsort) (store : LogStore) : LogStore :=
  if store.count ≤ 1 then store
  else
    { store with
      entries := qsort.sort compare store.entries
      sorted := true
      count_le := by
        rw [(qsort.perm compare store.entries).length_eq]
        exact store.count_le }

/-- `store_sort_causal`. -/
def storeSortCausal (qsort : Qsort) (store : LogStore) : LogStore :=
  sortEntries compareCausal qsort store

/-- `store_sort_by_time`. -/
def storeSortByTime (qsort : Qsort) (store : LogStore) : LogStore :=
  sortEntries compareTime qsort store

/-- `store_sort_by_node`. -/
def storeSortByNode (qsort : Qsort) (store : LogStore) : LogStore :=
  sortEntries compareNode qsort store

/-- The switch of the query tool on its sort mode. -/
def storeSort (mode : SortMode) (qsort : Qsort) (store : LogStore) : LogStore :=
  match mode with
  | .causal => storeSortCausal qsort store
  | .time => storeSortByTime qsort store
  | .node => storeSortByNode qsort store

theorem storeSort_eq (mode : SortMode) (qsort : Qsort) (store : LogStore) :
    storeSort mode qsort store = sortEntries mode.compare qsort store := by
  cases mode with
  | causal => rfl
  | time => rfl
  | node => rfl

/-- A sort moves the entries and leaves the index alone. -/
@[simp] theorem index_storeSort (mode : SortMode) (qsort : Qsort) (store : LogStore) :
    (storeSort mode qsort store).index = store.index := by
  rw [storeSort_eq, sortEntries]
  split <;> rfl

/-- What a sort leaves is an arrangement of the entries. -/
theorem isArrangement_storeSort {mode : SortMode} {qsort : Qsort}
    (horders : qsort.Orders mode.compare) (store : LogStore) :
    IsArrangement (fun a b => mode.compare a b ≤ 0) store.entries
      (storeSort mode qsort store).entries := by
  rw [storeSort_eq, sortEntries]
  split
  · rename_i hcount
    exact isArrangement_of_length_le_one hcount
  · exact ⟨qsort.perm _ _, horders _⟩

/-! ## Sorting routines -/

/-- Insertion sort, as a `qsort`. -/
def insertionQsort : Qsort where
  sort compare entries := entries.insertionSort fun a b => compare a b ≤ 0
  perm _ entries := List.perm_insertionSort _ entries

theorem orders_insertionQsort (mode : SortMode) : insertionQsort.Orders mode.compare := fun entries =>
  (isArrangement_insertionSort mode.compare_total entries).isChain

open Classical in
/-- The `qsort` that sorts one array by one comparator into a given arrangement. -/
noncomputable def arrangingQsort (mode : SortMode) {entries arranged : List LogEntry}
    (h : IsArrangement (fun a b => mode.compare a b ≤ 0) entries arranged) : Qsort where
  sort compare l :=
    if compare = mode.compare ∧ l = entries then arranged else insertionQsort.sort compare l
  perm compare l := by
    split
    · rename_i hl
      rw [hl.2]
      exact h.perm
    · exact insertionQsort.perm compare l

/-- **Any arrangement may come out.**  What every `qsort` leaves has a property exactly
when every arrangement of the entries has it. -/
theorem forall_qsort_iff (mode : SortMode) (store : LogStore) (P : List LogEntry → Prop) :
    (∀ qsort : Qsort, qsort.Orders mode.compare → P (storeSort mode qsort store).entries) ↔
      ∀ arranged, IsArrangement (fun a b => mode.compare a b ≤ 0) store.entries arranged →
        P arranged := by
  constructor
  · intro hall arranged harr
    have horders : (arrangingQsort mode harr).Orders mode.compare := by
      intro l
      simp only [arrangingQsort]
      split
      · exact harr.isChain
      · exact orders_insertionQsort mode l
    have hentries : (storeSort mode (arrangingQsort mode harr) store).entries = arranged := by
      rw [storeSort_eq, sortEntries]
      split
      · rename_i hcount
        exact (harr.eq_of_length_le_one hcount).symm
      · exact if_pos ⟨rfl, rfl⟩
    rw [← hentries]
    exact hall _ horders
  · intro hall qsort horders
    exact hall _ (isArrangement_storeSort horders store)

/-! ## The causal sort -/

/-- No entry comes before one that happens before it. -/
def CausallyOrdered (entries : List LogEntry) : Prop :=
  entries.Pairwise fun a b => ¬ b.HappensBefore a

instance (entries : List LogEntry) : Decidable (CausallyOrdered entries) :=
  inferInstanceAs (Decidable (entries.Pairwise _))

/-- The comparator is the causal order, patched by the fallback key. -/
theorem compareCausal_le_iff (a b : LogEntry) :
    compareCausal a b ≤ 0 ↔
      Patched LogEntry.HappensBefore (fun a b => logEntryCompareByTime a b ≤ 0) a b := by
  rw [compareCausal, logEntryCompare_eq, Patched]
  by_cases hab : a.HappensBefore b
  · simp [hab]
  · by_cases hba : b.HappensBefore a
    · simp [hab, hba]
    · simp [hab, hba]

/-- **When the causal sort yields a causal order.**  It does so with every `qsort`
exactly for the stores in which no entry happens before the first of two entries that
the comparator puts ahead of it in turn. -/
theorem storeSortCausal_iff (store : LogStore) :
    (∀ qsort : Qsort, qsort.Orders compareCausal →
        CausallyOrdered (storeSortCausal qsort store).entries) ↔
      ∀ x ∈ store.entries, ∀ y ∈ store.entries, ∀ z ∈ store.entries,
        ¬ (compareCausal x y ≤ 0 ∧ compareCausal y z ≤ 0 ∧ z.HappensBefore x) := by
  have hkey : ∀ a b : LogEntry, logEntryCompareByTime a b ≤ 0 ∨ logEntryCompareByTime b a ≤ 0 :=
    SortMode.compare_total .time
  have hasymm : ∀ a b : LogEntry, a.HappensBefore b → ¬ b.HappensBefore a := fun _ _ h => h.asymm
  have htriples := forall_isArrangement_iff hkey (fun _ _ _ => logEntryCompareByTime_le_trans)
    hasymm store.entries
  have hrel : (fun a b => SortMode.causal.compare a b ≤ 0) =
      Patched LogEntry.HappensBefore (fun a b => logEntryCompareByTime a b ≤ 0) := by
    funext a b
    exact propext (compareCausal_le_iff a b)
  have hqsorts := forall_qsort_iff .causal store CausallyOrdered
  rw [hrel] at hqsorts
  refine (hqsorts.trans htriples).trans ?_
  simp only [IsTriple, compareCausal_le_iff]

/-- Node 0 logs twice, and its machine's clock is set back in between; node 1 logs at a
time in the middle. -/
def skewedEntries : List LogEntry :=
  [{ LogEntry.ofClock [2, 0] two_le_vcMaxNodes with
      nodeId := CStr.ofBytes (ascii "node-0"), timestamp := 1000 },
    { LogEntry.ofClock [0, 1] two_le_vcMaxNodes with
      nodeId := CStr.ofBytes (ascii "node-1"), timestamp := 2000 },
    { LogEntry.ofClock [1, 0] two_le_vcMaxNodes with
      nodeId := CStr.ofBytes (ascii "node-0"), timestamp := 3000 }]

/-- Insertion sort leaves the second event of node 0 ahead of the first. -/
theorem skewedEntries_not_causallyOrdered :
    insertionQsort.Orders compareCausal ∧
      ¬ CausallyOrdered (storeSortCausal insertionQsort (storeOf skewedEntries)).entries :=
  ⟨orders_insertionQsort .causal, by decide +kernel⟩

end LogAgg
