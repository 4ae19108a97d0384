import LogAgg.Store.Index
import LogAgg.Store.Sort

/-!
# Keyword search in the query tool

`main` of the query tool builds the index, then sorts, then looks the keyword up.  The
index holds positions, and the sort moves the entries away from them, so what is returned
are the positions at which matching entries stood when the store was loaded.
`keywordSearch_iff` says when these are the matching entries of the sorted store.
-/

namespace LogAgg

open Sorting

/-- The steps of `main` before the keyword is looked up: index first, sort second. -/
def loadedAndSorted (mode : SortMode) (qsort : Qsort) (store : LogStore) : LogStore :=
  storeSort mode qsort (storeBuildIndex store)

/-- The message of an entry has every word of the keyword. -/
def HasAllTerms (keyword : Bytes) (entry : LogEntry) : Prop :=
  ∀ term ∈ queryTerms keyword, term ∈ messageTerms entry.message.bytes

instance (keyword : Bytes) (entry : LogEntry) : Decidable (HasAllTerms keyword entry) :=
  inferInstanceAs (Decidable (∀ term ∈ queryTerms keyword, term ∈ messageTerms entry.message.bytes))

/-- A keyword without words is in every message. -/
theorem hasAllTerms_of_queryTerms_eq_nil {keyword : Bytes} (h : queryTerms keyword = [])
    (entry : LogEntry) : HasAllTerms keyword entry := by
  intro term hterm
  rw [h] at hterm
  exact absurd hterm List.not_mem_nil

/-- Two arrays have matching entries at the same positions. -/
def MatchAlike (keyword : Bytes) (entries entries' : List LogEntry) : Prop :=
  ∀ (i : ℕ) (entry entry' : LogEntry), entries[i]? = some entry → entries'[i]? = some entry' →
    (HasAllTerms keyword entry' ↔ HasAllTerms keyword entry)

/-- The keyword search on a store is sound for every cut and complete without one. -/
def FindsMatches (store : LogStore) (keyword : Bytes) : Prop :=
  (∀ maxCount : ℤ, ∀ i ∈ storeQueryByIndex store keyword true maxCount,
      ∃ entry, store.entries[i]? = some entry ∧ HasAllTerms keyword entry) ∧
    ∀ (i : ℕ) (entry : LogEntry), store.entries[i]? = some entry → HasAllTerms keyword entry →
      i ∈ storeQueryByIndex store keyword true store.count

theorem mem_naiveScan_true {store : LogStore} {keyword : Bytes} {i : ℕ} :
    i ∈ naiveScan store keyword true ↔
      queryTerms keyword ≠ [] ∧ ∃ entry, store.entries[i]? = some entry ∧ HasAllTerms keyword entry := by
  rw [naiveScan, List.mem_filter, List.mem_range, Option.any_eq_true]
  simp only [decide_eq_true_eq, Matches, if_true]
  constructor
  · rintro ⟨-, entry, hentry, hwords, hall⟩
    exact ⟨hwords, entry, hentry, hall⟩
  · rintro ⟨hwords, entry, hentry, hall⟩
    obtain ⟨hlt, -⟩ := List.getElem?_eq_some_iff.mp hentry
    exact ⟨hlt, entry, hentry, hwords, hall⟩

theorem length_naiveScan_le (store : LogStore) (queryStr : Bytes) (isAndMode : Bool) :
    (naiveScan store queryStr isAndMode).length ≤ store.count :=
  (List.length_filter_le _ _).trans_eq List.length_range

/-- The search finds the right entries of a sorted store exactly if it has words to look for
and matching entries stand just where matching entries were loaded. -/
theorem findsMatches_iff {store sorted : LogStore} {keyword : Bytes}
    (hindex : sorted.index = (storeBuildIndex store).index)
    (hlength : sorted.entries.length = store.entries.length) :
    FindsMatches sorted keyword ↔
      (queryTerms keyword = [] → store.entries = []) ∧
        MatchAlike keyword store.entries sorted.entries := by
  have hcount : sorted.count = store.count := hlength
  have htake : (naiveScan store keyword true).take ((sorted.count : ℤ)).toNat =
      naiveScan store keyword true := by
    rw [Int.toNat_natCast, hcount, List.take_of_length_le (length_naiveScan_le _ _ _)]
  have hloaded : ∀ {i : ℕ} {entry' : LogEntry}, sorted.entries[i]? = some entry' →
      ∃ entry, store.entries[i]? = some entry := by
    intro i entry' hentry'
    obtain ⟨hlt, -⟩ := List.getElem?_eq_some_iff.mp hentry'
    exact ⟨_, List.getElem?_eq_getElem (hlength ▸ hlt)⟩
  unfold FindsMatches
  simp only [storeQueryByIndex_of_index hindex]
  rw [htake]
  constructor
  · rintro ⟨hsound, hcomplete⟩
    refine ⟨fun hwords => ?_, fun i entry entry' hentry hentry' => ⟨fun hall => ?_, fun hall => ?_⟩⟩
    · by_contra hne
      have hpos : 0 < sorted.entries.length := by
        rw [hlength]
        exact List.length_pos_iff.mpr hne
      have hmem := hcomplete 0 _ (List.getElem?_eq_getElem hpos)
        (hasAllTerms_of_queryTerms_eq_nil hwords _)
      exact (mem_naiveScan_true.mp hmem).1 hwords
    · obtain ⟨-, x, hx, hall'⟩ := mem_naiveScan_true.mp (hcomplete i entry' hentry' hall)
      rw [hentry] at hx
      exact Option.some.inj hx ▸ hall'
    · by_cases hwords : queryTerms keyword = []
      · exact hasAllTerms_of_queryTerms_eq_nil hwords _
      · have hmem := mem_naiveScan_true.mpr ⟨hwords, entry, hentry, hall⟩
        rw [← htake] at hmem
        obtain ⟨x, hx, hall'⟩ := hsound _ i hmem
        rw [hentry'] at hx
        exact Option.some.inj hx ▸ hall'
  · rintro ⟨hwords, hsame⟩
    refine ⟨fun maxCount i hi => ?_, fun i entry' hentry' hall => ?_⟩
    · obtain ⟨-, entry, hentry, hall⟩ := mem_naiveScan_true.mp (List.mem_of_mem_take hi)
      obtain ⟨hlt, -⟩ := List.getElem?_eq_some_iff.mp hentry
      have hentry' := List.getElem?_eq_getElem (hlength.symm ▸ hlt : i < sorted.entries.length)
      exact ⟨_, hentry', (hsame i entry _ hentry hentry').mpr hall⟩
    · obtain ⟨entry, hentry⟩ := hloaded hentry'
      refine mem_naiveScan_true.mpr ⟨fun hnone => ?_, entry, hentry,
        (hsame i entry entry' hentry hentry').mp hall⟩
      rw [hwords hnone] at hentry
      exact absurd hentry (by simp)

/-- **When keyword search returns the matching logs.**  It does so with every `qsort`
exactly if the keyword has a word, or nothing is loaded, and every order that a `qsort`
may leave has a matching entry at just those positions where one was loaded. -/
theorem keywordSearch_iff (mode : SortMode) (store : LogStore) (keyword : Bytes) :
    (∀ qsort : Qsort, qsort.Orders mode.compare →
        FindsMatches (loadedAndSorted mode qsort store) keyword) ↔
      (queryTerms keyword = [] → store.entries = []) ∧
        ∀ arranged, IsArrangement (fun a b => mode.compare a b ≤ 0) store.entries arranged →
          MatchAlike keyword store.entries arranged := by
  have hlength : ∀ {qsort : Qsort}, qsort.Orders mode.compare →
      (loadedAndSorted mode qsort store).entries.length = store.entries.length :=
    fun horders => (isArrangement_storeSort horders _).perm.length_eq
  have hiff : ∀ qsort : Qsort, qsort.Orders mode.compare →
      (FindsMatches (loadedAndSorted mode qsort store) keyword ↔
        (queryTerms keyword = [] → store.entries = []) ∧
          MatchAlike keyword store.entries (loadedAndSorted mode qsort store).entries) :=
    fun qsort horders => findsMatches_iff (index_storeSort mode qsort _) (hlength horders)
  have harranged := forall_qsort_iff mode (storeBuildIndex store) (MatchAlike keyword store.entries)
  constructor
  · intro hall
    have hinsertion := orders_insertionQsort mode
    refine ⟨((hiff _ hinsertion).mp (hall _ hinsertion)).1, harranged.mp fun qsort horders => ?_⟩
    exact ((hiff qsort horders).mp (hall qsort horders)).2
  · rintro ⟨hwords, hsame⟩ qsort horders
    exact (hiff qsort horders).mpr ⟨hwords, harranged.mpr hsame qsort horders⟩

/-- Two entries of node 0, loaded in the wrong order. -/
def swappedEntries : List LogEntry :=
  [{ LogEntry.ofClock [2] one_le_vcMaxNodes with
      nodeId := CStr.ofBytes (ascii "node-0"), message := CStr.ofBytes (ascii "disk full") },
    { LogEntry.ofClock [1] one_le_vcMaxNodes with
      nodeId := CStr.ofBytes (ascii "node-0"), message := CStr.ofBytes (ascii "user login") }]

/-- The search for `login` returns the entry that says `disk full`. -/
theorem swappedEntries_not_findsMatches :
    insertionQsort.Orders SortMode.causal.compare ∧
      ¬ FindsMatches (loadedAndSorted .causal insertionQsort (storeOf swappedEntries))
        (ascii "login") := by
  have hwrong : 1 ∈ storeQueryByIndex (loadedAndSorted .causal insertionQsort
        (storeOf swappedEntries)) (ascii "login") true 2 ∧
      ((loadedAndSorted .causal insertionQsort (storeOf swappedEntries)).entries[1]?).any
        (fun entry => HasAllTerms (ascii "login") entry) = false := by
    decide +kernel
  refine ⟨orders_insertionQsort .causal, fun h => ?_⟩
  obtain ⟨entry, hentry, hall⟩ := h.1 2 1 hwrong.1
  have hnot := hwrong.2
  rw [hentry, Option.any_some, decide_eq_false_iff_not] at hnot
  exact hnot hall

end LogAgg
