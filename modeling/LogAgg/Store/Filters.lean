import LogAgg.Store.QueryTool

/-!
# The filters of a query

A query of the tool may name a node, a level and a range of times besides its keyword.
Without a keyword `store_query` scans the store and tests them all.  With one, `main` takes
the path through the index, which knows of the keyword only.

`keywordSearch_honours_iff` says when the entries that this path returns satisfy the other
filters all the same.
-/

namespace LogAgg

open Sorting

/-- `query_t`. -/
structure Query where
  keyword : Option Bytes
  nodeId : Option Bytes
  level : Option Bytes
  timeStart : UInt64
  timeEnd : UInt64

/-- A filter that is given: neither a null pointer nor an empty string. -/
def given (filter : Option Bytes) : Option Bytes := filter.filter (· ≠ [])

/-- `strncasecmp` as a test for equality. -/
def strncaseeq (s t : Bytes) (n : ℕ) : Bool := strcaseeq (s.take n) (t.take n)

/-- `str_contains`. -/
def strContains (haystack needle : Bytes) : Bool :=
  decide (needle = []) ||
    haystack.tails.any fun p => decide (p ≠ []) && strncaseeq p needle needle.length

/-- `store_match_query`. -/
def storeMatchQuery (entry : LogEntry) (query : Query) : Bool :=
  if (given query.keyword).any fun keyword => !strContains entry.message.bytes keyword then false
  else if (given query.nodeId).any fun nodeId => strcmp entry.nodeId.bytes nodeId != 0 then false
  else if (given query.level).any fun level => !strcaseeq (logLevelStr entry.level) level then
    false
  else if decide (0 < query.timeStart) && decide (entry.timestamp < query.timeStart) then false
  else if decide (0 < query.timeEnd) && decide (query.timeEnd < entry.timestamp) then false
  else true

/-- `store_query`: the positions of the entries found. -/
def storeQuery (store : LogStore) (query : Query) (maxCount : ℤ) : List ℕ :=
  ((List.range store.count).filter fun i =>
    (store.entries[i]?).any fun entry => storeMatchQuery entry query).take maxCount.toNat

/-- The choice of a path in `main`: the index when there is a keyword, else the scan. -/
def queryResults (store : LogStore) (query : Query) (isAndMode : Bool) : List ℕ :=
  match given query.keyword with
  | some keyword => storeQueryByIndex store keyword isAndMode store.count
  | none => storeQuery store query store.count

/-! ## What the filters ask for -/

/-- The entry is from the node, of the level and in the range of times that are given. -/
structure Query.Admits (query : Query) (entry : LogEntry) : Prop where
  nodeId : ∀ nodeId, given query.nodeId = some nodeId → entry.nodeId.bytes = nodeId
  level : ∀ level, given query.level = some level →
    strcaseeq (logLevelStr entry.level) level = true
  timeStart : 0 < query.timeStart → query.timeStart ≤ entry.timestamp
  timeEnd : 0 < query.timeEnd → entry.timestamp ≤ query.timeEnd

/-- Testing an optional filter. -/
theorem any_given_eq_false_iff {filter : Option Bytes} {test : Bytes → Bool} :
    (filter.any test = false) ↔ ∀ value, filter = some value → test value = false := by
  cases filter with
  | none => simp
  | some value => simp

/-- **`store_match_query` decides the filters**, and the keyword if one is given. -/
theorem storeMatchQuery_iff {entry : LogEntry} {query : Query} :
    storeMatchQuery entry query = true ↔
      (∀ keyword, given query.keyword = some keyword →
        strContains entry.message.bytes keyword = true) ∧ query.Admits entry := by
  have htime : ∀ (p q : Prop) [Decidable p] [Decidable q],
      (decide p && decide q) = false ↔ (p → ¬ q) := by
    intro p q _ _
    by_cases hp : p <;> simp [hp]
  have hif : ∀ {c c' : Bool}, (if c = true then false else c') = true ↔ c = false ∧ c' = true := by
    intro c c'
    cases c <;> simp
  unfold storeMatchQuery
  rw [hif, hif, hif, hif, hif, any_given_eq_false_iff, any_given_eq_false_iff,
    any_given_eq_false_iff, htime, htime]
  simp only [Bool.not_eq_false', bne_eq_false_iff_eq, strcmp_eq_zero_iff, and_true, UInt64.not_lt]
  constructor
  · rintro ⟨hkeyword, hnode, hlevel, hstart, hend⟩
    exact ⟨hkeyword, hnode, hlevel, hstart, hend⟩
  · rintro ⟨hkeyword, hnode, hlevel, hstart, hend⟩
    exact ⟨hkeyword, hnode, hlevel, hstart, hend⟩

/-! ## The two paths -/

/-- Every entry that the tool returns satisfies the filters. -/
def HonoursFilters (store : LogStore) (query : Query) (isAndMode : Bool) : Prop :=
  ∀ i ∈ queryResults store query isAndMode, ∃ entry, store.entries[i]? = some entry ∧
    query.Admits entry

/-- **The scan honours the filters.** -/
theorem honoursFilters_of_no_keyword {query : Query} (h : given query.keyword = none)
    (store : LogStore) (isAndMode : Bool) : HonoursFilters store query isAndMode := by
  intro i hi
  rw [queryResults, h] at hi
  have hmem := List.mem_of_mem_take hi
  rw [List.mem_filter, Option.any_eq_true] at hmem
  obtain ⟨-, entry, hentry, hmatch⟩ := hmem
  exact ⟨entry, hentry, (storeMatchQuery_iff.mp hmatch).2⟩

/-- Where the keyword was found at loading, the other array has entries that the filters
admit. -/
def AdmittedWhereFound (query : Query) (isAndMode : Bool) (entries entries' : List LogEntry) :
    Prop :=
  ∀ keyword, given query.keyword = some keyword → ∀ (i : ℕ) (entry entry' : LogEntry),
    entries[i]? = some entry → Matches isAndMode keyword entry.message.bytes →
      entries'[i]? = some entry' → query.Admits entry'

theorem mem_naiveScan {store : LogStore} {keyword : Bytes} {isAndMode : Bool} {i : ℕ} :
    i ∈ naiveScan store keyword isAndMode ↔
      ∃ entry, store.entries[i]? = some entry ∧ Matches isAndMode keyword entry.message.bytes := by
  rw [naiveScan, List.mem_filter, List.mem_range, Option.any_eq_true]
  simp only [decide_eq_true_eq]
  constructor
  · rintro ⟨-, entry, hentry, hmatch⟩
    exact ⟨entry, hentry, hmatch⟩
  · rintro ⟨entry, hentry, hmatch⟩
    obtain ⟨hlt, -⟩ := List.getElem?_eq_some_iff.mp hentry
    exact ⟨hlt, entry, hentry, hmatch⟩

/-- A sorted store honours the filters exactly if they admit what stands where the keyword
was found. -/
theorem honoursFilters_iff {store sorted : LogStore} {query : Query} {isAndMode : Bool}
    (hindex : sorted.index = (storeBuildIndex store).index)
    (hlength : sorted.entries.length = store.entries.length) :
    HonoursFilters sorted query isAndMode ↔
      AdmittedWhereFound query isAndMode store.entries sorted.entries := by
  cases hkeyword : given query.keyword with
  | none =>
    refine iff_of_true (honoursFilters_of_no_keyword hkeyword sorted isAndMode) ?_
    intro keyword hsome
    rw [hkeyword] at hsome
    exact absurd hsome (by simp)
  | some keyword =>
    have hcount : sorted.count = store.count := hlength
    have hresults : queryResults sorted query isAndMode = naiveScan store keyword isAndMode := by
      rw [queryResults, hkeyword]
      show storeQueryByIndex sorted keyword isAndMode sorted.count = _
      rw [storeQueryByIndex_of_index hindex, Int.toNat_natCast, hcount,
        List.take_of_length_le (length_naiveScan_le _ _ _)]
    unfold HonoursFilters AdmittedWhereFound
    rw [hresults, hkeyword]
    constructor
    · intro h keyword' hsome i entry entry' hentry hmatch hentry'
      obtain rfl := Option.some.inj hsome
      obtain ⟨found, hfound, hadmits⟩ := h i (mem_naiveScan.mpr ⟨entry, hentry, hmatch⟩)
      rw [hentry'] at hfound
      exact Option.some.inj hfound ▸ hadmits
    · intro h i hi
      obtain ⟨entry, hentry, hmatch⟩ := mem_naiveScan.mp hi
      obtain ⟨hlt, -⟩ := List.getElem?_eq_some_iff.mp hentry
      have hentry' := List.getElem?_eq_getElem (hlength.symm ▸ hlt : i < sorted.entries.length)
      exact ⟨_, hentry', h keyword rfl i entry _ hentry hmatch hentry'⟩

/-- **When the tool honours the filters.**  It does so with every `qsort` exactly if, in
every order that a `qsort` may leave, the filters admit the entries at the positions where
the keyword was found at loading; without a keyword it always does. -/
theorem keywordSearch_honours_iff (mode : SortMode) (store : LogStore) (query : Query)
    (isAndMode : Bool) :
    (∀ qsort : Qsort, qsort.Orders mode.compare →
        HonoursFilters (loadedAndSorted mode qsort store) query isAndMode) ↔
      ∀ arranged, IsArrangement (fun a b => mode.compare a b ≤ 0) store.entries arranged →
        AdmittedWhereFound query isAndMode store.entries arranged := by
  have harranged := forall_qsort_iff mode (storeBuildIndex store)
    (AdmittedWhereFound query isAndMode store.entries)
  refine Iff.trans (forall_congr' fun qsort => forall_congr' fun horders => ?_) harranged
  exact honoursFilters_iff (index_storeSort mode qsort _)
    (isArrangement_storeSort horders _).perm.length_eq

/-- One entry of node 0. -/
def loginEntry : LogEntry :=
  { LogEntry.ofClock [1] one_le_vcMaxNodes with
    nodeId := CStr.ofBytes (ascii "node-0"), message := CStr.ofBytes (ascii "user login") }

/-- The search for `login` on node 1 returns the entry of node 0, and the scan for the logs
of node 1 returns nothing. -/
theorem loginEntry_not_honoursFilters :
    insertionQsort.Orders SortMode.causal.compare ∧
      ¬ HonoursFilters (loadedAndSorted .causal insertionQsort (storeOf [loginEntry]))
        ⟨some (ascii "login"), some (ascii "node-1"), none, 0, 0⟩ true ∧
      queryResults (loadedAndSorted .causal insertionQsort (storeOf [loginEntry]))
        ⟨none, some (ascii "node-1"), none, 0, 0⟩ true = [] := by
  have hfound : 0 ∈ queryResults (loadedAndSorted .causal insertionQsort (storeOf [loginEntry]))
        ⟨some (ascii "login"), some (ascii "node-1"), none, 0, 0⟩ true ∧
      (loadedAndSorted .causal insertionQsort (storeOf [loginEntry])).entries = [loginEntry] ∧
      queryResults (loadedAndSorted .causal insertionQsort (storeOf [loginEntry]))
        ⟨none, some (ascii "node-1"), none, 0, 0⟩ true = [] := by
    decide +kernel
  refine ⟨orders_insertionQsort .causal, fun h => ?_, hfound.2.2⟩
  obtain ⟨entry, hentry, hadmits⟩ := h 0 hfound.1
  rw [hfound.2.1] at hentry
  obtain rfl := Option.some.inj hentry
  exact absurd (hadmits.nodeId (ascii "node-1") rfl) (by decide)

end LogAgg
