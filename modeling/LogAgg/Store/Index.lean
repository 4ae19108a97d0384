import LogAgg.Sorting.Merge
import LogAgg.Store.Basic

/-!
# The inverted index

`store_build_index` reads every message word by word and keeps, for each normalised word,
the list of the positions whose message has it.  `store_query_by_index` looks the words of
a query up and folds their posting lists with an intersection or a union.

The posting list of a word turns out to be a filter of the positions
(`posting_storeBuildIndex`), and filters of one list intersect and unite by conjunction
and disjunction.  So a query answers what a scan of all messages would
(`storeQueryByIndex_storeBuildIndex`).
-/

namespace LogAgg

open Sorting

/-! ## Words -/

/-- What successive calls of `strtok` return, `token` being the part of the current
token that was read already. -/
def strtokFrom (delims token : Bytes) : Bytes → List Bytes
  | [] => if token = [] then [] else [token]
  | c :: s =>
    if c ∈ delims then
      if token = [] then strtokFrom delims [] s else token :: strtokFrom delims [] s
    else strtokFrom delims (token ++ [c]) s

/-- All tokens that `strtok` finds in a string. -/
def strtok (delims s : Bytes) : List Bytes := strtokFrom delims [] s

/-- The loop of `normalize_term`, with room for so many more characters. -/
def normalizeLoop : ℕ → Bytes → Bytes
  | _, [] => []
  | 0, _ :: _ => []
  | room + 1, c :: s =>
    if isalnum c then tolower c :: normalizeLoop room s else normalizeLoop (room + 1) s

theorem length_normalizeLoop_le (room : ℕ) (s : Bytes) : (normalizeLoop room s).length ≤ room := by
  fun_induction normalizeLoop room s with
  | case1 room => exact Nat.zero_le _
  | case2 c s => exact le_rfl
  | case3 room c s hc ih =>
    rw [List.length_cons]
    omega
  | case4 room c s hc ih => exact ih

/-- Letters and digits are no terminators, in lower case either. -/
theorem tolower_ne_zero {c : UInt8} (hc : isalnum c = true) : tolower c ≠ 0 := by
  unfold tolower
  split
  · rename_i hupper
    rw [isupper, Bool.and_eq_true, decide_eq_true_eq, decide_eq_true_eq, UInt8.le_iff_toNat_le,
      UInt8.le_iff_toNat_le] at hupper
    intro h
    have hadd := congrArg UInt8.toNat h
    have h65 : (65 : UInt8).toNat = 65 := rfl
    have h90 : (90 : UInt8).toNat = 90 := rfl
    have h32 : (32 : UInt8).toNat = 32 := rfl
    have h0 : (0 : UInt8).toNat = 0 := rfl
    rw [UInt8.toNat_add, h32, h0] at hadd
    omega
  · rintro rfl
    exact absurd hc (by decide)

theorem nul_notMem_normalizeLoop (room : ℕ) (s : Bytes) : (0 : UInt8) ∉ normalizeLoop room s := by
  fun_induction normalizeLoop room s with
  | case1 room => exact List.not_mem_nil
  | case2 c s => exact List.not_mem_nil
  | case3 room c s hc ih =>
    rw [List.mem_cons]
    rintro (h | h)
    · exact tolower_ne_zero hc h.symm
    · exact ih h
  | case4 room c s hc ih => exact ih

/-- `normalize_term`: the letters and digits in lower case, as many as fit. -/
def normalizeTerm (src : Bytes) : CStr maxTermLen :=
  ⟨normalizeLoop maxTermLen src, length_normalizeLoop_le _ _, nul_notMem_normalizeLoop _ _⟩

/-- The delimiters between the words of a message. -/
def messageDelimiters : Bytes := ascii " \t\r\n,.!?:;()[]\x7b\x7d--_\"'"

/-- The delimiter between the words of a query. -/
def queryDelimiters : Bytes := ascii " "

/-! ## Building the index -/

/-- `posting_list_add`. -/
def postingListAdd (pl : List ℕ) (entryIdx : ℕ) : List ℕ := pl ++ [entryIdx]

/-- Adding a position unless it was the last one added. -/
def recordPosition (i : ℕ) (pl : List ℕ) : List ℕ :=
  if pl = [] ∨ pl.getLast? ≠ some i then postingListAdd pl i else pl

/-- The search for a word in the dictionary and the update of its posting list; a word
that is not found is added at the end. -/
def indexTerm (i : ℕ) (cleanTerm : CStr maxTermLen) : List IndexEntry → List IndexEntry
  | [] => [⟨cleanTerm, recordPosition i []⟩]
  | e :: dict =>
    if strcmp e.term.bytes cleanTerm.bytes = 0 then
      { e with posting := recordPosition i e.posting } :: dict
    else e :: indexTerm i cleanTerm dict

/-- The body of the token loop of `store_build_index`. -/
def indexToken (i : ℕ) (dict : List IndexEntry) (token : Bytes) : List IndexEntry :=
  let cleanTerm := normalizeTerm token
  if 0 < cleanTerm.bytes.length then indexTerm i cleanTerm dict else dict

/-- The body of the entry loop of `store_build_index`. -/
def indexEntry (dict : List IndexEntry) (entry : LogEntry × ℕ) : List IndexEntry :=
  (strtok messageDelimiters entry.1.message.bytes).foldl (indexToken entry.2) dict

/-- `store_build_index`. -/
def storeBuildIndex (store : LogStore) : LogStore :=
  { store with index := store.entries.zipIdx.foldl indexEntry [] }

@[simp] theorem entries_storeBuildIndex (store : LogStore) :
    (storeBuildIndex store).entries = store.entries := rfl

/-! ## Queries -/

/-- `intersect_posting_lists`. -/
def intersectPostingLists (a b : List ℕ) : List ℕ := inter a b

/-- `union_posting_lists`. -/
def unionPostingLists (a b : List ℕ) : List ℕ := union a b

/-- The search for a word in the dictionary. -/
def findPosting (dict : List IndexEntry) (term : Bytes) : Option (List ℕ) :=
  (dict.find? fun e => strcmp e.term.bytes term == 0).map (·.posting)

/-- `get_posting_list`. -/
def getPostingList (store : LogStore) (term : Bytes) : Option (List ℕ) :=
  findPosting store.index (normalizeTerm term).bytes

/-- The body of the token loop of `store_query_by_index`; `none` is the state before the
first word. -/
def queryToken (store : LogStore) (isAndMode : Bool) (finalPl : Option (List ℕ)) (token : Bytes) :
    Option (List ℕ) :=
  let currentTermPl := (getPostingList store token).getD []
  match finalPl with
  | none => some currentTermPl
  | some pl =>
    if isAndMode then some (intersectPostingLists pl currentTermPl)
    else some (unionPostingLists pl currentTermPl)

/-- `store_query_by_index`: the positions of the entries returned. -/
def storeQueryByIndex (store : LogStore) (queryStr : Bytes) (isAndMode : Bool) (maxCount : ℤ) :
    List ℕ :=
  if queryStr = [] then []
  else
    let tokens := strtok queryDelimiters (queryStr.take 255)
    let finalPl := (tokens.foldl (queryToken store isAndMode) none).getD []
    finalPl.take maxCount.toNat

/-! ## What a query should return -/

/-- Tokens, normalised, without those of which nothing is left. -/
def cleanTerms (tokens : List Bytes) : List Bytes :=
  (tokens.map fun token => (normalizeTerm token).bytes).filter (· ≠ [])

/-- The words of a message. -/
def messageTerms (message : Bytes) : List Bytes := cleanTerms (strtok messageDelimiters message)

/-- The words of a query: the tokens of its first 255 characters, normalised. -/
def queryTerms (queryStr : Bytes) : List Bytes :=
  (strtok queryDelimiters (queryStr.take 255)).map fun token => (normalizeTerm token).bytes

/-- A message matches a query of at least one word if it has all of its words or some of
them. -/
def Matches (isAndMode : Bool) (queryStr message : Bytes) : Prop :=
  queryTerms queryStr ≠ [] ∧
    if isAndMode then ∀ term ∈ queryTerms queryStr, term ∈ messageTerms message
    else ∃ term ∈ queryTerms queryStr, term ∈ messageTerms message

instance (isAndMode : Bool) (queryStr message : Bytes) :
    Decidable (Matches isAndMode queryStr message) := by
  unfold Matches
  infer_instance

/-- The positions of the matching entries, by a scan of all messages. -/
def naiveScan (store : LogStore) (queryStr : Bytes) (isAndMode : Bool) : List ℕ :=
  (List.range store.count).filter fun i =>
    (store.entries[i]?).any fun entry => Matches isAndMode queryStr entry.message.bytes

/-! ## Posting lists -/

/-- The posting list of a word, empty for a word that is not in the dictionary. -/
def posting (dict : List IndexEntry) (term : Bytes) : List ℕ := (findPosting dict term).getD []

theorem posting_nil (term : Bytes) : posting [] term = [] := rfl

theorem posting_cons (e : IndexEntry) (dict : List IndexEntry) (term : Bytes) :
    posting (e :: dict) term = if e.term.bytes = term then e.posting else posting dict term := by
  unfold posting findPosting
  by_cases h : e.term.bytes = term
  · rw [if_pos h, List.find?_cons_of_pos (by rw [beq_iff_eq]; exact strcmp_eq_zero_iff.mpr h)]
    rfl
  · have hne : strcmp e.term.bytes term ≠ 0 := fun h' => h (strcmp_eq_zero_iff.mp h')
    rw [if_neg h, List.find?_cons_of_neg (by rwa [beq_iff_eq])]

/-- Indexing a word changes the posting list of that word only. -/
theorem posting_indexTerm (i : ℕ) (cleanTerm : CStr maxTermLen) (dict : List IndexEntry)
    (term : Bytes) :
    posting (indexTerm i cleanTerm dict) term =
      if term = cleanTerm.bytes then recordPosition i (posting dict term)
      else posting dict term := by
  induction dict with
  | nil =>
    rw [indexTerm, posting_cons, posting_nil]
    by_cases h : term = cleanTerm.bytes
    · rw [if_pos h.symm, if_pos h]
    · rw [if_neg (Ne.symm h), if_neg h]
  | cons e dict ih =>
    rw [indexTerm]
    by_cases hfound : strcmp e.term.bytes cleanTerm.bytes = 0
    · have heq := strcmp_eq_zero_iff.mp hfound
      rw [if_pos hfound, posting_cons, posting_cons, heq]
      by_cases h : term = cleanTerm.bytes
      · rw [if_pos h.symm, if_pos h, if_pos h.symm]
      · rw [if_neg (Ne.symm h), if_neg h, if_neg (Ne.symm h)]
    · rw [if_neg hfound, posting_cons, posting_cons, ih]
      by_cases h : term = cleanTerm.bytes
      · have hne : e.term.bytes ≠ term := fun he => hfound (strcmp_eq_zero_iff.mpr (he.trans h))
        rw [if_neg hne, if_neg hne]
      · rw [if_neg h, if_neg h]

theorem recordPosition_of_forall_lt {i : ℕ} {pl : List ℕ} (h : ∀ j ∈ pl, j < i) :
    recordPosition i pl = pl ++ [i] := by
  refine if_pos ?_
  by_contra hcon
  rw [not_or, not_not] at hcon
  exact lt_irrefl i (h i (List.mem_of_getLast? hcon.2))

theorem recordPosition_append_self (i : ℕ) (pl : List ℕ) :
    recordPosition i (pl ++ [i]) = pl ++ [i] := by
  refine if_neg ?_
  simp

theorem mem_cleanTerms_append {tokens : List Bytes} {token term : Bytes} :
    term ∈ cleanTerms (tokens ++ [token]) ↔
      term ∈ cleanTerms tokens ∨ term = (normalizeTerm token).bytes ∧ term ≠ [] := by
  rw [cleanTerms, List.map_append, List.filter_append, List.mem_append]
  simp [cleanTerms]

/-- **Indexing a message.**  The position goes once into the posting list of every word of
the message. -/
theorem posting_foldl_indexToken {i : ℕ} {dict : List IndexEntry} {term : Bytes}
    (hlt : ∀ j ∈ posting dict term, j < i) (tokens : List Bytes) :
    posting (tokens.foldl (indexToken i) dict) term =
      if term ∈ cleanTerms tokens then posting dict term ++ [i] else posting dict term := by
  induction tokens using List.reverseRecOn with
  | nil => rfl
  | append_singleton tokens token ih =>
    rw [List.foldl_append, List.foldl_cons, List.foldl_nil, indexToken]
    simp only [mem_cleanTerms_append]
    by_cases hempty : (normalizeTerm token).bytes = []
    · -- nothing is left of the token
      have hno : ¬ (term = (normalizeTerm token).bytes ∧ term ≠ []) := fun h => h.2 (h.1.trans hempty)
      rw [if_neg (by simp [hempty]), ih]
      simp only [hno, or_false]
    · rw [if_pos (List.length_pos_iff.mpr hempty), posting_indexTerm, ih]
      by_cases heq : term = (normalizeTerm token).bytes
      · rw [if_pos heq]
        by_cases hseen : term ∈ cleanTerms tokens
        · rw [if_pos hseen, if_pos (Or.inl hseen), recordPosition_append_self]
        · have hne : term ≠ [] := fun h => hempty (heq.symm.trans h)
          rw [if_neg hseen, if_pos (Or.inr ⟨heq, hne⟩), recordPosition_of_forall_lt hlt]
      · rw [if_neg heq]
        simp only [heq, false_and, or_false]

/-- Entry `i` has the word in its message. -/
def hasTerm (entries : List LogEntry) (term : Bytes) (i : ℕ) : Bool :=
  (entries[i]?).any fun entry => term ∈ messageTerms entry.message.bytes

/-- **What the index says.**  The posting list of a word lists, in order, the positions of
the messages that have it. -/
theorem posting_zipIdx_foldl (entries : List LogEntry) (term : Bytes) :
    posting (entries.zipIdx.foldl indexEntry []) term =
      (List.range entries.length).filter (hasTerm entries term) := by
  induction entries using List.reverseRecOn with
  | nil => rfl
  | append_singleton entries entry ih =>
    have hlt : ∀ j ∈ posting (entries.zipIdx.foldl indexEntry []) term, j < entries.length := by
      intro j hj
      rw [ih] at hj
      exact List.mem_range.mp (List.mem_filter.mp hj).1
    have hold : (List.range entries.length).filter (hasTerm (entries ++ [entry]) term) =
        (List.range entries.length).filter (hasTerm entries term) := by
      refine List.filter_congr fun j hj => ?_
      rw [hasTerm, hasTerm, List.getElem?_append_left (List.mem_range.mp hj)]
    have hnew : hasTerm (entries ++ [entry]) term entries.length =
        decide (term ∈ messageTerms entry.message.bytes) := by
      rw [hasTerm, List.getElem?_append_right le_rfl, Nat.sub_self]
      rfl
    rw [List.zipIdx_append, List.foldl_append, List.zipIdx_singleton, List.foldl_cons,
      List.foldl_nil, indexEntry, List.length_append, List.length_singleton, List.range_succ,
      List.filter_append, hold, ← ih, List.filter_singleton, hnew, zero_add,
      posting_foldl_indexToken hlt, messageTerms]
    by_cases h : term ∈ cleanTerms (strtok messageDelimiters entry.message.bytes)
    · rw [if_pos h, decide_eq_true h]
      rfl
    · rw [if_neg h, decide_eq_false h]
      simp

theorem getPostingList_storeBuildIndex (store : LogStore) (token : Bytes) :
    (getPostingList (storeBuildIndex store) token).getD [] =
      (List.range store.count).filter (hasTerm store.entries (normalizeTerm token).bytes) :=
  posting_zipIdx_foldl store.entries (normalizeTerm token).bytes

/-! ## Queries and scans -/

/-- The words of a query after the first narrow the result down or widen it. -/
theorem foldl_queryToken_some (store : LogStore) (isAndMode : Bool) (tokens : List Bytes)
    (p : ℕ → Bool) :
    tokens.foldl (queryToken (storeBuildIndex store) isAndMode)
        (some ((List.range store.count).filter p)) =
      some ((List.range store.count).filter fun i =>
        if isAndMode then
          p i && tokens.all fun token => hasTerm store.entries (normalizeTerm token).bytes i
        else p i || tokens.any fun token => hasTerm store.entries (normalizeTerm token).bytes i) := by
  induction tokens generalizing p with
  | nil =>
    cases isAndMode <;> simp
  | cons token tokens ih =>
    rw [List.foldl_cons, queryToken, getPostingList_storeBuildIndex]
    have hsorted : (List.range store.count).Pairwise (· < ·) := List.pairwise_lt_range
    cases isAndMode with
    | true =>
      have hinter := inter_filter hsorted p (hasTerm store.entries (normalizeTerm token).bytes)
      simp only [if_true, intersectPostingLists]
      rw [hinter, ih]
      simp [Bool.and_assoc]
    | false =>
      have hunion := union_filter hsorted p (hasTerm store.entries (normalizeTerm token).bytes)
      simp only [Bool.false_eq_true, if_false, unionPostingLists]
      rw [hunion, ih]
      simp [Bool.or_assoc]

/-- What the query loop leaves in the result list. -/
theorem foldl_queryToken (store : LogStore) (queryStr : Bytes) (isAndMode : Bool) :
    ((strtok queryDelimiters (queryStr.take 255)).foldl
        (queryToken (storeBuildIndex store) isAndMode) none).getD [] =
      naiveScan store queryStr isAndMode := by
  have hterms : queryTerms queryStr = (strtok queryDelimiters (queryStr.take 255)).map
      fun token => (normalizeTerm token).bytes := rfl
  cases htokens : strtok queryDelimiters (queryStr.take 255) with
  | nil =>
    rw [htokens, List.map_nil] at hterms
    have hnone : ∀ message, ¬ Matches isAndMode queryStr message := fun message h => h.1 hterms
    simp [naiveScan, hnone]
  | cons token tokens =>
    rw [htokens] at hterms
    have hfirst : queryToken (storeBuildIndex store) isAndMode none token =
        some ((List.range store.count).filter
          (hasTerm store.entries (normalizeTerm token).bytes)) := by
      rw [queryToken, getPostingList_storeBuildIndex]
    rw [List.foldl_cons, hfirst, foldl_queryToken_some, Option.getD_some]
    refine List.filter_congr fun i hi => ?_
    have hlt : i < store.entries.length := List.mem_range.mp hi
    simp only [hasTerm, List.getElem?_eq_getElem hlt, Option.any_some]
    rw [Bool.eq_iff_iff, decide_eq_true_eq, Matches, hterms]
    cases isAndMode with
    | true => simp
    | false => simp

/-- A query reads the index of a store and nothing else. -/
theorem storeQueryByIndex_congr {store store' : LogStore} (h : store.index = store'.index) :
    storeQueryByIndex store = storeQueryByIndex store' := by
  have htoken : queryToken store = queryToken store' := by
    funext isAndMode finalPl token
    simp only [queryToken, getPostingList, h]
  funext queryStr isAndMode maxCount
  rw [storeQueryByIndex, storeQueryByIndex, htoken]

/-- A query through the index that was built for a store scans the messages of that
store. -/
theorem storeQueryByIndex_of_index {indexed store : LogStore}
    (h : indexed.index = (storeBuildIndex store).index) (queryStr : Bytes) (isAndMode : Bool)
    (maxCount : ℤ) :
    storeQueryByIndex indexed queryStr isAndMode maxCount =
      (naiveScan store queryStr isAndMode).take maxCount.toNat := by
  have hfold := foldl_queryToken store queryStr isAndMode
  rw [storeQueryByIndex_congr h, storeQueryByIndex]
  by_cases hempty : queryStr = []
  · -- an empty query has no word
    have hscan : naiveScan store queryStr isAndMode = [] := by
      rw [← hfold, hempty]
      rfl
    rw [if_pos hempty, hscan, List.take_nil]
  · rw [if_neg hempty]
    simp only [hfold]

/-- **The index answers like a scan.**  On a store whose index is built, a query returns
the positions of the first matching entries in ascending order, none twice. -/
theorem storeQueryByIndex_storeBuildIndex (store : LogStore) (queryStr : Bytes) (isAndMode : Bool)
    (maxCount : ℕ) :
    storeQueryByIndex (storeBuildIndex store) queryStr isAndMode maxCount =
        (naiveScan store queryStr isAndMode).take maxCount ∧
      (storeQueryByIndex (storeBuildIndex store) queryStr isAndMode maxCount).Pairwise (· < ·) := by
  have hindex : (storeBuildIndex store).index = (storeBuildIndex store).index := rfl
  have hscan := storeQueryByIndex_of_index hindex queryStr isAndMode maxCount
  have hsorted : (List.range store.count).Pairwise (· < ·) := List.pairwise_lt_range
  rw [Int.toNat_natCast] at hscan
  refine ⟨hscan, ?_⟩
  rw [hscan]
  exact (hsorted.filter _).sublist (List.take_sublist _ _)

end LogAgg
