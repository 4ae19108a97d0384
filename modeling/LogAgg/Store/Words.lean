import LogAgg.Store.Index

/-!
# Words of a message as queries

`store_build_index` cuts a message at some twenty delimiters and keeps the letters and digits
of each piece.  `store_query_by_index` cuts a query at blanks only and keeps the letters and
digits of each word.  So a word such as `node-02` stands in the index as `node` and `02`, and is
looked up as `node02`.

A word finds its message exactly when one of the pieces of the message has the letters and digits
of the word, as far as they are kept (`word_finds_message_iff`).  This is so for every word
whose letters and digits stand together, without a delimiter in between.
-/

namespace LogAgg

open Sorting

/-! ## Tokens -/

section

variable {delims : Bytes}

/-- Bytes that are no delimiters go to the current token. -/
theorem strtokFrom_append_of_notMem {core : Bytes} (hcore : ∀ c ∈ core, c ∉ delims)
    (token s : Bytes) : strtokFrom delims token (core ++ s) = strtokFrom delims (token ++ core) s := by
  induction core generalizing token with
  | nil => rw [List.nil_append, List.append_nil]
  | cons c core ih =>
    rw [List.forall_mem_cons] at hcore
    rw [List.cons_append, strtokFrom, if_neg hcore.1, ih hcore.2, List.append_assoc,
      List.singleton_append]

/-- A delimiter ends the token before it. -/
theorem strtokFrom_append_cons {d : UInt8} (hd : d ∈ delims) (token u s : Bytes) :
    strtokFrom delims token (u ++ d :: s) =
      strtokFrom delims token u ++ strtokFrom delims [] s := by
  induction u generalizing token with
  | nil =>
    have hstep : strtokFrom delims token (d :: s) =
        if token = [] then strtokFrom delims [] s else token :: strtokFrom delims [] s := by
      rw [strtokFrom, if_pos hd]
    rw [List.nil_append, hstep, strtokFrom]
    split
    · rfl
    · rfl
  | cons c u ih =>
    rw [List.cons_append, strtokFrom, strtokFrom]
    split
    · split
      · exact ih []
      · rw [ih [], List.cons_append]
    · exact ih (token ++ [c])

/-- The word is one token of itself. -/
theorem strtok_eq_singleton {w : Bytes} (hne : w ≠ []) (hw : ∀ c ∈ w, c ∉ delims) :
    strtok delims w = [w] := by
  have hrun := strtokFrom_append_of_notMem hw [] []
  rw [List.append_nil, List.nil_append, strtokFrom, if_neg hne] at hrun
  exact hrun

/-- Tokens are not empty and hold no delimiters. -/
theorem of_mem_strtokFrom {token s w : Bytes} (htoken : ∀ c ∈ token, c ∉ delims)
    (hw : w ∈ strtokFrom delims token s) : w ≠ [] ∧ ∀ c ∈ w, c ∉ delims := by
  fun_induction strtokFrom delims token s with
  | case1 => exact absurd hw List.not_mem_nil
  | case2 token hne =>
    rw [List.mem_singleton.mp hw]
    exact ⟨hne, htoken⟩
  | case3 c s hc ih => exact ih (fun c hc => absurd hc List.not_mem_nil) hw
  | case4 token c s hc hne ih =>
    rcases List.mem_cons.mp hw with rfl | hw
    · exact ⟨hne, htoken⟩
    · exact ih (fun c hc => absurd hc List.not_mem_nil) hw
  | case5 token c s hc ih =>
    refine ih (fun b hb => ?_) hw
    rcases List.mem_append.mp hb with hb | hb
    · exact htoken b hb
    · rw [List.mem_singleton.mp hb]
      exact hc

/-- **Cutting at more delimiters**: the tokens of a word are tokens of the text. -/
theorem mem_strtokFrom_of_mem {fine : Bytes} (hsub : ∀ c ∈ delims, c ∈ fine) {token s w t : Bytes}
    (hw : w ∈ strtokFrom delims token s) (ht : t ∈ strtok fine w) :
    t ∈ strtok fine (token ++ s) := by
  fun_induction strtokFrom delims token s with
  | case1 => exact absurd hw List.not_mem_nil
  | case2 token hne =>
    rw [List.mem_singleton.mp hw] at ht
    rwa [List.append_nil]
  | case3 c s hc ih =>
    have hcut := strtokFrom_append_cons (hsub c hc) [] [] s
    rw [strtok, hcut]
    exact List.mem_append_right _ (ih hw)
  | case4 token c s hc hne ih =>
    rw [strtok, strtokFrom_append_cons (hsub c hc)]
    rcases List.mem_cons.mp hw with rfl | hw
    · exact List.mem_append_left _ ht
    · exact List.mem_append_right _ (ih hw)
  | case5 token c s hc ih =>
    have hlater := ih hw
    rwa [List.append_assoc, List.singleton_append] at hlater

end

/-! ## Letters and digits -/

/-- The letters and digits of a word in lower case, as many as `normalize_term` keeps. -/
def lettersAndDigits (s : Bytes) : Bytes := ((s.filter isalnum).map tolower).take maxTermLen

theorem normalizeLoop_eq (room : ℕ) (s : Bytes) :
    normalizeLoop room s = ((s.filter isalnum).map tolower).take room := by
  fun_induction normalizeLoop room s with
  | case1 room => rw [List.filter_nil, List.map_nil, List.take_nil]
  | case2 c s => rw [List.take_zero]
  | case3 room c s hc ih =>
    rw [ih, List.filter_cons_of_pos hc, List.map_cons, List.take_succ_cons]
  | case4 room c s hc ih => rw [ih, List.filter_cons_of_neg hc]

theorem bytes_normalizeTerm (s : Bytes) : (normalizeTerm s).bytes = lettersAndDigits s :=
  normalizeLoop_eq maxTermLen s

/-- Something is left of a word with a letter or a digit. -/
theorem lettersAndDigits_ne_nil {s : Bytes} (h : s.any isalnum = true) : lettersAndDigits s ≠ [] := by
  obtain ⟨c, hc, halnum⟩ := List.any_eq_true.mp h
  have hmem : c ∈ s.filter isalnum := List.mem_filter.mpr ⟨hc, halnum⟩
  obtain ⟨d, t, hfilter⟩ := List.exists_cons_of_ne_nil (List.ne_nil_of_mem hmem)
  rw [lettersAndDigits, hfilter, List.map_cons, maxTermLen, List.take_succ_cons]
  exact List.cons_ne_nil _ _

/-- No delimiter stands between two letters or digits of the word. -/
def Unbroken (w : Bytes) : Prop :=
  ∃ before core after, w = before ++ (core ++ after) ∧ (∀ c ∈ core, c ∉ messageDelimiters) ∧
    (∀ c ∈ before, isalnum c = false) ∧ ∀ c ∈ after, isalnum c = false

theorem filter_isalnum_eq_nil {s : Bytes} (h : ∀ c ∈ s, isalnum c = false) :
    s.filter isalnum = [] :=
  List.filter_eq_nil_iff.mpr fun c hc => Bool.not_eq_true _ ▸ h c hc

/-- What stands before the letters and digits leaves a token without any. -/
theorem exists_strtokFrom_append {before token : Bytes}
    (hbefore : ∀ c ∈ before, isalnum c = false) (htoken : ∀ c ∈ token, isalnum c = false)
    (s : Bytes) :
    ∃ tokens token', (∀ c ∈ token', isalnum c = false) ∧
      strtokFrom messageDelimiters token (before ++ s) =
        tokens ++ strtokFrom messageDelimiters token' s := by
  induction before generalizing token with
  | nil => exact ⟨[], token, htoken, rfl⟩
  | cons c before ih =>
    rw [List.forall_mem_cons] at hbefore
    rw [List.cons_append, strtokFrom]
    split
    · have hnil : ∀ c ∈ ([] : Bytes), isalnum c = false := fun c hc => absurd hc List.not_mem_nil
      obtain ⟨tokens, token', htoken', heq⟩ := ih hbefore.2 hnil
      split
      · exact ⟨tokens, token', htoken', heq⟩
      · exact ⟨token :: tokens, token', htoken', by rw [heq, List.cons_append]⟩
    · refine ih hbefore.2 fun b hb => ?_
      rcases List.mem_append.mp hb with hb | hb
      · exact htoken b hb
      · rw [List.mem_singleton.mp hb]
        exact hbefore.1

/-- What stands behind the letters and digits adds none to their token. -/
theorem exists_mem_strtokFrom {after token : Bytes} (hafter : ∀ c ∈ after, isalnum c = false)
    (htoken : token ≠ []) :
    ∃ tail, (∀ c ∈ tail, isalnum c = false) ∧
      token ++ tail ∈ strtokFrom messageDelimiters token after := by
  induction after generalizing token with
  | nil =>
    rw [strtokFrom, if_neg htoken]
    exact ⟨[], hafter, by rw [List.append_nil]; exact List.mem_singleton_self token⟩
  | cons c after ih =>
    rw [List.forall_mem_cons] at hafter
    rw [strtokFrom]
    split
    · exact ⟨[], fun c hc => absurd hc List.not_mem_nil, by
        rw [List.append_nil]; exact List.mem_cons_self⟩
    · obtain ⟨tail, htail, hmem⟩ := ih hafter.2 (List.append_ne_nil_of_left_ne_nil htoken [c])
      refine ⟨c :: tail, ?_, ?_⟩
      · rw [List.forall_mem_cons]
        exact ⟨hafter.1, htail⟩
      · rwa [List.append_assoc, List.singleton_append] at hmem

/-- **An unbroken word** has a piece with all its letters and digits. -/
theorem Unbroken.exists_mem_strtok {w : Bytes} (h : Unbroken w) (hw : w.any isalnum = true) :
    ∃ token ∈ strtok messageDelimiters w, lettersAndDigits token = lettersAndDigits w := by
  obtain ⟨before, core, after, rfl, hcore, hbefore, hafter⟩ := h
  have hne : core ≠ [] := by
    rintro rfl
    obtain ⟨c, hc, halnum⟩ := List.any_eq_true.mp hw
    rcases List.mem_append.mp hc with hc | hc
    · rw [hbefore c hc] at halnum
      cases halnum
    · rw [hafter c hc] at halnum
      cases halnum
  have hnil : ∀ c ∈ ([] : Bytes), isalnum c = false := fun c hc => absurd hc List.not_mem_nil
  obtain ⟨tokens, token', htoken', heq⟩ := exists_strtokFrom_append hbefore hnil (core ++ after)
  obtain ⟨tail, htail, hmem⟩ := exists_mem_strtokFrom hafter
    (List.append_ne_nil_of_right_ne_nil token' hne)
  refine ⟨token' ++ core ++ tail, ?_, ?_⟩
  · rw [strtok, heq, strtokFrom_append_of_notMem hcore]
    exact List.mem_append_right _ hmem
  · rw [lettersAndDigits, lettersAndDigits, List.filter_append, List.filter_append,
      List.filter_append, List.filter_append, filter_isalnum_eq_nil htoken',
      filter_isalnum_eq_nil htail, filter_isalnum_eq_nil hbefore, filter_isalnum_eq_nil hafter]
    simp

/-! ## Queries of one word -/

theorem mem_messageTerms_iff {term message : Bytes} :
    term ∈ messageTerms message ↔
      term ≠ [] ∧ ∃ token ∈ strtok messageDelimiters message, lettersAndDigits token = term := by
  rw [messageTerms, cleanTerms, List.mem_filter, List.mem_map, decide_eq_true_eq, and_comm]
  simp only [bytes_normalizeTerm]

/-- A query of one word has its letters and digits as its only term. -/
theorem queryTerms_of_mem_strtok {message w : Bytes} (hw : w ∈ strtok queryDelimiters message)
    (hlen : w.length ≤ 255) : queryTerms w = [lettersAndDigits w] := by
  obtain ⟨hne, hplain⟩ := of_mem_strtokFrom (fun c hc => absurd hc List.not_mem_nil) hw
  rw [queryTerms, List.take_of_length_le hlen, strtok_eq_singleton hne hplain, List.map_singleton,
    bytes_normalizeTerm]

/-- In both modes a query of one term asks for that term. -/
theorem matches_iff_of_queryTerms {isAndMode : Bool} {queryStr message term : Bytes}
    (h : queryTerms queryStr = [term]) :
    Matches isAndMode queryStr message ↔ term ∈ messageTerms message := by
  rw [Matches, h]
  cases isAndMode <;> simp

/-- With room for all entries a query returns the matching ones. -/
theorem mem_storeQueryByIndex_iff {store : LogStore} {queryStr : Bytes} {isAndMode : Bool} {i : ℕ}
    {entry : LogEntry} (hentry : store.entries[i]? = some entry) :
    i ∈ storeQueryByIndex (storeBuildIndex store) queryStr isAndMode store.count ↔
      Matches isAndMode queryStr entry.message.bytes := by
  have hlen : (naiveScan store queryStr isAndMode).length ≤ store.count := by
    rw [naiveScan]
    exact (List.length_filter_le _ _).trans_eq List.length_range
  have hlt : i < store.count := (List.getElem?_eq_some_iff.mp hentry).1
  rw [storeQueryByIndex_of_index rfl, Int.toNat_natCast, List.take_of_length_le hlen, naiveScan,
    List.mem_filter, hentry, Option.any_some, decide_eq_true_eq, List.mem_range]
  exact and_iff_right hlt

/-- **A word of a message as a query.**  It returns the message, in both modes, exactly when a
piece of the message has the letters and digits of the word, as far as they are kept; and so it
does when no delimiter stands between two letters or digits of the word. -/
theorem word_finds_message_iff (store : LogStore) (isAndMode : Bool) {i : ℕ} {entry : LogEntry}
    (hentry : store.entries[i]? = some entry) {w : Bytes}
    (hw : w ∈ strtok queryDelimiters entry.message.bytes) (halnum : w.any isalnum = true)
    (hlen : w.length ≤ 255) :
    (i ∈ storeQueryByIndex (storeBuildIndex store) w isAndMode store.count ↔
      ∃ token ∈ strtok messageDelimiters entry.message.bytes,
        lettersAndDigits token = lettersAndDigits w) ∧
    (Unbroken w → i ∈ storeQueryByIndex (storeBuildIndex store) w isAndMode store.count) := by
  have hfinds : i ∈ storeQueryByIndex (storeBuildIndex store) w isAndMode store.count ↔
      ∃ token ∈ strtok messageDelimiters entry.message.bytes,
        lettersAndDigits token = lettersAndDigits w := by
    rw [mem_storeQueryByIndex_iff hentry,
      matches_iff_of_queryTerms (queryTerms_of_mem_strtok hw hlen), mem_messageTerms_iff]
    exact and_iff_right (lettersAndDigits_ne_nil halnum)
  refine ⟨hfinds, fun hunbroken => hfinds.mpr ?_⟩
  obtain ⟨token, htoken, hsame⟩ := hunbroken.exists_mem_strtok halnum
  have hsub : ∀ c ∈ queryDelimiters, c ∈ messageDelimiters := by decide +kernel
  exact ⟨token, mem_strtokFrom_of_mem hsub hw htoken, hsame⟩

/-- A store with one of the messages of the sample logs. -/
def lookupStore : LogStore :=
  storeOf [{ LogEntry.zero with message := CStr.ofBytes (ascii "Calling node-02 for user lookup") }]

theorem word_finds_message_iff_lookup :
    0 ∈ storeQueryByIndex (storeBuildIndex lookupStore) (ascii "lookup") true lookupStore.count :=
  (word_finds_message_iff lookupStore true (show lookupStore.entries[0]? = some _ by rfl)
    (by decide +kernel) (by decide) (by decide)).2
    ⟨[], ascii "lookup", [], rfl, by decide +kernel, fun c hc => absurd hc List.not_mem_nil,
      fun c hc => absurd hc List.not_mem_nil⟩

/-- The word `node-02` of this message does not find it. -/
theorem lookupStore_node :
    ascii "node-02" ∈ strtok queryDelimiters (ascii "Calling node-02 for user lookup") ∧
      lookupStore.entries.map (·.message.bytes) = [ascii "Calling node-02 for user lookup"] ∧
      storeQueryByIndex (storeBuildIndex lookupStore) (ascii "node-02") true
        lookupStore.count = [] ∧
      storeQueryByIndex (storeBuildIndex lookupStore) (ascii "node-02") false
        lookupStore.count = [] := by
  decide +kernel

end LogAgg
