import LogAgg.LogEntry.TrailingBlank
import LogAgg.Store.Dedup
import LogAgg.Store.Load

/-!
# The lines that a load parses

`store_load_file` has two loops over lines.  Text in memory is split at its line breaks,
whatever the length of a line; a plain file is read through a window of
`LOGAGG_MAX_ENTRY_SIZE` bytes, which cuts longer lines into pieces.

Both loops feed the same parser, so all that matters of a loop is the list of lines that it
parses (`loadText_eq`, `loadPlain_eq`).  As long as no parse leaves its line, what stands in
memory behind the lines does not matter (`StaysInside`).  A carriage return in front of the
line break makes no difference to the parser, and on texts without longer lines the two lists
hold the same entries (`parsedEntries_fgetsLines`).
-/

namespace LogAgg

open Ascii

/-! ## Lines -/

/-- The lines of a text, without their line breaks. -/
def textLines : Bytes → List Bytes
  | [] => []
  | c :: s =>
    if c = newline then [] :: textLines s
    else
      match textLines s with
      | [] => [[c]]
      | line :: lines => (c :: line) :: lines

/-- The line without a carriage return at its end. -/
def cutReturn (line : Bytes) : Bytes :=
  if line.getLast? = some carriageReturn then line.dropLast else line

/-- What the window of the plain path shows, one buffer after the other. -/
def fgetsLines : Bytes → List Bytes
  | [] => []
  | c :: s =>
    have _ : (fgets (logaggMaxEntrySize - 1) (c :: s)).2.length < (c :: s).length :=
      length_fgets_lt (logaggMaxEntrySize - 2) c s
    cutNewline (fgets (logaggMaxEntrySize - 1) (c :: s)).1 ::
      fgetsLines (fgets (logaggMaxEntrySize - 1) (c :: s)).2
  termination_by content => content.length
  decreasing_by assumption

/-- The entries among some lines. -/
def parsedEntries (lines : List Bytes) : List LogEntry :=
  lines.filterMap fun line => (logEntryFromJson line).toOption

/-- A text is empty, one line, or a line with its break in front of a text. -/
theorem text_cases (text : Bytes) : text = [] ∨ (text ≠ [] ∧ newline ∉ text) ∨
    ∃ line rest, newline ∉ line ∧ text = line ++ newline :: rest := by
  induction text with
  | nil => exact Or.inl rfl
  | cons c s ih =>
    right
    by_cases hc : c = newline
    · subst hc
      exact Or.inr ⟨[], s, List.not_mem_nil, rfl⟩
    · have hnot : ∀ line : Bytes, newline ∉ line → newline ∉ c :: line := by
        intro line hline hmem
        rcases List.mem_cons.mp hmem with h | h
        · exact hc h.symm
        · exact hline h
      rcases ih with rfl | ⟨-, hs⟩ | ⟨line, rest, hline, rfl⟩
      · exact Or.inl ⟨List.cons_ne_nil c [], hnot [] List.not_mem_nil⟩
      · exact Or.inl ⟨List.cons_ne_nil c s, hnot s hs⟩
      · exact Or.inr ⟨c :: line, rest, hnot line hline, rfl⟩

theorem textLines_line {line : Bytes} (hne : line ≠ []) (hline : newline ∉ line) :
    textLines line = [line] := by
  induction line with
  | nil => exact absurd rfl hne
  | cons c s ih =>
    rw [List.mem_cons, not_or] at hline
    rw [textLines, if_neg (Ne.symm hline.1)]
    cases s with
    | nil => rfl
    | cons d s => rw [ih (List.cons_ne_nil d s) hline.2]

theorem textLines_append {line : Bytes} (hline : newline ∉ line) (rest : Bytes) :
    textLines (line ++ newline :: rest) = line :: textLines rest := by
  induction line with
  | nil => rw [List.nil_append, textLines, if_pos rfl]
  | cons c s ih =>
    rw [List.mem_cons, not_or] at hline
    rw [List.cons_append, textLines, if_neg (Ne.symm hline.1), ih hline.2]

theorem parsedEntries_append (lines lines' : List Bytes) :
    parsedEntries (lines ++ lines') = parsedEntries lines ++ parsedEntries lines' :=
  List.filterMap_append

theorem parsedEntries_cons (line : Bytes) (lines : List Bytes) :
    parsedEntries (line :: lines) = parsedEntries [line] ++ parsedEntries lines :=
  parsedEntries_append [line] lines

/-- A carriage return in front of the line break does not matter. -/
theorem parsedEntries_append_return (line : Bytes) :
    parsedEntries [line ++ [carriageReturn]] = parsedEntries [line] := by
  have hblank : (logEntryFromJson (line ++ [carriageReturn])).toOption =
      (logEntryFromJson line).toOption := logEntryFromJson_append_blank rfl line
  unfold parsedEntries
  rw [List.filterMap_cons, List.filterMap_cons, hblank]

theorem parsedEntries_return : parsedEntries [[carriageReturn]] = [] :=
  parsedEntries_append_return []

/-- A line that ends in a carriage return. -/
theorem eq_cutReturn_append {line : Bytes} (h : line.getLast? = some carriageReturn) :
    line = cutReturn line ++ [carriageReturn] := by
  rw [cutReturn, if_pos h, List.dropLast_append_getLast? carriageReturn h]

theorem parsedEntries_cutReturn (line : Bytes) :
    parsedEntries [cutReturn line] = parsedEntries [line] := by
  by_cases h : line.getLast? = some carriageReturn
  · have heq := parsedEntries_append_return (cutReturn line)
    rw [← eq_cutReturn_append h] at heq
    exact heq.symm
  · rw [cutReturn, if_neg h]

theorem parsedEntries_map_cutReturn (lines : List Bytes) :
    parsedEntries (lines.map cutReturn) = parsedEntries lines := by
  induction lines with
  | nil => rfl
  | cons line lines ih =>
    rw [List.map_cons, parsedEntries_cons, ih, parsedEntries_cutReturn, ← parsedEntries_cons]

/-! ## What the two loops load -/

/-- Reading lines one after the other, and appending what is accepted. -/
def loadLines (overrun : ℕ → Option LogEntry) : ℕ → ℤ × LogStore → List Bytes → ℤ × LogStore
  | _, state, [] => state
  | n, state, line :: lines => loadLines overrun (n + 1) (loadEntry (overrun n) state line) lines

/-- The entries that are read from lines, of which the first one is the `n`-th of its file. -/
def readLines (overrun : ℕ → Option LogEntry) : ℕ → List Bytes → List LogEntry
  | _, [] => []
  | n, line :: lines => (readLine (overrun n) line).toList ++ readLines overrun (n + 1) lines

/-- No parse steps over the end of its line.  A string that breaks off behind a backslash
does: C then goes on in whatever the memory holds behind the line. -/
def StaysInside (lines : List Bytes) : Prop :=
  ∀ line ∈ lines, logEntryFromJson line ≠ .error .pastEnd

instance (lines : List Bytes) : Decidable (StaysInside lines) :=
  inferInstanceAs (Decidable (∀ line ∈ lines, logEntryFromJson line ≠ .error .pastEnd))

theorem readLine_of_ne_pastEnd (overrun : Option LogEntry) {line : Bytes}
    (h : logEntryFromJson line ≠ .error .pastEnd) :
    readLine overrun line = (logEntryFromJson line).toOption := by
  rw [readLine]
  split
  · rename_i entry hparse
    rw [hparse]
    rfl
  · rename_i hparse
    exact absurd hparse h
  · rename_i hparse
    rw [hparse]
    rfl

/-- **Lines that are not left are read as they stand**, whatever is in memory behind them. -/
theorem readLines_eq_parsedEntries {lines : List Bytes} (h : StaysInside lines)
    (overrun : ℕ → Option LogEntry) (n : ℕ) :
    readLines overrun n lines = parsedEntries lines := by
  induction lines generalizing n with
  | nil => rfl
  | cons line lines ih =>
    have hfirst := readLine_of_ne_pastEnd (overrun n) (h line List.mem_cons_self)
    rw [readLines, ih (fun l hl => h l (List.mem_cons_of_mem _ hl)), hfirst]
    unfold parsedEntries
    rw [List.filterMap_cons]
    cases (logEntryFromJson line).toOption with
    | none => rfl
    | some entry => rfl

/-- What reading lines comes to: every entry that is read is counted and appended. -/
theorem loadLines_eq (overrun : ℕ → Option LogEntry) (n : ℕ) (state : ℤ × LogStore)
    (lines : List Bytes) :
    loadLines overrun n state lines =
      (state.1 + (readLines overrun n lines).length,
        storeAppendAll state.2 (readLines overrun n lines)) := by
  induction lines generalizing n state with
  | nil => exact Prod.ext (add_zero state.1).symm rfl
  | cons line lines ih =>
    rw [loadLines, readLines, ih]
    cases hread : readLine (overrun n) line with
    | none =>
      rw [loadEntry_of_none state hread]
      rfl
    | some entry =>
      rw [loadEntry_of_some state hread, Option.toList_some, List.singleton_append,
        List.length_cons]
      refine Prod.ext ?_ rfl
      push_cast
      ring

/-- An empty line is not parsed, and would not be an entry. -/
theorem loadEntry_nil (overrun : Option LogEntry) (state : ℤ × LogStore) :
    loadEntry overrun state [] = state := rfl

theorem loadTextLine_eq (overrun : Option LogEntry) (state : ℤ × LogStore) (line : Bytes) :
    loadTextLine overrun state line = loadEntry overrun state (cutReturn line) := by
  show (if cutReturn line = [] then state else loadEntry overrun state (cutReturn line)) = _
  split
  · rename_i h
    rw [h, loadEntry_nil]
  · rfl

/-- The loop over text in memory parses its lines. -/
theorem loadText_eq (overrun : ℕ → Option LogEntry) (n : ℕ) (state : ℤ × LogStore)
    (text : Bytes) :
    loadText overrun n state text = loadLines overrun n state ((textLines text).map cutReturn) := by
  induction hlen : text.length using Nat.strong_induction_on generalizing n state text with
  | _ len ih =>
    subst hlen
    rcases text_cases text with rfl | ⟨hne, hline⟩ | ⟨line, rest, hline, rfl⟩
    · rw [loadText]
      rfl
    · have hvisible : ∀ c ∈ text, decide (c ≠ newline) = true := by
        intro c hc
        exact decide_eq_true fun h => hline (h ▸ hc)
      rw [textLines_line hne hline]
      cases text with
      | nil => exact absurd rfl hne
      | cons c s =>
        rw [loadText]
        split
        · rw [List.takeWhile_eq_self_iff.mpr hvisible]
          exact loadTextLine_eq (overrun n) state (c :: s)
        · rename_i heq
          rw [List.dropWhile_eq_nil_iff.mpr hvisible] at heq
          exact absurd heq (by simp)
    · have hvisible : ∀ c ∈ line, decide (c ≠ newline) = true := by
        intro c hc
        exact decide_eq_true fun h => hline (h ▸ hc)
      have htake : (line ++ newline :: rest).takeWhile (fun c => decide (c ≠ newline)) = line := by
        rw [List.takeWhile_append_of_pos hvisible, List.takeWhile_cons_of_neg (by simp),
          List.append_nil]
      have hdrop : (line ++ newline :: rest).dropWhile (fun c => decide (c ≠ newline)) =
          newline :: rest := by
        rw [List.dropWhile_append_of_pos hvisible, List.dropWhile_cons_of_neg (by simp)]
      have hstep : loadText overrun n state (line ++ newline :: rest) =
          loadText overrun (n + 1) (loadTextLine (overrun n) state line) rest := by
        cases htext : line ++ newline :: rest with
        | nil => exact absurd htext (by simp)
        | cons c s =>
          rw [htext] at htake hdrop
          rw [loadText]
          split
          · rename_i heq
            rw [hdrop] at heq
            exact absurd heq (by simp)
          · rename_i heq
            rw [hdrop] at heq
            rw [htake, (List.cons.inj heq).2]
      rw [hstep, textLines_append hline, loadTextLine_eq, List.map_cons, loadLines]
      refine ih rest.length ?_ _ _ rest rfl
      rw [List.length_append, List.length_cons]
      omega

/-- The loop over a plain file parses what the window shows. -/
theorem loadPlain_eq (overrun : ℕ → Option LogEntry) (n : ℕ) (state : ℤ × LogStore)
    {content : Bytes} (hnul : (0 : UInt8) ∉ content) :
    loadPlain overrun n state content = loadLines overrun n state (fgetsLines content) := by
  induction hlen : content.length using Nat.strong_induction_on generalizing n state content with
  | _ len ih =>
    subst hlen
    cases content with
    | nil =>
      rw [loadPlain, fgetsLines]
      rfl
    | cons c s =>
      have hsubset := subset_fgets (logaggMaxEntrySize - 1) (c :: s)
      have hbuffer : loadPlainLine (overrun n) state (fgets (logaggMaxEntrySize - 1) (c :: s)).1 =
          loadEntry (overrun n) state
            (cutNewline (fgets (logaggMaxEntrySize - 1) (c :: s)).1) := by
        rw [loadPlainLine, cstring_eq_self fun h => hnul (hsubset.1 0 h)]
        split
        · rename_i hempty
          rcases hempty with hempty | hempty
          · rw [hempty]
            rfl
          · rw [fgets_eq_newline hempty]
            rfl
        · rfl
      rw [loadPlain, fgetsLines, loadLines, hbuffer]
      exact ih _ (length_fgets_lt (logaggMaxEntrySize - 2) c s) _ _
        (fun h => hnul (hsubset.2 0 h)) rfl

/-! ## Lines that fit the window -/

/-- The window shows the buffers of `fgets`, without their line breaks. -/
theorem fgetsLines_eq (content : Bytes) :
    fgetsLines content = (buffers (logaggMaxEntrySize - 2) content).map cutNewline := by
  fun_induction fgetsLines content with
  | case1 => rw [buffers_nil, List.map_nil]
  | case2 c s hlt ih =>
    rw [ih, buffers_of_ne_nil (List.cons_ne_nil c s), List.map_cons]
    rfl

/-- A line that fits the window, at the end of the file. -/
theorem fgetsLines_line {line : Bytes} (hne : line ≠ []) (hline : newline ∉ line)
    (hlen : line.length < logaggMaxEntrySize) : fgetsLines line = [line] := by
  have hlen' : line.length ≤ logaggMaxEntrySize - 2 + 1 := Nat.le_of_lt_succ hlen
  rw [fgetsLines_eq, buffers_text hne hline hlen', List.map_singleton, cutNewline_of_notMem hline]

/-- A line that fills the window. -/
theorem fgetsLines_full {line : Bytes} (hline : newline ∉ line)
    (hlen : line.length = logaggMaxEntrySize - 1) (rest : Bytes) :
    fgetsLines (line ++ rest) = line :: fgetsLines rest := by
  have hlen' : line.length = logaggMaxEntrySize - 2 + 1 := hlen
  rw [fgetsLines_eq, buffers_full hline hlen', List.map_cons, cutNewline_of_notMem hline,
    ← fgetsLines_eq]

/-- A line that fits the window, in front of a text: a line that fills the window leaves
its line break for the next buffer. -/
theorem parsedEntries_fgetsLines_append {line : Bytes} (hline : newline ∉ line)
    (hlen : line.length < logaggMaxEntrySize) (rest : Bytes) :
    parsedEntries (fgetsLines (line ++ newline :: rest)) =
      parsedEntries [line] ++ parsedEntries (fgetsLines rest) := by
  by_cases hfull : line.length = logaggMaxEntrySize - 1
  · have hbreak : fgetsLines (newline :: rest) = [] :: fgetsLines rest := by
      rw [fgetsLines_eq, buffers_newline, List.map_cons, ← fgetsLines_eq]
      rfl
    rw [fgetsLines_full hline hfull, hbreak, parsedEntries_cons, parsedEntries_cons []]
    rfl
  · rw [fgetsLines_eq, buffers_line hline (by omega), List.map_cons, cutNewline_append,
      ← fgetsLines_eq, parsedEntries_cons]

/-- A line fits the window, or it is its carriage return that does not. -/
theorem length_lt_or_eq_append {line : Bytes} (h : (cutReturn line).length < logaggMaxEntrySize) :
    line.length < logaggMaxEntrySize ∨
      line = cutReturn line ++ [carriageReturn] ∧
        (cutReturn line).length = logaggMaxEntrySize - 1 := by
  by_cases hlast : line.getLast? = some carriageReturn
  · have heq := eq_cutReturn_append hlast
    have hlen : line.length = (cutReturn line).length + 1 := by
      have := congrArg List.length heq
      rwa [List.length_append, List.length_singleton] at this
    by_cases hfits : line.length < logaggMaxEntrySize
    · exact Or.inl hfits
    · exact Or.inr ⟨heq, by omega⟩
  · rw [cutReturn, if_neg hlast] at h
    exact Or.inl h

/-- **Without long lines the window shows the lines.** -/
theorem parsedEntries_fgetsLines {text : Bytes}
    (hlen : ∀ line ∈ textLines text, (cutReturn line).length < logaggMaxEntrySize) :
    parsedEntries (fgetsLines text) = parsedEntries (textLines text) := by
  induction hsize : text.length using Nat.strong_induction_on generalizing text with
  | _ size ih =>
    subst hsize
    have hreturn : newline ∉ [carriageReturn] := by decide
    rcases text_cases text with rfl | ⟨hne, hline⟩ | ⟨line, rest, hline, rfl⟩
    · rw [fgetsLines]
      rfl
    · rw [textLines_line hne hline] at hlen ⊢
      rcases length_lt_or_eq_append (hlen text List.mem_cons_self) with hfits | ⟨heq, hfull⟩
      · rw [fgetsLines_line hne hline hfits]
      · have hcut : newline ∉ cutReturn text := by
          rw [heq, List.mem_append, not_or] at hline
          exact hline.1
        rw [heq, fgetsLines_full hcut hfull, fgetsLines_line (by simp) hreturn (by decide),
          parsedEntries_cons, parsedEntries_return, List.append_nil, parsedEntries_append_return]
    · rw [textLines_append hline] at hlen ⊢
      have hrest : parsedEntries (fgetsLines rest) = parsedEntries (textLines rest) := by
        refine ih rest.length ?_ (fun l hl => hlen l (List.mem_cons_of_mem _ hl)) rfl
        rw [List.length_append, List.length_cons]
        omega
      rcases length_lt_or_eq_append (hlen line List.mem_cons_self) with hfits | ⟨heq, hfull⟩
      · rw [parsedEntries_fgetsLines_append hline hfits, hrest, ← parsedEntries_cons]
      · have hcut : newline ∉ cutReturn line := by
          rw [heq, List.mem_append, not_or] at hline
          exact hline.1
        have htext : line ++ newline :: rest =
            cutReturn line ++ carriageReturn :: ([] ++ newline :: rest) := by
          rw [List.nil_append]
          conv_lhs => rw [heq]
          rw [List.append_assoc, List.singleton_append]
        have hblank := parsedEntries_fgetsLines_append hreturn (by decide) rest
        rw [List.singleton_append, parsedEntries_return, List.nil_append] at hblank
        rw [htext, List.nil_append, fgetsLines_full hcut hfull, parsedEntries_cons, hblank, hrest,
          parsedEntries_cutReturn, ← parsedEntries_cons]

end LogAgg
