import LogAgg.CString.Stdio
import LogAgg.LogEntry.RoundTrip
import LogAgg.Store.Basic

/-!
# Loading a file

`store_load_file` first tries to read the file as LZ4 data (`storeLoadCompressed`) and
falls back on the lines of a plain file, which it reads through a window of
`LOGAGG_MAX_ENTRY_SIZE` bytes.  Reads and allocations succeed here; the decompressor of
the LZ4 library is a parameter, and so is what a parse finds in memory when it steps over the
end of its line (`readLine`).

A file of written entries never passes for LZ4 data, since its first four bytes read as a
size beyond the limit (`storeLoadCompressed_entryText`).  A line of it that fills the
window leaves its line break behind, which the next turn of the loop skips as an empty
line (`loadPlain_line`).  So a written file is loaded entry by entry
(`storeLoadFile_written`).
-/

namespace LogAgg

open Ascii

/-! ## The header test -/

/-- `fread` of a `uint32_t`, least significant byte first. -/
def readUint32 : Bytes → Option (ℕ × Bytes)
  | a :: b :: c :: d :: s =>
    some (a.toNat + 256 * b.toNat + 65536 * c.toNat + 16777216 * d.toNat, s)
  | _ => none

/-- The largest size that is taken for the size of LZ4 data: 500 MB. -/
def maxBlockSize : ℕ := 524288000

/-- `store_load_compressed` on the content of a file: the decompressed buffer, unless the
file is too short, its header is not that of LZ4 data, or decompression fails.
`decompressSafe` stands for `LZ4_decompress_safe`, with the compressed bytes and the size
of the target, and gives the target afterwards. -/
def storeLoadCompressed (decompressSafe : Bytes → ℕ → Option Bytes) (content : Bytes) :
    Option Bytes := do
  let (rawSize, s) ← readUint32 content
  let (compressedSize, s) ← readUint32 s
  if maxBlockSize < rawSize ∨ maxBlockSize < compressedSize ∨ compressedSize = 0 then none
  else if s.length < compressedSize then none
  else decompressSafe (s.take compressedSize) rawSize

/-! ## Lines -/

/-- What `log_entry_from_json` makes of a line that stands in a buffer.  A parse that steps over
the terminator of the line goes on in the bytes behind it: the next line of the text, what an
earlier line has left in the buffer, or memory behind the buffer.  `overrun` is what it makes of
them, if it accepts them. -/
def readLine (overrun : Option LogEntry) (line : Bytes) : Option LogEntry :=
  match logEntryFromJson line with
  | .ok entry => some entry
  | .error .pastEnd => overrun
  | .error .reject => none

/-- Parsing a line and appending the entry, with the number of entries loaded so far, which is
an `int` and exact below `2 ^ 31`; a line that is not parsed is skipped. -/
def loadEntry (overrun : Option LogEntry) (state : ℤ × LogStore) (line : Bytes) : ℤ × LogStore :=
  match readLine overrun line with
  | none => state
  | some entry =>
    let (ret, store) := storeAppend .ok state.2 entry
    if ret = 0 then (state.1 + 1, store) else (state.1, store)

/-- A line of decompressed text: a carriage return at its end is cut off, and an empty
line is skipped. -/
def loadTextLine (overrun : Option LogEntry) (state : ℤ × LogStore) (line : Bytes) :
    ℤ × LogStore :=
  let line := if line.getLast? = some carriageReturn then line.dropLast else line
  if line = [] then state else loadEntry overrun state line

/-- What is behind the end of a line is shorter. -/
theorem length_lt_of_dropWhile {c d : UInt8} {s rest : Bytes}
    (h : (c :: s).dropWhile (· ≠ newline) = d :: rest) : rest.length < (c :: s).length := by
  have hle := (List.dropWhile_suffix (· ≠ newline) (l := c :: s)).length_le
  rw [h, List.length_cons] at hle
  omega

/-- The loop over the lines of decompressed text, from the `n`-th one on.  What a parse finds
behind its line is another thing in every turn. -/
def loadText (overrun : ℕ → Option LogEntry) (n : ℕ) (state : ℤ × LogStore) : Bytes → ℤ × LogStore
  | [] => state
  | c :: s =>
    let state := loadTextLine (overrun n) state ((c :: s).takeWhile (· ≠ newline))
    match h : (c :: s).dropWhile (· ≠ newline) with
    | [] => state
    | _ :: rest =>
      have _ : rest.length < (c :: s).length := length_lt_of_dropWhile h
      loadText overrun (n + 1) state rest
  termination_by text => text.length
  decreasing_by assumption

/-- What the loop over a plain file does with the buffer: an empty line is skipped, and a
line break at the end is cut off. -/
def loadPlainLine (overrun : Option LogEntry) (state : ℤ × LogStore) (buffer : Bytes) :
    ℤ × LogStore :=
  let line := cstring buffer
  if line = [] ∨ line.head? = some newline then state
  else loadEntry overrun state (if line.getLast? = some newline then line.dropLast else line)

/-- The loop over a plain file, from the `n`-th buffer on. -/
def loadPlain (overrun : ℕ → Option LogEntry) (n : ℕ) (state : ℤ × LogStore) :
    Bytes → ℤ × LogStore
  | [] => state
  | c :: s =>
    have _ : (fgets (logaggMaxEntrySize - 1) (c :: s)).2.length < (c :: s).length :=
      length_fgets_lt (logaggMaxEntrySize - 2) c s
    loadPlain overrun (n + 1)
      (loadPlainLine (overrun n) state (fgets (logaggMaxEntrySize - 1) (c :: s)).1)
      (fgets (logaggMaxEntrySize - 1) (c :: s)).2
  termination_by content => content.length
  decreasing_by assumption

/-- `store_load_file`: the number of entries loaded and the store afterwards.  A file that
cannot be opened (`none`) loads nothing. -/
def storeLoadFile (decompressSafe : Bytes → ℕ → Option Bytes) (overrun : ℕ → Option LogEntry)
    (store : LogStore) (file : Option Bytes) : ℤ × LogStore :=
  match file with
  | none => (0, store)
  | some content =>
    match storeLoadCompressed decompressSafe content with
    | some rawBuf => loadText overrun 0 (0, store) (cstring rawBuf)
    | none => loadPlain overrun 0 (0, store) content

/-! ## Loading what was written -/

/-- A text whose header reads as a size beyond the limit is no LZ4 data. -/
theorem storeLoadCompressed_entryText (decompressSafe : Bytes → ℕ → Option Bytes)
    (entry : LogEntry) (rest : Bytes) :
    storeLoadCompressed decompressSafe (entryText entry ++ rest) = none := by
  obtain ⟨tail, htail⟩ : ∃ tail, entryText entry ++ rest =
      lbrace :: quote :: 110 :: 111 :: 100 :: 101 :: 95 :: 105 :: tail := ⟨_, rfl⟩
  rw [htail]
  rfl

/-- Printable text has no NUL and no line break. -/
theorem notMem_of_all_isprint {s : Bytes} {c : UInt8} (hs : s.all isprint = true)
    (hc : isprint c = false) : c ∉ s := by
  intro h
  rw [List.all_eq_true.mp hs c h] at hc
  exact Bool.noConfusion hc

theorem head?_ne_newline {line : Bytes} (hprint : line.all isprint = true) :
    line.head? ≠ some newline := fun h =>
  notMem_of_all_isprint hprint rfl (List.mem_of_head? h)

/-- A line is loaded with its line break. -/
theorem loadPlainLine_append_newline (overrun : Option LogEntry) (state : ℤ × LogStore)
    {line : Bytes} (hne : line ≠ []) (hprint : line.all isprint = true) :
    loadPlainLine overrun state (line ++ [newline]) = loadEntry overrun state line := by
  have hnul : (0 : UInt8) ∉ line ++ [newline] := by
    rw [List.mem_append, not_or]
    exact ⟨notMem_of_all_isprint hprint rfl, by decide⟩
  have hhead : (line ++ [newline]).head? ≠ some newline := by
    rw [List.head?_append_of_ne_nil _ hne]
    exact head?_ne_newline hprint
  rw [loadPlainLine, cstring_eq_self hnul,
    if_neg (not_or.mpr ⟨List.append_ne_nil_of_left_ne_nil hne _, hhead⟩),
    if_pos List.getLast?_concat, List.dropLast_concat]

/-- A line that fills the buffer is loaded without its line break. -/
theorem loadPlainLine_of_all_isprint (overrun : Option LogEntry) (state : ℤ × LogStore)
    {line : Bytes} (hne : line ≠ []) (hprint : line.all isprint = true) :
    loadPlainLine overrun state line = loadEntry overrun state line := by
  have hlast : line.getLast? ≠ some newline := fun h =>
    notMem_of_all_isprint hprint rfl (List.mem_of_getLast? h)
  rw [loadPlainLine, cstring_eq_self (notMem_of_all_isprint hprint rfl),
    if_neg (not_or.mpr ⟨hne, head?_ne_newline hprint⟩), if_neg hlast]

/-- The line break that a full buffer leaves behind is an empty line. -/
theorem loadPlain_newline (overrun : ℕ → Option LogEntry) (n : ℕ) (state : ℤ × LogStore)
    (rest : Bytes) :
    loadPlain overrun n state (newline :: rest) = loadPlain overrun (n + 1) state rest := by
  rw [loadPlain]
  rfl

/-- **Framing.**  A line of printable text that fits the buffer is loaded as one entry,
whether or not the buffer has room for its line break. -/
theorem loadPlain_line (overrun : ℕ → Option LogEntry) (n : ℕ) (state : ℤ × LogStore)
    {line : Bytes} (hne : line ≠ []) (hprint : line.all isprint = true)
    (hlen : line.length < logaggMaxEntrySize) (rest : Bytes) :
    ∃ m, loadPlain overrun n state (line ++ newline :: rest) =
      loadPlain overrun m (loadEntry (overrun n) state line) rest := by
  have hnewline : newline ∉ line := notMem_of_all_isprint hprint rfl
  have hread := fgets_append hnewline (show line.length ≤ logaggMaxEntrySize - 1 by omega)
    (newline :: rest)
  have hstep : loadPlain overrun n state (line ++ newline :: rest) =
      loadPlain overrun (n + 1)
        (loadPlainLine (overrun n) state
          (fgets (logaggMaxEntrySize - 1) (line ++ newline :: rest)).1)
        (fgets (logaggMaxEntrySize - 1) (line ++ newline :: rest)).2 := by
    cases line with
    | nil => exact absurd rfl hne
    | cons c s => rw [List.cons_append, loadPlain]
  rw [hstep, hread]
  cases hroom : logaggMaxEntrySize - 1 - line.length with
  | zero =>
    have hfull : fgets 0 (newline :: rest) = ([], newline :: rest) := rfl
    rw [hfull, List.append_nil, loadPlainLine_of_all_isprint _ state hne hprint, loadPlain_newline]
    exact ⟨n + 2, rfl⟩
  | succ k =>
    have hbreak : fgets (k + 1) (newline :: rest) = ([newline], rest) := rfl
    rw [hbreak, loadPlainLine_append_newline _ state hne hprint]
    exact ⟨n + 1, rfl⟩

theorem readLine_of_ok (overrun : Option LogEntry) {line : Bytes} {entry : LogEntry}
    (h : logEntryFromJson line = .ok entry) : readLine overrun line = some entry := by
  rw [readLine, h]

/-- An entry that is read is counted and appended, new or not. -/
theorem loadEntry_of_some {overrun : Option LogEntry} (state : ℤ × LogStore) {line : Bytes}
    {entry : LogEntry} (h : readLine overrun line = some entry) :
    loadEntry overrun state line = (state.1 + 1, (storeAppend .ok state.2 entry).2) := by
  rw [loadEntry, h]
  simp only
  rw [if_pos (storeAppend_ok state.2 entry)]

theorem loadEntry_of_none {overrun : Option LogEntry} (state : ℤ × LogStore) {line : Bytes}
    (h : readLine overrun line = none) : loadEntry overrun state line = state := by
  rw [loadEntry, h]

/-- The loop over the lines of written entries. -/
theorem loadPlain_written (overrun : ℕ → Option LogEntry) (n : ℕ) (state : ℤ × LogStore)
    {entries : List LogEntry} (hmeta : ∀ entry ∈ entries, entry.metadata = [])
    (hlen : ∀ entry ∈ entries, (entryText entry).length < logaggMaxEntrySize) :
    loadPlain overrun n state (entries.flatMap entryLine) =
      (state.1 + entries.length, (entries.map received).foldl
        (fun store entry => (storeAppend .ok store entry).2) state.2) := by
  induction entries generalizing n state with
  | nil =>
    rw [List.flatMap_nil, loadPlain]
    simp
  | cons entry entries ih =>
    have hparse := logEntryFromJson_entryText (hmeta entry List.mem_cons_self)
    have hne : entryText entry ≠ [] := List.cons_ne_nil _ _
    obtain ⟨m, hline⟩ := loadPlain_line overrun n state hne (all_isprint_entryText entry)
      (hlen entry List.mem_cons_self) (entries.flatMap entryLine)
    rw [List.flatMap_cons, entryLine, List.append_assoc, List.singleton_append, hline,
      loadEntry_of_some state (readLine_of_ok _ hparse),
      ih _ _ (fun e he => hmeta e (List.mem_cons_of_mem _ he))
        (fun e he => hlen e (List.mem_cons_of_mem _ he)), List.map_cons, List.foldl_cons,
      List.length_cons]
    congr 1
    push_cast
    ring

/-- The texts of entries that are written at all. -/
theorem eq_map_entryText {entries : List LogEntry} {texts : List Bytes} {buflen : ℕ}
    (h : List.Forall₂ (fun entry text => logEntryToJson entry buflen = some text) entries texts) :
    texts = entries.map entryText ∧ ∀ entry ∈ entries, (entryText entry).length < buflen := by
  induction h with
  | nil => exact ⟨rfl, fun entry hentry => absurd hentry List.not_mem_nil⟩
  | cons hfirst _ ih =>
    rw [logEntryToJson_eq] at hfirst
    obtain ⟨hlen, htext⟩ := emit_eq_some_iff.mp hfirst
    refine ⟨by rw [List.map_cons, ← ih.1, htext, List.nil_append], fun entry hentry => ?_⟩
    rcases List.mem_cons.mp hentry with rfl | hentry
    · simpa using hlen
    · exact ih.2 entry hentry

/-- **What the server writes the query tool reads back.**  A file of written entries, each
text followed by a line break, is loaded entry by entry: the number of entries is
returned, and the store is the one that the parsed entries make when they are appended in
file order. -/
theorem storeLoadFile_written (decompressSafe : Bytes → ℕ → Option Bytes)
    (overrun : ℕ → Option LogEntry) (index : List IndexEntry) (entries : List LogEntry) (texts : List Bytes)
    (hmeta : ∀ entry ∈ entries, entry.metadata = [])
    (hwrite : List.Forall₂
      (fun entry text => logEntryToJson entry logaggMaxEntrySize = some text) entries texts) :
    ∃ parsed, List.Forall₂ (fun text entry => logEntryFromJson text = .ok entry) texts parsed ∧
      storeLoadFile decompressSafe overrun (storeInit index)
          (some (texts.flatMap fun text => text ++ [newline])) =
        ((entries.length : ℤ),
          parsed.foldl (fun store entry => (storeAppend .ok store entry).2) (storeInit index)) := by
  obtain ⟨rfl, hlen⟩ := eq_map_entryText hwrite
  refine ⟨entries.map received, ?_, ?_⟩
  · rw [List.forall₂_map_left_iff, List.forall₂_map_right_iff, List.forall₂_same]
    exact fun entry hentry => logEntryFromJson_entryText (hmeta entry hentry)
  · have hfile : (entries.map entryText).flatMap (fun text => text ++ [newline]) =
        entries.flatMap entryLine := List.flatMap_map _ _ _
    have hplain : storeLoadCompressed decompressSafe (entries.flatMap entryLine) = none := by
      cases entries with
      | nil => rfl
      | cons entry entries =>
        rw [List.flatMap_cons, entryLine, List.append_assoc]
        exact storeLoadCompressed_entryText decompressSafe entry _
    rw [hfile, storeLoadFile, hplain, loadPlain_written _ _ _ hmeta hlen, zero_add]

/-- The same entry written twice: both lines are loaded. -/
theorem storeLoadFile_written_twice :
    ∃ parsed, logEntryFromJson (entryText sampleEntry) = .ok parsed ∧
      storeLoadFile (fun _ _ => none) (fun _ => none) (storeInit [])
          (some (entryText sampleEntry ++ [newline] ++ (entryText sampleEntry ++ [newline]))) =
        (2, storeOf [parsed, parsed]) := by
  have hmeta : ∀ entry ∈ [sampleEntry, sampleEntry], entry.metadata = [] := by
    intro entry hentry
    rw [List.mem_pair, or_self] at hentry
    rw [hentry]
    rfl
  have hwrite : List.Forall₂
      (fun entry text => logEntryToJson entry logaggMaxEntrySize = some text)
      [sampleEntry, sampleEntry] [entryText sampleEntry, entryText sampleEntry] :=
    .cons logEntryToJson_sampleEntry (.cons logEntryToJson_sampleEntry .nil)
  obtain ⟨parsed, hparsed, hload⟩ :=
    storeLoadFile_written (fun _ _ => none) (fun _ => none) [] _ _ hmeta hwrite
  cases hparsed with
  | cons hfirst hrest =>
    cases hrest with
    | cons hsecond hnil =>
      cases hnil
      rw [hfirst] at hsecond
      obtain rfl := Except.ok.inj hsecond
      exact ⟨_, hfirst, hload⟩

end LogAgg
