import LogAgg.Store.Lines

/-!
# Compressed and plain files

`store_save_compressed` puts a header of two sizes in front of an LZ4 block, and
`store_load_file` reads such a file back as text in memory.  Whether a text is saved so or
put in a file of its own, the same parser sees its lines, except that the plain path reads
through a window and cuts the lines that do not fit.  `storeLoadFile_saved_iff` says when
the two files load the same entries.

The LZ4 library is a parameter, with what it documents as hypotheses (`Lz4.Inverts`).
-/

namespace LogAgg

open Ascii Dedup

/-! ## Saving -/

/-- `LZ4_MAX_INPUT_SIZE`. -/
def lz4MaxInputSize : ℤ := 0x7E000000

/-- `LZ4_compressBound`.  A negative size is a huge unsigned one. -/
def lz4CompressBound (inputSize : ℤ) : ℤ :=
  if inputSize < 0 ∨ lz4MaxInputSize < inputSize then 0 else inputSize + inputSize / 255 + 16

/-- The two functions of the LZ4 library that the store calls. -/
structure Lz4 where
  /-- `LZ4_compress_default`, with the source, its size and the room in the target: the
  bytes of the block, none of them when compression fails. -/
  compressDefault : Bytes → ℤ → ℤ → Bytes
  /-- `LZ4_decompress_safe`, as the loader takes it. -/
  decompressSafe : Bytes → ℕ → Option Bytes

/-- What the library documents of a source that is not too large and a target of the size
that `LZ4_compressBound` asks for: compression succeeds and does not overrun the target,
and decompression inverts it. -/
structure Lz4.Inverts (lz4 : Lz4) : Prop where
  succeeds : ∀ source : Bytes, source ≠ [] → (source.length : ℤ) ≤ lz4MaxInputSize →
    lz4.compressDefault source source.length (lz4CompressBound source.length) ≠ []
  length_le : ∀ source : Bytes, (source.length : ℤ) ≤ lz4MaxInputSize →
    ((lz4.compressDefault source source.length (lz4CompressBound source.length)).length : ℤ) ≤
      lz4CompressBound source.length
  decompress : ∀ source : Bytes, source ≠ [] → (source.length : ℤ) ≤ lz4MaxInputSize →
    lz4.decompressSafe (lz4.compressDefault source source.length
      (lz4CompressBound source.length)) source.length = some source

/-- The block that `store_save_compressed` writes; the size is cut to an `int` first. -/
def Lz4.block (lz4 : Lz4) (rawData : Bytes) : Bytes :=
  let size := Int.bmod rawData.length (2 ^ 32)
  lz4.compressDefault rawData size (lz4CompressBound size)

/-- `store_save_compressed`: the content of the file, or `none` for `-1`.  The sizes of the
header are cut to 32 bits. -/
def storeSaveCompressed (lz4 : Lz4) (rawData : Bytes) : Option Bytes :=
  if rawData = [] then none
  else if lz4.block rawData = [] then none
  else some (littleEndian 4 rawData.length ++ littleEndian 4 (lz4.block rawData).length ++
    lz4.block rawData)

/-- A file that was saved starts with its two sizes, each cut to 32 bits, and the data was
not empty and nor was the block. -/
theorem of_storeSaveCompressed_eq_some {lz4 : Lz4} {rawData content : Bytes}
    (hsave : storeSaveCompressed lz4 rawData = some content) :
    rawData ≠ [] ∧ lz4.block rawData ≠ [] ∧ content = littleEndian 4 rawData.length ++
      (littleEndian 4 (lz4.block rawData).length ++ lz4.block rawData) := by
  unfold storeSaveCompressed at hsave
  split at hsave
  · exact absurd hsave (by simp)
  · rename_i hne
    split at hsave
    · exact absurd hsave (by simp)
    · rename_i hblock
      rw [← Option.some.inj hsave, List.append_assoc]
      exact ⟨hne, hblock, rfl⟩

/-- A size written to the header comes back cut to 32 bits. -/
theorem readUint32_littleEndian_mod (n : ℕ) (s : Bytes) :
    readUint32 (littleEndian 4 n ++ s) = some (n % 2 ^ 32, s) := by
  have hbytes : littleEndian 4 n =
      [(n / 256 ^ 0).toUInt8, (n / 256 ^ 1).toUInt8, (n / 256 ^ 2).toUInt8,
        (n / 256 ^ 3).toUInt8] := rfl
  rw [hbytes]
  show some (_, s) = some (n % 2 ^ 32, s)
  have hmod : ∀ m : ℕ, m.toUInt8.toNat = m % 256 := fun m => UInt8.toNat_ofNat'
  rw [hmod, hmod, hmod, hmod]
  congr 2
  omega

/-- A size written to the header is read back. -/
theorem readUint32_littleEndian {n : ℕ} (h : n < 2 ^ 32) (s : Bytes) :
    readUint32 (littleEndian 4 n ++ s) = some (n, s) := by
  rw [readUint32_littleEndian_mod, Nat.mod_eq_of_lt h]

/-- The size is not changed by the cut to an `int`, as long as LZ4 takes it. -/
theorem Lz4.block_eq {lz4 : Lz4} {text : Bytes}
    (hsize : (text.length : ℤ) ≤ lz4MaxInputSize) :
    lz4.block text =
      lz4.compressDefault text text.length (lz4CompressBound text.length) := by
  rw [lz4MaxInputSize] at hsize
  have hcut : Int.bmod text.length (2 ^ 32) = text.length :=
    Int.bmod_eq_of_le (by omega) (by omega)
  rw [Lz4.block, hcut]

theorem cast_length_le_lz4MaxInputSize {text : Bytes}
    (hsize : text.length ≤ maxBlockSize) : (text.length : ℤ) ≤ lz4MaxInputSize := by
  rw [maxBlockSize] at hsize
  rw [lz4MaxInputSize]
  omega

/-- Whatever LZ4 takes is saved. -/
theorem Lz4.Inverts.exists_storeSaveCompressed {lz4 : Lz4} (hlz4 : lz4.Inverts)
    {text : Bytes} (hne : text ≠ []) (hsize : (text.length : ℤ) ≤ lz4MaxInputSize) :
    ∃ content, storeSaveCompressed lz4 text = some content := by
  have hblock : lz4.block text ≠ [] := by
    rw [Lz4.block_eq hsize]
    exact hlz4.succeeds text hne hsize
  rw [storeSaveCompressed, if_neg hne, if_neg hblock]
  exact ⟨_, rfl⟩

/-- The sizes that are saved come back, if they are not beyond the limit. -/
theorem storeLoadCompressed_saved {lz4 : Lz4} (hlz4 : lz4.Inverts) {text : Bytes}
    (hne : text ≠ []) (hsize : text.length ≤ maxBlockSize) :
    ∃ content, storeSaveCompressed lz4 text = some content ∧
      ((lz4.block text).length ≤ maxBlockSize →
        storeLoadCompressed lz4.decompressSafe content = some text) := by
  have hinput := cast_length_le_lz4MaxInputSize hsize
  obtain ⟨content, hsave⟩ := hlz4.exists_storeSaveCompressed hne hinput
  refine ⟨content, hsave, fun hlimit => ?_⟩
  obtain ⟨-, hblockne, rfl⟩ := of_storeSaveCompressed_eq_some hsave
  have hraw : text.length < 2 ^ 32 := by
    rw [maxBlockSize] at hsize
    omega
  have hcompressed : (lz4.block text).length < 2 ^ 32 := by
    rw [maxBlockSize] at hlimit
    omega
  have hpos : (lz4.block text).length ≠ 0 := by
    rw [Ne, List.length_eq_zero_iff]
    exact hblockne
  have hread : readUint32 (littleEndian 4 (lz4.block text).length ++ lz4.block text) =
      some ((lz4.block text).length, lz4.block text) := readUint32_littleEndian hcompressed _
  rw [storeLoadCompressed, readUint32_littleEndian hraw]
  simp only [Option.bind_eq_bind, Option.bind_some, hread]
  rw [if_neg (by omega), if_neg (by omega), List.take_length, Lz4.block_eq hinput]
  exact hlz4.decompress text hne hinput

/-- LZ4 makes a text longer by the bound of the library at most. -/
theorem Lz4.Inverts.cast_length_block_le {lz4 : Lz4} (hlz4 : lz4.Inverts) {text : Bytes}
    (hsize : (text.length : ℤ) ≤ lz4MaxInputSize) :
    ((lz4.block text).length : ℤ) ≤ text.length + text.length / 255 + 16 := by
  rw [Lz4.block_eq hsize]
  refine (hlz4.length_le text hsize).trans_eq ?_
  rw [lz4CompressBound, if_neg (by omega)]

/-- The block of a text well below the limit is below it too. -/
theorem Lz4.Inverts.length_block_le {lz4 : Lz4} (hlz4 : lz4.Inverts) {text : Bytes}
    (hsize : text.length ≤ 522000000) : (lz4.block text).length ≤ maxBlockSize := by
  have hbelow : text.length ≤ maxBlockSize := by
    rw [maxBlockSize]
    omega
  have hle := hlz4.cast_length_block_le (cast_length_le_lz4MaxInputSize hbelow)
  rw [maxBlockSize]
  omega

/-- The header test of `store_load_compressed` fails: the file is too short for a header,
or a size is out of range. -/
def HeaderRejected (content : Bytes) : Prop :=
  ∀ rawSize s compressedSize s', readUint32 content = some (rawSize, s) →
    readUint32 s = some (compressedSize, s') →
      maxBlockSize < rawSize ∨ maxBlockSize < compressedSize ∨ compressedSize = 0

theorem storeLoadCompressed_of_headerRejected {content : Bytes} (h : HeaderRejected content)
    (decompressSafe : Bytes → ℕ → Option Bytes) :
    storeLoadCompressed decompressSafe content = none := by
  rw [storeLoadCompressed]
  cases hraw : readUint32 content with
  | none => rfl
  | some p =>
    show (readUint32 p.2 >>= _) = _
    cases hcompressed : readUint32 p.2 with
    | none => rfl
    | some q => exact if_pos (h p.1 p.2 q.1 q.2 hraw hcompressed)

/-! ## The two paths -/

/-- The entries that the plain path stores. -/
theorem entries_storeLoadFile_plain {text : Bytes} (hnul : (0 : UInt8) ∉ text)
    (hheader : HeaderRejected text) (hinside : StaysInside (fgetsLines text))
    (decompressSafe : Bytes → ℕ → Option Bytes) (overrun : ℕ → Option LogEntry)
    (index : List IndexEntry) :
    (storeLoadFile decompressSafe overrun (storeInit index) (some text)).2.entries =
      keepFirst LogEntry.sameNode (parsedEntries (fgetsLines text)) := by
  rw [storeLoadFile, storeLoadCompressed_of_headerRejected hheader, loadPlain_eq _ _ _ hnul,
    loadLines_eq, entries_storeAppendAll, readLines_eq_parsedEntries hinside]

/-- The entries that the path through memory stores. -/
theorem entries_storeLoadFile_text {text content : Bytes} (hnul : (0 : UInt8) ∉ text)
    {decompressSafe : Bytes → ℕ → Option Bytes}
    (hload : storeLoadCompressed decompressSafe content = some text)
    (hinside : StaysInside ((textLines text).map cutReturn)) (overrun : ℕ → Option LogEntry)
    (index : List IndexEntry) :
    (storeLoadFile decompressSafe overrun (storeInit index) (some content)).2.entries =
      keepFirst LogEntry.sameNode (parsedEntries (textLines text)) := by
  rw [storeLoadFile, hload]
  show (loadText overrun 0 (0, storeInit index) (cstring text)).2.entries = _
  rw [cstring_eq_self hnul, loadText_eq, loadLines_eq, entries_storeAppendAll,
    readLines_eq_parsedEntries hinside, parsedEntries_map_cutReturn]

/-- **When the two paths agree.**  A text is saved compressed, and put in a file of its
own.  As long as the block does not outgrow the limit of the loader and no parse leaves its
line, loading the two files leaves the same entries, whatever is in memory behind the lines,
exactly if the lines of the text and the pieces that the window shows have the same entries, up
to repetitions.  They do when no line fills the window. -/
theorem storeLoadFile_saved_iff {lz4 : Lz4} (hlz4 : lz4.Inverts)
    (overrun overrun' : ℕ → Option LogEntry) (index : List IndexEntry) {text : Bytes}
    (hne : text ≠ []) (hnul : (0 : UInt8) ∉ text)
    (hsize : text.length ≤ maxBlockSize) (hheader : HeaderRejected text)
    (hblock : (lz4.block text).length ≤ maxBlockSize)
    (htext : StaysInside ((textLines text).map cutReturn))
    (hplain : StaysInside (fgetsLines text)) :
    ∃ content, storeSaveCompressed lz4 text = some content ∧
      ((storeLoadFile lz4.decompressSafe overrun (storeInit index) (some content)).2.entries =
          (storeLoadFile lz4.decompressSafe overrun' (storeInit index) (some text)).2.entries ↔
        keepFirst LogEntry.sameNode (parsedEntries (textLines text)) =
          keepFirst LogEntry.sameNode (parsedEntries (fgetsLines text))) ∧
      ((∀ line ∈ textLines text, (cutReturn line).length < logaggMaxEntrySize) →
        (storeLoadFile lz4.decompressSafe overrun (storeInit index) (some content)).2.entries =
          (storeLoadFile lz4.decompressSafe overrun' (storeInit index) (some text)).2.entries) := by
  obtain ⟨content, hsave, hload⟩ := storeLoadCompressed_saved hlz4 hne hsize
  refine ⟨content, hsave, ?_, fun hlen => ?_⟩
  · rw [entries_storeLoadFile_text hnul (hload hblock) htext,
      entries_storeLoadFile_plain hnul hheader hplain]
  · rw [entries_storeLoadFile_text hnul (hload hblock) htext,
      entries_storeLoadFile_plain hnul hheader hplain, parsedEntries_fgetsLines hlen]

/-! ## Fixed texts -/

/-- The LZ4 block that holds its source as one run of literals, which is what the library
makes of short sources. -/
def literalLz4 : Lz4 where
  compressDefault source _ _ :=
    if source.length < 15 then (16 * source.length).toUInt8 :: source
    else 240 :: (List.replicate ((source.length - 15) / 255) 255 ++
      ((source.length - 15) % 255).toUInt8 :: source)
  decompressSafe block rawSize :=
    if rawSize ≤ block.length then some (block.drop (block.length - rawSize)) else none

theorem inverts_literalLz4 : literalLz4.Inverts where
  succeeds source _ _ := by
    unfold literalLz4
    dsimp only
    split <;> exact List.cons_ne_nil _ _
  length_le source hsize := by
    rw [lz4MaxInputSize] at hsize
    rw [lz4CompressBound, lz4MaxInputSize, if_neg (by omega)]
    unfold literalLz4
    dsimp only
    split
    · rw [List.length_cons]
      omega
    · rw [List.length_cons, List.length_append, List.length_replicate, List.length_cons]
      omega
  decompress source _ _ := by
    have hdrop : ∀ header : Bytes, (header ++ source).drop
        ((header ++ source).length - source.length) = source := by
      intro header
      rw [List.length_append, Nat.add_sub_cancel, List.drop_left]
    unfold literalLz4
    dsimp only
    split
    · rw [if_pos (by rw [List.length_cons]; omega)]
      exact congrArg some (hdrop [(16 * source.length).toUInt8])
    · have hheader := hdrop (240 :: (List.replicate ((source.length - 15) / 255) 255 ++
        [((source.length - 15) % 255).toUInt8]))
      rw [List.cons_append, List.append_assoc, List.singleton_append] at hheader
      rw [if_pos (by rw [List.length_cons, List.length_append, List.length_cons]; omega), hheader]

/-- An empty object on a line. -/
def emptyObject : Bytes := [lbrace, rbrace, newline]

theorem headerRejected_emptyObject : HeaderRejected emptyObject := by
  intro rawSize s compressedSize s' hraw
  exact absurd hraw (by simp [emptyObject, readUint32])

theorem storeLoadFile_saved_emptyObject :
    ∃ content, storeSaveCompressed literalLz4 emptyObject = some content ∧
      (storeLoadFile literalLz4.decompressSafe (fun _ => none) (storeInit [])
          (some content)).2.entries =
        (storeLoadFile literalLz4.decompressSafe (fun _ => some LogEntry.zero) (storeInit [])
          (some emptyObject)).2.entries := by
  have hblock : (literalLz4.block emptyObject).length ≤ maxBlockSize :=
    inverts_literalLz4.length_block_le (by decide)
  obtain ⟨content, hsave, -, hshort⟩ := @storeLoadFile_saved_iff literalLz4 inverts_literalLz4
    (fun _ => none) (fun _ => some LogEntry.zero) [] emptyObject (by decide) (by decide) (by decide) headerRejected_emptyObject hblock
    (by decide +kernel) (by decide +kernel)
  exact ⟨content, hsave, hshort (by decide)⟩

/-- The member of the entry on the long line. -/
def longMember : Bytes := ascii "\"message\":\"x\"\x7d"

/-- An entry on a line that the window cuts in two, and the first piece of which reads as
an entry of its own. -/
def longLine : Bytes := lbrace :: (List.replicate 4100 space ++ longMember)

/-- Blanks behind the opening brace are skipped. -/
theorem logEntryFromJson_lbrace_spaces (k : ℕ) (rest : Bytes) :
    logEntryFromJson (lbrace :: (List.replicate k space ++ rest)) =
      logEntryMembers LogEntry.zero (skipWhitespace rest) := by
  have hspaces : skipWhitespace (List.replicate k space ++ rest) = skipWhitespace rest := by
    refine List.dropWhile_append_of_pos fun c hc => ?_
    rw [List.eq_of_mem_replicate hc]
    rfl
  rw [logEntryFromJson, skipWhitespace_cons (by rfl), expect_self]
  show logEntryMembers LogEntry.zero (skipWhitespace (List.replicate k space ++ rest)) = _
  rw [hspaces]

theorem newline_notMem_lbrace_spaces {rest : Bytes} (k : ℕ) (hrest : newline ∉ rest) :
    newline ∉ lbrace :: (List.replicate k space ++ rest) := by
  rw [List.mem_cons, List.mem_append, List.mem_replicate]
  rintro (h | ⟨-, h⟩ | h)
  · exact absurd h (by decide)
  · exact absurd h (by decide)
  · exact hrest h

/-- What the window shows of the long line. -/
theorem fgetsLines_longLine : fgetsLines longLine =
    [lbrace :: List.replicate 4094 space, List.replicate 6 space ++ longMember] := by
  have hsplit : longLine =
      (lbrace :: List.replicate 4094 space) ++ (List.replicate 6 space ++ longMember) := by
    rw [longLine, List.cons_append, ← List.append_assoc, List.replicate_append_replicate]
  have hfirst : newline ∉ lbrace :: List.replicate 4094 space := by
    have h : newline ∉ lbrace :: (List.replicate 4094 space ++ []) :=
      newline_notMem_lbrace_spaces 4094 List.not_mem_nil
    rwa [List.append_nil] at h
  have hlen : (lbrace :: List.replicate 4094 space).length = logaggMaxEntrySize - 1 := by
    rw [List.length_cons, List.length_replicate]
    rfl
  rw [hsplit, fgetsLines_full hfirst hlen, fgetsLines_line (by decide) (by decide) (by decide)]

/-- The two paths disagree on the long line: the text in memory is an entry with a
message, and the window shows an entry without one and a piece that is none. -/
theorem longLine_loaded_differently :
    (longLine ≠ [] ∧ (0 : UInt8) ∉ longLine ∧ longLine.length ≤ maxBlockSize ∧
        HeaderRejected longLine) ∧
      ∀ lz4 : Lz4, lz4.Inverts → ∀ overrun overrun' index, ∃ content,
        storeSaveCompressed lz4 longLine = some content ∧
          (storeLoadFile lz4.decompressSafe overrun (storeInit index) (some content)).2.entries ≠
            (storeLoadFile lz4.decompressSafe overrun' (storeInit index)
              (some longLine)).2.entries := by
  have hlen : longLine.length = 4115 := by
    rw [longLine, List.length_cons, List.length_append, List.length_replicate]
    rfl
  have hne : longLine ≠ [] := List.cons_ne_nil _ _
  have hnul : (0 : UInt8) ∉ longLine := by
    rw [longLine, List.mem_cons, List.mem_append, List.mem_replicate]
    decide
  have hsize : longLine.length ≤ maxBlockSize := by
    rw [hlen]
    decide
  have hheader : HeaderRejected longLine := by
    intro rawSize s compressedSize s' hraw _
    have hread : readUint32 longLine = some (538976379, longLine.drop 4) := rfl
    rw [hread] at hraw
    rw [← (Prod.mk.inj (Option.some.inj hraw)).1]
    exact Or.inl (by decide)
  refine ⟨⟨hne, hnul, hsize, hheader⟩, fun lz4 hlz4 overrun overrun' index => ?_⟩
  obtain ⟨content, hsave, hload⟩ := storeLoadCompressed_saved hlz4 hne hsize
  have hblock : (lz4.block longLine).length ≤ maxBlockSize :=
    hlz4.length_block_le (by rw [hlen]; decide)
  refine ⟨content, hsave, ?_⟩
  have hlines : textLines longLine = [longLine] :=
    textLines_line hne (newline_notMem_lbrace_spaces 4100 (by decide))
  have hmember : (logEntryMembers LogEntry.zero (skipWhitespace longMember)).toOption.map
      (·.message.bytes) = some [120] := by
    decide +kernel
  have hfirst : logEntryFromJson (lbrace :: List.replicate 4094 space) = .ok LogEntry.zero := by
    have h := logEntryFromJson_lbrace_spaces 4094 []
    rw [List.append_nil] at h
    rw [h]
    show logEntryMembers LogEntry.zero [] = _
    rw [logEntryMembers]
  have hsecond : (logEntryFromJson (List.replicate 6 space ++ longMember)).toOption = none := rfl
  obtain ⟨entry, hentry, hmessage⟩ := Option.map_eq_some_iff.mp hmember
  have htext : parsedEntries (textLines longLine) = [entry] := by
    rw [hlines, parsedEntries, List.filterMap_cons, longLine, logEntryFromJson_lbrace_spaces, hentry]
    rfl
  have hplain : parsedEntries (fgetsLines longLine) = [LogEntry.zero] := by
    rw [fgetsLines_longLine, parsedEntries, List.filterMap_cons, hfirst, List.filterMap_cons, hsecond]
    rfl
  have hcut : cutReturn longLine = longLine := by
    have hlast : longLine = lbrace :: (List.replicate 4100 space ++ ascii "\"message\":\"x\"") ++
        [rbrace] := by
      rw [longLine, List.cons_append, List.append_assoc]
      rfl
    rw [cutReturn, if_neg]
    rw [hlast, List.getLast?_concat]
    decide
  have hread : logEntryFromJson longLine ≠ .error .pastEnd := by
    intro hpast
    rw [longLine, logEntryFromJson_lbrace_spaces] at hpast
    rw [hpast] at hentry
    exact absurd hentry (by simp [Except.toOption])
  have htextInside : StaysInside ((textLines longLine).map cutReturn) := by
    rw [hlines, List.map_singleton, hcut]
    exact fun line hline => List.mem_singleton.mp hline ▸ hread
  have hplainInside : StaysInside (fgetsLines longLine) := by
    rw [fgetsLines_longLine]
    intro line hline
    rcases List.mem_pair.mp hline with rfl | rfl
    · rw [hfirst]
      intro hpast
      cases hpast
    · decide
  rw [entries_storeLoadFile_text hnul (hload hblock) htextInside,
    entries_storeLoadFile_plain hnul hheader hplainInside, htext, hplain]
  intro heq
  have hzero : entry = LogEntry.zero := List.singleton_inj.mp heq
  rw [hzero] at hmessage
  exact absurd hmessage (by decide)

end LogAgg
