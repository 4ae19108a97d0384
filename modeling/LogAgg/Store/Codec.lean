import LogAgg.Lz4.Codec

/-!
# Compressed files and the code of the library

`lz4Codec` puts the functions of the LZ4 library in the place of the parameter of the store,
each between buffers fresh from `malloc`.  They keep what the library documents
(`inverts_lz4Codec`), so what holds of any such library holds of this code.

* `storeSaveCompressed_lz4Codec`: what is saved, and what comes back, for data of every size.
* `storeLoadCompressed_lz4Codec`: what a loaded text is, whatever the file.
* `storeLoadFile_saved_lz4Codec`: written entries come back from a compressed file.
-/

namespace LogAgg

open Ascii Memory

/-- What `malloc` gives: a buffer of the size asked for, whatever it holds. -/
structure Malloc where
  fresh : ℕ → Bytes
  length_fresh : ∀ n, (fresh n).length = n

/-- The two functions as the store calls them: the block is what was written to the target, and
a negative result of the decoder is a failure.  A run that leaves its buffers would give nothing;
there is none (`returns_lz4CompressFast`, `returns_lz4DecompressGeneric`). -/
def lz4Codec (malloc : Malloc) : Lz4 where
  compressDefault source srcSize dstCapacity :=
    match lz4CompressDefault source (malloc.fresh dstCapacity.toNat) srcSize dstCapacity with
    | .ret r => r.2.take r.1
    | .null => []
    | .fault => []
  decompressSafe block rawSize :=
    match lz4DecompressSafe block (malloc.fresh rawSize) rawSize with
    | .ret r => if r.1 < 0 then none else some r.2
    | .null => none
    | .fault => none

section

variable {malloc : Malloc} {source : Bytes} {n : ℕ}

/-- The block of a source that the library takes. -/
theorem exists_compressDefault_eq (malloc : Malloc) (hn : n ≤ source.length) (hle : (n : ℤ) ≤ lz4MaxInputSize) :
    ∃ b : Lz4Block, b.Conforming ∧ b.content = source.take n ∧ b.spare = 0 ∧
      (lz4Codec malloc).compressDefault source n (lz4CompressBound n) = b.bytes := by
  have hcapacity : (malloc.fresh (lz4CompressBound n).toNat).length = lz4CompressBound n := by
    rw [malloc.length_fresh, lz4CompressBound_natCast hle, Int.toNat_natCast]
  obtain ⟨r, hrun, hr⟩ := returns_lz4CompressFast
    (malloc.fresh (lz4CompressBound n).toNat) hn 1
  rw [hcapacity] at hrun hr
  rcases hr with ⟨-, hshort | hlarge⟩ | hblock
  · exact absurd hshort (lt_irrefl _)
  · omega
  · obtain ⟨b, hb, hcontent, hspare, -, -, -, htake⟩ := hblock.take_eq
    refine ⟨b, hb, hcontent, hspare, ?_⟩
    rw [lz4Codec]
    dsimp only
    rw [lz4CompressDefault, hrun]
    exact htake

/-- The library does not take a negative size, nor one beyond its limit. -/
theorem compressDefault_eq_nil {srcSize : ℤ} (h : srcSize < 0 ∨ lz4MaxInputSize < srcSize) :
    (lz4Codec malloc).compressDefault source srcSize (lz4CompressBound srcSize) = [] := by
  have hgeneric : ∀ capacity directive table acceleration,
      lz4CompressGeneric source (malloc.fresh (lz4CompressBound srcSize).toNat) srcSize capacity
        directive table acceleration =
          .ret (0, malloc.fresh (lz4CompressBound srcSize).toNat) := by
    intro capacity directive table acceleration
    rw [lz4CompressGeneric, if_pos h]
    rfl
  rw [lz4Codec]
  dsimp only
  rw [lz4CompressDefault, lz4CompressFast, lz4CompressFastExtState]
  simp only [hgeneric, ite_self, List.take_zero]

/-- A block that ends well is decoded to a text of the size asked for. -/
theorem decompressSafe_bytes (malloc : Malloc) {b : Lz4Block} (hends : b.EndsWell) (hreaches : b.Reaches [])
    (hspare : b.spare = 0) :
    (lz4Codec malloc).decompressSafe b.bytes b.content.length = some b.content := by
  have hlen := malloc.length_fresh b.content.length
  obtain ⟨r, hrun, hr, htarget, htake⟩ := returns_lz4DecompressSafe_bytes
    (malloc.fresh b.content.length) hends hreaches (fun _ => hspare) hlen.ge
  rw [hlen] at hrun htarget
  rw [lz4Codec]
  dsimp only
  rw [hrun]
  dsimp only
  rw [if_neg (by omega), ← htake, List.take_of_length_le htarget.le]

end

/-- **The library keeps its promises.** -/
theorem inverts_lz4Codec (malloc : Malloc) : (lz4Codec malloc).Inverts where
  succeeds source hne hle := by
    obtain ⟨b, -, -, -, hbytes⟩ := exists_compressDefault_eq malloc le_rfl hle
    rw [hbytes]
    exact List.ne_nil_of_length_pos b.length_bytes_pos
  length_le source hle := by
    obtain ⟨b, -, hcontent, -, hbytes⟩ := exists_compressDefault_eq malloc le_rfl hle
    have hbound := b.length_bytes_le
    rw [hcontent, List.take_length] at hbound
    rw [hbytes, lz4CompressBound_natCast hle]
    exact_mod_cast hbound
  decompress source hne hle := by
    obtain ⟨b, hb, hcontent, hspare, hbytes⟩ :=
      exists_compressDefault_eq malloc le_rfl hle
    rw [List.take_length] at hcontent
    rw [hbytes, ← hcontent]
    exact decompressSafe_bytes _ hb.toEndsWell hb.reaches hspare

/-! ## Data of every size -/

section

variable {malloc : Malloc} {rawData : Bytes}

/-- The cut to an `int` leaves the low 32 bits, as long as the library takes them. -/
theorem bmod_length_eq {n : ℕ} (h : ((n % 2 ^ 32 : ℕ) : ℤ) ≤ lz4MaxInputSize) :
    Int.bmod n (2 ^ 32) = (n % 2 ^ 32 : ℕ) := by
  rw [lz4MaxInputSize] at h
  rw [Int.bmod_def]
  omega

theorem bmod_length_out_of_range {n : ℕ} (h : lz4MaxInputSize < (n % 2 ^ 32 : ℕ)) :
    Int.bmod n (2 ^ 32) < 0 ∨ lz4MaxInputSize < Int.bmod n (2 ^ 32) := by
  rw [lz4MaxInputSize] at h ⊢
  rw [Int.bmod_def]
  omega

/-- The block holds as much of the data as 32 bits count. -/
theorem exists_block_eq (malloc : Malloc)
    (h : ((rawData.length % 2 ^ 32 : ℕ) : ℤ) ≤ lz4MaxInputSize) :
    ∃ b : Lz4Block, b.Conforming ∧ b.content = rawData.take (rawData.length % 2 ^ 32) ∧
      b.spare = 0 ∧ (lz4Codec malloc).block rawData = b.bytes := by
  rw [Lz4.block, bmod_length_eq h]
  exact exists_compressDefault_eq malloc (Nat.mod_le _ _) h

theorem block_eq_nil (h : lz4MaxInputSize < (rawData.length % 2 ^ 32 : ℕ)) :
    (lz4Codec malloc).block rawData = [] := by
  rw [Lz4.block]
  exact compressDefault_eq_nil (bmod_length_out_of_range h)

/-- Saving fails on empty data, and where the library does not take the size that 32 bits count. -/
theorem storeSaveCompressed_eq_none_iff : storeSaveCompressed (lz4Codec malloc) rawData = none ↔
    rawData = [] ∨ lz4MaxInputSize < (rawData.length % 2 ^ 32 : ℕ) := by
  rw [storeSaveCompressed]
  by_cases hne : rawData = []
  · rw [if_pos hne]
    exact ⟨fun _ => Or.inl hne, fun _ => rfl⟩
  · rw [if_neg hne]
    by_cases hsize : ((rawData.length % 2 ^ 32 : ℕ) : ℤ) ≤ lz4MaxInputSize
    · obtain ⟨b, -, -, -, hblock⟩ := exists_block_eq malloc hsize
      have hpos := b.length_bytes_pos
      rw [hblock, if_neg (List.ne_nil_of_length_pos hpos)]
      exact ⟨fun h => absurd h (Option.some_ne_none _),
        fun h => (h.resolve_left hne).not_ge.elim hsize⟩
    · rw [block_eq_nil (not_le.mp hsize), if_pos rfl]
      exact ⟨fun _ => Or.inr (not_le.mp hsize), fun _ => rfl⟩

end

/-- Four bytes hold the low 32 bits. -/
theorem littleEndian_mod (n : ℕ) : littleEndian 4 n = littleEndian 4 (n % 2 ^ 32) := by
  refine List.map_congr_left fun k hk => ?_
  rw [List.mem_range] at hk
  have hmod : ∀ m : ℕ, m.toUInt8.toNat = m % 256 := fun m => UInt8.toNat_ofNat'
  refine UInt8.toNat_inj.mp ?_
  rw [hmod, hmod]
  interval_cases k <;> omega

/-- Loading a file with this header. -/
theorem storeLoadCompressed_header {rawSize compressedSize : ℕ} (hraw : rawSize < 2 ^ 32)
    (hcompressed : compressedSize < 2 ^ 32) (decompressSafe : Bytes → ℕ → Option Bytes)
    (s : Bytes) :
    storeLoadCompressed decompressSafe
        (littleEndian 4 rawSize ++ (littleEndian 4 compressedSize ++ s)) =
      if maxBlockSize < rawSize ∨ maxBlockSize < compressedSize ∨ compressedSize = 0 then none
      else if s.length < compressedSize then none
      else decompressSafe (s.take compressedSize) rawSize := by
  rw [storeLoadCompressed, readUint32_littleEndian hraw]
  simp only [Option.bind_eq_bind, Option.bind_some, readUint32_littleEndian hcompressed]

/-- What comes back of saved data. -/
theorem storeLoadCompressed_of_saved {malloc : Malloc} {rawData content : Bytes}
    (hsave : storeSaveCompressed (lz4Codec malloc) rawData = some content) (malloc' : Malloc) :
    storeLoadCompressed (lz4Codec malloc').decompressSafe content =
      if rawData.length % 2 ^ 32 ≤ maxBlockSize ∧
          ((lz4Codec malloc).block rawData).length ≤ maxBlockSize then
        some (rawData.take (rawData.length % 2 ^ 32))
      else none := by
  have hsize : ((rawData.length % 2 ^ 32 : ℕ) : ℤ) ≤ lz4MaxInputSize := by
    by_contra hlarge
    have hnone : storeSaveCompressed (lz4Codec malloc) rawData = none :=
      storeSaveCompressed_eq_none_iff.mpr (Or.inr (not_le.mp hlarge))
    rw [hsave] at hnone
    exact Option.some_ne_none _ hnone
  obtain ⟨-, -, rfl⟩ := of_storeSaveCompressed_eq_some hsave
  obtain ⟨b, hb, hcontent, hspare, hblock⟩ := exists_block_eq malloc hsize
  have hle := b.length_bytes_le
  have hpos := b.length_bytes_pos
  have hlen : b.content.length = rawData.length % 2 ^ 32 := by
    rw [hcontent, List.length_take_of_le (Nat.mod_le _ _)]
  rw [hlen] at hle
  rw [lz4MaxInputSize] at hsize
  have hheader : littleEndian 4 rawData.length = littleEndian 4 (rawData.length % 2 ^ 32) :=
    littleEndian_mod rawData.length
  rw [hblock, hheader, storeLoadCompressed_header (by omega) (by omega), List.take_length]
  by_cases hlimit : rawData.length % 2 ^ 32 ≤ maxBlockSize ∧ b.bytes.length ≤ maxBlockSize
  · rw [if_pos hlimit, if_neg (by omega), if_neg (lt_irrefl _), ← hcontent, ← hlen]
    exact decompressSafe_bytes _ hb.toEndsWell hb.reaches hspare
  · rw [if_neg hlimit, if_pos (by omega)]

/-- **Data of every size.**  `store_save_compressed` fails on empty data, and where the library
does not take the low 32 bits of the size.  Otherwise as much of the data is saved as these bits
count: this part comes back, unless one of the two sizes is beyond the limit of the loader, and
then nothing does. -/
theorem storeSaveCompressed_lz4Codec (malloc malloc' : Malloc) (rawData : Bytes) :
    (storeSaveCompressed (lz4Codec malloc) rawData = none ↔
      rawData = [] ∨ lz4MaxInputSize < (rawData.length % 2 ^ 32 : ℕ)) ∧
    ∀ content, storeSaveCompressed (lz4Codec malloc) rawData = some content →
      storeLoadCompressed (lz4Codec malloc').decompressSafe content =
        if rawData.length % 2 ^ 32 ≤ maxBlockSize ∧
            ((lz4Codec malloc).block rawData).length ≤ maxBlockSize then
          some (rawData.take (rawData.length % 2 ^ 32))
        else none :=
  ⟨storeSaveCompressed_eq_none_iff, fun _ hsave => storeLoadCompressed_of_saved hsave malloc'⟩

/-! ## Whatever the file -/

/-- A number that was read was written there. -/
theorem of_readUint32_eq_some {content s : Bytes} {n : ℕ} (h : readUint32 content = some (n, s)) :
    content = littleEndian 4 n ++ s ∧ n < 2 ^ 32 := by
  have hmod : ∀ m : ℕ, m.toUInt8.toNat = m % 256 := fun m => UInt8.toNat_ofNat'
  rcases content with - | ⟨a, - | ⟨b, - | ⟨c, - | ⟨d, rest⟩⟩⟩⟩
  · cases h
  · cases h
  · cases h
  · cases h
  · have hbytes : littleEndian 4 n ++ s = (n / 256 ^ 0).toUInt8 :: (n / 256 ^ 1).toUInt8 ::
        (n / 256 ^ 2).toUInt8 :: (n / 256 ^ 3).toUInt8 :: s := rfl
    obtain ⟨hn, rfl⟩ := Prod.mk.inj (Option.some.inj h)
    have ha := a.toNat_lt
    have hb := b.toNat_lt
    have hc := c.toNat_lt
    have hd := d.toNat_lt
    refine ⟨?_, by omega⟩
    rw [hbytes, List.cons.injEq, List.cons.injEq, List.cons.injEq, List.cons.injEq]
    refine ⟨UInt8.toNat_inj.mp ?_, UInt8.toNat_inj.mp ?_, UInt8.toNat_inj.mp ?_,
      UInt8.toNat_inj.mp ?_, rfl⟩ <;> rw [hmod] <;> omega

/-- A target that was decoded begins with the content of a block. -/
theorem of_decompressSafe_eq_some {malloc : Malloc} {block rawBuf : Bytes} {rawSize : ℕ}
    (h : (lz4Codec malloc).decompressSafe block rawSize = some rawBuf) :
    rawBuf.length = rawSize ∧ ∃ b : Lz4Block, b.bytes = block ∧ b.Reaches [] ∧
      b.content.length ≤ rawSize ∧ rawBuf.take b.content.length = b.content := by
  have hlen := malloc.length_fresh rawSize
  obtain ⟨r, hrun, hr⟩ := returns_lz4DecompressGeneric block (malloc.fresh rawSize)
  rw [hlen] at hrun
  rw [lz4Codec] at h
  dsimp only at h
  rw [lz4DecompressSafe, hrun] at h
  dsimp only at h
  rcases hr with ⟨hneg, -⟩ | ⟨b, hbytes, hreaches, hsize, hfits, htarget, htake⟩
  · rw [if_pos hneg] at h
    cases h
  · rw [if_neg (by omega)] at h
    obtain rfl := Option.some.inj h
    exact ⟨htarget.trans hlen, b, hbytes, hreaches, hlen ▸ hfits, htake⟩

/-- **Whatever the file.**  When `store_load_compressed` gives a text, the file is a header of two
sizes within the limit and a block of the second size, the matches of which stay inside the
output.  The text has the first size, and begins with the content of the block. -/
theorem storeLoadCompressed_lz4Codec (malloc : Malloc) (content rawBuf : Bytes)
    (hload : storeLoadCompressed (lz4Codec malloc).decompressSafe content = some rawBuf) :
    ∃ (b : Lz4Block) (behind : Bytes), b.Reaches [] ∧
      content = littleEndian 4 rawBuf.length ++
        (littleEndian 4 b.bytes.length ++ (b.bytes ++ behind)) ∧
      rawBuf.length ≤ maxBlockSize ∧ b.bytes.length ≤ maxBlockSize ∧
      b.content.length ≤ rawBuf.length ∧ rawBuf.take b.content.length = b.content := by
  cases hraw : readUint32 content with
  | none =>
    rw [storeLoadCompressed, hraw] at hload
    cases hload
  | some p =>
    obtain ⟨rawSize, s⟩ := p
    obtain ⟨rfl, hrawSize⟩ := of_readUint32_eq_some hraw
    cases hcompressed : readUint32 s with
    | none =>
      rw [storeLoadCompressed, hraw, Option.bind_eq_bind, Option.bind_some] at hload
      simp only [hcompressed] at hload
      cases hload
    | some q =>
      obtain ⟨compressedSize, s'⟩ := q
      obtain ⟨rfl, hcompressedSize⟩ := of_readUint32_eq_some hcompressed
      rw [storeLoadCompressed_header hrawSize hcompressedSize] at hload
      split at hload
      · cases hload
      · rename_i hlimits
        split at hload
        · cases hload
        · rename_i hshort
          obtain ⟨hlen, b, hbytes, hreaches, hfits, htake⟩ := of_decompressSafe_eq_some hload
          have hblock : b.bytes.length = compressedSize := by
            rw [hbytes, List.length_take_of_le (not_lt.mp hshort)]
          refine ⟨b, s'.drop compressedSize, hreaches, ?_, ?_, ?_, hlen ▸ hfits, htake⟩
          · rw [hlen, hblock, hbytes, List.take_append_drop]
          · omega
          · omega

/-- A file that holds an empty object. -/
theorem storeLoadCompressed_lz4Codec_emptyObject :
    ∃ b : Lz4Block, b.content.length ≤ emptyObject.length ∧
      emptyObject.take b.content.length = b.content := by
  have hload : storeLoadCompressed
      (lz4Codec ⟨fun n => List.replicate n 0, fun _ => List.length_replicate⟩).decompressSafe
      [3, 0, 0, 0, 4, 0, 0, 0, 0x30, 123, 125, 10] = some emptyObject := by
    have hblock := decompressSafe_bytes
      ⟨fun n => List.replicate n 0, fun _ => List.length_replicate⟩
      (b := ⟨[], emptyObject, 0, by decide⟩) ⟨fun h => absurd rfl h, nofun⟩ trivial rfl
    exact (@storeLoadCompressed_header 3 4 (by decide) (by decide)
      _ [0x30, 123, 125, 10]).trans hblock
  obtain ⟨b, behind, -, -, -, -, hfits, htake⟩ := storeLoadCompressed_lz4Codec _ _ _ hload
  exact ⟨b, hfits, htake⟩

/-! ## Written entries -/

/-- The lines of written entries. -/
theorem textLines_entryLine (entries : List LogEntry) :
    textLines (entries.flatMap entryLine) = entries.map entryText := by
  induction entries with
  | nil => rfl
  | cons entry entries ih =>
    have hnewline : newline ∉ entryText entry :=
      notMem_of_all_isprint (all_isprint_entryText entry) rfl
    rw [List.flatMap_cons, entryLine, List.append_assoc, List.singleton_append,
      textLines_append hnewline, ih, List.map_cons]

theorem cutReturn_entryText (entry : LogEntry) : cutReturn (entryText entry) = entryText entry := by
  refine if_neg fun h => ?_
  exact notMem_of_all_isprint (all_isprint_entryText entry) rfl (List.mem_of_getLast? h)

/-- The loop over the lines of written entries, in memory. -/
theorem loadText_written (overrun : ℕ → Option LogEntry) (n : ℕ) (state : ℤ × LogStore)
    {entries : List LogEntry} (hmeta : ∀ entry ∈ entries, entry.metadata = []) :
    loadText overrun n state (entries.flatMap entryLine) =
      (state.1 + entries.length, storeAppendAll state.2 (entries.map received)) := by
  have hread : ∀ n, readLines overrun n (entries.map entryText) = entries.map received := by
    induction entries with
    | nil => exact fun n => rfl
    | cons entry entries ih =>
      intro n
      have hparse := logEntryFromJson_entryText (hmeta entry List.mem_cons_self)
      rw [List.map_cons, readLines, readLine_of_ok _ hparse,
        ih fun e he => hmeta e (List.mem_cons_of_mem _ he)]
      rfl
  have hlines : (entries.map entryText).map cutReturn = entries.map entryText := by
    rw [List.map_map]
    exact List.map_congr_left fun entry _ => cutReturn_entryText entry
  rw [loadText_eq, textLines_entryLine, hlines, loadLines_eq, hread, List.length_map]

theorem zero_notMem_entryLine (entries : List LogEntry) :
    (0 : UInt8) ∉ entries.flatMap entryLine := by
  intro h
  obtain ⟨entry, -, hentry⟩ := List.mem_flatMap.mp h
  rcases List.mem_append.mp hentry with htext | hbreak
  · exact notMem_of_all_isprint (all_isprint_entryText entry) rfl htext
  · exact absurd hbreak (by decide)

/-- **Written entries come back from a compressed file**, in the order in which they were written:
the store is the one that a plain file of the same lines makes, and no line is too long. -/
theorem storeLoadFile_saved_lz4Codec (malloc malloc' : Malloc)
    (overrun : ℕ → Option LogEntry) (index : List IndexEntry) (entries : List LogEntry) (hne : entries ≠ [])
    (hmeta : ∀ entry ∈ entries, entry.metadata = [])
    (hsize : (entries.flatMap entryLine).length ≤ 522000000) :
    ∃ content, storeSaveCompressed (lz4Codec malloc) (entries.flatMap entryLine) = some content ∧
      storeLoadFile (lz4Codec malloc').decompressSafe overrun (storeInit index) (some content) =
        ((entries.length : ℤ), storeAppendAll (storeInit index) (entries.map received)) := by
  have htext : entries.flatMap entryLine ≠ [] := by
    cases entries with
    | nil => exact absurd rfl hne
    | cons entry entries => exact List.append_ne_nil_of_left_ne_nil (List.cons_ne_nil _ _) _
  have hmod : (entries.flatMap entryLine).length % 2 ^ 32 = (entries.flatMap entryLine).length :=
    Nat.mod_eq_of_lt (by omega)
  have hlimit : (entries.flatMap entryLine).length ≤ maxBlockSize := by
    rw [maxBlockSize]
    omega
  have hlz4 := inverts_lz4Codec malloc
  obtain ⟨content, hsave⟩ :=
    hlz4.exists_storeSaveCompressed htext (cast_length_le_lz4MaxInputSize hlimit)
  have hload := storeLoadCompressed_of_saved hsave malloc'
  rw [hmod, if_pos ⟨hlimit, hlz4.length_block_le hsize⟩, List.take_length] at hload
  refine ⟨content, hsave, ?_⟩
  rw [storeLoadFile, hload]
  dsimp only
  rw [cstring_eq_self (zero_notMem_entryLine entries), loadText_written _ _ _ hmeta, zero_add]

theorem storeLoadFile_saved_lz4Codec_sampleEntry :
    ∃ content, storeSaveCompressed
        (lz4Codec ⟨fun n => List.replicate n 0, fun _ => List.length_replicate⟩)
        ([sampleEntry, sampleEntry].flatMap entryLine) = some content ∧
      (storeLoadFile
        (lz4Codec ⟨fun n => List.replicate n 1, fun _ => List.length_replicate⟩).decompressSafe
        (fun _ => none) (storeInit []) (some content)).1 = 2 := by
  have hmeta : ∀ entry ∈ [sampleEntry, sampleEntry], entry.metadata = [] := by
    intro entry hentry
    rw [List.mem_pair, or_self] at hentry
    rw [hentry]
    rfl
  have hsize : ([sampleEntry, sampleEntry].flatMap entryLine).length ≤ 522000000 := by
    decide +kernel
  obtain ⟨content, hsave, hload⟩ := storeLoadFile_saved_lz4Codec
    ⟨fun n => List.replicate n 0, fun _ => List.length_replicate⟩
    ⟨fun n => List.replicate n 1, fun _ => List.length_replicate⟩ (fun _ => none) []
    [sampleEntry, sampleEntry] (List.cons_ne_nil _ _) hmeta hsize
  exact ⟨content, hsave, congrArg Prod.fst hload⟩

end LogAgg
