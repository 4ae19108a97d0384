import LogAgg.Store.Compressed

/-!
# The sizes that come back

`store_save_compressed` and `store_load_compressed` do not agree on the sizes.  The saver
takes whatever LZ4 takes, which is up to 2 GB, and it hands LZ4 the size as an `int` and
writes it to the header as a `uint32_t`.  The loader gives up on a header that states more
than 500 MB, and the comment there says why: no LZ4 block is that large, so the file has to
be plain text.

`storeLoadCompressed_saved_iff` draws the line: a text that was saved is loaded again if
neither its size nor that of its block is beyond 500 MB, and not otherwise.  No text of
4 GB or more gets through by a size that wrapped around, as the size that is handed out
would be the one that wrapped around.
-/

namespace LogAgg

/-- `store_load_compressed` with its second result: the buffer and `*out_raw_size`, which
is the first number of the header. -/
def storeLoadCompressedSize (decompressSafe : Bytes → ℕ → Option Bytes) (content : Bytes) :
    Option (Bytes × ℕ) := do
  let rawBuf ← storeLoadCompressed decompressSafe content
  let (rawSize, _) ← readUint32 content
  some (rawBuf, rawSize)

/-- Loading the file gives the data back: `*out_raw_size` is its size, and the buffer
starts with it. -/
def LoadsBack (lz4 : Lz4) (rawData content : Bytes) : Prop :=
  ∃ rawBuf, storeLoadCompressedSize lz4.decompressSafe content = some (rawBuf, rawData.length) ∧
    rawBuf.take rawData.length = rawData

/-- What the loader's limit asks of the data: neither its size nor the size that LZ4
compresses it to is beyond 500 MB. -/
def WithinLimits (lz4 : Lz4) (rawData : Bytes) : Prop :=
  rawData.length ≤ maxBlockSize ∧
    (lz4.compressDefault rawData rawData.length (lz4CompressBound rawData.length)).length ≤
      maxBlockSize

/-! ## What the saver writes -/

/-- The two numbers that the loader reads from a file that was saved. -/
theorem readUint32_saved {lz4 : Lz4} {rawData content : Bytes}
    (hsave : storeSaveCompressed lz4 rawData = some content) :
    ∃ s, readUint32 content = some (rawData.length % 2 ^ 32, s) ∧
      readUint32 s = some ((lz4.block rawData).length % 2 ^ 32, lz4.block rawData) := by
  obtain ⟨-, -, rfl⟩ := of_storeSaveCompressed_eq_some hsave
  exact ⟨_, readUint32_littleEndian_mod _ _, readUint32_littleEndian_mod _ _⟩

/-- The block of data that LZ4 takes fits the 32 bits of its size in the header. -/
theorem Lz4.Inverts.length_block_lt {lz4 : Lz4} (hlz4 : lz4.Inverts) {rawData : Bytes}
    (hsize : (rawData.length : ℤ) ≤ lz4MaxInputSize) :
    (lz4.block rawData).length < 2 ^ 32 := by
  have hle := hlz4.cast_length_block_le hsize
  rw [lz4MaxInputSize] at hsize
  omega

/-! ## What the loader takes -/

/-- A header that the loader goes by states a size that is not beyond the limit, for the
data and for the block. -/
theorem le_maxBlockSize_of_storeLoadCompressed {decompressSafe : Bytes → ℕ → Option Bytes}
    {content rawBuf s s' : Bytes} {rawSize compressedSize : ℕ}
    (hload : storeLoadCompressed decompressSafe content = some rawBuf)
    (hraw : readUint32 content = some (rawSize, s))
    (hcompressed : readUint32 s = some (compressedSize, s')) :
    rawSize ≤ maxBlockSize ∧ compressedSize ≤ maxBlockSize := by
  by_contra hbeyond
  have hrejected : HeaderRejected content := by
    intro m t k t' hm hk
    rw [hraw] at hm
    obtain ⟨rfl, rfl⟩ := Prod.mk.inj (Option.some.inj hm)
    rw [hcompressed] at hk
    obtain ⟨rfl, -⟩ := Prod.mk.inj (Option.some.inj hk)
    omega
  rw [storeLoadCompressed_of_headerRejected hrejected] at hload
  exact absurd hload (by simp)

/-- What is loaded comes with the first number of the header. -/
theorem storeLoadCompressedSize_eq_some_iff {decompressSafe : Bytes → ℕ → Option Bytes}
    {content rawBuf s : Bytes} {rawSize m : ℕ} (hraw : readUint32 content = some (m, s)) :
    storeLoadCompressedSize decompressSafe content = some (rawBuf, rawSize) ↔
      storeLoadCompressed decompressSafe content = some rawBuf ∧ m = rawSize := by
  rw [storeLoadCompressedSize]
  cases hload : storeLoadCompressed decompressSafe content with
  | none => simp
  | some buf => simp [hraw]

/-- Data within the limits is loaded back. -/
theorem loadsBack_of_withinLimits {lz4 : Lz4} (hlz4 : lz4.Inverts) {rawData content : Bytes}
    (hsave : storeSaveCompressed lz4 rawData = some content)
    (hlimits : WithinLimits lz4 rawData) : LoadsBack lz4 rawData content := by
  obtain ⟨hsize, hblock⟩ := hlimits
  obtain ⟨hne, -, -⟩ := of_storeSaveCompressed_eq_some hsave
  obtain ⟨s, hraw, -⟩ := readUint32_saved hsave
  obtain ⟨content', hsave', hload⟩ := storeLoadCompressed_saved hlz4 hne hsize
  rw [hsave] at hsave'
  obtain rfl := Option.some.inj hsave'
  rw [Lz4.block_eq (cast_length_le_lz4MaxInputSize hsize)] at hload
  have hmod : rawData.length % 2 ^ 32 = rawData.length := by
    rw [maxBlockSize] at hsize
    exact Nat.mod_eq_of_lt (by omega)
  exact ⟨rawData, (storeLoadCompressedSize_eq_some_iff hraw).mpr ⟨hload hblock, hmod⟩,
    List.take_length⟩

/-- Data that is loaded back is within the limits.  The size handed out is one of 32 bits,
so it is the size of the data only if that did not wrap around. -/
theorem withinLimits_of_loadsBack {lz4 : Lz4} (hlz4 : lz4.Inverts) {rawData content : Bytes}
    (hsave : storeSaveCompressed lz4 rawData = some content)
    (hback : LoadsBack lz4 rawData content) : WithinLimits lz4 rawData := by
  obtain ⟨rawBuf, hload, -⟩ := hback
  obtain ⟨s, hraw, hcompressed⟩ := readUint32_saved hsave
  obtain ⟨hload, hmod⟩ := (storeLoadCompressedSize_eq_some_iff hraw).mp hload
  obtain ⟨hsize, hblock⟩ := le_maxBlockSize_of_storeLoadCompressed hload hraw hcompressed
  rw [hmod] at hsize
  have hinput := cast_length_le_lz4MaxInputSize hsize
  rw [Nat.mod_eq_of_lt (hlz4.length_block_lt hinput), Lz4.block_eq hinput] at hblock
  exact ⟨hsize, hblock⟩

/-- **What is saved is loaded back within the limits of the loader, and only there.**  Data
is saved, by an LZ4 that does what it documents.  Loading the file gives the data and its
size exactly if neither the size of the data nor that of its block is beyond 500 MB. -/
theorem storeLoadCompressed_saved_iff {lz4 : Lz4} (hlz4 : lz4.Inverts) {rawData content : Bytes}
    (hsave : storeSaveCompressed lz4 rawData = some content) :
    LoadsBack lz4 rawData content ↔ WithinLimits lz4 rawData := by
  constructor
  · exact withinLimits_of_loadsBack hlz4 hsave
  · exact loadsBack_of_withinLimits hlz4 hsave

theorem storeLoadCompressed_saved_iff_emptyObject :
    ∃ content, storeSaveCompressed literalLz4 emptyObject = some content ∧
      LoadsBack literalLz4 emptyObject content := by
  obtain ⟨content, hsave⟩ :=
    inverts_literalLz4.exists_storeSaveCompressed (by decide : emptyObject ≠ []) (by decide)
  exact ⟨content, hsave,
    (storeLoadCompressed_saved_iff inverts_literalLz4 hsave).mpr ⟨by decide, by decide⟩⟩

/-! ## A byte too many -/

/-- A text that is one byte beyond 500 MB. -/
def oversized : Bytes := List.replicate 524288001 Ascii.space

/-- LZ4 takes the text and the saver writes it, and the loader does not read the file. -/
theorem oversized_not_loaded :
    oversized.length = maxBlockSize + 1 ∧
      ∀ lz4 : Lz4, lz4.Inverts → ∃ content, storeSaveCompressed lz4 oversized = some content ∧
        storeLoadCompressed lz4.decompressSafe content = none ∧
        ¬ LoadsBack lz4 oversized content := by
  have hlen : oversized.length = 524288001 := List.length_replicate
  refine ⟨by rw [hlen, maxBlockSize], fun lz4 hlz4 => ?_⟩
  have hinput : (oversized.length : ℤ) ≤ lz4MaxInputSize := by
    rw [hlen, lz4MaxInputSize]
    omega
  have hne : oversized ≠ [] := by
    rw [Ne, ← List.length_eq_zero_iff, hlen]
    omega
  obtain ⟨content, hsave⟩ := hlz4.exists_storeSaveCompressed hne hinput
  obtain ⟨s, hraw, hcompressed⟩ := readUint32_saved hsave
  have hnone : storeLoadCompressed lz4.decompressSafe content = none := by
    by_contra hload
    obtain ⟨rawBuf, hload⟩ := Option.ne_none_iff_exists'.mp hload
    have hsize := (le_maxBlockSize_of_storeLoadCompressed hload hraw hcompressed).1
    rw [hlen, maxBlockSize] at hsize
    omega
  refine ⟨content, hsave, hnone, fun hback => ?_⟩
  have hsize := (withinLimits_of_loadsBack hlz4 hsave hback).1
  rw [hlen, maxBlockSize] at hsize
  omega

end LogAgg
