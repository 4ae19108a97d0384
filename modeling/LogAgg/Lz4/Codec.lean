import LogAgg.Lz4.Compress
import LogAgg.Lz4.Decoding
import LogAgg.Store.Compressed

/-!
# The functions of the library

`LZ4_compress_fast` chooses the kind of table by the size of the source, and whether the output
is limited by the room in the target; `LZ4_compress_default` is it without acceleration, and
`LZ4_decompress_safe` the decoder for full blocks.

Together they are a round trip (`lz4_round_trip`), for every source that the library takes,
every acceleration and every target that is not too short, whatever the targets hold before.
-/

namespace LogAgg

open Memory Lz77

/-- `LZ4_ACCELERATION_DEFAULT`. -/
def lz4AccelerationDefault : ℤ := 1

/-- `LZ4_ACCELERATION_MAX`. -/
def lz4AccelerationMax : ℤ := 65537

/-- `LZ4_64Klimit`. -/
def lz464Klimit : ℤ := 64 * 1024 + (mflimit - 1)

/-- `LZ4_compress_generic`, without a dictionary. -/
def lz4CompressGeneric (source dst : Bytes) (srcSize dstCapacity : ℤ)
    (outputDirective : LimitedOutputDirective) (tableType : TableType) (acceleration : ℤ) :
    Outcome (ℕ × Bytes) :=
  if srcSize < 0 ∨ lz4MaxInputSize < srcSize then return (0, dst)
  else if srcSize = 0 then
    if outputDirective ≠ .notLimited ∧ dstCapacity ≤ 0 then return (0, dst)
    else do
      let dst ← store dst 0 0
      return (1, dst)
  else lz4CompressGenericValidated ⟨source, srcSize.toNat, dstCapacity.toNat, outputDirective,
    tableType, acceleration.toNat⟩ dst

/-- `LZ4_compress_fast_extState`, from a cleared state: what it returns, and the target. -/
def lz4CompressFastExtState (source dst : Bytes) (inputSize maxOutputSize acceleration : ℤ) :
    Outcome (ℕ × Bytes) :=
  let acceleration := if acceleration < 1 then lz4AccelerationDefault else acceleration
  let acceleration :=
    if lz4AccelerationMax < acceleration then lz4AccelerationMax else acceleration
  if lz4CompressBound inputSize ≤ maxOutputSize then
    if inputSize < lz464Klimit then
      lz4CompressGeneric source dst inputSize 0 .notLimited .byU16 acceleration
    else lz4CompressGeneric source dst inputSize 0 .notLimited .byU32 acceleration
  else if inputSize < lz464Klimit then
    lz4CompressGeneric source dst inputSize maxOutputSize .limitedOutput .byU16 acceleration
  else lz4CompressGeneric source dst inputSize maxOutputSize .limitedOutput .byU32 acceleration

/-- `LZ4_compress_fast`. -/
def lz4CompressFast (source dst : Bytes) (srcSize dstCapacity acceleration : ℤ) :
    Outcome (ℕ × Bytes) :=
  lz4CompressFastExtState source dst srcSize dstCapacity acceleration

/-- `LZ4_compress_default`. -/
def lz4CompressDefault (source dst : Bytes) (srcSize dstCapacity : ℤ) : Outcome (ℕ × Bytes) :=
  lz4CompressFast source dst srcSize dstCapacity 1

/-- `LZ4_decompress_safe`. -/
def lz4DecompressSafe (source dest : Bytes) (maxDecompressedSize : ℤ) : Outcome (ℤ × Bytes) :=
  lz4DecompressGeneric source dest maxDecompressedSize

/-! ## Compressing -/

/-- A block of these bytes was written. -/
def BlockWritten (data dst : Bytes) (r : ℕ × Bytes) : Prop :=
  ∃ b : Lz4Block, b.Conforming ∧ b.content = data ∧ b.spare = 0 ∧ r.1 = b.bytes.length ∧
    Written dst r.2 0 b.bytes

namespace BlockWritten

variable {data dst : Bytes} {r : ℕ × Bytes}

/-- The block is the beginning of the target. -/
theorem take_eq (h : BlockWritten data dst r) : ∃ b : Lz4Block, b.Conforming ∧
    b.content = data ∧ b.spare = 0 ∧ r.1 = b.bytes.length ∧ r.1 ≤ dst.length ∧
      r.2.length = dst.length ∧ r.2.take r.1 = b.bytes := by
  obtain ⟨b, hb, hcontent, hspare, hr, hwritten⟩ := h
  have hroom := hwritten.add_length_le (Nat.zero_le _)
  have htake := hwritten.take_eq
  rw [Nat.zero_add, ← hr, List.take_zero, List.nil_append] at htake
  rw [Nat.zero_add, ← hr] at hroom
  exact ⟨b, hb, hcontent, hspare, hr, hroom, hwritten.length_eq, htake⟩

end BlockWritten

section

variable {source dst : Bytes} {n : ℕ}

theorem returns_lz4CompressGeneric (hn : n ≤ source.length) {dstCapacity acceleration : ℤ}
    {outputDirective : LimitedOutputDirective} {tableType : TableType}
    (hacceleration : 1 ≤ acceleration)
    (hlt : tableType = .byU16 → n < 65547)
    (hlimited : outputDirective = .limitedOutput → dstCapacity ≤ dst.length)
    (hnotLimited : outputDirective = .notLimited → (n : ℤ) ≤ lz4MaxInputSize →
      n + n / 255 + 16 ≤ dst.length) :
    (lz4CompressGeneric source dst n dstCapacity outputDirective tableType acceleration).Returns
      fun r => (r.1 = 0 ∧ (outputDirective = .limitedOutput ∨ lz4MaxInputSize < n)) ∨
        BlockWritten (source.take n) dst r := by
  rw [lz4CompressGeneric]
  by_cases hlarge : lz4MaxInputSize < n
  · rw [if_pos (Or.inr hlarge)]
    exact Outcome.returns_ret (Or.inl ⟨rfl, Or.inr hlarge⟩)
  · rw [if_neg (not_or.mpr ⟨by omega, hlarge⟩)]
    have hle : (n : ℤ) ≤ lz4MaxInputSize := not_lt.mp hlarge
    by_cases hzero : (n : ℤ) = 0
    · obtain rfl : n = 0 := by omega
      rw [if_pos hzero]
      by_cases hroom : outputDirective ≠ .notLimited ∧ dstCapacity ≤ 0
      · rw [if_pos hroom]
        refine Outcome.returns_ret (Or.inl ⟨rfl, Or.inl ?_⟩)
        cases outputDirective with
        | notLimited => exact absurd rfl hroom.1
        | limitedOutput => rfl
      · rw [if_neg hroom]
        have hpos : 0 < dst.length := by
          cases outputDirective with
          | notLimited =>
            have hbound := hnotLimited rfl hle
            omega
          | limitedOutput =>
            have hcapacity := hlimited rfl
            have hne := not_and.mp hroom LimitedOutputDirective.noConfusion
            omega
        refine (store_returns hpos 0).bind fun dst' hdst' => ?_
        exact Outcome.returns_ret (Or.inr ⟨⟨[], [], 0, Nat.succ_pos 15⟩,
          ⟨⟨fun h => absurd rfl h, nofun⟩, trivial, nofun⟩, rfl, rfl, rfl, hdst'⟩)
    · rw [if_neg hzero, Int.toNat_natCast]
      have hmax : n ≤ 0x7E000000 := by
        rw [lz4MaxInputSize] at hle
        omega
      refine (returns_lz4CompressGenericValidated ⟨hn, hmax, hlt, ?_⟩ ⟨fun h => ?_,
        fun h => hnotLimited h hle⟩).mono ?_
      · show 1 ≤ acceleration.toNat
        omega
      · have hcapacity := hlimited h
        show dstCapacity.toNat ≤ dst.length
        omega
      · rintro r (⟨hnone, hdirective⟩ | hblock)
        · exact Or.inl ⟨hnone, Or.inl hdirective⟩
        · exact Or.inr hblock

/-- `LZ4_compressBound` of a size that the library takes. -/
theorem lz4CompressBound_natCast (hle : (n : ℤ) ≤ lz4MaxInputSize) :
    lz4CompressBound n = (n + n / 255 + 16 : ℕ) := by
  rw [lz4CompressBound, if_neg (by omega)]
  push_cast
  rfl

/-- `LZ4_compress_fast`: it writes a block, unless the target is shorter than the bound or the
source is too large. -/
theorem returns_lz4CompressFast (dst : Bytes) (hn : n ≤ source.length) (acceleration : ℤ) :
    (lz4CompressFast source dst n dst.length acceleration).Returns fun r =>
      (r.1 = 0 ∧ ((dst.length : ℤ) < lz4CompressBound n ∨ lz4MaxInputSize < n)) ∨
        BlockWritten (source.take n) dst r := by
  simp only [lz4CompressFast, lz4CompressFastExtState]
  set clamped := (if lz4AccelerationMax < (if acceleration < 1 then lz4AccelerationDefault
    else acceleration) then lz4AccelerationMax
    else (if acceleration < 1 then lz4AccelerationDefault else acceleration)) with hclamped
  have hacceleration : 1 ≤ clamped := by
    rw [hclamped, lz4AccelerationMax, lz4AccelerationDefault]
    split_ifs <;> omega
  clear_value clamped
  have hshort_of : (n : ℤ) < lz464Klimit → n < 65547 := by
    intro h
    have hlimit : lz464Klimit = 65547 := rfl
    omega
  by_cases hbound : lz4CompressBound n ≤ dst.length
  · have hroom : (n : ℤ) ≤ lz4MaxInputSize → n + n / 255 + 16 ≤ dst.length := by
      intro hle
      rw [lz4CompressBound_natCast hle] at hbound
      exact_mod_cast hbound
    have hdone : ∀ r : ℕ × Bytes, ((r.1 = 0 ∧
        (LimitedOutputDirective.notLimited = .limitedOutput ∨ lz4MaxInputSize < n)) ∨
          BlockWritten (source.take n) dst r) →
        (r.1 = 0 ∧ ((dst.length : ℤ) < lz4CompressBound n ∨ lz4MaxInputSize < n)) ∨
          BlockWritten (source.take n) dst r := by
      rintro r (⟨hnone, hdirective | hlarge⟩ | hblock)
      · cases hdirective
      · exact Or.inl ⟨hnone, Or.inr hlarge⟩
      · exact Or.inr hblock
    rw [if_pos hbound]
    by_cases hshort : (n : ℤ) < lz464Klimit
    · rw [if_pos hshort]
      refine (returns_lz4CompressGeneric hn hacceleration (fun _ => hshort_of hshort) ?_
        fun _ => hroom).mono hdone
      · intro hlimited
        cases hlimited
    · rw [if_neg hshort]
      refine (returns_lz4CompressGeneric hn hacceleration ?_ ?_ fun _ => hroom).mono hdone
      · intro htable
        cases htable
      · intro hlimited
        cases hlimited
  · have hdone : ∀ r : ℕ × Bytes, ((r.1 = 0 ∧
        (LimitedOutputDirective.limitedOutput = .limitedOutput ∨ lz4MaxInputSize < n)) ∨
          BlockWritten (source.take n) dst r) →
        (r.1 = 0 ∧ ((dst.length : ℤ) < lz4CompressBound n ∨ lz4MaxInputSize < n)) ∨
          BlockWritten (source.take n) dst r := by
      rintro r (⟨hnone, -⟩ | hblock)
      · exact Or.inl ⟨hnone, Or.inl (not_le.mp hbound)⟩
      · exact Or.inr hblock
    rw [if_neg hbound]
    by_cases hshort : (n : ℤ) < lz464Klimit
    · rw [if_pos hshort]
      refine (returns_lz4CompressGeneric hn hacceleration (fun _ => hshort_of hshort)
        (fun _ => le_rfl) ?_).mono hdone
      · intro hnotLimited
        cases hnotLimited
    · rw [if_neg hshort]
      refine (returns_lz4CompressGeneric hn hacceleration ?_ (fun _ => le_rfl) ?_).mono hdone
      · intro htable
        cases htable
      · intro hnotLimited
        cases hnotLimited

/-- **A conforming block.**  Whatever the source and the acceleration, `LZ4_compress_fast` stays
inside its buffers.  It fails only if the target is shorter than the bound or the source is too
large; otherwise the target begins with a conforming block of the source, not longer than the
bound. -/
theorem lz4CompressFast_writes_block (source dst : Bytes) (n : ℕ) (hn : n ≤ source.length)
    (acceleration : ℤ) :
    (lz4CompressFast source dst n dst.length acceleration).Returns fun r =>
      (r.1 = 0 ∧ ((dst.length : ℤ) < lz4CompressBound n ∨ lz4MaxInputSize < n)) ∨
        (0 < r.1 ∧ r.1 ≤ dst.length ∧ r.1 ≤ n + n / 255 + 16 ∧ r.2.length = dst.length ∧
          ∃ b : Lz4Block, b.Conforming ∧ b.content = source.take n ∧ r.2.take r.1 = b.bytes) := by
  refine (returns_lz4CompressFast dst hn acceleration).mono ?_
  rintro r (hnone | hblock)
  · exact Or.inl hnone
  · obtain ⟨b, hb, hcontent, -, hr, hroom, hlen, htake⟩ := hblock.take_eq
    have hle := b.length_bytes_le
    rw [hcontent, List.length_take_of_le hn, ← hr] at hle
    have hpos := b.length_bytes_pos
    rw [← hr] at hpos
    exact Or.inr ⟨hpos, hroom, hle, hlen, b, hb, hcontent, htake⟩

theorem lz4CompressFast_twenty_blanks :
    (lz4CompressFast (List.replicate 20 32) (List.replicate 40 0) 20 40 1).Returns fun r =>
      0 < r.1 ∧ r.1 ≤ 36 := by
  have h := lz4CompressFast_writes_block (List.replicate 20 32) (List.replicate 40 0) 20
    (by decide) 1
  refine h.mono ?_
  rintro r (⟨-, hshort | hlarge⟩ | ⟨hpos, -, hle, -⟩)
  · exact absurd hshort (by decide)
  · exact absurd hlarge (by decide)
  · exact ⟨hpos, hle⟩

/-! ## Decompressing -/

/-- A block that ends well is decoded to its content. -/
theorem returns_lz4DecompressSafe_bytes (dst : Bytes) {b : Lz4Block} (hends : b.EndsWell)
    (hreaches : b.Reaches []) (hspare : dst = [] → b.spare = 0)
    (hfits : b.content.length ≤ dst.length) :
    (lz4DecompressSafe b.bytes dst dst.length).Returns fun r => r.1 = b.content.length ∧
      r.2.length = dst.length ∧ r.2.take b.content.length = b.content := by
  refine (returns_lz4DecompressGeneric b.bytes dst).mono ?_
  rintro r (⟨-, hnone⟩ | ⟨b', hbytes, -, hr, -, hlen, htake⟩)
  · exact absurd rfl (hnone b hends hreaches hfits hspare)
  · obtain rfl := Lz4Block.bytes_inj hbytes
    exact ⟨hr, hlen, htake⟩

end

/-- **Any bytes.**  `LZ4_decompress_safe` stays inside its buffers, whatever it is given.  When
it does not fail, the bytes are a block, the matches of which stay inside the output, and the
target begins with the content of the block. -/
theorem lz4DecompressSafe_sound (src dst : Bytes) :
    (lz4DecompressSafe src dst dst.length).Returns fun r => 0 ≤ r.1 →
      r.2.length = dst.length ∧ ∃ b : Lz4Block, b.bytes = src ∧ b.Reaches [] ∧
        r.1 = b.content.length ∧ b.content.length ≤ dst.length ∧
          r.2.take b.content.length = b.content := by
  refine (returns_lz4DecompressGeneric src dst).mono ?_
  rintro r (⟨hneg, -⟩ | ⟨b, hbytes, hreaches, hr, hfits, hlen, htake⟩) hpos
  · omega
  · exact ⟨hlen, b, hbytes, hreaches, hr, hfits, htake⟩

/-- **Every block.**  A block that ends well, the content of which fits, is decoded, whoever
made it and whatever the target holds.  A target without any room takes one block only. -/
theorem lz4DecompressSafe_complete (b : Lz4Block) (hends : b.EndsWell) (hreaches : b.Reaches [])
    (dst : Bytes) (hfits : b.content.length ≤ dst.length) (hspare : dst = [] → b.spare = 0) :
    (lz4DecompressSafe b.bytes dst dst.length).Returns fun r => r.1 = b.content.length ∧
      r.2.length = dst.length ∧ r.2.take b.content.length = b.content :=
  returns_lz4DecompressSafe_bytes dst hends hreaches hspare hfits

/-- A match that overlaps itself. -/
theorem lz4DecompressSafe_overlapping :
    (lz4DecompressSafe [0x35, 97, 98, 99, 2, 0, 0x57, 100, 101, 102, 103, 104]
      (List.replicate 30 0) 30).Returns fun r => r.1 = 17 ∧ r.2.take 17 =
        [97, 98, 99, 98, 99, 98, 99, 98, 99, 98, 99, 98, 100, 101, 102, 103, 104] := by
  have h := lz4DecompressSafe_complete
    ⟨[⟨⟨[97, 98, 99], 2, 9⟩, by decide, by decide⟩], [100, 101, 102, 103, 104], 7, by decide⟩
    ⟨fun _ => by decide, by decide⟩ ⟨Nat.le_add_left 2 1, trivial⟩ (List.replicate 30 0)
    (by decide) (by decide)
  exact h.mono fun r hr => ⟨hr.1, hr.2.2⟩

/-- **The round trip.**  What `LZ4_compress_fast` writes is decoded to the source, in every target
that is not shorter.  It fails only if its own target is shorter than the bound or the source is
too large. -/
theorem lz4_round_trip (source dst : Bytes) (acceleration : ℤ) :
    (lz4CompressFast source dst source.length dst.length acceleration).Returns fun r =>
      (r.1 = 0 ∧ ((dst.length : ℤ) < lz4CompressBound source.length ∨
        lz4MaxInputSize < source.length)) ∨
      ∀ target : Bytes, source.length ≤ target.length →
        (lz4DecompressSafe (r.2.take r.1) target target.length).Returns fun t =>
          t.1 = source.length ∧ t.2.length = target.length ∧ t.2.take source.length = source := by
  refine (returns_lz4CompressFast dst le_rfl acceleration).mono ?_
  rintro r (hnone | hblock)
  · exact Or.inl hnone
  · obtain ⟨b, hb, hcontent, hspare, -, -, -, htake⟩ := hblock.take_eq
    refine Or.inr fun target htarget => ?_
    rw [List.take_length] at hcontent
    have hdecoded := returns_lz4DecompressSafe_bytes target hb.toEndsWell hb.reaches
      (fun _ => hspare) (hcontent ▸ htarget)
    rwa [hcontent, ← htake] at hdecoded

end LogAgg
