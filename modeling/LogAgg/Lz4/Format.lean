import LogAgg.CString.Basic
import LogAgg.Lz77.CopyBack

/-!
# Blocks

What an LZ4 block is, apart from the code that writes and reads it: sequences of literals and
a match each, and literals at the end.  A token holds the two lengths of a sequence in four
bits each; a length that fills them goes on in further bytes.

* `Lz4Sequence`, `Lz4Block`: with `bytes`, as they lie in memory, and `content`, what they
  stand for.
* `Lz4Block.Conforming`: the restrictions on the end of a block, which decoders rely on.
* `Lz4Block.length_bytes_le`: however a content is cut into sequences, the block is not much
  longer.
-/

namespace LogAgg

open Lz77

/-! ## Lengths -/

/-- The bytes in which a length goes on. -/
def lengthBytes (n : ℕ) : Bytes := List.replicate (n / 255) 255 ++ [UInt8.ofNat (n % 255)]

/-- What a length takes besides its four bits. -/
def extension (n : ℕ) : Bytes := if n < 15 then [] else lengthBytes (n - 15)

/-- The token, of the number of literals and the code of the match length. -/
def tokenByte (literals code : ℕ) : UInt8 := UInt8.ofNat (16 * min literals 15 + min code 15)

@[simp] theorem length_lengthBytes (n : ℕ) : (lengthBytes n).length = n / 255 + 1 := by
  rw [lengthBytes, List.length_append, List.length_replicate, List.length_singleton]

theorem extension_of_lt {n : ℕ} (h : n < 15) : extension n = [] := if_pos h

theorem extension_of_le {n : ℕ} (h : 15 ≤ n) : extension n = lengthBytes (n - 15) :=
  if_neg (by omega)

theorem length_extension (n : ℕ) : (extension n).length = (n + 240) / 255 := by
  by_cases h : n < 15
  · rw [extension_of_lt h, List.length_nil]
    omega
  · rw [extension_of_le (by omega), length_lengthBytes]
    omega

theorem toNat_tokenByte (literals code : ℕ) :
    (tokenByte literals code).toNat = 16 * min literals 15 + min code 15 := by
  rw [tokenByte, UInt8.toNat_ofNat']
  omega

/-! ## Sequences -/

/-- A sequence.  The match has four bytes at least, and its offset fits in two. -/
structure Lz4Sequence extends Factor UInt8 where
  minmatch_le : 4 ≤ matchLength
  offset_lt : offset < 65536

namespace Lz4Sequence

/-- A sequence in memory. -/
def bytes (q : Lz4Sequence) : Bytes :=
  tokenByte q.literals.length (q.matchLength - 4) ::
    (extension q.literals.length ++ q.literals ++
      [UInt8.ofNat q.offset, UInt8.ofNat (q.offset / 256)] ++ extension (q.matchLength - 4))

theorem length_bytes (q : Lz4Sequence) : q.bytes.length =
    3 + (q.literals.length + 240) / 255 + q.literals.length + (q.matchLength - 4 + 240) / 255 := by
  rw [bytes, List.length_cons, List.length_append, List.length_append, List.length_append,
    length_extension, length_extension, List.length_cons, List.length_singleton]
  omega

end Lz4Sequence

/-- What the sequences make of the output so far. -/
def expandSequences (qs : List Lz4Sequence) (out : Bytes) : Bytes :=
  expand (qs.map Lz4Sequence.toFactor) out

@[simp] theorem expandSequences_nil (out : Bytes) : expandSequences [] out = out := rfl

@[simp] theorem expandSequences_cons (q : Lz4Sequence) (qs : List Lz4Sequence) (out : Bytes) :
    expandSequences (q :: qs) out = expandSequences qs (q.expand out) := rfl

theorem expandSequences_append (qs rs : List Lz4Sequence) (out : Bytes) :
    expandSequences (qs ++ rs) out = expandSequences rs (expandSequences qs out) := by
  rw [expandSequences, List.map_append, expand_append]
  rfl

theorem length_le_length_expandSequences (qs : List Lz4Sequence) (out : Bytes) :
    out.length ≤ (expandSequences qs out).length := length_le_length_expand _ _

/-- A sequence is not longer than what it stands for, but for the bytes that the number of its
literals takes. -/
theorem length_flatMap_bytes_le (qs : List Lz4Sequence) (out : Bytes) :
    (qs.flatMap Lz4Sequence.bytes).length ≤
      ((expandSequences qs out).length - out.length) +
        ((expandSequences qs out).length - out.length) / 255 := by
  induction qs generalizing out with
  | nil => exact Nat.zero_le _
  | cons q qs ih =>
    have hrest := ih (q.expand out)
    have hgrow := length_le_length_expandSequences qs (q.expand out)
    have hexpand := q.toFactor.length_expand out
    have hmatch := q.minmatch_le
    rw [List.flatMap_cons, List.length_append, q.length_bytes, expandSequences_cons]
    omega

/-! ## Blocks -/

/-- A block: sequences, and literals behind the last of them.  The low bits of the last token
mean nothing. -/
structure Lz4Block where
  sequences : List Lz4Sequence
  lastLiterals : Bytes
  spare : ℕ
  spare_lt : spare < 16

namespace Lz4Block

/-- The literals at the end, in memory. -/
def lastBytes (b : Lz4Block) : Bytes :=
  UInt8.ofNat (16 * min b.lastLiterals.length 15 + b.spare) ::
    (extension b.lastLiterals.length ++ b.lastLiterals)

/-- A block in memory. -/
def bytes (b : Lz4Block) : Bytes := b.sequences.flatMap Lz4Sequence.bytes ++ b.lastBytes

/-- What a block stands for, behind some output. -/
def contentBehind (b : Lz4Block) (out : Bytes) : Bytes :=
  expandSequences b.sequences out ++ b.lastLiterals

/-- What a block stands for. -/
def content (b : Lz4Block) : Bytes := b.contentBehind []

/-- No match reaches before the start. -/
def Reaches (b : Lz4Block) (out : Bytes) : Prop :=
  Reach (b.sequences.map Lz4Sequence.toFactor) out

/-- The restrictions on the end of a block: the last five bytes are literals, and the last
match starts twelve bytes before the end at the latest. -/
structure EndsWell (b : Lz4Block) : Prop where
  lastliterals_le : b.sequences ≠ [] → 5 ≤ b.lastLiterals.length
  mflimit_le : ∀ q ∈ b.sequences.getLast?, 12 ≤ q.matchLength + b.lastLiterals.length

/-- A block as the format asks for. -/
structure Conforming (b : Lz4Block) : Prop extends b.EndsWell where
  reaches : b.Reaches []
  offset_pos : ∀ q ∈ b.sequences, 0 < q.offset

theorem length_lastBytes (b : Lz4Block) :
    b.lastBytes.length = 1 + (b.lastLiterals.length + 240) / 255 + b.lastLiterals.length := by
  rw [lastBytes, List.length_cons, List.length_append, length_extension]
  omega

theorem length_bytes_pos (b : Lz4Block) : 0 < b.bytes.length := by
  rw [bytes, List.length_append, length_lastBytes]
  omega

theorem length_content (b : Lz4Block) :
    b.content.length = (expandSequences b.sequences []).length + b.lastLiterals.length :=
  List.length_append

/-- **The bound.**  However a content is cut into sequences, the block has at most one byte for
each byte of it, one more for every 255 of them, and sixteen. -/
theorem length_bytes_le (b : Lz4Block) :
    b.bytes.length ≤ b.content.length + b.content.length / 255 + 16 := by
  have hsequences := length_flatMap_bytes_le b.sequences []
  rw [List.length_nil, Nat.sub_zero] at hsequences
  rw [bytes, List.length_append, length_lastBytes, length_content]
  omega

end Lz4Block

end LogAgg
