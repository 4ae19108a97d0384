import LogAgg.Lz4.Emit
import LogAgg.Lz77.Repeat

/-!
# Copying matches

The decoder copies a match in strides of 8, 16 or 32 bytes.  Where the offset is smaller than
the stride it first writes eight bytes of the repetition, and then goes on from a multiple of
the offset before, which `inc32table` and `dec64table` find for each offset below eight.  The
offset zero, which no compressor writes, gives zeros.

`Ready` says that copying may go on in strides of eight bytes; `Copied` that the match is
there.
-/

namespace LogAgg

open Memory Lz77

/-! ## The code -/

/-- `inc32table`. -/
def inc32table : List ℕ := [0, 1, 2, 1, 0, 4, 4, 4]

/-- `dec64table`. -/
def dec64table : List ℤ := [0, 0, 0, -1, -4, 1, 2, 3]

/-- `match += inc32table[offset]; LZ4_memcpy(op+4, match, 4); match -= dec64table[offset];`. -/
def lz4CopySecondWord (obj : Bytes) (op mtch offset : ℕ) : Outcome (Bytes × ℕ) := do
  let mtch := mtch + inc32table.getD offset 0
  let obj ← memcpyWithin 4 obj (op + 4) mtch
  return (obj, ((mtch : ℤ) - dec64table.getD offset 0).toNat)

/-- `LZ4_wildCopy8` within an object. -/
def lz4WildCopy8 (obj : Bytes) (d s e : ℕ) : Outcome Bytes :=
  wildCopy 8 (memcpyWithin 8) obj d s e

/-- `LZ4_wildCopy32` within an object. -/
def lz4WildCopy32 (obj : Bytes) (d s e : ℕ) : Outcome Bytes :=
  wildCopy 32 (memcpyTwice (memcpyWithin 16) 16) obj d s e

/-- `LZ4_memcpy_using_offset_base`. -/
def lz4MemcpyUsingOffsetBase (obj : Bytes) (dstPtr srcPtr dstEnd offset : ℕ) : Outcome Bytes :=
  if offset < 8 then do
    let obj ← write obj dstPtr (List.replicate 4 0)
    let obj ← memcpyWithin 2 obj dstPtr srcPtr
    let obj ← memcpyWithin 2 obj (dstPtr + 2) (srcPtr + 2)
    let r ← lz4CopySecondWord obj dstPtr srcPtr offset
    lz4WildCopy8 r.1 (dstPtr + 8) r.2 dstEnd
  else do
    let obj ← memcpyWithin 8 obj dstPtr srcPtr
    lz4WildCopy8 obj (dstPtr + 8) (srcPtr + 8) dstEnd

/-- Writing eight bytes again and again, from `dstPtr` to `dstEnd`. -/
def lz4Fill (obj v : Bytes) (dstPtr dstEnd : ℕ) : Outcome Bytes :=
  wildCopy 8 (fun obj d _ => write obj d v) obj dstPtr 0 dstEnd

/-- `LZ4_memcpy_using_offset`. -/
def lz4MemcpyUsingOffset (obj : Bytes) (dstPtr srcPtr dstEnd offset : ℕ) : Outcome Bytes :=
  if offset = 1 then do
    let b ← read obj srcPtr 1
    lz4Fill obj (b ++ b ++ b ++ b ++ b ++ b ++ b ++ b) dstPtr dstEnd
  else if offset = 2 then do
    let b ← read obj srcPtr 2
    lz4Fill obj (b ++ b ++ (b ++ b)) dstPtr dstEnd
  else if offset = 4 then do
    let b ← read obj srcPtr 4
    lz4Fill obj (b ++ b) dstPtr dstEnd
  else lz4MemcpyUsingOffsetBase obj dstPtr srcPtr dstEnd offset

/-- Eighteen bytes at once. -/
def lz4Copy18 (obj : Bytes) (op mtch : ℕ) : Outcome Bytes := do
  let obj ← memcpyWithin 8 obj op mtch
  let obj ← memcpyWithin 8 obj (op + 8) (mtch + 8)
  memcpyWithin 2 obj (op + 16) (mtch + 16)

/-- The first eight bytes of a match, in the loop for the end of the block. -/
def lz4CopyFirst (obj : Bytes) (op mtch offset : ℕ) : Outcome (Bytes × ℕ) :=
  if offset < 8 then do
    let obj ← write obj op (List.replicate 4 0)
    let obj ← memcpyWithin 1 obj op mtch
    let obj ← memcpyWithin 1 obj (op + 1) (mtch + 1)
    let obj ← memcpyWithin 1 obj (op + 2) (mtch + 2)
    let obj ← memcpyWithin 1 obj (op + 3) (mtch + 3)
    lz4CopySecondWord obj op mtch offset
  else do
    let obj ← memcpyWithin 8 obj op mtch
    return (obj, mtch + 8)

/-! ## What is copied -/

/-- The match has been copied to `op`. -/
structure Copied (obj obj' : Bytes) (op offset n : ℕ) : Prop where
  length_eq : obj'.length = obj.length
  take_eq : obj'.take (op + n) = copyBack offset n (obj.take op)

/-- The match has been copied up to `d`, and the eight bytes from `s` on come next. -/
def Ready (obj : Bytes) (op offset : ℕ) (cur : Bytes) (d s : ℕ) : Prop :=
  ∃ p i m base, 0 < p ∧ p ≤ i ∧ i ≤ d ∧ i ≤ op + 4 ∧ base.length = obj.length ∧
    Repeats p base cur i d ∧ s + m * p = d ∧ i ≤ s + p ∧ s + 8 ≤ d ∧
    ∀ n, 4 ≤ n → op + n ≤ obj.length →
      copyBack p (op + n - i) (base.take i) = copyBack offset n (obj.take op)

namespace Ready

variable {obj cur : Bytes} {op offset d s : ℕ}

theorem length_eq (h : Ready obj op offset cur d s) : cur.length = obj.length := by
  obtain ⟨p, i, m, base, -, -, -, -, hbase, hcur, -⟩ := h
  exact hcur.length_eq.trans hbase

/-- From eight bytes before copying may start at once. -/
theorem start (hoffset : 8 ≤ offset) (hop : offset ≤ op) :
    Ready obj op offset obj op (op - offset) := by
  refine ⟨offset, op, 1, obj, by omega, hop, le_rfl, by omega, rfl, Repeats.refl _ _ _, by omega,
    by omega, by omega, fun n _ _ => ?_⟩
  rw [Nat.add_sub_cancel_left]

/-- A stride of at most eight bytes. -/
theorem stride (h : Ready obj op offset cur d s) {w : ℕ} (hw : w ≤ 8)
    (hroom : d + w ≤ obj.length) :
    (memcpyWithin w cur d s).Returns fun cur' => Ready obj op offset cur' (d + w) (s + w) := by
  obtain ⟨p, i, m, base, hp, hpi, hid, hi, hbase, hcur, hm, hstart, hs, hcopy⟩ := h
  refine (hcur.copy hid hp (by omega) hm hstart (by omega) (by omega)).mono fun cur' hcur' => ?_
  exact ⟨p, i, m, base, hp, hpi, by omega, hi, hbase, hcur', by omega, by omega, by omega, hcopy⟩

/-- Strides of at most eight bytes, up to `e`. -/
theorem wildCopy (h : Ready obj op offset cur d s) {w e : ℕ} (hpos : 0 < w) (hw : w ≤ 8)
    (hroom : d + w ≤ obj.length) (hroom' : e + (w - 1) ≤ obj.length) :
    (Memory.wildCopy w (memcpyWithin w) cur d s e).Returns fun cur' =>
      Ready obj op offset cur' (max d e) (s + (max d e - d)) := by
  obtain ⟨p, i, m, base, hp, hpi, hid, hi, hbase, hcur, hm, hstart, hs, hcopy⟩ := h
  refine (hcur.wildCopy (s := s) hpos (by omega) (by omega) fun cur k hcur hk => ?_).mono
    fun cur' hcur' => ?_
  · exact hcur.copy (m := m) (by omega) hp (by omega) (by omega) (by omega) (by omega) hk
  · exact ⟨p, i, m, base, hp, hpi, by omega, hi, hbase, hcur', by omega, by omega, by omega,
      hcopy⟩

/-- Enough was copied. -/
theorem copied (h : Ready obj op offset cur d s) {n : ℕ} (hn : 4 ≤ n) (hd : op + n ≤ d)
    (hroom : op + n ≤ obj.length) : Copied obj cur op offset n := by
  have hlen := h.length_eq
  obtain ⟨p, i, m, base, hp, hpi, hid, hi, hbase, hcur, hm, hstart, hs, hcopy⟩ := h
  refine ⟨hlen, ?_⟩
  rw [← hcopy n hn hroom]
  exact (hcur.mono hd).take_eq hp hpi (by omega) (by omega)

end Ready

/-! ## The first bytes -/

/-- Four zeros are the start of a match with the offset zero. -/
theorem copyBack_zeros (n : ℕ) (out : Bytes) :
    copyBack 4 n (out ++ List.replicate 4 0) = out ++ List.replicate (4 + n) 0 := by
  have hlen : (out ++ List.replicate 4 (0 : UInt8)).length = out.length + 4 := by
    rw [List.length_append, List.length_replicate]
  have hall : (out ++ List.replicate (4 + n) (0 : UInt8)).length = out.length + 4 + n := by
    rw [List.length_append, List.length_replicate, Nat.add_assoc]
  have htake : (out ++ List.replicate (4 + n) (0 : UInt8)).take (out.length + 4 + n) =
      copyBack 4 n ((out ++ List.replicate (4 + n) (0 : UInt8)).take (out.length + 4)) :=
    take_add_eq_copyBack (by omega) (by omega) hall.ge fun k hk hkn => by
      rw [List.getElem?_append_right (by omega), List.getElem?_append_right (by omega),
        List.getElem?_replicate_of_lt (by omega), List.getElem?_replicate_of_lt (by omega)]
  rw [List.take_of_length_le hall.le] at htake
  rw [htake, ← List.replicate_append_replicate, ← List.append_assoc, List.take_left' hlen]

/-- The second four bytes, and where the next eight come from, for the offset zero. -/
theorem returns_lz4CopySecondWord_zero {obj cur : Bytes} {op : ℕ}
    (hcur : Written obj cur op (List.replicate 4 0)) (hroom : op + 8 ≤ obj.length) :
    (lz4CopySecondWord cur op op 0).Returns fun r => Ready obj op 0 r.1 (op + 8) r.2 := by
  have hlen := hcur.length_eq
  rw [lz4CopySecondWord]
  refine ((Repeats.refl 4 cur (op + 4)).copy (w := 4) (s := op) (m := 1) le_rfl (by omega)
    (by omega) (by omega) le_rfl le_rfl (by omega)).bind fun cur' hcur' => ?_
  refine Outcome.returns_ret ⟨4, op + 4, 2, cur, by omega, by omega, by omega, le_rfl, hlen,
    hcur', ?_, ?_, ?_, fun n hn hop => ?_⟩
  · show ((op : ℤ) - 0).toNat + 2 * 4 = op + 8
    omega
  · show op + 4 ≤ ((op : ℤ) - 0).toNat + 4
    omega
  · show ((op : ℤ) - 0).toNat + 8 ≤ op + 8
    omega
  · have htake := hcur.take_eq
    rw [List.length_replicate] at htake
    rw [htake, copyBack_zeros, copyBack_offset_zero]
    congr 2
    omega

/-- What the two tables are for: the sources of the second four bytes and of the next eight lie
a multiple of the offset before them, and not before the match. -/
theorem inc32table_dec64table : ∀ offset < 8, 0 < offset → ∃ m ≤ 4, ∃ m' ≤ (8 : ℕ),
    inc32table.getD offset 0 + m * offset = 4 + offset ∧ inc32table.getD offset 0 ≤ offset ∧
      (inc32table.getD offset 0 : ℤ) - dec64table.getD offset 0 + m' * offset = 8 + offset ∧
      (0 : ℤ) ≤ inc32table.getD offset 0 - dec64table.getD offset 0 ∧
      (inc32table.getD offset 0 : ℤ) - dec64table.getD offset 0 ≤ offset := by
  decide

/-- The second four bytes, and where the next eight come from. -/
theorem returns_lz4CopySecondWord {obj cur : Bytes} {op offset : ℕ} (hpos : 0 < offset)
    (hoffset : offset < 8) (hop : offset ≤ op) (hcur : Repeats offset obj cur op (op + 4))
    (hroom : op + 8 ≤ obj.length) :
    (lz4CopySecondWord cur op (op - offset) offset).Returns fun r =>
      Ready obj op offset r.1 (op + 8) r.2 := by
  obtain ⟨m, -, m', -, hm, hinc, hm', hstart, hend⟩ := inc32table_dec64table offset hoffset hpos
  rw [lz4CopySecondWord]
  refine (hcur.copy (w := 4) (m := m) (by omega) hpos (by omega) (by omega) (by omega) (by omega)
    (by omega)).bind fun cur' hcur' => ?_
  set s := ((op - offset + inc32table.getD offset 0 : ℕ) : ℤ) - dec64table.getD offset 0
    with hs
  push_cast [Nat.cast_sub hop] at hs
  refine Outcome.returns_ret ⟨offset, op, m', obj, hpos, hop, by omega, by omega, rfl, hcur',
    ?_, ?_, ?_, fun n hn hroom => ?_⟩
  · show s.toNat + m' * offset = op + 8
    zify
    rw [Int.toNat_of_nonneg (by omega)]
    linarith
  · show op ≤ s.toNat + offset
    omega
  · show s.toNat + 8 ≤ op + 8
    omega
  · rw [Nat.add_sub_cancel_left]

/-- The first eight bytes, byte by byte. -/
theorem returns_lz4CopyFirst {obj : Bytes} {op offset : ℕ} (hop : offset ≤ op)
    (hroom : op + 8 ≤ obj.length) :
    (lz4CopyFirst obj op (op - offset) offset).Returns fun r =>
      Ready obj op offset r.1 (op + 8) r.2 := by
  rw [lz4CopyFirst]
  by_cases hnear : offset < 8
  · rw [if_pos hnear]
    refine (returns_write (by rw [List.length_replicate]; omega)).bind fun cur0 hcur0 => ?_
    rcases Nat.eq_zero_or_pos offset with rfl | hpos
    · have hlen := hcur0.length_eq
      rw [Nat.sub_zero, memcpyWithin_self (by omega), Outcome.ret_bind,
        memcpyWithin_self (by omega), Outcome.ret_bind, memcpyWithin_self (by omega),
        Outcome.ret_bind, memcpyWithin_self (by omega), Outcome.ret_bind]
      exact returns_lz4CopySecondWord_zero hcur0 hroom
    · have h0 := Repeats.of_written offset hcur0 (by omega)
      refine (h0.copy (w := 1) (m := 1) le_rfl hpos hop (by omega) (by omega) (by omega)
        (by omega)).bind fun cur1 h1 => ?_
      refine (h1.copy (w := 1) (m := 1) (by omega) hpos (by omega) (by omega) (by omega) (by omega)
        (by omega)).bind fun cur2 h2 => ?_
      refine (h2.copy (w := 1) (m := 1) (by omega) hpos (by omega) (by omega) (by omega) (by omega)
        (by omega)).bind fun cur3 h3 => ?_
      refine (h3.copy (w := 1) (m := 1) (by omega) hpos (by omega) (by omega) (by omega) (by omega)
        (by omega)).bind fun cur4 h4 => ?_
      exact returns_lz4CopySecondWord hpos hnear hop h4 hroom
  · rw [if_neg hnear]
    refine ((Ready.start (by omega) hop).stride le_rfl hroom).bind fun cur hcur => ?_
    exact Outcome.returns_ret hcur

/-! ## Whole matches -/

theorem Copied.of_repeats {obj obj' : Bytes} {op offset n e : ℕ} (hpos : 0 < offset)
    (hop : offset ≤ op) (h : Repeats offset obj obj' op e) (he : op + n ≤ e)
    (hroom : op + n ≤ obj.length) : Copied obj obj' op offset n where
  length_eq := h.length_eq
  take_eq := by
    have htake := (h.mono he).take_eq hpos hop (Nat.le_add_right op n) hroom
    rwa [Nat.add_sub_cancel_left] at htake

section

variable {obj : Bytes} {op offset n : ℕ}

/-- The shortcut for matches of eighteen bytes at most. -/
theorem returns_lz4Copy18 (hoffset : 8 ≤ offset) (hop : offset ≤ op) (hn : 4 ≤ n) (hn' : n ≤ 18)
    (hroom : op + 18 ≤ obj.length) :
    (lz4Copy18 obj op (op - offset)).Returns fun obj' => Copied obj obj' op offset n := by
  rw [lz4Copy18]
  refine ((Ready.start hoffset hop).stride le_rfl (by omega)).bind fun cur1 h1 => ?_
  refine (h1.stride le_rfl (by omega)).bind fun cur2 h2 => ?_
  refine (h2.stride (w := 2) (by omega) (by omega)).mono fun cur3 h3 => ?_
  exact h3.copied hn (by omega) (by omega)

/-- Strides of thirty-two bytes. -/
theorem returns_lz4WildCopy32 (hoffset : 16 ≤ offset) (hop : offset ≤ op)
    (hroom : op + n + 32 ≤ obj.length) :
    (lz4WildCopy32 obj op (op - offset) (op + n)).Returns fun obj' =>
      Copied obj obj' op offset n := by
  have hpos : 0 < offset := by omega
  refine ((Repeats.refl offset obj op).wildCopy (s := op - offset) (by omega) (by omega) (by omega)
    fun cur k hcur hk => ?_).mono fun cur' hcur' => ?_
  · refine (hcur.copy (w := 16) (m := 1) (Nat.le_add_right op k) hpos (by omega) (by omega)
      (by omega) (by omega) (by omega)).bind fun cur1 h1 => ?_
    exact h1.copy (w := 16) (m := 1) (by omega) hpos (by omega) (by omega) (by omega) (by omega)
      (by omega)
  · exact Copied.of_repeats hpos hop hcur' (le_max_right _ _) (by omega)

/-- Filling with a pattern that has the length of the offset, as often as it fits in eight. -/
theorem returns_lz4Fill {v : Bytes} {c : ℕ} (hc : offset * c = 8) (hop : offset ≤ op)
    (hv : v.length = 8)
    (hcells : ∀ j < 8, v[j]? = if j < offset then obj[op - offset + j]? else v[j - offset]?)
    (hroom : op + n + 8 ≤ obj.length) :
    (lz4Fill obj v op (op + n)).Returns fun obj' => Copied obj obj' op offset n := by
  have hpos : 0 < offset := by
    refine Nat.pos_of_ne_zero fun hzero => ?_
    rw [hzero, Nat.zero_mul] at hc
    omega
  refine (returns_wildCopy (by omega) (P := fun cur k => (∃ m, m * offset = k) ∧
    Repeats offset obj cur op (op + k)) ⟨⟨0, Nat.zero_mul _⟩, Repeats.refl _ _ _⟩ ?_).mono ?_
  · rintro cur _ ⟨⟨m, rfl⟩, hcur⟩ hk
    have hwrite := hcur.write v (Nat.le_add_right _ _) (by omega) (fun j hj => ?_) hpos
      (by omega)
    · rw [hv] at hwrite
      refine hwrite.mono fun cur' hcur' => ⟨⟨m + c, ?_⟩, ?_⟩
      · rw [Nat.add_mul, Nat.mul_comm c, hc]
      · rwa [← Nat.add_assoc]
    · rw [hcells j (by omega)]
      by_cases hnear : j < offset
      · -- the pattern is what lies before the match, by all the strides so far
        rw [if_pos hnear, if_pos hnear,
          hcur.getElem?_sub_mul (m := m) (k := op + m * offset + j - offset) (by omega)
            (by omega),
          show op + m * offset + j - offset - m * offset = op - offset + j by omega,
          hcur.before _ (by omega)]
      · rw [if_neg hnear, if_neg hnear]
  · rintro cur' ⟨k, hk, -, hcur'⟩
    exact Copied.of_repeats hpos hop hcur' hk (by omega)

/-- The cells before a match, which make up its pattern. -/
theorem getElem?_take_drop_sub (obj : Bytes) (op offset j : ℕ) (hj : j < offset) :
    ((obj.drop (op - offset)).take offset)[j]? = obj[op - offset + j]? := by
  rw [List.getElem?_take_of_lt hj, List.getElem?_drop]

theorem returns_lz4MemcpyUsingOffsetBase (hoffset : offset = 0 ∨ 3 ≤ offset) (hop : offset ≤ op)
    (hn : 4 ≤ n) (hroom : op + n + 16 ≤ obj.length) :
    (lz4MemcpyUsingOffsetBase obj op (op - offset) (op + n) offset).Returns fun obj' =>
      Copied obj obj' op offset n := by
  have hrest : ∀ {cur s}, Ready obj op offset cur (op + 8) s →
      (lz4WildCopy8 cur (op + 8) s (op + n)).Returns fun obj' => Copied obj obj' op offset n := by
    intro cur s hcur
    refine (hcur.wildCopy (by omega) le_rfl (by omega) (by omega)).mono fun cur' hcur' => ?_
    exact hcur'.copied hn (le_max_right _ _) (by omega)
  rw [lz4MemcpyUsingOffsetBase]
  by_cases hnear : offset < 8
  · rw [if_pos hnear]
    refine (returns_write (by rw [List.length_replicate]; omega)).bind fun cur0 hcur0 => ?_
    rcases hoffset with rfl | hthree
    · have hlen := hcur0.length_eq
      rw [Nat.sub_zero, memcpyWithin_self (by omega), Outcome.ret_bind,
        memcpyWithin_self (by omega), Outcome.ret_bind]
      exact (returns_lz4CopySecondWord_zero hcur0 (by omega)).bind fun r hr => hrest hr
    · have hpos : 0 < offset := by omega
      have h0 := Repeats.of_written offset hcur0 (by omega)
      refine (h0.copy (w := 2) (m := 1) le_rfl hpos hop (by omega) (by omega) (by omega)
        (by omega)).bind fun cur1 h1 => ?_
      refine (h1.copy (w := 2) (m := 1) (by omega) hpos (by omega) (by omega) (by omega) (by omega)
        (by omega)).bind fun cur2 h2 => ?_
      exact (returns_lz4CopySecondWord hpos hnear hop h2 (by omega)).bind fun r hr => hrest hr
  · rw [if_neg hnear]
    refine ((Ready.start (by omega) hop).stride le_rfl (by omega)).bind fun cur hcur => ?_
    exact hrest hcur

/-- Every offset below sixteen. -/
theorem returns_lz4MemcpyUsingOffset (hop : offset ≤ op) (hn : 4 ≤ n)
    (hroom : op + n + 16 ≤ obj.length) :
    (lz4MemcpyUsingOffset obj op (op - offset) (op + n) offset).Returns fun obj' =>
      Copied obj obj' op offset n := by
  have hin : op - offset + offset ≤ obj.length := by omega
  have hlen := length_take_drop hin
  rw [lz4MemcpyUsingOffset]
  by_cases h1 : offset = 1
  · subst h1
    rw [if_pos rfl, read_of_le hin, Outcome.ret_bind]
    obtain ⟨b, hb⟩ := List.length_eq_one_iff.mp hlen
    have hcell := getElem?_take_drop_sub obj op 1
    rw [hb] at hcell ⊢
    refine returns_lz4Fill (c := 8) rfl hop rfl (fun j hj => ?_) (by omega)
    by_cases hj1 : j < 1
    · rw [if_pos hj1, ← hcell j hj1]
      interval_cases j
      rfl
    · rw [if_neg hj1]
      interval_cases j <;> rfl
  · rw [if_neg h1]
    by_cases h2 : offset = 2
    · subst h2
      rw [if_pos rfl, read_of_le hin, Outcome.ret_bind]
      obtain ⟨b, c, hb⟩ := List.length_eq_two.mp hlen
      have hcell := getElem?_take_drop_sub obj op 2
      rw [hb] at hcell ⊢
      refine returns_lz4Fill (c := 4) rfl hop rfl (fun j hj => ?_) (by omega)
      by_cases hj2 : j < 2
      · rw [if_pos hj2, ← hcell j hj2]
        interval_cases j <;> rfl
      · rw [if_neg hj2]
        interval_cases j <;> rfl
    · rw [if_neg h2]
      by_cases h4 : offset = 4
      · subst h4
        rw [if_pos rfl, read_of_le hin, Outcome.ret_bind]
        have hcell := getElem?_take_drop_sub obj op 4
        set b := (obj.drop (op - 4)).take 4 with hb
        refine returns_lz4Fill (c := 2) rfl hop (by rw [List.length_append, hlen])
          (fun j hj => ?_) (by omega)
        by_cases hj4 : j < 4
        · rw [if_pos hj4, List.getElem?_append_left (by omega), hcell j hj4]
        · rw [if_neg hj4, List.getElem?_append_right (by omega), hlen,
            List.getElem?_append_left (by omega)]
      · rw [if_neg h4]
        exact returns_lz4MemcpyUsingOffsetBase (by omega) hop hn hroom

end

end LogAgg
