import LogAgg.Lz4.Format
import LogAgg.Lz4.Words

/-!
# Writing sequences

What the compressor writes: tokens and lengths, literals, copied in strides that run over
their end, and matches, whose length is written in words of four bytes that run over their end
too.  `Written` takes care of what lies beyond, as long as there is room for it; how much room
is needed, and which of the tests of the source provides it, is what the lemmas here say.
-/

namespace LogAgg

open Memory Lz77

/-- `MINMATCH`. -/
abbrev minmatch : ℕ := 4

/-- `LASTLITERALS`. -/
abbrev lastliterals : ℕ := 5

/-- `MFLIMIT`. -/
abbrev mflimit : ℕ := 12

/-- `RUN_MASK`. -/
abbrev runMask : ℕ := 15

/-- `ML_MASK`. -/
abbrev mlMask : ℕ := 15

/-- `limitedOutput_directive`, without `fillOutput`. -/
inductive LimitedOutputDirective where
  | notLimited
  | limitedOutput
  deriving DecidableEq

/-- `tableType_t`, without the tables of pointers. -/
inductive TableType where
  | byU32
  | byU16
  deriving DecidableEq

/-- What `LZ4_compress_generic_validated` works on: the source, the room in the target, and
what was decided at compile time. -/
structure Lz4Job where
  source : Bytes
  inputSize : ℕ
  maxOutputSize : ℕ
  outputDirective : LimitedOutputDirective
  tableType : TableType
  acceleration : ℕ

/-- `matchlimit`. -/
def Lz4Job.matchlimit (job : Lz4Job) : ℕ := job.inputSize - lastliterals

/-- The output is limited, and ends before `op`. -/
abbrev Lz4Job.Overflows (job : Lz4Job) (op : ℕ) : Prop :=
  job.outputDirective = .limitedOutput ∧ job.maxOutputSize < op

/-! ## Lengths -/

/-- A turn of `for (; len >= 255; len -= 255) *op++ = 255;`, with `*op++ = (BYTE)len;` at the
end. -/
def lz4WriteLengthTurn (s : Bytes × ℕ × ℕ) : Outcome ((Bytes × ℕ × ℕ) ⊕ (Bytes × ℕ)) :=
  if 255 ≤ s.2.2 then do
    let dst ← store s.1 s.2.1 255
    return .inl (dst, s.2.1 + 1, s.2.2 - 255)
  else do
    let dst ← store s.1 s.2.1 (UInt8.ofNat s.2.2)
    return .inr (dst, s.2.1 + 1)

/-- The further bytes of the length of a run. -/
def lz4WriteLength (dst : Bytes) (op len : ℕ) : Outcome (Bytes × ℕ) :=
  loop lz4WriteLengthTurn (len + 1) (dst, op, len)

/-- The token and the length of a run of literals. -/
def lz4WriteRun (dst : Bytes) (token litLength : ℕ) : Outcome (Bytes × ℕ) :=
  if runMask ≤ litLength then do
    let dst ← store dst token (UInt8.ofNat (runMask * 16))
    lz4WriteLength dst (token + 1) (litLength - runMask)
  else do
    let dst ← store dst token (UInt8.ofNat (litLength * 16))
    return (dst, token + 1)

/-- A turn of `while (matchCode >= 4*255) { op += 4; LZ4_write32(op, 0xFFFFFFFF); matchCode -=
4*255; }`. -/
def lz4WriteMatchLengthTurn (s : Bytes × ℕ × ℕ) : Outcome ((Bytes × ℕ × ℕ) ⊕ (Bytes × ℕ × ℕ)) :=
  if 4 * 255 ≤ s.2.2 then do
    let dst ← write s.1 (s.2.1 + 4) (List.replicate 4 255)
    return .inl (dst, s.2.1 + 4, s.2.2 - 4 * 255)
  else return .inr s

/-- The further bytes of the length of a match. -/
def lz4WriteMatchLength (dst : Bytes) (op matchCode : ℕ) : Outcome (Bytes × ℕ) := do
  let dst ← write dst op (List.replicate 4 255)
  let s ← loop lz4WriteMatchLengthTurn (matchCode + 1) (dst, op, matchCode)
  let dst ← store s.1 (s.2.1 + s.2.2 / 255) (UInt8.ofNat (s.2.2 % 255))
  return (dst, s.2.1 + s.2.2 / 255 + 1)

theorem returns_lz4WriteLength {dst : Bytes} {op len : ℕ} (hroom : op + len / 255 + 1 ≤ dst.length) :
    (lz4WriteLength dst op len).Returns fun r =>
      Written dst r.1 op (lengthBytes len) ∧ r.2 = op + (lengthBytes len).length := by
  refine returns_loop (I := fun s => ∃ k, s.2.1 = op + k ∧ len = s.2.2 + k * 255 ∧
    Written dst s.1 op (List.replicate k 255)) (fun s => s.2.2) ?_
    ⟨0, rfl, (Nat.zero_mul 255).symm ▸ rfl, Written.refl _ _⟩ (Nat.lt_succ_self _)
  rintro ⟨cur, _, rest⟩ ⟨k, rfl, hlen, hcur⟩
  simp only at hlen hcur
  have hroom' := hcur.length_eq
  have hdiv : len / 255 = rest / 255 + k := by
    rw [hlen, Nat.add_mul_div_right _ _ (by omega)]
  have hbytes : op + (List.replicate k (255 : UInt8)).length = op + k := by
    rw [List.length_replicate]
  simp only [lz4WriteLengthTurn]
  by_cases hmore : 255 ≤ rest
  · rw [if_pos hmore]
    refine (store_returns (by omega) 255).bind fun cur' hcur' => ?_
    refine Outcome.returns_ret ⟨⟨k + 1, rfl, ?_, ?_⟩, ?_⟩
    · rw [Nat.succ_mul]
      show len = rest - 255 + (k * 255 + 255)
      omega
    · rw [List.replicate_succ']
      exact hcur.append (hbytes.symm ▸ hcur')
    · show rest - 255 < rest
      omega
  · rw [if_neg hmore]
    refine (store_returns (by omega) (UInt8.ofNat rest)).bind fun cur' hcur' => ?_
    have hlengthBytes : lengthBytes len = List.replicate k 255 ++ [UInt8.ofNat rest] := by
      rw [lengthBytes, hdiv, hlen, Nat.add_mul_mod_self_right, Nat.div_eq_of_lt (by omega),
        Nat.mod_eq_of_lt (by omega), Nat.zero_add]
    refine Outcome.returns_ret ⟨?_, ?_⟩
    · rw [hlengthBytes]
      exact hcur.append (hbytes.symm ▸ hcur')
    · rw [length_lengthBytes, hdiv, Nat.div_eq_of_lt (by omega)]
      show op + k + 1 = _
      omega

theorem returns_lz4WriteRun {dst : Bytes} {token litLength : ℕ}
    (hroom : token + 1 + (litLength + 240) / 255 ≤ dst.length) :
    (lz4WriteRun dst token litLength).Returns fun r =>
      Written dst r.1 token (tokenByte litLength 0 :: extension litLength) ∧
        r.2 = token + 1 + (extension litLength).length := by
  simp only [lz4WriteRun, runMask]
  by_cases hlong : 15 ≤ litLength
  · rw [if_pos hlong, extension_of_le hlong, tokenByte, Nat.min_eq_right hlong]
    refine (store_returns (by omega) _).bind fun dst1 hdst1 => ?_
    have hlen := hdst1.length_eq
    refine (returns_lz4WriteLength (by omega)).mono ?_
    rintro ⟨dst2, op⟩ ⟨hdst2, hop⟩
    exact ⟨hdst1.append hdst2, hop⟩
  · rw [if_neg hlong, extension_of_lt (by omega), tokenByte, Nat.min_eq_left (by omega),
      Nat.mul_comm]
    exact (store_returns (by omega) _).bind fun dst1 hdst1 => Outcome.returns_ret ⟨hdst1, rfl⟩

theorem returns_lz4WriteMatchLength {dst : Bytes} {op matchCode : ℕ}
    (hroom : op + 4 * (matchCode / 1020) + 4 ≤ dst.length) :
    (lz4WriteMatchLength dst op matchCode).Returns fun r =>
      Written dst r.1 op (lengthBytes matchCode) ∧ r.2 = op + (lengthBytes matchCode).length := by
  rw [lz4WriteMatchLength]
  refine (returns_write (by rw [List.length_replicate]; omega)).bind fun dst1 hdst1 => ?_
  have hloop : (loop lz4WriteMatchLengthTurn (matchCode + 1) (dst1, op, matchCode)).Returns
      fun s => ∃ k, s.2.1 = op + 4 * k ∧ matchCode = s.2.2 + k * 1020 ∧ s.2.2 < 1020 ∧
        Written dst s.1 op (List.replicate (4 * k + 4) 255) := by
    refine returns_loop (I := fun s => ∃ k, s.2.1 = op + 4 * k ∧ matchCode = s.2.2 + k * 1020 ∧
      Written dst s.1 op (List.replicate (4 * k + 4) 255)) (fun s => s.2.2) ?_
      ⟨0, rfl, (Nat.zero_mul 1020).symm ▸ rfl, hdst1⟩ (Nat.lt_succ_self _)
    rintro ⟨cur, _, rest⟩ ⟨k, rfl, hcode, hcur⟩
    simp only at hcode hcur
    have hlen := hcur.length_eq
    simp only [lz4WriteMatchLengthTurn]
    by_cases hmore : 4 * 255 ≤ rest
    · rw [if_pos hmore]
      refine (returns_write (by rw [List.length_replicate]; omega)).bind fun cur' hcur' => ?_
      refine Outcome.returns_ret ⟨⟨k + 1, ?_, ?_, ?_⟩, ?_⟩
      · show op + 4 * k + 4 = op + 4 * (k + 1)
        omega
      · show matchCode = rest - 4 * 255 + (k + 1) * 1020
        omega
      · rw [show 4 * (k + 1) + 4 = 4 * k + 4 + 4 by omega, ← List.replicate_append_replicate]
        refine hcur.append ?_
        rwa [List.length_replicate, ← Nat.add_assoc]
      · show rest - 4 * 255 < rest
        omega
    · rw [if_neg hmore]
      exact Outcome.returns_ret ⟨k, rfl, hcode, by simpa using hmore, hcur⟩
  refine hloop.bind ?_
  rintro ⟨cur, _, rest⟩ ⟨k, rfl, hcode, hrest, hcur⟩
  simp only at hcode hrest hcur ⊢
  have hlen := hcur.length_eq
  have hdiv : matchCode / 255 = 4 * k + rest / 255 := by omega
  refine (store_returns (by omega) _).bind fun cur' hcur' => ?_
  refine Outcome.returns_ret ⟨?_, ?_⟩
  · have hsplit : List.replicate (4 * k + 4) (255 : UInt8) =
        List.replicate (4 * k + rest / 255) 255 ++ List.replicate (4 - rest / 255) 255 := by
      rw [List.replicate_append_replicate]
      congr 1
      omega
    have hmod : matchCode % 255 = rest % 255 := by omega
    rw [lengthBytes, hdiv, hmod]
    refine ((hsplit ▸ hcur).of_append (by omega)).append ?_
    rwa [List.length_replicate, ← Nat.add_assoc]
  · rw [length_lengthBytes, hdiv]
    omega

/-! ## Sequences -/

/-- `Encode Literals`, with the position of the token: nothing when the output is limited and
has no room for them. -/
def lz4EncodeLiterals (job : Lz4Job) (dst : Bytes) (token anchor ip : ℕ) :
    Outcome (Option (Bytes × ℕ)) := do
  let litLength := ip - anchor
  if job.Overflows (token + 1 + litLength + (2 + 1 + lastliterals) + litLength / 255) then
    return none
  else do
    let r ← lz4WriteRun dst token litLength
    let dst ← wildCopy 8 (memcpy job.source 8) r.1 r.2 anchor (r.2 + litLength)
    return some (dst, r.2 + litLength)

/-- `Encode Offset` and `Encode MatchLength`, with where the input goes on: only the target when
the output is limited and has no room for the length. -/
def lz4EncodeMatch (job : Lz4Job) (dst : Bytes) (op token ip mtch : ℕ) :
    Outcome (Except Bytes (Bytes × ℕ × ℕ)) := do
  let dst ← write dst op [UInt8.ofNat (ip - mtch), UInt8.ofNat ((ip - mtch) / 256)]
  let op := op + 2
  let matchCode ← lz4Count job.source (ip + minmatch) (mtch + minmatch) job.matchlimit
  let ip := ip + matchCode + minmatch
  if job.Overflows (op + (1 + lastliterals) + (matchCode + 240) / 255) then return .error dst
  else do
    let t ← load dst token
    if mlMask ≤ matchCode then do
      let dst ← store dst token (t + UInt8.ofNat mlMask)
      let r ← lz4WriteMatchLength dst op (matchCode - mlMask)
      return .ok (r.1, r.2, ip)
    else do
      let dst ← store dst token (t + UInt8.ofNat matchCode)
      return .ok (dst, op, ip)

/-- `_last_literals`, with the length of the block: none when the output is limited and has no
room for them. -/
def lz4LastLiterals (job : Lz4Job) (dst : Bytes) (op anchor : ℕ) : Outcome (ℕ × Bytes) := do
  let lastRun := job.inputSize - anchor
  if job.Overflows (op + lastRun + 1 + (lastRun + 255 - runMask) / 255) then return (0, dst)
  else do
    let r ← lz4WriteRun dst op lastRun
    let dst ← memcpy job.source lastRun r.1 r.2 anchor
    return (r.2 + lastRun, dst)

section

variable {job : Lz4Job} {dst : Bytes} {token anchor ip mtch op : ℕ}

/-- The literals are written behind their token, if the output is not too limited.  Where it is
not limited at all, the room has to be known. -/
theorem returns_lz4EncodeLiterals (hanchor : anchor ≤ ip) (hip : ip + mflimit ≤ job.source.length)
    (hmax : job.outputDirective = .limitedOutput → job.maxOutputSize ≤ dst.length)
    (hroom : job.outputDirective = .notLimited →
      token + 1 + (ip - anchor) + 8 + (ip - anchor) / 255 ≤ dst.length) :
    (lz4EncodeLiterals job dst token anchor ip).Returns fun r =>
      (r = none → job.outputDirective = .limitedOutput) ∧
        ∀ q ∈ r, Written dst q.1 token (tokenByte (ip - anchor) 0 ::
            (extension (ip - anchor) ++ (job.source.drop anchor).take (ip - anchor))) ∧
          q.2 = token + 1 + (extension (ip - anchor)).length + (ip - anchor) ∧
          q.2 + 2 ≤ dst.length := by
  simp only [mflimit] at hip
  simp only [lz4EncodeLiterals, lastliterals]
  by_cases hover : job.Overflows (token + 1 + (ip - anchor) + (2 + 1 + 5) + (ip - anchor) / 255)
  · rw [if_pos hover]
    exact Outcome.returns_ret ⟨fun _ => hover.1, nofun⟩
  · rw [if_neg hover]
    have hfits : token + 1 + (ip - anchor) + 8 + (ip - anchor) / 255 ≤ dst.length := by
      cases hdirective : job.outputDirective with
      | notLimited => exact hroom hdirective
      | limitedOutput =>
        rw [Lz4Job.Overflows, not_and] at hover
        have hle := hover hdirective
        have hcapacity := hmax hdirective
        omega
    have hext := length_extension (ip - anchor)
    refine (returns_lz4WriteRun (by omega)).bind ?_
    rintro ⟨dst1, op⟩ ⟨hdst1, hop⟩
    simp only at hop
    have hlen := hdst1.length_eq
    refine (returns_wildCopy_memcpy (by omega) (by omega) (by omega) (by omega) (by omega)
      (by omega)).bind fun dst2 hdst2 => ?_
    refine Outcome.returns_ret ⟨nofun, ?_⟩
    rintro _ ⟨⟩
    rw [Nat.add_sub_cancel_left] at hdst2
    refine ⟨hdst1.append ?_, by rw [hop], by omega⟩
    rwa [List.length_cons, show token + ((extension (ip - anchor)).length + 1) = op by omega]

theorem tokenByte_add {literals code : ℕ} :
    tokenByte literals 0 + UInt8.ofNat (min code 15) = tokenByte literals code := by
  rw [tokenByte, tokenByte, ← UInt8.ofNat_add]
  congr 1

/-- The match is written behind its literals, and as long as it can be. -/
theorem returns_lz4EncodeMatch {dst0 : Bytes} {literals : ℕ} {mid : Bytes}
    (htoken : token ≤ dst0.length)
    (hdst : Written dst0 dst token (tokenByte literals 0 :: mid))
    (hop : op = token + 1 + mid.length) (hsize : job.inputSize ≤ job.source.length)
    (hmtch : mtch < ip) (hip : ip + mflimit ≤ job.inputSize)
    (hmax : job.outputDirective = .limitedOutput → job.maxOutputSize ≤ dst0.length)
    (hroom : op + 2 ≤ dst0.length)
    (hroom' : job.outputDirective = .notLimited → ∀ matchCode,
      ip + minmatch + matchCode + lastliterals ≤ job.inputSize →
        op + 2 + 6 + (matchCode + 240) / 255 ≤ dst0.length) :
    (lz4EncodeMatch job dst op token ip mtch).Returns fun r =>
      (∀ d, r = .error d → job.outputDirective = .limitedOutput) ∧
        ∀ q, r = .ok q → ∃ matchCode, q.2.2 = ip + matchCode + 4 ∧
          Counting job.source (ip + 4) (mtch + 4) job.matchlimit 1 matchCode ∧
          Written dst0 q.1 token (tokenByte literals matchCode :: (mid ++
            [UInt8.ofNat (ip - mtch), UInt8.ofNat ((ip - mtch) / 256)] ++ extension matchCode)) ∧
          q.2.1 = op + 2 + (extension matchCode).length ∧ q.2.1 + 6 ≤ dst0.length := by
  simp only [mflimit, minmatch, lastliterals] at hip hroom'
  have hlen := hdst.length_eq
  simp only [lz4EncodeMatch, minmatch, lastliterals, mlMask]
  have hfit : op + [UInt8.ofNat (ip - mtch), UInt8.ofNat ((ip - mtch) / 256)].length ≤
      dst.length := by
    rw [List.length_cons, List.length_singleton]
    omega
  refine (returns_write hfit).bind fun dst1 hdst1 => ?_
  have hoffset : Written dst0 dst1 token (tokenByte literals 0 ::
      (mid ++ [UInt8.ofNat (ip - mtch), UInt8.ofNat ((ip - mtch) / 256)])) := by
    refine hdst.append ?_
    rwa [List.length_cons, show token + (mid.length + 1) = op by omega]
  have hlimit : job.matchlimit = job.inputSize - 5 := rfl
  refine (returns_lz4Count (by omega) (by omega) (by omega)).bind fun matchCode hcount => ?_
  have hle := hcount.le
  by_cases hover : job.Overflows (op + 2 + (1 + 5) + (matchCode + 240) / 255)
  · rw [if_pos hover]
    exact Outcome.returns_ret ⟨fun _ _ => hover.1, nofun⟩
  · rw [if_neg hover]
    have hfits : op + 2 + 6 + (matchCode + 240) / 255 ≤ dst0.length := by
      cases hdirective : job.outputDirective with
      | notLimited => exact hroom' hdirective matchCode (by omega)
      | limitedOutput =>
        rw [Lz4Job.Overflows, not_and] at hover
        have hle := hover hdirective
        have hcapacity := hmax hdirective
        omega
    have hext := length_extension matchCode
    have hlen1 := hoffset.length_eq
    rw [hoffset.load_eq htoken, Outcome.ret_bind]
    have hset : ∀ code, min matchCode 15 = code →
        Written dst0 (dst1.set token (tokenByte literals 0 + UInt8.ofNat code)) token
          (tokenByte literals matchCode ::
            (mid ++ [UInt8.ofNat (ip - mtch), UInt8.ofNat ((ip - mtch) / 256)])) := by
      rintro code rfl
      rw [tokenByte_add]
      exact hoffset.set htoken
    by_cases hlong : 15 ≤ matchCode
    · rw [if_pos hlong, store_of_lt (by omega), Outcome.ret_bind]
      have hdst2 := hset 15 (Nat.min_eq_right hlong)
      have hlen2 := hdst2.length_eq
      refine (returns_lz4WriteMatchLength (by omega)).bind ?_
      rintro ⟨dst3, op'⟩ ⟨hdst3, hop'⟩
      rw [← extension_of_le hlong] at hdst3 hop'
      simp only at hop'
      refine Outcome.returns_ret ⟨nofun, ?_⟩
      rintro _ ⟨⟩
      refine ⟨matchCode, rfl, hcount, ?_, hop', by simp only; omega⟩
      refine hdst2.append ?_
      rwa [List.length_cons, List.length_append, List.length_cons, List.length_singleton,
        show token + (mid.length + (1 + 1) + 1) = op + 2 by omega]
    · rw [if_neg hlong, store_of_lt (by omega), Outcome.ret_bind]
      refine Outcome.returns_ret ⟨nofun, ?_⟩
      rintro _ ⟨⟩
      have hnil : extension matchCode = [] := extension_of_lt (by omega)
      refine ⟨matchCode, rfl, hcount, ?_, ?_, by simp only; omega⟩
      · rw [hnil, List.append_nil]
        exact hset matchCode (Nat.min_eq_left (by omega))
      · rw [hnil]
        rfl

/-- The literals at the end are written, if the output is not too limited. -/
theorem returns_lz4LastLiterals (hsize : job.inputSize ≤ job.source.length)
    (hmax : job.outputDirective = .limitedOutput → job.maxOutputSize ≤ dst.length)
    (hroom : job.outputDirective = .notLimited →
      op + 1 + (job.inputSize - anchor + 240) / 255 + (job.inputSize - anchor) ≤ dst.length)
    (hanchor : anchor ≤ job.inputSize) :
    (lz4LastLiterals job dst op anchor).Returns fun r =>
      (r.1 = 0 ∧ job.outputDirective = .limitedOutput) ∨
        Written dst r.2 op (tokenByte (job.inputSize - anchor) 0 ::
            (extension (job.inputSize - anchor) ++
              (job.source.drop anchor).take (job.inputSize - anchor))) ∧
          r.1 = op + 1 + (extension (job.inputSize - anchor)).length +
            (job.inputSize - anchor) := by
  simp only [lz4LastLiterals, runMask]
  by_cases hover : job.Overflows (op + (job.inputSize - anchor) + 1 +
      (job.inputSize - anchor + 255 - 15) / 255)
  · rw [if_pos hover]
    exact Outcome.returns_ret (Or.inl ⟨rfl, hover.1⟩)
  · rw [if_neg hover]
    have hfits : op + 1 + (job.inputSize - anchor + 240) / 255 + (job.inputSize - anchor) ≤
        dst.length := by
      cases hdirective : job.outputDirective with
      | notLimited => exact hroom hdirective
      | limitedOutput =>
        rw [Lz4Job.Overflows, not_and] at hover
        have hle := hover hdirective
        have hcapacity := hmax hdirective
        omega
    have hext := length_extension (job.inputSize - anchor)
    refine (returns_lz4WriteRun (by omega)).bind ?_
    rintro ⟨dst1, op'⟩ ⟨hdst1, hop'⟩
    simp only at hop'
    have hlen := hdst1.length_eq
    refine (returns_memcpy (by omega) (by omega)).bind fun dst2 hdst2 => ?_
    refine Outcome.returns_ret (Or.inr ⟨hdst1.append ?_, by rw [hop']⟩)
    rwa [List.length_cons,
      show op + ((extension (job.inputSize - anchor)).length + 1) = op' by omega]

end

end LogAgg
