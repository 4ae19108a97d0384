import LogAgg.Lz4.Decompress

/-!
# What is decoded

A turn of either loop decodes one sequence, or the literals at the end, or it gives up, and
then no rest of a block that ends well lies ahead (`TurnDone`).  Hence a run
(`returns_lz4DecompressGeneric`): on every source, and whatever the target holds, the function
returns, without an access outside of the two; when it succeeds the source is a block and the
target starts with its content, and it succeeds on every block that ends well and fits.
-/

namespace LogAgg

open Memory Lz77

/-- What a turn does. -/
def TurnDone (src : Bytes) (ip op : ℕ) (dst : Bytes) : Lz4Turn → Prop :=
  Sum.elim
    (fun t => ∃ q : Lz4Sequence, Reads src ip q.bytes t.ip ∧
      q.offset ≤ op + q.literals.length ∧ t.op = op + q.literals.length + q.matchLength ∧
      t.dst.length = dst.length ∧ t.dst.take t.op = q.expand (dst.take op) ∧
      t.ip < src.length ∧ t.op ≤ dst.length ∧ (t.fast = true → t.op + 64 ≤ dst.length))
    (fun r => (r.1 < 0 ∧ ∀ b, ¬ Expects src dst.length ip (dst.take op) b) ∨
      ∃ b : Lz4Block, b.sequences = [] ∧ src.drop ip = b.bytes ∧
        r.1 = (op + b.lastLiterals.length : ℕ) ∧ op + b.lastLiterals.length ≤ dst.length ∧
        r.2.length = dst.length ∧
        r.2.take (op + b.lastLiterals.length) = dst.take op ++ b.lastLiterals)

section

variable {src dst dst1 : Bytes} {ip op ip1 n offset : ℕ} {token : UInt8} {literals : Bytes}

/-- The literals and the match behind them are a sequence. -/
theorem turnDone_of_matchDone {ip2 : ℕ} (hop : op ≤ dst.length)
    (htoken : token.toNat / 16 = min literals.length 15) (hoffset : offset < 65536)
    (hread : Reads src ip (token :: (extension literals.length ++ literals ++
      [UInt8.ofNat offset, UInt8.ofNat (offset / 256)])) ip2)
    (hdst : Written dst dst1 op literals) {r : Lz4Turn}
    (h : MatchDone src ip2 (op + literals.length) offset token dst1 r) :
    TurnDone src ip op dst r := by
  have hlen := hdst.length_eq
  have hout : (dst.take op).length = op := List.length_take_of_le hop
  cases r with
  | inl t =>
    obtain ⟨code, hcode, htoken', hreach, htop, hcopied, htip, hfits, hfast⟩ := h
    let q : Lz4Sequence :=
      ⟨⟨literals, offset, code + 4⟩, Nat.le_add_left 4 code, hoffset⟩
    have hbytes : q.bytes = token :: (extension literals.length ++ literals ++
        [UInt8.ofNat offset, UInt8.ofNat (offset / 256)]) ++ extension code := by
      rw [Lz4Sequence.bytes, List.cons_append]
      show tokenByte literals.length (code + 4 - 4) :: (extension literals.length ++ literals ++
        [UInt8.ofNat offset, UInt8.ofNat (offset / 256)] ++ extension (code + 4 - 4)) = _
      rw [Nat.add_sub_cancel, tokenByte_eq htoken htoken']
    refine ⟨q, ?_, hreach, htop, hcopied.length_eq.trans hlen, ?_, htip, hlen ▸ hfits, hlen ▸ hfast⟩
    · rw [hbytes]
      exact hread.trans hcode
    · rw [htop, hcopied.take_eq, hdst.take_eq]
      rfl
  | inr r =>
    refine Or.inl ⟨h.1, fun b hb => h.2 ?_⟩
    have hawaits := hb.awaitsMatch htoken hoffset hread
    rwa [hout, ← hlen] at hawaits

/-! ## Literals -/

/-- A length that cannot be read is none that lies ahead. -/
theorem not_expects_of_none {out : Bytes} {oend : ℕ} (hload : load src ip = .ret token)
    (htoken : token.toNat / 16 = 15)
    (hnone : ∀ n rest, src.drop (ip + 1) = lengthBytes n ++ rest →
      src.length - 15 < ip + 1 + (lengthBytes n).length) (b : Lz4Block) :
    ¬ Expects src oend ip out b := by
  intro hb
  obtain ⟨token', n, literals, rest, hn, htoken', hdrop⟩ := hb.run
  have hsplit := (Reads.of_load hload).drop_eq
  rw [hdrop, List.singleton_append, List.cons.injEq] at hsplit
  obtain ⟨rfl, hrest⟩ := hsplit
  rw [extension_of_le (by omega)] at hrest
  have hlt := hnone _ _ hrest.symm
  have hlen := congrArg List.length hrest
  rw [List.length_append, List.length_append, List.length_drop] at hlen
  omega

/-- `safe_literal_copy`. -/
theorem returns_lz4SafeLiteralCopy (hop : op ≤ dst.length)
    (htoken : token.toNat / 16 = min n 15) (hread : Reads src ip (token :: extension n) ip1) :
    (lz4SafeLiteralCopy src dst.length ip1 op n token dst).Returns (TurnDone src ip op dst) := by
  have hout : (dst.take op).length = op := List.length_take_of_le hop
  simp only [lz4SafeLiteralCopy, mflimit, lastliterals]
  by_cases hend : dst.length < op + n + 12 ∨ src.length < ip1 + n + (2 + 1 + 5)
  · rw [if_pos hend]
    by_cases hbad : ip1 + n ≠ src.length ∨ dst.length < op + n
    · rw [if_pos hbad]
      refine Outcome.returns_ret (Or.inl ⟨output_error_neg ip1, fun b hb => ?_⟩)
      rcases hb.literals htoken hread with hlast | hmore
      · rw [hout] at hlast
        omega
      · rw [hout] at hmore
        omega
    · rw [if_neg hbad]
      obtain ⟨hall, hfits⟩ := not_or.mp hbad
      have hlits : ((src.drop ip1).take n).length = n := length_take_drop (by omega)
      refine (returns_memcpy (by omega) (by omega)).bind fun dst' hdst' => ?_
      refine Outcome.returns_ret (Or.inr ⟨⟨[], (src.drop ip1).take n, token.toNat % 16,
        Nat.mod_lt _ (by omega)⟩, rfl, ?_, ?_, ?_, hdst'.length_eq, ?_⟩)
      · rw [Lz4Block.bytes, Lz4Block.lastBytes, List.flatMap_nil, List.nil_append]
        simp only [hlits]
        rw [← htoken, Nat.div_add_mod, UInt8.ofNat_toNat, hread.drop_eq,
          List.take_of_length_le (by rw [List.length_drop]; omega), List.cons_append]
      · simp only [hlits]
      · simp only [hlits]
        omega
      · simp only [hlits]
        have htake := hdst'.take_eq
        rwa [hlits] at htake
  · rw [if_neg hend]
    obtain ⟨hroom, hmore⟩ := not_or.mp hend
    have hlits : ((src.drop ip1).take n).length = n := length_take_drop (by omega)
    refine (returns_wildCopy_memcpy (by omega) (by omega) (by omega) (by omega) (by omega)
      (by omega)).bind fun dst1 hdst1 => ?_
    rw [Nat.add_sub_cancel_left] at hdst1
    have hlen := hdst1.length_eq
    refine (returns_lz4ReadLE16 (by omega)).bind ?_
    rintro offset ⟨hoffset, hreadOffset⟩
    have hall := (hread.trans (Reads.slice (by omega))).trans hreadOffset
    rw [← hlen]
    refine (returns_lz4CopyMatch (by omega) (by omega)).mono fun r hr => ?_
    have hread' : Reads src ip (token :: (extension ((src.drop ip1).take n).length ++
        (src.drop ip1).take n ++ [UInt8.ofNat offset, UInt8.ofNat (offset / 256)]))
        (ip1 + n + 2) := by
      rw [hlits]
      exact hall
    exact turnDone_of_matchDone hop (by rwa [hlits]) hoffset hread' hdst1 (by rwa [hlits])

/-- `safe_literal_copy_early`. -/
theorem returns_lz4SafeLiteralCopyEarly (hop : op ≤ dst.length)
    (hload : load src ip = .ret token) :
    (lz4SafeLiteralCopyEarly src dst.length (ip + 1) op token dst).Returns
      (TurnDone src ip op dst) := by
  have hbyte := Reads.of_load hload
  have htoken := token.toNat_lt
  simp only [lz4SafeLiteralCopyEarly, runMask]
  by_cases hlong : token.toNat / 16 = 15
  · rw [if_pos hlong]
    refine (returns_readVariableLength (by omega)).bind ?_
    rintro ⟨addl, ip'⟩ ⟨hsome, hnone⟩
    cases addl with
    | none =>
      exact Outcome.returns_ret (Or.inl ⟨output_error_neg ip',
        not_expects_of_none hload hlong (hnone rfl)⟩)
    | some n =>
      obtain ⟨hread, hle⟩ := hsome n rfl
      rw [hlong]
      exact returns_lz4SafeLiteralCopy hop (by omega) (hbyte.trans (reads_extension hread))
  · rw [if_neg hlong]
    refine returns_lz4SafeLiteralCopy hop (by omega) ?_
    rw [extension_of_lt (by omega)]
    exact hbyte

/-- A stripe of sixteen bytes holds the literals that are counted in the token. -/
theorem returns_memcpy_stripe (hn : n ≤ 16) (hsrc : ip1 + 16 ≤ src.length)
    (hdst : op + 16 ≤ dst.length) :
    (memcpy src 16 dst op ip1).Returns fun dst1 => Written dst dst1 op ((src.drop ip1).take n) := by
  refine (returns_memcpy hsrc hdst).mono fun dst1 hdst1 => ?_
  have hsplit : (src.drop ip1).take 16 =
      (src.drop ip1).take n ++ ((src.drop ip1).drop n).take (16 - n) := by
    rw [← List.take_add, Nat.add_sub_cancel' hn]
  exact (hsplit ▸ hdst1).of_append (by omega)

/-! ## The turns -/

/-- The loop for the end of the block. -/
theorem returns_lz4SafeTurn (hip : ip < src.length) (hop : op ≤ dst.length) :
    (lz4SafeTurn src dst.length ip op dst).Returns (TurnDone src ip op dst) := by
  have hload := load_of_lt hip
  rw [lz4SafeTurn, hload, Outcome.ret_bind]
  simp only [runMask, mlMask, minmatch]
  generalize src[ip] = token at hload
  have htoken := token.toNat_lt
  by_cases hshort : token.toNat / 16 ≠ 15 ∧ ip + 1 + 16 < src.length ∧ op + 32 ≤ dst.length
  · rw [if_pos hshort]
    obtain ⟨hn, hsrc, hroom⟩ := hshort
    set n := token.toNat / 16 with hnibble
    have hlits : ((src.drop (ip + 1)).take n).length = n := length_take_drop (by omega)
    refine (returns_memcpy_stripe (n := n) (by omega) (by omega) (by omega)).bind
      fun dst1 hdst1 => ?_
    have hlen := hdst1.length_eq
    refine (returns_lz4ReadLE16 (by omega)).bind ?_
    rintro offset ⟨hoffset, hreadOffset⟩
    have hall := ((Reads.of_load hload).trans (Reads.slice (n := n) (by omega))).trans hreadOffset
    have hmatch : ∀ r, MatchDone src (ip + 1 + n + 2) (op + n) offset token dst1 r →
        TurnDone src ip op dst r := by
      intro r hr
      have hread : Reads src ip (token :: (extension ((src.drop (ip + 1)).take n).length ++
          (src.drop (ip + 1)).take n ++ [UInt8.ofNat offset, UInt8.ofNat (offset / 256)]))
          (ip + 1 + n + 2) := by
        rw [hlits, extension_of_lt (by omega)]
        exact hall
      exact turnDone_of_matchDone hop (by rw [hlits]; omega) hoffset hread hdst1
        (by rwa [hlits])
    by_cases hcopy : token.toNat % 16 ≠ 15 ∧ 8 ≤ offset ∧ offset ≤ op + n
    · rw [if_pos hcopy]
      obtain ⟨hcode, height, hreach⟩ := hcopy
      obtain ⟨hmin, hreads⟩ := reads_extension_nil src (ip + 1 + n + 2) hcode
      refine (returns_lz4Copy18 (n := token.toNat % 16 + 4) height hreach (by omega) (by omega)
        (by omega)).bind fun dst2 hdst2 => ?_
      refine Outcome.returns_ret (hmatch _ ⟨token.toNat % 16, hreads, hmin, hreach, rfl, hdst2,
        ?_, ?_, nofun⟩)
      · show ip + 1 + n + 2 < src.length
        omega
      · show op + n + (token.toNat % 16 + 4) ≤ dst1.length
        omega
    · rw [if_neg hcopy, ← hlen]
      exact (returns_lz4CopyMatch (by omega) (by omega)).mono hmatch
  · rw [if_neg hshort]
    exact returns_lz4SafeLiteralCopyEarly hop hload

/-- The last part of the other loop. -/
theorem returns_lz4FastMatchCopy {code ip' : ℕ} (hroom : op + (code + 4) + 64 ≤ dst.length)
    (htoken : token.toNat % 16 = min code 15) (hread : Reads src ip (extension code) ip')
    (hip : ip' < src.length) :
    (lz4FastMatchCopy ip' op offset (code + 4) dst).Returns
      (MatchDone src ip op offset token dst) := by
  rw [lz4FastMatchCopy]
  by_cases hfar : op < offset
  · rw [if_pos hfar]
    refine Outcome.returns_ret ⟨output_error_neg ip', fun hawaits => ?_⟩
    exact absurd (hawaits.of_reads htoken hread).1 (not_le.mpr hfar)
  · rw [if_neg hfar]
    have hoffset : offset ≤ op := not_lt.mp hfar
    have hdone : ∀ cur, Copied dst cur op offset (code + 4) →
        (Outcome.ret (.inl ⟨true, ip', op + (code + 4), cur⟩) : Outcome Lz4Turn).Returns
          (MatchDone src ip op offset token dst) := fun cur hcur =>
      Outcome.returns_ret ⟨code, hread, htoken, hoffset, rfl, hcur, hip, by simp only; omega,
        fun _ => hroom⟩
    by_cases hnear : offset < 16
    · rw [if_pos hnear]
      exact (returns_lz4MemcpyUsingOffset hoffset (by omega) (by omega)).bind hdone
    · rw [if_neg hnear]
      exact (returns_lz4WildCopy32 (by omega) hoffset (by omega)).bind hdone

/-- The loop for most of the block, behind the literals. -/
theorem returns_lz4FastMatch (hop : op ≤ dst.length)
    (htoken : token.toNat / 16 = min literals.length 15)
    (hread : Reads src ip (token :: (extension literals.length ++ literals)) ip1)
    (hdst : Written dst dst1 op literals) (hroom : op + literals.length + 32 ≤ dst.length)
    (hip1 : ip1 + 2 < src.length) :
    (lz4FastMatch src dst.length ip1 (op + literals.length) token dst1).Returns
      (TurnDone src ip op dst) := by
  have hlen := hdst.length_eq
  rw [lz4FastMatch, ← hlen]
  refine (returns_lz4ReadLE16 (by omega)).bind ?_
  rintro offset ⟨hoffset, hreadOffset⟩
  have hmatch : ∀ r, MatchDone src (ip1 + 2) (op + literals.length) offset token dst1 r →
      TurnDone src ip op dst r := fun r hr =>
    turnDone_of_matchDone hop htoken hoffset (hread.trans hreadOffset) hdst hr
  simp only [mlMask, lastliterals, minmatch]
  by_cases hlong : token.toNat % 16 = 15
  · rw [if_pos hlong]
    refine (returns_readVariableLength (by omega)).bind ?_
    rintro ⟨addl, ip'⟩ ⟨hsome, hnone⟩
    cases addl with
    | none =>
      exact Outcome.returns_ret (hmatch _
        ⟨output_error_neg ip', not_awaitsMatch_of_none hlong (hnone rfl)⟩)
    | some n =>
      obtain ⟨hread', hle⟩ := hsome n rfl
      simp only [hlong]
      by_cases hsafe : dst1.length ≤ op + literals.length + (15 + n + 4) + 64
      · rw [if_pos hsafe]
        exact (returns_lz4SafeMatchCopy (by omega) (by omega) (reads_extension hread')
          (by omega)).mono hmatch
      · rw [if_neg hsafe]
        exact (returns_lz4FastMatchCopy (by omega) (by omega) (reads_extension hread')
          (by omega)).mono hmatch
  · rw [if_neg hlong]
    obtain ⟨hmin, hreads⟩ := reads_extension_nil src (ip1 + 2) hlong
    by_cases hsafe : dst1.length ≤ op + literals.length + (token.toNat % 16 + 4) + 64
    · rw [if_pos hsafe]
      exact (returns_lz4SafeMatchCopy (by omega) hmin hreads hip1).mono hmatch
    · rw [if_neg hsafe]
      by_cases hcopy : offset ≤ op + literals.length ∧ 8 ≤ offset
      · rw [if_pos hcopy]
        obtain ⟨hreach, height⟩ := hcopy
        refine (returns_lz4Copy18 (n := token.toNat % 16 + 4) height hreach (by omega) (by omega)
          (by omega)).bind fun dst2 hdst2 => ?_
        refine Outcome.returns_ret (hmatch _ ⟨token.toNat % 16, hreads, hmin, hreach, rfl, hdst2,
          hip1, ?_, fun _ => ?_⟩)
        · show op + literals.length + (token.toNat % 16 + 4) ≤ dst1.length
          omega
        · show op + literals.length + (token.toNat % 16 + 4) + 64 ≤ dst1.length
          omega
      · rw [if_neg hcopy]
        exact (returns_lz4FastMatchCopy (by omega) hmin hreads hip1).mono hmatch

/-- The loop for most of the block. -/
theorem returns_lz4FastTurn (hip : ip < src.length) (hop : op + 64 ≤ dst.length) :
    (lz4FastTurn src dst.length ip op dst).Returns (TurnDone src ip op dst) := by
  have hload := load_of_lt hip
  rw [lz4FastTurn, hload, Outcome.ret_bind]
  simp only [runMask]
  generalize src[ip] = token at hload
  have hbyte := Reads.of_load hload
  have htoken := token.toNat_lt
  by_cases hend : src.length < ip + 1 + (16 + 1)
  · rw [if_pos hend]
    exact returns_lz4SafeLiteralCopyEarly (by omega) hload
  · rw [if_neg hend]
    by_cases hlong : token.toNat / 16 = 15
    · rw [if_pos hlong]
      refine (returns_readVariableLength (by omega)).bind ?_
      rintro ⟨addl, ip'⟩ ⟨hsome, hnone⟩
      cases addl with
      | none =>
        exact Outcome.returns_ret (Or.inl ⟨output_error_neg ip',
          not_expects_of_none hload hlong (hnone rfl)⟩)
      | some n =>
        obtain ⟨hread, hle⟩ := hsome n rfl
        have hreads := hbyte.trans (reads_extension hread)
        simp only [hlong]
        by_cases hsafe : dst.length < op + (15 + n) + 32 ∨ src.length < ip' + (15 + n) + 32
        · rw [if_pos hsafe]
          exact returns_lz4SafeLiteralCopy (by omega) (by omega) hreads
        · rw [if_neg hsafe]
          obtain ⟨hroom, hmore⟩ := not_or.mp hsafe
          have hlits : ((src.drop ip').take (15 + n)).length = 15 + n :=
            length_take_drop (by omega)
          refine (returns_wildCopy_of_copies (by omega) returns_memcpyTwice (by omega) (by omega)
            (by omega) (by omega) (by omega)).bind fun dst1 hdst1 => ?_
          rw [Nat.add_sub_cancel_left] at hdst1
          have hread : Reads src ip (token :: (extension ((src.drop ip').take (15 + n)).length ++
              (src.drop ip').take (15 + n))) (ip' + (15 + n)) := by
            rw [hlits]
            exact hreads.trans (Reads.slice (by omega))
          have hturn := returns_lz4FastMatch (by omega) (by rw [hlits]; omega) hread hdst1
            (by rw [hlits]; omega) (by omega)
          rwa [hlits] at hturn
    · rw [if_neg hlong]
      set n := token.toNat / 16 with hnibble
      have hlits : ((src.drop (ip + 1)).take n).length = n := length_take_drop (by omega)
      refine (returns_memcpy_stripe (n := n) (by omega) (by omega) (by omega)).bind
        fun dst1 hdst1 => ?_
      have hread : Reads src ip (token :: (extension ((src.drop (ip + 1)).take n).length ++
          (src.drop (ip + 1)).take n)) (ip + 1 + n) := by
        rw [hlits, extension_of_lt (by omega)]
        exact hbyte.trans (Reads.slice (by omega))
      have hturn := returns_lz4FastMatch (by omega) (by rw [hlits]; omega) hread hdst1
        (by rw [hlits]; omega) (by omega)
      rwa [hlits] at hturn

end

/-! ## A run -/

/-- What holds at the top of the loops: the sequences that were read so far stand for what the
target holds, and where a block was to be read, the rest of it lies ahead. -/
structure Lz4Decoder.Good (src dst : Bytes) (s : Lz4Decoder) : Prop where
  length_eq : s.dst.length = dst.length
  op_le : s.op ≤ dst.length
  ip_lt : s.ip < src.length
  fast_le : s.fast = true → s.op + 64 ≤ dst.length
  sequences : ∃ qs, Reads src 0 (qs.flatMap Lz4Sequence.bytes) s.ip ∧
    Reach (qs.map Lz4Sequence.toFactor) [] ∧ s.dst.take s.op = expandSequences qs []
  expects : ∀ b, Expects src dst.length 0 [] b →
    ∃ b', Expects src dst.length s.ip (s.dst.take s.op) b'

/-- How a run ends.  The low bits of the last token matter only where there is no room for any
output. -/
def DecodeDone (src dst : Bytes) (r : ℤ × Bytes) : Prop :=
  (r.1 < 0 ∧ ∀ b : Lz4Block, b.EndsWell → b.Reaches [] → b.content.length ≤ dst.length →
    (dst = [] → b.spare = 0) → b.bytes ≠ src) ∨
  ∃ b : Lz4Block, b.bytes = src ∧ b.Reaches [] ∧ r.1 = b.content.length ∧
    b.content.length ≤ dst.length ∧ r.2.length = dst.length ∧
    r.2.take b.content.length = b.content

section

variable {src dst : Bytes}

/-- **The loops keep their invariant**, and the cursor moves on. -/
theorem returns_lz4DecompressTurn (s : Lz4Decoder) (hs : s.Good src dst) :
    (lz4DecompressTurn src dst.length s).Returns (Sum.elim
      (fun t => t.Good src dst ∧ src.length - t.ip < src.length - s.ip)
      (DecodeDone src dst)) := by
  obtain ⟨qs, hread, hreach, hout⟩ := hs.sequences
  have hlen := hs.length_eq
  have hop := hs.op_le
  have hip := hs.ip_lt
  have houtlen : (s.dst.take s.op).length = s.op := List.length_take_of_le (by omega)
  have hturn : (lz4DecompressTurn src dst.length s).Returns (TurnDone src s.ip s.op s.dst) := by
    rw [lz4DecompressTurn, ← hlen]
    cases hfast : s.fast with
    | true => exact returns_lz4FastTurn hip (hlen ▸ hs.fast_le hfast)
    | false => exact returns_lz4SafeTurn hip (hlen ▸ hop)
  refine hturn.mono ?_
  rintro (t | ⟨result, dst'⟩) hr
  · obtain ⟨q, hq, hoffset, htop, htlen, htout, htip, htle, htfast⟩ := hr
    have hadvance := hq.eq_add
    rw [q.length_bytes] at hadvance
    refine ⟨⟨htlen.trans hlen, hlen ▸ htle, htip, hlen ▸ htfast, ⟨qs ++ [q], ?_, ?_, ?_⟩,
      fun b hb => ?_⟩, by omega⟩
    · rw [List.flatMap_append, List.flatMap_singleton]
      exact hread.trans hq
    · rw [List.map_append, reach_append]
      refine ⟨hreach, ?_, trivial⟩
      show q.offset ≤ (expandSequences qs []).length + q.literals.length
      rwa [← hout, houtlen]
    · rw [htout, hout, expandSequences_append]
      rfl
    · obtain ⟨b', hb'⟩ := hs.expects b hb
      obtain ⟨qs', hqs'⟩ := hb'.of_reads hq
      refine ⟨b'.withSequences qs', ?_⟩
      rw [htout, hq.eq_add]
      exact hb'.tail hqs'
  · rcases hr with ⟨hneg, hnone⟩ | ⟨b, hb, hdrop, hresult, hfits, hsame, htake⟩
    · refine Or.inl ⟨hneg, fun b hends hreaches hle _ hbytes => ?_⟩
      obtain ⟨b', hb'⟩ := hs.expects b ⟨hbytes.symm, hends, hreaches, hle⟩
      exact hnone b' (hlen ▸ hb')
    · have hcontent : (b.withSequences qs).content = expandSequences qs [] ++ b.lastLiterals := rfl
      have hsize : (b.withSequences qs).content.length = s.op + b.lastLiterals.length := by
        rw [hcontent, List.length_append, ← hout, houtlen]
      have hlast := Lz4Block.bytes_of_nil hb
      refine Or.inr ⟨b.withSequences qs, ?_, hreach, ?_, ?_, hsame.trans hlen, ?_⟩
      · rw [hread.take_eq, hdrop, hlast]
        rfl
      · rw [hsize]
        exact hresult
      · rw [hsize, ← hlen]
        exact hfits
      · rw [hsize, hcontent, ← hout]
        exact htake

/-- **Decompression returns**, on every source and whatever the target holds, without an access
outside of the two.  When it succeeds the source is a block and the target starts with its
content; it succeeds on every block that ends well and fits. -/
theorem returns_lz4DecompressGeneric (src dst : Bytes) :
    (lz4DecompressGeneric src dst dst.length).Returns (DecodeDone src dst) := by
  rw [lz4DecompressGeneric, if_neg (by omega)]
  have hnonempty : ∀ b : Lz4Block, b.bytes ≠ [] := by
    intro b h
    have hlen := congrArg List.length h
    rw [Lz4Block.bytes, List.length_append, b.length_lastBytes, List.length_nil] at hlen
    omega
  by_cases hzero : (dst.length : ℤ) = 0
  · have hdst : dst = [] := List.length_eq_zero_iff.mp (by omega)
    subst hdst
    rw [if_pos hzero]
    -- a block without content is its token
    have hempty : ∀ b : Lz4Block, b.content.length ≤ ([] : Bytes).length →
        b.bytes = [UInt8.ofNat b.spare] := by
      intro b hle
      rw [List.length_nil, b.length_content] at hle
      have hlast : b.lastLiterals = [] := List.length_eq_zero_iff.mp (by omega)
      have hseq : b.sequences = [] := by
        cases hb : b.sequences with
        | nil => rfl
        | cons q qs =>
          have hgrow := length_le_length_expandSequences qs (q.expand [])
          have hexpand := q.toFactor.length_expand []
          have hmin := q.minmatch_le
          rw [hb, expandSequences_cons] at hle
          omega
      rw [Lz4Block.bytes, Lz4Block.lastBytes, hlast, hseq]
      show [UInt8.ofNat (0 + b.spare)] = _
      rw [Nat.zero_add]
    by_cases hone : src.length = 1
    · rw [if_pos hone]
      obtain ⟨token, rfl⟩ := List.length_eq_one_iff.mp hone
      have hload : load [token] 0 = .ret token := rfl
      rw [hload, Outcome.ret_bind]
      by_cases htoken : token = 0
      · subst htoken
        rw [if_pos rfl]
        exact Outcome.returns_ret (Or.inr ⟨⟨[], [], 0, Nat.succ_pos 15⟩, rfl, trivial, rfl,
          le_rfl, rfl, rfl⟩)
      · rw [if_neg htoken]
        refine Outcome.returns_ret (Or.inl ⟨by decide, fun b _ _ hle hspare hbytes => htoken ?_⟩)
        rw [hempty b hle, hspare rfl, List.cons.injEq] at hbytes
        exact hbytes.1.symm
    · rw [if_neg hone]
      refine Outcome.returns_ret (Or.inl ⟨by decide, fun b _ _ hle _ hbytes => hone ?_⟩)
      rw [← hbytes, hempty b hle, List.length_singleton]
  · rw [if_neg hzero]
    by_cases hsrc : src.length = 0
    · rw [if_pos hsrc]
      refine Outcome.returns_ret (Or.inl ⟨Int.negSucc_lt_zero 0, fun b _ _ _ _ hbytes =>
        hnonempty b ?_⟩)
      rw [hbytes, List.length_eq_zero_iff.mp hsrc]
    · rw [if_neg hsrc, Int.toNat_natCast]
      refine returns_loop (fun s => src.length - s.ip) returns_lz4DecompressTurn
        ⟨rfl, Nat.zero_le _, Nat.pos_of_ne_zero hsrc, fun h => ?_, ⟨[], Reads.refl src 0, trivial,
          rfl⟩, fun b hb => ⟨b, hb⟩⟩ (Nat.lt_succ_of_le (Nat.sub_le _ _))
      show 0 + 64 ≤ dst.length
      have hfast := of_decide_eq_true h
      omega

end

end LogAgg
