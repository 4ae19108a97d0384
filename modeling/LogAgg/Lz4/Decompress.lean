import LogAgg.Lz4.Copy
import LogAgg.Lz4.Parse

/-!
# Decompression

`LZ4_decompress_generic`, as `LZ4_decompress_safe` instantiates it: one loop that copies in long
strides while there is room for them, one for the end of the block, and jumps from the first
into the middle of the second.  Each of the labels is a function here, which ends where the
code goes back to the top of one of the loops or returns.

From the offset of a match on, what is done is said once (`MatchDone`): the match is copied, or
the code gives up, and then no match was expected.
-/

namespace LogAgg

open Memory Lz77

/-! ## The code -/

/-- At the top of one of the loops: the one for most of the block (`fast`), or the other. -/
structure Lz4Decoder where
  fast : Bool
  ip : ℕ
  op : ℕ
  dst : Bytes

/-- A loop is entered again, or the function returns. -/
abbrev Lz4Turn := Lz4Decoder ⊕ (ℤ × Bytes)

/-- `_output_error`. -/
def lz4OutputError (ip : ℕ) (dst : Bytes) : Outcome Lz4Turn :=
  .ret (.inr (-(ip : ℤ) - 1, dst))

/-- The end of a match at the end of the output: at most eight bytes at a time while there is
room for them, and then one by one. -/
def lz4CopyEnd (oend : ℕ) (dst : Bytes) (op mtch cpy : ℕ) : Outcome Bytes := do
  let oCopyLimit := oend - 7
  let r ← if op < oCopyLimit then do
      let dst ← lz4WildCopy8 dst op mtch oCopyLimit
      pure (dst, oCopyLimit, mtch + (oCopyLimit - op))
    else pure (dst, op, mtch)
  if r.2.1 < cpy then wildCopy 1 (memcpyWithin 1) r.1 r.2.1 r.2.2 cpy else return r.1

/-- `safe_match_copy`. -/
def lz4SafeMatchCopy (oend ip op offset length : ℕ) (dst : Bytes) : Outcome Lz4Turn :=
  if op < offset then lz4OutputError ip dst
  else do
    let r ← lz4CopyFirst dst op (op - offset) offset
    if oend < op + length + 12 then
      if oend < op + length + lastliterals then lz4OutputError ip r.1
      else do
        let dst ← lz4CopyEnd oend r.1 (op + 8) r.2 (op + length)
        return .inl ⟨false, ip, op + length, dst⟩
    else do
      let dst ← memcpyWithin 8 r.1 (op + 8) r.2
      let dst ← if 16 < length then lz4WildCopy8 dst (op + 8 + 8) (r.2 + 8) (op + length)
        else pure dst
      return .inl ⟨false, ip, op + length, dst⟩

/-- `_copy_match`. -/
def lz4CopyMatch (src : Bytes) (oend ip op offset : ℕ) (token : UInt8) (dst : Bytes) :
    Outcome Lz4Turn :=
  let length := token.toNat % 16
  if length = mlMask then do
    let r ← readVariableLength src ip (src.length - (1 + lastliterals))
    match r.1 with
    | none => lz4OutputError r.2 dst
    | some addl => lz4SafeMatchCopy oend r.2 op offset (length + addl + minmatch) dst
  else lz4SafeMatchCopy oend ip op offset (length + minmatch) dst

/-- `safe_literal_copy`. -/
def lz4SafeLiteralCopy (src : Bytes) (oend ip op length : ℕ) (token : UInt8) (dst : Bytes) :
    Outcome Lz4Turn :=
  if oend < op + length + mflimit ∨ src.length < ip + length + (2 + 1 + lastliterals) then
    if ip + length ≠ src.length ∨ oend < op + length then lz4OutputError ip dst
    else do
      let dst ← memcpy src length dst op ip
      return .inr ((op + length : ℕ), dst)
  else do
    let dst ← wildCopy 8 (memcpy src 8) dst op ip (op + length)
    let offset ← lz4ReadLE16 src (ip + length)
    lz4CopyMatch src oend (ip + length + 2) (op + length) offset token dst

/-- `safe_literal_copy_early`. -/
def lz4SafeLiteralCopyEarly (src : Bytes) (oend ip op : ℕ) (token : UInt8) (dst : Bytes) :
    Outcome Lz4Turn :=
  let length := token.toNat / 16
  if length = runMask then do
    let r ← readVariableLength src ip (src.length - runMask)
    match r.1 with
    | none => lz4OutputError r.2 dst
    | some addl => lz4SafeLiteralCopy src oend r.2 op (length + addl) token dst
  else lz4SafeLiteralCopy src oend ip op length token dst

/-- The loop for the end of the block: from its top back to it. -/
def lz4SafeTurn (src : Bytes) (oend ip op : ℕ) (dst : Bytes) : Outcome Lz4Turn := do
  let token ← load src ip
  let ip := ip + 1
  let length := token.toNat / 16
  if length ≠ runMask ∧ ip + 16 < src.length ∧ op + 32 ≤ oend then do
    let dst ← memcpy src 16 dst op ip
    let offset ← lz4ReadLE16 src (ip + length)
    if token.toNat % 16 ≠ mlMask ∧ 8 ≤ offset ∧ offset ≤ op + length then do
      let dst ← lz4Copy18 dst (op + length) (op + length - offset)
      return .inl ⟨false, ip + length + 2, op + length + (token.toNat % 16 + minmatch), dst⟩
    else lz4CopyMatch src oend (ip + length + 2) (op + length) offset token dst
  else lz4SafeLiteralCopyEarly src oend ip op token dst

/-- The last part of the loop for most of the block: a match that is not checked yet. -/
def lz4FastMatchCopy (ip op offset length : ℕ) (dst : Bytes) : Outcome Lz4Turn :=
  if op < offset then lz4OutputError ip dst
  else do
    let dst ← if offset < 16 then lz4MemcpyUsingOffset dst op (op - offset) (op + length) offset
      else lz4WildCopy32 dst op (op - offset) (op + length)
    return .inl ⟨true, ip, op + length, dst⟩

/-- The loop for most of the block, from the offset on. -/
def lz4FastMatch (src : Bytes) (oend ip op : ℕ) (token : UInt8) (dst : Bytes) :
    Outcome Lz4Turn := do
  let offset ← lz4ReadLE16 src ip
  let ip := ip + 2
  let length := token.toNat % 16
  if length = mlMask then do
    let r ← readVariableLength src ip (src.length - (1 + lastliterals))
    match r.1 with
    | none => lz4OutputError r.2 dst
    | some addl =>
      let length := length + addl + minmatch
      if oend ≤ op + length + 64 then lz4SafeMatchCopy oend r.2 op offset length dst
      else lz4FastMatchCopy r.2 op offset length dst
  else
    let length := length + minmatch
    if oend ≤ op + length + 64 then lz4SafeMatchCopy oend ip op offset length dst
    else if offset ≤ op ∧ 8 ≤ offset then do
      let dst ← lz4Copy18 dst op (op - offset)
      return .inl ⟨true, ip, op + length, dst⟩
    else lz4FastMatchCopy ip op offset length dst

/-- The loop for most of the block: from its top back to it. -/
def lz4FastTurn (src : Bytes) (oend ip op : ℕ) (dst : Bytes) : Outcome Lz4Turn := do
  let token ← load src ip
  let ip := ip + 1
  let length := token.toNat / 16
  if src.length < ip + (16 + 1) then lz4SafeLiteralCopyEarly src oend ip op token dst
  else if length = runMask then do
    let r ← readVariableLength src ip (src.length - runMask)
    match r.1 with
    | none => lz4OutputError r.2 dst
    | some addl =>
      let length := length + addl
      if oend < op + length + 32 ∨ src.length < r.2 + length + 32 then
        lz4SafeLiteralCopy src oend r.2 op length token dst
      else do
        let dst ← wildCopy 32 (memcpyTwice (memcpy src 16) 16) dst op r.2 (op + length)
        lz4FastMatch src oend (r.2 + length) (op + length) token dst
  else do
    let dst ← memcpy src 16 dst op ip
    lz4FastMatch src oend (ip + length) (op + length) token dst

/-- A turn of either loop. -/
def lz4DecompressTurn (src : Bytes) (oend : ℕ) (s : Lz4Decoder) : Outcome Lz4Turn :=
  if s.fast then lz4FastTurn src oend s.ip s.op s.dst else lz4SafeTurn src oend s.ip s.op s.dst

/-- `LZ4_decompress_generic`, for a full block without a dictionary: what it returns, and the
target. -/
def lz4DecompressGeneric (src dst : Bytes) (outputSize : ℤ) : Outcome (ℤ × Bytes) :=
  if outputSize < 0 then return (-1, dst)
  else if outputSize = 0 then
    if src.length = 1 then do
      let token ← load src 0
      return (if token = 0 then 0 else -1, dst)
    else return (-1, dst)
  else if src.length = 0 then return (-1, dst)
  else
    let oend := outputSize.toNat
    loop (lz4DecompressTurn src oend) (src.length + 1) ⟨decide (64 ≤ oend), 0, 0, dst⟩

/-! ## A match -/

/-- What the code does from a match on: it copies the match whose offset was read, or gives up,
and then no match is expected. -/
def MatchDone (src : Bytes) (ip op offset : ℕ) (token : UInt8) (dst : Bytes) : Lz4Turn → Prop :=
  Sum.elim
    (fun t => ∃ code, Reads src ip (extension code) t.ip ∧ token.toNat % 16 = min code 15 ∧
      offset ≤ op ∧ t.op = op + (code + 4) ∧ Copied dst t.dst op offset (code + 4) ∧
      t.ip < src.length ∧ t.op ≤ dst.length ∧ (t.fast = true → t.op + 64 ≤ dst.length))
    (fun r => r.1 < 0 ∧ ¬ AwaitsMatch src dst.length ip op token offset)

section

variable {src dst : Bytes} {ip op offset code : ℕ} {token : UInt8}

theorem output_error_neg (ip : ℕ) : -(ip : ℤ) - 1 < 0 := by omega

/-- The match that is awaited is the one whose length was read. -/
theorem AwaitsMatch.of_reads {oend ip' : ℕ} (h : AwaitsMatch src oend ip op token offset)
    (htoken : token.toNat % 16 = min code 15) (hread : Reads src ip (extension code) ip') :
    offset ≤ op ∧ op + (code + 4) + 5 ≤ oend := by
  obtain ⟨code', rest, hdrop, htoken', -, hoffset, hend⟩ := h
  obtain ⟨rfl, -⟩ := extension_append_inj (htoken'.symm.trans htoken)
    (hdrop.symm.trans hread.drop_eq)
  exact ⟨hoffset, hend⟩

/-- The bytes of a match at the end of the output. -/
theorem returns_lz4CopyEnd {obj : Bytes} {s n : ℕ}
    (h : Ready obj op offset dst (op + 8) s) (hn : 4 ≤ n) (hroom : op + 8 ≤ obj.length)
    (hend : op + n + 5 ≤ obj.length) :
    (lz4CopyEnd obj.length dst (op + 8) s (op + n)).Returns fun dst' =>
      Copied obj dst' op offset n := by
  have hbytes : ∀ {cur d s}, Ready obj op offset cur d s → d ≤ obj.length →
      (if d < op + n then wildCopy 1 (memcpyWithin 1) cur d s (op + n)
        else Outcome.ret cur).Returns fun dst' => Copied obj dst' op offset n := by
    intro cur d s hcur hd
    by_cases hmore : d < op + n
    · rw [if_pos hmore]
      refine (hcur.wildCopy Nat.one_pos (by omega) (by omega) (by omega)).mono fun dst' hdst' => ?_
      exact hdst'.copied hn (le_max_right _ _) (by omega)
    · rw [if_neg hmore]
      exact Outcome.returns_ret (hcur.copied hn (by omega) (by omega))
  simp only [lz4CopyEnd]
  by_cases hwild : op + 8 < obj.length - 7
  · rw [if_pos hwild, lz4WildCopy8]
    refine (h.wildCopy (e := obj.length - 7) (by omega) le_rfl (by omega) (by omega)).bind
      fun cur hcur => ?_
    rw [max_eq_right hwild.le] at hcur
    exact hbytes hcur (Nat.sub_le _ _)
  · rw [if_neg hwild]
    exact hbytes h hroom

/-- `safe_match_copy`, with the length of the match. -/
theorem returns_lz4SafeMatchCopy {ip' : ℕ} (hroom : op + 12 ≤ dst.length)
    (htoken : token.toNat % 16 = min code 15) (hread : Reads src ip (extension code) ip')
    (hip : ip' < src.length) :
    (lz4SafeMatchCopy dst.length ip' op offset (code + 4) dst).Returns
      (MatchDone src ip op offset token dst) := by
  have herror : ∀ cur, (offset ≤ op → dst.length < op + (code + 4) + 5) →
      (lz4OutputError ip' cur).Returns (MatchDone src ip op offset token dst) := by
    refine fun cur hbad => Outcome.returns_ret ⟨output_error_neg ip', fun hawaits => ?_⟩
    obtain ⟨hoffset, hend⟩ := hawaits.of_reads htoken hread
    exact absurd hend (not_le.mpr (hbad hoffset))
  have hdone : ∀ cur, offset ≤ op → op + (code + 4) ≤ dst.length →
      Copied dst cur op offset (code + 4) →
      (Outcome.ret (.inl ⟨false, ip', op + (code + 4), cur⟩) : Outcome Lz4Turn).Returns
        (MatchDone src ip op offset token dst) := fun cur hoffset hle hcur =>
    Outcome.returns_ret ⟨code, hread, htoken, hoffset, rfl, hcur, hip, hle, nofun⟩
  simp only [lz4SafeMatchCopy, lastliterals]
  by_cases hfar : op < offset
  · rw [if_pos hfar]
    exact herror dst fun hle => absurd hfar (not_lt.mpr hle)
  · rw [if_neg hfar]
    have hoffset : offset ≤ op := not_lt.mp hfar
    refine (returns_lz4CopyFirst hoffset (by omega)).bind ?_
    rintro ⟨cur, s⟩ hready
    by_cases hnear : dst.length < op + (code + 4) + 12
    · rw [if_pos hnear]
      by_cases hover : dst.length < op + (code + 4) + 5
      · rw [if_pos hover]
        exact herror cur fun _ => hover
      · rw [if_neg hover]
        refine (returns_lz4CopyEnd hready (by omega) (by omega) (by omega)).bind fun cur' hcur' => ?_
        exact hdone cur' hoffset (by omega) hcur'
    · rw [if_neg hnear]
      refine (hready.stride le_rfl (by omega)).bind fun cur1 h1 => ?_
      by_cases hlong : 16 < code + 4
      · rw [if_pos hlong]
        refine (h1.wildCopy (e := op + (code + 4)) (by omega) le_rfl (by omega) (by omega)).bind
          fun cur2 h2 => ?_
        exact hdone cur2 hoffset (by omega)
          (h2.copied (by omega) (le_max_right _ _) (by omega))
      · rw [if_neg hlong]
        exact hdone cur1 hoffset (by omega) (h1.copied (by omega) (by omega) (by omega))

/-- The further bytes of the length of a match, or none of them. -/
theorem reads_extension_nil (src : Bytes) (ip : ℕ) (htoken : token.toNat % 16 ≠ 15) :
    token.toNat % 16 = min (token.toNat % 16) 15 ∧
      Reads src ip (extension (token.toNat % 16)) ip := by
  have hlt : token.toNat % 16 < 15 := by omega
  rw [extension_of_lt hlt]
  exact ⟨by omega, Reads.refl src ip⟩

theorem reads_extension {n ip' : ℕ} (hread : Reads src ip (lengthBytes n) ip') :
    Reads src ip (extension (15 + n)) ip' := by
  rwa [extension_of_le (Nat.le_add_right 15 n), Nat.add_sub_cancel_left]

/-- A length that cannot be read is none that is expected. -/
theorem not_awaitsMatch_of_none {oend : ℕ} (htoken : token.toNat % 16 = 15)
    (hnone : ∀ n rest, src.drop ip = lengthBytes n ++ rest →
      src.length - (1 + 5) < ip + (lengthBytes n).length) :
    ¬ AwaitsMatch src oend ip op token offset := by
  rintro ⟨code, rest, hdrop, hcode, hsix, -⟩
  rw [extension_of_le (by omega)] at hdrop
  have hlt := hnone _ _ hdrop
  have hlen := congrArg List.length hdrop
  rw [List.length_append, List.length_drop] at hlen
  omega

/-- `_copy_match`. -/
theorem returns_lz4CopyMatch (hroom : op + 12 ≤ dst.length) (hip : ip < src.length) :
    (lz4CopyMatch src dst.length ip op offset token dst).Returns
      (MatchDone src ip op offset token dst) := by
  simp only [lz4CopyMatch, mlMask, lastliterals, minmatch]
  by_cases hlong : token.toNat % 16 = 15
  · rw [if_pos hlong]
    refine (returns_readVariableLength (by omega)).bind ?_
    rintro ⟨addl, ip'⟩ ⟨hsome, hnone⟩
    cases addl with
    | none =>
      exact Outcome.returns_ret ⟨output_error_neg ip', not_awaitsMatch_of_none hlong (hnone rfl)⟩
    | some n =>
      obtain ⟨hread, hle⟩ := hsome n rfl
      rw [hlong]
      exact returns_lz4SafeMatchCopy hroom (by omega) (reads_extension hread) (by omega)
  · rw [if_neg hlong]
    obtain ⟨htoken, hread⟩ := reads_extension_nil src ip hlong
    exact returns_lz4SafeMatchCopy hroom htoken hread hip

end

end LogAgg
