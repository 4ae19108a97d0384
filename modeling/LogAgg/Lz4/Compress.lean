import LogAgg.Lz4.Search

/-!
# Compression

`LZ4_compress_generic_validated` goes through its source once.  At the top of its main loop it
searches for a match behind the literals; when the position behind a match has been seen
before, it goes on with the next match at once, by a jump into the loop.

The sequences written so far stand for the source up to the anchor (`Covers`), whatever the
search finds, and so a run ends with a block that stands for the source
(`returns_lz4CompressGenericValidated`).  That the code never reads outside of the source and
never writes outside of the target is part of the statement: it returns.
-/

namespace LogAgg

open Memory Lz77

/-! ## The code -/

/-- Where the main loop goes on. -/
inductive Lz4Label where
  /-- At its top, with the hash at `ip`. -/
  | search (ip forwardH : ℕ)
  /-- At `_next_match`. -/
  | nextMatch (ip mtch token : ℕ)

/-- The variables of the main loop. -/
structure Lz4State where
  table : List ℕ
  dst : Bytes
  op : ℕ
  anchor : ℕ
  label : Lz4Label

/-- `Prepare next loop`. -/
def lz4PrepareNext (job : Lz4Job) (table : List ℕ) (dst : Bytes) (op ip : ℕ) :
    Outcome (Lz4State ⊕ (ℕ × Bytes)) := do
  let forwardH ← lz4HashPosition job.source (ip + 1) job.tableType
  return .inl ⟨table, dst, op, ip, .search (ip + 1) forwardH⟩

/-- `Fill table` and `Test next position`. -/
def lz4TestNext (job : Lz4Job) (table : List ℕ) (dst : Bytes) (op ip : ℕ) :
    Outcome (Lz4State ⊕ (ℕ × Bytes)) := do
  let h ← lz4HashPosition job.source (ip - 2) job.tableType
  let table ← lz4PutIndexOnHash (ip - 2) h table job.tableType
  let h ← lz4HashPosition job.source ip job.tableType
  let matchIndex ← lz4GetIndexOnHash h table
  let table ← lz4PutIndexOnHash ip h table job.tableType
  if job.tableType = .byU16 ∨ ip ≤ matchIndex + lz4DistanceMax then do
    let there ← lz4Read32 job.source matchIndex
    let here ← lz4Read32 job.source ip
    if there = here then do
      let dst ← store dst op 0
      return .inl ⟨table, dst, op + 1, ip, .nextMatch ip matchIndex op⟩
    else lz4PrepareNext job table dst op ip
  else lz4PrepareNext job table dst op ip

/-- From `_next_match` to the end of the loop. -/
def lz4NextMatch (job : Lz4Job) (table : List ℕ) (dst : Bytes) (op ip mtch token : ℕ) :
    Outcome (Lz4State ⊕ (ℕ × Bytes)) := do
  let r ← lz4EncodeMatch job dst op token ip mtch
  match r with
  | .error dst => return .inr (0, dst)
  | .ok (dst, op, ip) =>
    if job.mflimitPlusOne ≤ ip then do
      let result ← lz4LastLiterals job dst op ip
      return .inr result
    else lz4TestNext job table dst op ip

/-- The main loop, from the label where it goes on to its next label or its end. -/
def lz4CompressTurn (job : Lz4Job) (s : Lz4State) : Outcome (Lz4State ⊕ (ℕ × Bytes)) :=
  match s.label with
  | .search ip forwardH => do
    let found ← lz4FindMatch job ip forwardH s.table
    match found with
    | none => do
      let result ← lz4LastLiterals job s.dst s.op s.anchor
      return .inr result
    | some f => do
      let p ← lz4CatchUp job.source s.anchor f.ip f.mtch
      let r ← lz4EncodeLiterals job s.dst s.op s.anchor p.1
      match r with
      | none => return .inr (0, s.dst)
      | some q => lz4NextMatch job f.table q.1 q.2 p.1 p.2 s.op
  | .nextMatch ip mtch token => lz4NextMatch job s.table s.dst s.op ip mtch token

/-- `LZ4_compress_generic_validated`, from a cleared table: the length of the block, none when
it does not fit, and the target. -/
def lz4CompressGenericValidated (job : Lz4Job) (dst : Bytes) : Outcome (ℕ × Bytes) :=
  if job.inputSize < mflimit + 1 then lz4LastLiterals job dst 0 0
  else do
    let h ← lz4HashPosition job.source 0 job.tableType
    let table ← lz4PutIndexOnHash 0 h (List.replicate (2 ^ job.tableType.hashLog) 0) job.tableType
    let forwardH ← lz4HashPosition job.source 1 job.tableType
    loop (lz4CompressTurn job) (job.inputSize + 1) ⟨table, dst, 0, 0, .search 1 forwardH⟩

/-! ## Sequences that cover the source -/

/-- The sequences stand for the source up to the anchor, and leave enough of it for the end of
a block. -/
structure Covers (job : Lz4Job) (anchor : ℕ) (qs : List Lz4Sequence) : Prop where
  expand_eq : expandSequences qs [] = job.source.take anchor
  reach : Reach (qs.map Lz4Sequence.toFactor) []
  offset_pos : ∀ q ∈ qs, 0 < q.offset
  anchor_le : qs ≠ [] → anchor + 5 ≤ job.inputSize
  mflimit_le : ∀ q ∈ qs.getLast?, 12 ≤ q.matchLength + (job.inputSize - anchor)

section

variable {job : Lz4Job} {anchor ip mtch matchCode : ℕ} {qs : List Lz4Sequence}

theorem covers_nil : Covers job 0 [] :=
  ⟨List.take_zero.symm, trivial, nofun, fun h => absurd rfl h, nofun⟩

/-- The literals from the anchor on and a match that was found are one more sequence. -/
theorem Covers.append (h : Covers job anchor qs) (matchCode : ℕ) (hsize : job.inputSize ≤ job.source.length)
    (hanchor : anchor ≤ ip) (hmtch : mtch < ip) (hdistance : ip - mtch ≤ 65535)
    (hip : ip + 12 ≤ job.inputSize) (hend : ip + 4 + matchCode + 5 ≤ job.inputSize)
    (heq : ∀ k < matchCode + 4, job.source[mtch + k]? = job.source[ip + k]?) :
    ∃ q : Lz4Sequence, q.literals = (job.source.drop anchor).take (ip - anchor) ∧
      q.offset = ip - mtch ∧ q.matchLength = matchCode + 4 ∧
      Covers job (ip + matchCode + 4) (qs ++ [q]) := by
  refine ⟨⟨⟨(job.source.drop anchor).take (ip - anchor), ip - mtch, matchCode + 4⟩,
    Nat.le_add_left _ _, Nat.lt_succ_of_le hdistance⟩, rfl, rfl, rfl, ?_⟩
  have hliterals : job.source.take anchor ++ (job.source.drop anchor).take (ip - anchor) =
      job.source.take ip := by
    rw [← List.take_add, Nat.add_sub_cancel' hanchor]
  have hmatch := copyBack_take hmtch (by omega) heq
  refine ⟨?_, ?_, ?_, fun _ => by omega, ?_⟩
  · rw [expandSequences_append, h.expand_eq, expandSequences_cons, expandSequences_nil,
      Factor.expand, hliterals, hmatch, ← Nat.add_assoc]
  · rw [List.map_append, reach_append]
    refine ⟨h.reach, ?_, trivial⟩
    have hlen := congrArg List.length h.expand_eq
    show ip - mtch ≤ (expandSequences qs []).length +
      ((job.source.drop anchor).take (ip - anchor)).length
    rw [hlen, ← List.length_append, hliterals, List.length_take]
    omega
  · intro q hq
    rcases List.mem_append.mp hq with hold | hnew
    · exact h.offset_pos q hold
    · rw [List.mem_singleton.mp hnew]
      exact Nat.sub_pos_of_lt hmtch
  · rintro q hq
    rw [List.getLast?_concat] at hq
    obtain rfl := Option.some.inj hq
    show 12 ≤ matchCode + 4 + _
    omega

/-- With the rest of the source for literals the sequences are a block of it. -/
theorem Covers.conforming (h : Covers job anchor qs) (hsize : job.inputSize ≤ job.source.length)
    (hanchor : anchor ≤ job.inputSize) {b : Lz4Block} (hqs : b.sequences = qs)
    (hlast : b.lastLiterals = (job.source.drop anchor).take (job.inputSize - anchor)) :
    b.Conforming ∧ b.content = job.source.take job.inputSize := by
  have hlen : b.lastLiterals.length = job.inputSize - anchor := by
    rw [hlast, length_take_drop (by omega)]
  subst hqs
  refine ⟨⟨⟨fun hne => ?_, fun q hq => ?_⟩, h.reach, h.offset_pos⟩, ?_⟩
  · have hle := h.anchor_le hne
    omega
  · rw [hlen]
    exact h.mflimit_le q hq
  · rw [Lz4Block.content, Lz4Block.contentBehind, h.expand_eq, hlast, ← List.take_add,
      Nat.add_sub_cancel' hanchor]

/-- The sequences are not much longer than what they cover. -/
theorem Covers.length_le (h : Covers job anchor qs) :
    (qs.flatMap Lz4Sequence.bytes).length ≤ anchor + anchor / 255 := by
  have hle := length_flatMap_bytes_le qs []
  have hlen : (expandSequences qs []).length ≤ anchor := by
    rw [h.expand_eq]
    exact List.length_take_le _ _
  rw [List.length_nil, Nat.sub_zero] at hle
  omega

end

/-! ## A run -/

/-- A target with room for whatever the code writes: the room that is given, or, where the
output is not limited, what the bound asks for. -/
structure Lz4Job.Fits (job : Lz4Job) (dst : Bytes) : Prop where
  limited : job.outputDirective = .limitedOutput → job.maxOutputSize ≤ dst.length
  notLimited : job.outputDirective = .notLimited →
    job.inputSize + job.inputSize / 255 + 16 ≤ dst.length

/-- How a run ends: with a block of the source at the start of the target, or without one,
when the output is limited. -/
def Lz4Job.Done (job : Lz4Job) (dst : Bytes) (r : ℕ × Bytes) : Prop :=
  (r.1 = 0 ∧ job.outputDirective = .limitedOutput) ∨
    ∃ b : Lz4Block, b.Conforming ∧ b.content = job.source.take job.inputSize ∧ b.spare = 0 ∧
      r.1 = b.bytes.length ∧
      Written dst r.2 0 b.bytes

/-- What holds at each label. -/
def Lz4Label.Good (job : Lz4Job) (dst : Bytes) (s : Lz4State) (qs : List Lz4Sequence) : Prop :=
  match s.label with
  | .search ip forwardH => s.op = (qs.flatMap Lz4Sequence.bytes).length ∧
      Written dst s.dst 0 (qs.flatMap Lz4Sequence.bytes) ∧ s.anchor < ip ∧
      ip ≤ job.mflimitPlusOne ∧ forwardH < 2 ^ job.tableType.hashLog ∧ TableBelow job s.table ip
  | .nextMatch ip mtch token => token = (qs.flatMap Lz4Sequence.bytes).length ∧
      s.op = token + 1 ∧ token + 6 ≤ dst.length ∧ s.anchor = ip ∧
      (∃ dst', Written dst dst' 0 (qs.flatMap Lz4Sequence.bytes) ∧
        Written dst' s.dst token [0]) ∧
      Lz4Found.Good job ip ⟨ip, mtch, s.table⟩

/-- The invariant of the main loop. -/
def Lz4State.Good (job : Lz4Job) (dst : Bytes) (s : Lz4State) : Prop :=
  ∃ qs, Covers job s.anchor qs ∧ Lz4Label.Good job dst s qs

section

variable {job : Lz4Job} {dst0 : Bytes}

/-- The literals at the end complete the block. -/
theorem returns_lz4LastLiterals_done (hsize : job.inputSize ≤ job.source.length)
    (hfits : job.Fits dst0) {dst : Bytes} {op anchor : ℕ} {qs : List Lz4Sequence}
    (hqs : Covers job anchor qs) (hop : op = (qs.flatMap Lz4Sequence.bytes).length)
    (hdst : Written dst0 dst 0 (qs.flatMap Lz4Sequence.bytes)) (hanchor : anchor ≤ job.inputSize) :
    (lz4LastLiterals job dst op anchor).Returns (job.Done dst0) := by
  have hlen := hdst.length_eq
  have hle := hqs.length_le
  refine (returns_lz4LastLiterals hsize (fun h => hlen ▸ hfits.limited h) (fun h => ?_)
    hanchor).mono ?_
  · have hroom := hfits.notLimited h
    omega
  · rintro r (hzero | ⟨hwritten, hr⟩)
    · exact Or.inl hzero
    · let b : Lz4Block := ⟨qs, (job.source.drop anchor).take (job.inputSize - anchor), 0,
        Nat.succ_pos 15⟩
      have hlength : b.lastLiterals.length = job.inputSize - anchor :=
        length_take_drop (by omega)
      have hlast : b.lastBytes = tokenByte (job.inputSize - anchor) 0 ::
          (extension (job.inputSize - anchor) ++
            (job.source.drop anchor).take (job.inputSize - anchor)) := by
        rw [Lz4Block.lastBytes, hlength]
        rfl
      obtain ⟨hconforming, hcontent⟩ := hqs.conforming (b := b) hsize hanchor rfl rfl
      refine Or.inr ⟨b, hconforming, hcontent, rfl, ?_, ?_⟩
      · have hext := length_extension (job.inputSize - anchor)
        rw [hr, Lz4Block.bytes, List.length_append, b.length_lastBytes, hlength, hop]
        show (qs.flatMap Lz4Sequence.bytes).length + _ + _ + _ =
          (qs.flatMap Lz4Sequence.bytes).length + _
        omega
      · rw [Lz4Block.bytes, hlast]
        refine hdst.append ?_
        rw [Nat.zero_add, ← hop]
        exact hwritten

/-- Behind a match the main loop goes on, with another match or another search. -/
theorem returns_lz4TestNext (hjob : job.Admitted) {dst : Bytes} {table : List ℕ} {op ip : ℕ}
    {qs : List Lz4Sequence} (hqs : Covers job ip qs)
    (hop : op = (qs.flatMap Lz4Sequence.bytes).length) (hroom : op + 6 ≤ dst0.length)
    (hdst : Written dst0 dst 0 (qs.flatMap Lz4Sequence.bytes)) (hip : 2 ≤ ip)
    (hend : ip < job.mflimitPlusOne) (hmin : mflimit < job.inputSize)
    (htable : TableBelow job table ip) :
    (lz4TestNext job table dst op ip).Returns
      (Sum.elim (fun t => t.Good job dst0 ∧ t.anchor = ip) (job.Done dst0)) := by
  have hsize := hjob.inputSize_le_length
  have hplus : job.mflimitPlusOne = job.inputSize - 12 + 1 := rfl
  simp only [mflimit] at hmin
  have hlen := hdst.length_eq
  have hnext : ∀ table', TableBelow job table' (ip + 1) →
      (lz4PrepareNext job table' dst op ip).Returns
        (Sum.elim (fun t => t.Good job dst0 ∧ t.anchor = ip) (job.Done dst0)) := by
    intro table' htable'
    rw [lz4PrepareNext]
    refine (returns_lz4HashPosition (by omega) job.tableType).bind fun h hh => ?_
    exact Outcome.returns_ret ⟨⟨qs, hqs, hop, hdst, Nat.lt_succ_self ip, hend, hh, htable'⟩, rfl⟩
  rw [lz4TestNext]
  refine (returns_lz4HashPosition (by omega) job.tableType).bind fun h hh => ?_
  refine (htable.returns_put hh (by omega)).bind fun table1 htable1 => ?_
  refine (returns_lz4HashPosition (by omega) job.tableType).bind fun h' hh' => ?_
  refine (htable1.returns_get hh').bind fun matchIndex hlt => ?_
  refine ((htable1.mono (Nat.le_succ ip)).returns_put hh' (Nat.lt_succ_self ip)).bind
    fun table2 htable2 => ?_
  by_cases hnear : job.tableType = .byU16 ∨ ip ≤ matchIndex + lz4DistanceMax
  · have hthere : matchIndex + 4 ≤ job.source.length := by omega
    have hhere : ip + 4 ≤ job.source.length := by omega
    rw [if_pos hnear, lz4Read32, read_of_le hthere, lz4Read32, read_of_le hhere]
    simp only [Outcome.ret_bind, Outcome.pure_eq]
    by_cases heq : word 32 ((job.source.drop matchIndex).take 4) =
        word 32 ((job.source.drop ip).take 4)
    · rw [if_pos heq]
      refine (store_returns (by omega) 0).bind fun dst' hdst' => ?_
      refine Outcome.returns_ret ⟨⟨qs, hqs, hop, rfl, hroom, rfl, ⟨dst, hdst, hdst'⟩, ?_⟩, rfl⟩
      refine ⟨le_rfl, by simp only [mflimit]; omega, hlt, ?_,
        word32_take_drop_inj hthere hhere heq, htable2⟩
      simp only [lz4DistanceMax] at hnear ⊢
      rcases hnear with htype | hnear
      · have hshort := hjob.inputSize_lt htype
        omega
      · omega
    · rw [if_neg heq]
      exact hnext table2 htable2
  · rw [if_neg hnear]
    exact hnext table2 htable2

/-- From `_next_match` on, with the literals and a match that reaches at least four bytes behind
`filled`, where it was found. -/
theorem returns_lz4NextMatch (hjob : job.Admitted) (hfits : job.Fits dst0) (filled : ℕ)
    {dst1 dst : Bytes} {table : List ℕ} {op anchor ip mtch token : ℕ}
    {qs : List Lz4Sequence} (hqs : Covers job anchor qs)
    (htoken : token = (qs.flatMap Lz4Sequence.bytes).length)
    (hdst1 : Written dst0 dst1 0 (qs.flatMap Lz4Sequence.bytes)) (hanchor : anchor ≤ ip)
    (hdst : Written dst1 dst token (tokenByte (ip - anchor) 0 ::
      (extension (ip - anchor) ++ (job.source.drop anchor).take (ip - anchor))))
    (hop : op = token + 1 + (extension (ip - anchor)).length + (ip - anchor))
    (hroom : op + 2 ≤ dst0.length) (hfilled : ip ≤ filled) (hmtch : mtch < ip)
    (hdistance : ip - mtch ≤ lz4DistanceMax) (hend : filled + mflimit ≤ job.inputSize)
    (heq : ∀ k < filled - ip + 4, job.source[mtch + k]? = job.source[ip + k]?)
    (htable : TableBelow job table (filled + 1)) :
    (lz4NextMatch job table dst op ip mtch token).Returns
      (Sum.elim (fun t => t.Good job dst0 ∧ anchor < t.anchor ∧ t.anchor ≤ job.inputSize)
        (job.Done dst0)) := by
  have hsize := hjob.inputSize_le_length
  have hplus : job.mflimitPlusOne = job.inputSize - 12 + 1 := rfl
  have hlimit : job.matchlimit = job.inputSize - 5 := rfl
  simp only [mflimit, lz4DistanceMax] at hend hdistance
  have hlen1 := hdst1.length_eq
  have hle := hqs.length_le
  have hext := length_extension (ip - anchor)
  have hlits : ((job.source.drop anchor).take (ip - anchor)).length = ip - anchor :=
    length_take_drop (by omega)
  rw [lz4NextMatch]
  refine (returns_lz4EncodeMatch (by omega) hdst (by rw [List.length_append, hlits]; omega) hsize
    hmtch (by simp only [mflimit]; omega) (fun h => hlen1 ▸ hfits.limited h) (by omega)
    (fun h matchCode hcode => ?_)).bind ?_
  · have hbound := hfits.notLimited h
    simp only [minmatch, lastliterals] at hcode
    omega
  · rintro r ⟨hnone, hsome⟩
    cases r with
    | error d => exact Outcome.returns_ret (Or.inl ⟨rfl, hnone d rfl⟩)
    | ok q =>
      obtain ⟨dst2, op', ip'⟩ := q
      obtain ⟨matchCode, hip', hcount, hdst2, hop', hroom'⟩ := hsome _ rfl
      simp only at hip' hdst2 hop' hroom'
      subst hip'
      have hmatchEnd := hcount.le
      have hall : ∀ k < matchCode + 4, job.source[mtch + k]? = job.source[ip + k]? := by
        intro k hk
        by_cases hfour : k < 4
        · exact heq k (by omega)
        · have hback := hcount.eq (k - 4) (by omega)
          rwa [show mtch + 4 + (k - 4) = mtch + k by omega,
            show ip + 4 + (k - 4) = ip + k by omega] at hback
      -- the match covers at least the bytes by which it went back
      have hcover : filled - ip ≤ matchCode := by
        refine hcount.le_of_eq (by omega) fun k hk => ?_
        have hfound := heq (k + 4) (by omega)
        rwa [show mtch + (k + 4) = mtch + 4 + k by omega,
          show ip + (k + 4) = ip + 4 + k by omega] at hfound
      obtain ⟨q, hliterals, hoffset, hmatchLength, hqs'⟩ := hqs.append matchCode
        hsize hanchor hmtch hdistance (by omega) (by omega) hall
      have hbytes : q.bytes = tokenByte (ip - anchor) matchCode :: (extension (ip - anchor) ++
          (job.source.drop anchor).take (ip - anchor) ++
          [UInt8.ofNat (ip - mtch), UInt8.ofNat ((ip - mtch) / 256)] ++ extension matchCode) := by
        rw [Lz4Sequence.bytes, hliterals, hlits, hoffset, hmatchLength, Nat.add_sub_cancel]
      rw [← hbytes] at hdst2
      have hflat : (qs ++ [q]).flatMap Lz4Sequence.bytes =
          qs.flatMap Lz4Sequence.bytes ++ q.bytes := by
        rw [List.flatMap_append, List.flatMap_singleton]
      have hwritten : Written dst0 dst2 0 ((qs ++ [q]).flatMap Lz4Sequence.bytes) := by
        rw [hflat]
        refine hdst1.append ?_
        rwa [Nat.zero_add, ← htoken]
      have hop2 : op' = ((qs ++ [q]).flatMap Lz4Sequence.bytes).length := by
        rw [hflat, List.length_append, hbytes, List.length_cons, List.length_append,
          List.length_append, List.length_append, hlits, List.length_cons, List.length_singleton]
        omega
      by_cases hlast : job.mflimitPlusOne ≤ ip + matchCode + 4
      · simp only [if_pos hlast]
        refine (returns_lz4LastLiterals_done hsize hfits hqs' hop2 hwritten (by omega)).bind ?_
        exact fun _ hdone => Outcome.returns_ret hdone
      · simp only [if_neg hlast]
        refine (returns_lz4TestNext hjob hqs' hop2 (by omega) hwritten (by omega)
          (not_le.mp hlast) (by simp only [mflimit]; omega)
          (htable.mono (by omega))).mono ?_
        rintro (t | result) hr
        · exact ⟨hr.1, by rw [hr.2]; omega, by rw [hr.2]; omega⟩
        · exact hr

/-- **The main loop keeps its invariant**, and the anchor moves on. -/
theorem returns_lz4CompressTurn (hjob : job.Admitted) (hfits : job.Fits dst0)
    (hmin : mflimit < job.inputSize) (s : Lz4State)
    (hs : s.Good job dst0 ∧ s.anchor ≤ job.inputSize) :
    (lz4CompressTurn job s).Returns (Sum.elim
      (fun t => (t.Good job dst0 ∧ t.anchor ≤ job.inputSize) ∧
        job.inputSize - t.anchor < job.inputSize - s.anchor) (job.Done dst0)) := by
  have hsize := hjob.inputSize_le_length
  obtain ⟨table, dst, op, anchor, label⟩ := s
  obtain ⟨⟨qs, hqs, hlabel⟩, hanchor⟩ := hs
  have hmove : ∀ r : Lz4State ⊕ (ℕ × Bytes),
      Sum.elim (fun t => t.Good job dst0 ∧ anchor < t.anchor ∧ t.anchor ≤ job.inputSize)
        (job.Done dst0) r →
      Sum.elim (fun t => (t.Good job dst0 ∧ t.anchor ≤ job.inputSize) ∧
        job.inputSize - t.anchor < job.inputSize - anchor) (job.Done dst0) r := by
    rintro (t | result) hr
    · exact ⟨⟨hr.1, hr.2.2⟩, by have hlt := hr.2.1; have hle := hr.2.2; omega⟩
    · exact hr
  cases label with
  | search ip forwardH =>
    obtain ⟨hop, hdst, hlt, hip, hh, htable⟩ := hlabel
    simp only at hop hdst hlt htable hqs hanchor
    have hlen := hdst.length_eq
    have hle := hqs.length_le
    simp only [lz4CompressTurn]
    refine (returns_lz4FindMatch hjob hmin hip hh htable).bind fun found hfound => ?_
    cases found with
    | none =>
      refine (returns_lz4LastLiterals_done hsize hfits hqs hop hdst hanchor).bind ?_
      exact fun _ hdone => Outcome.returns_ret hdone
    | some f =>
      have hf := hfound f rfl
      have hstart := hf.start_le
      have hfip := hf.ip_le
      have hfmtch := hf.mtch_lt
      have hfdistance := hf.distance_le
      simp only [mflimit, lz4DistanceMax] at hfip hfdistance
      refine (returns_lz4CatchUp (by omega) (by omega) hfmtch).bind ?_
      rintro ⟨i, m⟩ hcaught
      have hadd := hcaught.add_eq
      have hback := hcaught.le
      have hfront := hcaught.anchor_le
      simp only at hadd hback hfront
      refine (returns_lz4EncodeLiterals hfront (by simp only [mflimit]; omega)
        (fun h => hlen ▸ hfits.limited h) (fun h => ?_)).bind ?_
      · have hbound := hfits.notLimited h
        omega
      · rintro r ⟨hnone, hsome⟩
        cases r with
        | none => exact Outcome.returns_ret (Or.inl ⟨rfl, hnone rfl⟩)
        | some q =>
          obtain ⟨hdst', hop', hroom⟩ := hsome q rfl
          refine (returns_lz4NextMatch hjob hfits _ hqs hop hdst hfront hdst' hop' (by omega) hback
            (by omega) (by simp only [lz4DistanceMax]; omega) hf.ip_le (fun k hk => ?_)
            hf.table).mono hmove
          -- equal by going back, or among the four bytes that were compared
          by_cases hk' : k < f.ip - i
          · exact hcaught.eq k hk'
          · have hfour := hf.eq (k - (f.ip - i)) (by omega)
            rwa [show f.mtch + (k - (f.ip - i)) = m + k by omega,
              show f.ip + (k - (f.ip - i)) = i + k by omega] at hfour
  | nextMatch ip mtch token =>
    obtain ⟨htoken, hop, hroom, hip, ⟨dst', hdst', hdst⟩, hf⟩ := hlabel
    simp only at hop hip hdst
    subst hip
    have hmatch := hf.mtch_lt
    simp only [lz4CompressTurn]
    refine (returns_lz4NextMatch hjob hfits anchor hqs htoken hdst' le_rfl ?_ ?_
      (by omega) le_rfl hmatch hf.distance_le hf.ip_le (fun k hk => hf.eq k (by simpa using hk))
      hf.table).mono hmove
    · rw [Nat.sub_self, extension_of_lt (by decide), List.take_zero]
      exact hdst
    · rw [Nat.sub_self, extension_of_lt (by decide)]
      exact hop

/-- **Compression returns**, without an access outside of the source and the target, and leaves
a block of the source in the target, unless the output is limited and too short. -/
theorem returns_lz4CompressGenericValidated (hjob : job.Admitted) (hfits : job.Fits dst0) :
    (lz4CompressGenericValidated job dst0).Returns (job.Done dst0) := by
  have hsize := hjob.inputSize_le_length
  rw [lz4CompressGenericValidated]
  by_cases hmin : job.inputSize < mflimit + 1
  · rw [if_pos hmin]
    exact returns_lz4LastLiterals_done hsize hfits covers_nil rfl (Written.refl dst0 0)
      (Nat.zero_le _)
  · rw [if_neg hmin]
    have hlong : mflimit < job.inputSize := by omega
    have hplus : job.mflimitPlusOne = job.inputSize - mflimit + 1 := rfl
    have hroom : 9 ≤ job.source.length := by
      simp only [mflimit] at hlong
      omega
    refine (returns_lz4HashPosition (by omega) job.tableType).bind fun h hh => ?_
    refine (TableBelow.replicate.returns_put hh Nat.one_pos).bind fun table htable => ?_
    refine (returns_lz4HashPosition (by omega) job.tableType).bind fun forwardH hforwardH => ?_
    refine returns_loop (fun s => job.inputSize - s.anchor)
      (returns_lz4CompressTurn hjob hfits hlong) ⟨⟨[], covers_nil, rfl, Written.refl dst0 0,
        Nat.one_pos, by omega, hforwardH, htable⟩, Nat.zero_le _⟩ (Nat.lt_succ_of_le (Nat.sub_le _ _))

end

end LogAgg
