import LogAgg.Lz4.Emit

/-!
# Reading lengths

`read_variable_length` reads the further bytes of a length, up to a limit.  It finds the length
that was written, and fails only when its bytes do not fit (`returns_readVariableLength`).

`Reads` says what the source holds between two cursors, and `Expects` that the rest of a
block lies ahead.  A token and the lengths behind it leave no choice of what comes next
(`Lz4Block.bytes_inj`): whatever the decoder has read so far, a block that lies ahead begins
with it (`Expects.literals`, `Expects.awaitsMatch`).
-/

namespace LogAgg

open Memory Lz77

/-! ## The code -/

/-- A turn of `read_variable_length`: the length so far and the cursor. -/
def readVariableLengthTurn (src : Bytes) (ilimit : ℕ) (s : ℕ × ℕ) :
    Outcome ((ℕ × ℕ) ⊕ (Option ℕ × ℕ)) :=
  if ilimit ≤ s.2 then return .inr (none, s.2)
  else do
    let b ← load src s.2
    if b = 255 then return .inl (s.1 + 255, s.2 + 1)
    else return .inr (some (s.1 + b.toNat), s.2 + 1)

/-- `read_variable_length`, with where it leaves the cursor: none for `rvl_error`. -/
def readVariableLength (src : Bytes) (ip ilimit : ℕ) : Outcome (Option ℕ × ℕ) :=
  loop (readVariableLengthTurn src ilimit) (ilimit - ip + 1) (0, ip)

/-- `LZ4_readLE16`. -/
def lz4ReadLE16 (src : Bytes) (ip : ℕ) : Outcome ℕ := do
  let b ← read src ip 2
  return (b.getD 0 0).toNat + 256 * (b.getD 1 0).toNat

/-! ## Cursors -/

/-- Between two cursors the source holds these bytes. -/
structure Reads (src : Bytes) (i : ℕ) (piece : Bytes) (j : ℕ) : Prop where
  drop_eq : src.drop i = piece ++ src.drop j
  eq_add : j = i + piece.length

namespace Reads

variable {src x y : Bytes} {i j k : ℕ}

theorem refl (src : Bytes) (i : ℕ) : Reads src i [] i := ⟨rfl, rfl⟩

theorem trans (hx : Reads src i x j) (hy : Reads src j y k) : Reads src i (x ++ y) k where
  drop_eq := by rw [hx.drop_eq, hy.drop_eq, List.append_assoc]
  eq_add := by rw [hy.eq_add, hx.eq_add, List.length_append, Nat.add_assoc]

theorem of_load {c : UInt8} (h : load src i = .ret c) : Reads src i [c] (i + 1) where
  drop_eq := by
    obtain ⟨hlt, hc⟩ := List.getElem?_eq_some_iff.mp (load_eq_ret_iff.mp h)
    rw [List.drop_eq_getElem_cons hlt, hc]
    rfl
  eq_add := rfl

theorem slice {n : ℕ} (h : i + n ≤ src.length) : Reads src i ((src.drop i).take n) (i + n) where
  drop_eq := by rw [← List.drop_drop, List.take_append_drop]
  eq_add := by rw [length_take_drop h]

/-- What comes before the second cursor is what the source has there. -/
theorem take_eq (h : Reads src 0 x j) : src = x ++ src.drop j := h.drop_eq

end Reads

/-- Reading inside of an object. -/
theorem load_of_lt {src : Bytes} {i : ℕ} (h : i < src.length) : load src i = .ret src[i] :=
  load_eq_ret_iff.mpr (List.getElem?_eq_getElem h)

/-- Every two bytes are an offset. -/
theorem returns_lz4ReadLE16 {src : Bytes} {ip : ℕ} (h : ip + 2 ≤ src.length) :
    (lz4ReadLE16 src ip).Returns fun offset => offset < 65536 ∧
      Reads src ip [UInt8.ofNat offset, UInt8.ofNat (offset / 256)] (ip + 2) := by
  obtain ⟨a, b, hab⟩ := List.length_eq_two.mp (length_take_drop h)
  have hslice := Reads.slice h
  rw [hab] at hslice
  have ha := a.toNat_lt
  have hb := b.toNat_lt
  rw [lz4ReadLE16, read_of_le h, hab]
  refine Outcome.returns_ret ⟨?_, ?_⟩
  · show a.toNat + 256 * b.toNat < 65536
    omega
  · show Reads src ip [UInt8.ofNat (a.toNat + 256 * b.toNat),
      UInt8.ofNat ((a.toNat + 256 * b.toNat) / 256)] (ip + 2)
    have hlow : UInt8.ofNat (a.toNat + 256 * b.toNat) = a := by
      rw [← UInt8.toNat_inj, UInt8.toNat_ofNat']
      omega
    have hhigh : UInt8.ofNat ((a.toNat + 256 * b.toNat) / 256) = b := by
      rw [← UInt8.toNat_inj, UInt8.toNat_ofNat']
      omega
    rwa [hlow, hhigh]

/-! ## Lengths -/

/-- The first byte of a length that is not full is its last. -/
theorem le_div_of_replicate {n k : ℕ} {rest rest' : Bytes}
    (h : List.replicate k 255 ++ rest = lengthBytes n ++ rest') : k ≤ n / 255 := by
  by_contra hlt
  have hget := congrArg (·[n / 255]?) h
  rw [List.getElem?_append_left (by rw [List.length_replicate]; omega),
    List.getElem?_replicate_of_lt (by omega), lengthBytes, List.append_assoc,
    List.getElem?_append_right (by rw [List.length_replicate]), List.length_replicate, Nat.sub_self,
    List.singleton_append, List.getElem?_cons_zero, Option.some_inj, ← UInt8.toNat_inj,
    UInt8.toNat_ofNat'] at hget
  have hmod := Nat.mod_lt n (show 0 < 255 by omega)
  rw [Nat.mod_eq_of_lt (by omega)] at hget
  exact absurd hget.symm (by simpa using hmod.ne)

/-- **Reading a length.**  What was read is the length as it is written, and a length that is
written before the limit is read. -/
theorem returns_readVariableLength {src : Bytes} {ip ilimit : ℕ} (hlimit : ilimit ≤ src.length) :
    (readVariableLength src ip ilimit).Returns fun r =>
      (∀ n, r.1 = some n → Reads src ip (lengthBytes n) r.2 ∧ r.2 ≤ ilimit) ∧
        (r.1 = none → ∀ n rest, src.drop ip = lengthBytes n ++ rest →
          ilimit < ip + (lengthBytes n).length) := by
  refine returns_loop
    (I := fun s : ℕ × ℕ => ∃ k, s.1 = k * 255 ∧ Reads src ip (List.replicate k 255) s.2)
    (fun s => ilimit - s.2) ?_ ⟨0, (Nat.zero_mul 255).symm, Reads.refl src ip⟩
    (Nat.lt_succ_self _)
  rintro ⟨len, i⟩ ⟨k, hlen, hreads⟩
  have hi := hreads.eq_add
  rw [List.length_replicate] at hi
  simp only at hlen hreads hi
  simp only [readVariableLengthTurn]
  by_cases hover : ilimit ≤ i
  · rw [if_pos hover]
    refine Outcome.returns_ret ⟨nofun, fun _ n rest hdrop => ?_⟩
    have hle := le_div_of_replicate (hreads.drop_eq.symm.trans hdrop)
    rw [length_lengthBytes]
    omega
  · rw [if_neg hover, load_of_lt (show i < src.length by omega), Outcome.ret_bind]
    have hbyte := hreads.trans (Reads.of_load (load_of_lt (show i < src.length by omega)))
    by_cases hfull : src[i] = 255
    · rw [if_pos hfull]
      rw [hfull, ← List.replicate_succ'] at hbyte
      refine Outcome.returns_ret ⟨⟨k + 1, ?_, hbyte⟩, ?_⟩
      · rw [hlen, Nat.succ_mul]
      · show ilimit - (i + 1) < ilimit - i
        omega
    · rw [if_neg hfull]
      have hlt : src[i].toNat < 255 := by
        have hbound := src[i].toNat_lt
        have hne : src[i].toNat ≠ 255 := fun h => hfull (UInt8.toNat_inj.mp h)
        omega
      refine Outcome.returns_ret ⟨?_, nofun⟩
      rintro _ ⟨⟩
      refine ⟨?_, by simp only; omega⟩
      rw [hlen, lengthBytes, Nat.add_comm, Nat.add_mul_mod_self_right,
        Nat.add_mul_div_right _ _ (by omega), Nat.div_eq_of_lt hlt, Nat.mod_eq_of_lt hlt,
        Nat.zero_add, UInt8.ofNat_toNat]
      exact hbyte

/-! ## One way to read -/

theorem lengthBytes_append_inj {n m : ℕ} {x y : Bytes}
    (h : lengthBytes n ++ x = lengthBytes m ++ y) : n = m ∧ x = y := by
  have hdiv : n / 255 = m / 255 := by
    refine le_antisymm ?_ ?_
    · rw [lengthBytes, List.append_assoc] at h
      exact le_div_of_replicate h
    · rw [lengthBytes.eq_1 m, List.append_assoc] at h
      exact le_div_of_replicate h.symm
  rw [lengthBytes, lengthBytes, hdiv, List.append_assoc, List.append_assoc] at h
  have hcons := List.append_cancel_left h
  rw [List.singleton_append, List.singleton_append, List.cons.injEq, ← UInt8.toNat_inj,
    UInt8.toNat_ofNat', UInt8.toNat_ofNat'] at hcons
  exact ⟨by omega, hcons.2⟩

theorem extension_append_inj {n m : ℕ} {x y : Bytes} (hmin : min n 15 = min m 15)
    (h : extension n ++ x = extension m ++ y) : n = m ∧ x = y := by
  by_cases hn : n < 15
  · obtain rfl : n = m := by omega
    exact ⟨rfl, List.append_cancel_left h⟩
  · rw [extension_of_le (by omega), extension_of_le (by omega)] at h
    obtain ⟨hsub, hxy⟩ := lengthBytes_append_inj h
    exact ⟨by omega, hxy⟩

/-- A token is known by its two halves. -/
theorem tokenByte_eq {token : UInt8} {literals code : ℕ}
    (hliterals : token.toNat / 16 = min literals 15) (hcode : token.toNat % 16 = min code 15) :
    tokenByte literals code = token := by
  rw [← UInt8.toNat_inj, toNat_tokenByte]
  omega

/-! ## What lies ahead -/

/-- The block without its first sequences. -/
def Lz4Block.withSequences (b : Lz4Block) (qs : List Lz4Sequence) : Lz4Block :=
  { b with sequences := qs }

namespace Lz4Block

theorem bytes_of_nil {b : Lz4Block} (hb : b.sequences = []) : b.bytes = b.lastBytes := by
  rw [bytes, hb]
  rfl

theorem bytes_of_cons {b : Lz4Block} {q : Lz4Sequence} {qs : List Lz4Sequence}
    (hb : b.sequences = q :: qs) : b.bytes = q.bytes ++ (b.withSequences qs).bytes := by
  rw [bytes, hb, List.flatMap_cons, List.append_assoc]
  rfl

/-- A block that begins with a token, its literals and an offset begins with a sequence, which
is known but for the length of its match. -/
theorem exists_cons_of_bytes (b : Lz4Block) {token : UInt8} {literals rest : Bytes} {offset : ℕ}
    (htoken : token.toNat / 16 = min literals.length 15) (hoffset : offset < 65536)
    (h : b.bytes = token :: (extension literals.length ++ literals ++
      [UInt8.ofNat offset, UInt8.ofNat (offset / 256)]) ++ rest) :
    ∃ q qs, b.sequences = q :: qs ∧ q.literals = literals ∧ q.offset = offset ∧
      token.toNat % 16 = min (q.matchLength - 4) 15 ∧
      rest = extension (q.matchLength - 4) ++ (b.withSequences qs).bytes := by
  cases hb : b.sequences with
  | nil =>
    -- the literals at the end leave nothing for an offset
    have hspare := b.spare_lt
    rw [bytes_of_nil hb, lastBytes, List.cons_append, List.append_assoc, List.append_assoc,
      List.cons.injEq, ← UInt8.toNat_inj, UInt8.toNat_ofNat'] at h
    obtain ⟨hn, hrest⟩ := extension_append_inj (by omega) h.2
    have hlen := congrArg List.length hrest
    rw [List.length_append, List.length_append, List.length_cons] at hlen
    omega
  | cons q qs =>
    have hlt := q.offset_lt
    rw [bytes_of_cons hb, Lz4Sequence.bytes, List.cons_append, List.cons_append,
      List.append_assoc, List.append_assoc, List.append_assoc, List.append_assoc,
      List.append_assoc, List.cons.injEq, ← UInt8.toNat_inj, toNat_tokenByte] at h
    obtain ⟨hn, hrest⟩ := extension_append_inj (by omega) h.2
    obtain ⟨hliterals, hmatch⟩ := List.append_inj hrest hn
    simp only [List.cons_append, List.nil_append, List.cons.injEq, ← UInt8.toNat_inj,
      UInt8.toNat_ofNat'] at hmatch
    obtain ⟨hlow, hhigh, htail⟩ := hmatch
    exact ⟨q, qs, rfl, hliterals, by omega, by omega, htail.symm⟩

/-- A block that begins with the bytes of a sequence begins with that sequence. -/
theorem exists_cons_of_bytes_append (b : Lz4Block) {q : Lz4Sequence} {rest : Bytes}
    (h : b.bytes = q.bytes ++ rest) :
    ∃ qs, b.sequences = q :: qs ∧ rest = (b.withSequences qs).bytes := by
  have hsplit : q.bytes = (tokenByte q.literals.length (q.matchLength - 4) ::
      (extension q.literals.length ++ q.literals ++
        [UInt8.ofNat q.offset, UInt8.ofNat (q.offset / 256)])) ++
          extension (q.matchLength - 4) := rfl
  rw [hsplit, List.append_assoc] at h
  have htoken := toNat_tokenByte q.literals.length (q.matchLength - 4)
  obtain ⟨q', qs, hb, hliterals, hoffset, hcode, hrest⟩ :=
    b.exists_cons_of_bytes (by omega) q.offset_lt h
  obtain ⟨hmatch, htail⟩ := extension_append_inj (by omega) hrest
  have hmin := q.minmatch_le
  have hmin' := q'.minmatch_le
  obtain ⟨⟨literals, offset, matchLength⟩, _, _⟩ := q
  obtain ⟨⟨literals', offset', matchLength'⟩, _, _⟩ := q'
  simp only at hliterals hoffset hmatch hmin hmin'
  obtain rfl : matchLength' = matchLength := by omega
  subst hliterals hoffset
  exact ⟨qs, hb, htail⟩

/-- **The bytes determine the block.** -/
theorem bytes_inj {b b' : Lz4Block} (h : b.bytes = b'.bytes) : b = b' := by
  induction hb : b.sequences generalizing b b' with
  | nil =>
    cases hb' : b'.sequences with
    | nil =>
      have hspare := b.spare_lt
      have hspare' := b'.spare_lt
      rw [bytes_of_nil hb, bytes_of_nil hb', lastBytes, lastBytes, List.cons.injEq,
        ← UInt8.toNat_inj, UInt8.toNat_ofNat', UInt8.toNat_ofNat'] at h
      obtain ⟨hn, hliterals⟩ := extension_append_inj (by omega) h.2
      obtain ⟨sequences, lastLiterals, spare, _⟩ := b
      obtain ⟨sequences', lastLiterals', spare', _⟩ := b'
      simp only at hb hb' hliterals h hspare hspare'
      subst hb hb' hliterals
      obtain rfl : spare = spare' := by omega
      rfl
    | cons q qs =>
      rw [bytes_of_cons hb'] at h
      obtain ⟨qs', hqs', -⟩ := b.exists_cons_of_bytes_append h
      rw [hb] at hqs'
      cases hqs'
  | cons q qs ih =>
    rw [bytes_of_cons hb] at h
    obtain ⟨qs', hqs', hrest⟩ := b'.exists_cons_of_bytes_append h.symm
    have htail : b.withSequences qs = b'.withSequences qs' := ih hrest rfl
    obtain ⟨sequences, lastLiterals, spare, _⟩ := b
    obtain ⟨sequences', lastLiterals', spare', _⟩ := b'
    simp only [withSequences, Lz4Block.mk.injEq] at hb hqs' htail
    obtain ⟨rfl, rfl, rfl⟩ := htail
    rw [Lz4Block.mk.injEq]
    exact ⟨hb.trans hqs'.symm, rfl, rfl⟩

end Lz4Block

/-- The rest of a block lies ahead, one that ends well and fits. -/
structure Expects (src : Bytes) (oend ip : ℕ) (out : Bytes) (b : Lz4Block) : Prop where
  drop_eq : src.drop ip = b.bytes
  endsWell : b.EndsWell
  reaches : b.Reaches out
  length_le : (b.contentBehind out).length ≤ oend

/-- A match is expected after some literals and an offset: what is left of its length, and that
it fits. -/
def AwaitsMatch (src : Bytes) (oend ip op : ℕ) (token : UInt8) (offset : ℕ) : Prop :=
  ∃ code rest, src.drop ip = extension code ++ rest ∧ token.toNat % 16 = min code 15 ∧
    6 ≤ rest.length ∧ offset ≤ op ∧ op + (code + 4) + 5 ≤ oend

theorem length_add_matchLength_le {qs : List Lz4Sequence} {q : Lz4Sequence} {out : Bytes}
    (hq : q ∈ qs.getLast?) : out.length + q.matchLength ≤ (expandSequences qs out).length := by
  obtain ⟨init, rfl⟩ := List.mem_getLast?_eq_getLast hq |>.elim fun hne hlast =>
    (⟨qs.dropLast, by rw [hlast, List.dropLast_append_getLast]⟩ : ∃ init, qs = init ++ [q])
  rw [expandSequences_append, expandSequences_cons, expandSequences_nil,
    q.toFactor.length_expand]
  have hle := length_le_length_expandSequences init out
  omega

namespace Expects

variable {src out : Bytes} {oend ip : ℕ} {b : Lz4Block} {q : Lz4Sequence} {qs : List Lz4Sequence}

/-- The first sequence of the block, and the rest of it. -/
theorem head (h : Expects src oend ip out b) (hb : b.sequences = q :: qs) :
    src.drop ip = q.bytes ++ (b.withSequences qs).bytes ∧ 6 ≤ (b.withSequences qs).bytes.length ∧
      q.offset ≤ out.length + q.literals.length ∧
      out.length + q.literals.length + 12 ≤ oend ∧
      out.length + q.literals.length + q.matchLength + 5 ≤ oend := by
  have hbytes := Lz4Block.bytes_of_cons hb
  have hfive := h.endsWell.lastliterals_le (hb ▸ List.cons_ne_nil q qs)
  have hlen : (expandSequences qs (q.expand out)).length + b.lastLiterals.length ≤ oend := by
    have hle := h.length_le
    rwa [Lz4Block.contentBehind, hb, expandSequences_cons, List.length_append] at hle
  have hexpand := q.toFactor.length_expand out
  have hgrow := length_le_length_expandSequences qs (q.expand out)
  refine ⟨h.drop_eq.trans hbytes, ?_, ?_, ?_, by omega⟩
  · have hlast := (b.withSequences qs).length_lastBytes
    have hsame : (b.withSequences qs).lastLiterals = b.lastLiterals := rfl
    rw [Lz4Block.bytes, List.length_append, hlast, hsame]
    omega
  · have hreach := h.reaches
    rw [Lz4Block.Reaches, hb] at hreach
    exact hreach.1
  · -- the last match starts twelve bytes before the end, and this one not behind it
    have hmflimit := h.endsWell.mflimit_le
    rw [hb] at hmflimit
    cases qs with
    | nil =>
      have hq := hmflimit q rfl
      rw [expandSequences_nil] at hlen
      omega
    | cons r rs =>
      obtain ⟨q', hq'⟩ : ∃ q', q' ∈ (r :: rs).getLast? :=
        ⟨_, List.getLast?_eq_some_getLast (List.cons_ne_nil r rs)⟩
      have hlast := hmflimit q' (by rwa [List.getLast?_cons_cons])
      have hle : (q.expand out).length + q'.matchLength ≤
          (expandSequences (r :: rs) (q.expand out)).length := length_add_matchLength_le hq'
      omega

/-- Behind its first sequence the rest of the block lies ahead. -/
theorem tail (h : Expects src oend ip out b) (hb : b.sequences = q :: qs) :
    Expects src oend (ip + q.bytes.length) (q.expand out) (b.withSequences qs) where
  drop_eq := by
    rw [← List.drop_drop, (h.head hb).1, List.drop_left]
  endsWell := by
    refine ⟨fun _ => h.endsWell.lastliterals_le (hb ▸ List.cons_ne_nil q qs), fun r hr => ?_⟩
    refine h.endsWell.mflimit_le r ?_
    rw [hb]
    cases qs with
    | nil => cases hr
    | cons r rs => exact (List.getLast?_cons_cons).symm ▸ hr
  reaches := by
    have hreach := h.reaches
    rw [Lz4Block.Reaches, hb] at hreach
    exact hreach.2
  length_le := by
    have hle := h.length_le
    rwa [Lz4Block.contentBehind, hb, expandSequences_cons] at hle

/-- A block that lies ahead begins with a token and a run of literals. -/
theorem run (h : Expects src oend ip out b) : ∃ token n literals rest, literals.length = n ∧
    token.toNat / 16 = min n 15 ∧ src.drop ip = token :: (extension n ++ (literals ++ rest)) := by
  cases hb : b.sequences with
  | nil =>
    have hbytes := Lz4Block.bytes_of_nil hb
    have hspare := b.spare_lt
    refine ⟨UInt8.ofNat (16 * min b.lastLiterals.length 15 + b.spare), _, b.lastLiterals, [], rfl,
      ?_, ?_⟩
    · rw [UInt8.toNat_ofNat']
      omega
    · rw [h.drop_eq, hbytes, Lz4Block.lastBytes, List.append_nil]
  | cons q qs =>
    refine ⟨tokenByte q.literals.length (q.matchLength - 4), _, q.literals,
      [UInt8.ofNat q.offset, UInt8.ofNat (q.offset / 256)] ++
        (extension (q.matchLength - 4) ++ (b.withSequences qs).bytes), rfl, ?_, ?_⟩
    · rw [toNat_tokenByte]
      omega
    · rw [(h.head hb).1, Lz4Sequence.bytes, List.cons_append, List.append_assoc,
        List.append_assoc, List.append_assoc]

/-- **After the token and the number of literals** either the end of the block follows, or a
sequence. -/
theorem literals (h : Expects src oend ip out b) {token : UInt8} {n ip1 : ℕ}
    (htoken : token.toNat / 16 = min n 15)
    (hread : Reads src ip (token :: extension n) ip1) :
    (ip1 + n = src.length ∧ out.length + n ≤ oend) ∨
      (ip1 + n + 8 ≤ src.length ∧ out.length + n + 12 ≤ oend) := by
  have hdrop := hread.drop_eq
  have hone := congrArg List.length hdrop
  rw [List.length_append, List.length_drop, List.length_drop] at hone
  cases hb : b.sequences with
  | nil =>
    have hbytes := Lz4Block.bytes_of_nil hb
    have hspare := b.spare_lt
    rw [h.drop_eq, hbytes, Lz4Block.lastBytes, List.cons_append, List.cons.injEq,
      ← UInt8.toNat_inj, UInt8.toNat_ofNat'] at hdrop
    obtain ⟨hn, hrest⟩ := extension_append_inj (by omega) hdrop.2
    have hlen := congrArg List.length hrest
    rw [List.length_drop] at hlen
    have hle := h.length_le
    rw [Lz4Block.contentBehind, hb, expandSequences_nil, List.length_append] at hle
    rw [List.length_cons] at hone
    refine Or.inl ⟨?_, by omega⟩
    have hall := congrArg List.length (h.drop_eq.trans hbytes)
    rw [Lz4Block.length_lastBytes, List.length_drop] at hall
    have hip1 := hread.eq_add
    rw [List.length_cons, length_extension] at hip1
    rw [← hn] at hip1 ⊢
    omega
  | cons q qs =>
    obtain ⟨hseq, hsix, -, hmflimit, -⟩ := h.head hb
    have hlength := q.length_bytes
    have hall := congrArg List.length hseq
    rw [List.length_drop, List.length_append] at hall
    rw [hseq, Lz4Sequence.bytes, List.cons_append, List.cons_append, List.append_assoc,
      List.append_assoc, List.append_assoc, List.cons.injEq, ← UInt8.toNat_inj,
      toNat_tokenByte] at hdrop
    obtain ⟨hn, -⟩ := extension_append_inj (by omega) hdrop.2
    have hip1 := hread.eq_add
    rw [List.length_cons, length_extension] at hip1
    rw [← hn] at hip1 ⊢
    exact Or.inr ⟨by omega, hmflimit⟩

/-- **After the offset** the first sequence of the block is known but for the length of its
match. -/
theorem sequence (h : Expects src oend ip out b) {token : UInt8} {literals : Bytes}
    {offset ip2 : ℕ} (htoken : token.toNat / 16 = min literals.length 15)
    (hoffset : offset < 65536)
    (hread : Reads src ip (token :: (extension literals.length ++ literals ++
      [UInt8.ofNat offset, UInt8.ofNat (offset / 256)])) ip2) :
    ∃ q qs, b.sequences = q :: qs ∧ q.literals = literals ∧ q.offset = offset ∧
      token.toNat % 16 = min (q.matchLength - 4) 15 ∧
      src.drop ip2 = extension (q.matchLength - 4) ++ (b.withSequences qs).bytes :=
  b.exists_cons_of_bytes htoken hoffset (h.drop_eq.symm.trans hread.drop_eq)

/-- **After the offset** the rest of a match follows. -/
theorem awaitsMatch (h : Expects src oend ip out b) {token : UInt8} {literals : Bytes}
    {offset ip2 : ℕ} (htoken : token.toNat / 16 = min literals.length 15)
    (hoffset : offset < 65536)
    (hread : Reads src ip (token :: (extension literals.length ++ literals ++
      [UInt8.ofNat offset, UInt8.ofNat (offset / 256)])) ip2) :
    AwaitsMatch src oend ip2 (out.length + literals.length) token offset := by
  obtain ⟨q, qs, hb, rfl, rfl, hcode, hdrop⟩ := h.sequence htoken hoffset hread
  obtain ⟨-, hsix, hreach, -, hend⟩ := h.head hb
  have hminmatch := q.minmatch_le
  exact ⟨q.matchLength - 4, _, hdrop, hcode, hsix, hreach, by omega⟩

/-- A sequence that was read is the first one of the block that lies ahead. -/
theorem of_reads (h : Expects src oend ip out b) {ip' : ℕ} (hread : Reads src ip q.bytes ip') :
    ∃ qs, b.sequences = q :: qs := by
  obtain ⟨qs, hb, -⟩ := b.exists_cons_of_bytes_append (h.drop_eq.symm.trans hread.drop_eq)
  exact ⟨qs, hb⟩

end Expects

end LogAgg
