import LogAgg.Lz4.Emit

/-!
# Searching for matches

The compressor keeps the last position of every hash in a table, and compares four bytes where
the hash of the next position was seen before.  That the positions in the table lie before the
current one (`TableBelow`) is all that its matches need of it; the hash function only has to
stay inside of the table.
-/

namespace LogAgg

open Memory

/-- The size of the hash table, as a power of two: `LZ4_HASHLOG`, and one more for positions of
two bytes. -/
def TableType.hashLog : TableType → ℕ
  | .byU32 => 12
  | .byU16 => 13

/-- The number of bits in which the table keeps a position. -/
def TableType.width : TableType → ℕ
  | .byU32 => 32
  | .byU16 => 16

/-- `LZ4_hash4`. -/
def lz4Hash4 (sequence : BitVec 32) (tableType : TableType) : ℕ :=
  ((sequence * 2654435761#32) >>> (minmatch * 8 - tableType.hashLog)).toNat

/-- `LZ4_hash5`, on a little-endian machine. -/
def lz4Hash5 (sequence : BitVec 64) (tableType : TableType) : ℕ :=
  (((sequence <<< 24) * 889523592379#64) >>> (64 - tableType.hashLog)).toNat

/-- `LZ4_hashPosition`, on a machine of 64 bits. -/
def lz4HashPosition (mem : Bytes) (p : ℕ) : TableType → Outcome ℕ
  | .byU32 => do
    let sequence ← lz4ReadArch mem p
    return lz4Hash5 sequence .byU32
  | .byU16 => do
    let sequence ← lz4Read32 mem p
    return lz4Hash4 sequence .byU16

/-- `LZ4_putIndexOnHash`. -/
def lz4PutIndexOnHash (idx h : ℕ) (table : List ℕ) (tableType : TableType) :
    Outcome (List ℕ) :=
  store table h (idx % 2 ^ tableType.width)

/-- `LZ4_getIndexOnHash`. -/
def lz4GetIndexOnHash (h : ℕ) (table : List ℕ) : Outcome ℕ := load table h

/-- `LZ4_DISTANCE_MAX`. -/
abbrev lz4DistanceMax : ℕ := 65535

/-- `mflimitPlusOne`. -/
def Lz4Job.mflimitPlusOne (job : Lz4Job) : ℕ := job.inputSize - mflimit + 1

/-- The search for a match, before it looks at `forwardIp`. -/
structure Lz4Search where
  forwardIp : ℕ
  step : ℕ
  searchMatchNb : ℕ
  forwardH : ℕ
  table : List ℕ

/-- A match that was found. -/
structure Lz4Found where
  ip : ℕ
  mtch : ℕ
  table : List ℕ

/-- A turn of the loop under `Find a match`: it goes on, or is left with a match, or with none
where the input ends. -/
def lz4FindMatchTurn (job : Lz4Job) (s : Lz4Search) : Outcome (Lz4Search ⊕ Option Lz4Found) := do
  let current := s.forwardIp
  let matchIndex ← lz4GetIndexOnHash s.forwardH s.table
  let ip := s.forwardIp
  let forwardIp := s.forwardIp + s.step
  let step := s.searchMatchNb / 2 ^ 6
  if job.mflimitPlusOne < forwardIp then return .inr none
  else do
    let forwardH ← lz4HashPosition job.source forwardIp job.tableType
    let table ← lz4PutIndexOnHash current s.forwardH s.table job.tableType
    if job.tableType ≠ .byU16 ∧ matchIndex + lz4DistanceMax < current then
      return .inl ⟨forwardIp, step, s.searchMatchNb + 1, forwardH, table⟩
    else do
      let there ← lz4Read32 job.source matchIndex
      let here ← lz4Read32 job.source ip
      if there = here then return .inr (some ⟨ip, matchIndex, table⟩)
      else return .inl ⟨forwardIp, step, s.searchMatchNb + 1, forwardH, table⟩

/-- `Find a match`. -/
def lz4FindMatch (job : Lz4Job) (ip forwardH : ℕ) (table : List ℕ) : Outcome (Option Lz4Found) :=
  loop (lz4FindMatchTurn job) (job.inputSize + 1) ⟨ip, 1, job.acceleration * 2 ^ 6, forwardH, table⟩

/-- A turn of `do { ip--; match--; } while ((ip > anchor) & (match > lowLimit) && ip[-1] ==
match[-1]);`. -/
def lz4CatchUpTurn (source : Bytes) (anchor : ℕ) (p : ℕ × ℕ) :
    Outcome ((ℕ × ℕ) ⊕ (ℕ × ℕ)) :=
  if anchor < p.1 - 1 ∧ 0 < p.2 - 1 then do
    let here ← load source (p.1 - 1 - 1)
    let there ← load source (p.2 - 1 - 1)
    if here = there then return .inl (p.1 - 1, p.2 - 1) else return .inr (p.1 - 1, p.2 - 1)
  else return .inr (p.1 - 1, p.2 - 1)

/-- `Catch up`: the match goes back as far as it can. -/
def lz4CatchUp (source : Bytes) (anchor ip mtch : ℕ) : Outcome (ℕ × ℕ) :=
  if 0 < mtch then do
    let here ← load source (ip - 1)
    let there ← load source (mtch - 1)
    if here = there then loop (lz4CatchUpTurn source anchor) (ip + 1) (ip, mtch)
    else return (ip, mtch)
  else return (ip, mtch)

/-! ## The table -/

/-- What holds of the source and the kind of table that a job works with. -/
structure Lz4Job.Admitted (job : Lz4Job) : Prop where
  inputSize_le_length : job.inputSize ≤ job.source.length
  inputSize_le : job.inputSize ≤ 0x7E000000
  inputSize_lt : job.tableType = .byU16 → job.inputSize < 65547
  acceleration_pos : 1 ≤ job.acceleration

/-- The table has a cell for every hash, and the positions in it lie before a bound. -/
structure TableBelow (job : Lz4Job) (table : List ℕ) (bound : ℕ) : Prop where
  length_eq : table.length = 2 ^ job.tableType.hashLog
  lt : ∀ e ∈ table, e < bound

section

variable {job : Lz4Job}

theorem toNat_ushiftRight_lt {w : ℕ} (x : BitVec w) {k : ℕ} (hk : k ≤ w) :
    (x >>> (w - k)).toNat < 2 ^ k := by
  rw [BitVec.toNat_ushiftRight, Nat.shiftRight_eq_div_pow,
    Nat.div_lt_iff_lt_mul (Nat.two_pow_pos _), ← pow_add, Nat.add_sub_cancel' hk]
  exact x.isLt

/-- A hash is one of the table. -/
theorem returns_lz4HashPosition {mem : Bytes} {p : ℕ} (hp : p + 8 ≤ mem.length)
    (tableType : TableType) :
    (lz4HashPosition mem p tableType).Returns (· < 2 ^ tableType.hashLog) := by
  cases tableType with
  | byU32 =>
    rw [lz4HashPosition, lz4ReadArch, read_of_le hp]
    exact Outcome.returns_ret (toNat_ushiftRight_lt (w := 64) (k := 12) _ (by decide))
  | byU16 =>
    rw [lz4HashPosition, lz4Read32, read_of_le (by omega)]
    exact Outcome.returns_ret (toNat_ushiftRight_lt (w := 32) (k := 13) _ (by decide))

theorem TableBelow.mono {table : List ℕ} {bound bound' : ℕ} (h : TableBelow job table bound)
    (hle : bound ≤ bound') : TableBelow job table bound' :=
  ⟨h.length_eq, fun e he => (h.lt e he).trans_le hle⟩

theorem TableBelow.replicate : TableBelow job (List.replicate (2 ^ job.tableType.hashLog) 0) 1 :=
  ⟨List.length_replicate, fun _ he => (List.eq_of_mem_replicate he).symm ▸ Nat.one_pos⟩

theorem TableBelow.returns_get {table : List ℕ} {bound h : ℕ} (htable : TableBelow job table bound)
    (hh : h < 2 ^ job.tableType.hashLog) : (lz4GetIndexOnHash h table).Returns (· < bound) := by
  have hlt : h < table.length := htable.length_eq.symm ▸ hh
  exact ⟨table[h], load_eq_ret_iff.mpr (List.getElem?_eq_getElem hlt),
    htable.lt _ (List.getElem_mem hlt)⟩

theorem TableBelow.returns_put {table : List ℕ} {bound h idx : ℕ}
    (htable : TableBelow job table bound) (hh : h < 2 ^ job.tableType.hashLog)
    (hidx : idx < bound) :
    (lz4PutIndexOnHash idx h table job.tableType).Returns (TableBelow job · bound) := by
  have hlt : h < table.length := htable.length_eq.symm ▸ hh
  refine ⟨_, store_of_lt hlt _, (List.length_set ..).trans htable.length_eq, fun e he => ?_⟩
  rcases List.mem_or_eq_of_mem_set he with hmem | rfl
  · exact htable.lt e hmem
  · exact (Nat.mod_le _ _).trans_lt hidx

/-! ## The search -/

/-- The four bytes that are compared. -/
theorem word32_take_drop_inj {mem : Bytes} {i j : ℕ} (hi : i + 4 ≤ mem.length)
    (hj : j + 4 ≤ mem.length)
    (h : word 32 ((mem.drop i).take 4) = word 32 ((mem.drop j).take 4)) :
    ∀ k < 4, mem[i + k]? = mem[j + k]? := by
  intro k hk
  have hbytes := (word_inj (by rw [length_take_drop hi])
    ((length_take_drop hi).trans (length_take_drop hj).symm)).mp h
  have hcell := congrArg (·[k]?) hbytes
  rwa [List.getElem?_take_of_lt hk, List.getElem?_take_of_lt hk, List.getElem?_drop,
    List.getElem?_drop] at hcell

/-- A match that was found: four equal bytes, not too far before, and the table holds nothing
behind the place where it was found. -/
structure Lz4Found.Good (job : Lz4Job) (start : ℕ) (f : Lz4Found) : Prop where
  start_le : start ≤ f.ip
  ip_le : f.ip + mflimit ≤ job.inputSize
  mtch_lt : f.mtch < f.ip
  distance_le : f.ip - f.mtch ≤ lz4DistanceMax
  eq : ∀ k < 4, job.source[f.mtch + k]? = job.source[f.ip + k]?
  table : TableBelow job f.table (f.ip + 1)

theorem returns_lz4FindMatchTurn (hjob : job.Admitted) (hmin : mflimit < job.inputSize)
    {start : ℕ} (s : Lz4Search)
    (hs : start ≤ s.forwardIp ∧ s.forwardIp ≤ job.mflimitPlusOne ∧ 1 ≤ s.step ∧
      64 ≤ s.searchMatchNb ∧ s.forwardH < 2 ^ job.tableType.hashLog ∧
      TableBelow job s.table s.forwardIp) :
    (lz4FindMatchTurn job s).Returns (Sum.elim
      (fun t => (start ≤ t.forwardIp ∧ t.forwardIp ≤ job.mflimitPlusOne ∧ 1 ≤ t.step ∧
        64 ≤ t.searchMatchNb ∧ t.forwardH < 2 ^ job.tableType.hashLog ∧
        TableBelow job t.table t.forwardIp) ∧
        job.inputSize - t.forwardIp < job.inputSize - s.forwardIp)
      (fun r => ∀ f ∈ r, f.Good job start)) := by
  obtain ⟨hstart, hlimit, hstep, hnb, hh, htable⟩ := hs
  have hsize := hjob.inputSize_le_length
  have hplus : job.mflimitPlusOne = job.inputSize - 12 + 1 := rfl
  simp only [mflimit] at hmin
  rw [lz4FindMatchTurn]
  refine (htable.returns_get hh).bind fun matchIndex hlt => ?_
  by_cases hover : job.mflimitPlusOne < s.forwardIp + s.step
  · rw [if_pos hover]
    exact Outcome.returns_ret nofun
  · rw [if_neg hover]
    refine (returns_lz4HashPosition (by omega) job.tableType).bind fun forwardH hforwardH => ?_
    refine ((htable.mono (Nat.le_succ _)).returns_put hh (Nat.lt_succ_self _)).bind
      fun table htable' => ?_
    have hdiv : 1 ≤ s.searchMatchNb / 2 ^ 6 := by omega
    -- the search goes on in the same way from both places
    have hnext := And.intro (And.intro (hstart.trans (Nat.le_add_right _ s.step)) <|
      And.intro (not_lt.mp hover) <| And.intro hdiv <|
      And.intro (hnb.trans (Nat.le_succ _)) <| And.intro hforwardH
        (htable'.mono (Nat.add_le_add_left hstep s.forwardIp)))
      (show job.inputSize - (s.forwardIp + s.step) < job.inputSize - s.forwardIp by omega)
    by_cases hfar : job.tableType ≠ .byU16 ∧ matchIndex + lz4DistanceMax < s.forwardIp
    · rw [if_pos hfar]
      exact Outcome.returns_ret hnext
    · rw [if_neg hfar]
      have hthere : matchIndex + 4 ≤ job.source.length := by omega
      have hhere : s.forwardIp + 4 ≤ job.source.length := by omega
      rw [lz4Read32, read_of_le hthere, lz4Read32, read_of_le hhere]
      simp only [Outcome.ret_bind, Outcome.pure_eq]
      by_cases heq : word 32 ((job.source.drop matchIndex).take 4) =
          word 32 ((job.source.drop s.forwardIp).take 4)
      · rw [if_pos heq]
        refine Outcome.returns_ret ?_
        rintro _ ⟨⟩
        refine ⟨hstart, by simp only [mflimit]; omega, hlt, ?_,
          word32_take_drop_inj hthere hhere heq, htable'⟩
        simp only [lz4DistanceMax] at hfar ⊢
        by_cases htype : job.tableType = .byU16
        · have hshort := hjob.inputSize_lt htype
          omega
        · have hnear := not_lt.mp fun hlt' => hfar ⟨htype, hlt'⟩
          omega
      · rw [if_neg heq]
        exact Outcome.returns_ret hnext

/-- The search ends, with a match or at the end of the input. -/
theorem returns_lz4FindMatch (hjob : job.Admitted) (hmin : mflimit < job.inputSize) {ip h : ℕ}
    {table : List ℕ} (hip : ip ≤ job.mflimitPlusOne) (hh : h < 2 ^ job.tableType.hashLog)
    (htable : TableBelow job table ip) :
    (lz4FindMatch job ip h table).Returns fun r => ∀ f ∈ r, f.Good job ip := by
  refine returns_loop (fun s => job.inputSize - s.forwardIp)
    (returns_lz4FindMatchTurn hjob hmin) ⟨le_rfl, hip, le_rfl, ?_, hh, htable⟩
    (Nat.lt_succ_of_le (Nat.sub_le _ _))
  have hpos := hjob.acceleration_pos
  show 64 ≤ job.acceleration * 64
  omega

/-! ## Going back -/

/-- A match that went back from `ip` and `mtch` by equal bytes. -/
structure CaughtUp (source : Bytes) (anchor ip mtch : ℕ) (p : ℕ × ℕ) : Prop where
  anchor_le : anchor ≤ p.1
  le : p.1 ≤ ip
  add_eq : p.1 + mtch = ip + p.2
  eq : ∀ k < ip - p.1, source[p.2 + k]? = source[p.1 + k]?

/-- One byte further back. -/
theorem CaughtUp.pred {source : Bytes} {anchor ip mtch : ℕ} {p : ℕ × ℕ}
    (h : CaughtUp source anchor ip mtch p) (hanchor : anchor < p.1) (hpos : 0 < p.2)
    (hcell : source[p.1 - 1]? = source[p.2 - 1]?) :
    CaughtUp source anchor ip mtch (p.1 - 1, p.2 - 1) where
  anchor_le := by
    show anchor ≤ p.1 - 1
    omega
  le := (Nat.sub_le _ _).trans h.le
  add_eq := by
    have hadd := h.add_eq
    show p.1 - 1 + mtch = ip + (p.2 - 1)
    omega
  eq k hk := by
    show source[p.2 - 1 + k]? = source[p.1 - 1 + k]?
    simp only at hk
    cases k with
    | zero => exact hcell.symm
    | succ k =>
      rw [show p.2 - 1 + (k + 1) = p.2 + k by omega, show p.1 - 1 + (k + 1) = p.1 + k by omega]
      exact h.eq k (by omega)

theorem returns_lz4CatchUp {source : Bytes} {anchor ip mtch : ℕ} (hanchor : anchor < ip)
    (hip : ip ≤ source.length) (hmtch : mtch < ip) :
    (lz4CatchUp source anchor ip mtch).Returns (CaughtUp source anchor ip mtch) := by
  have hstart : CaughtUp source anchor ip mtch (ip, mtch) :=
    ⟨hanchor.le, le_rfl, rfl, fun k hk => by simp only at hk; omega⟩
  have hload : ∀ i < source.length, load source i = .ret (source.getD i 0) := by
    intro i hi
    rw [load, List.getElem?_eq_getElem hi, List.getD_eq_getElem _ _ hi]
  have hcell : ∀ i j, i < source.length → j < source.length →
      source.getD i 0 = source.getD j 0 → source[i]? = source[j]? := by
    intro i j hi hj h
    rw [List.getD_eq_getElem _ _ hi, List.getD_eq_getElem _ _ hj] at h
    rw [List.getElem?_eq_getElem hi, List.getElem?_eq_getElem hj, h]
  rw [lz4CatchUp]
  by_cases hpos : 0 < mtch
  · rw [if_pos hpos, hload (ip - 1) (by omega), hload (mtch - 1) (by omega)]
    simp only [Outcome.ret_bind]
    by_cases heq : source.getD (ip - 1) 0 = source.getD (mtch - 1) 0
    · rw [if_pos heq]
      -- before its body the loop knows that it may go back one byte
      refine returns_loop (I := fun p => CaughtUp source anchor ip mtch p ∧ anchor < p.1 ∧
        0 < p.2 ∧ source[p.1 - 1]? = source[p.2 - 1]?) (fun p => p.1) ?_
        ⟨hstart, hanchor, hpos, hcell _ _ (by omega) (by omega) heq⟩ (Nat.lt_succ_self _)
      rintro ⟨i, m⟩ ⟨hcaught, hi, hm, hsame⟩
      simp only at hi hm hsame
      have hprev := hcaught.pred hi hm hsame
      have hile := hcaught.le
      have hadd := hcaught.add_eq
      simp only at hile hadd
      simp only [lz4CatchUpTurn]
      by_cases hmore : anchor < i - 1 ∧ 0 < m - 1
      · rw [if_pos hmore, hload (i - 1 - 1) (by omega), hload (m - 1 - 1) (by omega)]
        simp only [Outcome.ret_bind]
        by_cases hagain : source.getD (i - 1 - 1) 0 = source.getD (m - 1 - 1) 0
        · rw [if_pos hagain]
          refine Outcome.returns_ret ⟨⟨hprev, hmore.1, hmore.2,
            hcell _ _ (by omega) (by omega) hagain⟩, ?_⟩
          show i - 1 < i
          omega
        · rw [if_neg hagain]
          exact Outcome.returns_ret hprev
      · rw [if_neg hmore]
        exact Outcome.returns_ret hprev
    · rw [if_neg heq]
      exact Outcome.returns_ret hstart
  · rw [if_neg hpos]
    exact Outcome.returns_ret hstart

end

end LogAgg
