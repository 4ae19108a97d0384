import LogAgg.LogEntry.Members
import LogAgg.VectorClock.Memory

/-!
# Reading an entry in memory

`log_entry_from_json` with its cursor as an index into the text, and the arrays it writes to
as objects: `node_id` and `message` of the entry, `key[64]` and `value[LOG_MESSAGE_MAX_LEN * 2]`
on the stack.  The nested clock is copied and read by `vcFromJsonAt`, whose result is ignored.

The run in memory follows the run on the list (`follows_logEntryFromJsonAt`), so it leaves the
text exactly where the list model runs past its end: behind a backslash that is the last byte
of the text and stands in a string that is being read (`EndsInEscape`).  There `parse_str`
stores the terminator and steps over it, where `parse_json_string` of the clock gives up.
-/

namespace LogAgg

open Ascii Memory VectorClock

/-! ## The code -/

/-- What `log_entry_from_json` writes to: the fields of the entry that it fills, and the two
arrays on its stack. -/
structure EntryMem where
  nodeId : Bytes
  nodeCount : ℕ
  clocks : List UInt64
  timestamp : UInt64
  level : LogLevel
  message : Bytes
  key : Bytes
  value : Bytes

/-- `parse_str`. -/
def parseStrAt (mem : Bytes) (i : ℕ) (buf : Bytes) : Outcome (Bytes × ℕ) :=
  parseQuotedAt strUnescape mem i buf

/-- `parse_num`. -/
def parseNumAt (mem : Bytes) (i : ℕ) : Outcome (UInt64 × ℕ) := do
  let i ← skipWhitespaceAt mem i
  digitsAt mem 0 i

/-- The end of a bracketed value, if one starts at the cursor. -/
def cutNestedAt (opening closing : UInt8) (mem : Bytes) (i : ℕ) : Outcome ℕ := do
  let c ← load mem i
  if c = opening then nestedAt opening closing mem 0 i else .ret i

/-- Skipping the value of an unknown field. -/
def skipUnknownAt (mem : Bytes) (i : ℕ) : Outcome ℕ := do
  let c ← load mem i
  if c = quote then do
    let i ← scanWhile (fun c => c != 0 && decide (c ≠ quote)) mem i
    let c ← load mem i
    if c ≠ 0 then .ret (i + 1) else .ret i
  else if c = lbrace then nestedAt lbrace rbrace mem 0 i
  else if c = lbracket then nestedAt lbracket rbracket mem 0 i
  else scanWhile (fun c => c != 0 && decide (c ≠ comma ∧ c ≠ rbrace)) mem i

section

/- The arrays of `vc_from_json`, with what the stack held before. -/
variable (keys : Vector (Vector UInt8 64) vcMaxNodes) (values : Vector UInt64 vcMaxNodes)

/-- `vc_from_json` on a copy of the bytes between two cursors.  When it returns `-1`, the clock
is as it was. -/
def clockAt (m : EntryMem) (text : Bytes) : Outcome EntryMem :=
  match vcFromJsonAt atoi m.clocks (text ++ [0]) (keys.toList.map Vector.toList) values.toList with
  | .ret (nodeCount, clocks) => .ret { m with nodeCount := nodeCount, clocks := clocks }
  | .null => .ret m
  | .fault => .fault

/-- The value of the field `key`. -/
def logEntryValueAt (mem : Bytes) (m : EntryMem) (key : Bytes) (i : ℕ) : Outcome (EntryMem × ℕ) :=
  if strcmp key (ascii "node_id") = 0 then do
    let r ← parseStrAt mem i m.nodeId
    return ({ m with nodeId := r.1 }, r.2)
  else if strcmp key (ascii "vector_clock") = 0 then do
    let j ← cutNestedAt lbrace rbrace mem i
    let m ← clockAt keys values m ((mem.drop i).take (j - i))
    return (m, j)
  else if strcmp key (ascii "timestamp") = 0 then do
    let r ← parseNumAt mem i
    return ({ m with timestamp := r.1 }, r.2)
  else if strcmp key (ascii "level") = 0 then do
    let r ← parseStrAt mem i m.value
    let value ← cstringAt r.1
    return ({ m with value := r.1, level := logLevelFromStr value }, r.2)
  else if strcmp key (ascii "message") = 0 then do
    let r ← parseStrAt mem i m.message
    return ({ m with message := r.1 }, r.2)
  else if strcmp key (ascii "metadata") = 0 then do
    let j ← cutNestedAt lbrace rbrace mem i
    return (m, j)
  else do
    let j ← skipUnknownAt mem i
    return (m, j)

/-- One turn of the loop. -/
def logEntryMemberAt (mem : Bytes) (m : EntryMem) (i : ℕ) : Outcome (EntryMem × ℕ) := do
  let r ← parseStrAt mem i m.key
  let i ← skipWhitespaceAt mem r.2
  let i ← expectAt colon mem i
  let i ← skipWhitespaceAt mem i
  let key ← cstringAt r.1
  let r ← logEntryValueAt keys values mem { m with key := r.1 } key i
  let i ← skipCommaAt mem r.2
  return (r.1, i)

/-! Every turn moves the cursor forward, whatever the text and the arrays hold. -/

theorem le_of_cutNestedAt {opening closing : UInt8} {mem : Bytes} {i j : ℕ}
    (h : cutNestedAt opening closing mem i = .ret j) : i ≤ j := by
  obtain ⟨c, -, h⟩ := Outcome.ret_of_bind h
  split at h
  · exact (lt_of_nestedAt h).le
  · exact (Outcome.ret.inj h).le

theorem le_of_skipUnknownAt {mem : Bytes} {i j : ℕ} (h : skipUnknownAt mem i = .ret j) :
    i ≤ j := by
  obtain ⟨c, -, h⟩ := Outcome.ret_of_bind h
  split at h
  · obtain ⟨k, hk, h⟩ := Outcome.ret_of_bind h
    obtain ⟨d, -, h⟩ := Outcome.ret_of_bind h
    have hle := le_of_scanWhile hk
    split at h
    · exact (hle.trans (Nat.le_succ k)).trans (Outcome.ret.inj h).le
    · exact hle.trans (Outcome.ret.inj h).le
  · split at h
    · exact (lt_of_nestedAt h).le
    · split at h
      · exact (lt_of_nestedAt h).le
      · exact le_of_scanWhile h

theorem le_of_logEntryValueAt {mem : Bytes} {m : EntryMem} {key : Bytes} {i : ℕ}
    {r : EntryMem × ℕ} (h : logEntryValueAt keys values mem m key i = .ret r) : i ≤ r.2 := by
  have hstr : ∀ {buf : Bytes} {f : Bytes × ℕ → Outcome (EntryMem × ℕ)},
      (parseStrAt mem i buf >>= f) = .ret r → (∀ p, f p = .ret r → r.2 = p.2) → i ≤ r.2 := by
    intro buf f h hf
    obtain ⟨p, hp, h⟩ := Outcome.ret_of_bind h
    rw [hf p h]
    exact (lt_of_parseQuotedAt hp).le
  unfold logEntryValueAt at h
  split at h
  · refine hstr h fun p hp => ?_
    rw [← Outcome.ret.inj hp]
  split at h
  · obtain ⟨j, hj, h⟩ := Outcome.ret_of_bind h
    obtain ⟨m', -, h⟩ := Outcome.ret_of_bind h
    rw [← Outcome.ret.inj h]
    exact le_of_cutNestedAt hj
  split at h
  · obtain ⟨p, hp, h⟩ := Outcome.ret_of_bind h
    obtain ⟨k, hk, hp⟩ := Outcome.ret_of_bind hp
    rw [← Outcome.ret.inj h]
    exact (le_of_skipWhitespaceAt hk).trans (le_of_digitsAt hp)
  split at h
  · refine hstr h fun p hp => ?_
    obtain ⟨value, -, hp⟩ := Outcome.ret_of_bind hp
    rw [← Outcome.ret.inj hp]
  split at h
  · refine hstr h fun p hp => ?_
    rw [← Outcome.ret.inj hp]
  split at h
  · obtain ⟨j, hj, h⟩ := Outcome.ret_of_bind h
    rw [← Outcome.ret.inj h]
    exact le_of_cutNestedAt hj
  · obtain ⟨j, hj, h⟩ := Outcome.ret_of_bind h
    rw [← Outcome.ret.inj h]
    exact le_of_skipUnknownAt hj

theorem lt_of_logEntryMemberAt {mem : Bytes} {m : EntryMem} {i : ℕ} {r : EntryMem × ℕ}
    (h : logEntryMemberAt keys values mem m i = .ret r) : i < r.2 := by
  obtain ⟨p, hp, h⟩ := Outcome.ret_of_bind h
  obtain ⟨j, hj, h⟩ := Outcome.ret_of_bind h
  obtain ⟨k, hk, h⟩ := Outcome.ret_of_bind h
  obtain ⟨l, hl, h⟩ := Outcome.ret_of_bind h
  obtain ⟨key, -, h⟩ := Outcome.ret_of_bind h
  obtain ⟨q, hq, h⟩ := Outcome.ret_of_bind h
  obtain ⟨n, hn, h⟩ := Outcome.ret_of_bind h
  rw [← Outcome.ret.inj h]
  have hkey := lt_of_parseQuotedAt hp
  have hcolon := eq_succ_of_expectAt hk
  calc i < p.2 := hkey
    _ ≤ j := le_of_skipWhitespaceAt hj
    _ ≤ k := by omega
    _ ≤ l := le_of_skipWhitespaceAt hl
    _ ≤ q.2 := le_of_logEntryValueAt keys values hq
    _ ≤ n := le_of_skipCommaAt hn

/-- The loop of `log_entry_from_json`. -/
def logEntryMembersAt (mem : Bytes) (m : EntryMem) (i : ℕ) : Outcome EntryMem :=
  match hc : load mem i with
  | .null => .null
  | .fault => .fault
  | .ret c =>
      if c ≠ 0 ∧ c ≠ rbrace then
        match h : logEntryMemberAt keys values mem m i with
        | .null => .null
        | .fault => .fault
        | .ret r =>
            have _ : mem.length - r.2 < mem.length - i := by
              have hlt := lt_of_load hc
              have hmove := lt_of_logEntryMemberAt keys values h
              omega
            logEntryMembersAt mem r.1 r.2
      else .ret m
  termination_by mem.length - i
  decreasing_by assumption

/-- `log_entry_from_json`, into the memory after the `memset`. -/
def logEntryFromJsonAt (mem : Bytes) (m : EntryMem) : Outcome EntryMem := do
  let i ← skipWhitespaceAt mem 0
  let i ← expectAt lbrace mem i
  let i ← skipWhitespaceAt mem i
  logEntryMembersAt keys values mem m i

end

/-! ## The run in memory and the run on the list -/

/-- What the memory holds when the entry is read so far. -/
structure HoldsEntry (entry : LogEntry) (m : EntryMem) : Prop where
  nodeId : HoldsString (nodeIdMaxLen + 1) entry.nodeId.bytes m.nodeId
  nodeCount : m.nodeCount = entry.vc.nodeCount
  clocks : m.clocks = entry.vc.clocks.toList
  timestamp : m.timestamp = entry.timestamp
  level : m.level = entry.level
  message : HoldsString (logMessageMaxLen + 1) entry.message.bytes m.message
  length_key : m.key.length = 64
  length_value : m.value.length = logMessageMaxLen * 2

/-- An array has room for the terminator of its string. -/
theorem HoldsString.length_lt {size : ℕ} {s arr : Bytes} (h : HoldsString size s arr) :
    s.length < size := by
  obtain ⟨rfl, hzero, rfl⟩ := h
  refine lt_of_le_of_ne (List.takeWhile_prefix _).length_le fun hlen => ?_
  have heq := (List.takeWhile_prefix (fun c : UInt8 => decide (c ≠ 0))).eq_of_length hlen
  rw [← heq] at hzero
  exact absurd (List.mem_takeWhile_imp hzero) (by decide)

/-- A string that was read into a field is the field. -/
theorem HoldsString.ofBytes {cap : ℕ} {s arr : Bytes} (h : HoldsString (cap + 1) s arr) :
    HoldsString (cap + 1) (CStr.ofBytes s : CStr cap).bytes arr := by
  have hzero : (0 : UInt8) ∉ s := by
    rw [← h.cstring_eq]
    intro hmem
    exact absurd (List.mem_takeWhile_imp hmem) (by decide)
  rwa [CStr.bytes_ofBytes (Nat.le_of_lt_succ h.length_lt) hzero]

variable {mem s : Bytes} {i : ℕ}

/-- **A string is read as on the list**, and its array holds it. -/
theorem follows_parseStrAt (h : At mem i s) {size : ℕ} (hsize : 0 < size) {buf : Bytes}
    (hbuf : buf.length = size) :
    Follows (WithCursor mem (HoldsString size)) (parseStr s size) (parseStrAt mem i buf) := by
  refine follows_parseQuotedAt_holds (by rfl) (fun d hd => ?_) h hsize hbuf
  unfold strUnescape
  split_ifs
  · decide
  · decide
  · decide
  · exact fun heq => hd (Option.some.inj heq)

theorem parseNumAt_ret (h : At mem i s) :
    ∃ j, parseNumAt mem i = .ret ((parseNum s).1, j) ∧ At mem j (parseNum s).2 := by
  obtain ⟨j, hj, hat⟩ := skipWhitespaceAt_ret h
  rw [parseNumAt, hj]
  exact digitsAt_ret 0 hat

theorem cutNestedAt_ret {opening closing : UInt8} (hopening : opening ≠ 0) (h : At mem i s) :
    ∃ j, cutNestedAt opening closing mem i = .ret j ∧
      At mem j (cutNested opening closing s).2 ∧
      (mem.drop i).take (j - i) = (cutNested opening closing s).1 := by
  unfold cutNestedAt cutNested
  cases s with
  | nil =>
    rw [h.load_nil, Outcome.ret_bind, if_neg (Ne.symm hopening), if_neg (by simp)]
    exact ⟨i, rfl, h, by simp⟩
  | cons c s =>
    rw [h.load_cons, Outcome.ret_bind, List.head?_cons]
    by_cases hc : c = opening
    · subst hc
      obtain ⟨j, hj, hat⟩ := nestedAt_ret c closing 0 h
      rw [if_pos rfl, if_pos rfl]
      refine ⟨j, hj, hat, ?_⟩
      rw [← scanNested_append_snd c closing 0 (c :: s)] at h
      exact h.take_drop hat
    · rw [if_neg hc, if_neg fun hsome => hc (Option.some.inj hsome)]
      exact ⟨i, rfl, h, by simp⟩

theorem skipUnknownAt_ret (h : At mem i s) :
    ∃ j, skipUnknownAt mem i = .ret j ∧ At mem j (skipUnknown s) := by
  unfold skipUnknownAt skipUnknown
  cases s with
  | nil =>
    rw [h.load_nil, Outcome.ret_bind, if_neg (by decide), if_neg (by decide), if_neg (by decide),
      if_neg (by simp), if_neg (by simp), if_neg (by simp)]
    exact h.scanWhile
  | cons c s =>
    rw [h.load_cons, Outcome.ret_bind, List.head?_cons]
    simp only [Option.some_inj]
    split
    · rename_i hq
      subst hq
      -- the loop stands at the opening quote already
      obtain ⟨j, hj, hat⟩ := h.scanWhile (p := fun c => decide (c ≠ quote))
      rw [hj, Outcome.ret_bind, List.dropWhile_cons_of_neg (by simp)] at *
      rw [hat.load_cons, Outcome.ret_bind, if_pos (by decide)]
      exact ⟨j + 1, rfl, hat.succ⟩
    · split
      · exact nestedAt_ret lbrace rbrace 0 h
      · split
        · exact nestedAt_ret lbracket rbracket 0 h
        · exact h.scanWhile

section

variable (keys : Vector (Vector UInt8 64) vcMaxNodes) (values : Vector UInt64 vcMaxNodes)
  {entry : LogEntry} {m : EntryMem}

/-- The nested clock is read from its copy, whatever becomes of it. -/
theorem clockAt_ret (h : HoldsEntry entry m) {text : Bytes} (htext : (0 : UInt8) ∉ text) :
    ∃ m', clockAt keys values m text = .ret m' ∧
      HoldsEntry { entry with vc := (vcFromJson entry.vc text none).2 } m' := by
  have heq := vcFromJsonAt_eq (⟨text, le_rfl, htext⟩ : CStr text.length) entry.vc keys values
  rw [← h.clocks] at heq
  unfold clockAt
  rw [heq]
  cases hobject : vcObject text with
  | error e =>
    rw [vcFromJson_of_error hobject]
    exact ⟨m, rfl, h⟩
  | ok members =>
    rw [vcFromJson_of_ok hobject, if_pos rfl]
    exact ⟨_, rfl, { h with nodeCount := rfl, clocks := rfl }⟩

/-- **A value is read as on the list.** -/
theorem follows_logEntryValueAt (h : At mem i s) (hm : HoldsEntry entry m) (key : Bytes) :
    Follows (WithCursor mem HoldsEntry) (logEntryValue entry key s)
      (logEntryValueAt keys values mem m key i) := by
  have hcut : ∃ j, cutNestedAt lbrace rbrace mem i = .ret j ∧
      At mem j (cutNested lbrace rbrace s).2 ∧
      (mem.drop i).take (j - i) = (cutNested lbrace rbrace s).1 := cutNestedAt_ret (by decide) h
  unfold logEntryValue logEntryValueAt
  simp only [strcmp_eq_zero_iff]
  split
  · refine (follows_parseStrAt h (by decide) hm.nodeId.length_eq).bind fun p q hpq => ?_
    exact ⟨{ hm with nodeId := hpq.1.ofBytes }, hpq.2⟩
  split
  · obtain ⟨j, hj, hat, htake⟩ := hcut
    have hzero : (0 : UInt8) ∉ (cutNested lbrace rbrace s).1 := by
      intro hmem
      refine h.zero_notMem ?_
      rw [← cutNested_append_snd lbrace rbrace s]
      exact List.mem_append_left _ hmem
    obtain ⟨m', hm', hholds⟩ := clockAt_ret keys values hm hzero
    rw [hj, Outcome.ret_bind, htake, hm']
    exact ⟨hholds, hat⟩
  split
  · obtain ⟨j, hj, hat⟩ := parseNumAt_ret h
    rw [hj]
    exact ⟨{ hm with timestamp := rfl }, hat⟩
  split
  · refine (follows_parseStrAt h (by decide) hm.length_value).bind fun p q hpq => ?_
    rw [hpq.1.cstringAt]
    exact ⟨{ hm with level := rfl, length_value := hpq.1.length_eq }, hpq.2⟩
  split
  · refine (follows_parseStrAt h (by decide) hm.message.length_eq).bind fun p q hpq => ?_
    exact ⟨{ hm with message := hpq.1.ofBytes }, hpq.2⟩
  split
  · obtain ⟨j, hj, hat, -⟩ := hcut
    rw [hj]
    exact ⟨hm, hat⟩
  · obtain ⟨j, hj, hat⟩ := skipUnknownAt_ret h
    rw [hj]
    exact ⟨hm, hat⟩

/-- **A turn in memory follows the turn on the list.** -/
theorem follows_logEntryMemberAt (h : At mem i s) (hm : HoldsEntry entry m) :
    Follows (WithCursor mem HoldsEntry) (logEntryMember entry s)
      (logEntryMemberAt keys values mem m i) := by
  unfold logEntryMember logEntryMemberAt
  refine (follows_parseStrAt h (by decide) hm.length_key).bind fun p q hpq => ?_
  obtain ⟨j, hj, hat⟩ := skipWhitespaceAt_ret hpq.2
  rw [hj, Outcome.ret_bind]
  refine (follows_expectAt (by decide) hat).bind fun t k htk => ?_
  obtain ⟨l, hl, hat'⟩ := skipWhitespaceAt_ret htk
  rw [hl, Outcome.ret_bind, hpq.1.cstringAt, Outcome.ret_bind]
  have hkey : HoldsEntry entry { m with key := q.1 } :=
    { hm with length_key := hpq.1.length_eq }
  refine (follows_logEntryValueAt keys values hat' hkey p.1).bind fun u v huv => ?_
  obtain ⟨n, hn, hat''⟩ := skipCommaAt_ret huv.2
  rw [hn]
  exact ⟨huv.1, hat''⟩

theorem logEntryMembersAt_of_stop {c : UInt8} (h : load mem i = .ret c) (hc : c = 0 ∨ c = rbrace)
    (m : EntryMem) : logEntryMembersAt keys values mem m i = .ret m := by
  rw [logEntryMembersAt]
  split
  · rename_i hnull
    rw [h] at hnull
    cases hnull
  · rename_i hfault
    rw [h] at hfault
    cases hfault
  · rename_i c' hc'
    rw [h] at hc'
    cases hc'
    exact if_neg (by tauto)

theorem logEntryMembersAt_eq_bind {c : UInt8} (h : load mem i = .ret c) (hc : c ≠ 0 ∧ c ≠ rbrace)
    (m : EntryMem) :
    logEntryMembersAt keys values mem m i =
      logEntryMemberAt keys values mem m i >>= fun r =>
        logEntryMembersAt keys values mem r.1 r.2 := by
  rw [logEntryMembersAt]
  split
  · rename_i hnull
    rw [h] at hnull
    cases hnull
  · rename_i hfault
    rw [h] at hfault
    cases hfault
  · rename_i c' hc'
    rw [h] at hc'
    cases hc'
    rw [if_pos hc]
    split
    · rename_i hnull
      rw [hnull]
      rfl
    · rename_i hfault
      rw [hfault]
      rfl
    · rename_i r hr
      show logEntryMembersAt keys values mem r.1 r.2 = _
      rw [hr]
      rfl

/-- **The loop in memory follows the loop on the list.** -/
theorem follows_logEntryMembersAt (h : At mem i s) (hm : HoldsEntry entry m) :
    Follows HoldsEntry (logEntryMembers entry s) (logEntryMembersAt keys values mem m i) := by
  induction hn : s.length using Nat.strong_induction_on generalizing s i entry m with
  | _ n ih =>
    subst hn
    cases s with
    | nil =>
      rw [logEntryMembers_of_atEnd (Or.inl rfl),
        logEntryMembersAt_of_stop keys values h.load_nil (Or.inl rfl)]
      exact hm
    | cons c s =>
      by_cases hc : c = rbrace
      · subst hc
        rw [logEntryMembers_of_atEnd (Or.inr rfl),
          logEntryMembersAt_of_stop keys values h.load_cons (Or.inr rfl)]
        exact hm
      · have hend : ¬ AtEnd (c :: s) := by
          rintro (hnil | hhead)
          · cases hnil
          · exact hc (Option.some.inj hhead)
        rw [logEntryMembers_eq_bind hend,
          logEntryMembersAt_eq_bind keys values h.load_cons ⟨h.ne_zero, hc⟩]
        have hturn := (follows_logEntryMemberAt keys values h hm).imp
          (S := fun p q => p.2.length < (c :: s).length ∧ WithCursor mem HoldsEntry p q)
          fun p q hp hpq => ⟨length_logEntryMember hp, hpq⟩
        refine hturn.bind fun p q hpq => ?_
        exact ih _ hpq.1 hpq.2.2 hpq.2.1 rfl

/-- **The whole reader follows the list model.** -/
theorem follows_logEntryFromJsonAt (h : At mem 0 s) (hm : HoldsEntry LogEntry.zero m) :
    Follows HoldsEntry (logEntryFromJson s) (logEntryFromJsonAt keys values mem m) := by
  obtain ⟨i, hi, hat⟩ := skipWhitespaceAt_ret h
  unfold logEntryFromJson logEntryFromJsonAt
  rw [hi, Outcome.ret_bind]
  refine (follows_expectAt (by decide) hat).bind fun t j hj => ?_
  obtain ⟨k, hk, hat'⟩ := skipWhitespaceAt_ret hj
  rw [hk, Outcome.ret_bind]
  exact follows_logEntryMembersAt keys values hat' hm

end

/-! ## Where the text is left -/

/-- The text of an entry that ends in an escape of a string that is being read. -/
def EntryEndsInEscape (json : Bytes) : Prop :=
  ∃ w s, Spaces w ∧ json = w ++ lbrace :: s ∧ EndsInEscape (skipWhitespace s)

theorem logEntryFromJson_eq_pastEnd_iff {json : Bytes} :
    logEntryFromJson json = .error .pastEnd ↔ EntryEndsInEscape json := by
  rw [logEntryFromJson, bind_eq_error_iff]
  constructor
  · rintro (h | ⟨s, hs, h⟩)
    · exact absurd h (expect_ne_pastEnd _ _)
    · obtain ⟨w, hw, rfl⟩ := (expect_skipWhitespace_eq_ok_iff (by rfl)).mp hs
      exact ⟨w, s, hw, rfl, logEntryMembers_eq_pastEnd_iff.mp h⟩
  · rintro ⟨w, s, hw, rfl, h⟩
    exact Or.inr ⟨s, (expect_skipWhitespace_eq_ok_iff (by rfl)).mpr ⟨w, hw, rfl⟩,
      logEntryMembers_eq_pastEnd_iff.mpr h⟩

/-- The memory behind the `memset`, with what the stack held. -/
def EntryMem.zero (key : Vector UInt8 64) (value : Vector UInt8 (logMessageMaxLen * 2)) :
    EntryMem where
  nodeId := List.replicate (nodeIdMaxLen + 1) 0
  nodeCount := 0
  clocks := List.replicate vcMaxNodes 0
  timestamp := 0
  level := .debug
  message := List.replicate (logMessageMaxLen + 1) 0
  key := key.toList
  value := value.toList

theorem holdsEntry_zero (key : Vector UInt8 64) (value : Vector UInt8 (logMessageMaxLen * 2)) :
    HoldsEntry LogEntry.zero (EntryMem.zero key value) := by
  have hzeros : ∀ n, HoldsString (n + 1) [] (List.replicate (n + 1) 0) := by
    intro n
    exact ⟨List.length_replicate, by simp, by simp [cstring]⟩
  exact {
    nodeId := hzeros nodeIdMaxLen
    nodeCount := rfl
    clocks := rfl
    timestamp := rfl
    level := rfl
    message := hzeros logMessageMaxLen
    length_key := key.length_toList
    length_value := value.length_toList }

section

variable {cap : ℕ} (text : CStr cap) (keys : Vector (Vector UInt8 64) vcMaxNodes)
  (values : Vector UInt64 vcMaxNodes) (key : Vector UInt8 64)
  (value : Vector UInt8 (logMessageMaxLen * 2))

/-- **The reader stays inside of the text and of its arrays** exactly when the text does not end
in an escape of a string that is being read.  It ends in any case. -/
theorem logEntryFromJsonAt_safe_iff :
    logEntryFromJsonAt keys values (text.bytes ++ [0]) (EntryMem.zero key value) ≠ .fault ↔
      ¬ EntryEndsInEscape text.bytes := by
  have hfollows := follows_logEntryFromJsonAt keys values (at_text text) (holdsEntry_zero key value)
  rw [Ne, hfollows.eq_fault_iff, logEntryFromJson_eq_pastEnd_iff]

end

/-- Three bytes: a brace, a quote and a backslash. -/
theorem logEntryFromJsonAt_backslash :
    logEntryFromJsonAt (Vector.replicate _ (Vector.replicate _ 0)) (Vector.replicate _ 0)
      ([lbrace, quote, backslash] ++ [0])
      (EntryMem.zero (Vector.replicate _ 0) (Vector.replicate _ 0)) = .fault := by
  have hstart : At ([lbrace, quote, backslash] ++ [0]) 0 [lbrace, quote, backslash] :=
    At.start (by decide)
  have hrun : logEntryFromJson [lbrace, quote, backslash] = .error .pastEnd := by decide +kernel
  exact (follows_logEntryFromJsonAt _ _ hstart (holdsEntry_zero _ _)).eq_fault_iff.mpr hrun

/-! ## Texts that end in something else -/

/-- A suffix with a last byte has the last byte of the text. -/
theorem getLast?_of_suffix {t : Bytes} {c : UInt8} (h : t <:+ s) (ht : t.getLast? = some c) :
    s.getLast? = some c := by
  obtain ⟨u, rfl⟩ := h
  rw [List.getLast?_append, ht]
  rfl

theorem StopsInEscape.getLast? {size : ℕ} (h : StopsInEscape size s) :
    s.getLast? = some backslash := by
  obtain ⟨w, t, value, -, -, -, rfl⟩ := h
  have hsuffix : [backslash] <:+ w ++ quote :: (t ++ [backslash]) := ⟨w ++ quote :: t, by simp⟩
  exact getLast?_of_suffix hsuffix rfl

theorem EndsInEscape.getLast? (h : EndsInEscape s) : s.getLast? = some backslash := by
  induction h with
  | key h => exact h.getLast?
  | value hkey _ h => exact getLast?_of_suffix hkey.suffix h.getLast?
  | next hmember _ ih => exact getLast?_of_suffix hmember.suffix ih

/-- **A text whose last byte is no backslash is read safely.** -/
theorem not_entryEndsInEscape {json : Bytes} (h : json.getLast? ≠ some backslash) :
    ¬ EntryEndsInEscape json := by
  rintro ⟨w, s, -, rfl, hends⟩
  have hlast := getLast?_of_suffix (skipWhitespace_suffix s) hends.getLast?
  exact h (getLast?_of_suffix ⟨w ++ [lbrace], by simp⟩ hlast)

end LogAgg
