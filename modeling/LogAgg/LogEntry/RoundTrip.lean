import LogAgg.LogEntry.Json

/-!
# The wire format read back

What `log_entry_to_json` writes, `log_entry_from_json` reads: the two escape tables are
inverse on the bytes that are written at all (`escaped_escapeByte`), the brace scan cuts
out exactly the nested clock (`cutNested_vcText`), and each field of `entryText` is one
turn of the reader's loop (`logEntryMembers_field`).

All bytes written are printable (`isprint_of_mem_entryText`): the text has no NUL and no
line break of its own.
-/

namespace LogAgg

open Ascii

/-- The bytes that survive the wire: printable ones, line breaks and tabs. -/
def keptByte (c : UInt8) : Bool := isprint c || c == newline || c == tab

/-- **The two escape tables are inverse** on the bytes that are kept. -/
theorem escaped_escapeByte (c : UInt8) : Escaped strUnescape c (escapeByte c) (keptByte c) := by
  by_cases hq : c = quote
  · subst hq
    exact .escape quote rfl
  by_cases hb : c = backslash
  · subst hb
    exact .escape backslash rfl
  by_cases hn : c = newline
  · subst hn
    exact .escape 110 rfl
  by_cases ht : c = tab
  · subst ht
    exact .escape 116 rfl
  have hletter : escapeLetter c = none := by
    rw [escapeLetter, if_neg hq, if_neg hb, if_neg hn, if_neg ht]
  have hkept : keptByte c = isprint c := by
    rw [keptByte, beq_false_of_ne hn, beq_false_of_ne ht, Bool.or_false, Bool.or_false]
  rw [hkept, escapeByte, hletter]
  cases hp : isprint c with
  | false => exact .dropped
  | true => exact .plain hq hb

/-- Escaping looks only at the bytes that are kept. -/
theorem flatMap_escapeByte_filter (s : Bytes) :
    (s.filter keptByte).flatMap escapeByte = s.flatMap escapeByte := by
  induction s with
  | nil => rfl
  | cons c s ih =>
    cases hk : keptByte c with
    | false =>
      have hdropped := escaped_escapeByte c
      rw [hk] at hdropped
      generalize hp : escapeByte c = p at hdropped
      cases hdropped
      rw [List.filter_cons_of_neg (by simp [hk]), List.flatMap_cons, hp, ih, List.nil_append]
    | true => rw [List.filter_cons_of_pos hk, List.flatMap_cons, List.flatMap_cons, ih]

/-! ## One field -/

/-- A quoted string comes back without the bytes that are not kept. -/
theorem parseStr_quoted {s : Bytes} {room : ℕ} (hroom : s.length ≤ room) (rest : Bytes) :
    parseStr (quoted s ++ rest) (room + 1) = .ok (s.filter keptByte, rest) := by
  have hscan := scanQuoted_flatMap .pastEnd (fun c _ => escaped_escapeByte c)
    ((List.length_filter_le keptByte s).trans hroom) rest
  rw [parseStr, quoted, List.cons_append, List.append_assoc, List.singleton_append,
    skipWhitespace_cons (by rfl), expect_self]
  exact hscan

/-- A name that is printed and read as it stands. -/
def isPlainName (name : String) : Bool :=
  decide ((ascii name).length ≤ 63) && (ascii name).all isPlain

theorem parseStr_fieldName {name : String} (h : isPlainName name = true) (rest : Bytes) :
    parseStr (fieldName name ++ rest) 64 = .ok (ascii name, colon :: rest) := by
  rw [isPlainName, Bool.and_eq_true, decide_eq_true_eq, List.all_eq_true] at h
  have hscan := scanQuoted_plain strUnescape .pastEnd h.1 (fun c hc => isPlain_iff.mp (h.2 c hc))
    (colon :: rest)
  rw [parseStr, fieldName, List.cons_append, List.append_assoc, skipWhitespace_cons (by rfl),
    expect_self]
  exact hscan

/-- **A written field is one turn of the reader's loop.** -/
theorem logEntryMembers_field {entry entry' : LogEntry} {name : String} (hname : isPlainName name = true)
    {v rest : Bytes} (hv : skipWhitespace v = v)
    (h : logEntryValue entry (ascii name) v = .ok (entry', rest)) :
    logEntryMembers entry (fieldName name ++ v) = logEntryMembers entry' (skipComma rest) := by
  have hmember : logEntryMember entry (fieldName name ++ v) = .ok (entry', skipComma rest) := by
    unfold logEntryMember
    simp only [parseStr_fieldName hname, bind, Except.bind,
      skipWhitespace_cons (show isspace colon = false from rfl), expect_self, hv, h]
    rfl
  rw [fieldName, List.cons_append] at hmember ⊢
  exact logEntryMembers_of_member (by decide) hmember

theorem skipComma_fieldName (name : String) (rest : Bytes) :
    skipComma (comma :: (fieldName name ++ rest)) = fieldName name ++ rest :=
  skipComma_comma (by rfl) _

/-! ## The nested clock -/

/-- The brace scan cuts out exactly the clock. -/
theorem cutNested_vcText (vc : VectorClock) (rest : Bytes) :
    cutNested lbrace rbrace (vcText vc none ++ rest) = (vcText vc none, rest) := by
  rw [vcText, List.cons_append, List.append_assoc, List.singleton_append, cutNested]
  exact (if_pos rfl).trans (scanNested_flat (by decide) (fun c hc => ne_brace_of_mem_items hc) rest)

/-- The text of a clock shows only the components in use. -/
theorem vcText_congr {vc vc' : VectorClock} (hcount : vc'.nodeCount = vc.nodeCount)
    (hslot : ∀ i, i < vc.nodeCount → vc'.slot i = vc.slot i) : vcText vc' none = vcText vc none := by
  have hitem : ∀ i ∈ List.range vc.nodeCount, vcItem vc' none i = vcItem vc none i := by
    intro i hi
    rw [vcItem, vcItem, vcMember, vcMember, hslot i (List.mem_range.mp hi)]
  rw [vcText, vcText, hcount]
  congr 2
  exact List.flatMap_congr hitem

/-! ## What is written is printable -/

theorem isprint_escapeLetter {c d : UInt8} (h : escapeLetter c = some d) : isprint d = true := by
  unfold escapeLetter at h
  split_ifs at h <;> (obtain rfl := Option.some.inj h; decide)

theorem all_isprint_escapeByte (c : UInt8) : (escapeByte c).all isprint = true := by
  unfold escapeByte
  cases h : escapeLetter c with
  | some d =>
    show (isprint backslash && (isprint d && true)) = true
    rw [isprint_escapeLetter h]
    decide
  | none =>
    by_cases hp : isprint c = true
    · simp [hp]
    · simp [hp]

@[simp] theorem all_isprint_quoted (s : Bytes) : (quoted s).all isprint = true := by
  have hflat : (s.flatMap escapeByte).all isprint = true := by
    rw [List.all_flatMap, List.all_eq_true]
    exact fun c _ => all_isprint_escapeByte c
  rw [quoted, List.all_cons, List.all_append, hflat]
  decide

theorem isprint_of_isdigit {c : UInt8} (hc : isdigit c = true) : isprint c = true := by
  rw [isdigit, Bool.and_eq_true, decide_eq_true_eq, decide_eq_true_eq] at hc
  rw [isprint, Bool.and_eq_true, decide_eq_true_eq, decide_eq_true_eq]
  exact ⟨UInt8.le_trans (by decide) hc.1, UInt8.le_trans hc.2 (by decide)⟩

@[simp] theorem all_isprint_decimal (n : ℕ) : (decimal n).all isprint = true :=
  List.all_eq_true.mpr fun _ hc => isprint_of_isdigit (mem_decimal hc)

@[simp] theorem all_isprint_vcText (vc : VectorClock) : (vcText vc none).all isprint = true := by
  have hitem : ∀ i, (vcItem vc none i).all isprint = true := by
    intro i
    rw [List.all_eq_true]
    intro c hc
    have hnode : (ascii "node-").all isprint = true := rfl
    rcases mem_vcItem hc with rfl | rfl | rfl | hc | hc
    · rfl
    · rfl
    · rfl
    · exact List.all_eq_true.mp hnode c hc
    · exact isprint_of_isdigit hc
  rw [vcText, List.all_cons, List.all_append, List.all_flatMap,
    List.all_eq_true.mpr fun i _ => hitem i]
  decide

@[simp] theorem all_isprint_logLevelStr (level : LogLevel) :
    (logLevelStr level).all isprint = true := by
  cases level with
  | other value => exact (show (ascii "UNKNOWN").all isprint = true from rfl)
  | _ => rfl

@[simp] theorem all_isprint_metadataText (metadata : List MetadataPair) :
    (metadataText metadata).all isprint = true := by
  have hitem : ∀ m, (metadataItem m).all isprint = true := by
    intro m
    rw [metadataItem, List.all_append, List.all_append, List.all_cons, all_isprint_quoted,
      all_isprint_quoted]
    split <;> decide
  have hname : (fieldName "metadata").all isprint = true := rfl
  unfold metadataText
  split
  · rw [List.all_cons, List.all_append, hname, List.all_cons, List.all_append, List.all_flatMap,
      List.all_eq_true.mpr fun m _ => hitem m]
    decide
  · rfl

/-- **A written entry is printable text**: it contains no NUL and no line break. -/
theorem all_isprint_entryText (entry : LogEntry) : (entryText entry).all isprint = true := by
  have hnode : (fieldName "node_id").all isprint = true := rfl
  have hvc : (fieldName "vector_clock").all isprint = true := rfl
  have htime : (fieldName "timestamp").all isprint = true := rfl
  have hlevel : (fieldName "level").all isprint = true := rfl
  have hmessage : (fieldName "message").all isprint = true := rfl
  unfold entryText
  simp only [List.all_cons, List.all_append, hnode, hvc, htime, hlevel, hmessage,
    all_isprint_quoted, all_isprint_vcText, all_isprint_decimal, all_isprint_logLevelStr,
    all_isprint_metadataText]
  decide

theorem isprint_of_mem_entryText {entry : LogEntry} {c : UInt8} (hc : c ∈ entryText entry) :
    isprint c = true :=
  List.all_eq_true.mp (all_isprint_entryText entry) c hc

/-- The text in the buffer is the C string the reader sees. -/
theorem cstring_entryText (entry : LogEntry) : cstring (entryText entry) = entryText entry := by
  refine cstring_eq_self fun h => ?_
  exact absurd (isprint_of_mem_entryText h) (by decide)

/-! ## The round trip -/

/-- What the reader makes of a written entry. -/
def received (entry : LogEntry) : LogEntry :=
  { LogEntry.zero with
    nodeId := CStr.ofBytes (entry.nodeId.bytes.filter keptByte)
    vc := (vcFromJson VectorClock.zero (vcText entry.vc none) none).2
    timestamp := entry.timestamp
    level := logLevelFromStr (logLevelStr entry.level)
    message := CStr.ofBytes (entry.message.bytes.filter keptByte) }

theorem bytes_ofBytes_filter {cap : ℕ} (s : CStr cap) :
    (CStr.ofBytes (s.bytes.filter keptByte) : CStr cap).bytes = s.bytes.filter keptByte :=
  CStr.bytes_ofBytes ((List.length_filter_le _ _).trans s.length_le)
    fun h => s.nul_notMem (List.mem_of_mem_filter h)

/-! The value of each field. -/

theorem logEntryValue_nodeId (entry : LogEntry) (nodeId : CStr nodeIdMaxLen) (rest : Bytes) :
    logEntryValue entry (ascii "node_id") (quoted nodeId.bytes ++ rest) =
      .ok ({ entry with nodeId := CStr.ofBytes (nodeId.bytes.filter keptByte) }, rest) := by
  rw [logEntryValue, if_pos rfl, parseStr_quoted nodeId.length_le]
  rfl

theorem logEntryValue_vectorClock (entry : LogEntry) (vc : VectorClock) (rest : Bytes) :
    logEntryValue entry (ascii "vector_clock") (vcText vc none ++ rest) =
      .ok ({ entry with vc := (vcFromJson entry.vc (vcText vc none) none).2 }, rest) := by
  rw [logEntryValue, if_neg (by decide), if_pos rfl, cutNested_vcText]

theorem logEntryValue_timestamp (entry : LogEntry) (timestamp : UInt64) {rest : Bytes}
    (hrest : ∀ c, rest.head? = some c → isdigit c = false) :
    logEntryValue entry (ascii "timestamp") (decimal timestamp.toNat ++ rest) =
      .ok ({ entry with timestamp := timestamp }, rest) := by
  rw [logEntryValue, if_neg (by decide), if_neg (by decide), if_pos rfl, parseNum,
    skipWhitespace_decimal, scanDigits_decimal timestamp hrest]

theorem logEntryValue_level (entry : LogEntry) (level : LogLevel) (rest : Bytes) :
    logEntryValue entry (ascii "level") (quote :: (logLevelStr level ++ quote :: rest)) =
      .ok ({ entry with level := logLevelFromStr (logLevelStr level) }, rest) := by
  have hlen : (logLevelStr level).length ≤ logMessageMaxLen * 2 - 1 := by
    cases level with
    | other value => exact (show (ascii "UNKNOWN").length ≤ logMessageMaxLen * 2 - 1 by decide)
    | _ => decide
  have hplain : (logLevelStr level).all isPlain = true := by
    cases level with
    | other value => exact (show (ascii "UNKNOWN").all isPlain = true from rfl)
    | _ => rfl
  have hparse : parseStr (quote :: (logLevelStr level ++ quote :: rest)) (logMessageMaxLen * 2) =
      .ok (logLevelStr level, rest) := by
    rw [parseStr, skipWhitespace_cons (by rfl), expect_self]
    exact scanQuoted_plain strUnescape .pastEnd hlen
      (fun c hc => isPlain_iff.mp (List.all_eq_true.mp hplain c hc)) rest
  rw [logEntryValue, if_neg (by decide), if_neg (by decide),
    if_neg (by decide), if_pos rfl, hparse]
  rfl

theorem logEntryValue_message (entry : LogEntry) (message : CStr logMessageMaxLen) (rest : Bytes) :
    logEntryValue entry (ascii "message") (quoted message.bytes ++ rest) =
      .ok ({ entry with message := CStr.ofBytes (message.bytes.filter keptByte) }, rest) := by
  rw [logEntryValue, if_neg (by decide), if_neg (by decide),
    if_neg (by decide), if_neg (by decide), if_pos rfl,
    parseStr_quoted message.length_le]
  rfl

/-- Reading the text of an entry field by field. -/
theorem logEntryFromJson_entryText {entry : LogEntry} (hmeta : entry.metadata = []) :
    logEntryFromJson (entryText entry) = .ok (received entry) := by
  have hquoted : ∀ s rest : Bytes, skipWhitespace (quoted s ++ rest) = quoted s ++ rest :=
    fun s rest => skipWhitespace_cons (by rfl) _
  have hclock : ∀ vc rest, skipWhitespace (vcText vc none ++ rest) = vcText vc none ++ rest :=
    fun vc rest => skipWhitespace_cons (by rfl) _
  have hcomma : ∀ rest c, (comma :: rest : Bytes).head? = some c → isdigit c = false := by
    intro rest c hc
    obtain rfl := Option.some.inj hc
    decide
  have hopen : logEntryFromJson (entryText entry) =
      logEntryMembers LogEntry.zero (entryText entry).tail := by
    rw [logEntryFromJson, entryText, skipWhitespace_cons (by rfl), expect_self]
    show logEntryMembers LogEntry.zero (skipWhitespace _) = _
    rw [fieldName, List.cons_append, skipWhitespace_cons (by rfl)]
    rfl
  rw [hopen, entryText, List.tail_cons, hmeta,
    logEntryMembers_field rfl (hquoted _ _) (logEntryValue_nodeId _ _ _),
    skipComma_fieldName,
    logEntryMembers_field rfl (hclock _ _) (logEntryValue_vectorClock _ _ _),
    skipComma_fieldName,
    logEntryMembers_field rfl (skipWhitespace_decimal _ _)
      (logEntryValue_timestamp _ _ (hcomma _)),
    skipComma_fieldName,
    logEntryMembers_field rfl (skipWhitespace_cons (by rfl) _)
      (logEntryValue_level _ _ _),
    skipComma_fieldName,
    logEntryMembers_field rfl (hquoted _ _) (logEntryValue_message _ _ _)]
  have hend : skipComma (metadataText [] ++ [rbrace]) = [rbrace] := by decide
  rw [hend, logEntryMembers, if_pos rfl]
  rfl

/-- What was read is written as it was sent. -/
theorem entryText_received {entry : LogEntry} (hlevel : entry.level.Named)
    (hmeta : entry.metadata = []) : entryText (received entry) = entryText entry := by
  obtain ⟨-, hcount, hslot⟩ := vcFromJson_vcText VectorClock.zero entry.vc
  have hreceived : (received entry).level = entry.level := logLevelFromStr_logLevelStr hlevel
  have hvc : vcText (received entry).vc none = vcText entry.vc none := vcText_congr hcount hslot
  have hnode : quoted (received entry).nodeId.bytes = quoted entry.nodeId.bytes := by
    rw [quoted, received, bytes_ofBytes_filter, flatMap_escapeByte_filter, quoted]
  have hmessage : quoted (received entry).message.bytes = quoted entry.message.bytes := by
    rw [quoted, received, bytes_ofBytes_filter, flatMap_escapeByte_filter, quoted]
  rw [entryText, entryText, hvc, hnode, hmessage, hmeta, hreceived]
  rfl

/-- **Wire round trip.**  If an entry without metadata is written at all, then reading
the buffer succeeds; clock, time and level come back as they were, the two strings
without the bytes the wire does not carry, and writing what was read gives the same text
again, into a buffer of any size. -/
theorem logEntryFromJson_logEntryToJson (entry : LogEntry) (buflen : ℕ) (text : Bytes)
    (hlevel : entry.level.Named) (hmeta : entry.metadata = [])
    (h : logEntryToJson entry buflen = some text) :
    ∃ parsed, logEntryFromJson (cstring text) = .ok parsed ∧
      parsed.vc.nodeCount = entry.vc.nodeCount ∧
      (∀ i, i < entry.vc.nodeCount → parsed.vc.slot i = entry.vc.slot i) ∧
      parsed.timestamp = entry.timestamp ∧
      parsed.level = entry.level ∧
      parsed.nodeId.bytes = entry.nodeId.bytes.filter keptByte ∧
      parsed.message.bytes = entry.message.bytes.filter keptByte ∧
      logEntryToJson parsed buflen = some text ∧
      ∀ size, logEntryToJson parsed size = logEntryToJson entry size := by
  have htext : text = entryText entry := by
    rw [logEntryToJson_eq] at h
    exact (emit_eq_some_iff.mp h).2
  obtain ⟨-, hcount, hslot⟩ := vcFromJson_vcText VectorClock.zero entry.vc
  have hreceived : (received entry).level = entry.level := logLevelFromStr_logLevelStr hlevel
  have hwrite : ∀ size, logEntryToJson (received entry) size = logEntryToJson entry size := by
    intro size
    rw [logEntryToJson_eq, logEntryToJson_eq, entryText_received hlevel hmeta]
  refine ⟨received entry, ?_, hcount, hslot, rfl, hreceived, bytes_ofBytes_filter _,
    bytes_ofBytes_filter _, (hwrite buflen).trans h, hwrite⟩
  rw [htext, cstring_entryText]
  exact logEntryFromJson_entryText hmeta

/-- A message with a quote, a backslash, a tab, a control byte and a line break. -/
def sampleEntry : LogEntry :=
  { LogEntry.zero with
    nodeId := CStr.ofBytes (ascii "node-1")
    vc := vcIncrement (vcInit VectorClock.zero 2) 1
    timestamp := 1720000000000
    level := .warn
    message := CStr.ofBytes [104, quote, backslash, tab, 7, 105, newline] }

theorem logEntryToJson_sampleEntry :
    logEntryToJson sampleEntry 4096 = some (entryText sampleEntry) := by
  rw [logEntryToJson_eq]
  exact if_pos (by decide +kernel)

theorem logEntryFromJson_logEntryToJson_sample :
    logEntryToJson sampleEntry 4096 = some (entryText sampleEntry) ∧
      ∃ parsed, logEntryFromJson (cstring (entryText sampleEntry)) = .ok parsed ∧
        parsed.vc.slot 1 = 1 ∧
        parsed.message.bytes = [104, quote, backslash, tab, 105, newline] ∧
        logEntryToJson parsed 4096 = some (entryText sampleEntry) := by
  have hwrite := logEntryToJson_sampleEntry
  refine ⟨hwrite, ?_⟩
  obtain ⟨parsed, hparse, -, hslot, -, -, -, hmessage, hagain, -⟩ :=
    logEntryFromJson_logEntryToJson sampleEntry 4096 (entryText sampleEntry)
      (fun _ => LogLevel.noConfusion) rfl hwrite
  refine ⟨parsed, hparse, ?_, ?_, hagain⟩
  · rw [hslot 1 (by decide)]
    decide
  · rw [hmessage]
    decide

end LogAgg
