import LogAgg.LogEntry.Basic
import LogAgg.VectorClock.Json

/-!
# Log entries as JSON

`log_entry_to_json` and `log_entry_from_json`.  The writer escapes every string into a
scratch buffer of `2 * LOG_MESSAGE_MAX_LEN + 1` bytes, which no string of an entry
overflows (`jsonEscape_eq`), and appends piece by piece to the target; all in all it
is one length test against `entryText` (`logEntryToJson_eq`).

The reader loops over the members until it meets a closing brace or the end of the
text.  It reads the known fields into the entry, hands the text of the nested clock to
`vcFromJson` without looking at what that returns, and skips everything else.
-/

namespace LogAgg

open Ascii

/-! ## Writing -/

/-- The letter `json_escape` puts behind a backslash. -/
def escapeLetter (c : UInt8) : Option UInt8 :=
  if c = quote then some quote
  else if c = backslash then some backslash
  else if c = newline then some 110
  else if c = tab then some 116
  else none

/-- The loop of `json_escape`, with `dst` already written. -/
def jsonEscapeLoop (dstlen : ℕ) (dst : Bytes) : Bytes → Bytes
  | [] => dst
  | c :: src =>
      if dst.length < dstlen - 2 then
        match escapeLetter c with
        | some d =>
            jsonEscapeLoop dstlen
              (if dst.length + 2 < dstlen then dst ++ [backslash, d] else dst) src
        | none => jsonEscapeLoop dstlen (if isprint c then dst ++ [c] else dst) src
      else dst

/-- `json_escape` into the buffer `escaped` of `log_entry_to_json`. -/
def jsonEscape (src : Bytes) : Bytes := jsonEscapeLoop (logMessageMaxLen * 2 + 1) [] src

/-- The name of a field, in quotes, and the colon behind it. -/
def fieldName (name : String) : Bytes := quote :: (ascii name ++ [quote, colon])

/-- One turn of the loop over the metadata: a comma before every pair but the first, the
key, the value. -/
def emitMetadataPair (buflen : ℕ) (out : Bytes) (m : MetadataPair × ℕ) : Option Bytes := do
  let out ← if 0 < m.2 then emit buflen out [comma] else some out
  let out ← emit buflen out (quote :: (jsonEscape m.1.key.bytes ++ [quote, colon]))
  emit buflen out (quote :: (jsonEscape m.1.value.bytes ++ [quote]))

/-- The metadata field, if there is any metadata. -/
def emitMetadata (buflen : ℕ) (out : Bytes) (metadata : List MetadataPair) : Option Bytes :=
  if 0 < metadata.length then do
    let out ← emit buflen out (comma :: (fieldName "metadata" ++ [lbrace]))
    let out ← metadata.zipIdx.foldlM (emitMetadataPair buflen) out
    emit buflen out [rbrace]
  else some out

/-- `LOGAGG_MAX_ENTRY_SIZE`. -/
def logaggMaxEntrySize : ℕ := 4096

/-- `log_entry_to_json`: the text written into a buffer of `buflen` bytes, or `none`
for `-1`. -/
def logEntryToJson (entry : LogEntry) (buflen : ℕ) : Option Bytes := do
  let out ← emit buflen [] [lbrace]
  let out ← emit buflen out
    (fieldName "node_id" ++ quote :: (jsonEscape entry.nodeId.bytes ++ [quote]))
  let out ← emit buflen out (comma :: fieldName "vector_clock")
  let out ← (vcToJson entry.vc none (buflen - out.length)).map (out ++ ·)
  let out ← emit buflen out (comma :: (fieldName "timestamp" ++ decimal entry.timestamp.toNat))
  let out ← emit buflen out
    (comma :: (fieldName "level" ++ quote :: (logLevelStr entry.level ++ [quote])))
  let out ← emit buflen out
    (comma :: (fieldName "message" ++ quote :: (jsonEscape entry.message.bytes ++ [quote])))
  let out ← emitMetadata buflen out entry.metadata
  emit buflen out [rbrace]

/-! ## What is written -/

/-- What `json_escape` writes for one byte. -/
def escapeByte (c : UInt8) : Bytes :=
  match escapeLetter c with
  | some d => [backslash, d]
  | none => if isprint c then [c] else []

/-- A string in quotes, escaped. -/
def quoted (s : Bytes) : Bytes := quote :: (s.flatMap escapeByte ++ [quote])

/-- As long as the doubled source fits, nothing is cut off. -/
theorem jsonEscapeLoop_eq (dstlen : ℕ) (dst src : Bytes)
    (h : dst.length + 2 * src.length < dstlen) :
    jsonEscapeLoop dstlen dst src = dst ++ src.flatMap escapeByte := by
  induction src generalizing dst with
  | nil => rw [List.flatMap_nil, List.append_nil, jsonEscapeLoop]
  | cons c src ih =>
    rw [List.length_cons] at h
    rw [jsonEscapeLoop, if_pos (by omega), List.flatMap_cons, ← List.append_assoc]
    unfold escapeByte
    cases hc : escapeLetter c with
    | some d =>
      simp only
      rw [if_pos (by omega)]
      refine ih _ ?_
      rw [List.length_append, List.length_cons, List.length_cons, List.length_nil]
      omega
    | none =>
      simp only
      by_cases hp : isprint c = true
      · rw [if_pos hp, if_pos hp]
        refine ih _ ?_
        rw [List.length_append, List.length_cons, List.length_nil]
        omega
      · rw [if_neg hp, if_neg hp, List.append_nil]
        exact ih _ (by omega)

/-- **The escape buffer is large enough**: every string of an entry is escaped whole. -/
theorem jsonEscape_eq {cap : ℕ} (hcap : cap ≤ logMessageMaxLen) (s : CStr cap) :
    jsonEscape s.bytes = s.bytes.flatMap escapeByte := by
  have hlen := s.length_le.trans hcap
  refine (jsonEscapeLoop_eq _ _ _ ?_).trans (List.nil_append _)
  rw [List.length_nil]
  omega

/-- A metadata pair with the comma before it. -/
def metadataItem (m : MetadataPair × ℕ) : Bytes :=
  (if 0 < m.2 then [comma] else []) ++ (quoted m.1.key.bytes ++ colon :: quoted m.1.value.bytes)

/-- The metadata field, when there is one. -/
def metadataText (metadata : List MetadataPair) : Bytes :=
  if 0 < metadata.length then
    comma :: (fieldName "metadata" ++ lbrace :: (metadata.zipIdx.flatMap metadataItem ++ [rbrace]))
  else []

/-- The whole text of an entry. -/
def entryText (entry : LogEntry) : Bytes :=
  lbrace :: (fieldName "node_id" ++ (quoted entry.nodeId.bytes ++
    comma :: (fieldName "vector_clock" ++ (vcText entry.vc none ++
      comma :: (fieldName "timestamp" ++ (decimal entry.timestamp.toNat ++
        comma :: (fieldName "level" ++ (quote :: (logLevelStr entry.level ++ quote ::
          comma :: (fieldName "message" ++ (quoted entry.message.bytes ++
            (metadataText entry.metadata ++ [rbrace]))))))))))))

/-- The line of an entry in the log file. -/
def entryLine (entry : LogEntry) : Bytes := entryText entry ++ [newline]

/-- The clock goes into what is left of the buffer, which is writing it behind what is
there. -/
theorem vcToJson_map_append (buflen : ℕ) (out : Bytes) (vc : VectorClock) :
    (vcToJson vc none (buflen - out.length)).map (out ++ ·) =
      emit buflen out (vcText vc none) := by
  rw [vcToJson_eq]
  unfold emit
  rw [List.length_nil, List.nil_append]
  by_cases h : out.length + (vcText vc none).length < buflen
  · rw [if_pos h, if_pos (by omega)]
    rfl
  · rw [if_neg h, if_neg (by omega)]
    rfl

theorem emitMetadataPair_eq (buflen : ℕ) (out : Bytes) (m : MetadataPair × ℕ) :
    emitMetadataPair buflen out m = emit buflen out (metadataItem m) := by
  unfold emitMetadataPair metadataItem
  rw [jsonEscape_eq (by decide), jsonEscape_eq (by decide)]
  by_cases h : 0 < m.2
  · rw [if_pos h, if_pos h]
    simp only [emit_bind, quoted, List.append_assoc, List.cons_append, List.nil_append]
  · rw [if_neg h, if_neg h]
    show (emit _ _ _ >>= fun out => emit buflen out _) = _
    simp only [emit_bind, quoted, List.append_assoc, List.cons_append, List.nil_append]

/-- The metadata field is one piece behind what was written before it. -/
theorem emit_bind_emitMetadata (buflen : ℕ) (out p : Bytes) (metadata : List MetadataPair) :
    (emit buflen out p >>= fun o => emitMetadata buflen o metadata) =
      emit buflen out (p ++ metadataText metadata) := by
  have hpair : emitMetadataPair buflen = fun out m => emit buflen out (metadataItem m) := by
    funext out m
    exact emitMetadataPair_eq buflen out m
  unfold emitMetadata metadataText
  by_cases h : 0 < metadata.length
  · simp only [if_pos h, hpair]
    rw [emit_bind_emit, ← bind_assoc, emit_bind_foldlM, emit_bind]
    simp only [List.append_assoc, List.cons_append, List.nil_append]
  · simp only [if_neg h]
    rw [List.append_nil]
    exact bind_pure _

/-- **The writer is one length test.** -/
theorem logEntryToJson_eq (entry : LogEntry) (buflen : ℕ) :
    logEntryToJson entry buflen = emit buflen [] (entryText entry) := by
  unfold logEntryToJson
  rw [jsonEscape_eq (by decide), jsonEscape_eq (by decide)]
  simp only [vcToJson_map_append, emit_bind_emit]
  rw [← bind_assoc, emit_bind_emitMetadata, emit_bind]
  simp only [entryText, quoted, List.append_assoc, List.cons_append, List.nil_append]

/-! ## The length of a record -/

theorem length_escapeByte_le (c : UInt8) : (escapeByte c).length ≤ 2 := by
  unfold escapeByte
  split
  · exact le_rfl
  · split
    · exact one_le_two
    · exact Nat.zero_le 2

theorem length_quoted_le {cap : ℕ} (s : CStr cap) : (quoted s.bytes).length ≤ cap * 2 + 2 := by
  have hescaped := length_flatMap_le fun c (_ : c ∈ s.bytes) => length_escapeByte_le c
  have hlen := s.length_le
  rw [quoted, List.length_cons, List.length_append, List.length_singleton]
  omega

theorem length_logLevelStr_le (level : LogLevel) : (logLevelStr level).length ≤ 7 := by
  have hunknown : (ascii "UNKNOWN").length ≤ 7 := by decide
  cases level with
  | other value => exact hunknown
  | _ => decide

/-- **A record without metadata fits the buffer** it is written to. -/
theorem length_entryText_lt {entry : LogEntry} (h : entry.metadata = []) :
    (entryText entry).length < logaggMaxEntrySize := by
  have hnode : (quoted entry.nodeId.bytes).length ≤ 31 * 2 + 2 := length_quoted_le entry.nodeId
  have hmessage : (quoted entry.message.bytes).length ≤ 1023 * 2 + 2 :=
    length_quoted_le entry.message
  have hclock := length_vcText_le entry.vc
  have htime : (decimal entry.timestamp.toNat).length ≤ 20 :=
    length_decimal_le (by decide) (lt_trans entry.timestamp.toNat_lt (by decide))
  have hlevel := length_logLevelStr_le entry.level
  have hnames : (fieldName "node_id").length = 10 ∧ (fieldName "vector_clock").length = 15 ∧
      (fieldName "timestamp").length = 12 ∧ (fieldName "level").length = 8 ∧
      (fieldName "message").length = 10 := by decide
  have hmetadata : metadataText entry.metadata = [] := by
    rw [h]
    rfl
  have hmax : logaggMaxEntrySize = 4096 := rfl
  rw [entryText, hmetadata]
  simp only [List.length_cons, List.length_append, List.length_nil]
  omega

/-! ## Reading -/

/-- The escapes of `parse_str`: a byte without a meaning of its own stands for itself. -/
def strUnescape (c : UInt8) : Option UInt8 :=
  if c = 110 then some newline
  else if c = 116 then some tab
  else if c = 114 then some carriageReturn
  else some c

/-- `parse_str`. -/
def parseStr (s : Bytes) (buflen : ℕ) : Except ScanError (Bytes × Bytes) := do
  let s ← expect quote (skipWhitespace s)
  scanQuoted strUnescape .pastEnd (buflen - 1) s

/-- `parse_num`: no digit at all reads as zero. -/
def parseNum (s : Bytes) : UInt64 × Bytes := scanDigits 0 (skipWhitespace s)

/-- The text of a bracketed value, if one starts at the cursor, and the rest. -/
def cutNested (opening closing : UInt8) (s : Bytes) : Bytes × Bytes :=
  if s.head? = some opening then scanNested opening closing 0 s else ([], s)

/-- Skipping the value of an unknown field.  On a string the loop stops at the opening
quote it starts from, so only this quote is skipped. -/
def skipUnknown (s : Bytes) : Bytes :=
  if s.head? = some quote then (s.dropWhile (· ≠ quote)).tail
  else if s.head? = some lbrace then (scanNested lbrace rbrace 0 s).2
  else if s.head? = some lbracket then (scanNested lbracket rbracket 0 s).2
  else s.dropWhile fun c => c ≠ comma ∧ c ≠ rbrace

/-- The value of the field `key`. -/
def logEntryValue (entry : LogEntry) (key s : Bytes) : Except ScanError (LogEntry × Bytes) :=
  if key = ascii "node_id" then do
    let (value, s) ← parseStr s (nodeIdMaxLen + 1)
    return ({ entry with nodeId := CStr.ofBytes value }, s)
  else if key = ascii "vector_clock" then
    let (text, s) := cutNested lbrace rbrace s
    .ok ({ entry with vc := (vcFromJson entry.vc text none).2 }, s)
  else if key = ascii "timestamp" then
    let (value, s) := parseNum s
    .ok ({ entry with timestamp := value }, s)
  else if key = ascii "level" then do
    let (value, s) ← parseStr s (logMessageMaxLen * 2)
    return ({ entry with level := logLevelFromStr value }, s)
  else if key = ascii "message" then do
    let (value, s) ← parseStr s (logMessageMaxLen + 1)
    return ({ entry with message := CStr.ofBytes value }, s)
  else if key = ascii "metadata" then .ok (entry, (cutNested lbrace rbrace s).2)
  else .ok (entry, skipUnknown s)

/-- One turn of the loop: a key, its value, and the comma behind it. -/
def logEntryMember (entry : LogEntry) (s : Bytes) : Except ScanError (LogEntry × Bytes) := do
  let (key, s) ← parseStr s 64
  let s ← expect colon (skipWhitespace s)
  let (entry, s) ← logEntryValue entry key (skipWhitespace s)
  return (entry, skipComma s)

theorem length_parseStr {s value rest : Bytes} {buflen : ℕ}
    (h : parseStr s buflen = .ok (value, rest)) : rest.length < s.length := by
  obtain ⟨t, hx, ht⟩ := ok_of_bind_eq_ok h
  exact (length_scanQuoted ht).trans
    ((length_expect hx).trans_le (length_skipWhitespace_le s))

theorem length_cutNested_le (opening closing : UInt8) (s : Bytes) :
    (cutNested opening closing s).2.length ≤ s.length := by
  unfold cutNested
  split
  · exact length_scanNested_le _ _ _ _
  · exact le_rfl

theorem length_skipUnknown_le (s : Bytes) : (skipUnknown s).length ≤ s.length := by
  unfold skipUnknown
  split
  · rw [List.length_tail]
    exact (Nat.sub_le _ _).trans (List.dropWhile_suffix _).length_le
  · split
    · exact length_scanNested_le _ _ _ _
    · split
      · exact length_scanNested_le _ _ _ _
      · exact (List.dropWhile_suffix _).length_le

theorem length_logEntryValue_le {entry entry' : LogEntry} {key s rest : Bytes}
    (h : logEntryValue entry key s = .ok (entry', rest)) : rest.length ≤ s.length := by
  have hstr : ∀ (buflen : ℕ) (f : Bytes → LogEntry),
      (parseStr s buflen >>= fun p => pure (f p.1, p.2)) = .ok (entry', rest) →
        rest.length ≤ s.length := by
    intro buflen f h
    obtain ⟨⟨value, t⟩, hx, ht⟩ := ok_of_bind_eq_ok h
    rw [← (Prod.mk.inj (Except.ok.inj ht)).2]
    exact (length_parseStr hx).le
  unfold logEntryValue at h
  split at h
  · exact hstr _ (fun value => { entry with nodeId := CStr.ofBytes value }) h
  · split at h
    · rw [← (Prod.mk.inj (Except.ok.inj h)).2]
      exact length_cutNested_le _ _ _
    · split at h
      · rw [← (Prod.mk.inj (Except.ok.inj h)).2]
        exact (length_scanDigits_le _ _).trans (length_skipWhitespace_le s)
      · split at h
        · exact hstr _ (fun value => { entry with level := logLevelFromStr value }) h
        · split at h
          · exact hstr _ (fun value => { entry with message := CStr.ofBytes value }) h
          · split at h
            · rw [← (Prod.mk.inj (Except.ok.inj h)).2]
              exact length_cutNested_le _ _ _
            · rw [← (Prod.mk.inj (Except.ok.inj h)).2]
              exact length_skipUnknown_le s

/-- **Every turn of the loop moves the cursor.** -/
theorem length_logEntryMember {entry entry' : LogEntry} {s rest : Bytes}
    (h : logEntryMember entry s = .ok (entry', rest)) : rest.length < s.length := by
  obtain ⟨⟨key, s₁⟩, hkey, h⟩ := ok_of_bind_eq_ok h
  obtain ⟨s₂, hcolon, h⟩ := ok_of_bind_eq_ok h
  obtain ⟨⟨entry₃, s₃⟩, hvalue, h⟩ := ok_of_bind_eq_ok h
  rw [← (Prod.mk.inj (Except.ok.inj h)).2]
  calc (skipComma s₃).length ≤ s₃.length := length_skipComma_le s₃
    _ ≤ (skipWhitespace s₂).length := length_logEntryValue_le hvalue
    _ ≤ s₂.length := length_skipWhitespace_le s₂
    _ ≤ (skipWhitespace s₁).length := (length_expect hcolon).le
    _ ≤ s₁.length := length_skipWhitespace_le s₁
    _ < s.length := length_parseStr hkey

/-- The loop of `log_entry_from_json`, which ends at a closing brace or at the end of
the text. -/
def logEntryMembers (entry : LogEntry) : Bytes → Except ScanError LogEntry
  | [] => .ok entry
  | c :: s =>
      if c = rbrace then .ok entry
      else
        match h : logEntryMember entry (c :: s) with
        | .error e => .error e
        | .ok (entry', rest) =>
            have _ : rest.length < (c :: s).length := length_logEntryMember h
            logEntryMembers entry' rest
  termination_by s => s.length
  decreasing_by assumption

/-- `log_entry_from_json`: the entry read, unless the text is rejected. -/
def logEntryFromJson (json : Bytes) : Except ScanError LogEntry := do
  let s ← expect lbrace (skipWhitespace json)
  logEntryMembers LogEntry.zero (skipWhitespace s)

/-- The loop goes on behind a member that was read. -/
theorem logEntryMembers_of_member {entry entry' : LogEntry} {c : UInt8} {s rest : Bytes}
    (hc : c ≠ rbrace) (h : logEntryMember entry (c :: s) = .ok (entry', rest)) :
    logEntryMembers entry (c :: s) = logEntryMembers entry' rest := by
  rw [logEntryMembers, if_neg hc]
  split
  · rename_i e he
    rw [he] at h
    exact absurd h (by simp)
  · rename_i entry₂ rest₂ h₂
    rw [h₂] at h
    obtain ⟨rfl, rfl⟩ := Prod.mk.inj (Except.ok.inj h)
    rfl

end LogAgg
