import LogAgg.LogEntry.Members
import LogAgg.LogEntry.RoundTrip

/-!
# The record as a list of fields

The text of an entry is its fields between braces, with commas between them
(`entryText_eq_fields`).  A field knows what the reader does with it; for all but the metadata
this is read off `logEntryValue` (`Field.Reads`), so that finished fields can be run through
the loop at once (`logEntryMembers_finished`).
-/

namespace LogAgg

open Ascii

/-- A field of a record: its name, the text of its value, and what the reader stores. -/
structure Field where
  name : String
  value : Bytes
  store : LogEntry → LogEntry

/-- The text of a field. -/
def Field.text (f : Field) : Bytes := fieldName f.name ++ f.value

/-- Fields with a comma behind each. -/
def finished (fs : List Field) : Bytes := fs.flatMap fun f => f.text ++ [comma]

/-- Fields with a comma before each. -/
def following (fs : List Field) : Bytes := fs.flatMap fun f => comma :: f.text

/-- Fields with commas between them. -/
def fieldsText : List Field → Bytes
  | [] => []
  | f :: fs => f.text ++ following fs

@[simp] theorem finished_nil : finished [] = [] := rfl

@[simp] theorem finished_cons (f : Field) (fs : List Field) :
    finished (f :: fs) = f.text ++ comma :: finished fs := by
  rw [finished, List.flatMap_cons, List.append_assoc, List.singleton_append]
  rfl

@[simp] theorem following_nil : following [] = [] := rfl

@[simp] theorem following_cons (f : Field) (fs : List Field) :
    following (f :: fs) = comma :: (f.text ++ following fs) := by
  rw [following, List.flatMap_cons, List.cons_append]
  rfl

/-- A field between its neighbours. -/
theorem fieldsText_append_cons (fs : List Field) (f : Field) (gs : List Field) :
    fieldsText (fs ++ f :: gs) = finished fs ++ (f.text ++ following gs) := by
  cases fs with
  | nil => rfl
  | cons g fs =>
    rw [List.cons_append, fieldsText, finished_cons, List.append_assoc, List.cons_append]
    congr 1
    induction fs generalizing g with
    | nil => rw [List.nil_append, following_cons, finished_nil, List.nil_append]
    | cons h fs ih =>
      rw [List.cons_append, following_cons, finished_cons, List.append_assoc, List.cons_append,
        ih h]

/-! ## The fields of an entry -/

/-- The fields without the metadata, in the order in which they are written. -/
def plainFields (entry : LogEntry) : List Field :=
  [ { name := "node_id"
      value := quoted entry.nodeId.bytes
      store := fun e => { e with nodeId := CStr.ofBytes (entry.nodeId.bytes.filter keptByte) } },
    { name := "vector_clock"
      value := vcText entry.vc none
      store := fun e => { e with vc := (vcFromJson e.vc (vcText entry.vc none) none).2 } },
    { name := "timestamp"
      value := decimal entry.timestamp.toNat
      store := fun e => { e with timestamp := entry.timestamp } },
    { name := "level"
      value := quote :: (logLevelStr entry.level ++ [quote])
      store := fun e => { e with level := logLevelFromStr (logLevelStr entry.level) } },
    { name := "message"
      value := quoted entry.message.bytes
      store := fun e => { e with message := CStr.ofBytes (entry.message.bytes.filter keptByte) } } ]

/-- The object of the metadata. -/
def metadataObject (metadata : List MetadataPair) : Bytes :=
  lbrace :: (metadata.zipIdx.flatMap metadataItem ++ [rbrace])

/-- The field of the metadata. -/
def metadataField (metadata : List MetadataPair) : Field where
  name := "metadata"
  value := metadataObject metadata
  store := id

/-- The fields of a record. -/
def entryFields (entry : LogEntry) : List Field :=
  plainFields entry ++ if 0 < entry.metadata.length then [metadataField entry.metadata] else []

/-- **The text of an entry is its fields.** -/
theorem entryText_eq_fields (entry : LogEntry) :
    entryText entry = lbrace :: (fieldsText (entryFields entry) ++ [rbrace]) := by
  unfold entryText entryFields metadataText
  split
  · simp [plainFields, fieldsText, Field.text, metadataField, metadataObject]
  · simp [plainFields, fieldsText, Field.text]

theorem received_eq_foldl (entry : LogEntry) :
    (plainFields entry).foldl (fun e f => f.store e) LogEntry.zero = received entry := rfl

/-! ## Reading the fields -/

/-- What the reader does with a field, whatever follows that is no digit. -/
structure Field.Reads (f : Field) : Prop where
  isPlainName : isPlainName f.name = true
  visible : ∀ rest, skipWhitespace (f.value ++ rest) = f.value ++ rest
  value : ∀ entry rest, (∀ c, rest.head? = some c → isdigit c = false) →
    logEntryValue entry (ascii f.name) (f.value ++ rest) = .ok (f.store entry, rest)

/-- **Every field but the metadata is read.** -/
theorem reads_of_mem_plainFields {entry : LogEntry} {f : Field} (hf : f ∈ plainFields entry) :
    f.Reads := by
  have hquoted : ∀ s rest : Bytes, skipWhitespace (quoted s ++ rest) = quoted s ++ rest :=
    fun s rest => skipWhitespace_cons (by rfl) _
  have hname : ∀ n ∈ ["node_id", "vector_clock", "timestamp", "level", "message"],
      isPlainName n = true := by decide
  simp only [plainFields, List.mem_cons, List.not_mem_nil, or_false] at hf
  rcases hf with rfl | rfl | rfl | rfl | rfl
  · exact ⟨hname "node_id" (by simp), hquoted _, fun e rest _ => logEntryValue_nodeId e _ rest⟩
  · exact ⟨hname "vector_clock" (by simp), fun rest => skipWhitespace_cons (by rfl) _,
      fun e rest _ => logEntryValue_vectorClock e _ rest⟩
  · exact ⟨hname "timestamp" (by simp), skipWhitespace_decimal _,
      fun e rest hrest => logEntryValue_timestamp e _ hrest⟩
  · refine ⟨hname "level" (by simp), fun rest => skipWhitespace_cons (by rfl) _,
      fun e rest _ => ?_⟩
    have hlevel := logEntryValue_level e entry.level rest
    simpa using hlevel
  · exact ⟨hname "message" (by simp), hquoted _, fun e rest _ => logEntryValue_message e _ rest⟩

/-- A field that is read is one turn of the loop. -/
theorem Field.Reads.members {f : Field} (h : f.Reads) (entry : LogEntry) {rest : Bytes}
    (hrest : ∀ c, rest.head? = some c → isdigit c = false) :
    logEntryMembers entry (f.text ++ rest) = logEntryMembers (f.store entry) (skipComma rest) := by
  rw [Field.text, List.append_assoc]
  exact logEntryMembers_field h.isPlainName (h.visible rest) (h.value entry rest hrest)

/-- No blank stands before a field. -/
theorem skipWhitespace_text (f : Field) (rest : Bytes) :
    skipWhitespace (f.text ++ rest) = f.text ++ rest := skipWhitespace_cons (by rfl) _

/-- **Finished fields are read one after the other.** -/
theorem logEntryMembers_finished {fs : List Field} (h : ∀ f ∈ fs, f.Reads) (entry : LogEntry)
    {rest : Bytes} (hrest : skipWhitespace rest = rest) :
    logEntryMembers entry (finished fs ++ rest) =
      logEntryMembers (fs.foldl (fun e f => f.store e) entry) rest := by
  induction fs generalizing entry with
  | nil => rfl
  | cons f fs ih =>
    rw [List.forall_mem_cons] at h
    have hcomma : ∀ c, (comma :: (finished fs ++ rest) : Bytes).head? = some c →
        isdigit c = false := by
      intro c hc
      obtain rfl := Option.some.inj hc
      decide
    have hnext : skipWhitespace (finished fs ++ rest) = finished fs ++ rest := by
      cases fs with
      | nil => exact hrest
      | cons g fs =>
        rw [finished_cons, List.append_assoc]
        exact skipWhitespace_text g _
    have hskip : skipComma (comma :: (finished fs ++ rest)) =
        skipWhitespace (finished fs ++ rest) :=
      skipComma_append_comma (w := []) (fun _ hc => absurd hc List.not_mem_nil) _
    rw [finished_cons, List.append_assoc, List.cons_append, h.1.members entry hcomma, hskip, hnext,
      ih h.2, List.foldl_cons]

/-- At the start of a field, or at the end of the text, there is no blank. -/
theorem skipWhitespace_fieldName_append (name : String) (rest : Bytes) :
    skipWhitespace (fieldName name ++ rest) = fieldName name ++ rest := skipWhitespace_cons (by rfl) _

/-- Behind finished fields the reader stands at the part that is left. -/
theorem logEntryFromJson_finished {entry : LogEntry} {done : List Field}
    (hdone : ∀ g ∈ done, g ∈ plainFields entry) {part : Bytes} (hpart : skipWhitespace part = part) :
    logEntryFromJson (lbrace :: (finished done ++ part)) =
      logEntryMembers (done.foldl (fun e f => f.store e) LogEntry.zero) part := by
  have hskip : skipWhitespace (finished done ++ part) = finished done ++ part := by
    cases done with
    | nil => exact hpart
    | cons f done =>
      rw [finished_cons, List.append_assoc]
      exact skipWhitespace_text f _
  rw [← logEntryMembers_finished (fun g hg => reads_of_mem_plainFields (hdone g hg)) _ hpart,
    logEntryFromJson, skipWhitespace_cons (by rfl), expect_self]
  show logEntryMembers LogEntry.zero (skipWhitespace (finished done ++ part)) = _
  rw [hskip]

/-! ## Values that are no strings -/

theorem keyText_fieldName {name : String} (h : isPlainName name = true) (rest : Bytes) :
    KeyText (fieldName name ++ rest) (ascii name) rest :=
  ⟨[], fun _ hc => absurd hc List.not_mem_nil,
    (parseStr_eq_ok_iff (by decide)).mp (parseStr_fieldName h rest)⟩

/-- A value that is no string is passed over. -/
theorem logEntryMembers_value {name : String} (hname : isPlainName name = true)
    (hsize : stringSize (ascii name) = none) (v : Bytes) (entry : LogEntry) :
    logEntryMembers entry (fieldName name ++ v) =
      logEntryMembers (storeValue entry (ascii name) (skipWhitespace v))
        (skipComma (skipValue (ascii name) (skipWhitespace v))) := by
  have hkey := keyText_fieldName hname v
  exact logEntryMembers_of_ok hkey.not_atEnd ((MemberText.value hkey hsize).ok entry)

/-- **The metadata are passed over by their braces.** -/
theorem logEntryMembers_metadata {v : Bytes} (hv : skipWhitespace v = v) (entry : LogEntry) :
    logEntryMembers entry (fieldName "metadata" ++ v) =
      logEntryMembers entry (skipComma (cutNested lbrace rbrace v).2) := by
  rw [logEntryMembers_value (by decide) (by decide), hv, skipValue, if_neg (by decide),
    if_neg (by decide), if_pos rfl, storeValue, if_neg (by decide), if_neg (by decide)]

end LogAgg
