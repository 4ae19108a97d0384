import LogAgg.CString.Nested
import LogAgg.LogEntry.Fields

/-!
# Metadata on the wire

The metadata are written into the record and passed over when it is read: the reader counts
braces until those of the object are closed, and takes every brace inside of a string for one
of them.  So the metadata do not disturb the other fields as long as their keys and values, one
behind the other, never close more braces than they have opened (`Overclosed`).  When they do,
the reader goes on in the middle of a string (`leftOver`).

What was passed over is not in the entry that is read (`logEntryGetMetadata_received`).
-/

namespace LogAgg

open Ascii

/-! ## The code -/

/-- `log_entry_add_metadata`: the entry with one more pair, or `none` for `-1`.  The two
`strncpy`s keep what fits. -/
def logEntryAddMetadata (entry : LogEntry) (key value : Bytes) : Option LogEntry :=
  if h : metadataMaxCount ≤ entry.metadata.length then none
  else
    some
      { entry with
        metadata := entry.metadata ++ [⟨CStr.ofBytes key, CStr.ofBytes value⟩]
        metadata_le := by
          rw [List.length_append, List.length_singleton]
          omega }

/-- `log_entry_get_metadata`: the value of the first pair with the key, or `none` for `NULL`. -/
def logEntryGetMetadata (entry : LogEntry) (key : Bytes) : Option Bytes :=
  (entry.metadata.find? fun m => strcmp m.key.bytes key == 0).map fun m => m.value.bytes

/-- Adding the pairs of a list, one after the other. -/
def addAllMetadata (entry : LogEntry) (pairs : List (Bytes × Bytes)) : Option LogEntry :=
  pairs.foldlM (fun entry p => logEntryAddMetadata entry p.1 p.2) entry

/-! ## Braces -/

/-- The keys and values of the metadata, one behind the other. -/
def metadataContent (metadata : List MetadataPair) : Bytes :=
  metadata.flatMap fun m => m.key.bytes ++ m.value.bytes

/-- Somewhere more braces are closed than were opened. -/
def Overclosed (s : Bytes) : Prop := ∃ t, t <+: s ∧ t.count lbrace < t.count rbrace

theorem depthAfter_eq_none_iff_overclosed {s : Bytes} :
    depthAfter lbrace rbrace 1 s = none ↔ Overclosed s := by
  rw [depthAfter_eq_none_iff (by decide) one_pos, Overclosed]
  simp only [Nat.add_comm 1, Nat.succ_le_iff]

/-- A brace. -/
def isBrace (c : UInt8) : Bool := c == lbrace || c == rbrace

/-- Escaping leaves the braces as they are, and adds none. -/
theorem filter_isBrace_escapeByte (c : UInt8) :
    (escapeByte c).filter isBrace = [c].filter isBrace := by
  by_cases hq : c = quote
  · subst hq
    rfl
  by_cases hb : c = backslash
  · subst hb
    rfl
  by_cases hn : c = newline
  · subst hn
    rfl
  by_cases ht : c = tab
  · subst ht
    rfl
  have hletter : escapeLetter c = none := by
    rw [escapeLetter, if_neg hq, if_neg hb, if_neg hn, if_neg ht]
  rw [escapeByte, hletter]
  dsimp only
  by_cases hprint : isprint c = true
  · rw [if_pos hprint]
  · rw [if_neg hprint]
    have hbrace : isBrace c = false := by
      rw [isBrace, Bool.or_eq_false_iff, beq_eq_false_iff_ne, beq_eq_false_iff_ne]
      constructor <;> rintro rfl <;> exact hprint (by decide)
    rw [List.filter_cons_of_neg (by simp [hbrace])]

theorem filter_isBrace_quoted (s : Bytes) : (quoted s).filter isBrace = s.filter isBrace := by
  have hescaped : (s.flatMap escapeByte).filter isBrace = s.filter isBrace := by
    induction s with
    | nil => rfl
    | cons c s ih =>
      rw [List.flatMap_cons, List.filter_append, filter_isBrace_escapeByte, ih,
        ← List.filter_append, List.singleton_append]
  rw [quoted, List.filter_cons_of_neg (by decide), List.filter_append, hescaped,
    List.filter_cons_of_neg (by decide), List.filter_nil, List.append_nil]

/-- The braces of the pairs are those of their keys and values. -/
theorem filter_isBrace_items (metadata : List MetadataPair) :
    (metadata.zipIdx.flatMap metadataItem).filter isBrace =
      (metadataContent metadata).filter isBrace := by
  have hitem : ∀ m : MetadataPair × ℕ,
      (metadataItem m).filter isBrace = (m.1.key.bytes ++ m.1.value.bytes).filter isBrace := by
    intro m
    have hcomma : (if 0 < m.2 then [comma] else []).filter isBrace = [] := by
      split <;> rfl
    rw [metadataItem, List.filter_append, hcomma, List.nil_append, List.filter_append,
      List.filter_cons_of_neg (by decide), filter_isBrace_quoted, filter_isBrace_quoted,
      List.filter_append]
  have hmap : metadata = metadata.zipIdx.map Prod.fst := (List.zipIdx_map_fst 0 metadata).symm
  conv_rhs => rw [metadataContent, hmap, List.flatMap_map]
  rw [List.filter_flatMap, List.filter_flatMap]
  exact List.flatMap_congr fun m _ => hitem m

/-- **The depth inside of the object depends on the raw keys and values.** -/
theorem depthAfter_items (metadata : List MetadataPair) :
    depthAfter lbrace rbrace 1 (metadata.zipIdx.flatMap metadataItem) =
      depthAfter lbrace rbrace 1 (metadataContent metadata) := by
  have hfilter := filter_isBrace_items metadata
  unfold isBrace at hfilter
  rw [← depthAfter_filter one_pos, hfilter, depthAfter_filter one_pos]

/-! ## What is left behind the metadata -/

/-- What is ahead of the reader when the braces of the metadata are closed. -/
def leftOver (metadata : List MetadataPair) : Bytes :=
  skipComma (cutNested lbrace rbrace (metadataObject metadata ++ [rbrace])).2

theorem cutNested_metadataObject (metadata : List MetadataPair) (rest : Bytes) :
    (cutNested lbrace rbrace (metadataObject metadata ++ rest)).2 =
      (scanNested lbrace rbrace 1 (metadata.zipIdx.flatMap metadataItem ++ rbrace :: rest)).2 := by
  rw [metadataObject, List.cons_append, List.append_assoc, List.singleton_append, cutNested,
    List.head?_cons, if_pos rfl]
  have hopen : depthAfter lbrace rbrace 0 [lbrace] = some 1 := rfl
  rw [← List.singleton_append, scanNested_append_of_depthAfter hopen]

/-- **Metadata that never overclose leave nothing of the record but its brace.**  When they leave
braces open, the reader takes the brace of the record for one of theirs. -/
theorem atEnd_leftOver {metadata : List MetadataPair}
    (h : ¬ Overclosed (metadataContent metadata)) : AtEnd (leftOver metadata) := by
  rw [← depthAfter_eq_none_iff_overclosed, ← depthAfter_items] at h
  obtain ⟨depth, hdepth⟩ := Option.ne_none_iff_exists'.mp h
  have hpos := (depthAfter_add_count (by decide) one_pos hdepth).2
  rw [leftOver, cutNested_metadataObject, scanNested_append_of_depthAfter hdepth]
  match depth, hpos with
  | 1, _ => exact Or.inr rfl
  | 2, _ => exact Or.inl rfl
  | depth + 3, _ => exact Or.inl rfl

/-- The reader stands at a visible byte or at the end. -/
theorem isspace_leftOver {metadata : List MetadataPair} {c : UInt8} {t : Bytes}
    (h : leftOver metadata = c :: t) : isspace c = false := isspace_of_skipComma h

/-- **Reading a record with metadata**: the plain fields, and what the metadata leave over. -/
theorem logEntryFromJson_metadata {entry : LogEntry} (h : entry.metadata ≠ []) :
    logEntryFromJson (entryText entry) =
      logEntryMembers (received entry) (leftOver entry.metadata) := by
  have hlen : 0 < entry.metadata.length := List.length_pos_iff.mpr h
  have hskip : skipWhitespace (metadataObject entry.metadata ++ [rbrace]) =
      metadataObject entry.metadata ++ [rbrace] := skipWhitespace_cons (by rfl) _
  rw [entryText_eq_fields, entryFields, if_pos hlen, fieldsText_append_cons, following_nil,
    List.append_nil, Field.text, List.append_assoc, List.append_assoc,
    logEntryFromJson_finished (fun g hg => hg) (skipWhitespace_fieldName_append _ _),
    received_eq_foldl]
  exact logEntryMembers_metadata hskip (received entry)

/-- **Metadata that never overclose are passed over.** -/
theorem logEntryFromJson_of_not_overclosed {entry : LogEntry}
    (h : ¬ Overclosed (metadataContent entry.metadata)) :
    logEntryFromJson (entryText entry) = .ok (received entry) := by
  by_cases hmeta : entry.metadata = []
  · exact logEntryFromJson_entryText hmeta
  · rw [logEntryFromJson_metadata hmeta, logEntryMembers_of_atEnd (atEnd_leftOver h)]

/-! ## The other fields -/

/-- The five fields that every record has. -/
structure SameFields (a b : LogEntry) : Prop where
  nodeId : a.nodeId = b.nodeId
  vc : a.vc = b.vc
  timestamp : a.timestamp = b.timestamp
  level : a.level = b.level
  message : a.message = b.message

theorem SameFields.refl (a : LogEntry) : SameFields a a := ⟨rfl, rfl, rfl, rfl, rfl⟩

/-- What is left over of the record reads as members that change none of the five fields.  These
are members as the reader of the code takes them (`MembersText` is built from its `skipValue` and
`storeValue`), since no other reader would go on behind braces that it has miscounted. -/
def ReadsBack (entry : LogEntry) : Prop :=
  ∃ store, MembersText (leftOver entry.metadata) store ∧
    SameFields (store (received entry)) (received entry)

/-- The record of an entry with metadata is read with the five fields as they were sent exactly
when what is left over reads back. -/
theorem exists_sameFields_iff {entry : LogEntry} (h : entry.metadata ≠ []) :
    (∃ parsed, logEntryFromJson (entryText entry) = .ok parsed ∧
      SameFields parsed (received entry)) ↔ ReadsBack entry := by
  simp only [logEntryFromJson_metadata h, logEntryMembers_eq_ok_iff]
  constructor
  · rintro ⟨parsed, ⟨store, hstore, rfl⟩, hsame⟩
    exact ⟨store, hstore, hsame⟩
  · rintro ⟨store, hstore, hsame⟩
    exact ⟨_, ⟨store, hstore, rfl⟩, hsame⟩

/-- **Which metadata disturb the record.**  What is left over reads back if the metadata never
overclose; else if no member is left, or if the closing quote of a string is next and the text
from there reads as members that change nothing. -/
theorem readsBack_iff {entry : LogEntry} :
    ReadsBack entry ↔
      ¬ Overclosed (metadataContent entry.metadata) ∨ AtEnd (leftOver entry.metadata) ∨
        (leftOver entry.metadata).head? = some quote ∧ ReadsBack entry := by
  have hend : AtEnd (leftOver entry.metadata) → ReadsBack entry := fun h =>
    ⟨id, .done h, SameFields.refl _⟩
  constructor
  · intro h
    obtain ⟨store, hstore, -⟩ := id h
    cases hstore with
    | done hdone => exact Or.inr (Or.inl hdone)
    | next hmember _ =>
      exact Or.inr (Or.inr ⟨hmember.head_quote fun c t heq => isspace_leftOver heq, h⟩)
  · rintro (h | h | ⟨-, h⟩)
    · exact hend (atEnd_leftOver h)
    · exact hend h
    · exact h

/-! ## Adding metadata -/

/-- Adding pairs appends them and leaves the other fields alone. -/
theorem addAllMetadata_eq {entry e : LogEntry} {pairs : List (Bytes × Bytes)}
    (h : addAllMetadata entry pairs = some e) :
    e.metadata = entry.metadata ++
        pairs.map (fun p => ⟨CStr.ofBytes p.1, CStr.ofBytes p.2⟩) ∧
      plainFields e = plainFields entry := by
  induction pairs generalizing entry with
  | nil =>
    obtain rfl := Option.some.inj h
    exact ⟨by rw [List.map_nil, List.append_nil], rfl⟩
  | cons p pairs ih =>
    rw [addAllMetadata, List.foldlM_cons] at h
    unfold logEntryAddMetadata at h
    split at h
    · cases h
    · obtain ⟨hmeta, hplain⟩ := ih h
      refine ⟨?_, hplain⟩
      rw [hmeta, List.map_cons, List.append_assoc, List.singleton_append]

theorem received_eq_of_plainFields {a b : LogEntry} (h : plainFields a = plainFields b) :
    received a = received b := by
  rw [← received_eq_foldl, ← received_eq_foldl, h]

/-- A record is at most longer by its metadata. -/
theorem length_entryText_le {entry e : LogEntry} (hmeta : entry.metadata = [])
    (hplain : plainFields e = plainFields entry) :
    (entryText entry).length ≤ (entryText e).length := by
  rw [entryText_eq_fields, entryText_eq_fields, entryFields, entryFields, hplain, hmeta]
  unfold plainFields
  simp only [List.length_nil, lt_irrefl, if_false, List.append_nil, List.cons_append,
    List.nil_append, fieldsText, following_cons, following_nil, List.length_cons,
    List.length_append]
  omega

/-- **When the metadata leave the other fields alone.** -/
theorem metadata_undisturbed_iff {entry e : LogEntry} {pairs : List (Bytes × Bytes)}
    (hmeta : entry.metadata = []) (hpairs : pairs ≠ []) (hadd : addAllMetadata entry pairs = some e)
    {buflen : ℕ} {text : Bytes} (h : logEntryToJson e buflen = some text) :
    (∃ parsed plainText plain, logEntryFromJson text = .ok parsed ∧
      logEntryToJson entry buflen = some plainText ∧ logEntryFromJson plainText = .ok plain ∧
      SameFields parsed plain) ↔
      ¬ Overclosed (metadataContent e.metadata) ∨ AtEnd (leftOver e.metadata) ∨
        (leftOver e.metadata).head? = some quote ∧ ReadsBack e := by
  obtain ⟨hpairsEq, hplain⟩ := addAllMetadata_eq hadd
  have hne : e.metadata ≠ [] := by
    rw [hpairsEq, hmeta, List.nil_append, Ne, List.map_eq_nil_iff]
    exact hpairs
  rw [logEntryToJson_eq, emit_eq_some_iff, List.length_nil, Nat.zero_add, List.nil_append] at h
  obtain ⟨hlen, rfl⟩ := h
  have hwrite : logEntryToJson entry buflen = some (entryText entry) := by
    rw [logEntryToJson_eq, emit_eq_some_iff]
    refine ⟨?_, rfl⟩
    have hle := length_entryText_le hmeta hplain
    rw [List.length_nil]
    omega
  rw [← readsBack_iff, ← exists_sameFields_iff hne, received_eq_of_plainFields hplain]
  constructor
  · rintro ⟨parsed, plainText, plain, hparsed, hplainText, hread, hsame⟩
    rw [hwrite] at hplainText
    obtain rfl := Option.some.inj hplainText
    rw [logEntryFromJson_entryText hmeta] at hread
    obtain rfl := Except.ok.inj hread
    exact ⟨parsed, hparsed, hsame⟩
  · rintro ⟨parsed, hparsed, hsame⟩
    exact ⟨parsed, entryText entry, received entry, hparsed, hwrite,
      logEntryFromJson_entryText hmeta, hsame⟩

/-- The sample with one pair. -/
def taggedEntry (value : Bytes) : LogEntry :=
  { sampleEntry with
    metadata := [⟨CStr.ofBytes (ascii "k"), CStr.ofBytes value⟩]
    metadata_le := Nat.one_le_ofNat }

theorem addAllMetadata_sampleEntry (value : Bytes) :
    addAllMetadata sampleEntry [(ascii "k", value)] = some (taggedEntry value) := rfl

theorem logEntryToJson_taggedEntry :
    logEntryToJson (taggedEntry (ascii "v")) 4096 = some (entryText (taggedEntry (ascii "v"))) := by
  rw [logEntryToJson_eq]
  exact if_pos (by decide +kernel)

theorem metadata_undisturbed_iff_sample :
    ∃ parsed plainText plain, logEntryFromJson (entryText (taggedEntry (ascii "v"))) = .ok parsed ∧
      logEntryToJson sampleEntry 4096 = some plainText ∧ logEntryFromJson plainText = .ok plain ∧
      SameFields parsed plain := by
  refine (metadata_undisturbed_iff rfl (by simp) (addAllMetadata_sampleEntry (ascii "v"))
    logEntryToJson_taggedEntry).mpr (Or.inl ?_)
  rw [← depthAfter_eq_none_iff_overclosed]
  decide

/-- A closing brace as the value of the pair: the record is rejected. -/
theorem logEntryFromJson_closing_brace :
    addAllMetadata sampleEntry [(ascii "k", [rbrace])] = some (taggedEntry [rbrace]) ∧
      logEntryToJson (taggedEntry [rbrace]) 4096 = some (entryText (taggedEntry [rbrace])) ∧
      logEntryFromJson (entryText (taggedEntry [rbrace])) = .error .reject := by
  refine ⟨addAllMetadata_sampleEntry [rbrace], ?_, ?_⟩
  · rw [logEntryToJson_eq]
    exact if_pos (by decide +kernel)
  · decide +kernel

/-! ## What is not sent on -/

/-- The entry without its metadata. -/
def withoutMetadata (entry : LogEntry) : LogEntry :=
  { entry with metadata := [], metadata_le := Nat.zero_le _ }

/-- The entry that was read has no metadata, whatever was sent. -/
theorem logEntryGetMetadata_received (entry : LogEntry) (key : Bytes) :
    logEntryGetMetadata (received entry) key = none := rfl

theorem logEntryGetMetadata_eq_none_iff {entry : LogEntry} {key : Bytes} :
    logEntryGetMetadata entry key = none ↔ ∀ m ∈ entry.metadata, m.key.bytes ≠ key := by
  rw [logEntryGetMetadata, Option.map_eq_none_iff, List.find?_eq_none]
  simp only [beq_iff_eq, strcmp_eq_zero_iff]

/-- Text without braces closes none. -/
theorem not_overclosed_of_forall {s : Bytes} (h : ∀ c ∈ s, isBrace c = false) : ¬ Overclosed s := by
  have hne : ∀ c ∈ s, c ≠ lbrace ∧ c ≠ rbrace := by
    intro c hc
    have hbrace := h c hc
    rwa [isBrace, Bool.or_eq_false_iff, beq_eq_false_iff_ne, beq_eq_false_iff_ne] at hbrace
  rw [← depthAfter_eq_none_iff_overclosed, depthAfter_of_ne one_pos hne]
  exact Option.some_ne_none 1

/-- **Metadata do not survive the wire.**  The record is read as it would be without them: the
entry has none, asking for a key gives what the sender has only where the sender has nothing,
and what is written again is the record without metadata. -/
theorem logEntryFromJson_drops_metadata {entry : LogEntry} {buflen : ℕ} {text : Bytes}
    (hbraces : ∀ m ∈ entry.metadata, ∀ c ∈ m.key.bytes ++ m.value.bytes, isBrace c = false)
    (h : logEntryToJson entry buflen = some text) :
    ∃ parsed, logEntryFromJson text = .ok parsed ∧
      logEntryFromJson (entryText (withoutMetadata entry)) = .ok parsed ∧
      parsed.metadata = [] ∧
      (∀ key, logEntryGetMetadata parsed key = none) ∧
      (∀ key, logEntryGetMetadata parsed key = logEntryGetMetadata entry key ↔
        ∀ m ∈ entry.metadata, m.key.bytes ≠ key) ∧
      (entry.level.Named →
        ∀ size, logEntryToJson parsed size = logEntryToJson (withoutMetadata entry) size) := by
  have hcontent : ¬ Overclosed (metadataContent entry.metadata) := by
    refine not_overclosed_of_forall fun c hc => ?_
    obtain ⟨m, hm, hc⟩ := List.mem_flatMap.mp hc
    exact hbraces m hm c hc
  have htext : text = entryText entry := by
    rw [logEntryToJson_eq] at h
    exact (emit_eq_some_iff.mp h).2
  refine ⟨received entry, ?_, logEntryFromJson_entryText rfl, rfl,
    logEntryGetMetadata_received entry, fun key => ?_, fun hlevel size => ?_⟩
  · rw [htext, logEntryFromJson_of_not_overclosed hcontent]
  · rw [logEntryGetMetadata_received, eq_comm, logEntryGetMetadata_eq_none_iff]
  · have hwritten : entryText (received entry) = entryText (withoutMetadata entry) :=
      @entryText_received (withoutMetadata entry) hlevel rfl
    rw [logEntryToJson_eq, logEntryToJson_eq, hwritten]

theorem logEntryFromJson_drops_metadata_sample :
    ∃ parsed, logEntryFromJson (entryText (taggedEntry (ascii "v"))) = .ok parsed ∧
      parsed.metadata = [] := by
  obtain ⟨parsed, hparsed, -, hmeta, -⟩ := @logEntryFromJson_drops_metadata
    (taggedEntry (ascii "v")) 4096 _ (by decide +kernel) logEntryToJson_taggedEntry
  exact ⟨parsed, hparsed, hmeta⟩

/-- The value that was sent is not there. -/
theorem logEntryGetMetadata_lost :
    logEntryToJson (taggedEntry (ascii "v")) 4096 = some (entryText (taggedEntry (ascii "v"))) ∧
      logEntryGetMetadata (taggedEntry (ascii "v")) (ascii "k") = some (ascii "v") ∧
      ∃ parsed, logEntryFromJson (entryText (taggedEntry (ascii "v"))) = .ok parsed ∧
        logEntryGetMetadata parsed (ascii "k") = none := by
  have hsent : logEntryGetMetadata (taggedEntry (ascii "v")) (ascii "k") = some (ascii "v") := by
    decide +kernel
  refine ⟨logEntryToJson_taggedEntry, hsent, _, logEntryFromJson_of_not_overclosed ?_,
    logEntryGetMetadata_received _ _⟩
  rw [← depthAfter_eq_none_iff_overclosed]
  decide

end LogAgg
