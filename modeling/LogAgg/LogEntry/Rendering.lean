import LogAgg.CString.Scanf
import LogAgg.LogEntry.Json

/-!
# The rendering of an entry

`rendering` says what the JSON of an entry is without saying how it is written: an object of
members between commas, and strings in quotes with every byte escaped by a table of its own
(`shortEscapes`).  The writers get there by a dozen checked `snprintf`s and an escape buffer of a
fixed size.  They write the rendering whole or return `-1`, and which of the two it is depends on
its length alone (`logEntryToJson_rendering`).
-/

namespace LogAgg

open Ascii

/-! ## Objects -/

/-- A member of an object. -/
def memberText (name value : Bytes) : Bytes := name ++ colon :: value

/-- An object. -/
def objectText (members : List Bytes) : Bytes := lbrace :: ([comma].intercalate members ++ [rbrace])

/-- Commas between the members are commas before all but the first. -/
theorem intercalate_comma_cons (m : Bytes) (ms : List Bytes) :
    [comma].intercalate (m :: ms) = m ++ ms.flatMap fun m' => comma :: m' := by
  induction ms generalizing m with
  | nil => rw [List.intercalate_singleton, List.flatMap_nil, List.append_nil]
  | cons m' ms ih =>
    rw [List.intercalate_cons_cons, ih, List.flatMap_cons, List.append_assoc,
      List.singleton_append, List.cons_append]

/-- The loop over the components of a clock. -/
theorem flatMap_range_comma (f : ℕ → Bytes) (n : ℕ) :
    ((List.range n).flatMap fun i => (if 0 < i then [comma] else []) ++ f i) =
      [comma].intercalate ((List.range n).map f) := by
  cases n with
  | zero => rfl
  | succ n =>
    rw [List.range_succ_eq_map, List.map_cons, intercalate_comma_cons, List.flatMap_cons,
      List.flatMap_map, List.map_map, List.flatMap_map]
    rfl

/-- The loop over the metadata. -/
theorem flatMap_zipIdx_comma {α : Type*} (f : α → Bytes) (l : List α) :
    (l.zipIdx.flatMap fun m => (if 0 < m.2 then [comma] else []) ++ f m.1) =
      [comma].intercalate (l.map f) := by
  cases l with
  | nil => rfl
  | cons a l =>
    have hlater : ∀ m ∈ l.zipIdx 1, (if 0 < m.2 then [comma] else []) ++ f m.1 = comma :: f m.1 := by
      intro m hm
      have hpos : 0 < m.2 := List.le_snd_of_mem_zipIdx hm
      rw [if_pos hpos, List.singleton_append]
    have hfst : (l.zipIdx 1).flatMap (fun m => comma :: f m.1) = l.flatMap fun a => comma :: f a := by
      rw [← List.flatMap_map Prod.fst (fun a => comma :: f a), List.zipIdx_map_fst]
    rw [List.zipIdx_cons, List.flatMap_cons, List.map_cons, intercalate_comma_cons,
      List.flatMap_congr hlater, hfst, List.flatMap_map]
    rfl

/-! ## Entries -/

/-- The bytes that have a short escape, and the escape. -/
def shortEscapes : List (UInt8 × Bytes) :=
  [(34, ascii "\\\""), (92, ascii "\\\\"), (10, ascii "\\n"), (9, ascii "\\t")]

/-- A byte of a string: its escape if it has one, itself if it is a printable character, and
nothing otherwise. -/
def renderedByte (c : UInt8) : Bytes :=
  (shortEscapes.lookup c).getD (if 32 ≤ c.toNat ∧ c.toNat ≤ 126 then [c] else [])

/-- The bytes of a string, completely escaped. -/
def renderedBytes (s : Bytes) : Bytes := s.flatMap renderedByte

/-- A string in quotes. -/
def stringText (s : Bytes) : Bytes := quote :: (renderedBytes s ++ [quote])

/-- The object of a clock. -/
def clockRendering (vc : VectorClock) : Bytes :=
  objectText ((List.range vc.nodeCount).map fun i =>
    memberText (stringText (ascii "node-" ++ decimal i)) (decimal (vc.slot i).toNat))

/-- The members of an entry. -/
def renderedMembers (entry : LogEntry) : List Bytes :=
  [ memberText (stringText (ascii "node_id")) (stringText entry.nodeId.bytes),
    memberText (stringText (ascii "vector_clock")) (clockRendering entry.vc),
    memberText (stringText (ascii "timestamp")) (decimal entry.timestamp.toNat),
    memberText (stringText (ascii "level")) (stringText (logLevelStr entry.level)),
    memberText (stringText (ascii "message")) (stringText entry.message.bytes) ] ++
  if entry.metadata = [] then []
  else
    [ memberText (stringText (ascii "metadata")) (objectText (entry.metadata.map fun m =>
        memberText (stringText m.key.bytes) (stringText m.value.bytes))) ]

/-- The JSON of an entry. -/
def rendering (entry : LogEntry) : Bytes := objectText (renderedMembers entry)

/-- **The escapes of the code are those of the table.** -/
theorem escapeByte_eq_renderedByte (c : UInt8) : escapeByte c = renderedByte c := by
  revert c
  decide +kernel

/-- The escape buffer holds each string of an entry completely escaped. -/
theorem jsonEscape_eq_renderedBytes {cap : ℕ} (hcap : cap ≤ logMessageMaxLen) (s : CStr cap) :
    jsonEscape s.bytes = renderedBytes s.bytes :=
  (jsonEscape_eq hcap s).trans (List.flatMap_congr fun c _ => escapeByte_eq_renderedByte c)

theorem quoted_eq_stringText (s : Bytes) : quoted s = stringText s := by
  rw [quoted, stringText, renderedBytes, List.flatMap_congr fun c _ => escapeByte_eq_renderedByte c]

/-- A string without bytes to escape stands as it is. -/
theorem stringText_of_plain {s : Bytes} (h : s.all (fun c => renderedByte c == [c]) = true) :
    stringText s = quote :: (s ++ [quote]) := by
  have hplain : ∀ c ∈ s, renderedByte c = [c] :=
    fun c hc => beq_iff_eq.mp (List.all_eq_true.mp h c hc)
  rw [stringText, renderedBytes, List.flatMap_congr hplain, List.flatMap_singleton']

theorem renderedByte_of_isdigit {c : UInt8} (hc : isdigit c = true) : renderedByte c = [c] := by
  revert c
  decide +kernel

/-- The names of the components need no escape. -/
theorem stringText_node (i : ℕ) :
    stringText (ascii "node-" ++ decimal i) = quote :: (ascii "node-" ++ decimal i ++ [quote]) := by
  refine stringText_of_plain (List.all_eq_true.mpr fun c hc => beq_iff_eq.mpr ?_)
  rcases List.mem_append.mp hc with hc | hc
  · have hnode : (ascii "node-").all (fun c => renderedByte c == [c]) = true := by decide
    exact beq_iff_eq.mp (List.all_eq_true.mp hnode c hc)
  · exact renderedByte_of_isdigit (mem_decimal hc)

/-- **The clock is written as it is rendered.** -/
theorem vcText_eq_rendering (vc : VectorClock) : vcText vc none = clockRendering vc := by
  have hmember : ∀ i, vcMember vc none i =
      memberText (stringText (ascii "node-" ++ decimal i)) (decimal (vc.slot i).toNat) := by
    intro i
    rw [stringText_node, memberText, vcMember, nodeName]
    simp
  have hitem : vcItem vc none = fun i => (if 0 < i then [comma] else []) ++
      memberText (stringText (ascii "node-" ++ decimal i)) (decimal (vc.slot i).toNat) := by
    ext1 i
    rw [vcItem, hmember]
  rw [vcText, hitem, flatMap_range_comma, clockRendering, objectText]

/-- The metadata are written as they are rendered. -/
theorem metadataText_of_ne_nil {metadata : List MetadataPair} (h : metadata ≠ []) :
    metadataText metadata = comma :: memberText (stringText (ascii "metadata"))
      (objectText (metadata.map fun m =>
        memberText (stringText m.key.bytes) (stringText m.value.bytes))) := by
  have hname : fieldName "metadata" = stringText (ascii "metadata") ++ [colon] := by decide
  have hitem : metadataItem = fun m => (if 0 < m.2 then [comma] else []) ++
      memberText (stringText m.1.key.bytes) (stringText m.1.value.bytes) := by
    ext1 m
    rw [← quoted_eq_stringText, ← quoted_eq_stringText]
    rfl
  rw [metadataText, if_pos (List.length_pos_of_ne_nil h), hname, hitem,
    flatMap_zipIdx_comma (fun m : MetadataPair =>
      memberText (stringText m.key.bytes) (stringText m.value.bytes))]
  simp [memberText, objectText]

/-- **An entry is written as it is rendered.** -/
theorem entryText_eq_rendering (entry : LogEntry) : entryText entry = rendering entry := by
  have hnames : ∀ name ∈ ["node_id", "vector_clock", "timestamp", "level", "message"],
      fieldName name = stringText (ascii name) ++ [colon] := by decide
  simp only [List.forall_mem_cons] at hnames
  obtain ⟨hnode, hclock, htime, hlevel, hmessage, -⟩ := hnames
  have hname : stringText (logLevelStr entry.level) =
      quote :: (logLevelStr entry.level ++ [quote]) := by
    refine stringText_of_plain ?_
    cases entry.level with
    | other value =>
      show (ascii "UNKNOWN").all (fun c => renderedByte c == [c]) = true
      decide
    | _ => decide
  rw [entryText, rendering, objectText, renderedMembers, List.cons_append, intercalate_comma_cons,
    hnode, hclock, htime, hlevel, hmessage, vcText_eq_rendering, quoted_eq_stringText,
    quoted_eq_stringText]
  by_cases hmeta : entry.metadata = []
  · rw [if_pos hmeta, hmeta]
    simp [memberText, metadataText, hname]
  · rw [if_neg hmeta, metadataText_of_ne_nil hmeta]
    simp [memberText, hname]

/-! ## All or nothing -/

/-- What the writers return: the number of bytes written, or `-1`. -/
def written (text : Option Bytes) : ℤ := text.elim (-1) fun text => text.length

/-- **Nothing is cut off silently.**  The entry is written whole, and the length of its rendering
is returned, exactly when that is less than the size of the buffer; otherwise `-1` is returned.
Every string of the entry fits the escape buffer whole. -/
theorem logEntryToJson_rendering (entry : LogEntry) (buflen : ℕ) :
    (logEntryToJson entry buflen = some (rendering entry) ∧
        written (logEntryToJson entry buflen) = (rendering entry).length ↔
      (rendering entry).length < buflen) ∧
    (written (logEntryToJson entry buflen) = -1 ↔ ¬ (rendering entry).length < buflen) ∧
    jsonEscape entry.nodeId.bytes = renderedBytes entry.nodeId.bytes ∧
    jsonEscape entry.message.bytes = renderedBytes entry.message.bytes ∧
    ∀ m ∈ entry.metadata, jsonEscape m.key.bytes = renderedBytes m.key.bytes ∧
      jsonEscape m.value.bytes = renderedBytes m.value.bytes := by
  have hwrite : logEntryToJson entry buflen =
      if (rendering entry).length < buflen then some (rendering entry) else none := by
    rw [logEntryToJson_eq, entryText_eq_rendering, emit, List.length_nil, Nat.zero_add,
      List.nil_append]
  have hescape {cap : ℕ} (hcap : cap ≤ logMessageMaxLen) (s : CStr cap) :=
    jsonEscape_eq_renderedBytes hcap s
  refine ⟨?_, ?_, hescape (by decide) _, hescape (by decide) _, fun m _ =>
    ⟨hescape (by decide) _, hescape (by decide) _⟩⟩
  · rw [hwrite]
    by_cases h : (rendering entry).length < buflen
    · rw [if_pos h]
      exact iff_of_true ⟨rfl, rfl⟩ h
    · rw [if_neg h]
      exact iff_of_false (fun hsome => Option.some_ne_none _ hsome.1.symm) h
  · rw [hwrite]
    by_cases h : (rendering entry).length < buflen
    · rw [if_pos h]
      refine iff_of_false (fun hret => ?_) (not_not_intro h)
      have hlen : ((rendering entry).length : ℤ) = -1 := hret
      omega
    · rw [if_neg h]
      exact iff_of_true rfl h

end LogAgg
