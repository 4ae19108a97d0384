import LogAgg.CString.Nested
import LogAgg.LogEntry.Fields

/-!
# Truncated records

Where a record may be cut so that the reader notices (`RejectedCut`): inside of a key or of a
string, that is where a quote or a colon is missing.  Everywhere else the reader takes the end
of the text for the end of the record, as there is no test for the closing brace behind the
loop of `log_entry_from_json`; `vc_from_json` has this test.
-/

namespace LogAgg

open Ascii

/-! ## Cuts -/

/-- **A cut text is finished fields and a part of the next one.** -/
theorem exists_finished_of_cut {fs : List Field} {p : Bytes} (hfs : fs ≠ [])
    (hp : p <+: fieldsText fs ++ [rbrace]) (hne : p ≠ fieldsText fs ++ [rbrace]) :
    ∃ done f more part, fs = done ++ f :: more ∧ part <+: f.text ∧ p = finished done ++ part := by
  induction fs generalizing p with
  | nil => exact absurd rfl hfs
  | cons f fs ih =>
    cases fs with
    | nil =>
      rw [fieldsText, following_nil, List.append_nil] at hp hne
      rcases List.prefix_concat_iff.mp hp with rfl | hp
      · exact absurd rfl hne
      · exact ⟨[], f, [], p, rfl, hp, rfl⟩
    | cons g fs =>
      have htext : fieldsText (f :: g :: fs) ++ [rbrace] =
          f.text ++ comma :: (fieldsText (g :: fs) ++ [rbrace]) := by
        rw [fieldsText, following_cons, fieldsText]
        simp
      rw [htext] at hp hne
      obtain ⟨x, hx⟩ := hp
      rcases List.append_eq_append_iff.mp hx with ⟨u, hu, -⟩ | ⟨u, rfl, hu⟩
      · exact ⟨[], f, g :: fs, p, rfl, ⟨u, hu.symm⟩, rfl⟩
      · cases u with
        | nil => exact ⟨[], f, g :: fs, f.text, rfl, List.prefix_rfl, by simp⟩
        | cons c u =>
          rw [List.cons_append] at hu
          obtain ⟨rfl, hrest⟩ := List.cons.inj hu
          obtain ⟨done, f', more, part, hdone, hpart, rfl⟩ :=
            ih (List.cons_ne_nil g fs) ⟨x, hrest.symm⟩ fun heq => hne (by rw [heq])
          exact ⟨f :: done, f', more, part, by rw [hdone]; rfl, hpart, by simp⟩

/-- The cuts of a record that the reader rejects. -/
inductive RejectedCut (fs : List Field) : Bytes → Prop where
  /-- Nothing is left. -/
  | empty : RejectedCut fs []
  /-- Inside of a key, or before its colon. -/
  | key {done more : List Field} {f : Field} {part : Bytes} (hfs : fs = done ++ f :: more)
      (hpart : part <+: fieldName f.name) (hnil : part ≠ []) (hne : part ≠ fieldName f.name) :
      RejectedCut fs (lbrace :: (finished done ++ part))
  /-- Before or inside of a string, but not behind the backslash of an escape. -/
  | string {done more : List Field} {f : Field} {size : ℕ} {v : Bytes}
      (hfs : fs = done ++ f :: more) (hsize : stringSize (ascii f.name) = some size)
      (hv : v <+: f.value) (hne : v ≠ f.value) (hescape : ¬ StopsInEscape size v) :
      RejectedCut fs (lbrace :: (finished done ++ (fieldName f.name ++ v)))
  /-- Inside of the metadata, when their braces close before the cut and what is left does not
  read as members, that is by the reader's own `skipValue` and `storeValue`. -/
  | metadata {done : List Field} {metadata : List MetadataPair} {v : Bytes}
      (hfs : fs = done ++ [metadataField metadata]) (hv : v <+: metadataObject metadata)
      (hleft : Unreadable (skipComma (cutNested lbrace rbrace v).2)) :
      RejectedCut fs (lbrace :: (finished done ++ (fieldName "metadata" ++ v)))

/-! ## Cuts inside of a field -/

/-- **A key without its colon is rejected.** -/
theorem logEntryMembers_cut_key {name : String} (hname : isPlainName name = true) {part : Bytes}
    (hpart : part <+: fieldName name) (hnil : part ≠ []) (hne : part ≠ fieldName name)
    (entry : LogEntry) : logEntryMembers entry part = .error .reject := by
  obtain ⟨x, hx⟩ := hpart
  have hend : ¬ AtEnd part := by
    obtain ⟨c, t, rfl⟩ := List.exists_cons_of_ne_nil hnil
    rw [fieldName, List.cons_append] at hx
    obtain ⟨rfl, -⟩ := List.cons.inj hx
    exact not_atEnd_of_spaces (w := []) (fun _ hc => absurd hc List.not_mem_nil) t
  rcases keyText_or_error entry part with ⟨key, rest, hkey⟩ | ⟨e, he, hstops⟩
  · -- the key would end before the end of the text that is cut
    have hwhole := hkey.append x
    rw [hx] at hwhole
    have hrest := (hwhole.unique (by simpa using keyText_fieldName hname [])).2
    rw [(List.append_eq_nil_iff.mp hrest).2, List.append_nil] at hx
    exact absurd hx hne
  · rw [logEntryMembers_of_error hend he]
    cases e with
    | reject => rfl
    | pastEnd =>
      obtain ⟨w, t, value, -, -, -, rfl⟩ := hstops rfl
      have hmem : backslash ∈ fieldName name := by
        rw [← hx]
        simp
      rw [isPlainName, Bool.and_eq_true, List.all_eq_true] at hname
      rw [fieldName, List.mem_cons, List.mem_append] at hmem
      rcases hmem with hmem | hmem | hmem
      · exact absurd hmem (by decide)
      · exact absurd rfl (isPlain_iff.mp (hname.2 _ hmem)).2
      · exact absurd hmem (by decide)

/-- The string of a field, to its closing quote. -/
theorem Field.Reads.stringText {f : Field} (hf : f.Reads) {size : ℕ}
    (hsize : stringSize (ascii f.name) = some size) : ∃ value, StringText size f.value value [] := by
  have hvalue := hf.value LogEntry.zero [] (by simp)
  rw [logEntryValue_eq] at hvalue
  simp only [hsize, List.append_nil] at hvalue
  obtain ⟨⟨value, rest⟩, hparse, hstore⟩ := ok_of_bind_eq_ok hvalue
  obtain ⟨-, rfl⟩ := Prod.mk.inj (Except.ok.inj hstore)
  exact ⟨value, (parseStr_eq_ok_iff (stringSize_pos hsize)).mp hparse⟩

/-- **A string without its closing quote is rejected**, unless it ends in an escape. -/
theorem logEntryMembers_cut_string {f : Field} (hf : f.Reads) {size : ℕ}
    (hsize : stringSize (ascii f.name) = some size) {v : Bytes} (hv : v <+: f.value)
    (hne : v ≠ f.value) (entry : LogEntry) :
    logEntryMembers entry (fieldName f.name ++ v) = .error .reject ↔ ¬ StopsInEscape size v := by
  have hkey := keyText_fieldName hf.isPlainName v
  have hmember : logEntryMember entry (fieldName f.name ++ v) =
      parseStr v size >>= fun p => .ok (storeString entry (ascii f.name) p.1, skipComma p.2) := by
    rw [logEntryMember_of_key hkey, logEntryValue_eq]
    simp only [hsize, parseStr_skipWhitespace, bind_assoc]
    rfl
  cases hparse : parseStr v size with
  | ok p =>
    -- the string would end before the end of the text that is cut
    obtain ⟨x, hx⟩ := hv
    obtain ⟨value, hvalue⟩ := hf.stringText hsize
    have hwhole := ((parseStr_eq_ok_iff (stringSize_pos hsize)).mp hparse).append x
    rw [hx] at hwhole
    rw [(List.append_eq_nil_iff.mp (hwhole.unique hvalue).2).2, List.append_nil] at hx
    exact absurd hx hne
  | error e =>
    have herror : logEntryMembers entry (fieldName f.name ++ v) = .error e := by
      refine logEntryMembers_of_error hkey.not_atEnd ?_
      rw [hmember, hparse]
      rfl
    rw [herror, ← parseStr_eq_pastEnd_iff, hparse]
    cases e <;> simp

/-- A cut clock is passed to the end of the text. -/
theorem snd_cutNested_of_cut {vc : VectorClock} {v : Bytes} (hv : v <+: vcText vc none) :
    (cutNested lbrace rbrace v).2 = [] := by
  cases v with
  | nil => rfl
  | cons c v =>
    rw [vcText, List.cons_prefix_cons] at hv
    obtain ⟨rfl, hv⟩ := hv
    rcases List.prefix_concat_iff.mp hv with rfl | hv
    · have hcut := cutNested_vcText vc []
      rw [vcText, List.append_nil] at hcut
      rw [hcut]
    · have hopen : depthAfter lbrace rbrace 0 (lbrace :: v) = some 1 := by
        rw [depthAfter_opening]
        exact depthAfter_of_ne one_pos fun c hc => ne_brace_of_mem_items (hv.subset hc)
      rw [cutNested, List.head?_cons, if_pos rfl, scanNested_of_depthAfter hopen]

/-- A cut number is passed to the end of the text. -/
theorem snd_parseNum_of_cut {n : ℕ} {v : Bytes} (hv : v <+: decimal n) :
    (parseNum v).2 = [] := by
  have hdigits : ∀ c ∈ v, isdigit c = true := fun c hc => mem_decimal (hv.subset hc)
  have hskip : skipWhitespace v = v := by
    cases v with
    | nil => rfl
    | cons c v => exact skipWhitespace_cons (isspace_of_isdigit (hdigits c List.mem_cons_self)) v
  have hscan : ∀ (v : Bytes) (u : UInt64), (∀ c ∈ v, isdigit c = true) → (scanDigits u v).2 = [] := by
    intro v
    induction v with
    | nil => exact fun _ _ => rfl
    | cons c v ih =>
      intro u h
      rw [List.forall_mem_cons] at h
      rw [scanDigits, if_pos h.1]
      exact ih _ h.2
  rw [parseNum, hskip]
  exact hscan v 0 hdigits

/-- **A cut value that is no string leaves nothing**, in a field other than the metadata. -/
theorem skipValue_of_cut {entry : LogEntry} {f : Field} (hf : f ∈ plainFields entry)
    (hsize : stringSize (ascii f.name) = none) {v : Bytes} (hv : v <+: f.value) :
    skipComma (skipValue (ascii f.name) (skipWhitespace v)) = [] := by
  have hstring : ∀ n ∈ ["node_id", "level", "message"], stringSize (ascii n) ≠ none := by decide
  simp only [plainFields, List.mem_cons, List.not_mem_nil, or_false] at hf
  rcases hf with rfl | rfl | rfl | rfl | rfl
  · exact absurd hsize (hstring "node_id" (by simp))
  · have hskip : skipWhitespace v = v := by
      cases v with
      | nil => rfl
      | cons c v =>
        obtain ⟨rfl, -⟩ := List.cons_prefix_cons.mp hv
        exact skipWhitespace_cons (by rfl) v
    rw [skipValue, if_pos rfl, hskip, snd_cutNested_of_cut hv]
    rfl
  · have hnum : (parseNum (skipWhitespace v)).2 = [] := by
      rw [parseNum, skipWhitespace_idem]
      exact snd_parseNum_of_cut hv
    show skipComma (skipValue (ascii "timestamp") (skipWhitespace v)) = []
    rw [skipValue, if_neg (by decide), if_pos rfl, hnum]
    rfl
  · exact absurd hsize (hstring "level" (by simp))
  · exact absurd hsize (hstring "message" (by simp))

/-! ## The whole record -/

/-- Before the last field there is no metadata. -/
theorem fields_split {entry : LogEntry} {done more : List Field} {f : Field}
    (h : entryFields entry = done ++ f :: more) :
    (∀ g ∈ done, g ∈ plainFields entry) ∧
      (f ∈ plainFields entry ∨ f = metadataField entry.metadata ∧ more = []) := by
  unfold entryFields at h
  split at h
  · rcases List.eq_nil_or_concat' more with rfl | ⟨more, g, rfl⟩
    · obtain ⟨hplain, hlast⟩ := List.append_inj' h rfl
      rw [hplain]
      exact ⟨fun g hg => hg, Or.inr ⟨(List.singleton_inj.mp hlast).symm, rfl⟩⟩
    · rw [← List.cons_append, ← List.append_assoc] at h
      rw [(List.append_inj' h rfl).1]
      exact ⟨fun g hg => List.mem_append_left _ hg, Or.inl (by simp)⟩
  · rw [List.append_nil] at h
    rw [h]
    exact ⟨fun g hg => List.mem_append_left _ hg, Or.inl (by simp)⟩

theorem skipWhitespace_of_cut {name : String} {part : Bytes} (h : part <+: fieldName name) :
    skipWhitespace part = part := by
  cases part with
  | nil => rfl
  | cons c part =>
    obtain ⟨rfl, -⟩ := List.cons_prefix_cons.mp h
    exact skipWhitespace_cons (by rfl) part

/-- The metadata are passed over by their braces. -/
theorem logEntryMembers_cut_metadata {metadata : List MetadataPair} {v : Bytes}
    (hv : v <+: metadataObject metadata) (entry : LogEntry) :
    logEntryMembers entry (fieldName "metadata" ++ v) = .error .reject ↔
      Unreadable (skipComma (cutNested lbrace rbrace v).2) := by
  have hskip : skipWhitespace v = v := by
    cases v with
    | nil => rfl
    | cons c v =>
      obtain ⟨rfl, -⟩ := List.cons_prefix_cons.mp hv
      exact skipWhitespace_cons (by rfl) v
  rw [logEntryMembers_metadata hskip, logEntryMembers_eq_reject_iff]

/-- A part of a field ends in its name or in its value. -/
theorem prefix_append_cases {p s t : Bytes} (h : p <+: s ++ t) :
    (p <+: s ∧ p ≠ s) ∨ ∃ v, p = s ++ v ∧ v <+: t := by
  obtain ⟨x, hx⟩ := h
  rcases List.append_eq_append_iff.mp hx with ⟨u, hu, -⟩ | ⟨u, hu, ht⟩
  · by_cases hne : p = s
    · exact Or.inr ⟨[], by rw [hne, List.append_nil], List.nil_prefix⟩
    · exact Or.inl ⟨⟨u, hu.symm⟩, hne⟩
  · exact Or.inr ⟨u, hu, ⟨x, ht.symm⟩⟩

theorem isPlainName_of_mem {entry : LogEntry} {f : Field}
    (hf : f ∈ plainFields entry ∨ f = metadataField entry.metadata) : isPlainName f.name = true := by
  rcases hf with hf | rfl
  · exact (reads_of_mem_plainFields hf).isPlainName
  · exact (show isPlainName "metadata" = true by decide)

/-- A cut that is rejected is one of those listed. -/
theorem rejectedCut_of_reject {entry : LogEntry} {done more : List Field} {f : Field} {part : Bytes}
    (hfs : entryFields entry = done ++ f :: more) (hpart : part <+: f.text)
    (h : logEntryFromJson (lbrace :: (finished done ++ part)) = .error .reject) :
    RejectedCut (entryFields entry) (lbrace :: (finished done ++ part)) := by
  obtain ⟨hdone, hf⟩ := fields_split hfs
  rcases prefix_append_cases hpart with ⟨hname, hne⟩ | ⟨v, rfl, hv⟩
  · by_cases hnil : part = []
    · -- behind a comma and behind the opening brace the loop just ends
      rw [logEntryFromJson_finished hdone (by rw [hnil]; rfl), hnil,
        logEntryMembers_of_atEnd (Or.inl rfl)] at h
      cases h
    · exact .key hfs hname hnil hne
  · rw [logEntryFromJson_finished hdone (skipWhitespace_fieldName_append _ v)] at h
    rcases hf with hf | ⟨rfl, rfl⟩
    · have hreads := reads_of_mem_plainFields hf
      cases hsize : stringSize (ascii f.name) with
      | some size =>
        by_cases hwhole : v = f.value
        · -- the field is complete
          have hnone : ∀ c, ([] : Bytes).head? = some c → isdigit c = false := by simp
          have hread := hreads.members (done.foldl (fun e f => f.store e) LogEntry.zero) hnone
          have hend : skipComma [] = [] := rfl
          rw [List.append_nil, Field.text, ← hwhole, hend] at hread
          rw [hread, logEntryMembers_of_atEnd (Or.inl rfl)] at h
          cases h
        · exact .string hfs hsize hv hwhole
            ((logEntryMembers_cut_string hreads hsize hv hwhole _).mp h)
      | none =>
        rw [logEntryMembers_value hreads.isPlainName hsize, skipValue_of_cut hf hsize hv,
          logEntryMembers_of_atEnd (Or.inl rfl)] at h
        cases h
    · exact .metadata hfs hv ((logEntryMembers_cut_metadata hv _).mp h)

/-- The cuts that are listed are rejected. -/
theorem RejectedCut.reject {entry : LogEntry} {p : Bytes} (h : RejectedCut (entryFields entry) p) :
    logEntryFromJson p = .error .reject := by
  cases h with
  | empty => rfl
  | key hfs hpart hnil hne =>
    obtain ⟨hdone, hf⟩ := fields_split hfs
    rw [logEntryFromJson_finished hdone (skipWhitespace_of_cut hpart)]
    exact logEntryMembers_cut_key (isPlainName_of_mem (hf.imp_right And.left)) hpart hnil hne _
  | @string done more f size v hfs hsize hv hne hescape =>
    obtain ⟨hdone, hf⟩ := fields_split hfs
    rw [logEntryFromJson_finished hdone (skipWhitespace_fieldName_append _ v)]
    rcases hf with hf | ⟨rfl, -⟩
    · exact (logEntryMembers_cut_string (reads_of_mem_plainFields hf) hsize hv hne _).mpr hescape
    · have hnone : stringSize (ascii "metadata") = none := by decide
      rw [show stringSize (ascii (metadataField entry.metadata).name) = none from hnone] at hsize
      cases hsize
  | @metadata done metadata v hfs hv hleft =>
    obtain ⟨hdone, -⟩ := fields_split hfs
    rw [logEntryFromJson_finished hdone (skipWhitespace_fieldName_append _ v)]
    exact (logEntryMembers_cut_metadata hv _).mpr hleft

/-- **Which truncated records are rejected.** -/
theorem logEntryFromJson_prefix_reject_iff {entry : LogEntry} {buflen : ℕ} {text p : Bytes}
    (h : logEntryToJson entry buflen = some text) (hp : p <+: text) (hne : p ≠ text) :
    logEntryFromJson p = .error .reject ↔ RejectedCut (entryFields entry) p := by
  refine ⟨fun hreject => ?_, RejectedCut.reject⟩
  rw [logEntryToJson_eq, emit_eq_some_iff, List.nil_append] at h
  rw [h.2, entryText_eq_fields] at hp hne
  cases p with
  | nil => exact .empty
  | cons c p =>
    obtain ⟨rfl, hcut⟩ := List.cons_prefix_cons.mp hp
    have hfields : entryFields entry ≠ [] := by simp [entryFields, plainFields]
    obtain ⟨done, f, more, part, hfs, hpart, rfl⟩ :=
      exists_finished_of_cut hfields hcut fun heq => hne (by rw [heq])
    exact rejectedCut_of_reject hfs hpart hreject

theorem prefix_entryText_lbrace (entry : LogEntry) : [lbrace] <+: entryText entry := by
  rw [entryText_eq_fields]
  exact List.prefix_append [lbrace] _

/-- A record that is cut inside of its first key is rejected. -/
theorem logEntryFromJson_prefix_reject_iff_sample :
    logEntryToJson sampleEntry 4096 = some (entryText sampleEntry) ∧
      logEntryFromJson [lbrace, quote] = .error .reject := by
  refine ⟨logEntryToJson_sampleEntry, ?_⟩
  have hcut : [lbrace, quote] <+: entryText sampleEntry := by
    rw [entryText_eq_fields]
    exact List.prefix_append [lbrace, quote] _
  have hne : [lbrace, quote] ≠ entryText sampleEntry := by
    intro h
    have hlen := congrArg List.length h
    rw [entryText_eq_fields] at hlen
    simp [entryFields, plainFields, fieldsText, Field.text, fieldName] at hlen
  refine (logEntryFromJson_prefix_reject_iff logEntryToJson_sampleEntry hcut hne).mpr ?_
  exact @RejectedCut.key _ [] _ _ [quote] rfl (List.prefix_append [quote] _) (by simp) (by decide)

/-- A record that is cut behind its opening brace is accepted. -/
theorem logEntryFromJson_lbrace :
    logEntryToJson sampleEntry 4096 = some (entryText sampleEntry) ∧
      [lbrace] <+: entryText sampleEntry ∧ [lbrace] ≠ entryText sampleEntry ∧
      logEntryFromJson [lbrace] = .ok LogEntry.zero := by
  refine ⟨logEntryToJson_sampleEntry, prefix_entryText_lbrace sampleEntry, ?_, ?_⟩
  · intro h
    have hlen := congrArg List.length h
    rw [entryText_eq_fields] at hlen
    simp at hlen
  · decide +kernel

end LogAgg
