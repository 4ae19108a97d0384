import LogAgg.Json.Brackets
import LogAgg.LogEntry.Fields
import LogAgg.VectorClock.Meaning

/-!
# Members with unknown names

What becomes of a record when a member that the reader does not know is put between two of its
fields (`insertMember`).

The reader passes over the value by what it starts with.

* A number or a literal ends at the next comma or brace, and there is none in it.
* An object or an array ends where its brackets, counted in its strings too, are first balanced.
* Of a string only the opening quote is passed, since the scan for the closing quote starts at
  the opening one.

So the member leaves the other fields alone when its brackets are balanced at its end and not
before (`LandsBehind`), and otherwise only if what the reader goes on with happens to read as the
same entry.
-/

namespace LogAgg

open Ascii

/-! ## The extra member -/

/-- The names that the reader knows. -/
def knownNames : List String :=
  ["node_id", "vector_clock", "timestamp", "level", "message", "metadata"]

/-- A member with a name that the reader does not know, and any value of JSON. -/
structure ExtraMember where
  key : Bytes
  before : Bytes
  after : Bytes
  value : Bytes
  plain_of_mem : ∀ c ∈ key, 32 ≤ c ∧ c ≠ quote ∧ c ≠ backslash
  length_key_lt : key.length < 64
  key_unknown : ∀ n ∈ knownNames, key ≠ ascii n
  blank_before : Json.Blank before
  blank_after : Json.Blank after
  isValue : Json.Value value

/-- The text of the member. -/
def ExtraMember.text (m : ExtraMember) : Bytes :=
  quote :: (m.key ++ quote :: (m.before ++ colon :: (m.after ++ m.value)))

/-- The fields from the `i`-th on, and the closing brace. -/
def fieldsFrom (entry : LogEntry) (i : ℕ) : Bytes :=
  fieldsText ((plainFields entry).drop i) ++ [rbrace]

/-- The record with an extra member before its `i`-th field. -/
def insertMember (entry : LogEntry) (i : ℕ) (m : ExtraMember) : Bytes :=
  lbrace :: (finished ((plainFields entry).take i) ++ (m.text ++ comma :: fieldsFrom entry i))

/-- What is read before the `i`-th field. -/
def readUpTo (entry : LogEntry) (i : ℕ) : LogEntry :=
  ((plainFields entry).take i).foldl (fun e f => f.store e) LogEntry.zero

section

variable {entry : LogEntry} {i : ℕ}

/-- Before the `i`-th field stands a comma, or nothing if it is the first. -/
theorem entryText_eq_fieldsFrom (hmeta : entry.metadata = [])
    (hi : i < (plainFields entry).length) :
    entryText entry = lbrace :: (finished ((plainFields entry).take i) ++ fieldsFrom entry i) := by
  have hfields : entryFields entry = plainFields entry := by
    rw [entryFields, hmeta]
    exact List.append_nil _
  rw [entryText_eq_fields, hfields, fieldsFrom]
  conv_lhs => rw [← List.take_append_drop i (plainFields entry)]
  rw [List.drop_eq_getElem_cons hi, fieldsText_append_cons, List.append_assoc, fieldsText]

/-- The fields that are left start with a name. -/
theorem exists_fieldsFrom (hi : i < (plainFields entry).length) :
    ∃ c t rest, fieldsFrom entry i = quote :: c :: (t ++ quote :: rest) ∧
      (∀ d ∈ c :: t, d ≠ quote ∧ d ≠ backslash) ∧ isspace c = false ∧ c ≠ colon := by
  have hname : ∀ n ∈ ["node_id", "vector_clock", "timestamp", "level", "message"],
      (ascii n).all isPlain = true ∧
        (ascii n).head?.all (fun c => !isspace c && c != colon) = true ∧ ascii n ≠ [] := by decide
  have hmem : (plainFields entry)[i].name ∈
      ["node_id", "vector_clock", "timestamp", "level", "message"] :=
    List.mem_map_of_mem (f := Field.name) (List.getElem_mem hi)
  obtain ⟨hplain, hhead, hne⟩ := hname _ hmem
  obtain ⟨c, t, hct⟩ := List.exists_cons_of_ne_nil hne
  rw [hct, List.head?_cons, Option.all_some, Bool.and_eq_true, Bool.not_eq_true', bne_iff_ne] at hhead
  refine ⟨c, t, colon :: ((plainFields entry)[i].value ++
    (following ((plainFields entry).drop (i + 1)) ++ [rbrace])), ?_, ?_, hhead⟩
  · rw [fieldsFrom, List.drop_eq_getElem_cons hi, fieldsText, Field.text, fieldName, hct]
    simp
  · intro d hd
    rw [← hct] at hd
    exact isPlain_iff.mp (List.all_eq_true.mp hplain d hd)

/-- **The fields that are left are read one after the other.** -/
theorem logEntryMembers_fieldsText {fs : List Field} (h : ∀ f ∈ fs, f.Reads) (e : LogEntry) :
    logEntryMembers e (fieldsText fs ++ [rbrace]) = .ok (fs.foldl (fun e f => f.store e) e) := by
  rcases List.eq_nil_or_concat fs with rfl | ⟨fs, f, rfl⟩
  · exact logEntryMembers_of_atEnd (Or.inr rfl) e
  · have hf : f.Reads := h f (by simp)
    have hskip : skipWhitespace (f.text ++ [rbrace]) = f.text ++ [rbrace] := skipWhitespace_text f _
    have hbrace : ∀ c, ([rbrace] : Bytes).head? = some c → isdigit c = false := by
      intro c hc
      obtain rfl := Option.some.inj hc
      decide
    rw [List.concat_eq_append, fieldsText_append_cons, following_nil, List.append_nil,
      List.append_assoc, logEntryMembers_finished (fun g hg => h g (by simp [hg])) e hskip,
      hf.members _ hbrace, List.foldl_append]
    exact logEntryMembers_of_atEnd (Or.inr rfl) _

/-- Reading on from where the member stood. -/
theorem logEntryMembers_fieldsFrom :
    logEntryMembers (readUpTo entry i) (fieldsFrom entry i) = .ok (received entry) := by
  rw [fieldsFrom, logEntryMembers_fieldsText
    (fun f hf => reads_of_mem_plainFields (List.mem_of_mem_drop hf)), readUpTo, ← List.foldl_append,
    List.take_append_drop, received_eq_foldl]

/-! ## What the reader does with the member -/

theorem stringSize_of_unknown {key : Bytes} (h : ∀ n ∈ knownNames, key ≠ ascii n) :
    stringSize key = none := by
  rw [stringSize, if_neg (h "node_id" (by simp [knownNames])),
    if_neg (h "level" (by simp [knownNames])), if_neg (h "message" (by simp [knownNames]))]

theorem skipValue_of_unknown {key : Bytes} (h : ∀ n ∈ knownNames, key ≠ ascii n) (s : Bytes) :
    skipValue key s = skipUnknown s := by
  rw [skipValue, if_neg (h "vector_clock" (by simp [knownNames])),
    if_neg (h "timestamp" (by simp [knownNames])), if_neg (h "metadata" (by simp [knownNames]))]

theorem storeValue_of_unknown {key : Bytes} (h : ∀ n ∈ knownNames, key ≠ ascii n) (e : LogEntry)
    (s : Bytes) : storeValue e key s = e := by
  rw [storeValue, if_neg (h "vector_clock" (by simp [knownNames])),
    if_neg (h "timestamp" (by simp [knownNames]))]

theorem ExtraMember.keyText (m : ExtraMember) (rest : Bytes) :
    KeyText (m.text ++ rest) m.key (m.after ++ (m.value ++ rest)) := by
  refine ⟨m.before, spaces_of_blank m.blank_before, (parseStr_eq_ok_iff (by decide)).mp ?_⟩
  have htext : m.text ++ rest =
      quote :: (m.key ++ quote :: (m.before ++ colon :: (m.after ++ (m.value ++ rest)))) := by
    simp [ExtraMember.text]
  rw [htext, parseStr, skipWhitespace_cons (by rfl), expect_self]
  exact scanQuoted_plain strUnescape .pastEnd (Nat.le_pred_of_lt m.length_key_lt)
    (fun c hc => (m.plain_of_mem c hc).2) _

/-- **The turn for the extra member** stores nothing; it only moves the cursor. -/
theorem logEntryMembers_text (m : ExtraMember) (e : LogEntry) (rest : Bytes) :
    logEntryMembers e (m.text ++ rest) =
      logEntryMembers e (skipComma (skipUnknown (m.value ++ rest))) := by
  have hkey := m.keyText rest
  have hskip : skipWhitespace (m.after ++ (m.value ++ rest)) = m.value ++ rest := by
    obtain ⟨c, t, hvalue, hc⟩ := m.isValue.exists_cons
    rw [hvalue]
    exact skipWhitespace_append_cons (spaces_of_blank m.blank_after) hc _
  have hturn := (MemberText.value hkey (stringSize_of_unknown m.key_unknown)).ok e
  rw [logEntryMembers_of_ok hkey.not_atEnd hturn, hskip, skipValue_of_unknown m.key_unknown,
    storeValue_of_unknown m.key_unknown]

theorem logEntryFromJson_insertMember (m : ExtraMember) :
    logEntryFromJson (insertMember entry i m) =
      logEntryMembers (readUpTo entry i)
        (skipComma (skipUnknown (m.value ++ comma :: fieldsFrom entry i))) := by
  have hskip : skipWhitespace (m.text ++ comma :: fieldsFrom entry i) =
      m.text ++ comma :: fieldsFrom entry i := skipWhitespace_cons (by rfl) _
  rw [insertMember, logEntryFromJson_finished (fun g hg => List.mem_of_mem_take hg) hskip]
  exact logEntryMembers_text m (readUpTo entry i) _

end

/-! ## What is passed over -/

theorem skipUnknown_quote (s : Bytes) : skipUnknown (quote :: s) = s := by
  rw [skipUnknown, List.head?_cons, if_pos rfl, List.dropWhile_cons_of_neg (by simp), List.tail_cons]

theorem skipUnknown_of_brackets {opening closing : UInt8} (hb : Json.Brackets opening closing)
    {s : Bytes} (hs : s.head? = some opening) :
    skipUnknown s = (scanNested opening closing 0 s).2 := by
  rw [skipUnknown, hs]
  cases hb <;> rfl

/-- A scalar ends at the comma behind it. -/
theorem skipUnknown_of_scalar {v : Bytes} (hne : v ≠ [])
    (h : ∀ c ∈ v, Json.isScalarByte c = true) (rest : Bytes) :
    skipUnknown (v ++ comma :: rest) = comma :: rest := by
  have hbyte : ∀ c ∈ v, c ∉ [quote, lbrace, lbracket, comma, rbrace] := by
    intro c hc hmem
    have hscalar := h c hc
    simp only [List.mem_cons, List.not_mem_nil, or_false] at hmem
    rcases hmem with rfl | rfl | rfl | rfl | rfl <;> exact absurd hscalar (by decide)
  obtain ⟨c, t, rfl⟩ := List.exists_cons_of_ne_nil hne
  have hc := hbyte c List.mem_cons_self
  simp only [List.mem_cons, List.not_mem_nil, or_false, not_or] at hc
  rw [skipUnknown, List.cons_append, List.head?_cons, if_neg (by simp [hc]), if_neg (by simp [hc]),
    if_neg (by simp [hc]), ← List.cons_append, List.dropWhile_append_of_pos,
    List.dropWhile_cons_of_neg (by simp)]
  intro d hd
  have hd' := hbyte d hd
  simp only [List.mem_cons, List.not_mem_nil, or_false, not_or] at hd'
  simp [hd']

/-- The scan for the end of the value ends right behind it: the value is no string, and the
brackets of an object or an array, counted in its strings too, are balanced for the first time at
its end. -/
def LandsBehind (v : Bytes) : Prop :=
  v.head? ≠ some quote ∧
    ∀ opening closing, Json.Brackets opening closing → v.head? = some opening →
      BalancedAtEnd opening closing v

/-- **Where the scan lands.** -/
theorem skipUnknown_eq_iff {v : Bytes} (h : Json.Value v) (rest : Bytes) :
    skipUnknown (v ++ comma :: rest) = comma :: rest ↔ LandsBehind v := by
  have hbrackets : ∀ {opening closing : UInt8}, Json.Brackets opening closing →
      v.head? = some opening →
      (skipUnknown (v ++ comma :: rest) = comma :: rest ↔ LandsBehind v) := by
    intro opening closing hb hv
    have hhead : (v ++ comma :: rest).head? = some opening := by
      rw [List.head?_append, hv, Option.some_or]
    have hquote : v.head? ≠ some quote := by
      rw [hv]
      exact fun h => hb.ne_quote (Option.some.inj h)
    rw [skipUnknown_of_brackets hb hhead, scanNested_append_snd_eq_iff hb.ne hv (by simp)]
    constructor
    · intro hend
      refine ⟨hquote, fun o c hb' hv' => ?_⟩
      obtain rfl := Option.some.inj (hv.symm.trans hv')
      rwa [← hb.unique hb']
    · exact fun hlands => hlands.2 _ _ hb hv
  rcases h.kinds with ⟨items, rfl⟩ | hbrace | hbracket | ⟨hne, hscalar⟩
  · rw [Json.stringText, List.cons_append, skipUnknown_quote]
    constructor
    · intro heq
      have hlen := congrArg List.length heq
      rw [List.length_append, List.length_append, List.length_singleton] at hlen
      omega
    · exact fun hlands => absurd rfl hlands.1
  · exact hbrackets .braces hbrace
  · exact hbrackets .brackets hbracket
  · refine iff_of_true (skipUnknown_of_scalar hne hscalar rest) ⟨?_, ?_⟩
    · intro hv
      exact absurd (hscalar _ (List.mem_of_head? hv)) (by decide)
    · exact fun o c hb hv => absurd (hscalar _ (List.mem_of_head? hv)) hb.not_isScalarByte

/-- Brackets outside of strings are counted as they should be: an object or an array is passed
over as long as no string in it has a bracket of its kind. -/
theorem landsBehind_of_valueOver {v : Bytes} (hstring : v.head? ≠ some quote)
    (h : ∀ opening closing, Json.Brackets opening closing → v.head? = some opening →
      Json.ValueOver (Json.Free opening closing) v) : LandsBehind v :=
  ⟨hstring, fun opening closing hb hv => (h opening closing hb hv).balancedAtEnd hb hv⟩

/-! ## Behind the opening quote of a string -/

theorem skipWhitespace_items (items : List Json.Item) (rest : Bytes) :
    ∃ items' : List Json.Item, skipWhitespace (items.flatMap Json.Item.text ++ quote :: rest) =
      items'.flatMap Json.Item.text ++ quote :: rest := by
  induction items with
  | nil => exact ⟨[], skipWhitespace_cons (by rfl) rest⟩
  | cons item items ih =>
    have hstays : ∀ c t, item.text = c :: t → isspace c = false →
        skipWhitespace ((item :: items).flatMap Json.Item.text ++ quote :: rest) =
          (item :: items).flatMap Json.Item.text ++ quote :: rest := by
      intro c t hitem hc
      rw [List.flatMap_cons, hitem]
      exact skipWhitespace_cons hc _
    cases item with
    | plain c hc =>
      cases hspace : isspace c with
      | true =>
        obtain ⟨items', hitems⟩ := ih
        refine ⟨items', ?_⟩
        rw [← hitems]
        exact List.dropWhile_cons_of_pos hspace
      | false => exact ⟨_, hstays c [] rfl hspace⟩
    | escape d hd => exact ⟨_, hstays backslash [d] rfl rfl⟩
    | unicode h => exact ⟨_, hstays backslash _ rfl rfl⟩

/-- Blanks and a comma at the start of a string are items of it. -/
theorem skipComma_items (items : List Json.Item) (rest : Bytes) :
    ∃ items' : List Json.Item, skipComma (items.flatMap Json.Item.text ++ quote :: rest) =
      items'.flatMap Json.Item.text ++ quote :: rest := by
  obtain ⟨items', hskip⟩ := skipWhitespace_items items rest
  rw [skipComma, hskip]
  cases items' with
  | nil => exact ⟨[], if_neg (by decide)⟩
  | cons item items' =>
    cases item with
    | plain c hc =>
      by_cases hcomma : c = comma
      · obtain ⟨items'', hnext⟩ := skipWhitespace_items items' rest
        refine ⟨items'', ?_⟩
        rw [← hnext]
        exact if_pos hcomma
      · exact ⟨.plain c hc :: items', if_neg hcomma⟩
    | escape d hd => exact ⟨.escape d hd :: items', if_neg (by decide)⟩
    | unicode h => exact ⟨.unicode h :: items', if_neg (by decide)⟩

/-- A quote is next only if it is the closing one. -/
theorem eq_nil_of_head_quote {items : List Json.Item} {rest : Bytes}
    (h : (items.flatMap Json.Item.text ++ quote :: rest).head? = some quote) : items = [] := by
  cases items with
  | nil => rfl
  | cons item items =>
    cases item with
    | plain c hc => exact absurd (Option.some.inj h) hc.2.1
    | escape d hd => exact absurd (Option.some.inj h) (by decide)
    | unicode hex => exact absurd (Option.some.inj h) (by decide)

/-- From the closing quote of the string, a comma in quotes is read as a key. -/
theorem not_keyText_comma {c : UInt8} {t rest key s : Bytes} (hc : isspace c = false)
    (hne : c ≠ colon) : ¬ KeyText (quote :: comma :: quote :: c :: (t ++ rest)) key s := by
  rintro ⟨w, hw, hstring⟩
  have hcomma : StringText 64 (quote :: comma :: quote :: c :: (t ++ rest)) [comma]
      (c :: (t ++ rest)) :=
    ⟨[], [comma], fun _ hd => absurd hd List.not_mem_nil, .plain (by decide) (by decide) .nil,
      by decide, rfl⟩
  obtain ⟨-, hrest⟩ := hstring.unique hcomma
  cases w with
  | nil => exact hne (List.cons.inj hrest).1.symm
  | cons d w =>
    have hd := hw d List.mem_cons_self
    rw [(List.cons.inj hrest).1, hc] at hd
    cases hd

/-- The content of a string starts, behind blanks and at most one comma, with a closing brace. -/
def ClosesAtOnce (v : Bytes) : Prop :=
  ∃ sep t, Separator sep ∧ v = quote :: (sep ++ rbrace :: t)

theorem closesAtOnce_iff (items : List Json.Item) (rest : Bytes) :
    ClosesAtOnce (Json.stringText items) ↔
      AtEnd (skipComma (items.flatMap Json.Item.text ++ quote :: rest)) := by
  constructor
  · rintro ⟨sep, t, hsep, heq⟩
    have hbody : items.flatMap Json.Item.text ++ [quote] = sep ++ rbrace :: t := (List.cons.inj heq).2
    have hskip : skipComma (items.flatMap Json.Item.text ++ quote :: rest) = rbrace :: (t ++ rest) := by
      rw [← List.singleton_append, ← List.append_assoc, hbody, List.append_assoc, List.cons_append]
      exact skipComma_append_cons hsep (by rfl) (by decide) _
    rw [hskip]
    exact Or.inr rfl
  · intro h
    have hbrace : (skipComma (items.flatMap Json.Item.text ++ quote :: rest)).head? = some rbrace := by
      rcases h with h | h
      · obtain ⟨items', hitems⟩ := skipComma_items items rest
        rw [hitems] at h
        simp at h
      · exact h
    obtain ⟨u, hu⟩ := List.head?_eq_some_iff.mp hbrace
    obtain ⟨sep, hsep, hs⟩ := exists_skipComma (items.flatMap Json.Item.text ++ quote :: rest)
    rw [hu] at hs
    have hquote : quote ∉ sep := by
      intro hmem
      rcases hsep.isspace_or_eq_comma hmem with hspace | hcomma
      · exact absurd hspace (by decide)
      · exact absurd hcomma (by decide)
    rcases List.append_eq_append_iff.mp hs with ⟨a, hsepEq, ha⟩ | ⟨b, hbody, hb⟩
    · exfalso
      cases a with
      | nil => exact absurd (List.cons.inj ha).1 (by decide)
      | cons d a =>
        obtain rfl := (List.cons.inj ha).1
        exact hquote (by rw [hsepEq]; simp)
    · cases b with
      | nil => exact absurd (List.cons.inj hb).1 (by decide)
      | cons d b =>
        obtain rfl := (List.cons.inj hb).1
        exact ⟨sep, b ++ [quote], hsep, by rw [Json.stringText, hbody]; simp⟩

section

variable {entry : LogEntry} {i : ℕ}

/-- **A string makes the record unreadable**, unless its content closes the record. -/
theorem membersText_items_iff (hi : i < (plainFields entry).length) (items : List Json.Item)
    (store : LogEntry → LogEntry) :
    MembersText (skipComma (items.flatMap Json.Item.text ++ quote :: comma :: fieldsFrom entry i))
        store ↔ ClosesAtOnce (Json.stringText items) ∧ store = id := by
  rw [closesAtOnce_iff items (comma :: fieldsFrom entry i)]
  constructor
  · intro h
    generalize hland : skipComma (items.flatMap Json.Item.text ++ quote :: comma ::
      fieldsFrom entry i) = s at h
    cases h with
    | done hend => exact ⟨hend, rfl⟩
    | next hmember _ =>
      exfalso
      have hhead := hmember.head_quote fun c t hct => isspace_of_skipComma (hland.trans hct)
      obtain ⟨items', hitems⟩ := skipComma_items items (comma :: fieldsFrom entry i)
      rw [hland] at hitems
      rw [hitems] at hhead
      rw [eq_nil_of_head_quote hhead, List.flatMap_nil, List.nil_append] at hitems
      obtain ⟨c, t, rest, hfrom, -, hc, hne⟩ := exists_fieldsFrom hi
      rw [hfrom] at hitems
      rw [hitems] at hmember
      cases hmember with
      | string hkey => exact not_keyText_comma hc hne hkey
      | value hkey => exact not_keyText_comma hc hne hkey
  · rintro ⟨hend, rfl⟩
    exact .done hend

/-! ## When the member leaves the entry alone -/

/-- An object or an array whose end is found elsewhere, and by luck what is behind it reads as
the entry that was sent, by the members of the reader itself (`MembersText`, which its `skipValue`
and `storeValue` make up). -/
def Resumes (entry : LogEntry) (i : ℕ) (v : Bytes) : Prop :=
  ∃ opening closing rest store, Json.Brackets opening closing ∧ v.head? = some opening ∧
    BehindBrackets opening closing (v ++ comma :: fieldsFrom entry i) rest ∧
    MembersText (skipComma rest) store ∧ store (readUpTo entry i) = received entry

theorem skipWhitespace_fieldsFrom (hi : i < (plainFields entry).length) :
    skipWhitespace (fieldsFrom entry i) = fieldsFrom entry i := by
  obtain ⟨c, t, rest, hfrom, -⟩ := exists_fieldsFrom hi
  rw [hfrom]
  exact skipWhitespace_cons (by rfl) _

theorem skipComma_fieldsFrom (hi : i < (plainFields entry).length) :
    skipComma (comma :: fieldsFrom entry i) = fieldsFrom entry i := by
  have hcomma := skipComma_append_comma (fun _ hc => absurd hc List.not_mem_nil) (fieldsFrom entry i)
  exact hcomma.trans (skipWhitespace_fieldsFrom hi)

/-- A scan that ends right behind the value gives the entry. -/
theorem logEntryFromJson_of_landsBehind (hi : i < (plainFields entry).length) {m : ExtraMember}
    (h : LandsBehind m.value) :
    logEntryFromJson (insertMember entry i m) = .ok (received entry) := by
  rw [logEntryFromJson_insertMember, (skipUnknown_eq_iff m.isValue _).mpr h,
    skipComma_fieldsFrom hi, logEntryMembers_fieldsFrom]

/-- A string. -/
theorem logEntryFromJson_string_iff (hi : i < (plainFields entry).length) {m : ExtraMember}
    {items : List Json.Item} (hitems : m.value = Json.stringText items) :
    logEntryFromJson (insertMember entry i m) = .ok (received entry) ↔
      ClosesAtOnce m.value ∧ readUpTo entry i = received entry := by
  have hskip : skipUnknown (m.value ++ comma :: fieldsFrom entry i) =
      items.flatMap Json.Item.text ++ quote :: comma :: fieldsFrom entry i := by
    rw [hitems, Json.stringText, List.cons_append, skipUnknown_quote, List.append_assoc,
      List.singleton_append]
  rw [logEntryFromJson_insertMember, hskip, logEntryMembers_eq_ok_iff, hitems]
  constructor
  · rintro ⟨store, hstore, heq⟩
    obtain ⟨hcloses, rfl⟩ := (membersText_items_iff hi items store).mp hstore
    exact ⟨hcloses, heq.symm⟩
  · rintro ⟨hcloses, heq⟩
    exact ⟨id, (membersText_items_iff hi items id).mpr ⟨hcloses, rfl⟩, heq.symm⟩

/-- An object or an array. -/
theorem logEntryFromJson_brackets_iff {opening closing : UInt8}
    (hb : Json.Brackets opening closing) {m : ExtraMember} (hv : m.value.head? = some opening) :
    logEntryFromJson (insertMember entry i m) = .ok (received entry) ↔
      Resumes entry i m.value := by
  have hhead : (m.value ++ comma :: fieldsFrom entry i).head? = some opening := by
    rw [List.head?_append, hv, Option.some_or]
  rw [logEntryFromJson_insertMember, skipUnknown_of_brackets hb hhead, logEntryMembers_eq_ok_iff]
  constructor
  · rintro ⟨store, hstore, heq⟩
    exact ⟨opening, closing, _, store, hb, hv, (scanNested_snd_eq_iff hb.ne hhead).mp rfl, hstore,
      heq.symm⟩
  · rintro ⟨o, c, rest, store, hb', hv', hrest, hstore, heq⟩
    obtain rfl := Option.some.inj (hv.symm.trans hv')
    obtain rfl := hb.unique hb'
    rw [(scanNested_snd_eq_iff hb.ne hhead).mpr hrest]
    exact ⟨store, hstore, heq.symm⟩

theorem logEntryFromJson_insertMember_iff (hi : i < (plainFields entry).length) (m : ExtraMember) :
    logEntryFromJson (insertMember entry i m) = .ok (received entry) ↔
      LandsBehind m.value ∨
        ClosesAtOnce m.value ∧ readUpTo entry i = received entry ∨ Resumes entry i m.value := by
  have hnot : ∀ {opening closing : UInt8}, Json.Brackets opening closing →
      m.value.head? = some opening → m.value.head? ≠ some quote := fun hb hv hquote =>
    hb.ne_quote (Option.some.inj (hv.symm.trans hquote))
  have hbrackets : ∀ {opening closing : UInt8}, Json.Brackets opening closing →
      m.value.head? = some opening →
      (logEntryFromJson (insertMember entry i m) = .ok (received entry) ↔
        LandsBehind m.value ∨
          ClosesAtOnce m.value ∧ readUpTo entry i = received entry ∨ Resumes entry i m.value) := by
    intro opening closing hb hv
    constructor
    · exact fun h => Or.inr (Or.inr ((logEntryFromJson_brackets_iff hb hv).mp h))
    · rintro (h | ⟨⟨sep, t, -, heq⟩, -⟩ | h)
      · exact logEntryFromJson_of_landsBehind hi h
      · exact absurd (by rw [heq]; rfl) (hnot hb hv)
      · exact (logEntryFromJson_brackets_iff hb hv).mpr h
  rcases m.isValue.kinds with ⟨items, hitems⟩ | hbrace | hbracket | ⟨hne, hscalar⟩
  · have hquote : m.value.head? = some quote := by rw [hitems]; rfl
    rw [logEntryFromJson_string_iff hi hitems]
    constructor
    · exact fun h => Or.inr (Or.inl h)
    · rintro (h | h | ⟨o, c, rest, store, hb, hv, -⟩)
      · exact absurd hquote h.1
      · exact h
      · exact absurd hquote (hnot hb hv)
  · exact hbrackets .braces hbrace
  · exact hbrackets .brackets hbracket
  · have h : LandsBehind m.value :=
      (skipUnknown_eq_iff m.isValue []).mp (skipUnknown_of_scalar hne hscalar [])
    exact iff_of_true (logEntryFromJson_of_landsBehind hi h) (Or.inl h)

/-- **Which members with unknown names leave the entry alone.** -/
theorem unknown_member_iff (hmeta : entry.metadata = []) {buflen : ℕ} {text : Bytes}
    (h : logEntryToJson entry buflen = some text) (hi : i < (plainFields entry).length)
    (m : ExtraMember) :
    (∃ parsed, logEntryFromJson (insertMember entry i m) = .ok parsed ∧
      logEntryFromJson text = .ok parsed) ↔
      LandsBehind m.value ∨
        ClosesAtOnce m.value ∧ readUpTo entry i = received entry ∨ Resumes entry i m.value := by
  have htext : logEntryFromJson text = .ok (received entry) := by
    rw [logEntryToJson_eq, emit_eq_some_iff, List.nil_append, entryText_eq_fieldsFrom hmeta hi] at h
    rw [h.2, logEntryFromJson_finished (fun g hg => List.mem_of_mem_take hg)
      (skipWhitespace_fieldsFrom hi)]
    exact logEntryMembers_fieldsFrom
  rw [htext, ← logEntryFromJson_insertMember_iff hi m]
  constructor
  · rintro ⟨parsed, hparsed, hread⟩
    rw [hparsed, hread]
  · exact fun hread => ⟨received entry, hread, rfl⟩

/-- A member with the key `k`. -/
def sampleExtra {value : Bytes} (h : Json.Value value) : ExtraMember where
  key := ascii "k"
  before := []
  after := []
  value := value
  plain_of_mem := fun c hc => by
    rw [List.mem_singleton.mp (show c ∈ [107] from hc)]
    decide
  length_key_lt := by decide
  key_unknown := by decide
  blank_before := Json.blank_nil
  blank_after := Json.blank_nil
  isValue := h

/-- The array `[null]`. -/
def nullArray : Bytes := lbracket :: ([] ++ (ascii "null" ++ []) ++ [rbracket])

theorem valueOver_nullArray (P : List Json.Item → Prop) : Json.ValueOver P nullArray :=
  .array (.elements (.last Json.blank_nil Json.blank_nil)) fun t ht => by
    rw [List.mem_singleton.mp ht]
    exact .null

theorem unknown_member_iff_sample :
    ∃ parsed,
      logEntryFromJson (insertMember sampleEntry 2
        (sampleExtra (valueOver_nullArray fun _ => True).value)) = .ok parsed ∧
      logEntryFromJson (entryText sampleEntry) = .ok parsed :=
  (unknown_member_iff rfl logEntryToJson_sampleEntry (by decide) _).mpr
    (Or.inl (landsBehind_of_valueOver (by decide) fun _ _ _ _ => valueOver_nullArray _))

/-- The string `"v"`: the record is rejected. -/
theorem logEntryFromJson_extra_string :
    logEntryToJson sampleEntry 4096 = some (entryText sampleEntry) ∧
      logEntryFromJson (entryText sampleEntry) = .ok (received sampleEntry) ∧
      logEntryFromJson (insertMember sampleEntry 2
        (sampleExtra (.string [.plain 118 (by decide)]))) = .error .reject :=
  ⟨logEntryToJson_sampleEntry, logEntryFromJson_entryText rfl, by decide +kernel⟩

end

end LogAgg
