import LogAgg.CString.Quoted
import LogAgg.Loop.Trail
import LogAgg.LogEntry.Json

/-!
# The reader member by member

`log_entry_from_json` as a loop in the sense of `Loop.Trail`: a state is the entry so far and
the text ahead, a pass reads one member.

The values are of two kinds.  Three fields are strings, read into an array of a fixed size
(`stringSize`); every other value is passed over by a scanner that cannot fail (`skipValue`).
So a turn fails in a string or at a missing colon and nowhere else (`logEntryValue_eq`).
-/

namespace LogAgg

open Ascii

/-! ## The loop -/

/-- One turn of the loop, if there is one and it does not fail. -/
def logEntryPass (p : LogEntry × Bytes) : Option (LogEntry × Bytes) :=
  match p.2 with
  | [] => none
  | c :: s => if c = rbrace then none else (logEntryMember p.1 (c :: s)).toOption

/-- The test of the loop fails. -/
def AtEnd (s : Bytes) : Prop := s = [] ∨ s.head? = some rbrace

theorem logEntryPass_of_not_atEnd {p : LogEntry × Bytes} (h : ¬ AtEnd p.2) :
    logEntryPass p = (logEntryMember p.1 p.2).toOption := by
  obtain ⟨entry, s⟩ := p
  cases s with
  | nil => exact absurd (Or.inl rfl) h
  | cons c s =>
    have hc : c ≠ rbrace := by
      rintro rfl
      exact h (Or.inr rfl)
    rw [logEntryPass]
    exact if_neg hc

theorem logEntryPass_of_atEnd {p : LogEntry × Bytes} (h : AtEnd p.2) : logEntryPass p = none := by
  obtain ⟨entry, s⟩ := p
  rcases h with rfl | h
  · rfl
  · obtain ⟨t, rfl⟩ := List.head?_eq_some_iff.mp h
    rfl

theorem logEntryPass_eq_some_iff {p q : LogEntry × Bytes} :
    logEntryPass p = some q ↔ ¬ AtEnd p.2 ∧ logEntryMember p.1 p.2 = .ok q := by
  by_cases h : AtEnd p.2
  · rw [logEntryPass_of_atEnd h]
    simp [h]
  · rw [logEntryPass_of_not_atEnd h]
    cases logEntryMember p.1 p.2 with
    | error e => simp [Except.toOption]
    | ok r => simp [Except.toOption, h]

/-- **Every turn shortens the text ahead.** -/
theorem lowers_logEntryPass : Loop.Lowers logEntryPass fun p => p.2.length := by
  intro p q h
  obtain ⟨-, hmember⟩ := logEntryPass_eq_some_iff.mp h
  obtain ⟨entry', rest⟩ := q
  exact length_logEntryMember hmember

theorem logEntryMembers_of_atEnd {s : Bytes} (h : AtEnd s) (entry : LogEntry) :
    logEntryMembers entry s = .ok entry := by
  rcases h with rfl | h
  · rw [logEntryMembers]
  · obtain ⟨t, rfl⟩ := List.head?_eq_some_iff.mp h
    rw [logEntryMembers, if_pos rfl]

/-- The loop is its first turn and the loop behind it. -/
theorem logEntryMembers_eq_bind {s : Bytes} (h : ¬ AtEnd s) (entry : LogEntry) :
    logEntryMembers entry s =
      logEntryMember entry s >>= fun p => logEntryMembers p.1 p.2 := by
  cases s with
  | nil => exact absurd (Or.inl rfl) h
  | cons c s =>
    have hc : c ≠ rbrace := by
      rintro rfl
      exact h (Or.inr rfl)
    cases hmember : logEntryMember entry (c :: s) with
    | ok p => exact logEntryMembers_of_member hc hmember
    | error e =>
      rw [logEntryMembers, if_neg hc]
      split
      · rename_i e' he
        rw [hmember] at he
        cases he
        rfl
      · rename_i entry' rest hok
        rw [hmember] at hok
        cases hok

theorem logEntryMembers_of_ok {s : Bytes} {entry : LogEntry} {p : LogEntry × Bytes} (h : ¬ AtEnd s)
    (hmember : logEntryMember entry s = .ok p) :
    logEntryMembers entry s = logEntryMembers p.1 p.2 := by
  rw [logEntryMembers_eq_bind h, hmember]
  rfl

/-- A turn that fails ends the loop. -/
theorem logEntryMembers_of_error {entry : LogEntry} {s : Bytes} {e : ScanError} (h : ¬ AtEnd s)
    (hmember : logEntryMember entry s = .error e) : logEntryMembers entry s = .error e := by
  rw [logEntryMembers_eq_bind h, hmember]
  rfl

theorem logEntryMembers_of_pass {p q : LogEntry × Bytes} (h : logEntryPass p = some q) :
    logEntryMembers p.1 p.2 = logEntryMembers q.1 q.2 := by
  obtain ⟨hend, hmember⟩ := logEntryPass_eq_some_iff.mp h
  exact logEntryMembers_of_ok hend hmember

/-- The loop stops behind the members, or in a turn that fails. -/
theorem logEntryMembers_of_pass_eq_none {p : LogEntry × Bytes} (h : logEntryPass p = none) :
    AtEnd p.2 ∧ logEntryMembers p.1 p.2 = .ok p.1 ∨
      ∃ e, ¬ AtEnd p.2 ∧ logEntryMember p.1 p.2 = .error e ∧
        logEntryMembers p.1 p.2 = .error e := by
  by_cases hend : AtEnd p.2
  · exact Or.inl ⟨hend, logEntryMembers_of_atEnd hend p.1⟩
  · rw [logEntryPass_of_not_atEnd hend] at h
    cases hmember : logEntryMember p.1 p.2 with
    | ok q => simp [hmember, Except.toOption] at h
    | error e => exact Or.inr ⟨e, hend, rfl, logEntryMembers_of_error hend hmember⟩

/-! ## Strings -/

/-- A string that is read into an array of `size` bytes: the bytes, and the text behind the
closing quote. -/
def StringText (size : ℕ) (s value rest : Bytes) : Prop :=
  ∃ w t, Spaces w ∧ Units strUnescape t value ∧ value.length < size ∧
    s = w ++ quote :: (t ++ quote :: rest)

/-- A string that stops behind a backslash, with room left in the array of `size` bytes. -/
def StopsInEscape (size : ℕ) (s : Bytes) : Prop :=
  ∃ w t value, Spaces w ∧ Units strUnescape t value ∧ value.length + 1 < size ∧
    s = w ++ quote :: (t ++ [backslash])

theorem expect_skipWhitespace_eq_ok_iff {c : UInt8} (hc : isspace c = false) {s rest : Bytes} :
    expect c (skipWhitespace s) = .ok rest ↔ ∃ w, Spaces w ∧ s = w ++ c :: rest := by
  constructor
  · intro h
    obtain ⟨w, hw, hs⟩ := exists_skipWhitespace s
    exact ⟨w, hw, by rw [← eq_cons_of_expect h, ← hs]⟩
  · rintro ⟨w, hw, rfl⟩
    rw [skipWhitespace_append_cons hw hc, expect_self]

theorem parseStr_eq_ok_iff {size : ℕ} (hsize : 0 < size) {s value rest : Bytes} :
    parseStr s size = .ok (value, rest) ↔ StringText size s value rest := by
  constructor
  · intro h
    obtain ⟨t, hquote, hscan⟩ := ok_of_bind_eq_ok h
    obtain ⟨w, hw, hs⟩ := (expect_skipWhitespace_eq_ok_iff (by rfl)).mp hquote
    obtain ⟨u, hunits, hlen, ht⟩ := scanQuoted_eq_ok_iff.mp hscan
    exact ⟨w, u, hw, hunits, by omega, by rw [hs, ht]⟩
  · rintro ⟨w, t, hw, hunits, hlen, hs⟩
    have hscan : scanQuoted strUnescape .pastEnd (size - 1) (t ++ quote :: rest) =
        .ok (value, rest) := scanQuoted_eq_ok_iff.mpr ⟨t, hunits, by omega, rfl⟩
    rw [parseStr, (expect_skipWhitespace_eq_ok_iff (by rfl)).mpr ⟨w, hw, hs⟩]
    exact hscan

theorem parseStr_eq_pastEnd_iff {size : ℕ} {s : Bytes} :
    parseStr s size = .error .pastEnd ↔ StopsInEscape size s := by
  rw [parseStr, bind_eq_error_iff]
  constructor
  · rintro (h | ⟨t, hquote, hscan⟩)
    · exact absurd h (expect_ne_pastEnd _ _)
    · obtain ⟨w, hw, hs⟩ := (expect_skipWhitespace_eq_ok_iff (by rfl)).mp hquote
      obtain ⟨u, value, hunits, hlen, ht⟩ := scanQuoted_eq_pastEnd_iff.mp hscan
      exact ⟨w, u, value, hw, hunits, by omega, by rw [hs, ht]⟩
  · rintro ⟨w, t, value, hw, hunits, hlen, hs⟩
    exact Or.inr ⟨_, (expect_skipWhitespace_eq_ok_iff (by rfl)).mpr ⟨w, hw, hs⟩,
      scanQuoted_eq_pastEnd_iff.mpr ⟨t, value, hunits, by omega, rfl⟩⟩

/-! ## Values -/

/-- The size of the array that the string behind a key is read into. -/
def stringSize (key : Bytes) : Option ℕ :=
  if key = ascii "node_id" then some (nodeIdMaxLen + 1)
  else if key = ascii "level" then some (logMessageMaxLen * 2)
  else if key = ascii "message" then some (logMessageMaxLen + 1)
  else none

/-- What the entry becomes by a string. -/
def storeString (entry : LogEntry) (key value : Bytes) : LogEntry :=
  if key = ascii "node_id" then { entry with nodeId := CStr.ofBytes value }
  else if key = ascii "level" then { entry with level := logLevelFromStr value }
  else { entry with message := CStr.ofBytes value }

/-- The text behind a value that is no string of the entry. -/
def skipValue (key s : Bytes) : Bytes :=
  if key = ascii "vector_clock" then (cutNested lbrace rbrace s).2
  else if key = ascii "timestamp" then (parseNum s).2
  else if key = ascii "metadata" then (cutNested lbrace rbrace s).2
  else skipUnknown s

/-- What the entry becomes by such a value. -/
def storeValue (entry : LogEntry) (key s : Bytes) : LogEntry :=
  if key = ascii "vector_clock" then
    { entry with vc := (vcFromJson entry.vc (cutNested lbrace rbrace s).1 none).2 }
  else if key = ascii "timestamp" then { entry with timestamp := (parseNum s).1 }
  else entry

theorem stringSize_pos {key : Bytes} {n : ℕ} (h : stringSize key = some n) : 0 < n := by
  unfold stringSize at h
  split_ifs at h <;> (obtain rfl := Option.some.inj h; decide)

/-- **Every value is a string or is skipped.** -/
theorem logEntryValue_eq (entry : LogEntry) (key s : Bytes) :
    logEntryValue entry key s =
      match stringSize key with
      | some n => parseStr s n >>= fun p => .ok (storeString entry key p.1, p.2)
      | none => .ok (storeValue entry key s, skipValue key s) := by
  by_cases hnode : key = ascii "node_id"
  · subst hnode
    rfl
  by_cases hclock : key = ascii "vector_clock"
  · subst hclock
    rfl
  by_cases htime : key = ascii "timestamp"
  · subst htime
    rfl
  by_cases hlevel : key = ascii "level"
  · subst hlevel
    rfl
  by_cases hmessage : key = ascii "message"
  · subst hmessage
    rfl
  rw [logEntryValue, stringSize, storeValue, skipValue]
  simp only [if_neg hnode, if_neg hclock, if_neg htime, if_neg hlevel, if_neg hmessage]
  split <;> rfl

theorem parseStr_skipWhitespace (s : Bytes) (size : ℕ) :
    parseStr (skipWhitespace s) size = parseStr s size := by
  rw [parseStr, parseStr, skipWhitespace_idem]

/-! ## Members -/

/-- A key and the colon behind it. -/
def KeyText (s key rest : Bytes) : Prop := ∃ w, Spaces w ∧ StringText 64 s key (w ++ colon :: rest)

/-- A member: what it does to the entry, and the text at the next loop head. -/
inductive MemberText (s : Bytes) : (LogEntry → LogEntry) → Bytes → Prop where
  | string {key s₁ value s₂ : Bytes} {size : ℕ} (hkey : KeyText s key s₁)
      (hsize : stringSize key = some size) (hvalue : StringText size s₁ value s₂) :
      MemberText s (fun entry => storeString entry key value) (skipComma s₂)
  | value {key s₁ : Bytes} (hkey : KeyText s key s₁) (hsize : stringSize key = none) :
      MemberText s (fun entry => storeValue entry key (skipWhitespace s₁))
        (skipComma (skipValue key (skipWhitespace s₁)))

/-- A string starts behind blanks, so the loop goes on. -/
theorem not_atEnd_of_spaces {w : Bytes} (hw : Spaces w) (t : Bytes) : ¬ AtEnd (w ++ quote :: t) := by
  rintro (h | h)
  · simp at h
  · cases w with
    | nil => exact absurd (Option.some.inj h) (by decide)
    | cons c w =>
      have hc := hw c List.mem_cons_self
      rw [Option.some.inj h] at hc
      exact absurd hc (by decide)

theorem StopsInEscape.not_atEnd {size : ℕ} {s : Bytes} (h : StopsInEscape size s) : ¬ AtEnd s := by
  obtain ⟨w, t, value, hw, -, -, rfl⟩ := h
  exact not_atEnd_of_spaces hw _

theorem KeyText.not_atEnd {s key rest : Bytes} (h : KeyText s key rest) : ¬ AtEnd s := by
  obtain ⟨-, -, w, t, hw, -, -, rfl⟩ := h
  exact not_atEnd_of_spaces hw _

theorem MemberText.not_atEnd {s rest : Bytes} {store : LogEntry → LogEntry}
    (h : MemberText s store rest) : ¬ AtEnd s := by
  cases h with
  | string hkey => exact hkey.not_atEnd
  | value hkey => exact hkey.not_atEnd

/-- Members start with the quote of a key. -/
theorem MemberText.head_quote {s rest : Bytes} {store : LogEntry → LogEntry}
    (h : MemberText s store rest) (hs : ∀ c t, s = c :: t → isspace c = false) :
    s.head? = some quote := by
  have hquote : ∀ w t : Bytes, Spaces w → s = w ++ quote :: t → s.head? = some quote := by
    intro w t hw heq
    cases w with
    | nil => rw [heq]; rfl
    | cons c w =>
      have hc := hs c _ heq
      rw [hw c List.mem_cons_self] at hc
      cases hc
  cases h with
  | string hkey =>
    obtain ⟨_, _, w, t, hw, _, _, heq⟩ := hkey
    exact hquote w _ hw heq
  | value hkey =>
    obtain ⟨_, _, w, t, hw, _, _, heq⟩ := hkey
    exact hquote w _ hw heq

/-- Behind a key, the turn is about the value. -/
theorem logEntryMember_of_key {s key rest : Bytes} (h : KeyText s key rest) (entry : LogEntry) :
    logEntryMember entry s =
      logEntryValue entry key (skipWhitespace rest) >>= fun p => .ok (p.1, skipComma p.2) := by
  obtain ⟨w, hw, hstring⟩ := h
  rw [logEntryMember, (parseStr_eq_ok_iff (by decide)).mpr hstring]
  show (expect colon (skipWhitespace (w ++ colon :: rest)) >>= _) = _
  rw [skipWhitespace_append_cons hw (by rfl), expect_self]
  rfl

theorem logEntryMember_of_stopsInEscape {s : Bytes} (h : StopsInEscape 64 s) (entry : LogEntry) :
    logEntryMember entry s = .error .pastEnd := by
  rw [logEntryMember, parseStr_eq_pastEnd_iff.mpr h]
  rfl

/-- A turn that does not come to a value fails. -/
theorem keyText_or_error (entry : LogEntry) (s : Bytes) :
    (∃ key rest, KeyText s key rest) ∨
      ∃ e, logEntryMember entry s = .error e ∧ (e = .pastEnd → StopsInEscape 64 s) := by
  cases hkey : parseStr s 64 with
  | error e =>
    refine Or.inr ⟨e, ?_, ?_⟩
    · rw [logEntryMember, hkey]
      rfl
    · rintro rfl
      exact parseStr_eq_pastEnd_iff.mp hkey
  | ok p =>
    obtain ⟨key, s₁⟩ := p
    cases hcolon : expect colon (skipWhitespace s₁) with
    | ok rest =>
      obtain ⟨w, hw, rfl⟩ := (expect_skipWhitespace_eq_ok_iff (by rfl)).mp hcolon
      exact Or.inl ⟨key, rest, w, hw, (parseStr_eq_ok_iff (by decide)).mp hkey⟩
    | error e =>
      refine Or.inr ⟨e, ?_, ?_⟩
      · rw [logEntryMember, hkey]
        show (expect colon (skipWhitespace s₁) >>= _) = _
        rw [hcolon]
        rfl
      · rintro rfl
        exact absurd hcolon (expect_ne_pastEnd _ _)

/-- **A turn reads a member**: what it passes does not depend on the entry. -/
theorem memberText_of_ok {entry entry' : LogEntry} {s rest : Bytes}
    (h : logEntryMember entry s = .ok (entry', rest)) :
    ∃ store, MemberText s store rest ∧ entry' = store entry := by
  rcases keyText_or_error entry s with ⟨key, s₁, hkey⟩ | ⟨e, hfail, -⟩
  · rw [logEntryMember_of_key hkey, logEntryValue_eq] at h
    cases hsize : stringSize key with
    | none =>
      rw [hsize] at h
      obtain ⟨rfl, rfl⟩ := Prod.mk.inj (Except.ok.inj h)
      exact ⟨_, .value hkey hsize, rfl⟩
    | some size =>
      simp only [hsize, parseStr_skipWhitespace] at h
      obtain ⟨q, hq, h⟩ := ok_of_bind_eq_ok h
      obtain ⟨⟨value, s₂⟩, hvalue, hstore⟩ := ok_of_bind_eq_ok hq
      obtain rfl := Except.ok.inj hstore
      obtain ⟨rfl, rfl⟩ := Prod.mk.inj (Except.ok.inj h)
      exact ⟨_, .string hkey hsize ((parseStr_eq_ok_iff (stringSize_pos hsize)).mp hvalue), rfl⟩
  · rw [hfail] at h
    cases h

theorem MemberText.ok {s rest : Bytes} {store : LogEntry → LogEntry} (h : MemberText s store rest)
    (entry : LogEntry) : logEntryMember entry s = .ok (store entry, rest) := by
  cases h with
  | string hkey hsize hvalue =>
    rw [logEntryMember_of_key hkey, logEntryValue_eq]
    simp only [hsize, parseStr_skipWhitespace,
      (parseStr_eq_ok_iff (stringSize_pos hsize)).mpr hvalue]
    rfl
  | value hkey hsize =>
    rw [logEntryMember_of_key hkey, logEntryValue_eq]
    simp only [hsize]
    rfl

/-! ## A text is read in one way -/

theorem StringText.append {size : ℕ} {s value rest : Bytes} (h : StringText size s value rest)
    (x : Bytes) : StringText size (s ++ x) value (rest ++ x) := by
  obtain ⟨w, t, hw, hunits, hlen, rfl⟩ := h
  exact ⟨w, t, hw, hunits, hlen, by simp⟩

theorem StringText.unique {size : ℕ} {s value rest value' rest' : Bytes}
    (h : StringText size s value rest) (h' : StringText size s value' rest') :
    value = value' ∧ rest = rest' := by
  have hsize : 0 < size := by
    obtain ⟨-, -, -, -, hlen, -⟩ := h
    omega
  rw [← parseStr_eq_ok_iff hsize] at h h'
  rw [h] at h'
  exact Prod.mk.inj (Except.ok.inj h')

theorem KeyText.append {s key rest : Bytes} (h : KeyText s key rest) (x : Bytes) :
    KeyText (s ++ x) key (rest ++ x) := by
  obtain ⟨w, hw, hstring⟩ := h
  have happend := hstring.append x
  rw [List.append_assoc, List.cons_append] at happend
  exact ⟨w, hw, happend⟩

theorem KeyText.unique {s key rest key' rest' : Bytes} (h : KeyText s key rest)
    (h' : KeyText s key' rest') : key = key' ∧ rest = rest' := by
  obtain ⟨w, hw, hstring⟩ := h
  obtain ⟨w', hw', hstring'⟩ := h'
  obtain ⟨rfl, hrest⟩ := hstring.unique hstring'
  have hskip := congrArg skipWhitespace hrest
  rw [skipWhitespace_append_cons hw (by rfl), skipWhitespace_append_cons hw' (by rfl)] at hskip
  exact ⟨rfl, (List.cons.inj hskip).2⟩

/-! ## How the loop ends -/

/-- Members that the loop reads to its end, and what they do to the entry. -/
inductive MembersText : Bytes → (LogEntry → LogEntry) → Prop where
  | done {s : Bytes} (h : AtEnd s) : MembersText s id
  | next {s rest : Bytes} {store stores : LogEntry → LogEntry} (hmember : MemberText s store rest)
      (h : MembersText rest stores) : MembersText s (stores ∘ store)

/-- The text ends in an escape of a string that is being read: the key of a member, or the
value of a field that is a string. -/
inductive EndsInEscape : Bytes → Prop where
  | key {s : Bytes} (h : StopsInEscape 64 s) : EndsInEscape s
  | value {s key s₁ : Bytes} {size : ℕ} (hkey : KeyText s key s₁)
      (hsize : stringSize key = some size) (h : StopsInEscape size s₁) : EndsInEscape s
  | next {s rest : Bytes} {store : LogEntry → LogEntry} (hmember : MemberText s store rest)
      (h : EndsInEscape rest) : EndsInEscape s

/-- A turn runs past the end in its key or in its value. -/
theorem logEntryMember_eq_pastEnd_iff {entry : LogEntry} {s : Bytes} :
    logEntryMember entry s = .error .pastEnd ↔
      StopsInEscape 64 s ∨ ∃ key s₁ size, KeyText s key s₁ ∧ stringSize key = some size ∧
        StopsInEscape size s₁ := by
  constructor
  · intro h
    rcases keyText_or_error entry s with ⟨key, s₁, hkey⟩ | ⟨e, hfail, hstops⟩
    · rw [logEntryMember_of_key hkey, logEntryValue_eq] at h
      cases hsize : stringSize key with
      | none =>
        simp only [hsize] at h
        cases h
      | some size =>
        simp only [hsize, parseStr_skipWhitespace, bind_assoc, bind_eq_error_iff] at h
        rcases h with h | ⟨p, -, h⟩
        · exact Or.inr ⟨key, s₁, size, hkey, hsize, parseStr_eq_pastEnd_iff.mp h⟩
        · rcases h with h | ⟨q, -, h⟩
          · cases h
          · cases h
    · rw [hfail] at h
      cases h
      exact Or.inl (hstops rfl)
  · rintro (h | ⟨key, s₁, size, hkey, hsize, h⟩)
    · exact logEntryMember_of_stopsInEscape h entry
    · rw [logEntryMember_of_key hkey, logEntryValue_eq]
      simp only [hsize, parseStr_skipWhitespace, parseStr_eq_pastEnd_iff.mpr h]
      rfl

/-- **The loop runs past the end of the text** exactly when the text ends in an escape. -/
theorem logEntryMembers_eq_pastEnd_iff {entry : LogEntry} {s : Bytes} :
    logEntryMembers entry s = .error .pastEnd ↔ EndsInEscape s := by
  constructor
  · intro h
    have hloop : ∀ p : LogEntry × Bytes, logEntryMembers p.1 p.2 = .error .pastEnd →
        EndsInEscape p.2 := by
      intro p
      induction p using lowers_logEntryPass.induct with
      | stop p hp =>
        intro h
        rcases logEntryMembers_of_pass_eq_none hp with ⟨-, hok⟩ | ⟨e, -, hmember, herror⟩
        · rw [hok] at h
          cases h
        · rw [herror] at h
          cases h
          rcases logEntryMember_eq_pastEnd_iff.mp hmember with h | ⟨key, s₁, size, hkey, hsize, h⟩
          · exact .key h
          · exact .value hkey hsize h
      | next p q hp ih =>
        intro h
        rw [logEntryMembers_of_pass hp] at h
        obtain ⟨-, hmember⟩ := logEntryPass_eq_some_iff.mp hp
        obtain ⟨store, htext, -⟩ := memberText_of_ok hmember
        exact .next htext (ih h)
    exact hloop (entry, s) h
  · intro h
    induction h generalizing entry with
    | key h =>
      exact logEntryMembers_of_error h.not_atEnd (logEntryMember_eq_pastEnd_iff.mpr (Or.inl h))
    | value hkey hsize h =>
      exact logEntryMembers_of_error hkey.not_atEnd
        (logEntryMember_eq_pastEnd_iff.mpr (Or.inr ⟨_, _, _, hkey, hsize, h⟩))
    | next hmember h ih =>
      rw [logEntryMembers_of_ok hmember.not_atEnd (hmember.ok entry)]
      exact ih

/-- **The loop comes to its end** on members and on nothing else. -/
theorem logEntryMembers_eq_ok_iff {entry entry' : LogEntry} {s : Bytes} :
    logEntryMembers entry s = .ok entry' ↔ ∃ store, MembersText s store ∧ entry' = store entry := by
  constructor
  · intro h
    have hloop : ∀ p : LogEntry × Bytes, logEntryMembers p.1 p.2 = .ok entry' →
        ∃ store, MembersText p.2 store ∧ entry' = store p.1 := by
      intro p
      induction p using lowers_logEntryPass.induct with
      | stop p hp =>
        intro h
        rcases logEntryMembers_of_pass_eq_none hp with ⟨hend, hok⟩ | ⟨e, -, -, herror⟩
        · rw [hok] at h
          exact ⟨id, .done hend, (Except.ok.inj h).symm⟩
        · rw [herror] at h
          cases h
      | next p q hp ih =>
        intro h
        rw [logEntryMembers_of_pass hp] at h
        obtain ⟨-, hmember⟩ := logEntryPass_eq_some_iff.mp hp
        obtain ⟨store, htext, hstore⟩ := memberText_of_ok hmember
        obtain ⟨stores, hrest, rfl⟩ := ih h
        exact ⟨stores ∘ store, .next htext hrest, congrArg stores hstore⟩
    exact hloop (entry, s) h
  · rintro ⟨store, h, rfl⟩
    induction h generalizing entry with
    | done h => exact logEntryMembers_of_atEnd h entry
    | next hmember h ih =>
      rw [logEntryMembers_of_ok hmember.not_atEnd (hmember.ok entry)]
      exact ih

/-- Text that the loop rejects. -/
def Unreadable (s : Bytes) : Prop := (¬ ∃ store, MembersText s store) ∧ ¬ EndsInEscape s

theorem logEntryMembers_eq_reject_iff {entry : LogEntry} {s : Bytes} :
    logEntryMembers entry s = .error .reject ↔ Unreadable s := by
  have hok : (∃ store, MembersText s store) ↔ ∃ entry', logEntryMembers entry s = .ok entry' := by
    simp only [logEntryMembers_eq_ok_iff]
    exact ⟨fun ⟨store, h⟩ => ⟨_, store, h, rfl⟩, fun ⟨_, store, h, _⟩ => ⟨store, h⟩⟩
  rw [Unreadable, hok, ← @logEntryMembers_eq_pastEnd_iff entry]
  cases logEntryMembers entry s with
  | ok e => simp
  | error e => cases e <;> simp

/-! ## What is ahead was ahead before -/

theorem skipWhitespace_suffix (s : Bytes) : skipWhitespace s <:+ s := List.dropWhile_suffix _

theorem skipComma_suffix (s : Bytes) : skipComma s <:+ s := by
  obtain ⟨sep, -, hs⟩ := exists_skipComma s
  exact ⟨sep, hs.symm⟩

theorem cutNested_append_snd (opening closing : UInt8) (s : Bytes) :
    (cutNested opening closing s).1 ++ (cutNested opening closing s).2 = s := by
  unfold cutNested
  split
  · exact scanNested_append_snd opening closing 0 s
  · rfl

theorem cutNested_suffix (opening closing : UInt8) (s : Bytes) :
    (cutNested opening closing s).2 <:+ s := ⟨_, cutNested_append_snd opening closing s⟩

theorem skipUnknown_suffix (s : Bytes) : skipUnknown s <:+ s := by
  have hnested : ∀ opening closing, (scanNested opening closing 0 s).2 <:+ s := fun opening closing =>
    ⟨_, scanNested_append_snd opening closing 0 s⟩
  unfold skipUnknown
  split
  · exact (List.tail_suffix _).trans (List.dropWhile_suffix _)
  split
  · exact hnested lbrace rbrace
  split
  · exact hnested lbracket rbracket
  · exact List.dropWhile_suffix _

theorem scanDigits_suffix (v : UInt64) (s : Bytes) : (scanDigits v s).2 <:+ s := by
  induction s generalizing v with
  | nil => exact List.suffix_rfl
  | cons c s ih =>
    rw [scanDigits]
    split
    · exact (ih _).trans (List.suffix_cons c s)
    · exact List.suffix_rfl

theorem skipValue_suffix (key s : Bytes) : skipValue key s <:+ s := by
  unfold skipValue
  split
  · exact cutNested_suffix _ _ s
  split
  · exact (scanDigits_suffix 0 _).trans (skipWhitespace_suffix s)
  split
  · exact cutNested_suffix _ _ s
  · exact skipUnknown_suffix s

theorem StringText.suffix {size : ℕ} {s value rest : Bytes} (h : StringText size s value rest) :
    rest <:+ s := by
  obtain ⟨w, t, -, -, -, rfl⟩ := h
  exact ⟨w ++ quote :: (t ++ [quote]), by simp⟩

theorem KeyText.suffix {s key rest : Bytes} (h : KeyText s key rest) : rest <:+ s := by
  obtain ⟨w, -, hstring⟩ := h
  exact (List.suffix_append_of_suffix (List.suffix_cons colon rest)).trans hstring.suffix

/-- What is ahead behind a member was ahead before it. -/
theorem MemberText.suffix {s rest : Bytes} {store : LogEntry → LogEntry}
    (h : MemberText s store rest) : rest <:+ s := by
  cases h with
  | string hkey hsize hvalue =>
    exact (skipComma_suffix _).trans (hvalue.suffix.trans hkey.suffix)
  | value hkey hsize =>
    exact (skipComma_suffix _).trans ((skipValue_suffix _ _).trans
      ((skipWhitespace_suffix _).trans hkey.suffix))

end LogAgg
