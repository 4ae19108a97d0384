import LogAgg.LogEntry.Members
import LogAgg.VectorClock.Numbers

/-!
# The numbers of a record

`RecordMembers` lists the members of an accepted record, each with its key and the text that
its value starts.  The timestamp is the value of the last digits that stand behind the key
`timestamp`, modulo `2^64`, and the clock is what `vc_from_json` makes of the last object behind
the key `vector_clock`.

So a number is read exactly when it is below `2^64`, in a clock and in a timestamp alike, and
the return value does not tell (`numbers_exact_iff`).
-/

namespace LogAgg

open Ascii VectorClock

/-! ## The members of a record -/

/-- `RecordMembers s members`: at `s` the loop reads the members `members`, each a key and the
text at the start of its value. -/
inductive RecordMembers : Bytes → List (Bytes × Bytes) → Prop where
  | done {s : Bytes} (h : AtEnd s) : RecordMembers s []
  | next {s key s₁ rest : Bytes} {store : LogEntry → LogEntry} {members : List (Bytes × Bytes)}
      (hkey : KeyText s key s₁) (hmember : MemberText s store rest)
      (h : RecordMembers rest members) : RecordMembers s ((key, skipWhitespace s₁) :: members)

/-- A record that `log_entry_from_json` accepts, and its members. -/
def RecordSpells (json : Bytes) (members : List (Bytes × Bytes)) : Prop :=
  ∃ w w' s, Spaces w ∧ Spaces w' ∧ (∀ c t, s = c :: t → isspace c = false) ∧
    RecordMembers s members ∧ json = w ++ lbrace :: (w' ++ s)

/-- What a member does to the two fields that hold numbers. -/
def storeNumbers (p : VectorClock × UInt64) (m : Bytes × Bytes) : VectorClock × UInt64 :=
  if m.1 = ascii "vector_clock" then
    ((vcFromJson p.1 (cutNested lbrace rbrace m.2).1 none).2, p.2)
  else if m.1 = ascii "timestamp" then (p.1, (parseNum m.2).1)
  else p

/-- The key of a member is the key it stores under. -/
theorem MemberText.numbers {s key s₁ rest : Bytes} {store : LogEntry → LogEntry}
    (hkey : KeyText s key s₁) (h : MemberText s store rest) (entry : LogEntry) :
    ((store entry).vc, (store entry).timestamp) =
      storeNumbers (entry.vc, entry.timestamp) (key, skipWhitespace s₁) := by
  cases h with
  | @string key' s₁' value s₂ size hkey' hsize hvalue =>
    obtain ⟨rfl, rfl⟩ := hkey.unique hkey'
    have hclock : key ≠ ascii "vector_clock" := by
      rintro rfl
      have hnone : stringSize (ascii "vector_clock") = none := by decide
      rw [hnone] at hsize
      cases hsize
    have htime : key ≠ ascii "timestamp" := by
      rintro rfl
      have hnone : stringSize (ascii "timestamp") = none := by decide
      rw [hnone] at hsize
      cases hsize
    rw [storeNumbers, if_neg hclock, if_neg htime]
    unfold storeString
    split_ifs <;> rfl
  | @value key' s₁' hkey' hsize =>
    obtain ⟨rfl, rfl⟩ := hkey.unique hkey'
    unfold storeNumbers storeValue
    dsimp only
    split_ifs <;> rfl

/-- **What a record leaves in the fields that hold numbers.** -/
theorem RecordMembers.numbers {s : Bytes} {members : List (Bytes × Bytes)}
    (h : RecordMembers s members) (entry : LogEntry) :
    ∃ entry', logEntryMembers entry s = .ok entry' ∧
      (entry'.vc, entry'.timestamp) =
        members.foldl storeNumbers (entry.vc, entry.timestamp) := by
  induction h generalizing entry with
  | done h => exact ⟨entry, logEntryMembers_of_atEnd h entry, rfl⟩
  | @next s key s₁ rest store members hkey hmember h ih =>
    obtain ⟨entry', hread, hnumbers⟩ := ih (store entry)
    refine ⟨entry', ?_, ?_⟩
    · rw [logEntryMembers_of_ok hmember.not_atEnd (hmember.ok entry)]
      exact hread
    · rw [hnumbers, hmember.numbers hkey, List.foldl_cons]

theorem MembersText.exists_recordMembers {s : Bytes} {store : LogEntry → LogEntry}
    (h : MembersText s store) : ∃ members, RecordMembers s members := by
  induction h with
  | done h => exact ⟨[], .done h⟩
  | @next s rest store stores hmember _ ih =>
    obtain ⟨members, hmembers⟩ := ih
    have hkey : ∃ key s₁, KeyText s key s₁ := by
      cases hmember with
      | string hkey => exact ⟨_, _, hkey⟩
      | value hkey => exact ⟨_, _, hkey⟩
    obtain ⟨key, s₁, hkey⟩ := hkey
    exact ⟨_, .next hkey hmember hmembers⟩

/-- Whatever is accepted spells some members, and they decide the numbers. -/
theorem numbers_of_recordSpells {json : Bytes} {members : List (Bytes × Bytes)}
    (h : RecordSpells json members) :
    ∃ entry, logEntryFromJson json = .ok entry ∧
      (entry.vc, entry.timestamp) = members.foldl storeNumbers (VectorClock.zero, 0) := by
  obtain ⟨w, w', s, hw, hw', hs, hmembers, rfl⟩ := h
  obtain ⟨entry, hread, hnumbers⟩ := hmembers.numbers LogEntry.zero
  refine ⟨entry, ?_, hnumbers⟩
  have hskip : skipWhitespace (w' ++ s) = s := by
    rw [skipWhitespace_append hw']
    cases s with
    | nil => rfl
    | cons c t => exact skipWhitespace_cons (hs c t rfl) t
  rw [logEntryFromJson, skipWhitespace_append_cons hw (by rfl), expect_self]
  show logEntryMembers LogEntry.zero (skipWhitespace (w' ++ s)) = _
  rw [hskip, hread]

theorem exists_recordSpells_iff {json : Bytes} :
    (∃ entry, logEntryFromJson json = .ok entry) ↔ ∃ members, RecordSpells json members := by
  constructor
  · rintro ⟨entry, h⟩
    obtain ⟨s, hopen, hread⟩ := ok_of_bind_eq_ok h
    obtain ⟨w, hw, rfl⟩ := (expect_skipWhitespace_eq_ok_iff (by rfl)).mp hopen
    obtain ⟨w', hw', hs⟩ := exists_skipWhitespace s
    obtain ⟨store, hstore, -⟩ := logEntryMembers_eq_ok_iff.mp hread
    obtain ⟨members, hmembers⟩ := hstore.exists_recordMembers
    refine ⟨members, w, w', skipWhitespace s, hw, hw', fun c t ht => ?_, hmembers, ?_⟩
    · exact isspace_of_skipWhitespace ht
    · rw [← hs]
  · rintro ⟨members, h⟩
    obtain ⟨entry, hread, -⟩ := numbers_of_recordSpells h
    exact ⟨entry, hread⟩

/-! ## The last of a kind -/

/-- `text` stands at the start of the value of the last member with the key `key`. -/
def LastValue (members : List (Bytes × Bytes)) (key text : Bytes) : Prop :=
  ∃ before after, members = before ++ (key, text) :: after ∧ ∀ m ∈ after, m.1 ≠ key

/-- Members with other keys leave the timestamp alone. -/
theorem foldl_storeNumbers_snd {members : List (Bytes × Bytes)}
    (h : ∀ m ∈ members, m.1 ≠ ascii "timestamp") (p : VectorClock × UInt64) :
    (members.foldl storeNumbers p).2 = p.2 := by
  induction members generalizing p with
  | nil => rfl
  | cons m members ih =>
    rw [List.forall_mem_cons] at h
    rw [List.foldl_cons, ih h.2, storeNumbers, if_neg h.1]
    split_ifs <;> rfl

/-- Members with other keys leave the clock alone. -/
theorem foldl_storeNumbers_fst {members : List (Bytes × Bytes)}
    (h : ∀ m ∈ members, m.1 ≠ ascii "vector_clock") (p : VectorClock × UInt64) :
    (members.foldl storeNumbers p).1 = p.1 := by
  induction members generalizing p with
  | nil => rfl
  | cons m members ih =>
    rw [List.forall_mem_cons] at h
    rw [List.foldl_cons, ih h.2, storeNumbers, if_neg h.1]
    split_ifs <;> rfl

/-- The digits at the start of a value. -/
def digitsAhead (text : Bytes) : Bytes := (skipWhitespace text).takeWhile isdigit

/-- `parse_num` computes the value of the digits ahead, modulo `2^64`. -/
theorem parseNum_fst (s : Bytes) :
    (parseNum s).1 = UInt64.ofNat (digitsValue (digitsAhead s)) := by
  unfold digitsAhead
  have hdigits : ∀ c ∈ (skipWhitespace s).takeWhile isdigit, isdigit c = true :=
    fun c hc => List.mem_takeWhile_imp hc
  have hrest : ∀ c, ((skipWhitespace s).dropWhile isdigit).head? = some c →
      isdigit c = false := by
    intro c hc
    obtain ⟨t, ht⟩ := List.head?_eq_some_iff.mp hc
    have hne : (skipWhitespace s).dropWhile isdigit ≠ [] := by simp [ht]
    have hhead := List.head_dropWhile_not isdigit hne
    simpa [ht] using hhead
  rw [parseNum, ← List.takeWhile_append_dropWhile (p := isdigit) (l := skipWhitespace s),
    scanDigits_digits hdigits hrest, List.takeWhile_append_dropWhile]

/-- **The timestamp of a record.** -/
theorem timestamp_of_lastValue {json text : Bytes} {members : List (Bytes × Bytes)}
    {entry : LogEntry} (hjson : RecordSpells json members)
    (hread : logEntryFromJson json = .ok entry)
    (h : LastValue members (ascii "timestamp") text) :
    entry.timestamp = UInt64.ofNat (digitsValue (digitsAhead text)) := by
  obtain ⟨entry', hread', hnumbers⟩ := numbers_of_recordSpells hjson
  obtain rfl := Except.ok.inj (hread.symm.trans hread')
  obtain ⟨before, after, rfl, hafter⟩ := h
  have hother : (ascii "timestamp", text).1 ≠ ascii "vector_clock" := by
    show ascii "timestamp" ≠ ascii "vector_clock"
    decide
  have htime := congrArg Prod.snd hnumbers
  rw [List.foldl_append, List.foldl_cons, foldl_storeNumbers_snd hafter, storeNumbers,
    if_neg hother, if_pos rfl] at htime
  rw [← parseNum_fst]
  exact htime

/-- **The clock of a record** is what `vc_from_json` makes of the last clock in it. -/
theorem vc_of_lastValue {json text : Bytes} {members : List (Bytes × Bytes)}
    {entry : LogEntry} (hjson : RecordSpells json members)
    (hread : logEntryFromJson json = .ok entry)
    (h : LastValue members (ascii "vector_clock") text) :
    ∃ vc, entry.vc = (vcFromJson vc (cutNested lbrace rbrace text).1 none).2 := by
  obtain ⟨entry', hread', hnumbers⟩ := numbers_of_recordSpells hjson
  obtain rfl := Except.ok.inj (hread.symm.trans hread')
  obtain ⟨before, after, rfl, hafter⟩ := h
  have hclock := congrArg Prod.fst hnumbers
  rw [List.foldl_append, List.foldl_cons, foldl_storeNumbers_fst hafter, storeNumbers,
    if_pos rfl] at hclock
  exact ⟨_, hclock⟩

/-! ## Exact or not -/

/-- **Numbers are read modulo `2^64`.**  Of every digit run that stands as a component of an
accepted clock, or as the timestamp of an accepted record, the value is what is stored exactly
when it is below `2^64`. -/
theorem numbers_exact_iff (target : VectorClock) (json : Bytes)
    (nodeNames : Option (ℕ → Option Bytes)) :
    ((vcFromJson target json nodeNames).1 = 0 ↔ ∃ runs, ClockSpells json runs) ∧
    (∀ runs m j, ClockSpells json runs → StoredLast nodeNames runs m j →
      (((vcFromJson target json nodeNames).2.slot j).toNat = digitsValue m.1.2 ↔
        digitsValue m.1.2 < 2 ^ 64)) ∧
    ((∃ entry, logEntryFromJson json = .ok entry) ↔ ∃ members, RecordSpells json members) ∧
    ∀ entry members text, logEntryFromJson json = .ok entry → RecordSpells json members →
      (LastValue members (ascii "timestamp") text →
        (entry.timestamp.toNat = digitsValue (digitsAhead text) ↔
          digitsValue (digitsAhead text) < 2 ^ 64)) ∧
      (LastValue members (ascii "vector_clock") text →
        ∀ runs m j, ClockSpells (cutNested lbrace rbrace text).1 runs → StoredLast none runs m j →
          ((entry.vc.slot j).toNat = digitsValue m.1.2 ↔ digitsValue m.1.2 < 2 ^ 64)) := by
  refine ⟨?_, ?_, exists_recordSpells_iff, ?_⟩
  · rw [vcFromJson_eq_zero_iff, clockText_iff_exists_clockSpells]
  · intro runs m j hjson hstored
    rw [slot_of_storedLast hjson hstored]
    exact toNat_ofNat_eq_iff _
  · intro entry members text hread hjson
    refine ⟨fun htime => ?_, fun hclock runs m j hruns hstored => ?_⟩
    · rw [timestamp_of_lastValue hjson hread htime]
      exact toNat_ofNat_eq_iff _
    · obtain ⟨vc, hvc⟩ := vc_of_lastValue hjson hread hclock
      rw [hvc, slot_of_storedLast hruns hstored]
      exact toNat_ofNat_eq_iff _

/-- The digits of `2^64`. -/
def wrappedDigits : Bytes := ascii "18446744073709551616"

/-- The clock `{"node-0":18446744073709551616}`. -/
def wrappedClock : Bytes := ascii "\x7b\"node-0\":" ++ (wrappedDigits ++ ascii "\x7d")

/-- The record `{"timestamp":18446744073709551616}`. -/
def wrappedRecord : Bytes := ascii "\x7b\"timestamp\":" ++ (wrappedDigits ++ ascii "\x7d")

/-- `2^64` is read as zero, in a clock and in a record, and nothing is refused. -/
theorem numbers_wrap :
    digitsValue wrappedDigits = 2 ^ 64 ∧
      (vcFromJson (VectorClock.zero.setSlot 0 7) wrappedClock none).1 = 0 ∧
      (vcFromJson (VectorClock.zero.setSlot 0 7) wrappedClock none).2.slot 0 = 0 ∧
      (logEntryFromJson wrappedRecord).toOption.map LogEntry.timestamp = some 0 := by
  decide +kernel

/-- The members of the clock. -/
theorem clockSpells_wrappedClock :
    ClockSpells wrappedClock [(ascii "node-0", wrappedDigits)] := by
  have hkey : Units vcUnescape (ascii "node-0") (ascii "node-0") :=
    .plain (by decide) (by decide) (.plain (by decide) (by decide) (.plain (by decide) (by decide)
      (.plain (by decide) (by decide) (.plain (by decide) (by decide)
        (.plain (by decide) (by decide) .nil)))))
  have hdigits : ∀ c ∈ wrappedDigits, isdigit c = true := List.all_eq_true.mp rfl
  have hnil : Spaces [] := fun c hc => absurd hc List.not_mem_nil
  exact ⟨[], [], _, hnil, hnil,
    .member hkey (by decide) hnil hnil (by decide) hdigits (.spaces hnil) (.close 31 []), rfl⟩

theorem numbers_exact_iff_sample :
    ((vcFromJson VectorClock.zero wrappedClock none).2.slot 0).toNat = digitsValue wrappedDigits ↔
      digitsValue wrappedDigits < 2 ^ 64 :=
  (numbers_exact_iff VectorClock.zero wrappedClock none).2.1 _ ((ascii "node-0", wrappedDigits), 0)
    0 clockSpells_wrappedClock
    { mem := List.mem_singleton_self _
      memberSlot := by decide
      kept := by
        intro later hlater hlt
        rw [List.mem_singleton.mp hlater] at hlt
        exact absurd hlt (lt_irrefl 0) }

end LogAgg
