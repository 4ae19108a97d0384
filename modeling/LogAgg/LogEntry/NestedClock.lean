import LogAgg.LogEntry.Members
import LogAgg.VectorClock.Accepted

/-!
# The clock inside of a record

`log_entry_from_json` cuts the text of a `vector_clock` member out by its braces and calls
`vc_from_json` on it, without a look at what this returns.  `cutClocks` lists the texts that are
cut out in a run.  The clock of the entry is what the calls on them leave, one after the other
(`vc_eq_foldl_cutClocks`); a text that is no clock leaves it as it was, and the record is
accepted all the same (`cutClocks_accepted_iff`).
-/

namespace LogAgg

open Ascii

/-- The text that the turn at a loop head cuts out for the clock, if its key is
`vector_clock`. -/
def clockTextAt (s : Bytes) : Option Bytes :=
  match parseStr s 64 with
  | .error _ => none
  | .ok (key, s) =>
      match expect colon (skipWhitespace s) with
      | .error _ => none
      | .ok s =>
          if key = ascii "vector_clock" then some (cutNested lbrace rbrace (skipWhitespace s)).1
          else none

/-- The texts that the loop cuts out for the clock, in their order. -/
def clockTexts (p : LogEntry × Bytes) : List Bytes :=
  (Loop.trail logEntryPass p.2.length p).filterMap fun q => clockTextAt q.2

/-- The texts that `log_entry_from_json` cuts out for the clock. -/
def cutClocks (json : Bytes) : List Bytes :=
  match expect lbrace (skipWhitespace json) with
  | .error _ => []
  | .ok s => clockTexts (LogEntry.zero, skipWhitespace s)

/-- What a call of `vc_from_json` leaves in the clock. -/
def readClock (vc : VectorClock) (text : Bytes) : VectorClock := (vcFromJson vc text none).2

theorem clockTextAt_of_key {s key rest : Bytes} (h : KeyText s key rest) :
    clockTextAt s =
      if key = ascii "vector_clock" then some (cutNested lbrace rbrace (skipWhitespace rest)).1
      else none := by
  obtain ⟨w, hw, hstring⟩ := h
  have hcolon : expect colon (skipWhitespace (w ++ colon :: rest)) = .ok rest := by
    rw [skipWhitespace_append_cons hw (by rfl), expect_self]
  rw [clockTextAt, (parseStr_eq_ok_iff (by decide)).mpr hstring]
  simp only [hcolon]

/-- There is no member at the end. -/
theorem clockTextAt_of_atEnd {s : Bytes} (h : AtEnd s) : clockTextAt s = none := by
  rw [clockTextAt]
  split
  · rfl
  · rename_i key t hparse
    obtain ⟨w, u, hw, -, -, rfl⟩ := (parseStr_eq_ok_iff (by decide)).mp hparse
    exact absurd h (not_atEnd_of_spaces hw _)

/-- **A turn changes the clock by the text it cuts out.** -/
theorem MemberText.vc {s rest : Bytes} {store : LogEntry → LogEntry} (h : MemberText s store rest)
    (entry : LogEntry) :
    (store entry).vc = (clockTextAt s).toList.foldl readClock entry.vc := by
  cases h with
  | @string key s₁ value s₂ size hkey hsize hvalue =>
    have hne : key ≠ ascii "vector_clock" := by
      rintro rfl
      exact absurd hsize (by simp [show stringSize (ascii "vector_clock") = none by decide])
    rw [clockTextAt_of_key hkey, if_neg hne]
    unfold storeString
    split_ifs <;> rfl
  | @value key s₁ hkey hsize =>
    rw [clockTextAt_of_key hkey]
    unfold storeValue
    split
    · rfl
    · split <;> rfl

theorem clockTexts_of_pass {p q : LogEntry × Bytes} (h : logEntryPass p = some q) :
    clockTexts p = (clockTextAt p.2).toList ++ clockTexts q := by
  rw [clockTexts, clockTexts, lowers_logEntryPass.trail_next h, List.filterMap_cons]
  cases clockTextAt p.2 <;> rfl

/-- **The clock is what the calls leave**, over a whole run of the loop. -/
theorem vc_eq_foldl_clockTexts {p : LogEntry × Bytes} {entry : LogEntry}
    (h : logEntryMembers p.1 p.2 = .ok entry) :
    entry.vc = (clockTexts p).foldl readClock p.1.vc := by
  induction p using lowers_logEntryPass.induct with
  | stop p hp =>
    rcases logEntryMembers_of_pass_eq_none hp with ⟨hend, hok⟩ | ⟨e, -, -, herror⟩
    · rw [hok] at h
      rw [clockTexts, Loop.trail_of_none hp, List.filterMap_cons, clockTextAt_of_atEnd hend,
        ← Except.ok.inj h]
      rfl
    · rw [herror] at h
      cases h
  | next p q hp ih =>
    rw [logEntryMembers_of_pass hp] at h
    obtain ⟨-, hmember⟩ := logEntryPass_eq_some_iff.mp hp
    obtain ⟨entry', rest⟩ := q
    obtain ⟨store, htext, rfl⟩ := memberText_of_ok hmember
    rw [ih h, clockTexts_of_pass hp, List.foldl_append, ← htext.vc]

/-- **The clock of an accepted record** is what the calls of `vc_from_json` leave. -/
theorem vc_eq_foldl_cutClocks {json : Bytes} {entry : LogEntry}
    (h : logEntryFromJson json = .ok entry) :
    entry.vc = (cutClocks json).foldl readClock VectorClock.zero := by
  obtain ⟨s, hs, hmembers⟩ := ok_of_bind_eq_ok h
  rw [cutClocks, hs]
  exact @vc_eq_foldl_clockTexts (LogEntry.zero, skipWhitespace s) _ hmembers

/-- A record whose clocks are all malformed is read with the zero clock. -/
theorem vc_eq_zero_of_not_clockText {json : Bytes} {entry : LogEntry}
    (h : logEntryFromJson json = .ok entry) (hclocks : ∀ text ∈ cutClocks json, ¬ ClockText text) :
    entry.vc = VectorClock.zero := by
  rw [vc_eq_foldl_cutClocks h]
  generalize cutClocks json = texts at hclocks
  induction texts with
  | nil => rfl
  | cons text texts ih =>
    rw [List.forall_mem_cons] at hclocks
    rw [List.foldl_cons, readClock, vcFromJson_of_not_clockText hclocks.1, ih hclocks.2]

/-- **When the clocks of an accepted record were accepted.**  Every text that is cut out was
accepted, and the clock of the entry is the result of an accepted call on the last one, exactly
when each of them is a clock. -/
theorem cutClocks_accepted_iff {json : Bytes} {entry : LogEntry}
    (h : logEntryFromJson json = .ok entry) (hmember : cutClocks json ≠ []) :
    ((∀ text ∈ cutClocks json, ∀ vc, (vcFromJson vc text none).1 = 0) ∧
      ∃ vc, vcFromJson vc ((cutClocks json).getLast hmember) none = (0, entry.vc)) ↔
      ∀ text ∈ cutClocks json, ClockText text := by
  constructor
  · rintro ⟨haccepted, -⟩ text htext
    exact (vcFromJson_eq_zero_iff VectorClock.zero text none).mp
      (haccepted text htext VectorClock.zero)
  · intro hclocks
    refine ⟨fun text htext vc => (vcFromJson_eq_zero_iff vc text none).mpr (hclocks text htext), ?_⟩
    have hsplit := List.dropLast_append_getLast hmember
    have hlast := hclocks _ (List.getLast_mem hmember)
    refine ⟨(cutClocks json).dropLast.foldl readClock VectorClock.zero, ?_⟩
    refine Prod.ext ((vcFromJson_eq_zero_iff _ _ none).mpr hlast) ?_
    rw [vc_eq_foldl_cutClocks h]
    conv_rhs => rw [← hsplit, List.foldl_append]
    rfl

/-- A record with a clock of one component. -/
def oneClockText : Bytes := ascii "\x7b\"vector_clock\":\x7b\"node-0\":7\x7d\x7d"

/-- A record with a clock that has no number. -/
def noNumberText : Bytes := ascii "\x7b\"vector_clock\":\x7b\"node-0\":true\x7d\x7d"

theorem cutClocks_accepted_iff_sample :
    ∃ entry, logEntryFromJson oneClockText = .ok entry ∧
      cutClocks oneClockText = [ascii "\x7b\"node-0\":7\x7d"] ∧
      ∀ text ∈ cutClocks oneClockText, ∀ vc, (vcFromJson vc text none).1 = 0 := by
  have hcut : cutClocks oneClockText = [ascii "\x7b\"node-0\":7\x7d"] := by decide +kernel
  have hread : (logEntryFromJson oneClockText).toOption.isSome = true := by decide +kernel
  cases hok : logEntryFromJson oneClockText with
  | error e =>
    rw [hok] at hread
    cases hread
  | ok entry =>
    have hmember : cutClocks oneClockText ≠ [] := by simp [hcut]
    refine ⟨entry, rfl, hcut, ((cutClocks_accepted_iff hok hmember).mpr ?_).1⟩
    rw [hcut, List.forall_mem_singleton]
    exact (vcFromJson_eq_zero_iff VectorClock.zero _ none).mp (by decide +kernel)

/-- The record is accepted with the zero clock. -/
theorem logEntryFromJson_noNumberText :
    logEntryFromJson noNumberText = .ok LogEntry.zero ∧
      cutClocks noNumberText = [ascii "\x7b\"node-0\":true\x7d"] ∧
      vcFromJson VectorClock.zero (ascii "\x7b\"node-0\":true\x7d") none =
        (-1, VectorClock.zero) := by
  decide +kernel

end LogAgg
