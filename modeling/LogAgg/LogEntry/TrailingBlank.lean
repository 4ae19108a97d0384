import LogAgg.CString.Trailing
import LogAgg.LogEntry.Members

/-!
# A blank behind the text of an entry

Whether a carriage return is cut off a line before it is parsed makes no difference: a
blank at the end of the text changes nothing that `log_entry_from_json` reads
(`logEntryFromJson_append_blank`).  The two parses run side by side, in the relations of
`CString.Trailing`.
-/

namespace LogAgg

open Ascii

section

variable {blank : UInt8} {s t : Bytes}

/-- Two texts of a nested value are the same up to a blank at the end. -/
theorem trails_cutNested {opening closing : UInt8} (hopening : blank ≠ opening)
    (hclosing : blank ≠ closing) (h : Trails blank s t) :
    ((cutNested opening closing t).1 = (cutNested opening closing s).1 ∨
      (cutNested opening closing t).1 = (cutNested opening closing s).1 ++ [blank]) ∧
    Trails blank (cutNested opening closing s).2 (cutNested opening closing t).2 := by
  rcases h with rfl | ⟨rfl, rfl⟩
  · cases s with
    | nil =>
      have hhead : ([] ++ [blank] : Bytes).head? ≠ some opening := by
        intro hsome
        exact hopening (Option.some.inj hsome)
      rw [cutNested, cutNested, if_neg hhead, if_neg (by simp)]
      exact ⟨Or.inl rfl, Or.inl rfl⟩
    | cons c s =>
      have hhead : (c :: s ++ [blank]).head? = (c :: s).head? := rfl
      rw [cutNested, cutNested, hhead]
      by_cases hc : (c :: s).head? = some opening
      · rw [if_pos hc, if_pos hc]
        refine ⟨?_, trails_scanNested hopening hclosing 0 (Or.inl rfl)⟩
        exact (scanNested_append hopening hclosing 0 (c :: s)).imp And.left And.left
      · rw [if_neg hc, if_neg hc]
        exact ⟨Or.inl rfl, Or.inl rfl⟩
  · exact ⟨Or.inl rfl, Or.inr ⟨rfl, rfl⟩⟩

/-! ## Clocks -/

theorem agree_parseJsonNumber (hblank : isspace blank = true) (h : Trails blank s t) :
    Agree (TrailsWith blank) (parseJsonNumber s) (parseJsonNumber t) := by
  have hskip := ahead_skipWhitespace hblank h
  unfold parseJsonNumber
  rcases hskip with ⟨hne, ht⟩ | ⟨hs, ht⟩
  · cases hs : skipWhitespace s with
    | nil => exact absurd hs hne
    | cons c s' =>
      rw [ht, hs, List.cons_append]
      dsimp only
      by_cases hc : isdigit c = true
      · rw [if_pos hc, if_pos hc]
        exact trailsWith_scanDigits hblank 0 (Or.inl rfl)
      · rw [if_neg hc, if_neg hc]
        trivial
  · rw [hs, ht]
    trivial

theorem agree_parseJsonString (hblank : isspace blank = true) (buflen : ℕ)
    (h : Trails blank s t) :
    Agree (TrailsWith blank) (parseJsonString s buflen) (parseJsonString t buflen) := by
  have hquote : blank ≠ quote := ne_of_isspace hblank rfl
  have hbackslash : blank ≠ backslash := ne_of_isspace hblank rfl
  refine (agree_expect hquote (ahead_skipWhitespace hblank h).trails).bind fun a b hab => ?_
  exact agree_scanQuoted hquote hbackslash _ _ _ hab

theorem agree_vcMembers (hblank : isspace blank = true) (room : ℕ) (h : Ahead blank s t) :
    Agree Eq (vcMembers room s) (vcMembers room t) := by
  induction room generalizing s t with
  | zero =>
    rcases h with ⟨hne, rfl⟩ | ⟨rfl, rfl⟩
    · cases s with
      | nil => exact absurd rfl hne
      | cons c s =>
        rw [List.cons_append, vcMembers, vcMembers]
        split
        · rfl
        · trivial
    · trivial
  | succ room ih =>
    rcases h with ⟨hne, rfl⟩ | ⟨rfl, rfl⟩
    · cases s with
      | nil => exact absurd rfl hne
      | cons c s =>
        rw [List.cons_append, vcMembers, vcMembers]
        by_cases hc : c = rbrace
        · rw [if_pos hc, if_pos hc]
          rfl
        · rw [if_neg hc, if_neg hc]
          refine (agree_parseJsonString hblank 64 (Or.inl rfl)).bind fun p q hkey => ?_
          refine (agree_expect (ne_of_isspace hblank rfl)
            (ahead_skipWhitespace hblank hkey.2).trails).bind fun a b hcolon => ?_
          refine (agree_parseJsonNumber hblank
            (ahead_skipWhitespace hblank hcolon).trails).bind fun u w hvalue => ?_
          refine (ih (ahead_skipComma hblank hvalue.2)).bind fun m n hmembers => ?_
          show (p.1, u.1) :: m = (q.1, w.1) :: n
          rw [hkey.1, hvalue.1, hmembers]
    · trivial

/-- A blank behind the text of a clock makes no difference. -/
theorem vcFromJson_append_blank (hblank : isspace blank = true) (vc : VectorClock) (json : Bytes)
    (nodeNames : Option (ℕ → Option Bytes)) :
    vcFromJson vc (json ++ [blank]) nodeNames = vcFromJson vc json nodeNames := by
  have hskip := ahead_skipWhitespace hblank (Or.inl rfl : Trails blank json (json ++ [blank]))
  have hagree : Agree Eq (vcObject json) (vcObject (json ++ [blank])) := by
    refine (agree_expect (ne_of_isspace hblank rfl) hskip.trails).bind fun a b hab => ?_
    exact agree_vcMembers hblank vcMaxNodes (ahead_skipWhitespace hblank hab)
  exact vcFromJson_congr hagree.toOption_eq.symm vc nodeNames

/-! ## Entries -/

theorem agree_parseStr (hblank : isspace blank = true) (buflen : ℕ) (h : Trails blank s t) :
    Agree (TrailsWith blank) (parseStr s buflen) (parseStr t buflen) := by
  have hquote : blank ≠ quote := ne_of_isspace hblank rfl
  have hbackslash : blank ≠ backslash := ne_of_isspace hblank rfl
  refine (agree_expect hquote (ahead_skipWhitespace hblank h).trails).bind fun a b hab => ?_
  exact agree_scanQuoted hquote hbackslash _ _ _ hab

theorem trails_skipUnknown (hblank : isspace blank = true) (h : Trails blank s t) :
    Trails blank (skipUnknown s) (skipUnknown t) := by
  have hcomma : decide (blank ≠ comma ∧ blank ≠ rbrace) = true :=
    decide_eq_true ⟨ne_of_isspace hblank rfl, ne_of_isspace hblank rfl⟩
  rcases h with rfl | ⟨rfl, rfl⟩
  · cases s with
    | nil =>
      have hother : ∀ c, isspace c = false → ([blank] : Bytes).head? ≠ some c := by
        intro c hc hsome
        exact ne_of_isspace hblank hc (Option.some.inj hsome)
      have hone : skipUnknown [blank] = [blank].dropWhile fun c => c ≠ comma ∧ c ≠ rbrace := by
        rw [skipUnknown, if_neg (hother quote rfl), if_neg (hother lbrace rfl),
          if_neg (hother lbracket rfl)]
      rw [List.nil_append, hone]
      exact (ahead_dropWhile (s := []) hcomma (Or.inl rfl)).trails
    | cons c s =>
      have hhead : (c :: s ++ [blank]).head? = (c :: s).head? := rfl
      rw [skipUnknown, skipUnknown, hhead]
      by_cases hq : (c :: s).head? = some quote
      · rw [if_pos hq, if_pos hq]
        obtain rfl := Option.some.inj hq
        exact Or.inl rfl
      · rw [if_neg hq, if_neg hq]
        split
        · exact trails_scanNested (ne_of_isspace hblank rfl) (ne_of_isspace hblank rfl) 0 (Or.inl rfl)
        · split
          · exact trails_scanNested (ne_of_isspace hblank rfl) (ne_of_isspace hblank rfl) 0
              (Or.inl rfl)
          · exact (ahead_dropWhile hcomma (Or.inl rfl)).trails
  · exact Or.inr ⟨rfl, rfl⟩

theorem agree_logEntryValue (hblank : isspace blank = true) (entry : LogEntry) (key : Bytes)
    (h : Trails blank s t) :
    Agree (TrailsWith blank) (logEntryValue entry key s) (logEntryValue entry key t) := by
  have hstr : ∀ (buflen : ℕ) (f : Bytes → LogEntry),
      Agree (TrailsWith blank) (parseStr s buflen >>= fun p => pure (f p.1, p.2))
        (parseStr t buflen >>= fun p => pure (f p.1, p.2)) := by
    intro buflen f
    refine (agree_parseStr hblank buflen h).bind fun p q hpq => ?_
    exact ⟨congrArg f hpq.1, hpq.2⟩
  have hlbrace : blank ≠ lbrace := ne_of_isspace hblank rfl
  have hrbrace : blank ≠ rbrace := ne_of_isspace hblank rfl
  have hnested := trails_cutNested hlbrace hrbrace h
  unfold logEntryValue
  split
  · exact hstr _ fun value => { entry with nodeId := CStr.ofBytes value }
  · split
    · have hclock : (vcFromJson entry.vc (cutNested lbrace rbrace t).1 none).2 =
          (vcFromJson entry.vc (cutNested lbrace rbrace s).1 none).2 := by
        rcases hnested.1 with heq | heq
        · rw [heq]
        · rw [heq, vcFromJson_append_blank hblank]
      refine ⟨?_, hnested.2⟩
      show ({ entry with vc := (vcFromJson entry.vc (cutNested lbrace rbrace s).1 none).2 } :
        LogEntry) = { entry with vc := (vcFromJson entry.vc (cutNested lbrace rbrace t).1 none).2 }
      rw [hclock]
    · split
      · have hnum := trailsWith_scanDigits hblank 0 (ahead_skipWhitespace hblank h).trails
        refine ⟨?_, hnum.2⟩
        show ({ entry with timestamp := (parseNum s).1 } : LogEntry) =
          { entry with timestamp := (parseNum t).1 }
        rw [parseNum, parseNum, hnum.1]
      · split
        · exact hstr _ fun value => { entry with level := logLevelFromStr value }
        · split
          · exact hstr _ fun value => { entry with message := CStr.ofBytes value }
          · split
            · exact ⟨rfl, hnested.2⟩
            · exact ⟨rfl, trails_skipUnknown hblank h⟩

theorem agree_logEntryMember (hblank : isspace blank = true) (entry : LogEntry)
    (h : Trails blank s t) :
    Agree (fun p q => p.1 = q.1 ∧ Ahead blank p.2 q.2) (logEntryMember entry s)
      (logEntryMember entry t) := by
  refine (agree_parseStr hblank 64 h).bind fun p q hkey => ?_
  refine (agree_expect (ne_of_isspace hblank rfl)
    (ahead_skipWhitespace hblank hkey.2).trails).bind fun a b hcolon => ?_
  dsimp only
  rw [hkey.1]
  refine (agree_logEntryValue hblank entry q.1
    (ahead_skipWhitespace hblank hcolon).trails).bind fun u w hvalue => ?_
  exact ⟨hvalue.1, ahead_skipComma hblank hvalue.2⟩

/-- The loops over the members end alike, whatever the fate of the blank. -/
theorem agree_logEntryMembers (hblank : isspace blank = true) (entry : LogEntry)
    (h : Ahead blank s t) : Agree Eq (logEntryMembers entry s) (logEntryMembers entry t) := by
  induction hlen : s.length using Nat.strong_induction_on generalizing s t entry with
  | _ len ih =>
    subst hlen
    rcases h with ⟨hne, rfl⟩ | ⟨rfl, rfl⟩
    · cases s with
      | nil => exact absurd rfl hne
      | cons c s =>
        by_cases hend : AtEnd (c :: s)
        · have hend' : AtEnd (c :: s ++ [blank]) := Or.inr (hend.resolve_left (List.cons_ne_nil c s))
          rw [logEntryMembers_of_atEnd hend, logEntryMembers_of_atEnd hend']
          rfl
        · have hend' : ¬ AtEnd (c :: s ++ [blank]) := fun h =>
            hend (Or.inr (h.resolve_left (List.cons_ne_nil c (s ++ [blank]))))
          have hmember := agree_logEntryMember hblank entry
            (Or.inl rfl : Trails blank (c :: s) (c :: s ++ [blank]))
          cases hs : logEntryMember entry (c :: s) with
          | error e =>
            cases ht : logEntryMember entry (c :: s ++ [blank]) with
            | error e' =>
              rw [logEntryMembers_of_error hend hs, logEntryMembers_of_error hend' ht]
              trivial
            | ok q =>
              rw [hs, ht] at hmember
              exact hmember.elim
          | ok p =>
            cases ht : logEntryMember entry (c :: s ++ [blank]) with
            | error e' =>
              rw [hs, ht] at hmember
              exact hmember.elim
            | ok q =>
              rw [hs, ht] at hmember
              rw [logEntryMembers_of_ok hend hs, logEntryMembers_of_ok hend' ht, ← hmember.1]
              exact ih _ (length_logEntryMember hs) p.1 hmember.2 rfl
    · rw [logEntryMembers]
      rfl

/-- **A blank at the end of a line changes nothing**: the line is accepted with it and
without it, as the same entry, or rejected both times. -/
theorem logEntryFromJson_append_blank (hblank : isspace blank = true) (json : Bytes) :
    (logEntryFromJson (json ++ [blank])).toOption = (logEntryFromJson json).toOption := by
  have hskip := ahead_skipWhitespace hblank (Or.inl rfl : Trails blank json (json ++ [blank]))
  have hagree : Agree Eq (logEntryFromJson json) (logEntryFromJson (json ++ [blank])) := by
    refine (agree_expect (ne_of_isspace hblank rfl) hskip.trails).bind fun a b hab => ?_
    exact agree_logEntryMembers hblank LogEntry.zero (ahead_skipWhitespace hblank hab)
  exact hagree.toOption_eq.symm

end

end LogAgg
