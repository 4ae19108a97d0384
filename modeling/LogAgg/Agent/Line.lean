import LogAgg.CString.Scanf
import LogAgg.CString.Stdio
import LogAgg.LogEntry.Json

/-!
# The lines that an agent reads

`agent_parse_line` of `agent.c`.  A line may carry the clock of its writer in a tag
`[VC:a,b,c]` in front (`parseVcTag`).  For what follows there are three formats, tried one
after the other, and a text that has none of them is the message of an entry at level `INFO`
(`parseContent`).

The line break that `fgets` stores behind a line changes nothing of what is parsed
(`agentParseLine_append_newline`).
-/

namespace LogAgg

open Ascii

/-- The values of a clock tag, or `-1` three times. -/
abbrev ParsedVc := Fin 3 → ℤ

instance neZero_three : NeZero (3 : ℕ) := ⟨Nat.succ_ne_zero 2⟩

/-- `struct tm`, as far as it is filled in. -/
structure Tm where
  year : ℤ
  mon : ℤ
  mday : ℤ
  hour : ℤ
  min : ℤ
  sec : ℤ
  deriving DecidableEq

/-- What is read behind the clock tag: the name of the level, the message, and the time with
its milliseconds, if there is one. -/
structure ParsedContent where
  levelStr : Bytes
  message : Bytes
  time : Option (Tm × ℤ)
  deriving DecidableEq

/-- The format `%d,%d,%d`. -/
def vcFormat : List Directive := [.int, .char comma, .int, .char comma, .int]

/-- The format `%d-%d-%d %d:%d:%d.%d %15s %[^\n]`. -/
def timeFormat : List Directive :=
  [.int, .char 45, .int, .char 45, .int, .blank, .int, .char colon, .int, .char colon, .int,
    .char 46, .int, .blank, .word 15, .blank, .set none newline]

/-- The format `[%15[^]]] %[^\n]`. -/
def bracketFormat : List Directive :=
  [.char lbracket, .set (some 15) rbracket, .char rbracket, .blank, .set none newline]

/-- The format `%15[^:]: %[^\n]`. -/
def colonFormat : List Directive :=
  [.set (some 15) colon, .char colon, .blank, .set none newline]

/-- The clock tag of `agent_parse_line`: what is left of the line, and the values.  Values
without a closing bracket are taken, too, and the line stays as it is. -/
def parseVcTag (line : Bytes) : Bytes × ParsedVc :=
  if line.take 4 = ascii "[VC:" then
    match scanf vcFormat (line.drop 4) with
    | [.int a, .int b, .int c] =>
        match line.dropWhile fun d => d != rbracket with
        | [] => (line, ![a, b, c])
        | _ :: content => (content.dropWhile fun d => d == space, ![a, b, c])
    | _ => (line, fun _ => -1)
  else (line, fun _ => -1)

/-- A level and a message, where both were converted. -/
def levelAndMessage : List Scanned → Option (Bytes × Bytes)
  | [.str level, .str message] => some (level, message)
  | _ => none

/-- The formats of `agent_parse_line`.  Of the first, the message may be missing. -/
def parseContent (content : Bytes) : ParsedContent :=
  match scanf timeFormat content with
  | .int year :: .int month :: .int day :: .int hour :: .int min :: .int sec :: .int ms ::
      .str level :: rest =>
    let message := match rest with
      | [.str message] => message
      | _ => []
    ⟨level, message, some (⟨year - 1900, month - 1, day, hour, min, sec⟩, ms)⟩
  | _ =>
    match levelAndMessage (scanf bracketFormat content) with
    | some (level, message) => ⟨level, message, none⟩
    | none =>
      match levelAndMessage (scanf colonFormat content) with
      | some (level, message) => ⟨level, message, none⟩
      | none => ⟨ascii "INFO", cutNewline (content.take logMessageMaxLen), none⟩

/-- `agent_parse_line`: the entry and the values of the clock tag, or `none` for `-1`.  The
entry is new, but for the message, the level and the time, which is `now` for a line without
a time of its own. -/
def agentParseLine (mktime : Tm → ℤ) (now : UInt64) (line : Bytes) :
    Option (LogEntry × ParsedVc) :=
  if line = [] ∨ line.head? = some newline then none
  else
    let (content, parsedVc) := parseVcTag line
    let parsed := parseContent content
    let timestamp := match parsed.time with
      | some (t, ms) => UInt64.ofInt (mktime t) * 1000 + UInt64.ofInt ms
      | none => now
    some ({ LogEntry.zero with
      timestamp
      level := logLevelFromStr parsed.levelStr
      message := CStr.ofBytes parsed.message }, parsedVc)

/-! ## What is parsed -/

variable {mktime : Tm → ℤ} {now : UInt64} {line : Bytes}

/-- Blank lines are not parsed, and all others are. -/
theorem agentParseLine_eq_none_iff :
    agentParseLine mktime now line = none ↔ line = [] ∨ line.head? = some newline := by
  unfold agentParseLine
  by_cases h : line = [] ∨ line.head? = some newline
  · rw [if_pos h]
    exact ⟨fun _ => h, fun _ => rfl⟩
  · rw [if_neg h]
    exact ⟨fun hsome => absurd hsome (by simp), fun hblank => absurd hblank h⟩

/-- The message and the level that a line is parsed to. -/
def lineFields (line : Bytes) : CStr logMessageMaxLen × LogLevel :=
  let parsed := parseContent (parseVcTag line).1
  (CStr.ofBytes parsed.message, logLevelFromStr parsed.levelStr)

/-- What is parsed depends on the line, but for the time. -/
theorem agentParseLine_eq_some {entry : LogEntry} {parsedVc : ParsedVc}
    (h : agentParseLine mktime now line = some (entry, parsedVc)) :
    (entry.message, entry.level) = lineFields line ∧ parsedVc = (parseVcTag line).2 ∧
      entry.metadata = [] := by
  unfold agentParseLine at h
  split at h
  · exact absurd h (by simp)
  · rw [Option.some_inj] at h
    obtain ⟨rfl, rfl⟩ := Prod.mk.inj h
    exact ⟨rfl, rfl, rfl⟩

/-- A line that is not blank is parsed. -/
theorem exists_agentParseLine (mktime : Tm → ℤ) (now : UInt64) (hne : line ≠ [])
    (hhead : line.head? ≠ some newline) :
    ∃ entry, agentParseLine mktime now line = some (entry, (parseVcTag line).2) ∧
      (entry.message, entry.level) = lineFields line := by
  have hsome : agentParseLine mktime now line ≠ none := by
    rw [Ne, agentParseLine_eq_none_iff, not_or]
    exact ⟨hne, hhead⟩
  obtain ⟨⟨entry, parsedVc⟩, hparse⟩ := Option.ne_none_iff_exists'.mp hsome
  obtain ⟨hfields, rfl, -⟩ := agentParseLine_eq_some hparse
  exact ⟨entry, hparse, hfields⟩

/-! ## The line break behind a line -/

theorem take_append_newline {tag : Bytes} (htag : newline ∉ tag) (line : Bytes) :
    (line ++ [newline]).take tag.length = tag ↔ line.take tag.length = tag := by
  by_cases hlen : tag.length ≤ line.length
  · rw [List.take_append_of_le_length hlen]
  · have hshort : line.take tag.length ≠ tag := by
      intro h
      have := congrArg List.length h
      rw [List.length_take] at this
      omega
    have hbreak : (line ++ [newline]).take tag.length ≠ tag := by
      rw [List.take_of_length_le (by rw [List.length_append, List.length_singleton]; omega)]
      rintro rfl
      exact htag (List.mem_append_right _ List.mem_cons_self)
    exact ⟨fun h => absurd h hbreak, fun h => absurd h hshort⟩

/-- The line break stays behind the content. -/
theorem parseVcTag_append_newline (line : Bytes) :
    parseVcTag (line ++ [newline]) = ((parseVcTag line).1 ++ [newline], (parseVcTag line).2) := by
  have hnewline : newline ∉ ascii "[VC:" := by decide
  have htake := take_append_newline hnewline line
  have hlength : (ascii "[VC:").length = 4 := rfl
  rw [hlength] at htake
  unfold parseVcTag
  by_cases htag : line.take 4 = ascii "[VC:"
  · have hlen : 4 ≤ line.length := by
      have := congrArg List.length htag
      rw [List.length_take, hlength] at this
      omega
    have hscan : scanf vcFormat (line.drop 4 ++ [newline]) = scanf vcFormat (line.drop 4) :=
      (scanf_trails rfl (by decide) (Or.inl rfl)).symm
    have hbracket : Ahead newline (line.dropWhile fun d => d != rbracket)
        ((line ++ [newline]).dropWhile fun d => d != rbracket) :=
      ahead_dropWhile (p := fun d => d != rbracket) (by decide) (Or.inl rfl)
    rw [if_pos htag, if_pos (htake.mpr htag), List.drop_append_of_le_length hlen, hscan]
    split
    · rcases hbracket with ⟨hne, hdrop⟩ | ⟨hnil, hnil'⟩
      · rw [hdrop]
        cases hbehind : line.dropWhile fun d => d != rbracket with
        | nil => exact absurd hbehind hne
        | cons d content =>
          rw [List.cons_append]
          dsimp only
          rw [dropWhile_append_of_neg (p := fun d => d == space) (by decide)]
      · rw [hnil, hnil']
    · rfl
  · rw [if_neg htag, if_neg (mt htake.mp htag)]

/-- Two conversions that are the same, or both too few, give the same level and message. -/
theorem levelAndMessage_eq {x y : List Scanned} (h : x = y ∨ x.length ≤ 1 ∧ y.length ≤ 1) :
    levelAndMessage x = levelAndMessage y := by
  have hnone : ∀ z : List Scanned, z.length ≤ 1 → levelAndMessage z = none := by
    intro z hz
    cases z with
    | nil => rfl
    | cons a z =>
      cases z with
      | nil => cases a <;> rfl
      | cons b z => exact absurd hz (by simp)
  rcases h with rfl | ⟨hx, hy⟩
  · rfl
  · rw [hnone x hx, hnone y hy]

theorem parseContent_append_newline {content : Bytes} (hcontent : newline ∉ content) :
    parseContent (content ++ [newline]) = parseContent content := by
  have htrails : Trails newline content (content ++ [newline]) := Or.inl rfl
  have htime : scanf timeFormat (content ++ [newline]) = scanf timeFormat content :=
    (scanf_trails rfl (by decide) htrails).symm
  have hcolon : levelAndMessage (scanf colonFormat (content ++ [newline])) =
      levelAndMessage (scanf colonFormat content) :=
    (levelAndMessage_eq (scanf_set_char rfl (some 15) (by decide) (by decide) htrails)).symm
  have hbracket : levelAndMessage (scanf bracketFormat (content ++ [newline])) =
      levelAndMessage (scanf bracketFormat content) := by
    cases content with
    | nil => rfl
    | cons c content =>
      rw [List.cons_append, bracketFormat, scanf, scanf]
      split
      · exact (levelAndMessage_eq
          (scanf_set_char rfl (some 15) (by decide) (by decide) (Or.inl rfl))).symm
      · rfl
  have hmessage : cutNewline ((content ++ [newline]).take logMessageMaxLen) =
      cutNewline (content.take logMessageMaxLen) := by
    have htake : newline ∉ content.take logMessageMaxLen :=
      fun h => hcontent (List.mem_of_mem_take h)
    by_cases hlen : logMessageMaxLen ≤ content.length
    · rw [List.take_append_of_le_length hlen]
    · have hall : (content ++ [newline]).take logMessageMaxLen = content ++ [newline] := by
        refine List.take_of_length_le ?_
        rw [List.length_append, List.length_singleton]
        omega
      rw [hall, cutNewline_append, cutNewline_of_notMem htake, List.take_of_length_le (by omega)]
  unfold parseContent
  rw [htime, hbracket, hcolon, hmessage]

/-- The content of a line holds bytes of the line. -/
theorem subset_parseVcTag (line : Bytes) : ∀ c ∈ (parseVcTag line).1, c ∈ line := by
  unfold parseVcTag
  split
  · split
    · cases hbehind : line.dropWhile fun d => d != rbracket with
      | nil => exact fun c hc => hc
      | cons d content =>
        intro c hc
        have hmem : c ∈ line.dropWhile fun d => d != rbracket := by
          rw [hbehind]
          exact List.mem_cons_of_mem _ ((List.dropWhile_suffix _).subset hc)
        exact (List.dropWhile_suffix _).subset hmem
    · exact fun c hc => hc
  · exact fun c hc => hc

theorem lineFields_append_newline (hline : newline ∉ line) :
    lineFields (line ++ [newline]) = lineFields line := by
  have hcontent : newline ∉ (parseVcTag line).1 := fun h => hline (subset_parseVcTag line _ h)
  simp only [lineFields, parseVcTag_append_newline, parseContent_append_newline hcontent]

/-- **The line break behind a line changes nothing.** -/
theorem agentParseLine_append_newline (hne : line ≠ []) (hline : newline ∉ line) :
    agentParseLine mktime now (line ++ [newline]) = agentParseLine mktime now line := by
  have hempty : line ++ [newline] ≠ [] := List.append_ne_nil_of_left_ne_nil hne _
  have hcontent : newline ∉ (parseVcTag line).1 := fun h => hline (subset_parseVcTag line _ h)
  unfold agentParseLine
  simp only [hempty, hne, List.head?_append_of_ne_nil _ hne, parseVcTag_append_newline,
    parseContent_append_newline hcontent]

end LogAgg
