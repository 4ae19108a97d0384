import LogAgg.Agent.FreeText
import LogAgg.Agent.Tags

/-!
# Lines with a time

The log generator writes lines such as `2024-06-29 10:00:01 INFO Request started`, behind a
clock tag, and `agent_parse_line` documents them as its first format.  The pattern it uses,
`%d-%d-%d %d:%d:%d.%d %15s %[^\n]`, asks for milliseconds as well, so that it stops behind the
seconds.  The third format then takes the date and the hour for a level, and the minutes, the
seconds, the level and the message for the message (`lineFields_timestampedLine`).  So no line of
this kind is parsed as it is meant (`agentParseLine_timestampedLine`).
-/

namespace LogAgg

open Ascii

/-! ## Dates and times -/

/-- `%0<width>d`. -/
def padded (width n : ℕ) : Bytes := List.replicate (width - (decimal n).length) 48 ++ decimal n

theorem isdigit_of_mem_padded {width n : ℕ} {c : UInt8} (hc : c ∈ padded width n) :
    isdigit c = true := by
  rcases List.mem_append.mp hc with hc | hc
  · rw [List.eq_of_mem_replicate hc]
    rfl
  · exact mem_decimal hc

theorem length_padded (width : ℕ) {n : ℕ} (hwidth : 1 ≤ width) (hn : n < 10 ^ width) :
    (padded width n).length = width := by
  have hlen := length_decimal_le hwidth hn
  rw [padded, List.length_append, List.length_replicate]
  omega

/-- A padded number is a numeral. -/
def paddedNumeral (width : ℕ) {n : ℕ} (hwidth : 1 ≤ width) (hmax : width ≤ 9)
    (hn : n < 10 ^ width) : Numeral where
  digits := padded width n
  ne_nil := List.append_ne_nil_of_right_ne_nil _ (decimal_ne_nil n)
  isdigit_of_mem := fun _ hc => isdigit_of_mem_padded hc
  value_lt := by
    have hvalue := digitsValue_lt fun c (hc : c ∈ padded width n) => isdigit_of_mem_padded hc
    rw [length_padded width hwidth hn] at hvalue
    calc digitsValue (padded width n) < 10 ^ width := hvalue
      _ ≤ 10 ^ 9 := Nat.pow_le_pow_right (by omega) hmax
      _ < 2 ^ 31 := by norm_num

/-- A date and a time.  (A second may be a leap second.) -/
structure DateTime where
  year : ℕ
  month : ℕ
  day : ℕ
  hour : ℕ
  min : ℕ
  sec : ℕ
  year_lt : year < 10000
  month_mem : 1 ≤ month ∧ month ≤ 12
  day_mem : 1 ≤ day ∧ day ≤ 31
  hour_lt : hour < 24
  min_lt : min < 60
  sec_le : sec ≤ 60

namespace DateTime

variable (time : DateTime)

/-- `YYYY-MM-DD HH:MM:SS`, in front of some text. -/
def text (behind : Bytes) : Bytes :=
  padded 4 time.year ++ 45 :: (padded 2 time.month ++ 45 :: (padded 2 time.day ++ space ::
    (padded 2 time.hour ++ colon :: (padded 2 time.min ++ colon ::
      (padded 2 time.sec ++ behind)))))

/-- The date and the hour. -/
def dateHour : Bytes :=
  padded 4 time.year ++ 45 :: (padded 2 time.month ++ 45 :: (padded 2 time.day ++ space ::
    padded 2 time.hour))

/-- What is behind the first colon. -/
def behindColon (behind : Bytes) : Bytes :=
  padded 2 time.min ++ colon :: (padded 2 time.sec ++ behind)

theorem text_eq (behind : Bytes) :
    time.text behind = time.dateHour ++ colon :: time.behindColon behind := by
  simp only [text, dateHour, behindColon, List.append_assoc, List.cons_append]

/-- All numbers but the year have two digits. -/
theorem two_digits : time.month < 10 ^ 2 ∧ time.day < 10 ^ 2 ∧ time.hour < 10 ^ 2 ∧
    time.min < 10 ^ 2 ∧ time.sec < 10 ^ 2 := by
  have hmonth := time.month_mem
  have hday := time.day_mem
  have hhour := time.hour_lt
  have hmin := time.min_lt
  have hsec := time.sec_le
  omega

/-- A padded number is read. -/
theorem exists_readsInt (width : ℕ) {n : ℕ} (hwidth : 1 ≤ width) (hmax : width ≤ 9)
    (hn : n < 10 ^ width) : ∃ value : ℤ, ReadsInt (padded width n) value :=
  ⟨_, (paddedNumeral width hwidth hmax hn).readsInt⟩

/-- **The first format stops behind the seconds**, where it looks for a dot. -/
theorem length_scanf_timeFormat (behind : Bytes) :
    (scanf timeFormat (time.text (space :: behind))).length = 6 := by
  obtain ⟨hmonth2, hday2, hhour2, hmin2, hsec2⟩ := time.two_digits
  obtain ⟨year, hyear⟩ := exists_readsInt 4 (by omega) (by omega) time.year_lt
  obtain ⟨month, hmonth⟩ := exists_readsInt 2 (by omega) (by omega) hmonth2
  obtain ⟨day, hday⟩ := exists_readsInt 2 (by omega) (by omega) hday2
  obtain ⟨hour, hhour⟩ := exists_readsInt 2 (by omega) (by omega) hhour2
  obtain ⟨min, hmin⟩ := exists_readsInt 2 (by omega) (by omega) hmin2
  obtain ⟨sec, hsec⟩ := exists_readsInt 2 (by omega) (by omega) hsec2
  have hstop : ∀ d : UInt8, isdigit d = false → ∀ (s : Bytes) (c : UInt8),
      (d :: s).head? = some c → isdigit c = false := by
    intro d hd s c hc
    rwa [← Option.some_inj.mp hc]
  have hblank : ∀ s : Bytes, skipWhitespace (space :: s) = skipWhitespace s := fun s => rfl
  have hdigits : skipWhitespace (padded 2 time.hour ++ colon :: time.behindColon (space :: behind))
      = padded 2 time.hour ++ colon :: time.behindColon (space :: behind) :=
    (paddedNumeral 2 (by omega) (by omega) hhour2).skipWhitespace_digits _
  rw [behindColon] at hdigits
  rw [timeFormat, text, hyear _ _ (hstop 45 rfl _), scanf_char, hmonth _ _ (hstop 45 rfl _),
    scanf_char, hday _ _ (hstop space rfl _), scanf, hblank, hdigits,
    hhour _ _ (hstop colon rfl _), scanf_char, hmin _ _ (hstop colon rfl _), scanf_char,
    hsec _ _ (hstop space rfl _), scanf, if_neg (by decide)]
  rfl

/-- The date and the hour are short enough for a level. -/
theorem length_dateHour : time.dateHour.length = 13 := by
  obtain ⟨hmonth, hday, hhour, -, -⟩ := time.two_digits
  simp only [dateHour, List.length_append, List.length_cons,
    length_padded 4 (by omega) time.year_lt, length_padded 2 (by omega) hmonth,
    length_padded 2 (by omega) hday, length_padded 2 (by omega) hhour]

/-- No byte of a padded number but digits. -/
theorem notMem_padded {c : UInt8} (hc : isdigit c = false) (width n : ℕ) : c ∉ padded width n := by
  intro hmem
  rw [isdigit_of_mem_padded hmem] at hc
  exact absurd hc (by decide)

theorem colon_notMem_dateHour : colon ∉ time.dateHour := by
  have hcolon : ∀ width n : ℕ, colon ∉ padded width n := notMem_padded rfl
  have hne : colon ≠ 45 ∧ colon ≠ space := by decide
  simp [dateHour, hcolon, hne]

/-- There is no bracket in front. -/
theorem head?_text (behind : Bytes) {c : UInt8} (hc : isdigit c = false) :
    (time.text behind).head? ≠ some c := by
  have hne : padded 4 time.year ≠ [] := List.append_ne_nil_of_right_ne_nil _ (decimal_ne_nil _)
  rw [text, List.head?_append_of_ne_nil _ hne]
  intro hhead
  exact notMem_padded hc _ _ (List.mem_of_mem_head? hhead)

theorem skipWhitespace_behindColon (behind : Bytes) :
    skipWhitespace (time.behindColon behind) = time.behindColon behind :=
  (paddedNumeral 2 (by omega) (by omega) time.two_digits.2.2.2.1).skipWhitespace_digits _

theorem mem_behindColon {behind : Bytes} {c : UInt8} (hdigit : isdigit c = false) (hc : c ≠ colon)
    (hmem : c ∈ time.behindColon behind) : c ∈ behind := by
  have hpadded : ∀ width n : ℕ, c ∉ padded width n := notMem_padded hdigit
  simpa [behindColon, hpadded, hc] using hmem

theorem length_behindColon (behind : Bytes) :
    (time.behindColon behind).length = behind.length + 5 := by
  obtain ⟨-, -, -, hmin, hsec⟩ := time.two_digits
  simp only [behindColon, List.length_append, List.length_cons, length_padded 2 (by omega) hmin,
    length_padded 2 (by omega) hsec]
  omega

/-- **The third format reads a time**: the date and the hour for the level, and all the rest for
the message. -/
theorem parseContent_text {behind : Bytes}
    (hnewline : newline ∉ time.behindColon (space :: behind)) :
    parseContent (time.text (space :: behind)) =
      ⟨time.dateHour, time.behindColon (space :: behind), none⟩ := by
  have hskip := time.skipWhitespace_behindColon (space :: behind)
  have hdate : time.dateHour ≠ [] := by
    intro h
    exact absurd (congrArg List.length h) (by rw [time.length_dateHour]; simp)
  have hne : time.behindColon (space :: behind) ≠ [] := by
    intro h
    exact absurd (congrArg List.length h) (by rw [time.length_behindColon]; simp)
  have hscan : scanf colonFormat (time.dateHour ++ colon :: time.behindColon (space :: behind)) =
      [.str time.dateHour, .str (skipWhitespace (time.behindColon (space :: behind)))] :=
    scanf_colonFormat hdate time.colon_notMem_dateHour (by rw [time.length_dateHour]; omega)
      (by rwa [hskip]) (by rwa [hskip])
  rw [parseContent_of_short (by rw [time.length_scanf_timeFormat]; omega) (time.head?_text _ rfl),
    time.text_eq, hscan, hskip]
  rfl

end DateTime

/-! ## Lines with a time -/

/-- A message that such a line may have. -/
structure MessageText where
  bytes : Bytes
  ne_nil : bytes ≠ []
  length_le : bytes.length ≤ 900
  newline_notMem : newline ∉ bytes
  nul_notMem : (0 : UInt8) ∉ bytes
  head?_not_space : ∀ c, bytes.head? = some c → isspace c = false

/-- `YYYY-MM-DD HH:MM:SS LEVEL message`. -/
def timestampedText (time : DateTime) (level : LogLevel) (message : MessageText) : Bytes :=
  time.text (space :: (logLevelStr level ++ space :: message.bytes))

/-- The line with `[VC:a,b,c] ` in front, or without. -/
def timestampedLine (tag : Option (Fin 3 → Numeral)) (time : DateTime) (level : LogLevel)
    (message : MessageText) : Bytes :=
  match tag with
  | some values => taggedText values (space :: timestampedText time level message)
  | none => timestampedText time level message

section

variable (tag : Option (Fin 3 → Numeral)) (time : DateTime) (level : LogLevel)
  (message : MessageText)

theorem parseVcTag_timestampedLine :
    (parseVcTag (timestampedLine tag time level message)).1 =
      timestampedText time level message := by
  have hspace : (timestampedText time level message).head? ≠ some space := time.head?_text _ rfl
  have hbracket : (timestampedText time level message).head? ≠ some lbracket :=
    time.head?_text _ rfl
  cases hcontent : timestampedText time level message with
  | nil =>
    have hlen := congrArg List.length hcontent
    rw [timestampedText, DateTime.text_eq, List.length_append, time.length_dateHour,
      List.length_nil] at hlen
    omega
  | cons c content =>
    rw [hcontent, List.head?_cons, Ne, Option.some_inj] at hspace hbracket
    cases tag with
    | some values =>
      have hskip : (space :: c :: content).dropWhile (fun d => d == space) = c :: content := by
        rw [List.dropWhile_cons_of_pos rfl, List.dropWhile_cons_of_neg (by simpa using hspace)]
      rw [timestampedLine, hcontent, parseVcTag_taggedText, hskip]
    | none =>
      have hne : (c :: content).take 4 ≠ ascii "[VC:" := by
        rw [List.take_succ_cons]
        intro h
        exact hbracket (List.cons.inj h).1
      rw [timestampedLine, hcontent, parseVcTag, if_neg hne]

/-- No level has so long a name. -/
theorem logLevelFromStr_of_length {str : Bytes} (hlen : 5 < str.length) :
    logLevelFromStr str = .info := by
  have hne : ∀ name : Bytes, name.length ≤ 5 → strcaseeq str name = false := by
    intro name hname
    rw [strcaseeq, beq_eq_false_iff_ne]
    intro heq
    have := congrArg List.length heq
    rw [List.length_map, List.length_map] at this
    omega
  unfold logLevelFromStr
  rw [hne (ascii "DEBUG") (by decide), hne (ascii "INFO") (by decide),
    hne (ascii "WARN") (by decide), hne (ascii "ERROR") (by decide), hne (ascii "FATAL") (by decide)]
  rfl

/-- What stands behind the first colon of such a line: digits, colons, spaces, capitals, and the
message. -/
theorem notMem_behindColon {c : UInt8} (hdigit : isdigit c = false) (hupper : isupper c = false)
    (hcolon : c ≠ colon) (hspace : c ≠ space) (hmessage : c ∉ message.bytes) :
    c ∉ time.behindColon (space :: (logLevelStr level ++ space :: message.bytes)) := by
  intro h
  have hin := time.mem_behindColon hdigit hcolon h
  rw [List.mem_cons, List.mem_append, List.mem_cons] at hin
  rcases hin with h | h | h | h
  · exact hspace h
  · exact notMem_logLevelStr hupper level h
  · exact hspace h
  · exact hmessage h

/-- **What the agent makes of such a line**: an entry at level `INFO`, with the minutes, the
seconds and the level in its message. -/
theorem lineFields_timestampedLine :
    (lineFields (timestampedLine tag time level message)).1.bytes =
        time.behindColon (space :: (logLevelStr level ++ space :: message.bytes)) ∧
      (lineFields (timestampedLine tag time level message)).2 = .info := by
  have hlevel := length_logLevelStr_le level
  have hmessage := message.length_le
  have hnewline := notMem_behindColon time level message (c := newline) rfl rfl (by decide)
    (by decide) message.newline_notMem
  have hnul := notMem_behindColon time level message (c := 0) rfl rfl (by decide) (by decide)
    message.nul_notMem
  have hlen : (time.behindColon (space :: (logLevelStr level ++ space :: message.bytes))).length ≤
      914 := by
    rw [time.length_behindColon, List.length_cons, List.length_append, List.length_cons]
    omega
  rw [lineFields, parseVcTag_timestampedLine, timestampedText, time.parseContent_text hnewline]
  refine ⟨CStr.bytes_ofBytes (hlen.trans (by decide)) hnul, logLevelFromStr_of_length ?_⟩
  rw [time.length_dateHour]
  omega

/-- **Lines with a time are never parsed as documented.**  Whatever the date, the time, the level
and the message are, and with a clock tag in front or without, the message of the entry is not
the message of the line. -/
theorem agentParseLine_timestampedLine (mktime : Tm → ℤ) (now : UInt64) :
    ¬ ∃ entry parsedVc,
      agentParseLine mktime now (timestampedLine tag time level message) =
          some (entry, parsedVc) ∧
        entry.level = level ∧ entry.message.bytes = message.bytes := by
  rintro ⟨entry, parsedVc, hparse, -, hmessage⟩
  have hfields := congrArg Prod.fst (agentParseLine_eq_some hparse).1
  have hlen := time.length_behindColon (space :: (logLevelStr level ++ space :: message.bytes))
  rw [← (lineFields_timestampedLine tag time level message).1, ← hfields, hmessage,
    List.length_cons, List.length_append, List.length_cons] at hlen
  omega

end

/-- A line of the documented format, at level `WARN`: the entry has another level and another
message. -/
theorem agentParseLine_documented :
    (agentParseLine (fun _ => 0) 0 (ascii "2024-06-29 10:00:01 WARN Request started")).map
        (fun r => (r.1.level, r.1.message.bytes)) =
      some (.info, ascii "00:01 WARN Request started") ∧
    (LogLevel.info, ascii "00:01 WARN Request started") ≠
      (LogLevel.warn, ascii "Request started") := by
  decide +kernel

end LogAgg
