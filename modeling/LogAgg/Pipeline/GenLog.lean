import LogAgg.Agent.Timestamped
import LogAgg.Pipeline.Causal

/-!
# The log generator

`gen_log.c` writes the log of one of three nodes, some rounds of events behind tags with the
clock of the node.  Its three files are the logs of one computation (`genLog_computation`), if the
first node has run wherever another one has: the second event of the first node is before all events
of the second node, and its fourth event before all events of the third.  This is the order in which
the server writes these events, and which the query tool draws.
-/

namespace LogAgg

open Ascii Causality EventOrder Network

/-! ## The generator -/

/-- The events of a round, in the order of `main`. -/
inductive GenStep where
  | requestReceived
  | callingLookup
  | responseReceived
  | sendingResult
  | requestCompleted
  | processingLookup
  | cacheMiss
  | userFound
  | loggingResult
  | entrySaved
  | auditUpdated

/-- The `level` of an event. -/
def GenStep.level : GenStep → Bytes
  | .cacheMiss => ascii "WARN"
  | .entrySaved => ascii "DEBUG"
  | _ => ascii "INFO"

/-- The `message` of an event. -/
def GenStep.message : GenStep → Bytes
  | .requestReceived => ascii "Request received from client"
  | .callingLookup => ascii "Calling node-02 for user lookup"
  | .responseReceived => ascii "Received response from node-02"
  | .sendingResult => ascii "Sending result to node-03 for logging"
  | .requestCompleted => ascii "Request completed successfully"
  | .processingLookup => ascii "Processing user lookup request"
  | .cacheMiss => ascii "Cache miss, querying database"
  | .userFound => ascii "User found: id=12345, name=test_user"
  | .loggingResult => ascii "Logging request result"
  | .entrySaved => ascii "Log entry saved to database"
  | .auditUpdated => ascii "Audit trail updated"

/-- A call of `write_log`: the clock, the time that `get_timestamp` reads, and the event. -/
structure GenLine where
  vc : ℕ → ℕ
  time : DateTime
  step : GenStep

/-- What is behind the tag of a line. -/
def GenLine.content (line : GenLine) : Bytes :=
  space :: line.time.text (space :: (line.step.level ++ space :: space :: line.step.message))

/-- The line of `write_log`, without its line break. -/
def GenLine.text (line : GenLine) : Bytes :=
  tagText (fun i => decimal (line.vc i)) line.content

/-- The variables of `main`: the clock and the file. -/
structure GenLog where
  vc : ℕ → ℕ
  lines : List GenLine

/-- The bytes of the file. -/
def GenLog.file (s : GenLog) : Bytes := s.lines.flatMap fun line => line.text ++ [newline]

/-- `vc[i] = value`. -/
def GenLog.know (i value : ℕ) (s : GenLog) : GenLog := { s with vc := Function.update s.vc i value }

/-- `vc[i]++` and a call of `write_log`. -/
def GenLog.logEvent (time : ℕ → DateTime) (i : ℕ) (s : GenLog) (step : GenStep) : GenLog :=
  let s := s.know i (s.vc i + 1)
  { s with lines := s.lines ++ [⟨s.vc, time s.lines.length, step⟩] }

/-- One cycle of the loop in `main`. -/
def genCycle (time : ℕ → DateTime) (nodeId : ℕ) (s : GenLog) : GenLog :=
  match nodeId with
  | 1 => [GenStep.requestReceived, .callingLookup, .responseReceived, .sendingResult,
      .requestCompleted].foldl (GenLog.logEvent time 0) s
  | 2 => [GenStep.processingLookup, .cacheMiss, .userFound].foldl (GenLog.logEvent time 1)
      (s.know 0 2)
  | 3 => [GenStep.loggingResult, .entrySaved, .auditUpdated].foldl (GenLog.logEvent time 2)
      (s.know 0 4)
  | _ => s

/-- `main`, for the node `nodeId`. -/
def genLog (time : ℕ → DateTime) (nodeId cycles : ℕ) : GenLog :=
  (genCycle time nodeId)^[cycles] ⟨fun _ => 0, []⟩

/-! ## The clocks in its files -/

/-- What a node knows of another one. -/
def genKnown : ℕ → ℕ → ℕ
  | 1, 0 => 2
  | 2, 0 => 4
  | _, _ => 0

/-- The clock of the event `m` of a node. -/
def genClock (i m j : ℕ) : ℕ := if j = i then m else genKnown i j

theorem genKnown_pos {i j : ℕ} (h : 0 < genKnown i j) :
    j = 0 ∧ (i = 1 ∨ i = 2) ∧ genKnown i j ≤ 4 := by
  unfold genKnown at h ⊢
  split at h
  · exact ⟨rfl, Or.inl rfl, by decide⟩
  · exact ⟨rfl, Or.inr rfl, le_rfl⟩
  · exact absurd h (lt_irrefl 0)

/-- The number of events in a cycle. -/
def perCycle : ℕ → ℕ
  | 0 => 5
  | _ => 3

/-- The own component counts the lines, and the lines carry the clocks of their events. -/
structure Generated (i : ℕ) (s : GenLog) : Prop where
  own : s.vc i = s.lines.length
  clock : ∀ k line, s.lines[k]? = some line → ∀ j, j < 3 → line.vc j = genClock i (k + 1) j

/-- What is known of the other nodes. -/
def GenLog.Knows (i : ℕ) (s : GenLog) : Prop := ∀ j, j < 3 → j ≠ i → s.vc j = genKnown i j

section Generated

variable {time : ℕ → DateTime} {i : ℕ} {s : GenLog}

theorem Generated.logEvent (h : Generated i s) (hknows : s.Knows i) (step : GenStep) :
    Generated i (s.logEvent time i step) ∧ (s.logEvent time i step).Knows i ∧
      (s.logEvent time i step).lines.length = s.lines.length + 1 := by
  have hvc : ∀ j, (s.logEvent time i step).vc j = if j = i then s.lines.length + 1 else s.vc j := by
    intro j
    show Function.update s.vc i (s.vc i + 1) j = _
    rw [Function.update_apply, h.own]
  have hlines : (s.logEvent time i step).lines = s.lines ++
      [⟨(s.logEvent time i step).vc, time s.lines.length, step⟩] := rfl
  have hlength : (s.logEvent time i step).lines.length = s.lines.length + 1 := by
    rw [hlines, List.length_append, List.length_singleton]
  have hothers : (s.logEvent time i step).Knows i := by
    intro j hj hji
    rw [hvc, if_neg hji]
    exact hknows j hj hji
  refine ⟨⟨?_, fun k line hline j hj => ?_⟩, hothers, hlength⟩
  · rw [hvc, if_pos rfl, hlength]
  · rw [hlines] at hline
    by_cases hk : k < s.lines.length
    · rw [List.getElem?_append_left hk] at hline
      exact h.clock k line hline j hj
    · -- the line that was written now
      have hlast : k = s.lines.length := by
        have hlt := (List.getElem?_eq_some_iff.mp hline).1
        rw [List.length_append, List.length_singleton] at hlt
        omega
      rw [hlast, List.getElem?_concat_length] at hline
      rw [← Option.some.inj hline, hlast, genClock]
      show (s.logEvent time i step).vc j = _
      rw [hvc]
      by_cases hji : j = i
      · rw [if_pos hji, if_pos hji]
      · rw [if_neg hji, if_neg hji]
        exact hknows j hj hji

/-- Some events, one after the other. -/
theorem Generated.foldl (h : Generated i s) (hknows : s.Knows i) (steps : List GenStep) :
    Generated i (steps.foldl (GenLog.logEvent time i) s) ∧
      (steps.foldl (GenLog.logEvent time i) s).Knows i ∧
      (steps.foldl (GenLog.logEvent time i) s).lines.length = s.lines.length + steps.length := by
  induction steps generalizing s with
  | nil => exact ⟨h, hknows, rfl⟩
  | cons step steps ih =>
    obtain ⟨hstep, hstepKnows, hlength⟩ := h.logEvent hknows step
    obtain ⟨hrest, hrestKnows, hrestLength⟩ := ih hstep hstepKnows
    refine ⟨hrest, hrestKnows, ?_⟩
    rw [List.foldl_cons, hrestLength, hlength, List.length_cons]
    omega

/-- **One cycle.** -/
theorem Generated.genCycle (hi : i < 3) (h : Generated i s)
    (hquiet : ∀ j, j < 3 → j ≠ i → j ≠ 0 → s.vc j = 0) :
    Generated i (LogAgg.genCycle time (i + 1) s) ∧
      (∀ j, j < 3 → j ≠ i → j ≠ 0 → (LogAgg.genCycle time (i + 1) s).vc j = 0) ∧
      (LogAgg.genCycle time (i + 1) s).lines.length = s.lines.length + perCycle i := by
  have hzero : ∀ {j}, j ≠ 0 → genKnown i j = 0 := by
    intro j hj
    obtain ⟨j, rfl⟩ := Nat.exists_eq_succ_of_ne_zero hj
    interval_cases i <;> rfl
  -- behind the assignment to `vc[0]` everything is known
  have hround : ∀ (s' : GenLog) (steps : List GenStep), Generated i s' → s'.Knows i →
      s'.lines = s.lines → steps.length = perCycle i →
      Generated i (steps.foldl (GenLog.logEvent time i) s') ∧
        (∀ j, j < 3 → j ≠ i → j ≠ 0 → (steps.foldl (GenLog.logEvent time i) s').vc j = 0) ∧
        (steps.foldl (GenLog.logEvent time i) s').lines.length =
          s.lines.length + perCycle i := by
    intro s' steps hs' hknows hlines hlength
    obtain ⟨hafter, hafterKnows, hafterLength⟩ := hs'.foldl hknows steps
    refine ⟨hafter, fun j hj hji hj0 => (hafterKnows j hj hji).trans (hzero hj0), ?_⟩
    rw [hafterLength, hlines, hlength]
  have hassign : ∀ value, i ≠ 0 → Generated i (s.know 0 value) ∧
      ∀ j, (s.know 0 value).vc j = if j = 0 then value else s.vc j := by
    intro value hi0
    have hvc : ∀ j, (s.know 0 value).vc j = if j = 0 then value else s.vc j :=
      fun j => Function.update_apply ..
    refine ⟨⟨?_, h.clock⟩, hvc⟩
    rw [hvc, if_neg hi0]
    exact h.own
  interval_cases i
  · refine hround s _ h (fun j hj hj0 => ?_) rfl rfl
    rw [hzero hj0]
    exact hquiet j hj hj0 hj0
  · obtain ⟨hgen, hvc⟩ := hassign 2 (by decide)
    refine hround (s.know 0 2) _ hgen (fun j hj hji => ?_) rfl rfl
    rw [hvc]
    by_cases hj0 : j = 0
    · rw [if_pos hj0, hj0]
      rfl
    · rw [if_neg hj0, hzero hj0]
      exact hquiet j hj hji hj0
  · obtain ⟨hgen, hvc⟩ := hassign 4 (by decide)
    refine hround (s.know 0 4) _ hgen (fun j hj hji => ?_) rfl rfl
    rw [hvc]
    by_cases hj0 : j = 0
    · rw [if_pos hj0, hj0]
      rfl
    · rw [if_neg hj0, hzero hj0]
      exact hquiet j hj hji hj0

/-- **All cycles.** -/
theorem generated_genLog (time : ℕ → DateTime) (hi : i < 3) (cycles : ℕ) :
    Generated i (genLog time (i + 1) cycles) ∧
      (∀ j, j < 3 → j ≠ i → j ≠ 0 → (genLog time (i + 1) cycles).vc j = 0) ∧
      (genLog time (i + 1) cycles).lines.length = perCycle i * cycles := by
  induction cycles with
  | zero => exact ⟨⟨rfl, fun k line hline => absurd hline (by simp [genLog])⟩,
      fun _ _ _ _ => rfl, rfl⟩
  | succ cycles ih =>
    obtain ⟨hgen, hquiet, hlength⟩ := ih
    rw [genLog, Function.iterate_succ_apply']
    obtain ⟨hgen', hquiet', hlength'⟩ := hgen.genCycle hi hquiet
    refine ⟨hgen', hquiet', hlength'.trans ?_⟩
    rw [hlength, Nat.mul_succ]

end Generated

/-! ## Its files as logs -/

/-- A number that an `int` holds, as `%d` prints it. -/
def decimalNumeral (n : ℕ) (hn : n < 2 ^ 31) : Numeral where
  digits := decimal n
  ne_nil := decimal_ne_nil n
  isdigit_of_mem := fun _ hc => mem_decimal hc
  value_lt := (digitsValue_decimal n).symm ▸ hn

theorem GenStep.all_isprint (step : GenStep) :
    (step.level ++ space :: space :: step.message).all isprint = true := by
  cases step <;> decide

theorem GenStep.length_le (step : GenStep) :
    (step.level ++ space :: space :: step.message).length ≤ 50 := by
  cases step <;> decide

theorem DateTime.all_isprint (time : DateTime) {behind : Bytes}
    (hbehind : behind.all isprint = true) : (time.text behind).all isprint = true := by
  have hpadded : ∀ width n, (padded width n).all isprint = true := fun width n =>
    List.all_eq_true.mpr fun c hc => isprint_of_isdigit (isdigit_of_mem_padded hc)
  simp only [DateTime.text, List.all_append, List.all_cons, hpadded, hbehind, Bool.true_and]
  decide

theorem DateTime.length_text (time : DateTime) (behind : Bytes) :
    (time.text behind).length = 19 + behind.length := by
  obtain ⟨hmonth, hday, hhour, hmin, hsec⟩ := time.two_digits
  simp only [DateTime.text, List.length_append, List.length_cons,
    length_padded 4 (by omega) time.year_lt, length_padded 2 (by omega) hmonth,
    length_padded 2 (by omega) hday, length_padded 2 (by omega) hhour,
    length_padded 2 (by omega) hmin, length_padded 2 (by omega) hsec]
  omega

theorem GenLine.all_isprint (line : GenLine) : line.text.all isprint = true := by
  have hbehind : (space :: (line.step.level ++ space :: space :: line.step.message)).all isprint =
      true := by
    rw [List.all_cons, line.step.all_isprint]
    rfl
  simp only [GenLine.text, GenLine.content, tagText, List.all_append, List.all_cons,
    all_isprint_decimal, line.time.all_isprint hbehind, Bool.true_and]
  decide

/-- **A line of the generator is a log line** with its clock in the tag. -/
theorem GenLine.exists_logLine (line : GenLine) (hlt : ∀ j, j < 3 → line.vc j < 2 ^ 31) :
    ∃ logLine : LogLine, logLine.bytes = line.text ∧
      ∀ j, j < 3 → logLine.clock j = line.vc j := by
  have hprint := List.all_eq_true.mp line.all_isprint
  have hdigits : ∀ j, j < 3 → (decimal (line.vc j)).length ≤ 10 := fun j hj =>
    length_decimal_le (by decide) ((hlt j hj).trans (by norm_num))
  have hlength : line.text.length < logMessageMaxLen := by
    have h0 := hdigits 0 (by decide)
    have h1 := hdigits 1 (by decide)
    have h2 := hdigits 2 (by decide)
    have hstep := line.step.length_le
    have htag : (ascii "[VC:").length = 4 := rfl
    simp only [GenLine.text, GenLine.content, tagText, List.length_append, List.length_cons,
      DateTime.length_text, htag, Fin.isValue, Fin.val_zero, Fin.val_one, Fin.val_two] at hstep ⊢
    rw [logMessageMaxLen]
    omega
  refine ⟨⟨⟨line.text, List.cons_ne_nil _ _, fun hmem => ?_, fun hmem => ?_⟩,
    some fun i => decimalNumeral (line.vc i) (hlt i i.isLt), hlength, ?_, ?_⟩, rfl, ?_⟩
  · exact absurd (hprint _ hmem) (by decide)
  · exact absurd (hprint _ hmem) (by decide)
  · rintro values ⟨⟩
    exact ⟨line.content, rfl⟩
  · rintro ⟨⟩
  · intro j hj
    show (if h : j < 3 then digitsValue (decimal (line.vc (⟨j, h⟩ : Fin 3))) else 0) = _
    rw [dif_pos hj, digitsValue_decimal]

/-- **A file of the generator is a log**, and the clocks of its lines are known. -/
theorem exists_logLines (time : ℕ → DateTime) {i : ℕ} (hi : i < 3) {cycles : ℕ}
    (hsmall : perCycle i * cycles < 2 ^ 31) :
    ∃ lines : List LogLine, logText lines = (genLog time (i + 1) cycles).file ∧
      lines.length = perCycle i * cycles ∧
      ∀ k line, lines[k]? = some line → ∀ j, j < 3 → line.clock j = genClock i (k + 1) j := by
  obtain ⟨hgen, -, hlength⟩ := generated_genLog time hi cycles
  generalize genLog time (i + 1) cycles = s at hgen hlength
  have hsmallClock : ∀ k, k < s.lines.length → ∀ j, genClock i (k + 1) j < 2 ^ 31 := by
    intro k hk j
    rw [genClock]
    split
    · omega
    · unfold genKnown
      split <;> decide
  have hall : ∀ line ∈ s.lines, ∃ logLine : LogLine, logLine.bytes = line.text ∧
      ∀ j, j < 3 → logLine.clock j = line.vc j := by
    intro line hline
    obtain ⟨k, hk⟩ := List.mem_iff_getElem?.mp hline
    refine line.exists_logLine fun j hj => ?_
    rw [hgen.clock k line hk j hj]
    exact hsmallClock k (List.getElem?_eq_some_iff.mp hk).1 j
  have : Nonempty LogLine := ⟨firstLine⟩
  choose! logLine hbytes hclock using hall
  refine ⟨s.lines.map logLine, ?_, by rw [List.length_map, hlength], fun k line hline j hj => ?_⟩
  · rw [logText, linesText, List.map_map, List.flatMap_map, GenLog.file]
    refine List.flatMap_congr fun line hline => ?_
    rw [← hbytes line hline]
    rfl
  · rw [List.getElem?_map, Option.map_eq_some_iff] at hline
    obtain ⟨line', hline', rfl⟩ := hline
    rw [hclock line' (List.mem_of_getElem? hline') j hj]
    exact hgen.clock k line' hline' j hj

/-! ## The computation behind them -/

/-- An event of the generator is before another one. -/
def GenBefore {logs : Fin 3 → List LogLine} (d e : LogEvent logs) : Prop :=
  d.1 = e.1 ∧ (d.2 : ℕ) < e.2 ∨
    (d.1 : ℕ) = 0 ∧ (e.1 : ℕ) = 1 ∧ (d.2 : ℕ) < 2 ∨ (d.1 : ℕ) = 0 ∧ (e.1 : ℕ) = 2 ∧ (d.2 : ℕ) < 4

section Computation

variable {logs : Fin 3 → List LogLine}
  (hclock : ∀ (i : Fin 3) k line, (logs i)[k]? = some line → ∀ j, j < 3 →
    line.clock j = genClock i (k + 1) j)
include hclock

theorem clock_logEvent (e : LogEvent logs) (j : Fin 3) : e.clock j = genClock e.1 (e.2 + 1) j := by
  rw [LogEvent.clock, genClock]
  by_cases hj : j = e.1
  · rw [if_pos hj, if_pos (congrArg Fin.val hj)]
  · have hline := hclock e.1 e.2 e.line (List.getElem?_eq_getElem e.2.isLt) j j.isLt
    rw [if_neg hj, hline, genClock]

/-- **The clocks are consistent**, when the first node has run wherever another one has. -/
theorem consistent_genLogs (hfirst : logs 1 ≠ [] ∨ logs 2 ≠ [] → 4 ≤ (logs 0).length) :
    Consistent fun e : LogEvent logs => e.clock where
  own e := if_pos rfl
  mono i k l hkl j := by
    simp only [clock_logEvent hclock, genClock]
    split
    · exact Nat.succ_le_succ hkl
    · exact le_rfl
  known := by
    rintro ⟨i, k⟩ j hji hpos
    simp only [clock_logEvent hclock] at hpos ⊢
    have hval : (j : ℕ) ≠ i := fun h => hji (Fin.ext h)
    rw [genClock, if_neg hval] at hpos
    obtain ⟨hj, hi, hle⟩ := genKnown_pos hpos
    obtain rfl : j = 0 := Fin.ext hj
    have hlength : genKnown i 0 ≤ (logs 0).length := by
      refine hle.trans (hfirst ?_)
      have hne : logs i ≠ [] := List.ne_nil_of_length_pos (Nat.zero_lt_of_lt k.isLt)
      rcases hi with hi | hi
      · obtain rfl : i = 1 := Fin.ext hi
        exact Or.inl hne
      · obtain rfl : i = 2 := Fin.ext hi
        exact Or.inr hne
    have hsucc : genKnown i 0 - 1 + 1 = genKnown i 0 := Nat.sub_add_cancel hpos
    have hzero : (0 : ℕ) ≠ i := hval
    refine ⟨⟨genKnown i 0 - 1, by omega⟩, ?_, fun j => ?_, ?_⟩
    · show genKnown i 0 - 1 + 1 = genClock i (k + 1) 0
      rw [hsucc, genClock, if_neg hzero]
    · show genClock 0 (genKnown i 0 - 1 + 1) j ≤ genClock i (k + 1) j
      rw [hsucc, genClock]
      by_cases hj0 : (j : ℕ) = 0
      · rw [if_pos hj0, hj0, genClock, if_neg hzero]
      · rw [if_neg hj0]
        exact Nat.zero_le _
    · show genClock 0 (genKnown i 0 - 1 + 1) i < genClock i (k + 1) i
      rw [genClock, if_neg (Ne.symm hzero), genClock, if_pos rfl]
      exact Nat.succ_pos k

/-- The causal order of a computation with these logs. -/
theorem before_genLogs_iff (h : Consistent fun e : LogEvent logs => e.clock)
    (computation : LoggedComputation logs) (d e : LogEvent logs) :
    computation.order.before d e ↔ GenBefore d e := by
  have hbefore : computation.order.before d e ↔
      d ≠ e ∧ (d.2 : ℕ) + 1 ≤ genClock e.1 (e.2 + 1) d.1 := by
    rw [computation.before_iff, ← clock_logEvent hclock, ← h.le_iff_own_le]
  rw [hbefore, GenBefore, genClock]
  obtain ⟨i, k⟩ := d
  obtain ⟨i', l⟩ := e
  dsimp only
  by_cases hproc : i = i'
  · subst hproc
    rw [if_pos rfl]
    constructor
    · rintro ⟨hne, hle⟩
      refine Or.inl ⟨rfl, lt_of_le_of_ne (by omega) fun hkl => hne ?_⟩
      rw [Fin.ext hkl]
    · rintro (⟨-, hlt⟩ | ⟨hcaller, hcallee, -⟩ | ⟨hcaller, hcallee, -⟩)
      · exact ⟨fun heq => by cases heq; exact lt_irrefl _ hlt, by omega⟩
      · omega
      · omega
  · rw [if_neg fun h => hproc (Fin.ext h)]
    constructor
    · rintro ⟨-, hle⟩
      obtain ⟨hcaller, hcallee, -⟩ := genKnown_pos (Nat.lt_of_lt_of_le (Nat.succ_pos k) hle)
      rcases hcallee with hcallee | hcallee
      · rw [hcaller, hcallee] at hle
        exact Or.inr (Or.inl ⟨hcaller, hcallee, hle⟩)
      · rw [hcaller, hcallee] at hle
        exact Or.inr (Or.inr ⟨hcaller, hcallee, hle⟩)
    · rintro (⟨heq, -⟩ | ⟨hcaller, hcallee, hlt⟩ | ⟨hcaller, hcallee, hlt⟩)
      · exact absurd heq hproc
      · rw [hcaller, hcallee]
        exact ⟨fun heq => hproc (congrArg Sigma.fst heq), hlt⟩
      · rw [hcaller, hcallee]
        exact ⟨fun heq => hproc (congrArg Sigma.fst heq), hlt⟩

/-- Without the first node there is no computation in which another one has events. -/
theorem four_le_of_computation (computation : LoggedComputation logs)
    (hwhole : logs 0 ≠ [] → 4 ≤ (logs 0).length) (hothers : logs 1 ≠ [] ∨ logs 2 ≠ []) :
    4 ≤ (logs 0).length := by
  refine hwhole fun hnone => ?_
  have hzero : ∀ e : LogEvent logs, e.clock 0 = 0 := fun e => computation.clock_eq_zero e hnone
  rcases hothers with hne | hne
  · have hcontra := hzero ⟨1, 0, List.length_pos_iff.mpr hne⟩
    rw [clock_logEvent hclock] at hcontra
    have htwo : genClock 1 1 0 = 2 := rfl
    exact absurd (htwo.symm.trans hcontra) (by decide)
  · have hcontra := hzero ⟨2, 0, List.length_pos_iff.mpr hne⟩
    rw [clock_logEvent hclock] at hcontra
    have hfour : genClock 2 1 0 = 4 := rfl
    exact absurd (hfour.symm.trans hcontra) (by decide)

end Computation

/-- **The files of the generator are the logs of one computation**, exactly if the first node has
run wherever another one has; and then there is only one, in which the second event of the first
node is before every event of the second node, and its fourth before every event of the third. -/
theorem genLog_computation (time : Fin 3 → ℕ → DateTime) (cycles : Fin 3 → ℕ)
    (hsmall : ∀ i : Fin 3, perCycle i * cycles i < 2 ^ 31) :
    ∃ logs : Fin 3 → List LogLine,
      (∀ i : Fin 3, logText (logs i) = (genLog (time i) (i + 1) (cycles i)).file) ∧
      (∀ i : Fin 3, (logs i).length = perCycle i * cycles i) ∧
      (Nonempty (LoggedComputation logs) ↔ (0 < cycles 1 ∨ 0 < cycles 2 → 0 < cycles 0)) ∧
      ∀ (computation : LoggedComputation logs) (d e : LogEvent logs),
        computation.order.before d e ↔ GenBefore d e := by
  choose logs hfile hlength hclock using fun i : Fin 3 => exists_logLines (time i) i.isLt (hsmall i)
  have hnonempty : ∀ i : Fin 3, logs i ≠ [] ↔ 0 < cycles i := by
    intro i
    have hper : 0 < perCycle i := by
      unfold perCycle
      split <;> decide
    rw [← List.length_pos_iff, hlength, Nat.mul_pos_iff_of_pos_left hper]
  have hwhole : logs 0 ≠ [] → 4 ≤ (logs 0).length := by
    intro hne
    have hcycles := (hnonempty 0).mp hne
    have hfive : (logs 0).length = 5 * cycles 0 := hlength 0
    omega
  have hconsistent : (logs 1 ≠ [] ∨ logs 2 ≠ [] → 4 ≤ (logs 0).length) →
      Consistent fun e : LogEvent logs => e.clock := consistent_genLogs hclock
  refine ⟨logs, hfile, hlength, ⟨?_, fun hfirst => ?_⟩, fun computation d e => ?_⟩
  · rintro ⟨computation⟩ hothers
    rw [← hnonempty, ← hnonempty] at hothers
    have hfour := four_le_of_computation hclock computation hwhole hothers
    exact (hnonempty 0).mp (List.ne_nil_of_length_pos (by omega))
  · rw [← hnonempty, ← hnonempty, ← hnonempty] at hfirst
    exact ⟨.ofConsistent (hconsistent fun hothers => hwhole (hfirst hothers))⟩
  · exact before_genLogs_iff hclock
      (hconsistent (four_le_of_computation hclock computation hwhole)) computation d e

theorem genLog_computation_oneCycle :
    ∃ logs : Fin 3 → List LogLine, (∀ i : Fin 3, (logs i).length = perCycle i * 1) ∧
      Nonempty (LoggedComputation logs) := by
  have time : DateTime :=
    ⟨2024, 6, 29, 10, 0, 1, by decide, by decide, by decide, by decide, by decide, by decide⟩
  obtain ⟨logs, -, hlength, hiff, -⟩ :=
    genLog_computation (fun _ _ => time) (fun _ => 1) (by decide)
  exact ⟨logs, hlength, hiff.mpr fun _ => Nat.one_pos⟩

end LogAgg
