import LogAgg.Agent.Advance

/-!
# Lines that carry the clock of their writer

The log generator writes each line behind a tag `[VC:a,b,c]` with the clock of the writer.
An agent counts the lines itself, in its own component, and takes the other components from
the tags, as far as they grow (`slot_stampVc`).  After any number of polls that end at line
boundaries, the clock of an entry is the number of lines so far and the largest values seen so
far (`Agent.Reproduces`).  For a writer that counts its lines and never takes a component back
these are the clocks in the file (`agentRun_reproduces_clocks`).
-/

namespace LogAgg

open Ascii

/-- A line behind a clock tag with these texts. -/
def tagText (texts : Fin 3 → Bytes) (content : Bytes) : Bytes :=
  ascii "[VC:" ++ (texts 0 ++ comma :: (texts 1 ++ comma :: (texts 2 ++ rbracket :: content)))

/-- A line behind a clock tag. -/
def taggedText (tag : Fin 3 → Numeral) (content : Bytes) : Bytes :=
  ascii "[VC:" ++ ((tag 0).digits ++ comma :: ((tag 1).digits ++ comma ::
    ((tag 2).digits ++ rbracket :: content)))

/-- A line of a log file that fits the buffer of `process_new_lines`, with a clock tag in
front, or without. -/
structure LogLine extends TextLine where
  tag : Option (Fin 3 → Numeral)
  length_lt : bytes.length < logMessageMaxLen
  tagged : ∀ values, tag = some values → ∃ content, bytes = taggedText values content
  untagged : tag = none → ¬ ascii "[VC:" <+: bytes

namespace LogLine

/-- The values of the tag, as `agent_parse_line` hands them over. -/
def parsedVc (line : LogLine) : ParsedVc :=
  match line.tag with
  | some values => fun i => (values i).value
  | none => fun _ => -1

/-- The components in the tag, and otherwise zeros. -/
def clock (line : LogLine) (i : ℕ) : ℕ :=
  match line.tag with
  | some values => if h : i < 3 then (values ⟨i, h⟩).value else 0
  | none => 0

end LogLine

/-- The text of some log lines. -/
def logText (lines : List LogLine) : Bytes := linesText (lines.map LogLine.toTextLine)

/-- The largest component `i` in the tags of some lines. -/
def maxClock (lines : List LogLine) (i : ℕ) : ℕ := (lines.map fun line => line.clock i).foldl max 0

/-! ## Parsing a tag -/

theorem scanf_vcFormat {texts : Fin 3 → Bytes} {values : ParsedVc}
    (hread : ∀ i, ReadsInt (texts i) (values i)) (content : Bytes) :
    scanf vcFormat (texts 0 ++ comma :: (texts 1 ++ comma :: (texts 2 ++ rbracket :: content))) =
      [.int (values 0), .int (values 1), .int (values 2)] := by
  have hcomma : ∀ (s : Bytes) (c : UInt8), (comma :: s).head? = some c → isdigit c = false := by
    intro s c hc
    rw [← Option.some_inj.mp hc]
    rfl
  have hbracket : ∀ (s : Bytes) (c : UInt8), (rbracket :: s).head? = some c →
      isdigit c = false := by
    intro s c hc
    rw [← Option.some_inj.mp hc]
    rfl
  rw [vcFormat, hread 0 _ _ (hcomma _), scanf_char, hread 1 _ _ (hcomma _), scanf_char,
    hread 2 _ _ (hbracket _), scanf]

/-- A tag ends at its bracket. -/
theorem dropWhile_tagText {texts : Fin 3 → Bytes} (hbracket : ∀ i, rbracket ∉ texts i)
    (content : Bytes) :
    (tagText texts content).dropWhile (fun d => d != rbracket) = rbracket :: content := by
  have hne : ∀ i, ∀ c ∈ texts i, (c != rbracket) = true := by
    intro i c hc
    rw [bne_iff_ne]
    rintro rfl
    exact hbracket i hc
  have hfront : ∀ c ∈ ascii "[VC:", (c != rbracket) = true := List.all_eq_true.mp rfl
  rw [tagText, List.dropWhile_append_of_pos hfront, List.dropWhile_append_of_pos (hne 0),
    List.dropWhile_cons_of_pos rfl, List.dropWhile_append_of_pos (hne 1),
    List.dropWhile_cons_of_pos rfl, List.dropWhile_append_of_pos (hne 2),
    List.dropWhile_cons_of_neg (by decide)]

/-- **A tag is read**, whatever stands behind it, and the spaces behind it are skipped. -/
theorem parseVcTag_tagText {texts : Fin 3 → Bytes} {values : ParsedVc}
    (hread : ∀ i, ReadsInt (texts i) (values i)) (hbracket : ∀ i, rbracket ∉ texts i)
    (content : Bytes) :
    parseVcTag (tagText texts content) =
      (content.dropWhile fun d => d == space, values) := by
  have htake : (tagText texts content).take 4 = ascii "[VC:" := rfl
  have hdrop : (tagText texts content).drop 4 =
      texts 0 ++ comma :: (texts 1 ++ comma :: (texts 2 ++ rbracket :: content)) := rfl
  have hvalues : ![values 0, values 1, values 2] = values := by
    ext i
    fin_cases i <;> rfl
  unfold parseVcTag
  rw [if_pos htake, hdrop, scanf_vcFormat hread, dropWhile_tagText hbracket]
  dsimp only
  rw [hvalues]

theorem parseVcTag_taggedText (tag : Fin 3 → Numeral) (content : Bytes) :
    parseVcTag (taggedText tag content) =
      (content.dropWhile fun d => d == space, fun i => ((tag i).value : ℤ)) := by
  have hbracket : ∀ i, rbracket ∉ (tag i).digits :=
    fun i hmem => absurd ((tag i).isdigit_of_mem _ hmem) (by decide)
  have htext : taggedText tag content = tagText (fun i => (tag i).digits) content := rfl
  rw [htext, parseVcTag_tagText (fun i => (tag i).readsInt) hbracket]

/-- What is read in front of a line of a log file. -/
theorem parseVcTag_logLine (line : LogLine) : (parseVcTag line.bytes).2 = line.parsedVc := by
  cases htag : line.tag with
  | some values =>
    obtain ⟨content, hbytes⟩ := line.tagged values htag
    rw [hbytes, parseVcTag_taggedText, LogLine.parsedVc, htag]
  | none =>
    have hnot : line.bytes.take 4 ≠ ascii "[VC:" := by
      intro h
      exact line.untagged htag (h ▸ List.take_prefix 4 line.bytes)
    rw [parseVcTag, if_neg hnot, LogLine.parsedVc, htag]

variable {env : AgentEnv}

/-- Every line of a log file is parsed. -/
theorem agentParseLine_logLine (env : AgentEnv) (line : LogLine) (now : UInt64) :
    ∃ entry, agentParseLine env.mktime now (line.bytes ++ [newline]) =
      some (entry, line.parsedVc) := by
  rw [agentParseLine_append_newline line.ne_nil line.newline_notMem]
  obtain ⟨entry, hparse, -⟩ := exists_agentParseLine env.mktime now line.ne_nil line.head?_ne
  refine ⟨entry, ?_⟩
  rw [hparse, parseVcTag_logLine]

/-! ## Stamping a line -/

/-- A tag has no values behind the third. -/
theorem LogLine.clock_of_le (line : LogLine) {i : ℕ} (hi : 3 ≤ i) : line.clock i = 0 := by
  rw [LogLine.clock]
  split
  · exact dif_neg (not_lt.mpr hi)
  · rfl

/-- The clock in a tag, as it is compared with the components. -/
theorem LogLine.clock_eq (line : LogLine) (i : Fin 3) :
    line.clock i = if 0 ≤ line.parsedVc 0 then (UInt64.ofInt (line.parsedVc i)).toNat else 0 := by
  cases htag : line.tag with
  | none =>
    have hparsed : line.parsedVc = fun _ => -1 := by rw [LogLine.parsedVc, htag]
    rw [LogLine.clock, htag, hparsed, if_neg (by decide)]
  | some values =>
    have hparsed : line.parsedVc = fun i => ((values i).value : ℤ) := by
      rw [LogLine.parsedVc, htag]
    -- the value of a numeral is the same as a `uint64_t`
    have hvalue : ((values i).value : ℤ) < 2 ^ 31 := by exact_mod_cast (values i).value_lt
    have hcast := toNat_ofInt_of_nonneg (Int.natCast_nonneg _) hvalue
    rw [LogLine.clock, htag, hparsed, if_pos (Int.natCast_nonneg _)]
    dsimp only
    rw [dif_pos i.isLt]
    exact_mod_cast hcast.symm

/-- **The clock of a line**: one more in the own component, and the larger values elsewhere. -/
theorem slot_stampVc {agent : Agent} {o : ℕ}
    (hindex : agentNodeIndex agent.config.nodeId.bytes = o) (ho : o < agent.vc.nodeCount)
    (hown : (agent.vc.slot o).toNat + 1 < 2 ^ 64) (line : LogLine) (i : ℕ) :
    ((agent.stampVc line.parsedVc).slot i).toNat =
      if i = o then (agent.vc.slot o).toNat + 1
      else max (agent.vc.slot i).toNat (line.clock i) := by
  by_cases hi : i = o
  · subst hi
    rw [if_pos rfl, Agent.stampVc, hindex, slot_vcIncrement _ (by rwa [nodeCount_mergeParsedVc]),
      if_pos rfl, slot_mergeParsedVc_of_not _ _ _ (Or.inl rfl), UInt64.toNat_add]
    exact Nat.mod_eq_of_lt hown
  · have hother : (i : ℤ) ≠ agentNodeIndex agent.config.nodeId.bytes := by
      rw [hindex]
      exact_mod_cast hi
    rw [if_neg hi]
    by_cases hthree : i < 3
    · rw [agent.slot_stampVc_of_ne line.parsedVc ⟨i, hthree⟩ hother, line.clock_eq ⟨i, hthree⟩]
      split
      · rfl
      · rw [max_eq_left (Nat.zero_le _)]
    · rw [line.clock_of_le (not_lt.mp hthree), max_eq_left (Nat.zero_le _), Agent.stampVc,
        slot_vcIncrement_of_ne _ hother, slot_mergeParsedVc_of_not _ _ _ (Or.inr (not_lt.mp hthree))]

/-! ## Runs over whole lines -/

theorem maxClock_concat (lines : List LogLine) (line : LogLine) (i : ℕ) :
    maxClock (lines ++ [line]) i = max (maxClock lines i) (line.clock i) := by
  rw [maxClock, List.map_append, List.map_singleton, List.foldl_append]
  rfl

theorem maxClock_of_le (lines : List LogLine) {i : ℕ} (hi : 3 ≤ i) : maxClock lines i = 0 := by
  induction lines using List.reverseRecOn with
  | nil => rfl
  | append_singleton lines line ih =>
    rw [maxClock_concat, ih, line.clock_of_le hi, max_self]

/-- What component `i` is behind some lines of agent `o`. -/
def clockAfter (o : ℕ) (lines : List LogLine) (i : ℕ) : ℕ :=
  if i = o then lines.length else maxClock lines i

/-- The clock behind line `k`. -/
theorem clockAfter_take {lines : List LogLine} {k : ℕ} (hk : k < lines.length) (o i : ℕ) :
    clockAfter o (lines.take (k + 1)) i =
      if i = o then k + 1 else if i < 3 then maxClock (lines.take (k + 1)) i else 0 := by
  rw [clockAfter]
  by_cases hio : i = o
  · rw [if_pos hio, if_pos hio, List.length_take, Nat.min_eq_left hk]
  · rw [if_neg hio, if_neg hio]
    by_cases hthree : i < 3
    · rw [if_pos hthree]
    · rw [if_neg hthree, maxClock_of_le _ (not_lt.mp hthree)]

/-- The agent has sent an entry for each of some lines, with the clock behind that line. -/
structure Agent.Reproduces (n o : ℕ) (lines : List LogLine) (agent : Agent) : Prop where
  index : agentNodeIndex agent.config.nodeId.bytes = o
  nodeCount : agent.vc.nodeCount = n
  slot : ∀ i, i < n → (agent.vc.slot i).toNat = clockAfter o lines i
  length : agent.sent.length = lines.length
  entry : ∀ k entry, agent.sent[k]? = some entry → entry.vc.nodeCount = n ∧
    ∀ i, i < n → (entry.vc.slot i).toNat = clockAfter o (lines.take (k + 1)) i

theorem Agent.Reproduces.processLine {n o : ℕ} {lines : List LogLine} {agent : Agent}
    (h : agent.Reproduces n o lines) (ho : o < n) (line : LogLine)
    (hbound : lines.length + 1 < 2 ^ 64) :
    (processLine env agent (line.bytes ++ [newline])).Reproduces n o (lines ++ [line]) := by
  obtain ⟨parsed, hparse⟩ := agentParseLine_logLine env line (env.now agent.stamped)
  have hown : (agent.vc.slot o).toNat = lines.length := by
    rw [h.slot o ho, clockAfter, if_pos rfl]
  have hslot : ∀ i, i < n → ((agent.stampVc line.parsedVc).slot i).toNat =
      clockAfter o (lines ++ [line]) i := by
    intro i hi
    rw [slot_stampVc h.index (by rw [h.nodeCount]; exact ho) (by rw [hown]; exact hbound) line i,
      clockAfter, List.length_append, maxClock_concat, hown]
    by_cases hio : i = o
    · rw [if_pos hio, if_pos hio]
      rfl
    · rw [if_neg hio, if_neg hio, h.slot i hi, clockAfter, if_neg hio]
  have hcount : (agent.stampVc line.parsedVc).nodeCount = n := by
    rw [Agent.nodeCount_stampVc, h.nodeCount]
  rw [processLine_of_some hparse]
  refine ⟨h.index, hcount, hslot, ?_, ?_⟩
  · show (agent.sent ++ [_]).length = _
    rw [List.length_append, List.length_append, h.length]
    rfl
  · intro k entry hentry
    replace hentry : (agent.sent ++ [agent.stampEntry parsed line.parsedVc])[k]? = some entry :=
      hentry
    by_cases hk : k < agent.sent.length
    · -- an earlier entry
      rw [List.getElem?_append_left hk] at hentry
      rw [List.take_append_of_le_length (by rw [← h.length]; exact hk)]
      exact h.entry k entry hentry
    · -- the entry of this line
      rw [List.getElem?_append_right (not_lt.mp hk), List.getElem?_singleton] at hentry
      split at hentry
      · rename_i hzero
        have hlast : (lines ++ [line]).length ≤ k + 1 := by
          rw [List.length_append, List.length_singleton, ← h.length]
          omega
        have hvc : entry.vc = vcCopy parsed.vc (agent.stampVc line.parsedVc) := by
          rw [← Option.some_inj.mp hentry]
          rfl
        rw [hvc, nodeCount_vcCopy, List.take_of_length_le hlast]
        refine ⟨hcount, fun i hi => ?_⟩
        rw [slot_vcCopy _ _ (by rwa [hcount])]
        exact hslot i hi
      · exact absurd hentry (by simp)

/-- **Every line of a log file is stamped with its own clock.** -/
theorem Agent.Reproduces.processBuffers (env : AgentEnv) {n o : ℕ} {agent : Agent}
    (h : agent.Reproduces n o []) (ho : o < n) {lines : List LogLine}
    (hbound : lines.length < 2 ^ 64) :
    (processBuffers env agent (lines.map fun line => line.bytes ++ [newline])).Reproduces n o
      lines := by
  induction lines using List.reverseRecOn with
  | nil => exact h
  | append_singleton lines line ih =>
    rw [List.length_append, List.length_singleton] at hbound
    have hcstring : cstring (line.bytes ++ [newline]) = line.bytes ++ [newline] := by
      refine cstring_eq_self fun hnul => ?_
      rcases List.mem_append.mp hnul with hnul | hnul
      · exact line.nul_notMem hnul
      · exact absurd (List.mem_singleton.mp hnul) (by decide)
    rw [List.map_append, List.map_singleton, processBuffers_append]
    show (LogAgg.processLine env _ (cstring (line.bytes ++ [newline]))).Reproduces n o _
    rw [hcstring]
    exact (ih (by omega)).processLine ho line hbound

theorem reproduces_agentInit {config : AgentConfig} {n o : ℕ} (hn : n ≤ vcMaxNodes)
    (hindex : agentNodeIndex config.nodeId.bytes = o) (ho : o < n) (file : Option Bytes) :
    (agentInit config n file).Reproduces n o [] where
  index := hindex
  nodeCount := nodeCount_vcInit _ (by omega) hn
  slot := by
    intro i hi
    have hzero : (agentInit config n file).vc.slot i = 0 :=
      slot_vcInit VectorClock.zero (by omega) hn hi
    rw [hzero, clockAfter]
    split <;> rfl
  length := rfl
  entry := fun k entry hentry => absurd hentry (by simp [agentInit])

/-- Polls that end at line boundaries show the lines, one buffer each. -/
theorem flatMap_buffers_logText (polls : List (List LogLine)) :
    (polls.map logText).flatMap (buffers (logMessageMaxLen - 1)) =
      polls.flatten.map fun line => line.bytes ++ [newline] := by
  have hpoll : ∀ lines : List LogLine, buffers (logMessageMaxLen - 1) (logText lines) =
      lines.map fun line => line.bytes ++ [newline] := by
    intro lines
    have hlen : ∀ line ∈ lines.map LogLine.toTextLine,
        line.bytes.length ≤ logMessageMaxLen - 1 := by
      intro line hline
      obtain ⟨logLine, -, rfl⟩ := List.mem_map.mp hline
      have := logLine.length_lt
      omega
    rw [logText, buffers_linesText hlen, List.map_map]
    rfl
  induction polls with
  | nil => rfl
  | cons lines polls ih =>
    rw [List.map_cons, List.flatMap_cons, ih, hpoll, List.flatten_cons, List.map_append]

/-- A component that is never taken back is largest in the last line. -/
theorem maxClock_take {lines : List LogLine} {i : ℕ}
    (hgrows : lines.IsChain fun a b => a.clock i ≤ b.clock i) {k : ℕ} {line : LogLine}
    (hline : lines[k]? = some line) : maxClock (lines.take (k + 1)) i = line.clock i := by
  have hlt : k < lines.length := (List.getElem?_eq_some_iff.mp hline).1
  have htrans : IsTrans LogLine fun a b => a.clock i ≤ b.clock i := ⟨fun a b c => le_trans⟩
  have hpairwise := List.isChain_iff_pairwise.mp hgrows
  rw [List.take_add_one, hline, Option.toList_some, maxClock_concat, max_eq_right]
  -- all lines before have smaller ones
  have hbefore : ∀ a ∈ lines.take k, a.clock i ≤ line.clock i := by
    intro a ha
    obtain ⟨j, hj, rfl⟩ := List.getElem_of_mem ha
    rw [List.length_take] at hj
    rw [List.getElem_take]
    have hk := (List.getElem?_eq_some_iff.mp hline).2
    rw [← hk]
    exact List.pairwise_iff_getElem.mp hpairwise j k _ hlt (by omega)
  rw [maxClock]
  refine List.foldlRecOn (motive := fun m => m ≤ line.clock i) _ _ (Nat.zero_le _)
    fun m hm value hvalue => max_le hm ?_
  obtain ⟨a, ha, rfl⟩ := List.mem_map.mp hvalue
  exact hbefore a ha

/-- **The stamps of an agent reproduce the clocks in the file.**  For an agent with a component
of its own that follows a file of log lines, over any polls that end at line boundaries: there
is an entry for each line, its own component is the number of the line, the others among the
first three are the largest values seen in tags so far, and all further ones are zero.  Each
entry happens before the next one.  If all lines have tags in which the own component counts
the lines, and no other one is ever taken back, then these are the clocks in the tags.  (The
size of a file is a `long`, as `ftell` returns it.) -/
theorem agentRun_reproduces_clocks (env : AgentEnv) {config : AgentConfig} {n o : ℕ}
    (hmain : MainAccepts config n)
    (hindex : agentNodeIndex config.nodeId.bytes = o) (ho : o < n) (file : Option Bytes)
    (polls : List (List LogLine))
    (hsize : (file.getD [] ++ logText polls.flatten).length < 2 ^ 63) :
    let lines := polls.flatten
    let sent := (agentRun env (agentInit config n file)
      ((visible (file.getD []) (polls.map logText)).map some)).sent
    sent.length = lines.length ∧
    (∀ (k : ℕ) (entry : LogEntry), sent[k]? = some entry → entry.vc.nodeCount = n ∧
      ∀ i, i < n → (entry.vc.slot i).toNat =
        if i = o then k + 1 else if i < 3 then maxClock (lines.take (k + 1)) i else 0) ∧
    sent.IsChain LogEntry.HappensBefore ∧
    (o < 3 →
      (∀ (k : ℕ) (line : LogLine), lines[k]? = some line →
        line.tag.isSome ∧ line.clock o = k + 1) →
      (∀ i, i < 3 → i ≠ o → lines.IsChain fun a b => a.clock i ≤ b.clock i) →
      ∀ (k : ℕ) (line : LogLine) (entry : LogEntry), lines[k]? = some line →
        sent[k]? = some entry → ∀ i, i < n → (entry.vc.slot i).toNat = line.clock i) := by
  intro lines sent
  have hmax : n ≤ vcMaxNodes := by exact_mod_cast hmain.2.2
  have hbound : lines.length < 2 ^ 64 := by
    have hlines := length_le_length_linesText (lines.map LogLine.toTextLine)
    rw [List.length_map] at hlines
    rw [List.length_append] at hsize
    have htext : (linesText (lines.map LogLine.toTextLine)).length =
      (logText polls.flatten).length := rfl
    omega
  have hrun : sent = (processBuffers env (agentInit config n file)
      (lines.map fun line => line.bytes ++ [newline])).sent := by
    have hvisible := sent_agentRun_visible env (hasRead_agentInit config n file)
      (polls.map logText)
    rwa [flatMap_buffers_logText] at hvisible
  have hstamps := (reproduces_agentInit hmax hindex ho file).processBuffers env ho hbound
  have hlength : sent.length = lines.length := by
    rw [hrun]
    exact hstamps.length
  have hentries : ∀ (k : ℕ) (entry : LogEntry), sent[k]? = some entry → entry.vc.nodeCount = n ∧
      ∀ i, i < n → (entry.vc.slot i).toNat =
        if i = o then k + 1 else if i < 3 then maxClock (lines.take (k + 1)) i else 0 := by
    intro k entry hentry
    have hk : k < lines.length := by
      rw [← hlength]
      exact (List.getElem?_eq_some_iff.mp hentry).1
    rw [hrun] at hentry
    obtain ⟨hcount, hslot⟩ := hstamps.entry k entry hentry
    exact ⟨hcount, fun i hi => (hslot i hi).trans (clockAfter_take hk o i)⟩
  have hchain : sent.IsChain LogEntry.HappensBefore :=
    (agentRun_advances (advances_agentInit hmax hindex ho file) _).chain (by
      show sent.length < 2 ^ 64
      rw [hlength]
      exact hbound)
  refine ⟨hlength, hentries, hchain, fun ho3 hown hgrow k line entry hline hentry i hi => ?_⟩
  rw [(hentries k entry hentry).2 i hi]
  by_cases hio : i = o
  · rw [if_pos hio, hio, (hown k line hline).2]
  · rw [if_neg hio]
    by_cases hthree : i < 3
    · rw [if_pos hthree]
      exact maxClock_take (hgrow i hthree hio) hline
    · rw [if_neg hthree, line.clock_of_le (not_lt.mp hthree)]

theorem singleton_ne_nil (c : UInt8) : [c] ≠ [] := List.cons_ne_nil c []

theorem isdigit_zero : isdigit 48 = true := rfl

theorem isdigit_one : isdigit 49 = true := rfl

theorem isdigit_two : isdigit 50 = true := rfl

/-- The numeral of one digit. -/
def Numeral.ofDigit (c : UInt8) (hc : isdigit c = true) : Numeral where
  digits := [c]
  ne_nil := singleton_ne_nil c
  isdigit_of_mem := isdigit_of_mem_singleton hc
  value_lt := digitsValue_singleton_lt hc

/-- The first line of the first node. -/
def firstLine : LogLine where
  bytes := ascii "[VC:1,0,0] INFO: started"
  ne_nil := by decide
  newline_notMem := by decide
  nul_notMem := by decide
  tag := some ![Numeral.ofDigit 49 isdigit_one, Numeral.ofDigit 48 isdigit_zero,
    Numeral.ofDigit 48 isdigit_zero]
  length_lt := by decide
  tagged := by
    rintro values ⟨⟩
    exact ⟨ascii " INFO: started", rfl⟩
  untagged := by
    rintro ⟨⟩

/-- Its second line: an event behind the first one of the second node. -/
def secondLine : LogLine where
  bytes := ascii "[VC:2,1,0] INFO: joined"
  ne_nil := by decide
  newline_notMem := by decide
  nul_notMem := by decide
  tag := some ![Numeral.ofDigit 50 isdigit_two, Numeral.ofDigit 49 isdigit_one,
    Numeral.ofDigit 48 isdigit_zero]
  length_lt := by decide
  tagged := by
    rintro values ⟨⟩
    exact ⟨ascii " INFO: joined", rfl⟩
  untagged := by
    rintro ⟨⟩

/-- The first node finds a line in each of two polls, and sends them with the clocks of the
tags. -/
theorem agentRun_reproduces_clocks_firstLine :
    (agentRun AgentEnv.still (agentInit (AgentConfig.ofNodeId (ascii "node-01")) 3 none)
      ((visible [] [logText [firstLine], logText [secondLine]]).map some)).sent.map
        (fun entry => (entry.vc.slot 0, entry.vc.slot 1, entry.vc.slot 2)) =
      [(1, 0, 0), (2, 1, 0)] := by
  have hmain : MainAccepts (AgentConfig.ofNodeId (ascii "node-01")) (3 : ℕ) :=
    ⟨by decide, by decide, by decide⟩
  have hindex : agentNodeIndex (AgentConfig.ofNodeId (ascii "node-01")).nodeId.bytes = (0 : ℕ) := by
    decide
  have hsize : (Option.getD none [] ++ logText [[firstLine], [secondLine]].flatten).length <
      2 ^ 63 := by decide
  obtain ⟨hlength, -, -, hclocks⟩ := agentRun_reproduces_clocks AgentEnv.still hmain hindex
    (by decide) none [[firstLine], [secondLine]] hsize
  have hown : ∀ (k : ℕ) (line : LogLine), [firstLine, secondLine][k]? = some line →
      line.tag.isSome ∧ line.clock 0 = k + 1 := by
    intro k line hline
    match k with
    | 0 =>
      obtain rfl := Option.some.inj hline
      decide
    | 1 =>
      obtain rfl := Option.some.inj hline
      decide
    | k + 2 => exact absurd hline (by simp)
  have hgrow : ∀ i, i < 3 → i ≠ 0 →
      [firstLine, secondLine].IsChain fun a b => a.clock i ≤ b.clock i := by
    decide
  have hslots := hclocks (by decide) hown hgrow
  obtain ⟨first, second, hsent⟩ := List.length_eq_two.mp hlength
  have hslot {slot : UInt64} {n : ℕ} (h : slot.toNat = n) : slot = UInt64.ofNat n := by
    rw [← h, UInt64.ofNat_toNat]
  have hfirst (i : ℕ) (hi : i < 3) : first.vc.slot i = UInt64.ofNat (firstLine.clock i) :=
    hslot (hslots 0 firstLine first rfl (by rw [hsent]; rfl) i hi)
  have hsecond (i : ℕ) (hi : i < 3) : second.vc.slot i = UInt64.ofNat (secondLine.clock i) :=
    hslot (hslots 1 secondLine second rfl (by rw [hsent]; rfl) i hi)
  refine (congrArg (List.map _) hsent).trans ?_
  rw [List.map_cons, List.map_singleton, hfirst 0 (by decide), hfirst 1 (by decide),
    hfirst 2 (by decide), hsecond 0 (by decide), hsecond 1 (by decide), hsecond 2 (by decide)]
  rfl

end LogAgg
