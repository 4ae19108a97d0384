import LogAgg.Agent.Basic

/-!
# What an agent sends depends on when it polls

Every buffer that `fgets` stores is a line for `process_new_lines`, and the offset moves to the
end of what was visible.  So a poll in the middle of a line sends two entries for it, and so
does a line that is longer than the buffer.  There is one entry for each line, with the message
and the level of the whole line, exactly when neither happens (`agentRun_lineByLine_iff`): a
line break that was not visible yet, or did not fit, is the only thing that may be missing.

The reason is that each line shows in a buffer that is not blank, so that entries are never
missing, and entries that are not whole lines are too many (`wholeLines_of_countP_le`).
-/

namespace LogAgg

open Ascii

/-- The message and the level of an entry. -/
def LogEntry.fields (entry : LogEntry) : CStr logMessageMaxLen × LogLevel :=
  (entry.message, entry.level)

/-- The message and the level that `agent_parse_line` gives for a line. -/
def parsedFields (env : AgentEnv) (line : Bytes) : Option (CStr logMessageMaxLen × LogLevel) :=
  (agentParseLine env.mktime (env.now 0) line).map fun parsed => parsed.1.fields

/-- There is one entry for each line, with the fields of the whole line. -/
def SentLineByLine (env : AgentEnv) (lines : List TextLine) (entries : List LogEntry) : Prop :=
  entries.map (fun entry => some entry.fields) =
    lines.map fun line => parsedFields env (line.bytes ++ [newline])

variable {env : AgentEnv}

theorem parsedFields_eq {line : Bytes} (hne : line ≠ []) (hhead : line.head? ≠ some newline) :
    parsedFields env line = some (lineFields line) := by
  obtain ⟨entry, hparse, hfields⟩ := exists_agentParseLine env.mktime (env.now 0) hne hhead
  rw [parsedFields, hparse, Option.map_some]
  exact congrArg some hfields

theorem parsedFields_textLine (line : TextLine) :
    parsedFields env (line.bytes ++ [newline]) = some (lineFields line.bytes) := by
  have hhead : (line.bytes ++ [newline]).head? ≠ some newline := by
    rw [List.head?_append_of_ne_nil _ line.ne_nil]
    exact line.head?_ne
  rw [parsedFields_eq (List.append_ne_nil_of_left_ne_nil line.ne_nil _) hhead,
    lineFields_append_newline line.newline_notMem]

/-! ## Buffers and entries -/

/-- What is sent for some buffers: the fields of those that are not blank. -/
theorem fields_processBuffers (agent : Agent) {shown : List Bytes}
    (hshown : ∀ buffer ∈ shown, IsBuffer buffer) (hnul : ∀ buffer ∈ shown, (0 : UInt8) ∉ buffer) :
    ∃ entries, (processBuffers env agent shown).sent = agent.sent ++ entries ∧
      entries.map LogEntry.fields = (shown.filter startsVisible).map lineFields := by
  induction shown generalizing agent with
  | nil => exact ⟨[], (List.append_nil _).symm, rfl⟩
  | cons buffer shown ih =>
    rw [List.forall_mem_cons] at hshown hnul
    obtain ⟨entries, hsent, hfields⟩ := ih (processLine env agent (cstring buffer)) hshown.2 hnul.2
    replace hsent : (processBuffers env agent (buffer :: shown)).sent =
        (processLine env agent (cstring buffer)).sent ++ entries := hsent
    rw [cstring_eq_self hnul.1] at hsent
    cases hparse : agentParseLine env.mktime (env.now agent.stamped) buffer with
    | none =>
      have hblank : ¬ startsVisible buffer = true := by
        rw [startsVisible, decide_eq_true_eq, not_not]
        exact (agentParseLine_eq_none_iff.mp hparse).resolve_left hshown.1.1
      rw [processLine_of_none hparse] at hsent
      rw [List.filter_cons_of_neg hblank]
      exact ⟨entries, hsent, hfields⟩
    | some parsed =>
      obtain ⟨entry, parsedVc⟩ := parsed
      have hvisible : startsVisible buffer = true := by
        refine decide_eq_true fun hhead => ?_
        rw [agentParseLine_eq_none_iff.mpr (Or.inr hhead)] at hparse
        exact absurd hparse (by simp)
      rw [processLine_of_some hparse] at hsent
      refine ⟨agent.stampEntry entry parsedVc :: entries, ?_, ?_⟩
      · rw [hsent, List.append_assoc, List.singleton_append]
      · rw [List.filter_cons_of_pos hvisible, List.map_cons, List.map_cons, hfields]
        exact congrArg (· :: _) (agentParseLine_eq_some hparse).1

/-- Whole lines have the fields of the lines. -/
theorem WholeLines.map_lineFields {shown : List Bytes} {lines : List TextLine}
    (h : WholeLines shown lines) :
    (shown.filter startsVisible).map lineFields = lines.map fun line => lineFields line.bytes := by
  have hvisible : ∀ line : TextLine, startsVisible line.bytes = true :=
    fun line => decide_eq_true line.head?_ne
  induction h with
  | nil => rfl
  | line line h ih =>
    have hbreak : startsVisible (line.bytes ++ [newline]) = true := by
      rw [startsVisible, List.head?_append_of_ne_nil _ line.ne_nil]
      exact hvisible line
    rw [List.filter_cons_of_pos hbreak, List.map_cons, List.map_cons, ih,
      lineFields_append_newline line.newline_notMem]
  | full line h ih =>
    rw [List.filter_cons_of_pos (hvisible line), List.filter_cons_of_neg (by decide),
      List.map_cons, List.map_cons, ih]

/-! ## Polls -/

variable {agent : Agent} {lines : List TextLine} {chunks : List Bytes}

/-- What is sent for a growing file, and the buffers that it is sent for. -/
theorem exists_sent_chunks (env : AgentEnv) (hread : agent.HasRead [])
    (htext : chunks.flatten = linesText lines) :
    ∃ entries, (agentRun env agent ((visible [] chunks).map some)).sent = agent.sent ++ entries ∧
      entries.map LogEntry.fields =
        ((chunks.flatMap (buffers (logMessageMaxLen - 1))).filter startsVisible).map
          lineFields := by
  have hnul : (0 : UInt8) ∉ linesText lines := by
    intro h
    obtain ⟨line, -, hline⟩ := List.mem_flatMap.mp h
    rcases List.mem_append.mp hline with hline | hline
    · exact line.nul_notMem hline
    · exact absurd (List.mem_singleton.mp hline) (by decide)
  have hmem : ∀ buffer ∈ chunks.flatMap (buffers (logMessageMaxLen - 1)),
      IsBuffer buffer ∧ (0 : UInt8) ∉ buffer := by
    intro buffer hbuffer
    obtain ⟨chunk, hchunk, hbuffer⟩ := List.mem_flatMap.mp hbuffer
    refine ⟨isBuffer_of_mem_buffers hbuffer, fun h => hnul ?_⟩
    rw [← htext]
    refine List.mem_flatten.mpr ⟨chunk, hchunk, ?_⟩
    rw [← flatten_buffers (logMessageMaxLen - 1) chunk]
    exact List.mem_flatten.mpr ⟨buffer, hbuffer, h⟩
  rw [sent_agentRun_visible env hread]
  exact fields_processBuffers agent (fun buffer h => (hmem buffer h).1)
    fun buffer h => (hmem buffer h).2

/-- The entries that are sent, compared with the lines. -/
theorem sentLineByLine_iff (hread : agent.HasRead []) (htext : chunks.flatten = linesText lines) :
    SentLineByLine env lines
        ((agentRun env agent ((visible [] chunks).map some)).sent.drop agent.sent.length) ↔
      ((chunks.flatMap (buffers (logMessageMaxLen - 1))).filter startsVisible).map lineFields =
        lines.map fun line => lineFields line.bytes := by
  obtain ⟨entries, hsent, hfields⟩ := exists_sent_chunks env hread htext
  have hsome : Function.Injective (some : CStr logMessageMaxLen × LogLevel → Option _) :=
    Option.some_injective _
  have hentries : entries.map (fun entry => some entry.fields) =
      (entries.map LogEntry.fields).map some := (List.map_map ..).symm
  have hlines : (lines.map fun line => parsedFields env (line.bytes ++ [newline])) =
      (lines.map fun line => lineFields line.bytes).map some := by
    rw [List.map_map]
    exact List.map_congr_left fun line _ => parsedFields_textLine line
  rw [SentLineByLine, hsent, List.drop_left, hentries, hlines, hfields]
  exact (List.map_injective_iff.mpr hsome).eq_iff

/-- Entries that are the lines come from buffers that are the lines. -/
theorem wholeLines_of_sentLineByLine (hread : agent.HasRead [])
    (htext : chunks.flatten = linesText lines)
    (h : SentLineByLine env lines
      ((agentRun env agent ((visible [] chunks).map some)).sent.drop agent.sent.length)) :
    WholeLines (chunks.flatMap (buffers (logMessageMaxLen - 1))) lines := by
  rw [sentLineByLine_iff hread htext] at h
  have hlength := congrArg List.length h
  rw [List.length_map, List.length_map, ← List.countP_eq_length_filter] at hlength
  have hshown : ∀ buffer ∈ chunks.flatMap (buffers (logMessageMaxLen - 1)), IsBuffer buffer := by
    intro buffer hbuffer
    obtain ⟨chunk, -, hbuffer⟩ := List.mem_flatMap.mp hbuffer
    exact isBuffer_of_mem_buffers hbuffer
  have hflatten : (chunks.flatMap (buffers (logMessageMaxLen - 1))).flatten = linesText lines := by
    rw [flatten_flatMap_buffers, htext]
  exact (wholeLines_of_countP_le hshown hflatten).2 hlength.le

/-- **Polls show exactly when a line is sent whole.**  For every content of non-blank lines, in
every way in which it becomes visible to polls that start in front of it: there is one entry
for each line, with the message and the level of the whole line, if and only if no line is
longer than `LOG_MESSAGE_MAX_LEN`, and no poll sees the file end inside the text of a line. -/
theorem agentRun_lineByLine_iff (env : AgentEnv) {agent : Agent} (hread : agent.HasRead [])
    {lines : List TextLine} {chunks : List Bytes} (htext : chunks.flatten = linesText lines) :
    SentLineByLine env lines
        ((agentRun env agent ((visible [] chunks).map some)).sent.drop agent.sent.length) ↔
      (∀ line ∈ lines, line.bytes.length ≤ logMessageMaxLen) ∧ AtLineBounds chunks := by
  have hwhole : WholeLines (chunks.flatMap (buffers (logMessageMaxLen - 1))) lines ↔ _ :=
    wholeLines_iff htext
  refine Iff.trans ?_ hwhole
  constructor
  · exact wholeLines_of_sentLineByLine hread htext
  · intro h
    rw [sentLineByLine_iff hread htext]
    exact h.map_lineFields

/-- The line `abc`. -/
def abcLine : TextLine where
  bytes := ascii "abc"
  ne_nil := by decide
  newline_notMem := by decide
  nul_notMem := by decide

/-- The line break of a line may come later. -/
theorem agentRun_lineByLine_abc :
    SentLineByLine AgentEnv.still [abcLine]
      ((agentRun AgentEnv.still (agentInit (AgentConfig.ofNodeId (ascii "node-01")) 3 none)
        ((visible [] [ascii "abc", ascii "\n"]).map some)).sent.drop 0) :=
  have hread := hasRead_agentInit (AgentConfig.ofNodeId (ascii "node-01")) 3 none
  have htext : [ascii "abc", ascii "\n"].flatten = linesText [abcLine] := by decide
  have hbounds : AtLineBounds [ascii "abc", ascii "\n"] :=
    (WholeLines.full abcLine WholeLines.nil).atLineBounds
  (agentRun_lineByLine_iff AgentEnv.still hread htext).mpr ⟨by decide, hbounds⟩

/-- The rest of the line may not: a poll that sees `ab` sends it. -/
theorem cutLine_not_lineByLine :
    ¬ ∀ (env : AgentEnv) (agent : Agent), agent.HasRead [] →
      ∀ (lines : List TextLine) (chunks : List Bytes), chunks.flatten = linesText lines →
        SentLineByLine env lines
          ((agentRun env agent ((visible [] chunks).map some)).sent.drop agent.sent.length) := by
  intro h
  have hread := hasRead_agentInit (AgentConfig.ofNodeId (ascii "node-01")) 3 none
  have htext : [ascii "ab", ascii "c\n"].flatten = linesText [abcLine] := by decide
  have hwhole := wholeLines_of_sentLineByLine hread htext
    (h AgentEnv.still _ hread _ _ htext)
  have hcut := hwhole.atLineBounds.of_flatMap_buffers [ascii "ab"] [ascii "c\n"] rfl
  exact absurd hcut (by decide)

end LogAgg
