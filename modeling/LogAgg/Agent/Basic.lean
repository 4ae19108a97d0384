import LogAgg.Agent.Line
import LogAgg.CString.Growth

/-!
# The agent

An agent of `agent.c` follows a log file.  It comes back to the file again and again
(`agentPoll`), reads what was appended since through a buffer of `LOG_MESSAGE_MAX_LEN + 1`
bytes, and sends every line that it can parse, stamped with its vector clock.

A poll sees the content of the file.  Over a file that only grows, any number of polls is one
pass over the buffers of what was appended (`agentRun_visible`).
-/

namespace LogAgg

open Ascii

/-- The part of `agent_config_t` that stamps entries. -/
structure AgentConfig where
  nodeId : CStr nodeIdMaxLen

/-- The config of a node. -/
def AgentConfig.ofNodeId (nodeId : Bytes) : AgentConfig := ⟨CStr.ofBytes nodeId⟩

/-- What the agent asks of the system: the conversion of a local time, and the time at which
it stamps a line, by the number of lines before. -/
structure AgentEnv where
  mktime : Tm → ℤ
  now : ℕ → UInt64

/-- A system whose clock stands still. -/
def AgentEnv.still : AgentEnv := ⟨fun _ => 0, fun _ => 0⟩

/-- `agent_t`, with a record of what was stamped and sent. -/
structure Agent where
  config : AgentConfig
  vc : VectorClock
  /-- Whether the file is open. -/
  logFp : Bool
  lastOffset : ℕ
  seq : UInt64
  /-- The number of lines stamped so far. -/
  stamped : ℕ
  /-- The entries sent so far. -/
  sent : List LogEntry

/-- The checks of `main`: there is a node id, and the number of nodes is in range. -/
def MainAccepts (config : AgentConfig) (nodeCount : ℤ) : Prop :=
  config.nodeId.bytes ≠ [] ∧ 0 < nodeCount ∧ nodeCount ≤ 32

/-- `agent_init`, with the content of the log file, if there is one.  What is in the file is
not read. -/
def agentInit (config : AgentConfig) (nodeCount : ℤ) (file : Option Bytes) : Agent where
  config
  vc := vcInit VectorClock.zero nodeCount
  logFp := file.isSome
  lastOffset := (file.getD []).length
  seq := 0
  stamped := 0
  sent := []

/-- `agent_send_log`: the datagram, or `none` for an entry that does not fit. -/
def agentSendLog (entry : LogEntry) : Option Bytes := logEntryToJson entry logaggMaxEntrySize

/-- The own index in `process_new_lines`: the first number in the node id, less one, and for
a node id without digits a hash.  The difference is one of `int`s, and wraps around. -/
def agentNodeIndex (nodeId : Bytes) : ℤ :=
  match nodeId.dropWhile fun c => !isdigit c with
  | [] =>
    let hash := nodeId.foldl (fun (hash : UInt32) c => hash * 31 + c.toUInt32) 0
    (hash % 32).toNat
  | c :: p =>
    let myNodeIdx := Int.bmod (atoi (c :: p) - 1) (2 ^ 32)
    if myNodeIdx < 0 then 0 else myNodeIdx

/-- One turn of the loop over the values of a tag: a larger one is taken over, but not for the
agent itself. -/
def mergeParsedAt (myNodeIdx : ℤ) (parsedVc : ParsedVc) (vc : VectorClock) (i : Fin 3) :
    VectorClock :=
  if (i.val : ℤ) ≠ myNodeIdx ∧ vc.slot i < UInt64.ofInt (parsedVc i) then
    vc.setSlot i (UInt64.ofInt (parsedVc i))
  else vc

/-- The clock of the agent with the values of a tag.  The first value tells whether there was
one. -/
def mergeParsedVc (myNodeIdx : ℤ) (parsedVc : ParsedVc) (vc : VectorClock) : VectorClock :=
  if 0 ≤ parsedVc 0 then (List.finRange 3).foldl (mergeParsedAt myNodeIdx parsedVc) vc else vc

/-- The clock that a line with such a tag is stamped with. -/
def Agent.stampVc (agent : Agent) (parsedVc : ParsedVc) : VectorClock :=
  let myNodeIdx := agentNodeIndex agent.config.nodeId.bytes
  vcIncrement (mergeParsedVc myNodeIdx parsedVc agent.vc) myNodeIdx

/-- The entry that is sent for a line. -/
def Agent.stampEntry (agent : Agent) (entry : LogEntry) (parsedVc : ParsedVc) : LogEntry :=
  { entry with
    nodeId := agent.config.nodeId
    vc := vcCopy entry.vc (agent.stampVc parsedVc)
    seq := agent.seq }

/-- The body of the loop of `process_new_lines`. -/
def processLine (env : AgentEnv) (agent : Agent) (line : Bytes) : Agent :=
  match agentParseLine env.mktime (env.now agent.stamped) line with
  | none => agent
  | some (entry, parsedVc) =>
    { agent with
      vc := agent.stampVc parsedVc
      seq := agent.seq + 1
      stamped := agent.stamped + 1
      sent := match agentSendLog (agent.stampEntry entry parsedVc) with
        | some _ => agent.sent ++ [agent.stampEntry entry parsedVc]
        | none => agent.sent }

/-- The loop of `process_new_lines`, over what `fgets` stores. -/
def processBuffers (env : AgentEnv) (agent : Agent) (shown : List Bytes) : Agent :=
  shown.foldl (fun agent buffer => processLine env agent (cstring buffer)) agent

/-- `process_new_lines`: the file from the saved offset to its end. -/
def processNewLines (env : AgentEnv) (agent : Agent) (content : Bytes) : Agent :=
  if agent.logFp then
    { processBuffers env agent
        (buffers (logMessageMaxLen - 1) (content.drop agent.lastOffset)) with
      lastOffset := max agent.lastOffset content.length }
  else agent

/-- `check_file_changed`.  Without a file there is nothing to open. -/
def checkFileChanged (agent : Agent) (file : Option Bytes) : Bool × Agent :=
  match file with
  | none => (false, agent)
  | some content =>
    if agent.logFp then
      if agent.lastOffset < content.length then (true, agent)
      -- the file was truncated, and is read again
      else if content.length < agent.lastOffset then (true, { agent with lastOffset := 0 })
      else (false, agent)
    else (true, { agent with logFp := true, lastOffset := 0 })

/-- One turn of the loop of `agent_run`. -/
def agentPoll (env : AgentEnv) (agent : Agent) (file : Option Bytes) : Agent :=
  match checkFileChanged agent file with
  | (true, agent) => processNewLines env agent (file.getD [])
  | (false, agent) => agent

/-- `agent_run`, as far as it comes. -/
def agentRun (env : AgentEnv) (agent : Agent) (polls : List (Option Bytes)) : Agent :=
  polls.foldl (agentPoll env) agent

/-! ## The clock of a line -/

@[simp] theorem nodeCount_mergeParsedAt (myNodeIdx : ℤ) (parsedVc : ParsedVc) (vc : VectorClock)
    (i : Fin 3) : (mergeParsedAt myNodeIdx parsedVc vc i).nodeCount = vc.nodeCount := by
  unfold mergeParsedAt
  split
  · rfl
  · rfl

theorem slot_mergeParsedAt (myNodeIdx : ℤ) (parsedVc : ParsedVc) (vc : VectorClock) (i : Fin 3)
    (j : ℕ) :
    ((mergeParsedAt myNodeIdx parsedVc vc i).slot j).toNat =
      if i.val = j ∧ (i.val : ℤ) ≠ myNodeIdx then
        max (vc.slot j).toNat (UInt64.ofInt (parsedVc i)).toNat
      else (vc.slot j).toNat := by
  have hi : i.val < vcMaxNodes := i.isLt.trans (by decide)
  unfold mergeParsedAt
  by_cases hother : (i.val : ℤ) ≠ myNodeIdx
  · by_cases hlt : vc.slot i < UInt64.ofInt (parsedVc i)
    · rw [if_pos ⟨hother, hlt⟩, VectorClock.slot_setSlot _ _ _ _ hi]
      by_cases hj : i.val = j
      · subst hj
        rw [if_pos rfl, if_pos ⟨rfl, hother⟩, max_eq_right (UInt64.lt_iff_toNat_lt.mp hlt).le]
      · rw [if_neg hj, if_neg fun h => hj h.1]
    · rw [if_neg fun h => hlt h.2]
      rw [UInt64.lt_iff_toNat_lt, not_lt] at hlt
      split
      · rename_i h
        rw [← h.1, max_eq_left hlt]
      · rfl
  · rw [if_neg fun h => hother h.1, if_neg fun h => hother h.2]

@[simp] theorem nodeCount_mergeParsedVc (myNodeIdx : ℤ) (parsedVc : ParsedVc) (vc : VectorClock) :
    (mergeParsedVc myNodeIdx parsedVc vc).nodeCount = vc.nodeCount := by
  unfold mergeParsedVc
  split
  · exact List.foldlRecOn (motive := fun v => v.nodeCount = vc.nodeCount) _ _ rfl
      fun v hv i _ => (nodeCount_mergeParsedAt myNodeIdx parsedVc v i).trans hv
  · rfl

/-- **The values of a tag are taken over by maximum**, for the other agents. -/
theorem slot_mergeParsedVc {parsedVc : ParsedVc} (h : 0 ≤ parsedVc 0) (myNodeIdx : ℤ)
    (vc : VectorClock) (i : Fin 3) :
    ((mergeParsedVc myNodeIdx parsedVc vc).slot i).toNat =
      if (i.val : ℤ) ≠ myNodeIdx then
        max (vc.slot i).toNat (UInt64.ofInt (parsedVc i)).toNat
      else (vc.slot i).toNat := by
  have hrange : List.finRange 3 = [0, 1, 2] := rfl
  rw [mergeParsedVc, if_pos h, hrange]
  simp only [List.foldl_cons, List.foldl_nil, slot_mergeParsedAt]
  fin_cases i <;> simp

/-- The components behind a tag, and the own one, stay. -/
theorem slot_mergeParsedVc_of_not (parsedVc : ParsedVc) (myNodeIdx : ℤ) (vc : VectorClock) {j : ℕ}
    (hj : (j : ℤ) = myNodeIdx ∨ 3 ≤ j) :
    (mergeParsedVc myNodeIdx parsedVc vc).slot j = vc.slot j := by
  have hat : ∀ (v : VectorClock) (i : Fin 3),
      (mergeParsedAt myNodeIdx parsedVc v i).slot j = v.slot j := by
    intro v i
    refine UInt64.toNat_inj.mp ?_
    rw [slot_mergeParsedAt, if_neg]
    rintro ⟨rfl, hother⟩
    rcases hj with hown | hbehind
    · exact hother hown
    · omega
  unfold mergeParsedVc
  split
  · exact List.foldlRecOn (motive := fun v => v.slot j = vc.slot j) _ _ rfl
      fun v hv i _ => (hat v i).trans hv
  · rfl

theorem slot_mergeParsedVc_le (parsedVc : ParsedVc) (myNodeIdx : ℤ) (vc : VectorClock) (j : ℕ) :
    (vc.slot j).toNat ≤ ((mergeParsedVc myNodeIdx parsedVc vc).slot j).toNat := by
  unfold mergeParsedVc
  split
  · refine List.foldlRecOn (motive := fun v : VectorClock => (vc.slot j).toNat ≤ (v.slot j).toNat)
      _ _ le_rfl fun v hv i _ => hv.trans ?_
    rw [slot_mergeParsedAt]
    split
    · exact le_max_left _ _
    · exact le_rfl
  · exact le_rfl

/-- An `int` that is not negative stays what it is as a `uint64_t`. -/
theorem toNat_ofInt_of_nonneg {v : ℤ} (hv : 0 ≤ v) (hlt : v < 2 ^ 31) :
    ((UInt64.ofInt v).toNat : ℤ) = v := by
  rw [UInt64.ofInt, UInt64.toNat_ofNat']
  omega

namespace Agent

@[simp] theorem nodeCount_stampVc (agent : Agent) (parsedVc : ParsedVc) :
    (agent.stampVc parsedVc).nodeCount = agent.vc.nodeCount := by
  rw [stampVc, nodeCount_vcIncrement, nodeCount_mergeParsedVc]

/-- The components of the other agents behind a line. -/
theorem slot_stampVc_of_ne (agent : Agent) (parsedVc : ParsedVc) (i : Fin 3)
    (hi : (i.val : ℤ) ≠ agentNodeIndex agent.config.nodeId.bytes) :
    ((agent.stampVc parsedVc).slot i).toNat =
      if 0 ≤ parsedVc 0 then max (agent.vc.slot i).toNat (UInt64.ofInt (parsedVc i)).toNat
      else (agent.vc.slot i).toNat := by
  rw [stampVc, slot_vcIncrement_of_ne _ hi]
  by_cases hfirst : 0 ≤ parsedVc 0
  · rw [if_pos hfirst, slot_mergeParsedVc hfirst, if_pos hi]
  · rw [if_neg hfirst, mergeParsedVc, if_neg hfirst]

/-- The clock of an entry is the clock of the agent. -/
theorem extend_vc_stampEntry (agent : Agent) (entry : LogEntry) (parsedVc : ParsedVc) :
    (agent.stampEntry entry parsedVc).vc.extend = (agent.stampVc parsedVc).extend := by
  have hvc : (agent.stampEntry entry parsedVc).vc = vcCopy entry.vc (agent.stampVc parsedVc) := rfl
  rw [hvc]
  generalize agent.stampVc parsedVc = vc
  ext i
  have hcount := nodeCount_vcCopy entry.vc vc
  by_cases hi : i < vc.nodeCount
  · have hi' : i < (vcCopy entry.vc vc).nodeCount := by rwa [hcount]
    rw [VectorClock.extend_of_lt hi, VectorClock.extend_of_lt hi', slot_vcCopy _ _ hi]
  · rw [VectorClock.extend_of_le (by omega), VectorClock.extend_of_le (by omega)]

end Agent

/-! ## A line -/

variable {env : AgentEnv}

/-- **Every entry can be sent.** -/
theorem agentSendLog_ne_none {entry : LogEntry} (h : entry.metadata = []) :
    agentSendLog entry ≠ none := by
  have hfits := length_entryText_lt h
  rw [agentSendLog, logEntryToJson_eq, emit, List.length_nil, Nat.zero_add, if_pos hfits]
  exact Option.some_ne_none _

theorem processLine_of_none {agent : Agent} {line : Bytes}
    (h : agentParseLine env.mktime (env.now agent.stamped) line = none) :
    processLine env agent line = agent := by
  rw [processLine, h]

/-- What a line that is parsed does. -/
theorem processLine_of_some {agent : Agent} {line : Bytes} {entry : LogEntry}
    {parsedVc : ParsedVc}
    (h : agentParseLine env.mktime (env.now agent.stamped) line = some (entry, parsedVc)) :
    processLine env agent line =
      { agent with
        vc := agent.stampVc parsedVc
        seq := agent.seq + 1
        stamped := agent.stamped + 1
        sent := agent.sent ++ [agent.stampEntry entry parsedVc] } := by
  have hmetadata : (agent.stampEntry entry parsedVc).metadata = [] :=
    (agentParseLine_eq_some h).2.2
  cases hsend : agentSendLog (agent.stampEntry entry parsedVc) with
  | none => exact absurd hsend (agentSendLog_ne_none hmetadata)
  | some datagram =>
    rw [processLine, h]
    dsimp only
    rw [hsend]

/-! ## Polls -/

/-- The agent with the file open, at some offset. -/
def Agent.seek (agent : Agent) (offset : ℕ) : Agent :=
  { agent with logFp := true, lastOffset := offset }

/-- Lines are processed wherever the file stands. -/
theorem processLine_seek (agent : Agent) (offset : ℕ) (line : Bytes) :
    processLine env (agent.seek offset) line = (processLine env agent line).seek offset := by
  have hstamped : (agent.seek offset).stamped = agent.stamped := rfl
  cases hparse : agentParseLine env.mktime (env.now agent.stamped) line with
  | none =>
    rw [processLine_of_none hparse, processLine_of_none (by rw [hstamped, hparse])]
  | some parsed =>
    obtain ⟨entry, parsedVc⟩ := parsed
    rw [processLine_of_some hparse,
      processLine_of_some (by rw [hstamped, hparse])]
    rfl

theorem processBuffers_seek (env : AgentEnv) (agent : Agent) (offset : ℕ) (shown : List Bytes) :
    processBuffers env (agent.seek offset) shown =
      (processBuffers env agent shown).seek offset := by
  induction shown generalizing agent with
  | nil => rfl
  | cons buffer shown ih =>
    have hstep := ih (processLine env agent (cstring buffer))
    rw [← processLine_seek] at hstep
    exact hstep

theorem processBuffers_append (agent : Agent) (shown shown' : List Bytes) :
    processBuffers env agent (shown ++ shown') =
      processBuffers env (processBuffers env agent shown) shown' := List.foldl_append

/-- The agent has read so much of the file, which it may not have opened as long as this is
nothing. -/
def Agent.HasRead (agent : Agent) (base : Bytes) : Prop :=
  agent.seek base.length = agent ∨ base = [] ∧ agent.logFp = false

theorem hasRead_seek (agent : Agent) (base : Bytes) : (agent.seek base.length).HasRead base :=
  Or.inl rfl

/-- `agent_init` skips what is in the file. -/
theorem hasRead_agentInit (config : AgentConfig) (nodeCount : ℤ) (file : Option Bytes) :
    (agentInit config nodeCount file).HasRead (file.getD []) := by
  cases file with
  | none => exact Or.inr ⟨rfl, rfl⟩
  | some base => exact Or.inl rfl

/-- **A poll reads what was appended.** -/
theorem agentPoll_append (env : AgentEnv) {agent : Agent} {base : Bytes}
    (h : agent.HasRead base) (chunk : Bytes) :
    agentPoll env agent (some (base ++ chunk)) =
      (processBuffers env agent (buffers (logMessageMaxLen - 1) chunk)).seek
        (base ++ chunk).length := by
  rcases h with hseek | ⟨rfl, hclosed⟩
  · have hopen : agent.logFp = true := by rw [← hseek]; rfl
    have hoffset : agent.lastOffset = base.length := by rw [← hseek]; rfl
    have hlen : (base ++ chunk).length = base.length + chunk.length := List.length_append
    cases chunk with
    | nil =>
      -- the file did not grow
      rw [List.append_nil, buffers_nil]
      rw [agentPoll, checkFileChanged, if_pos hopen, if_neg (by omega), if_neg (by omega)]
      exact hseek.symm
    | cons c chunk =>
      rw [List.length_cons] at hlen
      rw [agentPoll, checkFileChanged, if_pos hopen, if_pos (by omega)]
      dsimp only
      rw [Option.getD_some, processNewLines, if_pos hopen, hoffset, List.drop_left,
        max_eq_right (by omega)]
      have hprocess := processBuffers_seek env agent base.length
        (buffers (logMessageMaxLen - 1) (c :: chunk))
      rw [hseek] at hprocess
      rw [hprocess]
      rfl
  · -- the file is opened
    rw [List.nil_append, agentPoll, checkFileChanged,
      if_neg (by rw [hclosed]; exact Bool.false_ne_true)]
    dsimp only
    have hprocess := processBuffers_seek env agent 0
      (buffers (logMessageMaxLen - 1) chunk)
    rw [Option.getD_some, processNewLines, if_pos rfl, List.drop_zero, max_eq_right (Nat.zero_le _)]
    have hstart : ({ agent with logFp := true, lastOffset := 0 } : Agent) = agent.seek 0 := rfl
    rw [hstart, hprocess]
    rfl

/-- **Any number of polls is one pass** over what was appended. -/
theorem agentRun_visible (env : AgentEnv) {agent : Agent} {base : Bytes} (h : agent.HasRead base)
    (chunks : List Bytes) :
    (agentRun env agent ((visible base chunks).map some)).seek 0 =
      (processBuffers env agent (chunks.flatMap (buffers (logMessageMaxLen - 1)))).seek 0 := by
  induction chunks generalizing agent base with
  | nil => rfl
  | cons chunk chunks ih =>
    have hpoll := agentPoll_append env h chunk
    rw [visible, List.map_cons, List.flatMap_cons, processBuffers_append]
    show (agentRun env (agentPoll env agent (some (base ++ chunk))) _).seek 0 = _
    rw [hpoll, ih (hasRead_seek _ _), processBuffers_seek]
    rfl

/-- What is sent in any number of polls. -/
theorem sent_agentRun_visible (env : AgentEnv) {agent : Agent} {base : Bytes}
    (h : agent.HasRead base) (chunks : List Bytes) :
    (agentRun env agent ((visible base chunks).map some)).sent =
      (processBuffers env agent (chunks.flatMap (buffers (logMessageMaxLen - 1)))).sent := by
  have hrun := congrArg Agent.sent (agentRun_visible env h chunks)
  exact hrun

/-- **Induction along a run**: what lines preserve, whatever the position in the file. -/
theorem agentRun_induction {P : Agent → Prop}
    (hseek : ∀ agent logFp lastOffset, P agent → P { agent with logFp, lastOffset })
    (hline : ∀ agent line, P agent → P (processLine env agent line)) {agent : Agent}
    (h : P agent) (polls : List (Option Bytes)) : P (agentRun env agent polls) := by
  have hlines : ∀ agent content, P agent → P (processNewLines env agent content) := by
    intro agent content h
    unfold processNewLines
    split
    · refine hseek _ _ _ ?_
      exact List.foldlRecOn _ _ h fun agent h buffer _ => hline agent (cstring buffer) h
    · exact h
  have hcheck : ∀ agent file, P agent → P (checkFileChanged agent file).2 := by
    intro agent file h
    unfold checkFileChanged
    split
    · exact h
    · split
      · split
        · exact h
        · split
          · exact hseek _ _ _ h
          · exact h
      · exact hseek _ _ _ h
  refine List.foldlRecOn _ _ h fun agent h file _ => ?_
  have hchecked := hcheck agent file h
  unfold agentPoll
  split
  · rename_i heq
    rw [heq] at hchecked
    exact hlines _ _ hchecked
  · rename_i heq
    rw [heq] at hchecked
    exact hchecked

end LogAgg
