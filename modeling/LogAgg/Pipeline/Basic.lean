import LogAgg.Network.Lossy
import LogAgg.Pipeline.Directory
import LogAgg.Server.Conservation
import LogAgg.Server.Datagram
import LogAgg.Server.Safety

/-!
# The whole system

Applications write log files, an agent follows each of them and sends what it stamps as
datagrams, and one server collects what arrives.  The hosts are the senders and the server is the
receiver of `Network.Parties`, so datagrams are lost, repeated and delayed at will, and the turns
of the loops follow one another in any order.

A run of the system is a run of each agent and a run of the server, on datagrams of the agents
(`exists_serverRun`).  So what holds of every run of the server holds here, and every line of its
files goes back to an entry that some agent has stamped (`pipeline_safe`).
-/

namespace LogAgg

open Ascii Dedup Network

/-! ## The system -/

/-- A host: the log file of its application, if there is one, and its agent. -/
structure AgentHost where
  file : Option Bytes
  agent : Agent

/-- What happens at a host: the application appends to the file, the file is replaced, or the
agent takes a turn of its loop. -/
inductive HostEvent where
  | append (text : Bytes)
  | replace (file : Option Bytes)
  | poll

/-- An event at a host, with the datagrams that the agent sends in it. -/
def hostAct (env : AgentEnv) : HostEvent → AgentHost → AgentHost × List Bytes
  | .append text, host => ({ host with file := some (host.file.getD [] ++ text) }, [])
  | .replace file, host => ({ host with file := file }, [])
  | .poll, host =>
    ({ host with agent := agentPoll env host.agent host.file },
      ((agentPoll env host.agent host.file).sent.drop host.agent.sent.length).filterMap
        agentSendLog)

/-- What a turn of the server finds, with the two clock readings of the turn. -/
def serverTurn (t : UInt64 × UInt64) : Option Bytes → ServerInput
  | some data => .ofBytes (recvWindow data) t.1 t.2
  | none => .poll t.2

variable {ι : Type*}

/-- The hosts and the server. -/
def pipelineParties (env : ι → AgentEnv) :
    Parties ι HostEvent AgentHost Bytes (UInt64 × UInt64) Server where
  act i := hostAct (env i)
  receive t data server := serverStep server (serverTurn t data)

/-- A system. -/
abbrev Pipeline (ι : Type*) := Net ι AgentHost Bytes Server

/-- A move of a system. -/
abbrev PipelineMove (ι : Type*) := Move ι HostEvent (UInt64 × UInt64)

/-- The start: an agent at every host, all for the same number of nodes, and the server. -/
def pipelineInit (configs : ι → AgentConfig) (nodeCount : ℤ) (files : ι → Option Bytes)
    (config : ServerConfig) (disk : ℕ → DiskOutcome) : Pipeline ι where
  sender i := ⟨files i, agentInit (configs i) nodeCount (files i)⟩
  sent := []
  receiver := serverInit config disk

/-- A run. -/
def pipelineRun [DecidableEq ι] (env : ι → AgentEnv) (pipeline : Pipeline ι)
    (moves : List (PipelineMove ι)) : Pipeline ι := (pipelineParties env).run pipeline moves

/-! ## An agent -/

/-- Every entry that was sent is one of this agent's: its node id, its number of nodes, and no
metadata. -/
structure Agent.Stamps (config : AgentConfig) (nodeCount : ℤ) (agent : Agent) : Prop where
  config_eq : agent.config = config
  nodeCount_eq : agent.vc.nodeCount = (vcInit VectorClock.zero nodeCount).nodeCount
  sent : ∀ entry ∈ agent.sent, entry.metadata = [] ∧ entry.nodeId = config.nodeId ∧
    entry.vc.nodeCount = (vcInit VectorClock.zero nodeCount).nodeCount

section Agent

variable {env : AgentEnv} {config : AgentConfig} {nodeCount : ℤ} {agent : Agent}

theorem stamps_agentInit (config : AgentConfig) (nodeCount : ℤ) (file : Option Bytes) :
    (agentInit config nodeCount file).Stamps config nodeCount :=
  ⟨rfl, rfl, fun _ hentry => absurd hentry List.not_mem_nil⟩

theorem Agent.Stamps.processLine (h : agent.Stamps config nodeCount) (line : Bytes) :
    (processLine env agent line).Stamps config nodeCount := by
  cases hparse : agentParseLine env.mktime (env.now agent.stamped) line with
  | none => rwa [processLine_of_none hparse]
  | some parsed =>
    obtain ⟨entry, parsedVc⟩ := parsed
    rw [processLine_of_some hparse]
    refine ⟨h.config_eq, ?_, fun sent hsent => ?_⟩
    · rw [← h.nodeCount_eq]
      exact agent.nodeCount_stampVc parsedVc
    · rcases List.mem_append.mp hsent with hold | hnew
      · exact h.sent sent hold
      · rw [List.mem_singleton.mp hnew]
        refine ⟨(agentParseLine_eq_some hparse).2.2, congrArg AgentConfig.nodeId h.config_eq, ?_⟩
        show (vcCopy entry.vc (agent.stampVc parsedVc)).nodeCount = _
        rw [nodeCount_vcCopy, agent.nodeCount_stampVc, h.nodeCount_eq]

theorem Agent.Stamps.agentPoll (h : agent.Stamps config nodeCount) (file : Option Bytes) :
    (agentPoll env agent file).Stamps config nodeCount :=
  agentRun_induction (fun _ _ _ h => ⟨h.config_eq, h.nodeCount_eq, h.sent⟩)
    (fun _ line h => h.processLine line) h [file]

/-- A turn of the loop only adds to what was sent. -/
theorem prefix_sent_agentPoll (env : AgentEnv) (agent : Agent) (file : Option Bytes) :
    agent.sent <+: (agentPoll env agent file).sent := by
  refine agentRun_induction (P := fun a => agent.sent <+: a.sent)
    (fun _ _ _ h => h) (fun a line h => ?_) (List.prefix_refl _) [file]
  cases hparse : agentParseLine env.mktime (env.now a.stamped) line with
  | none => rwa [processLine_of_none hparse]
  | some parsed =>
    obtain ⟨entry, parsedVc⟩ := parsed
    rw [processLine_of_some hparse]
    exact h.trans (List.prefix_append _ _)

/-- Entries without metadata are sent as their texts. -/
theorem filterMap_agentSendLog {entries : List LogEntry}
    (hmeta : ∀ entry ∈ entries, entry.metadata = []) :
    entries.filterMap agentSendLog = entries.map entryText := by
  rw [← List.filterMap_eq_map]
  exact List.filterMap_congr fun entry hentry => logEntryToJson_of_metadata (hmeta entry hentry)

end Agent

/-! ## A host -/

section Host

variable {env : ι → AgentEnv} {config : AgentConfig} {nodeCount : ℤ}

/-- **A host on its own**: its datagrams are the texts of the entries that its agent has
stamped. -/
theorem solo_host (i : ι) (file : Option Bytes) (events : List HostEvent) :
    ((pipelineParties env).solo i ⟨file, agentInit config nodeCount file⟩ events).1.agent.Stamps
        config nodeCount ∧
      ((pipelineParties env).solo i ⟨file, agentInit config nodeCount file⟩ events).2 =
        ((pipelineParties env).solo i ⟨file, agentInit config nodeCount file⟩
          events).1.agent.sent.map entryText := by
  induction events using List.reverseRecOn with
  | nil => exact ⟨stamps_agentInit config nodeCount file, rfl⟩
  | append_singleton events event ih =>
    rw [Parties.solo_concat]
    generalize (pipelineParties env).solo i ⟨file, agentInit config nodeCount file⟩ events = r at ih
    obtain ⟨hstamps, hsent⟩ := ih
    cases event with
    | append text => exact ⟨hstamps, (List.append_nil _).trans hsent⟩
    | replace file' => exact ⟨hstamps, (List.append_nil _).trans hsent⟩
    | poll =>
      have hpoll : (agentPoll (env i) r.1.agent r.1.file).Stamps config nodeCount :=
        hstamps.agentPoll r.1.file
      obtain ⟨new, hnew⟩ := prefix_sent_agentPoll (env i) r.1.agent r.1.file
      have hadded :
          (agentPoll (env i) r.1.agent r.1.file).sent.drop r.1.agent.sent.length = new := by
        rw [← hnew, List.drop_left]
      refine ⟨hpoll, ?_⟩
      show r.2 ++ ((agentPoll (env i) r.1.agent r.1.file).sent.drop
        r.1.agent.sent.length).filterMap agentSendLog =
          (agentPoll (env i) r.1.agent r.1.file).sent.map entryText
      rw [hadded, filterMap_agentSendLog fun entry hentry => (hpoll.sent entry (by
        rw [← hnew]
        exact List.mem_append_right _ hentry)).1, hsent, ← hnew, List.map_append]

end Host

/-! ## What the server receives -/

/-- The text of an entry arrives as what the reader makes of the entry. -/
theorem serverTurn_entryText {entry : LogEntry} (hmeta : entry.metadata = [])
    (t : UInt64 × UInt64) : serverTurn t (some (entryText entry)) =
      .datagram (entryText entry).length (some (received entry)) t.1 t.2 := by
  have hpos : 0 < (entryText entry).length := Nat.succ_pos _
  rw [serverTurn, recvWindow_eq_self (length_entryText_lt hmeta), ServerInput.ofBytes, if_pos hpos,
    cstring_entryText, logEntryFromJson_entryText hmeta]
  rfl

section Server

variable [DecidableEq ι] (env : ι → AgentEnv)

/-- What the turns of the server find in some moves. -/
def serverInputs (pipeline : Pipeline ι) (moves : List (PipelineMove ι)) : List ServerInput :=
  ((pipelineParties env).receptions pipeline moves).map fun x => serverTurn x.1 (x.2.map Prod.snd)

/-- **The server is where its own turns lead it.** -/
theorem receiver_pipelineRun (pipeline : Pipeline ι) (moves : List (PipelineMove ι)) :
    (pipelineRun env pipeline moves).receiver =
      serverRun pipeline.receiver (serverInputs env pipeline moves) := by
  rw [pipelineRun, Parties.receiver_run, serverInputs, serverRun, List.foldl_map]
  rfl

variable (configs : ι → AgentConfig) (nodeCount : ℤ) (files : ι → Option Bytes)
  (config : ServerConfig) (disk : ℕ → DiskOutcome) (moves : List (PipelineMove ι))

/-- The agents stamp entries of their own, and nothing else is in the network. -/
theorem sender_pipelineRun (i : ι) :
    ((pipelineRun env (pipelineInit configs nodeCount files config disk) moves).sender
        i).agent.Stamps (configs i) nodeCount ∧
      messagesOf i (pipelineRun env (pipelineInit configs nodeCount files config disk) moves).sent =
        ((pipelineRun env (pipelineInit configs nodeCount files config disk) moves).sender
          i).agent.sent.map entryText := by
  obtain ⟨hsender, hsent⟩ := Parties.sender_run (p := pipelineParties env)
    (pipelineInit configs nodeCount files config disk) moves i
  rw [pipelineRun, hsender, hsent]
  exact solo_host i (files i) (eventsOf i moves)

/-- A turn of the server finds an entry that an agent has stamped, or nothing. -/
theorem serverInput_cases {input : ServerInput}
    (h : input ∈ serverInputs env (pipelineInit configs nodeCount files config disk) moves) :
    (∃ now, input = .poll now) ∨ ∃ i, ∃ entry ∈
      ((pipelineRun env (pipelineInit configs nodeCount files config disk) moves).sender
        i).agent.sent, ∃ len arrivalTime now,
          input = .datagram len (some (received entry)) arrivalTime now := by
  obtain ⟨⟨t, message⟩, hmem, rfl⟩ := List.mem_map.mp h
  cases message with
  | none => exact Or.inl ⟨t.2, rfl⟩
  | some m =>
    obtain ⟨i, data⟩ := m
    obtain ⟨hstamps, hmessages⟩ :=
      sender_pipelineRun env configs nodeCount files config disk moves i
    have hsent := mem_messagesOf_iff.mpr (Parties.mem_sent_of_reception _ _ hmem)
    rw [show (pipelineParties env).run = pipelineRun env from rfl, hmessages] at hsent
    obtain ⟨entry, hentry, rfl⟩ := List.mem_map.mp hsent
    refine Or.inr ⟨i, entry, hentry, (entryText entry).length, t.1, t.2, ?_⟩
    exact serverTurn_entryText (hstamps.sent entry hentry).1 t

/-- What the server receives are entries that agents have stamped. -/
theorem exists_of_mem_receivedEntries {entry : LogEntry} (h : entry ∈ receivedEntries
    (serverInputs env (pipelineInit configs nodeCount files config disk) moves)) :
    ∃ i, ∃ e ∈ ((pipelineRun env (pipelineInit configs nodeCount files config disk) moves).sender
      i).agent.sent, entry = received e := by
  obtain ⟨input, hinput, hentry⟩ := List.mem_filterMap.mp h
  rcases serverInput_cases env configs nodeCount files config disk moves hinput with
    ⟨now, rfl⟩ | ⟨i, e, he, len, arrivalTime, now, rfl⟩
  · cases hentry
  · exact ⟨i, e, he, (Option.some.inj hentry).symm⟩

/-- Every datagram that arrives is parsed. -/
theorem none_notMem_receivedDatagrams : none ∉ receivedDatagrams
    (serverInputs env (pipelineInit configs nodeCount files config disk) moves) := by
  intro h
  obtain ⟨input, hinput, hnone⟩ := List.mem_filterMap.mp h
  rcases serverInput_cases env configs nodeCount files config disk moves hinput with
    ⟨now, rfl⟩ | ⟨i, e, he, len, arrivalTime, now, rfl⟩
  · cases hnone
  · cases hnone

end Server

/-! ## What the query tool loads -/

theorem nodeCount_received (entry : LogEntry) :
    (received entry).vc.nodeCount = entry.vc.nodeCount :=
  (vcFromJson_vcText VectorClock.zero entry.vc).2.1

/-- Reading keeps the clock. -/
theorem extend_received (entry : LogEntry) : (received entry).vc.extend = entry.vc.extend := by
  obtain ⟨-, hcount, hslot⟩ := vcFromJson_vcText VectorClock.zero entry.vc
  ext i
  by_cases hi : i < entry.vc.nodeCount
  · have hi' : i < (received entry).vc.nodeCount := by rwa [nodeCount_received]
    rw [VectorClock.extend_of_lt hi, VectorClock.extend_of_lt hi']
    exact congrArg UInt64.toNat (hslot i hi)
  · have hi' : (received entry).vc.nodeCount ≤ i := by
      rw [nodeCount_received]
      exact not_lt.mp hi
    rw [VectorClock.extend_of_le (not_lt.mp hi), VectorClock.extend_of_le hi']

/-! ## Every run -/

section Run

variable [DecidableEq ι] (env : ι → AgentEnv) (configs : ι → AgentConfig)
  (files : ι → Option Bytes) (config : ServerConfig) (disk : ℕ → DiskOutcome)
  (moves : List (PipelineMove ι))

/-- The server of a system is safe and settled, and has all its entries in its books. -/
theorem safe_pipelineRun {n : ℕ} (hpos : 1 ≤ n) (hle : n ≤ vcMaxNodes)
    (hconfig : config.nodeCount = n) :
    Safe n (pipelineRun env (pipelineInit configs n files config disk) moves).receiver ∧
      Conserved config (serverInputs env (pipelineInit configs n files config disk) moves)
        (pipelineRun env (pipelineInit configs n files config disk) moves).receiver := by
  have hcount : (vcInit VectorClock.zero (n : ℤ)).nodeCount = n := nodeCount_vcInit _ hpos hle
  have hinit : (serverInit config disk).committedVc.nodeCount = n := by
    show (vcInit VectorClock.zero config.nodeCount).nodeCount = n
    rw [hconfig, hcount]
  rw [receiver_pipelineRun]
  refine ⟨((safe_invariant n).run (fun entry hentry => ?_) (safe_serverInit disk hinit)
    (settled_serverInit config disk)).1, conserved_serverRun config disk _⟩
  obtain ⟨i, e, he, rfl⟩ :=
    exists_of_mem_receivedEntries env configs n files config disk moves hentry
  rw [nodeCount_received, ((sender_pipelineRun env configs n files config disk moves i).1.sent e
    he).2.2, hcount]

/-- The server of a system is settled. -/
theorem settled_pipelineRun {nodeCount : ℤ} :
    (pipelineRun env (pipelineInit configs nodeCount files config disk)
      moves).receiver.Settled := by
  rw [receiver_pipelineRun]
  exact (settled_serverInit config disk).run _

/-- What the server has written comes from agents. -/
theorem exists_of_mem_committedEntries {n : ℕ} {entry : LogEntry}
    (h : entry ∈ committedEntries
      (pipelineRun env (pipelineInit configs n files config disk) moves).receiver.trace) :
    ∃ i, ∃ e ∈ ((pipelineRun env (pipelineInit configs n files config disk) moves).sender
      i).agent.sent, entry = received e := by
  rw [receiver_pipelineRun] at h
  refine exists_of_mem_receivedEntries env configs n files config disk moves ?_
  exact (conserved_serverRun config disk _).entries.mem_iff.mpr
    (List.mem_append_left _ (List.mem_append_left _ h))

/-- The lines of the files are those of the committed entries. -/
theorem exists_wrote_pipelineRun {n : ℕ} (hwrites : WritesSucceed
    (pipelineRun env (pipelineInit configs n files config disk) moves).receiver.trace) :
    ∃ written,
      (pipelineRun env (pipelineInit configs n files config disk) moves).receiver.Wrote written ∧
        written.map (·.2) = committedEntries
          (pipelineRun env (pipelineInit configs n files config disk) moves).receiver.trace := by
  rw [receiver_pipelineRun] at hwrites ⊢
  rw [← writtenEntries_eq hwrites]
  exact exists_wrote_serverRun config disk _ hwrites

/-- **The query tool loads what the server has committed**, from the file of each day line by line,
and from the directory all of it. -/
theorem storeLoad_pipelineRun {n : ℕ} (hpos : 1 ≤ n) (hle : n ≤ vcMaxNodes)
    (hconfig : config.nodeCount = n) {written : List (Bytes × LogEntry)}
    (hwrote : (pipelineRun env (pipelineInit configs n files config disk)
      moves).receiver.Wrote written)
    (hentries : written.map (·.2) = committedEntries
      (pipelineRun env (pipelineInit configs n files config disk) moves).receiver.trace)
    (decompressSafe : Bytes → ℕ → Option Bytes) (index : List IndexEntry) :
    let server := (pipelineRun env (pipelineInit configs n files config disk) moves).receiver
    (∀ overrun,
      (storeLoadFile decompressSafe overrun (storeInit index) (some server.file)).1 =
          written.length ∧
        (storeLoadFile decompressSafe overrun (storeInit index) (some server.file)).2.entries =
          written.map (·.2)) ∧
    (∀ overrun day,
      (storeLoadFile decompressSafe overrun (storeInit index) (some (server.dayFile day))).1 =
          (entriesOn written day).length ∧
        (storeLoadFile decompressSafe overrun (storeInit index)
          (some (server.dayFile day))).2.entries = entriesOn written day) ∧
    ∀ overrun dir fopen names, server.Lists dir fopen names →
      (storeLoadDir decompressSafe overrun fopen (storeInit index) dir (some names)).1 =
          written.length ∧
        (storeLoadDir decompressSafe overrun fopen (storeInit index) dir
          (some names)).2.entries.Perm (written.map (·.2)) := by
  intro server
  have hreceived : ∀ entry ∈ written.map (·.2), ∃ sent, entry = received sent := by
    intro entry hentry
    rw [hentries] at hentry
    obtain ⟨i, e, -, he⟩ :=
      exists_of_mem_committedEntries env configs files config disk moves hentry
    exact ⟨e, he⟩
  have horder : (written.map (·.2)).Pairwise fun x y => ¬ y.vc.extend ≤ x.vc.extend := by
    rw [hentries]
    exact (safe_pipelineRun env configs files config disk moves hpos hle hconfig).1.order
  refine ⟨fun overrun => ?_, fun overrun day => ?_, fun overrun dir fopen names hlists => ?_⟩
  · rw [hwrote.file, storeLoadFile_received decompressSafe overrun _ hreceived,
      entries_storeAppendAll, keepFirst_of_not_covered horder (.refl _), List.length_map]
    exact ⟨rfl, rfl⟩
  · have hsub : (entriesOn written day).Sublist (written.map (·.2)) :=
      List.filter_sublist.map _
    rw [hwrote.storeLoadFile_dayFile hreceived decompressSafe overrun _ day,
      entries_storeAppendAll, keepFirst_of_not_covered (horder.sublist hsub) (.refl _)]
    exact ⟨rfl, rfl⟩
  · obtain ⟨loaded, hperm, hload⟩ := hwrote.exists_storeLoadDir hreceived hlists decompressSafe
      overrun (storeInit index)
    rw [hload, entries_storeAppendAll, keepFirst_of_not_covered horder hperm]
    exact ⟨rfl, hperm⟩

/-- **Every run of the system**, with datagrams lost, repeated and delayed, timeouts firing, and
whatever happens to the log files.  Every datagram that arrives is parsed.  The files of the server
hold entries that agents have stamped, none of them equal to or before one that was written before
it, and the query tool loads exactly these entries: from the file of a day, or from all files in a
row, one for each line and in the same order, and from the directory all of them. -/
theorem pipeline_safe {n : ℕ} (hpos : 1 ≤ n) (hle : n ≤ vcMaxNodes)
    (hconfig : config.nodeCount = n) (hwrites : WritesSucceed
      (pipelineRun env (pipelineInit configs n files config disk) moves).receiver.trace) :
    let pipeline := pipelineRun env (pipelineInit configs n files config disk) moves
    pipeline.receiver.stats.totalErrors = 0 ∧
    ∃ written : List (Bytes × ι × LogEntry),
      (∀ w ∈ written, w.2.2 ∈ (pipeline.sender w.2.1).agent.sent) ∧
      pipeline.receiver.file = written.flatMap (fun w => entryLine (received w.2.2)) ∧
      (∀ day, pipeline.receiver.dayFile day =
        (written.filter (·.1 = day)).flatMap fun w => entryLine (received w.2.2)) ∧
      (written.Pairwise fun v w => vcCompare w.2.2.vc v.2.2.vc ≠ .equal ∧
        vcCompare w.2.2.vc v.2.2.vc ≠ .happensBefore) ∧
      ∀ decompressSafe index,
        (∀ overrun,
          (storeLoadFile decompressSafe overrun (storeInit index)
              (some pipeline.receiver.file)).1 = written.length ∧
            (storeLoadFile decompressSafe overrun (storeInit index)
              (some pipeline.receiver.file)).2.entries = written.map fun w => received w.2.2) ∧
        (∀ overrun day,
          (storeLoadFile decompressSafe overrun (storeInit index)
              (some (pipeline.receiver.dayFile day))).1 = (written.filter (·.1 = day)).length ∧
            (storeLoadFile decompressSafe overrun (storeInit index)
              (some (pipeline.receiver.dayFile day))).2.entries =
                (written.filter (·.1 = day)).map fun w => received w.2.2) ∧
        ∀ overrun dir fopen names, pipeline.receiver.Lists dir fopen names →
          (storeLoadDir decompressSafe overrun fopen (storeInit index) dir (some names)).1 =
              written.length ∧
            (storeLoadDir decompressSafe overrun fopen (storeInit index) dir
              (some names)).2.entries.Perm (written.map fun w => received w.2.2) := by
  intro pipeline
  obtain ⟨hsafe, hconserved⟩ :=
    safe_pipelineRun env configs files config disk moves hpos hle hconfig
  have herrors : pipeline.receiver.stats.totalErrors = 0 := by
    rw [hconserved.errors, List.count_eq_zero.mpr
      (none_notMem_receivedDatagrams env configs n files config disk moves)]
    rfl
  obtain ⟨lines, hwrote, hentries⟩ :=
    exists_wrote_pipelineRun env configs files config disk moves hwrites
  -- every committed entry was received, so an agent has stamped it
  obtain ⟨written, hsent, rfl⟩ : ∃ written : List (Bytes × ι × LogEntry),
      (∀ w ∈ written, w.2.2 ∈ (pipeline.sender w.2.1).agent.sent) ∧
        (written.map fun w => (w.1, received w.2.2)) = lines := by
    refine exists_list_map fun line hline => ?_
    have hcommitted : line.2 ∈ committedEntries pipeline.receiver.trace :=
      hentries ▸ List.mem_map_of_mem hline
    obtain ⟨i, e, he, heq⟩ :=
      exists_of_mem_committedEntries env configs files config disk moves hcommitted
    exact ⟨(line.1, i, e), he, Prod.ext rfl heq.symm⟩
  have hday : ∀ day, entriesOn (written.map fun w => (w.1, received w.2.2)) day =
      (written.filter (·.1 = day)).map fun w => received w.2.2 :=
    entriesOn_map (fun w : ι × LogEntry => received w.2) written
  have hmap : (written.map fun w => (w.1, received w.2.2)).map (·.2) =
      written.map fun w => received w.2.2 := List.map_map
  have horder : (written.map fun w => received w.2.2).Pairwise
      fun x y => ¬ y.vc.extend ≤ x.vc.extend := by
    rw [← hmap, hentries]
    exact hsafe.order
  refine ⟨herrors, written, hsent, ?_, fun day => ?_, ?_, fun decompressSafe index => ?_⟩
  · rw [hwrote.file, hmap, List.flatMap_map]
  · rw [← List.flatMap_map, ← hday]
    exact hwrote.dayFile day
  · refine (List.pairwise_map.mp horder).imp fun {v w} hnot => ?_
    rw [extend_received, extend_received] at hnot
    rw [← vcCompare_equal_or_happensBefore_iff, not_or] at hnot
    exact hnot
  · have hload := storeLoad_pipelineRun env configs files config disk moves hpos hle hconfig hwrote
      hentries decompressSafe index
    simp only [hday, hmap, List.length_map] at hload
    exact hload

end Run

/-- A line is written and sent, and the datagram arrives twice. -/
def firstLineMoves : List (PipelineMove Bool) :=
  [.act false (.append (ascii "[VC:1,0,0] INFO: started\n")), .act false .poll, .act true .poll,
    .deliver 0 (1000, 1000), .idle (2000, 2000), .deliver 0 (3000, 3000)]

theorem pipeline_safe_firstLine :
    let pipeline := pipelineRun (fun _ => AgentEnv.still)
      (pipelineInit (fun second : Bool => AgentConfig.ofNodeId
        (if second then ascii "node-02" else ascii "node-01")) (2 : ℕ) (fun _ => none) ⟨2, 1000⟩
          reliableDisk) firstLineMoves
    (committedEntries pipeline.receiver.trace).length = 1 ∧
      pipeline.receiver.stats.totalErrors = 0 := by
  intro pipeline
  have hwrites : WritesSucceed pipeline.receiver.trace := by decide +kernel
  exact ⟨by decide +kernel, (pipeline_safe (fun _ => AgentEnv.still)
    (fun second : Bool =>
      AgentConfig.ofNodeId (if second then ascii "node-02" else ascii "node-01"))
    (fun _ => none) ⟨2, 1000⟩ reliableDisk firstLineMoves (by decide) (by decide) rfl hwrites).1⟩

end LogAgg
