import LogAgg.Agent.Basic
import LogAgg.LogEntry.Members
import LogAgg.LogEntry.RoundTrip
import LogAgg.Server.Basic

/-!
# A record on its way

An agent writes a record into a buffer of `LOGAGG_MAX_ENTRY_SIZE` bytes, the server receives it
into a window that is one byte shorter, parses it and writes it again.  Neither writer looks
further into what went wrong when a record does not fit.  `record_fits_datagram` says that all of
them do: an agent only has entries without metadata, and the reader never stores any, so the
worst case of the escapes and the numbers is below the size of the buffer.
-/

namespace LogAgg

open Ascii

/-! ## The receive window -/

/-- What `recvfrom` delivers of a datagram into the buffer of the server, which keeps a byte for
the terminator. -/
def recvWindow (data : Bytes) : Bytes := data.take (logaggMaxEntrySize - 1)

theorem recvWindow_eq_self {data : Bytes} (h : data.length < logaggMaxEntrySize) :
    recvWindow data = data := List.take_of_length_le (Nat.le_sub_one_of_lt h)

/-! ## Entries without metadata -/

theorem logEntryToJson_of_metadata {entry : LogEntry} (h : entry.metadata = []) :
    logEntryToJson entry logaggMaxEntrySize = some (entryText entry) := by
  have hfits := length_entryText_lt h
  rw [logEntryToJson_eq, emit, List.length_nil, Nat.zero_add, if_pos hfits, List.nil_append]

theorem metadata_of_memberText {s rest : Bytes} {store : LogEntry → LogEntry}
    (h : MemberText s store rest) (entry : LogEntry) :
    (store entry).metadata = entry.metadata := by
  cases h with
  | string hkey hsize hvalue =>
    dsimp only
    unfold storeString
    split_ifs <;> rfl
  | value hkey hsize =>
    dsimp only
    unfold storeValue
    split_ifs <;> rfl

theorem metadata_of_membersText {s : Bytes} {store : LogEntry → LogEntry}
    (h : MembersText s store) (entry : LogEntry) : (store entry).metadata = entry.metadata := by
  induction h generalizing entry with
  | done h => rfl
  | next hmember h ih => exact (ih _).trans (metadata_of_memberText hmember entry)

/-- **The reader stores no metadata.** -/
theorem metadata_of_logEntryFromJson {json : Bytes} {entry : LogEntry}
    (h : logEntryFromJson json = .ok entry) : entry.metadata = [] := by
  obtain ⟨s, -, hread⟩ := ok_of_bind_eq_ok h
  obtain ⟨store, hstore, rfl⟩ := logEntryMembers_eq_ok_iff.mp hread
  exact metadata_of_membersText hstore LogEntry.zero

/-- A write fails only when the file system does not take the line, and otherwise the line is in
the file of the day. -/
theorem serverWriteEntryToFile_of_metadata {server : Server} {entry : LogEntry}
    (h : entry.metadata = []) (hopened : (server.disk server.writes).opened = true)
    (hstored : (entryText entry).length ≤ (server.disk server.writes).stored) :
    (serverWriteEntryToFile server entry).1 = 0 ∧
      ((server.disk server.writes).lineBreak = true →
        (serverWriteEntryToFile server entry).2.appended =
          server.appended ++ [((server.disk server.writes).today, entryText entry ++ [newline])]) := by
  have hret : (serverWriteEntryToFile server entry).1 = 0 := by
    unfold serverWriteEntryToFile
    simp only [hopened, if_true, logEntryToJson_of_metadata h, if_pos hstored]
  refine ⟨hret, fun hbreak => appended_serverWriteEntryToFile ?_⟩
  rw [Server.storesLine, hret, hbreak]
  rfl

/-! ## What an agent sends -/

/-- Every line that was stamped was sent, and no entry that was sent has metadata. -/
structure SendsAll (agent : Agent) : Prop where
  length_sent : agent.sent.length = agent.stamped
  metadata : ∀ entry ∈ agent.sent, entry.metadata = []

theorem SendsAll.processLine {agent : Agent} (h : SendsAll agent) (env : AgentEnv) (line : Bytes) :
    SendsAll (processLine env agent line) := by
  cases hparse : agentParseLine env.mktime (env.now agent.stamped) line with
  | none => rwa [processLine_of_none hparse]
  | some parsed =>
    obtain ⟨entry, parsedVc⟩ := parsed
    rw [processLine_of_some hparse]
    refine ⟨?_, fun sent hsent => ?_⟩
    · rw [List.length_append, h.length_sent]
      rfl
    · rcases List.mem_append.mp hsent with hold | hnew
      · exact h.metadata sent hold
      · rw [List.mem_singleton.mp hnew]
        exact (agentParseLine_eq_some hparse).2.2

/-- **Whatever an agent does, it sends what it stamps.** -/
theorem sendsAll_agentRun (env : AgentEnv) (config : AgentConfig) (nodeCount : ℤ)
    (file : Option Bytes) (polls : List (Option Bytes)) :
    SendsAll (agentRun env (agentInit config nodeCount file) polls) := by
  refine agentRun_induction (fun agent logFp lastOffset h => ⟨h.length_sent, h.metadata⟩)
    (fun agent line h => h.processLine env line) ?_ polls
  exact ⟨rfl, fun entry hentry => absurd hentry List.not_mem_nil⟩

/-! ## There and back -/

/-- **A record always fits the datagram.**  An entry without metadata is written into a buffer
of `LOGAGG_MAX_ENTRY_SIZE` bytes and sent; the server receives the datagram whole, parses it, and
writes what it parsed as a line of the file of the day, unless the file system fails.  The
entries of an agent are of this kind over any run, and so is whatever the server parses. -/
theorem record_fits_datagram :
    (∀ entry : LogEntry, entry.metadata = [] → ∃ text parsed,
      logEntryToJson entry logaggMaxEntrySize = some text ∧
      agentSendLog entry = some text ∧
      text.length ≤ 4095 ∧
      (∀ arrivalTime now, ServerInput.ofBytes (recvWindow text) arrivalTime now =
        .datagram text.length (some parsed) arrivalTime now) ∧
      ∃ json, logEntryToJson parsed logaggMaxEntrySize = some json ∧
        ∀ server : Server, (server.disk server.writes).opened = true →
          json.length ≤ (server.disk server.writes).stored →
            (serverWriteEntryToFile server parsed).1 = 0 ∧
              ((server.disk server.writes).lineBreak = true →
                (serverWriteEntryToFile server parsed).2.appended =
                  server.appended ++ [((server.disk server.writes).today, json ++ [newline])])) ∧
    (∀ (env : AgentEnv) (config : AgentConfig) (nodeCount : ℤ) (file : Option Bytes)
      (polls : List (Option Bytes)),
      SendsAll (agentRun env (agentInit config nodeCount file) polls)) ∧
    ∀ (data : Bytes) (parsed : LogEntry), logEntryFromJson data = .ok parsed →
      ∃ json, logEntryToJson parsed logaggMaxEntrySize = some json := by
  refine ⟨fun entry h => ?_, sendsAll_agentRun, fun data parsed h => ?_⟩
  · have hlen := length_entryText_lt h
    have hparse := logEntryFromJson_entryText h
    have hmetadata := metadata_of_logEntryFromJson hparse
    refine ⟨entryText entry, received entry, logEntryToJson_of_metadata h,
      logEntryToJson_of_metadata h, Nat.le_of_lt_succ hlen, fun arrivalTime now => ?_,
      entryText (received entry), logEntryToJson_of_metadata hmetadata,
      fun server => serverWriteEntryToFile_of_metadata hmetadata⟩
    have hpos : 0 < (entryText entry).length := Nat.succ_pos _
    rw [recvWindow_eq_self hlen, ServerInput.ofBytes, if_pos hpos, cstring_entryText, hparse]
    rfl
  · exact ⟨_, logEntryToJson_of_metadata (metadata_of_logEntryFromJson h)⟩

end LogAgg
