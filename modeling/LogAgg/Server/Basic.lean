import LogAgg.LogEntry.Json

/-!
# The aggregation server

The receive loop of `server.c`.  Entries wait in a list that `log_entry_compare_causal`
keeps sorted.  A flush walks this list from the front, removes the first entry that is
stale or one step ahead of the committed clock, and starts over until it finds none; the
timeout check writes entries from the head of the list whether they are ready or not.

`Server` is `server_t` together with what the file system does and with a record of what
happened: `trace` is no field of the source and nothing reads it.  Every day has a log file of
its own (`Server.dayFile`); `Server.file` is what all of them hold, in the order of writing.

`Server.Invariant` is the proof rule for this loop.  The list is *settled* whenever a
flush has returned, and only then is an entry inserted or forced out.
-/

namespace LogAgg

open Ascii

/-- `server_config_t`, as far as the loop reads it. -/
structure ServerConfig where
  nodeCount : ℤ
  timeoutMs : UInt64

/-- `server_stats_t`. -/
structure ServerStats where
  totalReceived : UInt64
  totalStored : UInt64
  totalErrors : UInt64
  bytesReceived : UInt64

/-- `log_buffer_node_t`, without its link. -/
structure LogBufferNode where
  entry : LogEntry
  arrivalTime : UInt64

/-- What one attempt to write a line finds: the date of the day, as `get_current_date` writes it,
whether `server_open_log_file` opens the file of this day, how many bytes of the line `fwrite`
counts, and whether the line break gets behind them.  What `fwrite` has counted is in the file:
nothing asks whether the `fflush` behind it succeeds. -/
structure DiskOutcome where
  today : Bytes
  opened : Bool
  stored : ℕ
  lineBreak : Bool

/-- What the server does to an entry.  A write notes the committed clock it found and
whether the whole line reached the file. -/
inductive ServerEvent where
  | written (forced : Bool) (entry : LogEntry) (committedVc : VectorClock) (stored : Bool)
  | discarded (entry : LogEntry)
  deriving DecidableEq

/-- `server_t`. -/
structure Server where
  config : ServerConfig
  stats : ServerStats
  committedVc : VectorClock
  /-- The list behind `buffer_head`. -/
  buffer : List LogBufferNode
  /-- An `int`, and exact as long as there are fewer than `2 ^ 31` nodes. -/
  bufferCount : ℤ
  /-- The answers of the file system, and how many were used. -/
  disk : ℕ → DiskOutcome
  writes : ℕ
  /-- What was appended to the log files, each piece with the date in the name of its file. -/
  appended : List (Bytes × Bytes)
  /-- What was done so far. -/
  trace : List ServerEvent

/-- The state `server_init` leaves when it succeeds. -/
def serverInit (config : ServerConfig) (disk : ℕ → DiskOutcome) : Server where
  config := config
  stats := ⟨0, 0, 0, 0⟩
  committedVc := vcInit VectorClock.zero config.nodeCount
  buffer := []
  bufferCount := 0
  disk := disk
  writes := 0
  appended := []
  trace := []

/-- The bytes appended to the log files, in the order of writing. -/
def Server.file (server : Server) : Bytes := server.appended.flatMap (·.2)

/-- The log file of a day. -/
def Server.dayFile (server : Server) (day : Bytes) : Bytes :=
  (server.appended.filter (·.1 = day)).flatMap (·.2)

/-! ## Writing -/

/-- `server_write_entry_to_file`, which appends to the file of the day. -/
def serverWriteEntryToFile (server : Server) (entry : LogEntry) : ℤ × Server :=
  let outcome := server.disk server.writes
  let server := { server with writes := server.writes + 1 }
  if outcome.opened then
    match logEntryToJson entry logaggMaxEntrySize with
    | some json =>
        (if json.length ≤ outcome.stored then 0 else -1,
          { server with
            appended := server.appended ++ [(outcome.today,
              json.take outcome.stored ++ if outcome.lineBreak then [newline] else [])] })
    | none => (-1, server)
  else (-1, server)

/-- The whole line of the entry reaches the file at the next attempt. -/
def Server.storesLine (server : Server) (entry : LogEntry) : Bool :=
  (serverWriteEntryToFile server entry).1 == 0 && (server.disk server.writes).lineBreak

/-- Taking an entry out of the buffer into the file: the write, whose answer is ignored,
the merge into the committed clock, and the bookkeeping. -/
def Server.commit (server : Server) (forced : Bool) (node : LogBufferNode)
    (rest : List LogBufferNode) : Server :=
  let after := (serverWriteEntryToFile server node.entry).2
  { after with
    committedVc := vcMerge after.committedVc node.entry.vc
    buffer := rest
    bufferCount := after.bufferCount - 1
    stats := { after.stats with totalStored := after.stats.totalStored + 1 }
    trace := after.trace ++
      [.written forced node.entry server.committedVc (server.storesLine node.entry)] }

/-- Freeing an entry without writing it. -/
def Server.discard (server : Server) (node : LogBufferNode) (rest : List LogBufferNode) : Server :=
  { server with
    buffer := rest
    bufferCount := server.bufferCount - 1
    trace := server.trace ++ [.discarded node.entry] }

/-! ## The buffer -/

/-- `log_entry_compare_causal`. -/
def logEntryCompareCausal (a b : LogEntry) : ℤ :=
  match vcCompare a.vc b.vc with
  | .happensBefore => -1
  | .happensAfter => 1
  | _ =>
      if a.timestamp ≠ b.timestamp then
        if a.timestamp < b.timestamp then -1 else 1
      else strcmp a.nodeId.bytes b.nodeId.bytes

/-- The place of a new node: before the first one it compares below. -/
def insertNode (newNode : LogBufferNode) : List LogBufferNode → List LogBufferNode
  | [] => [newNode]
  | curr :: next =>
      if logEntryCompareCausal newNode.entry curr.entry < 0 then newNode :: curr :: next
      else curr :: insertNode newNode next

theorem insertNode_perm (newNode : LogBufferNode) (buffer : List LogBufferNode) :
    (insertNode newNode buffer).Perm (newNode :: buffer) := by
  induction buffer with
  | nil => exact List.Perm.refl _
  | cons curr next ih =>
    rw [insertNode]
    split
    · exact List.Perm.refl _
    · exact (ih.cons curr).trans (List.Perm.swap newNode curr next)

/-- `server_insert_to_buffer`; `arrivalTime` is the clock it reads. -/
def serverInsertToBuffer (server : Server) (entry : LogEntry) (arrivalTime : UInt64) : Server :=
  { server with
    buffer := insertNode ⟨entry, arrivalTime⟩ server.buffer
    bufferCount := server.bufferCount + 1 }

/-- The duplicate test: the entry's clock is `VC_EQUAL` or `VC_HAPPENS_BEFORE` the
committed one. -/
def isStale (committedVc : VectorClock) (entry : LogEntry) : Bool :=
  match vcCompare entry.vc committedVc with
  | .equal => true
  | .happensBefore => true
  | _ => false

theorem isStale_iff {committedVc : VectorClock} {entry : LogEntry} :
    isStale committedVc entry = true ↔ entry.vc.extend ≤ committedVc.extend := by
  rw [← vcCompare_equal_or_happensBefore_iff]
  unfold isStale
  cases vcCompare entry.vc committedVc <;> simp

theorem isStale_eq_false_iff {committedVc : VectorClock} {entry : LogEntry} :
    isStale committedVc entry = false ↔ ¬ entry.vc.extend ≤ committedVc.extend := by
  rw [← isStale_iff, Bool.not_eq_true]

/-- How far an entry is ahead of the committed clock.  The differences are unsigned
64-bit numbers added into an `int`. -/
def increments (committedVc : VectorClock) (entry : LogEntry) : ℤ :=
  (List.range committedVc.nodeCount).foldl (fun increments i =>
    if committedVc.slot i < entry.vc.slot i then
      Int.bmod (increments + (entry.vc.slot i - committedVc.slot i).toNat) (2 ^ 32)
    else increments) 0

/-- The `int` sum of the differences, with its overflow. -/
theorem increments_eq (committedVc : VectorClock) (entry : LogEntry) :
    increments committedVc entry =
      Int.bmod (∑ i ∈ Finset.range committedVc.nodeCount,
        ((entry.vc.slot i).toNat - (committedVc.slot i).toNat) : ℕ) (2 ^ 32) := by
  unfold increments
  induction committedVc.nodeCount with
  | zero =>
    rw [List.range_zero, List.foldl_nil, Finset.range_zero, Finset.sum_empty, Nat.cast_zero,
      Int.zero_bmod]
  | succ m ih =>
    rw [List.range_succ, List.foldl_append, ih, List.foldl_cons, List.foldl_nil,
      Finset.sum_range_succ]
    by_cases hlt : committedVc.slot m < entry.vc.slot m
    · rw [if_pos hlt, Int.bmod_add_bmod, UInt64.toNat_sub_of_le _ _ (UInt64.le_of_lt hlt),
        Nat.cast_add]
    · rw [UInt64.lt_iff_toNat_lt] at hlt
      rw [if_neg (by rwa [UInt64.lt_iff_toNat_lt]), Nat.sub_eq_zero_of_le (by omega), Nat.add_zero]

/-- What a walk over the buffer ends with. -/
inductive FlushAction where
  | discard
  | release
  deriving DecidableEq

/-- The inner loop of `server_flush_causal_buffer`: the first node that is stale or one
step ahead, with the list that is left without it. -/
def flushWalk (committedVc : VectorClock) :
    List LogBufferNode → Option (FlushAction × LogBufferNode × List LogBufferNode)
  | [] => none
  | curr :: next =>
      if isStale committedVc curr.entry then some (.discard, curr, next)
      else if increments committedVc curr.entry = 1 then some (.release, curr, next)
      else (flushWalk committedVc next).map fun r => (r.1, r.2.1, curr :: r.2.2)

/-- The walk passes over this entry. -/
def IsHeld (committedVc : VectorClock) (entry : LogEntry) : Prop :=
  isStale committedVc entry = false ∧ increments committedVc entry ≠ 1

/-- The test by which the walk stops at an entry. -/
def FlushAction.Guard (action : FlushAction) (committedVc : VectorClock) (entry : LogEntry) :
    Prop :=
  match action with
  | .discard => isStale committedVc entry = true
  | .release => isStale committedVc entry = false ∧ increments committedVc entry = 1

/-- **What a walk that stops has found.** -/
theorem flushWalk_eq_some {committedVc : VectorClock} {buffer rest : List LogBufferNode}
    {action : FlushAction} {node : LogBufferNode}
    (h : flushWalk committedVc buffer = some (action, node, rest)) :
    ∃ before after, buffer = before ++ node :: after ∧ rest = before ++ after ∧
      action.Guard committedVc node.entry ∧ ∀ m ∈ before, IsHeld committedVc m.entry := by
  induction buffer generalizing rest with
  | nil => exact absurd h (by simp [flushWalk])
  | cons curr next ih =>
    rw [flushWalk] at h
    by_cases hstale : isStale committedVc curr.entry = true
    · rw [if_pos hstale, Option.some_inj] at h
      obtain ⟨rfl, hnode⟩ := Prod.mk.inj h
      obtain ⟨rfl, rfl⟩ := Prod.mk.inj hnode
      exact ⟨[], next, rfl, rfl, hstale, fun m hm => absurd hm List.not_mem_nil⟩
    · rw [if_neg hstale] at h
      rw [Bool.not_eq_true] at hstale
      by_cases hone : increments committedVc curr.entry = 1
      · rw [if_pos hone, Option.some_inj] at h
        obtain ⟨rfl, hnode⟩ := Prod.mk.inj h
        obtain ⟨rfl, rfl⟩ := Prod.mk.inj hnode
        exact ⟨[], next, rfl, rfl, ⟨hstale, hone⟩, fun m hm => absurd hm List.not_mem_nil⟩
      · rw [if_neg hone, Option.map_eq_some_iff] at h
        obtain ⟨⟨action', node', rest'⟩, hwalk, heq⟩ := h
        obtain ⟨rfl, hnode⟩ := Prod.mk.inj heq
        obtain ⟨rfl, rfl⟩ := Prod.mk.inj hnode
        obtain ⟨before, after, rfl, rfl, hguard, hheld⟩ := ih hwalk
        refine ⟨curr :: before, after, rfl, rfl, hguard, fun m hm => ?_⟩
        rcases List.mem_cons.mp hm with rfl | hm
        · exact ⟨hstale, hone⟩
        · exact hheld m hm

/-- A walk that finds nothing has seen every entry and held it. -/
theorem flushWalk_eq_none {committedVc : VectorClock} {buffer : List LogBufferNode}
    (h : flushWalk committedVc buffer = none) : ∀ m ∈ buffer, IsHeld committedVc m.entry := by
  induction buffer with
  | nil => exact fun m hm => absurd hm List.not_mem_nil
  | cons curr next ih =>
    rw [flushWalk] at h
    by_cases hstale : isStale committedVc curr.entry = true
    · rw [if_pos hstale] at h
      exact absurd h (by simp)
    · rw [if_neg hstale] at h
      rw [Bool.not_eq_true] at hstale
      by_cases hone : increments committedVc curr.entry = 1
      · rw [if_pos hone] at h
        exact absurd h (by simp)
      · rw [if_neg hone, Option.map_eq_none_iff] at h
        intro m hm
        rcases List.mem_cons.mp hm with rfl | hm
        · exact ⟨hstale, hone⟩
        · exact ih h m hm

theorem length_flushWalk {committedVc : VectorClock} {buffer rest : List LogBufferNode}
    {action : FlushAction} {node : LogBufferNode}
    (h : flushWalk committedVc buffer = some (action, node, rest)) :
    rest.length < buffer.length := by
  obtain ⟨before, after, rfl, rfl, -, -⟩ := flushWalk_eq_some h
  rw [List.length_append, List.length_append, List.length_cons]
  omega

/-! What the two removals do to the state. -/

@[simp] theorem buffer_discard (server : Server) (node : LogBufferNode)
    (rest : List LogBufferNode) : (server.discard node rest).buffer = rest := rfl

@[simp] theorem committedVc_discard (server : Server) (node : LogBufferNode)
    (rest : List LogBufferNode) : (server.discard node rest).committedVc = server.committedVc := rfl

@[simp] theorem trace_discard (server : Server) (node : LogBufferNode)
    (rest : List LogBufferNode) :
    (server.discard node rest).trace = server.trace ++ [.discarded node.entry] := rfl

@[simp] theorem buffer_commit (server : Server) (forced : Bool) (node : LogBufferNode)
    (rest : List LogBufferNode) : (server.commit forced node rest).buffer = rest := rfl

/-- A write counts itself and touches the files, and nothing else. -/
theorem exists_serverWriteEntryToFile (server : Server) (entry : LogEntry) :
    ∃ appended, (serverWriteEntryToFile server entry).2 =
      { server with writes := server.writes + 1, appended := appended } := by
  unfold serverWriteEntryToFile
  dsimp only
  split
  · split <;> exact ⟨_, rfl⟩
  · exact ⟨server.appended, rfl⟩

@[simp] theorem config_serverWriteEntryToFile (server : Server) (entry : LogEntry) :
    (serverWriteEntryToFile server entry).2.config = server.config := by
  obtain ⟨appended, hframe⟩ := exists_serverWriteEntryToFile server entry
  rw [hframe]

@[simp] theorem stats_serverWriteEntryToFile (server : Server) (entry : LogEntry) :
    (serverWriteEntryToFile server entry).2.stats = server.stats := by
  obtain ⟨appended, hframe⟩ := exists_serverWriteEntryToFile server entry
  rw [hframe]

@[simp] theorem bufferCount_serverWriteEntryToFile (server : Server) (entry : LogEntry) :
    (serverWriteEntryToFile server entry).2.bufferCount = server.bufferCount := by
  obtain ⟨appended, hframe⟩ := exists_serverWriteEntryToFile server entry
  rw [hframe]

@[simp] theorem committedVc_serverWriteEntryToFile (server : Server) (entry : LogEntry) :
    (serverWriteEntryToFile server entry).2.committedVc = server.committedVc := by
  obtain ⟨appended, hframe⟩ := exists_serverWriteEntryToFile server entry
  rw [hframe]

@[simp] theorem trace_serverWriteEntryToFile (server : Server) (entry : LogEntry) :
    (serverWriteEntryToFile server entry).2.trace = server.trace := by
  obtain ⟨appended, hframe⟩ := exists_serverWriteEntryToFile server entry
  rw [hframe]

@[simp] theorem committedVc_commit (server : Server) (forced : Bool) (node : LogBufferNode)
    (rest : List LogBufferNode) :
    (server.commit forced node rest).committedVc = vcMerge server.committedVc node.entry.vc := by
  show vcMerge (serverWriteEntryToFile server node.entry).2.committedVc node.entry.vc = _
  rw [committedVc_serverWriteEntryToFile]

@[simp] theorem trace_commit (server : Server) (forced : Bool) (node : LogBufferNode)
    (rest : List LogBufferNode) :
    (server.commit forced node rest).trace = server.trace ++
      [.written forced node.entry server.committedVc (server.storesLine node.entry)] := by
  show (serverWriteEntryToFile server node.entry).2.trace ++ _ = _
  rw [trace_serverWriteEntryToFile]

@[simp] theorem config_commit (server : Server) (forced : Bool) (node : LogBufferNode)
    (rest : List LogBufferNode) : (server.commit forced node rest).config = server.config :=
  config_serverWriteEntryToFile server node.entry

@[simp] theorem stats_commit (server : Server) (forced : Bool) (node : LogBufferNode)
    (rest : List LogBufferNode) : (server.commit forced node rest).stats =
      { server.stats with totalStored := server.stats.totalStored + 1 } := by
  show { (serverWriteEntryToFile server node.entry).2.stats with
    totalStored := (serverWriteEntryToFile server node.entry).2.stats.totalStored + 1 } = _
  rw [stats_serverWriteEntryToFile]

@[simp] theorem bufferCount_commit (server : Server) (forced : Bool) (node : LogBufferNode)
    (rest : List LogBufferNode) :
    (server.commit forced node rest).bufferCount = server.bufferCount - 1 := by
  show (serverWriteEntryToFile server node.entry).2.bufferCount - 1 = _
  rw [bufferCount_serverWriteEntryToFile]

/-- `server_flush_causal_buffer`. -/
def serverFlushCausalBuffer (server : Server) : Server :=
  match h : flushWalk server.committedVc server.buffer with
  | none => server
  | some (.discard, node, rest) =>
      have _ : rest.length < server.buffer.length := length_flushWalk h
      serverFlushCausalBuffer (server.discard node rest)
  | some (.release, node, rest) =>
      have _ : rest.length < server.buffer.length := length_flushWalk h
      serverFlushCausalBuffer (server.commit false node rest)
  termination_by server.buffer.length
  decreasing_by all_goals assumption

/-- No entry of the buffer is stale or ready. -/
def Server.Settled (server : Server) : Prop :=
  ∀ node ∈ server.buffer, IsHeld server.committedVc node.entry

/-- **Flush rule.**  What discarding a stale entry and releasing a ready one preserve, a
flush preserves, and it leaves a settled buffer. -/
theorem serverFlushCausalBuffer_rule {P : Server → Prop}
    (hdiscard : ∀ (server : Server) (before after : List LogBufferNode) (node : LogBufferNode),
      server.buffer = before ++ node :: after →
      isStale server.committedVc node.entry = true →
      P server → P (server.discard node (before ++ after)))
    (hrelease : ∀ (server : Server) (before after : List LogBufferNode) (node : LogBufferNode),
      server.buffer = before ++ node :: after →
      isStale server.committedVc node.entry = false →
      increments server.committedVc node.entry = 1 →
      P server → P (server.commit false node (before ++ after)))
    {server : Server} (h : P server) :
    P (serverFlushCausalBuffer server) ∧ (serverFlushCausalBuffer server).Settled := by
  induction hlen : server.buffer.length using Nat.strong_induction_on generalizing server with
  | _ len ih =>
    subst hlen
    rw [serverFlushCausalBuffer]
    split
    · rename_i hwalk
      exact ⟨h, flushWalk_eq_none hwalk⟩
    · rename_i node rest hwalk
      obtain ⟨before, after, hbuffer, rfl, hguard, -⟩ := flushWalk_eq_some hwalk
      exact ih _ (length_flushWalk hwalk) (hdiscard server before after node hbuffer hguard h) rfl
    · rename_i node rest hwalk
      obtain ⟨before, after, hbuffer, rfl, hguard, -⟩ := flushWalk_eq_some hwalk
      exact ih _ (length_flushWalk hwalk)
        (hrelease server before after node hbuffer hguard.1 hguard.2 h) rfl

theorem length_buffer_serverFlushCausalBuffer_le (server : Server) :
    (serverFlushCausalBuffer server).buffer.length ≤ server.buffer.length := by
  refine (serverFlushCausalBuffer_rule
    (P := fun s => s.buffer.length ≤ server.buffer.length) ?_ ?_ le_rfl).1
  · intro s before after node hbuffer _ h
    rw [hbuffer, List.length_append, List.length_cons] at h
    rw [buffer_discard, List.length_append]
    omega
  · intro s before after node hbuffer _ _ h
    rw [hbuffer, List.length_append, List.length_cons] at h
    rw [buffer_commit, List.length_append]
    omega

/-- `server_check_timeout_flush`; `now` is the clock it reads.  The age of the head is an
unsigned difference. -/
def serverCheckTimeoutFlush (now : UInt64) (server : Server) : Server :=
  match h : server.buffer with
  | [] => server
  | node :: rest =>
      if server.config.timeoutMs < now - node.arrivalTime then
        have _ : (serverFlushCausalBuffer (server.commit true node rest)).buffer.length <
            server.buffer.length := by
          rw [h]
          exact Nat.lt_succ_of_le (length_buffer_serverFlushCausalBuffer_le _)
        serverCheckTimeoutFlush now (serverFlushCausalBuffer (server.commit true node rest))
      else server
  termination_by server.buffer.length
  decreasing_by assumption

/-! ## The loop -/

/-- What one turn of the loop in `server_run` finds: a datagram of `len` bytes and the
entry `log_entry_from_json` makes of it, with the two clock readings of the turn, or
nothing before the receive timeout. -/
inductive ServerInput where
  | datagram (len : ℕ) (parsed : Option LogEntry) (arrivalTime now : UInt64)
  | poll (now : UInt64)

/-- The input made by the bytes `recvfrom` delivers.  The buffer is terminated behind
them; no byte at all is as good as a timeout. -/
def ServerInput.ofBytes (data : Bytes) (arrivalTime now : UInt64) : ServerInput :=
  if 0 < data.length then
    .datagram data.length (logEntryFromJson (cstring data)).toOption arrivalTime now
  else .poll now

/-- The counters of a datagram that came in. -/
def Server.countReceived (server : Server) (len : ℕ) : Server :=
  { server with
    stats := { server.stats with
      totalReceived := server.stats.totalReceived + 1
      bytesReceived := server.stats.bytesReceived + len.toUInt64 } }

/-- The counter of a datagram that is no log entry. -/
def Server.countError (server : Server) : Server :=
  { server with stats := { server.stats with totalErrors := server.stats.totalErrors + 1 } }

/-- The handling of a datagram once it is parsed. -/
def serverReceive (server : Server) (parsed : Option LogEntry) (arrivalTime : UInt64) : Server :=
  match parsed with
  | some entry => serverFlushCausalBuffer (serverInsertToBuffer server entry arrivalTime)
  | none => server.countError

/-- One turn of the loop in `server_run`. -/
def serverStep (server : Server) : ServerInput → Server
  | .datagram len parsed arrivalTime now =>
      serverCheckTimeoutFlush now (serverReceive (server.countReceived len) parsed arrivalTime)
  | .poll now => serverCheckTimeoutFlush now server

/-- `server_run`. -/
def serverRun (server : Server) (inputs : List ServerInput) : Server :=
  inputs.foldl serverStep server

/-- The entries received in a run. -/
def receivedEntries (inputs : List ServerInput) : List LogEntry :=
  inputs.filterMap fun
    | .datagram _ parsed _ _ => parsed
    | .poll _ => none

theorem receivedEntries_cons (input : ServerInput) (inputs : List ServerInput) :
    receivedEntries (input :: inputs) = receivedEntries [input] ++ receivedEntries inputs := by
  rw [← List.singleton_append, receivedEntries, List.filterMap_append]
  rfl

/-! ## The proof rule -/

/-- A property of the server that taking a node out of the buffer preserves, whether the
entry is dropped or written. -/
structure Server.Removals (P : Server → Prop) : Prop where
  discard : ∀ (server : Server) (before after : List LogBufferNode) (node : LogBufferNode),
    server.buffer = before ++ node :: after → isStale server.committedVc node.entry = true →
    P server → P (server.discard node (before ++ after))
  commit : ∀ (server : Server) (forced : Bool) (before after : List LogBufferNode)
    (node : LogBufferNode), server.buffer = before ++ node :: after →
    isStale server.committedVc node.entry = false →
    P server → P (server.commit forced node (before ++ after))

namespace Server.Removals

variable {P : Server → Prop}

theorem flush (hP : Server.Removals P) {server : Server} (h : P server) :
    P (serverFlushCausalBuffer server) ∧ (serverFlushCausalBuffer server).Settled :=
  serverFlushCausalBuffer_rule hP.discard
    (fun s before after node hbuffer hstale _ hs =>
      hP.commit s false before after node hbuffer hstale hs) h

/-- The timeout check starts from a settled buffer, and each of its turns ends with a
flush. -/
theorem timeout (hP : Server.Removals P) (now : UInt64) {server : Server}
    (h : P server) (hsettled : server.Settled) :
    P (serverCheckTimeoutFlush now server) ∧ (serverCheckTimeoutFlush now server).Settled := by
  induction hlen : server.buffer.length using Nat.strong_induction_on generalizing server with
  | _ len ih =>
    subst hlen
    rw [serverCheckTimeoutFlush]
    split
    · exact ⟨h, hsettled⟩
    · rename_i node rest hbuffer
      split
      · have hstale := (hsettled node (by rw [hbuffer]; exact List.mem_cons_self)).1
        have hflush := hP.flush (hP.commit server true [] rest node hbuffer hstale h)
        refine ih _ ?_ hflush.1 hflush.2 rfl
        rw [hbuffer]
        exact Nat.lt_succ_of_le (length_buffer_serverFlushCausalBuffer_le _)
      · exact ⟨h, hsettled⟩

end Server.Removals

/-- What is left when a node is taken out was there before. -/
theorem mem_of_mem_taken {α : Type*} {before after : List α} {a b : α}
    (h : b ∈ before ++ after) : b ∈ before ++ a :: after :=
  ((List.sublist_cons_self a after).append_left before).subset h

section Buffered

variable {Q : LogBufferNode → Prop} {server : Server}

/-- What holds of the nodes of the buffer and of a new one holds when that is inserted. -/
theorem forall_mem_serverInsertToBuffer (h : ∀ node ∈ server.buffer, Q node) {entry : LogEntry}
    {arrivalTime : UInt64} (hnew : Q ⟨entry, arrivalTime⟩) :
    ∀ node ∈ (serverInsertToBuffer server entry arrivalTime).buffer, Q node := by
  intro node hnode
  have hmem : node ∈ ⟨entry, arrivalTime⟩ :: server.buffer :=
    (insertNode_perm _ _).mem_iff.mp hnode
  rcases List.mem_cons.mp hmem with rfl | hmem
  · exact hnew
  · exact h node hmem

/-- What holds of the nodes of the buffer holds of those left when one is taken out. -/
theorem forall_mem_taken (h : ∀ node ∈ server.buffer, Q node) {before after : List LogBufferNode}
    {node : LogBufferNode} (hbuffer : server.buffer = before ++ node :: after) :
    ∀ m ∈ before ++ after, Q m := by
  intro m hm
  refine h m ?_
  rw [hbuffer]
  exact mem_of_mem_taken hm

end Buffered

/-- A property of the server that every action preserves.  An entry that is inserted is
one of those `admits` allows; insertion and forced writes find the buffer settled. -/
structure Server.Invariant (admits : LogEntry → Prop) (P : Server → Prop) : Prop where
  count : ∀ (server : Server) (stats : ServerStats), P server → P { server with stats := stats }
  insert : ∀ (server : Server) (entry : LogEntry) (arrivalTime : UInt64), admits entry →
    server.Settled → P server → P (serverInsertToBuffer server entry arrivalTime)
  discard : ∀ (server : Server) (before after : List LogBufferNode) (node : LogBufferNode),
    server.buffer = before ++ node :: after → isStale server.committedVc node.entry = true →
    P server → P (server.discard node (before ++ after))
  commit : ∀ (server : Server) (forced : Bool) (before after : List LogBufferNode)
    (node : LogBufferNode), server.buffer = before ++ node :: after →
    isStale server.committedVc node.entry = false →
    P server → P (server.commit forced node (before ++ after))

namespace Server.Invariant

variable {admits : LogEntry → Prop} {P : Server → Prop}

theorem removals (hP : Server.Invariant admits P) : Server.Removals P := ⟨hP.discard, hP.commit⟩

theorem flush (hP : Server.Invariant admits P) {server : Server} (h : P server) :
    P (serverFlushCausalBuffer server) ∧ (serverFlushCausalBuffer server).Settled :=
  hP.removals.flush h

theorem timeout (hP : Server.Invariant admits P) (now : UInt64) {server : Server}
    (h : P server) (hsettled : server.Settled) :
    P (serverCheckTimeoutFlush now server) ∧ (serverCheckTimeoutFlush now server).Settled :=
  hP.removals.timeout now h hsettled

theorem step (hP : Server.Invariant admits P) {server : Server} {input : ServerInput}
    (hadmits : ∀ entry ∈ receivedEntries [input], admits entry) (h : P server)
    (hsettled : server.Settled) : P (serverStep server input) ∧ (serverStep server input).Settled := by
  cases input with
  | poll now => exact hP.timeout now h hsettled
  | datagram len parsed arrivalTime now =>
    cases parsed with
    | none => exact hP.timeout now (hP.count _ _ (hP.count server _ h)) hsettled
    | some entry =>
      have hinsert := hP.insert (server.countReceived len) entry arrivalTime
        (hadmits entry (by simp [receivedEntries])) hsettled (hP.count server _ h)
      have hflush := hP.flush hinsert
      exact hP.timeout now hflush.1 hflush.2

/-- **Run rule.** -/
theorem run (hP : Server.Invariant admits P) {server : Server} {inputs : List ServerInput}
    (hadmits : ∀ entry ∈ receivedEntries inputs, admits entry) (h : P server)
    (hsettled : server.Settled) : P (serverRun server inputs) ∧ (serverRun server inputs).Settled := by
  induction inputs generalizing server with
  | nil => exact ⟨h, hsettled⟩
  | cons input inputs ih =>
    rw [receivedEntries_cons, List.forall_mem_append] at hadmits
    have hstep := hP.step hadmits.1 h hsettled
    exact ih hadmits.2 hstep.1 hstep.2

theorem const (admits : LogEntry → Prop) : Server.Invariant admits fun _ => True :=
  ⟨fun _ _ _ => trivial, fun _ _ _ _ _ _ => trivial, fun _ _ _ _ _ _ _ => trivial,
    fun _ _ _ _ _ _ _ _ => trivial⟩

/-- What the insertion of an entry establishes holds at the end of every run that
receives it. -/
theorem run_of_received (hP : Server.Invariant (fun _ => True) P) {entry : LogEntry}
    (hentry : ∀ server arrivalTime, P (serverInsertToBuffer server entry arrivalTime))
    {server : Server} {inputs : List ServerInput} (h : entry ∈ receivedEntries inputs)
    (hsettled : server.Settled) : P (serverRun server inputs) := by
  induction inputs generalizing server with
  | nil => exact absurd h List.not_mem_nil
  | cons input inputs ih =>
    rw [receivedEntries_cons, List.mem_append] at h
    rcases h with h | h
    · cases input with
      | poll now => exact absurd h List.not_mem_nil
      | datagram len parsed arrivalTime now =>
        cases parsed with
        | none => exact absurd h List.not_mem_nil
        | some received =>
          obtain rfl : entry = received := List.mem_singleton.mp h
          have hflush := hP.flush (hentry (server.countReceived len) arrivalTime)
          have hstep := hP.timeout now hflush.1 hflush.2
          exact (hP.run (fun _ _ => trivial) hstep.1 hstep.2).1
    · exact ih h ((const _).step (fun _ _ => trivial) trivial hsettled).2

end Server.Invariant

/-- A run that starts settled ends settled. -/
theorem Server.Settled.run {server : Server} (h : server.Settled) (inputs : List ServerInput) :
    (serverRun server inputs).Settled :=
  ((Server.Invariant.const fun _ => True).run (fun _ _ => trivial) trivial h).2

theorem settled_serverInit (config : ServerConfig) (disk : ℕ → DiskOutcome) :
    (serverInit config disk).Settled := fun _ hnode => absurd hnode List.not_mem_nil

/-- **Run rule with a history.**  `P past` is about the state behind the turns `past`: it
survives the removal of nodes, and it moves on with every turn, over a datagram that is no
entry, over an insertion into a settled buffer, and over a turn without a datagram. -/
theorem serverRun_history {P : List ServerInput → Server → Prop}
    (hremovals : ∀ past, Server.Removals (P past))
    (hpoll : ∀ past server now, P past server → P (past ++ [.poll now]) server)
    (herror : ∀ past server len arrivalTime now, P past server →
      P (past ++ [.datagram len none arrivalTime now]) (server.countReceived len).countError)
    (hinsert : ∀ past server len entry arrivalTime now, server.Settled → P past server →
      P (past ++ [.datagram len (some entry) arrivalTime now])
        (serverInsertToBuffer (server.countReceived len) entry arrivalTime))
    {server : Server} (inputs : List ServerInput) (h : P [] server) (hsettled : server.Settled) :
    P inputs (serverRun server inputs) := by
  induction inputs using List.reverseRecOn with
  | nil => exact h
  | append_singleton past input ih =>
    have hrun : serverRun server (past ++ [input]) = serverStep (serverRun server past) input := by
      rw [serverRun, List.foldl_append, List.foldl_cons, List.foldl_nil, serverRun]
    have hbefore : (serverRun server past).Settled := hsettled.run past
    rw [hrun]
    cases input with
    | poll now => exact ((hremovals _).timeout now (hpoll _ _ now ih) hbefore).1
    | datagram len parsed arrivalTime now =>
      cases parsed with
      | none => exact ((hremovals _).timeout now (herror _ _ len arrivalTime now ih) hbefore).1
      | some entry =>
        have hflush := (hremovals _).flush (hinsert _ _ len entry arrivalTime now hbefore ih)
        exact ((hremovals _).timeout now hflush.1 hflush.2).1

/-! ## What a trace tells -/

/-- The entries whose lines were written, in the order of the file. -/
def writtenEntries (trace : List ServerEvent) : List LogEntry :=
  trace.filterMap fun
    | .written _ entry _ stored => if stored then some entry else none
    | .discarded _ => none

/-- The entries whose clocks were committed, stored or not. -/
def committedEntries (trace : List ServerEvent) : List LogEntry :=
  trace.filterMap fun
    | .written _ entry _ _ => some entry
    | .discarded _ => none

/-- The event is no failed write. -/
def ServerEvent.succeeded : ServerEvent → Bool
  | .written _ _ _ stored => stored
  | .discarded _ => true

/-- Every write of the run succeeded. -/
def WritesSucceed (trace : List ServerEvent) : Prop := ∀ event ∈ trace, event.succeeded = true

instance (trace : List ServerEvent) : Decidable (WritesSucceed trace) :=
  inferInstanceAs (Decidable (∀ event ∈ trace, event.succeeded = true))

@[simp] theorem committedEntries_append_discarded (trace : List ServerEvent) (entry : LogEntry) :
    committedEntries (trace ++ [.discarded entry]) = committedEntries trace := by
  simp [committedEntries]

@[simp] theorem committedEntries_append_written (trace : List ServerEvent) (forced : Bool)
    (entry : LogEntry) (committedVc : VectorClock) (stored : Bool) :
    committedEntries (trace ++ [.written forced entry committedVc stored]) =
      committedEntries trace ++ [entry] := by
  simp [committedEntries]

/-- As long as the writes succeed, every committed entry is in the file. -/
theorem writtenEntries_eq {trace : List ServerEvent} (h : WritesSucceed trace) :
    writtenEntries trace = committedEntries trace := by
  refine List.filterMap_congr fun event hevent => ?_
  cases event with
  | written forced entry committedVc stored => exact if_pos (h _ hevent)
  | discarded entry => rfl

theorem WritesSucceed.of_append {trace trace' : List ServerEvent}
    (h : WritesSucceed (trace ++ trace')) : WritesSucceed trace :=
  fun event hevent => h event (List.mem_append_left _ hevent)

/-- A write that succeeds appends the line of the entry to the file of the day. -/
theorem appended_serverWriteEntryToFile {server : Server} {entry : LogEntry}
    (h : server.storesLine entry = true) :
    (serverWriteEntryToFile server entry).2.appended =
      server.appended ++ [((server.disk server.writes).today, entryLine entry)] := by
  rw [Server.storesLine, Bool.and_eq_true, beq_iff_eq] at h
  obtain ⟨hret, hbreak⟩ := h
  unfold serverWriteEntryToFile at hret ⊢
  dsimp only at hret ⊢
  split at hret
  · rename_i hopened
    rw [if_pos hopened]
    cases hjson : logEntryToJson entry logaggMaxEntrySize with
    | none => simp [hjson] at hret
    | some json =>
      simp only [hjson] at hret ⊢
      have hlen : json.length ≤ (server.disk server.writes).stored := by
        by_contra hlen
        rw [if_neg hlen] at hret
        exact absurd hret (by decide)
      have htext : json = entryText entry := by
        rw [logEntryToJson_eq] at hjson
        exact (emit_eq_some_iff.mp hjson).2
      rw [hbreak, List.take_of_length_le hlen, htext]
      rfl
  · exact absurd (show (-1 : ℤ) = 0 from hret) (by decide)

/-- The server has appended the lines of these entries, each to the file of its day. -/
def Server.Wrote (server : Server) (written : List (Bytes × LogEntry)) : Prop :=
  server.appended = written.map fun w => (w.1, entryLine w.2)

theorem Server.Wrote.write {server : Server} {written : List (Bytes × LogEntry)}
    (h : server.Wrote written) {entry : LogEntry} (hstores : server.storesLine entry = true) :
    (serverWriteEntryToFile server entry).2.Wrote
      (written ++ [((server.disk server.writes).today, entry)]) := by
  rw [Server.Wrote] at h ⊢
  rw [appended_serverWriteEntryToFile hstores, h, List.map_append]
  rfl

theorem wrote_serverInit (config : ServerConfig) (disk : ℕ → DiskOutcome) :
    (serverInit config disk).Wrote [] := rfl

/-- All files together. -/
theorem Server.Wrote.file {server : Server} {written : List (Bytes × LogEntry)}
    (h : server.Wrote written) : server.file = (written.map (·.2)).flatMap entryLine := by
  rw [Server.file, h, List.flatMap_map, List.flatMap_map]

/-- The file of a day. -/
theorem Server.Wrote.dayFile {server : Server} {written : List (Bytes × LogEntry)}
    (h : server.Wrote written) (day : Bytes) :
    server.dayFile day = ((written.filter (·.1 = day)).map (·.2)).flatMap entryLine := by
  rw [Server.dayFile, h, List.filter_map, List.flatMap_map, List.flatMap_map]
  rfl

/-- As long as the writes succeed, the files consist of the lines of the written entries. -/
def FileMatches (server : Server) : Prop :=
  WritesSucceed server.trace →
    ∃ written, server.Wrote written ∧ written.map (·.2) = writtenEntries server.trace

theorem fileMatches_invariant : Server.Invariant (fun _ => True) FileMatches where
  count _ _ h := h
  insert _ _ _ _ _ h := h
  discard server before after node _ _ h := by
    intro hsucceed
    rw [trace_discard] at hsucceed ⊢
    obtain ⟨written, hwrote, hentries⟩ := h hsucceed.of_append
    refine ⟨written, hwrote, ?_⟩
    rw [writtenEntries_eq hsucceed, committedEntries_append_discarded,
      ← writtenEntries_eq hsucceed.of_append, hentries]
  commit server forced before after node _ _ h := by
    intro hsucceed
    rw [trace_commit] at hsucceed ⊢
    have hstored : server.storesLine node.entry = true :=
      hsucceed _ (List.mem_append_right _ (List.mem_singleton_self _))
    obtain ⟨written, hwrote, hentries⟩ := h hsucceed.of_append
    refine ⟨_, hwrote.write hstored, ?_⟩
    rw [writtenEntries_eq hsucceed, committedEntries_append_written,
      ← writtenEntries_eq hsucceed.of_append, ← hentries, List.map_append]
    rfl

/-- **The files of a run** whose writes succeed. -/
theorem exists_wrote_serverRun (config : ServerConfig) (disk : ℕ → DiskOutcome)
    (inputs : List ServerInput)
    (hwrites : WritesSucceed (serverRun (serverInit config disk) inputs).trace) :
    ∃ written, (serverRun (serverInit config disk) inputs).Wrote written ∧
      written.map (·.2) = writtenEntries (serverRun (serverInit config disk) inputs).trace :=
  (fileMatches_invariant.run (fun _ _ => trivial)
    (fun _ => ⟨[], wrote_serverInit config disk, rfl⟩) (settled_serverInit config disk)).1 hwrites

theorem file_serverRun (config : ServerConfig) (disk : ℕ → DiskOutcome) (inputs : List ServerInput)
    (hwrites : WritesSucceed (serverRun (serverInit config disk) inputs).trace) :
    (serverRun (serverInit config disk) inputs).file =
      (writtenEntries (serverRun (serverInit config disk) inputs).trace).flatMap entryLine := by
  obtain ⟨written, hwrote, hentries⟩ := exists_wrote_serverRun config disk inputs hwrites
  rw [hwrote.file, hentries]

/-! ## For runs on fixed inputs -/

/-- A file system that stores every line, on a single day. -/
def reliableDisk : ℕ → DiskOutcome :=
  fun _ => ⟨ascii "2024-06-29", true, logaggMaxEntrySize, true⟩

/-- Node 0's second entry comes first and is forced out, its first entry comes too late
and is dropped. -/
def overtakenInputs : List ServerInput :=
  [.datagram 100 (some (LogEntry.ofClock [2, 0] two_le_vcMaxNodes)) 1000 1000,
    .poll 2500,
    .datagram 100 (some (LogEntry.ofClock [1, 0] two_le_vcMaxNodes)) 2600 2600]

end LogAgg
