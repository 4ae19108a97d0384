import LogAgg.Server.Fixpoint

/-!
# What the committed clock covers

`committed_vc` is meant to lie at or above the clock of everything that was written, which
is how a retransmission is told from a new entry.  But `vc_merge` only touches the
components that the committed clock has, and `vc_compare` reads them all: a component at or
above the node count of the server is lost in the merge, and the entry stays ahead of the
committed clock for ever.

`covered_iff` says of every run when this does not happen.
-/

namespace LogAgg

/-- The entry uses no component that a clock of `n` nodes lacks. -/
def LogEntry.FitsNodes (entry : LogEntry) (n : ℕ) : Prop := ∀ i, n ≤ i → entry.vc.extend i = 0

/-! ## The invariant -/

/-- The committed clock has `n` components, and in these it is above the clocks of all
entries that were taken out. -/
structure CoversBelow (n : ℕ) (server : Server) : Prop where
  nodeCount_eq : server.committedVc.nodeCount = n
  le : ∀ entry ∈ committedEntries server.trace, ∀ i, i < n →
    entry.vc.extend i ≤ server.committedVc.extend i

theorem coversBelow_serverInit {config : ServerConfig} (disk : ℕ → DiskOutcome) {n : ℕ}
    (hpos : 1 ≤ n) (hle : n ≤ vcMaxNodes) (hconfig : config.nodeCount = n) :
    CoversBelow n (serverInit config disk) where
  nodeCount_eq := by
    show (vcInit VectorClock.zero config.nodeCount).nodeCount = n
    rw [hconfig, nodeCount_vcInit _ hpos hle]
  le entry hentry := absurd hentry List.not_mem_nil

theorem coversBelow_invariant (n : ℕ) : Server.Invariant (fun _ => True) (CoversBelow n) where
  count _ _ h := ⟨h.nodeCount_eq, h.le⟩
  insert _ _ _ _ _ h := ⟨h.nodeCount_eq, h.le⟩
  discard server before after node _ _ h := by
    refine ⟨h.nodeCount_eq, ?_⟩
    rw [trace_discard, committedEntries_append_discarded]
    exact h.le
  commit server forced before after node _ _ h := by
    refine ⟨?_, fun entry hentry i hi => ?_⟩
    · rw [committedVc_commit, nodeCount_vcMerge, h.nodeCount_eq]
    · rw [trace_commit, committedEntries_append_written, List.mem_append, List.mem_singleton]
        at hentry
      rw [committedVc_commit]
      rcases hentry with hentry | rfl
      · exact (h.le entry hentry i hi).trans (extend_le_extend_vcMerge _ _ i)
      · -- the merge takes the larger component, if the entry has it at all
        rw [extend_vcMerge_apply, h.nodeCount_eq]
        by_cases hsrc : i < node.entry.vc.nodeCount
        · rw [if_pos (by omega)]
          exact le_max_right _ _
        · rw [VectorClock.extend_of_le (by omega)]
          exact Nat.zero_le _

/-- A committed entry is covered if and only if it uses no component that the server
lacks. -/
theorem CoversBelow.le_iff {n : ℕ} {server : Server} (h : CoversBelow n server)
    {entry : LogEntry} (hentry : entry ∈ committedEntries server.trace) :
    entry.vc.extend ≤ server.committedVc.extend ↔ entry.FitsNodes n := by
  rw [VectorClock.le_extend_iff, h.nodeCount_eq]
  exact and_iff_right (h.le entry hentry)

/-! ## Retransmissions -/

/-- A new node goes somewhere between the old ones. -/
theorem exists_insertNode_eq (newNode : LogBufferNode) (buffer : List LogBufferNode) :
    ∃ before after, buffer = before ++ after ∧
      insertNode newNode buffer = before ++ newNode :: after := by
  induction buffer with
  | nil => exact ⟨[], [], rfl, rfl⟩
  | cons curr next ih =>
    rw [insertNode]
    split
    · exact ⟨[], curr :: next, rfl, rfl⟩
    · obtain ⟨before, after, rfl, hinsert⟩ := ih
      exact ⟨curr :: before, after, rfl, by rw [hinsert]; rfl⟩

/-- The walk finds a stale node behind nodes that it passes over. -/
theorem flushWalk_of_stale {committedVc : VectorClock} {before after : List LogBufferNode}
    {node : LogBufferNode} (hheld : ∀ m ∈ before, IsHeld committedVc m.entry)
    (hstale : isStale committedVc node.entry = true) :
    flushWalk committedVc (before ++ node :: after) = some (.discard, node, before ++ after) := by
  induction before with
  | nil => exact if_pos hstale
  | cons curr before ih =>
    have hcurr := hheld curr List.mem_cons_self
    have hwalk := ih fun m hm => hheld m (List.mem_cons_of_mem _ hm)
    rw [List.cons_append, flushWalk, hcurr.1, if_neg Bool.false_ne_true, if_neg hcurr.2, hwalk]
    rfl

/-- **A covered entry is discarded on the spot**, and nothing else happens. -/
theorem serverReceive_of_stale {server : Server} (hsettled : server.Settled) {entry : LogEntry}
    (hstale : isStale server.committedVc entry = true) (arrivalTime : UInt64) :
    serverReceive server (some entry) arrivalTime =
      { server with trace := server.trace ++ [.discarded entry] } := by
  obtain ⟨before, after, hbuffer, hinsert⟩ := exists_insertNode_eq ⟨entry, arrivalTime⟩ server.buffer
  have hheld : ∀ m ∈ before, IsHeld server.committedVc m.entry := by
    intro m hm
    refine hsettled m ?_
    rw [hbuffer]
    exact List.mem_append_left _ hm
  have hwalk : flushWalk (serverInsertToBuffer server entry arrivalTime).committedVc
      (serverInsertToBuffer server entry arrivalTime).buffer =
        some (.discard, ⟨entry, arrivalTime⟩, before ++ after) := by
    show flushWalk server.committedVc (insertNode ⟨entry, arrivalTime⟩ server.buffer) = _
    rw [hinsert]
    exact flushWalk_of_stale hheld hstale
  have hpass : flushPass (serverInsertToBuffer server entry arrivalTime) =
      some ((serverInsertToBuffer server entry arrivalTime).discard ⟨entry, arrivalTime⟩
        (before ++ after)) := by
    rw [flushPass, hwalk]
  have hafter : (serverInsertToBuffer server entry arrivalTime).discard ⟨entry, arrivalTime⟩
      (before ++ after) = { server with trace := server.trace ++ [.discarded entry] } := by
    rw [← hbuffer]
    show ({ server with
      bufferCount := server.bufferCount + 1 - 1
      trace := server.trace ++ [.discarded entry] } : Server) = _
    rw [add_sub_cancel_right]
  show serverFlushCausalBuffer (serverInsertToBuffer server entry arrivalTime) = _
  rw [flush_runs.next _ _ hpass, hafter]
  exact serverFlushCausalBuffer_of_settled hsettled

/-! ## Runs -/

/-- Every written entry has a clock equal to the committed one or before it. -/
def Covered (server : Server) : Prop :=
  ∀ entry ∈ writtenEntries server.trace,
    vcCompare entry.vc server.committedVc = .equal ∨
      vcCompare entry.vc server.committedVc = .happensBefore

/-- Whenever an entry with the clock of a written one comes in, it is discarded at once
and nothing else changes. -/
def RecognisesCopies (server : Server) : Prop :=
  ∀ entry ∈ writtenEntries server.trace, ∀ copy : LogEntry, vcCompare copy.vc entry.vc = .equal →
    ∀ arrivalTime, serverReceive server (some copy) arrivalTime =
      { server with trace := server.trace ++ [.discarded copy] }

/-- An entry that was written was taken out of the buffer. -/
theorem mem_committedEntries_of_written {trace : List ServerEvent} {entry : LogEntry}
    (h : entry ∈ writtenEntries trace) : entry ∈ committedEntries trace := by
  rw [writtenEntries, List.mem_filterMap] at h
  obtain ⟨event, hevent, heq⟩ := h
  cases event with
  | written forced written committedVc stored =>
    refine List.mem_filterMap.mpr ⟨_, hevent, ?_⟩
    cases stored with
    | true => exact heq
    | false => exact absurd heq (by simp)
  | discarded other => exact absurd heq (by simp)

/-- A covered server recognises copies. -/
theorem Covered.recognisesCopies {server : Server} (h : Covered server)
    (hsettled : server.Settled) : RecognisesCopies server := by
  intro entry hentry copy hcopy arrivalTime
  refine serverReceive_of_stale hsettled ?_ arrivalTime
  rw [isStale_iff, vcCompare_eq_equal_iff.mp hcopy]
  exact vcCompare_equal_or_happensBefore_iff.mp (h entry hentry)

/-- What was written stays written. -/
theorem mem_writtenEntries_serverRun {server : Server} {entry : LogEntry}
    (h : entry ∈ writtenEntries server.trace) (hsettled : server.Settled)
    (inputs : List ServerInput) :
    entry ∈ writtenEntries (serverRun server inputs).trace := by
  have hmore : ∀ trace event, entry ∈ writtenEntries trace →
      entry ∈ writtenEntries (trace ++ [event]) := by
    intro trace event hmem
    rw [writtenEntries, List.filterMap_append]
    exact List.mem_append_left _ hmem
  have hinvariant : Server.Invariant (fun _ => True)
      fun server => entry ∈ writtenEntries server.trace :=
    { count := fun _ _ h => h
      insert := fun _ _ _ _ _ h => h
      discard := fun server _ _ node _ _ h => by
        rw [trace_discard]
        exact hmore _ _ h
      commit := fun server _ _ _ node _ _ h => by
        rw [trace_commit]
        exact hmore _ _ h }
  exact (hinvariant.run (fun _ _ => trivial) h hsettled).1

/-- **When the committed clock covers what was written.**  At every state between the turns
of a run the written entries are covered and their copies recognised if and only if no
written entry uses a component at or above the node count of the server. -/
theorem covered_iff {n : ℕ} (hpos : 1 ≤ n) (hle : n ≤ vcMaxNodes) (config : ServerConfig)
    (hconfig : config.nodeCount = n) (disk : ℕ → DiskOutcome) (inputs : List ServerInput) :
    (∀ past, past <+: inputs → Covered (serverRun (serverInit config disk) past) ∧
        RecognisesCopies (serverRun (serverInit config disk) past)) ↔
      ∀ entry ∈ writtenEntries (serverRun (serverInit config disk) inputs).trace,
        entry.FitsNodes n := by
  have hcovers : ∀ past, CoversBelow n (serverRun (serverInit config disk) past) := fun past =>
    ((coversBelow_invariant n).run (fun _ _ => trivial)
      (coversBelow_serverInit disk hpos hle hconfig) (settled_serverInit config disk)).1
  constructor
  · intro h entry hentry
    have hcovered := (h inputs (List.prefix_refl inputs)).1 entry hentry
    exact ((hcovers inputs).le_iff (mem_committedEntries_of_written hentry)).mp
      (vcCompare_equal_or_happensBefore_iff.mp hcovered)
  · rintro hfits past ⟨rest, rfl⟩
    have hsettled := (settled_serverInit config disk).run past
    have hcovered : Covered (serverRun (serverInit config disk) past) := by
      intro entry hentry
      refine vcCompare_equal_or_happensBefore_iff.mpr ?_
      refine ((hcovers past).le_iff (mem_committedEntries_of_written hentry)).mpr (hfits entry ?_)
      rw [serverRun, List.foldl_append]
      exact mem_writtenEntries_serverRun hentry hsettled rest
    exact ⟨hcovered, hcovered.recognisesCopies hsettled⟩

/-- An entry of node 0 in a cluster of four, whose node 3 has logged: a server that counts
three nodes sees it one step ahead. -/
def fourNodeEntry : LogEntry := LogEntry.ofClock [1, 0, 0, 1] (by decide)

/-- The entry is written, and still ahead of the committed clock; its retransmission waits
in the buffer and is written again. -/
theorem fourNodeEntry_not_covered :
    ¬ Covered (serverRun (serverInit ⟨3, 1000⟩ reliableDisk)
        [.datagram 100 (some fourNodeEntry) 1000 1000]) ∧
      writtenEntries (serverRun (serverInit ⟨3, 1000⟩ reliableDisk)
        [.datagram 100 (some fourNodeEntry) 1000 1000, .datagram 100 (some fourNodeEntry) 1100 1100,
          .poll 2200]).trace = [fourNodeEntry, fourNodeEntry] := by
  have htwice : writtenEntries (serverRun (serverInit ⟨3, 1000⟩ reliableDisk)
      [.datagram 100 (some fourNodeEntry) 1000 1000, .datagram 100 (some fourNodeEntry) 1100 1100,
        .poll 2200]).trace = [fourNodeEntry, fourNodeEntry] := by
    decide +kernel
  have honce : writtenEntries (serverRun (serverInit ⟨3, 1000⟩ reliableDisk)
        [.datagram 100 (some fourNodeEntry) 1000 1000]).trace = [fourNodeEntry] ∧
      vcCompare fourNodeEntry.vc (serverRun (serverInit ⟨3, 1000⟩ reliableDisk)
        [.datagram 100 (some fourNodeEntry) 1000 1000]).committedVc = .happensAfter := by
    decide +kernel
  refine ⟨fun h => ?_, htwice⟩
  have hcovered := h fourNodeEntry (by rw [honce.1]; exact List.mem_cons_self)
  rw [honce.2] at hcovered
  exact absurd hcovered (by decide)

/-- A sender with the node count of the server is covered. -/
theorem covered_threeNodes :
    RecognisesCopies (serverRun (serverInit ⟨3, 1000⟩ reliableDisk)
      [.datagram 100 (some (LogEntry.ofClock [1, 0, 0] (by decide))) 1000 1000]) := by
  have hwritten : writtenEntries (serverRun (serverInit ⟨3, 1000⟩ reliableDisk)
      [.datagram 100 (some (LogEntry.ofClock [1, 0, 0] (by decide))) 1000 1000]).trace =
        [LogEntry.ofClock [1, 0, 0] (by decide)] := by
    decide +kernel
  refine (((covered_iff (n := 3) (by decide) (by decide) ⟨3, 1000⟩ rfl reliableDisk _).mpr
    fun entry hentry i hi => ?_) _ (List.prefix_refl _)).2
  rw [hwritten, List.mem_singleton] at hentry
  rw [hentry]
  exact VectorClock.extend_of_le hi

end LogAgg
