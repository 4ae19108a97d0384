import LogAgg.Server.BufferOrder
import LogAgg.Server.Conservation
import LogAgg.Server.Discard
import LogAgg.Server.Safety

/-!
# Shutdown

`server_cleanup` writes what is left in the buffer, from the front of the list on.  It
neither merges the clocks nor looks for retransmissions, as the flush does.

`file_serverCleanup` says that the order of the list becomes the order of the lines.
`shutdown_no_copies_iff` says when no entry of a run is written twice: a run itself writes
no copies, but the buffer at its end may hold some.
-/

namespace LogAgg

/-! ## The drain -/

/-- The writes of `server_cleanup`: the nodes from the front of the list on. -/
def drain (server : Server) (buffer : List LogBufferNode) : Server :=
  buffer.foldl (fun server node => (serverWriteEntryToFile server node.entry).2) server

/-- `server_cleanup`, without the socket and the file it closes. -/
def serverCleanup (server : Server) : Server := { drain server server.buffer with buffer := [] }

/-- Every write of a drain succeeds. -/
def DrainSucceeds (server : Server) : List LogBufferNode → Prop
  | [] => True
  | node :: buffer =>
      server.storesLine node.entry = true ∧
        DrainSucceeds (serverWriteEntryToFile server node.entry).2 buffer

instance decidableDrainSucceeds : ∀ (server : Server) (buffer : List LogBufferNode),
    Decidable (DrainSucceeds server buffer)
  | _, [] => isTrue trivial
  | server, node :: buffer =>
      have := decidableDrainSucceeds (serverWriteEntryToFile server node.entry).2 buffer
      inferInstanceAs (Decidable (_ ∧ _))

/-- **A drain whose writes succeed** appends the lines in the order of the list, each to the file
of the day on which its turn comes. -/
theorem exists_appended_drain {server : Server} {buffer : List LogBufferNode}
    (hstores : DrainSucceeds server buffer) :
    ∃ written : List (Bytes × LogEntry), written.map (·.2) = bufferedEntries buffer ∧
      (drain server buffer).appended =
        server.appended ++ written.map fun w => (w.1, entryLine w.2) := by
  induction buffer generalizing server with
  | nil => exact ⟨[], rfl, (List.append_nil _).symm⟩
  | cons node buffer ih =>
    obtain ⟨written, hentries, hrest⟩ := ih hstores.2
    rw [appended_serverWriteEntryToFile hstores.1] at hrest
    refine ⟨((server.disk server.writes).today, node.entry) :: written, ?_, ?_⟩
    · rw [List.map_cons, hentries]
      rfl
    · rw [List.append_assoc, List.singleton_append] at hrest
      exact hrest

theorem Server.Wrote.drain {server : Server} {before : List (Bytes × LogEntry)}
    (h : server.Wrote before) {buffer : List LogBufferNode}
    (hstores : DrainSucceeds server buffer) :
    ∃ written, (drain server buffer).Wrote written ∧
      written.map (·.2) = before.map (·.2) ++ bufferedEntries buffer := by
  obtain ⟨written, hentries, happended⟩ := exists_appended_drain hstores
  refine ⟨before ++ written, ?_, by rw [List.map_append, hentries]⟩
  rw [Server.Wrote, happended, h, List.map_append]

theorem file_drain {server : Server} {buffer : List LogBufferNode}
    (hstores : DrainSucceeds server buffer) :
    (drain server buffer).file = server.file ++ (bufferedEntries buffer).flatMap entryLine := by
  obtain ⟨written, hentries, happended⟩ := exists_appended_drain hstores
  rw [Server.file, Server.file, happended, List.flatMap_append, ← hentries, List.flatMap_map,
    List.flatMap_map]

/-- **Shutdown writes in causal order**, when the insertions of the run fit and the writes
succeed. -/
theorem file_serverCleanup (config : ServerConfig) (disk : ℕ → DiskOutcome)
    (inputs : List ServerInput) (hfit : InsertionsFit (serverInit config disk) inputs)
    (hstores : DrainSucceeds (serverRun (serverInit config disk) inputs)
      (serverRun (serverInit config disk) inputs).buffer) :
    ∃ drained : List LogEntry, drained.Pairwise (fun x y => ¬ y.HappensBefore x) ∧
      (serverCleanup (serverRun (serverInit config disk) inputs)).file =
        (serverRun (serverInit config disk) inputs).file ++ drained.flatMap entryLine := by
  refine ⟨bufferedEntries (serverRun (serverInit config disk) inputs).buffer, ?_, ?_⟩
  · rw [bufferedEntries, List.pairwise_map]
    have hinit : BufferOrdered (serverInit config disk).buffer := List.Pairwise.nil
    exact hinit.run (settled_serverInit config disk) hfit
  · exact file_drain hstores

/-! ## Copies -/

theorem IsCopy.symm {x y : LogEntry} (h : IsCopy x y) : IsCopy y x :=
  ⟨h.1.symm, vcCompare_eq_equal_iff.mpr h.extend_eq.symm⟩

/-- No two entries of the list are copies. -/
def NoCopies (entries : List LogEntry) : Prop := entries.Pairwise fun x y => ¬ IsCopy x y

instance (entries : List LogEntry) : Decidable (NoCopies entries) :=
  inferInstanceAs (Decidable (entries.Pairwise _))

/-- The entries whose lines are in the file behind `server_cleanup`: those that the run has
written, and those left in the buffer. -/
def writtenAtShutdown (server : Server) : List LogEntry :=
  writtenEntries server.trace ++ bufferedEntries server.buffer

/-- **The file at shutdown**, when all writes succeed. -/
theorem file_serverCleanup_eq (config : ServerConfig) (disk : ℕ → DiskOutcome)
    (inputs : List ServerInput)
    (hwrites : WritesSucceed (serverRun (serverInit config disk) inputs).trace)
    (hstores : DrainSucceeds (serverRun (serverInit config disk) inputs)
      (serverRun (serverInit config disk) inputs).buffer) :
    (serverCleanup (serverRun (serverInit config disk) inputs)).file =
      (writtenAtShutdown (serverRun (serverInit config disk) inputs)).flatMap entryLine := by
  rw [writtenAtShutdown, List.flatMap_append, ← file_serverRun config disk inputs hwrites]
  exact file_drain hstores

/-- A server that covers what it commits has written no copies, and none of what is left
in a settled buffer is a copy of what was written. -/
theorem Safe.noCopies_iff {n : ℕ} {server : Server} (h : Safe n server) (hsettled : server.Settled) :
    NoCopies (committedEntries server.trace ++ bufferedEntries server.buffer) ↔
      NoCopies (bufferedEntries server.buffer) := by
  have hcommitted : NoCopies (committedEntries server.trace) :=
    h.order.imp fun hnot hcopy => hnot hcopy.symm.extend_eq.le
  have hcross : ∀ x ∈ committedEntries server.trace, ∀ y ∈ bufferedEntries server.buffer,
      ¬ IsCopy x y := by
    intro x hx y hy hcopy
    obtain ⟨node, hnode, rfl⟩ := List.mem_map.mp hy
    refine isStale_eq_false_iff.mp (hsettled node hnode).1 ?_
    rw [← hcopy.extend_eq]
    exact h.covered x hx
  rw [NoCopies, List.pairwise_append]
  exact ⟨fun hall => hall.2.1, fun hbuffered => ⟨hcommitted, hbuffered, hcross⟩⟩

/-! ## A server without components -/

/-- The committed clock has no components: what has a clock of zeros is discarded, and
everything else is written or waits. -/
structure NoComponents (server : Server) : Prop where
  nodeCount_eq : server.committedVc.nodeCount = 0
  committed : ∀ entry ∈ committedEntries server.trace, entry.vc.extend ≠ 0
  discarded : ∀ entry ∈ discardedEntries server.trace, entry.vc.extend = 0

theorem NoComponents.isStale_iff {server : Server} (h : NoComponents server) (entry : LogEntry) :
    isStale server.committedVc entry = true ↔ entry.vc.extend = 0 := by
  have hzero : server.committedVc.extend = 0 := by
    ext i
    exact VectorClock.extend_of_le (by rw [h.nodeCount_eq]; exact Nat.zero_le i)
  rw [LogAgg.isStale_iff, hzero]
  exact nonpos_iff_eq_zero

theorem noComponents_invariant : Server.Invariant (fun _ => True) NoComponents where
  count _ _ h := ⟨h.nodeCount_eq, h.committed, h.discarded⟩
  insert _ _ _ _ _ h := ⟨h.nodeCount_eq, h.committed, h.discarded⟩
  discard server before after node _ hstale h := by
    refine ⟨h.nodeCount_eq, ?_, ?_⟩
    · rw [trace_discard, committedEntries_append_discarded]
      exact h.committed
    · rw [trace_discard, discardedEntries_append_discarded]
      intro entry hentry
      rcases List.mem_append.mp hentry with hentry | hentry
      · exact h.discarded entry hentry
      · rw [List.mem_singleton.mp hentry]
        exact (h.isStale_iff node.entry).mp hstale
  commit server forced before after node _ hstale h := by
    refine ⟨?_, ?_, ?_⟩
    · rw [committedVc_commit, nodeCount_vcMerge, h.nodeCount_eq]
    · rw [trace_commit, committedEntries_append_written]
      intro entry hentry
      rcases List.mem_append.mp hentry with hentry | hentry
      · exact h.committed entry hentry
      · rw [List.mem_singleton.mp hentry]
        intro hzero
        rw [(h.isStale_iff node.entry).mpr hzero] at hstale
        exact absurd hstale Bool.noConfusion
    · rw [trace_commit, discardedEntries_append_written]
      exact h.discarded

/-- Without components every received entry is written once for each time it came in,
unless its clock is zero. -/
theorem NoComponents.noCopies_iff {config : ServerConfig} {inputs : List ServerInput}
    {server : Server} (h : NoComponents server) (hsettled : server.Settled)
    (hconserved : Conserved config inputs server) :
    NoCopies (committedEntries server.trace ++ bufferedEntries server.buffer) ↔
      (receivedEntries inputs).Pairwise fun x y => IsCopy x y → x.vc.extend = 0 := by
  have hnonzero : ∀ entry ∈ committedEntries server.trace ++ bufferedEntries server.buffer,
      entry.vc.extend ≠ 0 := by
    intro entry hentry
    rcases List.mem_append.mp hentry with hentry | hentry
    · exact h.committed entry hentry
    · obtain ⟨node, hnode, rfl⟩ := List.mem_map.mp hentry
      intro hzero
      rw [← h.isStale_iff, (hsettled node hnode).1] at hzero
      exact absurd hzero Bool.false_ne_true
  have hsymm : ∀ {x y : LogEntry}, (IsCopy x y → x.vc.extend = 0) →
      IsCopy y x → y.vc.extend = 0 := fun hxy hcopy =>
    hcopy.extend_eq.trans (hxy hcopy.symm)
  rw [hconserved.entries.pairwise_iff hsymm, List.pairwise_append, NoCopies]
  constructor
  · intro hnone
    refine ⟨hnone.imp fun hnot hcopy => absurd hcopy hnot, ?_, fun x _ y hy hcopy => ?_⟩
    · exact List.pairwise_of_forall_mem_list fun x hx _ _ _ => h.discarded x hx
    · exact hcopy.extend_eq.trans (h.discarded y hy)
  · rintro ⟨hlines, -, -⟩
    exact hlines.imp_of_mem fun hx _ hzero hcopy => hnonzero _ hx (hzero hcopy)

/-! ## Runs -/

/-- The components of the committed clock are those that `vc_init` allows. -/
theorem nodeCount_serverInit (config : ServerConfig) (disk : ℕ → DiskOutcome) :
    (serverInit config disk).committedVc.nodeCount =
      if config.nodeCount ≤ vcMaxNodes then config.nodeCount.toNat else 0 := by
  show (vcInit VectorClock.zero config.nodeCount).nodeCount = _
  rw [vcInit]
  split
  · rw [VectorClock.nodeCount_zero]
    split <;> omega
  · rw [VectorClock.nodeCount_ofSlots, if_pos (by omega)]

/-- **When shutdown writes no entry twice.**  A run from `server_init` receives entries of
at most its node count and ends with `server_cleanup`, all writes succeeding.  No two lines
of the file come from copies exactly if no two entries left in the buffer are copies.  If
the node count is beyond `VC_MAX_NODES`, the committed clock has no components, and the
condition is that no two received entries with a clock other than zero are copies. -/
theorem shutdown_no_copies_iff (config : ServerConfig) (disk : ℕ → DiskOutcome)
    (inputs : List ServerInput)
    (hinputs : ∀ entry ∈ receivedEntries inputs, (entry.vc.nodeCount : ℤ) ≤ config.nodeCount)
    (hwrites : WritesSucceed (serverRun (serverInit config disk) inputs).trace)
    (hstores : DrainSucceeds (serverRun (serverInit config disk) inputs)
      (serverRun (serverInit config disk) inputs).buffer) :
    let server := serverRun (serverInit config disk) inputs
    (serverCleanup server).file = (writtenAtShutdown server).flatMap entryLine ∧
    (config.nodeCount ≤ vcMaxNodes →
      (NoCopies (writtenAtShutdown server) ↔ NoCopies (bufferedEntries server.buffer))) ∧
    (vcMaxNodes < config.nodeCount →
      (NoCopies (writtenAtShutdown server) ↔
        (receivedEntries inputs).Pairwise fun x y => IsCopy x y → x.vc.extend = 0)) := by
  intro server
  have hsettled : server.Settled := (settled_serverInit config disk).run inputs
  have hcount := nodeCount_serverInit config disk
  refine ⟨file_serverCleanup_eq config disk inputs hwrites hstores, fun hle => ?_, fun hlt => ?_⟩
  · rw [if_pos hle] at hcount
    have hfit : ∀ entry ∈ receivedEntries inputs, entry.vc.nodeCount ≤ config.nodeCount.toNat := by
      intro entry hentry
      have hnodes := hinputs entry hentry
      omega
    rw [writtenAtShutdown, writtenEntries_eq hwrites]
    exact ((safe_invariant _).run hfit (safe_serverInit disk hcount)
      (settled_serverInit config disk)).1.noCopies_iff hsettled
  · rw [if_neg (not_le.mpr hlt)] at hcount
    have hinit : NoComponents (serverInit config disk) :=
      ⟨hcount, fun entry hentry => absurd hentry List.not_mem_nil,
        fun entry hentry => absurd hentry List.not_mem_nil⟩
    rw [writtenAtShutdown, writtenEntries_eq hwrites]
    exact (noComponents_invariant.run (fun _ _ => trivial) hinit
      (settled_serverInit config disk)).1.noCopies_iff hsettled
        (conserved_serverRun config disk inputs)

/-- An entry that misses a predecessor comes in twice. -/
def waitingTwiceInputs : List ServerInput :=
  [.datagram 100 (some (LogEntry.ofClock [2, 0] two_le_vcMaxNodes)) 1000 1000,
    .datagram 100 (some (LogEntry.ofClock [2, 0] two_le_vcMaxNodes)) 1100 1100]

/-- Both copies wait in the buffer, and shutdown writes both. -/
theorem waitingTwiceInputs_written_twice :
    (serverRun (serverInit ⟨2, 1000⟩ reliableDisk) waitingTwiceInputs).file = [] ∧
      ¬ NoCopies (writtenAtShutdown
        (serverRun (serverInit ⟨2, 1000⟩ reliableDisk) waitingTwiceInputs)) ∧
      (serverCleanup (serverRun (serverInit ⟨2, 1000⟩ reliableDisk) waitingTwiceInputs)).file =
        entryLine (LogEntry.ofClock [2, 0] (by decide)) ++
          entryLine (LogEntry.ofClock [2, 0] (by decide)) := by
  decide +kernel

/-- An entry and its retransmission, and an entry that is left in the buffer. -/
def retransmittedInputs : List ServerInput :=
  [.datagram 100 (some (LogEntry.ofClock [1, 0] two_le_vcMaxNodes)) 1000 1000,
    .datagram 100 (some (LogEntry.ofClock [1, 0] two_le_vcMaxNodes)) 1100 1100,
    .datagram 100 (some (LogEntry.ofClock [3, 0] two_le_vcMaxNodes)) 1200 1200]

theorem shutdown_no_copies_retransmitted :
    NoCopies (writtenAtShutdown (serverRun (serverInit ⟨2, 1000⟩ reliableDisk)
      retransmittedInputs)) :=
  ((shutdown_no_copies_iff ⟨2, 1000⟩ reliableDisk retransmittedInputs (by decide +kernel)
    (by decide +kernel) (by decide +kernel)).2.1 (by decide)).mpr (by decide +kernel)

end LogAgg
