import LogAgg.Server.Basic

/-!
# Every entry is accounted for

What comes in goes somewhere: an entry that was parsed is in the file, in the buffer, or
was discarded, and its datagram is counted once.  `Conserved` states this of a server and
the turns that led to it, and every action of the loop preserves it.

The counters are unsigned 64-bit numbers, so the equations between them hold as they are
computed, modulo `2 ^ 64`.
-/

namespace LogAgg

/-! ## What a run is compared with -/

/-- The entries that were freed without being written. -/
def discardedEntries (trace : List ServerEvent) : List LogEntry :=
  trace.filterMap fun
    | .written _ _ _ _ => none
    | .discarded entry => some entry

/-- The committed clock behind a trace: what the writes merge into the initial one. -/
def committedAfter (config : ServerConfig) (trace : List ServerEvent) : VectorClock :=
  (committedEntries trace).foldl (fun vc entry => vcMerge vc entry.vc)
    (vcInit VectorClock.zero config.nodeCount)

/-- What was made of the datagrams of a run. -/
def receivedDatagrams (inputs : List ServerInput) : List (Option LogEntry) :=
  inputs.filterMap fun
    | .datagram _ parsed _ _ => some parsed
    | .poll _ => none

/-- The entries of a buffer. -/
def bufferedEntries (buffer : List LogBufferNode) : List LogEntry := buffer.map (·.entry)

section OneMore

variable (trace : List ServerEvent) (entry : LogEntry)

@[simp] theorem discardedEntries_append_discarded :
    discardedEntries (trace ++ [.discarded entry]) = discardedEntries trace ++ [entry] := by
  simp [discardedEntries]

@[simp] theorem discardedEntries_append_written (forced : Bool) (committedVc : VectorClock)
    (stored : Bool) :
    discardedEntries (trace ++ [.written forced entry committedVc stored]) =
      discardedEntries trace := by
  simp [discardedEntries]

@[simp] theorem committedAfter_append_discarded (config : ServerConfig) :
    committedAfter config (trace ++ [.discarded entry]) = committedAfter config trace := by
  rw [committedAfter, committedEntries_append_discarded, committedAfter]

@[simp] theorem committedAfter_append_written (config : ServerConfig) (forced : Bool)
    (committedVc : VectorClock) (stored : Bool) :
    committedAfter config (trace ++ [.written forced entry committedVc stored]) =
      vcMerge (committedAfter config trace) entry.vc := by
  rw [committedAfter, committedEntries_append_written, List.foldl_append, List.foldl_cons,
    List.foldl_nil, committedAfter]

variable (past : List ServerInput)

@[simp] theorem receivedEntries_append_poll (now : UInt64) :
    receivedEntries (past ++ [.poll now]) = receivedEntries past := by
  simp [receivedEntries]

@[simp] theorem receivedEntries_append_none (len : ℕ) (arrivalTime now : UInt64) :
    receivedEntries (past ++ [.datagram len none arrivalTime now]) = receivedEntries past := by
  simp [receivedEntries]

@[simp] theorem receivedEntries_append_some (len : ℕ) (arrivalTime now : UInt64) :
    receivedEntries (past ++ [.datagram len (some entry) arrivalTime now]) =
      receivedEntries past ++ [entry] := by
  simp [receivedEntries]

@[simp] theorem receivedDatagrams_append_poll (now : UInt64) :
    receivedDatagrams (past ++ [.poll now]) = receivedDatagrams past := by
  simp [receivedDatagrams]

@[simp] theorem receivedDatagrams_append_datagram (len : ℕ) (parsed : Option LogEntry)
    (arrivalTime now : UInt64) :
    receivedDatagrams (past ++ [.datagram len parsed arrivalTime now]) =
      receivedDatagrams past ++ [parsed] := by
  simp [receivedDatagrams]

end OneMore

/-! ## The invariant -/

/-- Every discard of a trace met a clock equal to or before the committed clock of that
moment. -/
def DiscardsStale (config : ServerConfig) (trace : List ServerEvent) : Prop :=
  ∀ before entry after, trace = before ++ .discarded entry :: after →
    vcCompare entry.vc (committedAfter config before) = .equal ∨
      vcCompare entry.vc (committedAfter config before) = .happensBefore

/-- One more event asks for one more stale entry, if it is a discard. -/
theorem DiscardsStale.append {config : ServerConfig} {trace : List ServerEvent}
    (h : DiscardsStale config trace) {event : ServerEvent}
    (hevent : ∀ entry, event = .discarded entry →
      isStale (committedAfter config trace) entry = true) :
    DiscardsStale config (trace ++ [event]) := by
  intro before entry after heq
  rcases List.eq_nil_or_concat after with rfl | ⟨after', last, rfl⟩
  · obtain ⟨rfl, hlast⟩ := List.append_inj' heq rfl
    exact vcCompare_equal_or_happensBefore_iff.mpr
      (isStale_iff.mp (hevent entry (List.singleton_inj.mp hlast)))
  · rw [List.concat_eq_append, ← List.cons_append, ← List.append_assoc] at heq
    obtain ⟨htrace, -⟩ := List.append_inj' heq rfl
    exact h before entry after' htrace

/-- Everything the turns `past` brought is in the server's books. -/
structure Conserved (config : ServerConfig) (past : List ServerInput) (server : Server) : Prop where
  entries : (receivedEntries past).Perm
    (committedEntries server.trace ++ bufferedEntries server.buffer ++ discardedEntries server.trace)
  committedVc : server.committedVc = committedAfter config server.trace
  discards : DiscardsStale config server.trace
  received : server.stats.totalReceived = UInt64.ofNat (receivedDatagrams past).length
  errors : server.stats.totalErrors = UInt64.ofNat ((receivedDatagrams past).count none)
  stored : server.stats.totalStored = UInt64.ofNat (committedEntries server.trace).length
  bufferCount : server.bufferCount = server.buffer.length

variable {config : ServerConfig}

theorem conserved_serverInit (config : ServerConfig) (disk : ℕ → DiskOutcome) :
    Conserved config [] (serverInit config disk) where
  entries := List.Perm.refl []
  committedVc := rfl
  discards before entry after heq := absurd (congrArg List.length heq) (by simp [serverInit])
  received := rfl
  errors := rfl
  stored := rfl
  bufferCount := rfl

/-- Moving an entry of the buffer to one of the two other places. -/
theorem perm_remove (written before after discarded : List LogEntry) (x : LogEntry) :
    (written ++ (before ++ x :: after) ++ discarded).Perm
        (written ++ [x] ++ (before ++ after) ++ discarded) ∧
      (written ++ (before ++ x :: after) ++ discarded).Perm
        (written ++ (before ++ after) ++ (discarded ++ [x])) := by
  rw [List.perm_iff_count, List.perm_iff_count]
  simp only [List.count_append, List.count_cons, List.count_nil]
  constructor <;> intro y <;> omega

theorem conserved_removals (config : ServerConfig) (past : List ServerInput) :
    Server.Removals (Conserved config past) where
  discard server before after node hbuffer hstale h := by
    have hentries := h.entries
    have hcount := h.bufferCount
    rw [hbuffer] at hentries hcount
    rw [h.committedVc] at hstale
    refine ⟨?_, ?_, ?_, h.received, h.errors, ?_, ?_⟩
    · rw [trace_discard, buffer_discard, committedEntries_append_discarded,
        discardedEntries_append_discarded]
      refine hentries.trans ?_
      simp only [bufferedEntries, List.map_append, List.map_cons]
      exact (perm_remove _ _ _ _ _).2
    · rw [trace_discard, committedVc_discard, committedAfter_append_discarded, h.committedVc]
    · rw [trace_discard]
      refine h.discards.append fun entry heq => ?_
      rw [← ServerEvent.discarded.inj heq]
      exact hstale
    · rw [trace_discard, committedEntries_append_discarded]
      exact h.stored
    · rw [buffer_discard]
      show server.bufferCount - 1 = _
      rw [hcount, List.length_append, List.length_append, List.length_cons]
      push_cast
      ring
  commit server forced before after node hbuffer _ h := by
    have hentries := h.entries
    have hcount := h.bufferCount
    rw [hbuffer] at hentries hcount
    refine ⟨?_, ?_, ?_, ?_, ?_, ?_, ?_⟩
    · rw [trace_commit, buffer_commit, committedEntries_append_written,
        discardedEntries_append_written]
      refine hentries.trans ?_
      simp only [bufferedEntries, List.map_append, List.map_cons]
      exact (perm_remove _ _ _ _ _).1
    · rw [trace_commit, committedVc_commit, committedAfter_append_written, h.committedVc]
    · rw [trace_commit]
      exact h.discards.append fun entry heq => ServerEvent.noConfusion heq
    · rw [stats_commit]
      exact h.received
    · rw [stats_commit]
      exact h.errors
    · rw [stats_commit, trace_commit, committedEntries_append_written, List.length_append,
        UInt64.ofNat_add, ← h.stored]
      rfl
    · rw [buffer_commit, bufferCount_commit, hcount, List.length_append, List.length_append,
        List.length_cons]
      push_cast
      ring

/-- **Every run conserves its entries.** -/
theorem conserved_serverRun (config : ServerConfig) (disk : ℕ → DiskOutcome)
    (inputs : List ServerInput) :
    Conserved config inputs (serverRun (serverInit config disk) inputs) := by
  refine serverRun_history (conserved_removals config) ?_ ?_ ?_ inputs
    (conserved_serverInit config disk) (settled_serverInit config disk)
  · intro past server now h
    refine ⟨?_, h.committedVc, h.discards, ?_, ?_, h.stored, h.bufferCount⟩
    · rw [receivedEntries_append_poll]
      exact h.entries
    · rw [receivedDatagrams_append_poll]
      exact h.received
    · rw [receivedDatagrams_append_poll]
      exact h.errors
  · intro past server len arrivalTime now h
    refine ⟨?_, h.committedVc, h.discards, ?_, ?_, h.stored, h.bufferCount⟩
    · rw [receivedEntries_append_none]
      exact h.entries
    · rw [receivedDatagrams_append_datagram, List.length_append, UInt64.ofNat_add, ← h.received]
      rfl
    · rw [receivedDatagrams_append_datagram, List.count_append, UInt64.ofNat_add, ← h.errors]
      rfl
  · intro past server len entry arrivalTime now _ h
    have hperm : (insertNode ⟨entry, arrivalTime⟩ server.buffer).Perm
        (⟨entry, arrivalTime⟩ :: server.buffer) := insertNode_perm _ _
    refine ⟨?_, h.committedVc, h.discards, ?_, ?_, h.stored, ?_⟩
    · have hbuffered : (bufferedEntries (insertNode ⟨entry, arrivalTime⟩ server.buffer)).Perm
          (entry :: bufferedEntries server.buffer) := hperm.map _
      rw [receivedEntries_append_some]
      calc (receivedEntries past ++ [entry]).Perm (entry :: receivedEntries past) :=
            List.perm_append_singleton _ _
        List.Perm _ (entry :: (committedEntries server.trace ++ bufferedEntries server.buffer ++
            discardedEntries server.trace)) := h.entries.cons entry
        List.Perm _ (committedEntries server.trace ++ entry :: bufferedEntries server.buffer ++
            discardedEntries server.trace) := List.perm_middle.symm.append_right _
        List.Perm _ (committedEntries server.trace ++
            bufferedEntries (insertNode ⟨entry, arrivalTime⟩ server.buffer) ++
            discardedEntries server.trace) := (hbuffered.symm.append_left _).append_right _
    · rw [receivedDatagrams_append_datagram, List.length_append, UInt64.ofNat_add, ← h.received]
      rfl
    · rw [receivedDatagrams_append_datagram, List.count_append, UInt64.ofNat_add, ← h.errors]
      exact (UInt64.add_zero _).symm
    · show server.bufferCount + 1 = ((insertNode ⟨entry, arrivalTime⟩ server.buffer).length : ℤ)
      rw [hperm.length_eq, h.bufferCount, List.length_cons]
      push_cast
      ring

/-- The datagrams of a run are those that hold no entry and those that hold one. -/
theorem length_receivedDatagrams (inputs : List ServerInput) :
    (receivedDatagrams inputs).length =
      (receivedDatagrams inputs).count none + (receivedEntries inputs).length := by
  induction inputs using List.reverseRecOn with
  | nil => rfl
  | append_singleton past input ih =>
    cases input with
    | poll now => rw [receivedDatagrams_append_poll, receivedEntries_append_poll, ih]
    | datagram len parsed arrivalTime now =>
      rw [receivedDatagrams_append_datagram, List.length_append, List.count_append, ih]
      cases parsed with
      | none =>
        rw [receivedEntries_append_none, List.count_singleton_self]
        simp only [List.length_singleton]
        omega
      | some entry =>
        rw [receivedEntries_append_some, List.length_append, List.count_singleton]
        simp only [List.length_singleton]
        simp
        omega

/-- **Conservation of entries.**  In every run from `server_init` whose writes succeed, the
entries parsed from datagrams are, with multiplicity, those whose lines were written,
those in the buffer, and those discarded, each discard at a moment when the committed
clock was equal to the entry's or above it; and the counters count them. -/
theorem serverRun_conserves (config : ServerConfig) (disk : ℕ → DiskOutcome)
    (inputs : List ServerInput)
    (hwrites : WritesSucceed (serverRun (serverInit config disk) inputs).trace) :
    let server := serverRun (serverInit config disk) inputs
    ((receivedEntries inputs).Perm (writtenEntries server.trace ++
        bufferedEntries server.buffer ++ discardedEntries server.trace) ∧
      server.file = (writtenEntries server.trace).flatMap entryLine ∧
      server.committedVc = committedAfter config server.trace ∧
      DiscardsStale config server.trace) ∧
    (server.stats.totalReceived = server.stats.totalErrors + server.stats.totalStored +
        UInt64.ofNat server.buffer.length +
        UInt64.ofNat (discardedEntries server.trace).length ∧
      server.stats.totalReceived = UInt64.ofNat (receivedDatagrams inputs).length ∧
      server.stats.totalErrors = UInt64.ofNat ((receivedDatagrams inputs).count none) ∧
      server.stats.totalStored = UInt64.ofNat (writtenEntries server.trace).length ∧
      server.bufferCount = server.buffer.length) := by
  intro server
  have h : Conserved config inputs server := conserved_serverRun config disk inputs
  have hentries := h.entries
  have hstored := h.stored
  rw [← writtenEntries_eq hwrites] at hentries hstored
  refine ⟨⟨hentries, file_serverRun config disk inputs hwrites, h.committedVc, h.discards⟩, ?_,
    h.received, h.errors, hstored, h.bufferCount⟩
  have hlen := hentries.length_eq
  rw [List.length_append, List.length_append, bufferedEntries, List.length_map] at hlen
  rw [h.received, h.errors, hstored, length_receivedDatagrams, hlen]
  simp only [UInt64.ofNat_add]
  ac_rfl

/-- The run in which the second entry of node 0 overtakes the first: one line, one
discard. -/
theorem serverRun_conserves_overtaken :
    let server := serverRun (serverInit ⟨2, 1000⟩ reliableDisk) overtakenInputs
    server.stats.totalReceived = server.stats.totalErrors + server.stats.totalStored +
      UInt64.ofNat server.buffer.length + UInt64.ofNat (discardedEntries server.trace).length ∧
    server.stats.totalReceived = 2 := by
  intro server
  have hconserves := serverRun_conserves ⟨2, 1000⟩ reliableDisk overtakenInputs (by decide +kernel)
  exact ⟨hconserves.2.1, hconserves.2.2.1⟩

end LogAgg
