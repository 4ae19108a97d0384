import LogAgg.Server.Basic

/-!
# The order of the buffer

The list behind `buffer_head` is meant to be kept in causal order: the timeout check writes
its entries from the front, and `server_cleanup` drains it from the front.  A new node goes
before the first one it compares below.  That keeps the order only if the comparison is
transitive, and `log_entry_compare_causal` is not: by timestamp it may put a new entry
below one node, in front of another that the new entry causally follows.

`pairwise_insertNode_iff` says when an insertion keeps the order, and
`orderedThroughout_iff` says it of runs.
-/

namespace LogAgg

/-- No entry of the buffer comes before one that happens before it. -/
def BufferOrdered (buffer : List LogBufferNode) : Prop :=
  buffer.Pairwise fun x y => ¬ y.entry.HappensBefore x.entry

instance (buffer : List LogBufferNode) : Decidable (BufferOrdered buffer) :=
  inferInstanceAs (Decidable (buffer.Pairwise fun x y => ¬ y.entry.HappensBefore x.entry))

/-- No entry of the buffer that happens before the new one stands behind a node which the
new one compares below. -/
def FitsBuffer (entry : LogEntry) (buffer : List LogBufferNode) : Prop :=
  buffer.Pairwise fun y w =>
    logEntryCompareCausal entry y.entry < 0 → ¬ w.entry.HappensBefore entry

/-! ## Insertion -/

theorem logEntryCompareCausal_of_happensBefore {a b : LogEntry} (h : a.HappensBefore b) :
    logEntryCompareCausal a b = -1 := by
  rw [LogEntry.HappensBefore] at h
  rw [logEntryCompareCausal, h]

theorem logEntryCompareCausal_of_happensAfter {a b : LogEntry} (h : b.HappensBefore a) :
    logEntryCompareCausal a b = 1 := by
  have hafter : vcCompare a.vc b.vc = .happensAfter := by
    rw [vcCompare_eq_happensAfter_iff]
    exact LogEntry.happensBefore_iff.mp h
  rw [logEntryCompareCausal, hafter]

/-- **When an insertion keeps the order.** -/
theorem bufferOrdered_insertNode_iff {newNode : LogBufferNode} {buffer : List LogBufferNode} :
    BufferOrdered (insertNode newNode buffer) ↔
      BufferOrdered buffer ∧ FitsBuffer newNode.entry buffer := by
  unfold BufferOrdered FitsBuffer
  induction buffer with
  | nil => simp [insertNode]
  | cons curr next ih =>
    rw [insertNode]
    by_cases hbelow : logEntryCompareCausal newNode.entry curr.entry < 0
    · have hcurr : ¬ curr.entry.HappensBefore newNode.entry := by
        intro h
        rw [logEntryCompareCausal_of_happensAfter h] at hbelow
        exact absurd hbelow (by decide)
      rw [if_pos hbelow, List.pairwise_cons]
      constructor
      · rintro ⟨hnew, hordered⟩
        refine ⟨hordered, List.pairwise_cons.mpr ⟨fun w hw _ => ?_, ?_⟩⟩
        · exact hnew w (List.mem_cons_of_mem _ hw)
        · exact List.pairwise_of_forall_mem_list
            fun y _ w hw _ => hnew w (List.mem_cons_of_mem _ hw)
      · rintro ⟨hordered, hfits⟩
        refine ⟨fun w hw => ?_, hordered⟩
        rcases List.mem_cons.mp hw with rfl | hw
        · exact hcurr
        · exact (List.pairwise_cons.mp hfits).1 w hw hbelow
    · have hcurr : ¬ newNode.entry.HappensBefore curr.entry := by
        intro h
        rw [logEntryCompareCausal_of_happensBefore h] at hbelow
        exact hbelow (by decide)
      rw [if_neg hbelow, List.pairwise_cons, ih, List.pairwise_cons, List.pairwise_cons]
      constructor
      · rintro ⟨hhead, hordered, hfits⟩
        refine ⟨⟨fun w hw => hhead w ?_, hordered⟩, fun _ _ h => absurd h hbelow, hfits⟩
        exact (insertNode_perm newNode next).mem_iff.mpr (List.mem_cons_of_mem _ hw)
      · rintro ⟨⟨hhead, hordered⟩, -, hfits⟩
        refine ⟨fun w hw => ?_, hordered, hfits⟩
        rcases List.mem_cons.mp ((insertNode_perm newNode next).mem_iff.mp hw) with rfl | hw
        · exact hcurr
        · exact hhead w hw

/-! ## Removal -/

/-- Taking nodes out of the buffer keeps it in order. -/
theorem bufferOrdered_removals : Server.Removals fun server => BufferOrdered server.buffer where
  discard server before after node hbuffer _ h := by
    rw [hbuffer] at h
    exact h.sublist ((List.sublist_cons_self node after).append_left before)
  commit server forced before after node hbuffer _ h := by
    rw [hbuffer] at h
    exact h.sublist ((List.sublist_cons_self node after).append_left before)

/-! ## Runs -/

/-- One turn keeps the order, if the entry it inserts fits. -/
theorem BufferOrdered.step {server : Server} (h : BufferOrdered server.buffer)
    (hsettled : server.Settled) (input : ServerInput)
    (hfits : ∀ entry ∈ receivedEntries [input], FitsBuffer entry server.buffer) :
    BufferOrdered (serverStep server input).buffer := by
  cases input with
  | poll now => exact (bufferOrdered_removals.timeout now h hsettled).1
  | datagram len parsed arrivalTime now =>
    cases parsed with
    | none =>
      have hcounted : BufferOrdered (server.countReceived len).countError.buffer := h
      exact (bufferOrdered_removals.timeout now hcounted hsettled).1
    | some entry =>
      have hinsert : BufferOrdered
          (serverInsertToBuffer (server.countReceived len) entry arrivalTime).buffer :=
        bufferOrdered_insertNode_iff.mpr ⟨h, hfits entry (by simp [receivedEntries])⟩
      have hflush := bufferOrdered_removals.flush hinsert
      exact (bufferOrdered_removals.timeout now hflush.1 hflush.2).1

/-- The buffer is in order between the turns of a run and behind each of its insertions.
What it is in between, some of its nodes were removed from one of these. -/
def OrderedThroughout (server : Server) (inputs : List ServerInput) : Prop :=
  (∀ past, past <+: inputs → BufferOrdered (serverRun server past).buffer) ∧
    ∀ past len entry arrivalTime now,
      past ++ [.datagram len (some entry) arrivalTime now] <+: inputs →
        BufferOrdered (serverInsertToBuffer (serverRun server past) entry arrivalTime).buffer

/-- Every entry fits the buffer that it is inserted into. -/
def InsertionsFit (server : Server) (inputs : List ServerInput) : Prop :=
  ∀ past len entry arrivalTime now,
    past ++ [.datagram len (some entry) arrivalTime now] <+: inputs →
      FitsBuffer entry (serverRun server past).buffer

/-- A run of insertions that fit ends in order. -/
theorem BufferOrdered.run {server : Server} (h : BufferOrdered server.buffer)
    (hsettled : server.Settled) {inputs : List ServerInput} (hfit : InsertionsFit server inputs) :
    BufferOrdered (serverRun server inputs).buffer := by
  induction inputs using List.reverseRecOn with
  | nil => exact h
  | append_singleton past input ih =>
    have hpast := ih fun past' len entry arrivalTime now hstart =>
      hfit past' len entry arrivalTime now (hstart.trans (List.prefix_append past [input]))
    have hrun : serverRun server (past ++ [input]) = serverStep (serverRun server past) input := by
      rw [serverRun, List.foldl_append, List.foldl_cons, List.foldl_nil, serverRun]
    rw [hrun]
    refine hpast.step (hsettled.run past) input fun entry hentry => ?_
    cases input with
    | poll now => exact absurd hentry List.not_mem_nil
    | datagram len parsed arrivalTime now =>
      cases parsed with
      | none => exact absurd hentry List.not_mem_nil
      | some received =>
        obtain rfl : entry = received := List.mem_singleton.mp hentry
        exact hfit past len entry arrivalTime now (List.prefix_refl _)

/-- **When the buffer is in causal order throughout a run**: exactly when every entry fits
the buffer it is inserted into. -/
theorem orderedThroughout_iff (config : ServerConfig) (disk : ℕ → DiskOutcome)
    (inputs : List ServerInput) :
    OrderedThroughout (serverInit config disk) inputs ↔
      InsertionsFit (serverInit config disk) inputs := by
  constructor
  · rintro ⟨-, hinsertions⟩ past len entry arrivalTime now hstart
    exact (bufferOrdered_insertNode_iff.mp
      (hinsertions past len entry arrivalTime now hstart)).2
  · intro hfit
    have hbetween : ∀ past, past <+: inputs →
        BufferOrdered (serverRun (serverInit config disk) past).buffer := by
      intro past hpast
      have hinit : BufferOrdered (serverInit config disk).buffer := List.Pairwise.nil
      refine hinit.run (settled_serverInit config disk) ?_
      exact fun past' len entry arrivalTime now hstart =>
        hfit past' len entry arrivalTime now (hstart.trans hpast)
    refine ⟨hbetween, fun past len entry arrivalTime now hstart => ?_⟩
    refine bufferOrdered_insertNode_iff.mpr ⟨hbetween past ?_, ?_⟩
    · exact (List.prefix_append past _).trans hstart
    · exact hfit past len entry arrivalTime now hstart

/-- Node 1 logs, node 0 logs after it, and the next entry of node 0 carries a timestamp
from before both: its machine clock was set back. -/
def setBackInputs : List ServerInput :=
  [.datagram 100 (some { LogEntry.ofClock [0, 2] two_le_vcMaxNodes with timestamp := 2 })
      1000 1000,
    .datagram 100 (some { LogEntry.ofClock [2, 0] two_le_vcMaxNodes with timestamp := 3 })
      1000 1000,
    .datagram 100 (some { LogEntry.ofClock [3, 0] two_le_vcMaxNodes with timestamp := 1 })
      1000 1000]

/-- The clock `[3, 0]` stands in front of `[2, 0]`, which happens before it. -/
theorem setBackInputs_not_bufferOrdered :
    ¬ BufferOrdered (serverRun (serverInit ⟨2, 1000⟩ reliableDisk) setBackInputs).buffer := by
  decide +kernel

end LogAgg
