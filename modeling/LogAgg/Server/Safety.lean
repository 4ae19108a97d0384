import LogAgg.Server.Basic

/-!
# What holds of every run

The safety of the aggregation server for clocks of at most its own node count, whatever
they say and whatever the clock on the wall says: `Safe` is preserved by every action of
the loop, forced writes included.

A forced write takes the head of the list without a test of its own.  It is safe because
the check runs on a settled buffer, where the last flush has left nothing stale.
-/

namespace LogAgg

/-! ## The invariant -/

/-- The committed clock is the componentwise maximum of the committed entries, and no
entry was committed after one that covers it. -/
structure Safe (n : ℕ) (server : Server) : Prop where
  nodeCount_eq : server.committedVc.nodeCount = n
  buffered_le : ∀ node ∈ server.buffer, node.entry.vc.nodeCount ≤ n
  max_eq : ∀ i, server.committedVc.extend i =
    ((committedEntries server.trace).map fun entry => entry.vc.extend i).foldl max 0
  covered : ∀ entry ∈ committedEntries server.trace, entry.vc.extend ≤ server.committedVc.extend
  order : (committedEntries server.trace).Pairwise fun x y => ¬ y.vc.extend ≤ x.vc.extend

theorem safe_serverInit {config : ServerConfig} (disk : ℕ → DiskOutcome) {n : ℕ}
    (hcount : (serverInit config disk).committedVc.nodeCount = n) :
    Safe n (serverInit config disk) where
  nodeCount_eq := hcount
  buffered_le node hnode := absurd hnode List.not_mem_nil
  max_eq i := by
    show (vcInit VectorClock.zero config.nodeCount).extend i = 0
    rw [extend_vcInit_zero]
    rfl
  covered entry hentry := absurd hentry List.not_mem_nil
  order := List.Pairwise.nil

/-- Writing an entry that is not stale keeps the server safe. -/
theorem Safe.commit {n : ℕ} {server : Server} (h : Safe n server) (forced : Bool)
    {before after : List LogBufferNode} {node : LogBufferNode}
    (hbuffer : server.buffer = before ++ node :: after)
    (hstale : isStale server.committedVc node.entry = false) :
    Safe n (server.commit forced node (before ++ after)) := by
  have hnode : node ∈ server.buffer := by
    rw [hbuffer]
    exact List.mem_append_right _ List.mem_cons_self
  have hmerge : (vcMerge server.committedVc node.entry.vc).extend =
      server.committedVc.extend ⊔ node.entry.vc.extend :=
    extend_vcMerge (by
      rw [h.nodeCount_eq]
      exact h.buffered_le node hnode)
  rw [isStale_eq_false_iff] at hstale
  refine ⟨?_, forall_mem_taken h.buffered_le hbuffer, ?_, ?_, ?_⟩
  · rw [committedVc_commit, nodeCount_vcMerge, h.nodeCount_eq]
  · intro i
    rw [committedVc_commit, trace_commit, committedEntries_append_written, List.map_append,
      List.foldl_append, ← h.max_eq i, hmerge]
    rfl
  · intro entry hentry
    rw [trace_commit, committedEntries_append_written, List.mem_append, List.mem_singleton] at hentry
    rw [committedVc_commit, hmerge]
    rcases hentry with hentry | rfl
    · exact (h.covered entry hentry).trans le_sup_left
    · exact le_sup_right
  · rw [trace_commit, committedEntries_append_written, List.pairwise_append]
    refine ⟨h.order, List.pairwise_singleton _ _, fun x hx y hy => ?_⟩
    rw [List.mem_singleton] at hy
    subst hy
    exact fun hle => hstale (hle.trans (h.covered x hx))

/-- **Every action keeps the server safe.** -/
theorem safe_invariant (n : ℕ) :
    Server.Invariant (fun entry => entry.vc.nodeCount ≤ n) (Safe n) where
  count _ _ h := ⟨h.nodeCount_eq, h.buffered_le, h.max_eq, h.covered, h.order⟩
  insert server entry arrivalTime hentry _ h :=
    ⟨h.nodeCount_eq, forall_mem_serverInsertToBuffer h.buffered_le hentry, h.max_eq, h.covered,
      h.order⟩
  discard server before after node hbuffer _ h := by
    refine ⟨h.nodeCount_eq, forall_mem_taken h.buffered_le hbuffer, fun i => ?_,
      fun entry hentry => ?_, ?_⟩
    · rw [committedVc_discard, trace_discard, committedEntries_append_discarded]
      exact h.max_eq i
    · rw [trace_discard, committedEntries_append_discarded] at hentry
      exact h.covered entry hentry
    · rw [trace_discard, committedEntries_append_discarded]
      exact h.order
  commit _ forced _ _ _ hbuffer hstale h := h.commit forced hbuffer hstale

/-! ## The run -/

/-- **Safety of every run.**  After any turns of the loop the file holds the lines of the
written entries, the committed clock is their componentwise maximum, nothing in the
buffer is equal to or before it, and no entry in the file is equal to or before one that
stands in front of it. -/
theorem serverRun_safe {n : ℕ} (hpos : 1 ≤ n) (hle : n ≤ vcMaxNodes) (config : ServerConfig)
    (hconfig : config.nodeCount = n) (disk : ℕ → DiskOutcome) (inputs : List ServerInput)
    (hinputs : ∀ entry ∈ receivedEntries inputs, entry.vc.nodeCount ≤ n)
    (hwrites : WritesSucceed (serverRun (serverInit config disk) inputs).trace) :
    let server := serverRun (serverInit config disk) inputs
    server.file = (writtenEntries server.trace).flatMap entryLine ∧
    (server.committedVc.nodeCount = n ∧ ∀ i, i < n → (server.committedVc.slot i).toNat =
      ((writtenEntries server.trace).map fun entry => entry.vc.extend i).foldl max 0) ∧
    (∀ node ∈ server.buffer, vcCompare node.entry.vc server.committedVc ≠ .equal ∧
      vcCompare node.entry.vc server.committedVc ≠ .happensBefore) ∧
    (writtenEntries server.trace).Pairwise fun x y =>
      vcCompare y.vc x.vc ≠ .equal ∧ vcCompare y.vc x.vc ≠ .happensBefore := by
  intro server
  have hcount : (serverInit config disk).committedVc.nodeCount = n := by
    show (vcInit VectorClock.zero config.nodeCount).nodeCount = n
    rw [hconfig, nodeCount_vcInit _ hpos hle]
  obtain ⟨hsafe, hsettled⟩ := (safe_invariant n).run hinputs (safe_serverInit disk hcount)
    (settled_serverInit config disk)
  have hnot : ∀ {a b : VectorClock}, ¬ a.extend ≤ b.extend →
      vcCompare a b ≠ .equal ∧ vcCompare a b ≠ .happensBefore := by
    intro a b hab
    rw [← vcCompare_equal_or_happensBefore_iff, not_or] at hab
    exact hab
  refine ⟨file_serverRun config disk inputs hwrites, ?_⟩
  rw [writtenEntries_eq hwrites]
  refine ⟨⟨hsafe.nodeCount_eq, fun i hi => ?_⟩, fun node hnode => ?_, ?_⟩
  · rw [← hsafe.max_eq i, VectorClock.extend_of_lt (by rw [hsafe.nodeCount_eq]; exact hi)]
  · exact hnot (isStale_eq_false_iff.mp (hsettled node hnode).1)
  · exact hsafe.order.imp hnot

theorem serverRun_safe_overtaken :
    let server := serverRun (serverInit ⟨2, 1000⟩ reliableDisk) overtakenInputs
    server.trace.length = 2 ∧ (writtenEntries server.trace).length = 1 ∧
      ∀ node ∈ server.buffer, vcCompare node.entry.vc server.committedVc ≠ .equal := by
  intro server
  have hsafe := serverRun_safe (n := 2) (by decide) (by decide) ⟨2, 1000⟩ rfl reliableDisk
    overtakenInputs (by decide) (by decide +kernel)
  exact ⟨by decide +kernel, by decide +kernel, fun node hnode => (hsafe.2.2.1 node hnode).1⟩

end LogAgg
