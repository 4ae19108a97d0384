import LogAgg.Loop.Trail
import LogAgg.Server.Basic

/-!
# The two loops of the server

`server_flush_causal_buffer` starts its walk over whenever it has removed a node, and
`server_check_timeout_flush` goes back to the head of the list whenever it has forced one
out.  `flushPass` and `forcePass` are one turn of each, and `flush_runs` and `check_runs`
say that the two functions are these loops.

Every turn takes a node out of the list, so both end.  What a flush ends with is a fixpoint
(`serverFlushCausalBuffer_fixpoint`): the last walk has seen every entry at the committed
clock of the end and passed over it.
-/

namespace LogAgg

open Loop VectorClock

/-! ## The flush -/

/-- One turn of the loop in `server_flush_causal_buffer`: a walk, and the removal of the
node at which it stops. -/
def flushPass (server : Server) : Option Server :=
  match flushWalk server.committedVc server.buffer with
  | none => none
  | some (.discard, node, rest) => some (server.discard node rest)
  | some (.release, node, rest) => some (server.commit false node rest)

/-- A walk over a settled buffer finds nothing. -/
theorem flushWalk_of_settled {server : Server} (h : server.Settled) :
    flushWalk server.committedVc server.buffer = none := by
  cases hwalk : flushWalk server.committedVc server.buffer with
  | none => rfl
  | some found =>
    obtain ⟨action, node, rest⟩ := found
    obtain ⟨before, after, hbuffer, -, hguard, -⟩ := flushWalk_eq_some hwalk
    have hheld := h node (by rw [hbuffer]; exact List.mem_append_right _ List.mem_cons_self)
    cases action with
    | discard =>
      have hstale : isStale server.committedVc node.entry = true := hguard
      rw [hheld.1] at hstale
      exact absurd hstale Bool.false_ne_true
    | release => exact absurd hguard.2 hheld.2

/-- The loop stops at the settled buffers. -/
theorem flushPass_eq_none_iff {server : Server} : flushPass server = none ↔ server.Settled := by
  constructor
  · intro h
    rw [flushPass] at h
    split at h
    · rename_i hwalk
      exact flushWalk_eq_none hwalk
    · exact absurd h (Option.some_ne_none _)
    · exact absurd h (Option.some_ne_none _)
  · intro h
    rw [flushPass, flushWalk_of_settled h]

/-- **What one turn does**: it discards the first node that is not held, or releases it. -/
theorem flushPass_cases {server next : Server} (h : flushPass server = some next) :
    ∃ before node after, server.buffer = before ++ node :: after ∧
      (∀ m ∈ before, IsHeld server.committedVc m.entry) ∧
      (flushWalk server.committedVc server.buffer = some (.discard, node, before ++ after) ∧
          isStale server.committedVc node.entry = true ∧
          next = server.discard node (before ++ after) ∨
        flushWalk server.committedVc server.buffer = some (.release, node, before ++ after) ∧
          isStale server.committedVc node.entry = false ∧
          increments server.committedVc node.entry = 1 ∧
          next = server.commit false node (before ++ after)) := by
  rw [flushPass] at h
  split at h
  · exact absurd h.symm (Option.some_ne_none _)
  · rename_i node rest hwalk
    obtain ⟨before, after, hbuffer, rfl, hguard, hheld⟩ := flushWalk_eq_some hwalk
    exact ⟨before, node, after, hbuffer, hheld, Or.inl ⟨hwalk, hguard, (Option.some.inj h).symm⟩⟩
  · rename_i node rest hwalk
    obtain ⟨before, after, hbuffer, rfl, hguard, hheld⟩ := flushWalk_eq_some hwalk
    exact ⟨before, node, after, hbuffer, hheld,
      Or.inr ⟨hwalk, hguard.1, hguard.2, (Option.some.inj h).symm⟩⟩

/-- Every turn takes one node out of the list. -/
theorem flush_lowers : Lowers flushPass fun server => server.buffer.length := by
  intro server next h
  obtain ⟨before, node, after, hbuffer, -, ⟨-, -, rfl⟩ | ⟨-, -, -, rfl⟩⟩ := flushPass_cases h <;>
    simp [hbuffer]

/-- `server_flush_causal_buffer` is the loop. -/
theorem flush_runs : Runs flushPass serverFlushCausalBuffer where
  stop server h := by
    rw [flushPass] at h
    rw [serverFlushCausalBuffer]
    split at h
    · rename_i hwalk
      split
      · rfl
      · rename_i hfound
        rw [hwalk] at hfound
        exact absurd hfound.symm (Option.some_ne_none _)
      · rename_i hfound
        rw [hwalk] at hfound
        exact absurd hfound.symm (Option.some_ne_none _)
    · exact absurd h (Option.some_ne_none _)
    · exact absurd h (Option.some_ne_none _)
  next server next h := by
    rw [flushPass] at h
    rw [serverFlushCausalBuffer]
    split
    · rename_i hwalk
      rw [hwalk] at h
      exact absurd h.symm (Option.some_ne_none _)
    · rename_i node rest hwalk
      rw [hwalk] at h
      rw [← Option.some.inj h]
    · rename_i node rest hwalk
      rw [hwalk] at h
      rw [← Option.some.inj h]

/-- A settled buffer is left as it is. -/
theorem serverFlushCausalBuffer_of_settled {server : Server} (h : server.Settled) :
    serverFlushCausalBuffer server = server :=
  flush_runs.stop server (flushPass_eq_none_iff.mpr h)

/-- What one turn leaves behind it has not touched, and the committed clock has only
grown. -/
theorem flushPass_grows {server next : Server} (h : flushPass server = some next) :
    next.buffer.Sublist server.buffer ∧
      next.committedVc.nodeCount = server.committedVc.nodeCount ∧
      server.committedVc.extend ≤ next.committedVc.extend := by
  obtain ⟨before, node, after, hbuffer, -, ⟨-, -, rfl⟩ | ⟨-, -, -, rfl⟩⟩ := flushPass_cases h
  · rw [hbuffer, buffer_discard, committedVc_discard]
    exact ⟨(List.sublist_cons_self node after).append_left before, rfl, le_rfl⟩
  · rw [hbuffer, buffer_commit, committedVc_commit]
    exact ⟨(List.sublist_cons_self node after).append_left before, nodeCount_vcMerge _ _,
      extend_le_extend_vcMerge _ _⟩

/-- The same of a whole flush. -/
theorem serverFlushCausalBuffer_grows (server : Server) :
    (serverFlushCausalBuffer server).buffer.Sublist server.buffer ∧
      (serverFlushCausalBuffer server).committedVc.nodeCount = server.committedVc.nodeCount ∧
      server.committedVc.extend ≤ (serverFlushCausalBuffer server).committedVc.extend := by
  refine flush_runs.invariant (P := fun s => s.buffer.Sublist server.buffer ∧
    s.committedVc.nodeCount = server.committedVc.nodeCount ∧
    server.committedVc.extend ≤ s.committedVc.extend) flush_lowers ?_
    ⟨List.Sublist.refl _, rfl, le_rfl⟩
  intro s t hst ⟨hsub, hcount, hle⟩
  obtain ⟨hsub', hcount', hle'⟩ := flushPass_grows hst
  exact ⟨hsub'.trans hsub, hcount'.trans hcount, hle.trans hle'⟩

/-- **A flush reaches a fixpoint**, from every buffer and every committed clock: the loop
stops after at most as many turns as there are nodes; nothing that remains is equal to or
before the committed clock, or one step ahead of it; what remains is a subsequence of what
there was; no component of the committed clock is lower; and a second flush changes
nothing. -/
theorem serverFlushCausalBuffer_fixpoint (server : Server) :
    let after := serverFlushCausalBuffer server
    ((trail flushPass server.buffer.length server).getLast (trail_ne_nil _ _) = after ∧
      flushPass after = none) ∧
    (∀ node ∈ after.buffer, vcCompare node.entry.vc after.committedVc ≠ .equal ∧
      vcCompare node.entry.vc after.committedVc ≠ .happensBefore ∧
      increments after.committedVc node.entry ≠ 1) ∧
    after.buffer.Sublist server.buffer ∧
    (after.committedVc.nodeCount = server.committedVc.nodeCount ∧
      ∀ i, server.committedVc.extend i ≤ after.committedVc.extend i) ∧
    serverFlushCausalBuffer after = after := by
  intro after
  have hstop : flushPass after = none := flush_runs.pass_run flush_lowers server
  refine ⟨⟨flush_runs.getLast_trail flush_lowers server, hstop⟩, fun node hnode => ?_,
    (serverFlushCausalBuffer_grows server).1, (serverFlushCausalBuffer_grows server).2,
    flush_runs.run_run flush_lowers server⟩
  obtain ⟨hstale, hone⟩ := flushPass_eq_none_iff.mp hstop node hnode
  rw [isStale_eq_false_iff, ← vcCompare_equal_or_happensBefore_iff, not_or] at hstale
  exact ⟨hstale.1, hstale.2, hone⟩

/-! ## The timeout check -/

/-- One turn of the loop in `server_check_timeout_flush`: the head is forced out, and the
buffer flushed. -/
def forcePass (now : UInt64) (server : Server) : Option Server :=
  match server.buffer with
  | [] => none
  | node :: rest =>
      if server.config.timeoutMs < now - node.arrivalTime then
        some (serverFlushCausalBuffer (server.commit true node rest))
      else none

/-- **What one turn of the check does.** -/
theorem forcePass_eq_some_iff {now : UInt64} {server next : Server} :
    forcePass now server = some next ↔ ∃ node rest, server.buffer = node :: rest ∧
      server.config.timeoutMs < now - node.arrivalTime ∧
      next = serverFlushCausalBuffer (server.commit true node rest) := by
  rw [forcePass]
  cases server.buffer with
  | nil => simp
  | cons node rest =>
    dsimp only
    split
    · rename_i hlate
      rw [Option.some_inj]
      constructor
      · rintro rfl
        exact ⟨node, rest, rfl, hlate, rfl⟩
      · rintro ⟨node', rest', heq, -, rfl⟩
        obtain ⟨rfl, rfl⟩ := List.cons.inj heq
        rfl
    · rename_i hearly
      constructor
      · intro h
        exact absurd h.symm (Option.some_ne_none _)
      · rintro ⟨node', rest', heq, hlate, -⟩
        rw [← (List.cons.inj heq).1] at hlate
        exact absurd hlate hearly

/-- The check stops when the head is not late. -/
theorem forcePass_eq_none_iff {now : UInt64} {server : Server} :
    forcePass now server = none ↔ ∀ node rest, server.buffer = node :: rest →
      ¬ server.config.timeoutMs < now - node.arrivalTime := by
  rw [Option.eq_none_iff_forall_ne_some]
  constructor
  · intro h node rest hbuffer hlate
    exact h _ (forcePass_eq_some_iff.mpr ⟨node, rest, hbuffer, hlate, rfl⟩)
  · intro h next hnext
    obtain ⟨node, rest, hbuffer, hlate, -⟩ := forcePass_eq_some_iff.mp hnext
    exact h node rest hbuffer hlate

theorem check_lowers (now : UInt64) :
    Lowers (forcePass now) fun server => server.buffer.length := by
  intro server next h
  obtain ⟨node, rest, hbuffer, -, rfl⟩ := forcePass_eq_some_iff.mp h
  dsimp only
  rw [hbuffer]
  exact Nat.lt_succ_of_le (length_buffer_serverFlushCausalBuffer_le _)

/-- `server_check_timeout_flush` is the loop. -/
theorem check_runs (now : UInt64) : Runs (forcePass now) (serverCheckTimeoutFlush now) where
  stop server h := by
    rw [serverCheckTimeoutFlush]
    split
    · rfl
    · rename_i node rest hbuffer
      rw [if_neg (forcePass_eq_none_iff.mp h node rest hbuffer)]
  next server next h := by
    obtain ⟨node, rest, hbuffer, hlate, rfl⟩ := forcePass_eq_some_iff.mp h
    rw [serverCheckTimeoutFlush]
    split
    · rename_i hempty
      rw [hempty] at hbuffer
      exact absurd hbuffer (List.cons_ne_nil node rest).symm
    · rename_i node' rest' heq
      rw [hbuffer] at heq
      obtain ⟨rfl, rfl⟩ := List.cons.inj heq
      rw [if_pos hlate]

/-- What one turn of the check leaves behind it has not touched. -/
theorem buffer_forcePass_sublist {now : UInt64} {server next : Server}
    (h : forcePass now server = some next) : next.buffer.Sublist server.buffer := by
  obtain ⟨node, rest, hbuffer, -, rfl⟩ := forcePass_eq_some_iff.mp h
  have hflush := (serverFlushCausalBuffer_grows (server.commit true node rest)).1
  rw [buffer_commit] at hflush
  rw [hbuffer]
  exact hflush.trans (List.sublist_cons_self node rest)

/-- The same of a whole check. -/
theorem buffer_serverCheckTimeoutFlush_sublist (now : UInt64) (server : Server) :
    (serverCheckTimeoutFlush now server).buffer.Sublist server.buffer :=
  (check_runs now).invariant (P := fun s => s.buffer.Sublist server.buffer) (check_lowers now)
    (fun _ _ hst hsub => (buffer_forcePass_sublist hst).trans hsub) (List.Sublist.refl _)

end LogAgg
