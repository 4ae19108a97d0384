import LogAgg.Server.Attempts

/-!
# One step at a time

An entry is released when it is one step ahead of the committed clock.  Its distance is a
sum of differences of 64-bit numbers (`aheadBy`), and the code adds them up in an `int`: the
test also succeeds for a distance that leaves 1 modulo `2 ^ 32`.

A release at distance 1 raises a single component by 1
(`exists_extend_vcMerge_eq_update`), so in a run of such releases the components of the
committed clock add up to the number of writes (`releases_advance_iff`).
-/

namespace LogAgg

open VectorClock

/-! ## The distance -/

/-- The differences by which slots of the entry are above those of the committed clock,
added up as the numbers they are. -/
def aheadBy (committedVc : VectorClock) (entry : LogEntry) : ℕ :=
  ∑ i ∈ Finset.range committedVc.nodeCount,
    ((entry.vc.slot i).toNat - (committedVc.slot i).toNat)

/-- The distance is not 1, but the `int` that it is added up in wraps onto 1. -/
def WrapsOntoOne (committedVc : VectorClock) (entry : LogEntry) : Prop :=
  ∃ k, 1 ≤ k ∧ aheadBy committedVc entry = 1 + k * 2 ^ 32

/-- What the test of the flush says about the distance. -/
theorem increments_eq_one_iff_mod {committedVc : VectorClock} {entry : LogEntry} :
    increments committedVc entry = 1 ↔ aheadBy committedVc entry % 2 ^ 32 = 1 := by
  rw [increments_eq, ← aheadBy, Int.bmod_def]
  split <;> omega

theorem aheadBy_eq_one_iff {committedVc : VectorClock} {entry : LogEntry}
    (hone : increments committedVc entry = 1) :
    aheadBy committedVc entry = 1 ↔ ¬ WrapsOntoOne committedVc entry := by
  rw [increments_eq_one_iff_mod] at hone
  constructor
  · rintro h ⟨k, hk, heq⟩
    omega
  · intro h
    by_contra hne
    exact h ⟨aheadBy committedVc entry / 2 ^ 32, by omega, by omega⟩

/-- Natural numbers that add up to 1 are zero but for one. -/
theorem exists_of_sum_eq_one {s : Finset ℕ} {f : ℕ → ℕ} (h : ∑ i ∈ s, f i = 1) :
    ∃ j ∈ s, f j = 1 ∧ ∀ i ∈ s, i ≠ j → f i = 0 := by
  obtain ⟨j, hj, hne⟩ := Finset.exists_ne_zero_of_sum_ne_zero (by rw [h]; exact one_ne_zero)
  have hsplit := Finset.add_sum_erase s f hj
  rw [h] at hsplit
  have hrest : ∑ i ∈ s.erase j, f i = 0 := by omega
  refine ⟨j, hj, by omega, fun i hi hij => ?_⟩
  exact Finset.sum_eq_zero_iff.mp hrest i (Finset.mem_erase.mpr ⟨hij, hi⟩)

/-- **A release at distance 1** raises one component of the committed clock by 1. -/
theorem exists_extend_vcMerge_eq_update {committedVc : VectorClock} {entry : LogEntry}
    (hcount : entry.vc.nodeCount ≤ committedVc.nodeCount)
    (hstale : isStale committedVc entry = false) (hone : aheadBy committedVc entry = 1) :
    ∃ j, j < committedVc.nodeCount ∧ (vcMerge committedVc entry.vc).extend =
      Function.update committedVc.extend j (committedVc.extend j + 1) := by
  obtain ⟨j, hj, hstep, hothers⟩ := exists_of_sum_eq_one hone
  rw [Finset.mem_range] at hj
  -- no component but `j` is above the committed one, and one in use is
  have hle : ∀ i, i ≠ j → entry.vc.extend i ≤ committedVc.extend i := by
    intro i hij
    by_cases hi : i < entry.vc.nodeCount
    · have hzero := hothers i (Finset.mem_range.mpr (by omega)) hij
      rw [extend_of_lt hi, extend_of_lt (by omega)]
      omega
    · rw [extend_of_le (by omega)]
      exact Nat.zero_le _
  have huse : j < entry.vc.nodeCount := by
    by_contra hj'
    refine isStale_eq_false_iff.mp hstale fun i => ?_
    by_cases hij : i = j
    · rw [hij, extend_of_le (by omega)]
      exact Nat.zero_le _
    · exact hle i hij
  refine ⟨j, hj, ?_⟩
  rw [extend_vcMerge hcount]
  ext i
  rw [Pi.sup_apply]
  by_cases hij : i = j
  · subst hij
    rw [Function.update_self, extend_of_lt hj, extend_of_lt huse]
    omega
  · rw [Function.update_of_ne hij]
    exact sup_eq_left.mpr (hle i hij)

/-! ## Flushes -/

/-- The distance is 1, and one component of the committed clock is raised by 1. -/
def WriteAttempt.AdvancesByOne (attempt : WriteAttempt) : Prop :=
  aheadBy attempt.before.committedVc attempt.node.entry = 1 ∧
    ∃ j, j < attempt.before.committedVc.nodeCount ∧ attempt.after.committedVc.extend =
      Function.update attempt.before.committedVc.extend j
        (attempt.before.committedVc.extend j + 1)

/-- The committed clock has `n` components, and the buffered entries have no more. -/
structure NodesFit (n : ℕ) (server : Server) : Prop where
  nodeCount_eq : server.committedVc.nodeCount = n
  buffered_le : ∀ node ∈ server.buffer, node.entry.vc.nodeCount ≤ n

theorem nodesFit_invariant (n : ℕ) :
    Server.Invariant (fun entry => entry.vc.nodeCount ≤ n) (NodesFit n) where
  count _ _ h := ⟨h.nodeCount_eq, h.buffered_le⟩
  insert _ _ _ hentry _ h :=
    ⟨h.nodeCount_eq, forall_mem_serverInsertToBuffer h.buffered_le hentry⟩
  discard _ _ _ _ hbuffer _ h := ⟨h.nodeCount_eq, forall_mem_taken h.buffered_le hbuffer⟩
  commit server forced before after node hbuffer _ h := by
    refine ⟨?_, forall_mem_taken h.buffered_le hbuffer⟩
    rw [committedVc_commit, nodeCount_vcMerge, h.nodeCount_eq]

/-- When a release advances the committed clock as it should. -/
theorem WriteAttempt.Valid.advancesByOne_iff {n : ℕ} {attempt : WriteAttempt} (h : attempt.Valid)
    (hrelease : attempt.reading = none) (hfit : NodesFit n attempt.before) :
    attempt.AdvancesByOne ↔ ¬ WrapsOntoOne attempt.before.committedVc attempt.node.entry := by
  obtain ⟨before, after, hbuffer, hafter, hguard⟩ := h
  rw [hrelease] at hguard
  obtain ⟨hstale, hone⟩ := hguard
  rw [← aheadBy_eq_one_iff hone]
  refine ⟨fun hadvance => hadvance.1, fun hahead => ⟨hahead, ?_⟩⟩
  have hnode : attempt.node ∈ attempt.before.buffer := by
    rw [hbuffer]
    exact List.mem_append_right _ List.mem_cons_self
  have hcount : attempt.node.entry.vc.nodeCount ≤ attempt.before.committedVc.nodeCount := by
    rw [hfit.nodeCount_eq]
    exact hfit.buffered_le _ hnode
  rw [hafter, committedVc_commit]
  exact exists_extend_vcMerge_eq_update hcount hstale hahead

/-! ## Runs -/

/-- The sum of the components of a clock. -/
def componentSum (vc : VectorClock) : ℕ := ∑ i ∈ Finset.range vc.nodeCount, vc.extend i

theorem componentSum_vcMerge_of_update {committedVc src : VectorClock} {j : ℕ}
    (hj : j < committedVc.nodeCount) (h : (vcMerge committedVc src).extend =
      Function.update committedVc.extend j (committedVc.extend j + 1)) :
    componentSum (vcMerge committedVc src) = componentSum committedVc + 1 := by
  have hmem : j ∈ Finset.range committedVc.nodeCount := Finset.mem_range.mpr hj
  rw [componentSum, nodeCount_vcMerge, h, Finset.sum_update_of_mem hmem, componentSum,
    Finset.sum_eq_add_sum_sdiff_singleton_of_mem hmem]
  omega

theorem componentSum_le_vcMerge (dst src : VectorClock) :
    componentSum dst ≤ componentSum (vcMerge dst src) := by
  rw [componentSum, componentSum, nodeCount_vcMerge]
  exact Finset.sum_le_sum fun i _ => extend_le_extend_vcMerge dst src i

theorem componentSum_serverInit (config : ServerConfig) (disk : ℕ → DiskOutcome) :
    componentSum (serverInit config disk).committedVc = 0 := by
  rw [componentSum]
  show ∑ i ∈ _, (vcInit VectorClock.zero config.nodeCount).extend i = 0
  rw [extend_vcInit_zero]
  exact Finset.sum_const_zero

/-- By how much a write raises the sum of the components. -/
def WriteAttempt.gain (attempt : WriteAttempt) : ℕ :=
  componentSum attempt.after.committedVc - componentSum attempt.before.committedVc

/-- The components add up to what the writes have gained. -/
theorem componentSum_serverRun (config : ServerConfig) (disk : ℕ → DiskOutcome)
    (inputs : List ServerInput) :
    componentSum (serverRun (serverInit config disk) inputs).committedVc =
      (runAttempts (serverInit config disk) inputs).foldl
        (fun total attempt => total + attempt.gain) 0 := by
  have hbooks : Books (fun server => componentSum server.committedVc)
      fun total attempt => total + attempt.gain :=
    { receive := fun _ _ => rfl
      error := fun _ => rfl
      insert := fun _ _ _ => rfl
      discard := fun _ _ _ => rfl
      commit := fun reading server node rest => by
        dsimp only [WriteAttempt.gain]
        rw [committedVc_commit]
        exact (Nat.add_sub_cancel' (componentSum_le_vcMerge _ _)).symm }
  rw [hbooks.run, componentSum_serverInit]

/-- A write that advances the committed clock by one gains one. -/
theorem WriteAttempt.Valid.gain_eq_one {attempt : WriteAttempt} (h : attempt.Valid)
    (hadvance : attempt.AdvancesByOne) : attempt.gain = 1 := by
  obtain ⟨before, after, -, hafter, -⟩ := h
  obtain ⟨-, j, hj, hupdate⟩ := hadvance
  rw [hafter, committedVc_commit] at hupdate
  rw [WriteAttempt.gain, hafter, committedVc_commit, componentSum_vcMerge_of_update hj hupdate]
  omega

/-- **When releases advance one component by one.**  From every state a flush does so with
all its releases exactly if no distance wraps onto 1.  In a run from `server_init` in which
no timeout fires, this and the law that the components add up to `total_stored` hold
exactly if no distance wraps onto 1 and there are fewer than `2 ^ 64` writes. -/
theorem releases_advance_iff (server : Server) (config : ServerConfig) (disk : ℕ → DiskOutcome)
    (inputs : List ServerInput) :
    ((∀ node ∈ server.buffer, node.entry.vc.nodeCount ≤ server.committedVc.nodeCount) →
      ((∀ attempt ∈ flushAttempts server, attempt.AdvancesByOne) ↔
        ∀ attempt ∈ flushAttempts server,
          ¬ WrapsOntoOne attempt.before.committedVc attempt.node.entry)) ∧
    ((∀ entry ∈ receivedEntries inputs,
        entry.vc.nodeCount ≤ (serverInit config disk).committedVc.nodeCount) →
      (∀ attempt ∈ runAttempts (serverInit config disk) inputs, attempt.reading = none) →
        ((∀ attempt ∈ runAttempts (serverInit config disk) inputs, attempt.AdvancesByOne) ∧
            componentSum (serverRun (serverInit config disk) inputs).committedVc =
              (serverRun (serverInit config disk) inputs).stats.totalStored.toNat ↔
          (∀ attempt ∈ runAttempts (serverInit config disk) inputs,
            ¬ WrapsOntoOne attempt.before.committedVc attempt.node.entry) ∧
          (runAttempts (serverInit config disk) inputs).length < 2 ^ 64)) := by
  refine ⟨fun hfit => ?_, fun hinputs hrelease => ?_⟩
  · have hnodes : NodesFit server.committedVc.nodeCount server := ⟨rfl, hfit⟩
    refine forall₂_congr fun attempt hattempt => ?_
    obtain ⟨hbefore, hreading, hvalid⟩ :=
      (nodesFit_invariant _).removals.mem_flushAttempts hnodes attempt hattempt
    exact hvalid.advancesByOne_iff hreading hbefore
  · have hnodes : NodesFit (serverInit config disk).committedVc.nodeCount (serverInit config disk) :=
      ⟨rfl, fun node hnode => absurd hnode List.not_mem_nil⟩
    have hattempts := (nodesFit_invariant _).mem_runAttempts hinputs hnodes
      (settled_serverInit config disk)
    have hadvance : (∀ attempt ∈ runAttempts (serverInit config disk) inputs,
        attempt.AdvancesByOne) ↔ ∀ attempt ∈ runAttempts (serverInit config disk) inputs,
          ¬ WrapsOntoOne attempt.before.committedVc attempt.node.entry :=
      forall₂_congr fun attempt hattempt => (hattempts attempt hattempt).2.advancesByOne_iff
        (hrelease attempt hattempt) (hattempts attempt hattempt).1
    rw [← hadvance, totalStored_serverRun, componentSum_serverRun]
    refine and_congr_right fun hones => ?_
    have hgain : ∀ total, ∀ attempt ∈ runAttempts (serverInit config disk) inputs,
        total + attempt.gain = total + 1 := fun total attempt hattempt => by
      rw [(hattempts attempt hattempt).2.gain_eq_one (hones attempt hattempt)]
    rw [List.foldl_ext _ _ 0 hgain, List.foldl_add_const, Nat.zero_add, Nat.one_mul, eq_comm]
    exact Nat.mod_eq_iff_lt (by decide)

/-- An entry of which both components are `2 ^ 31` or more. -/
def wrappingEntry : LogEntry := LogEntry.ofClock [2147483648, 2147483649] two_le_vcMaxNodes

/-- The distance of the entry is `2 ^ 32 + 1`.  A server that has written nothing releases
it at once. -/
theorem wrappingEntry_released :
    (runAttempts (serverInit ⟨2, 1000⟩ reliableDisk)
        [.datagram 100 (some wrappingEntry) 1000 1000]).map (fun attempt =>
          (attempt.reading, aheadBy attempt.before.committedVc attempt.node.entry)) =
        [(none, 4294967297)] ∧
      componentSum (serverRun (serverInit ⟨2, 1000⟩ reliableDisk)
        [.datagram 100 (some wrappingEntry) 1000 1000]).committedVc = 4294967297 ∧
      (serverRun (serverInit ⟨2, 1000⟩ reliableDisk)
        [.datagram 100 (some wrappingEntry) 1000 1000]).stats.totalStored = 1 := by
  decide +kernel

/-- Two entries of node 0, in order. -/
def inOrderInputs : List ServerInput :=
  [.datagram 100 (some (LogEntry.ofClock [1, 0] two_le_vcMaxNodes)) 1000 1000,
    .datagram 100 (some (LogEntry.ofClock [2, 0] two_le_vcMaxNodes)) 1000 1000]

theorem releases_advance_inOrder :
    componentSum (serverRun (serverInit ⟨2, 1000⟩ reliableDisk) inOrderInputs).committedVc =
      (serverRun (serverInit ⟨2, 1000⟩ reliableDisk) inOrderInputs).stats.totalStored.toNat := by
  have hdistances : ∀ attempt ∈ runAttempts (serverInit ⟨2, 1000⟩ reliableDisk) inOrderInputs,
      attempt.reading = none ∧ aheadBy attempt.before.committedVc attempt.node.entry = 1 := by
    decide +kernel
  refine (((releases_advance_iff (serverInit ⟨2, 1000⟩ reliableDisk) ⟨2, 1000⟩ reliableDisk
    inOrderInputs).2 (by decide +kernel) fun attempt hattempt =>
      (hdistances attempt hattempt).1).mpr ⟨fun attempt hattempt => ?_, by decide +kernel⟩).2
  rintro ⟨k, hk, heq⟩
  have hone := (hdistances attempt hattempt).2
  omega

end LogAgg
