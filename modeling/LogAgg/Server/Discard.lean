import LogAgg.Server.Basic

/-!
# What is discarded

A flush drops an entry whose clock is covered by the committed clock, as a
retransmission.  The committed clock covers more than what was written as soon as a write
jumps ahead: a forced write does, and so does an entry whose clock repeats that of
another node.

`discardsOnlyCopies_iff` says of every run when the reading as a retransmission is right:
no received entry may be covered from the start, and no write may cover a received entry
besides its own copies.
-/

namespace LogAgg

/-- The two entries have the same node id and `VC_EQUAL` clocks. -/
def IsCopy (x y : LogEntry) : Prop :=
  x.nodeId.bytes = y.nodeId.bytes ∧ vcCompare x.vc y.vc = .equal

instance (x y : LogEntry) : Decidable (IsCopy x y) := inferInstanceAs (Decidable (_ ∧ _))

theorem IsCopy.extend_eq {x y : LogEntry} (h : IsCopy x y) : x.vc.extend = y.vc.extend :=
  vcCompare_eq_equal_iff.mp h.2

/-- Every discarded entry has a copy that was written before. -/
def DiscardsOnlyCopies (trace : List ServerEvent) : Prop :=
  ∀ before entry after, trace = before ++ .discarded entry :: after →
    ∃ x ∈ writtenEntries before, IsCopy x entry

/-- The writes of a trace: the committed clock before each, and the entry. -/
def writeSteps (trace : List ServerEvent) : List (VectorClock × LogEntry) :=
  trace.filterMap fun
    | .written _ entry committedVc _ => some (committedVc, entry)
    | .discarded _ => none

/-- No write covers an entry of the list that was not covered before, copies of the
written entry apart. -/
def CoversOnlyCopies (entries : List LogEntry) (trace : List ServerEvent) : Prop :=
  ∀ step ∈ writeSteps trace, ∀ entry ∈ entries, isStale step.1 entry = false →
    isStale (vcMerge step.1 step.2.vc) entry = true → IsCopy step.2 entry

instance (entries : List LogEntry) (trace : List ServerEvent) :
    Decidable (CoversOnlyCopies entries trace) :=
  inferInstanceAs (Decidable (∀ step ∈ writeSteps trace, ∀ entry ∈ entries,
    isStale step.1 entry = false → isStale (vcMerge step.1 step.2.vc) entry = true →
      IsCopy step.2 entry))

/-! ## Traces, one event at a time -/

@[simp] theorem writeSteps_append_discarded (trace : List ServerEvent) (entry : LogEntry) :
    writeSteps (trace ++ [.discarded entry]) = writeSteps trace := by
  simp [writeSteps]

@[simp] theorem writeSteps_append_written (trace : List ServerEvent) (forced : Bool)
    (entry : LogEntry) (committedVc : VectorClock) (stored : Bool) :
    writeSteps (trace ++ [.written forced entry committedVc stored]) =
      writeSteps trace ++ [(committedVc, entry)] := by
  simp [writeSteps]

theorem mem_committedEntries_iff {trace : List ServerEvent} {entry : LogEntry} :
    entry ∈ committedEntries trace ↔ ∃ committedVc, (committedVc, entry) ∈ writeSteps trace := by
  have hmap : committedEntries trace = (writeSteps trace).map Prod.snd := by
    rw [writeSteps, List.map_filterMap, committedEntries]
    refine List.filterMap_congr fun event _ => ?_
    cases event <;> rfl
  rw [hmap, List.mem_map]
  constructor
  · rintro ⟨⟨committedVc, e⟩, hmem, rfl⟩
    exact ⟨committedVc, hmem⟩
  · rintro ⟨committedVc, hmem⟩
    exact ⟨_, hmem, rfl⟩

theorem CoversOnlyCopies.of_append {entries : List LogEntry} {trace trace' : List ServerEvent}
    (h : CoversOnlyCopies entries (trace ++ trace')) : CoversOnlyCopies entries trace := by
  intro step hstep
  refine h step ?_
  rw [writeSteps, List.filterMap_append]
  exact List.mem_append_left _ hstep

/-- One more event asks for one more copy, if it is a discard. -/
theorem DiscardsOnlyCopies.append {trace : List ServerEvent} (h : DiscardsOnlyCopies trace)
    {event : ServerEvent}
    (hevent : ∀ entry, event = .discarded entry → ∃ x ∈ writtenEntries trace, IsCopy x entry) :
    DiscardsOnlyCopies (trace ++ [event]) := by
  intro before entry after heq
  rcases List.eq_nil_or_concat after with rfl | ⟨after', last, rfl⟩
  · obtain ⟨rfl, hlast⟩ := List.append_inj' heq rfl
    exact hevent entry (List.singleton_inj.mp hlast)
  · rw [List.concat_eq_append, ← List.cons_append, ← List.append_assoc] at heq
    obtain ⟨htrace, -⟩ := List.append_inj' heq rfl
    exact h before entry after' htrace

/-! ## Runs that cover only copies -/

/-- While every write has covered only copies, whatever is covered has a written copy. -/
structure Accounted (entries : List LogEntry) (server : Server) : Prop where
  buffered : ∀ node ∈ server.buffer, node.entry ∈ entries
  covered : WritesSucceed server.trace → CoversOnlyCopies entries server.trace →
    ∀ entry ∈ entries, isStale server.committedVc entry = true →
      ∃ x ∈ writtenEntries server.trace, IsCopy x entry
  discards : WritesSucceed server.trace → CoversOnlyCopies entries server.trace →
    DiscardsOnlyCopies server.trace

theorem accounted_invariant (entries : List LogEntry) :
    Server.Invariant (fun entry => entry ∈ entries) (Accounted entries) where
  count _ _ h := ⟨h.buffered, h.covered, h.discards⟩
  insert server entry arrivalTime hentry _ h :=
    ⟨forall_mem_serverInsertToBuffer h.buffered hentry, h.covered, h.discards⟩
  discard server before after node hbuffer hstale h := by
    have hnode : node ∈ server.buffer := by
      rw [hbuffer]
      exact List.mem_append_right _ List.mem_cons_self
    refine ⟨forall_mem_taken h.buffered hbuffer,
      fun hsucceed hcovers entry hentry hcov => ?_, fun hsucceed hcovers => ?_⟩
    · rw [trace_discard] at hsucceed hcovers ⊢
      obtain ⟨x, hx, hcopy⟩ := h.covered hsucceed.of_append hcovers.of_append entry hentry hcov
      rw [writtenEntries, List.filterMap_append]
      exact ⟨x, List.mem_append_left _ hx, hcopy⟩
    · rw [trace_discard] at hsucceed hcovers ⊢
      refine (h.discards hsucceed.of_append hcovers.of_append).append fun entry heq => ?_
      obtain rfl := ServerEvent.discarded.inj heq
      exact h.covered hsucceed.of_append hcovers.of_append _ (h.buffered node hnode) hstale
  commit server forced before after node hbuffer hstale h := by
    refine ⟨forall_mem_taken h.buffered hbuffer,
      fun hsucceed hcovers entry hentry hcov => ?_, fun hsucceed hcovers => ?_⟩
    · rw [trace_commit] at hsucceed hcovers ⊢
      rw [committedVc_commit] at hcov
      rw [writtenEntries_eq hsucceed, committedEntries_append_written,
        ← writtenEntries_eq hsucceed.of_append]
      cases hold : isStale server.committedVc entry with
      | true =>
        obtain ⟨x, hx, hcopy⟩ := h.covered hsucceed.of_append hcovers.of_append entry hentry hold
        exact ⟨x, List.mem_append_left _ hx, hcopy⟩
      | false =>
        have hstep : (server.committedVc, node.entry) ∈ writeSteps (server.trace ++
            [.written forced node.entry server.committedVc (server.storesLine node.entry)]) := by
          rw [writeSteps_append_written]
          exact List.mem_append_right _ (List.mem_singleton_self _)
        exact ⟨node.entry, List.mem_append_right _ (List.mem_singleton_self _),
          hcovers _ hstep entry hentry hold hcov⟩
    · rw [trace_commit] at hsucceed hcovers ⊢
      exact (h.discards hsucceed.of_append hcovers.of_append).append
        fun entry heq => ServerEvent.noConfusion heq

/-! ## Every run -/

/-- The history of the committed clock: it starts from the initial one, no write finds
its entry covered, and every write leads to what the later ones find. -/
structure Monotone (start : VectorClock) (server : Server) : Prop where
  nodeCount_eq : server.committedVc.nodeCount = start.nodeCount
  start_le : start.extend ≤ server.committedVc.extend
  step : ∀ step ∈ writeSteps server.trace, step.1.nodeCount = start.nodeCount ∧
    start.extend ≤ step.1.extend ∧ isStale step.1 step.2 = false ∧
    (vcMerge step.1 step.2.vc).extend ≤ server.committedVc.extend
  pairwise : (writeSteps server.trace).Pairwise fun p q =>
    (vcMerge p.1 p.2.vc).extend ≤ q.1.extend

theorem monotone_invariant (start : VectorClock) :
    Server.Invariant (fun _ => True) (Monotone start) where
  count _ _ h := ⟨h.nodeCount_eq, h.start_le, h.step, h.pairwise⟩
  insert _ _ _ _ _ h := ⟨h.nodeCount_eq, h.start_le, h.step, h.pairwise⟩
  discard server before after node _ _ h := by
    refine ⟨h.nodeCount_eq, h.start_le, ?_, ?_⟩
    · rw [trace_discard, writeSteps_append_discarded]
      exact h.step
    · rw [trace_discard, writeSteps_append_discarded]
      exact h.pairwise
  commit server forced before after node _ hstale h := by
    have hgrow := extend_le_extend_vcMerge server.committedVc node.entry.vc
    refine ⟨?_, ?_, fun step hstep => ?_, ?_⟩
    · rw [committedVc_commit, nodeCount_vcMerge, h.nodeCount_eq]
    · rw [committedVc_commit]
      exact h.start_le.trans hgrow
    · rw [trace_commit, writeSteps_append_written, List.mem_append, List.mem_singleton] at hstep
      rw [committedVc_commit]
      rcases hstep with hstep | rfl
      · obtain ⟨hn, hs, hst, hle⟩ := h.step step hstep
        exact ⟨hn, hs, hst, hle.trans hgrow⟩
      · exact ⟨h.nodeCount_eq, h.start_le, hstale, le_rfl⟩
    · rw [trace_commit, writeSteps_append_written, List.pairwise_append]
      refine ⟨h.pairwise, List.pairwise_singleton _ _, fun p hp q hq => ?_⟩
      rw [List.mem_singleton] at hq
      subst hq
      exact (h.step p hp).2.2.2

/-- Two writes of a run are the same, or one leads to what the other finds. -/
theorem Monotone.trichotomy {start : VectorClock} {server : Server} (h : Monotone start server)
    {p q : VectorClock × LogEntry} (hp : p ∈ writeSteps server.trace)
    (hq : q ∈ writeSteps server.trace) :
    p = q ∨ (vcMerge p.1 p.2.vc).extend ≤ q.1.extend ∨
      (vcMerge q.1 q.2.vc).extend ≤ p.1.extend := by
  let R (p q : VectorClock × LogEntry) : Prop := p = q ∨
    (vcMerge p.1 p.2.vc).extend ≤ q.1.extend ∨ (vcMerge q.1 q.2.vc).extend ≤ p.1.extend
  have hto : (writeSteps server.trace).Pairwise R := h.pairwise.imp fun hle => Or.inr (Or.inl hle)
  have hfrom : (writeSteps server.trace).Pairwise (flip R) :=
    h.pairwise.imp fun hle => Or.inr (Or.inr hle)
  exact List.Pairwise.forall_of_forall_of_flip (R := R) (fun _ _ => Or.inl rfl) hto hfrom hp hq

/-- A clock that some clock with `n` components covers is covered by a merge into any clock
with `n` components. -/
theorem extend_le_extend_vcMerge_of_le {a b c : VectorClock} (hn : b.nodeCount = c.nodeCount)
    (h : a.extend ≤ b.extend) : a.extend ≤ (vcMerge c a).extend := by
  intro i
  rw [extend_vcMerge_apply]
  by_cases hi : i < min c.nodeCount a.nodeCount
  · rw [if_pos hi]
    exact le_max_right _ _
  · have hzero : a.extend i = 0 := by
      by_cases ha : i < a.nodeCount
      · have hle := h i
        have hb : b.extend i = 0 := VectorClock.extend_of_le (by omega)
        rw [hb] at hle
        exact Nat.le_zero.mp hle
      · exact VectorClock.extend_of_le (by omega)
    rw [hzero]
    exact Nat.zero_le _

/-- An entry that was received is somewhere: in the buffer, discarded or committed. -/
def Present (entry : LogEntry) (server : Server) : Prop :=
  (∃ node ∈ server.buffer, node.entry = entry) ∨ .discarded entry ∈ server.trace ∨
    entry ∈ committedEntries server.trace

theorem present_invariant (entry : LogEntry) :
    Server.Invariant (fun _ => True) (Present entry) where
  count _ _ h := h
  insert server other arrivalTime _ _ h := by
    refine h.imp_left ?_
    rintro ⟨node, hnode, rfl⟩
    exact ⟨node, (insertNode_perm _ _).mem_iff.mpr (List.mem_cons_of_mem _ hnode), rfl⟩
  discard server before after node hbuffer _ h := by
    rw [Present, trace_discard, committedEntries_append_discarded]
    rcases h with ⟨m, hm, rfl⟩ | h | h
    · rw [hbuffer, List.mem_append, List.mem_cons] at hm
      rcases hm with hm | rfl | hm
      · exact Or.inl ⟨m, List.mem_append_left _ hm, rfl⟩
      · exact Or.inr (Or.inl (List.mem_append_right _ (List.mem_singleton_self _)))
      · exact Or.inl ⟨m, List.mem_append_right _ hm, rfl⟩
    · exact Or.inr (Or.inl (List.mem_append_left _ h))
    · exact Or.inr (Or.inr h)
  commit server forced before after node hbuffer _ h := by
    rw [Present, trace_commit, committedEntries_append_written]
    rcases h with ⟨m, hm, rfl⟩ | h | h
    · rw [hbuffer, List.mem_append, List.mem_cons] at hm
      rcases hm with hm | rfl | hm
      · exact Or.inl ⟨m, List.mem_append_left _ hm, rfl⟩
      · exact Or.inr (Or.inr (List.mem_append_right _ (List.mem_singleton_self _)))
      · exact Or.inl ⟨m, List.mem_append_right _ hm, rfl⟩
    · exact Or.inr (Or.inl (List.mem_append_left _ h))
    · exact Or.inr (Or.inr (List.mem_append_left _ h))

/-- If discards are always retransmissions, a covered entry has a copy among the writes. -/
theorem DiscardsOnlyCopies.exists_step {server : Server} {inputs : List ServerInput}
    (hsettled : server.Settled) (hwrites : WritesSucceed (serverRun server inputs).trace)
    (hdiscards : DiscardsOnlyCopies (serverRun server inputs).trace) {entry : LogEntry}
    (hentry : entry ∈ receivedEntries inputs)
    (hstale : isStale (serverRun server inputs).committedVc entry = true) :
    ∃ step ∈ writeSteps (serverRun server inputs).trace, IsCopy step.2 entry := by
  have hpresent := (present_invariant entry).run_of_received
    (fun s t => Or.inl ⟨⟨entry, t⟩, (insertNode_perm _ _).mem_iff.mpr List.mem_cons_self, rfl⟩)
    hentry hsettled
  rcases hpresent with ⟨node, hnode, rfl⟩ | hevent | hcommitted
  · rw [(hsettled.run inputs node hnode).1] at hstale
    exact absurd hstale (by decide)
  · obtain ⟨before, after, htrace⟩ := List.append_of_mem hevent
    obtain ⟨x, hx, hcopy⟩ := hdiscards before entry after htrace
    have hbefore : WritesSucceed before := by
      rw [htrace] at hwrites
      exact hwrites.of_append
    rw [writtenEntries_eq hbefore, mem_committedEntries_iff] at hx
    obtain ⟨committedVc, hx⟩ := hx
    refine ⟨(committedVc, x), ?_, hcopy⟩
    rw [htrace, writeSteps, List.filterMap_append]
    exact List.mem_append_left _ hx
  · obtain ⟨committedVc, hx⟩ := mem_committedEntries_iff.mp hcommitted
    exact ⟨_, hx, rfl, vcCompare_eq_equal_iff.mpr rfl⟩

/-- **When discards are retransmissions.**  In a run whose writes succeed, every discarded
entry has a copy that was written before if and only if no received entry is covered by
the initial clock and no write covers a received entry that was not covered before,
copies of the written entry apart. -/
theorem discardsOnlyCopies_iff (config : ServerConfig) (disk : ℕ → DiskOutcome)
    (inputs : List ServerInput)
    (hwrites : WritesSucceed (serverRun (serverInit config disk) inputs).trace) :
    DiscardsOnlyCopies (serverRun (serverInit config disk) inputs).trace ↔
      (∀ entry ∈ receivedEntries inputs,
        isStale (vcInit VectorClock.zero config.nodeCount) entry = false) ∧
      CoversOnlyCopies (receivedEntries inputs) (serverRun (serverInit config disk) inputs).trace := by
  have hstart : Monotone (vcInit VectorClock.zero config.nodeCount) (serverInit config disk) :=
    ⟨rfl, le_rfl, fun _ hstep => absurd hstep List.not_mem_nil, List.Pairwise.nil⟩
  have hmono : Monotone (vcInit VectorClock.zero config.nodeCount)
      (serverRun (serverInit config disk) inputs) :=
    ((monotone_invariant _).run (fun _ _ => trivial) hstart (settled_serverInit config disk)).1
  constructor
  · intro hdiscards
    have hcopy := fun (entry : LogEntry) (hentry : entry ∈ receivedEntries inputs) =>
      hdiscards.exists_step (settled_serverInit config disk) hwrites hentry
    constructor
    · intro entry hentry
      rw [isStale_eq_false_iff]
      intro hle
      obtain ⟨step, hstep, hxcopy⟩ := hcopy entry hentry
        (isStale_iff.mpr (hle.trans hmono.start_le))
      obtain ⟨-, hge, hfresh, -⟩ := hmono.step step hstep
      rw [isStale_eq_false_iff, hxcopy.extend_eq] at hfresh
      exact hfresh (hle.trans hge)
    · intro step hstep entry hentry hfresh hcovered
      rw [isStale_eq_false_iff] at hfresh
      rw [isStale_iff] at hcovered
      obtain ⟨hcount, -, -, hle⟩ := hmono.step step hstep
      obtain ⟨other, hother, hxcopy⟩ := hcopy entry hentry (isStale_iff.mpr (hcovered.trans hle))
      obtain ⟨hcount', -, hfresh', -⟩ := hmono.step other hother
      rw [isStale_eq_false_iff, hxcopy.extend_eq] at hfresh'
      rcases hmono.trichotomy hstep hother with rfl | hlater | hearlier
      · exact hxcopy
      · exact absurd (hcovered.trans hlater) hfresh'
      · have hown : entry.vc.extend ≤ (vcMerge other.1 other.2.vc).extend := by
          rw [← hxcopy.extend_eq] at hcovered ⊢
          refine extend_le_extend_vcMerge_of_le ?_ hcovered
          rw [nodeCount_vcMerge, hcount, hcount']
        exact absurd (hown.trans hearlier) hfresh
  · rintro ⟨hinit, hcovers⟩
    have haccounted : Accounted (receivedEntries inputs) (serverInit config disk) := by
      refine ⟨fun _ hnode => absurd hnode List.not_mem_nil, fun _ _ entry hentry hstale => ?_,
        fun _ _ before entry after heq => ?_⟩
      · rw [show (serverInit config disk).committedVc = vcInit VectorClock.zero config.nodeCount
          from rfl, hinit entry hentry] at hstale
        exact absurd hstale (by decide)
      · exact absurd (congrArg List.length heq) (by simp [serverInit])
    exact ((accounted_invariant _).run (fun _ h => h) haccounted
      (settled_serverInit config disk)).1.discards hwrites hcovers

/-- A retransmission is discarded rightly: nothing but copies of it is ever covered. -/
theorem discardsOnlyCopies_retransmission :
    DiscardsOnlyCopies (serverRun (serverInit ⟨2, 1000⟩ reliableDisk)
      [.datagram 100 (some (LogEntry.ofClock [1, 0] (by decide))) 1000 1000,
        .datagram 100 (some (LogEntry.ofClock [1, 0] (by decide))) 1100 1100]).trace :=
  (discardsOnlyCopies_iff ⟨2, 1000⟩ reliableDisk _ (by decide +kernel)).mpr
    ⟨by decide +kernel, by decide +kernel⟩

/-- The overtaken entry is discarded, although nothing like it was written. -/
theorem overtaken_discarded :
    WritesSucceed (serverRun (serverInit ⟨2, 1000⟩ reliableDisk) overtakenInputs).trace ∧
      ¬ DiscardsOnlyCopies (serverRun (serverInit ⟨2, 1000⟩ reliableDisk) overtakenInputs).trace := by
  have htrace : (serverRun (serverInit ⟨2, 1000⟩ reliableDisk) overtakenInputs).trace =
      [.written true (LogEntry.ofClock [2, 0] (by decide)) (vcInit VectorClock.zero 2) true] ++
        .discarded (LogEntry.ofClock [1, 0] (by decide)) :: [] := by
    decide +kernel
  refine ⟨by decide +kernel, fun h => ?_⟩
  obtain ⟨x, hx, hcopy⟩ := h _ _ _ htrace
  revert x
  decide +kernel

end LogAgg
