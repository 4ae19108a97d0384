import LogAgg.Causality.EventOrder
import LogAgg.Server.Basic

/-!
# Causal delivery

The buffer at its purpose: the entries are the events of a distributed computation, each
stamped with the vector that counts its causal past, and they arrive in any order, some
of them never and some of them more than once.

The committed clock is then the tally of a downward-closed set, the set of written
events (`Delivering`).  An entry is stale exactly when its event is in this set
(`isStale_iff_mem`), and it is one step ahead exactly when its event is missing and
nothing before it is (`increments_eq_one_iff`), because the excess of its stamp counts
the missing events of its past.
-/

namespace LogAgg

open Causality EventOrder

/-- An arrival: the event, the entry that reports it, and the clock reading. -/
structure Arrival (E : Type*) where
  event : E
  entry : LogEntry
  time : UInt64

/-- The buffer node of an arrival. -/
def Arrival.node {E : Type*} (a : Arrival E) : LogBufferNode := ⟨a.entry, a.time⟩

/-- Arrivals one after the other: each is inserted, and the buffer flushed. -/
def deliverAll {E : Type*} (server : Server) (arrivals : List (Arrival E)) : Server :=
  arrivals.foldl (fun server a => serverReceive server (some a.entry) a.time) server

/-- What every action preserves, arrivals preserve. -/
theorem Server.Invariant.deliverAll {E : Type*} {P : Server → Prop}
    (hP : Server.Invariant (fun _ => True) P) {server : Server} (h : P server)
    (hsettled : server.Settled) (arrivals : List (Arrival E)) :
    P (LogAgg.deliverAll server arrivals) := by
  induction arrivals generalizing server with
  | nil => exact h
  | cons a arrivals ih =>
    have hflush := hP.flush (hP.insert server a.entry a.time trivial hsettled h)
    exact ih hflush.1 hflush.2

section Delivery

variable {n : ℕ} {E : Type*} [Fintype E] (C : EventOrder (Fin n) E)

/-- The entry carries the stamp of the event. -/
def Carries (e : E) (entry : LogEntry) : Prop :=
  entry.vc.nodeCount = n ∧ ∀ i : Fin n, (entry.vc.slot i).toNat = C.stamp e i

/-- The clock counts the events of a set. -/
def Tallies (committedVc : VectorClock) (W : Finset E) : Prop :=
  committedVc.nodeCount = n ∧ ∀ i : Fin n, (committedVc.slot i).toNat = C.tally W i

variable {C}

/-! ## The two tests -/

/-- An entry is stale exactly when its event was counted. -/
theorem isStale_iff_mem {committedVc : VectorClock} {W : Finset E} (hW : C.IsDown W)
    (hc : Tallies C committedVc W) {e : E} {entry : LogEntry} (he : Carries C e entry) :
    isStale committedVc entry = true ↔ e ∈ W := by
  rw [isStale_iff, extend_le_iff_forall_fin he.1, hW.mem_iff_stamp_le_tally]
  refine forall_congr' fun i => ?_
  rw [VectorClock.extend_of_lt (by rw [he.1]; exact i.isLt),
    VectorClock.extend_of_lt (by rw [hc.1]; exact i.isLt), he.2, hc.2]

/-- An entry is one step ahead exactly when its event was not counted and every event
before it was. -/
theorem increments_eq_one_iff [DecidableEq E] (hcard : Fintype.card E < 2 ^ 31)
    {committedVc : VectorClock} {W : Finset E} (hW : C.IsDown W) (hc : Tallies C committedVc W)
    {e : E} {entry : LogEntry} (he : Carries C e entry) :
    increments committedVc entry = 1 ↔ e ∉ W ∧ ∀ d, C.before d e → d ∈ W := by
  have hsum : ∑ i ∈ Finset.range committedVc.nodeCount,
      ((entry.vc.slot i).toNat - (committedVc.slot i).toNat) = (C.past e \ W).card := by
    rw [hc.1, Finset.sum_range, ← hW.sum_stamp_sub_tally e]
    exact Finset.sum_congr rfl fun i _ => by rw [he.2, hc.2]
  have hle : (C.past e \ W).card ≤ Fintype.card E := Finset.card_le_univ _
  rw [increments_eq, hsum, ← hW.card_past_sdiff_eq_one_iff, Int.bmod_def]
  split <;> omega

/-- Merging the stamp of a ready event counts it. -/
theorem Tallies.vcMerge [DecidableEq E] {committedVc : VectorClock} {W : Finset E}
    (hW : C.IsDown W) (hc : Tallies C committedVc W) {e : E} {entry : LogEntry}
    (he : Carries C e entry) (hnot : e ∉ W) (hpred : ∀ d, C.before d e → d ∈ W) :
    Tallies C (vcMerge committedVc entry.vc) (insert e W) := by
  refine ⟨by rw [nodeCount_vcMerge, hc.1], fun i => ?_⟩
  have hmax := hW.max_tally_stamp hnot hpred i
  have hi := i.isLt
  have hle := committedVc.nodeCount_le
  have hn := hc.1
  rw [slot_vcMerge _ _ (by omega), hc.1, he.1, min_self, ← hmax, ← hc.2 i, ← he.2 i]
  by_cases hlt : committedVc.slot i < entry.vc.slot i
  · rw [if_pos ⟨hi, hlt⟩]
    rw [UInt64.lt_iff_toNat_lt] at hlt
    omega
  · rw [if_neg fun h => hlt h.2]
    rw [UInt64.lt_iff_toNat_lt] at hlt
    omega

/-! ## The invariant -/

variable (C) [DecidableEq E]

/-- The state of the server after some arrivals: `order` are the arrivals that were
written, `waiting` those in the buffer. -/
structure Delivering (arrivals order waiting : List (Arrival E)) (server : Server) : Prop where
  tallies : Tallies C server.committedVc (order.map (·.event)).toFinset
  down : C.IsDown (order.map (·.event)).toFinset
  nodup : (order.map (·.event)).Nodup
  linear : (order.map (·.event)).Pairwise fun d e => ¬ C.before e d
  committed : committedEntries server.trace = order.map (·.entry)
  order_sub : ∀ a ∈ order, a ∈ arrivals
  buffer_eq : server.buffer = waiting.map Arrival.node
  waiting_sub : ∀ a ∈ waiting, a ∈ arrivals
  complete : (waiting.filter fun a => a.event ∉ order.map (·.event)).Perm
    (arrivals.filter fun a => a.event ∉ order.map (·.event))

variable {C}

omit [Fintype E] [DecidableEq E] in
/-- Inserting a node is inserting its arrival somewhere. -/
theorem exists_insertNode_map (a : Arrival E) (waiting : List (Arrival E)) :
    ∃ waiting' : List (Arrival E), insertNode a.node (waiting.map Arrival.node) = waiting'.map Arrival.node ∧
      waiting'.Perm (a :: waiting) := by
  induction waiting with
  | nil => exact ⟨[a], rfl, List.Perm.refl _⟩
  | cons b waiting ih =>
    obtain ⟨waiting', hins, hperm⟩ := ih
    rw [List.map_cons, insertNode]
    split
    · exact ⟨a :: b :: waiting, rfl, List.Perm.refl _⟩
    · exact ⟨b :: waiting', by rw [hins, List.map_cons], (hperm.cons b).trans (List.Perm.swap a b _)⟩

omit [Fintype E] in
/-- An arrival waits before it is looked at. -/
theorem Delivering.arrive {arrivals order waiting : List (Arrival E)} {server : Server}
    (h : Delivering C arrivals order waiting server) (a : Arrival E) :
    ∃ waiting' : List (Arrival E), Delivering C (arrivals ++ [a]) order waiting'
      (serverInsertToBuffer server a.entry a.time) := by
  obtain ⟨waiting', hins, hperm⟩ := exists_insertNode_map a waiting
  refine ⟨waiting', h.tallies, h.down, h.nodup, h.linear, h.committed,
    fun b hb => List.mem_append_left _ (h.order_sub b hb), ?_, fun b hb => ?_, ?_⟩
  · show insertNode a.node server.buffer = _
    rw [h.buffer_eq, hins]
  · rcases List.mem_cons.mp (hperm.mem_iff.mp hb) with rfl | hb
    · exact List.mem_append_right _ (List.mem_singleton_self _)
    · exact List.mem_append_left _ (h.waiting_sub b hb)
  · refine (hperm.filter _).trans ?_
    rw [← List.singleton_append, List.filter_append, List.filter_append]
    exact (h.complete.append_left _).trans List.perm_append_comm

omit [Fintype E] [DecidableEq E] in
/-- A node of the buffer is that of a waiting arrival. -/
theorem exists_waiting_split {waiting : List (Arrival E)} {before after : List LogBufferNode}
    {node : LogBufferNode} (h : before ++ node :: after = waiting.map Arrival.node) :
    ∃ (first last : List (Arrival E)) (a : Arrival E), waiting = first ++ a :: last ∧
      node = a.node ∧ before ++ after = (first ++ last).map Arrival.node := by
  obtain ⟨first, tail, rfl, rfl, htail⟩ := List.map_eq_append_iff.mp h.symm
  obtain ⟨a, last, rfl, rfl, rfl⟩ := List.map_eq_cons_iff.mp htail
  exact ⟨first, last, a, rfl, rfl, (List.map_append ..).symm⟩

/-- Discarding a stale entry drops an arrival whose event was written. -/
theorem Delivering.discard {arrivals order waiting : List (Arrival E)} {server : Server}
    (h : Delivering C arrivals order waiting server)
    (hstamps : ∀ a ∈ arrivals, Carries C a.event a.entry) {before after : List LogBufferNode}
    {node : LogBufferNode} (hbuffer : server.buffer = before ++ node :: after)
    (hstale : isStale server.committedVc node.entry = true) :
    ∃ waiting' : List (Arrival E),
      Delivering C arrivals order waiting' (server.discard node (before ++ after)) := by
  rw [h.buffer_eq] at hbuffer
  obtain ⟨first, last, a, rfl, rfl, hrest⟩ := exists_waiting_split hbuffer.symm
  have ha : a ∈ first ++ a :: last := List.mem_append_right _ List.mem_cons_self
  have hsub : ∀ b ∈ first ++ last, b ∈ first ++ a :: last := fun b hb => mem_of_mem_taken hb
  have hmem : a.event ∈ order.map (·.event) := List.mem_toFinset.mp
    ((isStale_iff_mem h.down h.tallies (hstamps a (h.waiting_sub a ha))).mp hstale)
  refine ⟨first ++ last, h.tallies, h.down, h.nodup, h.linear, ?_, h.order_sub, hrest,
    fun b hb => h.waiting_sub b (hsub b hb), ?_⟩
  · rw [trace_discard, committedEntries_append_discarded]
    exact h.committed
  · have hcomplete := h.complete
    rw [List.filter_append, List.filter_cons_of_neg (by simpa using hmem),
      ← List.filter_append] at hcomplete
    exact hcomplete

/-- Releasing an entry that is one step ahead writes a ready event. -/
theorem Delivering.release (hcard : Fintype.card E < 2 ^ 31)
    {arrivals order waiting : List (Arrival E)} {server : Server}
    (h : Delivering C arrivals order waiting server)
    (hstamps : ∀ a ∈ arrivals, Carries C a.event a.entry) {before after : List LogBufferNode}
    {node : LogBufferNode} (hbuffer : server.buffer = before ++ node :: after)
    (hone : increments server.committedVc node.entry = 1) :
    ∃ order' waiting' : List (Arrival E),
      Delivering C arrivals order' waiting' (server.commit false node (before ++ after)) := by
  rw [h.buffer_eq] at hbuffer
  obtain ⟨first, last, a, rfl, rfl, hrest⟩ := exists_waiting_split hbuffer.symm
  have ha : a ∈ first ++ a :: last := List.mem_append_right _ List.mem_cons_self
  have hsub : ∀ b ∈ first ++ last, b ∈ first ++ a :: last := fun b hb => mem_of_mem_taken hb
  have hcarries := hstamps a (h.waiting_sub a ha)
  obtain ⟨hnot, hpred⟩ := (increments_eq_one_iff hcard h.down h.tallies hcarries).mp hone
  have hnew : (order ++ [a]).map (·.event) = order.map (·.event) ++ [a.event] := List.map_append ..
  have hset : ((order ++ [a]).map (·.event)).toFinset =
      insert a.event (order.map (·.event)).toFinset := by
    rw [hnew, List.toFinset_append, Finset.union_comm]
    rfl
  have hnotmem : a.event ∉ order.map (·.event) := fun hmem => hnot (List.mem_toFinset.mpr hmem)
  have hfilter : ∀ l : List (Arrival E),
      (l.filter fun b => b.event ∉ (order ++ [a]).map (·.event)) =
        (l.filter fun b => b.event ∉ order.map (·.event)).filter fun b => b.event ≠ a.event := by
    intro l
    rw [List.filter_filter]
    refine List.filter_congr fun b _ => ?_
    simp only [hnew, List.mem_append, List.mem_singleton, not_or, Bool.decide_and]
    exact Bool.and_comm _ _
  refine ⟨order ++ [a], first ++ last, ?_, ?_, ?_, ?_, ?_, fun b hb => ?_, hrest,
    fun b hb => h.waiting_sub b (hsub b hb), ?_⟩
  · rw [hset, committedVc_commit]
    exact h.tallies.vcMerge h.down hcarries hnot hpred
  · rw [hset]
    exact h.down.insert_of_ready hpred
  · rw [hnew]
    exact h.nodup.append (List.nodup_singleton _) (List.disjoint_singleton.mpr hnotmem)
  · rw [hnew, List.pairwise_append]
    refine ⟨h.linear, List.pairwise_singleton _ _, fun d hd e he hbefore => ?_⟩
    rw [List.mem_singleton] at he
    subst he
    exact hnot (h.down d (List.mem_toFinset.mpr hd) _ hbefore)
  · rw [trace_commit, committedEntries_append_written, h.committed, List.map_append]
    rfl
  · rcases List.mem_append.mp hb with hb | hb
    · exact h.order_sub b hb
    · rw [List.mem_singleton.mp hb]
      exact h.waiting_sub a ha
  · have hcomplete := h.complete.filter fun b => b.event ≠ a.event
    rw [← hfilter, ← hfilter, List.filter_append, List.filter_cons_of_neg (by simp [hnew]),
      ← List.filter_append] at hcomplete
    exact hcomplete

/-- **One arrival.** -/
theorem Delivering.receive (hcard : Fintype.card E < 2 ^ 31)
    {arrivals order waiting : List (Arrival E)} {server : Server}
    (h : Delivering C arrivals order waiting server) (a : Arrival E)
    (hstamps : ∀ b ∈ arrivals ++ [a], Carries C b.event b.entry) :
    (∃ order' waiting' : List (Arrival E), Delivering C (arrivals ++ [a]) order' waiting'
      (serverReceive server (some a.entry) a.time)) ∧
    (serverReceive server (some a.entry) a.time).Settled := by
  obtain ⟨waiting', hins⟩ := h.arrive a
  exact serverFlushCausalBuffer_rule
    (P := fun s => ∃ order waiting : List (Arrival E), Delivering C (arrivals ++ [a]) order waiting s)
    (fun s before after node hbuffer hstale ⟨order, _, hs⟩ =>
      ⟨order, hs.discard hstamps hbuffer hstale⟩)
    (fun s before after node hbuffer _ hone ⟨_, _, hs⟩ => hs.release hcard hstamps hbuffer hone)
    ⟨order, waiting', hins⟩

/-- **Any arrivals.** -/
theorem exists_delivering (hcard : Fintype.card E < 2 ^ 31) (hpos : 1 ≤ n) (hle : n ≤ vcMaxNodes)
    (config : ServerConfig) (hconfig : config.nodeCount = n) (disk : ℕ → DiskOutcome)
    (arrivals : List (Arrival E)) (hstamps : ∀ a ∈ arrivals, Carries C a.event a.entry) :
    (∃ order waiting : List (Arrival E),
      Delivering C arrivals order waiting (deliverAll (serverInit config disk) arrivals)) ∧
    (deliverAll (serverInit config disk) arrivals).Settled := by
  induction arrivals using List.reverseRecOn with
  | nil =>
    refine ⟨⟨[], [], ⟨?_, fun i => ?_⟩, ?_, List.nodup_nil, List.Pairwise.nil, rfl, ?_, rfl, ?_,
      List.Perm.refl _⟩, settled_serverInit config disk⟩
    · show (vcInit VectorClock.zero config.nodeCount).nodeCount = n
      rw [hconfig, nodeCount_vcInit _ hpos hle]
    · show ((vcInit VectorClock.zero config.nodeCount).slot i).toNat = _
      rw [hconfig, slot_vcInit _ hpos hle i.isLt]
      rfl
    · exact fun e he => absurd he (Finset.notMem_empty e)
    · exact fun a ha => absurd ha List.not_mem_nil
    · exact fun a ha => absurd ha List.not_mem_nil
  | append_singleton arrivals a ih =>
    obtain ⟨⟨order, waiting, h⟩, -⟩ := ih fun b hb => hstamps b (List.mem_append_left _ hb)
    rw [deliverAll, List.foldl_append]
    exact h.receive hcard a hstamps

/-- What waits in a settled server is not written, and neither are all its predecessors. -/
theorem Delivering.not_mem_of_settled (hcard : Fintype.card E < 2 ^ 31)
    {arrivals order waiting : List (Arrival E)} {server : Server}
    (h : Delivering C arrivals order waiting server) (hsettled : server.Settled)
    (hstamps : ∀ a ∈ arrivals, Carries C a.event a.entry) {a : Arrival E} (ha : a ∈ waiting) :
    a.event ∉ order.map (·.event) ∧
      ¬ ∀ d, C.before d a.event → d ∈ (order.map (·.event)).toFinset := by
  have hheld := hsettled a.node (by rw [h.buffer_eq]; exact List.mem_map_of_mem ha)
  have hcarries := hstamps a (h.waiting_sub a ha)
  have hnot : a.event ∉ (order.map (·.event)).toFinset := by
    rw [← isStale_iff_mem h.down h.tallies hcarries, Bool.not_eq_true]
    exact hheld.1
  exact ⟨fun hmem => hnot (List.mem_toFinset.mpr hmem), fun hpred =>
    hheld.2 ((increments_eq_one_iff hcard h.down h.tallies hcarries).mpr ⟨hnot, hpred⟩)⟩

omit [Fintype E] in
/-- The committed clock counts the written events of each node. -/
theorem Delivering.slot_committedVc {arrivals order waiting : List (Arrival E)} {server : Server}
    (h : Delivering C arrivals order waiting server) (i : Fin n) :
    (server.committedVc.slot i).toNat =
      (order.filter fun a => C.proc a.event = i).length := by
  have hcount : (order.map (·.event)).toFinset.filter (fun d => C.proc d = i) =
      ((order.map (·.event)).filter fun d => C.proc d = i).toFinset := by
    ext d
    simp only [Finset.mem_filter, List.mem_toFinset, List.mem_filter, decide_eq_true_eq]
  rw [h.tallies.2 i, tally, hcount, List.toFinset_card_of_nodup (h.nodup.filter _),
    List.filter_map, List.length_map]
  rfl

/-- **Causal delivery is exact.**  However the events arrive, after the arrivals in
`arrivals` the file holds the lines of `order`, which

* names no event twice, and names exactly the events that arrived together with every
  event before them,
* never names an event before one of its causal predecessors,

while the committed clock counts the written events of each node, and the buffer holds
exactly the arrivals of the events that are not written. -/
theorem causal_delivery (hcard : Fintype.card E < 2 ^ 31) (hpos : 1 ≤ n) (hle : n ≤ vcMaxNodes)
    (config : ServerConfig) (hconfig : config.nodeCount = n) (disk : ℕ → DiskOutcome)
    (arrivals : List (Arrival E)) (hstamps : ∀ a ∈ arrivals, Carries C a.event a.entry)
    (hwrites : WritesSucceed (deliverAll (serverInit config disk) arrivals).trace) :
    let server := deliverAll (serverInit config disk) arrivals
    ∃ order : List (Arrival E),
      writtenEntries server.trace = order.map (·.entry) ∧
      server.file = order.flatMap (fun a => entryLine a.entry) ∧
      (∀ a ∈ order, a ∈ arrivals) ∧
      (order.map (·.event)).Nodup ∧
      (∀ e, e ∈ order.map (·.event) ↔ e ∈ arrivals.map (·.event) ∧
        ∀ d, C.before d e → d ∈ arrivals.map (·.event)) ∧
      (order.map (·.event)).Pairwise (fun d e => ¬ C.before e d) ∧
      (server.committedVc.nodeCount = n ∧ ∀ i : Fin n, (server.committedVc.slot i).toNat =
        (order.filter fun a => C.proc a.event = i).length) ∧
      server.buffer.Perm
        ((arrivals.filter fun a => a.event ∉ order.map (·.event)).map Arrival.node) := by
  intro server
  obtain ⟨⟨order, waiting, h⟩, hsettled⟩ :=
    exists_delivering hcard hpos hle config hconfig disk arrivals hstamps
  have hwritten : writtenEntries server.trace = order.map (·.entry) := by
    rw [writtenEntries_eq hwrites]
    exact h.committed
  have hfile : server.file = (writtenEntries server.trace).flatMap entryLine := by
    obtain ⟨lines, hwrote, hentries⟩ := fileMatches_invariant.deliverAll
      (fun _ => ⟨[], wrote_serverInit config disk, rfl⟩) (settled_serverInit config disk) arrivals
      hwrites
    rw [hwrote.file, hentries]
  -- nothing that waits is stale, so all of it is missing from the file
  have hwaiting : ∀ a ∈ waiting, a.event ∉ order.map (·.event) ∧
      ¬ ∀ d, C.before d a.event → d ∈ (order.map (·.event)).toFinset :=
    fun a ha => h.not_mem_of_settled hcard hsettled hstamps ha
  have hperm : waiting.Perm (arrivals.filter fun a => a.event ∉ order.map (·.event)) := by
    have hcomplete := h.complete
    rwa [List.filter_eq_self.mpr fun a ha => by simpa using (hwaiting a ha).1] at hcomplete
  refine ⟨order, hwritten, ?_, h.order_sub, h.nodup, fun e => ?_, h.linear,
    ⟨h.tallies.1, h.slot_committedVc⟩, ?_⟩
  · rw [hfile, hwritten, List.flatMap_map]
  · rw [← List.mem_toFinset]
    refine h.down.mem_iff_of_saturated (S := {e | e ∈ arrivals.map (·.event)}) (fun d hd => ?_)
      (fun d hd hpred => ?_) e
    · obtain ⟨a, ha, rfl⟩ := List.mem_map.mp (List.mem_toFinset.mp hd)
      exact List.mem_map_of_mem (h.order_sub a ha)
    · obtain ⟨a, ha, rfl⟩ := List.mem_map.mp hd
      by_contra hnot
      have hmem : a ∈ waiting := hperm.mem_iff.mpr (List.mem_filter.mpr
        ⟨ha, by simpa using fun b hb heq => hnot (List.mem_toFinset.mpr
          (List.mem_map.mpr ⟨b, hb, heq⟩))⟩)
      exact (hwaiting a hmem).2 hpred
  · rw [h.buffer_eq]
    exact hperm.map _

end Delivery

/-! ## Two nodes and a message -/

/-- Node 0 sends in event 0, node 1 receives in event 1. -/
def sendReceive : EventOrder (Fin 2) (Fin 2) where
  proc e := e
  before d e := d < e
  irrefl e := lt_irrefl e
  trans hde hef := lt_trans hde hef
  total h := Or.inl h

/-- The receive event arrives first, and twice. -/
def reorderedArrivals : List (Arrival (Fin 2)) :=
  [⟨1, LogEntry.ofClock [1, 1] two_le_vcMaxNodes, 10⟩,
    ⟨0, LogEntry.ofClock [1, 0] two_le_vcMaxNodes, 20⟩,
    ⟨1, LogEntry.ofClock [1, 1] two_le_vcMaxNodes, 30⟩]

theorem stamp_sendReceive (e i : Fin 2) : sendReceive.stamp e i = if i ≤ e then 1 else 0 := by
  have hpast : (sendReceive.past e).filter (fun d => sendReceive.proc d = i) =
      if i ≤ e then {i} else ∅ := by
    ext d
    rw [Finset.mem_filter, EventOrder.mem_past]
    show (d = e ∨ d < e) ∧ d = i ↔ _
    rw [← le_iff_eq_or_lt]
    by_cases hi : i ≤ e
    · rw [if_pos hi, Finset.mem_singleton]
      exact ⟨fun h => h.2, fun h => ⟨h.symm ▸ hi, h⟩⟩
    · rw [if_neg hi]
      exact ⟨fun h => absurd (h.2 ▸ h.1) hi, fun h => absurd h (Finset.notMem_empty d)⟩
  rw [EventOrder.stamp, EventOrder.tally, hpast]
  split <;> rfl

theorem causal_delivery_reordered :
    let server := deliverAll (serverInit ⟨2, 1000⟩ reliableDisk) reorderedArrivals
    (writtenEntries server.trace).length = 2 ∧
      ∃ order : List (Arrival (Fin 2)), writtenEntries server.trace = order.map (·.entry) ∧
        (order.map (·.event)).Nodup ∧ 0 ∈ order.map (·.event) ∧ 1 ∈ order.map (·.event) ∧
        (order.map (·.event)).Pairwise (fun d e => ¬ e < d) := by
  intro server
  have hstamps : ∀ a ∈ reorderedArrivals, Carries sendReceive a.event a.entry := by
    have hslots : ∀ a ∈ reorderedArrivals, a.entry.vc.nodeCount = 2 ∧
        ∀ i : Fin 2, (a.entry.vc.slot i).toNat = if i ≤ a.event then 1 else 0 := by
      decide +kernel
    intro a ha
    refine ⟨(hslots a ha).1, fun i => ?_⟩
    rw [stamp_sendReceive]
    exact (hslots a ha).2 i
  obtain ⟨order, hwritten, -, -, hnodup, hmem, hlinear, -, -⟩ :=
    causal_delivery (C := sendReceive) (by decide) (by decide) (by decide) ⟨2, 1000⟩ rfl reliableDisk
      reorderedArrivals hstamps (by decide +kernel)
  have hall : ∀ d : Fin 2, d ∈ reorderedArrivals.map (·.event) := by decide
  exact ⟨by decide +kernel, order, hwritten, hnodup, (hmem 0).mpr ⟨hall 0, fun d _ => hall d⟩,
    (hmem 1).mpr ⟨hall 1, fun d _ => hall d⟩, hlinear⟩

end LogAgg
