import LogAgg.Server.Attempts
import LogAgg.Server.Delivery

/-!
# Runs in which nothing is forced

As long as the timeout forces nothing out, a check changes nothing, and a run of the loop is a
sequence of arrivals.  Its entries are delivered in causal order then
(`exists_delivering_serverRun`).

Nothing is forced if no turn reads a clock by which an earlier arrival is late
(`noneLate_serverRun`).
-/

namespace LogAgg

open Causality EventOrder

/-- The event is no forced write. -/
def ServerEvent.unforced : ServerEvent → Bool
  | .written forced _ _ _ => !forced
  | .discarded _ => true

/-- The timeout has forced nothing out. -/
def NothingForced (trace : List ServerEvent) : Prop := ∀ event ∈ trace, event.unforced = true

instance (trace : List ServerEvent) : Decidable (NothingForced trace) :=
  inferInstanceAs (Decidable (∀ event ∈ trace, event.unforced = true))

theorem NothingForced.of_prefix {trace trace' : List ServerEvent} (h : NothingForced trace')
    (hpre : trace <+: trace') : NothingForced trace :=
  fun event hevent => h event (hpre.subset hevent)

theorem NothingForced.concat {trace : List ServerEvent} {event : ServerEvent}
    (h : NothingForced trace) (hevent : event.unforced = true) :
    NothingForced (trace ++ [event]) := by
  intro event' hmem
  rcases List.mem_append.mp hmem with hold | hnew
  · exact h event' hold
  · rw [List.mem_singleton.mp hnew]
    exact hevent

/-! ## The trace grows -/

theorem removals_prefix_trace (trace : List ServerEvent) :
    Server.Removals fun server => trace <+: server.trace where
  discard server _ _ _ _ _ h := by
    rw [trace_discard]
    exact h.trans (List.prefix_append _ _)
  commit server _ _ _ _ _ _ h := by
    rw [trace_commit]
    exact h.trans (List.prefix_append _ _)

/-- A turn only adds to the trace. -/
theorem prefix_trace_serverStep {server : Server} (hsettled : server.Settled)
    (input : ServerInput) : server.trace <+: (serverStep server input).trace := by
  have hgrows := removals_prefix_trace server.trace
  cases input with
  | poll now => exact (hgrows.timeout now (List.prefix_refl _) hsettled).1
  | datagram len parsed arrivalTime now =>
    cases parsed with
    | none =>
      have herror : server.trace <+: (server.countReceived len).countError.trace :=
        List.prefix_refl _
      exact (hgrows.timeout now herror hsettled).1
    | some entry =>
      have hinsert : server.trace <+:
          (serverInsertToBuffer (server.countReceived len) entry arrivalTime).trace :=
        List.prefix_refl _
      have hflush := hgrows.flush hinsert
      exact (hgrows.timeout now hflush.1 hflush.2).1

/-- **A check that forces nothing changes nothing.** -/
theorem serverCheckTimeoutFlush_of_nothingForced {now : UInt64} {server : Server}
    (h : NothingForced (serverCheckTimeoutFlush now server).trace) :
    serverCheckTimeoutFlush now server = server := by
  rw [serverCheckTimeoutFlush] at h ⊢
  split at h
  · rfl
  · rename_i node rest hbuffer
    split at h
    · -- the forced write stays in the trace
      have hgrows := removals_prefix_trace (server.commit true node rest).trace
      have hflush := hgrows.flush (List.prefix_refl (server.commit true node rest).trace)
      have hforced := h.of_prefix (hgrows.timeout now hflush.1 hflush.2).1
      rw [trace_commit] at hforced
      exact Bool.noConfusion (hforced _ (List.mem_append_right _ (List.mem_singleton_self _)))
    · rename_i hlate
      rw [if_neg hlate]

theorem serverRun_concat (server : Server) (inputs : List ServerInput) (input : ServerInput) :
    serverRun server (inputs ++ [input]) = serverStep (serverRun server inputs) input := by
  rw [serverRun, List.foldl_append, List.foldl_cons, List.foldl_nil, serverRun]

/-! ## When nothing is forced -/

/-- The clock reading of the arrival in a turn. -/
def ServerInput.arrivalTime? : ServerInput → Option UInt64
  | .datagram _ _ arrivalTime _ => some arrivalTime
  | .poll _ => none

/-- No turn reads a clock by which an arrival in it or before it is late. -/
def InTime (timeoutMs : UInt64) (inputs : List ServerInput) : Prop :=
  (∀ x ∈ inputs, ∀ arrivalTime ∈ x.arrivalTime?, x.now - arrivalTime ≤ timeoutMs) ∧
    inputs.Pairwise fun x y => ∀ arrivalTime ∈ x.arrivalTime?, y.now - arrivalTime ≤ timeoutMs

theorem InTime.of_append {timeoutMs : UInt64} {inputs inputs' : List ServerInput}
    (h : InTime timeoutMs (inputs ++ inputs')) : InTime timeoutMs inputs :=
  ⟨fun x hx => h.1 x (List.mem_append_left _ hx), (List.pairwise_append.mp h.2).1⟩

/-- What the buffer holds has arrived in one of the turns, and nothing was forced out. -/
structure NoneLate (config : ServerConfig) (inputs : List ServerInput) (server : Server) :
    Prop where
  config_eq : server.config = config
  arrived : ∀ node ∈ server.buffer, ∃ x ∈ inputs, node.arrivalTime ∈ x.arrivalTime?
  unforced : NothingForced server.trace

theorem NoneLate.flush {config : ServerConfig} {inputs : List ServerInput} {server : Server}
    (h : NoneLate config inputs server) :
    NoneLate config inputs (serverFlushCausalBuffer server) := by
  refine (serverFlushCausalBuffer_rule ?_ ?_ h).1
  · intro s before after node hbuffer _ hs
    refine ⟨hs.config_eq, forall_mem_taken hs.arrived hbuffer, ?_⟩
    rw [trace_discard]
    exact hs.unforced.concat rfl
  · intro s before after node hbuffer _ _ hs
    refine ⟨(config_commit s false node _).trans hs.config_eq,
      forall_mem_taken hs.arrived hbuffer, ?_⟩
    rw [trace_commit]
    exact hs.unforced.concat rfl

/-- A check at which nothing is late changes nothing. -/
theorem serverCheckTimeoutFlush_of_not_late {now : UInt64} {server : Server}
    (h : ∀ node ∈ server.buffer, now - node.arrivalTime ≤ server.config.timeoutMs) :
    serverCheckTimeoutFlush now server = server := by
  rw [serverCheckTimeoutFlush]
  split
  · rfl
  · rename_i node rest hbuffer
    have hnode := h node (by rw [hbuffer]; exact List.mem_cons_self)
    rw [if_neg (UInt64.not_lt.mpr hnode)]

/-- **Readings that are in time force nothing out.** -/
theorem noneLate_serverRun (config : ServerConfig) (disk : ℕ → DiskOutcome)
    {inputs : List ServerInput} (h : InTime config.timeoutMs inputs) :
    NoneLate config inputs (serverRun (serverInit config disk) inputs) := by
  induction inputs using List.reverseRecOn with
  | nil => exact ⟨rfl, fun _ hnode => absurd hnode List.not_mem_nil,
      fun _ hevent => absurd hevent List.not_mem_nil⟩
  | append_singleton inputs input ih =>
    obtain ⟨hconfig, harrived, hunforced⟩ := ih h.of_append
    rw [serverRun_concat, serverStep_eq]
    generalize serverRun (serverInit config disk) inputs = server at hconfig harrived hunforced
    have hbefore : NoneLate config (inputs ++ [input]) (serverBeforeCheck server input) := by
      have hold : ∀ node ∈ server.buffer, ∃ x ∈ inputs ++ [input],
          node.arrivalTime ∈ x.arrivalTime? := by
        intro node hnode
        obtain ⟨x, hx, hmem⟩ := harrived node hnode
        exact ⟨x, List.mem_append_left _ hx, hmem⟩
      cases input with
      | poll now => exact ⟨hconfig, hold, hunforced⟩
      | datagram len parsed arrivalTime now =>
        cases parsed with
        | none => exact ⟨hconfig, hold, hunforced⟩
        | some entry =>
          have hnew : ∃ x ∈ inputs ++ [.datagram len (some entry) arrivalTime now],
              (LogBufferNode.mk entry arrivalTime).arrivalTime ∈ x.arrivalTime? :=
            ⟨_, List.mem_append_right _ (List.mem_singleton_self _), rfl⟩
          have hinsert : NoneLate config (inputs ++ [.datagram len (some entry) arrivalTime now])
              (serverInsertToBuffer (server.countReceived len) entry arrivalTime) :=
            ⟨hconfig, forall_mem_serverInsertToBuffer (fun node hnode => hold node hnode) hnew,
              hunforced⟩
          exact hinsert.flush
    rw [serverCheckTimeoutFlush_of_not_late fun node hnode => ?_]
    · exact hbefore
    · obtain ⟨x, hx, hmem⟩ := hbefore.arrived node hnode
      rw [hbefore.config_eq]
      rcases List.mem_append.mp hx with hx | hx
      · exact (List.pairwise_append.mp h.2).2.2 x hx input (List.mem_singleton_self input) _ hmem
      · rw [List.mem_singleton.mp hx] at hmem
        exact h.1 input (List.mem_append_right _ (List.mem_singleton_self input)) _ hmem

/-! ## Causal delivery -/

section Delivery

variable {n : ℕ} {E : Type*} [Fintype E] {C : EventOrder (Fin n) E}

omit [Fintype E] in
theorem delivering_serverInit [DecidableEq E] (hpos : 1 ≤ n) (hle : n ≤ vcMaxNodes)
    {config : ServerConfig} (hconfig : config.nodeCount = n) (disk : ℕ → DiskOutcome) :
    Delivering C [] [] [] (serverInit config disk) where
  tallies := by
    refine ⟨?_, fun i => ?_⟩
    · show (vcInit VectorClock.zero config.nodeCount).nodeCount = n
      rw [hconfig, nodeCount_vcInit _ hpos hle]
    · show ((vcInit VectorClock.zero config.nodeCount).slot i).toNat = _
      rw [hconfig, slot_vcInit _ hpos hle i.isLt]
      rfl
  down := fun _ he => absurd he (Finset.notMem_empty _)
  nodup := List.nodup_nil
  linear := List.Pairwise.nil
  committed := rfl
  order_sub := fun _ ha => absurd ha List.not_mem_nil
  buffer_eq := rfl
  waiting_sub := fun _ ha => absurd ha List.not_mem_nil
  complete := List.Perm.refl _

omit [Fintype E] in
/-- The counters play no part. -/
theorem Delivering.with_stats [DecidableEq E] {arrivals order waiting : List (Arrival E)}
    {server : Server} (h : Delivering C arrivals order waiting server) (stats : ServerStats) :
    Delivering C arrivals order waiting { server with stats } :=
  ⟨h.tallies, h.down, h.nodup, h.linear, h.committed, h.order_sub, h.buffer_eq, h.waiting_sub,
    h.complete⟩

omit [Fintype E] in
/-- An arrival whose event is not written waits. -/
theorem Delivering.mem_waiting [DecidableEq E] {arrivals order waiting : List (Arrival E)}
    {server : Server} (h : Delivering C arrivals order waiting server) {a : Arrival E}
    (ha : a ∈ arrivals) (hnot : a.event ∉ order.map (·.event)) : a ∈ waiting :=
  (List.mem_filter.mp (h.complete.mem_iff.mpr
    (List.mem_filter.mpr ⟨ha, decide_eq_true hnot⟩))).1

/-- **What is written** in a settled server are the events that arrived with all their
predecessors. -/
theorem Delivering.mem_order_iff [DecidableEq E] (hcard : Fintype.card E < 2 ^ 31)
    {arrivals order waiting : List (Arrival E)} {server : Server}
    (h : Delivering C arrivals order waiting server) (hsettled : server.Settled)
    (hstamps : ∀ a ∈ arrivals, Carries C a.event a.entry) (e : E) :
    e ∈ order.map (·.event) ↔ e ∈ arrivals.map (·.event) ∧
      ∀ d, C.before d e → d ∈ arrivals.map (·.event) := by
  rw [← List.mem_toFinset]
  refine h.down.mem_iff_of_saturated (S := {e | e ∈ arrivals.map (·.event)}) (fun d hd => ?_)
    (fun d hd hpred => ?_) e
  · obtain ⟨a, ha, rfl⟩ := List.mem_map.mp (List.mem_toFinset.mp hd)
    exact List.mem_map_of_mem (h.order_sub a ha)
  · obtain ⟨a, ha, rfl⟩ := List.mem_map.mp hd
    by_contra hnot
    rw [List.mem_toFinset] at hnot
    exact (h.not_mem_of_settled hcard hsettled hstamps (h.mem_waiting ha hnot)).2 hpred

/-- **A run without forced writes is a delivery** of the entries that it receives. -/
theorem exists_delivering_serverRun [DecidableEq E] (hcard : Fintype.card E < 2 ^ 31)
    (hpos : 1 ≤ n) (hle : n ≤ vcMaxNodes) {config : ServerConfig} (hconfig : config.nodeCount = n)
    (disk : ℕ → DiskOutcome) {inputs : List ServerInput}
    (hevents : ∀ entry ∈ receivedEntries inputs, ∃ e, Carries C e entry)
    (hunforced : NothingForced (serverRun (serverInit config disk) inputs).trace) :
    ∃ arrivals order waiting : List (Arrival E),
      arrivals.map (·.entry) = receivedEntries inputs ∧
      (∀ a ∈ arrivals, Carries C a.event a.entry) ∧
      Delivering C arrivals order waiting (serverRun (serverInit config disk) inputs) := by
  induction inputs using List.reverseRecOn with
  | nil => exact ⟨[], [], [], rfl, fun _ ha => absurd ha List.not_mem_nil,
      delivering_serverInit hpos hle hconfig disk⟩
  | append_singleton inputs input ih =>
    have hreceived : receivedEntries (inputs ++ [input]) =
        receivedEntries inputs ++ receivedEntries [input] := by
      rw [receivedEntries, List.filterMap_append]
      rfl
    rw [serverRun_concat] at hunforced ⊢
    rw [hreceived] at hevents ⊢
    have hsettled : (serverRun (serverInit config disk) inputs).Settled :=
      (settled_serverInit config disk).run inputs
    obtain ⟨arrivals, order, waiting, hmap, hstamps, h⟩ := ih
      (fun entry hentry => hevents entry (List.mem_append_left _ hentry))
      (hunforced.of_prefix (prefix_trace_serverStep hsettled input))
    generalize serverRun (serverInit config disk) inputs = server at h hunforced
    cases input with
    | poll now =>
      refine ⟨arrivals, order, waiting, hmap.trans (List.append_nil _).symm, hstamps, ?_⟩
      rwa [serverStep, serverCheckTimeoutFlush_of_nothingForced hunforced]
    | datagram len parsed arrivalTime now =>
      rw [serverStep] at hunforced ⊢
      rw [serverCheckTimeoutFlush_of_nothingForced hunforced]
      cases parsed with
      | none =>
        refine ⟨arrivals, order, waiting, hmap.trans (List.append_nil _).symm, hstamps, ?_⟩
        exact (h.with_stats _).with_stats _
      | some entry =>
        obtain ⟨e, he⟩ := hevents entry (List.mem_append_right _ (List.mem_singleton_self entry))
        have hnew : ∀ a ∈ arrivals ++ [⟨e, entry, arrivalTime⟩], Carries C a.event a.entry := by
          intro a ha
          rcases List.mem_append.mp ha with hold | hnew
          · exact hstamps a hold
          · rw [List.mem_singleton.mp hnew]
            exact he
        obtain ⟨⟨order', waiting', h'⟩, -⟩ :=
          (h.with_stats _).receive hcard ⟨e, entry, arrivalTime⟩ hnew
        refine ⟨_, order', waiting', ?_, hnew, h'⟩
        rw [List.map_append, hmap]
        rfl

end Delivery

end LogAgg
