import LogAgg.Pipeline.Hosts
import LogAgg.Server.Unforced
import LogAgg.Store.Dot

/-!
# Causality through the whole system

Three hosts log the events of a computation, and their lines go through the agents, the network
and the server into the store of the query tool.

* `pipeline_exact`: as long as the timeout forces nothing out, the log files hold exactly the events
  that have arrived with all events before them, written in an order of the computation, and the
  query tool loads them, from the file of each day and from the directory.
* `pipeline_complete`: when all events have arrived, and the server is never late, the store holds
  all of them.
* `pipeline_draws`: behind a shutdown, however the run went, the graph that the query tool draws
  of the stored events is their causal order, and if nothing was forced out then every event that
  has arrived is stored.
-/

namespace LogAgg

open Ascii Causality Dedup EventOrder Network

/-! ## The clocks of entries -/

section Carries

variable {n : ℕ} {E : Type*} [Fintype E] {C : EventOrder (Fin n) E}

/-- What the reader makes of an entry carries its stamp. -/
theorem Carries.received {e : E} {entry : LogEntry} (h : Carries C e entry) :
    Carries C e (received entry) := by
  obtain ⟨-, -, hslot⟩ := vcFromJson_vcText VectorClock.zero entry.vc
  refine ⟨(nodeCount_received entry).trans h.1, fun i => ?_⟩
  rw [← h.2 i]
  exact congrArg UInt64.toNat (hslot i (by rw [h.1]; exact i.isLt))

/-- Clocks are ordered as the events are. -/
theorem Carries.extend_le_iff {d e : E} {x y : LogEntry} (hx : Carries C d x)
    (hy : Carries C e y) : x.vc.extend ≤ y.vc.extend ↔ C.Past d e := by
  rw [extend_le_iff_forall_fin hx.1, past_iff_stamp_le]
  refine forall_congr' fun i => ?_
  rw [VectorClock.extend_of_lt (by rw [hx.1]; exact i.isLt),
    VectorClock.extend_of_lt (by rw [hy.1]; exact i.isLt), hx.2, hy.2]

/-- Equal clocks belong to one event. -/
theorem Carries.eq_of_extend_eq {d e : E} {x y : LogEntry} (hx : Carries C d x)
    (hy : Carries C e y) (h : x.vc.extend = y.vc.extend) : d = e :=
  ((hx.extend_le_iff hy).mp h.le).antisymm ((hy.extend_le_iff hx).mp h.ge)

/-- **The comparison of two clocks is the causal order.** -/
theorem Carries.compare_iff {d e : E} {x y : LogEntry} (hx : Carries C d x) (hy : Carries C e y) :
    vcCompare x.vc y.vc = .happensBefore ↔ C.before d e := by
  rw [vcCompare_eq_happensBefore_iff, lt_iff_le_not_ge, hx.extend_le_iff hy, hy.extend_le_iff hx]
  constructor
  · rintro ⟨rfl | hbefore, hback⟩
    · exact absurd (Past.refl d) hback
    · exact hbefore
  · intro hbefore
    exact ⟨Past.of_before hbefore, fun hback =>
      C.irrefl d ((Past.of_before hbefore).antisymm hback ▸ hbefore)⟩

end Carries

/-! ## Runs on logs -/

/-- The hosts are those of a computation: the agents have the numbers of its nodes, and every
application appends lines of its log, from the first one on. -/
structure RunsOn (logs : Fin 3 → List LogLine) (configs : Fin 3 → AgentConfig)
    (moves : List (PipelineMove (Fin 3))) : Prop where
  index : ∀ i, agentNodeIndex (configs i).nodeId.bytes = (i : ℕ)
  lines : ∀ i, ∃ lines, LogsLines (eventsOf i moves) lines ∧ lines <+: logs i

variable {logs : Fin 3 → List LogLine}

/-- The entry of an event as the server reads it, once the agent has sent it. -/
def eventEntry (pipeline : Pipeline (Fin 3)) (e : LogEvent logs) : Option LogEntry :=
  ((pipeline.sender e.1).agent.sent[(e.2 : ℕ)]?).map received

section Run

variable (env : Fin 3 → AgentEnv) (configs : Fin 3 → AgentConfig) (files : Fin 3 → Option Bytes)
  (config : ServerConfig) (disk : ℕ → DiskOutcome) (moves : List (PipelineMove (Fin 3)))

/-- The entry of the event has reached the server. -/
def Arrived (e : LogEvent logs) : Prop :=
  ∃ entry ∈ receivedEntries (serverInputs env (pipelineInit configs 3 files config disk) moves),
    eventEntry (pipelineRun env (pipelineInit configs 3 files config disk) moves) e = some entry

variable {env configs files config disk moves}

/-- **What an agent has sent are entries of its events.** -/
theorem RunsOn.carries (hruns : RunsOn logs configs moves) (computation : LoggedComputation logs)
    (hcard : Fintype.card (LogEvent logs) < 2 ^ 31) {i : Fin 3} {k : ℕ} {entry : LogEntry}
    (hentry : ((pipelineRun env (pipelineInit configs 3 files config disk) moves).sender
      i).agent.sent[k]? = some entry) :
    ∃ hk : k < (logs i).length, Carries computation.order ⟨i, k, hk⟩ entry := by
  obtain ⟨lines, hlines, hpre⟩ := hruns.lines i
  have hle : (logs i).length ≤ Fintype.card (LogEvent logs) := by
    rw [Fintype.card_sigma]
    calc (logs i).length = Fintype.card (Fin (logs i).length) := (Fintype.card_fin _).symm
      _ ≤ _ := Finset.single_le_sum (f := fun j => Fintype.card (Fin (logs j).length))
        (fun _ _ => Nat.zero_le _) (Finset.mem_univ i)
  have hbound : lines.length < 2 ^ 64 := hpre.length_le.trans_lt (hle.trans_lt (by omega))
  obtain ⟨read, hfollows⟩ := exists_hostFollows env i (by decide : 3 ≤ vcMaxNodes)
    (hruns.index i) i.isLt (files i) hlines hbound
  have hsender := (Parties.sender_run (p := pipelineParties env)
    (pipelineInit configs 3 files config disk) moves i).1
  rw [pipelineRun, hsender] at hentry
  exact hfollows.carries computation hpre hentry

theorem RunsOn.carries_eventEntry (hruns : RunsOn logs configs moves)
    (computation : LoggedComputation logs) (hcard : Fintype.card (LogEvent logs) < 2 ^ 31)
    {e : LogEvent logs} {entry : LogEntry} (h : eventEntry
      (pipelineRun env (pipelineInit configs 3 files config disk) moves) e = some entry) :
    Carries computation.order e entry := by
  obtain ⟨sent, hsent, rfl⟩ := Option.map_eq_some_iff.mp h
  obtain ⟨hk, hcarries⟩ := hruns.carries computation hcard hsent
  exact hcarries.received

/-- **What the server receives are entries of events.** -/
theorem RunsOn.exists_event (hruns : RunsOn logs configs moves)
    (computation : LoggedComputation logs) (hcard : Fintype.card (LogEvent logs) < 2 ^ 31)
    {entry : LogEntry} (h : entry ∈ receivedEntries
      (serverInputs env (pipelineInit configs 3 files config disk) moves)) :
    ∃ e : LogEvent logs, eventEntry
      (pipelineRun env (pipelineInit configs 3 files config disk) moves) e = some entry := by
  obtain ⟨i, sent, hsent, rfl⟩ := exists_of_mem_receivedEntries env configs 3 files config disk
    moves h
  obtain ⟨k, hk⟩ := List.mem_iff_getElem?.mp hsent
  obtain ⟨hlt, -⟩ := hruns.carries computation hcard hk
  exact ⟨⟨i, k, hlt⟩, Option.map_eq_some_iff.mpr ⟨sent, hk, rfl⟩⟩

/-- **A run in which nothing is forced delivers what arrives.** -/
theorem RunsOn.exists_delivering (hruns : RunsOn logs configs moves)
    (computation : LoggedComputation logs) (hcard : Fintype.card (LogEvent logs) < 2 ^ 31)
    (hconfig : config.nodeCount = 3) (hunforced : NothingForced
      (pipelineRun env (pipelineInit configs 3 files config disk) moves).receiver.trace) :
    ∃ arrivals order waiting : List (Arrival (LogEvent logs)),
      Delivering computation.order arrivals order waiting
        (pipelineRun env (pipelineInit configs 3 files config disk) moves).receiver ∧
      (∀ a ∈ arrivals, Carries computation.order a.event a.entry) ∧
      (∀ a ∈ arrivals, eventEntry
        (pipelineRun env (pipelineInit configs 3 files config disk) moves) a.event =
          some a.entry) ∧
      ∀ e, Arrived env configs files config disk moves e ↔ e ∈ arrivals.map (·.event) := by
  have hrun := receiver_pipelineRun env (pipelineInit configs 3 files config disk) moves
  rw [hrun] at hunforced ⊢
  obtain ⟨arrivals, order, waiting, hmap, hstamps, h⟩ :=
    exists_delivering_serverRun (C := computation.order) hcard (by decide) (by decide) hconfig disk
      (fun entry hentry => (hruns.exists_event computation hcard hentry).imp fun _ =>
        hruns.carries_eventEntry computation hcard) hunforced
  have hentry : ∀ a ∈ arrivals, eventEntry
      (pipelineRun env (pipelineInit configs 3 files config disk) moves) a.event =
        some a.entry := by
    intro a ha
    have hreceived : a.entry ∈ receivedEntries
        (serverInputs env (pipelineInit configs 3 files config disk) moves) := by
      rw [← hmap]
      exact List.mem_map_of_mem ha
    obtain ⟨e, he⟩ := hruns.exists_event computation hcard hreceived
    rwa [(hstamps a ha).eq_of_extend_eq (hruns.carries_eventEntry computation hcard he) rfl]
  refine ⟨arrivals, order, waiting, h, hstamps, hentry, fun e => ⟨?_, fun he => ?_⟩⟩
  · rintro ⟨entry, hreceived, he⟩
    rw [← hmap] at hreceived
    obtain ⟨a, ha, rfl⟩ := List.mem_map.mp hreceived
    refine List.mem_map.mpr ⟨a, ha, ?_⟩
    exact (hstamps a ha).eq_of_extend_eq (hruns.carries_eventEntry computation hcard he) rfl
  · obtain ⟨a, ha, rfl⟩ := List.mem_map.mp he
    refine ⟨a.entry, ?_, hentry a ha⟩
    rw [← hmap]
    exact List.mem_map_of_mem ha

/-! ## The files of the server -/

theorem events_dated {dated : List (Bytes × Arrival (LogEvent logs))}
    {order : List (Arrival (LogEvent logs))} (h : dated.map (·.2) = order) :
    (dated.map fun w => (w.1, w.2.event)).map (·.2) = order.map (·.event) := by
  rw [← h, List.map_map, List.map_map]
  rfl

/-- What the server has written of the events that it has received, with the days. -/
theorem RunsOn.exists_dated (hruns : RunsOn logs configs moves)
    (computation : LoggedComputation logs) (hcard : Fintype.card (LogEvent logs) < 2 ^ 31)
    (hconfig : config.nodeCount = 3)
    (hwrites : WritesSucceed
      (pipelineRun env (pipelineInit configs 3 files config disk) moves).receiver.trace)
    (hunforced : NothingForced
      (pipelineRun env (pipelineInit configs 3 files config disk) moves).receiver.trace) :
    let pipeline := pipelineRun env (pipelineInit configs 3 files config disk) moves
    ∃ (arrivals order waiting : List (Arrival (LogEvent logs)))
      (dated : List (Bytes × Arrival (LogEvent logs))),
      Delivering computation.order arrivals order waiting pipeline.receiver ∧
      (∀ a ∈ arrivals, Carries computation.order a.event a.entry) ∧
      (∀ a ∈ arrivals, eventEntry pipeline a.event = some a.entry) ∧
      (∀ e, Arrived env configs files config disk moves e ↔ e ∈ arrivals.map (·.event)) ∧
      dated.map (·.2) = order ∧
      pipeline.receiver.Wrote (dated.map fun w => (w.1, w.2.entry)) := by
  intro pipeline
  obtain ⟨arrivals, order, waiting, h, hstamps, hentry, harrived⟩ :=
    hruns.exists_delivering computation hcard hconfig hunforced
  obtain ⟨lines, hwrote, hentries⟩ :=
    exists_wrote_pipelineRun env configs files config disk moves hwrites
  obtain ⟨dated, horder, rfl⟩ : ∃ dated : List (Bytes × Arrival (LogEvent logs)),
      dated.map (·.2) = order ∧ lines = dated.map fun w => (w.1, w.2.entry) :=
    exists_map_snd (hentries.trans h.committed)
  exact ⟨arrivals, order, waiting, dated, h, hstamps, hentry, harrived, horder, hwrote⟩

/-- **The query tool loads the events that were written**: from the file of a day those of the day
in their order, and from the directory all of them. -/
theorem loads_dated (hconfig : config.nodeCount = 3)
    {dated : List (Bytes × Arrival (LogEvent logs))}
    (hwrote : (pipelineRun env (pipelineInit configs 3 files config disk) moves).receiver.Wrote
      (dated.map fun w => (w.1, w.2.entry)))
    (hcommitted : (dated.map (·.2)).map (·.entry) = committedEntries
      (pipelineRun env (pipelineInit configs 3 files config disk) moves).receiver.trace)
    (hdated : ∀ w ∈ dated, eventEntry
      (pipelineRun env (pipelineInit configs 3 files config disk) moves) w.2.event =
        some w.2.entry)
    (decompressSafe : Bytes → ℕ → Option Bytes) (index : List IndexEntry) :
    let pipeline := pipelineRun env (pipelineInit configs 3 files config disk) moves
    let written := dated.map fun w => (w.1, w.2.event)
    (∀ overrun day, (storeLoadFile decompressSafe overrun (storeInit index)
      (some (pipeline.receiver.dayFile day))).2.entries.map some =
        (written.filter (·.1 = day)).map fun w => eventEntry pipeline w.2) ∧
    ∀ overrun dir fopen names, pipeline.receiver.Lists dir fopen names →
      (storeLoadDir decompressSafe overrun fopen (storeInit index) dir (some names)).1 =
          written.length ∧
        ∃ loaded : List (LogEvent logs), loaded.Perm (written.map (·.2)) ∧
          (storeLoadDir decompressSafe overrun fopen (storeInit index) dir
            (some names)).2.entries.map some = loaded.map (eventEntry pipeline) := by
  intro pipeline written
  have hentries : (dated.map fun w => (w.1, w.2.entry)).map (·.2) =
      committedEntries pipeline.receiver.trace := by
    rw [← hcommitted, List.map_map, List.map_map]
    rfl
  obtain ⟨-, hday, hdir⟩ := storeLoad_pipelineRun env configs files config disk moves
    (by decide : 1 ≤ 3) (by decide) hconfig hwrote hentries decompressSafe index
  refine ⟨fun overrun day => ?_, fun overrun dir fopen names hlists => ?_⟩
  · have hloaded : (storeLoadFile decompressSafe overrun (storeInit index)
        (some (pipeline.receiver.dayFile day))).2.entries = _ := (hday overrun day).2
    rw [hloaded, entriesOn_map (fun a : Arrival (LogEvent logs) => a.entry), List.filter_map,
      List.map_map, List.map_map]
    exact List.map_congr_left fun w hw => (hdated w (List.mem_of_mem_filter hw)).symm
  · obtain ⟨hcount, hperm⟩ := hdir overrun dir fopen names hlists
    rw [List.map_map] at hperm
    obtain ⟨loaded, hloaded, heq⟩ := exists_perm_map hperm
    refine ⟨by rw [hcount, List.length_map, List.length_map],
      loaded.map fun w => w.2.event, ?_, ?_⟩
    · rw [List.map_map]
      exact hloaded.map _
    · rw [heq, List.map_map, List.map_map]
      exact List.map_congr_left fun w hw => (hdated w (hloaded.subset hw)).symm

/-- **The system is exact** as long as the timeout forces nothing out.  However the lines are
written, read, sent, lost, repeated and reordered, the server writes exactly the events that have
arrived together with all events before them, each once, with its causal clock, and none before one
of its causes.  The query tool loads the file of a day as it was written, and from the directory
the events of all days. -/
theorem pipeline_exact (computation : LoggedComputation logs) (hruns : RunsOn logs configs moves)
    (hcard : Fintype.card (LogEvent logs) < 2 ^ 31) (hconfig : config.nodeCount = 3)
    (hwrites : WritesSucceed
      (pipelineRun env (pipelineInit configs 3 files config disk) moves).receiver.trace)
    (hunforced : NothingForced
      (pipelineRun env (pipelineInit configs 3 files config disk) moves).receiver.trace) :
    let pipeline := pipelineRun env (pipelineInit configs 3 files config disk) moves
    ∃ written : List (Bytes × LogEvent logs),
      (written.map (·.2)).Nodup ∧
      (∀ e, e ∈ written.map (·.2) ↔ Arrived env configs files config disk moves e ∧
        ∀ d, computation.order.before d e → Arrived env configs files config disk moves d) ∧
      (written.map (·.2)).Pairwise (fun d e => ¬ computation.order.before e d) ∧
      (∀ e ∈ written.map (·.2), ∃ entry, eventEntry pipeline e = some entry ∧
        Carries computation.order e entry) ∧
      ∀ decompressSafe index,
        (∀ overrun day, (storeLoadFile decompressSafe overrun (storeInit index)
          (some (pipeline.receiver.dayFile day))).2.entries.map some =
            (written.filter (·.1 = day)).map fun w => eventEntry pipeline w.2) ∧
        ∀ overrun dir fopen names, pipeline.receiver.Lists dir fopen names →
          (storeLoadDir decompressSafe overrun fopen (storeInit index) dir (some names)).1 =
              written.length ∧
            ∃ loaded : List (LogEvent logs), loaded.Perm (written.map (·.2)) ∧
              (storeLoadDir decompressSafe overrun fopen (storeInit index) dir
                (some names)).2.entries.map some = loaded.map (eventEntry pipeline) := by
  intro pipeline
  obtain ⟨arrivals, order, waiting, dated, h, hstamps, hentry, harrived, horder, hwrote⟩ :=
    hruns.exists_dated computation hcard hconfig hwrites hunforced
  have hsettled : pipeline.receiver.Settled :=
    settled_pipelineRun env configs files config disk moves
  have hevents := events_dated horder
  refine ⟨dated.map fun w => (w.1, w.2.event), ?_, fun e => ?_, ?_, fun e he => ?_, ?_⟩
  · rw [hevents]
    exact h.nodup
  · rw [hevents, h.mem_order_iff hcard hsettled hstamps e, harrived]
    simp only [harrived]
  · rw [hevents]
    exact h.linear
  · rw [hevents] at he
    obtain ⟨a, ha, rfl⟩ := List.mem_map.mp he
    exact ⟨a.entry, hentry a (h.order_sub a ha), hstamps a (h.order_sub a ha)⟩
  · exact loads_dated hconfig hwrote (horder ▸ h.committed.symm) fun w hw =>
      hentry w.2 (h.order_sub w.2 (horder ▸ List.mem_map_of_mem hw))

/-! ## The graph behind a shutdown -/

/-- **The drawn graph** of a store whose entries carry the stamps of some events is the causal
order of these events. -/
theorem transGen_printsEdge_iff_before {n : ℕ} {E : Type*} [Fintype E]
    {C : EventOrder (Fin n) E} {store : LogStore} {stored : List E} {f : E → Option LogEntry}
    (hentries : store.entries.map some = stored.map f)
    (hcarries : ∀ e ∈ stored, ∀ entry, f e = some entry → Carries C e entry)
    (i j : Fin stored.length) :
    Relation.TransGen (PrintsEdge store) i j ↔ C.before (stored.get i) (stored.get j) := by
  have hlength : store.count = stored.length := by
    have hlengths := congrArg List.length hentries
    rwa [List.length_map, List.length_map] at hlengths
  have hentry : ∀ k : Fin stored.length, Carries C (stored.get k) (store.entryAt k) := by
    intro k
    have hk : (k : ℕ) < store.entries.length := by
      rw [show store.entries.length = store.count from rfl, hlength]
      exact k.isLt
    have hsome : f (stored.get k) = some (store.entryAt k) := by
      have hget := congrArg (fun l => l[(k : ℕ)]?) hentries
      simp only [List.getElem?_map, List.getElem?_eq_getElem hk,
        List.getElem?_eq_getElem k.isLt, Option.map_some, Option.some_inj] at hget
      rw [LogStore.entryAt, List.getD_eq_getElem _ _ hk]
      exact hget.symm
    exact hcarries _ (List.get_mem stored k) _ hsome
  rw [transGen_printsEdge_iff, HappensBefore, (hentry i).compare_iff (hentry j), hlength]
  simp only [i.isLt, j.isLt, true_and]

/-- What the server has in its files behind a shutdown. -/
theorem exists_wrote_serverCleanup
    (hwrites : WritesSucceed
      (pipelineRun env (pipelineInit configs 3 files config disk) moves).receiver.trace)
    (hstores : DrainSucceeds
      (pipelineRun env (pipelineInit configs 3 files config disk) moves).receiver
      (pipelineRun env (pipelineInit configs 3 files config disk) moves).receiver.buffer) :
    let server := (pipelineRun env (pipelineInit configs 3 files config disk) moves).receiver
    ∃ written, (serverCleanup server).Wrote written ∧
      written.map (·.2) = committedEntries server.trace ++ bufferedEntries server.buffer := by
  intro server
  obtain ⟨before, hwrote, hentries⟩ :=
    exists_wrote_pipelineRun env configs files config disk moves hwrites
  obtain ⟨written, hdrained, hall⟩ := hwrote.drain hstores
  exact ⟨written, hdrained, hall.trans (congrArg (· ++ bufferedEntries server.buffer) hentries)⟩

/-- **The drawn graph is the causal order.**  Behind a shutdown, whatever was lost, repeated,
reordered or forced out by the timeout, and on however many days, the query tool loads from the
directory entries of different events, all of which have arrived, and the graph that it draws joins
two of them exactly if the first is before the second in the computation.  If nothing was forced
out, every event that has arrived is drawn. -/
theorem pipeline_draws (computation : LoggedComputation logs) (hruns : RunsOn logs configs moves)
    (hcard : Fintype.card (LogEvent logs) < 2 ^ 31) (hconfig : config.nodeCount = 3)
    (hwrites : WritesSucceed
      (pipelineRun env (pipelineInit configs 3 files config disk) moves).receiver.trace)
    (hstores : DrainSucceeds
      (pipelineRun env (pipelineInit configs 3 files config disk) moves).receiver
      (pipelineRun env (pipelineInit configs 3 files config disk) moves).receiver.buffer)
    {dir : Bytes} {fopen : Bytes → Option Bytes} {names : List Bytes}
    (hlists : (serverCleanup (pipelineRun env (pipelineInit configs 3 files config disk)
      moves).receiver).Lists dir fopen names)
    (decompressSafe : Bytes → ℕ → Option Bytes) (overrun : ℕ → ℕ → Option LogEntry)
    (index : List IndexEntry) :
    let pipeline := pipelineRun env (pipelineInit configs 3 files config disk) moves
    let store :=
      (storeLoadDir decompressSafe overrun fopen (storeInit index) dir (some names)).2
    ∃ stored : List (LogEvent logs),
      stored.Nodup ∧
      (∀ e ∈ stored, Arrived env configs files config disk moves e) ∧
      store.entries.map some = stored.map (eventEntry pipeline) ∧
      (∀ i j : Fin stored.length, Relation.TransGen (PrintsEdge store) i j ↔
        computation.order.before (stored.get i) (stored.get j)) ∧
      (NothingForced pipeline.receiver.trace →
        ∀ e, Arrived env configs files config disk moves e → e ∈ stored) := by
  intro pipeline store
  obtain ⟨written, hwrote, hentries⟩ := exists_wrote_serverCleanup hwrites hstores
  let entries := written.map (·.2)
  have hreceived : ∀ entry ∈ entries, entry ∈ receivedEntries
      (serverInputs env (pipelineInit configs 3 files config disk) moves) := by
    intro entry hentry
    have hconserved : Conserved config
        (serverInputs env (pipelineInit configs 3 files config disk) moves) pipeline.receiver :=
      (safe_pipelineRun env configs files config disk moves (by decide : 1 ≤ 3) (by decide)
        hconfig).2
    rw [show entries = _ from hentries] at hentry
    exact hconserved.entries.mem_iff.mpr (List.mem_append_left _ hentry)
  have hevent : ∀ entry ∈ entries, ∃ e : LogEvent logs, eventEntry pipeline e = some entry :=
    fun entry hentry => hruns.exists_event computation hcard (hreceived entry hentry)
  have hsent : ∀ entry ∈ entries, ∃ sent, entry = received sent := by
    intro entry hentry
    obtain ⟨e, he⟩ := hevent entry hentry
    obtain ⟨sent, -, rfl⟩ := Option.map_eq_some_iff.mp he
    exact ⟨sent, rfl⟩
  obtain ⟨shown, hshown, hload⟩ :=
    hwrote.exists_storeLoadDir hsent hlists decompressSafe overrun (storeInit index)
  have hloaded : store.entries = keepFirst LogEntry.sameNode shown := by
    show (storeLoadDir _ _ _ _ _ _).2.entries = _
    rw [hload, entries_storeAppendAll]
  obtain ⟨stored, hnodup, hstored, hmap⟩ :=
    exists_keys_keepFirst equivalence_sameNode.refl fun entry hentry =>
      hevent entry (hshown.subset hentry)
  rw [← hloaded] at hmap
  have hcarries : ∀ {e : LogEvent logs} {entry : LogEntry}, eventEntry pipeline e = some entry →
      Carries computation.order e entry :=
    fun he => hruns.carries_eventEntry computation hcard he
  refine ⟨stored, hnodup, fun e he => ?_, hmap,
    transGen_printsEdge_iff_before hmap fun e _ entry => hcarries, fun hunforced e he => ?_⟩
  · obtain ⟨entry, hentry, heq⟩ := hstored e he
    exact ⟨entry, hreceived entry (hshown.subset hentry), heq⟩
  · obtain ⟨arrivals, order, waiting, h, -, hentry, harrived⟩ :=
      hruns.exists_delivering computation hcard hconfig hunforced
    obtain ⟨a, ha, rfl⟩ := List.mem_map.mp ((harrived e).mp he)
    -- an entry of the event was written, or one waits in the buffer
    obtain ⟨b, hb, hevents, hmem⟩ : ∃ b ∈ arrivals, b.event = a.event ∧ b.entry ∈ entries := by
      rw [show entries = _ from hentries]
      by_cases hwritten : a.event ∈ order.map (·.event)
      · obtain ⟨b, hb, hevents⟩ := List.mem_map.mp hwritten
        refine ⟨b, h.order_sub b hb, hevents, List.mem_append_left _ ?_⟩
        rw [show committedEntries pipeline.receiver.trace = _ from h.committed]
        exact List.mem_map_of_mem hb
      · refine ⟨a, ha, rfl, List.mem_append_right _ ?_⟩
        rw [show pipeline.receiver.buffer = _ from h.buffer_eq, bufferedEntries, List.map_map]
        exact List.mem_map_of_mem (h.mem_waiting ha hwritten)
    obtain ⟨y, hy, hsame⟩ :=
      exists_mem_keepFirst equivalence_sameNode.refl (hshown.symm.subset hmem)
    obtain ⟨k, hk, heq⟩ : ∃ k ∈ stored, eventEntry pipeline k = some y := by
      rw [← hloaded] at hy
      exact List.mem_map.mp (hmap ▸ List.mem_map_of_mem hy)
    have hcompare := vcCompare_eq_equal_iff.mp (sameNode_iff.mp hsame).2.2
    rw [← hevents, ← (hcarries heq).eq_of_extend_eq (hcarries (hentry b hb)) hcompare]
    exact hk

/-! ## Nothing is left behind -/

/-- No turn reads a clock by which the arrival in it or before it is late. -/
def TurnsInTime (timeoutMs : UInt64) (turns : List (UInt64 × UInt64)) : Prop :=
  (∀ t ∈ turns, t.2 - t.1 ≤ timeoutMs) ∧ turns.Pairwise fun s t => t.2 - s.1 ≤ timeoutMs

instance (timeoutMs : UInt64) (turns : List (UInt64 × UInt64)) :
    Decidable (TurnsInTime timeoutMs turns) :=
  -- by the list, not by all pairs of readings
  have : Decidable (∀ t ∈ turns, t.2 - t.1 ≤ timeoutMs) := List.decidableBAll _ turns
  inferInstanceAs (Decidable (_ ∧ _))

/-- A turn reads its two clocks. -/
theorem readings_serverTurn (t : UInt64 × UInt64) (message : Option Bytes) :
    (serverTurn t message).now = t.2 ∧ ∀ a ∈ (serverTurn t message).arrivalTime?, a = t.1 := by
  cases message with
  | none => exact ⟨rfl, fun a ha => absurd ha (Option.not_mem_none a)⟩
  | some data =>
    rw [serverTurn, ServerInput.ofBytes]
    split
    · exact ⟨rfl, fun a ha => (Option.some.inj ha).symm⟩
    · exact ⟨rfl, fun a ha => absurd ha (Option.not_mem_none a)⟩

/-- What the turns of the server find is in time when the turns are. -/
theorem inTime_serverInputs {timeoutMs : UInt64} (pipeline : Pipeline (Fin 3))
    (h : TurnsInTime timeoutMs (turnsOf moves)) :
    InTime timeoutMs (serverInputs env pipeline moves) := by
  have hsub := Parties.map_fst_receptions_sublist (p := pipelineParties env) pipeline moves
  have hpairwise := List.pairwise_map.mp (h.2.sublist hsub)
  refine ⟨fun x hx a ha => ?_, List.pairwise_map.mpr (hpairwise.imp fun {s t} hst a ha => ?_)⟩
  · obtain ⟨r, hr, rfl⟩ := List.mem_map.mp hx
    obtain ⟨hnow, harrival⟩ := readings_serverTurn r.1 (r.2.map Prod.snd)
    rw [hnow, harrival a ha]
    exact h.1 r.1 (hsub.subset (List.mem_map_of_mem hr))
  · rw [(readings_serverTurn t.1 (t.2.map Prod.snd)).1,
      (readings_serverTurn s.1 (s.2.map Prod.snd)).2 a ha]
    exact hst

/-- **The system is complete.**  When every event of the computation has arrived, and no turn of the
server reads a clock by which an earlier arrival is late, the buffer is empty; the server has
written all events, each once and none before one of its causes; the query tool loads all of them
from the directory, and the graph that it draws of them is the causal order of the computation. -/
theorem pipeline_complete (computation : LoggedComputation logs) (hruns : RunsOn logs configs moves)
    (hcard : Fintype.card (LogEvent logs) < 2 ^ 31) (hconfig : config.nodeCount = 3)
    (hwrites : WritesSucceed
      (pipelineRun env (pipelineInit configs 3 files config disk) moves).receiver.trace)
    (htime : TurnsInTime config.timeoutMs (turnsOf moves))
    (hall : ∀ e : LogEvent logs, Arrived env configs files config disk moves e)
    {dir : Bytes} {fopen : Bytes → Option Bytes} {names : List Bytes}
    (hlists : (pipelineRun env (pipelineInit configs 3 files config disk)
      moves).receiver.Lists dir fopen names)
    (decompressSafe : Bytes → ℕ → Option Bytes) (overrun : ℕ → ℕ → Option LogEntry)
    (index : List IndexEntry) :
    let pipeline := pipelineRun env (pipelineInit configs 3 files config disk) moves
    let loaded := storeLoadDir decompressSafe overrun fopen (storeInit index) dir (some names)
    pipeline.receiver.buffer = [] ∧ loaded.1 = Fintype.card (LogEvent logs) ∧
      ∃ written : List (Bytes × LogEvent logs),
        (written.map (·.2)).Nodup ∧ (∀ e, e ∈ written.map (·.2)) ∧
        (written.map (·.2)).Pairwise (fun d e => ¬ computation.order.before e d) ∧
        (∀ overrun day, (storeLoadFile decompressSafe overrun (storeInit index)
          (some (pipeline.receiver.dayFile day))).2.entries.map some =
            (written.filter (·.1 = day)).map fun w => eventEntry pipeline w.2) ∧
        ∃ stored : List (LogEvent logs), stored.Perm (written.map (·.2)) ∧
          loaded.2.entries.map some = stored.map (eventEntry pipeline) ∧
          ∀ i j : Fin stored.length, Relation.TransGen (PrintsEdge loaded.2) i j ↔
            computation.order.before (stored.get i) (stored.get j) := by
  intro pipeline loaded
  have hunforced : NothingForced pipeline.receiver.trace := by
    rw [show pipeline.receiver = _ from receiver_pipelineRun env _ moves]
    exact (noneLate_serverRun config disk (inTime_serverInputs _ htime)).unforced
  obtain ⟨arrivals, order, waiting, dated, h, hstamps, hentry, harrived, horder, hwrote⟩ :=
    hruns.exists_dated computation hcard hconfig hwrites hunforced
  have hsettled : pipeline.receiver.Settled :=
    settled_pipelineRun env configs files config disk moves
  have hevents := events_dated horder
  have hwritten : ∀ e, e ∈ order.map (·.event) := fun e =>
    (h.mem_order_iff hcard hsettled hstamps e).mpr
      ⟨(harrived e).mp (hall e), fun d _ => (harrived d).mp (hall d)⟩
  have hnone : waiting = [] := List.eq_nil_iff_forall_not_mem.mpr fun a ha =>
    (h.not_mem_of_settled hcard hsettled hstamps ha).1 (hwritten a.event)
  obtain ⟨hday, hdir⟩ := loads_dated hconfig hwrote (horder ▸ h.committed.symm)
    (fun w hw => hentry w.2 (h.order_sub w.2 (horder ▸ List.mem_map_of_mem hw)))
    decompressSafe index
  obtain ⟨hlength, stored, hstored, hmap⟩ := hdir overrun dir fopen names hlists
  have hcount : loaded.1 = Fintype.card (LogEvent logs) := by
    have hfinset : (order.map (·.event)).toFinset = Finset.univ :=
      Finset.eq_univ_iff_forall.mpr fun e => List.mem_toFinset.mpr (hwritten e)
    rw [show loaded.1 = _ from hlength, ← List.length_map (·.2), hevents,
      ← List.toFinset_card_of_nodup h.nodup, hfinset, Finset.card_univ]
  refine ⟨?_, hcount, dated.map fun w => (w.1, w.2.event), ?_, ?_, ?_, hday, stored, hstored, hmap,
    transGen_printsEdge_iff_before hmap fun e _ entry =>
      hruns.carries_eventEntry computation hcard⟩
  · rw [show pipeline.receiver.buffer = _ from h.buffer_eq, hnone, List.map_nil]
  · rw [hevents]
    exact h.nodup
  · rw [hevents]
    exact hwritten
  · rw [hevents]
    exact h.linear

end Run

/-! ## A call -/

/-- The line of a node that was called by the first one. -/
def calledLine : LogLine where
  bytes := ascii "[VC:1,1,0] INFO: called"
  ne_nil := by decide
  newline_notMem := by decide
  nul_notMem := by decide
  tag := some ![Numeral.ofDigit 49 isdigit_one, Numeral.ofDigit 49 isdigit_one,
    Numeral.ofDigit 48 isdigit_zero]
  length_lt := by decide
  tagged := by
    rintro values ⟨⟩
    exact ⟨ascii " INFO: called", rfl⟩
  untagged := by
    rintro ⟨⟩

/-- Node 0 calls node 1. -/
def callLogs : Fin 3 → List LogLine := ![[firstLine], [calledLine], []]

theorem consistent_callLogs : Consistent fun e : LogEvent callLogs => e.clock where
  own e := if_pos rfl
  mono := by decide +kernel
  known := by decide +kernel

/-- A run on these logs: the call arrives first, and then once more. -/
def callMoves (caller callee : Fin 3) : List (PipelineMove (Fin 3)) :=
  [.act caller (.append (logText [firstLine])), .act callee (.append (logText [calledLine])),
    .act caller .poll, .act callee .poll, .deliver 1 (1000, 1000), .deliver 0 (1100, 1100),
    .deliver 1 (1200, 1200)]

def callConfigs : Fin 3 → AgentConfig :=
  ![.ofNodeId (ascii "node-01"), .ofNodeId (ascii "node-02"), .ofNodeId (ascii "node-03")]

theorem runsOn_callMoves : RunsOn callLogs callConfigs (callMoves 0 1) where
  index := by decide
  lines := by
    intro i
    refine ⟨callLogs i, ?_, List.prefix_refl _⟩
    match i with
    | 0 => exact (LogsLines.start.append [firstLine]).poll
    | 1 => exact (LogsLines.start.append [calledLine]).poll
    | 2 => exact LogsLines.start

/-- A file system that stores every line, only the first one before midnight. -/
def midnightDisk : ℕ → DiskOutcome := fun k =>
  ⟨if k = 0 then ascii "2024-06-29" else ascii "2024-06-30", true, logaggMaxEntrySize, true⟩

/-- The log files of the two days. -/
def openDayFile (server : Server) (path : Bytes) : Option Bytes :=
  if path = ascii "logs/2024-06-29.jsonl" then some (server.dayFile (ascii "2024-06-29"))
  else if path = ascii "logs/2024-06-30.jsonl" then some (server.dayFile (ascii "2024-06-30"))
  else none

/-- A listing of the directory, the second day first. -/
def shownNames : List Bytes :=
  [ascii ".", ascii "2024-06-30.jsonl", ascii "..", ascii "2024-06-29.jsonl"]

theorem lists_shownNames {server : Server} (h : ∀ piece ∈ server.appended,
    piece.1 = ascii "2024-06-29" ∨ piece.1 = ascii "2024-06-30") :
    server.Lists (ascii "logs") (openDayFile server) shownNames where
  nodup := by decide
  log := by
    intro name hname hjsonl
    simp only [shownNames, List.mem_cons, List.not_mem_nil, or_false] at hname
    rcases hname with rfl | rfl | rfl | rfl
    · exact absurd hjsonl (by decide)
    · exact ⟨ascii "2024-06-30", rfl, rfl⟩
    · exact absurd hjsonl (by decide)
    · exact ⟨ascii "2024-06-29", rfl, rfl⟩
  complete := by
    intro piece hpiece
    rcases h piece hpiece with hday | hday
    · rw [hday]
      decide
    · rw [hday]
      decide

theorem arrived_callMoves (e : LogEvent callLogs) : Arrived (fun _ => AgentEnv.still) callConfigs
    (fun _ => none) ⟨3, 1000⟩ midnightDisk (callMoves 0 1) e := by
  revert e
  unfold Arrived
  decide +kernel

theorem pipeline_exact_call :
    let pipeline := pipelineRun (fun _ => AgentEnv.still) (pipelineInit callConfigs 3
      (fun _ => none) ⟨3, 1000⟩ midnightDisk) (callMoves 0 1)
    pipeline.receiver.dayFile (ascii "2024-06-29") ≠ [] ∧
      pipeline.receiver.dayFile (ascii "2024-06-30") ≠ [] ∧
      ∃ written : List (Bytes × LogEvent callLogs), (written.map (·.2)).Nodup ∧
        (∀ e, e ∈ written.map (·.2)) ∧
        (storeLoadDir (fun _ _ => none) (fun _ _ => none) (openDayFile pipeline.receiver)
          (storeInit []) (ascii "logs") (some shownNames)).1 = written.length := by
  intro pipeline
  obtain ⟨written, hnodup, hmem, -, -, hload⟩ :=
    pipeline_exact (LoggedComputation.ofConsistent consistent_callLogs) runsOn_callMoves
      (by decide : Fintype.card (LogEvent callLogs) < 2 ^ 31) rfl
      (by decide +kernel : WritesSucceed pipeline.receiver.trace)
      (by decide +kernel : NothingForced pipeline.receiver.trace)
  obtain ⟨-, hdir⟩ := hload (fun _ _ => none) []
  refine ⟨by decide +kernel, by decide +kernel, written, hnodup, fun e => ?_, ?_⟩
  · exact (hmem e).mpr ⟨arrived_callMoves e, fun d _ => arrived_callMoves d⟩
  · exact (hdir (fun _ _ => none) _ _ _ (lists_shownNames (by decide +kernel))).1

theorem pipeline_draws_call :
    let pipeline := pipelineRun (fun _ => AgentEnv.still) (pipelineInit callConfigs 3
      (fun _ => none) ⟨3, 1000⟩ midnightDisk) (callMoves 0 1)
    let store := (storeLoadDir (fun _ _ => none) (fun _ _ => none)
      (openDayFile (serverCleanup pipeline.receiver)) (storeInit []) (ascii "logs")
      (some shownNames)).2
    ∃ stored : List (LogEvent callLogs), stored.Nodup ∧ (∀ e, e ∈ stored) ∧
      store.entries.map some = stored.map (eventEntry pipeline) := by
  intro pipeline store
  obtain ⟨stored, hnodup, -, hmap, -, hall⟩ :=
    pipeline_draws (LoggedComputation.ofConsistent consistent_callLogs) runsOn_callMoves
      (by decide : Fintype.card (LogEvent callLogs) < 2 ^ 31) rfl
      (by decide +kernel : WritesSucceed pipeline.receiver.trace)
      (by decide +kernel : DrainSucceeds pipeline.receiver pipeline.receiver.buffer)
      (lists_shownNames (by decide +kernel)) (fun _ _ => none) (fun _ _ => none) []
  have hunforced : NothingForced pipeline.receiver.trace := by decide +kernel
  exact ⟨stored, hnodup, fun e => hall hunforced e (arrived_callMoves e), hmap⟩

theorem pipeline_complete_call :
    let pipeline := pipelineRun (fun _ => AgentEnv.still) (pipelineInit callConfigs 3
      (fun _ => none) ⟨3, 1000⟩ midnightDisk) (callMoves 0 1)
    let loaded := storeLoadDir (fun _ _ => none) (fun _ _ => none)
      (openDayFile pipeline.receiver) (storeInit []) (ascii "logs") (some shownNames)
    pipeline.receiver.buffer = [] ∧ loaded.1 = 2 := by
  intro pipeline loaded
  obtain ⟨hbuffer, hcount, -⟩ :=
    pipeline_complete (LoggedComputation.ofConsistent consistent_callLogs) runsOn_callMoves
      (by decide : Fintype.card (LogEvent callLogs) < 2 ^ 31) rfl
      (by decide +kernel : WritesSucceed pipeline.receiver.trace)
      (by decide : TurnsInTime 1000 (turnsOf (callMoves 0 1)))
      arrived_callMoves (lists_shownNames (by decide +kernel)) (fun _ _ => none)
      (fun _ _ => none) []
  have hcard : Fintype.card (LogEvent callLogs) = 2 := by decide
  exact ⟨hbuffer, hcount.trans (by rw [hcard]; rfl)⟩

end LogAgg
