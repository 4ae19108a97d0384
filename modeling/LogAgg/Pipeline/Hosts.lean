import LogAgg.Agent.Tags
import LogAgg.Causality.Consistent
import LogAgg.Pipeline.Basic
import LogAgg.Server.Delivery

/-!
# Hosts whose logs carry clocks

A computation of three nodes is known by its log files: line `k` of node `i` is an event, and the
tag of the line is the vector clock of the event (`LoggedComputation`); there is one behind logs
whose clocks are consistent (`LoggedComputation.ofConsistent`).  At a host the
application appends lines and the agent takes its turns, in any order (`LogsLines`).  The agent
stamps the lines that it has read, in order, each with the clock of its event
(`HostFollows.carries`).
-/

namespace LogAgg

open Ascii Causality EventOrder Network

/-! ## Computations -/

/-- The events behind some log files. -/
abbrev LogEvent (logs : Fin 3 → List LogLine) := Σ i : Fin 3, Fin (logs i).length

/-- The line of an event. -/
def LogEvent.line {logs : Fin 3 → List LogLine} (e : LogEvent logs) : LogLine :=
  (logs e.1).get e.2

/-- A computation of three nodes with these log files: each node logs its events in order, behind
tags with the components of the other nodes. -/
structure LoggedComputation (logs : Fin 3 → List LogLine) where
  order : EventOrder (Fin 3) (LogEvent logs)
  proc_eq : ∀ e, order.proc e = e.1
  program_order : ∀ (i : Fin 3) (k l : Fin (logs i).length), k < l → order.before ⟨i, k⟩ ⟨i, l⟩
  clock_eq : ∀ (e : LogEvent logs) (i : Fin 3), i ≠ e.1 → e.line.clock i = order.stamp e i

namespace LoggedComputation

variable {logs : Fin 3 → List LogLine} (computation : LoggedComputation logs)

/-- What is before an event of the same node is an earlier line. -/
theorem past_iff_le (i : Fin 3) (k l : Fin (logs i).length) :
    computation.order.Past ⟨i, k⟩ ⟨i, l⟩ ↔ k ≤ l := by
  constructor
  · intro h
    by_contra hlt
    have hback := computation.program_order i l k (not_le.mp hlt)
    exact computation.order.irrefl _ ((Past.of_before hback).antisymm h ▸ hback)
  · intro h
    rcases h.lt_or_eq with hlt | rfl
    · exact Past.of_before (computation.program_order i k l hlt)
    · exact Past.refl _

/-- **The own component counts the lines.** -/
theorem stamp_own (i : Fin 3) (k : Fin (logs i).length) :
    computation.order.stamp ⟨i, k⟩ i = k + 1 := by
  have hpast : (computation.order.past ⟨i, k⟩).filter (fun d => computation.order.proc d = i) =
      (Finset.Iic k).map (Function.Embedding.sigmaMk i) := by
    ext ⟨j, l⟩
    rw [Finset.mem_filter, mem_past, computation.proc_eq, Finset.mem_map]
    constructor
    · rintro ⟨hpast, rfl⟩
      exact ⟨l, Finset.mem_Iic.mpr ((computation.past_iff_le _ l k).mp hpast), rfl⟩
    · rintro ⟨l', hl', heq⟩
      cases heq
      exact ⟨(computation.past_iff_le _ l' k).mpr (Finset.mem_Iic.mp hl'), rfl⟩
  rw [EventOrder.stamp, EventOrder.tally, hpast, Finset.card_map, Fin.card_Iic]

/-- A component does not shrink along the lines of a node. -/
theorem stamp_mono (i j : Fin 3) {k l : Fin (logs i).length} (hkl : k ≤ l) :
    computation.order.stamp ⟨i, k⟩ j ≤ computation.order.stamp ⟨i, l⟩ j :=
  past_iff_stamp_le.mp ((computation.past_iff_le i k l).mpr hkl) j

/-- **The clock of an agent behind a line is the stamp of its event.** -/
theorem clockAfter_eq_stamp (i j : Fin 3) (k : Fin (logs i).length) :
    clockAfter i ((logs i).take (k + 1)) j = computation.order.stamp ⟨i, k⟩ j := by
  rw [clockAfter]
  by_cases hji : j = i
  · subst hji
    rw [if_pos rfl, computation.stamp_own, List.length_take_of_le k.isLt]
  · have hne : (j : ℕ) ≠ i := fun h => hji (Fin.ext h)
    rw [if_neg hne]
    have hline : ∀ l : Fin (logs i).length, ((logs i).get l).clock j =
        computation.order.stamp ⟨i, l⟩ j := fun l => computation.clock_eq ⟨i, l⟩ j hji
    have hpairwise : (logs i).Pairwise fun a b => a.clock j ≤ b.clock j := by
      refine List.pairwise_iff_get.mpr fun l m hlm => ?_
      rw [hline, hline]
      exact computation.stamp_mono i j hlm.le
    rw [maxClock_take hpairwise.isChain (List.getElem?_eq_getElem k.isLt)]
    exact hline k

end LoggedComputation

/-! ## Logs that are consistent -/

/-- The clock of an event: its number on its own node, and what the tag says of the others. -/
def LogEvent.clock {logs : Fin 3 → List LogLine} (e : LogEvent logs) (i : Fin 3) : ℕ :=
  if i = e.1 then e.2 + 1 else e.line.clock i

/-- **Logs with consistent clocks have a computation behind them.** -/
def LoggedComputation.ofConsistent {logs : Fin 3 → List LogLine}
    (h : Consistent fun e : LogEvent logs => e.clock) : LoggedComputation logs where
  order := h.order
  proc_eq _ := rfl
  program_order i k l hkl := ⟨fun heq => hkl.ne (by cases heq; rfl), h.mono i k l hkl.le⟩
  clock_eq e i hi := ((h.stamp_order e i).trans (if_neg hi)).symm

namespace LoggedComputation

variable {logs : Fin 3 → List LogLine} (computation : LoggedComputation logs)

theorem stamp_eq_clock (e : LogEvent logs) (i : Fin 3) :
    computation.order.stamp e i = e.clock i := by
  rw [LogEvent.clock]
  by_cases hi : i = e.1
  · rw [if_pos hi, hi]
    exact computation.stamp_own e.1 e.2
  · rw [if_neg hi, computation.clock_eq e i hi]

/-- **The logs determine the computation.** -/
theorem before_iff (d e : LogEvent logs) :
    computation.order.before d e ↔ d ≠ e ∧ ∀ i, d.clock i ≤ e.clock i := by
  have hpast : computation.order.Past d e ↔ ∀ i, d.clock i ≤ e.clock i := by
    rw [past_iff_stamp_le]
    simp only [computation.stamp_eq_clock]
  rw [← hpast]
  constructor
  · intro hbefore
    refine ⟨fun hde => ?_, Past.of_before hbefore⟩
    subst hde
    exact computation.order.irrefl _ hbefore
  · rintro ⟨hne, hde | hbefore⟩
    · exact absurd hde hne
    · exact hbefore

include computation in
/-- A clock counts no events of a node without any. -/
theorem clock_eq_zero (e : LogEvent logs) {i : Fin 3} (hi : logs i = []) : e.clock i = 0 := by
  rw [← computation.stamp_eq_clock, EventOrder.stamp, EventOrder.tally, Finset.card_eq_zero,
    Finset.filter_eq_empty_iff]
  rintro ⟨j, k⟩ - hproc
  rw [computation.proc_eq] at hproc
  obtain rfl : j = i := hproc
  exact absurd hi (List.ne_nil_of_length_pos (Nat.zero_lt_of_lt k.isLt))

end LoggedComputation

/-! ## A host -/

/-- The events at a host whose application appends these lines, some at a time, while the agent
takes its turns. -/
inductive LogsLines : List HostEvent → List LogLine → Prop
  | start : LogsLines [] []
  | append {events : List HostEvent} {lines : List LogLine} (new : List LogLine) :
      LogsLines events lines → LogsLines (events ++ [.append (logText new)]) (lines ++ new)
  | poll {events : List HostEvent} {lines : List LogLine} :
      LogsLines events lines → LogsLines (events ++ [.poll]) lines

/-- The file holds some lines behind what was in it at the start, and the agent has stamped those
that it has read. -/
structure HostFollows (n o : ℕ) (base : Bytes) (lines read : List LogLine) (host : AgentHost) :
    Prop where
  read_prefix : read <+: lines
  reproduces : host.agent.Reproduces n o read
  hasRead : host.agent.HasRead (base ++ logText read)
  file_eq : host.file = some (base ++ logText lines) ∨ host.file = none ∧ base = [] ∧ lines = []

theorem logText_append (lines lines' : List LogLine) :
    logText (lines ++ lines') = logText lines ++ logText lines' := by
  rw [logText, List.map_append, linesText, List.flatMap_append]
  rfl

theorem Agent.Reproduces.seek {n o : ℕ} {lines : List LogLine} {agent : Agent}
    (h : agent.Reproduces n o lines) (offset : ℕ) : (agent.seek offset).Reproduces n o lines :=
  ⟨h.index, h.nodeCount, h.slot, h.length, h.entry⟩

/-- More lines are stamped behind those that were. -/
theorem Agent.Reproduces.processBuffers_append (env : AgentEnv) {n o : ℕ} {read : List LogLine}
    {agent : Agent} (h : agent.Reproduces n o read) (ho : o < n) {lines : List LogLine}
    (hbound : (read ++ lines).length < 2 ^ 64) :
    (LogAgg.processBuffers env agent (lines.map fun line => line.bytes ++ [newline])).Reproduces n o
      (read ++ lines) := by
  induction lines using List.reverseRecOn with
  | nil =>
    rw [List.append_nil]
    exact h
  | append_singleton lines line ih =>
    rw [← List.append_assoc, List.length_append, List.length_singleton] at hbound
    have hcstring : cstring (line.bytes ++ [newline]) = line.bytes ++ [newline] := by
      refine cstring_eq_self fun hnul => ?_
      rcases List.mem_append.mp hnul with hnul | hnul
      · exact line.nul_notMem hnul
      · exact absurd (List.mem_singleton.mp hnul) (by decide)
    rw [List.map_append, List.map_singleton, LogAgg.processBuffers_append, ← List.append_assoc]
    show (LogAgg.processLine env _ (cstring (line.bytes ++ [newline]))).Reproduces n o _
    rw [hcstring]
    exact (ih (by omega)).processLine ho line hbound

namespace HostFollows

variable {n o : ℕ} {base : Bytes} {lines read : List LogLine} {host : AgentHost}

/-- The start. -/
theorem init {config : AgentConfig} (hn : n ≤ vcMaxNodes)
    (hindex : agentNodeIndex config.nodeId.bytes = o) (ho : o < n) (file : Option Bytes) :
    HostFollows n o (file.getD []) [] [] ⟨file, agentInit config n file⟩ where
  read_prefix := List.prefix_refl _
  reproduces := reproduces_agentInit hn hindex ho file
  hasRead := by
    have hempty : logText [] = [] := rfl
    rw [hempty, List.append_nil]
    exact hasRead_agentInit config n file
  file_eq := by
    have hempty : logText [] = [] := rfl
    cases file with
    | none => exact Or.inr ⟨rfl, rfl, rfl⟩
    | some content =>
      rw [hempty, List.append_nil]
      exact Or.inl rfl

/-- The application appends lines. -/
theorem append (h : HostFollows n o base lines read host) (env : AgentEnv) (new : List LogLine) :
    HostFollows n o base (lines ++ new) read (hostAct env (.append (logText new)) host).1 where
  read_prefix := h.read_prefix.trans (List.prefix_append _ _)
  reproduces := h.reproduces
  hasRead := h.hasRead
  file_eq := by
    left
    show some (host.file.getD [] ++ logText new) = _
    rw [logText_append, ← List.append_assoc]
    rcases h.file_eq with hfile | ⟨hfile, rfl, rfl⟩
    · rw [hfile, Option.getD_some]
    · rw [hfile]
      rfl

/-- The agent takes a turn, and has read all lines then. -/
theorem poll (h : HostFollows n o base lines read host) (env : AgentEnv) (ho : o < n)
    (hbound : lines.length < 2 ^ 64) :
    HostFollows n o base lines lines (hostAct env .poll host).1 := by
  obtain ⟨rest, rfl⟩ := h.read_prefix
  rcases h.file_eq with hfile | ⟨hfile, rfl, hnone⟩
  · have hbuffers : buffers (logMessageMaxLen - 1) (logText rest) =
        rest.map fun line => line.bytes ++ [newline] := by
      have hpolls := flatMap_buffers_logText [rest]
      rwa [List.map_singleton, List.flatMap_cons, List.flatMap_nil, List.append_nil,
        List.flatten_cons, List.flatten_nil, List.append_nil] at hpolls
    have hcontent : base ++ logText (read ++ rest) = base ++ logText read ++ logText rest := by
      rw [logText_append, List.append_assoc]
    have hpoll := agentPoll_append env h.hasRead (logText rest)
    rw [← hcontent, hbuffers] at hpoll
    have hagent : (hostAct env .poll host).1.agent = (processBuffers env host.agent
        (rest.map fun line => line.bytes ++ [newline])).seek
          (base ++ logText (read ++ rest)).length := by
      show agentPoll env host.agent host.file = _
      rw [hfile, hpoll]
    refine ⟨List.prefix_refl _, ?_, ?_, Or.inl hfile⟩
    · rw [hagent]
      exact (h.reproduces.processBuffers_append env ho hbound).seek _
    · rw [hagent]
      exact hasRead_seek _ _
  · obtain ⟨rfl, rfl⟩ := List.append_eq_nil_iff.mp hnone
    have hagent : (hostAct env .poll host).1.agent = host.agent := by
      show agentPoll env host.agent host.file = _
      rw [hfile]
      rfl
    refine ⟨List.prefix_refl _, ?_, ?_, Or.inr ⟨hfile, rfl, rfl⟩⟩
    · rw [hagent]
      exact h.reproduces
    · rw [hagent]
      exact h.hasRead

/-- **What an agent has sent** are entries of its events, in order. -/
theorem carries {logs : Fin 3 → List LogLine} (computation : LoggedComputation logs) {i : Fin 3}
    (h : HostFollows 3 i base lines read host) (hlines : lines <+: logs i) {k : ℕ}
    {entry : LogEntry} (hentry : host.agent.sent[k]? = some entry) :
    ∃ hk : k < (logs i).length, Carries computation.order ⟨i, k, hk⟩ entry := by
  have hread : read <+: logs i := h.read_prefix.trans hlines
  have hlt : k < read.length := by
    rw [← h.reproduces.length]
    exact (List.getElem?_eq_some_iff.mp hentry).1
  obtain ⟨hcount, hslot⟩ := h.reproduces.entry k entry hentry
  have hk : k < (logs i).length := hlt.trans_le hread.length_le
  refine ⟨hk, hcount, fun j => ?_⟩
  have htake : read.take (k + 1) = (logs i).take (k + 1) := by
    obtain ⟨rest, hrest⟩ := hread
    rw [← hrest, List.take_append_of_le_length hlt]
  rw [hslot j j.isLt, htake]
  exact computation.clockAfter_eq_stamp i j ⟨k, hk⟩

end HostFollows

/-- **A host on its own follows its log.** -/
theorem exists_hostFollows {ι : Type*} (env : ι → AgentEnv) (i : ι) {n o : ℕ} (hn : n ≤ vcMaxNodes)
    {config : AgentConfig} (hindex : agentNodeIndex config.nodeId.bytes = o) (ho : o < n)
    (file : Option Bytes) {events : List HostEvent} {lines : List LogLine}
    (h : LogsLines events lines) (hbound : lines.length < 2 ^ 64) :
    ∃ read, HostFollows n o (file.getD []) lines read
      ((pipelineParties env).solo i ⟨file, agentInit config n file⟩ events).1 := by
  induction h with
  | start => exact ⟨[], HostFollows.init hn hindex ho file⟩
  | append new _ ih =>
    rw [List.length_append] at hbound
    obtain ⟨read, hfollows⟩ := ih (by omega)
    rw [Parties.solo_concat]
    exact ⟨read, hfollows.append (env i) new⟩
  | poll _ ih =>
    obtain ⟨read, hfollows⟩ := ih hbound
    rw [Parties.solo_concat]
    exact ⟨_, hfollows.poll (env i) ho hbound⟩

end LogAgg
