import LogAgg.Agent.Basic

/-!
# The clock of an agent advances

An agent counts its lines in one component of its clock, which it finds through its node id
alone.  If the clock has this component (`OwnsComponent`), then each entry happens before the
next one, whatever is in the file and however often it is polled (`agentRun_advances`).
Otherwise nothing is counted, and two lines without a tag are sent with the same clock
(`exists_not_advancing`).  So `OwnsComponent` is exactly what `main` would have to ask for
(`agentRun_advances_iff`).
-/

namespace LogAgg

open Ascii

/-- The component for the lines of a node is one of the components of the clock: the first
number in the node id is at most the number of nodes, and is not the `int` below which there is
none, or there is no number, and the bytes, as the digits of a number in base 31, are modulo 32
less than it. -/
def OwnsComponent (nodeId : Bytes) (nodeCount : ℕ) : Prop :=
  match nodeId.dropWhile fun c => !isdigit c with
  | [] => nodeId.foldl (fun hash c => hash * 31 + c.toNat) 0 % 32 < nodeCount
  | c :: number => atoi (c :: number) ≤ nodeCount ∧ atoi (c :: number) ≠ -2 ^ 31

instance (nodeId : Bytes) (nodeCount : ℕ) : Decidable (OwnsComponent nodeId nodeCount) :=
  match h : nodeId.dropWhile fun c => !isdigit c with
  | [] =>
    decidable_of_iff (nodeId.foldl (fun hash c => hash * 31 + c.toNat) 0 % 32 < nodeCount)
      (by rw [OwnsComponent, h])
  | c :: number =>
    decidable_of_iff (atoi (c :: number) ≤ nodeCount ∧ atoi (c :: number) ≠ -2 ^ 31)
      (by rw [OwnsComponent, h])

/-! ## The own index -/

/-- The hash wraps around, which the remainder does not notice. -/
theorem toNat_foldl_hash (nodeId : Bytes) (hash : UInt32) :
    (nodeId.foldl (fun (hash : UInt32) c => hash * 31 + c.toUInt32) hash).toNat % 32 =
      nodeId.foldl (fun hash c => hash * 31 + c.toNat) hash.toNat % 32 := by
  -- the fold modulo 32 depends on the start modulo 32
  have hmod : ∀ (nodeId : Bytes) (a b : ℕ), a % 32 = b % 32 →
      nodeId.foldl (fun hash c => hash * 31 + c.toNat) a % 32 =
        nodeId.foldl (fun hash c => hash * 31 + c.toNat) b % 32 := by
    intro nodeId
    induction nodeId with
    | nil => exact fun a b h => h
    | cons c nodeId ih =>
      intro a b h
      refine ih _ _ ?_
      dsimp only
      omega
  induction nodeId generalizing hash with
  | nil => rfl
  | cons c nodeId ih =>
    rw [List.foldl_cons, List.foldl_cons, ih]
    refine hmod nodeId _ _ ?_
    rw [UInt32.toNat_add, UInt32.toNat_mul, UInt8.toNat_toUInt32]
    have h31 : (31 : UInt32).toNat = 31 := rfl
    rw [h31]
    omega

theorem agentNodeIndex_nonneg (nodeId : Bytes) : 0 ≤ agentNodeIndex nodeId := by
  unfold agentNodeIndex
  split
  · exact Int.natCast_nonneg _
  · dsimp only
    split
    · exact le_rfl
    · omega

/-- The difference is exact, except below the smallest `int`, where it becomes the largest one. -/
theorem bmod_sub_one {v : ℤ} (h : -2 ^ 31 ≤ v ∧ v < 2 ^ 31) :
    Int.bmod (v - 1) (2 ^ 32) = if v = -2 ^ 31 then 2 ^ 31 - 1 else v - 1 := by
  split
  · rename_i hmin
    rw [hmin]
    rfl
  · rename_i hmin
    rw [Int.bmod_eq_of_le (by omega) (by omega)]

theorem ownsComponent_iff {nodeId : Bytes} {nodeCount : ℕ} (hpos : 0 < nodeCount)
    (hle : nodeCount ≤ vcMaxNodes) :
    OwnsComponent nodeId nodeCount ↔ agentNodeIndex nodeId < nodeCount := by
  unfold OwnsComponent agentNodeIndex
  cases nodeId.dropWhile fun c => !isdigit c with
  | nil =>
    dsimp only
    have hhash := toNat_foldl_hash nodeId 0
    have h32 : (32 : UInt32).toNat = 32 := rfl
    rw [UInt32.toNat_mod, h32, hhash, Int.ofNat_lt]
    rfl
  | cons c number =>
    dsimp only
    have hmax : vcMaxNodes = 32 := rfl
    rw [bmod_sub_one (atoi_bounds (c :: number))]
    by_cases hmin : atoi (c :: number) = -2 ^ 31
    · -- the difference wraps around, to an index beyond every clock
      rw [if_pos hmin, if_neg (by omega)]
      exact iff_of_false (fun h => h.2 hmin) (by omega)
    · rw [if_neg hmin]
      split
      · exact iff_of_true ⟨by omega, hmin⟩ (by omega)
      · constructor
        · rintro ⟨hle, -⟩
          omega
        · intro hlt
          exact ⟨by omega, hmin⟩

/-- This number is read as the smallest `int`. -/
example : ¬ OwnsComponent (ascii "node-2147483648") 3 := by decide

/-! ## One line -/

variable {env : AgentEnv}

/-- A line moves the clock forward, if the own component does not wrap around. -/
theorem Agent.extend_lt_extend_stampVc {agent : Agent} {o : ℕ}
    (hindex : agentNodeIndex agent.config.nodeId.bytes = o) (ho : o < agent.vc.nodeCount)
    (hown : (agent.vc.slot o).toNat + 1 < 2 ^ 64) (parsedVc : ParsedVc) :
    agent.vc.extend < (agent.stampVc parsedVc).extend := by
  have hcount : (mergeParsedVc o parsedVc agent.vc).nodeCount = agent.vc.nodeCount :=
    nodeCount_mergeParsedVc ..
  have hmerge : agent.vc.extend ≤ (mergeParsedVc o parsedVc agent.vc).extend := by
    rw [VectorClock.extend_le_iff]
    intro i hi
    rw [VectorClock.extend_of_lt hi, VectorClock.extend_of_lt (by rwa [hcount])]
    exact slot_mergeParsedVc_le parsedVc o agent.vc i
  -- the tag does not touch the own component
  have hslot : (mergeParsedVc o parsedVc agent.vc).extend o = (agent.vc.slot o).toNat := by
    rw [VectorClock.extend_of_lt (by rwa [hcount]), slot_mergeParsedVc_of_not _ _ _ (Or.inl rfl)]
  rw [Agent.stampVc, hindex]
  exact hmerge.trans_lt (extend_lt_extend_vcIncrement (by rwa [hcount]) (by rwa [hslot]))

/-- The agent counts what it sends in its own component, and the entries sent are ordered. -/
structure Agent.Advances (o : ℕ) (agent : Agent) : Prop where
  index : agentNodeIndex agent.config.nodeId.bytes = o
  lt : o < agent.vc.nodeCount
  own : agent.vc.slot o = UInt64.ofNat agent.sent.length
  last : ∀ entry ∈ agent.sent.getLast?, entry.vc.extend = agent.vc.extend
  chain : agent.sent.length < 2 ^ 64 → agent.sent.IsChain LogEntry.HappensBefore

theorem Agent.Advances.processLine {o : ℕ} {agent : Agent} (h : agent.Advances o) (line : Bytes) :
    (processLine env agent line).Advances o := by
  cases hparse : agentParseLine env.mktime (env.now agent.stamped) line with
  | none => rwa [processLine_of_none hparse]
  | some parsed =>
    obtain ⟨entry, parsedVc⟩ := parsed
    rw [processLine_of_some hparse]
    have hextend := Agent.extend_vc_stampEntry agent entry parsedVc
    have hlength : (agent.sent ++ [agent.stampEntry entry parsedVc]).length =
        agent.sent.length + 1 := List.length_append
    refine ⟨h.index, ?_, ?_, ?_, ?_⟩
    · rw [Agent.nodeCount_stampVc]
      exact h.lt
    · have hmerged : o < (mergeParsedVc o parsedVc agent.vc).nodeCount := by
        rw [nodeCount_mergeParsedVc]
        exact h.lt
      show (agent.stampVc parsedVc).slot o = UInt64.ofNat (List.length _)
      rw [hlength, Agent.stampVc, h.index, slot_vcIncrement _ hmerged, if_pos rfl,
        slot_mergeParsedVc_of_not _ _ _ (Or.inl rfl), h.own, UInt64.ofNat_add]
      rfl
    · intro last hlast
      rw [List.getLast?_concat, Option.mem_some] at hlast
      rw [← hlast]
      exact hextend
    · intro hbound
      show (agent.sent ++ [agent.stampEntry entry parsedVc]).IsChain LogEntry.HappensBefore
      have hbound' : agent.sent.length + 1 < 2 ^ 64 := by rwa [← hlength]
      rw [List.isChain_append]
      refine ⟨h.chain (by omega), List.isChain_singleton _, fun last hlast next hnext => ?_⟩
      rw [List.head?_singleton, Option.mem_some] at hnext
      have hown : (agent.vc.slot o).toNat + 1 < 2 ^ 64 := by
        have hlt : agent.sent.length < 2 ^ 64 := by omega
        rw [h.own, UInt64.toNat_ofNat_of_lt' hlt]
        exact hbound'
      rw [LogEntry.happensBefore_iff, ← hnext, hextend, h.last last hlast]
      exact Agent.extend_lt_extend_stampVc h.index h.lt hown parsedVc

/-! ## Runs -/

theorem advances_agentInit {config : AgentConfig} {n o : ℕ} (hn : n ≤ vcMaxNodes)
    (hindex : agentNodeIndex config.nodeId.bytes = o) (ho : o < n) (file : Option Bytes) :
    (agentInit config n file).Advances o where
  index := hindex
  lt := by
    show o < (vcInit VectorClock.zero n).nodeCount
    rw [nodeCount_vcInit _ (by omega) hn]
    exact ho
  own := slot_vcInit VectorClock.zero (by omega) hn ho
  last := fun entry hentry => absurd hentry (by simp [agentInit])
  chain := fun _ => List.IsChain.nil

/-- **An agent with a component of its own sends ordered entries**, in every run. -/
theorem agentRun_advances {o : ℕ} {agent : Agent} (h : agent.Advances o)
    (polls : List (Option Bytes)) : (agentRun env agent polls).Advances o :=
  agentRun_induction (fun _ _ _ h => ⟨h.index, h.lt, h.own, h.last, h.chain⟩)
    (fun _ line h => h.processLine line) h polls

/-! ## Without a component of its own -/

/-- A line without a tag, and without a place for the count, leaves the clock alone. -/
theorem Agent.stampVc_eq_self {agent : Agent}
    (hindex : (agent.vc.nodeCount : ℤ) ≤ agentNodeIndex agent.config.nodeId.bytes) :
    agent.stampVc (fun _ => -1) = agent.vc := by
  have hmerge : ∀ idx, mergeParsedVc idx (fun _ => -1) agent.vc = agent.vc :=
    fun idx => if_neg (by decide)
  rw [Agent.stampVc, hmerge, vcIncrement, if_pos (Or.inr hindex)]

/-- A line with the text `a`. -/
def oneLine : Bytes := ascii "a\n"

/-- What a line without a tag does, without a place for the count. -/
theorem exists_processLine_oneLine (env : AgentEnv) {agent : Agent}
    (hindex : (agent.vc.nodeCount : ℤ) ≤ agentNodeIndex agent.config.nodeId.bytes) :
    ∃ entry : LogEntry, entry.vc.extend = agent.vc.extend ∧
      (processLine env agent oneLine).sent = agent.sent ++ [entry] ∧
      (processLine env agent oneLine).vc = agent.vc ∧
      (processLine env agent oneLine).config = agent.config := by
  have htag : (parseVcTag oneLine).2 = fun _ => -1 := by decide
  have hne : oneLine ≠ [] := by decide
  obtain ⟨entry, hparse, -⟩ :=
    exists_agentParseLine env.mktime (env.now agent.stamped) hne (by decide)
  rw [htag] at hparse
  have hclock := Agent.stampVc_eq_self hindex
  rw [processLine_of_some hparse]
  refine ⟨_, ?_, rfl, hclock, rfl⟩
  rw [Agent.extend_vc_stampEntry, hclock]

theorem buffers_oneLine (s : Bytes) :
    buffers (logMessageMaxLen - 1) (oneLine ++ s) = oneLine :: buffers (logMessageMaxLen - 1) s := by
  have hline : newline ∉ ascii "a" := by decide
  exact buffers_line hline (by decide) s

/-- **Without a component of its own, an agent sends entries with the same clock.** -/
theorem exists_not_advancing (env : AgentEnv) {config : AgentConfig} {n : ℕ} (hpos : 0 < n)
    (hn : n ≤ vcMaxNodes) (h : ¬ OwnsComponent config.nodeId.bytes n) :
    (agentRun env (agentInit config n none) [some (oneLine ++ oneLine)]).sent.length = 2 ∧
      ¬ (agentRun env (agentInit config n none) [some (oneLine ++ oneLine)]).sent.IsChain
        LogEntry.HappensBefore := by
  have hshown : buffers (logMessageMaxLen - 1) (oneLine ++ oneLine) = [oneLine, oneLine] := by
    have hlast := buffers_oneLine []
    rw [List.append_nil, buffers_nil] at hlast
    rw [buffers_oneLine, hlast]
  have hcount : (agentInit config n none).vc.nodeCount = n := nodeCount_vcInit _ hpos hn
  have hindex : ((agentInit config n none).vc.nodeCount : ℤ) ≤
      agentNodeIndex (agentInit config n none).config.nodeId.bytes := by
    rw [hcount]
    exact not_lt.mp (mt (ownsComponent_iff hpos hn).mpr h)
  -- the first and the second line
  obtain ⟨first, hfirst, hsent, hvc, hconfig⟩ := exists_processLine_oneLine env hindex
  rw [← hvc, ← hconfig] at hindex
  obtain ⟨second, hsecond, hsent', -, -⟩ := exists_processLine_oneLine env hindex
  have hboth : (agentRun env (agentInit config n none) [some (oneLine ++ oneLine)]).sent =
      [first, second] := by
    have hrun := sent_agentRun_visible env (hasRead_agentInit config n none) [oneLine ++ oneLine]
    refine hrun.trans ?_
    rw [List.flatMap_cons, List.flatMap_nil, List.append_nil, hshown]
    refine hsent'.trans ?_
    rw [hsent]
    rfl
  rw [hboth]
  refine ⟨rfl, fun hchain => ?_⟩
  have hbefore := (List.isChain_cons_cons.mp hchain).1
  rw [LogEntry.happensBefore_iff, hfirst, hsecond, hvc] at hbefore
  exact lt_irrefl _ hbefore

/-- **The clock advances exactly in a component of its own.**  For the node ids and numbers of
nodes that `main` accepts: in every run, as long as the number of entries fits a component,
each entry sent happens before the next one, if and only if the component that the node id
stands for is one of the clock. -/
theorem agentRun_advances_iff {config : AgentConfig} {n : ℕ} (hmain : MainAccepts config n) :
    (∀ (env : AgentEnv) (file : Option Bytes) (polls : List (Option Bytes)),
      (agentRun env (agentInit config n file) polls).sent.length < 2 ^ 64 →
      (agentRun env (agentInit config n file) polls).sent.IsChain LogEntry.HappensBefore) ↔
    OwnsComponent config.nodeId.bytes n := by
  have hpos : 0 < n := by exact_mod_cast hmain.2.1
  have hn : n ≤ vcMaxNodes := by exact_mod_cast hmain.2.2
  constructor
  · intro h
    by_contra howns
    obtain ⟨hlength, hchain⟩ := exists_not_advancing AgentEnv.still hpos hn howns
    refine hchain (h AgentEnv.still none _ ?_)
    rw [hlength]
    decide
  · intro howns env file polls
    have hlt := (ownsComponent_iff hpos hn).mp howns
    obtain ⟨o, ho⟩ := Int.eq_ofNat_of_zero_le (agentNodeIndex_nonneg config.nodeId.bytes)
    have hon : o < n := by omega
    exact (agentRun_advances (advances_agentInit hn ho hon file) polls).chain

/-- The first node of the usual three. -/
theorem agentRun_advances_node01 :
    MainAccepts (AgentConfig.ofNodeId (ascii "node-01")) 3 ∧
    ∀ (env : AgentEnv) (file : Option Bytes) (polls : List (Option Bytes)),
      (agentRun env (agentInit (AgentConfig.ofNodeId (ascii "node-01")) 3 file) polls).sent.length <
        2 ^ 64 →
      (agentRun env (agentInit (AgentConfig.ofNodeId (ascii "node-01")) 3 file) polls).sent.IsChain
        LogEntry.HappensBefore :=
  have hmain : MainAccepts (AgentConfig.ofNodeId (ascii "node-01")) (3 : ℕ) :=
    ⟨by decide, by decide, by decide⟩
  ⟨hmain, (agentRun_advances_iff hmain).mpr (by decide)⟩

/-- The node `web-server` is accepted, for three nodes, but its component would be number 28
of the clock. -/
theorem webServer_not_advancing :
    ¬ ∀ (config : AgentConfig) (n : ℕ), MainAccepts config n →
      ∀ (env : AgentEnv) (file : Option Bytes) (polls : List (Option Bytes)),
        (agentRun env (agentInit config n file) polls).sent.length < 2 ^ 64 →
        (agentRun env (agentInit config n file) polls).sent.IsChain LogEntry.HappensBefore := by
  intro h
  have hmain : MainAccepts (AgentConfig.ofNodeId (ascii "web-server")) (3 : ℕ) :=
    ⟨by decide, by decide, by decide⟩
  have howns : ¬ OwnsComponent (AgentConfig.ofNodeId (ascii "web-server")).nodeId.bytes 3 := by
    decide
  obtain ⟨hlength, hchain⟩ := exists_not_advancing AgentEnv.still (by decide) (by decide) howns
  refine hchain (h _ 3 hmain _ none _ ?_)
  rw [hlength]
  decide

end LogAgg
