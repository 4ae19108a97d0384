import LogAgg.Agent.Tags

/-!
# Tags with negative values

`agent_parse_line` reads the values of a tag `[VC:a,b,c]` as `int`s, and `process_new_lines`
compares them with the components of the clock as `uint64_t`s.  It asks whether the first value
is negative, and only the first.  A negative second or third value is cast to a number close to
`2^64`, and is taken over as such, unless the component is as large already.

So the tag of a line contributes nothing but what it states exactly when there is no such value
(`processNewLines_contributes_iff`).
-/

namespace LogAgg

open Ascii

/-- A line behind a clock tag with values of either sign. -/
def signedText (tag : Fin 3 → SignedNumeral) (content : Bytes) : Bytes :=
  tagText (fun i => (tag i).text) content

/-- Each component but the own one stays, or becomes the value in the tag, which is not
negative. -/
def ContributesOnly (myNodeIdx : ℤ) (tag : Fin 3 → SignedNumeral) (before after : VectorClock) :
    Prop :=
  ∀ i : Fin 3, (i.val : ℤ) ≠ myNodeIdx →
    after.slot i = before.slot i ∨
      0 ≤ (tag i).value ∧ ((after.slot i).toNat : ℤ) = (tag i).value

/-- The first value is negative, or else no other negative value, as a `uint64_t`, is larger than
the component. -/
def NoneRaises (myNodeIdx : ℤ) (tag : Fin 3 → SignedNumeral) (before : VectorClock) : Prop :=
  0 ≤ (tag 0).value → ∀ i : Fin 3, (i.val : ℤ) ≠ myNodeIdx → (tag i).value < 0 →
    2 ^ 64 + (tag i).value ≤ (before.slot i).toNat

/-! ## Casts -/

/-- A negative `int` wraps around. -/
theorem toNat_ofInt_of_neg {v : ℤ} (hv : v < 0) (hle : -2 ^ 31 ≤ v) :
    ((UInt64.ofInt v).toNat : ℤ) = 2 ^ 64 + v := by
  rw [UInt64.ofInt, UInt64.toNat_ofNat']
  omega

/-! ## The clock behind a line -/

variable {env : AgentEnv}

/-- The values of a tag of either sign are read. -/
theorem parseVcTag_signedText (tag : Fin 3 → SignedNumeral) (content : Bytes) :
    (parseVcTag (signedText tag content)).2 = fun i => (tag i).value := by
  have hbracket : ∀ i, rbracket ∉ (tag i).text := by
    intro i hmem
    rcases List.mem_append.mp hmem with hsign | hdigit
    · rcases (tag i).sign_eq with h | h | h
      · exact absurd (h ▸ hsign) List.not_mem_nil
      · exact absurd (List.mem_singleton.mp (h ▸ hsign)) (by decide)
      · exact absurd (List.mem_singleton.mp (h ▸ hsign)) (by decide)
    · exact absurd ((tag i).isdigit_of_mem _ hdigit) (by decide)
  rw [signedText, parseVcTag_tagText (fun i => (tag i).readsInt) hbracket]

theorem vc_processLine_signedText (agent : Agent) (tag : Fin 3 → SignedNumeral) (content : Bytes) :
    (processLine env agent (signedText tag content)).vc =
      agent.stampVc fun i => (tag i).value := by
  have hne : signedText tag content ≠ [] := List.cons_ne_nil _ _
  have hhead : (signedText tag content).head? ≠ some newline := by
    intro h
    exact absurd (Option.some_inj.mp h) (by decide)
  obtain ⟨entry, hparse, -⟩ :=
    exists_agentParseLine env.mktime (env.now agent.stamped) hne hhead
  rw [parseVcTag_signedText] at hparse
  rw [processLine_of_some hparse]

/-- One component: it keeps to the tag exactly if no negative value raises it. -/
theorem max_toNat_ofInt_iff {v : ℤ} (hv : -2 ^ 31 ≤ v ∧ v < 2 ^ 31) (n : ℕ) :
    (max n (UInt64.ofInt v).toNat = n ∨ 0 ≤ v ∧ ((max n (UInt64.ofInt v).toNat : ℕ) : ℤ) = v) ↔
      (v < 0 → 2 ^ 64 + v ≤ n) := by
  by_cases hneg : v < 0
  · have hcast := toNat_ofInt_of_neg hneg hv.1
    constructor
    · rintro (hstays | ⟨hpos, -⟩) -
      · have hle : (UInt64.ofInt v).toNat ≤ n := max_eq_left_iff.mp hstays
        omega
      · exact absurd hneg (not_lt.mpr hpos)
    · intro hle
      have hsmall := hle hneg
      exact Or.inl (max_eq_left (by omega))
  · have hcast := toNat_ofInt_of_nonneg (not_lt.mp hneg) hv.2
    refine ⟨fun _ h => absurd h hneg, fun _ => ?_⟩
    rcases le_total (UInt64.ofInt v).toNat n with hle | hle
    · exact Or.inl (max_eq_left hle)
    · right
      rw [max_eq_right hle]
      exact ⟨not_lt.mp hneg, hcast⟩

/-- **One line.** -/
theorem contributesOnly_processLine_iff (agent : Agent) (tag : Fin 3 → SignedNumeral)
    (content : Bytes) :
    ContributesOnly (agentNodeIndex agent.config.nodeId.bytes) tag agent.vc
        (processLine env agent (signedText tag content)).vc ↔
      NoneRaises (agentNodeIndex agent.config.nodeId.bytes) tag agent.vc := by
  rw [vc_processLine_signedText]
  have hslot := agent.slot_stampVc_of_ne fun i => (tag i).value
  by_cases hfirst : 0 ≤ (tag 0).value
  · have hcomponent : ∀ i : Fin 3, (i.val : ℤ) ≠ agentNodeIndex agent.config.nodeId.bytes →
        (((agent.stampVc fun i => (tag i).value).slot i = agent.vc.slot i ∨
          0 ≤ (tag i).value ∧
            (((agent.stampVc fun i => (tag i).value).slot i).toNat : ℤ) = (tag i).value) ↔
          ((tag i).value < 0 → 2 ^ 64 + (tag i).value ≤ (agent.vc.slot i).toNat)) := by
      intro i hi
      have hi' := hslot i hi
      rw [if_pos hfirst] at hi'
      rw [← UInt64.toNat_inj, hi']
      exact max_toNat_ofInt_iff (tag i).value_bounds _
    exact ⟨fun h _ i hi => (hcomponent i hi).mp (h i hi),
      fun h i hi => (hcomponent i hi).mpr (h hfirst i hi)⟩
  · -- nothing is merged
    refine ⟨fun _ h => absurd h hfirst, fun _ i hi => Or.inl ?_⟩
    have hi' := hslot i hi
    rw [if_neg hfirst] at hi'
    exact UInt64.toNat_inj.mp hi'

theorem config_processBuffers (env : AgentEnv) (agent : Agent) (shown : List Bytes) :
    (processBuffers env agent shown).config = agent.config := by
  refine List.foldlRecOn (motive := fun a : Agent => a.config = agent.config) _ _ rfl
    fun a ha buffer _ => ?_
  rw [← ha]
  unfold processLine
  split
  · rfl
  · rfl

/-- **When a tag contributes only what it states.**  For every agent, every file and every turn
of the loop of `process_new_lines` whose line starts with a tag. -/
theorem processNewLines_contributes_iff (env : AgentEnv) (agent : Agent) (content : Bytes)
    {k : ℕ} {buffer : Bytes}
    (hbuffer : (buffers (logMessageMaxLen - 1) (content.drop agent.lastOffset))[k]? = some buffer)
    {tag : Fin 3 → SignedNumeral} {text : Bytes} (hline : cstring buffer = signedText tag text) :
    let shown := buffers (logMessageMaxLen - 1) (content.drop agent.lastOffset)
    let myNodeIdx := agentNodeIndex agent.config.nodeId.bytes
    let before := processBuffers env agent (shown.take k)
    ContributesOnly myNodeIdx tag before.vc (processBuffers env agent (shown.take (k + 1))).vc ↔
      NoneRaises myNodeIdx tag before.vc := by
  intro shown myNodeIdx before
  have hstep : processBuffers env agent (shown.take (k + 1)) =
      processLine env before (signedText tag text) := by
    rw [List.take_add_one, hbuffer, Option.toList_some, processBuffers_append, ← hline]
    rfl
  have hindex : myNodeIdx = agentNodeIndex before.config.nodeId.bytes := by
    rw [config_processBuffers]
  rw [hstep, hindex]
  exact contributesOnly_processLine_iff before tag text

/-- `process_new_lines` leaves the clock to its loop. -/
theorem vc_processNewLines {agent : Agent} (hopen : agent.logFp = true) (content : Bytes) :
    (processNewLines env agent content).vc =
      (processBuffers env agent
        (buffers (logMessageMaxLen - 1) (content.drop agent.lastOffset))).vc := by
  rw [processNewLines, if_pos hopen]

/-- The numeral of one digit, with a sign or without. -/
def SignedNumeral.ofDigit (negative : Bool) (c : UInt8) (hc : isdigit c = true) :
    SignedNumeral where
  sign := if negative then [45] else []
  digits := [c]
  sign_eq := by
    cases negative
    · exact Or.inl rfl
    · exact Or.inr (Or.inr rfl)
  ne_nil := singleton_ne_nil c
  isdigit_of_mem := isdigit_of_mem_singleton hc
  value_mem := by
    have hvalue := digitsValue_singleton_lt hc
    by_cases hsign : (if negative then [45] else [] : Bytes) = [45]
    · rw [if_pos hsign]
      exact hvalue.le
    · rw [if_neg hsign]
      exact hvalue

/-- The values `1,-1,0`. -/
def negativeTag : Fin 3 → SignedNumeral :=
  ![.ofDigit false 49 isdigit_one, .ofDigit true 49 isdigit_one, .ofDigit false 48 isdigit_zero]

/-- A line with a negative value for the second node. -/
def negativeLine : Bytes := ascii "[VC:1,-1,0] INFO: started"

theorem buffers_negativeLine :
    buffers (logMessageMaxLen - 1) (negativeLine ++ [newline]) = [negativeLine ++ [newline]] := by
  rw [buffers_line (by decide) (by decide), buffers_nil]

/-- The first of three nodes, with an empty log file. -/
def firstAgent : Agent := agentInit (AgentConfig.ofNodeId (ascii "node-01")) 3 (some [])

theorem processNewLines_contributes_iff_negative :
    let shown := buffers (logMessageMaxLen - 1)
      ((negativeLine ++ [newline]).drop firstAgent.lastOffset)
    let myNodeIdx := agentNodeIndex firstAgent.config.nodeId.bytes
    let before := processBuffers .still firstAgent (shown.take 0)
    ContributesOnly myNodeIdx negativeTag before.vc
        (processBuffers .still firstAgent (shown.take 1)).vc ↔
      NoneRaises myNodeIdx negativeTag before.vc :=
  processNewLines_contributes_iff .still firstAgent (negativeLine ++ [newline])
    (congrArg (·[0]?) buffers_negativeLine)
    (show cstring (negativeLine ++ [newline]) = signedText negativeTag (ascii " INFO: started\n") by
      decide +kernel)

/-- The second component is raised from zero to `2^64 - 1`. -/
theorem processNewLines_negativeLine :
    agentNodeIndex firstAgent.config.nodeId.bytes = 0 ∧ firstAgent.vc.nodeCount = 3 ∧
      firstAgent.vc.slot 1 = 0 ∧
      ((processNewLines .still firstAgent (negativeLine ++ [newline])).vc.slot 1).toNat =
        2 ^ 64 - 1 := by
  have hloop : (processNewLines .still firstAgent (negativeLine ++ [newline])).vc =
      (processLine .still firstAgent (cstring (negativeLine ++ [newline]))).vc := by
    have hdrop : (negativeLine ++ [newline]).drop firstAgent.lastOffset =
        negativeLine ++ [newline] := rfl
    rw [vc_processNewLines rfl, hdrop, buffers_negativeLine]
    rfl
  rw [hloop]
  decide +kernel

end LogAgg
