import LogAgg.CString.Text
import LogAgg.Store.Basic

/-!
# Statistics

`store_get_stats` counts the entries of each node in an array of 32 slots.  The slot of a node
id such as `node-07` is its number, and that of any other id is a hash.  An entry whose slot is
not one of the 32 is not counted.  There are such entries: the agents of `node-32` have one, as
numbers start at 1, and on a platform whose `char` is signed the remainder of a negative sum is
negative, so that a hash can be below zero.

The counts add up to the total exactly when each node id has a slot
(`storeGetStats_accounts_iff`).  The number of nodes that is reported is large enough in any
case (`lt_nodeCount_of_ne_zero`).
-/

namespace LogAgg

/-! ## The slot of a node id -/

/-- `*p` as an `int`.  Whether a `char` is signed is up to the platform. -/
def charValue (charSigned : Bool) (c : UInt8) : ℤ :=
  if charSigned ∧ 128 ≤ c.toNat then c.toNat - 256 else c.toNat

/-- The hash of a node id that has no number. -/
def nameHash (charSigned : Bool) (id : Bytes) : ℤ :=
  id.foldl (fun idx c => (idx * 31 + charValue charSigned c).tmod 32) 0

/-- The slot of a node id, as it is computed. -/
def statsIndex (charSigned : Bool) (id : Bytes) : ℤ :=
  if id.take 5 = ascii "node-" then atoi (id.drop 5) else nameHash charSigned id

/-- What `store_get_stats` hands over. -/
structure Stats where
  total : ℕ
  nodeCounts : Fin 32 → ℕ
  nodeCount : ℤ

/-- `counts` and `max_node`. -/
structure NodeCounts where
  counts : Fin 32 → ℕ
  maxNode : ℤ

/-- The body of the loop of `store_get_stats`. -/
def countEntry (charSigned : Bool) (stats : NodeCounts) (entry : LogEntry) : NodeCounts :=
  let idx := statsIndex charSigned entry.nodeId.bytes
  if h : 0 ≤ idx ∧ idx < 32 then
    let slot : Fin 32 := ⟨idx.toNat, by omega⟩
    { counts := Function.update stats.counts slot (stats.counts slot + 1)
      maxNode := if stats.maxNode < idx then idx else stats.maxNode }
  else stats

/-- The loop of `store_get_stats`. -/
def countEntries (charSigned : Bool) (entries : List LogEntry) : NodeCounts :=
  entries.foldl (countEntry charSigned) ⟨fun _ => 0, 0⟩

/-- `store_get_stats`. -/
def storeGetStats (charSigned : Bool) (store : LogStore) : Stats :=
  let stats := countEntries charSigned store.entries
  ⟨store.count, stats.counts, stats.maxNode + 1⟩

/-! ## Node ids with a slot -/

/-- The node id has a number, and it is at most 31; or it has none, and its hash is not
negative. -/
def HasSlot (charSigned : Bool) (id : Bytes) : Prop :=
  if id.take 5 = ascii "node-" then 0 ≤ atoi (id.drop 5) ∧ atoi (id.drop 5) ≤ 31
  else 0 ≤ nameHash charSigned id

instance (charSigned : Bool) (id : Bytes) : Decidable (HasSlot charSigned id) := by
  unfold HasSlot
  infer_instance

/-- A hash is a remainder. -/
theorem nameHash_lt (charSigned : Bool) (id : Bytes) : nameHash charSigned id < 32 :=
  List.foldlRecOn (motive := fun idx : ℤ => idx < 32) _ _ (by decide)
    fun _ _ _ _ => Int.tmod_lt_of_pos _ (by decide)

/-- Hashes of characters that are not negative are not negative. -/
theorem nameHash_nonneg {charSigned : Bool} {id : Bytes}
    (h : ∀ c ∈ id, 0 ≤ charValue charSigned c) : 0 ≤ nameHash charSigned id := by
  refine List.foldlRecOn (motive := fun idx : ℤ => 0 ≤ idx) _ _ le_rfl fun idx hidx c hc => ?_
  have hchar := h c hc
  exact Int.tmod_nonneg _ (by omega)

theorem charValue_nonneg {charSigned : Bool} {c : UInt8} (h : charSigned = false ∨ c.toNat < 128) :
    0 ≤ charValue charSigned c := by
  have hplain : ¬ (charSigned ∧ 128 ≤ c.toNat) := by
    rintro ⟨hsigned, hlarge⟩
    rcases h with h | h
    · rw [h] at hsigned
      exact Bool.noConfusion hsigned
    · omega
  rw [charValue, if_neg hplain]
  exact Int.natCast_nonneg _

/-- **Every ASCII id without a number has a slot**, and where a `char` is not signed so has every
id without a number. -/
theorem hasSlot_of_ascii {charSigned : Bool} {id : Bytes} (hname : id.take 5 ≠ ascii "node-")
    (h : charSigned = false ∨ ∀ c ∈ id, c.toNat < 128) : HasSlot charSigned id := by
  rw [HasSlot, if_neg hname]
  exact nameHash_nonneg fun c hc => charValue_nonneg (h.imp_right fun h => h c hc)

/-- Such ids are the ones that are counted. -/
theorem hasSlot_iff (charSigned : Bool) (id : Bytes) :
    HasSlot charSigned id ↔ 0 ≤ statsIndex charSigned id ∧ statsIndex charSigned id < 32 := by
  unfold HasSlot statsIndex
  split
  · rw [Int.lt_iff_add_one_le]
    omega
  · exact ⟨fun h => ⟨h, nameHash_lt charSigned id⟩, fun h => h.1⟩

/-! ## What the loop counts -/

variable {charSigned : Bool}

theorem sum_update_add_one (counts : Fin 32 → ℕ) (slot : Fin 32) :
    ∑ i, Function.update counts slot (counts slot + 1) i = (∑ i, counts i) + 1 := by
  have hsplit := Finset.add_sum_erase Finset.univ counts (Finset.mem_univ slot)
  rw [← hsplit, Finset.sum_update_of_mem (Finset.mem_univ slot), Finset.sdiff_singleton_eq_erase,
    add_right_comm]

/-- The counts so far: they add up to the number of entries with a slot, and no slot that was
used lies behind the largest one. -/
structure NodeCounts.Counts (charSigned : Bool) (stats : NodeCounts) (entries : List LogEntry) :
    Prop where
  sum_counts : ∑ i, stats.counts i =
    entries.countP fun entry => HasSlot charSigned entry.nodeId.bytes
  le_maxNode : ∀ i, stats.counts i ≠ 0 → (i.val : ℤ) ≤ stats.maxNode

/-- What the loop does with an entry: it counts it in its slot, or skips it. -/
theorem countEntry_cases (stats : NodeCounts) (entry : LogEntry) :
    (HasSlot charSigned entry.nodeId.bytes ∧ ∃ slot : Fin 32,
        countEntry charSigned stats entry =
          ⟨Function.update stats.counts slot (stats.counts slot + 1), max stats.maxNode slot.val⟩) ∨
      ¬ HasSlot charSigned entry.nodeId.bytes ∧ countEntry charSigned stats entry = stats := by
  rw [hasSlot_iff]
  unfold countEntry
  by_cases hrange : 0 ≤ statsIndex charSigned entry.nodeId.bytes ∧
      statsIndex charSigned entry.nodeId.bytes < 32
  · have hlt : (statsIndex charSigned entry.nodeId.bytes).toNat < 32 := by omega
    refine Or.inl ⟨hrange, ⟨_, hlt⟩, (dif_pos hrange).trans ?_⟩
    have hmax : ∀ a b : ℤ, (if a < b then b else a) = max a b := by
      intro a b
      split
      · exact (max_eq_right (by omega)).symm
      · exact (max_eq_left (by omega)).symm
    dsimp only
    rw [hmax, Int.toNat_of_nonneg hrange.1]
  · exact Or.inr ⟨hrange, dif_neg hrange⟩

/-- **One entry.** -/
theorem NodeCounts.Counts.countEntry {stats : NodeCounts} {entries : List LogEntry}
    (h : stats.Counts charSigned entries) (entry : LogEntry) :
    (countEntry charSigned stats entry).Counts charSigned (entries ++ [entry]) := by
  rcases countEntry_cases stats entry with ⟨hslot, slot, hstats⟩ | ⟨hslot, hstats⟩
  · rw [hstats]
    refine ⟨?_, fun i hi => ?_⟩
    · rw [sum_update_add_one, h.sum_counts, List.countP_append, List.countP_singleton,
        if_pos (decide_eq_true hslot)]
    · by_cases hsame : i = slot
      · rw [hsame]
        exact le_max_right _ _
      · have hold : stats.counts i ≠ 0 := by
          have hupdate := Function.update_of_ne hsame (stats.counts slot + 1) stats.counts
          rwa [← hupdate]
        exact le_max_of_le_left (h.le_maxNode i hold)
  · have hskip : ¬ decide (HasSlot charSigned entry.nodeId.bytes) = true := by
      rwa [decide_eq_true_eq]
    rw [hstats]
    refine ⟨?_, h.le_maxNode⟩
    rw [h.sum_counts, List.countP_append, List.countP_singleton, if_neg hskip, Nat.add_zero]

/-- **All entries.** -/
theorem counts_countEntries (entries : List LogEntry) :
    (countEntries charSigned entries).Counts charSigned entries := by
  induction entries using List.reverseRecOn with
  | nil =>
    refine ⟨?_, fun i hi => absurd rfl hi⟩
    exact Finset.sum_const_zero
  | append_singleton entries entry ih =>
    rw [countEntries, List.foldl_append]
    exact ih.countEntry entry

/-- The number of nodes is larger than every slot that was used. -/
theorem lt_nodeCount_of_ne_zero (store : LogStore) {i : Fin 32}
    (hi : (storeGetStats charSigned store).nodeCounts i ≠ 0) :
    (i.val : ℤ) < (storeGetStats charSigned store).nodeCount :=
  Int.lt_add_one_of_le ((counts_countEntries store.entries).le_maxNode i hi)

/-- **When the statistics account for every log**: exactly if every node id has a slot.  Of the
node ids without a number, all ASCII ones have one, and all where a `char` is not signed. -/
theorem storeGetStats_accounts_iff (charSigned : Bool) (store : LogStore) :
    (((∑ i, (storeGetStats charSigned store).nodeCounts i) = (storeGetStats charSigned store).total ∧
        ∀ i : Fin 32, (storeGetStats charSigned store).nodeCounts i ≠ 0 →
          (i.val : ℤ) < (storeGetStats charSigned store).nodeCount) ↔
      ∀ entry ∈ store.entries, HasSlot charSigned entry.nodeId.bytes) ∧
    ∀ id : Bytes, id.take 5 ≠ ascii "node-" →
      (charSigned = false ∨ ∀ c ∈ id, c.toNat < 128) → HasSlot charSigned id := by
  refine ⟨?_, fun id hname h => hasSlot_of_ascii hname h⟩
  have hsum : (∑ i, (storeGetStats charSigned store).nodeCounts i) =
      store.entries.countP fun entry => HasSlot charSigned entry.nodeId.bytes :=
    (counts_countEntries store.entries).sum_counts
  have htotal : (storeGetStats charSigned store).total = store.entries.length := rfl
  rw [hsum, htotal, List.countP_eq_length]
  simp only [decide_eq_true_eq]
  exact ⟨fun h => h.1, fun h => ⟨h, fun i hi => lt_nodeCount_of_ne_zero store hi⟩⟩

/-- A log of the last of 32 nodes. -/
def lastNodeStore : LogStore :=
  storeOf [{ LogEntry.zero with nodeId := CStr.ofBytes (ascii "node-32") }]

/-- It is not counted.  A node with the name `é` has no slot either where a `char` is signed. -/
theorem storeGetStats_lastNodeStore :
    (storeGetStats true lastNodeStore).total = 1 ∧
      (∀ i, (storeGetStats true lastNodeStore).nodeCounts i = 0) ∧
      (∑ i, (storeGetStats true lastNodeStore).nodeCounts i) ≠
        (storeGetStats true lastNodeStore).total ∧
      ¬ HasSlot true [195, 169] ∧ HasSlot false [195, 169] := by
  decide +kernel

end LogAgg
