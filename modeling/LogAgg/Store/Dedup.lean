import LogAgg.Dedup.KeepFirst
import LogAgg.LogEntry.RoundTrip
import LogAgg.Store.Basic

/-!
# Deduplication

`store_append` drops an entry when its hash table holds the key of the entry, the node id
and the clock.  The table is a chained hash table in the sense of `Dedup.insertNew`, so
what a sequence of appends stores is known exactly (`entries_storeAppendAll`,
`dedupHash_storeAppendAll`): the first entries of their kind, where two entries are of a
kind when they have the same node id, `vc_compare` finds their clocks equal, *and* their
keys fall in the same bucket.

The hash reads the bytes of the clock, its node count and its unused slots included, while
`vc_compare` reads missing components as zeros.  So equal keys may fall in different
buckets, and the linear scan that the table replaced drops more
(`storeAppendAll_eq_linearScan_iff`).
-/

namespace LogAgg

open Dedup

/-! ## Keys -/

/-- The key under which an entry is kept, as the table stores it. -/
def LogEntry.key (entry : LogEntry) : HashNode := ⟨CStr.ofBytes entry.nodeId.bytes, entry.vc⟩

/-- The same node id, and clocks that `vc_compare` finds equal. -/
def LogEntry.SameKey (a b : LogEntry) : Prop := a.nodeId = b.nodeId ∧ vcCompare a.vc b.vc = .equal

/-- The bucket of a node of the table. -/
def HashNode.hash (node : HashNode) : Fin dedupHashSize := calculateHash node.nodeId.bytes node.vc

/-- The bucket of an entry. -/
def LogEntry.hash (entry : LogEntry) : Fin dedupHashSize :=
  calculateHash entry.nodeId.bytes entry.vc

/-- The comparison in the chain, between nodes. -/
def HashNode.known (node key : HashNode) : Bool := node.hasKey key.nodeId.bytes key.vc

/-- The array of a table node has room for every node id. -/
@[simp] theorem nodeId_key (entry : LogEntry) : entry.key.nodeId.bytes = entry.nodeId.bytes :=
  CStr.bytes_ofBytes (entry.nodeId.length_le.trans (by decide)) entry.nodeId.nul_notMem

@[simp] theorem vc_key (entry : LogEntry) : entry.key.vc = entry.vc := rfl

@[simp] theorem hash_key (entry : LogEntry) : entry.key.hash = entry.hash := by
  rw [HashNode.hash, nodeId_key, vc_key, LogEntry.hash]

/-- The test for a known key, on entries. -/
theorem known_key_iff {a b : LogEntry} : a.key.known b.key = true ↔ a.SameKey b := by
  rw [HashNode.known, HashNode.hasKey, Bool.and_eq_true, beq_iff_eq, beq_iff_eq, nodeId_key,
    nodeId_key, strcmp_eq_zero_iff, LogEntry.SameKey, CStr.ext_iff, vc_key, vc_key]

/-- Sharing a key is an equivalence: `vc_compare` finds clocks equal that are equal as
functions. -/
theorem equivalence_sameKey : Equivalence LogEntry.SameKey where
  refl _ := ⟨rfl, vcCompare_eq_equal_iff.mpr rfl⟩
  symm h := ⟨h.1.symm, vcCompare_eq_equal_iff.mpr (vcCompare_eq_equal_iff.mp h.2).symm⟩
  trans h k := ⟨h.1.trans k.1, vcCompare_eq_equal_iff.mpr
    ((vcCompare_eq_equal_iff.mp h.2).trans (vcCompare_eq_equal_iff.mp k.2))⟩

instance (a b : LogEntry) : Decidable (a.SameKey b) :=
  inferInstanceAs (Decidable (a.nodeId = b.nodeId ∧ vcCompare a.vc b.vc = .equal))

/-- Two entries the table takes for the same: a key in common and a bucket in common. -/
def LogEntry.sameNode (a b : LogEntry) : Bool := decide (a.hash = b.hash) && decide (a.SameKey b)

theorem sameNode_iff {a b : LogEntry} : a.sameNode b = true ↔ a.hash = b.hash ∧ a.SameKey b := by
  rw [LogEntry.sameNode, Bool.and_eq_true, decide_eq_true_eq, decide_eq_true_eq]

theorem sameBucket_key (a b : LogEntry) :
    sameBucket HashNode.hash HashNode.known a.key b.key = a.sameNode b := by
  rw [Bool.eq_iff_iff, sameBucket, Bool.and_eq_true, decide_eq_true_eq, known_key_iff, hash_key,
    hash_key, sameNode_iff]

theorem equivalence_sameNode : Equivalence fun a b : LogEntry => a.sameNode b = true where
  refl a := sameNode_iff.mpr ⟨rfl, equivalence_sameKey.refl a⟩
  symm h := by
    rw [sameNode_iff] at h ⊢
    exact ⟨h.1.symm, equivalence_sameKey.symm h.2⟩
  trans h k := by
    rw [sameNode_iff] at h k ⊢
    exact ⟨h.1.trans k.1, equivalence_sameKey.trans h.2 k.2⟩

/-! ## Appending a list of entries -/

/-- Appending entries one after the other, with allocations that succeed. -/
def storeAppendAll (store : LogStore) (entries : List LogEntry) : LogStore :=
  entries.foldl (fun store entry => (storeAppend .ok store entry).2) store

@[simp] theorem storeAppendAll_concat (store : LogStore) (entries : List LogEntry)
    (entry : LogEntry) :
    storeAppendAll store (entries ++ [entry]) =
      (storeAppend .ok (storeAppendAll store entries) entry).2 := by
  rw [storeAppendAll, List.foldl_append, List.foldl_cons, List.foldl_nil]
  rfl

/-- With memory for the node, the table is the chained hash table of the library. -/
theorem dedupHashCheckAndInsert_eq (h : DedupHash) (entry : LogEntry) :
    dedupHashCheckAndInsert true h entry.nodeId.bytes entry.vc =
      insertNew HashNode.hash HashNode.known h entry.key := by
  unfold dedupHashCheckAndInsert insertNew HashNode.known
  simp only [hash_key, nodeId_key, vc_key, if_true]
  rfl

/-- **What one append does.**  The table decides, and a new entry goes to the end of the
array, grown or not. -/
theorem storeAppend_spec (store : LogStore) (entry : LogEntry) :
    (storeAppend .ok store entry).2.entries =
        (if (insertNew HashNode.hash HashNode.known store.dedupHash entry.key).1 then store.entries
        else store.entries ++ [entry]) ∧
      (storeAppend .ok store entry).2.dedupHash =
        (insertNew HashNode.hash HashNode.known store.dedupHash entry.key).2 := by
  have hcheck : dedupHashCheckAndInsert AppendAlloc.ok.node store.dedupHash entry.nodeId.bytes
      entry.vc = insertNew HashNode.hash HashNode.known store.dedupHash entry.key :=
    dedupHashCheckAndInsert_eq store.dedupHash entry
  unfold storeAppend
  rw [hcheck]
  unfold insertNew
  by_cases hany : (store.dedupHash entry.key.hash).any (fun node => node.known entry.key) = true
  · rw [if_pos hany]
    exact ⟨rfl, rfl⟩
  · rw [if_neg hany]
    dsimp only
    rw [if_neg Bool.false_ne_true]
    split
    · exact ⟨rfl, rfl⟩
    · exact ⟨rfl, rfl⟩

/-- The array and the table after any appends to a fresh store: the array holds the
entries that are the first of their kind, and the table lists their keys. -/
theorem storeAppendAll_spec (index : List IndexEntry) (entries : List LogEntry) :
    (storeAppendAll (storeInit index) entries).entries = keepFirst LogEntry.sameNode entries ∧
      (storeAppendAll (storeInit index) entries).dedupHash =
        bucketsOf HashNode.hash ((keepFirst LogEntry.sameNode entries).map LogEntry.key) := by
  induction entries using List.reverseRecOn with
  | nil => exact ⟨rfl, rfl⟩
  | append_singleton entries entry ih =>
    obtain ⟨hentries, htable⟩ := ih
    obtain ⟨hentries', htable'⟩ := storeAppend_spec (storeAppendAll (storeInit index) entries) entry
    have hany : ((keepFirst LogEntry.sameNode entries).map LogEntry.key).any
          (fun y => sameBucket HashNode.hash HashNode.known y entry.key) =
        (keepFirst LogEntry.sameNode entries).any (fun y => y.sameNode entry) := by
      rw [List.any_map]
      simp only [Function.comp_def, sameBucket_key]
    rw [storeAppendAll_concat, keepFirst_concat, hentries', htable', hentries, htable,
      insertNew_bucketsOf, hany]
    refine ⟨rfl, ?_⟩
    dsimp only
    unfold keepStep
    rw [hany]
    split
    · rfl
    · rw [List.map_append, List.map_cons, List.map_nil]

theorem entries_storeAppendAll (index : List IndexEntry) (entries : List LogEntry) :
    (storeAppendAll (storeInit index) entries).entries = keepFirst LogEntry.sameNode entries :=
  (storeAppendAll_spec index entries).1

theorem dedupHash_storeAppendAll (index : List IndexEntry) (entries : List LogEntry) :
    (storeAppendAll (storeInit index) entries).dedupHash =
      bucketsOf HashNode.hash ((keepFirst LogEntry.sameNode entries).map LogEntry.key) :=
  (storeAppendAll_spec index entries).2

/-- **Deduplication loses no log.**  Whatever is appended to a fresh store: the stored
entries are a subsequence of it; every appended entry has a stored entry with its key; the
buckets hold the keys of the stored entries and nothing else, each in the bucket of its
hash; and the array never holds more than it has room for. -/
theorem storeAppendAll_loses_no_log (index : List IndexEntry) (entries : List LogEntry) :
    (storeAppendAll (storeInit index) entries).entries.Sublist entries ∧
      (∀ entry ∈ entries, ∃ stored ∈ (storeAppendAll (storeInit index) entries).entries,
        stored.nodeId = entry.nodeId ∧ vcCompare stored.vc entry.vc = .equal) ∧
      (∀ i node, node ∈ (storeAppendAll (storeInit index) entries).dedupHash i ↔
        ∃ stored ∈ (storeAppendAll (storeInit index) entries).entries,
          node.nodeId.bytes = stored.nodeId.bytes ∧ node.vc = stored.vc ∧
            calculateHash stored.nodeId.bytes stored.vc = i) ∧
      (storeAppendAll (storeInit index) entries).count ≤
        (storeAppendAll (storeInit index) entries).capacity := by
  refine ⟨?_, fun entry hentry => ?_, fun i node => ?_, LogStore.count_le _⟩
  · rw [entries_storeAppendAll]
    exact keepFirst_sublist LogEntry.sameNode entries
  · rw [entries_storeAppendAll]
    obtain ⟨stored, hstored, hsame⟩ := exists_mem_keepFirst equivalence_sameNode.refl hentry
    exact ⟨stored, hstored, (sameNode_iff.mp hsame).2⟩
  · rw [dedupHash_storeAppendAll, entries_storeAppendAll, mem_bucketsOf, List.mem_map]
    constructor
    · rintro ⟨⟨stored, hstored, rfl⟩, hhash⟩
      rw [hash_key] at hhash
      exact ⟨stored, hstored, nodeId_key stored, rfl, hhash⟩
    · rintro ⟨stored, hstored, hid, hvc, hhash⟩
      have hkey : stored.key = node := by
        have hid' : stored.key.nodeId = node.nodeId := CStr.ext ((nodeId_key stored).trans hid.symm)
        cases node
        exact congrArg₂ HashNode.mk hid' hvc.symm
      refine ⟨⟨stored, hstored, hkey⟩, ?_⟩
      rw [← hkey, hash_key]
      exact hhash

/-! ## The linear scan -/

/-- The scan that `store_append` made before it had a table: an entry is stored unless a
stored entry has its key. -/
def linearScan (entries : List LogEntry) : List LogEntry :=
  entries.foldl
    (fun stored entry =>
      if stored.any fun s =>
          strcmp s.nodeId.bytes entry.nodeId.bytes == 0 && vcCompare s.vc entry.vc == .equal then
        stored
      else stored ++ [entry]) []

/-- The test of the scan, between entries. -/
def LogEntry.sameKey (a b : LogEntry) : Bool :=
  strcmp a.nodeId.bytes b.nodeId.bytes == 0 && vcCompare a.vc b.vc == .equal

theorem sameKey_iff {a b : LogEntry} : a.sameKey b = true ↔ a.SameKey b := by
  rw [LogEntry.sameKey, Bool.and_eq_true, beq_iff_eq, beq_iff_eq, strcmp_eq_zero_iff,
    LogEntry.SameKey, CStr.ext_iff]

theorem linearScan_eq (entries : List LogEntry) :
    linearScan entries = keepFirst LogEntry.sameKey entries := rfl

/-- **When the table drops what the scan dropped.**  The array is the one the scan leaves,
and no two stored entries share a key, exactly when appended entries that share a key
share a bucket. -/
theorem storeAppendAll_eq_linearScan_iff (index : List IndexEntry) (entries : List LogEntry) :
    ((storeAppendAll (storeInit index) entries).entries = linearScan entries ∧
        (storeAppendAll (storeInit index) entries).entries.Pairwise fun a b =>
          ¬ (a.nodeId = b.nodeId ∧ vcCompare a.vc b.vc = .equal)) ↔
      ∀ a ∈ entries, ∀ b ∈ entries, a.nodeId = b.nodeId → vcCompare a.vc b.vc = .equal →
        calculateHash a.nodeId.bytes a.vc = calculateHash b.nodeId.bytes b.vc := by
  have hknown : Equivalence fun a b : LogEntry => a.sameKey b = true := by
    simp only [sameKey_iff]
    exact equivalence_sameKey
  have heq : keepFirst LogEntry.sameNode entries = keepFirst LogEntry.sameKey entries ↔
      ∀ a ∈ entries, ∀ b ∈ entries, a.sameKey b = true → a.sameNode b = true :=
    keepFirst_eq_iff hknown equivalence_sameNode
      fun a b h => sameKey_iff.mpr (sameNode_iff.mp h).2
  rw [entries_storeAppendAll, linearScan_eq]
  constructor
  · rintro ⟨hscan, -⟩ a ha b hb hid hvc
    exact (sameNode_iff.mp (heq.mp hscan a ha b hb (sameKey_iff.mpr ⟨hid, hvc⟩))).1
  · intro h
    have hscan : keepFirst LogEntry.sameNode entries = keepFirst LogEntry.sameKey entries := by
      refine heq.mpr fun a ha b hb hab => sameNode_iff.mpr ?_
      have hkey := sameKey_iff.mp hab
      exact ⟨h a ha b hb hkey.1 hkey.2, hkey⟩
    refine ⟨hscan, ?_⟩
    rw [hscan]
    refine (pairwise_keepFirst LogEntry.sameKey entries).imp fun hfalse hkey => ?_
    rw [sameKey_iff.mpr hkey] at hfalse
    exact absurd hfalse (by decide)

/-- A log entry of node 0 by an agent that counts one node. -/
def shortEntry : LogEntry :=
  { LogEntry.ofClock [1] one_le_vcMaxNodes with nodeId := CStr.ofBytes (ascii "node-0") }

/-- The same with a clock of two nodes, the second still at zero. -/
def paddedEntry : LogEntry :=
  { LogEntry.ofClock [1, 0] two_le_vcMaxNodes with nodeId := CStr.ofBytes (ascii "node-0") }

/-- The table stores both, though they share a key, and the scan stored one. -/
theorem paddedEntry_stored_twice :
    ∃ short padded, logEntryFromJson (entryText shortEntry) = .ok short ∧
      logEntryFromJson (entryText paddedEntry) = .ok padded ∧
      (storeAppendAll (storeInit []) [short, padded]).entries = [short, padded] ∧
      linearScan [short, padded] = [short] ∧
      ¬ ((storeAppendAll (storeInit []) [short, padded]).entries = linearScan [short, padded] ∧
        (storeAppendAll (storeInit []) [short, padded]).entries.Pairwise fun a b =>
          ¬ (a.nodeId = b.nodeId ∧ vcCompare a.vc b.vc = .equal)) := by
  have hkept : (received shortEntry).hash ≠ (received paddedEntry).hash ∧
      (received shortEntry).sameKey (received paddedEntry) = true := by
    decide +kernel
  have hnode : (received shortEntry).sameNode (received paddedEntry) = false := by
    rw [LogEntry.sameNode, decide_eq_false hkept.1, Bool.false_and]
  have hstored : (storeAppendAll (storeInit []) [received shortEntry, received paddedEntry]).entries =
      [received shortEntry, received paddedEntry] := by
    rw [entries_storeAppendAll]
    simp [keepFirst, keepStep, hnode]
  have hscan : linearScan [received shortEntry, received paddedEntry] = [received shortEntry] := by
    rw [linearScan_eq]
    simp [keepFirst, keepStep, hkept.2]
  refine ⟨received shortEntry, received paddedEntry, logEntryFromJson_entryText rfl,
    logEntryFromJson_entryText rfl, hstored, hscan, fun h => ?_⟩
  rw [hstored, hscan] at h
  exact absurd h.1 (by simp)

end LogAgg
