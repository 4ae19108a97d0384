import LogAgg.LogEntry.Basic

/-!
# The log store

The record of `store.h`, the deduplicating hash table and the two functions that fill a
store, `store_init` and `store_append`.  Whether an allocation succeeds is an input
(`AppendAlloc`).  A store carries the bounds of its array: the entries fit the capacity,
and the capacity is never zero, which is why doubling it once makes room.
-/

namespace LogAgg

/-- `STORE_INIT_CAPACITY`. -/
def storeInitCapacity : ℕ := 1024

/-- `MAX_TERM_LEN`, without the terminator. -/
def maxTermLen : ℕ := 63

/-- `DEDUP_HASH_SIZE`. -/
def dedupHashSize : ℕ := 65536

/-- `index_entry_t`: a word and its posting list, the positions of the entries whose
message holds the word. -/
structure IndexEntry where
  term : CStr maxTermLen
  posting : List ℕ
  deriving DecidableEq

/-- `hash_node_t`, without the link to the next node. -/
structure HashNode where
  nodeId : CStr 63
  vc : VectorClock
  deriving DecidableEq

/-- `dedup_hash_t`: every bucket is a chain of nodes. -/
abbrev DedupHash := Fin dedupHashSize → List HashNode

/-- `log_store_t`. -/
@[ext]
structure LogStore where
  entries : List LogEntry
  /-- The size of the allocated array. -/
  capacity : ℕ
  sorted : Bool
  /-- The dictionary of the inverted index. -/
  index : List IndexEntry
  dedupHash : DedupHash
  /-- The entries fit their array. -/
  count_le : entries.length ≤ capacity
  /-- The array is never empty. -/
  capacity_pos : 0 < capacity

namespace LogStore

/-- `store->count`. -/
def count (store : LogStore) : ℕ := store.entries.length

/-- `store->entries[store->count++] = *entry`, in an array with room. -/
def push (store : LogStore) (entry : LogEntry) (hroom : store.count < store.capacity) : LogStore :=
  { store with
    entries := store.entries ++ [entry]
    sorted := false
    count_le := by
      rw [List.length_append, List.length_singleton]
      exact hroom }

@[simp] theorem entries_push (store : LogStore) (entry : LogEntry)
    (hroom : store.count < store.capacity) :
    (store.push entry hroom).entries = store.entries ++ [entry] := rfl

end LogStore

/-- `store_init`, when its allocations succeed.  The index is left as the memory held
it. -/
def storeInit (index : List IndexEntry) : LogStore where
  entries := []
  capacity := storeInitCapacity
  sorted := false
  index := index
  dedupHash := fun _ => []
  count_le := Nat.zero_le _
  capacity_pos := by decide

@[simp] theorem entries_storeInit (index : List IndexEntry) : (storeInit index).entries = [] := rfl

/-- `store_expand`, when the reallocation succeeds.  A doubling that left the range of its
`int` would be negative, a size no reallocation has memory for. -/
def storeExpand (store : LogStore) : LogStore :=
  { store with
    capacity := store.capacity * 2
    count_le := store.count_le.trans (Nat.le_mul_of_pos_right _ two_pos)
    capacity_pos := Nat.mul_pos store.capacity_pos two_pos }

/-- Doubling the array makes room. -/
theorem count_lt_capacity_storeExpand (store : LogStore) :
    (storeExpand store).count < (storeExpand store).capacity := by
  have hle : store.entries.length ≤ store.capacity := store.count_le
  have hpos := store.capacity_pos
  have hcount : (storeExpand store).count = store.entries.length := rfl
  have hcapacity : (storeExpand store).capacity = store.capacity * 2 := rfl
  omega

/-! ## Deduplication -/

/-- The bytes of an unsigned number in memory, least significant first. -/
def littleEndian (width n : ℕ) : Bytes := (List.range width).map fun k => (n / 256 ^ k).toUInt8

/-- The bytes of a `vector_clock_t` in memory: the node count, the padding, which the
`memset` of the parser clears, and all slots, used or not. -/
def VectorClock.memory (vc : VectorClock) : Bytes :=
  littleEndian 4 vc.nodeCount ++ littleEndian 4 0 ++
    (List.range vcMaxNodes).flatMap fun i => littleEndian 8 (vc.slot i).toNat

/-- One round of FNV-1a. -/
def fnvRound (hash : UInt32) (byte : UInt8) : UInt32 := (hash ^^^ byte.toUInt32) * 16777619

/-- `calculate_hash`. -/
def calculateHash (nodeId : Bytes) (vc : VectorClock) : Fin dedupHashSize :=
  let hash := vc.memory.foldl fnvRound (nodeId.foldl fnvRound 2166136261)
  ⟨hash.toNat &&& (dedupHashSize - 1), Nat.and_lt_two_pow _ (by decide : dedupHashSize - 1 < 2 ^ 16)⟩

/-- The test that a node of the table holds this key. -/
def HashNode.hasKey (node : HashNode) (nodeId : Bytes) (vc : VectorClock) : Bool :=
  strcmp node.nodeId.bytes nodeId == 0 && vcCompare node.vc vc == .equal

/-- `dedup_hash_check_and_insert`: whether the key was in the table, and the table
afterwards.  Without memory for a node the key is reported new but not kept. -/
def dedupHashCheckAndInsert (allocated : Bool) (h : DedupHash) (nodeId : Bytes)
    (vc : VectorClock) : Bool × DedupHash :=
  let idx := calculateHash nodeId vc
  if (h idx).any (fun node => node.hasKey nodeId vc) then (true, h)
  else if allocated then (false, Function.update h idx (⟨CStr.ofBytes nodeId, vc⟩ :: h idx))
  else (false, h)

/-! ## Appending -/

/-- The outcomes of the allocations an append may make. -/
structure AppendAlloc where
  /-- The node of the hash table. -/
  node : Bool
  /-- The larger entry array. -/
  entries : Bool

/-- Both allocations succeed. -/
def AppendAlloc.ok : AppendAlloc := ⟨true, true⟩

/-- `store_append`: the value returned and the store afterwards.  A duplicate returns
0 as a new entry does. -/
def storeAppend (alloc : AppendAlloc) (store : LogStore) (entry : LogEntry) : ℤ × LogStore :=
  let (known, dedupHash) :=
    dedupHashCheckAndInsert alloc.node store.dedupHash entry.nodeId.bytes entry.vc
  if known then (0, store)
  else
    let store := { store with dedupHash := dedupHash }
    if hroom : store.count < store.capacity then (0, store.push entry hroom)
    else if alloc.entries then
      (0, (storeExpand store).push entry (count_lt_capacity_storeExpand store))
    else (-1, store)

/-- The store after a list of entries was appended to a fresh one. -/
def storeOf (entries : List LogEntry) : LogStore :=
  entries.foldl (fun store entry => (storeAppend .ok store entry).2) (storeInit [])

/-- An append whose allocations succeed returns 0. -/
theorem storeAppend_ok (store : LogStore) (entry : LogEntry) :
    (storeAppend .ok store entry).1 = 0 := by
  simp only [storeAppend, AppendAlloc.ok]
  split
  · rfl
  · split <;> rfl

end LogAgg
