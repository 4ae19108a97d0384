import LogAgg.Store.Dedup

/-!
# Appends that fail

`store_append` first notes the key of an entry in the hash table and then looks for room in
the array.  When the array is full and cannot be expanded it returns `-1` and leaves the key
behind: the entry counts as a duplicate from then on, and appending it again returns 0 and
stores nothing.

An append loses its key in this way when the key is new, the array is full, the node of the table
was allocated and the larger array was not (`LosesKey`).  A failed append leaves the store as
it was in every other case and in no other (`storeAppend_failure_iff`), and along a run without
such an append the table holds the keys of stored entries only, so that whatever returns 0 is
stored.
-/

namespace LogAgg

open Dedup

/-! ## Appends under failing allocations -/

/-- One call of `store_append`: the outcomes of its allocations, and the entry. -/
structure Append where
  alloc : AppendAlloc
  entry : LogEntry

/-- The store after some calls of `store_append`. -/
def storeRun (store : LogStore) (appends : List Append) : LogStore :=
  appends.foldl (fun store append => (storeAppend append.alloc store append.entry).2) store

@[simp] theorem storeRun_nil (store : LogStore) : storeRun store [] = store := rfl

theorem storeRun_append (store : LogStore) (before after : List Append) :
    storeRun store (before ++ after) = storeRun (storeRun store before) after :=
  List.foldl_append

/-- The table of the store holds the key of the entry. -/
def LogStore.Knows (store : LogStore) (entry : LogEntry) : Prop :=
  ∃ node ∈ store.dedupHash entry.hash, node.known entry.key = true

/-- The table with a node for the entry, if there was memory for it. -/
def noteKey (allocated : Bool) (h : DedupHash) (entry : LogEntry) : DedupHash :=
  if allocated then Function.update h entry.hash (entry.key :: h entry.hash) else h

theorem dedupHashCheckAndInsert_of_knows {store : LogStore} {entry : LogEntry}
    (h : store.Knows entry) (allocated : Bool) :
    dedupHashCheckAndInsert allocated store.dedupHash entry.nodeId.bytes entry.vc =
      (true, store.dedupHash) := by
  obtain ⟨node, hnode, hknown⟩ := h
  rw [HashNode.known, nodeId_key, vc_key] at hknown
  unfold dedupHashCheckAndInsert
  exact if_pos (List.any_eq_true.mpr ⟨node, hnode, hknown⟩)

theorem dedupHashCheckAndInsert_of_not_knows {store : LogStore} {entry : LogEntry}
    (h : ¬ store.Knows entry) (allocated : Bool) :
    dedupHashCheckAndInsert allocated store.dedupHash entry.nodeId.bytes entry.vc =
      (false, noteKey allocated store.dedupHash entry) := by
  have hnew : ¬ ((store.dedupHash (calculateHash entry.nodeId.bytes entry.vc)).any fun node =>
      node.hasKey entry.nodeId.bytes entry.vc) = true := by
    intro hany
    obtain ⟨node, hnode, hkey⟩ := List.any_eq_true.mp hany
    refine h ⟨node, hnode, ?_⟩
    rw [HashNode.known, nodeId_key, vc_key]
    exact hkey
  unfold dedupHashCheckAndInsert noteKey
  dsimp only
  rw [if_neg hnew]
  split <;> rfl

/-- **What one append does.**  It drops a known entry, stores a new one, in the array as it is
or in a larger one, or fails with the key noted. -/
theorem storeAppend_cases (alloc : AppendAlloc) (store : LogStore) (entry : LogEntry) :
    (store.Knows entry ∧ storeAppend alloc store entry = (0, store)) ∨
    (¬ store.Knows entry ∧ (store.count < store.capacity ∧
        (storeAppend alloc store entry).2.capacity = store.capacity ∨
          store.capacity ≤ store.count ∧ alloc.entries = true) ∧
      (storeAppend alloc store entry).1 = 0 ∧
      (storeAppend alloc store entry).2.entries = store.entries ++ [entry] ∧
      (storeAppend alloc store entry).2.dedupHash = noteKey alloc.node store.dedupHash entry) ∨
    (¬ store.Knows entry ∧ store.capacity ≤ store.count ∧ alloc.entries = false ∧
      storeAppend alloc store entry =
        (-1, { store with dedupHash := noteKey alloc.node store.dedupHash entry })) := by
  unfold storeAppend
  by_cases hknows : store.Knows entry
  · rw [dedupHashCheckAndInsert_of_knows hknows]
    exact Or.inl ⟨hknows, rfl⟩
  · rw [dedupHashCheckAndInsert_of_not_knows hknows]
    dsimp only
    rw [if_neg Bool.false_ne_true]
    split
    · rename_i hroom
      exact Or.inr (Or.inl ⟨hknows, Or.inl ⟨hroom, rfl⟩, rfl, rfl, rfl⟩)
    · rename_i hfull
      cases hentries : alloc.entries with
      | true => exact Or.inr (Or.inl ⟨hknows, Or.inr ⟨not_lt.mp hfull, rfl⟩, rfl, rfl, rfl⟩)
      | false => exact Or.inr (Or.inr ⟨hknows, not_lt.mp hfull, rfl, rfl⟩)

/-- An append fails when a new entry meets a full array that cannot be expanded. -/
theorem storeAppend_eq_neg_one_iff {alloc : AppendAlloc} {store : LogStore} {entry : LogEntry} :
    (storeAppend alloc store entry).1 = -1 ↔
      ¬ store.Knows entry ∧ store.capacity ≤ store.count ∧ alloc.entries = false := by
  rcases storeAppend_cases alloc store entry with ⟨hknows, heq⟩ | ⟨hnew, hroom, hret, -⟩ |
    ⟨hnew, hfull, hentries, heq⟩
  · rw [heq]
    exact iff_of_false (show (0 : ℤ) ≠ -1 by decide) fun h => h.1 hknows
  · rw [hret]
    refine iff_of_false (by decide) fun h => ?_
    rcases hroom with ⟨hroom, -⟩ | ⟨-, hentries⟩
    · exact absurd h.2.1 (not_le.mpr hroom)
    · rw [h.2.2] at hentries
      cases hentries
  · rw [heq]
    exact iff_of_true rfl ⟨hnew, hfull, hentries⟩

/-! ## One failed append -/

/-- The store shows the same entries, the same count and the same keys. -/
structure SameContent (before after : LogStore) : Prop where
  entries : after.entries = before.entries
  count : after.count = before.count
  keys : ∀ i node, node ∈ after.dedupHash i ↔ node ∈ before.dedupHash i

/-- The branch that goes wrong: the key of a new entry is noted, and then the full array cannot
be expanded. -/
def LosesKey (store : LogStore) (append : Append) : Prop :=
  ¬ store.Knows append.entry ∧ store.capacity ≤ store.count ∧
    append.alloc.node = true ∧ append.alloc.entries = false

/-- An entry has its own key. -/
theorem known_key_self (entry : LogEntry) : entry.key.known entry.key = true :=
  known_key_iff.mpr (equivalence_sameKey.refl entry)

/-- **A failed append leaves the store as it was**, unless it loses its key. -/
theorem sameContent_of_failed_iff {store : LogStore} {append : Append} :
    ((storeAppend append.alloc store append.entry).1 = -1 →
        SameContent store (storeAppend append.alloc store append.entry).2) ↔
      ¬ LosesKey store append := by
  constructor
  · rintro hsame ⟨hnew, hfull, hnode, hentries⟩
    have hkeys := (hsame (storeAppend_eq_neg_one_iff.mpr ⟨hnew, hfull, hentries⟩)).keys
    rcases storeAppend_cases append.alloc store append.entry with ⟨hknows, -⟩ | ⟨-, hroom, -⟩ |
      ⟨-, -, -, heq⟩
    · exact hnew hknows
    · rcases hroom with ⟨hroom, -⟩ | ⟨-, hroom⟩
      · exact absurd hfull (not_le.mpr hroom)
      · rw [hentries] at hroom
        cases hroom
    · -- the new node stands in a bucket that did not have it
      rw [heq] at hkeys
      have hnoted : append.entry.key ∈ noteKey append.alloc.node store.dedupHash append.entry
          append.entry.hash := by
        rw [noteKey, if_pos hnode, Function.update_self]
        exact List.mem_cons_self
      exact hnew ⟨_, (hkeys _ _).mp hnoted, known_key_self _⟩
  · intro hloses hfailed
    obtain ⟨hnew, hfull, hentries⟩ := storeAppend_eq_neg_one_iff.mp hfailed
    have hnode : append.alloc.node = false :=
      Bool.eq_false_iff.mpr fun hnode => hloses ⟨hnew, hfull, hnode, hentries⟩
    rcases storeAppend_cases append.alloc store append.entry with ⟨hknows, -⟩ | ⟨-, -, hret, -⟩ |
      ⟨-, -, -, heq⟩
    · exact absurd hknows hnew
    · rw [hret] at hfailed
      exact absurd hfailed (by decide)
    · rw [heq, noteKey, hnode]
      exact ⟨rfl, rfl, fun i node => Iff.rfl⟩

/-! ## Runs -/

/-- Every key of the table is the key of a stored entry, in its bucket. -/
def KeysStored (store : LogStore) : Prop :=
  ∀ i, ∀ node ∈ store.dedupHash i, ∃ stored ∈ store.entries, stored.key = node

theorem keysStored_storeInit (index : List IndexEntry) : KeysStored (storeInit index) :=
  fun _ _ hnode => absurd hnode List.not_mem_nil

/-- A noted key is a known one or the new one. -/
theorem mem_noteKey {allocated : Bool} {h : DedupHash} {entry : LogEntry}
    {i : Fin dedupHashSize} {node : HashNode} (hnode : node ∈ noteKey allocated h entry i) :
    node ∈ h i ∨ node = entry.key := by
  unfold noteKey at hnode
  split at hnode
  · by_cases hi : i = entry.hash
    · subst hi
      rw [Function.update_self] at hnode
      exact (List.mem_cons.mp hnode).symm
    · rw [Function.update_of_ne hi] at hnode
      exact Or.inl hnode
  · exact Or.inl hnode

/-- **Step.**  An append that does not lose its key keeps the table to stored keys. -/
theorem KeysStored.step {store : LogStore} (h : KeysStored store) {append : Append}
    (happend : ¬ LosesKey store append) :
    KeysStored (storeAppend append.alloc store append.entry).2 := by
  rcases storeAppend_cases append.alloc store append.entry with ⟨-, heq⟩ |
    ⟨-, -, -, hentries, htable⟩ | ⟨hnew, hfull, hentries, heq⟩
  · rw [heq]
    exact h
  · intro i node hnode
    rw [htable] at hnode
    rw [hentries]
    rcases mem_noteKey hnode with hold | rfl
    · obtain ⟨stored, hstored, hkey⟩ := h i node hold
      exact ⟨stored, List.mem_append_left _ hstored, hkey⟩
    · exact ⟨append.entry, List.mem_append_right _ (List.mem_singleton_self _), rfl⟩
  · have hnode : append.alloc.node = false :=
      Bool.eq_false_iff.mpr fun hnode => happend ⟨hnew, hfull, hnode, hentries⟩
    rw [heq, noteKey, hnode]
    exact h

/-- No append of the run loses its key. -/
def LosesNoKey (store : LogStore) (appends : List Append) : Prop :=
  ∀ before append after, appends = before ++ append :: after →
    ¬ LosesKey (storeRun store before) append

/-- **Run.**  Without an append that loses its key, the table holds stored keys only. -/
theorem KeysStored.run {store : LogStore} (h : KeysStored store) {appends : List Append}
    (happends : LosesNoKey store appends) : KeysStored (storeRun store appends) := by
  induction appends using List.reverseRecOn with
  | nil => exact h
  | append_singleton appends append ih =>
    have hbefore : LosesNoKey store appends := by
      intro before append' after heq
      refine happends before append' (after ++ [append]) ?_
      rw [heq, List.append_assoc, List.cons_append]
    rw [storeRun_append]
    exact (ih hbefore).step (happends appends append [] rfl)

/-- **Whatever returns 0 is stored**, if the table holds stored keys only. -/
theorem exists_stored_of_eq_zero {store : LogStore} (h : KeysStored store) {alloc : AppendAlloc}
    {entry : LogEntry} (hret : (storeAppend alloc store entry).1 = 0) :
    ∃ stored ∈ (storeAppend alloc store entry).2.entries,
      stored.nodeId = entry.nodeId ∧ vcCompare stored.vc entry.vc = .equal := by
  rcases storeAppend_cases alloc store entry with ⟨⟨node, hnode, hknown⟩, heq⟩ |
    ⟨-, -, -, hentries, -⟩ | ⟨-, -, -, heq⟩
  · obtain ⟨stored, hstored, rfl⟩ := h _ node hnode
    rw [heq]
    exact ⟨stored, hstored, known_key_iff.mp hknown⟩
  · rw [hentries]
    exact ⟨entry, List.mem_append_right _ (List.mem_singleton_self _), equivalence_sameKey.refl entry⟩
  · rw [heq] at hret
    exact absurd hret (show (-1 : ℤ) ≠ 0 by decide)

/-- **A failed append and its retry.**  After any appends to a fresh store, a call leaves the
store as it was when it fails exactly if it does not lose its key; and if no append of the run
does, then in every state that is reached a failed call leaves the store as it was, and a call
that returns 0, such as the retry of one that failed, leaves an entry with the same node id and
clock in the store. -/
theorem storeAppend_failure_iff (index : List IndexEntry) (appends : List Append)
    (append : Append) :
    (((storeAppend append.alloc (storeRun (storeInit index) appends) append.entry).1 = -1 →
        SameContent (storeRun (storeInit index) appends)
          (storeAppend append.alloc (storeRun (storeInit index) appends) append.entry).2) ↔
      ¬ LosesKey (storeRun (storeInit index) appends) append) ∧
    (LosesNoKey (storeInit index) appends → ∀ before call after,
      appends = before ++ call :: after →
      ((storeAppend call.alloc (storeRun (storeInit index) before) call.entry).1 = -1 →
        SameContent (storeRun (storeInit index) before)
          (storeAppend call.alloc (storeRun (storeInit index) before) call.entry).2) ∧
      ((storeAppend call.alloc (storeRun (storeInit index) before) call.entry).1 = 0 →
        ∃ stored ∈ (storeAppend call.alloc (storeRun (storeInit index) before) call.entry).2.entries,
          stored.nodeId = call.entry.nodeId ∧ vcCompare stored.vc call.entry.vc = .equal)) := by
  refine ⟨sameContent_of_failed_iff, fun happends before call after heq => ⟨?_, fun hret => ?_⟩⟩
  · exact sameContent_of_failed_iff.mpr (happends before call after heq)
  · refine exists_stored_of_eq_zero ((keysStored_storeInit index).run ?_) hret
    intro before' call' after' heq'
    refine happends before' call' (after' ++ call :: after) ?_
    rw [heq, heq', List.append_assoc, List.cons_append]

/-- **The retry of an append that lost its key** returns 0 and stores nothing. -/
theorem storeAppend_retry {store : LogStore} {append : Append} (h : LosesKey store append)
    (alloc : AppendAlloc) :
    (storeAppend append.alloc store append.entry).2.entries = store.entries ∧
      storeAppend alloc (storeAppend append.alloc store append.entry).2 append.entry =
        (0, (storeAppend append.alloc store append.entry).2) := by
  obtain ⟨hnew, hfull, hnode, hentries⟩ := h
  rcases storeAppend_cases append.alloc store append.entry with ⟨hknows, -⟩ | ⟨-, hroom, -⟩ |
    ⟨-, -, -, heq⟩
  · exact absurd hknows hnew
  · rcases hroom with ⟨hroom, -⟩ | ⟨-, hroom⟩
    · exact absurd hfull (not_le.mpr hroom)
    · rw [hentries] at hroom
      cases hroom
  · -- the key that was left behind makes the retry a duplicate
    rw [heq]
    have hknows : LogStore.Knows
        { store with dedupHash := noteKey append.alloc.node store.dedupHash append.entry }
        append.entry := by
      refine ⟨append.entry.key, ?_, known_key_self append.entry⟩
      show append.entry.key ∈ noteKey append.alloc.node _ append.entry append.entry.hash
      rw [noteKey, if_pos hnode, Function.update_self]
      exact List.mem_cons_self
    refine ⟨rfl, ?_⟩
    rcases storeAppend_cases alloc _ append.entry with ⟨-, heq'⟩ | ⟨hnew', -⟩ | ⟨hnew', -⟩
    · exact heq'
    · exact absurd hknows hnew'
    · exact absurd hknows hnew'

/-- A lost key loses the entry, unless an entry with the key is stored. -/
theorem losesEntry_of_losesKey {store : LogStore} {append : Append} (h : LosesKey store append)
    (hstored : ∀ stored ∈ store.entries, ¬ stored.SameKey append.entry) (alloc : AppendAlloc) :
    let failed := storeAppend append.alloc store append.entry
    let retried := storeAppend alloc failed.2 append.entry
    failed.1 = -1 ∧ ¬ SameContent store failed.2 ∧ retried.1 = 0 ∧
      ¬ ∃ stored ∈ retried.2.entries,
        stored.nodeId = append.entry.nodeId ∧ vcCompare stored.vc append.entry.vc = .equal := by
  obtain ⟨hentries, hretry⟩ := storeAppend_retry h alloc
  have hret : (storeAppend append.alloc store append.entry).1 = -1 :=
    storeAppend_eq_neg_one_iff.mpr ⟨h.1, h.2.1, h.2.2.2⟩
  refine ⟨hret, fun hsame => sameContent_of_failed_iff.mp (fun _ => hsame) h, ?_, ?_⟩
  · rw [hretry]
  · rw [hretry, hentries]
    rintro ⟨stored, hmem, hkey⟩
    exact hstored stored hmem hkey

/-! ## A full store -/

/-- As long as no more entries were appended than a fresh array holds, it is not expanded. -/
theorem capacity_storeRun (index : List IndexEntry) {appends : List Append}
    (h : appends.length ≤ storeInitCapacity) :
    (storeRun (storeInit index) appends).capacity = storeInitCapacity ∧
      (storeRun (storeInit index) appends).count ≤ appends.length := by
  induction appends using List.reverseRecOn with
  | nil => exact ⟨rfl, le_rfl⟩
  | append_singleton appends append ih =>
    rw [List.length_append, List.length_singleton] at h ⊢
    obtain ⟨hcapacity, hcount⟩ := ih (by omega)
    rw [storeRun_append]
    show (storeAppend append.alloc (storeRun (storeInit index) appends) append.entry).2.capacity =
        storeInitCapacity ∧
      (storeAppend append.alloc (storeRun (storeInit index) appends) append.entry).2.entries.length ≤
        appends.length + 1
    rw [LogStore.count] at hcount
    rcases storeAppend_cases append.alloc (storeRun (storeInit index) appends) append.entry with
      ⟨-, heq⟩ | ⟨-, hroom, -, hentries, -⟩ | ⟨-, -, -, heq⟩
    · rw [heq]
      exact ⟨hcapacity, hcount.trans (Nat.le_succ _)⟩
    · rcases hroom with ⟨-, hkept⟩ | ⟨hfull, -⟩
      · rw [hkept, hentries, List.length_append, List.length_singleton]
        exact ⟨hcapacity, Nat.succ_le_succ hcount⟩
      · rw [hcapacity, LogStore.count] at hfull
        omega
    · rw [heq]
      exact ⟨hcapacity, hcount.trans (Nat.le_succ _)⟩

/-- Entry number `i` of node 0. -/
def numberedEntry (i : Fin (storeInitCapacity + 1)) : LogEntry :=
  { LogEntry.ofClock [i.val.toUInt64] one_le_vcMaxNodes with
    nodeId := CStr.ofBytes (ascii "node-0") }

/-- Different numbers have different keys. -/
theorem eq_of_vcCompare_numberedEntry {i j : Fin (storeInitCapacity + 1)}
    (h : vcCompare (numberedEntry i).vc (numberedEntry j).vc = .equal) : i = j := by
  have hslot : ∀ k : Fin (storeInitCapacity + 1), (numberedEntry k).vc.extend 0 = k.val := by
    intro k
    have hk : k.val < 2 ^ 64 := k.isLt.trans (by rw [storeInitCapacity]; omega)
    have hone : (1 : ℕ) ≤ vcMaxNodes := one_le_vcMaxNodes
    have hvc : (numberedEntry k).vc =
        VectorClock.ofSlots 1 hone fun i => [k.val.toUInt64].getD i 0 := rfl
    rw [hvc, VectorClock.extend_of_lt (show 0 < (VectorClock.ofSlots 1 hone _).nodeCount from one_pos),
      VectorClock.slot_ofSlots _ _ (by decide)]
    exact UInt64.toNat_ofNat_of_lt' hk
  have hextend := congrFun (vcCompare_eq_equal_iff.mp h) 0
  rw [hslot, hslot] at hextend
  exact Fin.ext hextend

/-- As many appends as a fresh array has room for. -/
def fullAppends : List Append :=
  (List.finRange storeInitCapacity).map fun i => ⟨.ok, numberedEntry i.castSucc⟩

/-- An append that finds the array full, with memory for a node of the table but not for a larger
array. -/
def lateAppend : Append := ⟨⟨true, false⟩, numberedEntry (Fin.last storeInitCapacity)⟩

theorem entries_fullAppends :
    (storeRun (storeInit []) fullAppends).entries =
      (List.finRange storeInitCapacity).map fun i => numberedEntry i.castSucc := by
  have hrun : storeRun (storeInit []) fullAppends = storeAppendAll (storeInit [])
      ((List.finRange storeInitCapacity).map fun i => numberedEntry i.castSucc) := by
    rw [storeRun, fullAppends, storeAppendAll, List.foldl_map, List.foldl_map]
  rw [hrun, entries_storeAppendAll]
  refine keepFirst_of_pairwise (List.pairwise_map.mpr ?_)
  refine (List.nodup_finRange storeInitCapacity).imp fun {i j} hij => ?_
  rw [Bool.eq_false_iff]
  intro hsame
  exact hij (Fin.castSucc_injective _ (eq_of_vcCompare_numberedEntry (sameNode_iff.mp hsame).2.2))

/-- The late entry has a key of its own. -/
theorem lateAppend_ne_stored {stored : LogEntry}
    (hstored : stored ∈ (storeRun (storeInit []) fullAppends).entries) :
    ¬ stored.SameKey lateAppend.entry := by
  rw [entries_fullAppends] at hstored
  obtain ⟨i, -, rfl⟩ := List.mem_map.mp hstored
  intro hkey
  exact (Fin.castSucc_ne_last i) (eq_of_vcCompare_numberedEntry hkey.2)

theorem losesKey_lateAppend :
    LosesKey (storeRun (storeInit []) fullAppends) lateAppend := by
  have hlen : fullAppends.length = storeInitCapacity := by
    rw [fullAppends, List.length_map, List.length_finRange]
  have hkeys : KeysStored (storeRun (storeInit []) fullAppends) := by
    refine (keysStored_storeInit []).run fun before append after heq hloses => ?_
    have hmem : append ∈ fullAppends := by
      rw [heq]
      exact List.mem_append_right _ List.mem_cons_self
    obtain ⟨i, -, rfl⟩ := List.mem_map.mp hmem
    exact Bool.noConfusion hloses.2.2.2
  refine ⟨?_, ?_, rfl, rfl⟩
  · rintro ⟨node, hnode, hknown⟩
    obtain ⟨stored, hstored, rfl⟩ := hkeys _ node hnode
    exact lateAppend_ne_stored hstored (known_key_iff.mp hknown)
  · rw [(capacity_storeRun [] hlen.le).1, LogStore.count, entries_fullAppends, List.length_map,
      List.length_finRange]

/-- The failed append of the late entry changes the keys, and its retry returns 0 and stores
nothing. -/
theorem storeAppend_lateAppend :
    let store := storeRun (storeInit []) fullAppends
    let failed := storeAppend lateAppend.alloc store lateAppend.entry
    let retried := storeAppend .ok failed.2 lateAppend.entry
    failed.1 = -1 ∧ ¬ SameContent store failed.2 ∧ retried.1 = 0 ∧
      ¬ ∃ stored ∈ retried.2.entries,
        stored.nodeId = lateAppend.entry.nodeId ∧ vcCompare stored.vc lateAppend.entry.vc = .equal :=
  losesEntry_of_losesKey losesKey_lateAppend (fun _ => lateAppend_ne_stored) .ok

end LogAgg
