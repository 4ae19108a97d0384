import LogAgg.Store.Failure
import LogAgg.Store.Lines

/-!
# The number of logs loaded

The loops of `store_load_file` count the calls of `store_append` that return 0.  A call returns 0
for a log that is added and for a duplicate that is dropped, and only the first kind makes the
store larger.  So the number that is returned is the number of entries parsed, and it is the
number of logs added exactly when no entry is a duplicate, of one that was in the store
or of one that was loaded before it (`storeLoad_count_iff`).

`store_load_dir` goes through the `.jsonl` files of a directory and adds up, so the same holds
of the entries of all files together.
-/

namespace LogAgg

open Ascii

/-! ## Counting appends -/

/-- How many of the calls return 0. -/
def zeroReturns (store : LogStore) : List Append → ℕ
  | [] => 0
  | append :: appends =>
    (if (storeAppend append.alloc store append.entry).1 = 0 then 1 else 0) +
      zeroReturns (storeAppend append.alloc store append.entry).2 appends

/-- No call finds its key in the table. -/
def NoneKnown (store : LogStore) : List Append → Prop
  | [] => True
  | append :: appends =>
    ¬ store.Knows append.entry ∧ NoneKnown (storeAppend append.alloc store append.entry).2 appends

@[simp] theorem storeRun_cons (store : LogStore) (append : Append) (appends : List Append) :
    storeRun store (append :: appends) =
      storeRun (storeAppend append.alloc store append.entry).2 appends := rfl

/-- A call that returns 0 adds a log, unless it finds its key. -/
theorem count_storeAppend (alloc : AppendAlloc) (store : LogStore) (entry : LogEntry) :
    (store.Knows entry ∧ (storeAppend alloc store entry).1 = 0 ∧
        (storeAppend alloc store entry).2.count = store.count) ∨
      (¬ store.Knows entry ∧ (storeAppend alloc store entry).2.count =
        store.count + if (storeAppend alloc store entry).1 = 0 then 1 else 0) := by
  rcases storeAppend_cases alloc store entry with ⟨hknows, heq⟩ | ⟨hnew, -, hret, hentries, -⟩ |
    ⟨hnew, -, -, heq⟩
  · rw [heq]
    exact Or.inl ⟨hknows, rfl, rfl⟩
  · rw [hret, if_pos rfl, LogStore.count, hentries, List.length_append]
    exact Or.inr ⟨hnew, rfl⟩
  · rw [heq, if_neg (show ¬ (-1 : ℤ) = 0 by decide)]
    exact Or.inr ⟨hnew, rfl⟩

/-- The store never grows by more than the calls that return 0. -/
theorem count_storeRun_le (store : LogStore) (appends : List Append) :
    (storeRun store appends).count ≤ store.count + zeroReturns store appends := by
  induction appends generalizing store with
  | nil => exact le_rfl
  | cons append appends ih =>
    have hrest := ih (storeAppend append.alloc store append.entry).2
    rw [storeRun_cons, zeroReturns]
    rcases count_storeAppend append.alloc store append.entry with ⟨-, hret, hcount⟩ | ⟨-, hcount⟩
    · rw [hcount] at hrest
      rw [if_pos hret]
      omega
    · rw [hcount] at hrest
      omega

/-- **The calls that return 0 are the logs added** exactly when none finds its key. -/
theorem zeroReturns_eq_iff (store : LogStore) (appends : List Append) :
    (storeRun store appends).count = store.count + zeroReturns store appends ↔
      NoneKnown store appends := by
  induction appends generalizing store with
  | nil => exact iff_of_true rfl trivial
  | cons append appends ih =>
    have hrest := ih (storeAppend append.alloc store append.entry).2
    rw [storeRun_cons, zeroReturns, NoneKnown]
    rcases count_storeAppend append.alloc store append.entry with ⟨hknows, hret, hcount⟩ |
      ⟨hnew, hcount⟩
    · have hle := count_storeRun_le (storeAppend append.alloc store append.entry).2 appends
      rw [hcount] at hle
      rw [if_pos hret]
      refine iff_of_false (fun heq => ?_) fun h => h.1 hknows
      omega
    · rw [← hrest, hcount]
      constructor
      · intro heq
        exact ⟨hnew, by omega⟩
      · rintro ⟨-, heq⟩
        omega

/-! ## Duplicates among entries -/

theorem known_iff {node key : HashNode} :
    node.known key = true ↔ node.nodeId.bytes = key.nodeId.bytes ∧
      vcCompare node.vc key.vc = .equal := by
  rw [HashNode.known, HashNode.hasKey, Bool.and_eq_true, beq_iff_eq, beq_iff_eq,
    strcmp_eq_zero_iff]

/-- A node that has the key of an entry has the keys of all entries like it. -/
theorem known_of_sameKey {node : HashNode} {a e : LogEntry} (h : node.known a.key = true)
    (hkey : a.SameKey e) : node.known e.key = true := by
  rw [known_iff, nodeId_key, vc_key] at h ⊢
  refine ⟨by rw [h.1, hkey.1], vcCompare_eq_equal_iff.mpr ?_⟩
  exact (vcCompare_eq_equal_iff.mp h.2).trans (vcCompare_eq_equal_iff.mp hkey.2)

/-- What the table knows behind an append: what it knew, and the entries like the new one. -/
theorem knows_storeAppend_iff (store : LogStore) (a e : LogEntry) :
    (storeAppend .ok store a).2.Knows e ↔ store.Knows e ∨ a.sameNode e = true := by
  rw [sameNode_iff]
  rcases storeAppend_cases .ok store a with ⟨⟨node, hnode, hknown⟩, heq⟩ |
    ⟨-, -, -, -, htable⟩ | ⟨-, -, hentries, -⟩
  · rw [heq]
    refine ⟨Or.inl, ?_⟩
    rintro (h | ⟨hhash, hkey⟩)
    · exact h
    · exact ⟨node, hhash ▸ hnode, known_of_sameKey hknown hkey⟩
  · unfold LogStore.Knows
    have hallocated : AppendAlloc.ok.node = true := rfl
    rw [htable, noteKey, if_pos hallocated]
    by_cases hhash : a.hash = e.hash
    · rw [← hhash, Function.update_self, List.exists_mem_cons_iff, known_key_iff]
      constructor
      · rintro (hkey | hold)
        · exact Or.inr ⟨rfl, hkey⟩
        · exact Or.inl hold
      · rintro (hold | ⟨-, hkey⟩)
        · exact Or.inr hold
        · exact Or.inl hkey
    · rw [Function.update_of_ne (Ne.symm hhash)]
      exact ⟨Or.inl, fun h => h.resolve_right fun h => hhash h.1⟩
  · cases hentries

/-- No entry is a duplicate: of one that the table knows, or of one before it. -/
def NoDuplicates (store : LogStore) (entries : List LogEntry) : Prop :=
  (∀ entry ∈ entries, ¬ store.Knows entry) ∧ entries.Pairwise fun a b => ¬ a.sameNode b = true

theorem noneKnown_iff (store : LogStore) (entries : List LogEntry) :
    NoneKnown store (entries.map (Append.mk .ok)) ↔ NoDuplicates store entries := by
  induction entries generalizing store with
  | nil => exact iff_of_true trivial ⟨fun e he => absurd he List.not_mem_nil, .nil⟩
  | cons entry entries ih =>
    rw [List.map_cons, NoneKnown, ih, NoDuplicates, NoDuplicates, List.forall_mem_cons,
      List.pairwise_cons]
    simp only [knows_storeAppend_iff, not_or]
    constructor
    · rintro ⟨hnew, hlater, hpairwise⟩
      exact ⟨⟨hnew, fun e he => (hlater e he).1⟩, fun e he => (hlater e he).2, hpairwise⟩
    · rintro ⟨⟨hnew, hlater⟩, hfirst, hpairwise⟩
      exact ⟨hnew, fun e he => ⟨hlater e he, hfirst e he⟩, hpairwise⟩

/-- **Appending entries adds as many logs** exactly when there is no duplicate. -/
theorem count_storeAppendAll_iff (store : LogStore) (entries : List LogEntry) :
    (entries.length : ℤ) = (storeAppendAll store entries).count - store.count ↔
      NoDuplicates store entries := by
  have hrun : ∀ store : LogStore,
      storeRun store (entries.map (Append.mk .ok)) = storeAppendAll store entries := by
    intro store
    rw [storeRun, storeAppendAll, List.foldl_map]
  have hzero : zeroReturns store (entries.map (Append.mk .ok)) = entries.length := by
    induction entries generalizing store with
    | nil => rfl
    | cons entry entries ih =>
      rw [List.map_cons, zeroReturns, if_pos (storeAppend_ok store entry), List.length_cons,
        Nat.add_comm]
      exact congrArg (· + 1) (ih _ fun store => by rw [storeRun, storeAppendAll, List.foldl_map])
  rw [← noneKnown_iff, ← zeroReturns_eq_iff, hrun, hzero]
  omega

/-! ## Files -/

/-- The lines that the loop over a plain file parses. -/
def plainLines (content : Bytes) : List Bytes :=
  (buffers (logaggMaxEntrySize - 2) content).map fun buffer => cutNewline (cstring buffer)

/-- What the loop over a plain file does with a buffer is to parse it: an empty line would be
rejected. -/
theorem loadPlainLine_fgets (overrun : Option LogEntry) (state : ℤ × LogStore) (room : ℕ)
    (s : Bytes) :
    loadPlainLine overrun state (fgets room s).1 =
      loadEntry overrun state (cutNewline (cstring (fgets room s).1)) := by
  rw [loadPlainLine]
  split
  · rename_i hempty
    rcases hempty with hempty | hempty
    · rw [hempty]
      rfl
    · have hhead : (fgets room s).1.head? = some newline := by
        cases hbuffer : (fgets room s).1 with
        | nil =>
          rw [hbuffer] at hempty
          exact hempty
        | cons c t =>
          rw [hbuffer, cstring] at hempty
          by_cases hc : c = 0
          · rw [hc] at hempty
            exact absurd hempty (by simp)
          · rw [List.takeWhile_cons_of_pos (by simpa using hc)] at hempty
            exact hempty
      rw [fgets_eq_newline hhead]
      rfl
  · rfl

theorem loadPlain_eq_loadLines (overrun : ℕ → Option LogEntry) (n : ℕ) (state : ℤ × LogStore)
    (content : Bytes) :
    loadPlain overrun n state content = loadLines overrun n state (plainLines content) := by
  induction hlen : content.length using Nat.strong_induction_on generalizing n state content with
  | _ len ih =>
    subst hlen
    cases content with
    | nil =>
      rw [loadPlain, plainLines, buffers_nil]
      rfl
    | cons c s =>
      rw [loadPlain, plainLines, buffers_of_ne_nil (List.cons_ne_nil c s), List.map_cons,
        loadLines, loadPlainLine_fgets]
      exact ih _ (length_fgets_lt (logaggMaxEntrySize - 2) c s) _ _ _ rfl

/-- The lines that `store_load_file` parses. -/
def fileLines (decompressSafe : Bytes → ℕ → Option Bytes) (file : Option Bytes) : List Bytes :=
  match file with
  | none => []
  | some content =>
    match storeLoadCompressed decompressSafe content with
    | some rawBuf => (textLines (cstring rawBuf)).map cutReturn
    | none => plainLines content

/-- The entries that `store_load_file` appends. -/
def fileEntries (decompressSafe : Bytes → ℕ → Option Bytes) (overrun : ℕ → Option LogEntry)
    (file : Option Bytes) : List LogEntry :=
  readLines overrun 0 (fileLines decompressSafe file)

/-- **What a load does**: every entry parsed is appended and counted. -/
theorem storeLoadFile_eq (decompressSafe : Bytes → ℕ → Option Bytes)
    (overrun : ℕ → Option LogEntry) (store : LogStore) (file : Option Bytes) :
    storeLoadFile decompressSafe overrun store file =
      (((fileEntries decompressSafe overrun file).length : ℤ),
        storeAppendAll store (fileEntries decompressSafe overrun file)) := by
  unfold storeLoadFile fileEntries fileLines
  cases file with
  | none => rfl
  | some content =>
    dsimp only
    cases storeLoadCompressed decompressSafe content with
    | none =>
      dsimp only
      rw [loadPlain_eq_loadLines, loadLines_eq, zero_add]
    | some rawBuf =>
      dsimp only
      rw [loadText_eq, loadLines_eq, zero_add]

/-! ## Directories -/

/-- The test for `.jsonl` at the end of a name. -/
def isJsonl (name : Bytes) : Bool :=
  decide (6 ≤ name.length) && name.drop (name.length - 6) == ascii ".jsonl"

/-- The path of a file in a buffer of 512 bytes. -/
def filePath (dir name : Bytes) : Bytes := (dir ++ ascii "/" ++ name).take 511

/-- One turn of the loop of `store_load_dir`, over the `k`-th name that is shown. -/
def loadDirEntry (decompressSafe : Bytes → ℕ → Option Bytes)
    (overrun : ℕ → ℕ → Option LogEntry) (fopen : Bytes → Option Bytes) (dir : Bytes)
    (state : ℤ × LogStore) (name : Bytes × ℕ) : ℤ × LogStore :=
  if isJsonl name.1 then
    let (loaded, store) := storeLoadFile decompressSafe (overrun name.2) state.2
      (fopen (filePath dir name.1))
    if 0 < loaded then (state.1 + loaded, store) else (state.1, store)
  else state

/-- `store_load_dir`: the total and the store afterwards.  `fopen` gives the content of a file, and
`listing` the names that `readdir` shows one after the other, if the directory can be
opened. -/
def storeLoadDir (decompressSafe : Bytes → ℕ → Option Bytes)
    (overrun : ℕ → ℕ → Option LogEntry) (fopen : Bytes → Option Bytes) (store : LogStore)
    (dir : Bytes) (listing : Option (List Bytes)) : ℤ × LogStore :=
  match listing with
  | none => (0, store)
  | some names => names.zipIdx.foldl (loadDirEntry decompressSafe overrun fopen dir) (0, store)

/-- The entries of all `.jsonl` files of the directory. -/
def dirEntries (decompressSafe : Bytes → ℕ → Option Bytes) (overrun : ℕ → ℕ → Option LogEntry)
    (fopen : Bytes → Option Bytes) (dir : Bytes) (listing : Option (List Bytes)) :
    List LogEntry :=
  ((listing.getD []).zipIdx.filter fun name => isJsonl name.1).flatMap fun name =>
    fileEntries decompressSafe (overrun name.2) (fopen (filePath dir name.1))

theorem storeAppendAll_append (store : LogStore) (before after : List LogEntry) :
    storeAppendAll store (before ++ after) = storeAppendAll (storeAppendAll store before) after :=
  List.foldl_append

/-- **The loop over a directory**, when the load of each file is known: the entries of all files
are counted and appended. -/
theorem foldl_loadDirEntry {decompressSafe : Bytes → ℕ → Option Bytes}
    {overrun : ℕ → ℕ → Option LogEntry} {fopen : Bytes → Option Bytes} {dir : Bytes}
    {names : List (Bytes × ℕ)} {entriesOf : Bytes × ℕ → List LogEntry}
    (hload : ∀ name ∈ names, isJsonl name.1 = true → ∀ store,
      storeLoadFile decompressSafe (overrun name.2) store (fopen (filePath dir name.1)) =
        (((entriesOf name).length : ℤ), storeAppendAll store (entriesOf name)))
    (state : ℤ × LogStore) :
    names.foldl (loadDirEntry decompressSafe overrun fopen dir) state =
      (state.1 + ((names.filter fun name => isJsonl name.1).flatMap entriesOf).length,
        storeAppendAll state.2 ((names.filter fun name => isJsonl name.1).flatMap entriesOf)) := by
  induction names generalizing state with
  | nil => exact Prod.ext (add_zero state.1).symm rfl
  | cons name names ih =>
    rw [List.foldl_cons, ih fun n hn => hload n (List.mem_cons_of_mem _ hn), List.filter_cons,
      loadDirEntry]
    by_cases hjsonl : isJsonl name.1 = true
    · -- a file that adds nothing to the total has no entries
      have hturn : (if 0 < ((entriesOf name).length : ℤ) then
          (state.1 + ((entriesOf name).length : ℤ), storeAppendAll state.2 (entriesOf name))
          else (state.1, storeAppendAll state.2 (entriesOf name))) =
          (state.1 + ((entriesOf name).length : ℤ), storeAppendAll state.2 (entriesOf name)) := by
        split
        · rfl
        · have hzero : ((entriesOf name).length : ℤ) = 0 := by omega
          rw [hzero, add_zero]
      rw [if_pos hjsonl, if_pos hjsonl, hload name List.mem_cons_self hjsonl state.2]
      dsimp only
      rw [hturn, List.flatMap_cons, List.length_append, storeAppendAll_append]
      push_cast
      rw [add_assoc]
    · rw [if_neg hjsonl, if_neg hjsonl]

theorem storeLoadDir_eq (decompressSafe : Bytes → ℕ → Option Bytes)
    (overrun : ℕ → ℕ → Option LogEntry) (fopen : Bytes → Option Bytes) (store : LogStore)
    (dir : Bytes) (listing : Option (List Bytes)) :
    storeLoadDir decompressSafe overrun fopen store dir listing =
      (((dirEntries decompressSafe overrun fopen dir listing).length : ℤ),
        storeAppendAll store (dirEntries decompressSafe overrun fopen dir listing)) := by
  cases listing with
  | none => rfl
  | some names =>
    have hload : ∀ name ∈ names.zipIdx, isJsonl name.1 = true → ∀ store,
        storeLoadFile decompressSafe (overrun name.2) store (fopen (filePath dir name.1)) = _ :=
      fun name _ _ store => storeLoadFile_eq decompressSafe (overrun name.2) store
        (fopen (filePath dir name.1))
    have hloop := foldl_loadDirEntry hload (0, store)
    rw [zero_add] at hloop
    exact hloop

/-! ## The number that is returned -/

/-- **The load count.**  What `store_load_file` and `store_load_dir` return is the number of logs
added to the store exactly when no entry that is parsed is a duplicate, whatever the parses that
step over the end of a line find there.  In general, whatever the allocations do, the number of
appends that return 0 is the number of logs added exactly when none of them finds its key in the
table. -/
theorem storeLoad_count_iff (decompressSafe : Bytes → ℕ → Option Bytes) (store : LogStore) :
    (∀ overrun file, (storeLoadFile decompressSafe overrun store file).1 =
        (storeLoadFile decompressSafe overrun store file).2.count - store.count ↔
      NoDuplicates store (fileEntries decompressSafe overrun file)) ∧
    (∀ overrun fopen dir listing,
      (storeLoadDir decompressSafe overrun fopen store dir listing).1 =
          (storeLoadDir decompressSafe overrun fopen store dir listing).2.count - store.count ↔
        NoDuplicates store (dirEntries decompressSafe overrun fopen dir listing)) ∧
    ∀ appends, (zeroReturns store appends : ℤ) = (storeRun store appends).count - store.count ↔
      NoneKnown store appends := by
  refine ⟨fun overrun file => ?_, fun overrun fopen dir listing => ?_, fun appends => ?_⟩
  · rw [storeLoadFile_eq]
    exact count_storeAppendAll_iff store _
  · rw [storeLoadDir_eq]
    exact count_storeAppendAll_iff store _
  · rw [← zeroReturns_eq_iff]
    omega

/-- Two lines with the same entry: two logs are reported, and one is added. -/
theorem storeLoadFile_repeated :
    (storeLoadFile (fun _ _ => none) (fun _ => none) (storeInit [])
        (some (ascii "\x7b\x7d\n\x7b\x7d\n"))).1 = 2 ∧
      (storeLoadFile (fun _ _ => none) (fun _ => none) (storeInit [])
        (some (ascii "\x7b\x7d\n\x7b\x7d\n"))).2.count = 1 := by
  decide +kernel

end LogAgg
