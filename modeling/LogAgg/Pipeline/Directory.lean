import LogAgg.Dedup.Grouping
import LogAgg.Server.Shutdown
import LogAgg.Store.LoadCount

/-!
# The directory of log files

The server starts a new log file on every day, and the query tool loads whatever log files a
directory holds, in the order in which `readdir` shows them.  The server writes entries that it has
parsed, and these are read back as they are (`received_received`).

So the file of a day is loaded line by line (`Server.Wrote.storeLoadFile_dayFile`), and the
directory gives each entry of each day once (`Server.Wrote.exists_storeLoadDir`).
-/

namespace LogAgg

open Ascii Dedup

/-! ## Lines -/

/-- What was read once is read the same again. -/
theorem received_received (entry : LogEntry) : received (received entry) = received entry := by
  obtain ⟨-, hcount, hslot⟩ := vcFromJson_vcText VectorClock.zero entry.vc
  have hvc : vcText (received entry).vc none = vcText entry.vc none := vcText_congr hcount hslot
  have hfilter : ∀ {cap : ℕ} (s : CStr cap), (CStr.ofBytes
      ((CStr.ofBytes (s.bytes.filter keptByte) : CStr cap).bytes.filter keptByte) : CStr cap) =
        CStr.ofBytes (s.bytes.filter keptByte) := by
    intro cap s
    rw [bytes_ofBytes_filter, List.filter_filter]
    simp only [Bool.and_self]
  have hnode : CStr.ofBytes ((received entry).nodeId.bytes.filter keptByte) =
      (received entry).nodeId := hfilter entry.nodeId
  have hmessage : CStr.ofBytes ((received entry).message.bytes.filter keptByte) =
      (received entry).message := hfilter entry.message
  have hlevel : logLevelFromStr (logLevelStr (received entry).level) = (received entry).level := by
    rw [received]
    cases entry.level <;> rfl
  rw [received, hnode, hvc, hlevel, hmessage]
  rfl

section Load

variable (decompressSafe : Bytes → ℕ → Option Bytes) (overrun : ℕ → Option LogEntry)

/-- A file of lines is loaded line by line. -/
theorem storeLoadFile_entryLines (store : LogStore) {entries : List LogEntry}
    (hmeta : ∀ entry ∈ entries, entry.metadata = []) :
    storeLoadFile decompressSafe overrun store (some (entries.flatMap entryLine)) =
      ((entries.length : ℤ), storeAppendAll store (entries.map received)) := by
  have hplain : storeLoadCompressed decompressSafe (entries.flatMap entryLine) = none := by
    cases entries with
    | nil => rfl
    | cons entry entries =>
      rw [List.flatMap_cons, entryLine, List.append_assoc]
      exact storeLoadCompressed_entryText decompressSafe entry _
  rw [storeLoadFile, hplain, loadPlain_written _ _ _ hmeta fun entry hentry =>
    length_entryText_lt (hmeta entry hentry), zero_add]
  rfl

/-- A file of lines that were received is loaded as it is. -/
theorem storeLoadFile_received (store : LogStore) {entries : List LogEntry}
    (hreceived : ∀ entry ∈ entries, ∃ sent, entry = received sent) :
    storeLoadFile decompressSafe overrun store (some (entries.flatMap entryLine)) =
      ((entries.length : ℤ), storeAppendAll store entries) := by
  have hmeta : ∀ entry ∈ entries, entry.metadata = [] := by
    intro entry hentry
    obtain ⟨sent, rfl⟩ := hreceived entry hentry
    rfl
  have hagain : entries.map received = entries := by
    refine (List.map_congr_left fun entry hentry => ?_).trans (List.map_id entries)
    obtain ⟨sent, rfl⟩ := hreceived entry hentry
    exact received_received sent
  rw [storeLoadFile_entryLines decompressSafe overrun store hmeta, hagain]

end Load

/-- Entries of which none is covered by one in front of it are all kept, in any order. -/
theorem keepFirst_of_not_covered {entries loaded : List LogEntry}
    (h : entries.Pairwise fun x y => ¬ y.vc.extend ≤ x.vc.extend) (hperm : loaded.Perm entries) :
    keepFirst LogEntry.sameNode loaded = loaded := by
  have hne : entries.Pairwise fun x y => x.vc.extend ≠ y.vc.extend :=
    h.imp fun hnot heq => hnot heq.ge
  refine keepFirst_of_pairwise (((hperm.pairwise_iff Ne.symm).mpr hne).imp fun hne => ?_)
  rw [Bool.eq_false_iff]
  exact fun hsame => hne (vcCompare_eq_equal_iff.mp (sameNode_iff.mp hsame).2.2)

/-! ## Days -/

/-- The name of the log file of a day. -/
def logFileName (day : Bytes) : Bytes := day ++ ascii ".jsonl"

theorem isJsonl_logFileName (day : Bytes) : isJsonl (logFileName day) = true := by
  have hlength : (logFileName day).length = day.length + 6 := List.length_append
  have hdrop : (logFileName day).drop ((logFileName day).length - 6) = ascii ".jsonl" := by
    rw [hlength, Nat.add_sub_cancel]
    exact List.drop_left
  rw [isJsonl, Bool.and_eq_true, decide_eq_true_eq, hlength, ← hlength, hdrop]
  exact ⟨by omega, beq_self_eq_true _⟩

theorem logFileName_inj {day day' : Bytes} : logFileName day = logFileName day' ↔ day = day' :=
  List.append_left_inj _

/-- The entries that were written on a day. -/
def entriesOn (written : List (Bytes × LogEntry)) (day : Bytes) : List LogEntry :=
  (written.filter (·.1 = day)).map (·.2)

theorem entriesOn_map {α : Type*} (f : α → LogEntry) (written : List (Bytes × α)) (day : Bytes) :
    entriesOn (written.map fun w => (w.1, f w.2)) day =
      (written.filter (·.1 = day)).map fun w => f w.2 := by
  rw [entriesOn, List.filter_map, List.map_map]
  rfl

/-- What a directory shows of the log files of the server: each name once, behind every name of a
log file the file of its day, and a name for every day on which something was written. -/
structure Server.Lists (server : Server) (dir : Bytes) (fopen : Bytes → Option Bytes)
    (names : List Bytes) : Prop where
  nodup : names.Nodup
  log : ∀ name ∈ names, isJsonl name = true →
    ∃ day, name = logFileName day ∧ fopen (filePath dir name) = some (server.dayFile day)
  complete : ∀ piece ∈ server.appended, logFileName piece.1 ∈ names

section Wrote

variable {server : Server} {written : List (Bytes × LogEntry)}

/-- **The file of a day is loaded line by line.** -/
theorem Server.Wrote.storeLoadFile_dayFile (h : server.Wrote written)
    (hreceived : ∀ entry ∈ written.map (·.2), ∃ sent, entry = received sent)
    (decompressSafe : Bytes → ℕ → Option Bytes) (overrun : ℕ → Option LogEntry)
    (store : LogStore) (day : Bytes) :
    storeLoadFile decompressSafe overrun store (some (server.dayFile day)) =
      (((entriesOn written day).length : ℤ), storeAppendAll store (entriesOn written day)) := by
  have hsub : entriesOn written day ⊆ written.map (·.2) :=
    List.map_subset _ (List.filter_subset_self _)
  rw [h.dayFile day]
  exact storeLoadFile_received decompressSafe overrun store fun entry hentry =>
    hreceived entry (hsub hentry)

/-- **The directory is loaded file by file**: it holds every entry that was written. -/
theorem Server.Wrote.exists_storeLoadDir (h : server.Wrote written)
    (hreceived : ∀ entry ∈ written.map (·.2), ∃ sent, entry = received sent) {dir : Bytes}
    {fopen : Bytes → Option Bytes} {names : List Bytes} (hlists : server.Lists dir fopen names)
    (decompressSafe : Bytes → ℕ → Option Bytes) (overrun : ℕ → ℕ → Option LogEntry)
    (store : LogStore) :
    ∃ loaded, loaded.Perm (written.map (·.2)) ∧
      storeLoadDir decompressSafe overrun fopen store dir (some names) =
        ((written.length : ℤ), storeAppendAll store loaded) := by
  let entriesOf : Bytes → List LogEntry := fun name =>
    (written.filter fun w => logFileName w.1 = name).map (·.2)
  have hload : ∀ name ∈ names.zipIdx, isJsonl name.1 = true → ∀ store,
      storeLoadFile decompressSafe (overrun name.2) store (fopen (filePath dir name.1)) =
        (((entriesOf name.1).length : ℤ), storeAppendAll store (entriesOf name.1)) := by
    intro name hname hjsonl store
    obtain ⟨day, hday, hopen⟩ := hlists.log name.1 (List.fst_mem_of_mem_zipIdx hname) hjsonl
    have hentries : entriesOf name.1 = entriesOn written day := by
      show (written.filter fun w => logFileName w.1 = name.1).map (·.2) = _
      simp only [hday, logFileName_inj]
      rfl
    rw [hopen, hentries]
    exact h.storeLoadFile_dayFile hreceived decompressSafe (overrun name.2) store day
  -- the number of a name only matters for what stands behind its lines
  have hnames : ((names.zipIdx.filter fun name => isJsonl name.1).flatMap fun name =>
      entriesOf name.1) = (names.filter isJsonl).flatMap entriesOf := by
    conv_rhs => rw [← List.zipIdx_map_fst 0 names]
    rw [List.filter_map, List.flatMap_map]
    rfl
  have hperm : ((names.filter isJsonl).flatMap entriesOf).Perm (written.map (·.2)) := by
    have hkeys : ∀ w ∈ written, logFileName w.1 ∈ names.filter isJsonl := by
      intro w hw
      refine List.mem_filter.mpr ⟨hlists.complete (w.1, entryLine w.2) ?_, isJsonl_logFileName w.1⟩
      rw [h]
      exact List.mem_map_of_mem (f := fun w => (w.1, entryLine w.2)) hw
    have hgrouped := flatMap_filter_perm (fun w : Bytes × LogEntry => logFileName w.1)
      (hlists.nodup.filter _) hkeys
    have hmap := hgrouped.map (·.2)
    rwa [List.map_flatMap] at hmap
  have hloop := foldl_loadDirEntry hload (0, store)
  rw [hnames, zero_add, hperm.length_eq, List.length_map] at hloop
  exact ⟨_, hperm, hloop⟩

end Wrote

end LogAgg
