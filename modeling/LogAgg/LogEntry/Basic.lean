import LogAgg.CString.Basic
import LogAgg.VectorClock.Order

/-!
# Log entries

The record of `log_entry.h` and the comparators that order it.  All three
comparators fall back on the same key, the timestamp and then the node id
(`logEntryCompareByTime`); the causal ones ask the vector clocks first.
-/

namespace LogAgg

/-- `log_level_t`.  A C enumeration can hold any integer; `LOG_LEVEL_STR` names
those outside the five `UNKNOWN`. -/
inductive LogLevel where
  | debug
  | info
  | warn
  | error
  | fatal
  | other (value : ℤ)
  deriving DecidableEq

/-- `LOG_LEVEL_STR`. -/
def logLevelStr : LogLevel → Bytes
  | .debug => ascii "DEBUG"
  | .info => ascii "INFO"
  | .warn => ascii "WARN"
  | .error => ascii "ERROR"
  | .fatal => ascii "FATAL"
  | .other _ => ascii "UNKNOWN"

/-- `log_level_from_str`. -/
def logLevelFromStr (str : Bytes) : LogLevel :=
  if strcaseeq str (ascii "DEBUG") then .debug
  else if strcaseeq str (ascii "INFO") then .info
  else if strcaseeq str (ascii "WARN") then .warn
  else if strcaseeq str (ascii "ERROR") then .error
  else if strcaseeq str (ascii "FATAL") then .fatal
  else .info

/-- A level is one of the five that have a name. -/
def LogLevel.Named (level : LogLevel) : Prop := ∀ value, level ≠ .other value

/-- The five names are read back. -/
theorem logLevelFromStr_logLevelStr {level : LogLevel} (h : level.Named) :
    logLevelFromStr (logLevelStr level) = level := by
  cases level with
  | debug => rfl
  | info => rfl
  | warn => rfl
  | error => rfl
  | fatal => rfl
  | other value => exact absurd rfl (h value)

/-- The names of the levels are in capitals. -/
theorem notMem_logLevelStr {c : UInt8} (hc : isupper c = false) (level : LogLevel) :
    c ∉ logLevelStr level := by
  have hupper : ∀ d ∈ logLevelStr level, isupper d = true := by
    cases level <;> exact List.all_eq_true.mp rfl
  intro hmem
  rw [hupper c hmem] at hc
  exact absurd hc (by decide)

/-- `NODE_ID_MAX_LEN`. -/
def nodeIdMaxLen : ℕ := 31

/-- `LOG_MESSAGE_MAX_LEN`. -/
def logMessageMaxLen : ℕ := 1023

/-- `METADATA_MAX_COUNT`. -/
def metadataMaxCount : ℕ := 8

/-- `metadata_pair_t`. -/
structure MetadataPair where
  key : CStr 63
  value : CStr 255
  deriving DecidableEq

/-- `log_entry_t`. -/
structure LogEntry where
  nodeId : CStr nodeIdMaxLen
  vc : VectorClock
  timestamp : UInt64
  level : LogLevel
  message : CStr logMessageMaxLen
  metadata : List MetadataPair
  seq : UInt64
  metadata_le : metadata.length ≤ metadataMaxCount
  deriving DecidableEq

/-- The entry a `memset` to zero leaves. -/
def LogEntry.zero : LogEntry :=
  ⟨CStr.empty, VectorClock.zero, 0, .debug, CStr.empty, [], 0, Nat.zero_le _⟩

/-- An entry with nothing but a clock. -/
def LogEntry.ofClock (clock : List UInt64) (h : clock.length ≤ vcMaxNodes) : LogEntry :=
  { LogEntry.zero with vc := VectorClock.ofSlots clock.length h fun i => clock.getD i 0 }

/-! ## Comparators -/

/-- `log_entry_compare_by_time`: the timestamp, then the node id. -/
def logEntryCompareByTime (a b : LogEntry) : ℤ :=
  if a.timestamp ≠ b.timestamp then
    if a.timestamp < b.timestamp then -1 else 1
  else strcmp a.nodeId.bytes b.nodeId.bytes

/-- `log_entry_compare`: the causal order, and for equal and for concurrent clocks
the timestamp and then the node id. -/
def logEntryCompare (a b : LogEntry) : ℤ :=
  match vcCompare a.vc b.vc with
  | .happensBefore => -1
  | .happensAfter => 1
  | .equal =>
      if a.timestamp ≠ b.timestamp then
        if a.timestamp < b.timestamp then -1 else 1
      else strcmp a.nodeId.bytes b.nodeId.bytes
  | .concurrent =>
      if a.timestamp ≠ b.timestamp then
        if a.timestamp < b.timestamp then -1 else 1
      else strcmp a.nodeId.bytes b.nodeId.bytes

/-- Entry `a` causally precedes entry `b`, as far as their clocks tell. -/
def LogEntry.HappensBefore (a b : LogEntry) : Prop := vcCompare a.vc b.vc = .happensBefore

instance (a b : LogEntry) : Decidable (a.HappensBefore b) :=
  inferInstanceAs (Decidable (vcCompare a.vc b.vc = .happensBefore))

namespace LogEntry

theorem happensBefore_iff {a b : LogEntry} : a.HappensBefore b ↔ a.vc.extend < b.vc.extend :=
  vcCompare_eq_happensBefore_iff

theorem HappensBefore.irrefl (a : LogEntry) : ¬ a.HappensBefore a := by
  rw [happensBefore_iff]
  exact lt_irrefl _

theorem HappensBefore.trans {a b c : LogEntry} (hab : a.HappensBefore b)
    (hbc : b.HappensBefore c) : a.HappensBefore c := by
  rw [happensBefore_iff] at *
  exact hab.trans hbc

theorem HappensBefore.asymm {a b : LogEntry} (hab : a.HappensBefore b) : ¬ b.HappensBefore a :=
  fun hba => HappensBefore.irrefl a (hab.trans hba)

end LogEntry

/-- Swapping two timestamps swaps the sign of their comparison, if it does so for what
is compared next. -/
theorem compareTimestamps_swap (s t : UInt64) (next : ℤ) :
    (if t ≠ s then if t < s then -1 else 1 else -next) =
      -(if s ≠ t then if s < t then -1 else 1 else next) := by
  by_cases h : s = t
  · rw [if_neg (not_not.mpr h), if_neg (not_not.mpr h.symm)]
  · rw [if_pos h, if_pos (Ne.symm h)]
    have hne : s.toNat ≠ t.toNat := fun hh => h (UInt64.toNat_inj.mp hh)
    by_cases hlt : s < t
    · rw [if_pos hlt, if_neg (UInt64.lt_asymm hlt), neg_neg]
    · rw [UInt64.lt_iff_toNat_lt] at hlt
      rw [if_pos (UInt64.lt_iff_toNat_lt.mpr (by omega)), if_neg (by rwa [UInt64.lt_iff_toNat_lt])]

/-- The fallback key is compared antisymmetrically. -/
theorem logEntryCompareByTime_swap (a b : LogEntry) :
    logEntryCompareByTime b a = -logEntryCompareByTime a b := by
  unfold logEntryCompareByTime
  rw [strcmp_swap a.nodeId.bytes]
  exact compareTimestamps_swap _ _ _

/-- The fallback key is the lexicographic order of timestamp and node id. -/
theorem logEntryCompareByTime_le_iff {a b : LogEntry} : logEntryCompareByTime a b ≤ 0 ↔
    a.timestamp.toNat < b.timestamp.toNat ∨
      a.timestamp.toNat = b.timestamp.toNat ∧ strcmp a.nodeId.bytes b.nodeId.bytes ≤ 0 := by
  unfold logEntryCompareByTime
  by_cases heq : a.timestamp = b.timestamp
  · rw [if_neg (not_not.mpr heq), heq]
    simp
  · have hne : a.timestamp.toNat ≠ b.timestamp.toNat := fun h => heq (UInt64.toNat_inj.mp h)
    rw [if_pos heq]
    by_cases hlt : a.timestamp < b.timestamp
    · rw [if_pos hlt]
      simp [UInt64.lt_iff_toNat_lt.mp hlt]
    · rw [if_neg hlt]
      rw [UInt64.lt_iff_toNat_lt] at hlt
      simp [hlt, hne]

/-- The fallback key orders transitively. -/
theorem logEntryCompareByTime_le_trans {a b c : LogEntry}
    (hab : logEntryCompareByTime a b ≤ 0) (hbc : logEntryCompareByTime b c ≤ 0) :
    logEntryCompareByTime a c ≤ 0 := by
  rw [logEntryCompareByTime_le_iff] at hab hbc ⊢
  rcases hab with hab | ⟨hab, hs⟩
  · rcases hbc with hbc | ⟨hbc, -⟩ <;> omega
  · rcases hbc with hbc | ⟨hbc, ht⟩
    · omega
    · exact Or.inr ⟨hab.trans hbc, strcmp_le_trans hs ht⟩

/-- The causal comparator: causality first, the fallback key otherwise. -/
theorem logEntryCompare_eq (a b : LogEntry) :
    logEntryCompare a b =
      if a.HappensBefore b then -1 else if b.HappensBefore a then 1
      else logEntryCompareByTime a b := by
  have hswap : b.HappensBefore a ↔ vcCompare a.vc b.vc = .happensAfter := by
    rw [LogEntry.happensBefore_iff, vcCompare_eq_happensAfter_iff]
  unfold logEntryCompare
  by_cases hab : a.HappensBefore b
  · have hrel : vcCompare a.vc b.vc = .happensBefore := hab
    rw [if_pos hab, hrel]
  · by_cases hba : b.HappensBefore a
    · rw [if_neg hab, if_pos hba, hswap.mp hba]
    · rw [if_neg hab, if_neg hba]
      cases hrel : vcCompare a.vc b.vc with
      | equal => rfl
      | happensBefore => exact absurd hrel hab
      | happensAfter => exact absurd (hswap.mpr hrel) hba
      | concurrent => rfl

theorem logEntryCompare_swap (a b : LogEntry) : logEntryCompare b a = -logEntryCompare a b := by
  rw [logEntryCompare_eq, logEntryCompare_eq]
  by_cases hab : a.HappensBefore b
  · rw [if_pos hab, if_neg hab.asymm, if_pos hab, neg_neg]
  · by_cases hba : b.HappensBefore a
    · rw [if_pos hba, if_neg hab, if_pos hba]
    · rw [if_neg hba, if_neg hab, if_neg hab, if_neg hba]
      exact logEntryCompareByTime_swap a b

end LogAgg
