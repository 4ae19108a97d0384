import LogAgg.CString.Quoted
import LogAgg.Memory.Object

/-!
# The scanners with a cursor into memory

The scanners as the code runs them: the cursor is an index, every byte is read from the
string's object, its terminator included, and what a quoted string stores is written byte by
byte into a buffer of fixed size.  An access outside of either object is a fault.

`Follows` relates a run on the list of the bytes ahead to the run in memory.  It pairs the
two ways to fail: where the list scanner rejects, the code returns null, and where it is moved
past the terminator, the code faults.
-/

namespace LogAgg

open Ascii Memory

/-- The outcomes of a run on lists and of the run in memory: related values, a rejected text
and null, or a cursor past the terminator and a fault. -/
def Follows {α β : Type} (R : α → β → Prop) : Except ScanError α → Outcome β → Prop
  | .ok a, .ret b => R a b
  | .error .reject, .null => True
  | .error .pastEnd, .fault => True
  | _, _ => False

theorem Follows.bind {α β γ δ : Type} {R : α → β → Prop} {S : γ → δ → Prop}
    {x : Except ScanError α} {y : Outcome β} {f : α → Except ScanError γ} {g : β → Outcome δ}
    (h : Follows R x y) (hfg : ∀ a b, R a b → Follows S (f a) (g b)) :
    Follows S (x >>= f) (y >>= g) := by
  cases x with
  | ok a =>
    cases y with
    | ret b => exact hfg a b h
    | null => exact h.elim
    | fault => exact h.elim
  | error e =>
    cases e <;> cases y <;> first | exact h.elim | trivial

theorem Follows.map {α β γ : Type} {R : α → β → Prop} {S : γ → β → Prop}
    {x : Except ScanError α} {y : Outcome β} {f : α → γ} (h : Follows R x y)
    (hf : ∀ a b, R a b → S (f a) b) : Follows S (x >>= fun a => pure (f a)) y := by
  cases x with
  | ok a =>
    cases y with
    | ret b => exact hf a b h
    | null => exact h.elim
    | fault => exact h.elim
  | error e =>
    cases e <;> cases y <;> first | exact h.elim | trivial

/-- What is known of the list's result may be used for the relation. -/
theorem Follows.imp {α β : Type} {R S : α → β → Prop} {x : Except ScanError α} {y : Outcome β}
    (h : Follows R x y) (hRS : ∀ a b, x = .ok a → R a b → S a b) : Follows S x y := by
  cases x with
  | ok a =>
    cases y with
    | ret b => exact hRS a b rfl h
    | null => exact h.elim
    | fault => exact h.elim
  | error e =>
    cases e <;> cases y <;> first | exact h.elim | trivial

/-- The run in memory leaves its objects exactly where the other runs past the terminator. -/
theorem Follows.eq_fault_iff {α β : Type} {R : α → β → Prop} {x : Except ScanError α} {y : Outcome β}
    (h : Follows R x y) : y = .fault ↔ x = .error .pastEnd := by
  cases x with
  | ok a =>
    cases y with
    | ret b => simp
    | null => exact h.elim
    | fault => exact h.elim
  | error e =>
    cases e <;> cases y <;> first | exact h.elim | simp

/-- A value and a cursor, related part by part. -/
def WithCursor {α β : Type} (mem : Bytes) (R : α → β → Prop) (p : α × Bytes) (q : β × ℕ) : Prop :=
  R p.1 q.1 ∧ At mem q.2 p.2

variable {mem s : Bytes} {i : ℕ}

/-! ## Blanks, commas and single bytes -/

/-- `skip_whitespace` and `skip_ws`. -/
def skipWhitespaceAt (mem : Bytes) (i : ℕ) : Outcome ℕ :=
  scanWhile (fun c => c != 0 && isspace c) mem i

theorem skipWhitespaceAt_ret (h : At mem i s) :
    ∃ j, skipWhitespaceAt mem i = .ret j ∧ At mem j (skipWhitespace s) := h.scanWhile

/-- The test `if (*s != c) return`, with the cursor moved behind `c`. -/
def expectAt (c : UInt8) (mem : Bytes) (i : ℕ) : Outcome ℕ := do
  let d ← load mem i
  if d ≠ c then .null else .ret (i + 1)

theorem follows_expectAt {c : UInt8} (hc : c ≠ 0) (h : At mem i s) :
    Follows (fun s j => At mem j s) (expect c s) (expectAt c mem i) := by
  unfold expectAt
  cases s with
  | nil =>
    rw [h.load_nil, Outcome.ret_bind, if_pos (Ne.symm hc)]
    trivial
  | cons d s =>
    rw [h.load_cons, Outcome.ret_bind, expect]
    by_cases hd : d = c
    · rw [if_pos hd, if_neg (not_not.mpr hd)]
      exact h.succ
    · rw [if_neg hd, if_pos hd]
      trivial

/-- Blanks, an optional comma, and the blanks behind it. -/
def skipCommaAt (mem : Bytes) (i : ℕ) : Outcome ℕ := do
  let i ← skipWhitespaceAt mem i
  let c ← load mem i
  if c = comma then skipWhitespaceAt mem (i + 1) else .ret i

theorem skipCommaAt_ret (h : At mem i s) :
    ∃ j, skipCommaAt mem i = .ret j ∧ At mem j (skipComma s) := by
  obtain ⟨j, hj, hat⟩ := skipWhitespaceAt_ret h
  unfold skipCommaAt skipComma
  rw [hj, Outcome.ret_bind]
  cases hskip : skipWhitespace s with
  | nil =>
    rw [hskip] at hat
    rw [hat.load_nil, Outcome.ret_bind, if_neg (by decide)]
    exact ⟨j, rfl, hat⟩
  | cons c t =>
    rw [hskip] at hat
    rw [hat.load_cons, Outcome.ret_bind]
    dsimp only
    by_cases hc : c = comma
    · rw [if_pos hc, if_pos hc]
      exact skipWhitespaceAt_ret hat.succ
    · rw [if_neg hc, if_neg hc]
      exact ⟨j, rfl, hat⟩

/-! ## Numbers -/

/-- The loop over the digits of a number. -/
def digitsAt (mem : Bytes) (value : UInt64) (i : ℕ) : Outcome (UInt64 × ℕ) :=
  match h : load mem i with
  | .null => .null
  | .fault => .fault
  | .ret c =>
      have _ := lt_of_load h
      if isdigit c then digitsAt mem (value * 10 + (c - 48).toUInt64) (i + 1) else .ret (value, i)
  termination_by mem.length - i

theorem digitsAt_of_load {c : UInt8} (h : load mem i = .ret c) (value : UInt64) :
    digitsAt mem value i =
      if isdigit c then digitsAt mem (value * 10 + (c - 48).toUInt64) (i + 1)
      else .ret (value, i) := by
  rw [digitsAt]
  split
  · rename_i hnull
    rw [h] at hnull
    cases hnull
  · rename_i hfault
    rw [h] at hfault
    cases hfault
  · rename_i c' hc'
    rw [h] at hc'
    cases hc'
    rfl

theorem digitsAt_ret (value : UInt64) (h : At mem i s) :
    ∃ j, digitsAt mem value i = .ret ((scanDigits value s).1, j) ∧
      At mem j (scanDigits value s).2 := by
  induction s generalizing i value with
  | nil =>
    rw [digitsAt_of_load h.load_nil, if_neg (by decide)]
    exact ⟨i, rfl, h⟩
  | cons c s ih =>
    rw [digitsAt_of_load h.load_cons, scanDigits]
    by_cases hc : isdigit c = true
    · rw [if_pos hc, if_pos hc]
      exact ih _ h.succ
    · rw [if_neg hc, if_neg hc]
      exact ⟨i, rfl, h⟩

/-! ## Nested text -/

/-- The `do … while (*s && depth > 0)` loop over nested brackets. -/
def nestedAt (opening closing : UInt8) (mem : Bytes) (depth i : ℕ) : Outcome ℕ :=
  match h : load mem i with
  | .null => .null
  | .fault => .fault
  | .ret c =>
      have _ := lt_of_load h
      let depth := if c = opening then depth + 1 else if c = closing then depth - 1 else depth
      do
        let d ← load mem (i + 1)
        if d ≠ 0 ∧ 0 < depth then nestedAt opening closing mem depth (i + 1) else .ret (i + 1)
  termination_by mem.length - i

theorem nestedAt_of_load {opening closing c : UInt8} (h : load mem i = .ret c) (depth : ℕ) :
    nestedAt opening closing mem depth i =
      (load mem (i + 1) >>= fun d =>
        if d ≠ 0 ∧ 0 < (if c = opening then depth + 1 else if c = closing then depth - 1 else depth)
        then nestedAt opening closing mem
          (if c = opening then depth + 1 else if c = closing then depth - 1 else depth) (i + 1)
        else .ret (i + 1)) := by
  rw [nestedAt]
  split
  · rename_i hnull
    rw [h] at hnull
    cases hnull
  · rename_i hfault
    rw [h] at hfault
    cases hfault
  · rename_i c' hc'
    rw [h] at hc'
    cases hc'
    rfl

theorem nestedAt_ret (opening closing : UInt8) (depth : ℕ) {c : UInt8} (h : At mem i (c :: s)) :
    ∃ j, nestedAt opening closing mem depth i = .ret j ∧
      At mem j (scanNested opening closing depth (c :: s)).2 := by
  induction s generalizing i depth c with
  | nil =>
    rw [nestedAt_of_load h.load_cons, h.succ.load_nil, Outcome.ret_bind, if_neg (by simp),
      scanNested]
    generalize (if c = opening then depth + 1 else if c = closing then depth - 1 else depth) = depth'
    refine ⟨i + 1, rfl, ?_⟩
    by_cases hdepth : depth' = 0
    · rw [if_pos hdepth]
      exact h.succ
    · rw [if_neg hdepth]
      exact h.succ
  | cons d s ih =>
    rw [nestedAt_of_load h.load_cons, h.succ.load_cons, Outcome.ret_bind, scanNested]
    generalize (if c = opening then depth + 1 else if c = closing then depth - 1 else depth) = depth'
    by_cases hdepth : depth' = 0
    · rw [if_neg (by omega), if_pos hdepth]
      exact ⟨i + 1, rfl, h.succ⟩
    · rw [if_pos ⟨h.succ.ne_zero, Nat.pos_of_ne_zero hdepth⟩, if_neg hdepth]
      exact ih depth' h.succ

/-! ## Quoted strings -/

/-- The loop over the body of a quoted string, into a buffer of `buflen` bytes of which the
first `n` are written. -/
def quotedLoopAt (unescape : UInt8 → Option UInt8) (mem : Bytes) (buflen i : ℕ) (buf : Bytes)
    (n : ℕ) : Outcome (ℕ × Bytes × ℕ) :=
  match h : load mem i with
  | .null => .null
  | .fault => .fault
  | .ret c =>
      have _ := lt_of_load h
      if c ≠ 0 ∧ c ≠ quote ∧ n < buflen - 1 then
        if c = backslash then do
          let d ← load mem (i + 1)
          match unescape d with
          | none => .null
          | some b => do
              let buf ← store buf n b
              quotedLoopAt unescape mem buflen (i + 2) buf (n + 1)
        else do
          let buf ← store buf n c
          quotedLoopAt unescape mem buflen (i + 1) buf (n + 1)
      else .ret (i, buf, n)
  termination_by mem.length - i

/-- Behind the loop: the closing quote is tested and the terminator stored. -/
def closeQuotedAt (mem : Bytes) (r : ℕ × Bytes × ℕ) : Outcome (Bytes × ℕ) := do
  let c ← load mem r.1
  if c ≠ quote then .null else do
    let buf ← store r.2.1 r.2.2 0
    return (buf, r.1 + 1)

/-- `parse_json_string` and `parse_str`, which differ in the table of escapes only. -/
def parseQuotedAt (unescape : UInt8 → Option UInt8) (mem : Bytes) (i : ℕ) (buf : Bytes) :
    Outcome (Bytes × ℕ) := do
  let i ← skipWhitespaceAt mem i
  let i ← expectAt quote mem i
  let r ← quotedLoopAt unescape mem buf.length i buf 0
  closeQuotedAt mem r

section

variable {unescape : UInt8 → Option UInt8} {nulEscape : ScanError}

theorem quotedLoopAt_of_load {c : UInt8} (h : load mem i = .ret c) (buflen : ℕ) (buf : Bytes)
    (n : ℕ) :
    quotedLoopAt unescape mem buflen i buf n =
      if c ≠ 0 ∧ c ≠ quote ∧ n < buflen - 1 then
        if c = backslash then
          (load mem (i + 1) >>= fun d =>
            match unescape d with
            | none => .null
            | some b => store buf n b >>= fun buf =>
                quotedLoopAt unescape mem buflen (i + 2) buf (n + 1))
        else store buf n c >>= fun buf => quotedLoopAt unescape mem buflen (i + 1) buf (n + 1)
      else .ret (i, buf, n) := by
  rw [quotedLoopAt]
  split
  · rename_i hnull
    rw [h] at hnull
    cases hnull
  · rename_i hfault
    rw [h] at hfault
    cases hfault
  · rename_i c' hc'
    rw [h] at hc'
    cases hc'
    rfl

theorem quotedLoopAt_of_fault (h : load mem i = .fault) (buflen : ℕ) (buf : Bytes) (n : ℕ) :
    quotedLoopAt unescape mem buflen i buf n = .fault := by
  rw [quotedLoopAt]
  split
  · rename_i hnull
    rw [h] at hnull
    cases hnull
  · rfl
  · rename_i c hc
    rw [h] at hc
    cases hc

/-- What a loop over a quoted string leaves behind `written`: the bytes, the terminator, and
what the buffer held behind them. -/
def Stored (mem written more : Bytes) (p : Bytes × Bytes) (q : Bytes × ℕ) : Prop :=
  q.1 = written ++ (p.1 ++ 0 :: more.drop (p.1.length + 1)) ∧ At mem q.2 p.2

/-- One more byte is written. -/
theorem Stored.cons {written more rest bs : Bytes} {c m : UInt8} {q : Bytes × ℕ}
    (h : Stored mem (written ++ [c]) more (bs, rest) q) :
    Stored mem written (m :: more) (c :: bs, rest) q := by
  refine ⟨?_, h.2⟩
  rw [h.1]
  simp

theorem closeQuotedAt_of_ne {c : UInt8} (h : load mem i = .ret c) (hc : c ≠ quote)
    (r : Bytes × ℕ) : closeQuotedAt mem (i, r) = .null := by
  rw [closeQuotedAt, h, Outcome.ret_bind, if_pos hc]

/-- At the closing quote the string is complete. -/
theorem follows_closeQuotedAt (h : At mem i (quote :: s)) {written more : Bytes}
    (hmore : more ≠ []) :
    Follows (Stored mem written more) (.ok ([], s))
      (closeQuotedAt mem (i, written ++ more, written.length)) := by
  obtain ⟨m, more, rfl⟩ := List.exists_cons_of_ne_nil hmore
  rw [closeQuotedAt, h.load_cons, Outcome.ret_bind, if_neg (by simp), store_append_cons]
  exact ⟨rfl, h.succ⟩

/-- When the buffer is full, the closing quote has to follow. -/
theorem follows_quotedLoopAt_full (h : At mem i s) {written more : Bytes} (hmore : more ≠ []) :
    Follows (Stored mem written more) (scanQuoted unescape nulEscape 0 s)
      (quotedLoopAt unescape mem (written.length + 1) i (written ++ more) written.length >>=
        closeQuotedAt mem) := by
  cases s with
  | nil =>
    rw [quotedLoopAt_of_load h.load_nil, if_neg (by omega), Outcome.ret_bind,
      closeQuotedAt_of_ne h.load_nil (by decide)]
    trivial
  | cons c s =>
    rw [quotedLoopAt_of_load h.load_cons, if_neg (by omega), Outcome.ret_bind]
    by_cases hq : c = quote
    · subst hq
      rw [scanQuoted_quote]
      exact follows_closeQuotedAt h hmore
    · rw [scanQuoted_zero hq, closeQuotedAt_of_ne h.load_cons hq]
      trivial

/-- One byte is stored, and the loop goes on behind it. -/
theorem follows_store_quotedLoopAt {room j : ℕ} {t written more : Bytes} {b : UInt8} (m : UInt8)
    (h : Follows (Stored mem (written ++ [b]) more) (scanQuoted unescape nulEscape room t)
      (quotedLoopAt unescape mem ((written ++ [b]).length + room + 1) j (written ++ [b] ++ more)
        (written ++ [b]).length >>= closeQuotedAt mem)) :
    Follows (Stored mem written (m :: more))
      (do let (bs, rest) ← scanQuoted unescape nulEscape room t; return (b :: bs, rest))
      ((store (written ++ m :: more) written.length b >>= fun buf =>
        quotedLoopAt unescape mem (written.length + (room + 1) + 1) j buf
          (written.length + 1)) >>= closeQuotedAt mem) := by
  rw [List.length_append, List.length_singleton, List.append_assoc, List.singleton_append,
    show written.length + 1 + room + 1 = written.length + (room + 1) + 1 by omega] at h
  rw [store_append_cons, Outcome.ret_bind]
  exact h.map fun p q hpq => hpq.cons

/-- **The loop in memory follows the scan of the list**, and its writes stay in the buffer. -/
theorem follows_quotedLoopAt
    (hnul : nulEscape = if (unescape 0).isSome then .pastEnd else .reject) (h : At mem i s)
    {written more : Bytes} {room : ℕ} (hmore : more.length = room + 1) :
    Follows (Stored mem written more) (scanQuoted unescape nulEscape room s)
      (quotedLoopAt unescape mem (written.length + room + 1) i (written ++ more) written.length >>=
        closeQuotedAt mem) := by
  have hne : more ≠ [] := by
    rintro rfl
    exact absurd hmore (by simp)
  induction room generalizing i s written more with
  | zero => exact follows_quotedLoopAt_full h hne
  | succ room ih =>
    obtain ⟨m, more, rfl⟩ := List.exists_cons_of_ne_nil hne
    have hmore' : more.length = room + 1 := by simpa using hmore
    have hne' : more ≠ [] := by
      rintro rfl
      exact absurd hmore' (by simp)
    cases s with
    | nil =>
      rw [quotedLoopAt_of_load h.load_nil, if_neg (by simp), Outcome.ret_bind,
        closeQuotedAt_of_ne h.load_nil (by decide)]
      trivial
    | cons c s =>
      rw [quotedLoopAt_of_load h.load_cons]
      by_cases hq : c = quote
      · subst hq
        rw [if_neg (by simp), Outcome.ret_bind, scanQuoted_quote]
        exact follows_closeQuotedAt h (List.cons_ne_nil m more)
      rw [if_pos ⟨h.ne_zero, hq, by omega⟩]
      by_cases hb : c = backslash
      · subst hb
        rw [if_pos rfl]
        cases s with
        | nil =>
          rw [h.succ.load_nil, Outcome.ret_bind, scanQuoted_escape_nil, hnul]
          cases hzero : unescape 0 with
          | none => trivial
          | some b =>
            -- the terminator is stored, and the next byte read is not there
            simp only
            rw [store_append_cons, Outcome.ret_bind,
              quotedLoopAt_of_fault h.succ.load_succ_nil]
            trivial
        | cons d s =>
          rw [h.succ.load_cons, Outcome.ret_bind]
          cases hd : unescape d with
          | none =>
            rw [scanQuoted_escape_none hd]
            trivial
          | some b =>
            rw [scanQuoted_escape hd]
            exact follows_store_quotedLoopAt m (ih h.succ.succ hmore' hne')
      · rw [if_neg hb, scanQuoted_plain_cons hq hb]
        exact follows_store_quotedLoopAt m (ih h.succ hmore' hne')

/-- **A quoted string is read in memory as on the list.**  What the buffer holds behind the
terminator does not matter. -/
theorem follows_parseQuotedAt
    (hnul : nulEscape = if (unescape 0).isSome then .pastEnd else .reject) (h : At mem i s)
    {buf : Bytes} (hbuf : buf ≠ []) :
    Follows (Stored mem [] buf)
      (do
        let s ← expect quote (skipWhitespace s)
        scanQuoted unescape nulEscape (buf.length - 1) s)
      (parseQuotedAt unescape mem i buf) := by
  have hpos : 0 < buf.length := List.length_pos_iff.mpr hbuf
  obtain ⟨j, hj, hat⟩ := skipWhitespaceAt_ret h
  unfold parseQuotedAt
  rw [hj, Outcome.ret_bind]
  refine (follows_expectAt (by decide) hat).bind fun t k htk => ?_
  have hroom : buf.length = buf.length - 1 + 1 := by omega
  have hloop : Follows (Stored mem [] buf) (scanQuoted unescape nulEscape (buf.length - 1) t)
      (quotedLoopAt unescape mem (([] : Bytes).length + (buf.length - 1) + 1) k ([] ++ buf)
        ([] : Bytes).length >>= closeQuotedAt mem) := follows_quotedLoopAt hnul htk hroom
  rw [List.length_nil, List.nil_append, Nat.zero_add, ← hroom] at hloop
  exact hloop

/-- An array of the given size that holds a string. -/
structure HoldsString (size : ℕ) (s arr : Bytes) : Prop where
  length_eq : arr.length = size
  zero_mem : 0 ∈ arr
  cstring_eq : cstring arr = s

/-- The string in an array, in which it has to end. -/
def cstringAt (arr : Bytes) : Outcome Bytes := if 0 ∈ arr then .ret (cstring arr) else .fault

theorem HoldsString.cstringAt {size : ℕ} {s arr : Bytes} (h : HoldsString size s arr) :
    cstringAt arr = .ret s := by
  rw [LogAgg.cstringAt, if_pos h.zero_mem, h.cstring_eq]

/-- **The array holds the string that was read.** -/
theorem follows_parseQuotedAt_holds
    (hnul : nulEscape = if (unescape 0).isSome then .pastEnd else .reject)
    (hzero : ∀ d, d ≠ 0 → unescape d ≠ some 0) (h : At mem i s) {size : ℕ} (hsize : 0 < size)
    {buf : Bytes} (hbuf : buf.length = size) :
    Follows (WithCursor mem (HoldsString size))
      (do
        let s ← expect quote (skipWhitespace s)
        scanQuoted unescape nulEscape (size - 1) s)
      (parseQuotedAt unescape mem i buf) := by
  have hne : buf ≠ [] := List.length_pos_iff.mp (hbuf ▸ hsize)
  have hfollows := follows_parseQuotedAt hnul h hne
  rw [hbuf] at hfollows
  refine hfollows.imp fun p q hp hpq => ⟨?_, hpq.2⟩
  obtain ⟨t, hquote, hscan⟩ := ok_of_bind_eq_ok hp
  obtain ⟨w, -, hs⟩ := exists_skipWhitespace s
  obtain ⟨u, hunits, hlen, rfl⟩ := scanQuoted_eq_ok_iff.mp hscan
  have hnul : (0 : UInt8) ∉ p.1 := by
    refine hunits.zero_notMem hzero fun hu => h.zero_notMem ?_
    rw [hs, eq_cons_of_expect hquote]
    simp [hu]
  refine ⟨?_, ?_, ?_⟩
  · rw [hpq.1, List.nil_append, List.length_append, List.length_cons, List.length_drop, hbuf]
    omega
  · rw [hpq.1]
    simp
  · rw [hpq.1, List.nil_append, cstring, List.takeWhile_append_of_pos]
    · simp
    · intro c hc
      have hc0 : c ≠ 0 := by
        rintro rfl
        exact hnul hc
      simpa using hc0

end

/-! ## No scanner moves backwards -/

theorem le_of_skipWhitespaceAt {j : ℕ} (h : skipWhitespaceAt mem i = .ret j) : i ≤ j :=
  le_of_scanWhile h

theorem eq_succ_of_expectAt {c : UInt8} {j : ℕ} (h : expectAt c mem i = .ret j) : j = i + 1 := by
  obtain ⟨d, -, h⟩ := Outcome.ret_of_bind h
  split at h
  · cases h
  · exact (Outcome.ret.inj h).symm

theorem le_of_skipCommaAt {j : ℕ} (h : skipCommaAt mem i = .ret j) : i ≤ j := by
  obtain ⟨k, hk, h⟩ := Outcome.ret_of_bind h
  obtain ⟨c, -, h⟩ := Outcome.ret_of_bind h
  have hle := le_of_skipWhitespaceAt hk
  split at h
  · exact (hle.trans (Nat.le_succ k)).trans (le_of_skipWhitespaceAt h)
  · exact hle.trans (Outcome.ret.inj h).le

theorem le_of_digitsAt {value : UInt64} {r : UInt64 × ℕ} (h : digitsAt mem value i = .ret r) :
    i ≤ r.2 := by
  induction hn : mem.length - i generalizing i value with
  | zero =>
    rw [digitsAt] at h
    split at h
    · cases h
    · cases h
    · rename_i c hc
      have hlt := lt_of_load hc
      omega
  | succ n ih =>
    rw [digitsAt] at h
    split at h
    · cases h
    · cases h
    · split at h
      · exact (Nat.le_succ i).trans (ih h (by omega))
      · obtain rfl := Outcome.ret.inj h
        exact le_rfl

theorem lt_of_nestedAt {opening closing : UInt8} {depth j : ℕ}
    (h : nestedAt opening closing mem depth i = .ret j) : i < j := by
  induction hn : mem.length - i generalizing i depth with
  | zero =>
    rw [nestedAt] at h
    split at h
    · cases h
    · cases h
    · rename_i c hc
      have hlt := lt_of_load hc
      omega
  | succ n ih =>
    rw [nestedAt] at h
    split at h
    · cases h
    · cases h
    · rename_i c hc
      obtain ⟨d, -, h⟩ := Outcome.ret_of_bind h
      generalize (if c = opening then depth + 1 else if c = closing then depth - 1 else depth) =
        depth' at h
      split at h
      · exact (Nat.lt_succ_self i).trans (ih h (by omega))
      · exact Nat.lt_of_succ_le (Outcome.ret.inj h).le

theorem le_of_quotedLoopAt {unescape : UInt8 → Option UInt8} {buflen n : ℕ} {buf : Bytes}
    {r : ℕ × Bytes × ℕ} (h : quotedLoopAt unescape mem buflen i buf n = .ret r) : i ≤ r.1 := by
  induction hk : mem.length - i using Nat.strong_induction_on generalizing i buf n with
  | _ k ih =>
    rw [quotedLoopAt] at h
    split at h
    · cases h
    · cases h
    · rename_i c hc
      have hlt := lt_of_load hc
      split at h
      · split at h
        · obtain ⟨d, -, h⟩ := Outcome.ret_of_bind h
          split at h
          · cases h
          · obtain ⟨buf', -, h⟩ := Outcome.ret_of_bind h
            exact (Nat.le_add_right i 2).trans (ih _ (by omega) h rfl)
        · obtain ⟨buf', -, h⟩ := Outcome.ret_of_bind h
          exact (Nat.le_succ i).trans (ih _ (by omega) h rfl)
      · obtain rfl := Outcome.ret.inj h
        exact le_rfl

theorem lt_of_parseQuotedAt {unescape : UInt8 → Option UInt8} {buf : Bytes} {r : Bytes × ℕ}
    (h : parseQuotedAt unescape mem i buf = .ret r) : i < r.2 := by
  obtain ⟨j, hj, h⟩ := Outcome.ret_of_bind h
  obtain ⟨k, hk, h⟩ := Outcome.ret_of_bind h
  obtain ⟨q, hq, h⟩ := Outcome.ret_of_bind h
  obtain ⟨c, -, h⟩ := Outcome.ret_of_bind h
  have hij := le_of_skipWhitespaceAt hj
  have hjk := eq_succ_of_expectAt hk
  have hkq := le_of_quotedLoopAt hq
  split at h
  · cases h
  · obtain ⟨buf', -, h⟩ := Outcome.ret_of_bind h
    rw [← Outcome.ret.inj h]
    dsimp only
    omega

end LogAgg
