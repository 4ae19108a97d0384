import LogAgg.CString.Basic

/-!
# Writing into bounded buffers and scanning text

`emit` is one `snprintf` at the end of a partly filled buffer, checked the way the
program checks it: the piece and the terminator must fit.  Since a text that does not
fit makes every longer text not fit either, a sequence of emits is one emit of the
concatenation (`emit_bind`), which is how a serialiser made of a dozen checked writes
becomes a single length test.

The scanners move a cursor through a C string.  Two things can stop them: the text is
not what the grammar wants (`ScanError.reject`, the source's `NULL` or `-1`), or the
cursor is moved past the terminator (`ScanError.pastEnd`), after which C reads
whatever memory follows.
-/

namespace LogAgg

open Ascii

/-! ## Bounded writing -/

/-- `snprintf` of `piece` behind the `out` already in a buffer of `buflen` bytes, and
the check that it fit. -/
def emit (buflen : ℕ) (out piece : Bytes) : Option Bytes :=
  if out.length + piece.length < buflen then some (out ++ piece) else none

theorem emit_eq_some_iff {buflen : ℕ} {out piece text : Bytes} :
    emit buflen out piece = some text ↔
      out.length + piece.length < buflen ∧ text = out ++ piece := by
  unfold emit
  split
  · rename_i h
    rw [Option.some_inj]
    exact ⟨fun ht => ⟨h, ht.symm⟩, fun ht => ht.2.symm⟩
  · rename_i h
    simp [h]

/-- Two emits are one. -/
theorem emit_bind (buflen : ℕ) (out p q : Bytes) :
    (emit buflen out p >>= fun o => emit buflen o q) = emit buflen out (p ++ q) := by
  unfold emit
  by_cases h : out.length + p.length < buflen
  · rw [if_pos h, Option.bind_eq_bind, Option.bind_some, List.length_append, List.length_append,
      List.append_assoc, Nat.add_assoc]
  · rw [if_neg h, if_neg (by rw [List.length_append]; omega)]
    rfl

/-- Two emits are one, whatever follows. -/
theorem emit_bind_emit (buflen : ℕ) (out p q : Bytes) (k : Bytes → Option Bytes) :
    (emit buflen out p >>= fun o => emit buflen o q >>= k) = emit buflen out (p ++ q) >>= k := by
  rw [← emit_bind, bind_assoc]

/-- A loop of emits is one emit, once something has been written. -/
theorem emit_bind_foldlM {α : Type*} (buflen : ℕ) (f : α → Bytes) (l : List α) (out p : Bytes) :
    (emit buflen out p >>= fun o => l.foldlM (fun o a => emit buflen o (f a)) o) =
      emit buflen out (p ++ l.flatMap f) := by
  induction l generalizing out p with
  | nil =>
    rw [List.flatMap_nil, List.append_nil]
    exact bind_pure _
  | cons a l ih =>
    rw [List.flatMap_cons, ← List.append_assoc, ← ih out (p ++ f a), ← emit_bind, bind_assoc]
    rfl

/-- Pieces of a bounded length. -/
theorem length_flatMap_le {α : Type*} {l : List α} {f : α → Bytes} {k : ℕ}
    (h : ∀ a ∈ l, (f a).length ≤ k) : (l.flatMap f).length ≤ l.length * k := by
  rw [List.length_flatMap, ← List.length_map (fun a => (f a).length)]
  refine List.sum_le_card_nsmul _ k fun n hn => ?_
  obtain ⟨a, ha, rfl⟩ := List.mem_map.mp hn
  exact h a ha

/-! ## Scanning -/

/-- Why a scanner stops without a result. -/
inductive ScanError where
  | reject
  | pastEnd
  deriving DecidableEq

/-- `skip_whitespace` and `skip_ws`. -/
def skipWhitespace (s : Bytes) : Bytes := s.dropWhile isspace

/-- `atoi`: optional blanks, an optional sign and a run of digits, read as a `long`
that saturates and then cut to an `int`. -/
def atoi (s : Bytes) : ℤ :=
  let value (digits : Bytes) : ℤ :=
    (digits.takeWhile isdigit).foldl (fun v c => v * 10 + (c.toNat - 48)) 0
  let long : ℤ :=
    match skipWhitespace s with
    | [] => 0
    | c :: t => if c = 45 then -value t else if c = 43 then value t else value (c :: t)
  Int.bmod (max (-2 ^ 63) (min (2 ^ 63 - 1) long)) (2 ^ 32)

/-- The test `if (*s != c) return`, with the cursor moved behind `c`. -/
def expect (c : UInt8) : Bytes → Except ScanError Bytes
  | [] => .error .reject
  | d :: s => if d = c then .ok s else .error .reject

/-- Whitespace, an optional comma, and the whitespace behind it. -/
def skipComma (s : Bytes) : Bytes :=
  match skipWhitespace s with
  | [] => []
  | c :: t => if c = comma then skipWhitespace t else c :: t

/-- The byte stored for the text at the cursor: an escape goes through the table
`unescape`, and `nulEscape` is what happens when the terminator stands behind the
backslash. -/
def scanByte (unescape : UInt8 → Option UInt8) (nulEscape : ScanError) (c : UInt8) (s : Bytes) :
    Except ScanError (UInt8 × Bytes) :=
  if c = backslash then
    match s with
    | [] => .error nulEscape
    | d :: s =>
        match unescape d with
        | none => .error .reject
        | some b => .ok (b, s)
  else .ok (c, s)

/-- The loop over the body of a quoted string, into a buffer with `room` bytes left
besides the terminator: the bytes stored and the rest of the text. -/
def scanQuoted (unescape : UInt8 → Option UInt8) (nulEscape : ScanError) :
    ℕ → Bytes → Except ScanError (Bytes × Bytes)
  | 0, s => do
      let s ← expect quote s
      return ([], s)
  | _ + 1, [] => .error .reject
  | room + 1, c :: s =>
      if c = quote then .ok ([], s)
      else do
        let (b, s) ← scanByte unescape nulEscape c s
        let (bs, rest) ← scanQuoted unescape nulEscape room s
        return (b :: bs, rest)

/-- The `do … while (*s && depth > 0)` loop over nested brackets: the text it passes
and the rest. -/
def scanNested (opening closing : UInt8) : ℕ → Bytes → Bytes × Bytes
  | _, [] => ([], [])
  | depth, c :: s =>
      let depth' := if c = opening then depth + 1 else if c = closing then depth - 1 else depth
      if depth' = 0 then ([c], s)
      else
        let (text, rest) := scanNested opening closing depth' s
        (c :: text, rest)

/-! ## What the scanners leave is never longer -/

theorem length_skipWhitespace_le (s : Bytes) : (skipWhitespace s).length ≤ s.length :=
  (List.dropWhile_suffix isspace).length_le

theorem length_skipComma_le (s : Bytes) : (skipComma s).length ≤ s.length := by
  have h := length_skipWhitespace_le s
  unfold skipComma
  split
  · exact Nat.zero_le _
  · rename_i c t hs
    rw [hs, List.length_cons] at h
    split
    · exact (length_skipWhitespace_le t).trans (by omega)
    · rw [List.length_cons]
      omega

theorem length_expect {c : UInt8} {s rest : Bytes} (h : expect c s = .ok rest) :
    rest.length < s.length := by
  cases s with
  | nil => exact absurd h (by simp [expect])
  | cons d s =>
    rw [expect] at h
    split at h
    · rw [← Except.ok.inj h, List.length_cons]
      exact Nat.lt_succ_self _
    · exact absurd h (by simp)

/-- From a computation that goes on after a step, the step and what followed. -/
theorem ok_of_bind_eq_ok {ε : Type*} {α β : Type} {x : Except ε α} {f : α → Except ε β} {b : β}
    (h : (x >>= f) = .ok b) : ∃ a, x = .ok a ∧ f a = .ok b := by
  cases x with
  | error e => exact absurd h (by simp [bind, Except.bind])
  | ok a => exact ⟨a, rfl, h⟩

/-- A computation fails in its first step or behind it. -/
theorem bind_eq_error_iff {ε : Type*} {α β : Type} {x : Except ε α} {f : α → Except ε β} {e : ε} :
    (x >>= f) = .error e ↔ x = .error e ∨ ∃ a, x = .ok a ∧ f a = .error e := by
  cases x with
  | error e' => simp [bind, Except.bind]
  | ok a => simp [bind, Except.bind]

theorem scanByte_of_ne {unescape : UInt8 → Option UInt8} {nulEscape : ScanError} {c : UInt8}
    (hc : c ≠ backslash) (s : Bytes) : scanByte unescape nulEscape c s = .ok (c, s) :=
  if_neg hc

theorem scanByte_backslash {unescape : UInt8 → Option UInt8} {nulEscape : ScanError} {d b : UInt8}
    (hd : unescape d = some b) (s : Bytes) :
    scanByte unescape nulEscape backslash (d :: s) = .ok (b, s) := by
  unfold scanByte
  rw [if_pos rfl]
  simp only [hd]

theorem length_scanByte_le {unescape : UInt8 → Option UInt8} {nulEscape : ScanError}
    {c b : UInt8} {s rest : Bytes} (h : scanByte unescape nulEscape c s = .ok (b, rest)) :
    rest.length ≤ s.length := by
  unfold scanByte at h
  split at h
  · cases s with
    | nil => exact absurd h (by simp)
    | cons d s =>
      cases hu : unescape d with
      | none => simp [hu] at h
      | some b =>
        simp only [hu, Except.ok.injEq, Prod.mk.injEq] at h
        rw [← h.2]
        exact Nat.le_succ _
  · rw [← (Prod.mk.inj (Except.ok.inj h)).2]

/-- A successful scan of a string passes at least its closing quote. -/
theorem length_scanQuoted {unescape : UInt8 → Option UInt8} {nulEscape : ScanError} {room : ℕ}
    {s bs rest : Bytes} (h : scanQuoted unescape nulEscape room s = .ok (bs, rest)) :
    rest.length < s.length := by
  induction room generalizing s bs rest with
  | zero =>
    rw [scanQuoted] at h
    obtain ⟨t, hx, ht⟩ := ok_of_bind_eq_ok h
    rw [← (Prod.mk.inj (Except.ok.inj ht)).2]
    exact length_expect hx
  | succ room ih =>
    cases s with
    | nil => exact absurd h (by simp [scanQuoted])
    | cons c s =>
      rw [scanQuoted] at h
      rw [List.length_cons]
      split at h
      · rw [← (Prod.mk.inj (Except.ok.inj h)).2]
        exact Nat.lt_succ_self _
      · obtain ⟨⟨b, t⟩, hb, h⟩ := ok_of_bind_eq_ok h
        obtain ⟨⟨bs', rest'⟩, hrec, h⟩ := ok_of_bind_eq_ok h
        rw [← (Prod.mk.inj (Except.ok.inj h)).2]
        have hlt := ih hrec
        have hle := length_scanByte_le hb
        omega

theorem length_scanNested_le (opening closing : UInt8) (depth : ℕ) (s : Bytes) :
    (scanNested opening closing depth s).2.length ≤ s.length := by
  induction s generalizing depth with
  | nil => exact le_rfl
  | cons c s ih =>
    unfold scanNested
    dsimp only
    rw [List.length_cons]
    by_cases h : (if c = opening then depth + 1 else if c = closing then depth - 1 else depth) = 0
    · rw [if_pos h]
      exact Nat.le_succ _
    · rw [if_neg h]
      exact (ih _).trans (Nat.le_succ _)

/-- The text that is passed and the rest are the whole. -/
theorem scanNested_append_snd (opening closing : UInt8) (depth : ℕ) (s : Bytes) :
    (scanNested opening closing depth s).1 ++ (scanNested opening closing depth s).2 = s := by
  induction s generalizing depth with
  | nil => rfl
  | cons c s ih =>
    rw [scanNested]
    generalize (if c = opening then depth + 1 else if c = closing then depth - 1 else depth) = depth'
    by_cases hdepth : depth' = 0
    · rw [if_pos hdepth]
      rfl
    · rw [if_neg hdepth]
      exact congrArg (c :: ·) (ih depth')

theorem length_scanDigits_le (v : UInt64) (s : Bytes) :
    (scanDigits v s).2.length ≤ s.length := by
  induction s generalizing v with
  | nil => exact le_rfl
  | cons c s ih =>
    rw [scanDigits]
    split
    · exact (ih _).trans (Nat.le_succ _)
    · exact le_rfl

/-! ## Scanning what was written -/

theorem skipWhitespace_cons {c : UInt8} (hc : isspace c = false) (s : Bytes) :
    skipWhitespace (c :: s) = c :: s := by
  rw [skipWhitespace, List.dropWhile_cons, hc]
  rfl

@[simp] theorem expect_self (c : UInt8) (s : Bytes) : expect c (c :: s) = .ok s := by
  rw [expect, if_pos rfl]

/-- Behind a comma, the cursor stops at the next visible byte. -/
theorem skipComma_comma {c : UInt8} (hc : isspace c = false) (s : Bytes) :
    skipComma (comma :: c :: s) = c :: s := by
  rw [skipComma, skipWhitespace_cons (by rfl)]
  exact skipWhitespace_cons hc s

theorem skipComma_cons {c : UInt8} (hc : isspace c = false) (hne : c ≠ comma) (s : Bytes) :
    skipComma (c :: s) = c :: s := by
  rw [skipComma, skipWhitespace_cons hc]
  exact if_neg hne

/-! The turns of the loop over a quoted string. -/

section

variable {unescape : UInt8 → Option UInt8} {nulEscape : ScanError}

theorem scanQuoted_quote (room : ℕ) (s : Bytes) :
    scanQuoted unescape nulEscape room (quote :: s) = .ok ([], s) := by
  cases room with
  | zero =>
    rw [scanQuoted, expect_self]
    rfl
  | succ room => rw [scanQuoted, if_pos rfl]

theorem scanQuoted_zero {c : UInt8} (hq : c ≠ quote) (s : Bytes) :
    scanQuoted unescape nulEscape 0 (c :: s) = .error .reject := by
  rw [scanQuoted, expect, if_neg hq]
  rfl

theorem scanQuoted_plain_cons {c : UInt8} (hq : c ≠ quote) (hb : c ≠ backslash) (room : ℕ)
    (s : Bytes) :
    scanQuoted unescape nulEscape (room + 1) (c :: s) = do
      let (bs, rest) ← scanQuoted unescape nulEscape room s
      return (c :: bs, rest) := by
  rw [scanQuoted, if_neg hq, scanByte_of_ne hb]
  rfl

theorem scanQuoted_escape {d b : UInt8} (hd : unescape d = some b) (room : ℕ) (s : Bytes) :
    scanQuoted unescape nulEscape (room + 1) (backslash :: d :: s) = do
      let (bs, rest) ← scanQuoted unescape nulEscape room s
      return (b :: bs, rest) := by
  rw [scanQuoted, if_neg (by decide), scanByte_backslash hd]
  rfl

theorem scanQuoted_escape_none {d : UInt8} (hd : unescape d = none) (room : ℕ) (s : Bytes) :
    scanQuoted unescape nulEscape (room + 1) (backslash :: d :: s) = .error .reject := by
  rw [scanQuoted, if_neg (by decide), scanByte, if_pos rfl]
  simp only [hd]
  rfl

theorem scanQuoted_escape_nil (room : ℕ) :
    scanQuoted unescape nulEscape (room + 1) [backslash] = .error nulEscape := rfl

end

/-- How a byte is printed inside a quoted string and comes back: dropped, as it stands, or
behind a backslash. -/
inductive Escaped (unescape : UInt8 → Option UInt8) (c : UInt8) : Bytes → Bool → Prop where
  | dropped : Escaped unescape c [] false
  | plain : c ≠ quote → c ≠ backslash → Escaped unescape c [c] true
  | escape (d : UInt8) : unescape d = some c → Escaped unescape c [backslash, d] true

/-- **Escaped text is read back as the bytes that were kept.** -/
theorem scanQuoted_flatMap {piece : UInt8 → Bytes} {kept : UInt8 → Bool}
    {unescape : UInt8 → Option UInt8} (nulEscape : ScanError) {s : Bytes} {room : ℕ}
    (h : ∀ c ∈ s, Escaped unescape c (piece c) (kept c))
    (hroom : (s.filter kept).length ≤ room) (rest : Bytes) :
    scanQuoted unescape nulEscape room (s.flatMap piece ++ quote :: rest) =
      .ok (s.filter kept, rest) := by
  induction s generalizing room with
  | nil => exact scanQuoted_quote room rest
  | cons c s ih =>
    have hs : ∀ d ∈ s, Escaped unescape d (piece d) (kept d) :=
      fun d hd => h d (List.mem_cons_of_mem _ hd)
    have hc := h c List.mem_cons_self
    rw [List.flatMap_cons, List.append_assoc]
    cases hk : kept c with
    | false =>
      rw [List.filter_cons_of_neg (by simp [hk])] at hroom ⊢
      rw [hk] at hc
      generalize hp : piece c = p at hc
      cases hc
      exact ih hs hroom
    | true =>
      rw [List.filter_cons_of_pos hk] at hroom ⊢
      cases room with
      | zero => exact absurd hroom (by simp)
      | succ room =>
        have hrec := ih hs (by simpa using hroom)
        rw [hk] at hc
        generalize hp : piece c = p at hc
        cases hc with
        | plain hq hb =>
          rw [List.singleton_append, scanQuoted_plain_cons hq hb, hrec]
          rfl
        | escape d hd =>
          rw [List.cons_append, List.singleton_append, scanQuoted_escape hd, hrec]
          rfl

/-- A byte that means nothing special inside quotes. -/
def isPlain (c : UInt8) : Bool := c != quote && c != backslash

theorem isPlain_iff {c : UInt8} : isPlain c = true ↔ c ≠ quote ∧ c ≠ backslash := by
  rw [isPlain, Bool.and_eq_true, bne_iff_ne, bne_iff_ne]

/-- A quoted string without quotes and backslashes is stored as it stands. -/
theorem scanQuoted_plain (unescape : UInt8 → Option UInt8) (nulEscape : ScanError) {s : Bytes}
    {room : ℕ} (hroom : s.length ≤ room) (hs : ∀ c ∈ s, c ≠ quote ∧ c ≠ backslash)
    (rest : Bytes) : scanQuoted unescape nulEscape room (s ++ quote :: rest) = .ok (s, rest) := by
  have hfilter : s.filter (fun _ => true) = s := List.filter_true s
  have hroom' : (s.filter fun _ => true).length ≤ room := by rwa [hfilter]
  have hplain : ∀ c ∈ s, Escaped unescape c [c] true := fun c hc => .plain (hs c hc).1 (hs c hc).2
  have h := scanQuoted_flatMap nulEscape hplain hroom' rest
  rwa [hfilter, List.flatMap_singleton'] at h

/-- A text without brackets between an opening and a closing one is passed whole. -/
theorem scanNested_flat {opening closing : UInt8} (hne : closing ≠ opening) {body : Bytes}
    (hbody : ∀ c ∈ body, c ≠ opening ∧ c ≠ closing) (rest : Bytes) :
    scanNested opening closing 0 (opening :: (body ++ closing :: rest)) =
      (opening :: (body ++ [closing]), rest) := by
  have hrun : ∀ b : Bytes, (∀ c ∈ b, c ≠ opening ∧ c ≠ closing) →
      scanNested opening closing 1 (b ++ closing :: rest) = (b ++ [closing], rest) := by
    intro b hb
    induction b with
    | nil => simp [scanNested, hne]
    | cons c b ih =>
      have hc := hb c List.mem_cons_self
      rw [List.cons_append, scanNested, if_neg hc.1, if_neg hc.2, if_neg one_ne_zero,
        ih fun d hd => hb d (List.mem_cons_of_mem _ hd)]
      rfl
  rw [scanNested, if_pos rfl, if_neg (by decide), hrun body hbody]

end LogAgg
