import LogAgg.CString.Text

/-!
# What the scanners pass

The texts between two cursors, as predicates: `Spaces` for a run of blanks, `Separator` for
blanks with at most one comma among them, `Units` for the body of a quoted string.  A scan of
a quoted string that succeeds has passed `Units` and a closing quote (`scanQuoted_eq_ok_iff`);
one that is moved past the terminator has passed `Units` and met a backslash at the very end
(`scanQuoted_eq_pastEnd_iff`).
-/

namespace LogAgg

open Ascii

/-! ## Blanks and commas -/

/-- A run of blanks. -/
abbrev Spaces (w : Bytes) : Prop := ∀ c ∈ w, isspace c = true

theorem skipWhitespace_append {w : Bytes} (hw : Spaces w) (s : Bytes) :
    skipWhitespace (w ++ s) = skipWhitespace s := List.dropWhile_append_of_pos hw

theorem skipWhitespace_append_cons {w : Bytes} (hw : Spaces w) {c : UInt8}
    (hc : isspace c = false) (s : Bytes) : skipWhitespace (w ++ c :: s) = c :: s := by
  rw [skipWhitespace_append hw, skipWhitespace_cons hc]

theorem skipWhitespace_idem (s : Bytes) : skipWhitespace (skipWhitespace s) = skipWhitespace s :=
  List.dropWhile_idempotent _ _

/-- What `skip_whitespace` passes. -/
theorem exists_skipWhitespace (s : Bytes) : ∃ w, Spaces w ∧ s = w ++ skipWhitespace s :=
  ⟨s.takeWhile isspace, fun _ hc => List.mem_takeWhile_imp hc,
    List.takeWhile_append_dropWhile.symm⟩

/-- Where `skip_whitespace` stops. -/
theorem isspace_of_skipWhitespace {c : UInt8} {s t : Bytes} (h : skipWhitespace s = c :: t) :
    isspace c = false := by
  have hhead := List.head?_dropWhile_not isspace s
  rw [show s.dropWhile isspace = c :: t from h, List.head?_cons] at hhead
  exact hhead

/-- A blank is no digit. -/
theorem isdigit_of_isspace_eq_true {c : UInt8} (hc : isspace c = true) : isdigit c = false := by
  by_contra h
  rw [Bool.not_eq_false] at h
  rw [isspace_of_isdigit h] at hc
  exact Bool.noConfusion hc

theorem eq_cons_of_expect {c : UInt8} {s rest : Bytes} (h : expect c s = .ok rest) :
    s = c :: rest := by
  cases s with
  | nil => cases h
  | cons d s =>
    rw [expect] at h
    split at h
    · rename_i hd
      rw [hd, Except.ok.inj h]
    · cases h

theorem expect_ne_pastEnd (c : UInt8) (s : Bytes) : expect c s ≠ .error .pastEnd := by
  intro h
  cases s with
  | nil => cases h
  | cons d s =>
    rw [expect] at h
    split at h <;> cases h

/-- Blanks with at most one comma among them. -/
inductive Separator : Bytes → Prop where
  | spaces {w : Bytes} (hw : Spaces w) : Separator w
  | comma {w w' : Bytes} (hw : Spaces w) (hw' : Spaces w') : Separator (w ++ comma :: w')

theorem Separator.isspace_or_eq_comma {sep : Bytes} (hsep : Separator sep) {c : UInt8}
    (hc : c ∈ sep) : isspace c = true ∨ c = Ascii.comma := by
  cases hsep with
  | spaces hw => exact Or.inl (hw c hc)
  | comma hw hw' =>
    rw [List.mem_append, List.mem_cons] at hc
    rcases hc with hc | hc | hc
    · exact Or.inl (hw c hc)
    · exact Or.inr hc
    · exact Or.inl (hw' c hc)

/-- No number goes on in a separator. -/
theorem Separator.isdigit_head {sep : Bytes} (hsep : Separator sep) {c d : UInt8}
    (hc : isdigit c = false) {s : Bytes} (hd : (sep ++ c :: s).head? = some d) :
    isdigit d = false := by
  have hspaces : ∀ {w u : Bytes} {c : UInt8}, Spaces w → isdigit c = false →
      (w ++ c :: u).head? = some d → isdigit d = false := by
    intro w u c hw hc hd
    cases w with
    | nil =>
      obtain rfl := Option.some.inj hd
      exact hc
    | cons b w =>
      obtain rfl := Option.some.inj hd
      exact isdigit_of_isspace_eq_true (hw b List.mem_cons_self)
  cases hsep with
  | spaces hw => exact hspaces hw hc hd
  | comma hw hw' =>
    rw [List.append_assoc, List.cons_append] at hd
    exact hspaces hw (by rfl) hd

/-- What is passed between two members. -/
theorem exists_skipComma (s : Bytes) : ∃ sep, Separator sep ∧ s = sep ++ skipComma s := by
  obtain ⟨w, hw, hs⟩ := exists_skipWhitespace s
  unfold skipComma
  cases hskip : skipWhitespace s with
  | nil =>
    rw [hskip, List.append_nil] at hs
    exact ⟨w, .spaces hw, by rw [List.append_nil, ← hs]⟩
  | cons c t =>
    rw [hskip] at hs
    dsimp only
    by_cases hc : c = comma
    · obtain ⟨w', hw', ht⟩ := exists_skipWhitespace t
      rw [if_pos hc]
      refine ⟨w ++ comma :: w', .comma hw hw', ?_⟩
      rw [List.append_assoc, List.cons_append, ← ht, ← hc, ← hs]
    · rw [if_neg hc]
      exact ⟨w, .spaces hw, hs⟩

/-- The cursor stands behind a separator at the next byte that is neither blank nor comma. -/
theorem skipComma_append_cons {sep : Bytes} (hsep : Separator sep) {c : UInt8}
    (hc : isspace c = false) (hne : c ≠ comma) (s : Bytes) : skipComma (sep ++ c :: s) = c :: s := by
  cases hsep with
  | spaces hw =>
    rw [skipComma, skipWhitespace_append_cons hw hc]
    exact if_neg hne
  | comma hw hw' =>
    rw [skipComma, List.append_assoc, List.cons_append,
      skipWhitespace_append_cons hw (show isspace Ascii.comma = false from rfl)]
    dsimp only
    rw [if_pos rfl, skipWhitespace_append_cons hw' hc]

/-- At a comma, the cursor moves behind the blanks that follow. -/
theorem skipComma_append_comma {w : Bytes} (hw : Spaces w) (s : Bytes) :
    skipComma (w ++ comma :: s) = skipWhitespace s := by
  rw [skipComma, skipWhitespace_append_cons hw (show isspace comma = false from rfl)]
  exact if_pos rfl

/-- The cursor comes to stand at a visible byte or at the end. -/
theorem isspace_of_skipComma {c : UInt8} {s t : Bytes} (h : skipComma s = c :: t) :
    isspace c = false := by
  unfold skipComma at h
  cases hskip : skipWhitespace s with
  | nil => simp [hskip] at h
  | cons d u =>
    simp only [hskip] at h
    split at h
    · exact isspace_of_skipWhitespace h
    · obtain ⟨rfl, rfl⟩ := List.cons.inj h
      exact isspace_of_skipWhitespace hskip

/-! ## The body of a quoted string -/

/-- `Units unescape t bs`: the text `t` stores the bytes `bs`, each as it stands or behind a
backslash. -/
inductive Units (unescape : UInt8 → Option UInt8) : Bytes → Bytes → Prop where
  | nil : Units unescape [] []
  | plain {c : UInt8} {t bs : Bytes} (hq : c ≠ quote) (hb : c ≠ backslash)
      (h : Units unescape t bs) : Units unescape (c :: t) (c :: bs)
  | escape {d b : UInt8} {t bs : Bytes} (hd : unescape d = some b) (h : Units unescape t bs) :
      Units unescape (backslash :: d :: t) (b :: bs)

section

variable {unescape : UInt8 → Option UInt8} {nulEscape : ScanError}

namespace Units

/-- No byte that is stored is the terminator, if no escape stands for it. -/
theorem zero_notMem (hzero : ∀ d, d ≠ 0 → unescape d ≠ some 0) {t bs : Bytes}
    (h : Units unescape t bs) (ht : (0 : UInt8) ∉ t) : (0 : UInt8) ∉ bs := by
  induction h with
  | nil => exact ht
  | plain hq hb h ih =>
    rw [List.mem_cons, not_or] at ht ⊢
    exact ⟨ht.1, ih ht.2⟩
  | @escape d b t bs hd h ih =>
    rw [List.mem_cons, List.mem_cons, not_or, not_or] at ht
    rw [List.mem_cons, not_or]
    refine ⟨?_, ih ht.2.2⟩
    rintro rfl
    exact hzero d (Ne.symm ht.2.1) hd

/-- The scan passes units as long as there is room for them. -/
theorem scanQuoted {t bs : Bytes} (h : Units unescape t bs) (room : ℕ) (rest : Bytes) :
    scanQuoted unescape nulEscape (bs.length + room) (t ++ rest) = do
      let (bs', rest) ← scanQuoted unescape nulEscape room rest
      return (bs ++ bs', rest) := by
  induction h with
  | nil =>
    rw [List.length_nil, Nat.zero_add, List.nil_append]
    exact (bind_pure _).symm
  | plain hq hb h ih =>
    rw [List.length_cons, Nat.succ_add, List.cons_append, scanQuoted_plain_cons hq hb, ih]
    simp only [bind_assoc, pure_bind, List.cons_append]
  | escape hd h ih =>
    rw [List.length_cons, Nat.succ_add, List.cons_append, List.cons_append,
      scanQuoted_escape hd, ih]
    simp only [bind_assoc, pure_bind, List.cons_append]

end Units

/-- **A scan succeeds** behind units that fit and a closing quote. -/
theorem scanQuoted_eq_ok_iff {room : ℕ} {s bs rest : Bytes} :
    scanQuoted unescape nulEscape room s = .ok (bs, rest) ↔
      ∃ t, Units unescape t bs ∧ bs.length ≤ room ∧ s = t ++ quote :: rest := by
  constructor
  · intro h
    induction room generalizing s bs with
    | zero =>
      obtain ⟨s', hquote, h⟩ := ok_of_bind_eq_ok h
      obtain ⟨rfl, rfl⟩ := Prod.mk.inj (Except.ok.inj h)
      exact ⟨[], .nil, le_rfl, eq_cons_of_expect hquote⟩
    | succ room ih =>
      cases s with
      | nil => cases h
      | cons c s =>
        by_cases hq : c = quote
        · rw [hq, scanQuoted_quote] at h
          obtain ⟨rfl, rfl⟩ := Prod.mk.inj (Except.ok.inj h)
          exact ⟨[], .nil, Nat.zero_le _, by rw [hq, List.nil_append]⟩
        by_cases hb : c = backslash
        · subst hb
          cases s with
          | nil =>
            rw [scanQuoted_escape_nil] at h
            cases h
          | cons d s =>
            cases hd : unescape d with
            | none =>
              rw [scanQuoted_escape_none hd] at h
              cases h
            | some b =>
              rw [scanQuoted_escape hd] at h
              obtain ⟨⟨bs', rest'⟩, hrec, h⟩ := ok_of_bind_eq_ok h
              obtain ⟨rfl, rfl⟩ := Prod.mk.inj (Except.ok.inj h)
              obtain ⟨t, hunits, hlen, rfl⟩ := ih hrec
              exact ⟨_, .escape hd hunits, Nat.succ_le_succ hlen, rfl⟩
        · rw [scanQuoted_plain_cons hq hb] at h
          obtain ⟨⟨bs', rest'⟩, hrec, h⟩ := ok_of_bind_eq_ok h
          obtain ⟨rfl, rfl⟩ := Prod.mk.inj (Except.ok.inj h)
          obtain ⟨t, hunits, hlen, rfl⟩ := ih hrec
          exact ⟨_, .plain hq hb hunits, Nat.succ_le_succ hlen, rfl⟩
  · rintro ⟨t, hunits, hlen, rfl⟩
    obtain ⟨k, rfl⟩ := Nat.exists_eq_add_of_le hlen
    rw [hunits.scanQuoted, scanQuoted_quote]
    show Except.ok (bs ++ [], rest) = _
    rw [List.append_nil]

/-- **A scan runs past the terminator** behind units that leave room, when a backslash is the
last byte of the text. -/
theorem scanQuoted_eq_pastEnd_iff {room : ℕ} {s : Bytes} :
    scanQuoted unescape .pastEnd room s = .error .pastEnd ↔
      ∃ t bs, Units unescape t bs ∧ bs.length < room ∧ s = t ++ [backslash] := by
  constructor
  · intro h
    induction room generalizing s with
    | zero =>
      cases s with
      | nil => cases h
      | cons c s =>
        by_cases hq : c = quote
        · rw [hq, scanQuoted_quote] at h
          cases h
        · rw [scanQuoted_zero hq] at h
          cases h
    | succ room ih =>
      -- the rest of the string runs past the end
      have hrest : ∀ (b : UInt8) (s : Bytes),
          (do let (bs, rest) ← scanQuoted unescape .pastEnd room s; return (b :: bs, rest)) =
            Except.error ScanError.pastEnd →
          ∃ t bs, Units unescape t bs ∧ bs.length < room ∧ s = t ++ [backslash] := by
        intro b s h
        cases hs : scanQuoted unescape .pastEnd room s with
        | error e =>
          rw [hs] at h
          cases h
          exact ih hs
        | ok p =>
          rw [hs] at h
          cases h
      cases s with
      | nil => cases h
      | cons c s =>
        by_cases hq : c = quote
        · rw [hq, scanQuoted_quote] at h
          cases h
        by_cases hb : c = backslash
        · subst hb
          cases s with
          | nil => exact ⟨[], [], .nil, Nat.succ_pos room, rfl⟩
          | cons d s =>
            cases hd : unescape d with
            | none =>
              rw [scanQuoted_escape_none hd] at h
              cases h
            | some b =>
              rw [scanQuoted_escape hd] at h
              obtain ⟨t, bs, hunits, hlen, rfl⟩ := hrest b s h
              exact ⟨_, _, .escape hd hunits, Nat.succ_lt_succ hlen, rfl⟩
        · rw [scanQuoted_plain_cons hq hb] at h
          obtain ⟨t, bs, hunits, hlen, rfl⟩ := hrest c s h
          exact ⟨_, _, .plain hq hb hunits, Nat.succ_lt_succ hlen, rfl⟩
  · rintro ⟨t, bs, hunits, hlen, rfl⟩
    obtain ⟨k, rfl⟩ := Nat.exists_eq_add_of_lt hlen
    rw [Nat.add_assoc, hunits.scanQuoted, scanQuoted_escape_nil]
    rfl

/-- A scanner that rejects a backslash at the very end never runs past the terminator. -/
theorem scanQuoted_reject_ne_pastEnd (unescape : UInt8 → Option UInt8) (room : ℕ) (s : Bytes) :
    scanQuoted unescape .reject room s ≠ .error .pastEnd := by
  intro h
  induction room generalizing s with
  | zero =>
    rw [scanQuoted, bind_eq_error_iff] at h
    rcases h with h | ⟨_, -, h⟩
    · exact expect_ne_pastEnd quote s h
    · cases h
  | succ room ih =>
    cases s with
    | nil => cases h
    | cons c s =>
      rw [scanQuoted] at h
      split at h
      · cases h
      · rw [bind_eq_error_iff] at h
        rcases h with h | ⟨⟨b, t⟩, -, h⟩
        · unfold scanByte at h
          split at h
          · split at h
            · cases h
            · split at h <;> cases h
          · cases h
        · rw [bind_eq_error_iff] at h
          rcases h with h | ⟨_, -, h⟩
          · exact ih t h
          · cases h

end

end LogAgg
