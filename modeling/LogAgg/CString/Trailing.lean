import LogAgg.CString.Text

/-!
# A blank behind the text

Two runs of a scanner side by side, on a text and on the same text with a blank behind it.
Their cursors stay in the relation `Trails`: the blank is still ahead, or both are at the
end; behind a skipped run of blanks only the text itself is left to differ (`Ahead`).  A
step fails in both runs or in neither (`Agree`).
-/

namespace LogAgg

open Ascii

/-- The outcomes of two runs: both fail, or both succeed with related values. -/
def Agree {α β : Type} (R : α → β → Prop) : Except ScanError α → Except ScanError β → Prop
  | .ok a, .ok b => R a b
  | .error _, .error _ => True
  | .ok _, .error _ => False
  | .error _, .ok _ => False

theorem Agree.bind {α β γ δ : Type} {R : α → β → Prop} {S : γ → δ → Prop}
    {x : Except ScanError α} {y : Except ScanError β} {f : α → Except ScanError γ}
    {g : β → Except ScanError δ} (h : Agree R x y) (hfg : ∀ a b, R a b → Agree S (f a) (g b)) :
    Agree S (x >>= f) (y >>= g) := by
  cases x with
  | error e =>
    cases y with
    | error e' => trivial
    | ok b => exact h.elim
  | ok a =>
    cases y with
    | error e' => exact h.elim
    | ok b => exact hfg a b h

/-- Runs that agree on equal values have the same result, if any. -/
theorem Agree.toOption_eq {α : Type} {x y : Except ScanError α} (h : Agree Eq x y) :
    x.toOption = y.toOption := by
  cases x with
  | error e =>
    cases y with
    | error e' => rfl
    | ok b => exact h.elim
  | ok a =>
    cases y with
    | error e' => exact h.elim
    | ok b => exact congrArg some h

/-- The cursor `t` is the cursor `s` with the blank behind the text, if this was not passed
yet. -/
def Trails (blank : UInt8) (s t : Bytes) : Prop := t = s ++ [blank] ∨ s = [] ∧ t = []

/-- The same, at a visible byte or at the end. -/
def Ahead (blank : UInt8) (s t : Bytes) : Prop := s ≠ [] ∧ t = s ++ [blank] ∨ s = [] ∧ t = []

theorem Ahead.trails {blank : UInt8} {s t : Bytes} (h : Ahead blank s t) : Trails blank s t :=
  h.imp_left And.right

/-- A value that was read, and the cursors behind it. -/
def TrailsWith {α : Type} (blank : UInt8) (p q : α × Bytes) : Prop :=
  p.1 = q.1 ∧ Trails blank p.2 q.2

section

variable {blank : UInt8} {s t : Bytes}

/-- A blank is none of the bytes with a meaning. -/
theorem ne_of_isspace {c : UInt8} (hblank : isspace blank = true) (hc : isspace c = false) :
    blank ≠ c := by
  rintro rfl
  rw [hblank] at hc
  exact Bool.noConfusion hc

theorem isdigit_of_isspace (hblank : isspace blank = true) : isdigit blank = false := by
  by_contra h
  rw [Bool.not_eq_false] at h
  rw [isspace_of_isdigit h] at hblank
  exact Bool.noConfusion hblank

/-- Passing bytes of a kind that the blank belongs to. -/
theorem ahead_dropWhile {p : UInt8 → Bool} (hp : p blank = true) (h : Trails blank s t) :
    Ahead blank (s.dropWhile p) (t.dropWhile p) := by
  rcases h with rfl | ⟨rfl, rfl⟩
  · induction s with
    | nil =>
      right
      rw [List.nil_append, List.dropWhile_cons_of_pos hp]
      exact ⟨rfl, rfl⟩
    | cons c s ih =>
      by_cases hc : p c = true
      · rw [List.cons_append, List.dropWhile_cons_of_pos hc, List.dropWhile_cons_of_pos hc]
        exact ih
      · rw [List.cons_append, List.dropWhile_cons_of_neg hc, List.dropWhile_cons_of_neg hc]
        exact Or.inl ⟨List.cons_ne_nil c s, rfl⟩
  · exact Or.inr ⟨rfl, rfl⟩

theorem ahead_skipWhitespace (hblank : isspace blank = true) (h : Trails blank s t) :
    Ahead blank (skipWhitespace s) (skipWhitespace t) := ahead_dropWhile hblank h

theorem agree_expect {c : UInt8} (hc : blank ≠ c) (h : Trails blank s t) :
    Agree (Trails blank) (expect c s) (expect c t) := by
  rcases h with rfl | ⟨rfl, rfl⟩
  · cases s with
    | nil =>
      rw [List.nil_append, expect, expect, if_neg hc]
      trivial
    | cons d s =>
      rw [List.cons_append, expect, expect]
      by_cases hd : d = c
      · rw [if_pos hd, if_pos hd]
        exact Or.inl rfl
      · rw [if_neg hd, if_neg hd]
        trivial
  · trivial

theorem ahead_skipComma (hblank : isspace blank = true) (h : Trails blank s t) :
    Ahead blank (skipComma s) (skipComma t) := by
  have hskip := ahead_skipWhitespace hblank h
  unfold skipComma
  rcases hskip with ⟨hne, ht⟩ | ⟨hs, ht⟩
  · cases hs : skipWhitespace s with
    | nil => exact absurd hs hne
    | cons c s' =>
      rw [ht, hs, List.cons_append]
      dsimp only
      by_cases hc : c = comma
      · rw [if_pos hc, if_pos hc]
        exact ahead_skipWhitespace hblank (Or.inl rfl)
      · rw [if_neg hc, if_neg hc]
        exact Or.inl ⟨List.cons_ne_nil c s', rfl⟩
  · rw [hs, ht]
    exact Or.inr ⟨rfl, rfl⟩

theorem trailsWith_scanDigits (hblank : isspace blank = true) (v : UInt64)
    (h : Trails blank s t) : TrailsWith blank (scanDigits v s) (scanDigits v t) := by
  rcases h with rfl | ⟨rfl, rfl⟩
  · induction s generalizing v with
    | nil =>
      rw [List.nil_append, scanDigits, scanDigits, isdigit_of_isspace hblank]
      exact ⟨rfl, Or.inl rfl⟩
    | cons c s ih =>
      rw [List.cons_append, scanDigits, scanDigits]
      by_cases hc : isdigit c = true
      · rw [if_pos hc, if_pos hc]
        exact ih _
      · rw [if_neg hc, if_neg hc]
        exact ⟨rfl, Or.inl rfl⟩
  · exact ⟨rfl, Or.inr ⟨rfl, rfl⟩⟩

/-! ## Strings -/

/-- No string ends at the end of the text. -/
theorem scanQuoted_nil (unescape : UInt8 → Option UInt8) (nulEscape : ScanError) (room : ℕ) :
    scanQuoted unescape nulEscape room [] = .error .reject := by
  cases room <;> rfl

/-- A blank at the end of the text does not close a string. -/
theorem exists_scanQuoted_singleton (hquote : blank ≠ quote) (hbackslash : blank ≠ backslash)
    (unescape : UInt8 → Option UInt8) (nulEscape : ScanError) (room : ℕ) :
    ∃ e, scanQuoted unescape nulEscape room [blank] = .error e := by
  cases room with
  | zero =>
    rw [scanQuoted, expect, if_neg hquote]
    exact ⟨_, rfl⟩
  | succ room =>
    rw [scanQuoted, if_neg hquote, scanByte_of_ne hbackslash]
    show ∃ e, (scanQuoted unescape nulEscape room [] >>= _) = _
    rw [scanQuoted_nil]
    exact ⟨_, rfl⟩

/-- A backslash in front of the blank escapes it, and no string ends. -/
theorem exists_scanQuoted_backslash (blank : UInt8) (unescape : UInt8 → Option UInt8)
    (nulEscape : ScanError) (room : ℕ) :
    ∃ e, scanQuoted unescape nulEscape (room + 1) [backslash, blank] = .error e := by
  rw [scanQuoted, if_neg (by decide), scanByte, if_pos rfl]
  dsimp only
  cases unescape blank with
  | none => exact ⟨_, rfl⟩
  | some b =>
    show ∃ e, (scanQuoted unescape nulEscape room [] >>= _) = _
    rw [scanQuoted_nil]
    exact ⟨_, rfl⟩

/-- A byte is read as it was, unless it is a backslash at the end. -/
theorem scanByte_append (blank : UInt8) (unescape : UInt8 → Option UInt8) (nulEscape : ScanError)
    (c : UInt8) (s : Bytes) :
    (c = backslash ∧ s = []) ∨ scanByte unescape nulEscape c (s ++ [blank]) =
      (scanByte unescape nulEscape c s).map fun p => (p.1, p.2 ++ [blank]) := by
  unfold scanByte
  by_cases hescape : c = backslash
  · cases s with
    | nil => exact Or.inl ⟨hescape, rfl⟩
    | cons d s =>
      right
      rw [if_pos hescape, if_pos hescape, List.cons_append]
      dsimp only
      cases unescape d with
      | none => rfl
      | some b => rfl
  · right
    rw [if_neg hescape, if_neg hescape]
    rfl

theorem agree_scanQuoted (hquote : blank ≠ quote) (hbackslash : blank ≠ backslash)
    (unescape : UInt8 → Option UInt8) (nulEscape : ScanError) (room : ℕ) (h : Trails blank s t) :
    Agree (TrailsWith blank) (scanQuoted unescape nulEscape room s)
      (scanQuoted unescape nulEscape room t) := by
  induction room generalizing s t with
  | zero =>
    refine (agree_expect hquote h).bind fun a b hab => ?_
    exact ⟨rfl, hab⟩
  | succ room ih =>
    rcases h with rfl | ⟨rfl, rfl⟩
    · cases s with
      | nil =>
        obtain ⟨e, he⟩ := exists_scanQuoted_singleton hquote hbackslash unescape nulEscape (room + 1)
        rw [List.nil_append, he]
        trivial
      | cons c s =>
        rcases scanByte_append blank unescape nulEscape c s with ⟨rfl, rfl⟩ | hbyte
        · obtain ⟨e, he⟩ := exists_scanQuoted_backslash blank unescape nulEscape room
          rw [List.cons_append, List.nil_append, he, scanQuoted_escape_nil]
          trivial
        · rw [List.cons_append, scanQuoted, scanQuoted, hbyte]
          by_cases hc : c = quote
          · rw [if_pos hc, if_pos hc]
            exact ⟨rfl, Or.inl rfl⟩
          · rw [if_neg hc, if_neg hc]
            cases scanByte unescape nulEscape c s with
            | error e => trivial
            | ok p =>
              -- the rest of the string
              refine (ih (Or.inl rfl)).bind fun q r hqr => ?_
              exact ⟨congrArg (p.1 :: ·) hqr.1, hqr.2⟩
    · rw [scanQuoted_nil]
      trivial

/-! ## Nested text -/

/-- The text between brackets is the same, or neither run met its end. -/
theorem scanNested_append {opening closing : UInt8} (hopening : blank ≠ opening)
    (hclosing : blank ≠ closing) (depth : ℕ) (s : Bytes) :
    (scanNested opening closing depth (s ++ [blank])).1 = (scanNested opening closing depth s).1 ∧
        (scanNested opening closing depth (s ++ [blank])).2 =
          (scanNested opening closing depth s).2 ++ [blank] ∨
      (scanNested opening closing depth (s ++ [blank])).1 =
          (scanNested opening closing depth s).1 ++ [blank] ∧
        (scanNested opening closing depth s).2 = [] ∧
        (scanNested opening closing depth (s ++ [blank])).2 = [] := by
  induction s generalizing depth with
  | nil =>
    have hone : scanNested opening closing depth [blank] = ([blank], []) := by
      rw [scanNested, if_neg hopening, if_neg hclosing]
      dsimp only
      split <;> rfl
    rw [List.nil_append, hone]
    exact Or.inr ⟨rfl, rfl, rfl⟩
  | cons c s ih =>
    rw [List.cons_append, scanNested, scanNested]
    dsimp only
    by_cases hdepth :
        (if c = opening then depth + 1 else if c = closing then depth - 1 else depth) = 0
    · rw [if_pos hdepth, if_pos hdepth]
      exact Or.inl ⟨rfl, rfl⟩
    · rw [if_neg hdepth, if_neg hdepth]
      refine (ih _).imp (fun h => ⟨?_, h.2⟩) (fun h => ⟨?_, h.2⟩)
      · rw [h.1]
      · rw [h.1, List.cons_append]

theorem trails_scanNested {opening closing : UInt8} (hopening : blank ≠ opening)
    (hclosing : blank ≠ closing) (depth : ℕ) (h : Trails blank s t) :
    Trails blank (scanNested opening closing depth s).2 (scanNested opening closing depth t).2 := by
  rcases h with rfl | ⟨rfl, rfl⟩
  · exact (scanNested_append hopening hclosing depth s).imp And.right fun h => h.2
  · exact Or.inr ⟨rfl, rfl⟩

end

end LogAgg
