import Mathlib

/-!
# Repeating what was written

The output of an LZ77 decoder grows by literals and by matches: a match repeats the cell that
lies `offset` before the end, `n` times, and so runs into cells that it has written itself
when it is longer than its offset.

* `copyBack`: a match, one cell after the other.
* `take_add_eq_copyBack`: a list in which every cell of a stretch equals the one `offset`
  before it has that stretch as a match.  This is all that an encoder has to find out, and
  all that a decoder has to establish, in whatever strides it copies.
* `Factor`: literals and a match; `expand` is what a list of them stands for.
-/

namespace Lz77

variable {α : Type*} [Zero α]

/-- The cell `offset` before the end, once more.  There is none for the offset zero. -/
def copyCell (offset : ℕ) (out : List α) : List α := out ++ [out.getD (out.length - offset) 0]

/-- A match of length `n`. -/
def copyBack (offset n : ℕ) (out : List α) : List α := (copyCell offset)^[n] out

@[simp] theorem length_copyCell (offset : ℕ) (out : List α) :
    (copyCell offset out).length = out.length + 1 := by
  rw [copyCell, List.length_append, List.length_singleton]

@[simp] theorem copyBack_zero (offset : ℕ) (out : List α) : copyBack offset 0 out = out := rfl

theorem copyBack_succ (offset n : ℕ) (out : List α) :
    copyBack offset (n + 1) out = copyCell offset (copyBack offset n out) :=
  Function.iterate_succ_apply' _ _ _

@[simp] theorem length_copyBack (offset n : ℕ) (out : List α) :
    (copyBack offset n out).length = out.length + n := by
  induction n with
  | zero => rfl
  | succ n ih => rw [copyBack_succ, length_copyCell, ih, Nat.add_assoc]

/-- Without an offset there is nothing to repeat. -/
theorem copyBack_offset_zero (n : ℕ) (out : List α) :
    copyBack 0 n out = out ++ List.replicate n 0 := by
  induction n with
  | zero => rw [copyBack_zero, List.replicate_zero, List.append_nil]
  | succ n ih =>
    rw [copyBack_succ, ih, copyCell, Nat.sub_zero, List.getD_eq_default _ _ le_rfl,
      List.append_assoc, ← List.replicate_succ']

/-- **Recognizing a match.** -/
theorem take_add_eq_copyBack {l : List α} {offset i n : ℕ} (hpos : 0 < offset)
    (hoffset : offset ≤ i) (hlen : i + n ≤ l.length)
    (h : ∀ k, i ≤ k → k < i + n → l[k]? = l[k - offset]?) :
    l.take (i + n) = copyBack offset n (l.take i) := by
  induction n with
  | zero => rfl
  | succ n ih =>
    have hlt : i + n < l.length := by omega
    have hcell := h (i + n) (Nat.le_add_right i n) (by omega)
    rw [copyBack_succ, ← ih (by omega) fun k hk hkn => h k hk (by omega), copyCell,
      List.length_take_of_le hlt.le, ← Nat.add_assoc, List.take_add_one, hcell]
    rw [List.getD_eq_getElem?_getD, List.getElem?_take_of_lt (by omega)]
    have hsome : l[i + n - offset]? = some l[i + n - offset] := List.getElem?_eq_getElem _
    rw [hsome, Option.toList_some, Option.getD_some]

/-- A source that repeats from `i` on what it has from `j` on is, up to the end of the
repetition, the match with the distance for an offset. -/
theorem copyBack_take {l : List α} {i j n : ℕ} (hji : j < i) (hlen : i + n ≤ l.length)
    (h : ∀ k < n, l[j + k]? = l[i + k]?) : copyBack (i - j) n (l.take i) = l.take (i + n) := by
  refine (take_add_eq_copyBack (by omega) (by omega) hlen fun k hk hkn => ?_).symm
  have heq := h (k - i) (by omega)
  rw [Nat.add_sub_cancel' hk, show j + (k - i) = k - (i - j) by omega] at heq
  exact heq.symm

/-! ## Factors -/

/-- Literals, and the match behind them. -/
structure Factor (α : Type*) where
  literals : List α
  offset : ℕ
  matchLength : ℕ
  deriving DecidableEq

/-- What a factor makes of the output so far. -/
def Factor.expand (f : Factor α) (out : List α) : List α :=
  copyBack f.offset f.matchLength (out ++ f.literals)

/-- What a list of factors makes of the output so far. -/
def expand (fs : List (Factor α)) (out : List α) : List α :=
  fs.foldl (fun out f => f.expand out) out

/-- The offset does not reach before the start of the output. -/
def Factor.Reaches (f : Factor α) (out : List α) : Prop :=
  f.offset ≤ out.length + f.literals.length

/-- No offset reaches before the start of the output. -/
def Reach : List (Factor α) → List α → Prop
  | [], _ => True
  | f :: fs, out => f.Reaches out ∧ Reach fs (f.expand out)

@[simp] theorem expand_cons (f : Factor α) (fs : List (Factor α)) (out : List α) :
    expand (f :: fs) out = expand fs (f.expand out) := rfl

@[simp] theorem expand_append (fs gs : List (Factor α)) (out : List α) :
    expand (fs ++ gs) out = expand gs (expand fs out) := List.foldl_append ..

theorem Factor.length_expand (f : Factor α) (out : List α) :
    (f.expand out).length = out.length + f.literals.length + f.matchLength := by
  rw [Factor.expand, length_copyBack, List.length_append]

theorem length_le_length_expand (fs : List (Factor α)) (out : List α) :
    out.length ≤ (expand fs out).length := by
  induction fs generalizing out with
  | nil => exact le_rfl
  | cons f fs ih =>
    rw [expand_cons]
    refine le_trans ?_ (ih (f.expand out))
    rw [f.length_expand]
    omega

theorem reach_append {fs gs : List (Factor α)} {out : List α} :
    Reach (fs ++ gs) out ↔ Reach fs out ∧ Reach gs (expand fs out) := by
  induction fs generalizing out with
  | nil => exact ⟨fun h => ⟨trivial, h⟩, And.right⟩
  | cons f fs ih =>
    rw [List.cons_append, Reach, Reach, ih, and_assoc]
    rfl

end Lz77
