import LogAgg.Lz77.CopyBack
import LogAgg.Memory.Area

/-!
# Matches in memory

A decoder writes a match into the object that it reads it from.  Copying in strides of `w`
cells is right from any number of offsets before, as long as the stride does not read what it
writes: `Repeats` says that a stretch of the object repeats itself at the offset, and
`Repeats.copy` and `Repeats.wildCopy` say that it grows by strides.  `Repeats.take_eq` gives
the match at the end.
-/

namespace Lz77

open Memory

variable {α : Type}

/-- From `i` to `e` every cell equals the one `offset` before it, and what was there before `i`
is there still. -/
structure Repeats (offset : ℕ) (obj obj' : List α) (i e : ℕ) : Prop where
  length_eq : obj'.length = obj.length
  before : ∀ k < i, obj'[k]? = obj[k]?
  repeats : ∀ k, i ≤ k → k < e → obj'[k]? = obj'[k - offset]?

namespace Repeats

variable {offset : ℕ} {obj cur : List α} {i d e : ℕ}

theorem refl (offset : ℕ) (obj : List α) (i : ℕ) : Repeats offset obj obj i i where
  length_eq := rfl
  before _ _ := rfl
  repeats _ hik hki := absurd hki (by omega)

/-- Writing behind the start of the stretch does not touch what it repeats. -/
theorem of_written (offset : ℕ) {cells : List α} (h : Written obj cur i cells) (hi : i ≤ obj.length) :
    Repeats offset obj cur i i where
  length_eq := h.length_eq
  before k hk := by
    have htake := congrArg (·[k]?) (h.take_eq_take hi)
    rwa [List.getElem?_take_of_lt hk, List.getElem?_take_of_lt hk] at htake
  repeats k hk hk' := absurd hk (by omega)

theorem mono (h : Repeats offset obj cur i e) (hde : d ≤ e) : Repeats offset obj cur i d where
  length_eq := h.length_eq
  before := h.before
  repeats k hik hkd := h.repeats k hik (by omega)

/-- The stretch is a match. -/
theorem take_eq [Zero α] (h : Repeats offset obj cur i e) (hpos : 0 < offset)
    (hoffset : offset ≤ i) (hie : i ≤ e) (he : e ≤ obj.length) :
    cur.take e = copyBack offset (e - i) (obj.take i) := by
  have hlen := h.length_eq
  have htake := take_add_eq_copyBack (l := cur) (n := e - i) hpos hoffset (by omega)
    fun k hik hki => h.repeats k hik (by omega)
  rw [Nat.add_sub_cancel' hie] at htake
  rw [htake]
  congr 1
  refine List.ext_getElem? fun k => ?_
  by_cases hk : k < i
  · rw [List.getElem?_take_of_lt hk, List.getElem?_take_of_lt hk, h.before k hk]
  · rw [List.getElem?_eq_none (by rw [List.length_take]; omega),
      List.getElem?_eq_none (by rw [List.length_take]; omega)]

/-- The stretch repeats itself at every multiple of the offset. -/
theorem getElem?_sub_mul (h : Repeats offset obj cur i e) {m k : ℕ}
    (hm : i + m * offset ≤ k + offset) (hk : k < e) : cur[k]? = cur[k - m * offset]? := by
  induction m with
  | zero => rw [Nat.zero_mul, Nat.sub_zero]
  | succ m ih =>
    rw [Nat.succ_mul] at hm ⊢
    rw [ih (by omega), h.repeats (k - m * offset) (by omega) (by omega), Nat.sub_sub]

/-- The stretch grows by cells that go on repeating. -/
theorem write (h : Repeats offset obj cur i d) (cells : List α) (hid : i ≤ d)
    (hroom : d + cells.length ≤ obj.length)
    (hcells : ∀ j < cells.length,
      cells[j]? = if j < offset then cur[d + j - offset]? else cells[j - offset]?)
    (hpos : 0 < offset) (hoffset : offset ≤ d) :
    (Memory.write cur d cells).Returns fun cur' =>
      Repeats offset obj cur' i (d + cells.length) := by
  have hlen := h.length_eq
  have hin : d + cells.length ≤ cur.length := by omega
  refine ⟨_, write_of_le hin, (length_write hin).trans hlen, fun k hk => ?_, fun k hik hkd => ?_⟩
  · rw [getElem?_write hin, if_pos (by omega)]
    exact h.before k hk
  · rw [getElem?_write hin, getElem?_write hin]
    by_cases hk : k < d
    · rw [if_pos hk, if_pos (by omega)]
      exact h.repeats k hik hk
    · rw [if_neg hk, if_pos hkd, hcells (k - d) (by omega)]
      by_cases hnear : k - d < offset
      · rw [if_pos hnear, if_pos (by omega), Nat.add_sub_cancel' (by omega)]
      · rw [if_neg hnear, if_neg (by omega), if_pos (by omega)]
        congr 1
        omega

/-- **A stride.**  It copies from `m` offsets before, not from before the start of the
repetition, and does not read what it writes. -/
theorem copy (h : Repeats offset obj cur i d) {w s m : ℕ} (hid : i ≤ d) (hpos : 0 < offset)
    (hoffset : offset ≤ d) (hm : s + m * offset = d) (hstart : i ≤ s + offset) (hsd : s + w ≤ d)
    (hroom : d + w ≤ obj.length) :
    (memcpyWithin w cur d s).Returns fun cur' => Repeats offset obj cur' i (d + w) := by
  have hlen := h.length_eq
  have hin : s + w ≤ cur.length := by omega
  have hcount := length_take_drop hin
  have hcell : ∀ j < w, ((cur.drop s).take w)[j]? = cur[s + j]? := by
    intro j hj
    rw [List.getElem?_take_of_lt hj, List.getElem?_drop]
  rw [memcpyWithin, if_pos (Or.inr (Or.inl hsd)), memcpy, read_of_le hin, Outcome.ret_bind]
  have hwrite := h.write ((cur.drop s).take w) hid (by omega) (fun j hj => ?_) hpos
    hoffset
  · rwa [hcount] at hwrite
  · rw [hcount] at hj
    rw [hcell j hj]
    by_cases hnear : j < offset
    · rw [if_pos hnear]
      -- one offset before `d + j` is `m - 1` offsets behind `s + j`
      obtain ⟨m, rfl⟩ : ∃ m', m = m' + 1 := by
        refine ⟨m - 1, (Nat.succ_pred_eq_of_pos (Nat.pos_of_ne_zero ?_)).symm⟩
        rintro rfl
        rw [Nat.zero_mul] at hm
        omega
      rw [Nat.succ_mul] at hm
      rw [h.getElem?_sub_mul (m := m) (k := d + j - offset) (by omega) (by omega)]
      congr 1
      omega
    · rw [if_neg hnear, hcell (j - offset) (by omega)]
      have hback := h.repeats (s + j) (by omega) (by omega)
      rw [hback]
      congr 1
      omega

/-- **Strides.**  They go on until the end of the area is covered. -/
theorem wildCopy {w : ℕ} (hw : 0 < w) {copy : List α → ℕ → ℕ → Outcome (List α)} {s : ℕ}
    (hroom : d + w ≤ obj.length) (hroom' : e + (w - 1) ≤ obj.length)
    (hcopy : ∀ cur k, Repeats offset obj cur i (d + k) → d + k + w ≤ obj.length →
      (copy cur (d + k) (s + k)).Returns fun cur' => Repeats offset obj cur' i (d + k + w))
    (h : Repeats offset obj cur i d) :
    (Memory.wildCopy w copy cur d s e).Returns fun cur' => Repeats offset obj cur' i (max d e) := by
  refine (returns_wildCopy hw (P := fun cur k => Repeats offset obj cur i (d + k)) h ?_).mono ?_
  · intro cur k hcur hk
    refine (hcopy cur k hcur (by omega)).mono fun _ hcur' => ?_
    rwa [Nat.add_assoc] at hcur'
  · rintro cur' ⟨k, hk, hcur'⟩
    exact hcur'.mono (max_le (Nat.le_add_right d k) hk)

end Repeats

end Lz77
