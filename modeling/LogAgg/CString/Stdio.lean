import LogAgg.CString.Basic

/-!
# Reading lines through a buffer

`fgets` stores the next line of a file, its line break included, or as much of it as the
buffer takes.  A loop of `fgets` shows the file in `buffers`, which cut it behind every
line break and wherever a buffer is full.
-/

namespace LogAgg

open Ascii

/-- `fgets` with room for so many characters: what is stored, the line break included, and
what is left of the file. -/
def fgets : ℕ → Bytes → Bytes × Bytes
  | _, [] => ([], [])
  | 0, c :: s => ([], c :: s)
  | room + 1, c :: s =>
    if c = newline then ([c], s) else (c :: (fgets room s).1, (fgets room s).2)

/-- The buffer of `fgets` without the line break at its end. -/
def cutNewline (buffer : Bytes) : Bytes :=
  if buffer.getLast? = some newline then buffer.dropLast else buffer

theorem length_fgets_le (room : ℕ) (s : Bytes) : (fgets room s).2.length ≤ s.length := by
  fun_induction fgets room s with
  | case1 room => exact le_rfl
  | case2 c s => exact le_rfl
  | case3 room s => exact Nat.le_succ _
  | case4 room c s hc ih => exact ih.trans (Nat.le_succ _)

/-- **`fgets` moves on**, as long as the buffer has room. -/
theorem length_fgets_lt (room : ℕ) (c : UInt8) (s : Bytes) :
    (fgets (room + 1) (c :: s)).2.length < (c :: s).length := by
  rw [fgets]
  split
  · exact Nat.lt_succ_self _
  · exact Nat.lt_succ_of_le (length_fgets_le room s)

/-- A line that fits the buffer is stored, and as much of what follows as still fits. -/
theorem fgets_append {line : Bytes} {room : ℕ} (hline : newline ∉ line) (hlen : line.length ≤ room)
    (s : Bytes) :
    fgets room (line ++ s) =
      (line ++ (fgets (room - line.length) s).1, (fgets (room - line.length) s).2) := by
  induction line generalizing room with
  | nil => rfl
  | cons c line ih =>
    rw [List.mem_cons, not_or] at hline
    rw [List.length_cons] at hlen
    obtain ⟨k, rfl⟩ : ∃ k, room = k + 1 := ⟨room - 1, by omega⟩
    rw [List.cons_append, fgets, if_neg (Ne.symm hline.1), ih hline.2 (by omega), List.length_cons,
      Nat.add_sub_add_right, List.cons_append]

/-- `fgets` stores nothing but bytes of the file. -/
theorem subset_fgets (room : ℕ) (s : Bytes) :
    (∀ c ∈ (fgets room s).1, c ∈ s) ∧ ∀ c ∈ (fgets room s).2, c ∈ s := by
  fun_induction fgets room s with
  | case1 room => exact ⟨fun c hc => hc, fun c hc => hc⟩
  | case2 c s => exact ⟨fun d hd => absurd hd List.not_mem_nil, fun d hd => hd⟩
  | case3 room s =>
    refine ⟨fun d hd => ?_, fun d hd => List.mem_cons_of_mem _ hd⟩
    rw [List.mem_singleton] at hd
    rw [hd]
    exact List.mem_cons_self
  | case4 room c s hc ih =>
    refine ⟨fun d hd => ?_, fun d hd => List.mem_cons_of_mem _ (ih.2 d hd)⟩
    rcases List.mem_cons.mp hd with rfl | hd
    · exact List.mem_cons_self
    · exact List.mem_cons_of_mem _ (ih.1 d hd)

/-- A buffer that starts with a line break holds nothing else. -/
theorem fgets_eq_newline {room : ℕ} {s : Bytes} (h : (fgets room s).1.head? = some newline) :
    (fgets room s).1 = [newline] := by
  cases s with
  | nil =>
    cases room <;> exact absurd h (by simp [fgets])
  | cons c s =>
    cases room with
    | zero => exact absurd h (by simp [fgets])
    | succ room =>
      rw [fgets] at h ⊢
      split at h
      · rename_i hc
        rw [if_pos hc, hc]
      · rename_i hc
        exact absurd (Option.some.inj h) hc

/-- What is stored and what is left are the file. -/
theorem fgets_append_eq (room : ℕ) (s : Bytes) : (fgets room s).1 ++ (fgets room s).2 = s := by
  fun_induction fgets room s with
  | case1 room => rfl
  | case2 c s => rfl
  | case3 room s => rfl
  | case4 room c s hc ih => rw [List.cons_append, ih]

theorem length_fgets_fst_le (room : ℕ) (s : Bytes) : (fgets room s).1.length ≤ room := by
  fun_induction fgets room s with
  | case1 room => exact Nat.zero_le room
  | case2 c s => exact le_rfl
  | case3 room s => exact Nat.le_add_left 1 room
  | case4 room c s hc ih => exact Nat.succ_le_succ ih

theorem cutNewline_of_notMem {buffer : Bytes} (h : newline ∉ buffer) : cutNewline buffer = buffer :=
  if_neg fun hlast => h (List.mem_of_getLast? hlast)

theorem cutNewline_append (line : Bytes) : cutNewline (line ++ [newline]) = line := by
  rw [cutNewline, if_pos List.getLast?_concat, List.dropLast_concat]

/-! ## Buffers -/

/-- What a loop of `fgets` stores in a buffer for `room + 1` characters, one time after the
other. -/
def buffers (room : ℕ) : Bytes → List Bytes
  | [] => []
  | c :: s =>
    have _ : (fgets (room + 1) (c :: s)).2.length < (c :: s).length := length_fgets_lt room c s
    (fgets (room + 1) (c :: s)).1 :: buffers room (fgets (room + 1) (c :: s)).2
  termination_by content => content.length
  decreasing_by assumption

variable {room : ℕ}

@[simp] theorem buffers_nil (room : ℕ) : buffers room [] = [] := by rw [buffers]

theorem buffers_of_ne_nil {s : Bytes} (hs : s ≠ []) :
    buffers room s = (fgets (room + 1) s).1 :: buffers room (fgets (room + 1) s).2 := by
  cases s with
  | nil => exact absurd rfl hs
  | cons c s => rw [buffers]

/-- The buffers read the file. -/
theorem flatten_buffers (room : ℕ) (s : Bytes) : (buffers room s).flatten = s := by
  fun_induction buffers room s with
  | case1 => rfl
  | case2 c s hlt ih => rw [List.flatten_cons, ih, fgets_append_eq]

theorem length_le_of_mem_buffers {s buffer : Bytes} (h : buffer ∈ buffers room s) :
    buffer.length ≤ room + 1 := by
  fun_induction buffers room s with
  | case1 => exact absurd h List.not_mem_nil
  | case2 c s hlt ih =>
    rcases List.mem_cons.mp h with rfl | h
    · exact length_fgets_fst_le (room + 1) (c :: s)
    · exact ih h

/-- A line with its break, if it fits the buffer. -/
theorem buffers_line {line : Bytes} (hline : newline ∉ line) (hlen : line.length ≤ room)
    (s : Bytes) :
    buffers room (line ++ newline :: s) = (line ++ [newline]) :: buffers room s := by
  have hne : line ++ newline :: s ≠ [] := List.append_ne_nil_of_right_ne_nil _ (by simp)
  obtain ⟨k, hk⟩ : ∃ k, room + 1 - line.length = k + 1 := ⟨room - line.length, by omega⟩
  rw [buffers_of_ne_nil hne, fgets_append hline (by omega), hk, fgets, if_pos rfl]

theorem buffers_newline (s : Bytes) : buffers room (newline :: s) = [newline] :: buffers room s :=
  buffers_line List.not_mem_nil (Nat.zero_le room) s

/-- A buffer that is full leaves the rest to the next one. -/
theorem buffers_full {line : Bytes} (hline : newline ∉ line) (hlen : line.length = room + 1)
    (s : Bytes) : buffers room (line ++ s) = line :: buffers room s := by
  have hread := fgets_append hline hlen.le s
  have hfull : fgets 0 s = ([], s) := by cases s <;> rfl
  have hne : line ++ s ≠ [] := by
    refine List.append_ne_nil_of_left_ne_nil (fun hnil => ?_) s
    rw [hnil] at hlen
    exact absurd hlen (by simp)
  rw [hlen, Nat.sub_self, hfull, List.append_nil] at hread
  rw [buffers_of_ne_nil hne, hread]

/-- A line that fits, at the end of the file and without a break. -/
theorem buffers_text {line : Bytes} (hne : line ≠ []) (hline : newline ∉ line)
    (hlen : line.length ≤ room + 1) : buffers room line = [line] := by
  have hread := fgets_append hline hlen []
  have hend : ∀ room, fgets room [] = ([], []) := fun room => by cases room <;> rfl
  rw [List.append_nil, hend, List.append_nil] at hread
  rw [buffers_of_ne_nil hne, hread, buffers_nil]

end LogAgg
