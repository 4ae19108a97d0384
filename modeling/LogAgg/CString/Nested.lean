import LogAgg.CString.Text

/-!
# The depth of brackets

`scanNested` counts brackets and nothing else.  `depthAfter` is the depth behind a text that
does not bring it to zero on the way; it composes over `++`, and with it so does the scan
(`scanNested_append_of_depthAfter`).  Which texts bring the depth to zero is a matter of how
many brackets of each kind their prefixes have (`depthAfter_eq_none_iff`).
-/

namespace LogAgg

section

variable {opening closing : UInt8}

/-- The depth behind one byte. -/
def stepDepth (opening closing : UInt8) (depth : ℕ) (c : UInt8) : ℕ :=
  if c = opening then depth + 1 else if c = closing then depth - 1 else depth

/-- The depth behind a text, unless it comes to zero inside of the text or at its end. -/
def depthAfter (opening closing : UInt8) : ℕ → Bytes → Option ℕ
  | depth, [] => some depth
  | depth, c :: s =>
      if stepDepth opening closing depth c = 0 then none
      else depthAfter opening closing (stepDepth opening closing depth c) s

@[simp] theorem depthAfter_nil (depth : ℕ) : depthAfter opening closing depth [] = some depth :=
  rfl

theorem depthAfter_cons (depth : ℕ) (c : UInt8) (s : Bytes) :
    depthAfter opening closing depth (c :: s) =
      if stepDepth opening closing depth c = 0 then none
      else depthAfter opening closing (stepDepth opening closing depth c) s := rfl

theorem scanNested_cons (depth : ℕ) (c : UInt8) (s : Bytes) :
    scanNested opening closing depth (c :: s) =
      if stepDepth opening closing depth c = 0 then ([c], s)
      else
        (c :: (scanNested opening closing (stepDepth opening closing depth c) s).1,
          (scanNested opening closing (stepDepth opening closing depth c) s).2) := by
  rw [scanNested]
  rfl

/-- The depth is counted piece by piece. -/
theorem depthAfter_append (depth : ℕ) (s t : Bytes) :
    depthAfter opening closing depth (s ++ t) =
      (depthAfter opening closing depth s).bind fun d => depthAfter opening closing d t := by
  induction s generalizing depth with
  | nil => rfl
  | cons c s ih =>
    rw [List.cons_append, depthAfter_cons, depthAfter_cons]
    split
    · rfl
    · exact ih _

/-- An opening bracket. -/
@[simp] theorem depthAfter_opening (depth : ℕ) (s : Bytes) :
    depthAfter opening closing depth (opening :: s) =
      depthAfter opening closing (depth + 1) s := by
  rw [depthAfter_cons, stepDepth, if_pos rfl, if_neg (Nat.succ_ne_zero depth)]

/-- **The scan goes on behind a text that leaves brackets open.** -/
theorem scanNested_append_of_depthAfter {depth depth' : ℕ} {s : Bytes}
    (h : depthAfter opening closing depth s = some depth') (t : Bytes) :
    scanNested opening closing depth (s ++ t) =
      (s ++ (scanNested opening closing depth' t).1, (scanNested opening closing depth' t).2) := by
  induction s generalizing depth with
  | nil =>
    obtain rfl := Option.some.inj h
    rfl
  | cons c s ih =>
    rw [depthAfter_cons] at h
    rw [List.cons_append, scanNested_cons]
    split at h
    · cases h
    · rename_i hstep
      rw [if_neg hstep, ih h]
      rfl

/-- Brackets that stay open are passed to the end of the text. -/
theorem scanNested_of_depthAfter {depth depth' : ℕ} {s : Bytes}
    (h : depthAfter opening closing depth s = some depth') :
    scanNested opening closing depth s = (s, []) := by
  have happend := scanNested_append_of_depthAfter h []
  rw [List.append_nil] at happend
  rw [happend, scanNested, List.append_nil]

/-- The bracket that closes the last open one ends the scan. -/
theorem scanNested_append_closing (hne : closing ≠ opening) {depth : ℕ} {s : Bytes}
    (h : depthAfter opening closing depth s = some 1) (rest : Bytes) :
    scanNested opening closing depth (s ++ closing :: rest) = (s ++ [closing], rest) := by
  have hstep : stepDepth opening closing 1 closing = 0 := by
    rw [stepDepth, if_neg hne, if_pos rfl]
  rw [scanNested_append_of_depthAfter h, scanNested_cons, if_pos hstep]

/-- Without brackets the depth stays. -/
theorem depthAfter_of_ne {depth : ℕ} (hdepth : 0 < depth) {s : Bytes}
    (h : ∀ c ∈ s, c ≠ opening ∧ c ≠ closing) :
    depthAfter opening closing depth s = some depth := by
  induction s with
  | nil => rfl
  | cons c s ih =>
    rw [List.forall_mem_cons] at h
    have hstep : stepDepth opening closing depth c = depth := by
      rw [stepDepth, if_neg h.1.1, if_neg h.1.2]
    rw [depthAfter_cons, hstep, if_neg hdepth.ne', ih h.2]

/-- Only the brackets of a text matter. -/
theorem depthAfter_filter {depth : ℕ} (hdepth : 0 < depth) (s : Bytes) :
    depthAfter opening closing depth (s.filter fun c => c == opening || c == closing) =
      depthAfter opening closing depth s := by
  induction s generalizing depth with
  | nil => rfl
  | cons c s ih =>
    by_cases hc : c = opening ∨ c = closing
    · rw [List.filter_cons_of_pos (by simpa using hc), depthAfter_cons, depthAfter_cons]
      split
      · rfl
      · rename_i hstep
        exact ih (Nat.pos_of_ne_zero hstep)
    · rw [not_or] at hc
      have hstep : stepDepth opening closing depth c = depth := by
        rw [stepDepth, if_neg hc.1, if_neg hc.2]
      rw [List.filter_cons_of_neg (by simpa using hc), depthAfter_cons, hstep, if_neg hdepth.ne',
        ih hdepth]

/-! ## Counting brackets -/

theorem stepDepth_add_count (hne : closing ≠ opening) {depth : ℕ} (hdepth : 0 < depth) (c : UInt8) :
    stepDepth opening closing depth c + [c].count closing = depth + [c].count opening := by
  unfold stepDepth
  split
  · rename_i hc
    subst hc
    simp [hne.symm]
  · rename_i hc
    split
    · rename_i hc'
      subst hc'
      simp [hne]
      omega
    · rename_i hc'
      simp [hc, hc']

/-- The depth is the brackets opened less the brackets closed. -/
theorem depthAfter_add_count (hne : closing ≠ opening) {depth depth' : ℕ} (hdepth : 0 < depth)
    {s : Bytes} (h : depthAfter opening closing depth s = some depth') :
    depth' + s.count closing = depth + s.count opening ∧ 0 < depth' := by
  induction s generalizing depth with
  | nil =>
    obtain rfl := Option.some.inj h
    exact ⟨rfl, hdepth⟩
  | cons c s ih =>
    rw [depthAfter_cons] at h
    split at h
    · cases h
    · rename_i hstep
      obtain ⟨hcount, hpos⟩ := ih (Nat.pos_of_ne_zero hstep) h
      have hc := stepDepth_add_count hne hdepth c
      have hsplit : ∀ b, (c :: s).count b = [c].count b + s.count b := by
        intro b
        rw [← List.singleton_append, List.count_append]
      rw [hsplit, hsplit]
      exact ⟨by omega, hpos⟩

/-- **The depth comes to zero** in a text with a prefix that closes all that is open. -/
theorem depthAfter_eq_none_iff (hne : closing ≠ opening) {depth : ℕ} (hdepth : 0 < depth)
    {s : Bytes} :
    depthAfter opening closing depth s = none ↔
      ∃ t, t <+: s ∧ depth + t.count opening ≤ t.count closing := by
  constructor
  · intro h
    induction s generalizing depth with
    | nil => cases h
    | cons c s ih =>
      have hc := stepDepth_add_count hne hdepth c
      rw [depthAfter_cons] at h
      split at h
      · rename_i hstep
        exact ⟨[c], List.prefix_append [c] s, by omega⟩
      · rename_i hstep
        obtain ⟨t, ht, hcount⟩ := ih (Nat.pos_of_ne_zero hstep) h
        have hsplit : ∀ b, (c :: t).count b = [c].count b + t.count b := by
          intro b
          rw [← List.singleton_append, List.count_append]
        exact ⟨c :: t, List.cons_prefix_cons.mpr ⟨rfl, ht⟩, by rw [hsplit, hsplit]; omega⟩
  · rintro ⟨t, ⟨u, rfl⟩, hcount⟩
    rw [depthAfter_append]
    cases h : depthAfter opening closing depth t with
    | none => rfl
    | some depth' =>
      obtain ⟨heq, hpos⟩ := depthAfter_add_count hne hdepth h
      omega

/-! ## Balanced texts -/

/-- A text that leaves the depth as it was and comes to no lower one on the way. -/
def Balanced (opening closing : UInt8) (s : Bytes) : Prop :=
  ∀ depth, 0 < depth → depthAfter opening closing depth s = some depth

theorem balanced_of_ne {s : Bytes} (h : ∀ c ∈ s, c ≠ opening ∧ c ≠ closing) :
    Balanced opening closing s := fun _ hdepth => depthAfter_of_ne hdepth h

theorem Balanced.append {s t : Bytes} (hs : Balanced opening closing s)
    (ht : Balanced opening closing t) : Balanced opening closing (s ++ t) := by
  intro depth hdepth
  rw [depthAfter_append, hs depth hdepth]
  exact ht depth hdepth

/-- Brackets around a balanced text. -/
theorem Balanced.wrap (hne : closing ≠ opening) {s : Bytes} (hs : Balanced opening closing s) :
    Balanced opening closing (opening :: (s ++ [closing])) := by
  intro depth hdepth
  have hstep : stepDepth opening closing (depth + 1) closing = depth := by
    rw [stepDepth, if_neg hne, if_pos rfl, Nat.add_sub_cancel]
  rw [depthAfter_opening, depthAfter_append, hs (depth + 1) (Nat.succ_pos depth), Option.bind_some,
    depthAfter_cons, hstep, if_neg hdepth.ne', depthAfter_nil]

/-- The brackets of a text are balanced for the first time at its last byte. -/
def BalancedAtEnd (opening closing : UInt8) (s : Bytes) : Prop :=
  ∃ t, s = opening :: (t ++ [closing]) ∧ depthAfter opening closing 1 t = some 1

/-- Where the depth comes to zero, a bracket is closed. -/
theorem exists_of_depthAfter_eq_none {depth : ℕ} (hdepth : 0 < depth) {s : Bytes}
    (h : depthAfter opening closing depth s = none) :
    ∃ t u, s = t ++ closing :: u ∧ depthAfter opening closing depth t = some 1 := by
  induction s generalizing depth with
  | nil => cases h
  | cons c s ih =>
    rw [depthAfter_cons] at h
    split at h
    · rename_i hstep
      unfold stepDepth at hstep
      split_ifs at hstep with ho hc
      · obtain rfl : depth = 1 := by omega
        exact ⟨[], s, by rw [hc, List.nil_append], rfl⟩
      · omega
    · rename_i hstep
      obtain ⟨t, u, rfl, ht⟩ := ih (Nat.pos_of_ne_zero hstep) h
      exact ⟨c :: t, u, rfl, by rw [depthAfter_cons, if_neg hstep, ht]⟩

/-- The text behind the shortest prefix with balanced brackets, if there is such a prefix. -/
inductive BehindBrackets (opening closing : UInt8) : Bytes → Bytes → Prop where
  | closed {s rest : Bytes} (h : BalancedAtEnd opening closing s) :
      BehindBrackets opening closing (s ++ rest) rest
  | unclosed {s : Bytes} (h : ∀ t, t <+: s → ¬ BalancedAtEnd opening closing t) :
      BehindBrackets opening closing s []

/-- **Where the scan ends.** -/
theorem scanNested_snd_eq_iff (hne : closing ≠ opening) {s rest : Bytes}
    (hs : s.head? = some opening) :
    (scanNested opening closing 0 s).2 = rest ↔ BehindBrackets opening closing s rest := by
  obtain ⟨body, rfl⟩ := List.head?_eq_some_iff.mp hs
  have hopen : depthAfter opening closing 0 [opening] = some 1 := depthAfter_opening 0 []
  have hscan : ∀ u, (scanNested opening closing 0 (opening :: u)).2 =
      (scanNested opening closing 1 u).2 := by
    intro u
    have happend := scanNested_append_of_depthAfter hopen u
    rw [List.singleton_append] at happend
    rw [happend]
  constructor
  · intro h
    rw [hscan] at h
    cases hdepth : depthAfter opening closing 1 body with
    | none =>
      obtain ⟨a, b, rfl, ha⟩ := exists_of_depthAfter_eq_none one_pos hdepth
      rw [scanNested_append_closing hne ha] at h
      subst h
      have hsplit : opening :: (a ++ closing :: b) = opening :: (a ++ [closing]) ++ b := by simp
      rw [hsplit]
      exact .closed ⟨a, rfl, ha⟩
    | some depth =>
      rw [scanNested_of_depthAfter hdepth] at h
      subst h
      refine .unclosed ?_
      rintro t ⟨u, hu⟩ ⟨a, rfl, ha⟩
      have hbody : body = a ++ closing :: u := by simpa using (List.cons.inj hu).2.symm
      rw [hbody, depthAfter_append, ha, Option.bind_some, depthAfter_cons, stepDepth, if_neg hne,
        if_pos rfl, if_pos rfl] at hdepth
      cases hdepth
  · intro h
    generalize hs' : opening :: body = s at h
    cases h with
    | closed h =>
      obtain ⟨a, rfl, ha⟩ := h
      rw [List.cons_append, List.append_assoc, List.singleton_append, hscan,
        scanNested_append_closing hne ha]
    | unclosed h =>
      subst hs'
      rw [hscan]
      cases hdepth : depthAfter opening closing 1 body with
      | none =>
        obtain ⟨a, b, rfl, ha⟩ := exists_of_depthAfter_eq_none one_pos hdepth
        exact absurd ⟨a, rfl, ha⟩ (h (opening :: (a ++ [closing])) ⟨b, by simp⟩)
      | some depth => rw [scanNested_of_depthAfter hdepth]

/-- **The scan ends right behind a text** exactly when its brackets are first balanced there. -/
theorem scanNested_append_snd_eq_iff (hne : closing ≠ opening) {s t : Bytes}
    (hs : s.head? = some opening) (ht : t ≠ []) :
    (scanNested opening closing 0 (s ++ t)).2 = t ↔ BalancedAtEnd opening closing s := by
  have hhead : (s ++ t).head? = some opening := by rw [List.head?_append, hs, Option.some_or]
  rw [scanNested_snd_eq_iff hne hhead]
  constructor
  · intro h
    generalize hu : s ++ t = u at h
    cases h with
    | closed h =>
      rwa [List.append_cancel_right hu]
    | unclosed => exact absurd rfl ht
  · exact fun h => .closed h

end

end LogAgg
