import LogAgg.Memory.Object

/-!
# Areas of an object

Code that reads and writes several cells at a time, in loops that write beyond the area they
are to fill.

* `Outcome.Returns`: a computation returns, and its value satisfies a condition; `loop` and
  `returns_loop` are loops and their rule, which is one of total correctness.
* `read`, `write`, `memcpy`, `memcpyWithin`: areas of an object.
* `Written`: from an index on an object holds certain cells, with whatever behind them.
* `wildCopy`: a loop that copies whole strides and overshoots.
-/

namespace Memory

namespace Outcome

variable {α β : Type}

/-- The computation returns, and what it returns satisfies `Q`. -/
def Returns (x : Outcome α) (Q : α → Prop) : Prop := ∃ a, x = .ret a ∧ Q a

theorem returns_ret {a : α} {Q : α → Prop} (h : Q a) : (Outcome.ret a).Returns Q := ⟨a, rfl, h⟩

namespace Returns

variable {x : Outcome α} {P Q : α → Prop}

theorem mono (hx : x.Returns P) (h : ∀ a, P a → Q a) : x.Returns Q := by
  obtain ⟨a, ha, hP⟩ := hx
  exact ⟨a, ha, h a hP⟩

theorem bind {f : α → Outcome β} {R : β → Prop} (hx : x.Returns P)
    (hf : ∀ a, P a → (f a).Returns R) : (x >>= f).Returns R := by
  obtain ⟨a, rfl, hP⟩ := hx
  exact hf a hP

end Returns

end Outcome

/-! ## Loops -/

section

variable {σ β : Type}

/-- A loop over a state, given by its turn: it goes on from a new state or is left with a
result.  A loop that is not left within `n` turns counts as a fault. -/
def loop (turn : σ → Outcome (σ ⊕ β)) : ℕ → σ → Outcome β
  | 0, _ => .fault
  | n + 1, s => turn s >>= Sum.elim (loop turn n) .ret

/-- **Loop rule.**  The turns keep an invariant and lower a size, and what they leave the loop
with is as wanted. -/
theorem returns_loop {turn : σ → Outcome (σ ⊕ β)} {I : σ → Prop} {Q : β → Prop} (size : σ → ℕ)
    (hturn : ∀ s, I s → (turn s).Returns (Sum.elim (fun t => I t ∧ size t < size s) Q)) {n : ℕ}
    {s : σ} (hs : I s) (hn : size s < n) : (loop turn n s).Returns Q := by
  induction n generalizing s with
  | zero => omega
  | succ n ih =>
    refine (hturn s hs).bind fun r hr => ?_
    cases r with
    | inl t => exact ih hr.1 (hr.2.trans_le (Nat.le_of_lt_succ hn))
    | inr b => exact Outcome.returns_ret hr

end

/-! ## Areas -/

variable {α : Type}

/-- The `n` cells from `i` on. -/
def read (obj : List α) (i n : ℕ) : Outcome (List α) :=
  if i + n ≤ obj.length then .ret ((obj.drop i).take n) else .fault

/-- Writing cells from `i` on. -/
def write (obj : List α) (i : ℕ) (cells : List α) : Outcome (List α) :=
  if i + cells.length ≤ obj.length then
    .ret (obj.take i ++ cells ++ obj.drop (i + cells.length))
  else .fault

/-- `memcpy` of `n` cells to `d`, from `s` in another object. -/
def memcpy (src : List α) (n : ℕ) (dst : List α) (d s : ℕ) : Outcome (List α) := do
  let cells ← read src s n
  write dst d cells

/-- `memcpy` of `n` cells from `s` to `d` in one object: the two areas may not overlap, if they
are not the same. -/
def memcpyWithin (n : ℕ) (obj : List α) (d s : ℕ) : Outcome (List α) :=
  if d + n ≤ s ∨ s + n ≤ d ∨ d = s then memcpy obj n obj d s else .fault

theorem read_of_le {obj : List α} {i n : ℕ} (h : i + n ≤ obj.length) :
    read obj i n = .ret ((obj.drop i).take n) := if_pos h

theorem write_of_le {obj : List α} {i : ℕ} {cells : List α} (h : i + cells.length ≤ obj.length) :
    write obj i cells = .ret (obj.take i ++ cells ++ obj.drop (i + cells.length)) := if_pos h

/-- Copying an area to where it is. -/
theorem memcpyWithin_self {obj : List α} {i n : ℕ} (h : i + n ≤ obj.length) :
    memcpyWithin n obj i i = .ret obj := by
  have hlen : ((obj.drop i).take n).length = n := by
    rw [List.length_take, List.length_drop]
    omega
  rw [memcpyWithin, if_pos (Or.inr (Or.inr rfl)), memcpy, read_of_le h, Outcome.ret_bind,
    write_of_le (by rwa [hlen]), hlen, ← List.take_add, List.take_append_drop]

theorem length_take_drop {obj : List α} {i n : ℕ} (h : i + n ≤ obj.length) :
    ((obj.drop i).take n).length = n := by
  rw [List.length_take, List.length_drop]
  omega

theorem length_write {obj : List α} {i : ℕ} {cells : List α} (h : i + cells.length ≤ obj.length) :
    (obj.take i ++ cells ++ obj.drop (i + cells.length)).length = obj.length := by
  rw [List.length_append, List.length_append, List.length_take, List.length_drop]
  omega

/-- What an object holds after an area of it was written. -/
theorem getElem?_write {obj : List α} {i : ℕ} {cells : List α}
    (h : i + cells.length ≤ obj.length) (k : ℕ) :
    (obj.take i ++ cells ++ obj.drop (i + cells.length))[k]? =
      if k < i then obj[k]? else if k < i + cells.length then cells[k - i]? else obj[k]? := by
  have hlen : (obj.take i).length = i := List.length_take_of_le (by omega)
  rw [List.append_assoc]
  by_cases hki : k < i
  · rw [if_pos hki, List.getElem?_append_left (by omega), List.getElem?_take_of_lt hki]
  · rw [if_neg hki, List.getElem?_append_right (by omega), hlen]
    by_cases hk : k < i + cells.length
    · rw [if_pos hk, List.getElem?_append_left (by omega)]
    · rw [if_neg hk, List.getElem?_append_right (by omega), List.getElem?_drop]
      congr 1
      omega

/-! ## What was written -/

/-- From `i` on the object holds these cells now, and what was there before them as before. -/
structure Written (obj obj' : List α) (i : ℕ) (cells : List α) : Prop where
  length_eq : obj'.length = obj.length
  take_eq : obj'.take (i + cells.length) = obj.take i ++ cells

namespace Written

variable {a b c : List α} {i : ℕ} {x y : List α}

theorem refl (a : List α) (i : ℕ) : Written a a i [] :=
  ⟨rfl, by rw [List.length_nil, Nat.add_zero, List.append_nil]⟩

/-- One area after the other. -/
theorem append (hx : Written a b i x) (hy : Written b c (i + x.length) y) :
    Written a c i (x ++ y) where
  length_eq := hy.length_eq.trans hx.length_eq
  take_eq := by
    rw [List.length_append, ← Nat.add_assoc, hy.take_eq, hx.take_eq, List.append_assoc]

/-- Writing beyond the cells does not count. -/
theorem of_append (h : Written a b i (x ++ y)) (hi : i ≤ a.length) : Written a b i x where
  length_eq := h.length_eq
  take_eq := by
    have htake := congrArg (List.take (i + x.length)) h.take_eq
    rw [List.take_take, List.length_append, Nat.min_eq_left (by omega), ← List.append_assoc,
      List.take_left' (by rw [List.length_append, List.length_take_of_le hi])] at htake
    exact htake

/-- What was there before stays. -/
theorem take_eq_take (h : Written a b i x) (hi : i ≤ a.length) : b.take i = a.take i := by
  have htake := (Written.of_append (x := []) h hi).take_eq
  rwa [List.length_nil, Nat.add_zero, List.append_nil] at htake

theorem congr {x' : List α} (h : Written a b i x) (hx : x = x') : Written a b i x' := hx ▸ h

/-- The first cell is written again. -/
theorem set {v w : α} (h : Written a b i (v :: x)) (hi : i ≤ a.length) :
    Written a (b.set i w) i (w :: x) where
  length_eq := (List.length_set ..).trans h.length_eq
  take_eq := by
    have htake := congrArg (List.set · i w) h.take_eq
    have hlen : (a.take i).length = i := List.length_take_of_le hi
    rw [List.set_append_right _ _ hlen.le, hlen, Nat.sub_self, List.set_cons_zero] at htake
    rw [List.take_set]
    exact htake

/-- The first cell, when it is read. -/
theorem load_eq {v : α} (h : Written a b i (v :: x)) (hi : i ≤ a.length) :
    load b i = .ret v := by
  have hlen : (a.take i).length = i := List.length_take_of_le hi
  have hget := congrArg (·[i]?) h.take_eq
  rw [List.getElem?_take_of_lt (by rw [List.length_cons]; omega),
    List.getElem?_append_right hlen.le, hlen, Nat.sub_self] at hget
  exact load_eq_ret_iff.mpr hget

theorem add_length_le (h : Written a b i x) (hi : i ≤ a.length) : i + x.length ≤ a.length := by
  have hlen := congrArg List.length h.take_eq
  rw [List.length_append, List.length_take, List.length_take, h.length_eq] at hlen
  omega

end Written

theorem returns_write {obj : List α} {i : ℕ} {cells : List α}
    (h : i + cells.length ≤ obj.length) :
    (write obj i cells).Returns fun obj' => Written obj obj' i cells := by
  refine ⟨_, write_of_le h, length_write h, ?_⟩
  refine List.take_left' ?_
  rw [List.length_append, List.length_take_of_le (by omega)]

theorem returns_memcpy {src dst : List α} {n d s : ℕ} (hs : s + n ≤ src.length)
    (hd : d + n ≤ dst.length) :
    (memcpy src n dst d s).Returns fun dst' => Written dst dst' d ((src.drop s).take n) := by
  rw [memcpy, read_of_le hs, Outcome.ret_bind]
  exact returns_write (by rwa [length_take_drop hs])

theorem store_returns {obj : List α} {i : ℕ} (h : i < obj.length) (a : α) :
    (store obj i a).Returns fun obj' => Written obj obj' i [a] := by
  refine ⟨_, store_of_lt h a, List.length_set .., ?_⟩
  rw [List.length_singleton, List.take_set, List.take_add_one, List.getElem?_eq_getElem h,
    Option.toList_some, List.set_append_right _ _ (List.length_take_of_le h.le).le,
    List.length_take_of_le h.le, Nat.sub_self, List.set_cons_zero]

/-! ## Copying in strides -/

/-- A turn of `do { copy(d, s); d += w; s += w; } while (d < e)`. -/
def wildCopyTurn (w : ℕ) (copy : List α → ℕ → ℕ → Outcome (List α)) (e : ℕ)
    (c : List α × ℕ × ℕ) : Outcome ((List α × ℕ × ℕ) ⊕ List α) := do
  let obj ← copy c.1 c.2.1 c.2.2
  if c.2.1 + w < e then return .inl (obj, c.2.1 + w, c.2.2 + w) else return .inr obj

/-- `do { copy(d, s); d += w; s += w; } while (d < e);` where `copy` copies `w` cells. -/
def wildCopy (w : ℕ) (copy : List α → ℕ → ℕ → Outcome (List α)) (obj : List α) (d s e : ℕ) :
    Outcome (List α) :=
  loop (wildCopyTurn w copy e) (e - d + 1) (obj, d, s)

/-- **Rule for strides.**  A condition on the object and the number of cells copied that every
stride keeps holds at the end, for a number that covers the area and overshoots it by less
than a stride. -/
theorem returns_wildCopy {w : ℕ} (hw : 0 < w) {copy : List α → ℕ → ℕ → Outcome (List α)}
    {obj : List α} {d s e : ℕ} {P : List α → ℕ → Prop} (h0 : P obj 0)
    (hstep : ∀ cur k, P cur k → k = 0 ∨ d + k < e →
      (copy cur (d + k) (s + k)).Returns fun cur' => P cur' (k + w)) :
    (wildCopy w copy obj d s e).Returns fun obj' => ∃ k, e ≤ d + k ∧ P obj' k := by
  refine returns_loop (I := fun c => ∃ k, (k = 0 ∨ d + k < e) ∧ P c.1 k ∧ c.2 = (d + k, s + k))
    (fun c => e - c.2.1) ?_ ⟨0, Or.inl rfl, h0, rfl⟩ (Nat.lt_succ_self _)
  rintro ⟨cur, _⟩ ⟨k, hk, hP, rfl⟩
  refine (hstep cur k hP hk).bind fun cur' hP' => ?_
  by_cases hlt : d + k + w < e
  · rw [if_pos hlt]
    refine Outcome.returns_ret ⟨⟨k + w, Or.inr (by omega), hP', ?_⟩, ?_⟩
    · rw [Nat.add_assoc, Nat.add_assoc]
    · show e - (d + k + w) < e - (d + k)
      omega
  · rw [if_neg hlt]
    exact Outcome.returns_ret ⟨k + w, by omega, hP'⟩

/-- **Overshooting.**  A wild copy from another object fills the area; it needs room for one
stride, and for what it writes beyond the end. -/
theorem returns_wildCopy_of_copies {w : ℕ} (hw : 0 < w) {src obj : List α}
    {copy : List α → ℕ → ℕ → Outcome (List α)}
    (hcopy : ∀ cur d s, s + w ≤ src.length → d + w ≤ cur.length →
      (copy cur d s).Returns fun cur' => Written cur cur' d ((src.drop s).take w))
    {d s e : ℕ} (hde : d ≤ e) (hsrc : s + w ≤ src.length)
    (hsrc' : s + (e - d) + (w - 1) ≤ src.length) (hdst : d + w ≤ obj.length)
    (hdst' : e + (w - 1) ≤ obj.length) :
    (wildCopy w copy obj d s e).Returns fun obj' =>
      Written obj obj' d ((src.drop s).take (e - d)) := by
  refine (returns_wildCopy hw (P := fun cur k => s + k ≤ src.length ∧
    Written obj cur d ((src.drop s).take k)) ⟨by omega, ?_⟩ ?_).mono ?_
  · rw [List.take_zero]
    exact Written.refl obj d
  · rintro cur k ⟨hk, hcur⟩ hlt
    have hlen := length_take_drop hk
    have hroom := hcur.length_eq
    refine (hcopy _ _ _ (by omega) (by omega)).mono fun cur' hcur' => ⟨by omega, ?_⟩
    have happ := hcur.append (hlen.symm ▸ hcur')
    rwa [← List.drop_drop, hlen, ← List.take_add] at happ
  · rintro obj' ⟨k, hk, -, hwritten⟩
    have hsplit : (src.drop s).take k =
        (src.drop s).take (e - d) ++ ((src.drop s).drop (e - d)).take (k - (e - d)) := by
      rw [← List.take_add, Nat.add_sub_cancel' (by omega)]
    exact (hsplit ▸ hwritten).of_append (by omega)

theorem returns_wildCopy_memcpy {w : ℕ} (hw : 0 < w) {src obj : List α} {d s e : ℕ} (hde : d ≤ e)
    (hsrc : s + w ≤ src.length) (hsrc' : s + (e - d) + (w - 1) ≤ src.length)
    (hdst : d + w ≤ obj.length) (hdst' : e + (w - 1) ≤ obj.length) :
    (wildCopy w (memcpy src w) obj d s e).Returns fun obj' =>
      Written obj obj' d ((src.drop s).take (e - d)) :=
  returns_wildCopy_of_copies hw (fun _ _ _ => returns_memcpy) hde hsrc hsrc' hdst hdst'

/-- Copying in two halves. -/
def memcpyTwice (copy : List α → ℕ → ℕ → Outcome (List α)) (w : ℕ) (obj : List α) (d s : ℕ) :
    Outcome (List α) := do
  let obj ← copy obj d s
  copy obj (d + w) (s + w)

theorem returns_memcpyTwice {src : List α} {w : ℕ} (cur : List α) (d s : ℕ)
    (hsrc : s + (w + w) ≤ src.length) (hdst : d + (w + w) ≤ cur.length) :
    (memcpyTwice (memcpy src w) w cur d s).Returns fun cur' =>
      Written cur cur' d ((src.drop s).take (w + w)) := by
  have hlen : ((src.drop s).take w).length = w := length_take_drop (by omega)
  refine (returns_memcpy (by omega) (by omega)).bind fun cur1 hcur1 => ?_
  have hroom := hcur1.length_eq
  refine (returns_memcpy (by omega) (by omega)).mono fun cur2 hcur2 => ?_
  have happ := hcur1.append (hlen.symm ▸ hcur2)
  rwa [← List.drop_drop, hlen, ← List.take_add] at happ

end Memory
