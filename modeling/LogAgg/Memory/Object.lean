import Mathlib

/-!
# Objects in memory

An object is the list of its cells.  A piece of code returns a value, returns the null
result that its callers test for, or accesses a cell that an object does not have, where the
machine would go on with whatever lies behind: these are the three cases of `Outcome`.

A string ends in a zero cell, the last of its object.  `At mem i s` says that index `i` is a
cursor with `s` and the terminator ahead of it; what a loop over the string reads through the
cursor is then what the list `s` holds, and the cursor never leaves the object as long as it
does not step over the terminator.
-/

namespace Memory

/-- What a piece of code comes to. -/
inductive Outcome (α : Type) where
  /-- A value. -/
  | ret (a : α)
  /-- The null result. -/
  | null
  /-- An access outside of an object. -/
  | fault
  deriving DecidableEq

namespace Outcome

variable {α β : Type}

/-- Going on with a value that was returned. -/
protected def bind (x : Outcome α) (f : α → Outcome β) : Outcome β :=
  match x with
  | .ret a => f a
  | .null => .null
  | .fault => .fault

instance : Monad Outcome where
  pure := .ret
  bind := Outcome.bind

@[simp] theorem pure_eq (a : α) : (pure a : Outcome α) = .ret a := rfl
@[simp] theorem ret_bind (a : α) (f : α → Outcome β) : (Outcome.ret a >>= f) = f a := rfl
@[simp] theorem null_bind (f : α → Outcome β) : (Outcome.null >>= f) = .null := rfl
@[simp] theorem fault_bind (f : α → Outcome β) : (Outcome.fault >>= f) = .fault := rfl

/-- From a computation that returns, the step that returned and what followed. -/
theorem ret_of_bind {x : Outcome α} {f : α → Outcome β} {b : β} (h : (x >>= f) = .ret b) :
    ∃ a, x = .ret a ∧ f a = .ret b := by
  cases x with
  | ret a => exact ⟨a, rfl, h⟩
  | null => cases h
  | fault => cases h

theorem bind_assoc {γ : Type} (x : Outcome α) (f : α → Outcome β) (g : β → Outcome γ) :
    (x >>= f >>= g) = x >>= fun a => f a >>= g := by
  cases x <;> rfl

end Outcome

variable {α : Type}

/-- Reading a cell. -/
def load (obj : List α) (i : ℕ) : Outcome α :=
  match obj[i]? with
  | some a => .ret a
  | none => .fault

/-- Writing a cell. -/
def store (obj : List α) (i : ℕ) (a : α) : Outcome (List α) :=
  if i < obj.length then .ret (obj.set i a) else .fault

theorem load_eq_ret_iff {obj : List α} {i : ℕ} {a : α} :
    load obj i = .ret a ↔ obj[i]? = some a := by
  unfold load
  cases obj[i]? with
  | none => simp
  | some b => simp

/-- A cell that is read is one of the object. -/
theorem lt_of_load {obj : List α} {i : ℕ} {a : α} (h : load obj i = .ret a) : i < obj.length :=
  (List.getElem?_eq_some_iff.mp (load_eq_ret_iff.mp h)).1

theorem load_of_le {obj : List α} {i : ℕ} (h : obj.length ≤ i) : load obj i = .fault := by
  rw [load, List.getElem?_eq_none h]

@[simp] theorem load_append_cons (front : List α) (a : α) (back : List α) :
    load (front ++ a :: back) front.length = .ret a := load_eq_ret_iff.mpr (by simp)

/-- Writing the cell behind those written so far. -/
@[simp] theorem store_append_cons (front : List α) (a b : α) (back : List α) :
    store (front ++ a :: back) front.length b = .ret (front ++ b :: back) := by
  rw [store, if_pos (by simp), List.set_append_right _ _ le_rfl, Nat.sub_self, List.set_cons_zero]

theorem store_of_lt {obj : List α} {i : ℕ} (h : i < obj.length) (a : α) :
    store obj i a = .ret (obj.set i a) := if_pos h

/-! ## Loops -/

/-- A loop whose turns all return, as long as an invariant holds, is a fold. -/
theorem foldlM_eq_ret {β γ : Type} {f : β → γ → Outcome β} {g : β → γ → β} {P : β → Prop}
    {l : List γ} (hf : ∀ c ∈ l, ∀ b, P b → f b c = .ret (g b c) ∧ P (g b c)) {b : β} (hb : P b) :
    l.foldlM f b = .ret (l.foldl g b) := by
  induction l generalizing b with
  | nil => rfl
  | cons c l ih =>
    obtain ⟨hret, hinv⟩ := hf c List.mem_cons_self b hb
    rw [List.foldlM_cons, hret, Outcome.ret_bind, List.foldl_cons]
    exact ih (fun d hd => hf d (List.mem_cons_of_mem c hd)) hinv

/-- `while (p(*s)) s++`. -/
def scanWhile (p : α → Bool) (mem : List α) (i : ℕ) : Outcome ℕ :=
  match h : load mem i with
  | .null => .null
  | .fault => .fault
  | .ret c =>
      have _ := lt_of_load h
      if p c then scanWhile p mem (i + 1) else .ret i
  termination_by mem.length - i

theorem scanWhile_of_load {p : α → Bool} {mem : List α} {i : ℕ} {c : α}
    (h : load mem i = .ret c) :
    scanWhile p mem i = if p c then scanWhile p mem (i + 1) else .ret i := by
  rw [scanWhile]
  split
  · rename_i hnull
    rw [h] at hnull
    cases hnull
  · rename_i hfault
    rw [h] at hfault
    cases hfault
  · rename_i c' hc'
    rw [h] at hc'
    cases hc'
    rfl

/-- A scan never moves backwards. -/
theorem le_of_scanWhile {p : α → Bool} {mem : List α} {i j : ℕ}
    (h : scanWhile p mem i = .ret j) : i ≤ j := by
  induction hn : mem.length - i generalizing i with
  | zero =>
    rw [scanWhile] at h
    split at h
    · cases h
    · cases h
    · rename_i c hc
      have hlt := lt_of_load hc
      omega
  | succ n ih =>
    rw [scanWhile] at h
    split at h
    · cases h
    · cases h
    · split at h
      · exact (Nat.le_succ i).trans (ih h (by omega))
      · obtain rfl := Outcome.ret.inj h
        exact le_rfl

/-! ## Strings -/

section

variable [Zero α]

/-- Index `i` stands before the string `s`, whose terminator is the last cell. -/
structure At (mem : List α) (i : ℕ) (s : List α) : Prop where
  drop_eq : mem.drop i = s ++ [0]
  zero_notMem : (0 : α) ∉ s

namespace At

variable {mem s t : List α} {i : ℕ}

theorem start (h : (0 : α) ∉ s) : At (s ++ [0]) 0 s := ⟨rfl, h⟩

theorem length_eq (h : At mem i s) : i + s.length + 1 = mem.length := by
  have hlen := congrArg List.length h.drop_eq
  rw [List.length_drop, List.length_append, List.length_singleton] at hlen
  omega

/-- At the end the terminator is read. -/
theorem load_nil (h : At mem i []) : load mem i = .ret 0 := by
  have hhead := congrArg List.head? h.drop_eq
  rw [List.head?_drop] at hhead
  exact load_eq_ret_iff.mpr hhead

theorem load_cons {c : α} (h : At mem i (c :: s)) : load mem i = .ret c := by
  have hhead := congrArg List.head? h.drop_eq
  rw [List.head?_drop] at hhead
  exact load_eq_ret_iff.mpr hhead

/-- Behind the terminator there is nothing to read. -/
theorem load_succ_nil (h : At mem i []) : load mem (i + 1) = .fault := by
  have hlen := h.length_eq
  rw [List.length_nil] at hlen
  exact load_of_le (by omega)

theorem ne_zero {c : α} (h : At mem i (c :: s)) : c ≠ 0 := by
  rintro rfl
  exact h.zero_notMem List.mem_cons_self

/-- The cursor may step over everything but the terminator. -/
theorem succ {c : α} (h : At mem i (c :: s)) : At mem (i + 1) s := by
  refine ⟨?_, fun hmem => h.zero_notMem (List.mem_cons_of_mem c hmem)⟩
  have htail := congrArg List.tail h.drop_eq
  rwa [List.tail_drop] at htail

/-- The cells between two cursors. -/
theorem take_drop {j : ℕ} (h : At mem i (t ++ s)) (hj : At mem j s) :
    (mem.drop i).take (j - i) = t := by
  have hi := h.length_eq
  have hj := hj.length_eq
  rw [List.length_append] at hi
  rw [h.drop_eq, List.append_assoc, show j - i = t.length by omega, List.take_left]

end At

/-- **A loop that stops at the terminator stays inside.** -/
theorem At.scanWhile [DecidableEq α] {p : α → Bool} {mem s : List α} {i : ℕ} (h : At mem i s) :
    ∃ j, scanWhile (fun c => c != 0 && p c) mem i = .ret j ∧ At mem j (s.dropWhile p) := by
  induction s generalizing i with
  | nil =>
    refine ⟨i, ?_, h⟩
    rw [scanWhile_of_load h.load_nil, if_neg (by simp)]
  | cons c s ih =>
    have hc0 : (c != 0) = true := bne_iff_ne.mpr h.ne_zero
    rw [scanWhile_of_load h.load_cons, hc0, Bool.true_and]
    by_cases hc : p c = true
    · obtain ⟨j, hj, hat⟩ := ih h.succ
      refine ⟨j, ?_, ?_⟩
      · rw [if_pos hc, hj]
      · rwa [List.dropWhile_cons_of_pos hc]
    · refine ⟨i, if_neg hc, ?_⟩
      rwa [List.dropWhile_cons_of_neg hc]

end

end Memory
