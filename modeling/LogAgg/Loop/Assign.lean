import Mathlib

/-!
# Assignments one after the other

A loop that only assigns to the cells of a table is the list of its assignments, in the
order they are made.  What a cell holds in the end is decided by the last assignment to it:
none (`run_of_notMem`), one that nothing follows (`run_append_cons`), or the only one
(`run_of_mem`).
-/

namespace Assign

variable {α β : Type*} [DecidableEq α]

/-- The table after some assignments. -/
def run (writes : List (α × β)) (f : α → β) : α → β :=
  writes.foldl (fun f w => Function.update f w.1 w.2) f

@[simp] theorem run_nil (f : α → β) : run [] f = f := rfl

@[simp] theorem run_cons (w : α × β) (writes : List (α × β)) (f : α → β) :
    run (w :: writes) f = run writes (Function.update f w.1 w.2) := rfl

theorem run_append (before after : List (α × β)) (f : α → β) :
    run (before ++ after) f = run after (run before f) := List.foldl_append

/-- A cell that is not assigned to keeps its value. -/
theorem run_of_notMem {writes : List (α × β)} {a : α} (h : ∀ w ∈ writes, w.1 ≠ a) (f : α → β) :
    run writes f a = f a := by
  induction writes generalizing f with
  | nil => rfl
  | cons w writes ih =>
    rw [run_cons, ih (fun w' hw' => h w' (List.mem_cons_of_mem w hw')),
      Function.update_of_ne (h w List.mem_cons_self).symm]

/-- The last assignment to a cell decides. -/
theorem run_append_cons {before after : List (α × β)} {a : α} {b : β}
    (h : ∀ w ∈ after, w.1 ≠ a) (f : α → β) : run (before ++ (a, b) :: after) f a = b := by
  rw [run_append, run_cons, run_of_notMem h, Function.update_self]

/-- Among assignments to different cells every one lasts. -/
theorem run_of_mem {writes : List (α × β)} (hnodup : (writes.map Prod.fst).Nodup) {a : α} {b : β}
    (h : (a, b) ∈ writes) (f : α → β) : run writes f a = b := by
  obtain ⟨before, after, rfl⟩ := List.append_of_mem h
  rw [List.map_append, List.map_cons, List.nodup_append, List.nodup_cons] at hnodup
  refine run_append_cons (fun w hw hwa => hnodup.2.1.1 ?_) f
  exact List.mem_map.mpr ⟨w, hw, hwa⟩

/-- Loops whose passes assign, as one list of assignments. -/
theorem foldl_eq_run {γ σ : Type*} {step : σ → γ → σ} {cells : σ → α → β}
    {writes : γ → List (α × β)} {l : List γ}
    (hstep : ∀ s, ∀ c ∈ l, cells (step s c) = run (writes c) (cells s)) (s : σ) :
    cells (l.foldl step s) = run (l.flatMap writes) (cells s) := by
  induction l generalizing s with
  | nil => rfl
  | cons c l ih =>
    rw [List.foldl_cons, List.flatMap_cons, run_append, ← hstep s c List.mem_cons_self]
    exact ih (fun s c' hc' => hstep s c' (List.mem_cons_of_mem c hc')) _

end Assign
