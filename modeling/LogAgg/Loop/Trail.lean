import Mathlib

/-!
# Loops that repeat a pass

A `while` loop over states `σ` is given by its pass: `pass s = some t` when the loop goes on
from `s` and the body leads to `t`, and `pass s = none` when it stops at `s`.

* `trail`: the states in which the loop tests whether to go on.
* `Lowers`: a size that every pass lowers, hence the induction along a loop
  (`Lowers.induct`).
* `Runs`: a function that computes what the loop ends with, after at most as many passes as
  the size (`Runs.getLast_trail`).
-/

namespace Loop

variable {σ : Type*} {pass : σ → Option σ}

/-- The states of the loop at its tests, over at most `n` passes. -/
def trail (pass : σ → Option σ) : ℕ → σ → List σ
  | 0, s => [s]
  | n + 1, s => s :: match pass s with
    | none => []
    | some t => trail pass n t

theorem trail_of_none {s : σ} (h : pass s = none) (n : ℕ) : trail pass n s = [s] := by
  cases n with
  | zero => rfl
  | succ n => rw [trail, h]

theorem trail_of_some {s t : σ} (h : pass s = some t) (n : ℕ) :
    trail pass (n + 1) s = s :: trail pass n t := by
  rw [trail, h]

theorem trail_ne_nil (n : ℕ) (s : σ) : trail pass n s ≠ [] := by
  cases n <;> exact List.cons_ne_nil _ _

/-- **Invariant rule.**  What every pass preserves holds in every state of the loop. -/
theorem forall_mem_trail {P : σ → Prop} (hpass : ∀ s t, pass s = some t → P s → P t) {n : ℕ}
    {s : σ} (h : P s) : ∀ t ∈ trail pass n s, P t := by
  induction n generalizing s with
  | zero =>
    intro t ht
    rw [trail, List.mem_singleton] at ht
    exact ht ▸ h
  | succ n ih =>
    intro t ht
    cases hs : pass s with
    | none =>
      rw [trail_of_none hs, List.mem_singleton] at ht
      exact ht ▸ h
    | some s' =>
      rw [trail_of_some hs, List.mem_cons] at ht
      rcases ht with rfl | ht
      · exact h
      · exact ih (hpass s s' hs h) t ht

/-! ## Termination -/

/-- Every pass lowers the size. -/
def Lowers (pass : σ → Option σ) (size : σ → ℕ) : Prop := ∀ s t, pass s = some t → size t < size s

namespace Lowers

variable {size : σ → ℕ} (h : Lowers pass size)

include h

/-- **Induction along the loop**, from its end to its start. -/
theorem induct {motive : σ → Prop} (stop : ∀ s, pass s = none → motive s)
    (next : ∀ s t, pass s = some t → motive t → motive s) (s : σ) : motive s := by
  induction hsize : size s using Nat.strong_induction_on generalizing s with
  | _ n ih =>
    subst hsize
    cases hs : pass s with
    | none => exact stop s hs
    | some t => exact next s t hs (ih (size t) (h s t hs) t rfl)

/-- More passes than the size of the state make no difference. -/
theorem trail_eq {s : σ} {n : ℕ} (hn : size s ≤ n) : trail pass n s = trail pass (size s) s := by
  induction s using h.induct generalizing n with
  | stop s hs => rw [trail_of_none hs, trail_of_none hs]
  | next s t hs ih =>
    have hlt := h s t hs
    obtain ⟨m, hm⟩ := Nat.exists_eq_add_of_lt hlt
    obtain ⟨k, rfl⟩ := Nat.exists_eq_add_of_le hn
    rw [hm, show size t + m + 1 + k = size t + m + k + 1 by omega, trail_of_some hs,
      trail_of_some hs, ih (by omega), ih (n := size t + m) (by omega)]

theorem trail_next {s t : σ} (hs : pass s = some t) :
    trail pass (size s) s = s :: trail pass (size t) t := by
  have hlt := h s t hs
  obtain ⟨m, hm⟩ := Nat.exists_eq_add_of_lt hlt
  rw [hm, trail_of_some hs, h.trail_eq (by omega)]

end Lowers

/-! ## Functions that compute a loop -/

/-- The function gives the state in which the loop stops. -/
structure Runs (pass : σ → Option σ) (run : σ → σ) : Prop where
  stop : ∀ s, pass s = none → run s = s
  next : ∀ s t, pass s = some t → run s = run t

namespace Runs

variable {run : σ → σ} {size : σ → ℕ} (hrun : Runs pass run) (h : Lowers pass size)

include hrun h

/-- A loop stops where there is nothing left to do. -/
theorem pass_run (s : σ) : pass (run s) = none := by
  induction s using h.induct with
  | stop s hs =>
    rw [hrun.stop s hs]
    exact hs
  | next s t hs ih =>
    rw [hrun.next s t hs]
    exact ih

/-- Running the loop again changes nothing. -/
theorem run_run (s : σ) : run (run s) = run s := hrun.stop _ (hrun.pass_run h s)

theorem getLast_trail (s : σ) :
    (trail pass (size s) s).getLast (trail_ne_nil _ _) = run s := by
  induction s using h.induct with
  | stop s hs =>
    simp only [trail_of_none hs, List.getLast_singleton]
    exact (hrun.stop s hs).symm
  | next s t hs ih =>
    simp only [h.trail_next hs, List.getLast_cons (trail_ne_nil _ _)]
    rw [hrun.next s t hs]
    exact ih

/-- What every pass preserves holds at the end. -/
theorem invariant {P : σ → Prop} (hpass : ∀ s t, pass s = some t → P s → P t) {s : σ}
    (hs : P s) : P (run s) := by
  induction s using h.induct with
  | stop s hstop =>
    rw [hrun.stop s hstop]
    exact hs
  | next s t hnext ih =>
    rw [hrun.next s t hnext]
    exact ih (hpass s t hnext hs)

end Runs

end Loop
