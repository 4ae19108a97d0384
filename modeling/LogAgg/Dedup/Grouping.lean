import Mathlib.Data.List.Perm.Basic
import Mathlib.Data.Nat.Find
import Mathlib.Order.Basic

/-!
# Grouped sequences

A pass over a sequence that looks back and does something at each value that is new can tell
only which value was new last (`lastNew`).  This is the value at every position exactly when
equal values stand in a row (`lastNew_eq_iff_grouped`).

Elements that are put together by a key are the same elements in another order
(`flatMap_filter_perm`).  An image of a list in another order is the image of the list in another
order (`exists_perm_map`).
-/

namespace LogAgg
namespace Dedup

variable {α : Type*}

/-- No earlier position has this value. -/
def IsNew (f : ℕ → α) (i : ℕ) : Prop := ∀ k < i, f k ≠ f i

/-- Between two equal values there are no others. -/
def Grouped (f : ℕ → α) (n : ℕ) : Prop := ∀ i j k, i < j → j < k → k < n → f i = f k → f j = f k

theorem isNew_zero (f : ℕ → α) : IsNew f 0 := fun _ hk => absurd hk (Nat.not_lt_zero _)

/-- Each value is new somewhere. -/
theorem exists_isNew (f : ℕ → α) (i : ℕ) : ∃ k ≤ i, IsNew f k ∧ f k = f i := by
  classical
  have hex : ∃ k, f k = f i := ⟨i, rfl⟩
  refine ⟨Nat.find hex, Nat.find_min' hex rfl, fun k hk heq => ?_, Nat.find_spec hex⟩
  exact Nat.find_min hex hk (heq.trans (Nat.find_spec hex))

variable [DecidableEq α]

instance (f : ℕ → α) (i : ℕ) : Decidable (IsNew f i) := inferInstanceAs (Decidable (∀ k < i, _))

/-- The value that was new last. -/
def lastNew (f : ℕ → α) : ℕ → α
  | 0 => f 0
  | i + 1 => if IsNew f (i + 1) then f (i + 1) else lastNew f i

theorem lastNew_of_isNew {f : ℕ → α} {i : ℕ} (h : IsNew f i) : lastNew f i = f i := by
  cases i with
  | zero => rfl
  | succ i => rw [lastNew, if_pos h]

theorem lastNew_of_not_isNew {f : ℕ → α} {i : ℕ} (h : ¬ IsNew f (i + 1)) :
    lastNew f (i + 1) = lastNew f i := by rw [lastNew, if_neg h]

/-- The position at which the value was new that was new last. -/
theorem exists_lastNew (f : ℕ → α) (i : ℕ) :
    ∃ k ≤ i, IsNew f k ∧ lastNew f i = f k ∧ ∀ j, k < j → j ≤ i → ¬ IsNew f j := by
  induction i with
  | zero => exact ⟨0, le_rfl, isNew_zero f, rfl, fun j hj hle => absurd hj (not_lt.mpr hle)⟩
  | succ i ih =>
    by_cases h : IsNew f (i + 1)
    · exact ⟨i + 1, le_rfl, h, lastNew_of_isNew h, fun j hj hle => absurd hj (not_lt.mpr hle)⟩
    · obtain ⟨k, hk, hnew, hlast, hnone⟩ := ih
      refine ⟨k, hk.trans (Nat.le_succ i), hnew, (lastNew_of_not_isNew h).trans hlast, ?_⟩
      intro j hj hle
      rcases Nat.le_succ_iff.mp hle with hle | rfl
      · exact hnone j hj hle
      · exact h

/-- **The value that was new last is the current one**, at every position, exactly when the
sequence is grouped. -/
theorem lastNew_eq_iff_grouped (f : ℕ → α) (n : ℕ) :
    (∀ i < n, lastNew f i = f i) ↔ Grouped f n := by
  constructor
  · intro h i j k hij hjk hkn heq
    obtain ⟨p, hp, hnew, hlast, hnone⟩ := exists_lastNew f k
    have hvalue : f p = f k := hlast.symm.trans (h k hkn)
    -- the value is not new behind its first position
    have hpi : p ≤ i := not_lt.mp fun hip => hnew i hip (heq.trans hvalue.symm)
    have hkeep : ∀ d, p + d ≤ k → lastNew f (p + d) = f p := by
      intro d
      induction d with
      | zero => exact fun _ => lastNew_of_isNew hnew
      | succ d ih =>
        intro hd
        exact (lastNew_of_not_isNew (hnone (p + d + 1) (by omega) hd)).trans (ih (by omega))
    have hj := hkeep (j - p) (by omega)
    rw [Nat.add_sub_cancel' (hpi.trans hij.le)] at hj
    rw [← h j (by omega), hj, hvalue]
  · intro h i hi
    obtain ⟨p, hp, hnew, hlast, hnone⟩ := exists_lastNew f i
    obtain ⟨q, hq, hnewq, hvalue⟩ := exists_isNew f i
    have hqp : q ≤ p := not_lt.mp fun hpq => hnone q hpq hq hnewq
    rw [hlast]
    rcases hqp.eq_or_lt with rfl | hqp
    · exact hvalue
    · rcases hp.eq_or_lt with rfl | hpi
      · rfl
      · exact h q p i hqp hpi hi hvalue

/-- Each value is new once. -/
theorem countP_isNew (f : ℕ → α) (a : α) (n : ℕ) :
    (List.range n).countP (fun i => decide (IsNew f i ∧ f i = a)) =
      if ∃ i < n, f i = a then 1 else 0 := by
  induction n with
  | zero => simp
  | succ n ih =>
    rw [List.range_succ, List.countP_append, ih, List.countP_singleton]
    by_cases hbefore : ∃ i < n, f i = a
    · obtain ⟨i, hi, hvalue⟩ := hbefore
      have hbefore : ∃ i < n, f i = a := ⟨i, hi, hvalue⟩
      have hafter : ∃ i < n + 1, f i = a := ⟨i, hi.trans (Nat.lt_succ_self n), hvalue⟩
      have hold : ¬ decide (IsNew f n ∧ f n = a) = true := by
        rw [decide_eq_true_eq]
        exact fun h => h.1 i hi (hvalue.trans h.2.symm)
      rw [if_pos hbefore, if_pos hafter, if_neg hold]
    · rw [if_neg hbefore]
      by_cases hn : f n = a
      · have hafter : ∃ i < n + 1, f i = a := ⟨n, Nat.lt_succ_self n, hn⟩
        have hnew : decide (IsNew f n ∧ f n = a) = true := by
          rw [decide_eq_true_eq]
          exact ⟨fun k hk hkn => hbefore ⟨k, hk, hkn.trans hn⟩, hn⟩
        rw [if_pos hafter, if_pos hnew]
      · have hnone : ¬ ∃ i < n + 1, f i = a := by
          rintro ⟨i, hi, heq⟩
          rcases Nat.lt_succ_iff_lt_or_eq.mp hi with hlt | rfl
          · exact hbefore ⟨i, hlt, heq⟩
          · exact hn heq
        have hother : ¬ decide (IsNew f n ∧ f n = a) = true := by
          rw [decide_eq_true_eq]
          exact fun h => hn h.2
        rw [if_neg hnone, if_neg hother]

/-! ## By key -/

/-- **A list by its keys.**  The elements with the one key, then those with the next, and so on,
are all elements, when the keys are different ones and those of all elements are among them. -/
theorem flatMap_filter_perm {κ : Type*} [DecidableEq κ] {β : Type*} (key : β → κ) {keys : List κ}
    (hnodup : keys.Nodup) {l : List β} (hkeys : ∀ b ∈ l, key b ∈ keys) :
    (keys.flatMap fun k => l.filter fun b => key b = k).Perm l := by
  induction keys generalizing l with
  | nil =>
    have hempty : l = [] := List.eq_nil_iff_forall_not_mem.mpr fun b hb =>
      List.not_mem_nil (hkeys b hb)
    rw [hempty]
    exact .refl _
  | cons k keys ih =>
    obtain ⟨hk, hnodup⟩ := List.nodup_cons.mp hnodup
    -- the later keys only see the other elements
    have hrest : (keys.flatMap fun k' => l.filter fun b => key b = k') =
        keys.flatMap fun k' => (l.filter fun b => !decide (key b = k)).filter fun b => key b = k' := by
      refine List.flatMap_congr fun k' hk' => ?_
      rw [List.filter_filter]
      refine List.filter_congr fun b _ => ?_
      by_cases hb : key b = k'
      · have hne : key b ≠ k := fun h => hk (h ▸ hb ▸ hk')
        simp [hb, hb ▸ hne]
      · simp [hb]
    have hothers : ∀ b ∈ l.filter (fun b => !decide (key b = k)), key b ∈ keys := by
      intro b hb
      obtain ⟨hmem, hne⟩ := List.mem_filter.mp hb
      refine (List.mem_cons.mp (hkeys b hmem)).resolve_left fun h => ?_
      simp [h] at hne
    rw [List.flatMap_cons, hrest]
    exact ((ih hnodup hothers).append_left _).trans (List.filter_append_perm _ l)

/-! ## Images -/

section Images

variable {β γ : Type*} {f : β → γ}

/-- Elements that all come from others are the image of a list of those. -/
theorem exists_list_map {p : β → Prop} {l : List γ} (h : ∀ c ∈ l, ∃ b, p b ∧ f b = c) :
    ∃ l' : List β, (∀ b ∈ l', p b) ∧ l'.map f = l := by
  induction l with
  | nil => exact ⟨[], fun b hb => absurd hb List.not_mem_nil, rfl⟩
  | cons c l ih =>
    obtain ⟨b, hb, rfl⟩ := h c List.mem_cons_self
    obtain ⟨l', hl', rfl⟩ := ih fun c' hc' => h c' (List.mem_cons_of_mem _ hc')
    exact ⟨b :: l', List.forall_mem_cons.mpr ⟨hb, hl'⟩, rfl⟩

/-- What is put beside the images can be put beside the elements. -/
theorem exists_map_snd {κ : Type*} {l : List (κ × γ)} {m : List β}
    (h : l.map (·.2) = m.map f) :
    ∃ l' : List (κ × β), l'.map (·.2) = m ∧ l = l'.map fun b => (b.1, f b.2) := by
  induction m generalizing l with
  | nil => exact ⟨[], rfl, List.map_eq_nil_iff.mp h⟩
  | cons b m ih =>
    obtain ⟨c, l, rfl, hc, hl⟩ := List.map_eq_cons_iff.mp h
    obtain ⟨l', rfl, rfl⟩ := ih hl
    exact ⟨(c.1, b) :: l', rfl, by rw [List.map_cons, ← hc]⟩

/-- **An image in another order.** -/
theorem exists_perm_map {l : List γ} {m : List β} (h : l.Perm (m.map f)) :
    ∃ m' : List β, m'.Perm m ∧ l = m'.map f := by
  induction m generalizing l with
  | nil => exact ⟨[], .refl _, h.eq_nil⟩
  | cons b m ih =>
    obtain ⟨before, after, rfl⟩ :=
      List.append_of_mem (h.mem_iff.mpr (List.mem_map_of_mem List.mem_cons_self))
    have hrest : (before ++ after).Perm (m.map f) :=
      (List.perm_cons (f b)).mp (List.perm_middle.symm.trans h)
    obtain ⟨m', hperm, heq⟩ := ih hrest
    obtain ⟨before', after', rfl, rfl, rfl⟩ := List.map_eq_append_iff.mp heq.symm
    refine ⟨before' ++ b :: after', List.perm_middle.trans (hperm.cons b), ?_⟩
    rw [List.map_append, List.map_cons]

end Images

end Dedup
end LogAgg
