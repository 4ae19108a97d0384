import LogAgg.Causality.EventOrder

/-!
# Computations from their clocks

The events of each process stand in a sequence, and a vector is attached to every event.  The
vectors are the stamps of a computation if they are consistent: `Consistent.order` is this
computation, and `Consistent.stamp_order` says that its stamps are the vectors.
-/

namespace LogAgg
namespace Causality

variable {ι : Type*} {len : ι → ℕ} {V : (Σ i, Fin (len i)) → ι → ℕ}

/-- Vectors as a computation attaches them.  The own component numbers the events, no component
shrinks along a sequence, and a component of another process is the number of an event there that
is covered, and that knows less of the own process. -/
structure Consistent (V : (Σ i, Fin (len i)) → ι → ℕ) : Prop where
  own : ∀ e, V e e.1 = e.2 + 1
  mono : ∀ (i : ι) (k l : Fin (len i)), k ≤ l → ∀ j, V ⟨i, k⟩ j ≤ V ⟨i, l⟩ j
  known : ∀ e i, i ≠ e.1 → 0 < V e i → ∃ k : Fin (len i), (k : ℕ) + 1 = V e i ∧
    (∀ j, V ⟨i, k⟩ j ≤ V e j) ∧ V ⟨i, k⟩ e.1 < V e e.1

namespace Consistent

/-- **One component decides.** -/
theorem le_iff_own_le (h : Consistent V) {d e : Σ i, Fin (len i)} :
    (∀ j, V d j ≤ V e j) ↔ (d.2 : ℕ) + 1 ≤ V e d.1 := by
  constructor
  · intro hle
    rw [← h.own d]
    exact hle d.1
  · obtain ⟨i, k⟩ := d
    obtain ⟨i', l⟩ := e
    intro hle
    by_cases hi : i = i'
    · subst hi
      have hown : V ⟨i, l⟩ i = l + 1 := h.own ⟨i, l⟩
      refine h.mono i k l (Fin.le_def.mpr ?_)
      have hkl : (k : ℕ) + 1 ≤ l + 1 := hown ▸ hle
      omega
    · -- the last event of the process that is known here
      obtain ⟨m, hm, hcovered, -⟩ := h.known ⟨i', l⟩ i hi ((Nat.succ_pos k).trans_le hle)
      have hkm : k ≤ m := Fin.le_def.mpr (by
        have hle' : (k : ℕ) + 1 ≤ m + 1 := hm ▸ hle
        omega)
      exact fun j => (h.mono i k m hkm j).trans (hcovered j)

/-- Two events do not cover each other. -/
theorem eq_of_le_of_le (h : Consistent V) {d e : Σ i, Fin (len i)} (hde : ∀ j, V d j ≤ V e j)
    (hed : ∀ j, V e j ≤ V d j) : d = e := by
  obtain ⟨i, k⟩ := d
  obtain ⟨i', l⟩ := e
  have hk := h.own ⟨i, k⟩
  have hl := h.own ⟨i', l⟩
  by_cases hi : i = i'
  · subst hi
    have hkl : (k : ℕ) = l := by
      have hle := hde i
      have hge := hed i
      dsimp only at hk hl
      omega
    rw [Fin.ext hkl]
  · have hle := hde i
    have hge := hed i
    obtain ⟨m, hm, -, hless⟩ := h.known ⟨i', l⟩ i hi (by
      dsimp only at hk
      omega)
    have hmk : m = k := Fin.ext (by
      dsimp only at hk
      omega)
    subst hmk
    exact absurd (hed i') (not_le.mpr hless)

/-- **The computation behind consistent vectors.** -/
def order (h : Consistent V) : EventOrder ι (Σ i, Fin (len i)) where
  proc e := e.1
  before d e := d ≠ e ∧ ∀ j, V d j ≤ V e j
  irrefl _ hbefore := hbefore.1 rfl
  trans := by
    intro d e f hde hef
    refine ⟨fun hdf => ?_, fun j => (hde.2 j).trans (hef.2 j)⟩
    subst hdf
    exact hde.1 (h.eq_of_le_of_le hde.2 hef.2)
  total := by
    rintro ⟨i, k⟩ ⟨i', l⟩ hproc
    obtain rfl : i = i' := hproc
    rcases lt_trichotomy k l with hkl | rfl | hlk
    · exact Or.inr (Or.inl ⟨fun heq => hkl.ne (by cases heq; rfl), h.mono i k l hkl.le⟩)
    · exact Or.inl rfl
    · exact Or.inr (Or.inr ⟨fun heq => hlk.ne (by cases heq; rfl), h.mono i l k hlk.le⟩)

theorem past_order_iff (h : Consistent V) {d e : Σ i, Fin (len i)} :
    h.order.Past d e ↔ ∀ j, V d j ≤ V e j := by
  constructor
  · rintro (rfl | hbefore)
    · exact fun j => le_rfl
    · exact hbefore.2
  · intro hle
    by_cases hde : d = e
    · exact Or.inl hde
    · exact Or.inr ⟨hde, hle⟩

/-- A component does not point beyond the end of a sequence. -/
theorem le_len (h : Consistent V) (e : Σ i, Fin (len i)) (i : ι) : V e i ≤ len i := by
  by_cases hi : i = e.1
  · rw [hi, h.own e]
    exact e.2.isLt
  · rcases Nat.eq_zero_or_pos (V e i) with hzero | hpos
    · rw [hzero]
      exact Nat.zero_le _
    · obtain ⟨k, hk, -⟩ := h.known e i hi hpos
      rw [← hk]
      exact k.isLt

/-- **The stamps of this computation are the vectors.** -/
theorem stamp_order [Fintype ι] [DecidableEq ι] (h : Consistent V) (e : Σ i, Fin (len i)) (i : ι) :
    h.order.stamp e i = V e i := by
  have hpast : (h.order.past e).filter (fun d => h.order.proc d = i) =
      (Finset.univ.filter fun k : Fin (len i) => (k : ℕ) < V e i).map
        (Function.Embedding.sigmaMk i) := by
    ext ⟨i', k⟩
    rw [Finset.mem_filter, EventOrder.mem_past, h.past_order_iff, h.le_iff_own_le, Finset.mem_map]
    constructor
    · rintro ⟨hle, hproc⟩
      obtain rfl : i' = i := hproc
      exact ⟨k, Finset.mem_filter.mpr ⟨Finset.mem_univ k, hle⟩, rfl⟩
    · rintro ⟨k', hk', heq⟩
      cases heq
      exact ⟨(Finset.mem_filter.mp hk').2, rfl⟩
  rw [EventOrder.stamp, EventOrder.tally, hpast, Finset.card_map, Fin.card_filter_val_lt]
  exact min_eq_right (h.le_len e i)

end Consistent

end Causality
end LogAgg
