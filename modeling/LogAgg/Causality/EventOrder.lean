import Mathlib

/-!
# Event orders and event counts

An event order is a distributed computation seen through causality alone: a strict
partial order of events in which the events of one process form a chain.  Nothing about
messages is assumed: program order and message delivery generate such an order, and only
the order matters below.

Two ways of attaching a vector to every event are treated.

* `Stamping` collects what the usual clock rules guarantee of an assignment
  `V : E → ι → ℕ`, and `Stamping.past_iff_le` says that then the componentwise
  order of the vectors *is* the causal order.
* `EventOrder.stamp` is the vector that counts, process by process, the events
  in the causal past.  Its interplay with a downward-closed set `W` of events is
  what a delivery buffer relies on: `mem_iff_stamp_le_tally` reads membership in
  `W` off the per-process tallies of `W`, and `sum_stamp_sub_tally` says that the
  excess of a stamp over the tallies counts the missing causal predecessors.
-/

namespace LogAgg
namespace Causality

variable {ι E : Type*}

/-- A distributed computation, as an order: every event belongs to a process, `before` is a
strict partial order, and the events of one process are a chain. -/
structure EventOrder (ι E : Type*) where
  /-- The process an event belongs to. -/
  proc : E → ι
  /-- Causal precedence. -/
  before : E → E → Prop
  /-- No event precedes itself. -/
  irrefl : ∀ e, ¬ before e e
  /-- Precedence is transitive. -/
  trans : ∀ {d e f}, before d e → before e f → before d f
  /-- Two events of one process are comparable. -/
  total : ∀ {d e}, proc d = proc e → d = e ∨ before d e ∨ before e d

namespace EventOrder

variable (C : EventOrder ι E)

/-- `d` lies in the causal past of `e`, which includes `e` itself. -/
def Past (d e : E) : Prop := d = e ∨ C.before d e

variable {C}

theorem Past.refl (e : E) : C.Past e e := Or.inl rfl

theorem Past.of_before {d e : E} (h : C.before d e) : C.Past d e := Or.inr h

theorem Past.trans {d e f : E} (hde : C.Past d e) (hef : C.Past e f) : C.Past d f := by
  rcases hde with rfl | hde
  · exact hef
  · rcases hef with rfl | hef
    · exact Or.inr hde
    · exact Or.inr (C.trans hde hef)

theorem Past.antisymm {d e : E} (hde : C.Past d e) (hed : C.Past e d) : d = e := by
  rcases hde with rfl | hde
  · rfl
  · rcases hed with rfl | hed
    · rfl
    · exact absurd (C.trans hde hed) (C.irrefl d)

/-- Two events of one process are comparable, in terms of the causal past. -/
theorem past_or_before {d e : E} (h : C.proc d = C.proc e) : C.Past d e ∨ C.before e d := by
  rcases C.total h with rfl | h | h
  · exact Or.inl (Past.refl d)
  · exact Or.inl (Or.inr h)
  · exact Or.inr h

end EventOrder

open EventOrder

/-! ## Stampings -/

/-- What the clock rules guarantee of an assignment of vectors to events: vectors
never decrease along causality, the own component strictly increases along a
process, and a positive component comes from an event of that process in the
causal past. -/
structure Stamping (C : EventOrder ι E) (V : E → ι → ℕ) : Prop where
  /-- Vectors grow along causality. -/
  mono : ∀ {d e}, C.before d e → ∀ i, V d i ≤ V e i
  /-- The own component of an event is positive. -/
  pos : ∀ e, 0 < V e (C.proc e)
  /-- The own component strictly grows along a process. -/
  strict : ∀ {d e}, C.before d e → C.proc d = C.proc e → V d (C.proc d) < V e (C.proc d)
  /-- A positive component was contributed by an event of that process. -/
  source : ∀ e i, 0 < V e i → ∃ d, C.Past d e ∧ C.proc d = i ∧ V d i = V e i

namespace Stamping

variable {C : EventOrder ι E} {V : E → ι → ℕ}

theorem le_of_past (h : Stamping C V) {d e : E} (hde : C.Past d e) (i : ι) : V d i ≤ V e i := by
  rcases hde with rfl | hde
  · exact le_rfl
  · exact h.mono hde i

/-- **One component decides.**  The own component of `d` reaches `e` exactly when
`d` is in the causal past of `e`. -/
theorem past_iff_own_le (h : Stamping C V) {d e : E} :
    C.Past d e ↔ V d (C.proc d) ≤ V e (C.proc d) := by
  constructor
  · intro hde
    exact h.le_of_past hde _
  · intro hle
    obtain ⟨c, hce, hproc, hval⟩ := h.source e (C.proc d) (lt_of_lt_of_le (h.pos d) hle)
    rcases past_or_before (C := C) hproc.symm with hdc | hcd
    · exact hdc.trans hce
    · have hlt := h.strict hcd hproc
      rw [hproc] at hlt
      omega

/-- **The strong clock condition.**  The componentwise order of the stamps is the
causal order. -/
theorem past_iff_le (h : Stamping C V) {d e : E} : C.Past d e ↔ ∀ i, V d i ≤ V e i :=
  ⟨fun hde i => h.le_of_past hde i, fun hle => h.past_iff_own_le.mpr (hle _)⟩

theorem eq_iff (h : Stamping C V) {d e : E} : d = e ↔ ∀ i, V d i = V e i := by
  constructor
  · rintro rfl i
    rfl
  · intro hV
    exact (h.past_iff_le.mpr fun i => (hV i).le).antisymm
      (h.past_iff_le.mpr fun i => (hV i).ge)

end Stamping

/-! ## Counting events -/

namespace EventOrder

section Tally

variable (C : EventOrder ι E)

/-- A set of events closed under causal predecessors. -/
def IsDown (W : Finset E) : Prop := ∀ e ∈ W, ∀ d, C.before d e → d ∈ W

/-- The number of events of process `i` in a set of events. -/
def tally [DecidableEq ι] (W : Finset E) (i : ι) : ℕ := (W.filter fun d => C.proc d = i).card

variable {C}

theorem IsDown.mem_of_past {W : Finset E} (hW : C.IsDown W) {d e : E} (he : e ∈ W)
    (hde : C.Past d e) : d ∈ W := by
  rcases hde with rfl | hde
  · exact he
  · exact hW e he d hde

variable [DecidableEq ι]

theorem tally_mono {W W' : Finset E} (h : W ⊆ W') (i : ι) : C.tally W i ≤ C.tally W' i :=
  Finset.card_le_card (Finset.filter_subset_filter _ h)

/-- On one process, two downward-closed sets are nested. -/
theorem IsDown.filter_subset_or {A B : Finset E} (hA : C.IsDown A) (hB : C.IsDown B) (i : ι) :
    A.filter (fun d => C.proc d = i) ⊆ B.filter (fun d => C.proc d = i) ∨
      B.filter (fun d => C.proc d = i) ⊆ A.filter (fun d => C.proc d = i) := by
  by_contra hcon
  rw [not_or, Finset.not_subset, Finset.not_subset] at hcon
  obtain ⟨⟨a, ha, haB⟩, b, hb, hbA⟩ := hcon
  rw [Finset.mem_filter] at ha hb
  rcases past_or_before (C := C) (ha.2.trans hb.2.symm) with hab | hba
  · exact haB (Finset.mem_filter.mpr ⟨hB.mem_of_past hb.1 hab, ha.2⟩)
  · exact hbA (Finset.mem_filter.mpr ⟨hA a ha.1 b hba, hb.2⟩)

/-- The excess of one tally over another counts the events of the difference. -/
theorem IsDown.tally_sub_tally [DecidableEq E] {A B : Finset E} (hA : C.IsDown A)
    (hB : C.IsDown B) (i : ι) : C.tally A i - C.tally B i = C.tally (A \ B) i := by
  have hsd : (A \ B).filter (fun d => C.proc d = i) =
      A.filter (fun d => C.proc d = i) \ B.filter (fun d => C.proc d = i) := by
    ext d
    simp only [Finset.mem_filter, Finset.mem_sdiff]
    tauto
  rw [tally, tally, tally, hsd]
  rcases hA.filter_subset_or hB i with h | h
  · rw [Finset.sdiff_eq_empty_iff_subset.mpr h, Finset.card_empty]
    exact Nat.sub_eq_zero_of_le (Finset.card_le_card h)
  · rw [Finset.card_sdiff_of_subset h]

/-- Tallies over all processes add up to the size of the set. -/
theorem sum_tally [Fintype ι] (W : Finset E) : ∑ i, C.tally W i = W.card :=
  (Finset.card_eq_sum_card_fiberwise fun d _ => Finset.mem_coe.mpr (Finset.mem_univ (C.proc d))).symm

end Tally

variable [Fintype E] (C : EventOrder ι E)

open Classical in
/-- The causal past of an event, as a finite set. -/
noncomputable def past (e : E) : Finset E := Finset.univ.filter fun d => C.Past d e

variable {C}

@[simp] theorem mem_past {d e : E} : d ∈ C.past e ↔ C.Past d e := by
  simp [past]

theorem isDown_past (e : E) : C.IsDown (C.past e) := by
  intro f hf d hdf
  rw [mem_past] at hf ⊢
  exact (Past.of_before hdf).trans hf

theorem wellFounded_before : WellFounded C.before :=
  haveI : IsTrans E C.before := ⟨fun _ _ _ => C.trans⟩
  haveI : Std.Irrefl C.before := ⟨C.irrefl⟩
  Finite.wellFounded_of_trans_of_irrefl C.before

/-- **What a saturated set is.**  A downward-closed set of arrived events to which
no arrived event can be added consists of the arrived events all of whose causal
predecessors arrived. -/
theorem IsDown.mem_iff_of_saturated {W : Finset E} {S : Set E} (hW : C.IsDown W)
    (hsub : ∀ e ∈ W, e ∈ S) (hsat : ∀ e ∈ S, (∀ d, C.before d e → d ∈ W) → e ∈ W) (e : E) :
    e ∈ W ↔ e ∈ S ∧ ∀ d, C.before d e → d ∈ S := by
  constructor
  · intro he
    exact ⟨hsub e he, fun d hd => hsub d (hW e he d hd)⟩
  · induction e using (wellFounded_before (C := C)).induction with
    | h e ih =>
      rintro ⟨heS, hpred⟩
      exact hsat e heS fun d hd => ih d hd ⟨hpred d hd, fun c hc => hpred c (C.trans hc hd)⟩

variable [DecidableEq ι]

/-- The vector of an event: how many events of each process its past holds. -/
noncomputable def stamp (C : EventOrder ι E) (e : E) (i : ι) : ℕ := C.tally (C.past e) i

/-- **Membership is read off one tally.** -/
theorem IsDown.mem_iff_own_le_tally {W : Finset E} (hW : C.IsDown W) {e : E} :
    e ∈ W ↔ C.stamp e (C.proc e) ≤ C.tally W (C.proc e) := by
  classical
  constructor
  · intro he
    exact tally_mono (fun d hd => hW.mem_of_past he (mem_past.mp hd)) _
  · intro hle
    have hzero : C.tally (C.past e \ W) (C.proc e) = 0 := by
      rw [← (isDown_past e).tally_sub_tally hW]
      exact Nat.sub_eq_zero_of_le hle
    by_contra he
    have hmem : e ∈ (C.past e \ W).filter fun d => C.proc d = C.proc e := by
      simp [he, Past.refl]
    rw [tally, Finset.card_eq_zero] at hzero
    rw [hzero] at hmem
    exact absurd hmem (Finset.notMem_empty e)

theorem IsDown.mem_iff_stamp_le_tally {W : Finset E} (hW : C.IsDown W) {e : E} :
    e ∈ W ↔ ∀ i, C.stamp e i ≤ C.tally W i := by
  constructor
  · intro he i
    exact tally_mono (fun d hd => hW.mem_of_past he (mem_past.mp hd)) i
  · intro hle
    exact hW.mem_iff_own_le_tally.mpr (hle _)

/-- **The stamps are ordered as the events are.** -/
theorem past_iff_stamp_le {d e : E} : C.Past d e ↔ ∀ i, C.stamp d i ≤ C.stamp e i := by
  rw [← mem_past]
  exact (isDown_past e).mem_iff_stamp_le_tally

omit [Fintype E] [DecidableEq ι] in
/-- A downward-closed set grows by an event whose predecessors it holds. -/
theorem IsDown.insert_of_ready [DecidableEq E] {W : Finset E} (hW : C.IsDown W) {e : E}
    (hpred : ∀ d, C.before d e → d ∈ W) : C.IsDown (insert e W) := by
  intro f hf d hd
  rcases Finset.mem_insert.mp hf with rfl | hf
  · exact Finset.mem_insert_of_mem (hpred d hd)
  · exact Finset.mem_insert_of_mem (hW f hf d hd)

omit [Fintype E] in
theorem tally_insert [DecidableEq E] {W : Finset E} {e : E} (he : e ∉ W) (i : ι) :
    C.tally (insert e W) i = C.tally W i + if C.proc e = i then 1 else 0 := by
  unfold tally
  rw [Finset.filter_insert]
  by_cases hi : C.proc e = i
  · rw [if_pos hi, if_pos hi, Finset.card_insert_of_notMem]
    exact fun hmem => he (Finset.mem_filter.mp hmem).1
  · rw [if_neg hi, if_neg hi, Nat.add_zero]

/-- **Joining the stamp counts the event.**  The join of the tallies with the stamp of an
event that is ready is the tallies with the event. -/
theorem IsDown.max_tally_stamp [DecidableEq E] {W : Finset E} (hW : C.IsDown W) {e : E}
    (he : e ∉ W) (hpred : ∀ d, C.before d e → d ∈ W) (i : ι) :
    max (C.tally W i) (C.stamp e i) = C.tally (insert e W) i := by
  have hsub : C.past e ⊆ insert e W := by
    intro d hd
    rcases mem_past.mp hd with rfl | hd
    · exact Finset.mem_insert_self d W
    · exact Finset.mem_insert_of_mem (hpred d hd)
  have hle : C.stamp e i ≤ C.tally (insert e W) i := tally_mono hsub i
  rw [tally_insert he] at hle ⊢
  by_cases hi : C.proc e = i
  · have hown : ¬ C.stamp e i ≤ C.tally W i := by
      rw [← hi]
      exact fun h => he (hW.mem_iff_own_le_tally.mpr h)
    rw [if_pos hi] at hle ⊢
    omega
  · rw [if_neg hi] at hle ⊢
    omega

/-- **The excess counts the missing predecessors.**  The total excess of a stamp
over the tallies of a downward-closed set is the number of events of the causal
past that the set lacks. -/
theorem IsDown.sum_stamp_sub_tally [Fintype ι] [DecidableEq E] {W : Finset E} (hW : C.IsDown W)
    (e : E) : ∑ i, (C.stamp e i - C.tally W i) = (C.past e \ W).card := by
  rw [← sum_tally (C := C)]
  exact Finset.sum_congr rfl fun i _ => (isDown_past e).tally_sub_tally hW i

omit [DecidableEq ι] in
/-- Exactly one event of the past is missing when the event itself is, and
nothing else. -/
theorem IsDown.card_past_sdiff_eq_one_iff [DecidableEq E] {W : Finset E} (hW : C.IsDown W)
    {e : E} : (C.past e \ W).card = 1 ↔ e ∉ W ∧ ∀ d, C.before d e → d ∈ W := by
  rw [Finset.card_eq_one]
  constructor
  · rintro ⟨f, hf⟩
    have hmem : ∀ d, C.Past d e → d ∉ W → d = f := by
      intro d hde hdW
      rw [← Finset.mem_singleton, ← hf, Finset.mem_sdiff, mem_past]
      exact ⟨hde, hdW⟩
    have heW : e ∉ W := by
      intro he
      have hfm : f ∈ C.past e \ W := by
        rw [hf]
        exact Finset.mem_singleton_self f
      rw [Finset.mem_sdiff, mem_past] at hfm
      exact hfm.2 (hW.mem_of_past he hfm.1)
    refine ⟨heW, fun d hd => ?_⟩
    by_contra hdW
    rw [hmem d (Past.of_before hd) hdW, ← hmem e (Past.refl e) heW] at hd
    exact C.irrefl e hd
  · rintro ⟨he, hpred⟩
    refine ⟨e, ?_⟩
    ext d
    rw [Finset.mem_sdiff, mem_past, Finset.mem_singleton]
    constructor
    · rintro ⟨rfl | hd, hdW⟩
      · rfl
      · exact absurd (hpred d hd) hdW
    · rintro rfl
      exact ⟨Past.refl d, he⟩

end EventOrder

end Causality
end LogAgg
