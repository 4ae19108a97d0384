import Mathlib

/-!
# Intersection and union by two pointers

Two strictly increasing lists are intersected and united in one pass each, by a pointer
into either list that moves past the smaller element.  `inter` and `union` are these
passes; both keep the result strictly increasing and have the members one expects
(`mem_inter`, `mem_union`).  On the sublists that two predicates cut out of one list they
are conjunction and disjunction (`inter_filter`, `union_filter`).
-/

namespace LogAgg
namespace Sorting

variable {α : Type*} [LinearOrder α]

/-- The elements both lists have. -/
def inter : List α → List α → List α
  | [], _ => []
  | _ :: _, [] => []
  | a :: s, b :: t =>
    if a = b then a :: inter s t
    else if a < b then inter s (b :: t)
    else inter (a :: s) t
  termination_by s t => s.length + t.length

/-- The elements either list has; what one list has left when the other ends is
copied. -/
def union : List α → List α → List α
  | [], t => t
  | a :: s, [] => a :: s
  | a :: s, b :: t =>
    if a = b then a :: union s t
    else if a < b then a :: union s (b :: t)
    else b :: union (a :: s) t
  termination_by s t => s.length + t.length

/-! ## Members -/

/-- An element below the head of an increasing list is not in the list. -/
theorem notMem_of_lt_head {a b : α} {t : List α} (ht : (b :: t).Pairwise (· < ·)) (hab : a < b) :
    a ∉ b :: t := by
  intro h
  rcases List.mem_cons.mp h with rfl | h
  · exact lt_irrefl _ hab
  · exact lt_asymm hab ((List.pairwise_cons.mp ht).1 a h)

theorem mem_inter {s t : List α} (hs : s.Pairwise (· < ·)) (ht : t.Pairwise (· < ·)) (x : α) :
    x ∈ inter s t ↔ x ∈ s ∧ x ∈ t := by
  fun_induction inter s t with
  | case1 t => simp
  | case2 a s => simp
  | case3 s a t ih =>
    have ha : x ∈ s → x ≠ a := fun h => ne_of_gt ((List.pairwise_cons.mp hs).1 x h)
    rw [List.mem_cons, ih hs.of_cons ht.of_cons, List.mem_cons, List.mem_cons]
    tauto
  | case4 a s b t hab hlt ih =>
    have ha := notMem_of_lt_head ht hlt
    rw [ih hs.of_cons ht]
    constructor
    · exact fun h => ⟨List.mem_cons_of_mem _ h.1, h.2⟩
    · rintro ⟨h, hx⟩
      rcases List.mem_cons.mp h with rfl | h
      · exact absurd hx ha
      · exact ⟨h, hx⟩
  | case5 a s b t hab hlt ih =>
    have hb := notMem_of_lt_head hs (lt_of_le_of_ne (not_lt.mp hlt) (Ne.symm hab))
    rw [ih hs ht.of_cons]
    constructor
    · exact fun h => ⟨h.1, List.mem_cons_of_mem _ h.2⟩
    · rintro ⟨hx, h⟩
      rcases List.mem_cons.mp h with rfl | h
      · exact absurd hx hb
      · exact ⟨hx, h⟩

theorem mem_union (s t : List α) (x : α) : x ∈ union s t ↔ x ∈ s ∨ x ∈ t := by
  fun_induction union s t with
  | case1 t => simp
  | case2 a s => simp
  | case3 s a t ih =>
    rw [List.mem_cons, ih, List.mem_cons, List.mem_cons]
    tauto
  | case4 a s b t hab hlt ih =>
    rw [List.mem_cons, ih, List.mem_cons (l := s)]
    tauto
  | case5 a s b t hab hlt ih =>
    rw [List.mem_cons, ih, List.mem_cons (l := t)]
    tauto

/-! ## Order -/

theorem inter_sublist (s t : List α) : (inter s t).Sublist s := by
  fun_induction inter s t with
  | case1 t => exact List.Sublist.refl _
  | case2 a s => exact List.nil_sublist _
  | case3 s a t ih => exact ih.cons_cons a
  | case4 a s b t hab hlt ih => exact ih.cons a
  | case5 a s b t hab hlt ih => exact ih

theorem pairwise_inter {s t : List α} (hs : s.Pairwise (· < ·)) :
    (inter s t).Pairwise (· < ·) :=
  hs.sublist (inter_sublist s t)

theorem pairwise_union {s t : List α} (hs : s.Pairwise (· < ·)) (ht : t.Pairwise (· < ·)) :
    (union s t).Pairwise (· < ·) := by
  fun_induction union s t with
  | case1 t => exact ht
  | case2 a s => exact hs
  | case3 s a t ih =>
    refine List.pairwise_cons.mpr ⟨fun x hx => ?_, ih hs.of_cons ht.of_cons⟩
    rcases (mem_union s t x).mp hx with h | h
    · exact (List.pairwise_cons.mp hs).1 x h
    · exact (List.pairwise_cons.mp ht).1 x h
  | case4 a s b t hab hlt ih =>
    refine List.pairwise_cons.mpr ⟨fun x hx => ?_, ih hs.of_cons ht⟩
    rcases (mem_union s (b :: t) x).mp hx with h | h
    · exact (List.pairwise_cons.mp hs).1 x h
    · rcases List.mem_cons.mp h with rfl | h
      · exact hlt
      · exact hlt.trans ((List.pairwise_cons.mp ht).1 x h)
  | case5 a s b t hab hlt ih =>
    have hba : b < a := lt_of_le_of_ne (not_lt.mp hlt) (Ne.symm hab)
    refine List.pairwise_cons.mpr ⟨fun x hx => ?_, ih hs ht.of_cons⟩
    rcases (mem_union (a :: s) t x).mp hx with h | h
    · rcases List.mem_cons.mp h with rfl | h
      · exact hba
      · exact hba.trans ((List.pairwise_cons.mp hs).1 x h)
    · exact (List.pairwise_cons.mp ht).1 x h

/-! ## Filters of one list -/

/-- **Intersection is conjunction.** -/
theorem inter_filter {l : List α} (hl : l.Pairwise (· < ·)) (p q : α → Bool) :
    inter (l.filter p) (l.filter q) = l.filter fun x => p x && q x := by
  have hp := hl.filter p
  have hq := hl.filter q
  refine (pairwise_inter hp).eq_of_mem_iff (hl.filter _) fun x => ?_
  rw [mem_inter hp hq, List.mem_filter, List.mem_filter, List.mem_filter, Bool.and_eq_true]
  tauto

/-- **Union is disjunction.** -/
theorem union_filter {l : List α} (hl : l.Pairwise (· < ·)) (p q : α → Bool) :
    union (l.filter p) (l.filter q) = l.filter fun x => p x || q x := by
  refine (pairwise_union (hl.filter p) (hl.filter q)).eq_of_mem_iff (hl.filter _) fun x => ?_
  rw [mem_union, List.mem_filter, List.mem_filter, List.mem_filter, Bool.or_eq_true]
  tauto

end Sorting
end LogAgg
