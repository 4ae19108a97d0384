import Mathlib

/-!
# Arranging a list by a patched order

A strict partial order is often turned into a comparator by patching it with a second
key: elements the order relates are compared by the order, the others by the key.  The
result, `Patched before key`, is total but need not be transitive, and a sorting routine
that is handed such a comparator promises only what every sorting routine promises, a
permutation whose neighbours are in order (`IsArrangement`).

* `exists_isArrangement_sublist`: for a total relation, every chain of elements of a list
  is a sublist of some arrangement of the list.
* `exists_triple`: a cycle of a patched order that is not a cycle of ties contains a
  cycle of length three through the strict order.
* `forall_isArrangement_iff`: all arrangements respect the strict order exactly when no
  three elements form such a cycle.
-/

namespace LogAgg
namespace Sorting

variable {α : Type*}

/-- What a sorting routine promises of its result `l'`: a permutation of `l` whose
neighbours are in order. -/
structure IsArrangement (r : α → α → Prop) (l l' : List α) : Prop where
  perm : l'.Perm l
  isChain : l'.IsChain r

/-! ## Short lists -/

section Short

variable {r : α → α → Prop} {l l' : List α}

/-- A list of at most one element is arranged. -/
theorem isArrangement_of_length_le_one (h : l.length ≤ 1) : IsArrangement r l l := by
  refine ⟨List.Perm.refl l, ?_⟩
  match l, h with
  | [], _ => exact List.isChain_nil
  | [a], _ => exact List.isChain_singleton a

/-- A list of at most one element has no other arrangement. -/
theorem IsArrangement.eq_of_length_le_one (harr : IsArrangement r l l') (h : l.length ≤ 1) :
    l' = l := by
  match l, h with
  | [], _ => exact harr.perm.eq_nil
  | [a], _ => exact harr.perm.eq_singleton

end Short

/-! ## Arrangements exist -/

section Total

variable {r : α → α → Prop} [DecidableRel r]

/-- Insertion into a chain keeps it a chain. -/
theorem isChain_orderedInsert (htotal : ∀ a b, r a b ∨ r b a) (a : α) {l : List α}
    (hl : l.IsChain r) : (l.orderedInsert r a).IsChain r := by
  induction l with
  | nil => exact List.isChain_singleton a
  | cons b l ih =>
    rw [List.orderedInsert_cons]
    by_cases hab : r a b
    · rw [if_pos hab]
      exact List.isChain_cons_cons.mpr ⟨hab, hl⟩
    · have hba : r b a := (htotal a b).resolve_left hab
      rw [List.isChain_cons] at hl
      rw [if_neg hab, List.isChain_cons]
      refine ⟨fun c hc => ?_, ih hl.2⟩
      -- the head behind `b` is the new element or the old head
      cases l with
      | nil =>
        rw [List.orderedInsert_nil, List.head?_cons, Option.mem_some_iff] at hc
        exact hc ▸ hba
      | cons d l =>
        rw [List.orderedInsert_cons] at hc
        split at hc
        · rw [List.head?_cons, Option.mem_some_iff] at hc
          exact hc ▸ hba
        · rw [List.head?_cons] at hc
          exact hl.1 c hc

/-- **Insertion sort arranges.** -/
theorem isArrangement_insertionSort (htotal : ∀ a b, r a b ∨ r b a) (l : List α) :
    IsArrangement r l (l.insertionSort r) := by
  refine ⟨List.perm_insertionSort r l, ?_⟩
  induction l with
  | nil => exact List.isChain_nil
  | cons a l ih => exact isChain_orderedInsert htotal a ih

/-- **Chains extend.**  A chain of elements of a list occurs in this order in some
arrangement of the list. -/
theorem exists_isArrangement_sublist (htotal : ∀ a b, r a b ∨ r b a) {s l : List α}
    (hs : s.IsChain r) (hsub : s.Subperm l) :
    ∃ l', IsArrangement r l l' ∧ s.Sublist l' := by
  have hrest : ∀ t : List α, ∃ l', l'.Perm (t ++ s) ∧ l'.IsChain r ∧ s.Sublist l' := by
    intro t
    induction t with
    | nil => exact ⟨s, List.Perm.refl s, hs, List.Sublist.refl s⟩
    | cons a t ih =>
      obtain ⟨l', hperm, hchain, hsub'⟩ := ih
      exact ⟨l'.orderedInsert r a, (List.perm_orderedInsert r a l').trans (hperm.cons a),
        isChain_orderedInsert htotal a hchain, hsub'.trans (List.sublist_orderedInsert a l')⟩
  obtain ⟨l₁, hperm₁, hsub₁⟩ := List.subperm_iff.mp hsub
  obtain ⟨t, ht⟩ := hsub₁.exists_perm_append
  obtain ⟨l', hperm, hchain, hsub'⟩ := hrest t
  exact ⟨l', ⟨hperm.trans (List.perm_append_comm.trans (ht.symm.trans hperm₁)), hchain⟩, hsub'⟩

end Total

/-! ## Patched orders -/

/-- The strict order `before`, patched with `key` where it says nothing. -/
def Patched (before key : α → α → Prop) (a b : α) : Prop :=
  before a b ∨ ¬ before b a ∧ key a b

section Patched

variable {before key : α → α → Prop}

theorem patched_total (hkey : ∀ a b, key a b ∨ key b a) (a b : α) :
    Patched before key a b ∨ Patched before key b a := by
  by_cases hab : before a b
  · exact Or.inl (Or.inl hab)
  · by_cases hba : before b a
    · exact Or.inr (Or.inl hba)
    · exact (hkey a b).imp (fun h => Or.inr ⟨hba, h⟩) fun h => Or.inr ⟨hab, h⟩

theorem not_patched_of_before (hasymm : ∀ a b, before a b → ¬ before b a) {a b : α}
    (h : before b a) : ¬ Patched before key a b := by
  rintro (h' | ⟨h', -⟩)
  · exact hasymm b a h h'
  · exact h' h

/-- Three elements in patched order around which the strict order closes a cycle. -/
def IsTriple (before key : α → α → Prop) (x y z : α) : Prop :=
  Patched before key x y ∧ Patched before key y z ∧ before z x

/-- **Three suffice.**  A chain that its last element closes to a cycle, other than by a
tie, contains three elements that form one. -/
theorem exists_triple (hkey : ∀ a b, key a b ∨ key b a)
    (htrans : ∀ a b c, key a b → key b c → key a c) {a z : α} {l : List α}
    (hchain : (a :: (l ++ [z])).IsChain (Patched before key))
    (hclose : ¬ Patched before key a z) :
    ∃ x ∈ a :: (l ++ [z]), ∃ y ∈ a :: (l ++ [z]), ∃ w ∈ a :: (l ++ [z]),
      IsTriple before key x y w := by
  induction l generalizing a with
  | nil => exact absurd (List.isChain_cons_cons.mp hchain).1 hclose
  | cons b l ih =>
    obtain ⟨hab, htail⟩ := List.isChain_cons_cons.mp hchain
    have ha : a ∈ a :: (b :: l ++ [z]) := List.mem_cons_self
    have hb : b ∈ a :: (b :: l ++ [z]) := List.mem_cons_of_mem _ List.mem_cons_self
    have hz : z ∈ a :: (b :: l ++ [z]) :=
      List.mem_cons_of_mem _ (List.mem_append_right _ (List.mem_singleton_self z))
    have hza : Patched before key z a := (patched_total hkey a z).resolve_left hclose
    by_cases hbz : Patched before key b z
    · by_cases hbefore : before z a
      · exact ⟨a, ha, b, hb, z, hz, hab, hbz, hbefore⟩
      · have hnokey : ¬ key a z := fun h => hclose (Or.inr ⟨hbefore, h⟩)
        -- the keys alone would close the cycle, so one of the two steps is strict
        by_cases hab' : before a b
        · exact ⟨b, hb, z, hz, a, ha, hbz, hza, hab'⟩
        · by_cases hbz' : before b z
          · exact ⟨z, hz, a, ha, b, hb, hza, hab, hbz'⟩
          · exact absurd (htrans a b z (hab.resolve_left hab').2 (hbz.resolve_left hbz').2) hnokey
    · obtain ⟨x, hx, y, hy, w, hw, htriple⟩ := ih htail hbz
      exact ⟨x, List.mem_cons_of_mem _ hx, y, List.mem_cons_of_mem _ hy, w,
        List.mem_cons_of_mem _ hw, htriple⟩

/-- A chain without such a triple respects the strict order. -/
theorem pairwise_of_isChain (hkey : ∀ a b, key a b ∨ key b a)
    (htrans : ∀ a b c, key a b → key b c → key a c) (hasymm : ∀ a b, before a b → ¬ before b a)
    {l : List α} (hchain : l.IsChain (Patched before key))
    (hnone : ∀ x ∈ l, ∀ y ∈ l, ∀ z ∈ l, ¬ IsTriple before key x y z) :
    l.Pairwise fun a b => ¬ before b a := by
  induction l with
  | nil => exact List.Pairwise.nil
  | cons a l ih =>
    refine List.pairwise_cons.mpr ⟨fun z hz hbefore => ?_, ih (List.isChain_cons.mp hchain).2
      fun x hx y hy w hw => hnone x (List.mem_cons_of_mem _ hx) y (List.mem_cons_of_mem _ hy) w
        (List.mem_cons_of_mem _ hw)⟩
    obtain ⟨s, t, rfl⟩ := List.append_of_mem hz
    have hsplit : a :: (s ++ z :: t) = a :: (s ++ [z]) ++ t := by
      rw [List.cons_append, List.append_assoc, List.singleton_append]
    rw [hsplit] at hchain hnone
    obtain ⟨x, hx, y, hy, w, hw, htriple⟩ := exists_triple hkey htrans hchain.left_of_append
      (not_patched_of_before hasymm hbefore)
    exact hnone x (List.mem_append_left _ hx) y (List.mem_append_left _ hy) w
      (List.mem_append_left _ hw) htriple

/-- **When sorting respects the strict order.**  Every arrangement of a list by the
patched order respects the strict order if and only if the list has no triple. -/
theorem forall_isArrangement_iff (hkey : ∀ a b, key a b ∨ key b a)
    (htrans : ∀ a b c, key a b → key b c → key a c) (hasymm : ∀ a b, before a b → ¬ before b a)
    (l : List α) :
    (∀ l', IsArrangement (Patched before key) l l' → l'.Pairwise fun a b => ¬ before b a) ↔
      ∀ x ∈ l, ∀ y ∈ l, ∀ z ∈ l, ¬ IsTriple before key x y z := by
  classical
  constructor
  · rintro hall x hx y hy z hz ⟨hxy, hyz, hzx⟩
    have hxz : ¬ Patched before key x z := not_patched_of_before hasymm hzx
    have hnodup : [x, y, z].Nodup := by
      have hne₁ : x ≠ y := fun h => hxz (h ▸ hyz)
      have hne₂ : y ≠ z := fun h => hxz (h ▸ hxy)
      have hne₃ : x ≠ z := fun h => hasymm z x hzx (h ▸ hzx)
      simp [hne₁, hne₂, hne₃]
    have hsub : [x, y, z].Subperm l := hnodup.subperm (by
      intro w hw
      simp only [List.mem_cons, List.not_mem_nil, or_false] at hw
      rcases hw with rfl | rfl | rfl
      · exact hx
      · exact hy
      · exact hz)
    have hchain : [x, y, z].IsChain (Patched before key) :=
      List.isChain_cons_cons.mpr ⟨hxy, List.isChain_cons_cons.mpr ⟨hyz, List.isChain_singleton z⟩⟩
    obtain ⟨l', harr, hsub'⟩ := exists_isArrangement_sublist (patched_total hkey) hchain hsub
    have hpair := (hall l' harr).sublist hsub'
    exact (List.pairwise_cons.mp hpair).1 z (by simp) hzx
  · intro hnone l' harr
    refine pairwise_of_isChain hkey htrans hasymm harr.isChain fun x hx y hy z hz => ?_
    exact hnone x (harr.perm.mem_iff.mp hx) y (harr.perm.mem_iff.mp hy) z (harr.perm.mem_iff.mp hz)

end Patched

end Sorting
end LogAgg
