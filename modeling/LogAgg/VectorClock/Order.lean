import LogAgg.VectorClock.Basic

/-!
# The order that clocks are compared in

`vc_compare` treats the components a shorter clock lacks as zeros.  Reading a clock
as the function `VectorClock.extend : ℕ → ℕ` of its components extended by zeros,
the four answers are the four ways two functions can compare in the product order
(`vcCompare_eq_equal_iff` and its companions).  Slots that are not in use never
matter.  Clocks that compare `VC_EQUAL` make up a `ClockClass`, and these classes are
strictly ordered.  `vc_merge` is the join of that order as long as the merged clock is
not longer than its target (`extend_vcMerge`, `vcMerge_join`).
-/

namespace LogAgg

namespace VectorClock

/-- The components in use as numbers, extended by zeros. -/
def extend (vc : VectorClock) (i : ℕ) : ℕ := if i < vc.nodeCount then (vc.slot i).toNat else 0

theorem extend_of_lt {vc : VectorClock} {i : ℕ} (hi : i < vc.nodeCount) :
    vc.extend i = (vc.slot i).toNat := if_pos hi

theorem extend_of_le {vc : VectorClock} {i : ℕ} (hi : vc.nodeCount ≤ i) : vc.extend i = 0 :=
  if_neg (by omega)

/-- `a` is componentwise at most `b`, with missing components read as zero. -/
theorem extend_le_iff {a b : VectorClock} :
    a.extend ≤ b.extend ↔ ∀ i, i < a.nodeCount → a.extend i ≤ b.extend i := by
  constructor
  · intro h i _
    exact h i
  · intro h i
    by_cases hi : i < a.nodeCount
    · exact h i hi
    · rw [extend_of_le (by omega)]
      exact Nat.zero_le _

/-- Components are bounded by those of a clock if those in use are and the others are
zero. -/
theorem le_extend_iff {f : ℕ → ℕ} {vc : VectorClock} :
    f ≤ vc.extend ↔
      (∀ i, i < vc.nodeCount → f i ≤ vc.extend i) ∧ ∀ i, vc.nodeCount ≤ i → f i = 0 := by
  constructor
  · intro h
    refine ⟨fun i _ => h i, fun i hi => ?_⟩
    rw [← Nat.le_zero, ← extend_of_le hi]
    exact h i
  · rintro ⟨hused, hunused⟩ i
    by_cases hi : i < vc.nodeCount
    · exact hused i hi
    · rw [hunused i (by omega)]
      exact Nat.zero_le _

end VectorClock

open VectorClock

/-! ## Comparison -/

/-- A clock of `n` components compares by its first `n` components. -/
theorem extend_le_iff_forall_fin {n : ℕ} {a b : VectorClock} (ha : a.nodeCount = n) :
    a.extend ≤ b.extend ↔ ∀ i : Fin n, a.extend i ≤ b.extend i := by
  rw [extend_le_iff]
  constructor
  · intro h i
    exact h i (by omega)
  · intro h i hi
    exact h ⟨i, by omega⟩

/-- What the flag for `a ≤ b` of `vc_compare` says. -/
theorem all_not_lt_iff (a b : VectorClock) :
    ((List.range (min a.nodeCount b.nodeCount)).all (fun i => !decide (b.slot i < a.slot i)) &&
      (List.range' (min a.nodeCount b.nodeCount) (a.nodeCount - min a.nodeCount b.nodeCount)).all
        (fun i => !decide (0 < a.slot i))) = true ↔ a.extend ≤ b.extend := by
  rw [extend_le_iff]
  simp only [Bool.and_eq_true, List.all_eq_true, List.mem_range, List.mem_range'_1,
    Bool.not_eq_true', decide_eq_false_iff_not, UInt64.lt_iff_toNat_lt, UInt64.toNat_zero, not_lt]
  constructor
  · rintro ⟨hcommon, hextra⟩ i hi
    by_cases hb : i < b.nodeCount
    · rw [extend_of_lt hi, extend_of_lt hb]
      exact hcommon i (by omega)
    · rw [extend_of_lt hi, extend_of_le (by omega)]
      exact hextra i (by omega)
  · intro h
    refine ⟨fun i hi => ?_, fun i hi => ?_⟩
    · have hle := h i (by omega)
      rwa [extend_of_lt (by omega), extend_of_lt (by omega)] at hle
    · have hle := h i (by omega)
      rwa [extend_of_lt (by omega), extend_of_le (by omega)] at hle

/-- **`vc_compare` decides the product order.**  The whole function, as a choice
between the two comparisons of the zero-extended clocks. -/
theorem vcCompare_eq (a b : VectorClock) [Decidable (a.extend ≤ b.extend)]
    [Decidable (b.extend ≤ a.extend)] :
    vcCompare a b =
      if a.extend ≤ b.extend then
        if b.extend ≤ a.extend then .equal else .happensBefore
      else if b.extend ≤ a.extend then .happensAfter else .concurrent := by
  have hcount : (if a.nodeCount < b.nodeCount then a.nodeCount else b.nodeCount) =
      min a.nodeCount b.nodeCount := by
    split <;> omega
  have hab := all_not_lt_iff a b
  have hba := all_not_lt_iff b a
  rw [min_comm] at hba
  unfold vcCompare
  simp only [hcount]
  by_cases h₁ : a.extend ≤ b.extend <;> by_cases h₂ : b.extend ≤ a.extend
  · rw [hab.mpr h₁, hba.mpr h₂]
    simp [h₁, h₂]
  · rw [hab.mpr h₁, Bool.eq_false_iff.mpr (fun h => h₂ (hba.mp h))]
    simp [h₁, h₂]
  · rw [hba.mpr h₂, Bool.eq_false_iff.mpr (fun h => h₁ (hab.mp h))]
    simp [h₁, h₂]
  · rw [Bool.eq_false_iff.mpr (fun h => h₁ (hab.mp h)),
      Bool.eq_false_iff.mpr (fun h => h₂ (hba.mp h))]
    simp [h₁, h₂]

theorem vcCompare_eq_equal_iff {a b : VectorClock} :
    vcCompare a b = .equal ↔ a.extend = b.extend := by
  classical
  rw [vcCompare_eq, le_antisymm_iff (a := a.extend)]
  split_ifs <;> simp [*]

theorem vcCompare_eq_happensBefore_iff {a b : VectorClock} :
    vcCompare a b = .happensBefore ↔ a.extend < b.extend := by
  classical
  rw [vcCompare_eq, lt_iff_le_not_ge]
  split_ifs <;> simp [*]

theorem vcCompare_eq_happensAfter_iff {a b : VectorClock} :
    vcCompare a b = .happensAfter ↔ b.extend < a.extend := by
  classical
  rw [vcCompare_eq, lt_iff_le_not_ge]
  split_ifs <;> simp [*]

theorem vcCompare_eq_concurrent_iff {a b : VectorClock} :
    vcCompare a b = .concurrent ↔ ¬ a.extend ≤ b.extend ∧ ¬ b.extend ≤ a.extend := by
  classical
  rw [vcCompare_eq]
  split_ifs <;> simp [*]

/-- The test that a clock lies at or below another, as the server makes it. -/
theorem vcCompare_equal_or_happensBefore_iff {a b : VectorClock} :
    vcCompare a b = .equal ∨ vcCompare a b = .happensBefore ↔ a.extend ≤ b.extend := by
  rw [vcCompare_eq_equal_iff, vcCompare_eq_happensBefore_iff, le_iff_eq_or_lt]

/-! ## The order on classes of clocks -/

/-- The clocks agree in the node count and in every slot in use. -/
def VectorClock.SameInUse (a b : VectorClock) : Prop :=
  a.nodeCount = b.nodeCount ∧ ∀ i, i < a.nodeCount → a.slot i = b.slot i

theorem VectorClock.SameInUse.extend_eq {a b : VectorClock} (h : a.SameInUse b) :
    a.extend = b.extend := by
  ext i
  by_cases hi : i < a.nodeCount
  · rw [extend_of_lt hi, extend_of_lt (h.1 ▸ hi), h.2 i hi]
  · have hcount := h.1
    rw [extend_of_le (by omega), extend_of_le (by omega)]

/-- `vc_compare` sees nothing of a clock but its components in use, extended by zeros. -/
theorem vcCompare_congr {a a' b b' : VectorClock} (ha : a.extend = a'.extend)
    (hb : b.extend = b'.extend) : vcCompare a b = vcCompare a' b' := by
  classical
  rw [vcCompare_eq, vcCompare_eq, ha, hb]

/-- Clocks up to `VC_EQUAL`. -/
def vcEqual : Setoid VectorClock where
  r a b := vcCompare a b = .equal
  iseqv := by
    refine ⟨fun a => ?_, fun {a b} h => ?_, fun {a b c} hab hbc => ?_⟩
    · exact vcCompare_eq_equal_iff.mpr rfl
    · exact vcCompare_eq_equal_iff.mpr (vcCompare_eq_equal_iff.mp h).symm
    · exact vcCompare_eq_equal_iff.mpr
        ((vcCompare_eq_equal_iff.mp hab).trans (vcCompare_eq_equal_iff.mp hbc))

/-- A class of `VC_EQUAL` clocks. -/
def ClockClass := Quotient vcEqual

/-- What `vc_compare` answers for two classes. -/
def ClockClass.compare : ClockClass → ClockClass → VcRelation :=
  Quotient.lift₂ vcCompare fun _ _ _ _ ha hb =>
    vcCompare_congr (vcCompare_eq_equal_iff.mp ha) (vcCompare_eq_equal_iff.mp hb)

/-- **`vc_compare` decides the product order** on zero-extended clocks, whatever the slots
hold that are not in use.  So 'happens before' is a strict order on classes of equal clocks,
and 'happens after' is its converse. -/
theorem vcCompare_decides_product_order :
    (∀ a b : VectorClock,
      (vcCompare a b = .equal ↔ a.extend = b.extend) ∧
      (vcCompare a b = .happensBefore ↔
        (∀ i, a.extend i ≤ b.extend i) ∧ a.extend ≠ b.extend) ∧
      (vcCompare a b = .happensAfter ↔
        (∀ i, b.extend i ≤ a.extend i) ∧ a.extend ≠ b.extend) ∧
      (vcCompare a b = .concurrent ↔
        ¬ (∀ i, a.extend i ≤ b.extend i) ∧ ¬ ∀ i, b.extend i ≤ a.extend i) ∧
      ∀ a' b', a.SameInUse a' → b.SameInUse b' → vcCompare a' b' = vcCompare a b) ∧
    IsStrictOrder ClockClass (fun p q => p.compare q = .happensBefore) ∧
    (∀ p q : ClockClass, p.compare q = .equal ↔ p = q) ∧
    ∀ p q : ClockClass, p.compare q = .happensAfter ↔ q.compare p = .happensBefore := by
  refine ⟨fun a b => ⟨vcCompare_eq_equal_iff, ?_, ?_, vcCompare_eq_concurrent_iff, ?_⟩,
    { irrefl := ?_, trans := ?_ }, ?_, ?_⟩
  · rw [vcCompare_eq_happensBefore_iff, lt_iff_le_and_ne]
    rfl
  · rw [vcCompare_eq_happensAfter_iff, lt_iff_le_and_ne, ne_comm]
    rfl
  · intro a' b' ha hb
    exact vcCompare_congr ha.extend_eq.symm hb.extend_eq.symm
  · rintro ⟨a⟩ h
    exact lt_irrefl _ (vcCompare_eq_happensBefore_iff.mp h)
  · rintro ⟨a⟩ ⟨b⟩ ⟨c⟩ hab hbc
    exact vcCompare_eq_happensBefore_iff.mpr
      ((vcCompare_eq_happensBefore_iff.mp hab).trans (vcCompare_eq_happensBefore_iff.mp hbc))
  · rintro ⟨a⟩ ⟨b⟩
    exact ⟨fun h => Quotient.sound h, fun h => Quotient.exact h⟩
  · rintro ⟨a⟩ ⟨b⟩
    exact vcCompare_eq_happensAfter_iff.trans vcCompare_eq_happensBefore_iff.symm

/-! ## Merging -/

/-- Merging touches only the components both clocks use. -/
theorem extend_vcMerge_apply (dst src : VectorClock) (i : ℕ) :
    (vcMerge dst src).extend i =
      if i < min dst.nodeCount src.nodeCount then max (dst.extend i) (src.extend i)
      else dst.extend i := by
  have hle := dst.nodeCount_le
  by_cases hi : i < dst.nodeCount
  · rw [extend_of_lt (by simpa using hi), slot_vcMerge _ _ (by omega), extend_of_lt hi]
    by_cases hs : i < src.nodeCount
    · rw [extend_of_lt hs, if_pos (show i < min dst.nodeCount src.nodeCount by omega)]
      by_cases hlt : dst.slot i < src.slot i
      · rw [if_pos ⟨by omega, hlt⟩]
        rw [UInt64.lt_iff_toNat_lt] at hlt
        omega
      · rw [if_neg (fun h => hlt h.2)]
        rw [UInt64.lt_iff_toNat_lt] at hlt
        omega
    · rw [if_neg (by omega), if_neg (by omega)]
  · rw [extend_of_le (by simpa using hi), if_neg (by omega), extend_of_le (by omega)]

/-- **`vc_merge` is the join**, when the merged clock uses no component that its
target lacks. -/
theorem extend_vcMerge {dst src : VectorClock} (h : src.nodeCount ≤ dst.nodeCount) :
    (vcMerge dst src).extend = dst.extend ⊔ src.extend := by
  ext i
  rw [extend_vcMerge_apply, Pi.sup_apply]
  by_cases hi : i < min dst.nodeCount src.nodeCount
  · rw [if_pos hi]
  · have hsrc : src.extend i = 0 := extend_of_le (by omega)
    rw [if_neg hi, hsrc]
    simp

/-- Merging never lowers a component. -/
theorem extend_le_extend_vcMerge (dst src : VectorClock) :
    dst.extend ≤ (vcMerge dst src).extend := by
  intro i
  rw [extend_vcMerge_apply]
  split
  · exact le_max_left _ _
  · exact le_rfl

/-- The clock is `VC_EQUAL` to the other or `VC_HAPPENS_BEFORE` it. -/
def VectorClock.AtMost (a b : VectorClock) : Prop :=
  vcCompare a b = .equal ∨ vcCompare a b = .happensBefore

theorem VectorClock.atMost_iff {a b : VectorClock} : a.AtMost b ↔ a.extend ≤ b.extend :=
  vcCompare_equal_or_happensBefore_iff

/-- A merge stays below every clock that is above both. -/
theorem extend_vcMerge_le {dst src : VectorClock} {u : ℕ → ℕ} (hdst : dst.extend ≤ u)
    (hsrc : src.extend ≤ u) : (vcMerge dst src).extend ≤ u := by
  intro i
  rw [extend_vcMerge_apply]
  split
  · exact max_le (hdst i) (hsrc i)
  · exact hdst i

/-- A merge is above its source exactly when the source uses no component that the target
lacks. -/
theorem extend_le_extend_vcMerge_iff {dst src : VectorClock} :
    src.extend ≤ (vcMerge dst src).extend ↔ ∀ i, dst.nodeCount ≤ i → src.extend i = 0 := by
  rw [le_extend_iff, nodeCount_vcMerge]
  refine and_iff_right fun i hi => ?_
  rw [extend_vcMerge_apply]
  by_cases hsrc : i < src.nodeCount
  · rw [if_pos (by omega)]
    exact le_max_right _ _
  · rw [extend_of_le (show src.nodeCount ≤ i by omega)]
    exact Nat.zero_le _

/-- **`vc_merge` as a join.**  The result is above the old target and below every common
upper bound of the two clocks, whatever their lengths; it is above the source exactly when
the source has only zeros from the node count of the target on. -/
theorem vcMerge_join (d s : VectorClock) :
    d.AtMost (vcMerge d s) ∧
    (∀ u : VectorClock, d.AtMost u → s.AtMost u → (vcMerge d s).AtMost u) ∧
    (s.AtMost (vcMerge d s) ↔ ∀ i, d.nodeCount ≤ i → s.extend i = 0) := by
  refine ⟨atMost_iff.mpr (extend_le_extend_vcMerge d s), fun u hd hs => ?_, ?_⟩
  · exact atMost_iff.mpr (extend_vcMerge_le (atMost_iff.mp hd) (atMost_iff.mp hs))
  · rw [atMost_iff]
    exact extend_le_extend_vcMerge_iff

/-- The second component of a clock of two nodes is lost in a clock of one. -/
theorem vcMerge_not_upper_bound :
    ¬ (ofSlots 2 (by decide) fun i => if i = 1 then 1 else 0).AtMost
      (vcMerge (ofSlots 1 (by decide) fun _ => 0)
        (ofSlots 2 (by decide) fun i => if i = 1 then 1 else 0)) := by
  unfold AtMost
  decide

/-! ## Initialising, incrementing and copying -/

theorem extend_vcInit (vc : VectorClock) {n : ℕ} (hpos : 1 ≤ n) (hle : n ≤ vcMaxNodes) :
    (vcInit vc n).extend = 0 := by
  ext i
  by_cases hi : i < n
  · rw [extend_of_lt (by rwa [nodeCount_vcInit vc hpos hle]), slot_vcInit vc hpos hle hi]
    rfl
  · rw [extend_of_le (by rw [nodeCount_vcInit vc hpos hle]; omega)]
    rfl

/-- Cleared memory gives a clock of zeros for every node count, usable or not. -/
@[simp] theorem extend_vcInit_zero (nodeCount : ℤ) :
    (vcInit VectorClock.zero nodeCount).extend = 0 := by
  rw [vcInit]
  split
  · ext i
    exact extend_of_le (Nat.zero_le i)
  · ext i
    by_cases hi : i < nodeCount.toNat
    · rw [extend_of_lt hi, slot_ofSlots _ _ (by omega), if_pos hi]
      rfl
    · exact extend_of_le (by simpa using hi)

/-- Incrementing raises one component by one, unless that component wraps. -/
theorem extend_vcIncrement {vc : VectorClock} {j : ℕ} (hj : j < vc.nodeCount)
    (hwrap : vc.extend j + 1 < 2 ^ 64) :
    (vcIncrement vc j).extend = Function.update vc.extend j (vc.extend j + 1) := by
  ext i
  by_cases hi : i < vc.nodeCount
  · rw [extend_of_lt (by simpa using hi), slot_vcIncrement vc hj]
    by_cases h : j = i
    · subst h
      rw [if_pos rfl, Function.update_self, UInt64.toNat_add, ← extend_of_lt hi]
      exact Nat.mod_eq_of_lt hwrap
    · rw [if_neg h, Function.update_of_ne (Ne.symm h), extend_of_lt hi]
  · rw [extend_of_le (by simpa using hi), Function.update_of_ne (by omega),
      extend_of_le (by omega)]

/-- Incrementing moves a clock up. -/
theorem extend_lt_extend_vcIncrement {vc : VectorClock} {j : ℕ} (hj : j < vc.nodeCount)
    (hwrap : vc.extend j + 1 < 2 ^ 64) : vc.extend < (vcIncrement vc j).extend := by
  rw [extend_vcIncrement hj hwrap, lt_update_self_iff]
  exact Nat.lt_succ_self _

@[simp] theorem extend_vcCopy (dst src : VectorClock) : (vcCopy dst src).extend = src.extend := by
  ext i
  by_cases hi : i < src.nodeCount
  · rw [extend_of_lt (by simpa using hi), slot_vcCopy dst src hi, extend_of_lt hi]
  · rw [extend_of_le (by simpa using hi), extend_of_le (by omega)]

end LogAgg
