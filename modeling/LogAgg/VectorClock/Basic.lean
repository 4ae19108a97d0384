import Mathlib

/-!
# Vector clocks

The clock operations of `vector_clock.c`.  A clock is a fixed array of
`VC_MAX_NODES` unsigned 64-bit components of which the first `nodeCount` are in
use; the components at or above `nodeCount` are whatever the memory held before,
and `vc_init` and `vc_copy` leave them alone.  The bound on `nodeCount` is a field,
so no operation can build a clock that reads past its array.
-/

namespace LogAgg

/-- `VC_MAX_NODES`. -/
def vcMaxNodes : ℕ := 32

theorem one_le_vcMaxNodes : 1 ≤ vcMaxNodes := by decide

theorem two_le_vcMaxNodes : 2 ≤ vcMaxNodes := by decide

/-- The answers of `vc_compare`. -/
inductive VcRelation where
  | equal
  | happensBefore
  | happensAfter
  | concurrent
  deriving DecidableEq, Repr

/-- `vector_clock_t`. -/
@[ext]
structure VectorClock where
  /-- The number of nodes in use. -/
  nodeCount : ℕ
  /-- One logical clock per node, used or not. -/
  clocks : Vector UInt64 vcMaxNodes
  /-- The array has room for the nodes in use. -/
  nodeCount_le : nodeCount ≤ vcMaxNodes
  deriving DecidableEq

namespace VectorClock

/-- The array slot `clocks[i]`, used or not. -/
def slot (vc : VectorClock) (i : ℕ) : UInt64 := vc.clocks[i]?.getD 0

/-- The assignment `clocks[i] = x`. -/
def setSlot (vc : VectorClock) (i : ℕ) (x : UInt64) : VectorClock :=
  { vc with clocks := vc.clocks.setIfInBounds i x }

/-- The clock whose slots are given by a function. -/
def ofSlots (n : ℕ) (hn : n ≤ vcMaxNodes) (f : ℕ → UInt64) : VectorClock :=
  ⟨n, Vector.ofFn fun i => f i, hn⟩

@[simp] theorem nodeCount_setSlot (vc : VectorClock) (i : ℕ) (x : UInt64) :
    (vc.setSlot i x).nodeCount = vc.nodeCount := rfl

@[simp] theorem nodeCount_ofSlots (n : ℕ) (hn : n ≤ vcMaxNodes) (f : ℕ → UInt64) :
    (ofSlots n hn f).nodeCount = n := rfl

theorem slot_setSlot (vc : VectorClock) (i j : ℕ) (x : UInt64) (hi : i < vcMaxNodes) :
    (vc.setSlot i x).slot j = if i = j then x else vc.slot j := by
  unfold slot setSlot
  rw [Vector.getElem?_setIfInBounds]
  by_cases h : i = j
  · subst h
    simp [hi]
  · simp [h]

theorem slot_ofSlots {n : ℕ} (hn : n ≤ vcMaxNodes) (f : ℕ → UInt64) {i : ℕ}
    (hi : i < vcMaxNodes) : (ofSlots n hn f).slot i = f i := by
  simp [slot, ofSlots, hi]

/-- The clock a `memset` to zero leaves. -/
def zero : VectorClock := ⟨0, Vector.replicate vcMaxNodes 0, Nat.zero_le _⟩

@[simp] theorem nodeCount_zero : zero.nodeCount = 0 := rfl

@[simp] theorem slot_zero (i : ℕ) : zero.slot i = 0 := by
  rw [slot, zero]
  by_cases hi : i < vcMaxNodes
  · simp [hi]
  · rw [Vector.getElem?_eq_none (by omega), Option.getD_none]

end VectorClock

/-! ## The operations -/

/-- `vc_init`.  An unusable node count clears the whole array; a usable one clears
the slots in use only. -/
def vcInit (vc : VectorClock) (nodeCount : ℤ) : VectorClock :=
  if h : nodeCount ≤ 0 ∨ (vcMaxNodes : ℤ) < nodeCount then
    VectorClock.zero
  else
    VectorClock.ofSlots nodeCount.toNat (by omega)
      fun i => if i < nodeCount.toNat then 0 else vc.slot i

/-- `vc_increment`.  The component is a `uint64_t` and wraps; an index out of range
is ignored. -/
def vcIncrement (vc : VectorClock) (nodeId : ℤ) : VectorClock :=
  if nodeId < 0 ∨ (vc.nodeCount : ℤ) ≤ nodeId then
    vc
  else
    vc.setSlot nodeId.toNat (vc.slot nodeId.toNat + 1)

/-- `vc_merge`, over the smaller of the two node counts. -/
def vcMerge (dst src : VectorClock) : VectorClock :=
  let count := if dst.nodeCount < src.nodeCount then dst.nodeCount else src.nodeCount
  VectorClock.ofSlots dst.nodeCount dst.nodeCount_le
    fun i => if i < count ∧ dst.slot i < src.slot i then src.slot i else dst.slot i

/-- `vc_compare`.  The two flags start true; the common components and then the extra
components of the longer clock look for a counterexample to each. -/
def vcCompare (a b : VectorClock) : VcRelation :=
  let count := if a.nodeCount < b.nodeCount then a.nodeCount else b.nodeCount
  let aLeB := (List.range count).all (fun i => !decide (b.slot i < a.slot i)) &&
    (List.range' count (a.nodeCount - count)).all (fun i => !decide (0 < a.slot i))
  let bLeA := (List.range count).all (fun i => !decide (a.slot i < b.slot i)) &&
    (List.range' count (b.nodeCount - count)).all (fun i => !decide (0 < b.slot i))
  if aLeB && bLeA then .equal
  else if bLeA then .happensAfter
  else if aLeB then .happensBefore
  else .concurrent

/-- `vc_copy`: the node count and the slots in use; the target keeps its others. -/
def vcCopy (dst src : VectorClock) : VectorClock :=
  VectorClock.ofSlots src.nodeCount src.nodeCount_le
    fun i => if i < src.nodeCount then src.slot i else dst.slot i

/-! ## What the operations do to the node count and the slots -/

theorem nodeCount_vcInit (vc : VectorClock) {n : ℕ} (hpos : 1 ≤ n) (hle : n ≤ vcMaxNodes) :
    (vcInit vc n).nodeCount = n := by
  rw [vcInit, dif_neg (by omega), VectorClock.nodeCount_ofSlots, Int.toNat_natCast]

theorem slot_vcInit (vc : VectorClock) {n i : ℕ} (hpos : 1 ≤ n) (hle : n ≤ vcMaxNodes)
    (hi : i < n) : (vcInit vc n).slot i = 0 := by
  rw [vcInit, dif_neg (by omega), VectorClock.slot_ofSlots _ _ (by omega), Int.toNat_natCast,
    if_pos hi]

@[simp] theorem nodeCount_vcIncrement (vc : VectorClock) (nodeId : ℤ) :
    (vcIncrement vc nodeId).nodeCount = vc.nodeCount := by
  unfold vcIncrement
  split <;> rfl

theorem slot_vcIncrement (vc : VectorClock) {j : ℕ} (hj : j < vc.nodeCount) (i : ℕ) :
    (vcIncrement vc j).slot i = if j = i then vc.slot i + 1 else vc.slot i := by
  have hle := vc.nodeCount_le
  rw [vcIncrement, if_neg (by omega), Int.toNat_natCast, VectorClock.slot_setSlot _ _ _ _ (by omega)]
  by_cases h : j = i
  · rw [if_pos h, if_pos h, h]
  · rw [if_neg h, if_neg h]

/-- The other components stay. -/
theorem slot_vcIncrement_of_ne (vc : VectorClock) {nodeId : ℤ} {i : ℕ} (hi : (i : ℤ) ≠ nodeId) :
    (vcIncrement vc nodeId).slot i = vc.slot i := by
  by_cases ho : nodeId < 0 ∨ (vc.nodeCount : ℤ) ≤ nodeId
  · rw [vcIncrement, if_pos ho]
  · obtain ⟨j, rfl⟩ := Int.eq_ofNat_of_zero_le (not_lt.mp fun h => ho (Or.inl h))
    have hj : j < vc.nodeCount := by
      have := fun h => ho (Or.inr h)
      omega
    rw [slot_vcIncrement vc hj, if_neg fun h => hi (by rw [h])]

@[simp] theorem nodeCount_vcMerge (dst src : VectorClock) :
    (vcMerge dst src).nodeCount = dst.nodeCount := by
  rw [vcMerge, VectorClock.nodeCount_ofSlots]

theorem slot_vcMerge (dst src : VectorClock) {i : ℕ} (hi : i < vcMaxNodes) :
    (vcMerge dst src).slot i =
      if i < min dst.nodeCount src.nodeCount ∧ dst.slot i < src.slot i then src.slot i
      else dst.slot i := by
  have hcount : (if dst.nodeCount < src.nodeCount then dst.nodeCount else src.nodeCount) =
      min dst.nodeCount src.nodeCount := by
    split <;> omega
  rw [vcMerge, hcount, VectorClock.slot_ofSlots _ _ hi]

@[simp] theorem nodeCount_vcCopy (dst src : VectorClock) :
    (vcCopy dst src).nodeCount = src.nodeCount := by
  rw [vcCopy, VectorClock.nodeCount_ofSlots]

theorem slot_vcCopy (dst src : VectorClock) {i : ℕ} (hi : i < src.nodeCount) :
    (vcCopy dst src).slot i = src.slot i := by
  have hle := src.nodeCount_le
  rw [vcCopy, VectorClock.slot_ofSlots _ _ (by omega), if_pos hi]

end LogAgg
