import LogAgg.Loop.Assign
import LogAgg.VectorClock.Json

/-!
# Where the members go

Building the clock is a loop of assignments to its array, and so is decided by the last
assignment to each slot.  With node names, turn `i` of the loop first clears slot `i` and
then assigns to the slot of the member's name (`nameWrites`); the two kinds of assignment
are interleaved, and a component that was assigned before the loop reached its own slot is
cleared again.

The members of a JSON object have no order.  `permutedText` is the text of a clock with its
members in any order, and `vcFromJson_permutedText_iff` says for which orders the clock
comes back: exactly when no component other than zero stands at an earlier position than
its own.
-/

namespace LogAgg

open Ascii VectorClock

/-! ## Placing as assigning -/

theorem slot_setSlot_eq_update (vc : VectorClock) {i : ℕ} (hi : i < vcMaxNodes) (x : UInt64) :
    (vc.setSlot i x).slot = Function.update vc.slot i x := by
  ext1 j
  rw [slot_setSlot vc i j x hi]
  by_cases h : i = j
  · rw [if_pos h, h, Function.update_self]
  · rw [if_neg h, Function.update_of_ne (Ne.symm h)]

/-- The assignments of one turn with node names. -/
def nameWrites (names : ℕ → Option Bytes) (count i : ℕ) (key : Bytes) (value : UInt64) :
    List (ℕ × UInt64) :=
  (i, 0) :: match (List.range count).find? fun j => names j == some key with
    | some j => [(j, value)]
    | none => []

theorem slot_placeByName (names : ℕ → Option Bytes) {count i : ℕ} (vc : VectorClock) (key : Bytes)
    (value : UInt64) (hcount : count ≤ vcMaxNodes) (hi : i < vcMaxNodes) :
    (placeByName names count vc i key value).slot =
      Assign.run (nameWrites names count i key value) vc.slot := by
  unfold placeByName nameWrites
  cases hfind : (List.range count).find? fun j => names j == some key with
  | none => simp [slot_setSlot_eq_update _ hi]
  | some j =>
    have hj : j < vcMaxNodes :=
      lt_of_lt_of_le (List.mem_range.mp (List.mem_of_find?_eq_some hfind)) hcount
    simp [slot_setSlot_eq_update _ hi, slot_setSlot_eq_update _ hj]

/-- The assignments of one turn without node names. -/
def indexWrites (count i : ℕ) (key : Bytes) (value : UInt64) : List (ℕ × UInt64) :=
  if key = ascii "node-" ++ decimal i then [(i, value)]
  else if key.take 5 = ascii "node-" then
    let idx := atoi (key.drop 5)
    if 0 ≤ idx ∧ idx < count then [(idx.toNat, value)] else []
  else []

theorem slot_placeByIndex {count i : ℕ} (vc : VectorClock) (key : Bytes) (value : UInt64)
    (hcount : count ≤ vcMaxNodes) (hi : i < vcMaxNodes) :
    (placeByIndex count vc i key value).slot =
      Assign.run (indexWrites count i key value) vc.slot := by
  unfold placeByIndex indexWrites
  dsimp only
  split
  · exact slot_setSlot_eq_update vc hi value
  · split
    · split
      · exact slot_setSlot_eq_update vc (by omega) value
      · rfl
    · rfl

theorem snd_lt_of_mem_zipIdx {α : Type*} {l : List α} {m : α × ℕ} (h : m ∈ l.zipIdx) :
    m.2 < l.length := by
  obtain ⟨a, i⟩ := m
  simpa using (List.mem_zipIdx h).2.1

/-- **Building the clock is a list of assignments.** -/
theorem slot_placeMembers_some (names : ℕ → Option Bytes) {members : List (Bytes × UInt64)}
    (hlen : members.length ≤ vcMaxNodes) (vc : VectorClock) :
    (placeMembers (some names) members vc).slot =
      Assign.run (members.zipIdx.flatMap fun m =>
        nameWrites names members.length m.2 m.1.1 m.1.2) vc.slot := by
  refine Assign.foldl_eq_run (fun vc m hm => ?_) vc
  exact slot_placeByName names vc _ _ hlen ((snd_lt_of_mem_zipIdx hm).trans_le hlen)

theorem slot_placeMembers_none {members : List (Bytes × UInt64)}
    (hlen : members.length ≤ vcMaxNodes) (vc : VectorClock) :
    (placeMembers none members vc).slot =
      Assign.run (members.zipIdx.flatMap fun m =>
        indexWrites members.length m.2 m.1.1 m.1.2) vc.slot := by
  refine Assign.foldl_eq_run (fun vc m hm => ?_) vc
  exact slot_placeByIndex vc _ _ hlen ((snd_lt_of_mem_zipIdx hm).trans_le hlen)

/-- What an accepted text leaves in the array, with node names. -/
theorem slot_vcFromJson_some (names : ℕ → Option Bytes) {json : Bytes}
    {members : List (Bytes × UInt64)} (h : vcObject json = .ok members) (vc : VectorClock) :
    (vcFromJson vc json (some names)).2.slot =
      Assign.run (members.zipIdx.flatMap fun m =>
        nameWrites names members.length m.2 m.1.1 m.1.2) vc.slot := by
  rw [vcFromJson_of_ok h]
  exact slot_placeMembers_some names (length_vcObject_le h) _

/-- The same without node names. -/
theorem slot_vcFromJson_none {json : Bytes} {members : List (Bytes × UInt64)}
    (h : vcObject json = .ok members) (vc : VectorClock) :
    (vcFromJson vc json none).2.slot =
      Assign.run (members.zipIdx.flatMap fun m =>
        indexWrites members.length m.2 m.1.1 m.1.2) vc.slot := by
  rw [vcFromJson_of_ok h]
  exact slot_placeMembers_none (length_vcObject_le h) _

/-- The node count is the number of members. -/
theorem nodeCount_vcFromJson {nodeNames : Option (ℕ → Option Bytes)} {json : Bytes}
    {members : List (Bytes × UInt64)} (h : vcObject json = .ok members) (vc : VectorClock) :
    (vcFromJson vc json nodeNames).2.nodeCount = members.length := by
  rw [vcFromJson_of_ok h, nodeCount_placeMembers]

theorem zipIdx_map_range {α : Type*} (f : ℕ → α) (n : ℕ) :
    ((List.range n).map f).zipIdx = (List.range n).map fun p => (f p, p) := by
  refine List.ext_getElem (by simp) fun p h₁ h₂ => ?_
  simp

/-- Clearing slot `q` and assigning component `comp q`, position after position: a component
lasts unless its own slot is cleared later. -/
theorem run_clear_and_assign {comp : ℕ → ℕ} {n p : ℕ} (hp : p < n) (hcomp : comp p < n)
    (hinj : ∀ q, q < n → comp q = comp p → q = p) (value : ℕ → UInt64) (f : ℕ → UInt64) :
    Assign.run ((List.range n).flatMap fun q => [(q, 0), (comp q, value (comp q))]) f (comp p) =
      if p < comp p then 0 else value (comp p) := by
  have hsplit : ∀ m, m < n → (List.range n).flatMap (fun q => [(q, 0), (comp q, value (comp q))]) =
      (List.range m).flatMap (fun q => [(q, 0), (comp q, value (comp q))]) ++
        (m, 0) :: (comp m, value (comp m)) ::
          (List.range' (m + 1) (n - (m + 1))).flatMap
            fun q => [(q, 0), (comp q, value (comp q))] := by
    intro m hm
    have hrange : List.range n = List.range m ++ m :: List.range' (m + 1) (n - (m + 1)) := by
      have happend := @List.range'_append_1 0 m (n - (m + 1) + 1)
      rw [Nat.zero_add, show m + (n - (m + 1) + 1) = n by omega, List.range'_succ] at happend
      rw [List.range_eq_range', List.range_eq_range', happend]
    rw [hrange, List.flatMap_append, List.flatMap_cons]
    rfl
  -- behind position `m`, neither kind of assignment meets the slot
  have hlater : ∀ m, p ≤ m → comp p ≤ m → ∀ w ∈ (List.range' (m + 1) (n - (m + 1))).flatMap
      (fun q => [(q, (0 : UInt64)), (comp q, value (comp q))]), w.1 ≠ comp p := by
    intro m hpm hm w hw
    obtain ⟨q, hq, hw⟩ := List.mem_flatMap.mp hw
    rw [List.mem_range'_1] at hq
    rw [List.mem_cons, List.mem_singleton] at hw
    rcases hw with rfl | rfl
    · show q ≠ comp p
      omega
    · intro heq
      have := hinj q (by omega) heq
      omega
  by_cases h : p < comp p
  · rw [if_pos h, hsplit (comp p) hcomp]
    refine Assign.run_append_cons (fun w hw => ?_) f
    rcases List.mem_cons.mp hw with rfl | hw
    · intro heq
      have := hinj (comp p) hcomp heq
      omega
    · exact hlater (comp p) h.le le_rfl w hw
  · rw [if_neg h, hsplit p hp, ← List.singleton_append, ← List.append_assoc]
    exact Assign.run_append_cons (hlater p le_rfl (by omega)) f

/-! ## Node names -/

/-- An array of `n` distinct node names that print and read as they stand. -/
structure NodeNames (n : ℕ) where
  /-- The names, each shorter than 64 characters. -/
  name : Fin n → CStr 63
  /-- They differ. -/
  injective : Function.Injective name
  /-- None needs an escape. -/
  plain : ∀ i, ∀ c ∈ (name i).bytes, c ≠ quote ∧ c ≠ backslash

namespace NodeNames

variable {n : ℕ} (names : NodeNames n)

/-- The array `node_names`. -/
def table (i : ℕ) : Option Bytes := if h : i < n then some (names.name ⟨i, h⟩).bytes else none

theorem table_of_lt {i : ℕ} (h : i < n) : names.table i = some (names.name ⟨i, h⟩).bytes :=
  dif_pos h

theorem nodeName_table (i : Fin n) : nodeName (some names.table) i = (names.name i).bytes := by
  rw [nodeName, Option.bind_some, names.table_of_lt i.isLt, Option.getD_some]

/-- The search for a name finds the component it belongs to. -/
theorem find?_table (i : Fin n) :
    ((List.range n).find? fun j => names.table j == some (names.name i).bytes) = some i.val := by
  cases hfind : (List.range n).find? fun j => names.table j == some (names.name i).bytes with
  | none =>
    have hnot := List.find?_eq_none.mp hfind i.val (List.mem_range.mpr i.isLt)
    rw [names.table_of_lt i.isLt, beq_self_eq_true] at hnot
    exact absurd rfl hnot
  | some j =>
    have hj := List.mem_range.mp (List.mem_of_find?_eq_some hfind)
    have hname := List.find?_some hfind
    rw [names.table_of_lt hj, beq_iff_eq, Option.some_inj] at hname
    rw [← names.injective (CStr.ext hname)]

end NodeNames

/-! ## Members in any order -/

/-- The text of a clock with the member of component `σ p` at position `p`. -/
def permutedText (vc : VectorClock) (nodeNames : Option (ℕ → Option Bytes))
    (σ : Equiv.Perm (Fin vc.nodeCount)) : Bytes :=
  lbrace :: ((List.finRange vc.nodeCount).flatMap
    (fun p => (if 0 < p.val then [comma] else []) ++ vcMember vc nodeNames (σ p)) ++ [rbrace])

/-- In the order of the components this is what `vc_to_json` prints. -/
theorem permutedText_one (vc : VectorClock) (nodeNames : Option (ℕ → Option Bytes)) :
    permutedText vc nodeNames 1 = vcText vc nodeNames := by
  rw [permutedText, vcText, ← List.map_coe_finRange_eq_range, List.flatMap_map]
  rfl

section

variable (vc target : VectorClock) (names : NodeNames vc.nodeCount)
  (σ : Equiv.Perm (Fin vc.nodeCount))

/-- The component at position `p`. -/
def permutedIndex (p : ℕ) : ℕ := if h : p < vc.nodeCount then σ ⟨p, h⟩ else p

theorem permutedIndex_of_lt {p : ℕ} (hp : p < vc.nodeCount) :
    permutedIndex vc σ p = σ ⟨p, hp⟩ := dif_pos hp

/-- **Every order is accepted**, and read as it is written. -/
theorem vcObject_permutedText :
    vcObject (permutedText vc (some names.table) σ) = .ok ((List.range vc.nodeCount).map fun p =>
      (nodeName (some names.table) (permutedIndex vc σ p), vc.slot (permutedIndex vc σ p))) := by
  have htext : permutedText vc (some names.table) σ =
      lbrace :: ((List.range vc.nodeCount).flatMap (fun p => (if 0 < p then [comma] else []) ++
        vcMember vc (some names.table) (permutedIndex vc σ p)) ++ [rbrace]) := by
    rw [permutedText, ← List.map_coe_finRange_eq_range, List.flatMap_map]
    simp only [permutedIndex_of_lt vc σ (Fin.isLt _)]
  rw [htext]
  refine vcObject_items vc.nodeCount_le (fun p => ⟨_, rfl⟩) fun p hp rest hrest => ?_
  have hname := names.nodeName_table (σ ⟨p, hp⟩)
  have hlen := (names.name (σ ⟨p, hp⟩)).length_le
  rw [permutedIndex_of_lt vc σ hp]
  exact vcReadMember_vcMember vc (by rw [hname]; omega) (by rw [hname]; exact names.plain _) hrest

/-- What a clock read from any order of the members holds. -/
theorem slot_vcFromJson_permutedText (p : Fin vc.nodeCount) :
    (vcFromJson target (permutedText vc (some names.table) σ) (some names.table)).2.slot (σ p) =
      if p < σ p then 0 else vc.slot (σ p) := by
  have hlt : ∀ q, q < vc.nodeCount → permutedIndex vc σ q < vc.nodeCount := by
    intro q hq
    rw [permutedIndex_of_lt vc σ hq]
    exact Fin.isLt _
  have hp := permutedIndex_of_lt vc σ p.isLt
  rw [slot_vcFromJson_some _ (vcObject_permutedText vc names σ), zipIdx_map_range,
    List.flatMap_map, List.length_map, List.length_range]
  have hwrites : ∀ q ∈ List.range vc.nodeCount,
      nameWrites names.table vc.nodeCount q
        (nodeName (some names.table) (permutedIndex vc σ q)) (vc.slot (permutedIndex vc σ q)) =
        [(q, 0), (permutedIndex vc σ q, vc.slot (permutedIndex vc σ q))] := by
    intro q hq
    have hname := names.nodeName_table ⟨_, hlt q (List.mem_range.mp hq)⟩
    have hfind := names.find?_table ⟨_, hlt q (List.mem_range.mp hq)⟩
    rw [← hname] at hfind
    rw [nameWrites, hfind]
  rw [List.flatMap_congr hwrites, ← hp]
  refine (run_clear_and_assign p.isLt (hlt p p.isLt) (fun q hq heq => ?_) vc.slot _).trans ?_
  · rw [permutedIndex_of_lt vc σ hq, hp] at heq
    exact congrArg Fin.val (σ.injective (Fin.ext heq))
  · rw [hp]
    rfl

/-- **Which orders of the members bring the clock back.**  With node names, every order is
accepted; all components come back exactly when each component that stands at an earlier
position than its own is zero. -/
theorem vcFromJson_permutedText_iff :
    ((vcFromJson target (permutedText vc (some names.table) σ) (some names.table)).1 = 0 ∧
      (vcFromJson target (permutedText vc (some names.table) σ) (some names.table)).2.nodeCount =
        vc.nodeCount ∧
      ∀ k, k < vc.nodeCount →
        (vcFromJson target (permutedText vc (some names.table) σ) (some names.table)).2.slot k =
          vc.slot k) ↔
      ∀ p, p < σ p → vc.slot (σ p) = 0 := by
  have hslot := slot_vcFromJson_permutedText vc target names σ
  constructor
  · rintro ⟨-, -, h⟩ p hp
    rw [← h (σ p) (σ p).isLt, hslot p, if_pos hp]
  · intro h
    have hread := vcObject_permutedText vc names σ
    refine ⟨by rw [vcFromJson_of_ok hread], ?_, fun k hk => ?_⟩
    · rw [nodeCount_vcFromJson hread, List.length_map, List.length_range]
    · have hk' := hslot (σ.symm ⟨k, hk⟩)
      have hzero := h (σ.symm ⟨k, hk⟩)
      rw [Equiv.apply_symm_apply] at hk' hzero
      rw [hk']
      split
      · rename_i hlt
        exact (hzero hlt).symm
      · rfl

end

/-- The clock `[5, 7]`. -/
def sampleClock : VectorClock := ofSlots 2 (by decide) fun i => 5 + 2 * i.toUInt64

/-- The names `a` and `b`. -/
def sampleNames : NodeNames sampleClock.nodeCount where
  name i := CStr.ofBytes [97 + i.val.toUInt8]
  injective := by decide
  plain := by decide +kernel

/-- The clock `[5, 7]`, printed with its second member first, comes back as `[5, 0]`. -/
theorem vcFromJson_permutedText_swap :
    (vcFromJson VectorClock.zero
      (permutedText sampleClock (some sampleNames.table) (Equiv.swap (0 : Fin 2) (1 : Fin 2)))
      (some sampleNames.table)).1 = 0 ∧
    (vcFromJson VectorClock.zero
      (permutedText sampleClock (some sampleNames.table) (Equiv.swap (0 : Fin 2) (1 : Fin 2)))
      (some sampleNames.table)).2.slot 1 = 0 ∧
    sampleClock.slot 1 = 7 := by
  decide +kernel

end LogAgg
