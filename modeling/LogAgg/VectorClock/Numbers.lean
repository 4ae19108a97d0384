import LogAgg.VectorClock.Accepted
import LogAgg.VectorClock.Meaning

/-!
# The numbers of a clock

`parse_json_number` computes `value * 10 + digit` in 64 bits and never looks at how many
digits it has passed.  `ClockSpells` reads an accepted text as its members, each a name and
the digits of its value; what the loop collects for a member is the value of the digits
modulo `2^64` (`vcObject_eq_ok_iff`), and that is what the slot holds in the end, if no later
member changes it (`toNat_slot_vcFromJson`).
-/

namespace LogAgg

open Ascii VectorClock

/-! ## Members and their digits -/

/-- `ClockRuns room s runs`: at `s` the loop finds the members `runs`, each a name and the
digits of a value, no more of them than `room`, and a closing brace. -/
inductive ClockRuns : ℕ → Bytes → List (Bytes × Bytes) → Prop where
  | close (room : ℕ) (s : Bytes) : ClockRuns room (rbrace :: s) []
  | member {room : ℕ} {key name w w' digits sep rest : Bytes} {runs : List (Bytes × Bytes)}
      (hkey : Units vcUnescape key name) (hname : name.length ≤ 63) (hw : Spaces w)
      (hw' : Spaces w') (hne : digits ≠ []) (hdigits : ∀ c ∈ digits, isdigit c = true)
      (hsep : Separator sep) (hrest : ClockRuns room rest runs) :
      ClockRuns (room + 1)
        (quote :: (key ++ quote :: (w ++ colon :: (w' ++ (digits ++ (sep ++ rest))))))
        ((name, digits) :: runs)

/-- A text that `vc_from_json` accepts, and its members. -/
def ClockSpells (json : Bytes) (runs : List (Bytes × Bytes)) : Prop :=
  ∃ w w' s, Spaces w ∧ Spaces w' ∧ ClockRuns vcMaxNodes s runs ∧ json = w ++ lbrace :: (w' ++ s)

/-- The member that is collected for a name and some digits. -/
def wrappedMember (run : Bytes × Bytes) : Bytes × UInt64 :=
  (run.1, UInt64.ofNat (digitsValue run.2))

theorem ClockRuns.clockMembers {room : ℕ} {s : Bytes} {runs : List (Bytes × Bytes)}
    (h : ClockRuns room s runs) : ClockMembers room s := by
  induction h with
  | close room s => exact .close room s
  | member hkey hname hw hw' hne hdigits hsep hrest ih =>
    exact .member hkey hname hw hw' hne hdigits hsep ih

/-- The digits of a value end where the separator starts. -/
theorem ClockMembers.isdigit_head {room : ℕ} {sep rest : Bytes} (h : ClockMembers room rest)
    (hsep : Separator sep) : ∀ c, (sep ++ rest).head? = some c → isdigit c = false := by
  intro c hc
  obtain ⟨d, t, rfl, hd⟩ := h.head
  exact hsep.isdigit_head (by rcases hd with rfl | rfl <;> decide) hc

/-- **The members of a text** are collected with the values of their digits, modulo `2^64`. -/
theorem ClockRuns.vcMembers {room : ℕ} {s : Bytes} {runs : List (Bytes × Bytes)}
    (h : ClockRuns room s runs) : vcMembers room s = .ok (runs.map wrappedMember) := by
  induction h with
  | close room s => exact vcMembers_rbrace room s
  | @member room key name w w' digits sep rest runs hkey hname hw hw' hne hdigits hsep hrest ih =>
    have hhead := hrest.clockMembers.isdigit_head hsep
    rw [vcMembers_cons (by decide), vcReadMember_of_text hkey hname hw hw' hne hdigits hhead,
      scanDigits_digits hdigits hhead]
    show (LogAgg.vcMembers room (skipComma (sep ++ rest)) >>= _) = _
    rw [hrest.clockMembers.skip hsep, ih]
    rfl

/-- Whatever is accepted spells some members. -/
theorem ClockMembers.exists_clockRuns {room : ℕ} {s : Bytes} (h : ClockMembers room s) :
    ∃ runs, ClockRuns room s runs := by
  induction h with
  | close room s => exact ⟨[], .close room s⟩
  | member hkey hname hw hw' hne hdigits hsep _ ih =>
    obtain ⟨runs, hruns⟩ := ih
    exact ⟨_, .member hkey hname hw hw' hne hdigits hsep hruns⟩

theorem clockText_iff_exists_clockSpells {json : Bytes} :
    ClockText json ↔ ∃ runs, ClockSpells json runs := by
  constructor
  · rintro ⟨w, w', s, hw, hw', hmembers, rfl⟩
    obtain ⟨runs, hruns⟩ := hmembers.exists_clockRuns
    exact ⟨runs, w, w', s, hw, hw', hruns, rfl⟩
  · rintro ⟨runs, w, w', s, hw, hw', hruns, rfl⟩
    exact ⟨w, w', s, hw, hw', hruns.clockMembers, rfl⟩

/-- What `vc_from_json` collects before it touches its target. -/
theorem ClockSpells.vcObject {json : Bytes} {runs : List (Bytes × Bytes)}
    (h : ClockSpells json runs) : vcObject json = .ok (runs.map wrappedMember) := by
  obtain ⟨w, w', s, hw, hw', hruns, rfl⟩ := h
  have hmembers := hruns.vcMembers
  obtain ⟨c, t, rfl, hc⟩ := hruns.clockMembers.head
  have hspace : isspace c = false := by rcases hc with rfl | rfl <;> decide
  rw [LogAgg.vcObject, skipWhitespace_append_cons hw (by rfl), expect_self]
  show LogAgg.vcMembers vcMaxNodes (skipWhitespace _) = _
  rw [skipWhitespace_append_cons hw' hspace, hmembers]

/-! ## Where a member is stored -/

/-- The slot that the member at position `i` of `count` is stored in, if there is one. -/
def memberSlot (nodeNames : Option (ℕ → Option Bytes)) (count i : ℕ) (key : Bytes) : Option ℕ :=
  match nodeNames with
  | some names => (List.range count).find? fun j => names j == some key
  | none =>
      if key = ascii "node-" ++ decimal i then some i
      else if key.take 5 = ascii "node-" then
        let idx := atoi (key.drop 5)
        if 0 ≤ idx ∧ idx < count then some idx.toNat else none
      else none

/-- The assignments of one turn: with node names, slot `i` is cleared first. -/
def memberWrites (nodeNames : Option (ℕ → Option Bytes)) (count i : ℕ) (key : Bytes)
    (value : UInt64) : List (ℕ × UInt64) :=
  (if nodeNames.isSome then [(i, 0)] else []) ++
    (memberSlot nodeNames count i key).toList.map fun j => (j, value)

theorem memberWrites_some (names : ℕ → Option Bytes) (count i : ℕ) (key : Bytes)
    (value : UInt64) :
    memberWrites (some names) count i key value = nameWrites names count i key value := by
  unfold memberWrites nameWrites memberSlot
  dsimp only
  cases (List.range count).find? fun j => names j == some key with
  | none => rfl
  | some j => rfl

theorem memberWrites_none (count i : ℕ) (key : Bytes) (value : UInt64) :
    memberWrites none count i key value = indexWrites count i key value := by
  unfold memberWrites indexWrites memberSlot
  rw [if_neg (by decide), List.nil_append]
  dsimp only
  split_ifs <;> rfl

/-- What an accepted text leaves in the array, with node names or without. -/
theorem slot_vcFromJson {json : Bytes} {members : List (Bytes × UInt64)}
    (h : vcObject json = .ok members) (vc : VectorClock)
    (nodeNames : Option (ℕ → Option Bytes)) :
    (vcFromJson vc json nodeNames).2.slot =
      Assign.run (members.zipIdx.flatMap fun m =>
        memberWrites nodeNames members.length m.2 m.1.1 m.1.2) vc.slot := by
  cases nodeNames with
  | none =>
    simp only [memberWrites_none]
    exact slot_vcFromJson_none h vc
  | some names =>
    simp only [memberWrites_some]
    exact slot_vcFromJson_some names h vc

/-- The member `m` of the text is stored in slot `j`, and no later member changes the slot. -/
structure StoredLast (nodeNames : Option (ℕ → Option Bytes)) (runs : List (Bytes × Bytes))
    (m : (Bytes × Bytes) × ℕ) (j : ℕ) : Prop where
  mem : m ∈ runs.zipIdx
  memberSlot : memberSlot nodeNames runs.length m.2 m.1.1 = some j
  kept : ∀ later ∈ runs.zipIdx, m.2 < later.2 →
    LogAgg.memberSlot nodeNames runs.length later.2 later.1.1 ≠ some j ∧
      (nodeNames.isSome → later.2 ≠ j)

/-- Behind a member stand members with larger positions. -/
theorem lt_of_zipIdx_eq {α : Type*} {l : List α} {before after : List (α × ℕ)} {m : α × ℕ}
    (h : l.zipIdx = before ++ m :: after) {later : α × ℕ} (hlater : later ∈ after) :
    m.2 < later.2 := by
  have hpairwise : (l.zipIdx.map Prod.snd).Pairwise (· < ·) := by
    rw [List.zipIdx_map_snd]
    exact List.pairwise_lt_range'
  rw [h, List.map_append, List.map_cons, List.pairwise_append, List.pairwise_cons] at hpairwise
  exact hpairwise.2.1.1 _ (List.mem_map_of_mem hlater)

/-- **What a member leaves in the array**: the value of its digits, modulo `2^64`. -/
theorem slot_of_storedLast {json : Bytes} {runs : List (Bytes × Bytes)}
    (hjson : ClockSpells json runs) {nodeNames : Option (ℕ → Option Bytes)}
    {m : (Bytes × Bytes) × ℕ} {j : ℕ} (h : StoredLast nodeNames runs m j) (vc : VectorClock) :
    (vcFromJson vc json nodeNames).2.slot j = UInt64.ofNat (digitsValue m.1.2) := by
  obtain ⟨before, after, hsplit⟩ := List.append_of_mem h.mem
  rw [slot_vcFromJson hjson.vcObject, List.zipIdx_map, List.flatMap_map, List.length_map, hsplit,
    List.flatMap_append, List.flatMap_cons]
  have hwrites : memberWrites nodeNames runs.length m.2 m.1.1 (wrappedMember m.1).2 =
      (if nodeNames.isSome then [(m.2, 0)] else []) ++ [(j, UInt64.ofNat (digitsValue m.1.2))] := by
    rw [memberWrites, h.memberSlot]
    rfl
  have hafter : ∀ w ∈ after.flatMap fun later =>
      memberWrites nodeNames runs.length later.2 later.1.1 (wrappedMember later.1).2,
      w.1 ≠ j := by
    intro w hw
    obtain ⟨later, hlater, hw⟩ := List.mem_flatMap.mp hw
    have hmem : later ∈ runs.zipIdx := by
      rw [hsplit]
      exact List.mem_append_right _ (List.mem_cons_of_mem m hlater)
    obtain ⟨hslot, hclear⟩ := h.kept later hmem (lt_of_zipIdx_eq hsplit hlater)
    rcases List.mem_append.mp hw with hw | hw
    · -- the slot is not the one that is cleared
      split at hw
      · rename_i hnames
        rw [List.mem_singleton] at hw
        rw [hw]
        exact hclear hnames
      · exact absurd hw List.not_mem_nil
    · -- nor the one that the later member is stored in
      obtain ⟨i, hi, rfl⟩ := List.mem_map.mp hw
      rintro rfl
      exact hslot (Option.mem_toList.mp hi)
  have hshape : ∀ first clears writes : List (ℕ × UInt64),
      first ++ ((clears ++ [(j, UInt64.ofNat (digitsValue m.1.2))]) ++ writes) =
        (first ++ clears) ++ (j, UInt64.ofNat (digitsValue m.1.2)) :: writes := by
    intro first clears writes
    simp
  show Assign.run (_ ++ (memberWrites nodeNames runs.length m.2 m.1.1 (wrappedMember m.1).2 ++ _))
    vc.slot j = _
  rw [hwrites, hshape]
  exact Assign.run_append_cons hafter vc.slot

/-- A number survives 64 bits exactly when it is below `2^64`. -/
theorem toNat_ofNat_eq_iff (n : ℕ) : (UInt64.ofNat n).toNat = n ↔ n < 2 ^ 64 := by
  rw [UInt64.toNat_ofNat']
  exact Nat.mod_eq_iff_lt (by decide)

end LogAgg
