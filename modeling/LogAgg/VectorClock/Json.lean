import LogAgg.CString.Quoted
import LogAgg.VectorClock.Basic

/-!
# Clocks as JSON

`vc_to_json` and `vc_from_json`.  The writer is a chain of checked `snprintf`s, which
`vcToJson_eq` turns into one length test against `vcText`.  The reader collects up to
`VC_MAX_NODES` members and only then touches its target, so a rejected text leaves the
target alone; the members are placed by name, by the position they stand at, or by the
number behind `node-`.

`vcFromJson_vcToJson` is the round trip without node names: whatever the target held and
however large the buffer was, the node count and the components in use come back.
-/

namespace LogAgg

open Ascii VectorClock

/-! ## Writing -/

/-- The name under which component `i` is printed. -/
def nodeName (nodeNames : Option (ℕ → Option Bytes)) (i : ℕ) : Bytes :=
  ((nodeNames.bind fun names => names i).getD (ascii "node-" ++ decimal i))

/-- One member, `"name":value`. -/
def vcMember (vc : VectorClock) (nodeNames : Option (ℕ → Option Bytes)) (i : ℕ) : Bytes :=
  quote :: (nodeName nodeNames i ++ quote :: colon :: decimal (vc.slot i).toNat)

/-- `vc_to_json`: the text written into a buffer of `buflen` bytes, or `none` for `-1`. -/
def vcToJson (vc : VectorClock) (nodeNames : Option (ℕ → Option Bytes)) (buflen : ℕ) :
    Option Bytes := do
  let out ← emit buflen [] [lbrace]
  let out ← (List.range vc.nodeCount).foldlM (fun out i => do
    let out ← if 0 < i then emit buflen out [comma] else some out
    emit buflen out (vcMember vc nodeNames i)) out
  emit buflen out [rbrace]

/-- A member and the comma before it. -/
def vcItem (vc : VectorClock) (nodeNames : Option (ℕ → Option Bytes)) (i : ℕ) : Bytes :=
  (if 0 < i then [comma] else []) ++ vcMember vc nodeNames i

/-- The whole text of a clock. -/
def vcText (vc : VectorClock) (nodeNames : Option (ℕ → Option Bytes)) : Bytes :=
  lbrace :: ((List.range vc.nodeCount).flatMap (vcItem vc nodeNames) ++ [rbrace])

/-- **The writer is one length test.** -/
theorem vcToJson_eq (vc : VectorClock) (nodeNames : Option (ℕ → Option Bytes)) (buflen : ℕ) :
    vcToJson vc nodeNames buflen = emit buflen [] (vcText vc nodeNames) := by
  have hitem : (fun (out : Bytes) (i : ℕ) => do
      let out ← if 0 < i then emit buflen out [comma] else some out
      emit buflen out (vcMember vc nodeNames i)) =
      fun out i => emit buflen out (vcItem vc nodeNames i) := by
    funext out i
    unfold vcItem
    by_cases hi : 0 < i
    · rw [if_pos hi, if_pos hi]
      exact emit_bind _ _ _ _
    · rw [if_neg hi, if_neg hi]
      rfl
  unfold vcToJson
  rw [hitem, ← bind_assoc, emit_bind_foldlM, emit_bind]
  rfl

/-! ## Reading -/

/-- The escapes of `parse_json_string`. -/
def vcUnescape (c : UInt8) : Option UInt8 :=
  if c = quote then some quote
  else if c = backslash then some backslash
  else if c = 110 then some newline
  else if c = 116 then some tab
  else none

/-- `parse_json_string`. -/
def parseJsonString (s : Bytes) (buflen : ℕ) : Except ScanError (Bytes × Bytes) := do
  let s ← expect quote (skipWhitespace s)
  scanQuoted vcUnescape .reject (buflen - 1) s

/-- `parse_json_number`: at least one digit. -/
def parseJsonNumber (s : Bytes) : Except ScanError (UInt64 × Bytes) :=
  match skipWhitespace s with
  | [] => .error .reject
  | c :: s => if isdigit c then .ok (scanDigits 0 (c :: s)) else .error .reject

/-- The loop of `vc_from_json` over the members, with room for `room` more. -/
def vcMembers : ℕ → Bytes → Except ScanError (List (Bytes × UInt64))
  | _, [] => .error .reject
  | 0, c :: _ => if c = rbrace then .ok [] else .error .reject
  | room + 1, c :: s =>
      if c = rbrace then .ok []
      else do
        let (key, s) ← parseJsonString (c :: s) 64
        let s ← expect colon (skipWhitespace s)
        let (value, s) ← parseJsonNumber (skipWhitespace s)
        let members ← vcMembers room (skipComma s)
        return (key, value) :: members

/-- No more members are collected than there is room for. -/
theorem length_vcMembers_le {room : ℕ} {s : Bytes} {members : List (Bytes × UInt64)}
    (h : vcMembers room s = .ok members) : members.length ≤ room := by
  induction room generalizing s members with
  | zero =>
    cases s with
    | nil => exact absurd h (by simp [vcMembers])
    | cons c s =>
      rw [vcMembers] at h
      split at h
      · rw [← Except.ok.inj h]
        exact le_rfl
      · exact absurd h (by simp)
  | succ room ih =>
    cases s with
    | nil => exact absurd h (by simp [vcMembers])
    | cons c s =>
      rw [vcMembers] at h
      split at h
      · rw [← Except.ok.inj h]
        exact Nat.zero_le _
      · obtain ⟨_, -, h⟩ := ok_of_bind_eq_ok h
        obtain ⟨_, -, h⟩ := ok_of_bind_eq_ok h
        obtain ⟨_, -, h⟩ := ok_of_bind_eq_ok h
        obtain ⟨_, hrec, h⟩ := ok_of_bind_eq_ok h
        rw [← Except.ok.inj h, List.length_cons]
        exact Nat.succ_le_succ (ih hrec)

/-- Placing a member by the given node names: component `i` is cleared, and the member
goes to the first of the `count` names that is its key. -/
def placeByName (names : ℕ → Option Bytes) (count : ℕ) (vc : VectorClock) (i : ℕ)
    (key : Bytes) (value : UInt64) : VectorClock :=
  let vc := vc.setSlot i 0
  match (List.range count).find? fun j => names j == some key with
  | some j => vc.setSlot j value
  | none => vc

/-- Placing a member without node names: the key `node-i` at position `i` first, then
the number behind `node-`. -/
def placeByIndex (count : ℕ) (vc : VectorClock) (i : ℕ) (key : Bytes) (value : UInt64) :
    VectorClock :=
  if key = ascii "node-" ++ decimal i then vc.setSlot i value
  else if key.take 5 = ascii "node-" then
    let idx := atoi (key.drop 5)
    if 0 ≤ idx ∧ idx < count then vc.setSlot idx.toNat value else vc
  else vc

/-- Building the clock: the members in the order of the text. -/
def placeMembers (nodeNames : Option (ℕ → Option Bytes)) (members : List (Bytes × UInt64))
    (vc : VectorClock) : VectorClock :=
  members.zipIdx.foldl (fun vc m =>
    match nodeNames with
    | some names => placeByName names members.length vc m.2 m.1.1 m.1.2
    | none => placeByIndex members.length vc m.2 m.1.1 m.1.2) vc

/-- `vc_from_json`: the return value and the target. -/
def vcFromJson (vc : VectorClock) (json : Bytes) (nodeNames : Option (ℕ → Option Bytes)) :
    ℤ × VectorClock :=
  match expect lbrace (skipWhitespace json) with
  | .error _ => (-1, vc)
  | .ok s =>
      let s := skipWhitespace s
      if s.head? = some rbrace then (0, { vc with nodeCount := 0, nodeCount_le := Nat.zero_le _ })
      else
        match h : vcMembers vcMaxNodes s with
        | .error _ => (-1, vc)
        | .ok members =>
            (0, placeMembers nodeNames members
              { vc with nodeCount := members.length, nodeCount_le := length_vcMembers_le h })

/-! ## Member by member -/

/-- One turn of the loop: a key, a colon, a number. -/
def vcReadMember (s : Bytes) : Except ScanError ((Bytes × UInt64) × Bytes) := do
  let (key, s) ← parseJsonString s 64
  let s ← expect colon (skipWhitespace s)
  let (value, s) ← parseJsonNumber (skipWhitespace s)
  return ((key, value), s)

theorem vcMembers_cons {c : UInt8} (hc : c ≠ rbrace) (room : ℕ) (s : Bytes) :
    vcMembers (room + 1) (c :: s) = do
      let (m, s) ← vcReadMember (c :: s)
      let members ← vcMembers room (skipComma s)
      return m :: members := by
  rw [vcMembers, if_neg hc, vcReadMember]
  simp only [bind_assoc, pure_bind]

theorem vcMembers_rbrace (room : ℕ) (s : Bytes) : vcMembers room (rbrace :: s) = .ok [] := by
  cases room <;> rfl

/-- Everything `vc_from_json` reads before it touches its target. -/
def vcObject (json : Bytes) : Except ScanError (List (Bytes × UInt64)) := do
  let s ← expect lbrace (skipWhitespace json)
  vcMembers vcMaxNodes (skipWhitespace s)

theorem length_vcObject_le {json : Bytes} {members : List (Bytes × UInt64)}
    (h : vcObject json = .ok members) : members.length ≤ vcMaxNodes := by
  obtain ⟨s, -, h⟩ := ok_of_bind_eq_ok h
  exact length_vcMembers_le h

/-- No scanner of the clock is ever moved past the terminator. -/
theorem vcReadMember_ne_pastEnd (s : Bytes) : vcReadMember s ≠ .error .pastEnd := by
  intro h
  rw [vcReadMember, bind_eq_error_iff] at h
  rcases h with h | ⟨p, -, h⟩
  · rw [parseJsonString, bind_eq_error_iff] at h
    rcases h with h | ⟨t, -, h⟩
    · exact expect_ne_pastEnd _ _ h
    · exact scanQuoted_reject_ne_pastEnd _ _ _ h
  rw [bind_eq_error_iff] at h
  rcases h with h | ⟨t, -, h⟩
  · exact expect_ne_pastEnd _ _ h
  rw [bind_eq_error_iff] at h
  rcases h with h | ⟨_, -, h⟩
  · unfold parseJsonNumber at h
    split at h
    · cases h
    · split at h <;> cases h
  · cases h

theorem vcMembers_ne_pastEnd (room : ℕ) (s : Bytes) : vcMembers room s ≠ .error .pastEnd := by
  intro h
  induction room generalizing s with
  | zero =>
    cases s with
    | nil => cases h
    | cons c s =>
      rw [vcMembers] at h
      split at h <;> cases h
  | succ room ih =>
    cases s with
    | nil => cases h
    | cons c s =>
      by_cases hc : c = rbrace
      · rw [hc, vcMembers_rbrace] at h
        cases h
      · rw [vcMembers_cons hc, bind_eq_error_iff] at h
        rcases h with h | ⟨p, -, h⟩
        · exact vcReadMember_ne_pastEnd _ h
        rw [bind_eq_error_iff] at h
        rcases h with h | ⟨_, -, h⟩
        · exact ih _ h
        · cases h

theorem vcObject_ne_pastEnd (json : Bytes) : vcObject json ≠ .error .pastEnd := by
  intro h
  rw [vcObject, bind_eq_error_iff] at h
  rcases h with h | ⟨s, -, h⟩
  · exact expect_ne_pastEnd _ _ h
  · exact vcMembers_ne_pastEnd _ _ h

/-- **A text that is rejected leaves the target alone.** -/
theorem vcFromJson_of_error {json : Bytes} {e : ScanError} (h : vcObject json = .error e)
    (vc : VectorClock) (nodeNames : Option (ℕ → Option Bytes)) :
    vcFromJson vc json nodeNames = (-1, vc) := by
  unfold vcFromJson
  cases hs : expect lbrace (skipWhitespace json) with
  | error e => rfl
  | ok s =>
    have hmembers : vcMembers vcMaxNodes (skipWhitespace s) = .error e := by
      rw [vcObject, hs] at h
      exact h
    have hhead : (skipWhitespace s).head? ≠ some rbrace := by
      intro hhead
      obtain ⟨t, ht⟩ := List.head?_eq_some_iff.mp hhead
      rw [ht, vcMembers_rbrace] at hmembers
      cases hmembers
    dsimp only
    rw [if_neg hhead]
    split
    · rfl
    · rename_i members hok
      rw [hmembers] at hok
      cases hok

/-- **A text that is accepted gives the node count and the components.** -/
theorem vcFromJson_of_ok {json : Bytes} {members : List (Bytes × UInt64)}
    (h : vcObject json = .ok members) (vc : VectorClock)
    (nodeNames : Option (ℕ → Option Bytes)) :
    vcFromJson vc json nodeNames =
      (0, placeMembers nodeNames members
        { vc with nodeCount := members.length, nodeCount_le := length_vcObject_le h }) := by
  obtain ⟨s, hs, hmembers⟩ := ok_of_bind_eq_ok h
  unfold vcFromJson
  simp only [hs]
  by_cases hhead : (skipWhitespace s).head? = some rbrace
  · obtain ⟨t, ht⟩ := List.head?_eq_some_iff.mp hhead
    rw [ht, vcMembers_rbrace] at hmembers
    obtain rfl := Except.ok.inj hmembers
    rw [if_pos hhead]
    rfl
  · rw [if_neg hhead]
    split
    · rename_i e he
      rw [hmembers] at he
      cases he
    · rename_i members' hok
      rw [hmembers] at hok
      obtain rfl := Except.ok.inj hok
      rfl

/-- Two texts that are rejected, or accepted with the same members, do the same. -/
theorem vcFromJson_congr {json json' : Bytes}
    (h : (vcObject json).toOption = (vcObject json').toOption) (vc : VectorClock)
    (nodeNames : Option (ℕ → Option Bytes)) :
    vcFromJson vc json nodeNames = vcFromJson vc json' nodeNames := by
  cases hx : vcObject json with
  | error e =>
    cases hy : vcObject json' with
    | error e' => rw [vcFromJson_of_error hx, vcFromJson_of_error hy]
    | ok members' =>
      rw [hx, hy] at h
      cases h
  | ok members =>
    cases hy : vcObject json' with
    | error e' =>
      rw [hx, hy] at h
      cases h
    | ok members' =>
      rw [hx, hy] at h
      obtain rfl := Option.some.inj h
      rw [vcFromJson_of_ok hx, vcFromJson_of_ok hy]

/-! ## Placing the members of a written clock -/

@[simp] theorem nodeCount_placeByName (names : ℕ → Option Bytes) (count : ℕ) (vc : VectorClock)
    (i : ℕ) (key : Bytes) (value : UInt64) :
    (placeByName names count vc i key value).nodeCount = vc.nodeCount := by
  unfold placeByName
  dsimp only
  split <;> rfl

@[simp] theorem nodeCount_placeByIndex (count : ℕ) (vc : VectorClock) (i : ℕ) (key : Bytes)
    (value : UInt64) : (placeByIndex count vc i key value).nodeCount = vc.nodeCount := by
  unfold placeByIndex
  dsimp only
  split
  · rfl
  · split
    · split <;> rfl
    · rfl

/-- Building the clock does not change the node count. -/
@[simp] theorem nodeCount_placeMembers (nodeNames : Option (ℕ → Option Bytes))
    (members : List (Bytes × UInt64)) (vc : VectorClock) :
    (placeMembers nodeNames members vc).nodeCount = vc.nodeCount := by
  unfold placeMembers
  generalize members.length = count
  induction members.zipIdx generalizing vc with
  | nil => rfl
  | cons m l ih =>
    rw [List.foldl_cons, ih]
    cases nodeNames <;> simp

/-- Members keyed by their own position fill the slots from that position on. -/
theorem slot_foldl_placeByIndex (count : ℕ) (value : ℕ → UInt64) (k : ℕ) (vc : VectorClock)
    (i start : ℕ) (hle : start + k ≤ vcMaxNodes) :
    ((((List.range' start k).map fun i => (ascii "node-" ++ decimal i, value i)).zipIdx start).foldl
      (fun vc m => placeByIndex count vc m.2 m.1.1 m.1.2) vc).slot i =
      if start ≤ i ∧ i < start + k then value i else vc.slot i := by
  induction k generalizing vc start with
  | zero => simp
  | succ k ih =>
    rw [List.range'_succ, List.map_cons, List.zipIdx_cons, List.foldl_cons,
      ih _ (start + 1) (by omega)]
    have hplace : placeByIndex count vc start (ascii "node-" ++ decimal start) (value start) =
        vc.setSlot start (value start) := if_pos rfl
    dsimp only
    rw [hplace, slot_setSlot _ _ _ _ (by omega)]
    by_cases hi : start = i
    · subst hi
      rw [if_neg (by omega), if_pos rfl, if_pos (by omega)]
    · rw [if_neg hi]
      by_cases hin : start + 1 ≤ i ∧ i < start + 1 + k
      · rw [if_pos hin, if_pos (by omega)]
      · rw [if_neg hin, if_neg (by omega)]

/-! ## The round trip -/

/-- A key that `vc_to_json` prints by itself: no quote, no backslash, no brace, no NUL. -/
theorem mem_nodeName_none {i : ℕ} {c : UInt8} (hc : c ∈ nodeName none i) :
    c ∈ ascii "node-" ∨ isdigit c = true := by
  rw [nodeName, Option.bind_none, Option.getD_none, List.mem_append] at hc
  exact hc.imp_right mem_decimal

theorem mem_vcItem {vc : VectorClock} {i : ℕ} {c : UInt8} (hc : c ∈ vcItem vc none i) :
    c = comma ∨ c = quote ∨ c = colon ∨ c ∈ ascii "node-" ∨ isdigit c = true := by
  rw [vcItem, List.mem_append] at hc
  rcases hc with hc | hc
  · split at hc
    · exact Or.inl (List.mem_singleton.mp hc)
    · exact absurd hc List.not_mem_nil
  · rw [vcMember, List.mem_cons, List.mem_append, List.mem_cons, List.mem_cons] at hc
    rcases hc with hc | hc | hc | hc | hc
    · exact Or.inr (Or.inl hc)
    · exact Or.inr (Or.inr (Or.inr (mem_nodeName_none hc)))
    · exact Or.inr (Or.inl hc)
    · exact Or.inr (Or.inr (Or.inl hc))
    · exact Or.inr (Or.inr (Or.inr (Or.inr (mem_decimal hc))))

/-- The members are printed without braces. -/
theorem ne_brace_of_mem_items {vc : VectorClock} {c : UInt8}
    (hc : c ∈ (List.range vc.nodeCount).flatMap (vcItem vc none)) : c ≠ lbrace ∧ c ≠ rbrace := by
  have hnode : (ascii "node-").all (fun c => c != lbrace && c != rbrace) = true := rfl
  obtain ⟨i, -, hc⟩ := List.mem_flatMap.mp hc
  rcases mem_vcItem hc with rfl | rfl | rfl | hc | hc
  · decide
  · decide
  · decide
  · simpa using List.all_eq_true.mp hnode c hc
  · constructor <;> rintro rfl <;> exact absurd hc (by decide)

/-- A member with its comma takes 31 bytes at most, and a clock has 32 members at most. -/
theorem length_vcText_le (vc : VectorClock) : (vcText vc none).length ≤ 994 := by
  have hnode : (ascii "node-").length = 5 := rfl
  have hitem : ∀ i ∈ List.range vc.nodeCount, (vcItem vc none i).length ≤ 31 := by
    intro i hi
    have hi32 : i < 10 ^ 2 :=
      lt_of_lt_of_le (List.mem_range.mp hi) (vc.nodeCount_le.trans (by decide))
    have hname : (nodeName none i).length ≤ 7 := by
      have hindex := length_decimal_le (by decide) hi32
      rw [nodeName, Option.bind_none, Option.getD_none, List.length_append, hnode]
      omega
    have hvalue : (decimal (vc.slot i).toNat).length ≤ 20 :=
      length_decimal_le (by decide) (lt_trans (vc.slot i).toNat_lt (by decide))
    have hcomma : (if 0 < i then [comma] else []).length ≤ 1 := by
      split
      · exact le_rfl
      · exact Nat.zero_le 1
    rw [vcItem, vcMember, List.length_append, List.length_cons, List.length_append,
      List.length_cons, List.length_cons]
    omega
  have hitems := length_flatMap_le hitem
  have hcount : vc.nodeCount ≤ 32 := vc.nodeCount_le
  rw [List.length_range] at hitems
  rw [vcText, List.length_cons, List.length_append, List.length_singleton]
  omega

/-- A number starts with a visible byte. -/
theorem skipWhitespace_decimal (n : ℕ) (rest : Bytes) :
    skipWhitespace (decimal n ++ rest) = decimal n ++ rest := by
  cases hd : decimal n with
  | nil => exact absurd hd (decimal_ne_nil n)
  | cons c ds =>
    have hc : c ∈ decimal n := by
      rw [hd]
      exact List.mem_cons_self
    exact skipWhitespace_cons (isspace_of_isdigit (mem_decimal hc)) _

/-- Reading one written member. -/
theorem vcReadMember_vcMember (vc : VectorClock) {nodeNames : Option (ℕ → Option Bytes)} {i : ℕ}
    (hlen : (nodeName nodeNames i).length < 64)
    (hplain : ∀ c ∈ nodeName nodeNames i, c ≠ quote ∧ c ≠ backslash) {rest : Bytes}
    (hrest : ∀ c, rest.head? = some c → isdigit c = false) :
    vcReadMember (vcMember vc nodeNames i ++ rest) =
      .ok ((nodeName nodeNames i, vc.slot i), rest) := by
  have hkey : parseJsonString (vcMember vc nodeNames i ++ rest) 64 =
      .ok (nodeName nodeNames i, colon :: (decimal (vc.slot i).toNat ++ rest)) := by
    rw [parseJsonString, vcMember, List.cons_append, skipWhitespace_cons (by rfl), expect_self]
    show scanQuoted vcUnescape .reject 63 _ = _
    rw [List.append_assoc]
    exact scanQuoted_plain _ _ (by omega) hplain _
  have hnum : parseJsonNumber (skipWhitespace (decimal (vc.slot i).toNat ++ rest)) =
      .ok (vc.slot i, rest) := by
    have hdec := scanDigits_decimal (vc.slot i) hrest
    cases hd : decimal (vc.slot i).toNat with
    | nil => exact absurd hd (decimal_ne_nil _)
    | cons c ds =>
      have hc : isdigit c = true := mem_decimal (n := (vc.slot i).toNat) (by
        rw [hd]
        exact List.mem_cons_self)
      have hsp : isspace c = false := isspace_of_isdigit hc
      rw [hd] at hdec
      rw [List.cons_append] at hdec ⊢
      rw [skipWhitespace_cons hsp, parseJsonNumber, skipWhitespace_cons hsp]
      show (if isdigit c then _ else _) = _
      rw [if_pos hc, hdec]
  unfold vcReadMember
  simp only [hkey, bind, Except.bind, skipWhitespace_cons (show isspace colon = false from rfl),
    expect_self, hnum]
  rfl

/-- The names printed by default are short and plain. -/
theorem nodeName_none_plain {i : ℕ} (hi : i < vcMaxNodes) :
    (nodeName none i).length < 64 ∧ ∀ c ∈ nodeName none i, c ≠ quote ∧ c ≠ backslash := by
  constructor
  · have hlen : (decimal i).length ≤ 2 :=
      length_decimal_le (by decide) (lt_trans hi (by norm_num [vcMaxNodes]))
    have h5 : (ascii "node-").length = 5 := rfl
    rw [nodeName, Option.bind_none, Option.getD_none, List.length_append]
    omega
  · intro c hc
    have hnode : (ascii "node-").all isPlain = true := rfl
    rcases mem_nodeName_none hc with h | h
    · exact isPlain_iff.mp (List.all_eq_true.mp hnode c h)
    · constructor <;> rintro rfl <;> exact absurd h (by decide)

/-- **Reading members that are printed one after the other**, from position `start` on. -/
theorem vcMembers_items {member : ℕ → Bytes} {kv : ℕ → Bytes × UInt64} (k start room : ℕ)
    (hroom : k ≤ room) (hquote : ∀ i, ∃ t, member i = quote :: t)
    (hmember : ∀ i, i < start + k → ∀ rest : Bytes,
      (∀ c, rest.head? = some c → isdigit c = false) →
        vcReadMember (member i ++ rest) = .ok (kv i, rest)) (rest : Bytes) :
    vcMembers room (skipComma ((List.range' start k).flatMap
        (fun i => (if 0 < i then [comma] else []) ++ member i) ++ rbrace :: rest)) =
      .ok ((List.range' start k).map kv) := by
  induction k generalizing start room with
  | zero =>
    rw [List.range'_zero, List.flatMap_nil, List.nil_append, skipComma_cons (by rfl) (by decide)]
    exact vcMembers_rbrace room rest
  | succ k ih =>
    cases room with
    | zero => exact absurd hroom (by omega)
    | succ room =>
      obtain ⟨t, ht⟩ := hquote start
      generalize hlater : (List.range' (start + 1) k).flatMap
        (fun i => (if 0 < i then [comma] else []) ++ member i) ++ rbrace :: rest = later
      have hskip : skipComma ((List.range' start (k + 1)).flatMap
          (fun i => (if 0 < i then [comma] else []) ++ member i) ++ rbrace :: rest) =
          quote :: (t ++ later) := by
        rw [List.range'_succ, List.flatMap_cons, List.append_assoc, List.append_assoc, hlater, ht]
        by_cases h : 0 < start
        · rw [if_pos h]
          exact skipComma_comma (by rfl) _
        · rw [if_neg h]
          exact skipComma_cons (by rfl) (by decide) _
      have hhead : ∀ c, later.head? = some c → isdigit c = false := by
        intro c hc
        rw [← hlater] at hc
        cases k with
        | zero =>
          rw [List.range'_zero, List.flatMap_nil, List.nil_append, List.head?_cons,
            Option.some_inj] at hc
          rw [← hc]
          decide
        | succ k =>
          rw [List.range'_succ, List.flatMap_cons, if_pos (Nat.succ_pos _),
            List.singleton_append, List.cons_append, List.cons_append, List.head?_cons,
            Option.some_inj] at hc
          rw [← hc]
          decide
      have hread := hmember start (by omega) later hhead
      rw [ht, List.cons_append] at hread
      have hrec := ih (start + 1) room (by omega) fun i hi => hmember i (by omega)
      rw [hlater] at hrec
      rw [hskip, vcMembers_cons (by decide), hread]
      show (vcMembers room (skipComma later) >>= _) = _
      rw [hrec, List.range'_succ, List.map_cons]
      rfl

/-- Reading an object whose members are printed one after the other. -/
theorem vcObject_items {member : ℕ → Bytes} {kv : ℕ → Bytes × UInt64} {n : ℕ}
    (hn : n ≤ vcMaxNodes) (hquote : ∀ i, ∃ t, member i = quote :: t)
    (hmember : ∀ i, i < n → ∀ rest : Bytes, (∀ c, rest.head? = some c → isdigit c = false) →
      vcReadMember (member i ++ rest) = .ok (kv i, rest)) :
    vcObject (lbrace :: ((List.range n).flatMap
        (fun i => (if 0 < i then [comma] else []) ++ member i) ++ [rbrace])) =
      .ok ((List.range n).map kv) := by
  have hfirst : skipWhitespace ((List.range n).flatMap
      (fun i => (if 0 < i then [comma] else []) ++ member i) ++ [rbrace]) =
      skipComma ((List.range' 0 n).flatMap
        (fun i => (if 0 < i then [comma] else []) ++ member i) ++ [rbrace]) := by
    rw [List.range_eq_range']
    cases n with
    | zero => rfl
    | succ k =>
      obtain ⟨t, ht⟩ := hquote 0
      rw [List.range'_succ, List.flatMap_cons, if_neg (lt_irrefl 0), List.nil_append, ht,
        List.cons_append, List.cons_append, skipWhitespace_cons (by rfl),
        skipComma_cons (by rfl) (by decide)]
  rw [vcObject, skipWhitespace_cons (by rfl), expect_self]
  show vcMembers vcMaxNodes (skipWhitespace _) = _
  rw [hfirst, List.range_eq_range']
  exact vcMembers_items n 0 vcMaxNodes hn hquote (by simpa using hmember) []

/-- The members of a written clock. -/
theorem vcObject_vcText (vc : VectorClock) :
    vcObject (vcText vc none) =
      .ok ((List.range vc.nodeCount).map fun i => (ascii "node-" ++ decimal i, vc.slot i)) := by
  refine @vcObject_items (vcMember vc none) _ _ vc.nodeCount_le (fun i => ⟨_, rfl⟩)
    fun i hi rest hrest => ?_
  obtain ⟨hlen, hplain⟩ := nodeName_none_plain (lt_of_lt_of_le hi vc.nodeCount_le)
  exact vcReadMember_vcMember vc hlen hplain hrest

/-- **Clock JSON round trip.**  Reading a written clock succeeds, whatever the target
held, and gives back the node count and the components in use. -/
theorem vcFromJson_vcText (target vc : VectorClock) :
    (vcFromJson target (vcText vc none) none).1 = 0 ∧
    (vcFromJson target (vcText vc none) none).2.nodeCount = vc.nodeCount ∧
    ∀ i, i < vc.nodeCount → (vcFromJson target (vcText vc none) none).2.slot i = vc.slot i := by
  have hle := vc.nodeCount_le
  rw [vcFromJson_of_ok (vcObject_vcText vc)]
  refine ⟨rfl, ?_, fun i hi => ?_⟩
  · rw [nodeCount_placeMembers]
    show List.length _ = _
    rw [List.length_map, List.length_range]
  · have hslot := fun count start =>
      slot_foldl_placeByIndex count vc.slot vc.nodeCount start i 0 (by omega)
    rw [← List.range_eq_range'] at hslot
    dsimp only [placeMembers]
    rw [hslot, if_pos ⟨Nat.zero_le _, by omega⟩]

/-- **Round trip through the functions.**  Whenever `vc_to_json` succeeds without node
names, `vc_from_json` accepts what it wrote and restores the node count and every component
in use, whatever the target held. -/
theorem vcFromJson_vcToJson (vc target : VectorClock) (buflen : ℕ) (text : Bytes)
    (h : vcToJson vc none buflen = some text) :
    (vcFromJson target text none).1 = 0 ∧
    (vcFromJson target text none).2.nodeCount = vc.nodeCount ∧
    ∀ i, i < vc.nodeCount → (vcFromJson target text none).2.slot i = vc.slot i := by
  have htext : text = vcText vc none := by
    rw [vcToJson_eq] at h
    exact (emit_eq_some_iff.mp h).2
  rw [htext]
  exact vcFromJson_vcText target vc

/-- The clock `[10, 20, 30]` in a buffer of 128 bytes, read into a clock full of ones. -/
theorem vcFromJson_vcToJson_three :
    ∃ text, vcToJson (ofSlots 3 (by decide) fun i => 10 * (i.toUInt64 + 1)) none 128 = some text ∧
      (vcFromJson (ofSlots 32 (by decide) fun _ => 1) text none).2.nodeCount = 3 := by
  have hlen : vcToJson (ofSlots 3 (by decide) fun i => 10 * (i.toUInt64 + 1)) none 128 =
      some (vcText (ofSlots 3 (by decide) fun i => 10 * (i.toUInt64 + 1)) none) := by
    rw [vcToJson_eq]
    decide +kernel
  exact ⟨_, hlen, (vcFromJson_vcToJson _ (ofSlots 32 (by decide) fun _ => 1) 128 _ hlen).2.1⟩

end LogAgg
