import LogAgg.CString.Cursor
import LogAgg.VectorClock.Json

/-!
# Reading a clock in memory

`vc_from_json` without node names, with its cursor as an index into the text and its three
arrays as objects: `keys[VC_MAX_NODES][64]`, `values[VC_MAX_NODES]` and the target's
`clocks[VC_MAX_NODES]`.  Every index is checked against its object.  The number behind `node-`
comes from `atoi`, which may return any number.

On a string that ends in its terminator the code stays inside of all of them
(`vcFromJsonAt_safe`), and with the library's `atoi` it computes what the list model computes
(`vcFromJsonAt_eq`).
-/

namespace LogAgg

open Ascii Memory VectorClock

/-! ## The code -/

/-- `parse_json_string`. -/
def parseJsonStringAt (mem : Bytes) (i : ℕ) (row : Bytes) : Outcome (Bytes × ℕ) :=
  parseQuotedAt vcUnescape mem i row

/-- `parse_json_number`, into the cell `values[count]`. -/
def parseJsonNumberAt (mem : Bytes) (i : ℕ) (values : List UInt64) (count : ℕ) :
    Outcome (List UInt64 × ℕ) := do
  let i ← skipWhitespaceAt mem i
  let values ← store values count 0
  let c ← load mem i
  if isdigit c then do
    let r ← digitsAt mem 0 i
    let values ← store values count r.1
    return (values, r.2)
  else .null

/-- The loop over the members: the cursor behind it, the count and the two arrays. -/
def vcMembersAt (mem : Bytes) (i count : ℕ) (keys : List Bytes) (values : List UInt64) :
    Outcome (ℕ × ℕ × List Bytes × List UInt64) := do
  let c ← load mem i
  if c ≠ 0 ∧ c ≠ rbrace then
    if h : vcMaxNodes ≤ count then .null
    else do
      let row ← load keys count
      let r ← parseJsonStringAt mem i row
      let keys ← store keys count r.1
      let i ← skipWhitespaceAt mem r.2
      let i ← expectAt colon mem i
      let i ← skipWhitespaceAt mem i
      let r ← parseJsonNumberAt mem i values count
      let i ← skipCommaAt mem r.2
      vcMembersAt mem i (count + 1) keys r.1
  else .ret (i, count, keys, values)
  termination_by vcMaxNodes - count

/-- The string in row `i` of the keys, which has to end inside of the row. -/
def keyAt (keys : List Bytes) (i : ℕ) : Outcome Bytes := do
  let row ← load keys i
  cstringAt row

/-- One turn of the loop that builds the clock. -/
def placeByIndexAt (atoi : Bytes → ℤ) (count : ℕ) (keys : List Bytes) (values clocks : List UInt64)
    (i : ℕ) : Outcome (List UInt64) := do
  let key ← keyAt keys i
  if strcmp key (ascii "node-" ++ decimal i) = 0 then do
    let value ← load values i
    store clocks i value
  else if key.take 5 = ascii "node-" then
    let idx := atoi (key.drop 5)
    if 0 ≤ idx ∧ idx < count then do
      let value ← load values i
      store clocks idx.toNat value
    else .ret clocks
  else .ret clocks

/-- The test for the closing brace behind the loop over the members. -/
def closeBraceAt (mem : Bytes) (r : ℕ × ℕ × List Bytes × List UInt64) :
    Outcome (ℕ × List Bytes × List UInt64) := do
  let c ← load mem r.1
  if c ≠ rbrace then .null else .ret r.2

/-- `vc_from_json` without node names: the node count and the array of the target, or null for
`-1`. -/
def vcFromJsonAt (atoi : Bytes → ℤ) (clocks : List UInt64) (mem : Bytes) (keys : List Bytes)
    (values : List UInt64) : Outcome (ℕ × List UInt64) := do
  let i ← skipWhitespaceAt mem 0
  let i ← expectAt lbrace mem i
  let i ← skipWhitespaceAt mem i
  let c ← load mem i
  if c = rbrace then .ret (0, clocks)
  else do
    let r ← vcMembersAt mem i 0 keys values
    let r ← closeBraceAt mem r
    let clocks ← (List.range r.1).foldlM (placeByIndexAt atoi r.1 r.2.1 r.2.2) clocks
    return (r.1, clocks)

/-! ## Keys and values -/

theorem keyAt_ret {keys : List Bytes} {i : ℕ} {row key : Bytes} (hrow : load keys i = .ret row)
    (h : HoldsString 64 key row) : keyAt keys i = .ret key := by
  rw [keyAt, hrow, Outcome.ret_bind, h.cstringAt]

/-- No escape of a key stands for the terminator. -/
theorem vcUnescape_ne_zero (d : UInt8) : vcUnescape d ≠ some 0 := by
  unfold vcUnescape
  split_ifs <;> decide

/-- **A key is read as on the list**, and its row holds it. -/
theorem follows_parseJsonStringAt {mem s : Bytes} {i : ℕ} (h : At mem i s) {row : Bytes}
    (hrow : row.length = 64) :
    Follows (WithCursor mem (HoldsString 64)) (parseJsonString s 64) (parseJsonStringAt mem i row) :=
  follows_parseQuotedAt_holds (by rfl) (fun d _ => vcUnescape_ne_zero d) h (by decide) hrow

/-- **A number is read as on the list**, and its cell holds it. -/
theorem follows_parseJsonNumberAt {mem s : Bytes} {i : ℕ} (h : At mem i s) (done : List UInt64)
    (v : UInt64) (more : List UInt64) :
    Follows (WithCursor mem fun value values => values = done ++ value :: more) (parseJsonNumber s)
      (parseJsonNumberAt mem i (done ++ v :: more) done.length) := by
  obtain ⟨j, hj, hat⟩ := skipWhitespaceAt_ret h
  unfold parseJsonNumberAt parseJsonNumber
  rw [hj, Outcome.ret_bind, store_append_cons, Outcome.ret_bind]
  cases hskip : skipWhitespace s with
  | nil =>
    rw [hskip] at hat
    rw [hat.load_nil, Outcome.ret_bind, if_neg (by decide)]
    trivial
  | cons c t =>
    rw [hskip] at hat
    rw [hat.load_cons, Outcome.ret_bind]
    dsimp only
    by_cases hc : isdigit c = true
    · obtain ⟨k, hk, hat'⟩ := digitsAt_ret 0 hat
      rw [if_pos hc, if_pos hc, hk, Outcome.ret_bind, store_append_cons]
      exact ⟨rfl, hat'⟩
    · rw [if_neg hc, if_neg hc]
      trivial

/-! ## The members -/

/-- What the loop over the members leaves: the arrays as they were up to the count, and the
members behind. -/
def HoldsMembers (done : List Bytes) (vdone : List UInt64) (members : List (Bytes × UInt64))
    (r : ℕ × List Bytes × List UInt64) : Prop :=
  r.1 = done.length + members.length ∧
    (∃ rows more, r.2.1 = done ++ (rows ++ more) ∧
      List.Forall₂ (HoldsString 64) (members.map Prod.fst) rows) ∧
    ∃ vmore, r.2.2 = vdone ++ (members.map Prod.snd ++ vmore)

/-- One more member. -/
theorem HoldsMembers.cons {done : List Bytes} {vdone : List UInt64} {row key : Bytes}
    {value : UInt64} {members : List (Bytes × UInt64)} {r : ℕ × List Bytes × List UInt64}
    (hrow : HoldsString 64 key row)
    (h : HoldsMembers (done ++ [row]) (vdone ++ [value]) members r) :
    HoldsMembers done vdone ((key, value) :: members) r := by
  obtain ⟨hcount, ⟨rows, more, hkeys, hrows⟩, vmore, hvalues⟩ := h
  refine ⟨?_, ⟨row :: rows, more, ?_, .cons hrow hrows⟩, vmore, ?_⟩
  · rw [hcount, List.length_append, List.length_singleton, List.length_cons]
    omega
  · rw [hkeys]
    simp
  · rw [hvalues]
    simp

/-- The loop stops at the end of the text and at a brace. -/
theorem vcMembersAt_stop {mem : Bytes} {i : ℕ} {c : UInt8} (h : load mem i = .ret c)
    (hc : c = 0 ∨ c = rbrace) (count : ℕ) (keys : List Bytes) (values : List UInt64) :
    (vcMembersAt mem i count keys values >>= closeBraceAt mem) =
      if c = rbrace then .ret (count, keys, values) else .null := by
  rw [vcMembersAt, h, Outcome.ret_bind, if_neg (by tauto), Outcome.ret_bind, closeBraceAt, h,
    Outcome.ret_bind, ite_not]

theorem follows_vcMembersAt_stop {mem s : Bytes} {i : ℕ} (h : At mem i s)
    (hs : s = [] ∨ s.head? = some rbrace) (room : ℕ) (done : List Bytes) (vdone : List UInt64)
    (more : List Bytes) (vmore : List UInt64) :
    Follows (HoldsMembers done vdone) (vcMembers room s)
      (vcMembersAt mem i done.length (done ++ more) (vdone ++ vmore) >>= closeBraceAt mem) := by
  rcases hs with rfl | hs
  · rw [vcMembersAt_stop h.load_nil (Or.inl rfl), if_neg (by decide)]
    cases room <;> trivial
  · obtain ⟨t, rfl⟩ := List.head?_eq_some_iff.mp hs
    rw [vcMembersAt_stop h.load_cons (Or.inr rfl), if_pos rfl, vcMembers_rbrace]
    exact ⟨rfl, ⟨[], more, rfl, .nil⟩, vmore, rfl⟩

/-- **The loop in memory follows the loop on the list**: it never uses a row or a cell that the
arrays do not have. -/
theorem follows_vcMembersAt {mem s : Bytes} {i : ℕ} (h : At mem i s) {done : List Bytes}
    {vdone : List UInt64} {more : List Bytes} {vmore : List UInt64} {room : ℕ}
    (hdone : done.length + room = vcMaxNodes) (hvdone : vdone.length = done.length)
    (hmore : more.length = room) (hvmore : vmore.length = room)
    (hrows : ∀ row ∈ more, row.length = 64) :
    Follows (HoldsMembers done vdone) (vcMembers room s)
      (vcMembersAt mem i done.length (done ++ more) (vdone ++ vmore) >>= closeBraceAt mem) := by
  induction room generalizing i s done vdone more vmore with
  | zero =>
    cases s with
    | nil => exact follows_vcMembersAt_stop h (Or.inl rfl) 0 done vdone more vmore
    | cons c s =>
      by_cases hc : c = rbrace
      · subst hc
        exact follows_vcMembersAt_stop h (Or.inr rfl) 0 done vdone more vmore
      · -- there is no row left for another member
        rw [vcMembersAt, h.load_cons, Outcome.ret_bind, if_pos ⟨h.ne_zero, hc⟩,
          dif_pos (by omega), Outcome.null_bind, vcMembers, if_neg hc]
        trivial
  | succ room ih =>
    cases s with
    | nil => exact follows_vcMembersAt_stop h (Or.inl rfl) (room + 1) done vdone more vmore
    | cons c s =>
      by_cases hc : c = rbrace
      · subst hc
        exact follows_vcMembersAt_stop h (Or.inr rfl) (room + 1) done vdone more vmore
      · obtain ⟨row, more, rfl⟩ := List.exists_cons_of_length_eq_add_one hmore
        obtain ⟨v, vmore, rfl⟩ := List.exists_cons_of_length_eq_add_one hvmore
        rw [List.forall_mem_cons] at hrows
        rw [vcMembersAt, h.load_cons, Outcome.ret_bind, if_pos ⟨h.ne_zero, hc⟩,
          dif_neg (by omega), load_append_cons, Outcome.ret_bind, vcMembers, if_neg hc]
        simp only [Outcome.bind_assoc]
        refine (follows_parseJsonStringAt h hrows.1).bind fun p q hpq => ?_
        obtain ⟨key, s₁⟩ := p
        obtain ⟨j, hj, hat⟩ := skipWhitespaceAt_ret hpq.2
        rw [store_append_cons, Outcome.ret_bind, hj, Outcome.ret_bind]
        refine (follows_expectAt (by decide) hat).bind fun s₂ k hk => ?_
        obtain ⟨j', hj', hat'⟩ := skipWhitespaceAt_ret hk
        rw [hj', Outcome.ret_bind, ← hvdone]
        refine (follows_parseJsonNumberAt hat' vdone v vmore).bind fun u r hur => ?_
        obtain ⟨value, s₃⟩ := u
        obtain ⟨l, hl, hat''⟩ := skipCommaAt_ret hur.2
        rw [hl, Outcome.ret_bind, hur.1]
        have hrec := @ih _ _ hat'' (done ++ [q.1]) (vdone ++ [value]) more vmore
          (by rw [List.length_append, List.length_singleton]; omega)
          (by rw [List.length_append, List.length_append, hvdone]; rfl)
          (by simpa using hmore) (by simpa using hvmore) hrows.2
        rw [List.length_append, List.length_singleton, List.append_assoc, List.append_assoc,
          List.singleton_append, List.singleton_append] at hrec
        rw [hvdone]
        exact hrec.map fun members r hr => hr.cons hpq.1

/-! ## Placing the members -/

/-- What one turn of the loop that builds the clock does to the array. -/
def placedAt (atoi : Bytes → ℤ) (count : ℕ) (clocks : List UInt64) (m : (Bytes × UInt64) × ℕ) :
    List UInt64 :=
  if m.1.1 = ascii "node-" ++ decimal m.2 then clocks.set m.2 m.1.2
  else if m.1.1.take 5 = ascii "node-" then
    let idx := atoi (m.1.1.drop 5)
    if 0 ≤ idx ∧ idx < count then clocks.set idx.toNat m.1.2 else clocks
  else clocks

@[simp] theorem length_placedAt (atoi : Bytes → ℤ) (count : ℕ) (clocks : List UInt64)
    (m : (Bytes × UInt64) × ℕ) : (placedAt atoi count clocks m).length = clocks.length := by
  unfold placedAt
  dsimp only
  split_ifs <;> simp

/-- **No turn leaves the arrays**, whatever number stands behind `node-`: it is used as an index
only below the count. -/
theorem placeByIndexAt_ret (atoi : Bytes → ℤ) {count : ℕ} {keys : List Bytes}
    {values clocks : List UInt64} {m : (Bytes × UInt64) × ℕ} (hkey : keyAt keys m.2 = .ret m.1.1)
    (hvalue : load values m.2 = .ret m.1.2) (hm : m.2 < count) (hcount : count ≤ clocks.length) :
    placeByIndexAt atoi count keys values clocks m.2 = .ret (placedAt atoi count clocks m) := by
  unfold placeByIndexAt placedAt
  rw [hkey, Outcome.ret_bind, hvalue]
  simp only [strcmp_eq_zero_iff, Outcome.ret_bind]
  split
  · exact store_of_lt (by omega) _
  · split
    · split
      · exact store_of_lt (by omega) _
      · rfl
    · rfl

/-- The array of the clock follows the list model. -/
theorem foldl_placedAt (members : List (Bytes × UInt64)) (vc : VectorClock) :
    members.zipIdx.foldl (placedAt atoi members.length) vc.clocks.toList =
      (placeMembers none members vc).clocks.toList := by
  have hstep : ∀ (vc : VectorClock) (m : (Bytes × UInt64) × ℕ),
      placedAt atoi members.length vc.clocks.toList m =
        (placeByIndex members.length vc m.2 m.1.1 m.1.2).clocks.toList := by
    intro vc m
    unfold placedAt placeByIndex
    dsimp only
    split_ifs
    · exact (Vector.toList_setIfInBounds ..).symm
    · exact (Vector.toList_setIfInBounds ..).symm
    · rfl
    · rfl
  unfold placeMembers
  generalize members.length = count at hstep ⊢
  induction members.zipIdx generalizing vc with
  | nil => rfl
  | cons m l ih => rw [List.foldl_cons, List.foldl_cons, hstep, ih]

/-- The loop that builds the clock finds every key and every value. -/
theorem foldlM_placeByIndexAt (atoi : Bytes → ℤ) {members : List (Bytes × UInt64)}
    {r : ℕ × List Bytes × List UInt64} (h : HoldsMembers [] [] members r) {clocks : List UInt64}
    (hclocks : members.length ≤ clocks.length) :
    (List.range r.1).foldlM (placeByIndexAt atoi r.1 r.2.1 r.2.2) clocks =
      .ret (members.zipIdx.foldl (placedAt atoi members.length) clocks) := by
  obtain ⟨hcount, ⟨rows, more, hkeys, hrows⟩, vmore, hvalues⟩ := h
  rw [List.length_nil, Nat.zero_add] at hcount
  rw [List.nil_append] at hkeys hvalues
  have hrange : List.range r.1 = members.zipIdx.map Prod.snd := by
    rw [List.zipIdx_map_snd, hcount, List.range_eq_range']
  rw [hrange, List.foldlM_map, hcount]
  refine foldlM_eq_ret (P := fun l => l.length = clocks.length) (fun m hm l hl => ?_) rfl
  obtain ⟨hlt, hget⟩ := List.getElem?_eq_some_iff.mp (List.mem_zipIdx_iff_getElem?.mp hm)
  obtain ⟨hlen, hrow⟩ := List.forall₂_iff_get.mp hrows
  rw [List.length_map] at hlen
  have hkey : keyAt r.2.1 m.2 = .ret m.1.1 := by
    have hholds := hrow m.2 (by rwa [List.length_map]) (by omega)
    rw [List.get_eq_getElem, List.getElem_map, hget] at hholds
    refine keyAt_ret (load_eq_ret_iff.mpr ?_) hholds
    rw [hkeys, List.getElem?_append_left (by omega), List.get_eq_getElem]
    exact List.getElem?_eq_getElem _
  have hvalue : load r.2.2 m.2 = .ret m.1.2 := by
    refine load_eq_ret_iff.mpr ?_
    rw [hvalues, List.getElem?_append_left (by rwa [List.length_map]), List.getElem?_map,
      List.getElem?_eq_getElem hlt, hget]
    rfl
  exact ⟨placeByIndexAt_ret atoi hkey hvalue hlt (by omega), by rw [length_placedAt, hl]⟩

/-! ## The whole reader -/

/-- What the code returns for the members that the list model reads. -/
def placedOutcome (atoi : Bytes → ℤ) (clocks : List UInt64) :
    Except ScanError (List (Bytes × UInt64)) → Outcome (ℕ × List UInt64)
  | .ok members =>
      .ret (members.length, members.zipIdx.foldl (placedAt atoi members.length) clocks)
  | .error _ => .null

/-- The object is read in memory as on the list. -/
theorem follows_vcObject {mem json : Bytes} (h : At mem 0 json) {keys : List Bytes}
    {values : List UInt64} (hkeys : keys.length = vcMaxNodes) (hvalues : values.length = vcMaxNodes)
    (hrows : ∀ row ∈ keys, row.length = 64) :
    Follows (HoldsMembers [] []) (vcObject json)
      (do
        let i ← skipWhitespaceAt mem 0
        let i ← expectAt lbrace mem i
        let i ← skipWhitespaceAt mem i
        vcMembersAt mem i 0 keys values >>= closeBraceAt mem) := by
  obtain ⟨i, hi, hat⟩ := skipWhitespaceAt_ret h
  rw [hi, Outcome.ret_bind]
  refine (follows_expectAt (by decide) hat).bind fun s j hj => ?_
  obtain ⟨k, hk, hat'⟩ := skipWhitespaceAt_ret hj
  rw [hk, Outcome.ret_bind]
  exact @follows_vcMembersAt _ _ _ hat' [] [] keys values _ rfl rfl hkeys hvalues hrows

/-- The early return for an empty object gives what the loop would give. -/
theorem vcFromJsonAt_eq_bind (atoi : Bytes → ℤ) (clocks : List UInt64) (mem : Bytes)
    (keys : List Bytes) (values : List UInt64) :
    vcFromJsonAt atoi clocks mem keys values =
      (do
        let i ← skipWhitespaceAt mem 0
        let i ← expectAt lbrace mem i
        let i ← skipWhitespaceAt mem i
        vcMembersAt mem i 0 keys values >>= closeBraceAt mem) >>= fun r =>
          (List.range r.1).foldlM (placeByIndexAt atoi r.1 r.2.1 r.2.2) clocks >>= fun clocks =>
            .ret (r.1, clocks) := by
  unfold vcFromJsonAt
  simp only [Outcome.bind_assoc, Outcome.pure_eq]
  cases skipWhitespaceAt mem 0 with
  | null => rfl
  | fault => rfl
  | ret i =>
    rw [Outcome.ret_bind, Outcome.ret_bind]
    cases expectAt lbrace mem i with
    | null => rfl
    | fault => rfl
    | ret j =>
      rw [Outcome.ret_bind, Outcome.ret_bind]
      cases skipWhitespaceAt mem j with
      | null => rfl
      | fault => rfl
      | ret k =>
        rw [Outcome.ret_bind, Outcome.ret_bind]
        cases hc : load mem k with
        | null => rw [vcMembersAt, hc]; rfl
        | fault => rw [vcMembersAt, hc]; rfl
        | ret c =>
          rw [Outcome.ret_bind]
          by_cases hbrace : c = rbrace
          · rw [if_pos hbrace, ← Outcome.bind_assoc, vcMembersAt_stop hc (Or.inr hbrace),
              if_pos hbrace]
            rfl
          · rw [if_neg hbrace]

/-- **The code returns what the list model reads.** -/
theorem vcFromJsonAt_eq_placedOutcome (atoi : Bytes → ℤ) {mem json : Bytes} (h : At mem 0 json)
    {clocks : List UInt64} {keys : List Bytes} {values : List UInt64}
    (hclocks : clocks.length = vcMaxNodes) (hkeys : keys.length = vcMaxNodes)
    (hvalues : values.length = vcMaxNodes) (hrows : ∀ row ∈ keys, row.length = 64) :
    vcFromJsonAt atoi clocks mem keys values = placedOutcome atoi clocks (vcObject json) := by
  have hfollows := follows_vcObject h hkeys hvalues hrows
  rw [vcFromJsonAt_eq_bind]
  generalize (do
    let i ← skipWhitespaceAt mem 0
    let i ← expectAt lbrace mem i
    let i ← skipWhitespaceAt mem i
    vcMembersAt mem i 0 keys values >>= closeBraceAt mem) = run at hfollows ⊢
  cases hobject : vcObject json with
  | ok members =>
    rw [hobject] at hfollows
    cases run with
    | null => exact hfollows.elim
    | fault => exact hfollows.elim
    | ret r =>
      have hlen : members.length ≤ clocks.length := hclocks ▸ length_vcObject_le hobject
      have hcount : r.1 = members.length := hfollows.1.trans (Nat.zero_add _)
      rw [Outcome.ret_bind, foldlM_placeByIndexAt atoi hfollows hlen, Outcome.ret_bind, hcount]
      rfl
  | error e =>
    rw [hobject] at hfollows
    cases e with
    | pastEnd => exact absurd hobject (vcObject_ne_pastEnd json)
    | reject =>
      cases run with
      | ret r => exact hfollows.elim
      | null => rfl
      | fault => exact hfollows.elim

section

variable {cap : ℕ} (text : CStr cap) (vc : VectorClock)
  (keys : Vector (Vector UInt8 64) vcMaxNodes) (values : Vector UInt64 vcMaxNodes)

/-- The object of a string, and a cursor at its start. -/
theorem at_text : At (text.bytes ++ [0]) 0 text.bytes := At.start text.nul_notMem

/-- The arrays of the code, as the objects that they are. -/
theorem vcFromJsonAt_arrays (atoi : Bytes → ℤ) :
    vcFromJsonAt atoi vc.clocks.toList (text.bytes ++ [0]) (keys.toList.map Vector.toList)
        values.toList = placedOutcome atoi vc.clocks.toList (vcObject text.bytes) := by
  refine vcFromJsonAt_eq_placedOutcome atoi (at_text text) vc.clocks.length_toList ?_
    values.length_toList ?_
  · rw [List.length_map, keys.length_toList]
  · intro row hrow
    obtain ⟨r, -, rfl⟩ := List.mem_map.mp hrow
    exact r.length_toList

/-- **The reader is safe.**  On any text with its terminator, whatever the arrays held before
and whatever number `atoi` makes of what stands behind `node-`, the run ends without an access
outside of the text, the keys, the values or the components of the clock. -/
theorem vcFromJsonAt_safe (atoi : Bytes → ℤ) :
    vcFromJsonAt atoi vc.clocks.toList (text.bytes ++ [0]) (keys.toList.map Vector.toList)
      values.toList ≠ .fault := by
  rw [vcFromJsonAt_arrays]
  cases vcObject text.bytes <;> simp [placedOutcome]

/-- **The list model is what the code does**: the node count and the array of the clock when
the text is accepted, and null when it is rejected. -/
theorem vcFromJsonAt_eq :
    vcFromJsonAt atoi vc.clocks.toList (text.bytes ++ [0]) (keys.toList.map Vector.toList)
        values.toList =
      if (vcFromJson vc text.bytes none).1 = 0 then
        .ret ((vcFromJson vc text.bytes none).2.nodeCount,
          (vcFromJson vc text.bytes none).2.clocks.toList)
      else .null := by
  rw [vcFromJsonAt_arrays]
  cases hobject : vcObject text.bytes with
  | error e =>
    rw [vcFromJson_of_error hobject]
    rfl
  | ok members =>
    rw [vcFromJson_of_ok hobject, if_pos rfl, nodeCount_placeMembers, placedOutcome,
      ← foldl_placedAt]

end

end LogAgg
