import LogAgg.CString.Quoted
import LogAgg.Json.Grammar
import LogAgg.VectorClock.Order
import LogAgg.VectorClock.Placement

/-!
# What a clock's JSON means

A `ClockObject` is a JSON object whose keys are distinct names `node-i` with `i` below
`VC_MAX_NODES` and whose values are below `2^64`.  It means the clock that has the listed
values and is zero elsewhere (`ClockObject.Means`).

`vc_from_json` rejects some of these texts: keys with escapes it does not know, numbers
with a sign, a fraction or an exponent.  What it accepts it reads to the letter
(`vcObject_text`).  But the number of members becomes the node count and bounds the
indices: a listed component behind it is dropped, and a slot in use that is not listed
keeps what the target held (`vcFromJson_means_iff`).
-/

namespace LogAgg

open Ascii VectorClock

/-! ## Tokens -/

theorem isspace_of_isBlank {c : UInt8} (hc : Json.isBlank c = true) : isspace c = true := by
  simp only [Json.isBlank, Bool.or_eq_true, beq_iff_eq] at hc
  rcases hc with ((rfl | rfl) | rfl) | rfl <;> decide

theorem spaces_of_blank {w : Bytes} (hw : Json.Blank w) : Spaces w :=
  fun c hc => isspace_of_isBlank (hw c hc)

/-- An escape the reader knows means what it means in JSON. -/
theorem escapeValue_of_vcUnescape {d b : UInt8} (h : vcUnescape d = some b) :
    Json.escapeValue d = some b := by
  unfold vcUnescape at h
  split_ifs at h with hq hb hn ht <;> (obtain rfl := Option.some.inj h; subst d; decide)

/-- **A string is read as what it stands for**, if it is read at all. -/
theorem scanQuoted_items {items : List Json.Item} {room : ℕ} {rest bs rest' : Bytes}
    (h : scanQuoted vcUnescape .reject room (items.flatMap Json.Item.text ++ quote :: rest) =
      .ok (bs, rest')) :
    Json.stringValue items = some bs ∧ rest' = rest := by
  induction items generalizing room bs with
  | nil =>
    rw [List.flatMap_nil, List.nil_append, scanQuoted_quote] at h
    obtain ⟨rfl, rfl⟩ := Prod.mk.inj (Except.ok.inj h)
    exact ⟨rfl, rfl⟩
  | cons item items ih =>
    rw [List.flatMap_cons, List.append_assoc] at h
    generalize hlater : items.flatMap Json.Item.text ++ quote :: rest = later at h ih
    cases item with
    | plain c hc =>
      replace h : scanQuoted vcUnescape .reject room (c :: later) = .ok (bs, rest') := h
      cases room with
      | zero =>
        rw [scanQuoted_zero hc.2.1] at h
        cases h
      | succ room =>
        rw [scanQuoted_plain_cons hc.2.1 hc.2.2] at h
        obtain ⟨⟨bs', t⟩, hrec, h⟩ := ok_of_bind_eq_ok h
        obtain ⟨rfl, rfl⟩ := Prod.mk.inj (Except.ok.inj h)
        obtain ⟨hvalue, hrest⟩ := ih hrec
        exact ⟨by rw [Json.stringValue, hvalue, Option.map_some], hrest⟩
    | escape d hd =>
      replace h : scanQuoted vcUnescape .reject room (backslash :: d :: later) =
        .ok (bs, rest') := h
      cases room with
      | zero =>
        rw [scanQuoted_zero (by decide)] at h
        cases h
      | succ room =>
        cases hu : vcUnescape d with
        | none =>
          rw [scanQuoted_escape_none hu] at h
          cases h
        | some b =>
          rw [scanQuoted_escape hu] at h
          obtain ⟨⟨bs', t⟩, hrec, h⟩ := ok_of_bind_eq_ok h
          obtain ⟨rfl, rfl⟩ := Prod.mk.inj (Except.ok.inj h)
          obtain ⟨hvalue, hrest⟩ := ih hrec
          refine ⟨?_, hrest⟩
          rw [Json.stringValue, escapeValue_of_vcUnescape hu, hvalue]
          rfl
    | unicode hex =>
      replace h : scanQuoted vcUnescape .reject room
        (backslash :: 117 :: (hex.digits.toList ++ later)) = .ok (bs, rest') := h
      cases room with
      | zero =>
        rw [scanQuoted_zero (by decide)] at h
        cases h
      | succ room =>
        rw [scanQuoted_escape_none (by decide)] at h
        cases h

/-- The reader of digits computes the value of the digits. -/
theorem scanDigits_digits {digits rest : Bytes} (hdigits : ∀ c ∈ digits, isdigit c = true)
    (hrest : ∀ c, rest.head? = some c → isdigit c = false) :
    scanDigits 0 (digits ++ rest) = (UInt64.ofNat (digitsValue digits), rest) := by
  have hfold : ∀ v : ℕ, scanDigits (UInt64.ofNat v) (digits ++ rest) =
      (UInt64.ofNat (digits.foldl (fun v c => v * 10 + (c.toNat - 48)) v), rest) := by
    induction digits with
    | nil =>
      intro v
      cases rest with
      | nil => rfl
      | cons c rest =>
        rw [List.nil_append, scanDigits, hrest c rfl]
        rfl
    | cons c digits ih =>
      rw [List.forall_mem_cons] at hdigits
      intro v
      have hc := toNat_of_isdigit hdigits.1
      have hstep : UInt64.ofNat v * 10 + (c - 48).toUInt64 =
          UInt64.ofNat (v * 10 + (c.toNat - 48)) := by
        have hsub : (c - 48).toNat = c.toNat - 48 :=
          UInt8.toNat_sub_of_le _ _ (UInt8.le_iff_toNat_le.mpr hc.1)
        rw [UInt64.ofNat_add, UInt64.ofNat_mul, ← hsub, UInt64.ofNat_uInt8ToNat]
        rfl
      rw [List.cons_append, scanDigits, if_pos hdigits.1, hstep, ih hdigits.2, List.foldl_cons]
  exact hfold 0

/-- **A number is read up to its integer part.** -/
theorem parseJsonNumber_text {n : Json.Number} {rest rest' : Bytes} {v : UInt64}
    (hrest : ∀ c, rest.head? = some c → isdigit c = false)
    (h : parseJsonNumber (n.text ++ rest) = .ok (v, rest')) :
    n.negative = false ∧ v = UInt64.ofNat (digitsValue n.int) ∧ rest' = n.tail ++ rest := by
  cases hneg : n.negative with
  | true =>
    rw [Json.Number.text, hneg, if_pos rfl, List.singleton_append, List.cons_append,
      parseJsonNumber, skipWhitespace_cons (by decide)] at h
    exact absurd h (by simp [isdigit])
  | false =>
    have hhead : ∀ c, (n.tail ++ rest).head? = some c → isdigit c = false := by
      intro c hc
      rcases n.tail_eq_nil_or with ⟨hfrac, hexp⟩ | ⟨d, s, htail, hd⟩
      · rw [Json.Number.tail, hfrac, hexp] at hc
        exact hrest c hc
      · rw [htail, List.cons_append, List.head?_cons, Option.some_inj] at hc
        rcases hd with rfl | rfl | rfl <;> (rw [← hc]; decide)
    have hread := scanDigits_digits n.int_isdigit hhead
    rw [Json.Number.text, hneg, if_neg Bool.false_ne_true, List.nil_append,
      List.append_assoc] at h
    cases hint : n.int with
    | nil => exact absurd hint n.int_ne_nil
    | cons c digits =>
      have hc : isdigit c = true := n.int_isdigit c (hint ▸ List.mem_cons_self)
      rw [hint] at h hread
      rw [List.cons_append, parseJsonNumber, skipWhitespace_cons (isspace_of_isdigit hc)] at h
      dsimp only at h
      rw [if_pos hc, ← List.cons_append, hread] at h
      obtain ⟨rfl, rfl⟩ := Prod.mk.inj (Except.ok.inj h)
      exact ⟨rfl, rfl, rfl⟩

/-! ## Members -/

/-- A member is read as what it stands for, up to what is left of its number. -/
theorem vcReadMember_text {m : Json.Member} {n : Json.Number} (hm : m.value = n.text)
    {rest rest' : Bytes} {kv : Bytes × UInt64}
    (hrest : ∀ c, rest.head? = some c → isdigit c = false)
    (h : vcReadMember (m.text ++ rest) = .ok (kv, rest')) :
    Json.stringValue m.key = some kv.1 ∧ n.negative = false ∧
      kv.2 = UInt64.ofNat (digitsValue n.int) ∧ rest' = n.tail ++ rest := by
  obtain ⟨⟨key, s₁⟩, hkey, h⟩ := ok_of_bind_eq_ok h
  obtain ⟨s₂, hcolon, h⟩ := ok_of_bind_eq_ok h
  obtain ⟨⟨value, s₃⟩, hvalue, h⟩ := ok_of_bind_eq_ok h
  obtain ⟨rfl, rfl⟩ := Prod.mk.inj (Except.ok.inj h)
  have htext : m.text ++ rest = quote :: (m.key.flatMap Json.Item.text ++
      quote :: (m.before ++ colon :: (m.after ++ (n.text ++ rest)))) := by
    simp [Json.Member.text, Json.stringText, hm]
  rw [htext, parseJsonString, skipWhitespace_cons (by rfl), expect_self] at hkey
  obtain ⟨hspells, rfl⟩ := scanQuoted_items hkey
  rw [skipWhitespace_append (spaces_of_blank m.blank_before), skipWhitespace_cons (by rfl),
    expect_self] at hcolon
  obtain rfl := Except.ok.inj hcolon
  rw [skipWhitespace_append (spaces_of_blank m.blank_after)] at hvalue
  have hagain : parseJsonNumber (n.text ++ rest) = .ok (value, s₃) := by
    rw [← hvalue, parseJsonNumber, parseJsonNumber, skipWhitespace_idem]
  exact ⟨hspells, parseJsonNumber_text hrest hagain⟩

/-- A JSON member that lists component `e.1` with the value `e.2`. -/
def Lists (m : Json.Member) (e : ℕ × UInt64) : Prop :=
  Json.stringValue m.key = some (ascii "node-" ++ decimal e.1) ∧
    ∃ n : Json.Number, m.value = n.text ∧ n.value = e.2.toNat

/-- The loop does not go on behind a byte that starts no member. -/
theorem vcMembers_of_head {c : UInt8} (hspace : isspace c = false) (hbrace : c ≠ rbrace)
    (hquote : c ≠ quote) (room : ℕ) (s : Bytes) : vcMembers room (c :: s) = .error .reject := by
  cases room with
  | zero => rw [vcMembers, if_neg hbrace]
  | succ room =>
    rw [vcMembers, if_neg hbrace, parseJsonString, skipWhitespace_cons hspace, expect,
      if_neg hquote]
    rfl

/-- **One member of an accepted text**: it is read as what it lists. -/
theorem vcMembers_text {m : Json.Member} {e : ℕ × UInt64} (hm : Lists m e) {room : ℕ}
    {w rest : Bytes} {members : List (Bytes × UInt64)} (hw : Json.Blank w)
    (hrest : ∀ c, rest.head? = some c → isdigit c = false)
    (h : vcMembers room (skipWhitespace (w ++ (m.text ++ rest))) = .ok members) :
    ∃ room' members', vcMembers room' (skipComma rest) = .ok members' ∧
      members = (ascii "node-" ++ decimal e.1, e.2) :: members' := by
  obtain ⟨hkey, n, hvalue, hnum⟩ := hm
  obtain ⟨t, ht⟩ : ∃ t, m.text ++ rest = quote :: t := ⟨_, rfl⟩
  rw [skipWhitespace_append (spaces_of_blank hw), ht, skipWhitespace_cons (by rfl)] at h
  cases room with
  | zero =>
    rw [vcMembers, if_neg (by decide)] at h
    cases h
  | succ room =>
    rw [vcMembers_cons (by decide), ← ht] at h
    obtain ⟨⟨kv, rest'⟩, hread, h⟩ := ok_of_bind_eq_ok h
    obtain ⟨members', hlater, h⟩ := ok_of_bind_eq_ok h
    obtain rfl := Except.ok.inj h
    obtain ⟨hspells, hneg, hval, rfl⟩ := vcReadMember_text hvalue hrest hread
    rcases n.tail_eq_nil_or with ⟨hfrac, hexp⟩ | ⟨d, s, htail, hd⟩
    · have htail : n.tail = [] := by rw [Json.Number.tail, hfrac, hexp]; rfl
      rw [htail, List.nil_append] at hlater
      refine ⟨room, members', hlater, ?_⟩
      have hlisted : kv.1 = ascii "node-" ++ decimal e.1 := by
        rw [hkey] at hspells
        exact (Option.some.inj hspells).symm
      have hsame : digitsValue n.int = e.2.toNat := by
        rw [Json.Number.value_of_plain hneg hfrac hexp] at hnum
        exact_mod_cast hnum
      rw [← hlisted, ← UInt64.ofNat_toNat (x := e.2), ← hsame, ← hval]
    · -- a fraction or an exponent starts no member
      rw [htail, List.cons_append] at hlater
      have hstop : isspace d = false ∧ d ≠ comma ∧ d ≠ rbrace ∧ d ≠ quote := by
        rcases hd with rfl | rfl | rfl <;> decide
      rw [skipComma_cons hstop.1 hstop.2.1, vcMembers_of_head hstop.1 hstop.2.2.1 hstop.2.2.2]
        at hlater
      cases hlater

/-- **The members of an accepted text are the listed ones.** -/
theorem vcMembers_joined {ms : List Json.Member} {listing : List (ℕ × UInt64)}
    (hlists : List.Forall₂ Lists ms listing) {s tail : Bytes}
    (hs : Json.Joined (ms.map Json.Member.text) s) {room : ℕ} {members : List (Bytes × UInt64)}
    (h : vcMembers room (skipWhitespace (s ++ rbrace :: tail)) = .ok members) :
    members = listing.map fun e => (ascii "node-" ++ decimal e.1, e.2) := by
  generalize hts : ms.map Json.Member.text = ts at hs
  induction hs generalizing ms listing room members with
  | @last w t w' hw hw' =>
    cases hlists with
    | nil => exact absurd hts (by simp)
    | @cons m e ms listing hm hlists =>
      rw [List.map_cons, List.cons.injEq, List.map_eq_nil_iff] at hts
      obtain ⟨rfl, rfl⟩ := hts
      cases hlists
      rw [List.append_assoc, List.append_assoc] at h
      have hsep : Separator w' := .spaces (spaces_of_blank hw')
      obtain ⟨room', members', hlater, rfl⟩ :=
        vcMembers_text hm hw (fun c hc => hsep.isdigit_head (by decide) hc) h
      rw [skipComma_append_cons hsep (by rfl) (by decide), vcMembers_rbrace] at hlater
      rw [← Except.ok.inj hlater]
      rfl
  | @next w t w' s ts hw hw' hs ih =>
    cases hlists with
    | nil => exact absurd hts (by simp)
    | @cons m e ms listing hm hlists =>
      rw [List.map_cons, List.cons.injEq] at hts
      obtain ⟨rfl, hts⟩ := hts
      rw [List.append_assoc, List.append_assoc, List.append_assoc, List.cons_append] at h
      have hsep : Separator w' := .spaces (spaces_of_blank hw')
      obtain ⟨room', members', hlater, rfl⟩ :=
        vcMembers_text hm hw (fun c hc => hsep.isdigit_head (by decide) hc) h
      rw [skipComma_append_comma (spaces_of_blank hw')] at hlater
      rw [ih hlists hlater hts]
      rfl

/-! ## Clock objects -/

/-- A JSON object whose keys are distinct names `node-i` with `i` below `VC_MAX_NODES` and
whose values are below `2^64`, in any order and with any blanks. -/
structure ClockObject where
  /-- The components listed, in the order of the text. -/
  listing : List (ℕ × UInt64)
  members : List Json.Member
  body : Bytes
  before : Bytes
  after : Bytes
  lists : List.Forall₂ Lists members listing
  nodup : (listing.map Prod.fst).Nodup
  lt_of_mem : ∀ e ∈ listing, e.1 < vcMaxNodes
  object : Json.Object members body
  blank_before : Json.Blank before
  blank_after : Json.Blank after

/-- Reading the number behind `node-`. -/
theorem atoi_decimal {k : ℕ} (hk : k < vcMaxNodes) : atoi (decimal k) = k := by
  revert k
  decide +kernel

/-- A key `node-k` is placed in slot `k`, if that is in use. -/
theorem indexWrites_node {count i k : ℕ} (hcount : count ≤ vcMaxNodes) (hi : i < count)
    (hk : k < vcMaxNodes) (value : UInt64) :
    indexWrites count i (ascii "node-" ++ decimal k) value =
      if k < count then [(k, value)] else [] := by
  have htake : (ascii "node-" ++ decimal k).take 5 = ascii "node-" := rfl
  have hdrop : (ascii "node-" ++ decimal k).drop 5 = decimal k := rfl
  have hnat : (0 ≤ (k : ℤ) ∧ (k : ℤ) < count) ↔ k < count := by omega
  unfold indexWrites
  by_cases heq : ascii "node-" ++ decimal k = ascii "node-" ++ decimal i
  · have hki : (k : ℤ) = i := by
      rw [← atoi_decimal hk, ← atoi_decimal (hi.trans_le hcount), List.append_cancel_left heq]
    obtain rfl := Int.ofNat.inj hki
    rw [if_pos heq, if_pos hi]
  · rw [if_neg heq, if_pos htake, hdrop, atoi_decimal hk]
    dsimp only
    rw [Int.toNat_natCast]
    simp only [hnat]

namespace ClockObject

variable (o : ClockObject)

def text : Bytes := o.before ++ (o.body ++ o.after)

/-- What the object says: the listed values, and zero elsewhere. -/
def Means (vc : VectorClock) : Prop :=
  (∀ e ∈ o.listing, vc.extend e.1 = e.2.toNat) ∧
    ∀ i, (∀ e ∈ o.listing, e.1 ≠ i) → vc.extend i = 0

/-- The indices listed are those below their number. -/
def Gapless : Prop := ∀ e ∈ o.listing, e.1 < o.listing.length

theorem length_listing_le : o.listing.length ≤ vcMaxNodes := by
  have hsub : o.listing.map Prod.fst ⊆ List.range vcMaxNodes := by
    intro i hi
    obtain ⟨e, he, rfl⟩ := List.mem_map.mp hi
    exact List.mem_range.mpr (o.lt_of_mem e he)
  have hle := (o.nodup.subperm hsub).length_le
  rwa [List.length_map, List.length_range] at hle

/-- **What is accepted is read to the letter.** -/
theorem vcObject_text {members : List (Bytes × UInt64)} (h : vcObject o.text = .ok members) :
    members = o.listing.map fun e => (ascii "node-" ++ decimal e.1, e.2) := by
  obtain ⟨s, hopen, hmembers⟩ := ok_of_bind_eq_ok h
  have hlists := o.lists
  have hobject := o.object
  rw [text, skipWhitespace_append (spaces_of_blank o.blank_before)] at hopen
  generalize o.members = ms at hlists hobject
  generalize o.body = body at hopen hobject
  generalize o.listing = listing at hlists ⊢
  cases hobject with
  | @empty w hw =>
    cases hlists
    rw [List.cons_append, List.append_assoc, skipWhitespace_cons (by rfl), expect_self] at hopen
    obtain rfl := Except.ok.inj hopen
    rw [skipWhitespace_append (spaces_of_blank hw), List.singleton_append,
      skipWhitespace_cons (by rfl), vcMembers_rbrace] at hmembers
    rw [← Except.ok.inj hmembers]
    rfl
  | @members ms' s' hs =>
    rw [List.cons_append, List.append_assoc, skipWhitespace_cons (by rfl), expect_self] at hopen
    obtain rfl := Except.ok.inj hopen
    exact vcMembers_joined hlists hs hmembers

section

variable {o}
variable {target : VectorClock} (hret : (vcFromJson target o.text none).1 = 0)

include hret

/-- The members behind a return value of zero. -/
theorem vcObject_of_accepted :
    vcObject o.text = .ok (o.listing.map fun e => (ascii "node-" ++ decimal e.1, e.2)) := by
  cases hobject : vcObject o.text with
  | error e =>
    rw [vcFromJson_of_error hobject] at hret
    exact absurd hret (by simp)
  | ok members => rw [o.vcObject_text hobject]

theorem nodeCount_of_accepted (t : VectorClock) :
    (vcFromJson t o.text none).2.nodeCount = o.listing.length := by
  rw [nodeCount_vcFromJson (vcObject_of_accepted hret), List.length_map]

/-- **What is assigned**: the listed components that are in use. -/
theorem slot_of_accepted (t : VectorClock) :
    (vcFromJson t o.text none).2.slot =
      Assign.run (o.listing.filter fun e => e.1 < o.listing.length) t.slot := by
  have hwrites : ∀ m ∈ o.listing.zipIdx,
      indexWrites o.listing.length m.2 (ascii "node-" ++ decimal m.1.1) m.1.2 =
        if m.1.1 < o.listing.length then [m.1] else [] := by
    intro m hm
    have hmem : m.1 ∈ o.listing := (List.mem_zipIdx' hm).2 ▸ List.getElem_mem _
    exact indexWrites_node o.length_listing_le (snd_lt_of_mem_zipIdx hm) (o.lt_of_mem _ hmem) _
  have hflat : ∀ l : List (ℕ × UInt64),
      l.flatMap (fun e => if e.1 < o.listing.length then [e] else []) =
        l.filter fun e => e.1 < o.listing.length := by
    intro l
    induction l with
    | nil => rfl
    | cons e l ih =>
      rw [List.flatMap_cons, ih, List.filter_cons]
      by_cases h : e.1 < o.listing.length
      · simp [h]
      · simp [h]
  rw [slot_vcFromJson_none (vcObject_of_accepted hret), List.zipIdx_map, List.flatMap_map,
    List.length_map]
  refine congrArg (fun writes => Assign.run writes t.slot) ?_
  rw [← hflat, ← List.zipIdx_map_fst 0 o.listing, List.flatMap_map, List.zipIdx_map_fst]
  exact List.flatMap_congr hwrites

theorem slot_listed (t : VectorClock) {e : ℕ × UInt64} (he : e ∈ o.listing)
    (hlt : e.1 < o.listing.length) : (vcFromJson t o.text none).2.slot e.1 = e.2 := by
  rw [slot_of_accepted hret]
  refine Assign.run_of_mem (o.nodup.sublist (List.filter_sublist.map _)) ?_ t.slot
  exact List.mem_filter.mpr ⟨he, decide_eq_true hlt⟩

theorem slot_unlisted (t : VectorClock) {j : ℕ} (hj : ∀ e ∈ o.listing, e.1 ≠ j) :
    (vcFromJson t o.text none).2.slot j = t.slot j := by
  rw [slot_of_accepted hret]
  exact Assign.run_of_notMem (fun e he => hj e (List.mem_of_mem_filter he)) t.slot

/-- **When a target comes to hold what the object says.** -/
theorem means_iff (t : VectorClock) :
    o.Means (vcFromJson t o.text none).2 ↔
      (∀ e ∈ o.listing, o.listing.length ≤ e.1 → e.2 = 0) ∧
        ∀ j, j < o.listing.length → (∀ e ∈ o.listing, e.1 ≠ j) → t.slot j = 0 := by
  have hcount := nodeCount_of_accepted hret t
  constructor
  · rintro ⟨hlisted, hother⟩
    refine ⟨fun e he hle => ?_, fun j hj hfree => ?_⟩
    · have hvalue := hlisted e he
      rw [extend_of_le (hcount.trans_le hle)] at hvalue
      exact UInt64.toNat_inj.mp hvalue.symm
    · have hvalue := hother j hfree
      rw [extend_of_lt (hj.trans_eq hcount.symm), slot_unlisted hret t hfree] at hvalue
      exact UInt64.toNat_inj.mp hvalue
  · rintro ⟨hbeyond, hstale⟩
    refine ⟨fun e he => ?_, fun i hfree => ?_⟩
    · rcases lt_or_ge e.1 o.listing.length with hlt | hle
      · rw [extend_of_lt (hlt.trans_eq hcount.symm), slot_listed hret t he hlt]
      · rw [extend_of_le (hcount.trans_le hle), hbeyond e he hle]
        rfl
    · rcases lt_or_ge i o.listing.length with hlt | hle
      · rw [extend_of_lt (hlt.trans_eq hcount.symm), slot_unlisted hret t hfree,
          hstale i hlt hfree]
        rfl
      · exact extend_of_le (hcount.trans_le hle)

end

/-- Without a gap every index in use is listed, and the other way round. -/
theorem gapless_iff :
    o.Gapless ↔ ∀ j, j < o.listing.length → ∃ e ∈ o.listing, e.1 = j := by
  have hcard : (o.listing.map Prod.fst).toFinset.card = (Finset.range o.listing.length).card := by
    rw [List.toFinset_card_of_nodup o.nodup, List.length_map, Finset.card_range]
  constructor
  · intro h j hj
    have hsub : (o.listing.map Prod.fst).toFinset ⊆ Finset.range o.listing.length := by
      intro i hi
      obtain ⟨e, he, rfl⟩ := List.mem_map.mp (List.mem_toFinset.mp hi)
      exact Finset.mem_range.mpr (h e he)
    have hmem : j ∈ (o.listing.map Prod.fst).toFinset := by
      rw [Finset.eq_of_subset_of_card_le hsub hcard.ge]
      exact Finset.mem_range.mpr hj
    exact List.mem_map.mp (List.mem_toFinset.mp hmem)
  · intro h e he
    have hsub : Finset.range o.listing.length ⊆ (o.listing.map Prod.fst).toFinset := by
      intro j hj
      obtain ⟨e', he', hj'⟩ := h j (Finset.mem_range.mp hj)
      exact List.mem_toFinset.mpr (List.mem_map.mpr ⟨e', he', hj'⟩)
    have hmem : e.1 ∈ Finset.range o.listing.length := by
      rw [Finset.eq_of_subset_of_card_le hsub hcard.le]
      exact List.mem_toFinset.mpr (List.mem_map_of_mem he)
    exact Finset.mem_range.mp hmem

end ClockObject

/-- **What a parsed clock means.**  Whenever the text of a clock object is accepted, the
target comes to hold what the object says exactly when every listed component at or above
the number of members is zero and every slot below it that is not listed was zero before.
For all targets alike this is so, and the result does not depend on the target, exactly when
the indices have no gap. -/
theorem vcFromJson_means_iff (o : ClockObject) (target : VectorClock)
    (hret : (vcFromJson target o.text none).1 = 0) :
    (o.Means (vcFromJson target o.text none).2 ↔
      (∀ e ∈ o.listing, o.listing.length ≤ e.1 → e.2 = 0) ∧
        ∀ j, j < o.listing.length → (∀ e ∈ o.listing, e.1 ≠ j) → target.slot j = 0) ∧
    (((∀ t, o.Means (vcFromJson t o.text none).2) ∧
      ∀ t t', (vcFromJson t o.text none).2.extend = (vcFromJson t' o.text none).2.extend) ↔
        o.Gapless) := by
  refine ⟨ClockObject.means_iff hret target, ?_⟩
  constructor
  · rintro ⟨hmeans, -⟩
    rw [ClockObject.gapless_iff]
    intro j hj
    by_contra hfree
    push Not at hfree
    -- a target full of ones shows the slot that is not listed
    have hone := ((ClockObject.means_iff hret (ofSlots 0 (by decide) fun _ => 1)).mp
      (hmeans _)).2 j hj hfree
    rw [slot_ofSlots _ _ (hj.trans_le o.length_listing_le)] at hone
    exact absurd hone (by decide)
  · intro h
    have hmeans : ∀ t, o.Means (vcFromJson t o.text none).2 := by
      intro t
      rw [ClockObject.means_iff hret]
      refine ⟨fun e he hle => absurd (h e he) (by omega), fun j hj hfree => ?_⟩
      obtain ⟨e, he, heq⟩ := o.gapless_iff.mp h j hj
      exact absurd heq (hfree e he)
    refine ⟨hmeans, fun t t' => ?_⟩
    ext1 i
    by_cases hi : ∃ e ∈ o.listing, e.1 = i
    · obtain ⟨e, he, rfl⟩ := hi
      rw [(hmeans t).1 e he, (hmeans t').1 e he]
    · push Not at hi
      rw [(hmeans t).2 i hi, (hmeans t').2 i hi]

/-- The member `"node-5":7`. -/
def sampleMember : Json.Member where
  key := [.plain 110 (by decide), .plain 111 (by decide), .plain 100 (by decide),
    .plain 101 (by decide), .plain 45 (by decide), .plain 53 (by decide)]
  before := []
  after := []
  value := ascii "7"
  blank_before := Json.blank_nil
  blank_after := Json.blank_nil

/-- The number `7`. -/
def sampleNumber : Json.Number where
  negative := false
  int := ascii "7"
  frac := []
  exponent := none
  int_ne_nil := by decide
  int_isdigit := List.all_eq_true.mp rfl
  no_leading_zero := by decide
  frac_isdigit := by simp

/-- The object `{"node-5":7}`. -/
def sampleObject : ClockObject where
  listing := [(5, 7)]
  members := [sampleMember]
  body := lbrace :: (([] ++ (sampleMember.text ++ [])) ++ [rbrace])
  before := []
  after := []
  lists := .cons ⟨by decide +kernel, sampleNumber, by decide, by
    rw [Json.Number.value_of_plain rfl rfl rfl]
    rfl⟩ .nil
  nodup := by simp
  lt_of_mem := by decide
  object := .members (.last Json.blank_nil Json.blank_nil)
  blank_before := Json.blank_nil
  blank_after := Json.blank_nil

theorem vcFromJson_means_iff_sample :
    (vcFromJson VectorClock.zero sampleObject.text none).1 = 0 ∧
      (sampleObject.Means (vcFromJson VectorClock.zero sampleObject.text none).2 ↔
        (∀ e ∈ sampleObject.listing, sampleObject.listing.length ≤ e.1 → e.2 = 0) ∧
          ∀ j, j < sampleObject.listing.length → (∀ e ∈ sampleObject.listing, e.1 ≠ j) →
            VectorClock.zero.slot j = 0) :=
  ⟨by decide +kernel, (vcFromJson_means_iff sampleObject VectorClock.zero (by decide +kernel)).1⟩

/-- Component 5 of `{"node-5":7}` is dropped, and a target full of ones keeps its first. -/
theorem vcFromJson_sampleObject :
    (vcFromJson VectorClock.zero sampleObject.text none).1 = 0 ∧
      (5, 7) ∈ sampleObject.listing ∧
      (vcFromJson VectorClock.zero sampleObject.text none).2.extend 5 = 0 ∧
      (vcFromJson (ofSlots 32 (by decide) fun _ => 1) sampleObject.text none).2.extend 0 = 1 := by
  decide +kernel

end LogAgg
