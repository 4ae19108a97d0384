import LogAgg.CString.Quoted
import LogAgg.VectorClock.Json

/-!
# Which texts are clocks

`ClockText` is the language that `vc_from_json` accepts: braces around at most
`VC_MAX_NODES` members, each a quoted key of at most 63 bytes, a colon and some digits, with
blanks anywhere between the tokens and commas where the writer likes; whatever stands behind
the closing brace is not looked at.  `clockText_iff` says that nothing else is accepted.

A text in the language has a closing brace, and a written clock has none before its last
byte.  So every cut of a written clock is rejected, and a rejected text leaves the target as
it was (`vcFromJson_all_or_nothing`).
-/

namespace LogAgg

open Ascii

/-! ## The language -/

/-- `ClockMembers room s`: at `s` the loop finds at most `room` members and a closing brace. -/
inductive ClockMembers : ℕ → Bytes → Prop where
  | close (room : ℕ) (s : Bytes) : ClockMembers room (rbrace :: s)
  | member {room : ℕ} {key name w w' digits sep rest : Bytes} (hkey : Units vcUnescape key name)
      (hname : name.length ≤ 63) (hw : Spaces w) (hw' : Spaces w') (hne : digits ≠ [])
      (hdigits : ∀ c ∈ digits, isdigit c = true) (hsep : Separator sep)
      (hrest : ClockMembers room rest) :
      ClockMembers (room + 1)
        (quote :: (key ++ quote :: (w ++ colon :: (w' ++ (digits ++ (sep ++ rest))))))

/-- A text that `vc_from_json` accepts. -/
def ClockText (json : Bytes) : Prop :=
  ∃ w w' s, Spaces w ∧ Spaces w' ∧ ClockMembers vcMaxNodes s ∧ json = w ++ lbrace :: (w' ++ s)

/-- The loop stands at a quote or at a brace. -/
theorem ClockMembers.head {room : ℕ} {s : Bytes} (h : ClockMembers room s) :
    ∃ c t, s = c :: t ∧ (c = quote ∨ c = rbrace) := by
  cases h with
  | close => exact ⟨rbrace, _, rfl, Or.inr rfl⟩
  | member => exact ⟨quote, _, rfl, Or.inl rfl⟩

theorem ClockMembers.skip {room : ℕ} {s sep : Bytes} (h : ClockMembers room s)
    (hsep : Separator sep) : skipComma (sep ++ s) = s := by
  obtain ⟨c, t, rfl, hc⟩ := h.head
  rcases hc with rfl | rfl
  · exact skipComma_append_cons hsep (by rfl) (by decide) t
  · exact skipComma_append_cons hsep (by rfl) (by decide) t

theorem ClockMembers.rbrace_mem {room : ℕ} {s : Bytes} (h : ClockMembers room s) :
    rbrace ∈ s := by
  induction h with
  | close => exact List.mem_cons_self
  | member _ _ _ _ _ _ _ _ ih => simp [ih]

/-! ## Digits -/

/-- What `parse_json_number` passes. -/
theorem exists_scanDigits (v : UInt64) (s : Bytes) :
    ∃ digits, (∀ c ∈ digits, isdigit c = true) ∧ s = digits ++ (scanDigits v s).2 := by
  induction s generalizing v with
  | nil => exact ⟨[], fun c hc => absurd hc List.not_mem_nil, rfl⟩
  | cons c s ih =>
    rw [scanDigits]
    by_cases hc : isdigit c = true
    · obtain ⟨digits, hdigits, hs⟩ := ih (v * 10 + (c - 48).toUInt64)
      rw [if_pos hc]
      refine ⟨c :: digits, ?_, ?_⟩
      · rw [List.forall_mem_cons]
        exact ⟨hc, hdigits⟩
      · rw [List.cons_append, ← hs]
    · rw [if_neg hc]
      exact ⟨[], fun c hc => absurd hc List.not_mem_nil, rfl⟩

theorem snd_scanDigits_append {digits rest : Bytes} (hdigits : ∀ c ∈ digits, isdigit c = true)
    (hrest : ∀ c, rest.head? = some c → isdigit c = false) (v : UInt64) :
    (scanDigits v (digits ++ rest)).2 = rest := by
  induction digits generalizing v with
  | nil =>
    cases rest with
    | nil => rfl
    | cons c rest => rw [List.nil_append, scanDigits, hrest c rfl]; rfl
  | cons c digits ih =>
    rw [List.forall_mem_cons] at hdigits
    rw [List.cons_append, scanDigits, if_pos hdigits.1]
    exact ih hdigits.2 _

/-! ## Soundness and completeness -/

/-- **One turn of the loop**, read backwards. -/
theorem vcReadMember_sound {c : UInt8} {s rest : Bytes} {m : Bytes × UInt64}
    (hc : isspace c = false) (h : vcReadMember (c :: s) = .ok (m, rest)) :
    ∃ key name w w' digits, Units vcUnescape key name ∧ name.length ≤ 63 ∧ Spaces w ∧ Spaces w' ∧
      digits ≠ [] ∧ (∀ c ∈ digits, isdigit c = true) ∧
      c :: s = quote :: (key ++ quote :: (w ++ colon :: (w' ++ (digits ++ rest)))) := by
  obtain ⟨⟨name, s₁⟩, hkey, h⟩ := ok_of_bind_eq_ok h
  obtain ⟨s₂, hcolon, h⟩ := ok_of_bind_eq_ok h
  obtain ⟨⟨value, s₃⟩, hvalue, h⟩ := ok_of_bind_eq_ok h
  obtain ⟨rfl, rfl⟩ := Prod.mk.inj (Except.ok.inj h)
  obtain ⟨t, hquote, hkey⟩ := ok_of_bind_eq_ok hkey
  rw [skipWhitespace_cons hc] at hquote
  obtain ⟨key, hunits, hlen, rfl⟩ := scanQuoted_eq_ok_iff.mp hkey
  obtain ⟨w, hw, hs₁⟩ := exists_skipWhitespace s₁
  obtain ⟨w', hw', hs₂⟩ := exists_skipWhitespace s₂
  rw [parseJsonNumber, skipWhitespace_idem] at hvalue
  cases hnum : skipWhitespace s₂ with
  | nil => simp [hnum] at hvalue
  | cons d u =>
    simp only [hnum] at hvalue
    split at hvalue
    · rename_i hd
      obtain ⟨digits, hdigits, hu⟩ := exists_scanDigits 0 (d :: u)
      rw [Except.ok.inj hvalue] at hu
      refine ⟨key, name, w, w', digits, hunits, hlen, hw, hw', ?_, hdigits, ?_⟩
      · rintro rfl
        -- the first digit is among those that are passed
        have hlong := length_scanDigits_le (0 * 10 + (d - 48).toUInt64) u
        rw [scanDigits, if_pos hd] at hvalue
        rw [Except.ok.inj hvalue, ← List.nil_append s₃, ← hu, List.length_cons] at hlong
        omega
      · rw [← hu, ← hnum, ← hs₂, ← eq_cons_of_expect hcolon, ← hs₁,
          eq_cons_of_expect hquote]
    · cases hvalue

/-- **One turn of the loop**, read forwards. -/
theorem vcReadMember_of_text {key name w w' digits tail : Bytes} (hkey : Units vcUnescape key name)
    (hname : name.length ≤ 63) (hw : Spaces w) (hw' : Spaces w') (hne : digits ≠ [])
    (hdigits : ∀ c ∈ digits, isdigit c = true)
    (hhead : ∀ c, tail.head? = some c → isdigit c = false) :
    vcReadMember (quote :: (key ++ quote :: (w ++ colon :: (w' ++ (digits ++ tail))))) =
      .ok ((name, (scanDigits 0 (digits ++ tail)).1), tail) := by
  have hscan : scanQuoted vcUnescape .reject 63
      (key ++ quote :: (w ++ colon :: (w' ++ (digits ++ tail)))) =
      .ok (name, w ++ colon :: (w' ++ (digits ++ tail))) :=
    scanQuoted_eq_ok_iff.mpr ⟨key, hkey, hname, rfl⟩
  have hsnd := snd_scanDigits_append hdigits hhead 0
  obtain ⟨d, ds, rfl⟩ := List.exists_cons_of_ne_nil hne
  have hd : isdigit d = true := hdigits d List.mem_cons_self
  have hnum : parseJsonNumber (d :: ds ++ tail) = .ok ((scanDigits 0 (d :: ds ++ tail)).1, tail) := by
    rw [List.cons_append, parseJsonNumber, skipWhitespace_cons (isspace_of_isdigit hd)]
    dsimp only
    rw [if_pos hd, ← List.cons_append, ← Prod.mk.eta (p := scanDigits 0 _), hsnd]
  rw [vcReadMember, parseJsonString, skipWhitespace_cons (by rfl), expect_self]
  show (scanQuoted vcUnescape .reject 63 _ >>= _) = _
  rw [hscan]
  show (expect colon (skipWhitespace _) >>= _) = _
  rw [skipWhitespace_append_cons hw (by rfl), expect_self]
  show (parseJsonNumber (skipWhitespace _) >>= _) = _
  rw [skipWhitespace_append hw', List.cons_append, skipWhitespace_cons (isspace_of_isdigit hd),
    ← List.cons_append, hnum]
  rfl

theorem clockMembers_of_ok {room : ℕ} {s : Bytes} {members : List (Bytes × UInt64)}
    (hs : ∀ c t, s = c :: t → isspace c = false) (h : vcMembers room s = .ok members) :
    ClockMembers room s := by
  induction room generalizing s members with
  | zero =>
    cases s with
    | nil => cases h
    | cons c s =>
      rw [vcMembers] at h
      split at h
      · rename_i hc
        rw [hc]
        exact .close 0 s
      · cases h
  | succ room ih =>
    cases s with
    | nil => cases h
    | cons c s =>
      by_cases hc : c = rbrace
      · rw [hc]
        exact .close _ s
      · rw [vcMembers_cons hc] at h
        obtain ⟨⟨m, rest⟩, hread, h⟩ := ok_of_bind_eq_ok h
        obtain ⟨members', hlater, h⟩ := ok_of_bind_eq_ok h
        obtain ⟨key, name, w, w', digits, hkey, hname, hw, hw', hne, hdigits, htext⟩ :=
          vcReadMember_sound (hs c s rfl) hread
        obtain ⟨sep, hsep, hrest⟩ := exists_skipComma rest
        rw [htext, hrest]
        refine .member hkey hname hw hw' hne hdigits hsep (ih (fun d t ht => ?_) hlater)
        exact isspace_of_skipComma ht

/-- **Every text of the language is accepted.** -/
theorem ClockMembers.accepted {room : ℕ} {s : Bytes} (h : ClockMembers room s) :
    ∃ members, vcMembers room s = .ok members := by
  induction h with
  | close room s => exact ⟨[], vcMembers_rbrace room s⟩
  | @member room key name w w' digits sep rest hkey hname hw hw' hne hdigits hsep hrest ih =>
    obtain ⟨members, hmembers⟩ := ih
    have hhead : ∀ c, (sep ++ rest).head? = some c → isdigit c = false := by
      intro c hc
      obtain ⟨d, t, rfl, hd⟩ := hrest.head
      exact hsep.isdigit_head (by rcases hd with rfl | rfl <;> decide) hc
    refine ⟨(name, (scanDigits 0 (digits ++ (sep ++ rest))).1) :: members, ?_⟩
    rw [vcMembers_cons (by decide), vcReadMember_of_text hkey hname hw hw' hne hdigits hhead]
    show (vcMembers room (skipComma (sep ++ rest)) >>= _) = _
    rw [hrest.skip hsep, hmembers]
    rfl

/-- **What `vc_from_json` accepts.** -/
theorem clockText_iff {json : Bytes} :
    (∃ members, vcObject json = .ok members) ↔ ClockText json := by
  constructor
  · rintro ⟨members, h⟩
    obtain ⟨s, hopen, hmembers⟩ := ok_of_bind_eq_ok h
    obtain ⟨w, hw, hjson⟩ := exists_skipWhitespace json
    obtain ⟨w', hw', hs⟩ := exists_skipWhitespace s
    refine ⟨w, w', skipWhitespace s, hw, hw', ?_, ?_⟩
    · exact clockMembers_of_ok (fun c t ht => isspace_of_skipWhitespace ht) hmembers
    · rw [← hs, ← eq_cons_of_expect hopen, ← hjson]
  · rintro ⟨w, w', s, hw, hw', hmembers, rfl⟩
    obtain ⟨members, hok⟩ := hmembers.accepted
    obtain ⟨c, t, rfl, hc⟩ := hmembers.head
    have hspace : isspace c = false := by rcases hc with rfl | rfl <;> decide
    refine ⟨members, ?_⟩
    rw [vcObject, skipWhitespace_append_cons hw (by rfl), expect_self]
    show vcMembers vcMaxNodes (skipWhitespace _) = _
    rw [skipWhitespace_append_cons hw' hspace, hok]

/-- The return value is zero or minus one, and tells whether the text is a clock. -/
theorem vcFromJson_eq_zero_iff (vc : VectorClock) (json : Bytes)
    (nodeNames : Option (ℕ → Option Bytes)) :
    (vcFromJson vc json nodeNames).1 = 0 ↔ ClockText json := by
  rw [← clockText_iff]
  cases h : vcObject json with
  | error e =>
    rw [vcFromJson_of_error h]
    simp
  | ok members =>
    rw [vcFromJson_of_ok h]
    simp

theorem vcFromJson_of_not_clockText {json : Bytes} (h : ¬ ClockText json) (vc : VectorClock)
    (nodeNames : Option (ℕ → Option Bytes)) : vcFromJson vc json nodeNames = (-1, vc) := by
  cases hobject : vcObject json with
  | error e => exact vcFromJson_of_error hobject vc nodeNames
  | ok members => exact absurd (clockText_iff.mp ⟨members, hobject⟩) h

/-! ## All or nothing -/

/-- A clock has a closing brace. -/
theorem ClockText.rbrace_mem {json : Bytes} (h : ClockText json) : rbrace ∈ json := by
  obtain ⟨w, w', s, -, -, hmembers, rfl⟩ := h
  simp [hmembers.rbrace_mem]

/-- Nothing but the whole text of a written clock is a clock. -/
theorem not_clockText_of_cut {vc : VectorClock} {cut : Bytes} (h : cut <+: vcText vc none)
    (hne : cut ≠ vcText vc none) : ¬ ClockText cut := by
  intro hclock
  rw [vcText, ← List.cons_append] at h hne
  have hcut : cut <+: lbrace :: (List.range vc.nodeCount).flatMap (vcItem vc none) :=
    (List.prefix_concat_iff.mp h).resolve_left hne
  rcases List.mem_cons.mp (hcut.subset hclock.rbrace_mem) with heq | hmem
  · exact absurd heq (by decide)
  · exact (ne_brace_of_mem_items hmem).2 rfl

/-- **All or nothing.**  A text that is rejected leaves every field of the target as it was,
and every proper prefix of a written clock is rejected. -/
theorem vcFromJson_all_or_nothing :
    (∀ (vc : VectorClock) (json : Bytes) (nodeNames : Option (ℕ → Option Bytes)),
      (vcFromJson vc json nodeNames).1 = -1 → (vcFromJson vc json nodeNames).2 = vc) ∧
    ∀ (vc target : VectorClock) (buflen : ℕ) (text cut : Bytes),
      vcToJson vc none buflen = some text → cut <+: text → cut ≠ text →
        vcFromJson target cut none = (-1, target) := by
  constructor
  · intro vc json nodeNames hret
    by_cases h : ClockText json
    · rw [(vcFromJson_eq_zero_iff vc json nodeNames).mpr h] at hret
      exact absurd hret (by decide)
    · rw [vcFromJson_of_not_clockText h]
  · intro vc target buflen text cut hwrite hprefix hne
    have htext : text = vcText vc none := by
      rw [vcToJson_eq] at hwrite
      exact (emit_eq_some_iff.mp hwrite).2
    rw [htext] at hprefix hne
    exact vcFromJson_of_not_clockText (not_clockText_of_cut hprefix hne) target none

end LogAgg
