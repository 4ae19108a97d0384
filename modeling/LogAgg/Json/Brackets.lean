import LogAgg.CString.Nested
import LogAgg.Json.Grammar

/-!
# The brackets of JSON values

What a scanner that counts brackets finds in the text of a value.

A value is a string, starts with a bracket, or is made of scalar bytes (`Value.kinds`).  When no
string in it has a bracket of the kind that is counted (`ValueOver`), the brackets of an object
or an array are balanced for the first time at its end (`ValueOver.balancedAtEnd`).
-/

namespace Json

open LogAgg LogAgg.Ascii

/-! ## Scalars -/

/-- The bytes of numbers and of the three literals. -/
def isScalarByte (c : UInt8) : Bool := isalnum c || c == 43 || c == 45 || c == 46

theorem isScalarByte_of_isdigit {c : UInt8} (hc : isdigit c = true) : isScalarByte c = true := by
  rw [isScalarByte, isalnum, hc]
  simp

/-- No blank is in a scalar. -/
theorem isspace_of_isScalarByte {c : UInt8} (hc : isScalarByte c = true) : isspace c = false := by
  simp only [isScalarByte, isalnum, isdigit, isupper, Bool.or_eq_true, Bool.and_eq_true,
    decide_eq_true_eq, beq_iff_eq, UInt8.le_iff_toNat_le, ← UInt8.toNat_inj] at hc
  simp only [isspace, Bool.or_eq_false_iff, Bool.and_eq_false_iff, decide_eq_false_iff_not,
    beq_eq_false_iff_ne, Ne, UInt8.le_iff_toNat_le, ← UInt8.toNat_inj]
  simp only [UInt8.reduceToNat] at hc ⊢
  omega

theorem Exponent.isScalarByte_of_mem {e : Exponent} {c : UInt8} (hc : c ∈ e.text) :
    isScalarByte c = true := by
  rw [Exponent.text, List.mem_cons, List.mem_append] at hc
  rcases hc with hc | hc | hc
  · rcases e.isMarker with h | h <;> (rw [hc, h]; decide)
  · split at hc
    · rw [List.mem_singleton] at hc
      subst hc
      decide
    split at hc
    · rw [List.mem_singleton] at hc
      subst hc
      decide
    · cases hc
  · exact isScalarByte_of_isdigit (e.isdigit_of_mem c hc)

theorem Number.isScalarByte_of_mem {n : Number} {c : UInt8} (hc : c ∈ n.text) :
    isScalarByte c = true := by
  rw [Number.text, Number.tail, List.mem_append, List.mem_append, List.mem_append] at hc
  rcases hc with hc | hc | hc | hc
  · split at hc
    · rw [List.mem_singleton] at hc
      subst hc
      decide
    · cases hc
  · exact isScalarByte_of_isdigit (n.int_isdigit c hc)
  · split at hc
    · cases hc
    · rw [List.mem_cons] at hc
      rcases hc with rfl | hc
      · decide
      · exact isScalarByte_of_isdigit (n.frac_isdigit c hc)
  · cases hexp : n.exponent with
    | none =>
      rw [hexp] at hc
      cases hc
    | some e =>
      rw [hexp] at hc
      exact e.isScalarByte_of_mem hc

theorem Number.text_ne_nil (n : Number) : n.text ≠ [] := by
  intro h
  rw [Number.text, List.append_eq_nil_iff, List.append_eq_nil_iff] at h
  exact n.int_ne_nil h.2.1

theorem isScalarByte_of_mem_literal {n : String} (hn : n ∈ ["null", "true", "false"]) :
    ascii n ≠ [] ∧ ∀ c ∈ ascii n, isScalarByte c := by
  have hliteral : ∀ n ∈ ["null", "true", "false"],
      ascii n ≠ [] ∧ (ascii n).all isScalarByte = true := by decide
  obtain ⟨hne, hall⟩ := hliteral n hn
  exact ⟨hne, List.all_eq_true.mp hall⟩

/-- **The kinds of values**, by what they start with. -/
theorem Value.kinds {v : Bytes} (h : Value v) :
    (∃ items, v = stringText items) ∨ v.head? = some lbrace ∨ v.head? = some lbracket ∨
      v ≠ [] ∧ ∀ c ∈ v, isScalarByte c := by
  cases h with
  | null => exact Or.inr (Or.inr (Or.inr (isScalarByte_of_mem_literal (by simp))))
  | true => exact Or.inr (Or.inr (Or.inr (isScalarByte_of_mem_literal (by simp))))
  | false => exact Or.inr (Or.inr (Or.inr (isScalarByte_of_mem_literal (by simp))))
  | number n =>
    exact Or.inr (Or.inr (Or.inr ⟨n.text_ne_nil, fun c hc => n.isScalarByte_of_mem hc⟩))
  | string items => exact Or.inl ⟨items, rfl⟩
  | array hs =>
    cases hs with
    | empty => exact Or.inr (Or.inr (Or.inl rfl))
    | elements => exact Or.inr (Or.inr (Or.inl rfl))
  | object hs =>
    cases hs with
    | empty => exact Or.inr (Or.inl rfl)
    | members => exact Or.inr (Or.inl rfl)

/-- A value starts with a visible byte. -/
theorem Value.exists_cons {v : Bytes} (h : Value v) :
    ∃ c t, v = c :: t ∧ isspace c = Bool.false := by
  rcases h.kinds with ⟨items, rfl⟩ | hbrace | hbracket | ⟨hne, hscalar⟩
  · exact ⟨quote, _, rfl, rfl⟩
  · obtain ⟨t, rfl⟩ := List.head?_eq_some_iff.mp hbrace
    exact ⟨lbrace, t, rfl, rfl⟩
  · obtain ⟨t, rfl⟩ := List.head?_eq_some_iff.mp hbracket
    exact ⟨lbracket, t, rfl, rfl⟩
  · obtain ⟨c, t, rfl⟩ := List.exists_cons_of_ne_nil hne
    exact ⟨c, t, rfl, isspace_of_isScalarByte (hscalar c List.mem_cons_self)⟩

/-! ## Brackets -/

/-- The two pairs of brackets. -/
inductive Brackets : UInt8 → UInt8 → Prop where
  | braces : Brackets lbrace rbrace
  | brackets : Brackets lbracket rbracket

section

variable {opening closing : UInt8}

theorem Brackets.ne (h : Brackets opening closing) : closing ≠ opening := by
  cases h <;> decide

/-- The opening bracket decides. -/
theorem Brackets.unique (h : Brackets opening closing) {closing' : UInt8}
    (h' : Brackets opening closing') : closing = closing' := by
  cases h <;> cases h' <;> rfl

theorem Brackets.ne_quote (h : Brackets opening closing) : opening ≠ quote := by
  cases h <;> decide

theorem Brackets.not_isScalarByte (h : Brackets opening closing) : ¬ isScalarByte opening := by
  cases h <;> decide

/-- What is not a bracket. -/
theorem Brackets.ne_of_notMem (h : Brackets opening closing) {c : UInt8}
    (hc : c ∉ [lbrace, rbrace, lbracket, rbracket]) : c ≠ opening ∧ c ≠ closing := by
  simp only [List.mem_cons, List.not_mem_nil, or_false, not_or] at hc
  cases h with
  | braces => exact ⟨hc.1, hc.2.1⟩
  | brackets => exact ⟨hc.2.2.1, hc.2.2.2⟩

/-- Brackets of either kind around a balanced text. -/
theorem Brackets.balanced_wrap (h : Brackets opening closing) {p q : UInt8} (hpq : Brackets p q)
    {s : Bytes} (hs : Balanced opening closing s) : Balanced opening closing (p :: (s ++ [q])) := by
  have hother : ∀ a b : UInt8, a ≠ opening ∧ a ≠ closing → b ≠ opening ∧ b ≠ closing →
      Balanced opening closing (a :: (s ++ [b])) := by
    intro a b ha hb
    have hsingle : ∀ c : UInt8, c ≠ opening ∧ c ≠ closing → Balanced opening closing [c] :=
      fun c hc => balanced_of_ne fun d hd => by rwa [List.mem_singleton.mp hd]
    exact (hsingle a ha).append (hs.append (hsingle b hb))
  cases h with
  | braces =>
    cases hpq with
    | braces => exact hs.wrap (by decide)
    | brackets => exact hother _ _ (by decide) (by decide)
  | brackets =>
    cases hpq with
    | braces => exact hother _ _ (by decide) (by decide)
    | brackets => exact hs.wrap (by decide)

theorem Brackets.balanced_of_blank (h : Brackets opening closing) {w : Bytes} (hw : Blank w) :
    Balanced opening closing w :=
  balanced_of_ne fun c hc => h.ne_of_notMem fun hmem => by
    have hblank := hw c hc
    simp only [List.mem_cons, List.not_mem_nil, or_false] at hmem
    rcases hmem with rfl | rfl | rfl | rfl <;> exact absurd hblank (by decide)

theorem Brackets.balanced_singleton (h : Brackets opening closing) {c : UInt8}
    (hc : c ∉ [lbrace, rbrace, lbracket, rbracket]) : Balanced opening closing [c] :=
  balanced_of_ne fun d hd => h.ne_of_notMem (by rwa [List.mem_singleton.mp hd])

/-- Balanced texts joined by commas. -/
theorem Joined.balanced (hb : Brackets opening closing) {ts : List Bytes} {s : Bytes}
    (h : Joined ts s) (hts : ∀ t ∈ ts, Balanced opening closing t) : Balanced opening closing s := by
  induction h with
  | last hw hw' =>
    exact (hb.balanced_of_blank hw).append
      ((hts _ List.mem_cons_self).append (hb.balanced_of_blank hw'))
  | next hw hw' _ ih =>
    rw [List.forall_mem_cons] at hts
    exact (hb.balanced_of_blank hw).append (hts.1.append ((hb.balanced_of_blank hw').append
      ((hb.balanced_singleton (c := comma) (by decide)).append (ih hts.2))))

/-! ## Values without brackets in their strings -/

/-- The text of a value all of whose strings, the keys of its objects included, satisfy `P`. -/
inductive ValueOver (P : List Item → Prop) : Bytes → Prop where
  | null : ValueOver P (ascii "null")
  | true : ValueOver P (ascii "true")
  | false : ValueOver P (ascii "false")
  | number (n : Number) : ValueOver P n.text
  | string {items : List Item} (h : P items) : ValueOver P (stringText items)
  | array {ts : List Bytes} {s : Bytes} (hs : Array ts s) (hts : ∀ t ∈ ts, ValueOver P t) :
      ValueOver P s
  | object {ms : List Member} {s : Bytes} (hs : Object ms s) (hkeys : ∀ m ∈ ms, P m.key)
      (hms : ∀ m ∈ ms, ValueOver P m.value) : ValueOver P s

theorem ValueOver.value {P : List Item → Prop} {v : Bytes} (h : ValueOver P v) : Value v := by
  induction h with
  | null => exact .null
  | true => exact .true
  | false => exact .false
  | number n => exact .number n
  | string _ => exact .string _
  | array hs _ ih => exact .array hs ih
  | object hs _ _ ih => exact .object hs ih

/-- A string without the two bytes. -/
def Free (opening closing : UInt8) (items : List Item) : Prop :=
  ∀ c ∈ items.flatMap Item.text, c ≠ opening ∧ c ≠ closing

theorem Brackets.balanced_stringText (hb : Brackets opening closing) {items : List Item}
    (h : Free opening closing items) : Balanced opening closing (stringText items) :=
  (hb.balanced_singleton (c := quote) (by decide)).append
    ((balanced_of_ne h).append (hb.balanced_singleton (by decide)))

theorem Array.balanced_body {ts : List Bytes} {s : Bytes} (h : Array ts s)
    (hb : Brackets opening closing) (hts : ∀ t ∈ ts, Balanced opening closing t) :
    ∃ body, s = lbracket :: (body ++ [rbracket]) ∧ Balanced opening closing body := by
  cases h with
  | empty hw => exact ⟨_, rfl, hb.balanced_of_blank hw⟩
  | elements hs => exact ⟨_, rfl, hs.balanced hb hts⟩

theorem Object.balanced_body {ms : List Member} {s : Bytes} (h : Object ms s)
    (hb : Brackets opening closing) (hkeys : ∀ m ∈ ms, Free opening closing m.key)
    (hms : ∀ m ∈ ms, Balanced opening closing m.value) :
    ∃ body, s = lbrace :: (body ++ [rbrace]) ∧ Balanced opening closing body := by
  cases h with
  | empty hw => exact ⟨_, rfl, hb.balanced_of_blank hw⟩
  | members hs =>
    refine ⟨_, rfl, hs.balanced hb ?_⟩
    rw [List.forall_mem_map]
    intro m hm
    exact (hb.balanced_stringText (hkeys m hm)).append
      ((hb.balanced_of_blank m.blank_before).append
        ((hb.balanced_singleton (c := colon) (by decide)).append
          ((hb.balanced_of_blank m.blank_after).append (hms m hm))))

/-- **A value without brackets in its strings is balanced.** -/
theorem ValueOver.balanced (hb : Brackets opening closing) {v : Bytes}
    (h : ValueOver (Free opening closing) v) : Balanced opening closing v := by
  have hscalar : ∀ s : Bytes, (∀ c ∈ s, isScalarByte c) → Balanced opening closing s :=
    fun s hs => balanced_of_ne fun c hc => hb.ne_of_notMem fun hmem => by
      have hbyte := hs c hc
      simp only [List.mem_cons, List.not_mem_nil, or_false] at hmem
      rcases hmem with rfl | rfl | rfl | rfl <;> exact absurd hbyte (by decide)
  induction h with
  | null => exact hscalar _ (isScalarByte_of_mem_literal (by simp)).2
  | true => exact hscalar _ (isScalarByte_of_mem_literal (by simp)).2
  | false => exact hscalar _ (isScalarByte_of_mem_literal (by simp)).2
  | number n => exact hscalar _ fun c hc => n.isScalarByte_of_mem hc
  | string h => exact hb.balanced_stringText h
  | array hs _ ih =>
    obtain ⟨body, rfl, hbody⟩ := hs.balanced_body hb ih
    exact hb.balanced_wrap .brackets hbody
  | object hs hkeys _ ih =>
    obtain ⟨body, rfl, hbody⟩ := hs.balanced_body hb hkeys ih
    exact hb.balanced_wrap .braces hbody

/-- **The brackets of an object or an array are first balanced at its end**, as long as no string
in it has a bracket of its kind. -/
theorem ValueOver.balancedAtEnd (hb : Brackets opening closing) {v : Bytes}
    (h : ValueOver (Free opening closing) v) (hv : v.head? = some opening) :
    BalancedAtEnd opening closing v := by
  have hkinds : ∀ p q body, Brackets p q → v = p :: (body ++ [q]) → Balanced opening closing body →
      BalancedAtEnd opening closing v := by
    intro p q body hpq heq hbody
    rw [heq, List.head?_cons, Option.some_inj] at hv
    subst hv
    cases hb <;> cases hpq <;> exact ⟨body, heq, hbody 1 one_pos⟩
  have hscalar : ∀ c, v.head? = some c → ¬ isScalarByte c ∧ c ≠ quote := by
    intro c hc
    rw [hv] at hc
    obtain rfl := Option.some.inj hc
    exact ⟨hb.not_isScalarByte, hb.ne_quote⟩
  cases h with
  | null => exact absurd (hscalar _ rfl).1 (by decide)
  | true => exact absurd (hscalar _ rfl).1 (by decide)
  | false => exact absurd (hscalar _ rfl).1 (by decide)
  | number n =>
    have hmem : opening ∈ n.text := List.mem_of_head? hv
    exact absurd (n.isScalarByte_of_mem hmem) (hscalar _ hv).1
  | string => exact absurd rfl (hscalar _ rfl).2
  | array hs hts =>
    obtain ⟨body, heq, hbody⟩ := hs.balanced_body hb fun t ht => (hts t ht).balanced hb
    exact hkinds _ _ body .brackets heq hbody
  | object hs hkeys hms =>
    obtain ⟨body, heq, hbody⟩ := hs.balanced_body hb hkeys fun m hm => (hms m hm).balanced hb
    exact hkinds _ _ body .braces heq hbody

end

end Json
