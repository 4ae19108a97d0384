import LogAgg.CString.Scanf

/-!
# JSON texts

The grammar of JSON over bytes, with what strings and numbers stand for.

* `Item`: what stands between the quotes of a string, an item at a time; `stringValue` is the
  string in UTF-8, which a lone half of a surrogate pair does not have.
* `Number`: a number, part by part, and its value.
* `Joined`: texts with blanks around them and commas between them.
* `Member`, `Object`, `Array`, `Value`: the values, as a predicate on texts.

An invalid item, number or member cannot be built: each carries what the grammar asks of it.
-/

namespace Json

open LogAgg LogAgg.Ascii

/-! ## Blanks -/

/-- The four blanks of the grammar. -/
def isBlank (c : UInt8) : Bool := c == 32 || c == 9 || c == 10 || c == 13

/-- A text of blanks. -/
abbrev Blank (s : Bytes) : Prop := ∀ c ∈ s, isBlank c = true

theorem blank_nil : Blank [] := fun _ hc => absurd hc List.not_mem_nil

/-! ## Strings -/

/-- The byte that an escape of two characters stands for. -/
def escapeValue (d : UInt8) : Option UInt8 :=
  if d = quote then some quote
  else if d = backslash then some backslash
  else if d = 47 then some 47
  else if d = 98 then some 8
  else if d = 102 then some 12
  else if d = 110 then some newline
  else if d = 114 then some carriageReturn
  else if d = 116 then some tab
  else none

/-- The value of a hexadecimal digit. -/
def hexDigit (c : UInt8) : Option ℕ :=
  if 48 ≤ c ∧ c ≤ 57 then some (c.toNat - 48)
  else if 65 ≤ c ∧ c ≤ 70 then some (c.toNat - 55)
  else if 97 ≤ c ∧ c ≤ 102 then some (c.toNat - 87)
  else none

/-- Four hexadecimal digits. -/
structure Hex where
  digits : Vector UInt8 4
  isHex : ∀ c ∈ digits, (hexDigit c).isSome = true

/-- The number written in four hexadecimal digits. -/
def Hex.value (h : Hex) : ℕ := h.digits.foldl (fun v c => v * 16 + (hexDigit c).getD 0) 0

/-- One item of a string. -/
inductive Item where
  /-- A byte that stands for itself. -/
  | plain (c : UInt8) (hc : 32 ≤ c ∧ c ≠ quote ∧ c ≠ backslash)
  /-- A backslash and a letter. -/
  | escape (d : UInt8) (hd : (escapeValue d).isSome = true)
  /-- A backslash, a `u` and four digits. -/
  | unicode (h : Hex)

/-- The text of an item. -/
def Item.text : Item → Bytes
  | .plain c _ => [c]
  | .escape d _ => [backslash, d]
  | .unicode h => backslash :: 117 :: h.digits.toList

/-- A string, in its quotes. -/
def stringText (items : List Item) : Bytes := quote :: (items.flatMap Item.text ++ [quote])

/-- The UTF-8 encoding of a code point. -/
def utf8 (n : ℕ) : Bytes := String.utf8EncodeChar (Char.ofNat n)

/-- The bytes of a string.  Two unicode escapes with the halves of a surrogate pair make up
one code point; a lone half stands for nothing. -/
def stringValue : List Item → Option Bytes
  | [] => some []
  | .plain c _ :: items => (stringValue items).map (c :: ·)
  | .escape d _ :: items => do
      let b ← escapeValue d
      (stringValue items).map (b :: ·)
  | .unicode h :: .unicode l :: items =>
      if 0xD800 ≤ h.value ∧ h.value < 0xDC00 ∧ 0xDC00 ≤ l.value ∧ l.value < 0xE000 then
        (stringValue items).map
          (utf8 (0x10000 + (h.value - 0xD800) * 0x400 + (l.value - 0xDC00)) ++ ·)
      else if 0xD800 ≤ h.value ∧ h.value < 0xE000 then none
      else (stringValue (.unicode l :: items)).map (utf8 h.value ++ ·)
  | .unicode h :: items =>
      if 0xD800 ≤ h.value ∧ h.value < 0xE000 then none
      else (stringValue items).map (utf8 h.value ++ ·)

/-! ## Numbers -/

/-- The exponent of a number. -/
structure Exponent where
  marker : UInt8
  negative : Bool
  plus : Bool
  digits : Bytes
  isMarker : marker = 101 ∨ marker = 69
  isSign : negative = true → plus = false
  ne_nil : digits ≠ []
  isdigit_of_mem : ∀ c ∈ digits, isdigit c = true

def Exponent.text (e : Exponent) : Bytes :=
  e.marker :: ((if e.negative then [45] else if e.plus then [43] else []) ++ e.digits)

def Exponent.value (e : Exponent) : ℤ :=
  if e.negative then -(digitsValue e.digits : ℤ) else digitsValue e.digits

/-- A number, part by part.  The fraction is the digits behind the point, if there are any. -/
structure Number where
  negative : Bool
  int : Bytes
  frac : Bytes
  exponent : Option Exponent
  int_ne_nil : int ≠ []
  int_isdigit : ∀ c ∈ int, isdigit c = true
  no_leading_zero : int.head? = some 48 → int = [48]
  frac_isdigit : ∀ c ∈ frac, isdigit c = true

namespace Number

/-- What stands behind the integer part. -/
def tail (n : Number) : Bytes :=
  (if n.frac = [] then [] else 46 :: n.frac) ++ (n.exponent.map Exponent.text).getD []

def text (n : Number) : Bytes := (if n.negative then [45] else []) ++ (n.int ++ n.tail)

def value (n : Number) : ℚ :=
  (if n.negative then -1 else 1) * digitsValue (n.int ++ n.frac) *
    10 ^ ((n.exponent.map Exponent.value).getD 0 - n.frac.length)

variable {n : Number}

/-- Behind the integer part stands nothing, a point or an exponent. -/
theorem tail_eq_nil_or (n : Number) :
    (n.frac = [] ∧ n.exponent = none) ∨ ∃ c s, n.tail = c :: s ∧ (c = 46 ∨ c = 101 ∨ c = 69) := by
  unfold tail
  by_cases hfrac : n.frac = []
  · rw [if_pos hfrac, List.nil_append]
    cases hexp : n.exponent with
    | none => exact Or.inl ⟨hfrac, rfl⟩
    | some e => exact Or.inr ⟨e.marker, _, rfl, Or.inr e.isMarker⟩
  · rw [if_neg hfrac]
    exact Or.inr ⟨46, _, rfl, Or.inl rfl⟩

/-- A number without a sign, a fraction and an exponent is its digits. -/
theorem value_of_plain (hneg : n.negative = false) (hfrac : n.frac = [])
    (hexp : n.exponent = none) : n.value = digitsValue n.int := by
  rw [value, hneg, hfrac, hexp]
  simp

end Number

/-! ## Values -/

/-- Texts with blanks around them and commas between them. -/
inductive Joined : List Bytes → Bytes → Prop where
  | last {w t w' : Bytes} (hw : Blank w) (hw' : Blank w') : Joined [t] (w ++ (t ++ w'))
  | next {w t w' s : Bytes} {ts : List Bytes} (hw : Blank w) (hw' : Blank w')
      (hs : Joined ts s) : Joined (t :: ts) (w ++ (t ++ (w' ++ comma :: s)))

/-- A member of an object: a string, a colon and the text of a value. -/
structure Member where
  key : List Item
  before : Bytes
  after : Bytes
  value : Bytes
  blank_before : Blank before
  blank_after : Blank after

/-- The text of a member. -/
def Member.text (m : Member) : Bytes :=
  stringText m.key ++ (m.before ++ colon :: (m.after ++ m.value))

/-- An object with the given members. -/
inductive Object : List Member → Bytes → Prop where
  | empty {w : Bytes} (hw : Blank w) : Object [] (lbrace :: (w ++ [rbrace]))
  | members {ms : List Member} {s : Bytes} (hs : Joined (ms.map Member.text) s) :
      Object ms (lbrace :: (s ++ [rbrace]))

/-- An array with the given elements. -/
inductive Array : List Bytes → Bytes → Prop where
  | empty {w : Bytes} (hw : Blank w) : Array [] (lbracket :: (w ++ [rbracket]))
  | elements {ts : List Bytes} {s : Bytes} (hs : Joined ts s) :
      Array ts (lbracket :: (s ++ [rbracket]))

/-- The text of a value. -/
inductive Value : Bytes → Prop where
  | null : Value (ascii "null")
  | true : Value (ascii "true")
  | false : Value (ascii "false")
  | number (n : Number) : Value n.text
  | string (items : List Item) : Value (stringText items)
  | array {ts : List Bytes} {s : Bytes} (hs : Array ts s) (hts : ∀ t ∈ ts, Value t) : Value s
  | object {ms : List Member} {s : Bytes} (hs : Object ms s) (hms : ∀ m ∈ ms, Value m.value) :
      Value s

end Json
