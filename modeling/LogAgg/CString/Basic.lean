import Mathlib

/-!
# Bytes, characters and C strings

The part of the C library the program leans on, in the C locale.  A C string is the
list of its bytes before the terminating NUL, and a cursor into a string is the list
of the bytes still ahead of it: the empty list is a cursor at the terminator.

`CStr cap` is a character array of `cap + 1` bytes read as a C string; that it fits
and holds no NUL is part of the type.
-/

namespace LogAgg

/-- A byte string. -/
abbrev Bytes := List UInt8

namespace Ascii

abbrev tab : UInt8 := 9
abbrev newline : UInt8 := 10
abbrev carriageReturn : UInt8 := 13
abbrev space : UInt8 := 32
abbrev quote : UInt8 := 34
abbrev comma : UInt8 := 44
abbrev colon : UInt8 := 58
abbrev lbracket : UInt8 := 91
abbrev backslash : UInt8 := 92
abbrev rbracket : UInt8 := 93
abbrev lbrace : UInt8 := 123
abbrev rbrace : UInt8 := 125

end Ascii

/-- The bytes of a string literal. -/
def ascii (s : String) : Bytes := s.toList.map fun c => c.toNat.toUInt8

/-! ## Character classes -/

/-- `isspace`. -/
def isspace (c : UInt8) : Bool := c == 32 || (decide (9 ≤ c) && decide (c ≤ 13))

/-- `isdigit`. -/
def isdigit (c : UInt8) : Bool := decide (48 ≤ c) && decide (c ≤ 57)

/-- `isprint`: the bytes `0x20` to `0x7e`. -/
def isprint (c : UInt8) : Bool := decide (32 ≤ c) && decide (c ≤ 126)

/-- `isupper`. -/
def isupper (c : UInt8) : Bool := decide (65 ≤ c) && decide (c ≤ 90)

/-- `isalnum`. -/
def isalnum (c : UInt8) : Bool :=
  isdigit c || isupper c || (decide (97 ≤ c) && decide (c ≤ 122))

/-- `tolower`. -/
def tolower (c : UInt8) : UInt8 := if isupper c then c + 32 else c

/-- A digit is no blank. -/
theorem isspace_of_isdigit {c : UInt8} (hc : isdigit c = true) : isspace c = false := by
  rw [isdigit, Bool.and_eq_true, decide_eq_true_eq, decide_eq_true_eq, UInt8.le_iff_toNat_le,
    UInt8.le_iff_toNat_le] at hc
  have h48 : (48 : UInt8).toNat = 48 := rfl
  rw [isspace, Bool.or_eq_false_iff, beq_eq_false_iff_ne, Bool.and_eq_false_iff]
  refine ⟨?_, Or.inr ?_⟩
  · rintro rfl
    exact absurd hc.1 (by decide)
  · rw [decide_eq_false_iff_not, UInt8.le_iff_toNat_le]
    have h13 : (13 : UInt8).toNat = 13 := rfl
    omega

/-! ## Strings -/

/-- `strcmp`, of which callers use only the sign.  A string that ends first is
smaller, its terminator being the smallest byte. -/
def strcmp : Bytes → Bytes → ℤ
  | [], [] => 0
  | [], _ :: _ => -1
  | _ :: _, [] => 1
  | a :: s, b :: t => if a = b then strcmp s t else if a < b then -1 else 1

/-- `strcasecmp` as a test for equality. -/
def strcaseeq (s t : Bytes) : Bool := s.map tolower == t.map tolower

/-- The C string at the start of some memory: the bytes before the first NUL. -/
def cstring (mem : Bytes) : Bytes := mem.takeWhile (· ≠ 0)

theorem cstring_eq_self {s : Bytes} (h : (0 : UInt8) ∉ s) : cstring s = s := by
  refine List.takeWhile_eq_self_iff.mpr fun c hc => ?_
  have hne : c ≠ 0 := by
    rintro rfl
    exact h hc
  simpa using hne

@[simp] theorem strcmp_self (s : Bytes) : strcmp s s = 0 := by
  induction s with
  | nil => rfl
  | cons a s ih => rw [strcmp, if_pos rfl, ih]

theorem strcmp_eq_zero_iff {s t : Bytes} : strcmp s t = 0 ↔ s = t := by
  constructor
  · intro h
    induction s generalizing t with
    | nil =>
      cases t with
      | nil => rfl
      | cons b t => exact absurd h (by simp [strcmp])
    | cons a s ih =>
      cases t with
      | nil => exact absurd h (by simp [strcmp])
      | cons b t =>
        rw [strcmp] at h
        by_cases hab : a = b
        · rw [if_pos hab] at h
          rw [hab, ih h]
        · rw [if_neg hab] at h
          split at h <;> simp at h
  · rintro rfl
    exact strcmp_self s

theorem byte_trichotomy (a b : UInt8) : a < b ∨ a = b ∨ b < a := by
  rcases lt_trichotomy a.toNat b.toNat with h | h | h
  · exact Or.inl (UInt8.lt_iff_toNat_lt.mpr h)
  · exact Or.inr (Or.inl (UInt8.toNat_inj.mp h))
  · exact Or.inr (Or.inr (UInt8.lt_iff_toNat_lt.mpr h))

theorem strcmp_cons_of_lt {a b : UInt8} (h : a < b) (s t : Bytes) :
    strcmp (a :: s) (b :: t) = -1 := by
  rw [strcmp, if_neg (UInt8.ne_of_lt h), if_pos h]

theorem strcmp_cons_of_gt {a b : UInt8} (h : b < a) (s t : Bytes) :
    strcmp (a :: s) (b :: t) = 1 := by
  rw [strcmp, if_neg (UInt8.ne_of_lt h).symm, if_neg (UInt8.lt_asymm h)]

@[simp] theorem strcmp_cons_self (a : UInt8) (s t : Bytes) :
    strcmp (a :: s) (a :: t) = strcmp s t := by
  rw [strcmp, if_pos rfl]

/-- Swapping the arguments of `strcmp` swaps the sign. -/
theorem strcmp_swap (s t : Bytes) : strcmp t s = -strcmp s t := by
  induction s generalizing t with
  | nil => cases t <;> simp [strcmp]
  | cons a s ih =>
    cases t with
    | nil => simp [strcmp]
    | cons b t =>
      rcases byte_trichotomy a b with h | rfl | h
      · rw [strcmp_cons_of_lt h, strcmp_cons_of_gt h, neg_neg]
      · rw [strcmp_cons_self, strcmp_cons_self, ih]
      · rw [strcmp_cons_of_gt h, strcmp_cons_of_lt h]

/-- `strcmp` orders transitively. -/
theorem strcmp_le_trans {s t u : Bytes} (hst : strcmp s t ≤ 0) (htu : strcmp t u ≤ 0) :
    strcmp s u ≤ 0 := by
  induction s generalizing t u with
  | nil => cases u <;> simp [strcmp]
  | cons a s ih =>
    cases t with
    | nil => simp [strcmp] at hst
    | cons b t =>
      cases u with
      | nil => simp [strcmp] at htu
      | cons c u =>
        rcases byte_trichotomy a b with hab | rfl | hab
        · rcases byte_trichotomy b c with hbc | rfl | hbc
          · rw [strcmp_cons_of_lt (UInt8.lt_trans hab hbc)]
            decide
          · rw [strcmp_cons_of_lt hab]
            decide
          · rw [strcmp_cons_of_gt hbc] at htu
            exact absurd htu (by decide)
        · rcases byte_trichotomy a c with hac | rfl | hac
          · rw [strcmp_cons_of_lt hac]
            decide
          · rw [strcmp_cons_self] at hst htu ⊢
            exact ih hst htu
          · rw [strcmp_cons_of_gt hac] at htu
            exact absurd htu (by decide)
        · rw [strcmp_cons_of_gt hab] at hst
          exact absurd hst (by decide)

/-- A character array of `cap + 1` bytes, read as a C string. -/
@[ext]
structure CStr (cap : ℕ) where
  /-- The bytes before the terminator. -/
  bytes : Bytes
  /-- They leave room for the terminator. -/
  length_le : bytes.length ≤ cap
  /-- None of them is the terminator. -/
  nul_notMem : (0 : UInt8) ∉ bytes
  deriving DecidableEq

namespace CStr

variable {cap : ℕ}

/-- The empty string. -/
def empty : CStr cap := ⟨[], Nat.zero_le _, List.not_mem_nil⟩

/-- What the array holds after some bytes and a terminator were stored in it. -/
def ofBytes (s : Bytes) : CStr cap :=
  ⟨cstring (s.take cap), by
    refine (List.takeWhile_prefix _).length_le.trans ?_
    rw [List.length_take]
    exact Nat.min_le_left _ _, by
    intro h
    have := List.mem_takeWhile_imp h
    simp at this⟩

theorem bytes_ofBytes {s : Bytes} (hlen : s.length ≤ cap) (hnul : (0 : UInt8) ∉ s) :
    (ofBytes s : CStr cap).bytes = s := by
  have hval : (ofBytes s : CStr cap).bytes = cstring (s.take cap) := rfl
  rw [hval, List.take_of_length_le hlen, cstring_eq_self hnul]

end CStr

/-! ## Decimal numbers -/

/-- The decimal digits of a number, as `printf` prints them. -/
def decimal (n : ℕ) : Bytes :=
  if n = 0 then [48] else (Nat.digits 10 n).reverse.map fun d => 48 + d.toUInt8

/-- The loop that reads digits, in unsigned 64-bit arithmetic: the value and the rest
of the text. -/
def scanDigits (value : UInt64) : Bytes → UInt64 × Bytes
  | [] => (value, [])
  | c :: s => if isdigit c then scanDigits (value * 10 + (c - 48).toUInt64) s else (value, c :: s)

theorem isdigit_add {d : ℕ} (hd : d < 10) : isdigit (48 + d.toUInt8) = true := by
  revert d
  decide

theorem mem_decimal {n : ℕ} {c : UInt8} (hc : c ∈ decimal n) : isdigit c = true := by
  unfold decimal at hc
  split at hc
  · rw [List.mem_singleton] at hc
    subst hc
    decide
  · rw [List.mem_map] at hc
    obtain ⟨d, hd, rfl⟩ := hc
    exact isdigit_add (Nat.digits_lt_base (by decide) (List.mem_reverse.mp hd))

theorem decimal_ne_nil (n : ℕ) : decimal n ≠ [] := by
  unfold decimal
  split
  · exact List.cons_ne_nil _ _
  · rename_i h
    rw [Ne, List.map_eq_nil_iff, List.reverse_eq_nil_iff, Nat.digits_eq_nil_iff_eq_zero]
    exact h

theorem length_decimal_le {n k : ℕ} (hk : 1 ≤ k) (h : n < 10 ^ k) : (decimal n).length ≤ k := by
  unfold decimal
  split
  · exact hk
  · rw [List.length_map, List.length_reverse]
    exact (Nat.digits_length_le_iff (by decide) n).mpr h

/-- Reading digits is a fold, whatever non-digit follows. -/
theorem scanDigits_append {ds : List ℕ} (hds : ∀ d ∈ ds, d < 10) (v : UInt64) {rest : Bytes}
    (hrest : ∀ c, rest.head? = some c → isdigit c = false) :
    scanDigits v ((ds.map fun d => 48 + d.toUInt8) ++ rest) =
      (ds.foldl (fun v d => v * 10 + UInt64.ofNat d) v, rest) := by
  induction ds generalizing v with
  | nil =>
    cases rest with
    | nil => rfl
    | cons c s =>
      rw [List.map_nil, List.nil_append, scanDigits, hrest c rfl]
      rfl
  | cons d ds ih =>
    have hd := hds d List.mem_cons_self
    have hval : ((48 + d.toUInt8) - 48).toUInt64 = UInt64.ofNat d := by
      clear ih hds
      revert d
      decide
    rw [List.map_cons, List.cons_append, scanDigits, if_pos (isdigit_add hd), hval,
      ih (fun d hd => hds d (List.mem_cons_of_mem _ hd)), List.foldl_cons]

/-- The fold over the digits, most significant first, is the number. -/
theorem foldl_digits_ofNat (ds : List ℕ) :
    ds.reverse.foldl (fun v d => v * 10 + UInt64.ofNat d) 0 = UInt64.ofNat (Nat.ofDigits 10 ds) := by
  induction ds with
  | nil => rfl
  | cons d ds ih =>
    rw [List.reverse_cons, List.foldl_append, ih, List.foldl_cons, List.foldl_nil,
      Nat.ofDigits_cons, UInt64.ofNat_add, UInt64.ofNat_mul, add_comm, mul_comm]
    rfl

/-- **Numbers survive printing and reading.** -/
theorem scanDigits_decimal (n : UInt64) {rest : Bytes}
    (hrest : ∀ c, rest.head? = some c → isdigit c = false) :
    scanDigits 0 (decimal n.toNat ++ rest) = (n, rest) := by
  unfold decimal
  split
  · rename_i h
    have hn : n = 0 := UInt64.toNat_inj.mp h
    subst hn
    have hzero : ∀ d ∈ [0], d < 10 := by decide
    exact scanDigits_append hzero 0 hrest
  · rw [scanDigits_append (fun d hd => Nat.digits_lt_base (by decide) (List.mem_reverse.mp hd)) 0
      hrest, foldl_digits_ofNat, Nat.ofDigits_digits, UInt64.ofNat_toNat]

end LogAgg
