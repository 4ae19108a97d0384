import LogAgg.CString.Trailing

/-!
# Formatted input

`sscanf`, as far as the program uses it: a format is a list of directives, and the result is
the list of what was converted before the first directive that failed, so that the return
value of the C function is its length.

`%[^c]` takes a line break like any other byte.  All the same a text with a line break behind
it is converted like the text itself, if the sets of the format stop at line breaks
(`scanf_trails`), or if only the first one does not, and the byte it stops at is matched
behind it: then two conversions succeed for both texts, or for neither (`scanf_set_char`).
-/

namespace LogAgg

open Ascii

/-- The directives of a format. -/
inductive Directive where
  /-- A byte that is to be matched. -/
  | char (c : UInt8)
  /-- Any white space. -/
  | blank
  /-- `%d`. -/
  | int
  /-- `%<width>s`. -/
  | word (width : ℕ)
  /-- `%[^<stop>]`, perhaps with a width. -/
  | set (width : Option ℕ) (stop : UInt8)
  deriving DecidableEq

/-- What a conversion stores. -/
inductive Scanned where
  | int (value : ℤ)
  | str (text : Bytes)
  deriving DecidableEq

/-- `%d` at a byte that is no blank: an optional sign and at least one digit, with the value
that `atoi` has for them. -/
def scanInt (s : Bytes) : Option (ℤ × Bytes) :=
  let digits := if s.head? = some 45 ∨ s.head? = some 43 then s.tail else s
  match digits with
  | [] => none
  | c :: _ => if isdigit c then some (atoi s, digits.dropWhile isdigit) else none

/-- The bytes that a width leaves to a conversion. -/
def upTo (width : Option ℕ) (s : Bytes) : Bytes :=
  match width with
  | some w => s.take w
  | none => s

/-- `%<width>s` at a byte that is no blank, and `%[^c]`: the bytes of a kind, up to a width. -/
def scanSpan (width : Option ℕ) (p : UInt8 → Bool) (s : Bytes) : Option (Bytes × Bytes) :=
  let text := (upTo width s).takeWhile p
  if text = [] then none else some (text, s.drop text.length)

/-- `sscanf`: what is converted before the first directive that fails. -/
def scanf : List Directive → Bytes → List Scanned
  | [], _ => []
  | .char c :: format, s =>
      match s with
      | [] => []
      | d :: s => if d = c then scanf format s else []
  | .blank :: format, s => scanf format (skipWhitespace s)
  | .int :: format, s =>
      match scanInt (skipWhitespace s) with
      | none => []
      | some (value, s) => .int value :: scanf format s
  | .word width :: format, s =>
      match scanSpan (some width) (fun c => !isspace c) (skipWhitespace s) with
      | none => []
      | some (text, s) => .str text :: scanf format s
  | .set width stop :: format, s =>
      match scanSpan width (fun c => c != stop) s with
      | none => []
      | some (text, s) => .str text :: scanf format s

/-! ## A blank behind the text -/

section

variable {blank : UInt8} {s t : Bytes}

/-- Two conversions fail, or convert the same and leave the blank to what follows. -/
def SameScan {α : Type} (blank : UInt8) (x y : Option (α × Bytes)) : Prop :=
  x = none ∧ y = none ∨
    ∃ value s t, x = some (value, s) ∧ y = some (value, t) ∧ Trails blank s t

theorem takeWhile_append_of_neg {p : UInt8 → Bool} (hp : p blank = false) (s : Bytes) :
    (s ++ [blank]).takeWhile p = s.takeWhile p := by
  induction s with
  | nil =>
    rw [List.nil_append, List.takeWhile_cons_of_neg (by simp [hp]), List.takeWhile_nil]
  | cons c s ih => rw [List.cons_append, List.takeWhile_cons, List.takeWhile_cons, ih]

theorem dropWhile_append_of_neg {p : UInt8 → Bool} (hp : p blank = false) (s : Bytes) :
    (s ++ [blank]).dropWhile p = s.dropWhile p ++ [blank] := by
  induction s with
  | nil =>
    rw [List.nil_append, List.dropWhile_cons_of_neg (by simp [hp]), List.dropWhile_nil,
      List.nil_append]
  | cons c s ih =>
    rw [List.cons_append, List.dropWhile_cons, List.dropWhile_cons, ih]
    split
    · rfl
    · rfl

theorem atoi_append (hblank : isspace blank = true) (s : Bytes) :
    atoi (s ++ [blank]) = atoi s := by
  have hdigits : ∀ s : Bytes, (s ++ [blank]).takeWhile isdigit = s.takeWhile isdigit :=
    fun s => takeWhile_append_of_neg (isdigit_of_isspace hblank) s
  unfold atoi
  rcases ahead_skipWhitespace hblank (Or.inl rfl : Trails blank s (s ++ [blank])) with
    ⟨hne, hskip⟩ | ⟨hs, ht⟩
  · rw [hskip]
    cases hs : skipWhitespace s with
    | nil => exact absurd hs hne
    | cons c rest =>
      dsimp only [List.cons_append]
      rw [hdigits rest, ← List.cons_append, hdigits (c :: rest)]
  · rw [hs, ht]

theorem sameScan_scanInt (hblank : isspace blank = true) (h : Ahead blank s t) :
    SameScan blank (scanInt s) (scanInt t) := by
  rcases h with ⟨hne, rfl⟩ | ⟨rfl, rfl⟩
  · have hdigit := isdigit_of_isspace hblank
    -- behind the sign
    have hbehind : ∀ digits : Bytes,
        SameScan blank
          (match digits with
            | [] => none
            | c :: _ => if isdigit c then some (atoi s, digits.dropWhile isdigit) else none)
          (match digits ++ [blank] with
            | [] => none
            | c :: _ =>
              if isdigit c then some (atoi (s ++ [blank]), (digits ++ [blank]).dropWhile isdigit)
              else none) := by
      intro digits
      cases digits with
      | nil =>
        left
        refine ⟨rfl, ?_⟩
        dsimp only [List.nil_append]
        rw [hdigit]
        rfl
      | cons c digits =>
        dsimp only [List.cons_append]
        by_cases hc : isdigit c = true
        · rw [if_pos hc, if_pos hc, atoi_append hblank]
          refine Or.inr ⟨_, _, _, rfl, rfl, Or.inl ?_⟩
          rw [← List.cons_append, dropWhile_append_of_neg hdigit]
        · rw [if_neg hc, if_neg hc]
          exact Or.inl ⟨rfl, rfl⟩
    unfold scanInt
    rw [List.head?_append_of_ne_nil _ hne]
    by_cases hsign : s.head? = some 45 ∨ s.head? = some 43
    · rw [if_pos hsign, if_pos hsign, List.tail_append_of_ne_nil hne]
      exact hbehind s.tail
    · rw [if_neg hsign, if_neg hsign]
      exact hbehind s
  · exact Or.inl ⟨rfl, rfl⟩

theorem scanSpan_nil (width : Option ℕ) (p : UInt8 → Bool) : scanSpan width p [] = none := by
  have hnil : upTo width [] = [] := by
    cases width with
    | none => rfl
    | some w => exact List.take_nil
  rw [scanSpan, hnil]
  rfl

/-- What a span takes: some bytes of the kind, within the width, and it leaves the rest. -/
theorem of_scanSpan_eq_some {w : ℕ} {p : UInt8 → Bool} {s text rest : Bytes}
    (h : scanSpan (some w) p s = some (text, rest)) :
    s = text ++ rest ∧ (∀ c ∈ text, p c = true) ∧ text.length ≤ w := by
  rw [scanSpan] at h
  split at h
  · exact absurd h (by simp)
  · obtain ⟨rfl, rfl⟩ := Prod.mk.inj (Option.some_inj.mp h)
    have hstart : (upTo (some w) s).takeWhile p <+: s :=
      (List.takeWhile_prefix _).trans (List.take_prefix w s)
    refine ⟨?_, fun c hc => List.mem_takeWhile_imp hc, ?_⟩
    · obtain ⟨rest, hs⟩ := hstart
      nth_rewrite 1 [← hs]
      rw [List.append_cancel_left_eq]
      nth_rewrite 2 [← hs]
      rw [List.drop_left]
    · refine (List.takeWhile_prefix _).length_le.trans ?_
      rw [upTo, List.length_take]
      exact Nat.min_le_left _ _

theorem upTo_append (width : Option ℕ) (s : Bytes) :
    upTo width (s ++ [blank]) = upTo width s ∨
      upTo width (s ++ [blank]) = s ++ [blank] ∧ upTo width s = s := by
  cases width with
  | none => exact Or.inr ⟨rfl, rfl⟩
  | some w =>
    by_cases hw : w ≤ s.length
    · exact Or.inl (List.take_append_of_le_length hw)
    · right
      refine ⟨List.take_of_length_le ?_, List.take_of_length_le (by omega)⟩
      rw [List.length_append, List.length_singleton]
      omega

theorem length_takeWhile_upTo_le (width : Option ℕ) (p : UInt8 → Bool) (s : Bytes) :
    ((upTo width s).takeWhile p).length ≤ s.length := by
  refine (List.takeWhile_prefix p).length_le.trans ?_
  cases width with
  | none => exact le_rfl
  | some w =>
    rw [upTo, List.length_take]
    exact Nat.min_le_right _ _

/-- The same text, in front of the blank. -/
theorem sameScan_of_takeWhile_eq {width : Option ℕ} {p : UInt8 → Bool} {s : Bytes}
    (h : (upTo width (s ++ [blank])).takeWhile p = (upTo width s).takeWhile p) :
    SameScan blank (scanSpan width p s) (scanSpan width p (s ++ [blank])) := by
  unfold scanSpan
  dsimp only
  rw [h]
  by_cases hempty : (upTo width s).takeWhile p = []
  · rw [if_pos hempty, if_pos hempty]
    exact Or.inl ⟨rfl, rfl⟩
  · rw [if_neg hempty, if_neg hempty]
    refine Or.inr ⟨_, _, _, rfl, rfl, Or.inl ?_⟩
    exact List.drop_append_of_le_length (length_takeWhile_upTo_le width p s)

theorem sameScan_scanSpan_nil (width : Option ℕ) (p : UInt8 → Bool) :
    SameScan blank (scanSpan width p []) (scanSpan width p []) :=
  Or.inl ⟨scanSpan_nil width p, scanSpan_nil width p⟩

/-- A span that the blank does not belong to. -/
theorem sameScan_scanSpan (width : Option ℕ) {p : UInt8 → Bool} (hp : p blank = false)
    (h : Trails blank s t) : SameScan blank (scanSpan width p s) (scanSpan width p t) := by
  rcases h with rfl | ⟨rfl, rfl⟩
  · refine sameScan_of_takeWhile_eq ?_
    rcases upTo_append width s with h | ⟨h, h'⟩
    · rw [h]
    · rw [h, h', takeWhile_append_of_neg hp]
  · exact sameScan_scanSpan_nil width p

/-- Any span: the blank is left to what follows, or nothing at all. -/
theorem sameScan_or_nil (width : Option ℕ) (p : UInt8 → Bool) (h : Trails blank s t) :
    SameScan blank (scanSpan width p s) (scanSpan width p t) ∨
      (∀ r ∈ scanSpan width p s, r.2 = []) ∧ ∀ r ∈ scanSpan width p t, r.2 = [] := by
  by_cases hp : p blank = false
  · exact Or.inl (sameScan_scanSpan width hp h)
  rw [Bool.not_eq_false] at hp
  rcases h with rfl | ⟨rfl, rfl⟩
  · rcases upTo_append width s with heq | ⟨heq, hself⟩
    · exact Or.inl (sameScan_of_takeWhile_eq (by rw [heq]))
    · by_cases hall : s.takeWhile p = s
      · -- the span takes the blank, too
        have hall' : (s ++ [blank]).takeWhile p = s ++ [blank] := by
          rw [List.takeWhile_append, if_pos (by rw [hall]), List.takeWhile_cons_of_pos hp,
            List.takeWhile_nil]
        right
        constructor
        · intro r hr
          rw [scanSpan, hself, hall, Option.mem_def] at hr
          split at hr
          · exact absurd hr (by simp)
          · rw [← Option.some_inj.mp hr, List.drop_length]
        · intro r hr
          rw [scanSpan, heq, hall', Option.mem_def] at hr
          split at hr
          · exact absurd hr (by simp)
          · rw [← Option.some_inj.mp hr, List.drop_length]
      · left
        refine sameScan_of_takeWhile_eq ?_
        have hlen : (s.takeWhile p).length ≠ s.length :=
          fun h => hall ((List.takeWhile_prefix p).eq_of_length h)
        rw [heq, hself, List.takeWhile_append, if_neg hlen]
  · exact Or.inl (sameScan_scanSpan_nil width p)

/-- What a directive does not convert, or not behind the text: the blank. -/
def Directive.Stops (blank : UInt8) : Directive → Prop
  | .char c => blank ≠ c
  | .set _ stop => blank = stop
  | _ => True

instance (blank : UInt8) (d : Directive) : Decidable (d.Stops blank) :=
  match d with
  | .char c => inferInstanceAs (Decidable (blank ≠ c))
  | .set _ stop => inferInstanceAs (Decidable (blank = stop))
  | .blank => .isTrue trivial
  | .int => .isTrue trivial
  | .word _ => .isTrue trivial

/-- **A blank behind the text is not converted.** -/
theorem scanf_trails (hblank : isspace blank = true) {format : List Directive}
    (hformat : ∀ d ∈ format, d.Stops blank) (h : Trails blank s t) :
    scanf format s = scanf format t := by
  induction format generalizing s t with
  | nil => rfl
  | cons d format ih =>
    rw [List.forall_mem_cons] at hformat
    have hskip := ahead_skipWhitespace hblank h
    have hrest : ∀ {s t : Bytes}, Trails blank s t → scanf format s = scanf format t :=
      fun h => ih hformat.2 h
    cases d with
    | char c =>
      have hc : blank ≠ c := hformat.1
      rcases h with rfl | ⟨rfl, rfl⟩
      · cases s with
        | nil =>
          rw [List.nil_append, scanf, scanf, if_neg hc]
        | cons d s =>
          rw [List.cons_append, scanf, scanf]
          by_cases hd : d = c
          · rw [if_pos hd, if_pos hd]
            exact hrest (Or.inl rfl)
          · rw [if_neg hd, if_neg hd]
      · rfl
    | blank =>
      rw [scanf, scanf]
      exact hrest hskip.trails
    | int =>
      rw [scanf, scanf]
      rcases sameScan_scanInt hblank hskip with ⟨hs, ht⟩ | ⟨value, s', t', hs, ht, h'⟩
      · rw [hs, ht]
      · rw [hs, ht]
        exact congrArg (Scanned.int value :: ·) (hrest h')
    | word width =>
      rw [scanf, scanf]
      have hvisible : (!isspace blank) = false := by rw [hblank, Bool.not_true]
      rcases sameScan_scanSpan (p := fun c => !isspace c) (some width) hvisible hskip.trails with
        ⟨hs, ht⟩ | ⟨text, s', t', hs, ht, h'⟩
      · rw [hs, ht]
      · rw [hs, ht]
        exact congrArg (Scanned.str text :: ·) (hrest h')
    | set width stop =>
      have hstop : blank = stop := hformat.1
      rw [scanf, scanf]
      have hbreak : (blank != stop) = false := by rw [hstop, bne_self_eq_false]
      rcases sameScan_scanSpan (p := fun c => c != stop) width hbreak h with
        ⟨hs, ht⟩ | ⟨text, s', t', hs, ht, h'⟩
      · rw [hs, ht]
      · rw [hs, ht]
        exact congrArg (Scanned.str text :: ·) (hrest h')

/-- **A set and the byte it stops at**: the conversions are the same, or there is one at most. -/
theorem scanf_set_char (hblank : isspace blank = true) (width : Option ℕ) {stop : UInt8}
    (hstop : blank ≠ stop) {format : List Directive} (hformat : ∀ d ∈ format, d.Stops blank)
    (h : Trails blank s t) :
    scanf (.set width stop :: .char stop :: format) s =
        scanf (.set width stop :: .char stop :: format) t ∨
      (scanf (.set width stop :: .char stop :: format) s).length ≤ 1 ∧
        (scanf (.set width stop :: .char stop :: format) t).length ≤ 1 := by
  have hformat' : ∀ d ∈ Directive.char stop :: format, d.Stops blank := by
    rw [List.forall_mem_cons]
    exact ⟨hstop, hformat⟩
  rcases sameScan_or_nil width (fun c => c != stop) h with hsame | ⟨hs, ht⟩
  · left
    rw [scanf, scanf]
    rcases hsame with ⟨hs, ht⟩ | ⟨text, s', t', hs, ht, h'⟩
    · rw [hs, ht]
    · rw [hs, ht]
      exact congrArg (Scanned.str text :: ·) (scanf_trails hblank hformat' h')
  · -- nothing is left for the byte
    have hone : ∀ s : Bytes, (∀ r ∈ scanSpan width (fun c => c != stop) s, r.2 = []) →
        (scanf (.set width stop :: .char stop :: format) s).length ≤ 1 := by
      intro s hs
      rw [scanf]
      cases hspan : scanSpan width (fun c => c != stop) s with
      | none => exact Nat.zero_le 1
      | some r =>
        obtain ⟨text, rest⟩ := r
        have hrest : rest = [] := hs (text, rest) hspan
        rw [hrest]
        exact le_rfl
    exact Or.inr ⟨hone s hs, hone t ht⟩

end

/-! ## Numerals -/

/-- The number that some digits denote. -/
def digitsValue (digits : Bytes) : ℕ := digits.foldl (fun v c => v * 10 + (c.toNat - 48)) 0

/-- A numeral whose value an `int` holds. -/
structure Numeral where
  digits : Bytes
  ne_nil : digits ≠ []
  isdigit_of_mem : ∀ c ∈ digits, isdigit c = true
  value_lt : digitsValue digits < 2 ^ 31
  deriving DecidableEq

/-- The value of a numeral. -/
def Numeral.value (numeral : Numeral) : ℕ := digitsValue numeral.digits

theorem toNat_of_isdigit {c : UInt8} (hc : isdigit c = true) : 48 ≤ c.toNat ∧ c.toNat ≤ 57 := by
  rw [isdigit, Bool.and_eq_true, decide_eq_true_eq, decide_eq_true_eq, UInt8.le_iff_toNat_le,
    UInt8.le_iff_toNat_le] at hc
  exact hc

theorem isdigit_of_mem_singleton {c : UInt8} (hc : isdigit c = true) :
    ∀ d ∈ [c], isdigit d = true := by
  intro d hd
  rwa [List.mem_singleton.mp hd]

/-- One digit denotes a small number. -/
theorem digitsValue_singleton_lt {c : UInt8} (hc : isdigit c = true) :
    digitsValue [c] < 2 ^ 31 := by
  have hle := (toNat_of_isdigit hc).2
  show 0 * 10 + (c.toNat - 48) < 2 ^ 31
  omega

/-- So many digits denote a smaller number than one more digit. -/
theorem digitsValue_lt {digits : Bytes} (hdigits : ∀ c ∈ digits, isdigit c = true) :
    digitsValue digits < 10 ^ digits.length := by
  have hfold : ∀ v : ℕ, digits.foldl (fun v c => v * 10 + (c.toNat - 48)) v <
      (v + 1) * 10 ^ digits.length := by
    induction digits with
    | nil =>
      intro v
      rw [List.foldl_nil, List.length_nil, pow_zero, mul_one]
      exact Nat.lt_succ_self v
    | cons c digits ih =>
      rw [List.forall_mem_cons] at hdigits
      intro v
      have hc := (toNat_of_isdigit hdigits.1).2
      have hstep : v * 10 + (c.toNat - 48) + 1 ≤ (v + 1) * 10 := by omega
      rw [List.foldl_cons, List.length_cons, pow_succ', ← mul_assoc]
      exact (ih hdigits.2 _).trans_le (Nat.mul_le_mul_right _ hstep)
  have hzero := hfold 0
  rwa [zero_add, one_mul] at hzero

/-- `atoi` returns an `int`. -/
theorem atoi_bounds (s : Bytes) : -2 ^ 31 ≤ atoi s ∧ atoi s < 2 ^ 31 := by
  have hpos : 0 < 2 ^ 32 := by decide
  exact ⟨Int.le_bmod hpos, Int.bmod_lt hpos⟩

/-- The loop of `atoi` computes the value. -/
theorem foldl_eq_digitsValue {digits : Bytes} (hdigits : ∀ c ∈ digits, isdigit c = true) :
    digits.foldl (fun (v : ℤ) c => v * 10 + (c.toNat - 48)) 0 = digitsValue digits := by
  have hfold : ∀ v : ℕ, digits.foldl (fun (v : ℤ) c => v * 10 + (c.toNat - 48)) v =
      (digits.foldl (fun v c => v * 10 + (c.toNat - 48)) v : ℕ) := by
    induction digits with
    | nil => exact fun v => rfl
    | cons c digits ih =>
      rw [List.forall_mem_cons] at hdigits
      intro v
      have hc := toNat_of_isdigit hdigits.1
      have hstep : (v : ℤ) * 10 + (c.toNat - 48) = ((v * 10 + (c.toNat - 48) : ℕ) : ℤ) := by
        rw [Nat.cast_add, Nat.cast_mul, Nat.cast_sub hc.1]
        rfl
      rw [List.foldl_cons, List.foldl_cons, hstep, ih hdigits.2]
  exact hfold 0

/-- The run of a class of bytes at the start of a text. -/
theorem takeWhile_run {p : UInt8 → Bool} {run rest : Bytes} (hrun : ∀ c ∈ run, p c = true)
    (hrest : ∀ c, rest.head? = some c → p c = false) :
    (run ++ rest).takeWhile p = run ∧ (run ++ rest).dropWhile p = rest := by
  rw [List.takeWhile_append_of_pos hrun, List.dropWhile_append_of_pos hrun]
  cases rest with
  | nil => exact ⟨List.append_nil run, rfl⟩
  | cons c rest =>
    have hc := hrest c rfl
    rw [List.takeWhile_cons_of_neg (by simp [hc]), List.dropWhile_cons_of_neg (by simp [hc]),
      List.append_nil]
    exact ⟨rfl, rfl⟩

theorem head?_cons_class {p : UInt8 → Bool} {c : UInt8} (hc : p c = false) (rest : Bytes) :
    ∀ d, (c :: rest).head? = some d → p d = false := by
  intro d hd
  rwa [← Option.some.inj hd]

/-- A text tells where its first run ends. -/
theorem run_append_inj {p : UInt8 → Bool} {run run' rest rest' : Bytes}
    (hrun : ∀ c ∈ run, p c = true) (hrun' : ∀ c ∈ run', p c = true)
    (hrest : ∀ c, rest.head? = some c → p c = false)
    (hrest' : ∀ c, rest'.head? = some c → p c = false) (h : run ++ rest = run' ++ rest') :
    run = run' ∧ rest = rest' := by
  have hread := takeWhile_run hrun hrest
  have hread' := takeWhile_run hrun' hrest'
  rw [h] at hread
  exact ⟨hread.1.symm.trans hread'.1, hread.2.symm.trans hread'.2⟩

/-- The digits of a number denote it. -/
theorem digitsValue_decimal (n : ℕ) : digitsValue (decimal n) = n := by
  have hfold : ∀ ds : List ℕ, (∀ d ∈ ds, d < 10) →
      digitsValue (ds.reverse.map fun d => 48 + d.toUInt8) = Nat.ofDigits 10 ds := by
    intro ds hds
    induction ds with
    | nil => rfl
    | cons d ds ih =>
      rw [List.forall_mem_cons] at hds
      have hd : (48 + d.toUInt8).toNat - 48 = d := by
        have hlt := hds.1
        interval_cases d <;> rfl
      rw [List.reverse_cons, List.map_append, digitsValue, List.foldl_append, ← digitsValue,
        ih hds.2, List.map_singleton, List.foldl_cons, List.foldl_nil, hd, Nat.ofDigits_cons]
      omega
  unfold decimal
  split
  · rename_i hzero
    rw [hzero]
    rfl
  · rw [hfold _ fun d hd => Nat.digits_lt_base (by decide) hd, Nat.ofDigits_digits]

/-- A number that is printed before something else can be told from it. -/
theorem decimal_append_inj {m n : ℕ} {rest rest' : Bytes}
    (hrest : ∀ c, rest.head? = some c → isdigit c = false)
    (hrest' : ∀ c, rest'.head? = some c → isdigit c = false)
    (h : decimal m ++ rest = decimal n ++ rest') : m = n ∧ rest = rest' := by
  obtain ⟨hdecimal, hrests⟩ := run_append_inj (fun _ hc => mem_decimal hc)
    (fun _ hc => mem_decimal hc) hrest hrest' h
  have hvalue := congrArg digitsValue hdecimal
  rw [digitsValue_decimal, digitsValue_decimal] at hvalue
  exact ⟨hvalue, hrests⟩

/-- A digit is no sign. -/
theorem ne_sign_of_isdigit {c : UInt8} (hc : isdigit c = true) : c ≠ 45 ∧ c ≠ 43 := by
  constructor
  · rintro rfl
    exact absurd hc (by decide)
  · rintro rfl
    exact absurd hc (by decide)

/-- `atoi` of some digits, up to the saturation. -/
theorem atoi_digits {digits rest : Bytes} (hne : digits ≠ [])
    (hdigits : ∀ c ∈ digits, isdigit c = true)
    (hrest : ∀ c, rest.head? = some c → isdigit c = false) :
    atoi (digits ++ rest) = Int.bmod (min (2 ^ 63 - 1) (digitsValue digits)) (2 ^ 32) := by
  have htake := (takeWhile_run hdigits hrest).1
  cases digits with
  | nil => exact absurd rfl hne
  | cons c digits =>
    have hc := hdigits c List.mem_cons_self
    have hsign := ne_sign_of_isdigit hc
    unfold atoi
    rw [List.cons_append, skipWhitespace_cons (isspace_of_isdigit hc)]
    dsimp only
    rw [if_neg hsign.1, if_neg hsign.2, ← List.cons_append, htake, foldl_eq_digitsValue hdigits,
      max_eq_right]
    have : (0 : ℤ) ≤ digitsValue (c :: digits) := Int.natCast_nonneg _
    omega

namespace Numeral

variable (numeral : Numeral) {rest : Bytes}

/-- A numeral starts with a visible byte. -/
theorem skipWhitespace_digits (rest : Bytes) :
    skipWhitespace (numeral.digits ++ rest) = numeral.digits ++ rest := by
  cases hd : numeral.digits with
  | nil => exact absurd hd numeral.ne_nil
  | cons c digits =>
    have hc := numeral.isdigit_of_mem c (hd ▸ List.mem_cons_self)
    exact skipWhitespace_cons (isspace_of_isdigit hc) _

theorem atoi_append_rest (hrest : ∀ c, rest.head? = some c → isdigit c = false) :
    atoi (numeral.digits ++ rest) = numeral.value := by
  have hlt := numeral.value_lt
  rw [atoi_digits numeral.ne_nil numeral.isdigit_of_mem hrest, min_eq_right (by omega)]
  exact Int.bmod_eq_of_le (by omega) (by omega)

/-- **`%d` converts a numeral to its value.** -/
theorem scanInt_digits (hrest : ∀ c, rest.head? = some c → isdigit c = false) :
    scanInt (numeral.digits ++ rest) = some ((numeral.value : ℤ), rest) := by
  have hatoi := numeral.atoi_append_rest hrest
  have hdrop := (takeWhile_run numeral.isdigit_of_mem hrest).2
  cases hd : numeral.digits with
  | nil => exact absurd hd numeral.ne_nil
  | cons c digits =>
    have hc := numeral.isdigit_of_mem c (hd ▸ List.mem_cons_self)
    have hsign := ne_sign_of_isdigit hc
    rw [hd] at hatoi hdrop
    have hnosign : ¬ ((c :: digits ++ rest).head? = some 45 ∨
        (c :: digits ++ rest).head? = some 43) := by
      rw [List.cons_append, List.head?_cons, Option.some_inj, Option.some_inj, not_or]
      exact hsign
    unfold scanInt
    rw [if_neg hnosign, hatoi]
    dsimp only [List.cons_append]
    rw [if_pos hc, ← List.cons_append, hdrop]

/-- A `%d` in a format, in front of a numeral. -/
theorem scanf_int (format : List Directive)
    (hrest : ∀ c, rest.head? = some c → isdigit c = false) :
    scanf (.int :: format) (numeral.digits ++ rest) =
      .int numeral.value :: scanf format rest := by
  rw [scanf, skipWhitespace_digits, numeral.scanInt_digits hrest]

end Numeral

/-- `%d` reads a text as this value, in front of anything but a digit. -/
def ReadsInt (text : Bytes) (value : ℤ) : Prop :=
  ∀ (format : List Directive) (rest : Bytes), (∀ c, rest.head? = some c → isdigit c = false) →
    scanf (.int :: format) (text ++ rest) = .int value :: scanf format rest

theorem Numeral.readsInt (numeral : Numeral) : ReadsInt numeral.digits numeral.value :=
  fun format _ hrest => numeral.scanf_int format hrest

/-- A numeral with a sign, or without, whose value an `int` holds. -/
structure SignedNumeral where
  sign : Bytes
  digits : Bytes
  sign_eq : sign = [] ∨ sign = [43] ∨ sign = [45]
  ne_nil : digits ≠ []
  isdigit_of_mem : ∀ c ∈ digits, isdigit c = true
  value_mem : if sign = [45] then digitsValue digits ≤ 2 ^ 31 else digitsValue digits < 2 ^ 31

namespace SignedNumeral

variable (numeral : SignedNumeral)

/-- The value of a numeral with a sign. -/
def value : ℤ :=
  if numeral.sign = [45] then -(digitsValue numeral.digits : ℤ) else digitsValue numeral.digits

/-- The text of a numeral with a sign. -/
def text : Bytes := numeral.sign ++ numeral.digits

theorem value_bounds : -2 ^ 31 ≤ numeral.value ∧ numeral.value < 2 ^ 31 := by
  have hvalue := numeral.value_mem
  unfold value
  split
  · rename_i hsign
    rw [if_pos hsign] at hvalue
    omega
  · rename_i hsign
    rw [if_neg hsign] at hvalue
    omega

/-- Behind a sign `%d` reads the digits. -/
theorem scanInt_sign {c : UInt8} (hsign : c = 43 ∨ c = 45) {rest : Bytes}
    (hrest : ∀ c, rest.head? = some c → isdigit c = false) :
    scanInt (c :: (numeral.digits ++ rest)) =
      some (atoi (c :: (numeral.digits ++ rest)), rest) := by
  have hdrop := (takeWhile_run numeral.isdigit_of_mem hrest).2
  have hhead : (c :: (numeral.digits ++ rest)).head? = some 45 ∨
      (c :: (numeral.digits ++ rest)).head? = some 43 := by
    rw [List.head?_cons, Option.some_inj, Option.some_inj]
    exact hsign.symm
  unfold scanInt
  rw [if_pos hhead, List.tail_cons]
  cases hd : numeral.digits with
  | nil => exact absurd hd numeral.ne_nil
  | cons d digits =>
    rw [hd] at hdrop
    dsimp only [List.cons_append]
    rw [if_pos (numeral.isdigit_of_mem d (hd ▸ List.mem_cons_self)), ← List.cons_append, hdrop]

theorem atoi_sign {rest : Bytes} (hrest : ∀ c, rest.head? = some c → isdigit c = false) :
    (digitsValue numeral.digits < 2 ^ 31 →
      atoi (43 :: (numeral.digits ++ rest)) = digitsValue numeral.digits) ∧
    (digitsValue numeral.digits ≤ 2 ^ 31 →
      atoi (45 :: (numeral.digits ++ rest)) = -(digitsValue numeral.digits : ℤ)) := by
  have htake := (takeWhile_run numeral.isdigit_of_mem hrest).1
  constructor
  · intro hvalue
    unfold atoi
    rw [skipWhitespace_cons rfl]
    dsimp only
    rw [if_neg (by decide), if_pos rfl, htake, foldl_eq_digitsValue numeral.isdigit_of_mem,
      min_eq_right (by omega), max_eq_right (by omega)]
    exact Int.bmod_eq_of_le (by omega) (by omega)
  · intro hvalue
    unfold atoi
    rw [skipWhitespace_cons rfl]
    dsimp only
    rw [if_pos rfl, htake, foldl_eq_digitsValue numeral.isdigit_of_mem,
      min_eq_right (by omega), max_eq_right (by omega)]
    exact Int.bmod_eq_of_le (by omega) (by omega)

/-- **`%d` converts a numeral with a sign to its value.** -/
theorem readsInt : ReadsInt numeral.text numeral.value := by
  intro format rest hrest
  have hatoi := numeral.atoi_sign hrest
  have hvalue := numeral.value_mem
  rcases numeral.sign_eq with hsign | hsign | hsign
  · -- no sign
    rw [if_neg (by rw [hsign]; exact List.cons_ne_nil _ _ |>.symm)] at hvalue
    have hread := Numeral.readsInt
      ⟨numeral.digits, numeral.ne_nil, numeral.isdigit_of_mem, hvalue⟩ format rest hrest
    rw [text, value, hsign, if_neg (List.cons_ne_nil _ _).symm]
    exact hread
  · rw [if_neg (by rw [hsign]; decide)] at hvalue
    rw [text, value, hsign, if_neg (by decide), List.append_assoc, List.singleton_append, scanf,
      skipWhitespace_cons rfl, numeral.scanInt_sign (Or.inl rfl) hrest, hatoi.1 hvalue]
  · rw [if_pos hsign] at hvalue
    rw [text, value, hsign, if_pos rfl, List.append_assoc, List.singleton_append, scanf,
      skipWhitespace_cons rfl, numeral.scanInt_sign (Or.inr rfl) hrest, hatoi.2 hvalue]

end SignedNumeral

theorem scanf_char (c : UInt8) (format : List Directive) (s : Bytes) :
    scanf (.char c :: format) (c :: s) = scanf format s := by
  rw [scanf, if_pos rfl]

end LogAgg
