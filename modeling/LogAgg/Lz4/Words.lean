import LogAgg.CString.Basic
import LogAgg.Memory.Area

/-!
# Comparing words

`LZ4_count` compares eight bytes at a time, and finds the first byte in which two words differ
by counting the zero bits at the low end of their difference.  `returns_lz4Count` says that it
finds as many equal bytes as a loop over bytes would.
-/

namespace LogAgg

open Memory

/-! ## Words -/

/-- The word of `w` bits that lies in memory as these bytes, the low ones first. -/
def word (w : ℕ) (b : Bytes) : BitVec w := BitVec.ofNat w (Nat.ofDigits 256 (b.map UInt8.toNat))

/-- `LZ4_read32`. -/
def lz4Read32 (mem : Bytes) (i : ℕ) : Outcome (BitVec 32) := do
  let b ← read mem i 4
  return word 32 b

/-- `LZ4_read_ARCH`. -/
def lz4ReadArch (mem : Bytes) (i : ℕ) : Outcome (BitVec 64) := do
  let b ← read mem i 8
  return word 64 b

theorem digit_lt {b : Bytes} : ∀ d ∈ b.map UInt8.toNat, d < 256 := by
  intro d hd
  obtain ⟨u, -, rfl⟩ := List.mem_map.mp hd
  exact u.toNat_lt

theorem ofDigits_bytes_lt (b : Bytes) :
    Nat.ofDigits 256 (b.map UInt8.toNat) < 2 ^ (8 * b.length) := by
  have hlt := Nat.ofDigits_lt_base_pow_length (b := 256) (by omega) (digit_lt (b := b))
  rwa [List.length_map, show (256 : ℕ) = 2 ^ 8 from rfl, ← pow_mul] at hlt

theorem ofDigits_bytes_mod (b : Bytes) (k : ℕ) :
    Nat.ofDigits 256 (b.map UInt8.toNat) % 2 ^ (8 * k) =
      Nat.ofDigits 256 ((b.take k).map UInt8.toNat) := by
  rw [pow_mul, List.map_take]
  exact Nat.ofDigits_mod_pow_eq_ofDigits_take k (by omega) _ digit_lt

theorem ofDigits_bytes_inj {a b : Bytes} (hlen : a.length = b.length)
    (h : Nat.ofDigits 256 (a.map UInt8.toNat) = Nat.ofDigits 256 (b.map UInt8.toNat)) : a = b := by
  have hmap := Nat.ofDigits_inj_of_len_eq (by omega) (by rwa [List.length_map, List.length_map])
    digit_lt digit_lt h
  exact List.map_injective_iff.mpr (fun _ _ => UInt8.toNat_inj.mp) hmap

/-- Words that are equal lie in memory as the same bytes. -/
theorem word_inj {w : ℕ} {a b : Bytes} (ha : 8 * a.length ≤ w) (hlen : a.length = b.length) :
    word w a = word w b ↔ a = b := by
  refine ⟨fun h => ofDigits_bytes_inj hlen ?_, congrArg _⟩
  have hnat := congrArg BitVec.toNat h
  rw [word, word, BitVec.toNat_ofNat, BitVec.toNat_ofNat] at hnat
  have hpow : 2 ^ (8 * a.length) ≤ 2 ^ w := Nat.pow_le_pow_right (by omega) ha
  rwa [Nat.mod_eq_of_lt ((ofDigits_bytes_lt a).trans_le hpow),
    Nat.mod_eq_of_lt ((ofDigits_bytes_lt b).trans_le (hlen ▸ hpow))] at hnat

/-- The low bytes of two words are equal exactly if the low bits are. -/
theorem take_eq_take_iff_testBit {a b : Bytes} (hlen : a.length = b.length) (k : ℕ) :
    a.take k = b.take k ↔ ∀ i < 8 * k,
      (Nat.ofDigits 256 (a.map UInt8.toNat)).testBit i =
        (Nat.ofDigits 256 (b.map UInt8.toNat)).testBit i := by
  constructor
  · intro htake i hi
    have hmod := ofDigits_bytes_mod a k
    rw [htake, ← ofDigits_bytes_mod b k] at hmod
    have hbit := congrArg (Nat.testBit · i) hmod
    rwa [Nat.testBit_mod_two_pow, Nat.testBit_mod_two_pow, decide_eq_true hi, Bool.true_and,
      Bool.true_and] at hbit
  · intro hbits
    refine ofDigits_bytes_inj (by rw [List.length_take, List.length_take, hlen]) ?_
    rw [← ofDigits_bytes_mod, ← ofDigits_bytes_mod]
    refine Nat.eq_of_testBit_eq fun i => ?_
    rw [Nat.testBit_mod_two_pow, Nat.testBit_mod_two_pow]
    by_cases hi : i < 8 * k
    · rw [hbits i hi]
    · rw [decide_eq_false hi, Bool.false_and, Bool.false_and]

/-! ## The first difference -/

/-- `LZ4_NbCommonBytes`, of a difference that is not zero. -/
def lz4NbCommonBytes (val : BitVec 64) : ℕ := val.ctz.toNat / 8

/-- **The first difference.**  Two words differ first in the byte of the lowest bit in which
they differ. -/
theorem lz4NbCommonBytes_spec {a b : Bytes} (ha : a.length = 8) (hb : b.length = 8)
    (hne : word 64 a ^^^ word 64 b ≠ 0) :
    lz4NbCommonBytes (word 64 a ^^^ word 64 b) < 8 ∧
      (∀ k < lz4NbCommonBytes (word 64 a ^^^ word 64 b), a[k]? = b[k]?) ∧
      a[lz4NbCommonBytes (word 64 a ^^^ word 64 b)]? ≠
        b[lz4NbCommonBytes (word 64 a ^^^ word 64 b)]? := by
  have hlen : a.length = b.length := ha.trans hb.symm
  set x := word 64 a ^^^ word 64 b with hx
  have hz : x.ctz.toNat < 64 := BitVec.lt_def.mp (BitVec.ctz_lt_iff_ne_zero.mpr hne)
  have hbit : ∀ i < 64, x.getLsbD i =
      ((Nat.ofDigits 256 (a.map UInt8.toNat)).testBit i ^^
        (Nat.ofDigits 256 (b.map UInt8.toNat)).testBit i) := by
    intro i hi
    rw [hx, BitVec.getLsbD_xor, word, word, BitVec.getLsbD_ofNat, BitVec.getLsbD_ofNat,
      decide_eq_true hi, Bool.true_and, Bool.true_and]
  have hlow : a.take (x.ctz.toNat / 8) = b.take (x.ctz.toNat / 8) := by
    refine (take_eq_take_iff_testBit hlen _).mpr fun i hi => ?_
    have hzero := BitVec.getLsbD_false_of_lt_ctz (x := x) (i := i) (by omega)
    rw [hbit i (by omega)] at hzero
    simpa using hzero
  refine ⟨by rw [lz4NbCommonBytes]; omega, fun k hk => ?_, fun heq => ?_⟩
  · have hk' := congrArg (·[k]?) hlow
    rw [lz4NbCommonBytes] at hk
    rwa [List.getElem?_take_of_lt hk, List.getElem?_take_of_lt hk] at hk'
  · have hnext : a.take (x.ctz.toNat / 8 + 1) = b.take (x.ctz.toNat / 8 + 1) := by
      rw [lz4NbCommonBytes] at heq
      rw [List.take_add_one, List.take_add_one, hlow, heq]
    have hone := BitVec.getLsbD_true_ctz_of_ne_zero hne
    rw [hbit _ hz, (take_eq_take_iff_testBit hlen _).mp hnext _ (by omega), Bool.xor_self] at hone
    cases hone

/-! ## Counting -/

/-- A turn of the loop of `LZ4_count`: it goes on behind eight equal bytes, and is left with
where the first difference is (`true`) or with where there is no room for a word (`false`). -/
def lz4CountTurn (mem : Bytes) (pInLimit : ℕ) (p : ℕ × ℕ) : Outcome ((ℕ × ℕ) ⊕ (Bool × ℕ × ℕ)) :=
  if p.1 + 7 < pInLimit then do
    let wordMatch ← lz4ReadArch mem p.2
    let wordIn ← lz4ReadArch mem p.1
    let diff := wordMatch ^^^ wordIn
    if diff = 0 then return .inl (p.1 + 8, p.2 + 8)
    else return .inr (true, p.1 + lz4NbCommonBytes diff, p.2)
  else return .inr (false, p)

/-- `if (pIn < pInLimit - (w - 1) && read(pMatch) == read(pIn)) { pIn += w; pMatch += w; }`, where
`read` is `LZ4_read32`, `LZ4_read16` or one byte. -/
def lz4CountTail (mem : Bytes) (pInLimit w : ℕ) (p : ℕ × ℕ) : Outcome (ℕ × ℕ) :=
  if p.1 + (w - 1) < pInLimit then do
    let cellsMatch ← read mem p.2 w
    let cellsIn ← read mem p.1 w
    if word (8 * w) cellsMatch = word (8 * w) cellsIn then return (p.1 + w, p.2 + w) else return p
  else return p

/-- `LZ4_count`: how many bytes from `pIn` on, before `pInLimit`, equal those from `pMatch` on.
The source makes the first turn of the loop outside of it. -/
def lz4Count (mem : Bytes) (pIn pMatch pInLimit : ℕ) : Outcome ℕ := do
  let r ← loop (lz4CountTurn mem pInLimit) (pInLimit - pIn + 1) (pIn, pMatch)
  if r.1 then return r.2.1 - pIn
  else do
    let p ← lz4CountTail mem pInLimit 4 r.2
    let p ← lz4CountTail mem pInLimit 2 p
    let p ← lz4CountTail mem pInLimit 1 p
    return p.1 - pIn

/-- The equal bytes counted so far, and that fewer than `w` more are to be found: the limit is
near, or a difference. -/
structure Counting (mem : Bytes) (pIn pMatch pInLimit w n : ℕ) : Prop where
  le : pIn + n ≤ pInLimit
  eq : ∀ k < n, mem[pMatch + k]? = mem[pIn + k]?
  near : pInLimit < pIn + n + w ∨ ∃ k < w, mem[pMatch + n + k]? ≠ mem[pIn + n + k]?

section

variable {mem : Bytes} {pIn pMatch pInLimit : ℕ}

theorem Counting.eq_add {n w : ℕ} (heq : ∀ k < n, mem[pMatch + k]? = mem[pIn + k]?)
    (hmore : ∀ k < w, mem[pMatch + n + k]? = mem[pIn + n + k]?) :
    ∀ k < n + w, mem[pMatch + k]? = mem[pIn + k]? := by
  intro k hk
  by_cases hkn : k < n
  · exact heq k hkn
  · have hnext := hmore (k - n) (by omega)
    rwa [show pMatch + n + (k - n) = pMatch + k by omega,
      show pIn + n + (k - n) = pIn + k by omega] at hnext

theorem returns_lz4CountTurn (hle : pMatch ≤ pIn) (hlim : pInLimit ≤ mem.length) (p : ℕ × ℕ)
    (hp : ∃ n, p = (pIn + n, pMatch + n) ∧ pIn + n ≤ pInLimit ∧
      ∀ k < n, mem[pMatch + k]? = mem[pIn + k]?) :
    (lz4CountTurn mem pInLimit p).Returns (Sum.elim
      (fun q => (∃ n, q = (pIn + n, pMatch + n) ∧ pIn + n ≤ pInLimit ∧
        ∀ k < n, mem[pMatch + k]? = mem[pIn + k]?) ∧ pInLimit - q.1 < pInLimit - p.1)
      (fun r => ∃ n, r.2.1 = pIn + n ∧ (r.1 = false → r.2.2 = pMatch + n) ∧
        Counting mem pIn pMatch pInLimit (if r.1 then 1 else 8) n)) := by
  obtain ⟨n, rfl, hn, heq⟩ := hp
  rw [lz4CountTurn]
  by_cases hroom : pIn + n + 7 < pInLimit
  · have hmatch : pMatch + n + 8 ≤ mem.length := by omega
    have hin : pIn + n + 8 ≤ mem.length := by omega
    rw [if_pos hroom, lz4ReadArch, read_of_le hmatch, lz4ReadArch, read_of_le hin]
    simp only [Outcome.ret_bind, Outcome.pure_eq]
    have hcell : ∀ i k, k < 8 → ((mem.drop i).take 8)[k]? = mem[i + k]? := by
      intro i k hk
      rw [List.getElem?_take_of_lt hk, List.getElem?_drop]
    by_cases hdiff : word 64 ((mem.drop (pMatch + n)).take 8) ^^^
        word 64 ((mem.drop (pIn + n)).take 8) = 0
    · rw [if_pos hdiff]
      have hwords := (word_inj (by rw [length_take_drop hmatch])
        ((length_take_drop hmatch).trans (length_take_drop hin).symm)).mp
        (BitVec.xor_eq_zero_iff.mp hdiff)
      refine Outcome.returns_ret ⟨⟨n + 8, rfl, by omega, ?_⟩, ?_⟩
      · refine Counting.eq_add heq fun k hk => ?_
        rw [← hcell _ k hk, hwords, hcell _ k hk]
      · show pInLimit - (pIn + n + 8) < pInLimit - (pIn + n)
        omega
    · rw [if_neg hdiff]
      obtain ⟨hlt, hsame, hne⟩ := lz4NbCommonBytes_spec (length_take_drop hmatch)
        (length_take_drop hin) hdiff
      rw [hcell _ _ hlt, hcell _ _ hlt] at hne
      refine Outcome.returns_ret ⟨n + _, Nat.add_assoc _ _ _, nofun, ⟨by omega, ?_, ?_⟩⟩
      · refine Counting.eq_add heq fun k hk => ?_
        rw [← hcell _ k (by omega), hsame k hk, hcell _ k (by omega)]
      · exact Or.inr ⟨0, Nat.one_pos, by rwa [Nat.add_zero, Nat.add_zero, ← Nat.add_assoc,
          ← Nat.add_assoc]⟩
  · rw [if_neg hroom]
    exact Outcome.returns_ret ⟨n, rfl, fun _ => rfl, hn, heq,
      Or.inl (show pInLimit < pIn + n + 8 by omega)⟩

theorem returns_lz4CountTail (hle : pMatch ≤ pIn) (hlim : pInLimit ≤ mem.length) {w n : ℕ}
    (hw : 0 < w) (h : Counting mem pIn pMatch pInLimit (2 * w) n) :
    (lz4CountTail mem pInLimit w (pIn + n, pMatch + n)).Returns fun p =>
      ∃ m, p = (pIn + m, pMatch + m) ∧ Counting mem pIn pMatch pInLimit w m := by
  have hn := h.le
  rw [lz4CountTail]
  by_cases hroom : pIn + n + (w - 1) < pInLimit
  · have hmatch : pMatch + n + w ≤ mem.length := by omega
    have hin : pIn + n + w ≤ mem.length := by omega
    have hcell : ∀ i k, k < w → ((mem.drop i).take w)[k]? = mem[i + k]? := by
      intro i k hk
      rw [List.getElem?_take_of_lt hk, List.getElem?_drop]
    have hwords := word_inj (w := 8 * w) (by rw [length_take_drop hmatch])
      ((length_take_drop hmatch).trans (length_take_drop hin).symm)
    rw [if_pos hroom, read_of_le hmatch, Outcome.ret_bind, read_of_le hin, Outcome.ret_bind]
    simp only [hwords]
    by_cases hcells : (mem.drop (pMatch + n)).take w = (mem.drop (pIn + n)).take w
    · have hsame : ∀ k < w, mem[pMatch + n + k]? = mem[pIn + n + k]? := by
        intro k hk
        rw [← hcell _ k hk, hcells, hcell _ k hk]
      rw [if_pos hcells]
      refine Outcome.returns_ret ⟨n + w, by rw [Nat.add_assoc, Nat.add_assoc],
        by omega, Counting.eq_add h.eq hsame, ?_⟩
      rcases h.near with hnear | ⟨k, hk, hne⟩
      · exact Or.inl (by omega)
      · by_cases hkw : k < w
        · exact absurd (hsame k hkw) hne
        · refine Or.inr ⟨k - w, by omega, ?_⟩
          rwa [show pMatch + (n + w) + (k - w) = pMatch + n + k by omega,
            show pIn + (n + w) + (k - w) = pIn + n + k by omega]
    · rw [if_neg hcells]
      refine Outcome.returns_ret ⟨n, rfl, hn, h.eq, Or.inr ?_⟩
      by_contra hall
      push Not at hall
      refine hcells (List.ext_getElem? fun k => ?_)
      by_cases hk : k < w
      · rw [hcell _ k hk, hcell _ k hk, hall k hk]
      · rw [List.getElem?_eq_none (by rw [length_take_drop hmatch]; omega),
          List.getElem?_eq_none (by rw [length_take_drop hin]; omega)]
  · rw [if_neg hroom]
    exact Outcome.returns_ret ⟨n, rfl, hn, h.eq, Or.inl (by omega)⟩

/-- **Counting by words is counting by bytes.**  The count stops at the limit or at the first
difference. -/
theorem returns_lz4Count (hle : pMatch ≤ pIn) (hlim : pInLimit ≤ mem.length)
    (hin : pIn ≤ pInLimit) :
    (lz4Count mem pIn pMatch pInLimit).Returns (Counting mem pIn pMatch pInLimit 1) := by
  rw [lz4Count]
  refine (returns_loop (fun p : ℕ × ℕ => pInLimit - p.1) (returns_lz4CountTurn hle hlim)
    (s := (pIn, pMatch)) ⟨0, rfl, hin, by omega⟩ (Nat.lt_succ_self _)).bind ?_
  rintro ⟨found, p⟩ ⟨n, hp1, hp2, hcount⟩
  cases found with
  | true =>
    refine Outcome.returns_ret ?_
    rw [hp1, Nat.add_sub_cancel_left]
    exact hcount
  | false =>
    obtain rfl : p = (pIn + n, pMatch + n) := Prod.ext hp1 (hp2 rfl)
    refine (returns_lz4CountTail hle hlim (w := 4) (by omega) hcount).bind ?_
    rintro _ ⟨n4, rfl, h4⟩
    refine (returns_lz4CountTail hle hlim (w := 2) (by omega) h4).bind ?_
    rintro _ ⟨n2, rfl, h2⟩
    refine (returns_lz4CountTail hle hlim (w := 1) (by omega) h2).bind ?_
    rintro _ ⟨n1, rfl, h1⟩
    refine Outcome.returns_ret ?_
    rwa [Nat.add_sub_cancel_left]

/-- As many equal bytes as there are. -/
theorem Counting.le_of_eq {m n : ℕ} (h : Counting mem pIn pMatch pInLimit 1 n)
    (hm : pIn + m ≤ pInLimit) (heq : ∀ k < m, mem[pMatch + k]? = mem[pIn + k]?) : m ≤ n := by
  by_contra hlt
  rcases h.near with hnear | ⟨k, hk, hne⟩
  · omega
  · obtain rfl : k = 0 := by omega
    exact hne (heq n (by omega))

end

end LogAgg
