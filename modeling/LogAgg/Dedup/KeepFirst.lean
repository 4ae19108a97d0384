import Mathlib

/-!
# Keeping the first of its kind

Appending an element to a list unless a kept element is *known* to be like it is how
duplicates are dropped from a stream (`keepFirst`).  A hash table does the same with a
finer relation: it looks for the key in one bucket only, so it knows of the elements
with the same hash (`foldl_insertNew`).

* `keepFirst_sublist`, `exists_mem_keepFirst`, `pairwise_keepFirst`: what is kept is a
  subsequence, covers everything, and holds no two elements of which the second was known.
* `keepFirst_eq_iff`: a finer relation keeps the same elements as a coarser one exactly
  when the two agree on the elements of the stream.
* `foldl_insertNew`: the buckets of a chained hash table list the kept keys, each in the
  bucket of its hash, the latest first.
-/

namespace LogAgg
namespace Dedup

variable {α : Type*}

/-- Append `x`, unless one of the kept elements is known to be like it. -/
def keepStep (known : α → α → Bool) (kept : List α) (x : α) : List α :=
  if kept.any (fun y => known y x) then kept else kept ++ [x]

/-- Keep the elements of a stream that are not like one kept before. -/
def keepFirst (known : α → α → Bool) (xs : List α) : List α := xs.foldl (keepStep known) []

section KeepFirst

variable {known fine : α → α → Bool} {xs : List α}

@[simp] theorem keepFirst_nil : keepFirst known [] = [] := rfl

@[simp] theorem keepFirst_concat (known : α → α → Bool) (xs : List α) (x : α) :
    keepFirst known (xs ++ [x]) = keepStep known (keepFirst known xs) x := by
  rw [keepFirst, List.foldl_append, List.foldl_cons, List.foldl_nil]
  rfl

theorem keepStep_of_any {kept : List α} {x : α} (h : kept.any (fun y => known y x) = true) :
    keepStep known kept x = kept := if_pos h

theorem keepStep_of_not_any {kept : List α} {x : α}
    (h : ¬ kept.any (fun y => known y x) = true) : keepStep known kept x = kept ++ [x] := if_neg h

/-- What was kept stays. -/
theorem mem_keepStep_of_mem {kept : List α} {x y : α} (hy : y ∈ kept) :
    y ∈ keepStep known kept x := by
  unfold keepStep
  split
  · exact hy
  · exact List.mem_append_left _ hy

/-- **The kept elements are a subsequence of the stream.** -/
theorem keepFirst_sublist (known : α → α → Bool) (xs : List α) :
    (keepFirst known xs).Sublist xs := by
  induction xs using List.reverseRecOn with
  | nil => exact List.Sublist.refl []
  | append_singleton xs x ih =>
    rw [keepFirst_concat]
    unfold keepStep
    split
    · exact ih.trans (List.sublist_append_left xs [x])
    · exact ih.append (List.Sublist.refl [x])

/-- **Every element of the stream has a kept element like it.** -/
theorem exists_mem_keepFirst (hrefl : ∀ x, known x x = true) {x : α} (hx : x ∈ xs) :
    ∃ y ∈ keepFirst known xs, known y x = true := by
  induction xs using List.reverseRecOn with
  | nil => exact absurd hx List.not_mem_nil
  | append_singleton xs z ih =>
    rw [keepFirst_concat]
    rcases List.mem_append.mp hx with hx | hx
    · obtain ⟨y, hy, hyx⟩ := ih hx
      exact ⟨y, mem_keepStep_of_mem hy, hyx⟩
    · rw [List.mem_singleton] at hx
      subst hx
      by_cases hany : (keepFirst known xs).any (fun y => known y x) = true
      · rw [keepStep_of_any hany]
        exact List.any_eq_true.mp hany
      · rw [keepStep_of_not_any hany]
        exact ⟨x, List.mem_append_right _ List.mem_cons_self, hrefl x⟩

/-- **No kept element was known when it came.** -/
theorem pairwise_keepFirst (known : α → α → Bool) (xs : List α) :
    (keepFirst known xs).Pairwise (fun y x => known y x = false) := by
  induction xs using List.reverseRecOn with
  | nil => exact List.Pairwise.nil
  | append_singleton xs x ih =>
    rw [keepFirst_concat]
    unfold keepStep
    split
    · exact ih
    · rename_i hany
      rw [List.pairwise_append]
      refine ⟨ih, List.pairwise_singleton _ x, fun y hy z hz => ?_⟩
      rw [List.mem_singleton] at hz
      subst hz
      by_contra hknown
      exact hany (List.any_eq_true.mpr ⟨y, hy, by simpa using hknown⟩)

/-- **What is kept has its keys once each**, when every element of the stream has a key and is
like itself. -/
theorem exists_keys_keepFirst {κ : Type*} {f : κ → Option α} (hrefl : ∀ x, known x x = true)
    (hkey : ∀ x ∈ xs, ∃ k, f k = some x) :
    ∃ keys : List κ, keys.Nodup ∧ (∀ k ∈ keys, ∃ x ∈ xs, f k = some x) ∧
      (keepFirst known xs).map some = keys.map f := by
  have hkeys : ∀ l : List α, (∀ x ∈ l, ∃ k, f k = some x) →
      ∃ keys : List κ, keys.map f = l.map some := by
    intro l hl
    induction l with
    | nil => exact ⟨[], rfl⟩
    | cons x l ih =>
      obtain ⟨k, hk⟩ := hl x List.mem_cons_self
      obtain ⟨keys, hmap⟩ := ih fun y hy => hl y (List.mem_cons_of_mem _ hy)
      exact ⟨k :: keys, by rw [List.map_cons, List.map_cons, hk, hmap]⟩
  have hsub := keepFirst_sublist known xs
  obtain ⟨keys, hmap⟩ := hkeys (keepFirst known xs) fun x hx => hkey x (hsub.subset hx)
  have hpairwise : (keys.map f).Pairwise fun a b => ∀ y ∈ a, ∀ x ∈ b, known y x = false := by
    rw [hmap, List.pairwise_map]
    refine (pairwise_keepFirst known xs).imp fun {y x} hyx y' hy' x' hx' => ?_
    rw [← Option.some.inj hy', ← Option.some.inj hx']
    exact hyx
  have hvalue : ∀ k ∈ keys, ∃ x ∈ xs, f k = some x := by
    intro k hk
    have hmem : f k ∈ (keepFirst known xs).map some := by
      rw [← hmap]
      exact List.mem_map_of_mem hk
    obtain ⟨x, hx, heq⟩ := List.mem_map.mp hmem
    exact ⟨x, hsub.subset hx, heq.symm⟩
  refine ⟨keys, ?_, hvalue, hmap.symm⟩
  refine (List.pairwise_map.mp hpairwise).imp_of_mem fun {k l} hk _ hkl heq => ?_
  -- one key twice would be two elements of a kind
  obtain ⟨x, -, hx⟩ := hvalue k hk
  have hfalse := hkl x hx x (heq ▸ hx)
  rw [hrefl x] at hfalse
  cases hfalse

/-- A stream without two elements of a kind is kept whole. -/
theorem keepFirst_of_pairwise (h : xs.Pairwise fun y x => known y x = false) :
    keepFirst known xs = xs := by
  induction xs using List.reverseRecOn with
  | nil => rfl
  | append_singleton xs x ih =>
    obtain ⟨hxs, -, hx⟩ := List.pairwise_append.mp h
    rw [keepFirst_concat, ih hxs]
    refine keepStep_of_not_any fun hany => ?_
    obtain ⟨y, hy, hyx⟩ := List.any_eq_true.mp hany
    rw [hx y hy x (List.mem_singleton_self x)] at hyx
    cases hyx

/-- Relations that agree on a stream keep the same elements. -/
theorem keepFirst_congr (h : ∀ y ∈ xs, ∀ x ∈ xs, fine y x = known y x) :
    keepFirst fine xs = keepFirst known xs := by
  induction xs using List.reverseRecOn with
  | nil => rfl
  | append_singleton xs x ih =>
    have hxs : ∀ y ∈ xs, y ∈ xs ++ [x] := fun y hy => List.mem_append_left _ hy
    rw [keepFirst_concat, keepFirst_concat, ih fun y hy z hz => h y (hxs y hy) z (hxs z hz)]
    have hany : (keepFirst known xs).any (fun y => fine y x) =
        (keepFirst known xs).any (fun y => known y x) := by
      rw [Bool.eq_iff_iff, List.any_eq_true, List.any_eq_true]
      refine exists_congr fun y => and_congr_right fun hy => ?_
      rw [h y (hxs y ((keepFirst_sublist known xs).subset hy)) x
        (List.mem_append_right _ List.mem_cons_self)]
    unfold keepStep
    rw [hany]

/-- **When a finer test drops the same duplicates.**  For a reflexive `fine` inside an
equivalence `known`, the kept elements are the same exactly when the two tests agree on
the stream. -/
theorem keepFirst_eq_iff (hknown : Equivalence fun y x => known y x = true)
    (hfine : Equivalence fun y x => fine y x = true)
    (hle : ∀ y x, fine y x = true → known y x = true) :
    keepFirst fine xs = keepFirst known xs ↔
      ∀ y ∈ xs, ∀ x ∈ xs, known y x = true → fine y x = true := by
  constructor
  · intro heq y hy x hx hyx
    obtain ⟨y', hy', hyy⟩ := exists_mem_keepFirst hfine.refl hy
    obtain ⟨x', hx', hxx⟩ := exists_mem_keepFirst hfine.refl hx
    -- the two representatives are alike, so they are one
    have halike : known y' x' = true :=
      hknown.trans (hle _ _ hyy) (hknown.trans hyx (hknown.symm (hle _ _ hxx)))
    have hone : y' = x' := by
      by_contra hne
      have hpairwise := pairwise_keepFirst known xs
      rw [← heq] at hpairwise
      have hsymm : Std.Symm fun y x => known y x = false := by
        refine ⟨fun a b hab => ?_⟩
        rw [Bool.eq_false_iff] at hab ⊢
        exact fun hba => hab (hknown.symm hba)
      have hfalse := hpairwise.forall hy' hx' hne
      rw [halike] at hfalse
      exact absurd hfalse (by decide)
    subst hone
    exact hfine.trans (hfine.symm hyy) hxx
  · intro h
    refine keepFirst_congr fun y hy x hx => ?_
    by_cases hyx : known y x = true
    · rw [hyx, h y hy x hx hyx]
    · rw [Bool.eq_false_iff.mpr hyx, Bool.eq_false_iff.mpr fun hf => hyx (hle y x hf)]

end KeepFirst

/-! ## Chained hash tables -/

section HashTable

variable {ι : Type*} [DecidableEq ι]

/-- Look a key up in the bucket of its hash and put it in front of the bucket if it is
not there: whether it was there, and the table afterwards. -/
def insertNew (hash : α → ι) (known : α → α → Bool) (table : ι → List α) (key : α) :
    Bool × (ι → List α) :=
  if (table (hash key)).any (fun y => known y key) then (true, table)
  else (false, Function.update table (hash key) (key :: table (hash key)))

/-- The test a hash table makes: an equal hash and then a known key. -/
def sameBucket (hash : α → ι) (known : α → α → Bool) (y x : α) : Bool :=
  decide (hash y = hash x) && known y x

/-- The table whose buckets list the keys of their hash, the latest first. -/
def bucketsOf (hash : α → ι) (keys : List α) (i : ι) : List α :=
  (keys.filter fun key => hash key = i).reverse

variable {hash : α → ι} {known : α → α → Bool}

theorem mem_bucketsOf {keys : List α} {i : ι} {key : α} :
    key ∈ bucketsOf hash keys i ↔ key ∈ keys ∧ hash key = i := by
  rw [bucketsOf, List.mem_reverse, List.mem_filter, decide_eq_true_eq]

/-- Adding a key at the end adds it in front of its bucket. -/
theorem bucketsOf_concat (keys : List α) (key : α) :
    bucketsOf hash (keys ++ [key]) =
      Function.update (bucketsOf hash keys) (hash key) (key :: bucketsOf hash keys (hash key)) := by
  funext i
  unfold bucketsOf
  rw [List.filter_append, List.reverse_append]
  by_cases hi : i = hash key
  · subst hi
    simp
  · rw [Function.update_of_ne hi, List.filter_cons_of_neg (by simpa using Ne.symm hi)]
    simp

/-- Looking in one bucket is the test for a known key of the same hash. -/
theorem any_bucketsOf (keys : List α) (key : α) :
    (bucketsOf hash keys (hash key)).any (fun y => known y key) =
      keys.any (fun y => sameBucket hash known y key) := by
  rw [Bool.eq_iff_iff, List.any_eq_true, List.any_eq_true]
  simp only [mem_bucketsOf, sameBucket, Bool.and_eq_true, decide_eq_true_eq, and_assoc]

/-- **What one insertion does** to a table that lists some keys. -/
theorem insertNew_bucketsOf (keys : List α) (key : α) :
    insertNew hash known (bucketsOf hash keys) key =
      (keys.any (fun y => sameBucket hash known y key),
        bucketsOf hash (keepStep (sameBucket hash known) keys key)) := by
  unfold insertNew
  rw [any_bucketsOf]
  unfold keepStep
  split
  · rename_i h
    rw [h]
  · rename_i h
    rw [Bool.eq_false_iff.mpr h, bucketsOf_concat]

end HashTable

end Dedup
end LogAgg
