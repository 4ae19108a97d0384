import LogAgg.CString.Basic

/-!
# Quoted strings of DOT files

A quoted string of a DOT file ends at the first quote behind an even number of backslashes.  Its
body is well quoted (`WellQuoted`) if that is the quote behind it: each quote in it is escaped,
and no backslash at its end is left without a byte to escape.

A text that is made of quoted strings, with other text in between, is read as these strings
exactly when all of the bodies are well quoted (`strings_eq_some_iff`).  What a body means as a
label is read with its escapes (`Escapes.read`), and a well quoted body means itself exactly when
it has no backslash (`Escapes.read_eq_self_iff`).
-/

namespace Dot

open LogAgg LogAgg.Ascii

/-- The body of a quoted string. -/
inductive WellQuoted : Bytes → Prop
  | nil : WellQuoted []
  | plain {c : UInt8} {s : Bytes} :
      c ≠ quote → c ≠ backslash → WellQuoted s → WellQuoted (c :: s)
  | escape (c : UInt8) {s : Bytes} : WellQuoted s → WellQuoted (backslash :: c :: s)

/-! ## Reading the strings of a text -/

/-- Where a reader is: outside of the strings, or in one of which the body so far is given, and
then perhaps behind a backslash. -/
inductive Mode where
  | outside
  | inside (body : Bytes)
  | escaped (body : Bytes)
  deriving DecidableEq

/-- A reader, with the bodies of the strings so far. -/
structure Reader where
  mode : Mode
  strings : List Bytes
  deriving DecidableEq

namespace Reader

/-- One byte. -/
def step (reader : Reader) (c : UInt8) : Reader :=
  match reader.mode with
  | .outside => if c = quote then { reader with mode := .inside [] } else reader
  | .inside body =>
    if c = quote then ⟨.outside, reader.strings ++ [body]⟩
    else if c = backslash then { reader with mode := .escaped (body ++ [c]) }
    else { reader with mode := .inside (body ++ [c]) }
  | .escaped body => { reader with mode := .inside (body ++ [c]) }

/-- A text. -/
def run (reader : Reader) (text : Bytes) : Reader := text.foldl step reader

end Reader

/-- The bodies of the quoted strings of a text, or `none` if the last one is not closed. -/
def strings (text : Bytes) : Option (List Bytes) :=
  match Reader.run ⟨.outside, []⟩ text with
  | ⟨.outside, strings⟩ => some strings
  | _ => none

theorem strings_eq_some_iff_run {text : Bytes} {bodies : List Bytes} :
    strings text = some bodies ↔ Reader.run ⟨.outside, []⟩ text = ⟨.outside, bodies⟩ := by
  unfold strings
  split
  · rename_i read heq
    rw [heq, Option.some_inj, Reader.mk.injEq]
    exact (and_iff_right rfl).symm
  · rename_i hopen
    constructor
    · intro h
      exact absurd h (by simp)
    · intro h
      exact absurd h (hopen bodies)

/-! ## Well quoted bodies -/

theorem wellQuoted_cons_iff {c : UInt8} (hquote : c ≠ quote) (hbackslash : c ≠ backslash)
    (s : Bytes) : WellQuoted (c :: s) ↔ WellQuoted s := by
  constructor
  · intro h
    cases h with
    | plain _ _ hs => exact hs
    | escape => exact absurd rfl hbackslash
  · exact .plain hquote hbackslash

theorem wellQuoted_escape_iff (c : UInt8) (s : Bytes) :
    WellQuoted (backslash :: c :: s) ↔ WellQuoted s := by
  constructor
  · intro h
    cases h with
    | plain _ hbackslash => exact absurd rfl hbackslash
    | escape _ hs => exact hs
  · exact .escape c

/-- Text without quotes and backslashes changes nothing. -/
theorem wellQuoted_append_iff {s : Bytes} (hquote : quote ∉ s) (hbackslash : backslash ∉ s)
    (t : Bytes) : WellQuoted (s ++ t) ↔ WellQuoted t := by
  induction s with
  | nil => exact Iff.rfl
  | cons c s ih =>
    rw [List.mem_cons, not_or] at hquote hbackslash
    rw [List.cons_append, wellQuoted_cons_iff (Ne.symm hquote.1) (Ne.symm hbackslash.1)]
    exact ih hquote.2 hbackslash.2

/-- Without a backslash it takes a quote to break a string. -/
theorem wellQuoted_iff_of_notMem {s : Bytes} (hbackslash : backslash ∉ s) :
    WellQuoted s ↔ quote ∉ s := by
  constructor
  · intro h
    induction h with
    | nil => exact List.not_mem_nil
    | plain hquote _ _ ih =>
      rw [List.mem_cons, not_or] at hbackslash ⊢
      exact ⟨Ne.symm hquote, ih hbackslash.2⟩
    | escape c => exact absurd List.mem_cons_self hbackslash
  · intro hquote
    have h := (wellQuoted_append_iff hquote hbackslash []).mpr .nil
    rwa [List.append_nil] at h

/-- **How a body breaks its string**: at a quote that is not escaped, or with a backslash at its
end that escapes the closing quote. -/
theorem wellQuoted_cases : ∀ s : Bytes, WellQuoted s ∨
    (∃ u v, s = u ++ quote :: v ∧ WellQuoted u) ∨ ∃ u, s = u ++ [backslash] ∧ WellQuoted u
  | [] => Or.inl .nil
  | [c] => by
    by_cases hquote : c = quote
    · exact Or.inr (Or.inl ⟨[], [], by rw [hquote]; rfl, .nil⟩)
    · by_cases hbackslash : c = backslash
      · exact Or.inr (Or.inr ⟨[], by rw [hbackslash]; rfl, .nil⟩)
      · exact Or.inl (.plain hquote hbackslash .nil)
  | c :: d :: s => by
    by_cases hbackslash : c = backslash
    · subst hbackslash
      rcases wellQuoted_cases s with hs | ⟨u, v, rfl, hu⟩ | ⟨u, rfl, hu⟩
      · exact Or.inl (.escape d hs)
      · exact Or.inr (Or.inl ⟨backslash :: d :: u, v, rfl, .escape d hu⟩)
      · exact Or.inr (Or.inr ⟨backslash :: d :: u, rfl, .escape d hu⟩)
    · by_cases hquote : c = quote
      · exact Or.inr (Or.inl ⟨[], d :: s, by rw [hquote]; rfl, .nil⟩)
      · rcases wellQuoted_cases (d :: s) with hs | ⟨u, v, hs, hu⟩ | ⟨u, hs, hu⟩
        · exact Or.inl (.plain hquote hbackslash hs)
        · exact Or.inr (Or.inl ⟨c :: u, v, by rw [hs]; rfl, .plain hquote hbackslash hu⟩)
        · exact Or.inr (Or.inr ⟨c :: u, by rw [hs]; rfl, .plain hquote hbackslash hu⟩)

/-- A text tells where the body of its first string ends. -/
theorem WellQuoted.append_quote_inj {s t u v : Bytes} (hs : WellQuoted s) (ht : WellQuoted t)
    (h : s ++ quote :: u = t ++ quote :: v) : s = t ∧ u = v := by
  induction hs generalizing t with
  | nil =>
    cases ht with
    | nil => exact ⟨rfl, (List.cons.inj h).2⟩
    | plain hquote => exact absurd (List.cons.inj h).1.symm hquote
    | escape c _ => exact absurd (List.cons.inj h).1 (by decide)
  | plain hquote hbackslash _ ih =>
    cases ht with
    | nil => exact absurd (List.cons.inj h).1 hquote
    | plain _ _ ht =>
      obtain ⟨hc, htail⟩ := List.cons.inj h
      obtain ⟨hbody, hrest⟩ := ih ht htail
      exact ⟨congrArg₂ List.cons hc hbody, hrest⟩
    | escape c _ => exact absurd (List.cons.inj h).1 hbackslash
  | escape c _ ih =>
    cases ht with
    | nil => exact absurd (List.cons.inj h).1 (by decide)
    | plain _ hbackslash => exact absurd (List.cons.inj h).1.symm hbackslash
    | escape d ht =>
      obtain ⟨hd, htail⟩ := List.cons.inj (List.cons.inj h).2
      obtain ⟨hbody, hrest⟩ := ih ht htail
      exact ⟨congrArg (backslash :: ·) (congrArg₂ List.cons hd hbody), hrest⟩

/-! ## What a reader does -/

namespace Reader

variable {read : List Bytes}

theorem run_append (reader : Reader) (s t : Bytes) :
    reader.run (s ++ t) = (reader.run s).run t := List.foldl_append

/-- Text without quotes is skipped. -/
theorem run_outside {s : Bytes} (hs : quote ∉ s) :
    run ⟨.outside, read⟩ s = ⟨.outside, read⟩ := by
  induction s with
  | nil => rfl
  | cons c s ih =>
    rw [List.mem_cons, not_or] at hs
    have hstep : step ⟨.outside, read⟩ c = ⟨.outside, read⟩ := if_neg (Ne.symm hs.1)
    rw [run, List.foldl_cons, hstep]
    exact ih hs.2

/-- A body is read whole. -/
theorem run_inside {s : Bytes} (hs : WellQuoted s) (body : Bytes) :
    run ⟨.inside body, read⟩ s = ⟨.inside (body ++ s), read⟩ := by
  induction hs generalizing body with
  | nil => rw [List.append_nil]; rfl
  | @plain c s hquote hbackslash hs ih =>
    have hstep : step ⟨.inside body, read⟩ c = ⟨.inside (body ++ [c]), read⟩ :=
      (if_neg hquote).trans (if_neg hbackslash)
    rw [run, List.foldl_cons, hstep]
    exact (ih _).trans (by rw [List.append_assoc, List.singleton_append])
  | @escape c s hs ih =>
    have hstep : step (step ⟨.inside body, read⟩ backslash) c =
        ⟨.inside (body ++ [backslash] ++ [c]), read⟩ := rfl
    rw [run, List.foldl_cons, List.foldl_cons, hstep]
    exact (ih _).trans (by simp only [List.append_assoc, List.cons_append, List.nil_append])

/-- A quote, and a body that does not end at the next quote. -/
theorem run_quote_append {s : Bytes} (hs : WellQuoted s) (t : Bytes) :
    run ⟨.outside, read⟩ (quote :: (s ++ t)) = run ⟨.inside s, read⟩ t := by
  have hstep : step ⟨.outside, read⟩ quote = ⟨.inside [], read⟩ := rfl
  rw [run, List.foldl_cons, hstep]
  show run ⟨.inside [], read⟩ (s ++ t) = _
  rw [run_append, run_inside hs, List.nil_append]

/-- **What was read stays.** -/
theorem prefix_strings_run (reader : Reader) (text : Bytes) :
    reader.strings <+: (reader.run text).strings := by
  refine List.foldlRecOn (motive := fun r : Reader => reader.strings <+: r.strings) _ _
    (List.prefix_refl _) fun r hr c _ => hr.trans ?_
  unfold step
  split
  · split
    · exact List.prefix_refl _
    · exact List.prefix_refl _
  · split
    · exact List.prefix_append _ _
    · split
      · exact List.prefix_refl _
      · exact List.prefix_refl _
  · exact List.prefix_refl _

/-- The reader is in a string that starts with this text, or behind one. -/
def Extends (start : Bytes) (read : List Bytes) (reader : Reader) : Prop :=
  (∃ body, start <+: body ∧ (reader = ⟨.inside body, read⟩ ∨ reader = ⟨.escaped body, read⟩)) ∨
    ∃ body, start <+: body ∧ read ++ [body] <+: reader.strings

/-- One byte ends the string, or it makes the string longer. -/
theorem Extends.step {start : Bytes} {reader : Reader} (h : Extends start read reader) (c : UInt8) :
    Extends start read (reader.step c) := by
  rcases h with ⟨body, hstart, rfl | rfl⟩ | ⟨body, hstart, hread⟩
  · have hlonger : start <+: body ++ [c] := hstart.trans (List.prefix_append _ _)
    unfold Reader.step
    dsimp only
    split
    · exact Or.inr ⟨body, hstart, List.prefix_refl _⟩
    · split
      · exact Or.inl ⟨_, hlonger, Or.inr rfl⟩
      · exact Or.inl ⟨_, hlonger, Or.inl rfl⟩
  · exact Or.inl ⟨_, hstart.trans (List.prefix_append body [c]), Or.inl rfl⟩
  · exact Or.inr ⟨body, hstart, hread.trans (prefix_strings_run reader [c])⟩

/-- **A string that is open is not given up.** -/
theorem Extends.run {start : Bytes} {reader : Reader} (h : Extends start read reader)
    (text : Bytes) : Extends start read (reader.run text) :=
  List.foldlRecOn (motive := Extends start read) _ _ h fun _ hr c _ => hr.step c

end Reader

/-! ## Texts that are made of strings -/

/-- A piece of a text. -/
inductive Piece where
  | plain (text : Bytes)
  | quoted (body : Bytes)

namespace Piece

/-- The piece, with its quotes. -/
def text : Piece → Bytes
  | plain text => text
  | quoted body => quote :: (body ++ [quote])

/-- The body of the piece, if it is a string. -/
def bodies : Piece → List Bytes
  | plain _ => []
  | quoted body => [body]

/-- No quote stands outside of the strings. -/
def Separate : Piece → Prop
  | plain text => quote ∉ text
  | quoted _ => True

@[simp] theorem separate_plain (text : Bytes) : (plain text).Separate ↔ quote ∉ text := Iff.rfl

@[simp] theorem separate_quoted (body : Bytes) : (quoted body).Separate := trivial

instance : DecidablePred Separate
  | plain text => inferInstanceAs (Decidable (quote ∉ text))
  | quoted _ => inferInstanceAs (Decidable True)

end Piece

/-- A string with a body that ends too early is read as something else. -/
theorem run_quoted_ne_of_quote {u v : Bytes} (hu : WellQuoted u) (read bodies : List Bytes)
    (rest : Bytes) :
    Reader.run ⟨.outside, read⟩ (quote :: (u ++ quote :: v) ++ rest) ≠
      ⟨.outside, read ++ (u ++ quote :: v) :: bodies⟩ := by
  intro h
  have hclosed : Reader.run ⟨.outside, read⟩ (quote :: (u ++ quote :: v) ++ rest) =
      Reader.run ⟨.outside, read ++ [u]⟩ (v ++ rest) := by
    rw [List.cons_append, List.append_assoc, Reader.run_quote_append hu]
    rfl
  have hprefix := Reader.prefix_strings_run ⟨.outside, read ++ [u]⟩ (v ++ rest)
  rw [← hclosed, h, List.prefix_append_right_inj] at hprefix
  have hsame : u = u ++ quote :: v := List.singleton_prefix_cons_iff.mp hprefix
  have hlength := congrArg List.length hsame
  rw [List.length_append, List.length_cons] at hlength
  omega

/-- So is one with a body that escapes its closing quote. -/
theorem run_quoted_ne_of_backslash {u : Bytes} (hu : WellQuoted u) (read bodies : List Bytes)
    (rest : Bytes) :
    Reader.run ⟨.outside, read⟩ (quote :: (u ++ [backslash]) ++ quote :: rest) ≠
      ⟨.outside, read ++ (u ++ [backslash]) :: bodies⟩ := by
  intro h
  have hopen : Reader.run ⟨.outside, read⟩ (quote :: (u ++ [backslash]) ++ quote :: rest) =
      Reader.run ⟨.inside (u ++ [backslash] ++ [quote]), read⟩ rest := by
    rw [List.cons_append, List.append_assoc, Reader.run_quote_append hu]
    rfl
  have hextends : Reader.Extends (u ++ [backslash] ++ [quote]) read
      ⟨.inside (u ++ [backslash] ++ [quote]), read⟩ :=
    Or.inl ⟨_, List.prefix_refl _, Or.inl rfl⟩
  have hend := hextends.run rest
  rw [← hopen, h] at hend
  rcases hend with ⟨body, -, hinside | hescaped⟩ | ⟨body, hstart, hread⟩
  · exact Mode.noConfusion (Reader.mk.inj hinside).1
  · exact Mode.noConfusion (Reader.mk.inj hescaped).1
  · rw [List.prefix_append_right_inj] at hread
    have hbody : body = u ++ [backslash] := List.singleton_prefix_cons_iff.mp hread
    have hlength := hstart.length_le
    rw [hbody, List.length_append, List.length_singleton] at hlength
    omega

/-- **One string in front of others.** -/
theorem run_quoted_iff (read bodies : List Bytes) (body rest : Bytes) :
    Reader.run ⟨.outside, read⟩ ((Piece.quoted body).text ++ rest) =
        ⟨.outside, read ++ body :: bodies⟩ ↔
      WellQuoted body ∧ Reader.run ⟨.outside, read ++ [body]⟩ rest =
        ⟨.outside, read ++ body :: bodies⟩ := by
  have htext : (Piece.quoted body).text ++ rest = quote :: body ++ quote :: rest := by
    rw [Piece.text, List.cons_append, List.append_assoc, List.singleton_append, List.cons_append]
  have hread (hbody : WellQuoted body) : Reader.run ⟨.outside, read⟩ (quote :: body ++ quote :: rest)
      = Reader.run ⟨.outside, read ++ [body]⟩ rest := by
    rw [List.cons_append, Reader.run_quote_append hbody]
    rfl
  rw [htext]
  constructor
  · intro h
    rcases wellQuoted_cases body with hbody | ⟨u, v, rfl, hu⟩ | ⟨u, rfl, hu⟩
    · exact ⟨hbody, (hread hbody).symm.trans h⟩
    · exact absurd h (run_quoted_ne_of_quote hu read bodies _)
    · exact absurd h (run_quoted_ne_of_backslash hu read bodies rest)
  · rintro ⟨hbody, h⟩
    exact (hread hbody).trans h

theorem run_pieces_iff {pieces : List Piece} (hpieces : ∀ piece ∈ pieces, piece.Separate)
    (read : List Bytes) :
    Reader.run ⟨.outside, read⟩ (pieces.flatMap Piece.text) =
        ⟨.outside, read ++ pieces.flatMap Piece.bodies⟩ ↔
      ∀ body ∈ pieces.flatMap Piece.bodies, WellQuoted body := by
  induction pieces generalizing read with
  | nil =>
    rw [List.flatMap_nil, List.flatMap_nil, List.append_nil]
    exact ⟨fun _ body h => absurd h List.not_mem_nil, fun _ => rfl⟩
  | cons piece pieces ih =>
    rw [List.forall_mem_cons] at hpieces
    have ih := ih hpieces.2
    rw [List.flatMap_cons, List.flatMap_cons]
    cases piece with
    | plain text =>
      rw [Reader.run_append, Piece.text, Reader.run_outside hpieces.1]
      exact ih read
    | quoted body =>
      have hbodies : (Piece.quoted body).bodies ++ pieces.flatMap Piece.bodies =
          body :: pieces.flatMap Piece.bodies := rfl
      have hih := ih (read ++ [body])
      rw [List.append_assoc, List.singleton_append] at hih
      rw [hbodies, run_quoted_iff, hih, List.forall_mem_cons]

/-- **When the strings of a text are read as they were printed**: exactly if all of them are well
quoted. -/
theorem strings_eq_some_iff {pieces : List Piece} (hpieces : ∀ piece ∈ pieces, piece.Separate) :
    strings (pieces.flatMap Piece.text) = some (pieces.flatMap Piece.bodies) ↔
      ∀ body ∈ pieces.flatMap Piece.bodies, WellQuoted body := by
  rw [strings_eq_some_iff_run]
  exact run_pieces_iff hpieces []

/-! ## Escapes -/

/-- What a backslash in front of a byte means.  An `n` is a new line, quotes and backslashes are
themselves, and no other byte makes a backslash. -/
structure Escapes where
  meaning : UInt8 → Bytes
  meaning_n : meaning 110 = [newline]
  meaning_quote : meaning quote = [quote]
  meaning_backslash : meaning backslash = [backslash]
  backslash_notMem : ∀ c, c ≠ backslash → backslash ∉ meaning c

namespace Escapes

/-- All bytes but `n` may be themselves. -/
instance : Inhabited Escapes where
  default :=
    { meaning := fun c => if c = 110 then [newline] else [c]
      meaning_n := rfl
      meaning_quote := rfl
      meaning_backslash := rfl
      backslash_notMem := by
        intro c hc
        split
        · decide
        · rw [List.mem_singleton]
          exact Ne.symm hc }

variable (escapes : Escapes)

/-- What a body means. -/
def read : Bytes → Bytes
  | [] => []
  | [c] => [c]
  | c :: d :: s => if c = backslash then escapes.meaning d ++ read s else c :: read (d :: s)

theorem read_cons {c : UInt8} (hc : c ≠ backslash) (s : Bytes) :
    escapes.read (c :: s) = c :: escapes.read s := by
  cases s with
  | nil => rfl
  | cons d s => rw [read, if_neg hc]

theorem read_escape (c : UInt8) (s : Bytes) :
    escapes.read (backslash :: c :: s) = escapes.meaning c ++ escapes.read s := by
  rw [read, if_pos rfl]

/-- Text without backslashes means itself. -/
theorem read_append {s : Bytes} (hs : backslash ∉ s) (t : Bytes) :
    escapes.read (s ++ t) = s ++ escapes.read t := by
  induction s with
  | nil => rfl
  | cons c s ih =>
    rw [List.mem_cons, not_or] at hs
    rw [List.cons_append, read_cons _ (Ne.symm hs.1), ih hs.2, List.cons_append]

/-- Half of the backslashes are lost. -/
theorem two_mul_count_read_le {s : Bytes} (hs : WellQuoted s) :
    2 * (escapes.read s).count backslash ≤ s.count backslash := by
  induction hs with
  | nil => exact le_rfl
  | plain _ hbackslash _ ih =>
    rw [read_cons _ hbackslash, List.count_cons_of_ne hbackslash, List.count_cons_of_ne hbackslash]
    exact ih
  | escape c _ ih =>
    rw [read_escape, List.count_append, List.count_cons_self]
    by_cases hc : c = backslash
    · have hone : (escapes.meaning c).count backslash = 1 := by
        rw [hc, escapes.meaning_backslash, List.count_singleton_self]
      rw [hone, hc, List.count_cons_self]
      omega
    · rw [List.count_eq_zero.mpr (escapes.backslash_notMem c hc), List.count_cons_of_ne hc]
      omega

/-- **A well quoted body means itself** exactly if it has no backslash. -/
theorem read_eq_self_iff {s : Bytes} (hs : WellQuoted s) :
    escapes.read s = s ↔ backslash ∉ s := by
  constructor
  · intro h
    have hcount := escapes.two_mul_count_read_le hs
    rw [h] at hcount
    exact List.count_eq_zero.mp (by omega)
  · intro h
    have happend := escapes.read_append h []
    rwa [List.append_nil, read, List.append_nil] at happend

end Escapes

end Dot
