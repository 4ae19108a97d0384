import LogAgg.CString.Stdio

/-!
# A file that grows

A reader that comes back to a growing file reads the chunks that were appended in between,
each through the buffers of `fgets`.  A file of whole lines is shown line by line
(`WholeLines`) exactly when no line is longer than the buffer and no chunk ends inside a line
(`wholeLines_iff`); a chunk may end in front of a line break, which is then a buffer of its
own.

Every line shows in at least one buffer that starts with a visible byte, and only whole lines
in no more than one (`wholeLines_of_countP_le`).
-/

namespace LogAgg

open Ascii

/-- A line of a text file, without its line break, and not blank. -/
structure TextLine where
  bytes : Bytes
  ne_nil : bytes ≠ []
  newline_notMem : newline ∉ bytes
  nul_notMem : (0 : UInt8) ∉ bytes

theorem TextLine.head?_ne (line : TextLine) : line.bytes.head? ≠ some newline :=
  fun h => line.newline_notMem (List.mem_of_head? h)

/-- The text of some lines. -/
def linesText (lines : List TextLine) : Bytes := lines.flatMap fun line => line.bytes ++ [newline]

theorem linesText_cons (line : TextLine) (lines : List TextLine) :
    linesText (line :: lines) = line.bytes ++ newline :: linesText lines := by
  rw [linesText, List.flatMap_cons, List.append_assoc, List.singleton_append]
  rfl

/-- The contents of a file to which one chunk after the other is appended. -/
def visible (base : Bytes) : List Bytes → List Bytes
  | [] => []
  | chunk :: chunks => (base ++ chunk) :: visible (base ++ chunk) chunks

/-- Every line is one buffer, its line break included or left to a buffer of its own. -/
inductive WholeLines : List Bytes → List TextLine → Prop
  | nil : WholeLines [] []
  | line {shown : List Bytes} {lines : List TextLine} (line : TextLine) :
      WholeLines shown lines → WholeLines ((line.bytes ++ [newline]) :: shown) (line :: lines)
  | full {shown : List Bytes} {lines : List TextLine} (line : TextLine) :
      WholeLines shown lines → WholeLines (line.bytes :: [newline] :: shown) (line :: lines)

/-- No chunk ends inside a line. -/
def AtLineBounds (chunks : List Bytes) : Prop :=
  ∀ before after, chunks = before ++ after →
    before.flatten = [] ∨ before.flatten.getLast? = some newline ∨
      after.flatten.head? = some newline

/-! ## From the buffers to the chunks -/

/-- What is read up to a line break, and the bounds behind it. -/
theorem atLineBound_append {text : Bytes} {before after : List Bytes}
    (htext : text.getLast? = some newline)
    (hbounds : before.flatten = [] ∨ before.flatten.getLast? = some newline ∨
      after.flatten.head? = some newline) :
    text ++ before.flatten = [] ∨ (text ++ before.flatten).getLast? = some newline ∨
      after.flatten.head? = some newline := by
  rcases hbounds with hnil | hlast | hhead
  · rw [hnil, List.append_nil]
    exact Or.inr (Or.inl htext)
  · rw [List.getLast?_append, hlast]
    exact Or.inr (Or.inl rfl)
  · exact Or.inr (Or.inr hhead)

/-- Shown as whole lines, the file is cut at the bounds of lines only. -/
theorem WholeLines.atLineBounds {shown : List Bytes} {lines : List TextLine}
    (h : WholeLines shown lines) : AtLineBounds shown := by
  induction h with
  | nil =>
    intro before after heq
    rw [List.nil_eq_append_iff] at heq
    rw [heq.1]
    exact Or.inl rfl
  | line line hshown ih =>
    intro before after heq
    cases before with
    | nil => exact Or.inl rfl
    | cons buffer before =>
      rw [List.cons_append, List.cons.injEq] at heq
      rw [← heq.1, List.flatten_cons]
      exact atLineBound_append List.getLast?_concat (ih before after heq.2)
  | full line hshown ih =>
    intro before after heq
    cases before with
    | nil => exact Or.inl rfl
    | cons buffer before =>
      rw [List.cons_append, List.cons.injEq] at heq
      cases before with
      | nil =>
        -- the cut in front of the line break
        rw [List.nil_append] at heq
        rw [← heq.2, List.flatten_cons]
        exact Or.inr (Or.inr rfl)
      | cons newlineBuffer before =>
        rw [List.cons_append, List.cons.injEq] at heq
        rw [← heq.1, ← heq.2.1, List.flatten_cons, List.flatten_cons, ← List.append_assoc]
        exact atLineBound_append List.getLast?_concat (ih before after heq.2.2)

/-- A line that is one buffer is not longer than the buffer. -/
theorem WholeLines.length_le {shown : List Bytes} {lines : List TextLine} {room : ℕ}
    (h : WholeLines shown lines) (hshown : ∀ buffer ∈ shown, buffer.length ≤ room) :
    ∀ line ∈ lines, line.bytes.length ≤ room := by
  induction h with
  | nil => exact fun line hline => absurd hline List.not_mem_nil
  | line line h ih =>
    have hfirst := hshown _ List.mem_cons_self
    rw [List.length_append] at hfirst
    rw [List.forall_mem_cons]
    exact ⟨by omega, ih fun buffer hbuffer => hshown buffer (List.mem_cons_of_mem _ hbuffer)⟩
  | full line h ih =>
    rw [List.forall_mem_cons]
    exact ⟨hshown _ List.mem_cons_self, ih fun buffer hbuffer =>
      hshown buffer (List.mem_cons_of_mem _ (List.mem_cons_of_mem _ hbuffer))⟩

/-- The buffers of all chunks read the file. -/
theorem flatten_flatMap_buffers (room : ℕ) (chunks : List Bytes) :
    (chunks.flatMap (buffers room)).flatten = chunks.flatten := by
  induction chunks with
  | nil => rfl
  | cons chunk chunks ih =>
    rw [List.flatMap_cons, List.flatten_append, ih, flatten_buffers, List.flatten_cons]

/-- The bounds of the buffers of some chunks include those of the chunks. -/
theorem AtLineBounds.of_flatMap_buffers {room : ℕ} {chunks : List Bytes}
    (h : AtLineBounds (chunks.flatMap (buffers room))) : AtLineBounds chunks := by
  rintro before after rfl
  have hcut := h (before.flatMap (buffers room)) (after.flatMap (buffers room)) List.flatMap_append
  rwa [flatten_flatMap_buffers, flatten_flatMap_buffers] at hcut

/-! ## From the chunks to the buffers -/

theorem AtLineBounds.tail {chunk : Bytes} {chunks : List Bytes}
    (h : AtLineBounds (chunk :: chunks)) : AtLineBounds chunks := by
  rintro before after rfl
  have hcut := h (chunk :: before) after rfl
  rw [List.flatten_cons, List.getLast?_append] at hcut
  by_cases hbefore : before.flatten = []
  · exact Or.inl hbefore
  · right
    rw [List.append_eq_nil_iff, List.getLast?_eq_some_getLast hbefore] at hcut
    rw [List.getLast?_eq_some_getLast hbefore]
    exact hcut.resolve_left fun hnil => hbefore hnil.2

/-- Behind a line break, the same bounds are left. -/
theorem AtLineBounds.of_newline {chunk : Bytes} {chunks : List Bytes}
    (h : AtLineBounds ((newline :: chunk) :: chunks)) : AtLineBounds (chunk :: chunks) := by
  intro before after heq
  cases before with
  | nil => exact Or.inl rfl
  | cons first before =>
    rw [List.cons_append, List.cons.injEq] at heq
    have hcut := h ((newline :: chunk) :: before) after (by rw [heq.2, List.cons_append])
    rw [List.flatten_cons, List.cons_append] at hcut
    rw [List.flatten_cons, ← heq.1]
    by_cases hbefore : chunk ++ before.flatten = []
    · exact Or.inl hbefore
    · rw [List.getLast?_cons, List.getLast?_eq_some_getLast hbefore] at hcut
      rw [List.getLast?_eq_some_getLast hbefore]
      exact Or.inr (hcut.resolve_left (List.cons_ne_nil _ _))

/-- A file of lines is cut at the end of a line, or in or behind its text. -/
theorem append_eq_linesText {chunk rest : Bytes} {lines : List TextLine}
    (h : chunk ++ rest = linesText lines) :
    (∃ lines₁ lines₂, lines = lines₁ ++ lines₂ ∧ chunk = linesText lines₁ ∧
        rest = linesText lines₂) ∨
      ∃ lines₁ line lines₂ u v, lines = lines₁ ++ line :: lines₂ ∧ line.bytes = u ++ v ∧
        u ≠ [] ∧ chunk = linesText lines₁ ++ u ∧ rest = v ++ newline :: linesText lines₂ := by
  induction lines generalizing chunk with
  | nil =>
    rw [linesText, List.flatMap_nil, List.append_eq_nil_iff] at h
    exact Or.inl ⟨[], [], rfl, h.1, h.2⟩
  | cons line lines ih =>
    have hall := h
    rw [linesText_cons, List.append_eq_append_iff] at h
    rcases h with ⟨v, hline, hrest⟩ | ⟨w, hchunk, hrest⟩
    · by_cases hchunk : chunk = []
      · rw [hchunk, List.nil_append] at hall
        exact Or.inl ⟨[], line :: lines, rfl, hchunk, hall⟩
      · exact Or.inr ⟨[], line, lines, chunk, v, rfl, hline, hchunk, rfl, hrest⟩
    · cases w with
      | nil =>
        rw [List.append_nil] at hchunk
        refine Or.inr ⟨[], line, lines, line.bytes, [], rfl, (List.append_nil _).symm, line.ne_nil,
          hchunk, hrest.symm⟩
      | cons c w =>
        rw [List.cons_append, List.cons.injEq] at hrest
        have hfront : chunk = line.bytes ++ newline :: w := by rw [hchunk, hrest.1]
        rcases ih hrest.2.symm with ⟨lines₁, lines₂, hlines, hw, hr⟩ |
          ⟨lines₁, line', lines₂, u, v, hlines, huv, hu, hw, hr⟩
        · refine Or.inl ⟨line :: lines₁, lines₂, ?_, ?_, hr⟩
          · rw [hlines, List.cons_append]
          · rw [hfront, hw, linesText_cons]
        · refine Or.inr ⟨line :: lines₁, line', lines₂, u, v, ?_, huv, hu, ?_, hr⟩
          · rw [hlines, List.cons_append]
          · rw [hfront, hw, linesText_cons, List.append_assoc, List.cons_append]

/-- **Where the first chunk ends**: at the end of a line, or in front of its line break. -/
theorem AtLineBounds.cut {chunk : Bytes} {chunks : List Bytes} {lines : List TextLine}
    (h : AtLineBounds (chunk :: chunks)) (htext : chunk ++ chunks.flatten = linesText lines) :
    (∃ lines₁ lines₂, lines = lines₁ ++ lines₂ ∧ chunk = linesText lines₁ ∧
        chunks.flatten = linesText lines₂) ∨
      ∃ lines₁ line lines₂, lines = lines₁ ++ line :: lines₂ ∧
        chunk = linesText lines₁ ++ line.bytes ∧
        chunks.flatten = newline :: linesText lines₂ := by
  rcases append_eq_linesText htext with hend |
    ⟨lines₁, line, lines₂, u, v, hlines, huv, hu, hchunk, hrest⟩
  · exact Or.inl hend
  · have hcut := h [chunk] chunks rfl
    have hline := line.newline_notMem
    rw [huv, List.mem_append, not_or] at hline
    rw [List.flatten_singleton, hchunk, List.append_eq_nil_iff, List.getLast?_append,
      List.getLast?_eq_some_getLast hu, hrest] at hcut
    -- nothing of the line is left behind the cut
    have hv : v = [] := by
      rcases hcut with hnil | hlast | hhead
      · exact absurd hnil.2 hu
      · have hmem := List.getLast_mem hu
        rw [Option.some_inj.mp hlast] at hmem
        exact absurd hmem hline.1
      · cases v with
        | nil => rfl
        | cons c v =>
          have hc : c = newline := Option.some_inj.mp hhead
          exact absurd (hc ▸ List.mem_cons_self) hline.2
    rw [hv, List.append_nil] at huv
    rw [hv, List.nil_append] at hrest
    exact Or.inr ⟨lines₁, line, lines₂, hlines, by rw [hchunk, huv], hrest⟩

theorem WholeLines.append {shown shown' : List Bytes} {lines lines' : List TextLine}
    (h : WholeLines shown lines) (h' : WholeLines shown' lines') :
    WholeLines (shown ++ shown') (lines ++ lines') := by
  induction h with
  | nil => exact h'
  | line line h ih => exact WholeLines.line line ih
  | full line h ih => exact WholeLines.full line ih

variable {room : ℕ}

/-- Lines that fit with their breaks, one buffer each. -/
theorem buffers_linesText {lines : List TextLine}
    (hlen : ∀ line ∈ lines, line.bytes.length ≤ room) :
    buffers room (linesText lines) = lines.map fun line => line.bytes ++ [newline] := by
  induction lines with
  | nil => exact buffers_nil room
  | cons line lines ih =>
    rw [List.forall_mem_cons] at hlen
    rw [linesText_cons, buffers_line line.newline_notMem hlen.1, ih hlen.2, List.map_cons]

/-- A line takes at least its line break. -/
theorem length_le_length_linesText (lines : List TextLine) :
    lines.length ≤ (linesText lines).length := by
  induction lines with
  | nil => exact Nat.zero_le _
  | cons line lines ih =>
    rw [linesText_cons, List.length_cons, List.length_append, List.length_cons]
    omega

/-- The buffers of lines that fit, in front of some text. -/
theorem exists_buffers_linesText {lines : List TextLine}
    (hlen : ∀ line ∈ lines, line.bytes.length ≤ room + 1) (s : Bytes) :
    ∃ shown, buffers room (linesText lines ++ s) = shown ++ buffers room s ∧
      WholeLines shown lines := by
  induction lines with
  | nil => exact ⟨[], rfl, WholeLines.nil⟩
  | cons line lines ih =>
    rw [List.forall_mem_cons] at hlen
    obtain ⟨shown, hshown, hwhole⟩ := ih hlen.2
    rw [linesText_cons, List.append_assoc, List.cons_append]
    by_cases hfull : line.bytes.length = room + 1
    · refine ⟨line.bytes :: [newline] :: shown, ?_, WholeLines.full line hwhole⟩
      rw [buffers_full line.newline_notMem hfull, buffers_newline, hshown, List.cons_append, List.cons_append]
    · refine ⟨(line.bytes ++ [newline]) :: shown, ?_, WholeLines.line line hwhole⟩
      rw [buffers_line line.newline_notMem (by omega), hshown, List.cons_append]

/-- Chunks that end at the bounds of lines show whole lines, and behind a text a line break
of its own first. -/
theorem wholeLines_flatMap_buffers {chunks : List Bytes} {lines : List TextLine}
    (hlen : ∀ line ∈ lines, line.bytes.length ≤ room + 1) (hbounds : AtLineBounds chunks) :
    (chunks.flatten = linesText lines → WholeLines (chunks.flatMap (buffers room)) lines) ∧
    (chunks.flatten = newline :: linesText lines →
      ∃ shown, chunks.flatMap (buffers room) = [newline] :: shown ∧ WholeLines shown lines) := by
  induction chunks generalizing lines with
  | nil =>
    constructor
    · intro h
      cases lines with
      | nil => exact WholeLines.nil
      | cons line lines => exact absurd h (by simp [linesText_cons])
    · intro h
      exact absurd h (by simp)
  | cons chunk chunks ih =>
    -- the next chunk, in front of a line
    have hstep : ∀ chunk : Bytes, AtLineBounds (chunk :: chunks) →
        chunk ++ chunks.flatten = linesText lines →
        WholeLines (buffers room chunk ++ chunks.flatMap (buffers room)) lines := by
      intro chunk hbounds htext
      rcases hbounds.cut htext with ⟨lines₁, lines₂, rfl, hchunk, hrest⟩ |
        ⟨lines₁, line, lines₂, rfl, hchunk, hrest⟩
      · rw [List.forall_mem_append] at hlen
        obtain ⟨shown, hshown, hwhole⟩ := exists_buffers_linesText hlen.1 []
        rw [List.append_nil, buffers_nil, List.append_nil] at hshown
        rw [hchunk, hshown]
        exact hwhole.append ((ih hlen.2 hbounds.tail).1 hrest)
      · rw [List.forall_mem_append, List.forall_mem_cons] at hlen
        obtain ⟨shown, hshown, hwhole⟩ := exists_buffers_linesText hlen.1 line.bytes
        obtain ⟨shown', hshown', hwhole'⟩ := (ih hlen.2.2 hbounds.tail).2 hrest
        rw [hchunk, hshown, buffers_text line.ne_nil line.newline_notMem hlen.2.1, hshown',
          List.append_assoc, List.singleton_append]
        exact hwhole.append (WholeLines.full line hwhole')
    rw [List.flatten_cons, List.flatMap_cons]
    constructor
    · exact hstep chunk hbounds
    · intro htext
      cases chunk with
      | nil =>
        rw [List.nil_append] at htext
        obtain ⟨shown, hshown, hwhole⟩ := (ih hlen hbounds.tail).2 htext
        refine ⟨shown, ?_, hwhole⟩
        rw [buffers_nil, List.nil_append, hshown]
      | cons c chunk =>
        rw [List.cons_append, List.cons.injEq] at htext
        obtain ⟨rfl, htext⟩ := htext
        refine ⟨_, ?_, hstep chunk hbounds.of_newline htext⟩
        rw [buffers_newline, List.cons_append]

/-- **A growing file is read line by line** exactly when no line is longer than the buffer and
no chunk ends inside a line. -/
theorem wholeLines_iff {chunks : List Bytes} {lines : List TextLine}
    (htext : chunks.flatten = linesText lines) :
    WholeLines (chunks.flatMap (buffers room)) lines ↔
      (∀ line ∈ lines, line.bytes.length ≤ room + 1) ∧ AtLineBounds chunks := by
  constructor
  · intro h
    refine ⟨h.length_le fun buffer hbuffer => ?_, h.atLineBounds.of_flatMap_buffers⟩
    obtain ⟨chunk, -, hbuffer⟩ := List.mem_flatMap.mp hbuffer
    exact length_le_of_mem_buffers hbuffer
  · rintro ⟨hlen, hbounds⟩
    exact (wholeLines_flatMap_buffers hlen hbounds).1 htext

/-! ## Counting buffers -/

/-- What `fgets` stores: something, with no line break but at its end. -/
def IsBuffer (buffer : Bytes) : Prop := buffer ≠ [] ∧ newline ∉ buffer.dropLast

/-- The buffer does not start with a line break. -/
def startsVisible (buffer : Bytes) : Bool := decide (buffer.head? ≠ some newline)

theorem isBuffer_of_mem_buffers {s buffer : Bytes} (h : buffer ∈ buffers room s) :
    IsBuffer buffer := by
  have hdropLast : ∀ (room : ℕ) (s : Bytes), newline ∉ (fgets room s).1.dropLast := by
    intro room s
    fun_induction fgets room s with
    | case1 room => exact List.not_mem_nil
    | case2 c s => exact List.not_mem_nil
    | case3 room s => exact List.not_mem_nil
    | case4 room c s hc ih =>
      cases hrest : (fgets room s).1 with
      | nil => exact List.not_mem_nil
      | cons d rest =>
        rw [hrest] at ih
        rw [List.dropLast_cons_cons, List.mem_cons, not_or]
        exact ⟨Ne.symm hc, ih⟩
  fun_induction buffers room s with
  | case1 => exact absurd h List.not_mem_nil
  | case2 c s hlt ih =>
    rcases List.mem_cons.mp h with rfl | h
    · refine ⟨?_, hdropLast _ _⟩
      rw [fgets]
      split <;> exact List.cons_ne_nil _ _
    · exact ih h

/-- The buffers that show a line and its break, and those behind it. -/
theorem exists_line_buffers {shown : List Bytes} (hshown : ∀ buffer ∈ shown, IsBuffer buffer)
    {text rest : Bytes} (htext : newline ∉ text) (h : shown.flatten = text ++ newline :: rest) :
    ∃ first second, shown = first ++ second ∧ first.flatten = text ++ [newline] ∧
      second.flatten = rest := by
  induction shown generalizing text with
  | nil => exact absurd h.symm (by simp)
  | cons buffer shown ih =>
    rw [List.forall_mem_cons] at hshown
    -- a buffer inside the text
    have hinside : ∀ v, text = buffer ++ v → shown.flatten = v ++ newline :: rest →
        ∃ first second, buffer :: shown = first ++ second ∧
          first.flatten = text ++ [newline] ∧ second.flatten = rest := by
      rintro v rfl hv
      rw [List.mem_append, not_or] at htext
      obtain ⟨first, second, rfl, hfirst, hsecond⟩ := ih hshown.2 htext.2 hv
      refine ⟨buffer :: first, second, rfl, ?_, hsecond⟩
      rw [List.flatten_cons, hfirst, List.append_assoc]
    rw [List.flatten_cons, List.append_eq_append_iff] at h
    rcases h with ⟨v, htext', hrest⟩ | ⟨w, hbuffer, hrest⟩
    · exact hinside v htext' hrest
    · cases w with
      | nil =>
        rw [List.append_nil] at hbuffer
        exact hinside [] (by rw [hbuffer, List.append_nil]) hrest.symm
      | cons c w =>
        rw [List.cons_append, List.cons.injEq] at hrest
        obtain ⟨rfl, hrest⟩ := hrest
        -- the line break ends the buffer
        have hw : w = [] := by
          by_contra hne
          have hlast := hshown.1.2
          rw [hbuffer, List.dropLast_append_of_ne_nil (List.cons_ne_nil _ _),
            List.dropLast_cons_of_ne_nil hne] at hlast
          exact hlast (List.mem_append_right _ List.mem_cons_self)
        subst hw
        refine ⟨[buffer], shown, rfl, ?_, hrest.symm⟩
        rw [List.flatten_singleton, hbuffer]

/-- The only line break of a line is at its end. -/
theorem append_newline_eq {u t line : Bytes} (hline : newline ∉ line)
    (h : u ++ newline :: t = line ++ [newline]) : u = line ∧ t = [] := by
  rw [List.append_eq_append_iff] at h
  rcases h with ⟨v, rfl, hv⟩ | ⟨w, rfl, hw⟩
  · cases v with
    | nil => exact ⟨(List.append_nil u).symm, (List.cons.inj hv).2⟩
    | cons c v =>
      have hc : newline = c := (List.cons.inj hv).1
      exact absurd (List.mem_append_right _ (hc ▸ List.mem_cons_self)) hline
  · cases w with
    | nil => exact ⟨List.append_nil line, (List.cons.inj hw).2.symm⟩
    | cons c w => exact absurd (List.cons.inj hw).2 (by simp)

/-- Buffers that show a line: one that starts visibly, at least, and if no more, then the whole
line. -/
theorem line_buffers_cases {first : List Bytes} (hfirst : ∀ buffer ∈ first, IsBuffer buffer)
    (line : TextLine) (h : first.flatten = line.bytes ++ [newline]) :
    1 ≤ first.countP startsVisible ∧
      (first.countP startsVisible ≤ 1 →
        first = [line.bytes ++ [newline]] ∨ first = [line.bytes, [newline]]) := by
  cases first with
  | nil => exact absurd h.symm (by simp)
  | cons buffer first =>
    rw [List.forall_mem_cons] at hfirst
    rw [List.flatten_cons] at h
    have hvisible : startsVisible buffer = true := by
      refine decide_eq_true fun hhead => ?_
      have hline := congrArg List.head? h
      rw [List.head?_append, hhead, List.head?_append_of_ne_nil _ line.ne_nil] at hline
      exact line.newline_notMem (List.mem_of_head? hline.symm)
    rw [List.countP_cons_of_pos hvisible]
    refine ⟨Nat.le_add_left 1 _, fun hcount => ?_⟩
    have hbreaks : ∀ b ∈ first, ¬ startsVisible b = true := by
      rw [← List.countP_eq_zero]
      omega
    cases first with
    | nil =>
      rw [List.flatten_nil, List.append_nil] at h
      exact Or.inl (by rw [h])
    | cons b first =>
      -- the second buffer starts with the only line break
      have hb : b.head? = some newline := by
        have hnot := hbreaks b List.mem_cons_self
        rw [startsVisible, decide_eq_true_eq, not_not] at hnot
        exact hnot
      obtain ⟨c, rfl⟩ : ∃ c, b = newline :: c := by
        cases b with
        | nil => exact absurd hb (by simp)
        | cons d c => exact ⟨c, by rw [Option.some_inj.mp hb]⟩
      rw [List.flatten_cons, List.cons_append] at h
      obtain ⟨hbuffer, hrest⟩ := append_newline_eq line.newline_notMem h
      rw [List.append_eq_nil_iff] at hrest
      have hfirst' : first = [] := by
        cases first with
        | nil => rfl
        | cons b first =>
          have hne := (hfirst.2 b (List.mem_cons_of_mem _ List.mem_cons_self)).1
          rw [List.flatten_cons, List.append_eq_nil_iff] at hrest
          exact absurd hrest.2.1 hne
      exact Or.inr (by rw [hbuffer, hrest.1, hfirst'])

/-- **Every line shows**: no fewer buffers than lines start visibly, and if no more, then the
lines are whole. -/
theorem wholeLines_of_countP_le {shown : List Bytes} (hshown : ∀ buffer ∈ shown, IsBuffer buffer)
    {lines : List TextLine} (htext : shown.flatten = linesText lines) :
    lines.length ≤ shown.countP startsVisible ∧
      (shown.countP startsVisible ≤ lines.length → WholeLines shown lines) := by
  induction lines generalizing shown with
  | nil =>
    refine ⟨Nat.zero_le _, fun _ => ?_⟩
    cases shown with
    | nil => exact WholeLines.nil
    | cons buffer shown =>
      have hne := (hshown buffer List.mem_cons_self).1
      rw [linesText, List.flatMap_nil, List.flatten_cons, List.append_eq_nil_iff] at htext
      exact absurd htext.1 hne
  | cons line lines ih =>
    rw [linesText_cons] at htext
    obtain ⟨first, second, rfl, hfirst, hsecond⟩ :=
      exists_line_buffers hshown line.newline_notMem htext
    rw [List.forall_mem_append] at hshown
    obtain ⟨hone, hwhole⟩ := line_buffers_cases hshown.1 line hfirst
    obtain ⟨hrest, hwhole'⟩ := ih hshown.2 hsecond
    rw [List.countP_append, List.length_cons]
    refine ⟨by omega, fun hcount => ?_⟩
    have hshown' : WholeLines second lines := hwhole' (by omega)
    rcases hwhole (by omega) with rfl | rfl
    · exact WholeLines.line line hshown'
    · exact WholeLines.full line hshown'

end LogAgg
