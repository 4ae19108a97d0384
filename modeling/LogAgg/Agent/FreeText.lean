import LogAgg.Agent.Line

/-!
# Free text

A line without a tag, a time or a level in brackets goes to the third format of
`agent_parse_line`, `%15[^:]: %[^\n]`.  It is meant for lines such as `INFO: Request started`,
but it asks only for a colon behind at most fifteen bytes, and for something behind the colon
(`HasLabel`).  What stands in front of the colon is then looked up as a level, and is lost.

A line that starts with a letter keeps all of its text, at level `INFO`, exactly when there is
no such label (`agentParseLine_freeText_iff`).
-/

namespace LogAgg

open Ascii

/-! ## The third format -/

/-- The line has a colon behind at most fifteen bytes, and not only white space behind it. -/
def HasLabel (line : Bytes) : Prop :=
  ∃ label rest, line = label ++ colon :: rest ∧ colon ∉ label ∧ label.length ≤ 15 ∧
    skipWhitespace rest ≠ []

/-- Without a time and without a bracket in front, only the third format is left. -/
theorem parseContent_of_short {content : Bytes} (htime : (scanf timeFormat content).length < 8)
    (hbracket : content.head? ≠ some lbracket) :
    parseContent content =
      match levelAndMessage (scanf colonFormat content) with
      | some (level, message) => ⟨level, message, none⟩
      | none => ⟨ascii "INFO", cutNewline (content.take logMessageMaxLen), none⟩ := by
  have hformat : scanf bracketFormat content = [] := by
    cases content with
    | nil => rfl
    | cons c content =>
      rw [bracketFormat, scanf, if_neg]
      rintro rfl
      exact hbracket rfl
  unfold parseContent
  split
  · rename_i heq
    rw [heq] at htime
    simp only [List.length_cons] at htime
    omega
  · rw [hformat]
    rfl

/-- What `%[^\n]` takes from a text without line breaks. -/
theorem scanf_message {message : Bytes} (hne : message ≠ []) (hnewline : newline ∉ message) :
    scanf [.set none newline] message = [.str message] := by
  have htake : message.takeWhile (fun c => c != newline) = message := by
    refine List.takeWhile_eq_self_iff.mpr fun c hc => ?_
    rw [bne_iff_ne]
    rintro rfl
    exact hnewline hc
  rw [scanf, scanSpan, upTo, htake]
  rw [if_neg hne]
  rfl

/-- What `%15[^:]` takes in front of a colon. -/
theorem scanSpan_label {label : Bytes} (hne : label ≠ []) (hcolon : colon ∉ label)
    (hlen : label.length ≤ 15) (rest : Bytes) :
    scanSpan (some 15) (fun c => c != colon) (label ++ colon :: rest) =
      some (label, colon :: rest) := by
  have hlabel : ∀ c ∈ label, (c != colon) = true := by
    intro c hc
    rw [bne_iff_ne]
    rintro rfl
    exact hcolon hc
  have hbehind : ((colon :: rest).take (15 - label.length)).takeWhile (fun c => c != colon) =
      [] := by
    cases 15 - label.length with
    | zero => rfl
    | succ k => rfl
  have htake : (upTo (some 15) (label ++ colon :: rest)).takeWhile (fun c => c != colon) =
      label := by
    rw [upTo, List.take_append, List.take_of_length_le hlen, List.takeWhile_append_of_pos hlabel,
      hbehind, List.append_nil]
  rw [scanSpan, htake]
  rw [if_neg hne, List.drop_left]

/-- **A label is taken for the level**, and what is behind it for the message. -/
theorem scanf_colonFormat {label rest : Bytes} (hne : label ≠ []) (hcolon : colon ∉ label)
    (hlen : label.length ≤ 15) (hrest : skipWhitespace rest ≠ [])
    (hnewline : newline ∉ skipWhitespace rest) :
    scanf colonFormat (label ++ colon :: rest) = [.str label, .str (skipWhitespace rest)] := by
  rw [colonFormat, scanf, scanSpan_label hne hcolon hlen]
  dsimp only
  rw [scanf_char, scanf, scanf_message hrest hnewline]

/-- Without a label the third format fails. -/
theorem levelAndMessage_colonFormat {line : Bytes} (hlabel : ¬ HasLabel line) :
    levelAndMessage (scanf colonFormat line) = none := by
  rw [colonFormat, scanf]
  cases hspan : scanSpan (some 15) (fun c => c != colon) line with
  | none => rfl
  | some r =>
    obtain ⟨label, behind⟩ := r
    obtain ⟨hline, hlabelBytes, hlen⟩ := of_scanSpan_eq_some hspan
    have hcolon : colon ∉ label := fun h => absurd (hlabelBytes colon h) (by decide)
    dsimp only
    cases behind with
    | nil => rfl
    | cons d rest =>
      rw [scanf]
      by_cases hd : d = colon
      · -- behind the colon there is nothing to convert
        subst hd
        have hnothing : skipWhitespace rest = [] := by
          by_contra hrest
          exact hlabel ⟨label, rest, hline, hcolon, hlen, hrest⟩
        rw [if_pos rfl, scanf, hnothing, scanf, scanSpan_nil]
        rfl
      · rw [if_neg hd]
        rfl

/-! ## Lines that start with a letter -/

/-- A letter. -/
def isalpha (c : UInt8) : Bool := isupper c || (decide (97 ≤ c) && decide (c ≤ 122))

/-- A line of free text: it starts with a letter, but not with the name of a level and a colon. -/
structure FreeText where
  bytes : Bytes
  first : UInt8
  head?_eq : bytes.head? = some first
  isalpha_first : isalpha first = true
  length_le : bytes.length ≤ 900
  newline_notMem : newline ∉ bytes
  nul_notMem : (0 : UInt8) ∉ bytes
  no_level : ∀ level : LogLevel, level.Named → ¬ logLevelStr level ++ [colon] <+: bytes

/-- Letters are none of the bytes at which another format starts. -/
theorem of_isalpha {c : UInt8} (hc : isalpha c = true) :
    isspace c = false ∧ isdigit c = false ∧ c ≠ 43 ∧ c ≠ 45 ∧ c ≠ lbracket ∧ c ≠ colon ∧
      c ≠ newline := by
  revert c
  decide +kernel

/-- `%d` fails at a letter. -/
theorem scanInt_letter {c : UInt8} (hc : isalpha c = true) (s : Bytes) :
    scanInt (c :: s) = none := by
  obtain ⟨-, hdigit, hplus, hminus, -⟩ := of_isalpha hc
  have hnosign : ¬ ((c :: s).head? = some 45 ∨ (c :: s).head? = some 43) := by
    rw [List.head?_cons, Option.some_inj, Option.some_inj, not_or]
    exact ⟨hminus, hplus⟩
  unfold scanInt
  rw [if_neg hnosign]
  dsimp only
  rw [hdigit]
  rfl

namespace FreeText

variable (text : FreeText)

theorem exists_cons : ∃ s, text.bytes = text.first :: s := by
  have hhead := text.head?_eq
  cases hbytes : text.bytes with
  | nil => exact absurd (hbytes ▸ hhead) (by simp)
  | cons c s =>
    rw [hbytes, List.head?_cons, Option.some_inj] at hhead
    exact ⟨s, by rw [hhead]⟩

/-- There is no tag in front. -/
theorem parseVcTag_bytes : parseVcTag text.bytes = (text.bytes, fun _ => -1) := by
  obtain ⟨s, hs⟩ := text.exists_cons
  have hne : text.bytes.take 4 ≠ ascii "[VC:" := by
    rw [hs, List.take_succ_cons]
    intro h
    exact (of_isalpha text.isalpha_first).2.2.2.2.1 (List.cons.inj h).1
  rw [parseVcTag, if_neg hne]

/-- There is no time in front, either. -/
theorem scanf_timeFormat : scanf timeFormat text.bytes = [] := by
  obtain ⟨s, hs⟩ := text.exists_cons
  rw [hs, timeFormat, scanf, skipWhitespace_cons (of_isalpha text.isalpha_first).1,
    scanInt_letter text.isalpha_first]

theorem head?_ne : text.bytes.head? ≠ some lbracket ∧ text.bytes.head? ≠ some newline := by
  obtain ⟨-, -, -, -, hbracket, -, hnewline⟩ := of_isalpha text.isalpha_first
  rw [text.head?_eq, Ne, Option.some_inj, Ne, Option.some_inj]
  exact ⟨hbracket, hnewline⟩

/-- A text with a label loses it. -/
theorem parseContent_of_hasLabel (h : HasLabel text.bytes) :
    ∃ label rest, text.bytes = label ++ colon :: rest ∧
      parseContent text.bytes = ⟨label, skipWhitespace rest, none⟩ := by
  obtain ⟨label, rest, hbytes, hcolon, hlen, hrest⟩ := h
  have hne : label ≠ [] := by
    rintro rfl
    have hhead := text.head?_eq
    rw [hbytes] at hhead
    exact (of_isalpha text.isalpha_first).2.2.2.2.2.1 (Option.some_inj.mp hhead).symm
  have hnewline : newline ∉ skipWhitespace rest := by
    intro hmem
    refine text.newline_notMem ?_
    rw [hbytes]
    exact List.mem_append_right _ (List.mem_cons_of_mem _ ((List.dropWhile_suffix _).subset hmem))
  have hscan := scanf_colonFormat hne hcolon hlen hrest hnewline
  refine ⟨label, rest, hbytes, ?_⟩
  rw [parseContent_of_short (by rw [text.scanf_timeFormat]; exact Nat.zero_lt_succ 7)
    text.head?_ne.1, hbytes, hscan]
  rfl

/-- A text without a label is the message. -/
theorem parseContent_of_not_hasLabel (h : ¬ HasLabel text.bytes) :
    parseContent text.bytes = ⟨ascii "INFO", text.bytes, none⟩ := by
  have hshort : text.bytes.length ≤ logMessageMaxLen := text.length_le.trans (by decide)
  rw [parseContent_of_short (by rw [text.scanf_timeFormat]; exact Nat.zero_lt_succ 7)
    text.head?_ne.1, levelAndMessage_colonFormat h]
  dsimp only
  rw [List.take_of_length_le hshort, cutNewline_of_notMem text.newline_notMem]

end FreeText

/-- **Free text is kept exactly if it has no label.**  It is parsed in any case. -/
theorem agentParseLine_freeText_iff (mktime : Tm → ℤ) (now : UInt64) (text : FreeText) :
    (∃ entry parsedVc, agentParseLine mktime now text.bytes = some (entry, parsedVc) ∧
      entry.level = .info ∧ entry.message.bytes = text.bytes) ↔ ¬ HasLabel text.bytes := by
  have hne : text.bytes ≠ [] := by
    obtain ⟨s, hs⟩ := text.exists_cons
    rw [hs]
    exact List.cons_ne_nil _ _
  have hshort : text.bytes.length ≤ logMessageMaxLen := text.length_le.trans (by decide)
  obtain ⟨entry, hparse, hfields⟩ := exists_agentParseLine mktime now hne text.head?_ne.2
  rw [lineFields, text.parseVcTag_bytes] at hfields
  constructor
  · rintro ⟨entry', parsedVc, hparse', -, hmessage⟩ hlabel
    have heq : entry' = entry := by
      rw [hparse] at hparse'
      exact (Prod.mk.inj (Option.some_inj.mp hparse')).1.symm
    obtain ⟨label, rest, hbytes, hcontent⟩ := text.parseContent_of_hasLabel hlabel
    rw [hcontent] at hfields
    -- the message is shorter than the line
    have hlen : entry'.message.bytes.length < text.bytes.length := by
      have hkept : entry.message.bytes.length ≤ (skipWhitespace rest).length := by
        rw [(Prod.mk.inj hfields).1]
        refine (List.takeWhile_prefix _).length_le.trans ?_
        rw [List.length_take]
        exact Nat.min_le_right _ _
      have hrest := length_skipWhitespace_le rest
      rw [heq, hbytes, List.length_append, List.length_cons]
      omega
    rw [hmessage] at hlen
    exact lt_irrefl _ hlen
  · intro hlabel
    rw [text.parseContent_of_not_hasLabel hlabel] at hfields
    obtain ⟨hmessage, hlevel⟩ := Prod.mk.inj hfields
    refine ⟨entry, _, hparse, hlevel, ?_⟩
    rw [hmessage]
    exact CStr.bytes_ofBytes hshort text.nul_notMem

/-- A message with a colon. -/
def loginText : FreeText where
  bytes := ascii "User login: alice"
  first := 85
  head?_eq := rfl
  isalpha_first := rfl
  length_le := by decide
  newline_notMem := by decide
  nul_notMem := by decide
  no_level := by
    intro level hlevel
    cases level with
    | debug => decide
    | info => decide
    | warn => decide
    | error => decide
    | fatal => decide
    | other value => exact absurd rfl (hlevel value)

/-- The text in front of the colon is lost. -/
theorem agentParseLine_loginText :
    loginText.bytes = ascii "User login: alice" ∧
      ((agentParseLine (fun _ => 0) 0 loginText.bytes).map fun r =>
        (r.1.level, r.1.message.bytes)) = some (.info, ascii "alice") ∧
      ascii "alice" ≠ loginText.bytes := by
  decide +kernel

end LogAgg
