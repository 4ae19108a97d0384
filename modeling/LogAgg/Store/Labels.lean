import LogAgg.Dot.Strings
import LogAgg.LogEntry.Json
import LogAgg.Store.Clusters

/-!
# The labels of the DOT export

`store_export_dot` prints node ids and the starts of messages between quotes, as they are: it does
not escape them, as `log_entry_to_json` does.  A quote in a message closes the label, and a
backslash is an escape together with the byte behind it, perhaps the closing quote.

The strings of the file are the ones that were meant, and the labels mean what they show, exactly
when no message has a quote or a backslash among the 28 bytes that are printed and each node id
is well quoted (`storeExportDot_labels_iff`).
-/

namespace LogAgg

open Dot LogAgg.Ascii

/-! ## The strings of the file -/

/-- The label of an event, as it is printed. -/
def eventLabel (level : LogLevel) (summary : Bytes) : Bytes :=
  ascii "[" ++ logLevelStr level ++ ascii "]\\n" ++ summary

namespace DotStatement

/-- The strings of a statement, and the text in between. -/
def pieces : DotStatement → List Piece
  | .graphHead =>
    [.plain (ascii "digraph G \x7b\n" ++ ascii "    rankdir=LR;\n" ++
        ascii "    node [shape=box, fontname="),
      .quoted (ascii "Courier"),
      .plain (ascii ", fontsize=10];\n" ++ ascii "    edge [color="),
      .quoted (ascii "#2b579a"),
      .plain (ascii ", arrowhead=normal, arrowsize=0.8];\n\n")]
  | .clusterHead nodeId =>
    [.plain (ascii "    subgraph "),
      .quoted (ascii "cluster_" ++ nodeId),
      .plain (ascii " \x7b\n" ++ ascii "        label="),
      .quoted (ascii "Node: " ++ nodeId),
      .plain (ascii ";\n" ++ ascii "        color=gray; style=dashed;\n")]
  | .clusterEnd last => [.plain (text (.clusterEnd last))]
  | .event i level summary =>
    [.plain (ascii "        event_" ++ decimal i ++ ascii " [label="),
      .quoted (eventLabel level summary),
      .plain (ascii "];\n")]
  | .edgesHead => [.plain (text .edgesHead)]
  | .edge i j rpc =>
    .plain (ascii "    event_" ++ decimal i ++ ascii " -> event_" ++ decimal j) ::
      if rpc then
        [.plain (ascii " [style=dashed, color="), .quoted (ascii "#e51400"),
          .plain (ascii ", label="), .quoted (ascii "RPC"), .plain (ascii "];\n")]
      else [.plain (ascii ";\n")]
  | .graphEnd => [.plain (text .graphEnd)]

/-- The bodies of the strings of a statement. -/
def bodies (statement : DotStatement) : List Bytes := statement.pieces.flatMap Piece.bodies

/-- The texts of a statement that come from an entry. -/
def entryTexts : DotStatement → List Bytes
  | .clusterHead nodeId => [nodeId]
  | .event _ _ summary => [summary]
  | _ => []

end DotStatement

/-- The bodies of all strings, in the order in which they are written. -/
def quotedTexts (store : LogStore) : List Bytes :=
  (dotStatements store).flatMap DotStatement.bodies

/-- Each string is well formed, the file is read as these strings, and the label of each event
means its level, a line break and its message. -/
structure LabelsReadBack (escapes : Escapes) (store : LogStore) : Prop where
  wellQuoted : ∀ body ∈ quotedTexts store, WellQuoted body
  strings : ∀ file, (storeExportDot true store).2 = some file →
    Dot.strings file = some (quotedTexts store)
  labels : ∀ i < store.count,
    escapes.read (eventLabel (store.entryAt i).level
        (messageSummary (store.entryAt i).message.bytes)) =
      ascii "[" ++ logLevelStr (store.entryAt i).level ++ ascii "]" ++
        newline :: messageSummary (store.entryAt i).message.bytes

/-- The node id is well quoted, and there are no quotes and no backslashes in the part of the
message that is printed. -/
structure DrawnAsIs (entry : LogEntry) : Prop where
  nodeId : WellQuoted entry.nodeId.bytes
  quote_notMem : quote ∉ entry.message.bytes.take 28
  backslash_notMem : backslash ∉ entry.message.bytes.take 28

/-! ## One statement -/

/-- The escape of a label is the line break behind its level. -/
theorem eventLabel_eq (level : LogLevel) (summary : Bytes) :
    eventLabel level summary =
      ascii "[" ++ logLevelStr level ++ ascii "]" ++ backslash :: 110 :: summary := by
  have hbreak : ascii "]\\n" = ascii "]" ++ [backslash, 110] := by decide +kernel
  rw [eventLabel, hbreak, ← List.append_assoc, List.append_assoc, List.cons_append,
    List.cons_append, List.nil_append]

theorem notMem_levelInBrackets {c : UInt8} (hc : c ∉ ascii "[" ++ ascii "]")
    (hupper : isupper c = false) (level : LogLevel) :
    c ∉ ascii "[" ++ logLevelStr level ++ ascii "]" := by
  rw [List.mem_append, not_or] at hc
  rw [List.mem_append, List.mem_append, not_or, not_or]
  exact ⟨⟨hc.1, notMem_logLevelStr hupper level⟩, hc.2⟩

theorem wellQuoted_eventLabel_iff (level : LogLevel) (summary : Bytes) :
    WellQuoted (eventLabel level summary) ↔ WellQuoted summary := by
  have hquote := notMem_levelInBrackets (c := quote) (by decide +kernel) (by decide) level
  have hbackslash := notMem_levelInBrackets (c := backslash) (by decide +kernel) (by decide) level
  rw [eventLabel_eq, wellQuoted_append_iff hquote hbackslash, wellQuoted_escape_iff]

/-- **What a label means**: the level, a line break and what the message is read as. -/
theorem read_eventLabel (escapes : Escapes) (level : LogLevel) (summary : Bytes) :
    escapes.read (eventLabel level summary) =
      ascii "[" ++ logLevelStr level ++ ascii "]" ++ newline :: escapes.read summary := by
  have hbackslash := notMem_levelInBrackets (c := backslash) (by decide +kernel) (by decide) level
  rw [eventLabel_eq, escapes.read_append hbackslash, escapes.read_escape, escapes.meaning_n]
  rfl

theorem notMem_decimal {c : UInt8} (hc : isdigit c = false) (n : ℕ) : c ∉ decimal n := by
  intro hmem
  rw [mem_decimal hmem] at hc
  exact Bool.noConfusion hc

namespace DotStatement

/-- A statement is written piece by piece. -/
theorem flatMap_text_pieces (statement : DotStatement) :
    statement.pieces.flatMap Piece.text = statement.text := by
  cases statement with
  | graphHead => decide +kernel
  | clusterHead nodeId =>
    have hname : ascii "    subgraph \"cluster_" =
        ascii "    subgraph " ++ quote :: ascii "cluster_" := by decide +kernel
    have hend : ascii "\" \x7b\n" = quote :: ascii " \x7b\n" := by decide +kernel
    have hlabel : ascii "        label=\"Node: " =
        ascii "        label=" ++ quote :: ascii "Node: " := by decide +kernel
    have hstyle : ascii "\";\n" = quote :: ascii ";\n" := by decide +kernel
    rw [text, hname, hend, hlabel, hstyle]
    simp only [pieces, Piece.text, List.flatMap_cons, List.flatMap_nil, List.append_assoc,
      List.cons_append, List.nil_append, List.append_nil]
  | clusterEnd last => exact List.append_nil _
  | event i level summary =>
    have hlabel : ascii " [label=\"[" = ascii " [label=" ++ quote :: ascii "[" := by
      decide +kernel
    have hend : ascii "\"];\n" = quote :: ascii "];\n" := by decide +kernel
    rw [text, hlabel, hend]
    simp only [pieces, eventLabel, Piece.text, List.flatMap_cons, List.flatMap_nil,
      List.append_assoc, List.cons_append, List.nil_append, List.append_nil]
  | edgesHead => exact List.append_nil _
  | edge i j rpc =>
    rw [pieces, List.flatMap_cons, text, List.append_assoc, Piece.text]
    cases rpc with
    | false => exact congrArg _ (List.append_nil _)
    | true =>
      refine congrArg _ ?_
      decide +kernel
  | graphEnd => exact List.append_nil _

/-- No quote stands outside of the strings. -/
theorem separate_of_mem_pieces (statement : DotStatement) :
    ∀ piece ∈ statement.pieces, piece.Separate := by
  have hdecimal := notMem_decimal (c := quote) (by decide)
  cases statement with
  | graphHead => decide +kernel
  | clusterHead nodeId =>
    simp only [pieces, List.forall_mem_cons, Piece.separate_plain, Piece.separate_quoted]
    decide +kernel
  | clusterEnd last =>
    cases last with
    | false => decide +kernel
    | true => decide +kernel
  | event i level summary =>
    simp only [pieces, List.forall_mem_cons, Piece.separate_plain, Piece.separate_quoted,
      List.mem_append, hdecimal, or_false]
    decide +kernel
  | edgesHead => decide +kernel
  | edge i j rpc =>
    rw [pieces, List.forall_mem_cons]
    constructor
    · simp only [Piece.separate_plain, List.mem_append, hdecimal, or_false]
      decide +kernel
    · cases rpc with
      | false => decide +kernel
      | true => decide +kernel
  | graphEnd => decide +kernel

/-- The fixed strings are well quoted, so it depends on the texts of the entries. -/
theorem forall_bodies_iff (statement : DotStatement) :
    (∀ body ∈ statement.bodies, WellQuoted body) ↔
      ∀ text ∈ statement.entryTexts, WellQuoted text := by
  have hfixed {s : Bytes} (h : quote ∉ s ∧ backslash ∉ s) : WellQuoted s :=
    (wellQuoted_iff_of_notMem h.2).mpr h.1
  have hnone : ∀ text ∈ ([] : List Bytes), WellQuoted text := fun _ h => absurd h List.not_mem_nil
  cases statement with
  | graphHead =>
    refine iff_of_true (List.forall_mem_cons.mpr ⟨hfixed ?_, List.forall_mem_singleton.mpr
      (hfixed ?_)⟩) hnone
    · decide +kernel
    · decide +kernel
  | clusterHead nodeId =>
    have hbodies : (clusterHead nodeId).bodies =
        [ascii "cluster_" ++ nodeId, ascii "Node: " ++ nodeId] := rfl
    rw [hbodies, List.forall_mem_cons, List.forall_mem_singleton,
      wellQuoted_append_iff (by decide +kernel) (by decide +kernel),
      wellQuoted_append_iff (by decide +kernel) (by decide +kernel), and_self]
    exact List.forall_mem_singleton.symm
  | clusterEnd last => exact iff_of_true hnone hnone
  | event i level summary =>
    have hbodies : (event i level summary).bodies = [eventLabel level summary] := rfl
    rw [hbodies, List.forall_mem_singleton, wellQuoted_eventLabel_iff]
    exact List.forall_mem_singleton.symm
  | edgesHead => exact iff_of_true hnone hnone
  | edge i j rpc =>
    cases rpc with
    | false => exact iff_of_true hnone hnone
    | true =>
      refine iff_of_true (List.forall_mem_cons.mpr ⟨hfixed ?_, List.forall_mem_singleton.mpr
        (hfixed ?_)⟩) hnone
      · decide +kernel
      · decide +kernel
  | graphEnd => exact iff_of_true hnone hnone

end DotStatement

/-! ## The whole file -/

variable (store : LogStore)

/-- The file is made of the texts of the statements. -/
theorem text_storeExportDot {store : LogStore} {file : Bytes}
    (hfile : (storeExportDot true store).2 = some file) :
    (dotStatements store).flatMap DotStatement.text = file := by
  unfold storeExportDot at hfile
  split at hfile
  · exact absurd hfile (by simp)
  · exact Option.some_inj.mp hfile

/-- **When the strings of the file are read as they were meant**: exactly if all of them are well
quoted. -/
theorem strings_storeExportDot_iff {file : Bytes}
    (hfile : (storeExportDot true store).2 = some file) :
    Dot.strings file = some (quotedTexts store) ↔ ∀ body ∈ quotedTexts store, WellQuoted body := by
  have htext : file = ((dotStatements store).flatMap DotStatement.pieces).flatMap Piece.text := by
    rw [List.flatMap_assoc]
    simp only [DotStatement.flatMap_text_pieces]
    exact (text_storeExportDot hfile).symm
  have hbodies : quotedTexts store =
      ((dotStatements store).flatMap DotStatement.pieces).flatMap Piece.bodies :=
    List.flatMap_assoc.symm
  rw [htext, hbodies]
  refine strings_eq_some_iff fun piece hpiece => ?_
  obtain ⟨statement, -, hmem⟩ := List.mem_flatMap.mp hpiece
  exact statement.separate_of_mem_pieces piece hmem

/-- A cluster for each node id. -/
theorem clusterHead_mem_iff {nodeId : Bytes} :
    .clusterHead nodeId ∈ dotStatements store ↔ ∃ i < store.count, store.nodeIdAt i = nodeId := by
  rw [← List.count_pos_iff, count_dotStatements]
  split
  · rename_i h
    exact iff_of_true one_pos h
  · rename_i h
    exact iff_of_false (lt_irrefl 0) h

/-- An event for each entry. -/
theorem event_mem_iff {i : ℕ} {level : LogLevel} {summary : Bytes} :
    .event i level summary ∈ dotStatements store ↔
      i < store.count ∧ level = (store.entryAt i).level ∧
        summary = messageSummary (store.entryAt i).message.bytes := by
  rw [mem_dotStatements_iff]
  constructor
  · rintro (h | ⟨k, hk, h⟩ | ⟨-, h⟩ | h | ⟨i', -, j', -, h⟩ | h)
    · exact DotStatement.noConfusion h
    · rcases mem_eventStatements_cases h with h | h | h
      · exact DotStatement.noConfusion h
      · exact DotStatement.noConfusion h
      · obtain ⟨rfl, hlevel, hsummary⟩ := DotStatement.event.inj h
        exact ⟨hk, hlevel, hsummary⟩
    · exact DotStatement.noConfusion h
    · exact DotStatement.noConfusion h
    · obtain ⟨rpc, h⟩ := exists_of_mem_edgeStatements h
      exact DotStatement.noConfusion h
    · exact DotStatement.noConfusion h
  · rintro ⟨hi, rfl, rfl⟩
    exact Or.inr (Or.inl ⟨i, hi, event_mem_eventStatements store i⟩)

/-- The strings are well quoted if the texts of all entries are. -/
theorem forall_quotedTexts_iff :
    (∀ body ∈ quotedTexts store, WellQuoted body) ↔ ∀ i < store.count,
      WellQuoted (store.nodeIdAt i) ∧
        WellQuoted (messageSummary (store.entryAt i).message.bytes) := by
  have hstatements : (∀ body ∈ quotedTexts store, WellQuoted body) ↔
      ∀ statement ∈ dotStatements store, ∀ text ∈ statement.entryTexts, WellQuoted text := by
    rw [quotedTexts, List.forall_mem_flatMap]
    simp only [DotStatement.forall_bodies_iff]
  rw [hstatements]
  constructor
  · intro h i hi
    have hcluster := h _ ((clusterHead_mem_iff store).mpr ⟨i, hi, rfl⟩)
    have hevent := h _ ((event_mem_iff store).mpr ⟨hi, rfl, rfl⟩)
    exact ⟨hcluster _ List.mem_cons_self, hevent _ List.mem_cons_self⟩
  · intro h statement hmem text htext
    cases statement with
    | clusterHead nodeId =>
      obtain ⟨i, hi, rfl⟩ := (clusterHead_mem_iff store).mp hmem
      rw [List.mem_singleton.mp htext]
      exact (h i hi).1
    | event i level summary =>
      obtain ⟨hi, -, rfl⟩ := (event_mem_iff store).mp hmem
      rw [List.mem_singleton.mp htext]
      exact (h i hi).2
    | _ => exact absurd htext List.not_mem_nil

/-- The dots behind a message that is cut add nothing to escape. -/
theorem mem_messageSummary_iff {c : UInt8} (hc : c ∉ ascii "...") (message : Bytes) :
    c ∈ messageSummary message ↔ c ∈ message.take 28 := by
  unfold messageSummary
  split
  · rw [List.mem_append, or_iff_left hc]
  · exact Iff.rfl

/-- **One entry**: its texts are well quoted and its message means itself. -/
theorem drawnAsIs_iff (escapes : Escapes) (entry : LogEntry) :
    DrawnAsIs entry ↔ WellQuoted entry.nodeId.bytes ∧
      WellQuoted (messageSummary entry.message.bytes) ∧
        escapes.read (messageSummary entry.message.bytes) = messageSummary entry.message.bytes := by
  have hquote := mem_messageSummary_iff (c := quote) (by decide +kernel) entry.message.bytes
  have hbackslash := mem_messageSummary_iff (c := backslash) (by decide +kernel) entry.message.bytes
  constructor
  · intro h
    have hnone := mt hbackslash.mp h.backslash_notMem
    have hwell := (wellQuoted_iff_of_notMem hnone).mpr (mt hquote.mp h.quote_notMem)
    exact ⟨h.nodeId, hwell, (escapes.read_eq_self_iff hwell).mpr hnone⟩
  · rintro ⟨hnode, hwell, hread⟩
    have hnone := (escapes.read_eq_self_iff hwell).mp hread
    exact ⟨hnode, mt hquote.mpr ((wellQuoted_iff_of_notMem hnone).mp hwell),
      mt hbackslash.mpr hnone⟩

/-- **When the labels are well formed and read back**: exactly if every entry can be drawn as it
is. -/
theorem storeExportDot_labels_iff (escapes : Escapes) (store : LogStore) :
    LabelsReadBack escapes store ↔ ∀ entry ∈ store.entries, DrawnAsIs entry := by
  have hentries : (∀ entry ∈ store.entries, DrawnAsIs entry) ↔
      ∀ i < store.count, DrawnAsIs (store.entryAt i) := by
    rw [List.forall_mem_iff_forall_getElem]
    refine forall₂_congr fun i hi => ?_
    rw [LogStore.entryAt, List.getD_eq_getElem _ _ hi]
  have hlabel : ∀ level summary, escapes.read (eventLabel level summary) =
      ascii "[" ++ logLevelStr level ++ ascii "]" ++ newline :: summary ↔
        escapes.read summary = summary := by
    intro level summary
    rw [read_eventLabel, List.append_cancel_left_eq, List.cons_inj_right]
  rw [hentries]
  simp only [drawnAsIs_iff escapes]
  constructor
  · intro h i hi
    have hwell := (forall_quotedTexts_iff store).mp h.wellQuoted i hi
    exact ⟨hwell.1, hwell.2, (hlabel _ _).mp (h.labels i hi)⟩
  · intro h
    have hwell := (forall_quotedTexts_iff store).mpr fun i hi => ⟨(h i hi).1, (h i hi).2.1⟩
    exact ⟨hwell, fun file hfile => (strings_storeExportDot_iff store hfile).mpr hwell,
      fun i hi => (hlabel _ _).mpr (h i hi).2.2⟩

/-- A log of a node that says something. -/
def sayingEntry : LogEntry :=
  { LogEntry.zero with
    nodeId := CStr.ofBytes (ascii "a")
    message := CStr.ofBytes (ascii "say \"hi\"") }

/-- The quotes in its message close the label. -/
theorem not_labelsReadBack_sayingEntry :
    logEntryFromJson (ascii "\x7b\"node_id\":\"a\",\"message\":\"say \\\"hi\\\"\"\x7d") =
        .ok sayingEntry ∧
      (storeExportDot true (storeOf [sayingEntry])).2.bind Dot.strings =
        some [ascii "Courier", ascii "#2b579a", ascii "cluster_a", ascii "Node: a",
          ascii "[DEBUG]\\nsay ", ascii ""] ∧
      ∀ escapes, ¬ LabelsReadBack escapes (storeOf [sayingEntry]) := by
  refine ⟨by decide +kernel, by decide +kernel, fun escapes h => ?_⟩
  obtain ⟨file, hfile⟩ : ∃ file, (storeExportDot true (storeOf [sayingEntry])).2 = some file :=
    Option.isSome_iff_exists.mp (by decide +kernel)
  have hread : (storeExportDot true (storeOf [sayingEntry])).2.bind Dot.strings =
      some (quotedTexts (storeOf [sayingEntry])) := by
    rw [hfile, Option.bind_some, h.strings file hfile]
  exact absurd hread (by decide +kernel)

end LogAgg
