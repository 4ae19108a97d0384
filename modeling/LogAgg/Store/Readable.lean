import LogAgg.CString.Scanf
import LogAgg.Store.Labels

/-!
# Reading the DOT export back

The edges and the clusters of `store_export_dot` are those of the statements that it prints.  The
file is bytes only, but the bytes determine the statements: the start of the text of a statement
tells which one it is, and numbers, names of levels and well quoted texts end where they must.

So if the texts of the entries are well quoted, a reader who finds statements in the file finds
the ones that were printed (`dotReading_iff`), with the edges, the events and the clusters of the
store (`DotReading.drawing`).
-/

namespace LogAgg

open Dot LogAgg.Ascii

namespace DotStatement

/-- What comes from the entries is well quoted, and the level has a name of its own. -/
def Readable : DotStatement → Prop
  | .clusterHead nodeId => WellQuoted nodeId
  | .event _ level summary => level.Named ∧ WellQuoted summary
  | _ => True

/-- The bytes that tell which statement it is. -/
def start : DotStatement → Bytes
  | .graphHead => ascii "d"
  | .clusterHead _ => ascii "    s"
  | .clusterEnd _ => ascii "    \x7d"
  | .event .. => ascii "     "
  | .edgesHead => ascii "    /"
  | .edge .. => ascii "    e"
  | .graphEnd => ascii "\x7d"

/-- These bytes of a text: five behind an indentation, and else one. -/
def startOf (text : Bytes) : Bytes := text.take (if text.head? = some space then 5 else 1)

/-! ## One statement -/

theorem start_prefix_text (statement : DotStatement) : statement.start <+: statement.text := by
  cases statement with
  | graphHead => decide +kernel
  | clusterHead nodeId =>
    have hname : ascii "    s" <+: ascii "    subgraph \"cluster_" := by decide +kernel
    simp only [text, List.append_assoc]
    exact hname.trans (List.prefix_append _ _)
  | clusterEnd last =>
    cases last with
    | false => decide +kernel
    | true => decide +kernel
  | event i level summary =>
    have hname : ascii "     " <+: ascii "        event_" := by decide +kernel
    simp only [text, List.append_assoc]
    exact hname.trans (List.prefix_append _ _)
  | edgesHead => decide +kernel
  | edge i j rpc =>
    have hname : ascii "    e" <+: ascii "    event_" := by decide +kernel
    simp only [text, List.append_assoc]
    exact hname.trans (List.prefix_append _ _)
  | graphEnd => decide +kernel

/-- The start is seen in the file. -/
theorem startOf_text_append (statement : DotStatement) (rest : Bytes) :
    startOf (statement.text ++ rest) = statement.start := by
  obtain ⟨tail, htext⟩ := statement.start_prefix_text
  rw [← htext, List.append_assoc]
  cases statement with
  | _ => rfl

/-- No statement starts with a line break. -/
theorem head?_flatMap_text (statements : List DotStatement) :
    (statements.flatMap text).head? ≠ some newline := by
  cases statements with
  | nil => exact fun h => nomatch h
  | cons statement statements =>
    obtain ⟨tail, htext⟩ := statement.start_prefix_text
    rw [List.flatMap_cons, ← htext, List.append_assoc]
    cases statement with
    | _ => exact of_decide_eq_false rfl

theorem clusterHead_append_inj {m n u v : Bytes} (hm : WellQuoted m) (hn : WellQuoted n)
    (h : (clusterHead m).text ++ u = (clusterHead n).text ++ v) :
    clusterHead m = clusterHead n ∧ u = v := by
  have hend : ascii "\" \x7b\n" = quote :: ascii " \x7b\n" := by decide +kernel
  simp only [text, hend, List.append_assoc, List.cons_append] at h
  obtain ⟨rfl, hrest⟩ := hm.append_quote_inj hn (List.append_cancel_left h)
  refine ⟨rfl, ?_⟩
  simpa only [List.append_cancel_left_eq, List.cons_inj_right] using hrest

theorem clusterEnd_append_inj {last last' : Bool} {u v : Bytes} (hu : u.head? ≠ some newline)
    (hv : v.head? ≠ some newline) (h : (clusterEnd last).text ++ u = (clusterEnd last').text ++ v) :
    clusterEnd last = clusterEnd last' ∧ u = v := by
  have hlast : (clusterEnd true).text = (clusterEnd false).text ++ [newline] := by decide +kernel
  cases last with
  | false =>
    cases last' with
    | false => exact ⟨rfl, List.append_cancel_left h⟩
    | true =>
      rw [hlast, List.append_assoc, List.append_cancel_left_eq] at h
      exact absurd (congrArg List.head? h) hu
  | true =>
    cases last' with
    | false =>
      rw [hlast, List.append_assoc, List.append_cancel_left_eq] at h
      exact absurd (congrArg List.head? h).symm hv
    | true => exact ⟨rfl, List.append_cancel_left h⟩

theorem event_append_inj {i j : ℕ} {level level' : LogLevel} {summary summary' u v : Bytes}
    (hevent : (event i level summary).Readable) (hevent' : (event j level' summary').Readable)
    (h : (event i level summary).text ++ u = (event j level' summary').text ++ v) :
    event i level summary = event j level' summary' ∧ u = v := by
  have hlabel : ascii " [label=\"[" = space :: ascii "[label=\"[" := by decide +kernel
  have hbreak : ascii "]\\n" = rbracket :: ascii "\\n" := by decide +kernel
  have hend : ascii "\"];\n" = quote :: ascii "];\n" := by decide +kernel
  have hupper (level : LogLevel) : ∀ c ∈ logLevelStr level, isupper c = true := fun c hc =>
    Bool.of_not_eq_false fun hlower => notMem_logLevelStr hlower level hc
  simp only [text, hlabel, hbreak, hend, List.append_assoc, List.cons_append,
    List.append_cancel_left_eq] at h
  obtain ⟨rfl, hrest⟩ := decimal_append_inj (head?_cons_class (by decide) _) (head?_cons_class (by decide) _) h
  rw [List.cons_inj_right, List.append_cancel_left_eq] at hrest
  obtain ⟨hlevel, hrest⟩ := run_append_inj (hupper level) (hupper level')
    (head?_cons_class (by decide) _) (head?_cons_class (by decide) _) hrest
  rw [List.cons_inj_right, List.append_cancel_left_eq] at hrest
  obtain ⟨hsummary, hrest⟩ := hevent.2.append_quote_inj hevent'.2 hrest
  have hsame : level = level' := by
    rw [← logLevelFromStr_logLevelStr hevent.1, hlevel, logLevelFromStr_logLevelStr hevent'.1]
  exact ⟨by rw [hsame, hsummary], List.append_cancel_left hrest⟩

theorem edge_append_inj {i j i' j' : ℕ} {rpc rpc' : Bool} {u v : Bytes}
    (h : (edge i j rpc).text ++ u = (edge i' j' rpc').text ++ v) :
    edge i j rpc = edge i' j' rpc' ∧ u = v := by
  have harrow : ascii " -> event_" = space :: ascii "-> event_" := by decide +kernel
  have hend : ascii ";\n" = 59 :: [newline] := by decide +kernel
  have hrpc : ascii " [style=dashed, color=\"#e51400\", label=\"RPC\"];\n" =
      space :: ascii "[style=dashed, color=\"#e51400\", label=\"RPC\"];\n" := by decide +kernel
  have htail (rpc : Bool) (rest : Bytes) : ∀ d, ((if rpc then
      space :: ascii "[style=dashed, color=\"#e51400\", label=\"RPC\"];\n" else 59 :: [newline]) ++
        rest).head? = some d → isdigit d = false := by
    cases rpc with
    | false => exact head?_cons_class (by decide) _
    | true => exact head?_cons_class (by decide) _
  simp only [text, harrow, hend, hrpc, List.append_assoc, List.cons_append,
    List.append_cancel_left_eq] at h
  obtain ⟨rfl, hrest⟩ := decimal_append_inj (head?_cons_class (by decide) _)
    (head?_cons_class (by decide) _) h
  rw [List.cons_inj_right, List.append_cancel_left_eq] at hrest
  obtain ⟨rfl, hstyle⟩ := decimal_append_inj (htail rpc u) (htail rpc' v) hrest
  cases rpc with
  | false =>
    cases rpc' with
    | false => exact ⟨rfl, List.append_cancel_left hstyle⟩
    | true => exact absurd (List.cons.inj hstyle).1 (by decide)
  | true =>
    cases rpc' with
    | false => exact absurd (List.cons.inj hstyle).1 (by decide)
    | true => exact ⟨rfl, List.append_cancel_left hstyle⟩

/-- **A statement ends where the next one starts**, so that the bytes tell which one it is. -/
theorem text_append_inj {a b : DotStatement} (ha : a.Readable) (hb : b.Readable) {u v : Bytes}
    (hu : u.head? ≠ some newline) (hv : v.head? ≠ some newline) (h : a.text ++ u = b.text ++ v) :
    a = b ∧ u = v := by
  have hstart := congrArg startOf h
  rw [startOf_text_append, startOf_text_append] at hstart
  cases a with
  | graphHead =>
    cases b with
    | graphHead => exact ⟨rfl, List.append_cancel_left h⟩
    | _ => exact absurd hstart (of_decide_eq_false rfl)
  | clusterHead nodeId =>
    cases b with
    | clusterHead nodeId' => exact clusterHead_append_inj ha hb h
    | _ => exact absurd hstart (of_decide_eq_false rfl)
  | clusterEnd last =>
    cases b with
    | clusterEnd last' => exact clusterEnd_append_inj hu hv h
    | _ => exact absurd hstart (of_decide_eq_false rfl)
  | event i level summary =>
    cases b with
    | event i' level' summary' => exact event_append_inj ha hb h
    | _ => exact absurd hstart (of_decide_eq_false rfl)
  | edgesHead =>
    cases b with
    | edgesHead => exact ⟨rfl, List.append_cancel_left h⟩
    | _ => exact absurd hstart (of_decide_eq_false rfl)
  | edge i j rpc =>
    cases b with
    | edge i' j' rpc' => exact edge_append_inj h
    | _ => exact absurd hstart (of_decide_eq_false rfl)
  | graphEnd =>
    cases b with
    | graphEnd => exact ⟨rfl, List.append_cancel_left h⟩
    | _ => exact absurd hstart (of_decide_eq_false rfl)

/-! ## The whole file -/

theorem text_ne_nil (statement : DotStatement) : statement.text ≠ [] := by
  have hstart := startOf_text_append statement []
  intro hnil
  rw [hnil] at hstart
  cases statement with
  | _ => exact absurd hstart (of_decide_eq_false rfl)

/-- **The bytes of a file determine its statements.** -/
theorem flatMap_text_inj {s t : List DotStatement} (hs : ∀ a ∈ s, a.Readable)
    (ht : ∀ a ∈ t, a.Readable) (h : s.flatMap text = t.flatMap text) : s = t := by
  induction s generalizing t with
  | nil =>
    cases t with
    | nil => rfl
    | cons b t => exact absurd (List.append_eq_nil_iff.mp h.symm).1 b.text_ne_nil
  | cons a s ih =>
    cases t with
    | nil => exact absurd (List.append_eq_nil_iff.mp h).1 a.text_ne_nil
    | cons b t =>
      rw [List.forall_mem_cons] at hs ht
      rw [List.flatMap_cons, List.flatMap_cons] at h
      obtain ⟨hab, htail⟩ := text_append_inj hs.1 ht.1 (head?_flatMap_text s)
        (head?_flatMap_text t) h
      exact congrArg₂ List.cons hab (ih hs.2 ht.2 htail)

end DotStatement

/-- Statements that a file can be read as. -/
structure DotReading (file : Bytes) (statements : List DotStatement) : Prop where
  text_eq : statements.flatMap DotStatement.text = file
  readable : ∀ statement ∈ statements, statement.Readable

/-- What is printed can be read if it is so for the texts of each entry. -/
theorem readable_of_mem_dotStatements {store : LogStore}
    (hentries : ∀ entry ∈ store.entries, DrawnAsIs entry ∧ entry.level.Named)
    {statement : DotStatement} (hmem : statement ∈ dotStatements store) : statement.Readable := by
  have hentry : ∀ i < store.count, store.entryAt i ∈ store.entries := by
    intro i hi
    rw [LogStore.entryAt, List.getD_eq_getElem _ _ hi]
    exact List.getElem_mem hi
  cases statement with
  | clusterHead nodeId =>
    obtain ⟨i, hi, rfl⟩ := (clusterHead_mem_iff store).mp hmem
    exact (hentries _ (hentry i hi)).1.nodeId
  | event i level summary =>
    obtain ⟨hi, rfl, rfl⟩ := (event_mem_iff store).mp hmem
    obtain ⟨hdrawn, hnamed⟩ := hentries _ (hentry i hi)
    have hquote := mem_messageSummary_iff (c := quote) (by decide +kernel)
      (store.entryAt i).message.bytes
    have hbackslash := mem_messageSummary_iff (c := backslash) (by decide +kernel)
      (store.entryAt i).message.bytes
    exact ⟨hnamed, (wellQuoted_iff_of_notMem (mt hbackslash.mp hdrawn.backslash_notMem)).mpr
      (mt hquote.mp hdrawn.quote_notMem)⟩
  | _ => exact True.intro

section Reading

variable {store : LogStore} {file : Bytes} {statements : List DotStatement}

/-- **The file is read as what was printed**, and as nothing else. -/
theorem dotReading_iff
    (hentries : ∀ entry ∈ store.entries, DrawnAsIs entry ∧ entry.level.Named)
    (hfile : (storeExportDot true store).2 = some file) :
    DotReading file statements ↔ statements = dotStatements store := by
  have hprinted : DotReading file (dotStatements store) :=
    ⟨text_storeExportDot hfile, fun _ hmem => readable_of_mem_dotStatements hentries hmem⟩
  constructor
  · intro hread
    exact DotStatement.flatMap_text_inj hread.readable hprinted.readable
      (hread.text_eq.trans hprinted.text_eq.symm)
  · rintro rfl
    exact hprinted

/-- **What the bytes show**: the edges of the transitive reduction, each event in the cluster that
was opened last, and one cluster for each node id. -/
theorem DotReading.drawing (hread : DotReading file statements)
    (hentries : ∀ entry ∈ store.entries, DrawnAsIs entry ∧ entry.level.Named)
    (hfile : (storeExportDot true store).2 = some file) :
    (∀ i j, (∃ rpc, .edge i j rpc ∈ statements) ↔
        HappensBefore store i j ∧ ∀ k, HappensBefore store i k → ¬ HappensBefore store k j) ∧
      drawAll ⟨[], []⟩ statements = some ⟨[], placements store store.count⟩ ∧
      ∀ nodeId, statements.count (.clusterHead nodeId) =
        if ∃ i < store.count, store.nodeIdAt i = nodeId then 1 else 0 := by
  rw [(dotReading_iff hentries hfile).mp hread]
  exact ⟨fun i j => printsEdge_iff, drawAll_dotStatements store, count_dotStatements store⟩

end Reading

end LogAgg
