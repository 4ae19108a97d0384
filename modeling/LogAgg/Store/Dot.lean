import LogAgg.Store.Basic

/-!
# The DOT export

`store_export_dot` writes the entries as the events of a graph.  It draws an edge for a
pair of events if the first happens before the second and no third event lies between,
which is the covering relation of the causal order on the events.  A finite order is the
transitive closure of its covering relation, so the drawing loses nothing and repeats
nothing (`storeExportDot_edges`).  These are the edges of the statements that are printed; a
reader finds them again in the bytes of the file (`DotReading.drawing`).
-/

namespace LogAgg

/-! ## The export -/

/-- What the `fprintf` calls of `store_export_dot` write. -/
inductive DotStatement where
  | graphHead
  | clusterHead (nodeId : Bytes)
  | clusterEnd (last : Bool)
  | event (i : ℕ) (level : LogLevel) (summary : Bytes)
  | edgesHead
  | edge (i j : ℕ) (rpc : Bool)
  | graphEnd
  deriving DecidableEq

/-- The text of a statement. -/
def DotStatement.text : DotStatement → Bytes
  | .graphHead =>
    ascii "digraph G \x7b\n" ++ ascii "    rankdir=LR;\n" ++
      ascii "    node [shape=box, fontname=\"Courier\", fontsize=10];\n" ++
      ascii "    edge [color=\"#2b579a\", arrowhead=normal, arrowsize=0.8];\n\n"
  | .clusterHead nodeId =>
    ascii "    subgraph \"cluster_" ++ nodeId ++ ascii "\" \x7b\n" ++
      ascii "        label=\"Node: " ++ nodeId ++ ascii "\";\n" ++
      ascii "        color=gray; style=dashed;\n"
  | .clusterEnd last => if last then ascii "    \x7d\n\n" else ascii "    \x7d\n"
  | .event i level summary =>
    ascii "        event_" ++ decimal i ++ ascii " [label=\"[" ++ logLevelStr level ++
      ascii "]\\n" ++ summary ++ ascii "\"];\n"
  | .edgesHead => ascii "    // Causal Dependency Edges\n"
  | .edge i j rpc =>
    ascii "    event_" ++ decimal i ++ ascii " -> event_" ++ decimal j ++
      if rpc then ascii " [style=dashed, color=\"#e51400\", label=\"RPC\"];\n" else ascii ";\n"
  | .graphEnd => ascii "\x7d\n"

namespace LogStore

/-- `store->entries[i]`. -/
def entryAt (store : LogStore) (i : ℕ) : LogEntry := store.entries.getD i LogEntry.zero

/-- The test of `vc_compare` on two positions. -/
def happensBefore (store : LogStore) (i j : ℕ) : Bool :=
  vcCompare (store.entryAt i).vc (store.entryAt j).vc == .happensBefore

end LogStore

/-- The message of an event, shortened to 28 characters. -/
def messageSummary (message : Bytes) : Bytes :=
  if 28 < message.length then message.take 28 ++ ascii "..." else message.take 28

/-- No entry before this one has its node id. -/
def firstSeen (store : LogStore) (i : ℕ) : Bool :=
  !(List.range i).any fun k =>
    strcmp (store.entryAt k).nodeId.bytes (store.entryAt i).nodeId.bytes == 0

/-- The body of the loop over the events. -/
def eventStatements (store : LogStore) (i : ℕ) : List DotStatement :=
  let entry := store.entryAt i
  (if firstSeen store i then
      (if 0 < i then [.clusterEnd false] else []) ++ [.clusterHead entry.nodeId.bytes]
    else []) ++
    [.event i entry.level (messageSummary entry.message.bytes)]

/-- No third event lies between the two. -/
def isDirect (store : LogStore) (i j : ℕ) : Bool :=
  !(List.range store.count).any fun k =>
    !(k == i || k == j) && (store.happensBefore i k && store.happensBefore k j)

/-- The body of the double loop over the pairs of events. -/
def edgeStatements (store : LogStore) (i j : ℕ) : List DotStatement :=
  if i = j then []
  else if store.happensBefore i j then
    if isDirect store i j then
      [.edge i j (strcmp (store.entryAt i).nodeId.bytes (store.entryAt j).nodeId.bytes != 0)]
    else []
  else []

/-- All statements, in the order in which they are written. -/
def dotStatements (store : LogStore) : List DotStatement :=
  let positions := List.range store.count
  let events := positions.flatMap (eventStatements store)
  let edges := positions.flatMap fun i => positions.flatMap fun j => edgeStatements store i j
  let lastEnd := if 0 < store.count then [DotStatement.clusterEnd true] else []
  DotStatement.graphHead :: (events ++ lastEnd ++ DotStatement.edgesHead :: (edges ++ [.graphEnd]))

/-- `store_export_dot`: the value returned and the file written, if it could be opened. -/
def storeExportDot (opened : Bool) (store : LogStore) : ℤ × Option Bytes :=
  if store.count = 0 then (-1, none)
  else if opened then (0, some ((dotStatements store).flatMap DotStatement.text))
  else (-1, none)

/-! ## Which statements are written -/

section Statements

variable {store : LogStore} {s : DotStatement}

/-- What a round of the loop over the events prints. -/
theorem mem_eventStatements_cases {k : ℕ} (h : s ∈ eventStatements store k) :
    s = .clusterEnd false ∨ s = .clusterHead (store.entryAt k).nodeId.bytes ∨
      s = .event k (store.entryAt k).level (messageSummary (store.entryAt k).message.bytes) := by
  unfold eventStatements at h
  dsimp only at h
  rcases List.mem_append.mp h with hblocks | hevent
  · split_ifs at hblocks
    · rcases List.mem_append.mp hblocks with hend | hhead
      · exact Or.inl (List.mem_singleton.mp hend)
      · exact Or.inr (Or.inl (List.mem_singleton.mp hhead))
    · exact Or.inr (Or.inl (List.mem_singleton.mp hblocks))
    · exact absurd hblocks List.not_mem_nil
  · exact Or.inr (Or.inr (List.mem_singleton.mp hevent))

theorem event_mem_eventStatements (store : LogStore) (k : ℕ) :
    .event k (store.entryAt k).level (messageSummary (store.entryAt k).message.bytes) ∈
      eventStatements store k :=
  List.mem_append_right _ (List.mem_singleton_self _)

/-- A round of the double loop prints at most its edge. -/
theorem exists_of_mem_edgeStatements {i j : ℕ} (h : s ∈ edgeStatements store i j) :
    ∃ rpc, s = .edge i j rpc := by
  unfold edgeStatements at h
  split_ifs at h
  · exact absurd h List.not_mem_nil
  · exact ⟨_, List.mem_singleton.mp h⟩
  · exact absurd h List.not_mem_nil
  · exact absurd h List.not_mem_nil

/-- **The statements of the file**: those of the two loops, and what is around them. -/
theorem mem_dotStatements_iff :
    s ∈ dotStatements store ↔
      s = .graphHead ∨ (∃ k < store.count, s ∈ eventStatements store k) ∨
        (0 < store.count ∧ s = .clusterEnd true) ∨ s = .edgesHead ∨
          (∃ i < store.count, ∃ j < store.count, s ∈ edgeStatements store i j) ∨
            s = .graphEnd := by
  have hend : s ∈ (if 0 < store.count then [DotStatement.clusterEnd true] else []) ↔
      0 < store.count ∧ s = .clusterEnd true := by
    split_ifs with hcount
    · rw [List.mem_singleton, and_iff_right hcount]
    · exact iff_of_false List.not_mem_nil fun h => hcount h.1
  simp only [dotStatements, List.mem_cons, List.mem_append, List.mem_flatMap, List.mem_range, hend,
    List.not_mem_nil, or_false, or_assoc]

end Statements

/-! ## Edges -/

/-- An edge from `event_i` to `event_j` is printed. -/
def PrintsEdge (store : LogStore) (i j : ℕ) : Prop := ∃ rpc, .edge i j rpc ∈ dotStatements store

/-- Event `i` happens before event `j`. -/
def HappensBefore (store : LogStore) (i j : ℕ) : Prop :=
  i < store.count ∧ j < store.count ∧
    vcCompare (store.entryAt i).vc (store.entryAt j).vc = .happensBefore

theorem HappensBefore.trans {store : LogStore} {i j k : ℕ} (hij : HappensBefore store i j)
    (hjk : HappensBefore store j k) : HappensBefore store i k :=
  ⟨hij.1, hjk.2.1, LogEntry.HappensBefore.trans hij.2.2 hjk.2.2⟩

theorem HappensBefore.irrefl (store : LogStore) (i : ℕ) : ¬ HappensBefore store i i :=
  fun h => LogEntry.HappensBefore.irrefl _ h.2.2

/-- An edge is printed by the round of the double loop that it names. -/
theorem exists_edge_mem_edgeStatements_iff {store : LogStore} {i j i' j' : ℕ} :
    (∃ rpc, .edge i j rpc ∈ edgeStatements store i' j') ↔
      i' = i ∧ j' = j ∧ i ≠ j ∧ store.happensBefore i j = true ∧ isDirect store i j = true := by
  unfold edgeStatements
  constructor
  · rintro ⟨rpc, h⟩
    split_ifs at h with hne hbefore hdirect
    · exact absurd h List.not_mem_nil
    · rw [List.mem_singleton, DotStatement.edge.injEq] at h
      obtain ⟨rfl, rfl, -⟩ := h
      exact ⟨rfl, rfl, hne, hbefore, hdirect⟩
    · exact absurd h List.not_mem_nil
    · exact absurd h List.not_mem_nil
  · rintro ⟨rfl, rfl, hne, hbefore, hdirect⟩
    rw [if_neg hne, if_pos hbefore, if_pos hdirect]
    exact ⟨_, List.mem_singleton_self _⟩

theorem happensBefore_iff {store : LogStore} {i j : ℕ} (hi : i < store.count)
    (hj : j < store.count) : HappensBefore store i j ↔ store.happensBefore i j = true := by
  rw [LogStore.happensBefore, beq_iff_eq, HappensBefore]
  simp only [hi, hj, true_and]

/-- The search for an event between two others. -/
theorem isDirect_iff {store : LogStore} {i j : ℕ} (hi : i < store.count) (hj : j < store.count) :
    isDirect store i j = true ↔ ∀ k, HappensBefore store i k → ¬ HappensBefore store k j := by
  rw [isDirect, Bool.not_eq_true', List.any_eq_false]
  constructor
  · intro h k hik hkj
    have hki : k ≠ i := fun hki => HappensBefore.irrefl store i (hki ▸ hik)
    have hkj' : k ≠ j := fun hkj' => HappensBefore.irrefl store j (hkj' ▸ hkj)
    refine h k (List.mem_range.mpr hik.2.1) ?_
    rw [(happensBefore_iff hi hik.2.1).mp hik, (happensBefore_iff hik.2.1 hj).mp hkj]
    simp [hki, hkj']
  · intro h k hk hbetween
    have hlt := List.mem_range.mp hk
    rw [Bool.and_eq_true, Bool.and_eq_true] at hbetween
    exact h k ((happensBefore_iff hi hlt).mpr hbetween.2.1)
      ((happensBefore_iff hlt hj).mpr hbetween.2.2)

/-- **What is printed.**  An edge joins two events of which the first happens before the
second with none between. -/
theorem printsEdge_iff {store : LogStore} {i j : ℕ} :
    PrintsEdge store i j ↔
      HappensBefore store i j ∧ ∀ k, HappensBefore store i k → ¬ HappensBefore store k j := by
  have hloop : PrintsEdge store i j ↔
      ∃ i' < store.count, ∃ j' < store.count, ∃ rpc, .edge i j rpc ∈ edgeStatements store i' j' := by
    constructor
    · rintro ⟨rpc, h⟩
      rcases mem_dotStatements_iff.mp h with h | ⟨k, -, h⟩ | ⟨-, h⟩ | h | ⟨i', hi', j', hj', h⟩ | h
      · exact DotStatement.noConfusion h
      · rcases mem_eventStatements_cases h with h | h | h <;> exact DotStatement.noConfusion h
      · exact DotStatement.noConfusion h
      · exact DotStatement.noConfusion h
      · exact ⟨i', hi', j', hj', rpc, h⟩
      · exact DotStatement.noConfusion h
    · rintro ⟨i', hi', j', hj', rpc, h⟩
      exact ⟨rpc, mem_dotStatements_iff.mpr
        (Or.inr (Or.inr (Or.inr (Or.inr (Or.inl ⟨i', hi', j', hj', h⟩)))))⟩
  rw [hloop]
  simp only [exists_edge_mem_edgeStatements_iff]
  constructor
  · rintro ⟨i', hi, j', hj, rfl, rfl, -, hbefore, hdirect⟩
    exact ⟨(happensBefore_iff hi hj).mpr hbefore, (isDirect_iff hi hj).mp hdirect⟩
  · rintro ⟨hbefore, hnone⟩
    have hi := hbefore.1
    have hj := hbefore.2.1
    have hne : i ≠ j := fun h => HappensBefore.irrefl store i (by rwa [← h] at hbefore)
    exact ⟨i, hi, j, hj, rfl, rfl, hne, (happensBefore_iff hi hj).mp hbefore,
      (isDirect_iff hi hj).mpr hnone⟩

/-! ## The causal order on the events -/

/-- An event of the graph: a position of the entry array. -/
@[ext]
structure Event (store : LogStore) where
  pos : Fin store.count

section Event

variable {store : LogStore}

/-- Events are ordered as their clocks are. -/
noncomputable instance : Preorder (Event store) :=
  Preorder.lift fun event => (store.entryAt event.pos).vc.extend

noncomputable instance : Fintype (Event store) :=
  Fintype.ofInjective Event.pos fun _ _ h => Event.ext h

open Classical in
noncomputable instance : LocallyFiniteOrder (Event store) := Fintype.toLocallyFiniteOrder

theorem Event.lt_iff {a b : Event store} : a < b ↔ HappensBefore store a.pos b.pos := by
  have hlt : a < b ↔ (store.entryAt a.pos).vc.extend < (store.entryAt b.pos).vc.extend := Iff.rfl
  rw [hlt, ← vcCompare_eq_happensBefore_iff, HappensBefore]
  simp only [a.pos.isLt, b.pos.isLt, true_and]

/-- Edges are drawn along the covering relation. -/
theorem Event.printsEdge_of_covBy {a b : Event store} (h : a ⋖ b) :
    PrintsEdge store a.pos b.pos := by
  refine printsEdge_iff.mpr ⟨Event.lt_iff.mp h.lt, fun k hak hkb => ?_⟩
  have hk : k < store.count := hak.2.1
  exact h.2 (c := ⟨⟨k, hk⟩⟩) (Event.lt_iff.mpr hak) (Event.lt_iff.mpr hkb)

end Event

/-- **Paths are the causal order.** -/
theorem transGen_printsEdge_iff {store : LogStore} {i j : ℕ} :
    Relation.TransGen (PrintsEdge store) i j ↔ HappensBefore store i j := by
  constructor
  · intro h
    induction h with
    | single hedge => exact (printsEdge_iff.mp hedge).1
    | tail _ hedge ih => exact ih.trans (printsEdge_iff.mp hedge).1
  · intro h
    have hlt : (⟨⟨i, h.1⟩⟩ : Event store) < ⟨⟨j, h.2.1⟩⟩ := Event.lt_iff.mpr h
    exact (transGen_covBy_of_lt hlt).lift (fun event => (event.pos : ℕ))
      fun _ _ => Event.printsEdge_of_covBy

/-- **The export draws the transitive reduction.**  Two events are joined by a path of
printed edges exactly if the first happens before the second; no edge doubles a longer
path; and there is no cycle. -/
theorem storeExportDot_edges (store : LogStore) :
    (∀ i j, Relation.TransGen (PrintsEdge store) i j ↔ HappensBefore store i j) ∧
      (∀ i j, PrintsEdge store i j →
        ¬ ∃ k, PrintsEdge store i k ∧ Relation.TransGen (PrintsEdge store) k j) ∧
      ∀ i, ¬ Relation.TransGen (PrintsEdge store) i i := by
  refine ⟨fun i j => transGen_printsEdge_iff, ?_, fun i hcycle => ?_⟩
  · rintro i j hedge ⟨k, hik, hkj⟩
    exact (printsEdge_iff.mp hedge).2 k (printsEdge_iff.mp hik).1 (transGen_printsEdge_iff.mp hkj)
  · exact HappensBefore.irrefl store i (transGen_printsEdge_iff.mp hcycle)

end LogAgg
