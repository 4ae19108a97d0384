import LogAgg.Dedup.Grouping
import LogAgg.Store.Dot

/-!
# The clusters of the DOT export

`store_export_dot` groups the events by node: each node is to have one `subgraph` block with the
events of the node in it.  It opens a block at the first event of a node, behind the end of the
block before, and prints every later event of the node where it happens to be.

A reader of the file sees which blocks are open at each event (`drawAll`).  There is one block
for each node id, and all blocks are closed, in every case; but an event stands in the block
that was opened last, whatever its node (`drawAll_dotStatements`).  This is its own block
exactly if the entries of a node stand in a row (`storeExportDot_clusters_iff`).
-/

namespace LogAgg

open Dedup

/-! ## Reading the file -/

/-- A block of the file. -/
inductive DotBlock where
  | graph
  | cluster (nodeId : Bytes)
  deriving DecidableEq

/-- What was read so far: the blocks that are open, the innermost one first, and for each event
the blocks that were open at it. -/
structure Drawing where
  opened : List DotBlock
  placed : List (ℕ × List DotBlock)
  deriving DecidableEq

/-- One statement.  A brace that closes nothing is an error. -/
def DotStatement.draw (drawing : Drawing) : DotStatement → Option Drawing
  | .graphHead => some { drawing with opened := .graph :: drawing.opened }
  | .clusterHead nodeId => some { drawing with opened := .cluster nodeId :: drawing.opened }
  | .clusterEnd _ | .graphEnd =>
    match drawing.opened with
    | [] => none
    | _ :: opened => some { drawing with opened }
  | .event i _ _ => some { drawing with placed := drawing.placed ++ [(i, drawing.opened)] }
  | .edgesHead | .edge .. => some drawing

/-- All statements. -/
def drawAll (drawing : Drawing) (statements : List DotStatement) : Option Drawing :=
  statements.foldlM DotStatement.draw drawing

namespace LogStore

/-- `store->entries[i].node_id`. -/
def nodeIdAt (store : LogStore) (i : ℕ) : Bytes := (store.entryAt i).nodeId.bytes

end LogStore

/-- Each event is drawn once, at which the graph is open and the cluster of its node; every
block that is opened is closed; and each node id has one cluster. -/
structure DrawsClusters (store : LogStore) : Prop where
  placed : drawAll ⟨[], []⟩ (dotStatements store) = some ⟨[], (List.range store.count).map
    fun i => (i, [.cluster (store.nodeIdAt i), .graph])⟩
  one_block : ∀ nodeId, (dotStatements store).count (.clusterHead nodeId) =
    if ∃ i < store.count, store.nodeIdAt i = nodeId then 1 else 0

/-! ## The blocks at an event -/

variable (store : LogStore)

theorem drawAll_append (drawing : Drawing) (s t : List DotStatement) :
    drawAll drawing (s ++ t) = (drawAll drawing s).bind fun d => drawAll d t :=
  List.foldlM_append

/-- The search among the earlier entries. -/
theorem firstSeen_iff (i : ℕ) : firstSeen store i = true ↔ IsNew store.nodeIdAt i := by
  rw [firstSeen, Bool.not_eq_true', List.any_eq_false]
  constructor
  · intro h k hk heq
    refine h k (List.mem_range.mpr hk) ?_
    rw [beq_iff_eq]
    exact strcmp_eq_zero_iff.mpr heq
  · intro h k hk hsame
    rw [beq_iff_eq] at hsame
    exact h k (List.mem_range.mp hk) (strcmp_eq_zero_iff.mp hsame)

/-- The blocks that are open behind so many events. -/
def openedAfter : ℕ → List DotBlock
  | 0 => [.graph]
  | i + 1 => [.cluster (lastNew store.nodeIdAt i), .graph]

/-- Where so many events are placed. -/
def placements (n : ℕ) : List (ℕ × List DotBlock) :=
  (List.range n).map fun i => (i, [.cluster (lastNew store.nodeIdAt i), .graph])

/-- **One event**: it is placed in the block that was opened last. -/
theorem drawAll_eventStatements (i : ℕ) :
    drawAll ⟨openedAfter store i, placements store i⟩ (eventStatements store i) =
      some ⟨openedAfter store (i + 1), placements store (i + 1)⟩ := by
  have hplaced : placements store (i + 1) =
      placements store i ++ [(i, openedAfter store (i + 1))] := by
    rw [placements, List.range_succ, List.map_append]
    rfl
  rw [hplaced]
  unfold eventStatements
  by_cases hnew : IsNew store.nodeIdAt i
  · have hlast : openedAfter store (i + 1) = [.cluster (store.nodeIdAt i), .graph] := by
      rw [openedAfter, lastNew_of_isNew hnew]
    rw [hlast]
    dsimp only
    rw [if_pos ((firstSeen_iff store i).mpr hnew)]
    cases i with
    | zero => rfl
    | succ i =>
      rw [if_pos (Nat.succ_pos i)]
      rfl
  · dsimp only
    rw [if_neg (mt (firstSeen_iff store i).mp hnew), List.nil_append]
    cases i with
    | zero => exact absurd (isNew_zero _) hnew
    | succ i =>
      have hlast : openedAfter store (i + 1 + 1) = openedAfter store (i + 1) := by
        rw [openedAfter, lastNew_of_not_isNew hnew, openedAfter]
      rw [hlast]
      rfl

/-- **All events.** -/
theorem drawAll_events (n : ℕ) :
    drawAll ⟨[.graph], []⟩ ((List.range n).flatMap (eventStatements store)) =
      some ⟨openedAfter store n, placements store n⟩ := by
  induction n with
  | zero => rfl
  | succ n ih =>
    rw [List.range_succ, List.flatMap_append, drawAll_append, ih, List.flatMap_singleton]
    exact drawAll_eventStatements store n

/-- Edges open and close nothing. -/
theorem drawAll_edges (drawing : Drawing) {statements : List DotStatement}
    (h : ∀ s ∈ statements, ∃ i j rpc, s = .edge i j rpc) :
    drawAll drawing statements = some drawing := by
  induction statements with
  | nil => rfl
  | cons s statements ih =>
    rw [List.forall_mem_cons] at h
    obtain ⟨i, j, rpc, rfl⟩ := h.1
    exact ih h.2

/-- The double loop prints edges only. -/
theorem forall_mem_edges {s : DotStatement}
    (h : s ∈ (List.range store.count).flatMap fun i =>
      (List.range store.count).flatMap fun j => edgeStatements store i j) :
    ∃ i j rpc, s = .edge i j rpc := by
  obtain ⟨i, -, hi⟩ := List.mem_flatMap.mp h
  obtain ⟨j, -, hj⟩ := List.mem_flatMap.mp hi
  exact ⟨i, j, exists_of_mem_edgeStatements hj⟩

/-- **What a reader of the file sees**: each event stands in the block that was opened last, and
all blocks are closed. -/
theorem drawAll_dotStatements :
    drawAll ⟨[], []⟩ (dotStatements store) = some ⟨[], placements store store.count⟩ := by
  have hevents := drawAll_events store store.count
  have hedges : ∀ drawing, drawAll drawing ((List.range store.count).flatMap fun i =>
      (List.range store.count).flatMap fun j => edgeStatements store i j) = some drawing :=
    fun drawing => drawAll_edges drawing fun s hs => forall_mem_edges store hs
  have hend : drawAll ⟨openedAfter store store.count, placements store store.count⟩
      (if 0 < store.count then [DotStatement.clusterEnd true] else []) =
        some ⟨[.graph], placements store store.count⟩ := by
    cases store.count with
    | zero => rfl
    | succ n => rfl
  have hhead : ∀ s, drawAll ⟨[], []⟩ (.graphHead :: s) = drawAll ⟨[.graph], []⟩ s := fun s => rfl
  have hedgesHead : ∀ drawing s, drawAll drawing (.edgesHead :: s) = drawAll drawing s :=
    fun drawing s => rfl
  rw [dotStatements, hhead, drawAll_append, drawAll_append, hevents, Option.bind_some, hend,
    Option.bind_some, hedgesHead, drawAll_append, hedges]
  rfl

/-! ## One block for each node -/

theorem count_eventStatements (nodeId : Bytes) (i : ℕ) :
    (eventStatements store i).count (.clusterHead nodeId) =
      if decide (IsNew store.nodeIdAt i ∧ store.nodeIdAt i = nodeId) then 1 else 0 := by
  have hend : (if 0 < i then [DotStatement.clusterEnd false] else []).count
      (.clusterHead nodeId) = 0 := by
    split
    · rfl
    · rfl
  have hevent : ∀ level summary, [DotStatement.event i level summary].count
      (.clusterHead nodeId) = 0 := fun _ _ => rfl
  unfold eventStatements
  dsimp only
  rw [List.count_append, hevent, Nat.add_zero]
  by_cases hnew : IsNew store.nodeIdAt i
  · rw [if_pos ((firstSeen_iff store i).mpr hnew), List.count_append, hend, Nat.zero_add,
      List.count_singleton]
    have hid : store.nodeIdAt i = (store.entryAt i).nodeId.bytes := rfl
    by_cases heq : store.nodeIdAt i = nodeId
    · rw [if_pos (decide_eq_true ⟨hnew, heq⟩), ← heq, hid, beq_self_eq_true]
      rfl
    · have hne : ¬ decide (IsNew store.nodeIdAt i ∧ store.nodeIdAt i = nodeId) = true := by
        rw [decide_eq_true_eq]
        exact fun h => heq h.2
      rw [if_neg hne, if_neg]
      rw [beq_iff_eq, DotStatement.clusterHead.injEq]
      exact heq
  · have hne : ¬ decide (IsNew store.nodeIdAt i ∧ store.nodeIdAt i = nodeId) = true := by
      rw [decide_eq_true_eq]
      exact fun h => hnew h.1
    rw [if_neg (mt (firstSeen_iff store i).mp hnew), if_neg hne]
    rfl

/-- **Each node id has one block**, and no others have one. -/
theorem count_dotStatements (nodeId : Bytes) :
    (dotStatements store).count (.clusterHead nodeId) =
      if ∃ i < store.count, store.nodeIdAt i = nodeId then 1 else 0 := by
  have hevents : ∀ positions : List ℕ,
      (positions.flatMap (eventStatements store)).count (.clusterHead nodeId) =
        positions.countP fun i => decide (IsNew store.nodeIdAt i ∧ store.nodeIdAt i = nodeId) := by
    intro positions
    induction positions with
    | nil => rfl
    | cons i positions ih =>
      rw [List.flatMap_cons, List.count_append, ih, count_eventStatements, List.countP_cons,
        Nat.add_comm]
  have hedges : ((List.range store.count).flatMap fun i =>
      (List.range store.count).flatMap fun j => edgeStatements store i j).count
        (.clusterHead nodeId) = 0 := by
    refine List.count_eq_zero.mpr fun hmem => ?_
    obtain ⟨i, j, rpc, h⟩ := forall_mem_edges store hmem
    exact DotStatement.noConfusion h
  have hend : (if 0 < store.count then [DotStatement.clusterEnd true] else []).count
      (.clusterHead nodeId) = 0 := by
    split
    · rfl
    · rfl
  have hgraphHead : ∀ s : List DotStatement, (DotStatement.graphHead :: s).count
      (.clusterHead nodeId) = s.count (.clusterHead nodeId) := fun s => rfl
  have hedgesHead : ∀ s : List DotStatement, (DotStatement.edgesHead :: s).count
      (.clusterHead nodeId) = s.count (.clusterHead nodeId) := fun s => rfl
  have hgraphEnd : [DotStatement.graphEnd].count (.clusterHead nodeId) = 0 := rfl
  rw [dotStatements, hgraphHead, List.count_append, List.count_append, hevents, hend, hedgesHead,
    List.count_append, hedges, hgraphEnd]
  exact countP_isNew store.nodeIdAt nodeId store.count

/-- **When each event is drawn in the cluster of its node**: exactly if the entries of a node
stand in a row. -/
theorem storeExportDot_clusters_iff :
    DrawsClusters store ↔ Grouped store.nodeIdAt store.count := by
  rw [← lastNew_eq_iff_grouped]
  have hdraw := drawAll_dotStatements store
  constructor
  · intro h i hi
    have hplaced := Option.some_inj.mp (hdraw.symm.trans h.placed)
    have hmap := List.map_inj_left.mp (congrArg Drawing.placed hplaced) i (List.mem_range.mpr hi)
    have hblock := (List.cons.inj (Prod.mk.inj hmap).2).1
    exact DotBlock.cluster.inj hblock
  · intro h
    refine ⟨?_, count_dotStatements store⟩
    rw [hdraw, placements]
    refine congrArg (fun placed => some (Drawing.mk [] placed)) (List.map_congr_left ?_)
    intro i hi
    rw [h i (List.mem_range.mp hi)]

/-- The entries of two nodes by turns. -/
def pingPongStore : LogStore :=
  storeOf [{ LogEntry.zero with nodeId := CStr.ofBytes (ascii "a") },
    { LogEntry.zero with nodeId := CStr.ofBytes (ascii "b") },
    { LogEntry.zero with nodeId := CStr.ofBytes (ascii "a"), vc := vcIncrement (vcInit .zero 2) 0 }]

/-- The second event of the first node stands in the block of the second node. -/
theorem not_drawsClusters_pingPongStore :
    pingPongStore.nodeIdAt 2 = ascii "a" ∧
      drawAll ⟨[], []⟩ (dotStatements pingPongStore) = some ⟨[],
        [(0, [.cluster (ascii "a"), .graph]), (1, [.cluster (ascii "b"), .graph]),
          (2, [.cluster (ascii "b"), .graph])]⟩ ∧
      ¬ DrawsClusters pingPongStore := by
  refine ⟨by decide +kernel, by decide +kernel, fun h => ?_⟩
  exact absurd h.placed (by decide +kernel)

end LogAgg
