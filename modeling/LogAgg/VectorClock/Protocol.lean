import LogAgg.VectorClock.Order
import LogAgg.Causality.EventOrder

/-!
# Nodes that stamp their events

A cluster of `n` nodes, each with a clock from `vc_init`.  A local or a send event
is a `vc_increment` of the node's own component; a send event also puts a `vc_copy`
of the clock into a message; a receive event is a `vc_merge` of a message followed
by a `vc_increment`; every event is stamped with a `vc_copy` of the clock after it.
Messages may overtake each other, be lost, or be received any number of times.

`Cluster.HappensBefore` is generated by program order and by message delivery and
never looks at a clock.  `Cluster.Coherent` is what a run preserves, and it says enough
to make the stamps a `Causality.Stamping` (`Cluster.Coherent.stamping`), whence the strong
clock condition `vcCompare_stamps`.
-/

namespace LogAgg

open VectorClock Causality

variable {n : ℕ}

/-- What an event did.  A send keeps the clock it put into its message, a receive
the position of the send it answers. -/
inductive EventKind where
  | internal
  | send (message : VectorClock)
  | receive (source : ℕ)
  deriving DecidableEq

/-- An event of a run. -/
structure ClockEvent (n : ℕ) where
  /-- The node at which it happened. -/
  node : Fin n
  /-- What it did. -/
  kind : EventKind
  /-- The `vc_copy` of the node's clock after it. -/
  stamp : VectorClock
  deriving DecidableEq

/-- The clocks of the nodes and the events so far, oldest first. -/
structure Cluster (n : ℕ) where
  /-- The clock of every node. -/
  clock : Fin n → VectorClock
  /-- The events so far. -/
  events : List (ClockEvent n)

/-- What a node can do next.  The `mem` arguments are what the targets of `vc_copy`
held before. -/
inductive ClusterAction (n : ℕ) where
  | internal (node : Fin n) (mem : VectorClock)
  | send (node : Fin n) (mem messageMem : VectorClock)
  | receive (node : Fin n) (source : ℕ) (mem : VectorClock)

namespace Cluster

/-- Every node starts from `vc_init(n)`, whatever its clock held. -/
def start (mem : Fin n → VectorClock) : Cluster n := ⟨fun i => vcInit (mem i) n, []⟩

/-- Node `i` increments `clock` and stamps an event with the result. -/
def tick (σ : Cluster n) (i : Fin n) (clock : VectorClock) (kind : VectorClock → EventKind)
    (mem : VectorClock) : Cluster n :=
  let clock' := vcIncrement clock i
  ⟨Function.update σ.clock i clock', σ.events ++ [⟨i, kind clock', vcCopy mem clock'⟩]⟩

/-- One event.  A receive needs a message that was sent. -/
def step (σ : Cluster n) : ClusterAction n → Option (Cluster n)
  | .internal i mem => some (σ.tick i (σ.clock i) (fun _ => .internal) mem)
  | .send i mem messageMem =>
      some (σ.tick i (σ.clock i) (fun clock => .send (vcCopy messageMem clock)) mem)
  | .receive j source mem =>
      match σ.events[source]? with
      | some ⟨_, .send message, _⟩ =>
          some (σ.tick j (vcMerge (σ.clock j) message) (fun _ => .receive source) mem)
      | _ => none

/-- The component the next event increments does not reach `2 ^ 64`. -/
def NoWrap (σ : Cluster n) : ClusterAction n → Prop
  | .internal i _ => (σ.clock i).extend i + 1 < 2 ^ 64
  | .send i _ _ => (σ.clock i).extend i + 1 < 2 ^ 64
  | .receive j source _ =>
      ∀ e message, σ.events[source]? = some e → e.kind = .send message →
        (vcMerge (σ.clock j) message).extend j + 1 < 2 ^ 64

/-- The states of the runs in which no component wraps. -/
inductive Reachable : Cluster n → Prop where
  | start (mem : Fin n → VectorClock) : Reachable (start mem)
  | step {σ σ' : Cluster n} {a : ClusterAction n} :
      Reachable σ → σ.NoWrap a → σ.step a = some σ' → Reachable σ'

/-! ## Causality, without clocks -/

/-- `d` is a direct cause of `e`: an earlier event of the same node, or the send of
the message that `e` received. -/
def Direct (σ : Cluster n) (d e : ℕ) : Prop :=
  ∃ a b, σ.events[d]? = some a ∧ σ.events[e]? = some b ∧ d < e ∧
    (a.node = b.node ∨ b.kind = .receive d)

/-- Causal precedence of the events at two positions. -/
def HappensBefore (σ : Cluster n) : ℕ → ℕ → Prop := Relation.TransGen σ.Direct

theorem HappensBefore.lt {σ : Cluster n} {d e : ℕ} (h : σ.HappensBefore d e) : d < e := by
  induction h with
  | single h =>
    obtain ⟨_, _, _, _, hlt, _⟩ := h
    exact hlt
  | tail _ h ih =>
    obtain ⟨_, _, _, _, hlt, _⟩ := h
    exact ih.trans hlt

/-! ## The shape of a step -/

/-- A new event leaves the earlier positions alone. -/
theorem getElem?_tick_of_some {σ : Cluster n} {d : ℕ} {a : ClockEvent n}
    (h : σ.events[d]? = some a) (i : Fin n) (clock : VectorClock)
    (kind : VectorClock → EventKind) (mem : VectorClock) :
    (σ.tick i clock kind mem).events[d]? = some a := by
  have hd := (List.getElem?_eq_some_iff.mp h).1
  rw [tick, List.getElem?_append_left hd, h]

/-- The new event stands at the end. -/
theorem getElem?_tick_length (σ : Cluster n) (i : Fin n) (clock : VectorClock)
    (kind : VectorClock → EventKind) (mem : VectorClock) :
    (σ.tick i clock kind mem).events[σ.events.length]? =
      some ⟨i, kind (vcIncrement clock i), vcCopy mem (vcIncrement clock i)⟩ := by
  rw [tick, List.getElem?_append_right le_rfl, Nat.sub_self, List.getElem?_cons_zero]

/-- The events after a `tick`: the earlier ones and the new one. -/
theorem getElem?_tick_cases {σ : Cluster n} {i : Fin n} {clock : VectorClock}
    {kind : VectorClock → EventKind} {mem : VectorClock} {d : ℕ} {a : ClockEvent n}
    (h : (σ.tick i clock kind mem).events[d]? = some a) :
    σ.events[d]? = some a ∨ d = σ.events.length ∧
      a = ⟨i, kind (vcIncrement clock i), vcCopy mem (vcIncrement clock i)⟩ := by
  by_cases hd : d < σ.events.length
  · left
    rwa [tick, List.getElem?_append_left hd] at h
  · right
    rw [tick, List.getElem?_append_right (by omega)] at h
    have hd' : d - σ.events.length = 0 := by
      have hlt := (List.getElem?_eq_some_iff.mp h).1
      rw [List.length_singleton] at hlt
      omega
    rw [hd', List.getElem?_cons_zero, Option.some_inj] at h
    exact ⟨by omega, h.symm⟩

/-- Of two events after a `tick` the earlier one is not new. -/
theorem getElem?_tick_cases_of_lt {σ : Cluster n} {i : Fin n} {clock : VectorClock}
    {kind : VectorClock → EventKind} {mem : VectorClock} {d e : ℕ} {a b : ClockEvent n}
    (hlt : d < e) (ha : (σ.tick i clock kind mem).events[d]? = some a)
    (hb : (σ.tick i clock kind mem).events[e]? = some b) :
    σ.events[d]? = some a ∧ (σ.events[e]? = some b ∨
      b = ⟨i, kind (vcIncrement clock i), vcCopy mem (vcIncrement clock i)⟩) := by
  have he : e ≤ σ.events.length := by
    rcases getElem?_tick_cases hb with hb | ⟨he, -⟩
    · exact (List.getElem?_eq_some_iff.mp hb).1.le
    · exact he.le
  refine ⟨?_, (getElem?_tick_cases hb).imp_right And.right⟩
  rcases getElem?_tick_cases ha with ha | ⟨hd, -⟩
  · exact ha
  · omega

theorem Direct.tick {σ : Cluster n} {d e : ℕ} (h : σ.Direct d e) (i : Fin n)
    (clock : VectorClock) (kind : VectorClock → EventKind) (mem : VectorClock) :
    (σ.tick i clock kind mem).Direct d e := by
  obtain ⟨a, b, ha, hb, hrest⟩ := h
  exact ⟨a, b, getElem?_tick_of_some ha .., getElem?_tick_of_some hb .., hrest⟩

theorem HappensBefore.tick {σ : Cluster n} {d e : ℕ} (h : σ.HappensBefore d e) (i : Fin n)
    (clock : VectorClock) (kind : VectorClock → EventKind) (mem : VectorClock) :
    (σ.tick i clock kind mem).HappensBefore d e :=
  Relation.TransGen.mono (fun _ _ hd => Direct.tick hd i clock kind mem) _ _ h

/-- The event at `d` is the event at `e` or precedes it. -/
def Past (σ : Cluster n) (d e : ℕ) : Prop := d = e ∨ σ.HappensBefore d e

/-- Position `e` holds an event with stamp `V` of which component `i` was contributed
by an event of node `i` in the past of `e`. -/
def Sourced (σ : Cluster n) (e : ℕ) (V : ℕ → ℕ) : Prop :=
  ∀ i : Fin n, 0 < V i →
    ∃ d a, σ.events[d]? = some a ∧ σ.Past d e ∧ a.node = i ∧ a.stamp.extend i = V i

theorem Sourced.tick {σ : Cluster n} {e : ℕ} {V : ℕ → ℕ} (h : σ.Sourced e V) (i : Fin n)
    (clock : VectorClock) (kind : VectorClock → EventKind) (mem : VectorClock) :
    (σ.tick i clock kind mem).Sourced e V := by
  intro j hj
  obtain ⟨d, a, ha, hpast, hrest⟩ := h j hj
  exact ⟨d, a, getElem?_tick_of_some ha .., hpast.imp_right fun hb => hb.tick i clock kind mem,
    hrest⟩

/-! ## What a run preserves -/

/-- The invariant of a run: clocks, messages and stamps fit together. -/
structure Coherent (σ : Cluster n) : Prop where
  /-- Every clock has `n` components. -/
  clock_nodeCount : ∀ i, (σ.clock i).nodeCount = n
  /-- Every message has `n` components and is a copy of the stamp of its send. -/
  message : ∀ (d : ℕ) (a : ClockEvent n) (m : VectorClock), σ.events[d]? = some a → a.kind = .send m →
    m.nodeCount = n ∧ m.extend = a.stamp.extend
  /-- Every stamp has `n` components. -/
  stamp_nodeCount : ∀ (d : ℕ) (a : ClockEvent n), σ.events[d]? = some a → a.stamp.nodeCount = n
  /-- A node's clock covers all its events. -/
  clock_covers : ∀ (d : ℕ) (a : ClockEvent n), σ.events[d]? = some a → a.stamp.extend ≤ (σ.clock a.node).extend
  /-- A node's clock is still zero or is the stamp of one of its events. -/
  clock_source : ∀ i, (σ.clock i).extend = 0 ∨
    ∃ (d : ℕ) (a : ClockEvent n), σ.events[d]? = some a ∧ a.node = i ∧ a.stamp.extend = (σ.clock i).extend
  /-- Direct causes have smaller stamps. -/
  mono : ∀ (d e : ℕ) (a b : ClockEvent n), σ.events[d]? = some a → σ.events[e]? = some b → σ.Direct d e →
    a.stamp.extend ≤ b.stamp.extend
  /-- Along a node the own component grows strictly. -/
  strict : ∀ (d e : ℕ) (a b : ClockEvent n), σ.events[d]? = some a → σ.events[e]? = some b → d < e →
    a.node = b.node → a.stamp.extend a.node < b.stamp.extend a.node
  /-- The own component of a stamp is positive. -/
  pos : ∀ (d : ℕ) (a : ClockEvent n), σ.events[d]? = some a → 0 < a.stamp.extend a.node
  /-- Every positive component comes from the causal past. -/
  sourced : ∀ (d : ℕ) (a : ClockEvent n), σ.events[d]? = some a → σ.Sourced d a.stamp.extend

theorem Coherent.start (hpos : 1 ≤ n) (hle : n ≤ vcMaxNodes) (mem : Fin n → VectorClock) :
    Coherent (start mem) where
  clock_nodeCount i := nodeCount_vcInit (mem i) hpos hle
  message d a m h := by simp [Cluster.start] at h
  stamp_nodeCount d a h := by simp [Cluster.start] at h
  clock_covers d a h := by simp [Cluster.start] at h
  clock_source i := Or.inl (extend_vcInit (mem i) hpos hle)
  mono d e a b h := by simp [Cluster.start] at h
  strict d e a b h := by simp [Cluster.start] at h
  pos d a h := by simp [Cluster.start] at h
  sourced d a h := by simp [Cluster.start] at h

/-- **The step lemma.**  Stamping a new event at node `i` keeps the invariant as soon
as the clock that is incremented lies above the node's own clock, every direct cause
of the new event lies below it, and its components come from the past of the new
event. -/
theorem Coherent.tick {σ : Cluster n} (h : Coherent σ) (i : Fin n) {clock : VectorClock}
    {kind : VectorClock → EventKind} (mem : VectorClock)
    (hcount : clock.nodeCount = n) (hwrap : clock.extend i + 1 < 2 ^ 64)
    (hkind : ∀ m, kind (vcIncrement clock i) = .send m →
      m.nodeCount = n ∧ m.extend = (vcIncrement clock i).extend)
    (hown : (σ.clock i).extend ≤ clock.extend)
    (hcause : ∀ d a, σ.events[d]? = some a → kind (vcIncrement clock i) = .receive d →
      a.stamp.extend ≤ clock.extend)
    (hsource : ∀ j : Fin n, 0 < clock.extend j → ∃ d a, σ.events[d]? = some a ∧
      (∃ e, σ.Past d e ∧ (σ.tick i clock kind mem).Direct e σ.events.length) ∧
      a.node = j ∧ a.stamp.extend j = clock.extend j) :
    Coherent (σ.tick i clock kind mem) := by
  have hext : (vcIncrement clock i).extend =
      Function.update clock.extend i (clock.extend i + 1) :=
    extend_vcIncrement (by omega) hwrap
  have hgrow : clock.extend ≤ (vcIncrement clock i).extend :=
    (extend_lt_extend_vcIncrement (by omega) hwrap).le
  have hself : clock.extend i < (vcIncrement clock i).extend i := by
    rw [hext, Function.update_self]
    exact Nat.lt_succ_self _
  -- the clock of the node before the event covers its earlier events
  have hcovered : ∀ (d : ℕ) (a : ClockEvent n), σ.events[d]? = some a → a.node = i →
      a.stamp.extend ≤ clock.extend := by
    intro d a ha hnode
    have hcov := h.clock_covers d a ha
    rw [hnode] at hcov
    exact hcov.trans hown
  have hnew := σ.getElem?_tick_length i clock kind mem
  have hclock : ∀ j, (σ.tick i clock kind mem).clock j =
      if j = i then vcIncrement clock i else σ.clock j := by
    intro j
    simp only [Cluster.tick, Function.update_apply]
  constructor
  case clock_nodeCount =>
    intro j
    rw [hclock]
    by_cases hj : j = i
    · rw [if_pos hj, nodeCount_vcIncrement, hcount]
    · rw [if_neg hj, h.clock_nodeCount]
  case message =>
    intro d a m ha hm
    rcases getElem?_tick_cases ha with ha | ⟨-, rfl⟩
    · exact h.message d a m ha hm
    · rw [extend_vcCopy]
      exact hkind m hm
  case stamp_nodeCount =>
    intro d a ha
    rcases getElem?_tick_cases ha with ha | ⟨-, rfl⟩
    · exact h.stamp_nodeCount d a ha
    · rw [nodeCount_vcCopy, nodeCount_vcIncrement, hcount]
  case clock_covers =>
    intro d a ha
    rw [hclock]
    rcases getElem?_tick_cases ha with ha | ⟨-, rfl⟩
    · by_cases hj : a.node = i
      · rw [if_pos hj]
        exact (hcovered d a ha hj).trans hgrow
      · rw [if_neg hj]
        exact h.clock_covers d a ha
    · rw [if_pos rfl, extend_vcCopy]
  case clock_source =>
    intro j
    rw [hclock]
    by_cases hj : j = i
    · right
      refine ⟨_, _, hnew, hj.symm, ?_⟩
      rw [if_pos hj, extend_vcCopy]
    · rw [if_neg hj]
      rcases h.clock_source j with hz | ⟨d, a, ha, haj, hval⟩
      · exact Or.inl hz
      · exact Or.inr ⟨d, a, getElem?_tick_of_some ha .., haj, hval⟩
  case mono =>
    intro d e a b ha hb hde
    obtain ⟨a', b', ha', hb', hlt, hrel⟩ := hde
    rw [ha, Option.some_inj] at ha'
    rw [hb, Option.some_inj] at hb'
    subst ha' hb'
    obtain ⟨ha, hb | rfl⟩ := getElem?_tick_cases_of_lt hlt ha hb
    · exact h.mono d e a b ha hb ⟨a, b, ha, hb, hlt, hrel⟩
    · rw [extend_vcCopy]
      refine le_trans ?_ hgrow
      rcases hrel with hnode | hrecv
      · exact hcovered d a ha hnode
      · exact hcause d a ha hrecv
  case strict =>
    intro d e a b ha hb hlt hnode
    obtain ⟨ha, hb | rfl⟩ := getElem?_tick_cases_of_lt hlt ha hb
    · exact h.strict d e a b ha hb hlt hnode
    · rw [extend_vcCopy, hnode]
      exact lt_of_le_of_lt (hcovered d a ha hnode i) hself
  case pos =>
    intro d a ha
    rcases getElem?_tick_cases ha with ha | ⟨-, rfl⟩
    · exact h.pos d a ha
    · rw [extend_vcCopy]
      exact lt_of_le_of_lt (Nat.zero_le _) hself
  case sourced =>
    intro d a ha
    rcases getElem?_tick_cases ha with ha | ⟨rfl, rfl⟩
    · exact (h.sourced d a ha).tick i clock kind mem
    · intro j hj
      rw [extend_vcCopy] at hj ⊢
      by_cases hji : j = i
      · exact ⟨_, _, hnew, Or.inl rfl, hji.symm, by rw [extend_vcCopy]⟩
      · have hval : (vcIncrement clock i).extend j = clock.extend j := by
          rw [hext, Function.update_of_ne (fun hh => hji (Fin.ext hh))]
        rw [hval] at hj ⊢
        obtain ⟨d, a, ha, ⟨e, hpast, hdir⟩, hrest⟩ := hsource j hj
        refine ⟨d, a, getElem?_tick_of_some ha .., Or.inr ?_, hrest⟩
        rcases hpast with rfl | hpast
        · exact Relation.TransGen.single hdir
        · exact (hpast.tick i clock kind mem).tail hdir

/-- An event of the node itself is a direct cause of its next event. -/
theorem direct_tick_of_node {σ : Cluster n} {i : Fin n} {d : ℕ} {a : ClockEvent n}
    (ha : σ.events[d]? = some a) (hnode : a.node = i) (clock : VectorClock)
    (kind : VectorClock → EventKind) (mem : VectorClock) :
    (σ.tick i clock kind mem).Direct d σ.events.length :=
  ⟨a, _, getElem?_tick_of_some ha .., σ.getElem?_tick_length i clock kind mem,
    (List.getElem?_eq_some_iff.mp ha).1, Or.inl hnode⟩

/-- The components of a node's clock come from the past of its next event. -/
theorem Coherent.clock_sourced {σ : Cluster n} (h : Coherent σ) (i j : Fin n)
    (hj : 0 < (σ.clock i).extend j) (clock : VectorClock) (kind : VectorClock → EventKind)
    (mem : VectorClock) :
    ∃ d a, σ.events[d]? = some a ∧
      (∃ e, σ.Past d e ∧ (σ.tick i clock kind mem).Direct e σ.events.length) ∧
      a.node = j ∧ a.stamp.extend j = (σ.clock i).extend j := by
  rcases h.clock_source i with hz | ⟨e, b, hb, hbi, hval⟩
  · rw [hz] at hj
    exact absurd hj (lt_irrefl 0)
  · rw [← hval] at hj ⊢
    obtain ⟨d, a, ha, hpast, hrest⟩ := h.sourced e b hb j hj
    exact ⟨d, a, ha, ⟨e, hpast, direct_tick_of_node hb hbi clock kind mem⟩, hrest⟩

theorem Coherent.step {σ σ' : Cluster n} (h : Coherent σ) {a : ClusterAction n} (hw : σ.NoWrap a)
    (hs : σ.step a = some σ') : Coherent σ' := by
  cases a with
  | internal i mem =>
    rw [Cluster.step, Option.some_inj] at hs
    rw [← hs]
    refine h.tick i mem (h.clock_nodeCount i) hw (fun m hm => ?_) le_rfl (fun d a _ hr => ?_)
      fun j hj => h.clock_sourced i j hj _ _ mem
    · exact EventKind.noConfusion hm
    · exact EventKind.noConfusion hr
  | send i mem messageMem =>
    rw [Cluster.step, Option.some_inj] at hs
    rw [← hs]
    refine h.tick i mem (h.clock_nodeCount i) hw (fun m hm => ?_) le_rfl (fun d a _ hr => ?_)
      fun j hj => h.clock_sourced i j hj _ _ mem
    · rw [← EventKind.send.inj hm, nodeCount_vcCopy, nodeCount_vcIncrement, extend_vcCopy]
      exact ⟨h.clock_nodeCount i, rfl⟩
    · exact EventKind.noConfusion hr
  | receive i source mem =>
    rw [Cluster.step] at hs
    split at hs
    · rename_i node message stamp hsrc
      rw [Option.some_inj] at hs
      rw [← hs]
      obtain ⟨hmn, hms⟩ := h.message source _ message hsrc rfl
      have hcn := h.clock_nodeCount i
      have hjoin : (vcMerge (σ.clock i) message).extend = (σ.clock i).extend ⊔ message.extend :=
        extend_vcMerge (by omega)
      refine h.tick i mem (by rw [nodeCount_vcMerge, hcn]) (hw _ message hsrc rfl)
        (fun m hm => EventKind.noConfusion hm) (extend_le_extend_vcMerge _ _)
        (fun d a ha hr => ?_) fun j hj => ?_
      · rw [← EventKind.receive.inj hr, hsrc, Option.some_inj] at ha
        rw [← ha, hjoin, hms]
        exact le_sup_right
      · rw [hjoin, Pi.sup_apply] at hj ⊢
        rcases le_total (message.extend j) ((σ.clock i).extend j) with hle | hle
        · rw [sup_eq_left.mpr hle] at hj ⊢
          exact h.clock_sourced i j hj _ _ mem
        · rw [sup_eq_right.mpr hle, hms] at hj ⊢
          obtain ⟨d, a, ha, hpast, hrest⟩ := h.sourced source _ hsrc j hj
          exact ⟨d, a, ha, ⟨source, hpast, _, _, getElem?_tick_of_some hsrc ..,
            σ.getElem?_tick_length i _ _ mem, (List.getElem?_eq_some_iff.mp hsrc).1,
            Or.inr rfl⟩, hrest⟩
    · exact absurd hs (by simp)

/-- **The run lemma.** -/
theorem Reachable.inv (hpos : 1 ≤ n) (hle : n ≤ vcMaxNodes) {σ : Cluster n}
    (h : Reachable σ) : Coherent σ := by
  induction h with
  | start mem => exact Coherent.start hpos hle mem
  | step _ hw hs ih => exact ih.step hw hs

/-! ## The stamps of a run are a stamping -/

/-- The event at a position of a run. -/
def eventAt (σ : Cluster n) (e : Fin σ.events.length) : ClockEvent n := σ.events[e]

theorem getElem?_eventAt (σ : Cluster n) (e : Fin σ.events.length) :
    σ.events[(e : ℕ)]? = some (σ.eventAt e) := List.getElem?_eq_getElem e.isLt

/-- The events of a run, ordered by causality. -/
def eventOrder (σ : Cluster n) : EventOrder (Fin n) (Fin σ.events.length) where
  proc e := (σ.eventAt e).node
  before d e := σ.HappensBefore d e
  irrefl e h := lt_irrefl _ h.lt
  trans hde hef := Relation.TransGen.trans hde hef
  total {d e} hproc := by
    rcases lt_trichotomy (d : ℕ) e with hlt | heq | hlt
    · exact Or.inr (Or.inl (Relation.TransGen.single
        ⟨_, _, σ.getElem?_eventAt d, σ.getElem?_eventAt e, hlt, Or.inl hproc⟩))
    · exact Or.inl (Fin.ext heq)
    · exact Or.inr (Or.inr (Relation.TransGen.single
        ⟨_, _, σ.getElem?_eventAt e, σ.getElem?_eventAt d, hlt, Or.inl hproc.symm⟩))

theorem Coherent.le_of_happensBefore {σ : Cluster n} (h : Coherent σ) {d e : ℕ} (hde : σ.HappensBefore d e) :
    ∀ a b, σ.events[d]? = some a → σ.events[e]? = some b → a.stamp.extend ≤ b.stamp.extend := by
  induction hde with
  | single hdir =>
    intro a b ha hb
    exact h.mono _ _ a b ha hb hdir
  | tail _ hdir ih =>
    intro a b ha hb
    have hcause := hdir
    obtain ⟨c, _, hc, -, -, -⟩ := hdir
    exact (ih a c ha hc).trans (h.mono _ _ c b hc hb hcause)

theorem Coherent.stamping {σ : Cluster n} (h : Coherent σ) :
    Stamping σ.eventOrder fun e i => (σ.eventAt e).stamp.extend i where
  mono {d e} hde i :=
    h.le_of_happensBefore hde _ _ (σ.getElem?_eventAt d) (σ.getElem?_eventAt e) i
  pos e := h.pos e _ (σ.getElem?_eventAt e)
  strict {d e} hde hproc :=
    h.strict d e _ _ (σ.getElem?_eventAt d) (σ.getElem?_eventAt e)
      (HappensBefore.lt (σ := σ) hde) hproc
  source e i hpos := by
    obtain ⟨d, a, ha, hpast, hnode, hval⟩ := h.sourced e _ (σ.getElem?_eventAt e) i hpos
    obtain ⟨hd, rfl⟩ := List.getElem?_eq_some_iff.mp ha
    exact ⟨⟨d, hd⟩, hpast.imp_left fun hh => Fin.ext hh, hnode, hval⟩

end Cluster

/-- **Strong clock condition.**  In every run of `n` nodes in which no component
reaches `2 ^ 64`, `vc_compare` of the stamps of two events tells exactly how the
events are causally related. -/
theorem vcCompare_stamps (hpos : 1 ≤ n) (hle : n ≤ vcMaxNodes) {σ : Cluster n}
    (hσ : σ.Reachable) {d e : ℕ} {a b : ClockEvent n} (ha : σ.events[d]? = some a)
    (hb : σ.events[e]? = some b) :
    (vcCompare a.stamp b.stamp = .happensBefore ↔ σ.HappensBefore d e) ∧
    (vcCompare a.stamp b.stamp = .happensAfter ↔ σ.HappensBefore e d) ∧
    (vcCompare a.stamp b.stamp = .equal ↔ d = e) ∧
    (vcCompare a.stamp b.stamp = .concurrent ↔
      d ≠ e ∧ ¬ σ.HappensBefore d e ∧ ¬ σ.HappensBefore e d) := by
  have hinv := hσ.inv hpos hle
  have hst := hinv.stamping
  have han := hinv.stamp_nodeCount d a ha
  have hbn := hinv.stamp_nodeCount e b hb
  obtain ⟨hd, rfl⟩ := List.getElem?_eq_some_iff.mp ha
  obtain ⟨he, rfl⟩ := List.getElem?_eq_some_iff.mp hb
  have hde : σ.events[d].stamp.extend ≤ σ.events[e].stamp.extend ↔ d = e ∨ σ.HappensBefore d e := by
    rw [extend_le_iff_forall_fin han]
    exact (hst.past_iff_le (d := ⟨d, hd⟩) (e := ⟨e, he⟩)).symm.trans
      (or_congr_left Fin.mk.inj_iff)
  have hed : σ.events[e].stamp.extend ≤ σ.events[d].stamp.extend ↔ e = d ∨ σ.HappensBefore e d := by
    rw [extend_le_iff_forall_fin hbn]
    exact (hst.past_iff_le (d := ⟨e, he⟩) (e := ⟨d, hd⟩)).symm.trans
      (or_congr_left Fin.mk.inj_iff)
  have hasymm : ∀ {x y : ℕ}, σ.HappensBefore x y → ¬ σ.HappensBefore y x := fun h h' =>
    absurd (h.lt.trans h'.lt) (lt_irrefl _)
  have hirr : ∀ {x : ℕ}, ¬ σ.HappensBefore x x := fun h => lt_irrefl _ h.lt
  rw [vcCompare_eq_happensBefore_iff, vcCompare_eq_happensAfter_iff, vcCompare_eq_equal_iff,
    vcCompare_eq_concurrent_iff, lt_iff_le_not_ge, lt_iff_le_not_ge, le_antisymm_iff, hde, hed]
  refine ⟨⟨?_, fun h => ⟨Or.inr h, ?_⟩⟩, ⟨?_, fun h => ⟨Or.inr h, ?_⟩⟩, ⟨?_, fun h => ?_⟩, ?_⟩
  · rintro ⟨rfl | h, hn⟩
    · exact absurd (Or.inl rfl) hn
    · exact h
  · rintro (rfl | h')
    · exact hirr h
    · exact hasymm h h'
  · rintro ⟨rfl | h, hn⟩
    · exact absurd (Or.inl rfl) hn
    · exact h
  · rintro (rfl | h')
    · exact hirr h
    · exact hasymm h h'
  · rintro ⟨h | h, h' | h'⟩
    · exact h
    · exact h
    · exact h'.symm
    · exact absurd h' (hasymm h)
  · exact ⟨Or.inl h, Or.inl h.symm⟩
  · rw [not_or, not_or]
    constructor
    · rintro ⟨⟨hne, h₁⟩, -, h₂⟩
      exact ⟨hne, h₁, h₂⟩
    · rintro ⟨hne, h₁, h₂⟩
      exact ⟨⟨hne, h₁⟩, Ne.symm hne, h₂⟩

/-- The condition at work: node 0 sends, node 1 receives, and the stamps `[1, 0]` and
`[1, 1]` say so. -/
theorem vcCompare_stamps_delivery :
    ∃ σ : Cluster 2, σ.Reachable ∧ σ.HappensBefore 0 1 ∧ ¬ σ.HappensBefore 1 0 := by
  have hrun : ∃ σ : Cluster 2, σ.Reachable ∧ ∃ a b, σ.events[0]? = some a ∧
      σ.events[1]? = some b ∧ vcCompare a.stamp b.stamp = .happensBefore :=
    ⟨_, .step (.step (.start fun _ => VectorClock.zero)
        (a := .send 0 VectorClock.zero VectorClock.zero) (by
          show _ < _
          decide) rfl)
      (a := .receive 1 0 VectorClock.zero) (fun e m he hm => by
        cases he
        cases hm
        decide) rfl, _, _, rfl, rfl, by decide⟩
  obtain ⟨σ, hσ, a, b, ha, hb, hab⟩ := hrun
  have hcond := vcCompare_stamps (by decide) (by decide) hσ ha hb
  refine ⟨σ, hσ, hcond.1.mp hab, fun hback => ?_⟩
  rw [hcond.2.1.mpr hback] at hab
  exact VcRelation.noConfusion hab

end LogAgg
