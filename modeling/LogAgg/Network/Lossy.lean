import Mathlib

/-!
# Senders, a lossy network and a receiver

Senders act on their own and now and then send messages; one receiver takes what comes, or
finds that nothing came.  The network promises nothing: a message that was sent may arrive at
any later moment, any number of times, or never.

A run of the whole falls apart into runs of the parties.

* `Parties.sender_run`, `Parties.messagesOf_run`: a sender is where its own events alone lead
  it, and the network holds what it sends in them.
* `Parties.receiver_run`, `Parties.mem_sent_of_reception`: the receiver is where its receptions
  lead it, and what it receives was sent.
-/

namespace LogAgg
namespace Network

/-- The senders, the messages that were sent so far, each with its sender, and the receiver. -/
structure Net (ι σ α ρ : Type*) where
  sender : ι → σ
  sent : List (ι × α)
  receiver : ρ

/-- What the parties do: a sender in an event of its own, and the receiver with what comes. -/
structure Parties (ι ε σ α τ ρ : Type*) where
  act : ι → ε → σ → σ × List α
  receive : τ → Option α → ρ → ρ

/-- A move: an event at a sender, the arrival of a message, named by its place among those that
were sent, or a reception without a message. -/
inductive Move (ι ε τ : Type*) where
  | act (i : ι) (e : ε)
  | deliver (k : ℕ) (t : τ)
  | idle (t : τ)

section Local

variable {ι ε τ α : Type*} [DecidableEq ι]

/-- The event of one sender in a move. -/
def Move.eventOf (i : ι) : Move ι ε τ → Option ε
  | .act j e => if j = i then some e else none
  | .deliver _ _ => none
  | .idle _ => none

/-- The events of one sender in some moves. -/
def eventsOf (i : ι) (moves : List (Move ι ε τ)) : List ε := moves.filterMap (Move.eventOf i)

/-- The turn of the receiver in a move. -/
def Move.turn : Move ι ε τ → Option τ
  | .act _ _ => none
  | .deliver _ t => some t
  | .idle t => some t

/-- The turns of the receiver in some moves. -/
def turnsOf (moves : List (Move ι ε τ)) : List τ := moves.filterMap Move.turn

/-- What some messages hold of one sender. -/
def messagesOf (i : ι) (sent : List (ι × α)) : List α :=
  sent.filterMap fun m => if m.1 = i then some m.2 else none

@[simp] theorem eventsOf_concat (i : ι) (moves : List (Move ι ε τ)) (move : Move ι ε τ) :
    eventsOf i (moves ++ [move]) = eventsOf i moves ++ (move.eventOf i).toList := by
  rw [eventsOf, List.filterMap_append, eventsOf, List.filterMap_cons, List.filterMap_nil]
  cases move.eventOf i <;> rfl

theorem mem_messagesOf_iff {i : ι} {sent : List (ι × α)} {a : α} :
    a ∈ messagesOf i sent ↔ (i, a) ∈ sent := by
  rw [messagesOf, List.mem_filterMap]
  constructor
  · rintro ⟨⟨j, b⟩, hmem, heq⟩
    split at heq
    · rename_i hj
      rw [← Option.some.inj heq, ← hj]
      exact hmem
    · cases heq
  · exact fun hmem => ⟨(i, a), hmem, if_pos rfl⟩

theorem messagesOf_append_map (i j : ι) (sent : List (ι × α)) (new : List α) :
    messagesOf i (sent ++ new.map (Prod.mk j)) =
      messagesOf i sent ++ if j = i then new else [] := by
  rw [messagesOf, List.filterMap_append, List.filterMap_map, messagesOf]
  by_cases hj : j = i
  · rw [if_pos hj]
    exact congrArg _ ((List.filterMap_congr fun a _ => if_pos hj).trans List.filterMap_some)
  · rw [if_neg hj]
    exact congrArg _ (List.filterMap_eq_nil_iff.mpr fun a _ => if_neg hj)

end Local

/-- What the receiver finds in a move, if it is its turn. -/
def Net.reception {ι ε σ α τ ρ : Type*} (net : Net ι σ α ρ) :
    Move ι ε τ → Option (τ × Option (ι × α))
  | .act _ _ => none
  | .deliver k t => net.sent[k]?.map fun m => (t, some m)
  | .idle t => some (t, none)

namespace Parties

variable {ι ε σ α τ ρ : Type*} [DecidableEq ι] (p : Parties ι ε σ α τ ρ)

/-- One move.  A message that was not sent yet cannot arrive. -/
def step (net : Net ι σ α ρ) : Move ι ε τ → Net ι σ α ρ
  | .act i e =>
    { net with
      sender := Function.update net.sender i (p.act i e (net.sender i)).1
      sent := net.sent ++ (p.act i e (net.sender i)).2.map (Prod.mk i) }
  | .deliver k t =>
    match net.sent[k]? with
    | none => net
    | some m => { net with receiver := p.receive t (some m.2) net.receiver }
  | .idle t => { net with receiver := p.receive t none net.receiver }

/-- A run. -/
def run (net : Net ι σ α ρ) (moves : List (Move ι ε τ)) : Net ι σ α ρ := moves.foldl p.step net

/-- A sender on its own: where its events lead it, and what it sends in them. -/
def solo (i : ι) (s : σ) (events : List ε) : σ × List α :=
  events.foldl (fun r e => ((p.act i e r.1).1, r.2 ++ (p.act i e r.1).2)) (s, [])

/-- What the receiver finds in a run. -/
def receptions (net : Net ι σ α ρ) : List (Move ι ε τ) → List (τ × Option (ι × α))
  | [] => []
  | move :: moves => (net.reception move).toList ++ receptions (p.step net move) moves

variable {p} (net : Net ι σ α ρ) (moves : List (Move ι ε τ)) (move : Move ι ε τ)

@[simp] theorem run_concat : p.run net (moves ++ [move]) = p.step (p.run net moves) move := by
  rw [run, List.foldl_append, List.foldl_cons, List.foldl_nil, run]

omit [DecidableEq ι] in
@[simp] theorem solo_concat (i : ι) (s : σ) (events : List ε) (e : ε) :
    p.solo i s (events ++ [e]) = ((p.act i e (p.solo i s events).1).1,
      (p.solo i s events).2 ++ (p.act i e (p.solo i s events).1).2) := by
  rw [solo, List.foldl_append, List.foldl_cons, List.foldl_nil, solo]

theorem receptions_concat : p.receptions net (moves ++ [move]) =
    p.receptions net moves ++ ((p.run net moves).reception move).toList := by
  induction moves generalizing net with
  | nil => exact List.append_nil _
  | cons first moves ih =>
    rw [List.cons_append, receptions, ih, receptions, List.append_assoc]
    rfl

/-! ## One move, seen by one party -/

/-- What a move does to a sender, and what it adds to its messages. -/
theorem sender_step (i : ι) :
    (p.step net move).sender i =
        (move.eventOf i).elim (net.sender i) (fun e => (p.act i e (net.sender i)).1) ∧
      messagesOf i (p.step net move).sent = messagesOf i net.sent ++
        (move.eventOf i).elim [] fun e => (p.act i e (net.sender i)).2 := by
  cases move with
  | act j e =>
    rw [step, Move.eventOf, messagesOf_append_map]
    by_cases hj : j = i
    · subst hj
      rw [if_pos rfl, if_pos rfl]
      exact ⟨Function.update_self .., rfl⟩
    · rw [if_neg hj, if_neg hj]
      exact ⟨Function.update_of_ne (Ne.symm hj) .., rfl⟩
  | deliver k t =>
    rw [step]
    cases net.sent[k]? <;> exact ⟨rfl, (List.append_nil _).symm⟩
  | idle t => exact ⟨rfl, (List.append_nil _).symm⟩

/-- What a move does to the receiver is what it finds in it. -/
theorem receiver_step : (p.step net move).receiver = (net.reception move).elim net.receiver
    fun x => p.receive x.1 (x.2.map Prod.snd) net.receiver := by
  cases move with
  | act i e => rfl
  | deliver k t =>
    rw [step, Net.reception]
    cases net.sent[k]? <;> rfl
  | idle t => rfl

/-- Nothing that was sent is taken back. -/
theorem subset_sent_step : net.sent ⊆ (p.step net move).sent := by
  cases move with
  | act i e => exact List.subset_append_left _ _
  | deliver k t =>
    rw [step]
    cases net.sent[k]? <;> exact List.Subset.refl _
  | idle t => exact List.Subset.refl _

/-! ## Runs, seen by one party -/

/-- **A sender on its own.**  It is where its events alone lead it, and the network holds what it
sends in them. -/
theorem sender_run (i : ι) :
    (p.run net moves).sender i = (p.solo i (net.sender i) (eventsOf i moves)).1 ∧
      messagesOf i (p.run net moves).sent =
        messagesOf i net.sent ++ (p.solo i (net.sender i) (eventsOf i moves)).2 := by
  induction moves using List.reverseRecOn with
  | nil => exact ⟨rfl, (List.append_nil _).symm⟩
  | append_singleton moves move ih =>
    obtain ⟨hsender, hsent⟩ := sender_step (p := p) (p.run net moves) move i
    rw [run_concat, eventsOf_concat, hsender, hsent, ih.1, ih.2]
    cases move.eventOf i with
    | none => simp only [Option.elim_none, Option.toList_none, List.append_nil, and_self]
    | some e =>
      simp only [Option.elim_some, Option.toList_some, solo_concat, List.append_assoc, and_self]

/-- **The receiver on its own.** -/
theorem receiver_run : (p.run net moves).receiver = (p.receptions net moves).foldl
    (fun r x => p.receive x.1 (x.2.map Prod.snd) r) net.receiver := by
  induction moves using List.reverseRecOn with
  | nil => rfl
  | append_singleton moves move ih =>
    rw [run_concat, receiver_step, receptions_concat, List.foldl_append, ← ih]
    cases (p.run net moves).reception move <;> rfl

/-- The receptions are turns of the receiver, in their order. -/
theorem map_fst_receptions_sublist :
    ((p.receptions net moves).map Prod.fst).Sublist (turnsOf moves) := by
  induction moves generalizing net with
  | nil => exact List.Sublist.refl _
  | cons move moves ih =>
    rw [receptions, List.map_append, turnsOf, List.filterMap_cons]
    cases move with
    | act i e => exact ih _
    | deliver k t =>
      cases hsent : net.sent[k]? with
      | none =>
        rw [Net.reception, hsent]
        exact (ih _).cons t
      | some m =>
        rw [Net.reception, hsent]
        exact (ih _).cons_cons t
    | idle t => exact (ih _).cons_cons t

/-- **What is received was sent.** -/
theorem mem_sent_of_reception {t : τ} {m : ι × α}
    (h : (t, some m) ∈ p.receptions net moves) : m ∈ (p.run net moves).sent := by
  induction moves using List.reverseRecOn with
  | nil => exact absurd h List.not_mem_nil
  | append_singleton moves move ih =>
    rw [receptions_concat, List.mem_append, Option.mem_toList] at h
    rw [run_concat]
    refine subset_sent_step _ _ ?_
    rcases h with hbefore | hnow
    · exact ih hbefore
    · cases move with
      | act i e => cases hnow
      | deliver k t' =>
        obtain ⟨m', hm', heq⟩ := Option.map_eq_some_iff.mp hnow
        rw [← Option.some.inj (Prod.mk.inj heq).2]
        exact List.mem_of_getElem? hm'
      | idle t' => cases hnow

end Parties

end Network
end LogAgg
