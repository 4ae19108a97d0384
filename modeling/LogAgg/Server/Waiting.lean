import LogAgg.Server.Attempts

/-!
# How long an entry waits

The check is meant to force out the entries that have waited longer than the timeout, and
them only.  It looks at the head of the list, and at the unsigned difference of two clock
readings.

* `forcedOut_overdue_iff`: no entry is forced out early exactly if the difference does not
  wrap at a head that the check looks at.  With a clock that never goes back it does not
  (`forcedOut_overdue_of_clockMonotone`).
* `none_overdue_of_overdueFirst`: none stays too long, if no overdue entry ever stands
  behind one that is not.
-/

namespace LogAgg

open Loop

/-! ## The age of an entry -/

/-- The entry has waited longer than the timeout. -/
def IsOverdue (timeoutMs now : UInt64) (node : LogBufferNode) : Prop :=
  (timeoutMs.toNat : ℤ) < now.toNat - node.arrivalTime.toNat

instance (timeoutMs now : UInt64) (node : LogBufferNode) :
    Decidable (IsOverdue timeoutMs now node) :=
  decidable_of_iff (node.arrivalTime.toNat + timeoutMs.toNat < now.toNat) (by
    rw [IsOverdue]
    omega)

/-- The reading is not before the arrival, or so far before it that the unsigned age does
not exceed the timeout either. -/
def ReadingFits (timeoutMs now : UInt64) (node : LogBufferNode) : Prop :=
  node.arrivalTime ≤ now ∨
    2 ^ 64 ≤ node.arrivalTime.toNat - now.toNat + timeoutMs.toNat

/-- The test of the check, on readings that are in order. -/
theorem late_iff_isOverdue {timeoutMs now : UInt64} {node : LogBufferNode}
    (h : node.arrivalTime ≤ now) :
    timeoutMs < now - node.arrivalTime ↔ IsOverdue timeoutMs now node := by
  rw [UInt64.lt_iff_toNat_lt, UInt64.toNat_sub_of_le _ _ h, IsOverdue]
  rw [UInt64.le_iff_toNat_le] at h
  omega

/-- The test on readings that are not: the age has wrapped. -/
theorem late_iff_of_lt {timeoutMs now : UInt64} {node : LogBufferNode}
    (h : now < node.arrivalTime) :
    timeoutMs < now - node.arrivalTime ↔
      node.arrivalTime.toNat - now.toNat + timeoutMs.toNat < 2 ^ 64 := by
  have hnow := now.toNat_lt
  have harrival := node.arrivalTime.toNat_lt
  rw [UInt64.lt_iff_toNat_lt] at h
  rw [UInt64.lt_iff_toNat_lt, UInt64.toNat_sub]
  omega

/-- **When the test is right** about an entry. -/
theorem readingFits_iff {timeoutMs now : UInt64} {node : LogBufferNode} :
    ReadingFits timeoutMs now node ↔
      (timeoutMs < now - node.arrivalTime → IsOverdue timeoutMs now node) := by
  by_cases h : node.arrivalTime ≤ now
  · exact iff_of_true (Or.inl h) (late_iff_isOverdue h).mp
  · have hlt : now < node.arrivalTime := UInt64.not_le.mp h
    have hneg : ¬ IsOverdue timeoutMs now node := by
      rw [UInt64.lt_iff_toNat_lt] at hlt
      rw [IsOverdue]
      omega
    rw [late_iff_of_lt hlt, ReadingFits, or_iff_right h]
    constructor
    · intro hwrap hlate
      omega
    · intro hlate
      by_contra hwrap
      exact hneg (hlate (by omega))

/-! ## What the check looks at -/

/-- The nodes that a check finds at the head of the list, one after the other. -/
def checkHeads (now : UInt64) (server : Server) : List LogBufferNode :=
  (trail (forcePass now) server.buffer.length server).filterMap (·.buffer.head?)

/-- The checks of a run: the reading of each, and the state it starts from. -/
def runChecks (server : Server) : List ServerInput → List (UInt64 × Server)
  | [] => []
  | input :: inputs =>
      (input.now, serverBeforeCheck server input) :: runChecks (serverStep server input) inputs

/-- The heads that the checks of a run look at, with their readings. -/
def runHeads (server : Server) (inputs : List ServerInput) : List (UInt64 × LogBufferNode) :=
  (runChecks server inputs).flatMap fun check => (checkHeads check.1 check.2).map (check.1, ·)

theorem checkHeads_stop {now : UInt64} {server : Server} (h : forcePass now server = none) :
    checkHeads now server = server.buffer.head?.toList := by
  rw [checkHeads, trail_of_none h, List.filterMap_cons]
  cases server.buffer.head? <;> rfl

theorem checkHeads_next {now : UInt64} {server next : Server} {node : LogBufferNode}
    {rest : List LogBufferNode} (h : forcePass now server = some next)
    (hbuffer : server.buffer = node :: rest) :
    checkHeads now server = node :: checkHeads now next := by
  rw [checkHeads, (check_lowers now).trail_next h, List.filterMap_cons, hbuffer]
  rfl

/-- A check looks at nodes of the list. -/
theorem mem_buffer_of_mem_checkHeads {now : UInt64} {server : Server} {node : LogBufferNode}
    (h : node ∈ checkHeads now server) : node ∈ server.buffer := by
  obtain ⟨state, hstate, hhead⟩ := List.mem_filterMap.mp h
  have hsub : state.buffer.Sublist server.buffer :=
    forall_mem_trail (P := fun s => s.buffer.Sublist server.buffer)
      (fun _ _ hst hsub => (buffer_forcePass_sublist hst).trans hsub) (List.Sublist.refl _)
      state hstate
  exact hsub.subset (List.mem_of_mem_head? hhead)

/-- Nothing changes the configuration. -/
theorem config_books : Books Server.config fun config (_ : WriteAttempt) => config where
  receive _ _ := rfl
  error _ := rfl
  insert _ _ _ := rfl
  discard _ _ _ := rfl
  commit _ server node rest := config_commit server _ node rest

theorem config_forcePass {now : UInt64} {server next : Server}
    (h : forcePass now server = some next) : next.config = server.config := by
  obtain ⟨node, rest, -, -, rfl⟩ := forcePass_eq_some_iff.mp h
  rw [config_books.flush, List.foldl_fixed, config_commit]

theorem config_serverStep (server : Server) (input : ServerInput) :
    (serverStep server input).config = server.config := by
  have hrun := config_books.run server [input]
  rwa [List.foldl_fixed] at hrun

theorem config_serverBeforeCheck (server : Server) (input : ServerInput) :
    (serverBeforeCheck server input).config = server.config := by
  have hcheck := config_books.check input.now (serverBeforeCheck server input)
  rw [List.foldl_fixed, ← serverStep_eq, config_serverStep] at hcheck
  exact hcheck.symm

/-- A check forces out those of its heads that are late. -/
theorem exists_mem_checkAttempts_iff {now reading : UInt64} {server : Server}
    {node : LogBufferNode} :
    (∃ attempt ∈ checkAttempts now server,
        attempt.reading = some reading ∧ attempt.node = node) ↔
      reading = now ∧ node ∈ checkHeads now server ∧
        server.config.timeoutMs < now - node.arrivalTime := by
  induction server using (check_lowers now).induct with
  | stop server hstop =>
    rw [checkAttempts_stop hstop, checkHeads_stop hstop]
    constructor
    · rintro ⟨attempt, hattempt, -⟩
      exact absurd hattempt List.not_mem_nil
    · rintro ⟨-, hhead, hlate⟩
      rw [Option.mem_toList] at hhead
      obtain ⟨rest, hbuffer⟩ := List.head?_eq_some_iff.mp hhead
      exact absurd hlate (forcePass_eq_none_iff.mp hstop node rest hbuffer)
  | next server next hnext ih =>
    rw [config_forcePass hnext] at ih
    obtain ⟨first, rest, hbuffer, hlate, -⟩ := forcePass_eq_some_iff.mp hnext
    rw [checkAttempts_next hnext, forceAttempts_of_late hbuffer hlate,
      checkHeads_next hnext hbuffer]
    constructor
    · rintro ⟨attempt, hattempt, hreading, rfl⟩
      rcases List.mem_append.mp hattempt with hattempt | hattempt
      · rcases List.mem_cons.mp hattempt with rfl | hattempt
        · exact ⟨(Option.some.inj hreading).symm, List.mem_cons_self, hlate⟩
        · -- the flush behind a forced write only releases
          rw [(valid_of_mem_flushAttempts _ attempt hattempt).1] at hreading
          exact absurd hreading.symm (Option.some_ne_none _)
      · obtain ⟨hnow, hhead, hlate'⟩ := ih.mp ⟨attempt, hattempt, hreading, rfl⟩
        exact ⟨hnow, List.mem_cons_of_mem _ hhead, hlate'⟩
    · rintro ⟨rfl, hhead, hlate'⟩
      rcases List.mem_cons.mp hhead with rfl | hhead
      · exact ⟨_, List.mem_append_left _ List.mem_cons_self, rfl, rfl⟩
      · obtain ⟨attempt, hattempt, hforced⟩ := ih.mpr ⟨rfl, hhead, hlate'⟩
        exact ⟨attempt, List.mem_append_right _ hattempt, hforced⟩

/-- The same of a run. -/
theorem exists_mem_runAttempts_iff {server : Server} {inputs : List ServerInput}
    {reading : UInt64} {node : LogBufferNode} :
    (∃ attempt ∈ runAttempts server inputs,
        attempt.reading = some reading ∧ attempt.node = node) ↔
      (reading, node) ∈ runHeads server inputs ∧
        server.config.timeoutMs < reading - node.arrivalTime := by
  induction inputs generalizing server with
  | nil =>
    constructor
    · rintro ⟨attempt, hattempt, -⟩
      exact absurd hattempt List.not_mem_nil
    · rintro ⟨hhead, -⟩
      exact absurd hhead List.not_mem_nil
  | cons input inputs ih =>
    have hcheck :=
      @exists_mem_checkAttempts_iff input.now reading (serverBeforeCheck server input) node
    rw [config_serverBeforeCheck] at hcheck
    have hlater := @ih (serverStep server input)
    rw [config_serverStep] at hlater
    rw [runAttempts, runHeads, runChecks, List.flatMap_cons, List.mem_append, List.mem_map,
      ← runHeads]
    constructor
    · rintro ⟨attempt, hattempt, hreading, hnode⟩
      rcases List.mem_append.mp hattempt with hattempt | hattempt
      · rcases List.mem_append.mp hattempt with hattempt | hattempt
        · rw [reading_of_mem_receiveAttempts hattempt] at hreading
          exact absurd hreading.symm (Option.some_ne_none _)
        · obtain ⟨rfl, hhead, hlate⟩ := hcheck.mp ⟨attempt, hattempt, hreading, hnode⟩
          exact ⟨Or.inl ⟨node, hhead, rfl⟩, hlate⟩
      · obtain ⟨hhead, hlate⟩ := hlater.mp ⟨attempt, hattempt, hreading, hnode⟩
        exact ⟨Or.inr hhead, hlate⟩
    · rintro ⟨⟨head, hhead, heq⟩ | hhead, hlate⟩
      · obtain ⟨rfl, rfl⟩ := Prod.mk.inj heq
        obtain ⟨attempt, hattempt, hforced⟩ := hcheck.mpr ⟨rfl, hhead, hlate⟩
        exact ⟨attempt, List.mem_append_left _ (List.mem_append_right _ hattempt), hforced⟩
      · obtain ⟨attempt, hattempt, hforced⟩ := hlater.mpr ⟨hhead, hlate⟩
        exact ⟨attempt, List.mem_append_right _ hattempt, hforced⟩

/-! ## No entry too early -/

/-- An entry is forced out by a reading that fits only if it is overdue. -/
theorem isOverdue_of_readingFits {server : Server} {inputs : List ServerInput}
    (hfits : ∀ head ∈ runHeads server inputs,
      ReadingFits server.config.timeoutMs head.1 head.2) :
    ∀ attempt ∈ runAttempts server inputs, ∀ now,
      attempt.reading = some now → IsOverdue server.config.timeoutMs now attempt.node := by
  intro attempt hattempt now hreading
  obtain ⟨hhead, hlate⟩ := exists_mem_runAttempts_iff.mp ⟨attempt, hattempt, hreading, rfl⟩
  exact readingFits_iff.mp (hfits _ hhead) hlate

/-- **When no entry is forced out early.**  In a run from `server_init`, on whatever clock
readings, every forced write is of an overdue entry exactly if the reading fits every head
that a check looks at. -/
theorem forcedOut_overdue_iff (config : ServerConfig) (disk : ℕ → DiskOutcome)
    (inputs : List ServerInput) :
    (∀ attempt ∈ runAttempts (serverInit config disk) inputs, ∀ now,
        attempt.reading = some now → IsOverdue config.timeoutMs now attempt.node) ↔
      ∀ head ∈ runHeads (serverInit config disk) inputs,
        ReadingFits config.timeoutMs head.1 head.2 := by
  constructor
  · rintro hoverdue ⟨now, node⟩ hhead
    refine readingFits_iff.mpr fun hlate => ?_
    obtain ⟨attempt, hattempt, hreading, rfl⟩ :=
      exists_mem_runAttempts_iff.mpr ⟨hhead, hlate⟩
    exact hoverdue attempt hattempt now hreading
  · exact fun hfits => @isOverdue_of_readingFits (serverInit config disk) inputs hfits

/-- An entry arrives, and the clock is set back by a millisecond before the check. -/
def clockBackInputs : List ServerInput :=
  [.datagram 100 (some (LogEntry.ofClock [2, 0] two_le_vcMaxNodes)) 5000 4999]

/-- The entry is forced out at once. -/
theorem clockBackInputs_forcedOut :
    ∃ attempt ∈ runAttempts (serverInit ⟨2, 1000⟩ reliableDisk) clockBackInputs,
      attempt.reading = some 4999 ∧ attempt.node.arrivalTime = 5000 ∧
        ¬ IsOverdue 1000 4999 attempt.node := by
  decide +kernel

/-! ## Clock readings in order -/

/-- The clock readings of a turn. -/
def ServerInput.readings : ServerInput → List UInt64
  | .datagram _ (some _) arrivalTime now => [arrivalTime, now]
  | .datagram _ none _ now => [now]
  | .poll now => [now]

/-- The reading of the check is the last of its turn. -/
theorem ServerInput.exists_readings_eq (input : ServerInput) :
    ∃ first, input.readings = first ++ [input.now] := by
  cases input with
  | poll now => exact ⟨[], rfl⟩
  | datagram len parsed arrivalTime now =>
    cases parsed with
    | none => exact ⟨[], rfl⟩
    | some entry => exact ⟨[arrivalTime], rfl⟩

/-- The clock never goes back. -/
def ClockMonotone (inputs : List ServerInput) : Prop :=
  (inputs.flatMap ServerInput.readings).Pairwise (· ≤ ·)

instance (inputs : List ServerInput) : Decidable (ClockMonotone inputs) :=
  inferInstanceAs (Decidable (List.Pairwise (· ≤ ·) _))

/-- The entries of the buffer arrived at one of the times. -/
def ArrivedAt (times : List UInt64) (server : Server) : Prop :=
  ∀ node ∈ server.buffer, node.arrivalTime ∈ times

theorem arrivedAt_removals (times : List UInt64) : Server.Removals (ArrivedAt times) where
  discard _ _ _ _ hbuffer _ h := forall_mem_taken h hbuffer
  commit _ _ _ _ _ hbuffer _ h := forall_mem_taken h hbuffer

theorem ArrivedAt.mono {times times' : List UInt64} {server : Server}
    (h : ArrivedAt times server) (hsub : ∀ time ∈ times, time ∈ times') :
    ArrivedAt times' server := fun node hnode => hsub _ (h node hnode)

/-- A turn adds its readings to the times of arrival. -/
theorem ArrivedAt.beforeCheck {times : List UInt64} {server : Server} (h : ArrivedAt times server)
    (input : ServerInput) : ArrivedAt (times ++ input.readings) (serverBeforeCheck server input) := by
  have hmore : ArrivedAt (times ++ input.readings) server :=
    h.mono fun time htime => List.mem_append_left _ htime
  cases input with
  | poll now => exact hmore
  | datagram len parsed arrivalTime now =>
    cases parsed with
    | none => exact hmore
    | some entry =>
      have hinsert : ArrivedAt (times ++ [arrivalTime, now])
          (serverInsertToBuffer (server.countReceived len) entry arrivalTime) :=
        forall_mem_serverInsertToBuffer hmore (List.mem_append_right _ List.mem_cons_self)
      exact ((arrivedAt_removals _).flush hinsert).1

theorem ArrivedAt.check {times : List UInt64} {server : Server} (h : ArrivedAt times server)
    (now : UInt64) : ArrivedAt times (serverCheckTimeoutFlush now server) :=
  fun node hnode => h node ((buffer_serverCheckTimeoutFlush_sublist now server).subset hnode)

/-- On a clock that never goes back, what a check finds in the buffer arrived before. -/
theorem ArrivedAt.le_of_mem_runChecks {times : List UInt64} {server : Server}
    (h : ArrivedAt times server) {inputs : List ServerInput}
    (hclock : (times ++ inputs.flatMap ServerInput.readings).Pairwise (· ≤ ·)) :
    ∀ check ∈ runChecks server inputs, check.2.config = server.config ∧
      ∀ node ∈ check.2.buffer, node.arrivalTime ≤ check.1 := by
  induction inputs generalizing times server with
  | nil => exact fun check hcheck => absurd hcheck List.not_mem_nil
  | cons input inputs ih =>
    have hbefore := h.beforeCheck input
    rw [List.flatMap_cons, ← List.append_assoc] at hclock
    have hlater := ih (serverStep_eq server input ▸ hbefore.check input.now) hclock
    rw [config_serverStep] at hlater
    intro check hcheck
    rcases List.mem_cons.mp hcheck with rfl | hcheck
    · refine ⟨config_serverBeforeCheck server input, fun node hnode => ?_⟩
      obtain ⟨first, hlast⟩ := input.exists_readings_eq
      have hreadings := (List.pairwise_append.mp hclock).1
      have harrival := hbefore node hnode
      rw [hlast, ← List.append_assoc] at hreadings harrival
      rcases List.mem_append.mp harrival with harrival | harrival
      · exact (List.pairwise_append.mp hreadings).2.2 _ harrival _ (List.mem_singleton_self _)
      · rw [List.mem_singleton.mp harrival]
        exact UInt64.le_refl _
    · exact hlater check hcheck

/-! ## No entry too late -/

/-- No overdue entry stands behind one that is not. -/
def OverdueFirst (timeoutMs now : UInt64) (buffer : List LogBufferNode) : Prop :=
  buffer.Pairwise fun x y => IsOverdue timeoutMs now y → IsOverdue timeoutMs now x

instance (timeoutMs now : UInt64) (buffer : List LogBufferNode) :
    Decidable (OverdueFirst timeoutMs now buffer) :=
  inferInstanceAs (Decidable (List.Pairwise _ buffer))

/-- The entries of a list in the order of arrival become overdue from the front. -/
theorem overdueFirst_of_arrivalOrder {timeoutMs now : UInt64} {buffer : List LogBufferNode}
    (h : buffer.Pairwise fun x y => x.arrivalTime ≤ y.arrivalTime) :
    OverdueFirst timeoutMs now buffer := by
  refine h.imp fun {x y} hle hy => ?_
  rw [UInt64.le_iff_toNat_le] at hle
  rw [IsOverdue] at hy ⊢
  omega

/-- **One check.**  If no overdue entry stands behind one that is not, none is left. -/
theorem OverdueFirst.check {now : UInt64} {server : Server}
    (harrived : ∀ node ∈ server.buffer, node.arrivalTime ≤ now)
    (h : OverdueFirst server.config.timeoutMs now server.buffer) :
    ∀ node ∈ (serverCheckTimeoutFlush now server).buffer,
      ¬ IsOverdue server.config.timeoutMs now node := by
  have hsub := buffer_serverCheckTimeoutFlush_sublist now server
  have hfirst := h.sublist hsub
  have hconfig : (serverCheckTimeoutFlush now server).config = server.config := by
    rw [config_books.check, List.foldl_fixed]
  have hstop := forcePass_eq_none_iff.mp ((check_runs now).pass_run (check_lowers now) server)
  rw [hconfig] at hstop
  cases hbuffer : (serverCheckTimeoutFlush now server).buffer with
  | nil => exact fun node hnode => absurd hnode List.not_mem_nil
  | cons head rest =>
    have hhead : ¬ IsOverdue server.config.timeoutMs now head := by
      have hmem : head ∈ server.buffer := hsub.subset (by rw [hbuffer]; exact List.mem_cons_self)
      rw [← late_iff_isOverdue (harrived head hmem)]
      exact hstop head rest hbuffer
    rw [hbuffer, List.pairwise_cons] at hfirst
    intro node hnode
    rcases List.mem_cons.mp hnode with rfl | hnode
    · exact hhead
    · exact fun hoverdue => hhead (hfirst.1 node hnode hoverdue)

/-- **When no entry stays too long.**  In a run from `server_init` on a clock that never
goes back, if no check finds an overdue entry behind one that is not, no check leaves an
overdue entry.  A check that forces nothing out leaves none exactly under this
condition. -/
theorem none_overdue_of_overdueFirst (config : ServerConfig) (disk : ℕ → DiskOutcome)
    (inputs : List ServerInput) (hclock : ClockMonotone inputs) :
    let checks := runChecks (serverInit config disk) inputs
    ((∀ check ∈ checks, OverdueFirst config.timeoutMs check.1 check.2.buffer) →
      ∀ check ∈ checks, ∀ node ∈ (serverCheckTimeoutFlush check.1 check.2).buffer,
        ¬ IsOverdue config.timeoutMs check.1 node) ∧
    ∀ check ∈ checks, checkAttempts check.1 check.2 = [] →
      ((∀ node ∈ (serverCheckTimeoutFlush check.1 check.2).buffer,
          ¬ IsOverdue config.timeoutMs check.1 node) ↔
        OverdueFirst config.timeoutMs check.1 check.2.buffer) := by
  intro checks
  have hinit : ArrivedAt [] (serverInit config disk) :=
    fun node hnode => absurd hnode List.not_mem_nil
  have hchecks : ∀ check ∈ checks, check.2.config = config ∧
      ∀ node ∈ check.2.buffer, node.arrivalTime ≤ check.1 := hinit.le_of_mem_runChecks hclock
  have hone : ∀ check ∈ checks, OverdueFirst config.timeoutMs check.1 check.2.buffer →
      ∀ node ∈ (serverCheckTimeoutFlush check.1 check.2).buffer,
        ¬ IsOverdue config.timeoutMs check.1 node := by
    intro check hcheck hfirst
    obtain ⟨hconfig, harrived⟩ := hchecks check hcheck
    have hleft := @OverdueFirst.check check.1 check.2 harrived (by rw [hconfig]; exact hfirst)
    rwa [hconfig] at hleft
  refine ⟨fun hfirst check hcheck => hone check hcheck (hfirst check hcheck),
    fun check hcheck hnothing => ⟨fun hleft => ?_, hone check hcheck⟩⟩
  have hstop : forcePass check.1 check.2 = none := by
    cases hforce : forcePass check.1 check.2 with
    | none => rfl
    | some next =>
      obtain ⟨node, rest, hbuffer, hlate, -⟩ := forcePass_eq_some_iff.mp hforce
      rw [checkAttempts_next hforce, forceAttempts_of_late hbuffer hlate] at hnothing
      exact absurd hnothing (by simp)
  rw [(check_runs check.1).stop _ hstop] at hleft
  exact List.pairwise_of_forall_mem_list fun x _ y hy hoverdue => absurd hoverdue (hleft y hy)

/-- **No entry is forced out early** as long as the clock never goes back. -/
theorem forcedOut_overdue_of_clockMonotone (config : ServerConfig) (disk : ℕ → DiskOutcome)
    {inputs : List ServerInput} (hclock : ClockMonotone inputs) :
    ∀ attempt ∈ runAttempts (serverInit config disk) inputs, ∀ now,
      attempt.reading = some now → IsOverdue config.timeoutMs now attempt.node := by
  refine @isOverdue_of_readingFits (serverInit config disk) inputs fun head hhead => ?_
  obtain ⟨check, hcheck, hmem⟩ := List.mem_flatMap.mp hhead
  obtain ⟨node, hnode, rfl⟩ := List.mem_map.mp hmem
  have hinit : ArrivedAt [] (serverInit config disk) :=
    fun node hnode => absurd hnode List.not_mem_nil
  exact Or.inl ((hinit.le_of_mem_runChecks hclock check hcheck).2 node
    (mem_buffer_of_mem_checkHeads hnode))

/-- Two entries that both miss predecessors.  The one that comes later stands in front, since
it has the smaller timestamp. -/
def lateHeadInputs : List ServerInput :=
  [.datagram 100 (some { LogEntry.ofClock [0, 5] two_le_vcMaxNodes with timestamp := 2 })
      1000 1000,
    .datagram 100 (some { LogEntry.ofClock [2, 0] two_le_vcMaxNodes with timestamp := 1 })
      1500 1500,
    .poll 2100]

/-- The first entry waits for 1100 ms and stays behind the second. -/
theorem lateHeadInputs_overdue_left :
    ClockMonotone lateHeadInputs ∧
      (serverRun (serverInit ⟨2, 1000⟩ reliableDisk) lateHeadInputs).buffer.map
        (·.arrivalTime) = [1500, 1000] ∧
      ∃ node ∈ (serverRun (serverInit ⟨2, 1000⟩ reliableDisk) lateHeadInputs).buffer,
        IsOverdue 1000 2100 node := by
  decide +kernel

/-- Without the second entry the first is forced out. -/
theorem none_overdue_oneEntry :
    let checks := runChecks (serverInit ⟨2, 1000⟩ reliableDisk)
      [.datagram 100 (some (LogEntry.ofClock [0, 5] (by decide))) 1000 1000, .poll 2100]
    checks.length = 2 ∧ ∀ check ∈ checks,
      ∀ node ∈ (serverCheckTimeoutFlush check.1 check.2).buffer, ¬ IsOverdue 1000 check.1 node :=
  ⟨rfl, (none_overdue_of_overdueFirst ⟨2, 1000⟩ reliableDisk
    [.datagram 100 (some (LogEntry.ofClock [0, 5] (by decide))) 1000 1000, .poll 2100]
    (by decide +kernel)).1 (by decide +kernel)⟩

end LogAgg
