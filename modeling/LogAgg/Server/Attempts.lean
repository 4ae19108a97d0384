import LogAgg.Server.Fixpoint

/-!
# The writes of a run

Every write of the two loops as a record of its own: the state at the call of
`server_write_entry_to_file`, the node, and the state when the loop is done with the node.
Nothing reads these records; they are what the statements about single writes quantify
over.

* `WriteAttempt.Valid`: what a write of the loops can be, and `valid_of_mem_runAttempts`.
* `Server.Invariant.mem_runAttempts`: an invariant holds at every write.
* `Books`: a quantity that only writes change, and its value at the end of a run.

Both loops ignore what the write returns (`failedWrites_lose_nothing_iff`).
-/

namespace LogAgg

open Loop

/-- A write of the loops.  `reading` is the clock of the check that forces the entry out;
an entry that is released has none. -/
structure WriteAttempt where
  reading : Option UInt64
  before : Server
  node : LogBufferNode
  after : Server

/-- What `server_write_entry_to_file` returns. -/
def WriteAttempt.answer (attempt : WriteAttempt) : ℤ :=
  (serverWriteEntryToFile attempt.before attempt.node.entry).1

/-- The write in one turn of a flush, if it releases a node. -/
def releaseAttempt (server : Server) : Option WriteAttempt :=
  match flushWalk server.committedVc server.buffer with
  | some (.release, node, rest) => some ⟨none, server, node, server.commit false node rest⟩
  | _ => none

/-- The writes of `server_flush_causal_buffer`. -/
def flushAttempts (server : Server) : List WriteAttempt :=
  (trail flushPass server.buffer.length server).filterMap releaseAttempt

/-- The writes in one turn of a check. -/
def forceAttempts (now : UInt64) (server : Server) : List WriteAttempt :=
  match server.buffer with
  | [] => []
  | node :: rest =>
      if server.config.timeoutMs < now - node.arrivalTime then
        ⟨some now, server, node, server.commit true node rest⟩ ::
          flushAttempts (server.commit true node rest)
      else []

/-- The writes of `server_check_timeout_flush`. -/
def checkAttempts (now : UInt64) (server : Server) : List WriteAttempt :=
  (trail (forcePass now) server.buffer.length server).flatMap (forceAttempts now)

/-- The clock reading of the check that ends a turn. -/
def ServerInput.now : ServerInput → UInt64
  | .datagram _ _ _ now => now
  | .poll now => now

/-- The state in which a turn reaches its check. -/
def serverBeforeCheck (server : Server) : ServerInput → Server
  | .datagram len parsed arrivalTime _ => serverReceive (server.countReceived len) parsed arrivalTime
  | .poll _ => server

theorem serverStep_eq (server : Server) (input : ServerInput) :
    serverStep server input = serverCheckTimeoutFlush input.now (serverBeforeCheck server input) := by
  cases input <;> rfl

/-- The writes of a turn before its check. -/
def receiveAttempts (server : Server) : ServerInput → List WriteAttempt
  | .datagram len (some entry) arrivalTime _ =>
      flushAttempts (serverInsertToBuffer (server.countReceived len) entry arrivalTime)
  | _ => []

/-- The writes of `server_run`. -/
def runAttempts (server : Server) : List ServerInput → List WriteAttempt
  | [] => []
  | input :: inputs =>
      receiveAttempts server input ++ checkAttempts input.now (serverBeforeCheck server input) ++
        runAttempts (serverStep server input) inputs

/-! ## The writes, one turn at a time -/

theorem flushAttempts_stop {server : Server} (h : flushPass server = none) :
    flushAttempts server = [] := by
  have hwalk := flushWalk_of_settled (flushPass_eq_none_iff.mp h)
  rw [flushAttempts, trail_of_none h, List.filterMap_cons, releaseAttempt, hwalk]
  rfl

theorem flushAttempts_next {server next : Server} (h : flushPass server = some next) :
    flushAttempts server = (releaseAttempt server).toList ++ flushAttempts next := by
  rw [flushAttempts, flush_lowers.trail_next h, List.filterMap_cons]
  cases releaseAttempt server <;> rfl

theorem checkAttempts_stop {now : UInt64} {server : Server} (h : forcePass now server = none) :
    checkAttempts now server = [] := by
  rw [checkAttempts, trail_of_none h, List.flatMap_cons, List.flatMap_nil, List.append_nil,
    forceAttempts]
  split
  · rfl
  · rename_i node rest hbuffer
    exact if_neg (forcePass_eq_none_iff.mp h node rest hbuffer)

theorem checkAttempts_next {now : UInt64} {server next : Server}
    (h : forcePass now server = some next) :
    checkAttempts now server = forceAttempts now server ++ checkAttempts now next := by
  rw [checkAttempts, (check_lowers now).trail_next h, List.flatMap_cons, checkAttempts]

theorem forceAttempts_of_late {now : UInt64} {server : Server} {node : LogBufferNode}
    {rest : List LogBufferNode} (hbuffer : server.buffer = node :: rest)
    (hlate : server.config.timeoutMs < now - node.arrivalTime) :
    forceAttempts now server = ⟨some now, server, node, server.commit true node rest⟩ ::
      flushAttempts (server.commit true node rest) := by
  rw [forceAttempts, hbuffer]
  exact if_pos hlate

/-- **A turn of a flush** either discards a node and writes nothing, or releases one. -/
theorem releaseAttempt_cases {server next : Server} (h : flushPass server = some next) :
    ∃ before node after, server.buffer = before ++ node :: after ∧
      (isStale server.committedVc node.entry = true ∧
          next = server.discard node (before ++ after) ∧ releaseAttempt server = none ∨
        isStale server.committedVc node.entry = false ∧
          increments server.committedVc node.entry = 1 ∧
          next = server.commit false node (before ++ after) ∧
          releaseAttempt server = some ⟨none, server, node, next⟩) := by
  obtain ⟨before, node, after, hbuffer, -, ⟨hwalk, hstale, hnext⟩ | ⟨hwalk, hstale, hone, hnext⟩⟩ :=
    flushPass_cases h
  · rw [releaseAttempt, hwalk]
    exact ⟨before, node, after, hbuffer, Or.inl ⟨hstale, hnext, rfl⟩⟩
  · rw [releaseAttempt, hwalk, hnext]
    exact ⟨before, node, after, hbuffer, Or.inr ⟨hstale, hone, rfl, rfl⟩⟩

/-! ## What a write can be -/

/-- A write of the loops takes its node out of the list: a release finds an entry that is
not stale and one step ahead, a check the head of the list when it is late. -/
def WriteAttempt.Valid (attempt : WriteAttempt) : Prop :=
  ∃ before after, attempt.before.buffer = before ++ attempt.node :: after ∧
    attempt.after = attempt.before.commit attempt.reading.isSome attempt.node (before ++ after) ∧
    match attempt.reading with
    | none => isStale attempt.before.committedVc attempt.node.entry = false ∧
        increments attempt.before.committedVc attempt.node.entry = 1
    | some now => before = [] ∧
        attempt.before.config.timeoutMs < now - attempt.node.arrivalTime

section Rules

variable {P : Server → Prop}

/-- What holds of a flush holds at each of its writes, which are releases. -/
theorem Server.Removals.mem_flushAttempts (hP : Server.Removals P) {server : Server}
    (h : P server) : ∀ attempt ∈ flushAttempts server,
      P attempt.before ∧ attempt.reading = none ∧ attempt.Valid := by
  induction server using flush_lowers.induct with
  | stop server hstop =>
    rw [flushAttempts_stop hstop]
    exact fun attempt hattempt => absurd hattempt List.not_mem_nil
  | next server next hnext ih =>
    obtain ⟨before, node, after, hbuffer, hturn⟩ := releaseAttempt_cases hnext
    rw [flushAttempts_next hnext]
    rcases hturn with ⟨hstale, rfl, hrelease⟩ | ⟨hstale, hone, rfl, hrelease⟩
    · rw [hrelease]
      exact ih (hP.discard server before after node hbuffer hstale h)
    · rw [hrelease]
      intro attempt hattempt
      rcases List.mem_cons.mp hattempt with rfl | hattempt
      · exact ⟨h, rfl, before, after, hbuffer, rfl, hstale, hone⟩
      · exact ih (hP.commit server false before after node hbuffer hstale h) attempt hattempt

theorem Server.Removals.before_of_mem_flushAttempts (hP : Server.Removals P) {server : Server}
    (h : P server) : ∀ attempt ∈ flushAttempts server, P attempt.before :=
  fun attempt hattempt => (hP.mem_flushAttempts h attempt hattempt).1

/-- The writes of a flush, from whatever state. -/
theorem valid_of_mem_flushAttempts (server : Server) :
    ∀ attempt ∈ flushAttempts server, attempt.reading = none ∧ attempt.Valid :=
  fun attempt hattempt =>
    ((Server.Invariant.const fun _ => True).removals.mem_flushAttempts trivial attempt hattempt).2

/-- The writes of a turn before its check are releases. -/
theorem reading_of_mem_receiveAttempts {server : Server} {input : ServerInput}
    {attempt : WriteAttempt} (h : attempt ∈ receiveAttempts server input) :
    attempt.reading = none := by
  unfold receiveAttempts at h
  split at h
  · exact (valid_of_mem_flushAttempts _ attempt h).1
  · exact absurd h List.not_mem_nil

/-- The writes of a check, from whatever state. -/
theorem valid_of_mem_checkAttempts (now : UInt64) (server : Server) :
    ∀ attempt ∈ checkAttempts now server, attempt.Valid := by
  induction server using (check_lowers now).induct with
  | stop server hstop =>
    rw [checkAttempts_stop hstop]
    exact fun attempt hattempt => absurd hattempt List.not_mem_nil
  | next server next hnext ih =>
    obtain ⟨node, rest, hbuffer, hlate, rfl⟩ := forcePass_eq_some_iff.mp hnext
    rw [checkAttempts_next hnext, forceAttempts_of_late hbuffer hlate]
    intro attempt hattempt
    rcases List.mem_append.mp hattempt with hattempt | hattempt
    · rcases List.mem_cons.mp hattempt with rfl | hattempt
      · exact ⟨[], rest, hbuffer, rfl, rfl, hlate⟩
      · exact (valid_of_mem_flushAttempts _ attempt hattempt).2
    · exact ih attempt hattempt

/-- What holds of a check that starts from a settled buffer holds at each of its writes. -/
theorem Server.Removals.before_of_mem_checkAttempts (hP : Server.Removals P) (now : UInt64)
    {server : Server} (h : P server) (hsettled : server.Settled) :
    ∀ attempt ∈ checkAttempts now server, P attempt.before := by
  induction server using (check_lowers now).induct with
  | stop server hstop =>
    rw [checkAttempts_stop hstop]
    exact fun attempt hattempt => absurd hattempt List.not_mem_nil
  | next server next hnext ih =>
    obtain ⟨node, rest, hbuffer, hlate, rfl⟩ := forcePass_eq_some_iff.mp hnext
    have hstale := (hsettled node (by rw [hbuffer]; exact List.mem_cons_self)).1
    have hforced := hP.commit server true [] rest node hbuffer hstale h
    rw [checkAttempts_next hnext, forceAttempts_of_late hbuffer hlate]
    intro attempt hattempt
    rcases List.mem_append.mp hattempt with hattempt | hattempt
    · rcases List.mem_cons.mp hattempt with rfl | hattempt
      · exact h
      · exact hP.before_of_mem_flushAttempts hforced attempt hattempt
    · have hflush := hP.flush hforced
      exact ih hflush.1 hflush.2 attempt hattempt

/-- What holds of a run holds at each of its writes. -/
theorem Server.Invariant.mem_runAttempts {admits : LogEntry → Prop}
    (hP : Server.Invariant admits P) {server : Server} {inputs : List ServerInput}
    (hadmits : ∀ entry ∈ receivedEntries inputs, admits entry) (h : P server)
    (hsettled : server.Settled) :
    ∀ attempt ∈ runAttempts server inputs, P attempt.before ∧ attempt.Valid := by
  induction inputs generalizing server with
  | nil => exact fun attempt hattempt => absurd hattempt List.not_mem_nil
  | cons input inputs ih =>
    rw [receivedEntries_cons, List.forall_mem_append] at hadmits
    obtain ⟨hfirst, hlater⟩ := hadmits
    have hstep := hP.step hfirst h hsettled
    have hreceive : (∀ attempt ∈ receiveAttempts server input, P attempt.before ∧ attempt.Valid) ∧
        P (serverBeforeCheck server input) ∧ (serverBeforeCheck server input).Settled := by
      cases input with
      | poll now => exact ⟨fun attempt hattempt => absurd hattempt List.not_mem_nil, h, hsettled⟩
      | datagram len parsed arrivalTime now =>
        cases parsed with
        | none =>
          exact ⟨fun attempt hattempt => absurd hattempt List.not_mem_nil,
            hP.count _ _ (hP.count server _ h), hsettled⟩
        | some entry =>
          have hinsert := hP.insert (server.countReceived len) entry arrivalTime
            (hfirst entry (by simp [receivedEntries])) hsettled (hP.count server _ h)
          refine ⟨fun attempt hattempt => ?_, hP.flush hinsert⟩
          have hreleased := hP.removals.mem_flushAttempts hinsert attempt hattempt
          exact ⟨hreleased.1, hreleased.2.2⟩
    intro attempt hattempt
    rcases List.mem_append.mp hattempt with hattempt | hattempt
    · rcases List.mem_append.mp hattempt with hattempt | hattempt
      · exact hreceive.1 attempt hattempt
      · exact ⟨hP.removals.before_of_mem_checkAttempts input.now hreceive.2.1 hreceive.2.2 attempt
          hattempt, valid_of_mem_checkAttempts input.now _ attempt hattempt⟩
    · exact ih hlater hstep.1 hstep.2 attempt hattempt

end Rules

/-- The writes of a run from `server_init`. -/
theorem valid_of_mem_runAttempts (config : ServerConfig) (disk : ℕ → DiskOutcome)
    (inputs : List ServerInput) :
    ∀ attempt ∈ runAttempts (serverInit config disk) inputs, attempt.Valid :=
  fun attempt hattempt => ((Server.Invariant.const fun _ => True).mem_runAttempts
    (fun _ _ => trivial) trivial (settled_serverInit config disk) attempt hattempt).2

/-! ## Quantities that only writes change -/

/-- The value of the server is updated by every write and left alone by everything else. -/
structure Books {β : Type*} (value : Server → β) (update : β → WriteAttempt → β) : Prop where
  receive : ∀ (server : Server) (len : ℕ), value (server.countReceived len) = value server
  error : ∀ server : Server, value server.countError = value server
  insert : ∀ (server : Server) (entry : LogEntry) (arrivalTime : UInt64),
    value (serverInsertToBuffer server entry arrivalTime) = value server
  discard : ∀ (server : Server) (node : LogBufferNode) (rest : List LogBufferNode),
    value (server.discard node rest) = value server
  commit : ∀ (reading : Option UInt64) (server : Server) (node : LogBufferNode)
    (rest : List LogBufferNode), value (server.commit reading.isSome node rest) =
      update (value server) ⟨reading, server, node, server.commit reading.isSome node rest⟩

namespace Books

variable {β : Type*} {value : Server → β} {update : β → WriteAttempt → β}

theorem flush (hbooks : Books value update) (server : Server) :
    value (serverFlushCausalBuffer server) = (flushAttempts server).foldl update (value server) := by
  induction server using flush_lowers.induct with
  | stop server hstop => rw [flush_runs.stop server hstop, flushAttempts_stop hstop, List.foldl_nil]
  | next server next hnext ih =>
    rw [flush_runs.next server next hnext, flushAttempts_next hnext, List.foldl_append, ih]
    obtain ⟨before, node, after, -, ⟨-, rfl, hrelease⟩ | ⟨-, -, rfl, hrelease⟩⟩ :=
      releaseAttempt_cases hnext
    · rw [hrelease, hbooks.discard]
      rfl
    · rw [hrelease]
      exact congrArg (List.foldl update · _) (hbooks.commit none server node (before ++ after))

theorem check (hbooks : Books value update) (now : UInt64) (server : Server) :
    value (serverCheckTimeoutFlush now server) =
      (checkAttempts now server).foldl update (value server) := by
  induction server using (check_lowers now).induct with
  | stop server hstop =>
    rw [(check_runs now).stop server hstop, checkAttempts_stop hstop, List.foldl_nil]
  | next server next hnext ih =>
    rw [(check_runs now).next server next hnext, checkAttempts_next hnext, List.foldl_append, ih]
    obtain ⟨node, rest, hbuffer, hlate, rfl⟩ := forcePass_eq_some_iff.mp hnext
    rw [forceAttempts_of_late hbuffer hlate, List.foldl_cons, hbooks.flush]
    exact congrArg (fun start => List.foldl update (List.foldl update start _) _)
      (hbooks.commit (some now) server node rest)

/-- **The books of a run.** -/
theorem run (hbooks : Books value update) (server : Server) (inputs : List ServerInput) :
    value (serverRun server inputs) = (runAttempts server inputs).foldl update (value server) := by
  induction inputs generalizing server with
  | nil => rfl
  | cons input inputs ih =>
    have hreceive : value (serverBeforeCheck server input) =
        (receiveAttempts server input).foldl update (value server) := by
      cases input with
      | poll now => rfl
      | datagram len parsed arrivalTime now =>
        cases parsed with
        | none => exact (hbooks.error _).trans (hbooks.receive server len)
        | some entry =>
          have hflush := hbooks.flush
            (serverInsertToBuffer (server.countReceived len) entry arrivalTime)
          rw [hbooks.insert, hbooks.receive] at hflush
          exact hflush
    rw [runAttempts, List.foldl_append, List.foldl_append, ← hreceive, ← hbooks.check,
      ← serverStep_eq, ← ih]
    rfl

end Books

/-- The writes of a run are those that its trace has noted. -/
theorem committedEntries_serverRun (server : Server) (inputs : List ServerInput) :
    committedEntries (serverRun server inputs).trace =
      committedEntries server.trace ++ (runAttempts server inputs).map (·.node.entry) := by
  have hbooks : Books (fun server => committedEntries server.trace)
      fun entries attempt => entries ++ [attempt.node.entry] :=
    { receive := fun _ _ => rfl
      error := fun _ => rfl
      insert := fun _ _ _ => rfl
      discard := fun server node rest => by simp
      commit := fun reading server node rest => by simp }
  rw [hbooks.run, List.foldl_append_eq_append, ← List.flatMap_def, List.map_eq_flatMap]

/-! ## Failed writes -/

/-- The disk takes the whole line of the entry: the log file opens, the JSON of the entry
fits its buffer, and `fwrite` counts every byte of it.  Nothing looks at the line break or at
`fflush`, which may still fail behind a write that returns 0. -/
def WriteAttempt.Succeeds (attempt : WriteAttempt) : Prop :=
  let outcome := attempt.before.disk attempt.before.writes
  outcome.opened = true ∧ ∃ json,
    logEntryToJson attempt.node.entry logaggMaxEntrySize = some json ∧
      json.length ≤ outcome.stored

theorem answer_cases (attempt : WriteAttempt) :
    attempt.answer = 0 ∧ attempt.Succeeds ∨ attempt.answer = -1 ∧ ¬ attempt.Succeeds := by
  unfold WriteAttempt.answer WriteAttempt.Succeeds serverWriteEntryToFile
  dsimp only
  split
  · rename_i hopened
    split
    · rename_i json hjson
      split
      · rename_i hstored
        exact Or.inl ⟨rfl, hopened, json, hjson, hstored⟩
      · rename_i hshort
        refine Or.inr ⟨rfl, ?_⟩
        rintro ⟨-, json', hjson', hstored⟩
        rw [hjson] at hjson'
        exact hshort (Option.some.inj hjson' ▸ hstored)
    · rename_i hjson
      refine Or.inr ⟨rfl, ?_⟩
      rintro ⟨-, json, hjson', -⟩
      rw [hjson] at hjson'
      exact absurd hjson'.symm (Option.some_ne_none json)
  · rename_i hopened
    exact Or.inr ⟨rfl, fun hsucceeds => hopened hsucceeds.1⟩

/-- The write returns 0 exactly if the disk takes the line. -/
theorem answer_eq_zero_iff {attempt : WriteAttempt} :
    attempt.answer = 0 ↔ attempt.Succeeds := by
  rcases answer_cases attempt with ⟨hanswer, hsucceeds⟩ | ⟨hanswer, hfails⟩
  · exact iff_of_true hanswer hsucceeds
  · refine iff_of_false (fun hzero => ?_) hfails
    omega

/-- If the write fails, the entry stays in the buffer, and the committed clock and the
counter stay as they are. -/
def WriteAttempt.LosesNothing (attempt : WriteAttempt) : Prop :=
  attempt.answer = -1 → attempt.node ∈ attempt.after.buffer ∧
    attempt.after.committedVc = attempt.before.committedVc ∧
    attempt.after.stats.totalStored = attempt.before.stats.totalStored

/-- A write of the loops counts the entry as stored, whatever it returns. -/
theorem WriteAttempt.Valid.losesNothing_iff {attempt : WriteAttempt} (h : attempt.Valid) :
    attempt.LosesNothing ↔ attempt.Succeeds := by
  obtain ⟨before, after, -, hafter, -⟩ := h
  rcases answer_cases attempt with ⟨hanswer, hsucceeds⟩ | ⟨hanswer, hfails⟩
  · refine iff_of_true (fun hfailed => ?_) hsucceeds
    omega
  · refine iff_of_false (fun hkeeps => ?_) hfails
    have hcount := (hkeeps hanswer).2.2
    rw [hafter, stats_commit] at hcount
    simp at hcount

/-- The counter counts every write, modulo `2 ^ 64`. -/
theorem totalStored_serverRun (config : ServerConfig) (disk : ℕ → DiskOutcome)
    (inputs : List ServerInput) :
    (serverRun (serverInit config disk) inputs).stats.totalStored.toNat =
      (runAttempts (serverInit config disk) inputs).length % 2 ^ 64 := by
  have hbooks : Books (fun server => server.stats.totalStored)
      fun total (_ : WriteAttempt) => total + 1 :=
    { receive := fun _ _ => rfl
      error := fun _ => rfl
      insert := fun _ _ _ => rfl
      discard := fun _ _ _ => rfl
      commit := fun reading server node rest => by rw [stats_commit] }
  have hcount : ∀ (attempts : List WriteAttempt) (start : UInt64),
      attempts.foldl (fun total _ => total + 1) start = start + UInt64.ofNat attempts.length := by
    intro attempts
    induction attempts with
    | nil => exact fun start => (UInt64.add_zero start).symm
    | cons attempt attempts ih =>
      intro start
      rw [List.foldl_cons, ih, List.length_cons, UInt64.ofNat_add, add_assoc,
        add_comm (UInt64.ofNat _)]
      rfl
  have htotal := hbooks.run (serverInit config disk) inputs
  rw [hcount] at htotal
  rw [htotal]
  show ((0 : UInt64) + UInt64.ofNat _).toNat = _
  rw [UInt64.zero_add, UInt64.toNat_ofNat']

/-- **When a failed write loses nothing**: never.  From every state and for every pattern
of failures, a flush or a check loses nothing exactly if the disk takes every line; and in
a run from `server_init` the counter is besides the number of the writes that returned 0
exactly if the disk takes every line and there are fewer than `2 ^ 64`. -/
theorem failedWrites_lose_nothing_iff (server : Server) (now : UInt64) (config : ServerConfig)
    (disk : ℕ → DiskOutcome) (inputs : List ServerInput) :
    ((∀ attempt ∈ flushAttempts server, attempt.LosesNothing) ↔
      ∀ attempt ∈ flushAttempts server, attempt.Succeeds) ∧
    ((∀ attempt ∈ checkAttempts now server, attempt.LosesNothing) ↔
      ∀ attempt ∈ checkAttempts now server, attempt.Succeeds) ∧
    ((∀ attempt ∈ runAttempts (serverInit config disk) inputs, attempt.LosesNothing) ∧
        (serverRun (serverInit config disk) inputs).stats.totalStored.toNat =
          (runAttempts (serverInit config disk) inputs).countP (·.answer = 0) ↔
      (∀ attempt ∈ runAttempts (serverInit config disk) inputs, attempt.Succeeds) ∧
        (runAttempts (serverInit config disk) inputs).length < 2 ^ 64) := by
  refine ⟨?_, ?_, ?_⟩
  · exact forall₂_congr fun attempt hattempt =>
      (valid_of_mem_flushAttempts server attempt hattempt).2.losesNothing_iff
  · exact forall₂_congr fun attempt hattempt =>
      (valid_of_mem_checkAttempts now server attempt hattempt).losesNothing_iff
  · let attempts := runAttempts (serverInit config disk) inputs
    have hkeeps : (∀ attempt ∈ attempts, attempt.LosesNothing) ↔
        ∀ attempt ∈ attempts, attempt.Succeeds := forall₂_congr fun attempt hattempt =>
      (valid_of_mem_runAttempts config disk inputs attempt hattempt).losesNothing_iff
    rw [hkeeps, totalStored_serverRun]
    refine and_congr_right fun hsucceeds => ?_
    have hall : attempts.countP (·.answer = 0) = attempts.length :=
      List.countP_eq_length.mpr fun attempt hattempt =>
        decide_eq_true (answer_eq_zero_iff.mpr (hsucceeds attempt hattempt))
    rw [hall]
    exact Nat.mod_eq_iff_lt (by decide)

/-- A file system on which the log file cannot be opened. -/
def closedDisk : ℕ → DiskOutcome := fun _ => ⟨ascii "2024-06-29", false, 0, false⟩

/-- The first entry of node 0 is lost. -/
theorem closedDisk_loses_entry :
    let server := serverRun (serverInit ⟨2, 1000⟩ closedDisk)
      [.datagram 100 (some (LogEntry.ofClock [1, 0] (by decide))) 1000 1000]
    (runAttempts (serverInit ⟨2, 1000⟩ closedDisk)
        [.datagram 100 (some (LogEntry.ofClock [1, 0] (by decide))) 1000 1000]).map
          (·.answer) = [-1] ∧
      server.buffer.length = 0 ∧ server.file = [] ∧ server.stats.totalStored = 1 ∧
      server.committedVc.slot 0 = 1 := by
  decide +kernel

end LogAgg
